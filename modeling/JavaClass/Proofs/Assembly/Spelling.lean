import JavaClass.ClassFile.Body
import JavaClass.Proofs.Assembly.Steps
import JavaClass.Proofs.Bytecode.Sizes
import JavaClass.Proofs.Constant.Trees

/-!
# How instructions are spelled

The class draft turns each instruction into cells. Wherever a class file shows
these cells with their offsets filled in, decoding finds the instruction again,
with offsets in the place of labels and with its handles in normal form. No
more bytes are there than the instruction takes, and a constant that it needs
is at the slot to which they refer.

## Implementation notes

`Spells` speaks of every window that shows the cells, of every table with the
constants of the draft and of every longer list of bootstrap methods, so it
stays true whatever is told after the instruction.
-/

namespace JavaClass

open BigEndian ConstantPool

namespace Bytecode

/-- Telling what was decoded gives an instruction. -/
inductive Decoded.Tells (table : ConstantTable) (bootstraps : Array Bootstrap) :
    Decoded → Instruction Nat → Prop where
  | complete (i : Instruction Nat) : Tells table bootstraps (.complete i) i
  | load {slot literal} (h : table.literal slot = .ok literal) :
      Tells table bootstraps (.load slot) (.load literal)
  | call {site bootstrap handle arguments}
      (found : bootstraps[site.bootstrap.toNat]? = some bootstrap)
      (method : table.methodHandle bootstrap.method = .ok handle)
      (literals : bootstrap.arguments.mapM table.literal = .ok arguments) :
      Tells table bootstraps (.call site)
        (.invokeDynamic site.name site.descriptor handle arguments)

theorem Decoded.Tells.targets {table : ConstantTable} {bootstraps : Array Bootstrap}
    {decoded : Decoded} {i : Instruction Nat} (h : decoded.Tells table bootstraps i) :
    decoded.targets = i.targets := by
  cases h <;> rfl

end Bytecode

/-- The constant that the code of an instruction refers to. -/
inductive Instruction.Operand (table : ConstantTable) (bootstraps : Array Bootstrap) :
    Instruction LabelToken → ConstantTree → Prop
  | field {opcode owner name descriptor} :
    Operand table bootstraps (.field opcode owner name descriptor) (.field owner name descriptor)
  | method {opcode owner name descriptor isInterface} :
    Operand table bootstraps (.method opcode owner name descriptor isInterface)
      (.method owner name descriptor isInterface)
  | type {opcode name} : Operand table bootstraps (.type opcode name) (.classNamed name)
  | load {value} : Operand table bootstraps (.load value) (.literal value)
  | multiNewArray {descriptor dimensions} :
    Operand table bootstraps (.multiNewArray descriptor dimensions) (.classNamed descriptor)
  | callSite {name descriptor handle arguments position}
      (names : ClassDraft.NamesBootstrap (handle, arguments) table bootstraps position) :
    Operand table bootstraps (.invokeDynamic name descriptor handle arguments)
      (.callSite position name descriptor)

/-- The cells at `origin` are decoded as the instruction wherever they are shown. -/
structure Spells (table : ConstantTable) (bootstraps : Array Bootstrap) (origin : Nat)
    (cells : List Cell) (i : Instruction LabelToken) : Prop where
  positive : 0 < (blankCells cells).length
  room : (blankCells cells).length ≤ i.room origin
  mentions : ∀ token ∈ i.targets, ∃ cell ∈ cells, ∃ wide, cell.piece = .branch wide token
  reads : ∀ (window : Bytecode.Window) (offset : LabelToken → Nat), window.constants = table →
    window.length ≤ countLimit → origin + (blankCells cells).length ≤ window.length →
      (∀ token ∈ i.targets, offset token ≤ window.length) →
        (∀ cell ∈ cells, cell.piece.Fits offset cell.origin) →
          window.Shows origin (fillCells offset cells) → ∃ decoded,
            window.decode origin = .ok (decoded, (blankCells cells).length - 1) ∧
              decoded.Tells table bootstraps (i.map offset).normal
  /-- If a constant is needed, one that may be is where the cells refer to. -/
  refers : (∃ tree, i.Operand table bootstraps tree) → ∃ tree slot,
    i.Operand table bootstraps tree ∧ tree.Shown table slot ∧
      ∀ (window : Bytecode.Window) offset, window.Shows origin (fillCells offset cells) →
        window.Refers origin slot

/-- Cells without a branch. -/
theorem spells_settled {table : ConstantTable} {bootstraps : Array Bootstrap} {origin : Nat}
    {cells : List Cell} {i : Instruction LabelToken} {byte : UInt8} {operands : List UInt8}
    (htargets : i.targets = []) (hfill : ∀ offset, fillCells offset cells = byte :: operands)
    (room : operands.length + 1 ≤ i.room origin)
    (refers : (∃ tree, i.Operand table bootstraps tree) → ∃ tree slot,
      i.Operand table bootstraps tree ∧ tree.Shown table slot ∧
        ∀ window : Bytecode.Window, window.Shows origin (byte :: operands) →
          window.Refers origin slot)
    (reads : ∀ window : Bytecode.Window, window.constants = table →
      window.Shows origin (byte :: operands) → ∃ decoded,
        window.decode origin = .ok (decoded, operands.length) ∧
          ∀ offset, decoded.Tells table bootstraps (i.map offset).normal) :
    Spells table bootstraps origin cells i := by
  have hlength : (blankCells cells).length = operands.length + 1 := by
    rw [← length_fillCells (fun _ => 0), hfill, List.length_cons]
  refine ⟨by omega, by omega, by simp [htargets], ?_, fun needed => ?_⟩
  · intro window offset hconstants _ _ _ _ hshows
    rw [hfill] at hshows
    obtain ⟨decoded, hdecode, htells⟩ := reads window hconstants hshows
    exact ⟨decoded, by rw [hdecode, hlength, Nat.add_sub_cancel], htells offset⟩
  · obtain ⟨tree, slot, operand, shown, refers⟩ := refers needed
    exact ⟨tree, slot, operand, shown, fun window offset hshows => refers window (hfill _ ▸ hshows)⟩

theorem fillCells_bytes (offset : LabelToken → Nat) (opcode : Opcode) (origin : Nat)
    (content : List UInt8) : fillCells offset [⟨opcode, origin, .bytes content⟩] = content := by
  simp [fillCells, Piece.fill]

namespace ClassDraft

variable {draft draft' : ClassDraft} {method method' : MethodDraft}

/-- An instruction was added to the method as these cells, and nothing else was changed. -/
structure Wrote (draft draft' : ClassDraft) (method method' : MethodDraft) (cells : List Cell)
    (i : Instruction LabelToken) : Prop where
  others : draft' = { draft with
    pool := draft'.pool
    bootstraps := draft'.bootstraps
    positions := draft'.positions
    method := some method' }
  appends : method.Appends method' cells
  grows : draft.Grows draft' i.calls
  spells : ∀ table bootstraps, draft'.ShownIn table bootstraps →
    Spells table bootstraps method.code.size cells i

/-- Some draft was reached in which the instruction is added. -/
def Writes (draft draft' : ClassDraft) (method : MethodDraft) (i : Instruction LabelToken) :
    Prop :=
  ∃ method' cells, Wrote draft draft' method method' cells i

section Edits

variable {i : Instruction LabelToken} (sound : draft.Sound) (hmethod : draft.method = some method)

include sound hmethod

/-- An instruction that only the method has to know of. -/
theorem writes_edit {edit : MethodDraft → MethodDraft} {cells : List Cell}
    (hcalls : i.calls = []) (appends : method.Appends (edit method) cells)
    (spells : ∀ table bootstraps, Spells table bootstraps method.code.size cells i)
    (h : editMethod edit draft = .ok () draft') : Writes draft draft' method i := by
  obtain ⟨found, hfound, rfl⟩ := editMethod_eq_ok_iff.mp h
  obtain rfl : method = found := Option.some.inj (hmethod.symm.trans hfound)
  refine ⟨edit method, cells, rfl, appends, ?_, fun table bootstraps _ => spells table bootstraps⟩
  rw [hcalls]
  exact sound.grows_of_same rfl rfl rfl

/-- An operation code with settled operands that need no constant. -/
theorem writes_emit {opcode : Opcode} {operands : List UInt8} (hcalls : i.calls = [])
    (htargets : i.targets = []) (room : operands.length + 1 ≤ i.room method.code.size)
    (plain : ∀ table bootstraps tree, ¬ i.Operand table bootstraps tree)
    (reads : ∀ window : Bytecode.Window, window.Shows method.code.size (opcode.byte :: operands) →
      ∃ decoded, window.decode method.code.size = .ok (decoded, operands.length) ∧
        ∀ table bootstraps offset, decoded.Tells table bootstraps (i.map offset).normal)
    (h : emit opcode operands draft = .ok () draft') : Writes draft draft' method i := by
  refine writes_edit sound hmethod hcalls (method.appends_emit method.code.size opcode operands)
    (fun table bootstraps => ?_) h
  refine spells_settled htargets (fun offset => fillCells_bytes ..) room
    (fun ⟨tree, needed⟩ => absurd needed (plain table bootstraps tree)) fun window _ hshows => ?_
  obtain ⟨decoded, hdecode, htells⟩ := reads window hshows
  exact ⟨decoded, hdecode, htells table bootstraps⟩

/-- An operation code whose operands need a slot of the pool. -/
theorem writes_request (tree : ConstantTree) {post : ConstantTable → UInt16 → Prop}
    (gives : tree.request.Gives post) {opcode : UInt16 → Opcode} {operands : UInt16 → List UInt8}
    (hcalls : i.calls = []) (htargets : i.targets = [])
    (operand : ∀ table bootstraps, i.Operand table bootstraps tree)
    (room : ∀ slot, (operands slot).length + 1 ≤ i.room method.code.size)
    (refers : ∀ (window : Bytecode.Window) slot,
      window.Shows method.code.size ((opcode slot).byte :: operands slot) →
        window.Refers method.code.size slot)
    (reads : ∀ (window : Bytecode.Window) slot, post window.constants slot →
      window.Shows method.code.size ((opcode slot).byte :: operands slot) →
        ∃ decoded, window.decode method.code.size = .ok (decoded, (operands slot).length) ∧
          ∀ bootstraps offset,
            decoded.Tells window.constants bootstraps (i.map offset).normal)
    (h : (request tree.request >>= fun slot => emit (opcode slot) (operands slot)) draft =
      .ok () draft') : Writes draft draft' method i := by
  obtain ⟨slot, draft₁, hrequest, h⟩ := bind_eq_ok_iff.mp h
  obtain ⟨pool, hask, rfl⟩ := request_eq_ok_iff.mp hrequest
  obtain ⟨grows, hpost, -⟩ := sound.grows_request gives hask
  obtain ⟨-, hstands, -⟩ := sound.grows_request tree.gives_request hask
  obtain ⟨found, hfound, rfl⟩ := editMethod_eq_ok_iff.mp h
  obtain rfl : method = found := Option.some.inj (hmethod.symm.trans hfound)
  refine ⟨_, _, rfl, method.appends_emit method.code.size (opcode slot) (operands slot), ?_,
    fun table bootstraps shown => ?_⟩
  · rw [hcalls]
    exact grows.trans (grows.sound.grows_of_same rfl rfl rfl)
  · refine spells_settled htargets (fun offset => fillCells_bytes ..) (room slot)
      (fun _ => ⟨tree, slot, operand table bootstraps, (hstands table shown.pool).2,
        fun window hshows => refers window slot hshows⟩) fun window hwindow hshows => ?_
    subst hwindow
    obtain ⟨decoded, hdecode, htells⟩ := reads window slot (hpost _ shown.pool) hshows
    exact ⟨decoded, hdecode, htells bootstraps⟩

end Edits

end ClassDraft

end JavaClass
