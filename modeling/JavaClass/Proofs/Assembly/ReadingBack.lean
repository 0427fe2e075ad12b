import JavaClass.Proofs.Assembly.Classes
import JavaClass.Proofs.Assembly.Deliveries
import JavaClass.Proofs.Assembly.Files

/-!
# Instructions that are read back

An instruction that a class draft takes is decoded again from the finished code
of its method, at the offset where it was put, and the next instruction starts
where the draft goes on. What the draft got before, meanwhile and afterwards
does not matter, nor what of it was refused.

## Implementation notes

The draft takes every operation code for a member or a type. So what is decoded
is what was told only if the code is one that a member or a type can follow
(`Instruction.Documented`). The bootstrap method of a call site is found by its
position, which is only right if there are not too many of them and if no class
has ended before.
-/

namespace JavaClass

open Bytecode ConstantPool

/-- Without a call of a bootstrap method, the bootstrap methods do not matter. -/
theorem Bytecode.Decoded.Tells.of_calls {table : ConstantTable} {bootstraps : Array Bootstrap}
    {decoded : Decoded} {i : Instruction Nat} (h : decoded.Tells table bootstraps i)
    (hcalls : i.calls = []) (other : Array Bootstrap) : decoded.Tells table other i := by
  cases h with
  | complete => exact .complete _
  | load h => exact .load h
  | call => cases hcalls

theorem Instruction.Operand.of_calls {table : ConstantTable} {bootstraps : Array Bootstrap}
    {i : Instruction LabelToken} {tree : ConstantTree} (h : i.Operand table bootstraps tree)
    (hcalls : i.calls = []) (other : Array Bootstrap) : i.Operand table other tree := by
  cases h with
  | field => exact .field
  | method => exact .method
  | type => exact .type
  | load => exact .load
  | multiNewArray => exact .multiNewArray
  | callSite => cases hcalls

theorem Spells.of_calls {table : ConstantTable} {bootstraps : Array Bootstrap} {origin : Nat}
    {cells : List Cell} {i : Instruction LabelToken}
    (spells : Spells table bootstraps origin cells i) (hcalls : i.calls = [])
    (other : Array Bootstrap) : Spells table other origin cells i where
  positive := spells.positive
  room := spells.room
  mentions := spells.mentions
  refers := by
    rintro ⟨needed, operand⟩
    obtain ⟨tree, slot, operand, rest⟩ := spells.refers ⟨needed, operand.of_calls hcalls bootstraps⟩
    exact ⟨tree, slot, operand.of_calls hcalls other, rest⟩
  reads := by
    intro window offset hconstants small room targets fits shows
    obtain ⟨decoded, hdecode, htells⟩ :=
      spells.reads window offset hconstants small room targets fits shows
    have hcalls' : (i.map offset).normal.calls = [] := by
      cases i with
      | invokeDynamic => cases hcalls
      | _ => rfl
    exact ⟨decoded, hdecode, htells.of_calls hcalls' other⟩

section Patched

variable {table : ConstantTable} {bootstraps : Array Bootstrap} {before cells after : List Cell}
  {i : Instruction LabelToken} {method : MethodDraft} {code : Array UInt8}
  (made : method.MadeOf (before ++ cells ++ after)) (hpatched : method.patchedCode = .ok code)

include made hpatched

/-- The targets of an instruction have a place once all offsets are filled in. -/
theorem Spells.placed {origin : Nat} (spells : Spells table bootstraps origin cells i) :
    ∀ token ∈ i.targets, ∃ n, method.labels[token]? = some n := by
  obtain ⟨-, filled, -⟩ := MethodDraft.patchedCode_eq_ok made hpatched
  intro token htoken
  obtain ⟨cell, hcell, wide, hbranch⟩ := spells.mentions token htoken
  have hmem : cell ∈ before ++ cells ++ after :=
    List.mem_append_left _ (List.mem_append_right _ hcell)
  exact filled.placed cell hmem wide token hbranch

/-- An instruction among other cells is decoded once all offsets are filled in. -/
theorem Spells.decode_eq {window : Window} (formed : method.Formed)
    (spells : Spells window.constants bootstraps (blankCells before).length cells i)
    (hlength : window.length = code.size) (shows : window.Shows 0 code.toList) :
    ∃ decoded,
      window.decode (blankCells before).length = .ok (decoded, (blankCells cells).length - 1) ∧
      decoded.Tells window.constants bootstraps (i.map method.offsetD).normal := by
  obtain ⟨small, filled, hfilled⟩ := MethodDraft.patchedCode_eq_ok made hpatched
  have hsize : window.length = (blankCells (before ++ cells ++ after)).length := by
    rw [hlength, ← Array.length_toList, hfilled, length_fillCells]
  rw [hfilled, fillCells_append, fillCells_append] at shows
  have hshows := shows.left.right
  rw [length_fillCells, Nat.zero_add] at hshows
  refine spells.reads window method.offsetD rfl (by omega) ?_ ?_ ?_ hshows
  · rw [hsize, blankCells_append, blankCells_append, List.length_append, List.length_append]
    omega
  · intro token htoken
    obtain ⟨n, hn⟩ := spells.placed made hpatched token htoken
    rw [MethodDraft.offsetD, hn, Option.getD_some, hsize, ← made.size]
    exact formed.placed hn
  · exact fun cell hcell =>
      filled.fits cell (List.mem_append_left _ (List.mem_append_right _ hcell))

end Patched

namespace ClassDraft

variable {draft draft' : ClassDraft} {method : MethodDraft} {i : Instruction LabelToken}

/-- An instruction that was taken is spelled in cells, whatever the bootstrap methods are if it
calls none. -/
theorem exists_spelling (valid : draft.pool.Valid) (hmethod : draft.method = some method)
    (hpseudo : i.isPseudo = false) (documented : i.Documented)
    (h : instruction i draft = .ok () draft') {table : ConstantTable}
    {bootstraps : Array Bootstrap} (within : draft'.pool.Within table)
    (hbootstraps : i.calls = [] ∨ draft.Sound ∧ draft'.bootstraps.toList <+: bootstraps.toList ∧
      bootstraps.size ≤ countLimit) :
    ∃ method' cells, draft'.method = some method' ∧ method.Appends method' cells ∧
      Spells table bootstraps method.code.size cells i := by
  obtain hcalls | ⟨sound, grown, few⟩ := hbootstraps
  · -- bootstrap methods may be wrong here, so they are left out
    have sound : Sound { draft with bootstraps := #[], positions := ∅ } :=
      ⟨valid, by simp, by simp, by simp⟩
    have hbare := (confined_instruction hcalls).eq_ok h #[] ∅
    obtain ⟨method', cells, wrote⟩ :=
      writes_instruction sound hmethod hpseudo documented hbare
    have hmethod' : draft'.method = some method' := congrArg ClassDraft.method wrote.others
    have spells := wrote.spells table #[] ⟨within, List.prefix_rfl, Nat.zero_le _⟩
    exact ⟨method', cells, hmethod', wrote.appends, spells.of_calls hcalls bootstraps⟩
  · obtain ⟨method', cells, wrote⟩ := writes_instruction sound hmethod hpseudo documented h
    have hmethod' : draft'.method = some method' := congrArg ClassDraft.method wrote.others
    exact ⟨method', cells, hmethod', wrote.appends, wrote.spells _ _ ⟨within, grown, few⟩⟩

/-- The constants of a class under construction, or of the file that it ends in. -/
inductive FinalTable (draft : ClassDraft) : ConstantTable → Prop where
  | pool : FinalTable draft ⟨draft.pool.entries⟩
  | file {last : ClassDraft} {content : List UInt8} {file : ClassFile}
      (ended : receive .classEnd draft = .ok () last) (written : last.bytes = .ok content)
      (opened : ClassFile.read content.toArray = .ok file) : FinalTable draft file.constants

theorem FinalTable.within {table : ConstantTable} (final : draft.FinalTable table)
    (valid : draft.pool.Valid) : draft.pool.Within table := by
  cases final with
  | pool => exact valid.within_self
  | @file last content file ended written opened =>
      cases hheader : draft.header with
      | none =>
          simp only [receive, finish] at ended
          obtain ⟨header, draft₁, htake, ended⟩ := bind_eq_ok_iff.mp ended
          cases htake
          simp only [hheader] at ended
          cases ended
      | some header =>
          obtain ⟨pool, entries, valid', below, encoded, -⟩ :=
            finish_eq_ok valid hheader ended written
          have stands :=
            ClassParts.in_of_read valid'.writable encoded (Bytes.holds_all content) opened
          rw [stands.constants]
          exact valid'.within_self.of_below below

/-- A class draft takes an instruction into the method that is open, and takes the end of the
method later, whatever else it gets and refuses before, in between and until the class ends. -/
structure Writing (i : Instruction LabelToken) where
  /-- What the draft got before the instruction. -/
  before : List Event
  /-- What it got between the instruction and the end of the method. -/
  between : List Event
  /-- What it got after the end of the method. -/
  after : List Event
  /-- The draft right before the instruction, and the method that is open. -/
  found : ClassDraft
  start : MethodDraft
  /-- The draft right behind the instruction, and the method that is open. -/
  taken : ClassDraft
  next : MethodDraft
  /-- The draft right before the end of the method, and the method that is open. -/
  filled : ClassDraft
  whole : MethodDraft
  /-- The draft right behind the end of the method. -/
  ended : ClassDraft
  /-- The draft in the end. -/
  last : ClassDraft
  reached : (Receiver.deliverAll receive before .empty).2 = found
  start_eq : found.method = some start
  accepted : receive (.instruction i) found = .ok () taken
  next_eq : taken.method = some next
  pending : Receiver.Gets receive (·.beginsMethod = false) between taken filled
  methodEnd_not_mem : .methodEnd ∉ between
  classEnd_not_mem : .classEnd ∉ between
  whole_eq : filled.method = some whole
  closed : receive .methodEnd filled = .ok () ended
  later : (Receiver.deliverAll receive after ended).2 = last
  unfinished : .classEnd ∉ after

namespace Writing

variable (w : Writing i)

theorem gets_before : Receiver.Gets receive (fun _ => True) w.before .empty w.found := by
  rw [← w.reached]
  exact Receiver.gets_deliverAll receive (fun _ _ => trivial) _

theorem orderly : w.found.Orderly := orderly_empty.gets w.gets_before

theorem sound (h : .classEnd ∉ w.before) : w.found.Sound :=
  (extends_of_gets h w.gets_before).sound sound_empty

theorem advances_taken : w.found.Advances w.taken :=
  ((leaves_instruction i).ok w.accepted).toAdvances

theorem advances_filled : w.taken.Advances w.filled :=
  advances_of_gets w.methodEnd_not_mem w.classEnd_not_mem w.pending

theorem extends_ended : w.filled.Extends w.ended :=
  (extends_receive (by simp)).ok w.closed

theorem extends_last : w.ended.Extends w.last := by
  have gets : Receiver.Gets receive (fun _ => True) w.after w.ended w.last := by
    rw [← w.later]
    exact Receiver.gets_deliverAll receive (fun _ _ => trivial) _
  exact extends_of_gets w.unfinished gets

/-- From the instruction on, constants and bootstrap methods keep their places. -/
theorem extends_of_taken : w.taken.Extends w.last :=
  (w.advances_filled.toExtends.trans w.extends_ended).trans w.extends_last

/-- The method has only gained cells since the instruction. -/
theorem advances_whole : w.next.Advances w.whole := by
  have advances := w.advances_filled.method
  rw [w.next_eq, w.whole_eq] at advances
  cases advances with
  | some advances => exact advances

/-- An instruction that was taken is decoded from the finished code where it was put, and the next
one starts where the draft went on. -/
theorem decode_instruction (hpseudo : i.isPseudo = false) (documented : i.Documented)
    (hbootstraps : i.calls = [] ∨ .classEnd ∉ w.before ∧ w.last.bootstraps.size ≤ countLimit)
    {table : ConstantTable} (final : w.last.FinalTable table) :
    ∃ code member, w.ended.methods = w.filled.methods.push member ∧
      w.whole.Settled table member ∧ w.whole.patchedCode = .ok code ∧
      (∀ token ∈ i.targets, ∃ n, w.whole.labels[token]? = some n) ∧
      ∀ window : Window, window.constants = table → window.length = code.size →
        window.Shows 0 code.toList → ∃ decoded operands,
          window.decode w.start.code.size = .ok (decoded, operands) ∧
          w.start.code.size + 1 + operands = w.next.code.size ∧
          decoded.Tells table w.last.bootstraps (i.map w.whole.offsetD).normal := by
  -- the constants of each draft are in the final table
  have valid := w.advances_taken.valid w.orderly.valid
  have validFilled := w.advances_filled.valid valid
  have within := final.within (w.extends_of_taken.valid valid)
  have withinTaken := within.of_below (w.extends_of_taken.below valid)
  have withinEnded := within.of_below (w.extends_last.below (w.extends_ended.valid validFilled))
  -- what the instruction adds to the code
  obtain ⟨next, cells, hnext, appends, spells⟩ :=
    exists_spelling w.orderly.valid w.start_eq hpseudo documented w.accepted withinTaken
      (hbootstraps.imp_right fun h => ⟨w.sound h.1, w.extends_of_taken.bootstraps, h.2⟩)
  obtain rfl := Option.some.inj (w.next_eq.symm.trans hnext)
  have formedStart := w.orderly.formed w.start w.start_eq
  have formed := (formedStart.advances appends.advances).advances w.advances_whole
  obtain ⟨before, madeBefore⟩ := formedStart.cells
  obtain ⟨after, gains⟩ := w.advances_whole.cells
  have made := (madeBefore.gains appends.toGains).gains gains
  -- what the end of the method makes of the code
  obtain ⟨pool, member, -, -, hended, settled⟩ := methodEnd_eq_ok validFilled w.whole_eq w.closed
  rw [hended] at withinEnded
  obtain ⟨code, attributes, hpatched, hrest⟩ := settled table withinEnded
  have hpositive := spells.positive
  rw [madeBefore.size] at spells
  refine ⟨code, member, by rw [hended], ⟨code, attributes, hpatched, hrest⟩, hpatched,
    spells.placed made hpatched, ?_⟩
  rintro window rfl hlength shows
  obtain ⟨decoded, hdecode, htells⟩ := spells.decode_eq made hpatched formed hlength shows
  rw [← madeBefore.size] at hdecode
  exact ⟨decoded, _, hdecode, by rw [appends.size]; omega, htells⟩

end Writing

namespace Writing

/-- What the draft comes to before the instruction, behind it and before the end of the method. -/
def draftsOf (before : List Event) (i : Instruction LabelToken) (between : List Event) :
    ClassDraft × ClassDraft × ClassDraft :=
  let found := (Receiver.deliverAll receive before .empty).2
  let taken := stateOf (receive (.instruction i) found)
  (found, taken, (Receiver.deliverAll receive between taken).2)

/-- The run on some events in which the instruction and the end of the method are taken. -/
def ofEvents (before : List Event) (i : Instruction LabelToken) (between after : List Event)
    (opened : (draftsOf before i between).1.method.isSome)
    (accepted : accepts (receive (.instruction i) (draftsOf before i between).1) = true)
    (open_taken : (draftsOf before i between).2.1.method.isSome)
    (inner : ∀ event ∈ between,
      event.beginsMethod = false ∧ event ≠ .methodEnd ∧ event ≠ .classEnd)
    (open_filled : (draftsOf before i between).2.2.method.isSome)
    (closed : accepts (receive .methodEnd (draftsOf before i between).2.2) = true)
    (unfinished : .classEnd ∉ after) : Writing i where
  before := before
  between := between
  after := after
  found := (draftsOf before i between).1
  start := (draftsOf before i between).1.method.get opened
  taken := (draftsOf before i between).2.1
  next := (draftsOf before i between).2.1.method.get open_taken
  filled := (draftsOf before i between).2.2
  whole := (draftsOf before i between).2.2.method.get open_filled
  ended := stateOf (receive .methodEnd (draftsOf before i between).2.2)
  last := (Receiver.deliverAll receive after
    (stateOf (receive .methodEnd (draftsOf before i between).2.2))).2
  reached := rfl
  start_eq := (Option.some_get opened).symm
  accepted := eq_ok_of_accepts accepted
  next_eq := (Option.some_get open_taken).symm
  pending := Receiver.gets_deliverAll receive (fun event hevent => (inner event hevent).1) _
  methodEnd_not_mem := fun hmem => (inner _ hmem).2.1 rfl
  classEnd_not_mem := fun hmem => (inner _ hmem).2.2 rfl
  whole_eq := (Option.some_get open_filled).symm
  closed := eq_ok_of_accepts closed
  later := rfl
  unfinished := unfinished

/-- A class with a method that is open. -/
def opening : List Event :=
  [.header ⟨52, 0⟩ (.ofBits _ 0x21) "A" none [], .method (.ofBits _ 9) "m" "()V" []]

/-- A jump to a label that is placed later. -/
def forwardJump : Writing (.jump ⟨167⟩ ⟨3⟩) :=
  ofEvents opening (.jump ⟨167⟩ ⟨3⟩)
    [.instruction (.simple ⟨200⟩), .instruction (.label ⟨3⟩), .instruction (.simple ⟨177⟩),
      .maxs 0 0]
    [.source "A.java"] (by decide +kernel) (by decide +kernel) (by decide +kernel)
    (by decide +kernel) (by decide +kernel) (by decide +kernel) (by decide +kernel)

theorem decode_instruction_forwardJump :
    ∃ code member, forwardJump.ended.methods = forwardJump.filled.methods.push member ∧
      forwardJump.whole.Settled ⟨forwardJump.last.pool.entries⟩ member ∧
      forwardJump.whole.patchedCode = .ok code ∧
      (∀ token ∈ ([⟨3⟩] : List LabelToken), ∃ n, forwardJump.whole.labels[token]? = some n) ∧
      ∀ window : Window, window.constants = ⟨forwardJump.last.pool.entries⟩ →
        window.length = code.size → window.Shows 0 code.toList → ∃ decoded operands,
          window.decode forwardJump.start.code.size = .ok (decoded, operands) ∧
          forwardJump.start.code.size + 1 + operands = forwardJump.next.code.size ∧
          decoded.Tells ⟨forwardJump.last.pool.entries⟩ forwardJump.last.bootstraps
            (.jump ⟨167⟩ 3) := by
  have h := forwardJump.decode_instruction rfl trivial (.inl rfl) .pool
  have hoffset : forwardJump.whole.offsetD ⟨3⟩ = 3 := by decide +kernel
  simpa only [Instruction.map, Instruction.normal, hoffset, Instruction.targets] using h

/-- An operation on a type whose code is that of an instruction without operands. -/
def popOfType : Writing (.type ⟨87⟩ "A") :=
  ofEvents opening (.type ⟨87⟩ "A") [] [] (by decide +kernel) (by decide +kernel)
    (by decide +kernel) (by decide +kernel) (by decide +kernel) (by decide +kernel)
    (by decide +kernel)

/-- Not every instruction that was taken is decoded again. -/
theorem not_forall_decode_instruction :
    ¬ ∀ (i : Instruction LabelToken) (w : Writing i) (code : Array UInt8) (window : Window),
      i.isPseudo = false → w.whole.patchedCode = .ok code →
        window.constants = ⟨w.last.pool.entries⟩ → window.length = code.size →
          window.Shows 0 code.toList → ∃ decoded operands,
            window.decode w.start.code.size = .ok (decoded, operands) ∧
            w.start.code.size + 1 + operands = w.next.code.size ∧
            decoded.Tells ⟨w.last.pool.entries⟩ w.last.bootstraps
              (i.map w.whole.offsetD).normal := by
  intro h
  let window : Window := ⟨#[87, 0, 2], ⟨popOfType.last.pool.entries⟩, 0, 3⟩
  have hpatched : popOfType.whole.patchedCode = .ok #[87, 0, 2] :=
    eq_ok_of_toOption (by decide +kernel)
  obtain ⟨decoded, operands, hdecode, hnext, -⟩ :=
    h _ popOfType _ window rfl hpatched rfl rfl (Bytes.holds_all _)
  have hstart : popOfType.start.code.size = 0 := by decide +kernel
  have hend : popOfType.next.code.size = 3 := by decide +kernel
  rw [hstart, hend] at hnext
  rw [hstart] at hdecode
  cases hdecode
  cases hnext

end Writing

end ClassDraft

end JavaClass
