import Mathlib.Data.List.Forall2
import JavaClass.Assembly.MethodDraft

/-!
# Code in cells

The code of a method under construction is a row of cells: bytes that are
settled, and branch offsets that are reserved. Filling in the offsets turns
each cell into its final bytes and leaves all others as they are.

## Implementation notes

A cell knows the instruction that it is part of by the place where that
instruction starts, since branches are relative to it. Cells are laid out
without gaps, so the places of the reserved offsets follow from their order.
-/

namespace JavaClass

open BigEndian

/-- Settled bytes, or a branch offset of two or of four bytes. -/
inductive Piece where
  | bytes (content : List UInt8)
  | branch (wide : Bool) (target : LabelToken)

/-- A piece of the instruction at `origin`. -/
structure Cell where
  opcode : Opcode
  origin : Nat
  piece : Piece

namespace Piece

/-- What stands in the code until the offsets are filled in. -/
def blank : Piece → List UInt8
  | bytes content => content
  | branch true _ => [0, 0, 0, 0]
  | branch false _ => [0, 0]

/-- What stands in the code in the end. -/
def fill (offset : LabelToken → Nat) (origin : Nat) : Piece → List UInt8
  | bytes content => content
  | branch true target => i32 (Int32.ofInt (offset target - origin))
  | branch false target => i16 (Int16.ofInt (offset target - origin))

/-- Whether the offset of a branch fits its width. -/
def Fits (offset : LabelToken → Nat) (origin : Nat) : Piece → Prop
  | branch false target =>
      -32768 ≤ (offset target : Int) - origin ∧ (offset target : Int) - origin ≤ 32767
  | _ => True

@[simp] theorem length_fill (offset : LabelToken → Nat) (origin : Nat) (piece : Piece) :
    (piece.fill offset origin).length = piece.blank.length := by
  cases piece with
  | bytes content => rfl
  | branch wide target => cases wide <;> simp [fill, blank, i32, i16, u32, u16]

end Piece

/-- The bytes of cells whose offsets are not filled in. -/
def blankCells (cells : List Cell) : List UInt8 :=
  cells.flatMap (·.piece.blank)

/-- The bytes of cells whose offsets are filled in. -/
def fillCells (offset : LabelToken → Nat) (cells : List Cell) : List UInt8 :=
  cells.flatMap fun cell => cell.piece.fill offset cell.origin

/-- The reserved offsets of cells from a position on. -/
def fixupsFrom (position : Nat) : List Cell → List Fixup
  | [] => []
  | ⟨opcode, origin, piece⟩ :: rest =>
      (match piece with
        | .bytes _ => []
        | .branch wide target => [⟨opcode, origin, position, wide, target⟩]) ++
        fixupsFrom (position + piece.blank.length) rest

theorem blankCells_cons (cell : Cell) (cells : List Cell) :
    blankCells (cell :: cells) = cell.piece.blank ++ blankCells cells := List.flatMap_cons ..

theorem fillCells_cons (offset : LabelToken → Nat) (cell : Cell) (cells : List Cell) :
    fillCells offset (cell :: cells) =
      cell.piece.fill offset cell.origin ++ fillCells offset cells := List.flatMap_cons ..

theorem length_fillCells (offset : LabelToken → Nat) (cells : List Cell) :
    (fillCells offset cells).length = (blankCells cells).length := by
  simp [fillCells, blankCells, List.length_flatMap]

theorem blankCells_append (first second : List Cell) :
    blankCells (first ++ second) = blankCells first ++ blankCells second :=
  List.flatMap_append ..

theorem fillCells_append (offset : LabelToken → Nat) (first second : List Cell) :
    fillCells offset (first ++ second) = fillCells offset first ++ fillCells offset second :=
  List.flatMap_append ..

theorem fixupsFrom_append (position : Nat) (first second : List Cell) :
    fixupsFrom position (first ++ second) =
      fixupsFrom position first ++ fixupsFrom (position + (blankCells first).length) second := by
  induction first generalizing position with
  | nil => simp [fixupsFrom, blankCells]
  | cons cell first ih =>
      simp only [List.cons_append, fixupsFrom, ih, blankCells_cons, List.length_append,
        List.append_assoc, Nat.add_assoc]

namespace MethodDraft

/-- The code of the second draft has some cells more than that of the first. -/
structure Gains (draft draft' : MethodDraft) (cells : List Cell) : Prop where
  code : draft'.code.toList = draft.code.toList ++ blankCells cells
  fixups : draft'.fixups.toList = draft.fixups.toList ++ fixupsFrom draft.code.size cells

/-- The second draft has some cells more than the first and is otherwise the same, except perhaps
for whether it has code. -/
structure Appends (draft draft' : MethodDraft) (cells : List Cell) : Prop
    extends Gains draft draft' cells where
  same : draft' = { draft with
    code := draft'.code, fixups := draft'.fixups, hasCode := draft'.hasCode }

section Gains

variable {first second third : MethodDraft} {cells more : List Cell}

theorem Gains.size (h : first.Gains second cells) :
    second.code.size = first.code.size + (blankCells cells).length := by
  rw [← Array.length_toList, h.code, List.length_append, Array.length_toList]

theorem Gains.of_same (code : second.code = first.code) (fixups : second.fixups = first.fixups) :
    first.Gains second [] where
  code := by rw [code, blankCells, List.flatMap_nil, List.append_nil]
  fixups := by rw [fixups, fixupsFrom, List.append_nil]

theorem Gains.trans (h : first.Gains second cells) (h' : second.Gains third more) :
    first.Gains third (cells ++ more) where
  code := by rw [h'.code, h.code, blankCells_append, List.append_assoc]
  fixups := by rw [h'.fixups, h.fixups, fixupsFrom_append, h.size, List.append_assoc]

theorem Appends.refl (draft : MethodDraft) : draft.Appends draft [] := ⟨.of_same rfl rfl, rfl⟩

theorem Appends.trans (h : first.Appends second cells) (h' : second.Appends third more) :
    first.Appends third (cells ++ more) :=
  ⟨h.toGains.trans h'.toGains, by rw [h'.same, h.same]⟩

end Gains

theorem appends_push (draft : MethodDraft) (opcode : Opcode) (origin : Nat)
    (bytes : List UInt8) : draft.Appends (draft.push bytes) [⟨opcode, origin, .bytes bytes⟩] where
  code := by simp [push, blankCells, Piece.blank]
  fixups := by simp [push, fixupsFrom]
  same := rfl

theorem appends_emit (draft : MethodDraft) (origin : Nat) (opcode : Opcode)
    (operands : List UInt8) : draft.Appends (draft.emit opcode operands)
      [⟨opcode, origin, .bytes (opcode.byte :: operands)⟩] where
  code := by simp [emit, blankCells, Piece.blank]
  fixups := by simp [emit, fixupsFrom]
  same := rfl

/-- Every form of an access is an operation code with settled operands. -/
theorem exists_localVar_eq (draft : MethodDraft) (opcode : Opcode) (short : Option Opcode)
    (slot : UInt16) :
    ∃ form operands, draft.localVar opcode short slot = draft.emit form operands := by
  unfold localVar
  cases short with
  | none =>
      simp only
      split
      · exact ⟨_, _, rfl⟩
      · exact ⟨_, _, rfl⟩
  | some short =>
      simp only
      split
      · exact ⟨_, _, rfl⟩
      · split
        · exact ⟨_, _, rfl⟩
        · exact ⟨_, _, rfl⟩

/-- So is every form of an increment. -/
theorem exists_increment_eq (draft : MethodDraft) (slot : UInt16) (delta : Int16) :
    ∃ form operands, draft.increment slot delta = draft.emit form operands := by
  unfold increment
  split
  · exact ⟨_, _, rfl⟩
  · exact ⟨_, _, rfl⟩

theorem appends_reserve (draft : MethodDraft) (opcode : Opcode) (origin : Nat) (wide : Bool)
    (target : LabelToken) : draft.Appends (draft.reserve opcode origin wide target)
      [⟨opcode, origin, .branch wide target⟩] where
  code := by cases wide <;> simp [reserve, blankCells, Piece.blank]
  fixups := by simp [reserve, fixupsFrom]
  same := rfl

theorem appends_jump (draft : MethodDraft) (opcode : Opcode) (target : LabelToken) :
    draft.Appends (draft.jump opcode target)
      [⟨opcode, draft.code.size, .bytes [opcode.byte]⟩,
        ⟨opcode, draft.code.size, .branch opcode.isWideJump target⟩] :=
  (draft.appends_emit draft.code.size opcode []).trans
    (appends_reserve _ opcode draft.code.size opcode.isWideJump target)

/-- Going through a list appends the cells of each element. -/
theorem appends_foldl {α : Type} (add : MethodDraft → α → MethodDraft) (cells : α → List Cell)
    (h : ∀ (draft : MethodDraft) item, draft.Appends (add draft item) (cells item))
    (draft : MethodDraft) (items : List α) :
    draft.Appends (items.foldl add draft) (items.flatMap cells) := by
  induction items generalizing draft with
  | nil => exact .refl draft
  | cons item items ih =>
      rw [List.foldl_cons, List.flatMap_cons]
      exact (h draft item).trans (ih _)

/-- The offset of a label that has a place, and anything at all for the others. -/
def offsetD (draft : MethodDraft) (token : LabelToken) : Nat :=
  draft.labels[token]?.getD 0

theorem offset_eq_ok_iff {draft : MethodDraft} {token : LabelToken} {n : Nat} :
    draft.offset token = .ok n ↔ draft.labels[token]? = some n := by
  unfold offset
  cases draft.labels[token]? <;> simp [malformed]

theorem toList_overwrite (code : Array UInt8) (before old after bytes : List UInt8)
    (hcode : code.toList = before ++ (old ++ after)) (hlength : bytes.length = old.length) :
    (overwrite code before.length bytes).toList = before ++ (bytes ++ after) := by
  induction bytes generalizing code before old with
  | nil =>
      obtain rfl : old = [] := by simpa using hlength.symm
      rw [overwrite, hcode]
  | cons byte bytes ih =>
      cases old with
      | nil => simp at hlength
      | cons first old =>
          have hset : (code.setIfInBounds before.length byte).toList =
              (before ++ [byte]) ++ (old ++ after) := by
            rw [Array.toList_setIfInBounds, hcode, List.set_append_right _ _ (Nat.le_refl _)]
            simp
          have h := ih _ (before ++ [byte]) old hset (by simpa using hlength)
          rw [List.length_append, List.length_singleton] at h
          rw [overwrite, h]
          simp

/-- Filling in one reserved offset. -/
theorem patch_eq_ok {draft : MethodDraft} {code code' : Array UInt8} {opcode : Opcode}
    {origin : Nat} {wide : Bool} {target : LabelToken} {before after : List UInt8}
    (hcode : code.toList = before ++ ((Piece.branch wide target).blank ++ after))
    (h : draft.patch code ⟨opcode, origin, before.length, wide, target⟩ = .ok code') :
    (∃ n, draft.labels[target]? = some n) ∧
      (Piece.branch wide target).Fits draft.offsetD origin ∧
        code'.toList = before ++ ((Piece.branch wide target).fill draft.offsetD origin ++ after) :=
    by
  unfold patch at h
  cases hoffset : draft.offset target with
  | error error => rw [hoffset] at h; cases h
  | ok n =>
      have hlabel := offset_eq_ok_iff.mp hoffset
      have hoffsetD : draft.offsetD target = n := by rw [offsetD, hlabel, Option.getD_some]
      simp only [hoffset, bind, Except.bind] at h
      refine ⟨⟨n, hlabel⟩, ?_⟩
      cases wide with
      | true =>
          obtain rfl := Except.ok.inj h
          refine ⟨trivial, ?_⟩
          rw [Piece.fill, hoffsetD]
          exact toList_overwrite code before _ after _ hcode (by simp [i32, u32, Piece.blank])
      | false =>
          simp only [Bool.false_eq_true, if_false] at h
          split at h
          · rename_i hfits
            obtain rfl := Except.ok.inj h
            refine ⟨by rw [Piece.Fits, hoffsetD]; exact hfits, ?_⟩
            rw [Piece.fill, hoffsetD]
            exact toList_overwrite code before _ after _ hcode (by simp [i16, u16, Piece.blank])
          · cases h

/-- What is known once all offsets of some cells were filled in. -/
structure Filled (draft : MethodDraft) (cells : List Cell) : Prop where
  placed : ∀ cell ∈ cells, ∀ wide target, cell.piece = .branch wide target →
    ∃ n, draft.labels[target]? = some n
  fits : ∀ cell ∈ cells, cell.piece.Fits draft.offsetD cell.origin

theorem foldlM_patch {draft : MethodDraft} {cells : List Cell} {code code' : Array UInt8}
    (before after : List UInt8) (hcode : code.toList = before ++ (blankCells cells ++ after))
    (h : (fixupsFrom before.length cells).foldlM draft.patch code = .ok code') :
    draft.Filled cells ∧ code'.toList = before ++ (fillCells draft.offsetD cells ++ after) := by
  induction cells generalizing code before with
  | nil =>
      obtain rfl := Except.ok.inj h
      exact ⟨⟨by simp, by simp⟩, by rw [hcode]; rfl⟩
  | cons cell cells ih =>
      obtain ⟨opcode, origin, piece⟩ := cell
      have hsplit : code.toList = before ++ (piece.blank ++ (blankCells cells ++ after)) := by
        rw [hcode, blankCells_cons, List.append_assoc]
      have hrest {code : Array UInt8} {filled : List UInt8}
          (hlength : filled.length = piece.blank.length)
          (hcode : code.toList = before ++ (filled ++ (blankCells cells ++ after)))
          (h : (fixupsFrom (before.length + piece.blank.length) cells).foldlM draft.patch code =
            .ok code') :
          draft.Filled cells ∧
            code'.toList = before ++ (filled ++ (fillCells draft.offsetD cells ++ after)) := by
        rw [← hlength, ← List.length_append] at h
        rw [← List.append_assoc] at hcode
        obtain ⟨hfilled, hcode'⟩ := ih _ hcode h
        exact ⟨hfilled, by rw [hcode', List.append_assoc]⟩
      cases piece with
      | bytes content =>
          obtain ⟨⟨placed, fits⟩, hcode'⟩ := hrest rfl hsplit h
          refine ⟨⟨?_, ?_⟩, ?_⟩
          · intro cell hcell wide target hpiece
            obtain rfl | hcell := List.mem_cons.mp hcell
            · cases hpiece
            · exact placed cell hcell wide target hpiece
          · intro cell hcell
            obtain rfl | hcell := List.mem_cons.mp hcell
            · trivial
            · exact fits cell hcell
          · rw [hcode', fillCells_cons, List.append_assoc]
            rfl
      | branch wide target =>
          rw [fixupsFrom, List.singleton_append, List.foldlM_cons] at h
          cases hpatch : draft.patch code ⟨opcode, origin, before.length, wide, target⟩ with
          | error error => rw [hpatch] at h; cases h
          | ok patched =>
              rw [hpatch] at h
              obtain ⟨hplaced, hfits, hpatched⟩ := patch_eq_ok hsplit hpatch
              obtain ⟨⟨placed, fits⟩, hcode'⟩ := hrest (Piece.length_fill _ _ _) hpatched h
              refine ⟨⟨?_, ?_⟩, ?_⟩
              · intro cell hcell wide' target' hpiece
                obtain rfl | hcell := List.mem_cons.mp hcell
                · cases hpiece
                  exact hplaced
                · exact placed cell hcell wide' target' hpiece
              · intro cell hcell
                obtain rfl | hcell := List.mem_cons.mp hcell
                · exact hfits
                · exact fits cell hcell
              · rw [hcode', fillCells_cons, List.append_assoc]

/-- The code of the draft is made of these cells. -/
structure MadeOf (draft : MethodDraft) (cells : List Cell) : Prop where
  code : draft.code.toList = blankCells cells
  fixups : draft.fixups.toList = fixupsFrom 0 cells

theorem madeOf_start (flags : MethodFlags) (name descriptor : UInt16)
    (exceptions : Option EncodedAttribute) :
    (start flags name descriptor exceptions).MadeOf [] :=
  ⟨rfl, rfl⟩

theorem MadeOf.size {draft : MethodDraft} {cells : List Cell} (h : draft.MadeOf cells) :
    draft.code.size = (blankCells cells).length := by
  rw [← h.code, Array.length_toList]

theorem MadeOf.gains {draft draft' : MethodDraft} {cells more : List Cell}
    (h : draft.MadeOf cells) (gains : draft.Gains draft' more) :
    draft'.MadeOf (cells ++ more) where
  code := by rw [gains.code, h.code, blankCells_append]
  fixups := by rw [gains.fixups, h.fixups, fixupsFrom_append, Nat.zero_add, h.size]

/-- The patched code of a draft made of cells. -/
theorem patchedCode_eq_ok {draft : MethodDraft} {cells : List Cell} {code : Array UInt8}
    (made : draft.MadeOf cells) (h : draft.patchedCode = .ok code) :
    (blankCells cells).length ≤ countLimit ∧ draft.Filled cells ∧
      code.toList = fillCells draft.offsetD cells := by
  unfold patchedCode at h
  split at h
  · cases h
  · rename_i hlength
    rw [← Array.length_toList, made.code] at hlength
    rw [← Array.foldlM_toList, made.fixups] at h
    obtain ⟨hfilled, hcode'⟩ := foldlM_patch [] [] (by simpa using made.code) h
    exact ⟨Nat.le_of_not_lt hlength, hfilled, by simpa using hcode'⟩

end MethodDraft

end JavaClass
