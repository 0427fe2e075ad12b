import JavaClass.Proofs.Assembly.Effects
import JavaClass.Proofs.Assembly.Finish
import JavaClass.Proofs.Bytes.Reading

/-!
# Reserved offsets

Whatever a class draft gets, the branch offsets that its open method has reserved
stand one behind the other as zeros within the code, each behind the operation
code of its instruction. The end of the method fills each of them with the
distance from its instruction to its target and changes no other byte, and it
refuses a method because of a distance only if one does not fit: the first.

## Implementation notes

Where the reserved offsets stand follows from the cells that the code is made of.
That an offset belongs to an instruction does not, since cells may claim any
origin, so that is an invariant of its own.
-/

namespace JavaClass

open BigEndian ConstantPool

/-- How many bytes are reserved. -/
def Fixup.width (fixup : Fixup) : Nat := if fixup.wide then 4 else 2

theorem length_blank_branch (wide : Bool) (target : LabelToken) :
    (Piece.branch wide target).blank.length = if wide then 4 else 2 := by
  cases wide <;> rfl

/-- A reserved offset is a cell, which stands behind the cells before it. -/
theorem exists_cell_of_mem_fixupsFrom {position : Nat} {cells : List Cell} {fixup : Fixup}
    (h : fixup ∈ fixupsFrom position cells) :
    ∃ before after,
      cells = before ++ ⟨fixup.opcode, fixup.origin, .branch fixup.wide fixup.target⟩ :: after ∧
        fixup.position = position + (blankCells before).length := by
  induction cells generalizing position with
  | nil => cases h
  | cons cell cells ih =>
      obtain ⟨opcode, origin, piece⟩ := cell
      have further (h : fixup ∈ fixupsFrom (position + piece.blank.length) cells) :
          ∃ before after, ⟨opcode, origin, piece⟩ :: cells =
            before ++ ⟨fixup.opcode, fixup.origin, .branch fixup.wide fixup.target⟩ :: after ∧
              fixup.position = position + (blankCells before).length := by
        obtain ⟨before, after, rfl, hposition⟩ := ih h
        refine ⟨⟨opcode, origin, piece⟩ :: before, after, rfl, ?_⟩
        rw [hposition, blankCells_cons, List.length_append, Nat.add_assoc]
      cases piece with
      | bytes content => exact further h
      | branch wide target =>
          obtain rfl | h := List.mem_cons.mp h
          · exact ⟨[], cells, rfl, rfl⟩
          · exact further h

/-- The reserved offsets stand one behind the other. -/
theorem pairwise_fixupsFrom (position : Nat) (cells : List Cell) :
    (fixupsFrom position cells).Pairwise fun first second =>
      first.position + first.width ≤ second.position := by
  induction cells generalizing position with
  | nil => exact .nil
  | cons cell cells ih =>
      obtain ⟨opcode, origin, piece⟩ := cell
      cases piece with
      | bytes content => exact ih _
      | branch wide target =>
          refine List.pairwise_cons.mpr ⟨fun fixup hfixup => ?_, ih _⟩
          obtain ⟨before, -, -, hposition⟩ := exists_cell_of_mem_fixupsFrom hfixup
          rw [hposition, length_blank_branch]
          exact Nat.le_add_right ..

/-- Only reserved offsets are filled in. -/
theorem getElem?_fillCells (offset : LabelToken → Nat) (position : Nat) {n : Nat}
    {cells : List Cell} (outside : ∀ fixup ∈ fixupsFrom position cells,
      position + n < fixup.position ∨ fixup.position + fixup.width ≤ position + n) :
    (fillCells offset cells)[n]? = (blankCells cells)[n]? := by
  induction cells generalizing position n with
  | nil => rfl
  | cons cell cells ih =>
      obtain ⟨opcode, origin, piece⟩ := cell
      rw [fillCells_cons, blankCells_cons]
      simp only
      by_cases hn : n < piece.blank.length
      · cases piece with
        | bytes content =>
            have hfill : n < ((Piece.bytes content).fill offset origin).length := hn
            rw [List.getElem?_append_left hfill, List.getElem?_append_left hn]
            rfl
        | branch wide target =>
            rw [length_blank_branch] at hn
            have hout := outside _ (List.mem_cons_self ..)
            simp only [Fixup.width] at hout
            omega
      · have hlength := Piece.length_fill offset origin piece
        rw [List.getElem?_append_right (by omega), List.getElem?_append_right (by omega), hlength]
        have houtside : ∀ fixup ∈ fixupsFrom (position + piece.blank.length) cells,
            position + piece.blank.length + (n - piece.blank.length) < fixup.position ∨
              fixup.position + fixup.width ≤
                position + piece.blank.length + (n - piece.blank.length) := by
          intro fixup hfixup
          have hout := outside fixup (List.mem_append_right _ hfixup)
          omega
        exact ih _ houtside

namespace MethodDraft

variable {method method' : MethodDraft} {cells : List Cell} {fixup : Fixup}

/-- Each reserved offset stands behind the operation code of its instruction. -/
def Led (method : MethodDraft) : Prop :=
  ∀ fixup ∈ method.fixups.toList, fixup.origin < fixup.position ∧
    method.code[fixup.origin]? = some fixup.opcode.byte

/-- The reserved offsets are zeros within the code, one behind the other. -/
structure Reserved (method : MethodDraft) : Prop where
  zeros : ∀ fixup ∈ method.fixups.toList,
    Bytes.Holds method.code fixup.position (List.replicate fixup.width 0)
  apart : method.fixups.toList.Pairwise fun first second =>
    first.position + first.width ≤ second.position
  led : method.Led

theorem MadeOf.holds_zeros (made : method.MadeOf cells) (h : fixup ∈ method.fixups.toList) :
    Bytes.Holds method.code fixup.position (List.replicate fixup.width 0) := by
  rw [made.fixups] at h
  obtain ⟨before, after, rfl, hposition⟩ := exists_cell_of_mem_fixupsFrom h
  refine ⟨blankCells before, blankCells after, ?_, by rw [hposition, Nat.zero_add]⟩
  rw [made.code, blankCells_append, blankCells_cons, Fixup.width]
  cases fixup.wide <;> rfl

theorem Led.of_same (led : method.Led) (code : method'.code = method.code)
    (fixups : method'.fixups = method.fixups) : method'.Led := by
  unfold Led
  rw [code, fixups]
  exact led

/-- An instruction leads the offsets that it reserves. -/
theorem Led.appends (led : method.Led) (h : method.Appends method' cells)
    (hcells : method.InstructionCells cells) : method'.Led := by
  obtain ⟨opcode, operands, rest, rfl, hrest⟩ := hcells
  intro fixup hfixup
  rw [← Array.getElem?_toList, h.code]
  rw [h.fixups] at hfixup
  obtain hfixup | hfixup := List.mem_append.mp hfixup
  · obtain ⟨hlt, hbyte⟩ := led fixup hfixup
    rw [← Array.getElem?_toList] at hbyte
    obtain ⟨horigin, -⟩ := List.getElem?_eq_some_iff.mp hbyte
    exact ⟨hlt, by rw [List.getElem?_append_left horigin, hbyte]⟩
  · obtain ⟨before, after, hsplit, hposition⟩ := exists_cell_of_mem_fixupsFrom hfixup
    cases before with
    | nil => cases congrArg Cell.piece (List.cons.inj hsplit).1
    | cons first before =>
        obtain ⟨rfl, rfl⟩ := List.cons.inj hsplit
        obtain ⟨hopcode, horigin⟩ := hrest _ (List.mem_append_right _ (List.mem_cons_self ..))
        simp only at hopcode horigin
        rw [hopcode, horigin, hposition]
        constructor
        · have hfirst : 0 < (Piece.bytes (opcode.byte :: operands)).blank.length := Nat.succ_pos _
          rw [blankCells_cons, List.length_append]
          exact Nat.lt_add_of_pos_right (Nat.add_pos_left hfirst _)
        · rw [← Array.length_toList, List.getElem?_append_right (Nat.le_refl _), Nat.sub_self]
          rfl

/-- How far the target is from the instruction. -/
def distance (method : MethodDraft) (fixup : Fixup) : Int :=
  method.offsetD fixup.target - fixup.origin

/-- Two bytes are too few for the distance. -/
def overflows (method : MethodDraft) (fixup : Fixup) : Bool :=
  !fixup.wide && !decide (-32768 ≤ method.distance fixup ∧ method.distance fixup ≤ 32767)

/-- The bytes of a distance. -/
def distanceBytes (method : MethodDraft) (fixup : Fixup) : List UInt8 :=
  if fixup.wide then i32 (Int32.ofInt (method.distance fixup))
  else i16 (Int16.ofInt (method.distance fixup))

/-- The code has the exact distance where the offset was reserved. -/
def Shows (method : MethodDraft) (code : Array UInt8) (fixup : Fixup) : Prop :=
  if fixup.wide then
    ∃ value : Int32, value.toInt = method.distance fixup ∧
      Bytes.Holds code fixup.position (i32 value)
  else
    ∃ value : Int16, value.toInt = method.distance fixup ∧
      Bytes.Holds code fixup.position (i16 value)

theorem offset_of_mem {token : LabelToken} (placed : token ∈ method.labels) :
    method.offset token = .ok (method.offsetD token) := by
  rw [Std.TreeMap.mem_iff_isSome_getElem?] at placed
  obtain ⟨n, hn⟩ := Option.isSome_iff_exists.mp placed
  rw [offset, offsetD, hn]
  rfl

/-- Filling in one offset fails only if its distance is too far. -/
theorem patch_eq (placed : fixup.target ∈ method.labels) (code : Array UInt8) :
    method.patch code fixup =
      if method.overflows fixup then .error (.jumpTooFar fixup.opcode (method.distance fixup))
      else .ok (overwrite code fixup.position (method.distanceBytes fixup)) := by
  obtain ⟨opcode, origin, position, wide, target⟩ := fixup
  simp only [patch, offset_of_mem placed, bind, Except.bind]
  cases wide with
  | true => rfl
  | false =>
      let fixup : Fixup := ⟨opcode, origin, position, false, target⟩
      by_cases hfits : -32768 ≤ method.distance fixup ∧ method.distance fixup ≤ 32767
      · have hnear : method.overflows fixup = false := by
          rw [overflows, decide_eq_true hfits]
          rfl
        rw [hnear, if_neg Bool.false_ne_true]
        exact if_pos hfits
      · have hfar : method.overflows fixup = true := by
          rw [overflows, decide_eq_false hfits]
          rfl
        rw [hfar, if_pos rfl]
        exact if_neg hfits

theorem foldlM_patch_eq_error_iff {fixups : List Fixup}
    (placed : ∀ fixup ∈ fixups, fixup.target ∈ method.labels) {code : Array UInt8} {error : Error} :
    fixups.foldlM method.patch code = .error error ↔
      ∃ fixup, fixups.find? method.overflows = some fixup ∧
        error = .jumpTooFar fixup.opcode (method.distance fixup) := by
  induction fixups generalizing code with
  | nil => simp [pure, Except.pure]
  | cons fixup fixups ih =>
      obtain ⟨first, rest⟩ := List.forall_mem_cons.mp placed
      rw [List.foldlM_cons, patch_eq first]
      cases hoverflows : method.overflows fixup with
      | true =>
          rw [if_pos rfl, List.find?_cons_of_pos hoverflows]
          constructor
          · intro h
            exact ⟨fixup, rfl, (Except.error.inj h).symm⟩
          · rintro ⟨found, hfound, rfl⟩
            obtain rfl := Option.some.inj hfound
            rfl
      | false =>
          rw [if_neg Bool.false_ne_true, List.find?_cons_of_neg (by simp [hoverflows])]
          exact ih rest

/-- The code is patched unless a distance is too far. -/
theorem patchedCode_eq_error_iff (small : method.code.size ≤ countLimit)
    (placed : ∀ fixup ∈ method.fixups.toList, fixup.target ∈ method.labels) {error : Error} :
    method.patchedCode = .error error ↔
      ∃ fixup, method.fixups.toList.find? method.overflows = some fixup ∧
        error = .jumpTooFar fixup.opcode (method.distance fixup) := by
  rw [patchedCode, if_neg (Nat.not_lt.mpr small), ← Array.foldlM_toList]
  exact foldlM_patch_eq_error_iff placed

/-- Each reserved offset of the patched code is filled in, and no other byte is changed. -/
theorem MadeOf.patched (made : method.MadeOf cells) {code : Array UInt8}
    (h : method.patchedCode = .ok code) :
    code.size = method.code.size ∧
      (∀ fixup ∈ method.fixups.toList,
        Bytes.Holds code fixup.position (method.distanceBytes fixup)) ∧
      ∀ n, (∀ fixup ∈ method.fixups.toList,
        n < fixup.position ∨ fixup.position + fixup.width ≤ n) → code[n]? = method.code[n]? := by
  obtain ⟨-, -, hcode⟩ := patchedCode_eq_ok made h
  refine ⟨?_, fun fixup hfixup => ?_, fun n outside => ?_⟩
  · rw [made.size, ← length_fillCells method.offsetD, ← hcode, Array.length_toList]
  · rw [made.fixups] at hfixup
    obtain ⟨before, after, rfl, hposition⟩ := exists_cell_of_mem_fixupsFrom hfixup
    refine ⟨fillCells method.offsetD before, fillCells method.offsetD after, ?_, ?_⟩
    · rw [hcode, fillCells_append, fillCells_cons, distanceBytes]
      cases fixup.wide <;> rfl
    · rw [length_fillCells, hposition, Nat.zero_add]
  · rw [made.fixups] at outside
    rw [← Array.getElem?_toList, ← Array.getElem?_toList, hcode, made.code]
    apply getElem?_fillCells method.offsetD 0
    simpa only [Nat.zero_add] using outside

/-- Distances within code of a method are small. -/
theorem Formed.abs_distance_le (formed : method.Formed) (reserved : method.Reserved)
    (small : method.code.size ≤ countLimit) (hfixup : fixup ∈ method.fixups.toList) :
    -65535 ≤ method.distance fixup ∧ method.distance fixup ≤ 65535 := by
  have htarget : method.offsetD fixup.target ≤ method.code.size := by
    rw [offsetD]
    cases hlabel : method.labels[fixup.target]? with
    | none => exact Nat.zero_le _
    | some n => exact formed.placed hlabel
  have horigin := (reserved.led fixup hfixup).1
  have hposition := (reserved.zeros fixup hfixup).bound
  simp only [countLimit] at small
  rw [distance]
  omega

theorem shows_of_holds {code : Array UInt8}
    (far : -65535 ≤ method.distance fixup ∧ method.distance fixup ≤ 65535)
    (near : method.overflows fixup = false)
    (h : Bytes.Holds code fixup.position (method.distanceBytes fixup)) :
    method.Shows code fixup := by
  unfold Shows
  unfold distanceBytes at h
  cases hwide : fixup.wide with
  | true =>
      rw [hwide] at h
      exact ⟨_, Int32.toInt_ofInt_of_le (by omega) (by omega), h⟩
  | false =>
      rw [hwide] at h
      have hfits : -32768 ≤ method.distance fixup ∧ method.distance fixup ≤ 32767 := by
        simpa [overflows, hwide] using near
      exact ⟨_, Int16.toInt_ofInt_of_le (by omega) (by omega), h⟩

section Ending

variable {kind : Error → Prop} (plain : ∀ error : Error, error.Unlabelled → kind error)
  (missing : ∀ token ∈ method.mentioned, token ∉ method.labels →
    kind (.malformed (.unplacedToken token)))

include missing in
theorem fails_offset {token : LabelToken} (htoken : token ∈ method.mentioned) :
    FailsOnly kind (method.offset token) := by
  unfold offset
  split
  · exact failsOnly_ok _
  · rename_i hnone
    refine failsOnly_error (missing token htoken ?_)
    rw [Std.TreeMap.mem_iff_isSome_getElem?, hnone]
    exact Bool.false_ne_true

include missing in
theorem fails_encodeHandler {handler : DraftHandler} (hhandler : handler ∈ method.handlers.toList) :
    FailsOnly kind (method.encodeHandler handler) := by
  have hmentioned {token : LabelToken}
      (htoken : token ∈ [handler.start, handler.stop, handler.handler]) :
      FailsOnly kind (method.offsetBytes token) := by
    refine (fails_offset missing ?_).map _
    rw [mentioned, List.append_assoc]
    exact List.mem_append_right _ (List.mem_append_left _ (List.mem_flatMap_of_mem hhandler htoken))
  apply (hmentioned (by simp)).bind
  intro start
  apply (hmentioned (by simp)).bind
  intro stop
  apply (hmentioned (by simp)).bind
  intro target
  exact failsOnly_ok _

include missing in
theorem fails_encodeLine {line : UInt16 × LabelToken} (hline : line ∈ method.lines.toList) :
    FailsOnly kind (method.encodeLine line) := by
  refine ((fails_offset missing ?_).map _).bind fun _ => failsOnly_ok _
  rw [mentioned]
  exact List.mem_append_right _ (List.mem_map_of_mem hline)

include plain in
theorem fails_encodeTable {α : Type} {encode : α → List UInt8} (entries : List α) :
    FailsOnly kind (encodeTable (fun entry => .ok (encode entry)) entries) := by
  unfold encodeTable
  split
  · exact failsOnly_error (plain _ ⟨rfl, by rintro _ _ ⟨⟩⟩)
  · exact (FailsOnly.mapM fun _ _ => failsOnly_ok _).map _

theorem refuses_settled {α : Type} {result : Except Error α} (fails : FailsOnly kind result) :
    RefusesOnly kind (settled result) := by
  cases result with
  | ok value => exact refusesOnly_pure value
  | error error => exact refusesOnly_throw (fails error rfl)

include plain missing in
theorem refuses_lineAttributes : RefusesOnly kind method.lineAttributes := by
  unfold lineAttributes
  split
  · exact refusesOnly_pure []
  · apply (refuses_settled (FailsOnly.mapM fun _ => fails_encodeLine missing)).bind
    intro lines
    apply (Request.refusesOnly_named plain _ (fails_encodeTable plain lines)).bind
    intro a
    exact refusesOnly_pure _

include plain missing in
/-- Once the code is patched, a method is refused for a label only if that has no place. -/
theorem refuses_codeAttribute (code : Array UInt8) :
    RefusesOnly kind (method.codeAttribute code) := by
  apply (refuses_settled (FailsOnly.mapM fun _ => fails_encodeHandler missing)).bind
  intro handlers
  apply (refuses_lineAttributes plain missing).bind
  intro attributes
  apply Request.refusesOnly_named plain
  apply (fails_encodeTable plain handlers).bind
  intro handlers
  apply (fails_encodeTable plain attributes).bind
  intro attributes
  exact failsOnly_ok _

include plain missing in
/-- So is a method as a whole, unless that is said of its code. -/
theorem refuses_finish (patched : FailsOnly kind method.patchedCode) :
    RefusesOnly kind method.finish := by
  apply (refuses_settled patched).bind
  intro code
  split
  · exact (refuses_codeAttribute plain missing code).bind fun _ => refusesOnly_pure _
  · exact refusesOnly_pure _

end Ending

/-- A method is refused for a distance only when its code is patched. -/
theorem finish_eq_jumpTooFar_iff {pool pool' : ConstantPool} {opcode : Opcode} {distance : Int} :
    method.finish pool = .error (.jumpTooFar opcode distance) pool' ↔
      pool' = pool ∧ method.patchedCode = .error (.jumpTooFar opcode distance) := by
  cases hpatched : method.patchedCode with
  | error error =>
      have hfinish : method.finish pool = .error error pool := by
        rw [finish, hpatched]
        rfl
      rw [hfinish]
      constructor
      · intro h
        cases h
        exact ⟨rfl, rfl⟩
      · rintro ⟨rfl, h⟩
        cases h
        rfl
  | ok code =>
      have refuses : RefusesOnly (· ≠ .jumpTooFar opcode distance) method.finish := by
        apply refuses_finish
        · exact fun error unlabelled => unlabelled.near opcode distance
        · exact fun token _ _ => nofun
        · rw [hpatched]
          exact failsOnly_ok code
      constructor
      · intro h
        exact absurd rfl (refuses _ _ _ h)
      · rintro ⟨-, h⟩
        cases h

end MethodDraft

namespace ClassDraft

variable {draft draft' : ClassDraft} {events : List Event} {kind : Event → Prop}
  {P : MethodDraft → Prop}

/-- What is true of a new method and kept by all code is kept by every event. -/
theorem holds_of_receive
    (start : ∀ flags name descriptor exceptions, P (.start flags name descriptor exceptions))
    (code : ∀ event : Event, event.isCode = true →
      Leaves (Changes fun method method' => P method → P method') (receive event))
    (event : Event) (found : ∀ method ∈ draft.method, P method) :
    ∀ method ∈ (stateOf (receive event draft)).method, P method := by
  have kept {mid : ClassDraft} (keeps : draft.KeepsMethod mid) :
      ∀ method ∈ mid.method, P method := by
    rw [keeps]
    exact found
  cases hcode : event.isCode with
  | true =>
      have related := (code event hcode draft).method
      generalize draft.method = before, (stateOf (receive event draft)).method = behind
        at related found ⊢
      cases related with
      | none => exact found
      | some holds =>
          intro method hmethod
          obtain rfl := Option.some.inj hmethod
          exact holds (found _ rfl)
  | false =>
      cases event with
      | method flags name descriptor exceptions =>
          rw [receive_method_eq]
          obtain ⟨error, mid, h, keeps⟩ | ⟨method, mid, hstep, -, h⟩ :=
            (keepsMethod_methodOf flags name descriptor exceptions).modify_cases
              (fun method draft => { draft with method := some method }) draft
          · rw [h]
            exact kept keeps
          · obtain ⟨nameSlot, descriptorSlot, a, rfl⟩ := eq_start_of_methodOf hstep
            rw [h]
            intro method hmethod
            obtain rfl := Option.some.inj hmethod
            exact start ..
      | methodEnd =>
          have related := (continues_methodEnd draft).method
          generalize (stateOf (receive .methodEnd draft)).method = behind at related ⊢
          cases related
          exact fun method hmethod => nomatch hmethod
      | _ => exact kept (keepsMethod_receive hcode (by rfl) (by simp) draft)

/-- So it is true of each method that is ever open. -/
theorem holds_of_gets
    (start : ∀ flags name descriptor exceptions, P (.start flags name descriptor exceptions))
    (code : ∀ event : Event, event.isCode = true →
      Leaves (Changes fun method method' => P method → P method') (receive event))
    (h : Receiver.Gets receive kind events draft draft')
    (found : ∀ method ∈ draft.method, P method) : ∀ method ∈ draft'.method, P method :=
  h.keeps (P := fun draft => ∀ method ∈ draft.method, P method)
    (fun event _ holds => holds_of_receive start code event holds) found

instance : Std.Refl fun method method' : MethodDraft => P method → P method' := ⟨fun _ => id⟩

instance : IsTrans MethodDraft fun method method' => P method → P method' :=
  ⟨fun _ _ _ first second => second ∘ first⟩

/-- A label can only be placed. -/
theorem leaves_place {R : MethodDraft → MethodDraft → Prop} {token : LabelToken}
    (related : ∀ method : MethodDraft, R method (method.place token).2) :
    Leaves (Changes R) (place token) := by
  intro draft
  cases hmethod : draft.method with
  | none =>
      have hplace : stateOf (place token draft) = draft := by
        simp only [place, onMethod, Bind.bind, EStateM.bind, hmethod, stateOf]
      rw [hplace]
      refine ⟨rfl, ?_⟩
      rw [hmethod]
      exact .none
  | some method =>
      have hplace : stateOf (place token draft) =
          { draft with method := some (method.place token).2 } := by
        rw [place_eq hmethod]
        split
        · rfl
        · rfl
      rw [hplace]
      refine ⟨rfl, ?_⟩
      rw [hmethod]
      exact .some (related method)

open MethodDraft

/-- All code keeps reserved offsets behind the operation codes of their instructions. -/
theorem led_code {event : Event} (code : event.isCode = true) :
    Leaves (Changes fun method method' => method.Led → method'.Led) (receive event) := by
  cases event with
  | instruction i =>
      by_cases hlabel : ∃ token, i = .label token
      · obtain ⟨token, rfl⟩ := hlabel
        exact leaves_place fun method led => led.of_same rfl rfl
      · exact (worked_of_appends (fun appends cells _ led => led.appends appends cells)
          (fun _ _ led => led.of_same rfl rfl) fun token heq => hlabel ⟨token, heq⟩).leaves
  | tryBlock block =>
      have worked : Worked (fun method method' => method.Led → method'.Led)
          (receive (.tryBlock block)) :=
        .bind (.request (Request.unlabelled_optionalClass block.exception)) fun _ =>
          .edit fun _ led => led.of_same rfl rfl
      exact worked.leaves
  | maxs stack locals =>
      have worked : Worked (fun method method' => method.Led → method'.Led)
          (receive (.maxs stack locals)) := .edit fun _ led => led.of_same rfl rfl
      exact worked.leaves
  | _ => cases code

/-- Whatever a draft gets, the offsets that its open method has reserved are zeros within the code,
one behind the other and each behind the operation code of its instruction. -/
theorem reserved_of_gets {method : MethodDraft}
    (h : Receiver.Gets receive kind events .empty draft) (hmethod : draft.method = some method) :
    method.Reserved := by
  obtain ⟨cells, made⟩ := ((orderly_empty.gets h).formed method hmethod).cells
  have led := holds_of_gets (P := Led) (fun _ _ _ _ _ hfixup => nomatch hfixup)
    (fun event code => led_code code) h (fun _ h => nomatch h) method hmethod
  refine ⟨fun fixup hfixup => made.holds_zeros hfixup, ?_, led⟩
  rw [made.fixups]
  exact pairwise_fixupsFrom 0 cells

/-- A method with code that is finished has its patched code in its code attribute. -/
theorem exists_code_of_finish {method : MethodDraft} {code : Array UInt8}
    {pool pool' : ConstantPool} {member : EncodedMember} (valid : pool.Valid)
    (hpatched : method.patchedCode = .ok code)
    (hfinish : method.finish pool = .ok member pool') (hcode : method.hasCode = true)
    {table : ConstantTable} (within : pool'.Within table) :
    ∃ a ∈ member.attributes, method.IsCode code.toList table a := by
  obtain ⟨-, -, settled, -⟩ := method.gives_finish pool member pool' valid hfinish
  obtain ⟨code', attributes, hpatched', rfl, hattributes⟩ := settled table within
  obtain rfl := Except.ok.inj (hpatched.symm.trans hpatched')
  rw [if_pos hcode] at hattributes
  obtain ⟨a, isCode, rfl⟩ := hattributes
  exact ⟨a, List.mem_append_left _ (List.mem_singleton_self a), isCode⟩

/-- The offsets that a method reserves and their way into its code, whatever a draft gets. If the
method is finished, this code is in its code attribute. -/
theorem offsets_patched (events : List Event) {method : MethodDraft}
    (hmethod : (Receiver.deliverAll receive events .empty).2.method = some method) :
    method.Reserved ∧
      (method.code.size ≤ countLimit →
        (∀ fixup ∈ method.fixups.toList, fixup.target ∈ method.labels) →
          (∀ pool opcode distance pool',
            method.finish pool = .error (.jumpTooFar opcode distance) pool' ↔
              pool' = pool ∧ ∃ fixup, method.fixups.toList.find? method.overflows = some fixup ∧
                opcode = fixup.opcode ∧ distance = method.distance fixup) ∧
          ((∀ fixup ∈ method.fixups.toList, method.overflows fixup = false) →
            ∃ code, method.patchedCode = .ok code ∧ code.size = method.code.size ∧
              (∀ fixup ∈ method.fixups.toList, method.Shows code fixup) ∧
              (∀ n, (∀ fixup ∈ method.fixups.toList,
                n < fixup.position ∨ fixup.position + fixup.width ≤ n) →
                  code[n]? = method.code[n]?) ∧
              ∀ member pool',
                method.finish (Receiver.deliverAll receive events .empty).2.pool =
                  .ok member pool' → method.hasCode = true →
                ∀ table, pool'.Within table →
                  ∃ a ∈ member.attributes, method.IsCode code.toList table a)) := by
  have h : Receiver.Gets receive (fun _ => True) events .empty _ :=
    Receiver.gets_deliverAll receive (fun _ _ => trivial) .empty
  have reserved := reserved_of_gets h hmethod
  have orderly := orderly_empty.gets h
  have formed := orderly.formed method hmethod
  refine ⟨reserved, fun small placed => ⟨fun pool opcode distance pool' => ?_, fun near => ?_⟩⟩
  · rw [finish_eq_jumpTooFar_iff, patchedCode_eq_error_iff small placed]
    simp only [Error.jumpTooFar.injEq]
  · obtain ⟨cells, made⟩ := formed.cells
    cases hpatched : method.patchedCode with
    | error error =>
        obtain ⟨fixup, hfixup, -⟩ := (patchedCode_eq_error_iff small placed).mp hpatched
        have hfar := List.find?_some hfixup
        rw [near fixup (List.mem_of_find?_eq_some hfixup)] at hfar
        cases hfar
    | ok code =>
        obtain ⟨hsize, hholds, hothers⟩ := made.patched hpatched
        refine ⟨code, rfl, hsize, fun fixup hfixup => ?_, hothers, ?_⟩
        · have far := formed.abs_distance_le reserved small hfixup
          exact shows_of_holds far (near fixup hfixup) (hholds fixup hfixup)
        · intro member pool' hfinish hcode table
          exact exists_code_of_finish orderly.valid hpatched hfinish hcode

/-- A jump forward, and another instruction that is refused. -/
def jumpingForward : List Event :=
  [.method (.ofBits _ 9) "m" "()V" [], .instruction (.jump ⟨167⟩ ⟨3⟩),
    .instruction (.jump ⟨0⟩ ⟨3⟩), .instruction (.label ⟨3⟩)]

theorem offsets_patched_forwardJump :
    let draft := (Receiver.deliverAll receive jumpingForward .empty).2
    ∃ method code member pool', draft.method = some method ∧
      method.fixups = #[⟨⟨167⟩, 0, 1, false, ⟨3⟩⟩] ∧ method.Reserved ∧
      method.patchedCode = .ok code ∧ code.toList = [167, 0, 3] ∧
      (∀ fixup ∈ method.fixups.toList, method.Shows code fixup) ∧
      method.finish draft.pool = .ok member pool' ∧
      ∃ a ∈ member.attributes, method.IsCode code.toList ⟨pool'.entries⟩ a := by
  intro draft
  obtain ⟨method, hmethod⟩ : ∃ method, draft.method = some method := ⟨_, rfl⟩
  have hall : (draft.method.all fun method =>
      decide (method.fixups = #[⟨⟨167⟩, 0, 1, false, ⟨3⟩⟩]) &&
      decide (method.code.size ≤ countLimit) && (method.fixups.toList.all fun fixup =>
        decide (fixup.target ∈ method.labels) && !method.overflows fixup) &&
      decide (method.patchedCode.toOption.map Array.toList = some [167, 0, 3]) &&
      method.hasCode && method.finish draft.pool matches .ok ..) = true := by
    decide +kernel
  rw [hmethod] at hall
  simp only [Option.all_some, Bool.and_eq_true, decide_eq_true_eq, List.all_eq_true,
    Bool.not_eq_true'] at hall
  obtain ⟨⟨⟨⟨⟨hfixups, small⟩, fixups⟩, hbytes⟩, hcode⟩, hfinishes⟩ := hall
  obtain ⟨reserved, patched⟩ := offsets_patched jumpingForward hmethod
  obtain ⟨-, filled⟩ := patched small fun fixup hfixup => (fixups fixup hfixup).1
  obtain ⟨code, hpatched, -, shows, -, written⟩ :=
    filled fun fixup hfixup => (fixups fixup hfixup).2
  cases hfinish : method.finish draft.pool with
  | error error pool' =>
      rw [hfinish] at hfinishes
      cases hfinishes
  | ok member pool' =>
      have gets : Receiver.Gets receive (fun _ => True) jumpingForward .empty draft :=
        Receiver.gets_deliverAll receive (fun _ _ => trivial) .empty
      have valid := (method.gives_finish _ _ _ (orderly_empty.gets gets).valid hfinish).1
      rw [hpatched] at hbytes
      exact ⟨method, code, member, pool', hmethod, hfixups, reserved, hpatched,
        Option.some.inj hbytes, shows, hfinish,
        written member pool' hfinish hcode _ valid.within_self⟩

end ClassDraft

end JavaClass
