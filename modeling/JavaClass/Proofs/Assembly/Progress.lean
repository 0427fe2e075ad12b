import Mathlib.Data.Option.Basic
import JavaClass.Proofs.Assembly.Instructions
import JavaClass.Proofs.Constant.Asking
import JavaClass.Proofs.Event.Delivery

/-!
# What a step leaves behind

A step of a class draft that is refused has done a part of its work. Whatever
comes of a step on an instruction, the pool and the bootstrap methods have only
grown and the method under construction has at most more code than before.

## Implementation notes

All instructions but calls of bootstrap methods are `Confined`: they ask the
pool, work on the method and refuse, and are put together from such steps. What
is said of them is proved by induction over how they are put together.
-/

namespace JavaClass

open BigEndian ConstantPool

/-- Whether a step was not refused. -/
def accepts {ε σ : Type} : EStateM.Result ε σ Unit → Bool
  | .ok _ _ => true
  | .error _ _ => false

theorem eq_ok_of_accepts {ε σ : Type} {result : EStateM.Result ε σ Unit}
    (h : accepts result = true) : result = .ok () (stateOf result) := by
  cases result with
  | ok value s => rfl
  | error error s => cases h

namespace MethodDraft

/-- The second draft has perhaps more code than the first, and each label that was placed since
stands within its code or right behind it. -/
structure Advances (draft draft' : MethodDraft) : Prop where
  cells : ∃ cells, draft.Gains draft' cells
  placed : ∀ {token : LabelToken} {n : Nat}, draft'.labels[token]? = some n →
    draft.labels[token]? = some n ∨ n ≤ draft'.code.size

/-- The code of the draft is made of cells, and its labels stand within it. -/
structure Formed (draft : MethodDraft) : Prop where
  cells : ∃ cells, draft.MadeOf cells
  placed : ∀ {token : LabelToken} {n : Nat}, draft.labels[token]? = some n → n ≤ draft.code.size

variable {draft draft' draft'' : MethodDraft}

theorem Advances.size_le (h : draft.Advances draft') : draft.code.size ≤ draft'.code.size := by
  obtain ⟨cells, gains⟩ := h.cells
  rw [gains.size]
  exact Nat.le_add_right ..

theorem Advances.of_same (code : draft'.code = draft.code) (fixups : draft'.fixups = draft.fixups)
    (labels : draft'.labels = draft.labels) : draft.Advances draft' where
  cells := ⟨[], .of_same code fixups⟩
  placed := fun h => .inl (labels ▸ h)

theorem Advances.refl (draft : MethodDraft) : draft.Advances draft := .of_same rfl rfl rfl

theorem Advances.trans (h : draft.Advances draft') (h' : draft'.Advances draft'') :
    draft.Advances draft'' where
  cells := by
    obtain ⟨cells, gains⟩ := h.cells
    obtain ⟨more, gains'⟩ := h'.cells
    exact ⟨cells ++ more, gains.trans gains'⟩
  placed := by
    intro token n hn
    obtain hn | hle := h'.placed hn
    · exact (h.placed hn).imp_right (·.trans h'.size_le)
    · exact .inr hle

theorem Appends.advances {cells : List Cell} (h : draft.Appends draft' cells) :
    draft.Advances draft' where
  cells := ⟨cells, h.toGains⟩
  placed := by
    intro token n hn
    rw [h.same] at hn
    exact .inl hn

theorem formed_start (flags : MethodFlags) (name descriptor : UInt16)
    (exceptions : Option EncodedAttribute) :
    (start flags name descriptor exceptions).Formed where
  cells := ⟨[], madeOf_start ..⟩
  placed := by simp [start]

theorem Formed.advances (formed : draft.Formed) (h : draft.Advances draft') :
    draft'.Formed where
  cells := by
    obtain ⟨cells, made⟩ := formed.cells
    obtain ⟨more, gains⟩ := h.cells
    exact ⟨cells ++ more, made.gains gains⟩
  placed := fun hn => (h.placed hn).elim (fun hn => (formed.placed hn).trans h.size_le) id

theorem advances_emit (draft : MethodDraft) (opcode : Opcode) (operands : List UInt8) :
    draft.Advances (draft.emit opcode operands) :=
  (draft.appends_emit draft.code.size opcode operands).advances

theorem advances_localVar (draft : MethodDraft) (opcode : Opcode) (short : Option Opcode)
    (slot : UInt16) : draft.Advances (draft.localVar opcode short slot) := by
  obtain ⟨form, operands, h⟩ := draft.exists_localVar_eq opcode short slot
  rw [h]
  exact draft.advances_emit form operands

theorem advances_increment (draft : MethodDraft) (slot : UInt16) (delta : Int16) :
    draft.Advances (draft.increment slot delta) := by
  obtain ⟨form, operands, h⟩ := draft.exists_increment_eq slot delta
  rw [h]
  exact draft.advances_emit form operands

theorem advances_place (draft : MethodDraft) (token : LabelToken) :
    draft.Advances (draft.place token).2 where
  cells := ⟨[], .of_same rfl rfl⟩
  placed := by
    intro other n hn
    simp only [place, Std.TreeMap.getElem?_insert] at hn
    split at hn
    · exact .inr (Nat.le_of_eq (Option.some.inj hn).symm)
    · exact .inl hn

end MethodDraft

namespace ClassDraft

variable {α β : Type} {draft draft' draft'' : ClassDraft}

/-- The pool and the bootstrap methods of the second draft have grown from those of the first. -/
structure Extends (draft draft' : ClassDraft) : Prop where
  valid : draft.pool.Valid → draft'.pool.Valid
  below : draft.pool.Valid → draft.pool.Below draft'.pool
  sound : draft.Sound → draft'.Sound
  bootstraps : draft.bootstraps.toList <+: draft'.bootstraps.toList

/-- So has the method under construction, and none was opened or ended. -/
structure Advances (draft draft' : ClassDraft) : Prop extends Extends draft draft' where
  method : Option.Rel MethodDraft.Advances draft.method draft'.method

/-- The header is also the same. -/
structure Continues (draft draft' : ClassDraft) : Prop extends Advances draft draft' where
  header : draft'.header = draft.header

theorem Extends.of_same (pool : draft'.pool = draft.pool)
    (bootstraps : draft'.bootstraps = draft.bootstraps)
    (positions : draft'.positions = draft.positions) : draft.Extends draft' where
  valid := fun valid => pool ▸ valid
  below := fun _ => pool ▸ .refl _
  sound := fun sound => (sound.grows_of_same pool bootstraps positions).sound
  bootstraps := bootstraps ▸ List.prefix_rfl

theorem Extends.trans (first : draft.Extends draft') (second : draft'.Extends draft'') :
    draft.Extends draft'' where
  valid := fun valid => second.valid (first.valid valid)
  below := fun valid => (first.below valid).trans (second.below (first.valid valid))
  sound := fun sound => second.sound (first.sound sound)
  bootstraps := first.bootstraps.trans second.bootstraps

theorem rel_advances_refl (method : Option MethodDraft) :
    Option.Rel MethodDraft.Advances method method := by
  cases method with
  | none => exact .none
  | some method => exact .some (.refl method)

theorem Advances.refl (draft : ClassDraft) : draft.Advances draft :=
  ⟨.of_same rfl rfl rfl, rel_advances_refl _⟩

theorem Advances.trans (first : draft.Advances draft') (second : draft'.Advances draft'') :
    draft.Advances draft'' where
  toExtends := first.toExtends.trans second.toExtends
  method := by
    have before := first.method
    have after := second.method
    generalize draft.method = method, draft'.method = method', draft''.method = method''
      at before after
    cases before with
    | none =>
        cases after
        exact .none
    | some before =>
        cases after with
        | some after => exact .some (before.trans after)

theorem Continues.of_same (pool : draft'.pool = draft.pool)
    (bootstraps : draft'.bootstraps = draft.bootstraps)
    (positions : draft'.positions = draft.positions) (method : draft'.method = draft.method)
    (header : draft'.header = draft.header) : draft.Continues draft' :=
  ⟨⟨.of_same pool bootstraps positions, method ▸ rel_advances_refl _⟩, header⟩

theorem Continues.refl (draft : ClassDraft) : draft.Continues draft :=
  .of_same rfl rfl rfl rfl rfl

theorem Continues.trans (first : draft.Continues draft') (second : draft'.Continues draft'') :
    draft.Continues draft'' :=
  ⟨first.toAdvances.trans second.toAdvances, second.header.trans first.header⟩

/-- Whatever comes of the step, the draft that it leaves is related to the one that it found. -/
def Leaves (R : ClassDraft → ClassDraft → Prop) (step : Step α) : Prop :=
  ∀ draft : ClassDraft, R draft (stateOf (step draft))

section Leaves

variable {R : ClassDraft → ClassDraft → Prop}

theorem Leaves.ok {step : Step α} (leaves : Leaves R step) {value : α}
    (h : step draft = .ok value draft') : R draft draft' := by
  have related := leaves draft
  rwa [h] at related

theorem Leaves.error {step : Step α} (leaves : Leaves R step) {error : Error}
    (h : step draft = .error error draft') : R draft draft' := by
  have related := leaves draft
  rwa [h] at related

theorem Leaves.bind [IsTrans ClassDraft R] {step : Step α} {next : α → Step β}
    (first : Leaves R step) (rest : ∀ value, Leaves R (next value)) :
    Leaves R (step >>= next) := by
  intro draft
  simp only [Bind.bind, EStateM.bind]
  cases hstep : step draft with
  | error error draft' => exact first.error hstep
  | ok value draft' => exact IsTrans.trans _ _ _ (first.ok hstep) (rest value draft')

theorem leaves_modifyGet {work : ClassDraft → α × ClassDraft}
    (related : ∀ draft : ClassDraft, R draft (work draft).2) : Leaves R (modifyGet work) :=
  related

theorem leaves_modify {edit : ClassDraft → ClassDraft}
    (related : ∀ draft : ClassDraft, R draft (edit draft)) : Leaves R (modify edit) :=
  related

end Leaves

instance : IsTrans ClassDraft Continues := ⟨fun _ _ _ => Continues.trans⟩

theorem leaves_request {ask : Request α} (keeps : ask.Keeps) :
    Leaves Continues (request ask) := by
  intro draft
  have kept := keeps draft.pool
  unfold settle at kept
  unfold request
  simp only
  generalize ask draft.pool = result at kept ⊢
  have changed (pool : ConstantPool)
      (kept : draft.pool.Valid → pool.Valid ∧ draft.pool.Below pool) :
      draft.Continues { draft with pool } := by
    refine ⟨⟨⟨fun valid => (kept valid).1, fun valid => (kept valid).2, fun sound => ?_,
      List.prefix_rfl⟩, rel_advances_refl _⟩, rfl⟩
    exact ⟨(kept sound.pool).1, sound.found, sound.complete, sound.nodup⟩
  cases result with
  | ok value pool => exact changed pool kept
  | error error pool => exact changed pool kept

theorem leaves_onMethod {work : MethodDraft → α × MethodDraft}
    (advances : ∀ method : MethodDraft, method.Advances (work method).2) :
    Leaves Continues (onMethod work) := by
  intro draft
  unfold onMethod
  cases hmethod : draft.method with
  | none => exact .refl draft
  | some method =>
      refine ⟨⟨.of_same rfl rfl rfl, ?_⟩, rfl⟩
      rw [hmethod]
      exact .some (advances method)

/-- The step asks the pool, works on the method that is open and refuses, and does nothing else. -/
inductive Confined : {α : Type} → Step α → Prop where
  | pure {α : Type} (value : α) : Confined (pure value)
  | refuse {α : Type} (cause : Malformation) : Confined (refuse cause : Step α)
  | request {α : Type} {ask : Request α} (keeps : ask.Keeps) : Confined (request ask)
  | onMethod {α : Type} {work : MethodDraft → α × MethodDraft}
      (advances : ∀ method : MethodDraft, method.Advances (work method).2) :
      Confined (onMethod work)
  | bind {α β : Type} {step : Step α} {next : α → Step β} (first : Confined step)
      (rest : ∀ value, Confined (next value)) : Confined (step >>= next)

theorem Confined.leaves {step : Step α} (confined : Confined step) : Leaves Continues step := by
  induction confined with
  | pure value => exact .refl
  | refuse cause => exact .refl
  | request keeps => exact leaves_request keeps
  | onMethod advances => exact leaves_onMethod advances
  | bind _ _ first rest => exact first.bind rest

/-- The step does the same whatever the bootstrap methods are, and leaves them alone. -/
theorem Confined.eq_ok {step : Step α} (confined : Confined step) {value : α}
    (h : step draft = .ok value draft') (bootstraps : Array Bootstrap)
    (positions : Std.TreeMap Bootstrap UInt16) :
    step { draft with bootstraps, positions } =
      .ok value { draft' with bootstraps, positions } := by
  induction confined generalizing draft draft' with
  | pure value' =>
      cases h
      rfl
  | refuse cause => cases h
  | request keeps =>
      obtain ⟨pool, hask, rfl⟩ := request_eq_ok_iff.mp h
      exact request_eq_ok_iff.mpr ⟨pool, hask, rfl⟩
  | onMethod advances =>
      obtain ⟨method, hmethod, rfl, rfl⟩ := onMethod_eq_ok_iff.mp h
      exact onMethod_eq_ok_iff.mpr ⟨method, hmethod, rfl, rfl⟩
  | bind _ _ first rest =>
      obtain ⟨middle, draft₁, hfirst, hrest⟩ := bind_eq_ok_iff.mp h
      exact bind_eq_ok_iff.mpr ⟨middle, _, first hfirst, rest middle hrest⟩

theorem confined_editMethod {edit : MethodDraft → MethodDraft}
    (advances : ∀ method : MethodDraft, method.Advances (edit method)) :
    Confined (editMethod edit) :=
  .onMethod advances

theorem confined_emit (opcode : Opcode) (operands : List UInt8) :
    Confined (emit opcode operands) :=
  confined_editMethod fun method => method.advances_emit opcode operands

theorem confined_int (opcode : Opcode) (operand : Int32) : Confined (int opcode operand) := by
  unfold int
  split
  · exact confined_emit ..
  · split
    · exact confined_emit ..
    · split
      · exact confined_emit ..
      · exact .refuse _

theorem confined_call (opcode : Opcode) (owner name descriptor : String) (isInterface : Bool) :
    Confined (call opcode owner name descriptor isInterface) := by
  apply Confined.bind (.request (Request.keeps_method owner name descriptor isInterface))
  intro member
  apply (confined_emit _ _).bind
  intro _
  split
  · split
    · exact .refuse _
    · exact confined_editMethod fun method =>
        (method.appends_push opcode method.code.size _).advances
  · exact .pure _

theorem confined_load (literal : Literal) : Confined (load literal) := by
  apply Confined.bind (.request (Request.keeps_literal literal))
  intro slot
  split
  · exact confined_emit ..
  · split
    · exact confined_emit ..
    · exact confined_emit ..

theorem confined_place (token : LabelToken) : Confined (place token) := by
  apply Confined.bind (.onMethod fun method => method.advances_place token)
  intro placed
  split
  · exact .refuse _
  · exact .pure _

/-- All instructions but calls of bootstrap methods are confined. -/
theorem confined_instruction {i : Instruction LabelToken} (hcalls : i.calls = []) :
    Confined (instruction i) := by
  cases i with
  | simple opcode =>
      rw [instruction]
      split
      · exact confined_emit ..
      · exact .refuse _
  | int opcode operand => exact confined_int opcode operand
  | localVar opcode slot =>
      rw [instruction]
      split
      · exact confined_editMethod fun method => method.advances_localVar ..
      · exact .refuse _
  | increment slot delta =>
      exact confined_editMethod fun method => method.advances_increment slot delta
  | field opcode owner name descriptor =>
      exact .bind (.request (Request.keeps_field owner name descriptor)) fun _ => confined_emit ..
  | method opcode owner name descriptor isInterface =>
      exact confined_call opcode owner name descriptor isInterface
  | invokeDynamic name descriptor handle arguments => cases hcalls
  | type opcode name =>
      exact .bind (.request (Request.keeps_classNamed name)) fun _ => confined_emit ..
  | load literal => exact confined_load literal
  | jump opcode target =>
      rw [instruction]
      split
      · exact confined_editMethod fun method => (method.appends_jump opcode target).advances
      · exact .refuse _
  | lookupSwitch otherwise keys targets =>
      rw [instruction]
      split
      · exact confined_editMethod fun method => (method.appends_lookupSwitch otherwise _).advances
      · exact .refuse _
  | tableSwitch low high otherwise targets =>
      rw [instruction]
      split
      · exact .refuse _
      · exact confined_editMethod fun method => (method.appends_tableSwitch otherwise ..).advances
  | multiNewArray descriptor dimensions =>
      exact .bind (.request (Request.keeps_classNamed descriptor)) fun _ => confined_emit ..
  | label token => exact confined_place token
  | line number token => exact confined_editMethod fun _ => .of_same rfl rfl rfl

/-- What a call does once its bootstrap method has a position. -/
theorem confined_site (position : UInt16) (name descriptor : String) : Confined (do
    emit .invokeDynamic (u16 (← request (.callSite position name descriptor)) ++ [0, 0])) :=
  .bind (.request (Request.keeps_callSite position name descriptor)) fun _ => confined_emit ..

theorem leaves_bootstrap (handle : MethodHandle) (arguments : List Literal) :
    Leaves Continues (bootstrap handle arguments) := by
  apply Leaves.bind (leaves_request (Request.keeps_methodHandle handle))
  intro method
  apply Leaves.bind (leaves_request (Request.keeps_each Request.keeps_literal arguments))
  intro slots
  apply leaves_modifyGet
  intro draft
  cases hfound : draft.positions[(⟨method, slots⟩ : Bootstrap)]? with
  | some position => exact .refl draft
  | none =>
      refine ⟨⟨⟨id, fun _ => .refl _, fun sound => sound.push hfound, ?_⟩,
        rel_advances_refl _⟩, rfl⟩
      simp

/-- Whatever comes of an instruction, the draft continues. -/
theorem leaves_instruction (i : Instruction LabelToken) : Leaves Continues (instruction i) := by
  by_cases hcalls : i.calls = []
  · exact (confined_instruction hcalls).leaves
  · cases i with
    | invokeDynamic name descriptor handle arguments =>
        apply (leaves_bootstrap handle arguments).bind
        intro position
        exact (confined_site position name descriptor).leaves
    | _ => exact absurd rfl hcalls

end ClassDraft

end JavaClass
