import JavaClass.Proofs.Constant.ReadBack

/-!
# When literals share a slot

Two literals that are asked for in one run get the same slot exactly when they
are the same up to what the pool forgets: whether the owner of a field that a
handle names is an interface. For all other literals the slots are equal exactly
when the literals are.

## Implementation notes

A slot cannot stand for two literals because it is read back as each of them,
and one literal cannot have two slots because asking again gives the first. So
no bytes of constants are compared here.
-/

namespace JavaClass

namespace MethodHandle

/-- The handles name one field in the same way, and may differ in the flag of its owner. -/
def SameField (first second : MethodHandle) : Prop :=
  first.kind.isField ∧ second = { first with isInterface := second.isInterface }

theorem normal_eq_iff {first second : MethodHandle} :
    first.normal = second.normal ↔ first = second ∨ first.SameField second := by
  obtain ⟨kind, owner, name, descriptor, flag⟩ := first
  obtain ⟨kind', owner', name', descriptor', flag'⟩ := second
  simp only [normal, SameField, MethodHandle.mk.injEq, and_true]
  constructor
  · intro h
    split at h
    all_goals split at h
    all_goals simp_all
  · rintro (⟨rfl, rfl, rfl, rfl, rfl⟩ | ⟨hfield, rfl, rfl, rfl, rfl⟩)
    · rfl
    · simp [hfield]

end MethodHandle

namespace Literal

/-- The literals are handles that name one field in the same way. -/
def SameField (first second : Literal) : Prop :=
  ∃ handle handle', first = .methodHandle handle ∧ second = .methodHandle handle' ∧
    handle.SameField handle'

/-- Literals have one normal form exactly when they are equal up to the flag of a field's owner. -/
theorem normal_eq_iff {first second : Literal} :
    first.normal = second.normal ↔ first = second ∨ first.SameField second := by
  cases first with
  | methodHandle handle =>
      cases second with
      | methodHandle handle' => simp [normal, SameField, MethodHandle.normal_eq_iff]
      | _ => simp [normal, SameField]
  | _ => cases second <;> simp [normal, SameField]

end Literal

namespace ConstantPool

variable {asks : List Ask}

/-- A request that was answered once is answered alike, and adds nothing, after any run. -/
theorem Gave.again {ask : Ask} {slot : UInt16} (gave : Gave asks ask slot) :
    ask.request (empty.askAll asks).2 = .ok slot (empty.askAll asks).2 := by
  obtain ⟨before, after, rfl, hanswer⟩ := gave
  obtain ⟨valid₀, -⟩ := valid_empty.askAll before
  rw [askAll_append, askAll_cons]
  generalize (empty.askAll before).2 = pool at hanswer valid₀
  obtain ⟨valid₁, -, -, again⟩ := ask.gives pool slot _ valid₀ (settle_eq_ok hanswer)
  obtain ⟨valid₂, below⟩ := valid₁.askAll after
  exact again _ valid₂ below

/-- In one run, literals get the same slot exactly when they have the same normal form. -/
theorem Gave.slot_eq_iff {first second : Literal} {slot slot' : UInt16}
    (gave : Gave asks (.literal first) slot) (gave' : Gave asks (.literal second) slot') :
    slot = slot' ↔ first.normal = second.normal := by
  obtain ⟨valid, -⟩ := valid_empty.askAll asks
  constructor
  · rintro rfl
    have hfirst : ConstantTable.literal _ slot = .ok first.normal := gave.shows valid.within_self
    have hsecond : ConstantTable.literal _ slot = .ok second.normal :=
      gave'.shows valid.within_self
    exact Except.ok.inj (hfirst.symm.trans hsecond)
  · intro h
    have hrequest : Request.literal first = Request.literal second := by
      rw [← Request.literal_normal first, h, Request.literal_normal second]
    have hfirst : Request.literal first (empty.askAll asks).2 = .ok slot _ := gave.again
    have hsecond : Request.literal second (empty.askAll asks).2 = .ok slot' _ := gave'.again
    rw [hrequest, hsecond] at hfirst
    cases hfirst
    rfl

/-- The slots of two literals are equal exactly when the literals are, or when both are handles on
one field that differ in the flag of its owner. -/
theorem literal_slot_eq_iff (asks : List Ask) (first second : Literal) (slot slot' : UInt16)
    (gave : Gave asks (.literal first) slot) (gave' : Gave asks (.literal second) slot') :
    slot = slot' ↔ first = second ∨ first.SameField second := by
  rw [gave.slot_eq_iff gave', Literal.normal_eq_iff]

/-- A double and a handle that share their parts have different slots, and a handle on a field has
one slot whatever is said of the owner. -/
theorem literal_slot_eq_iff_field :
    let asks : List Ask :=
      [.literal (.double 0), .literal (.methodHandle ⟨.getField, "A", "f", "I", true⟩),
        .literal (.methodHandle ⟨.getField, "A", "f", "I", false⟩)]
    Gave asks (.literal (.double 0)) 1 ∧
      Gave asks (.literal (.methodHandle ⟨.getField, "A", "f", "I", true⟩)) 9 ∧
      Gave asks (.literal (.methodHandle ⟨.getField, "A", "f", "I", false⟩)) 9 ∧
      ((1 : UInt16) = 9 ↔ Literal.double 0 = .methodHandle ⟨.getField, "A", "f", "I", true⟩ ∨
        (Literal.double 0).SameField (.methodHandle ⟨.getField, "A", "f", "I", true⟩)) ∧
      ((9 : UInt16) = 9 ↔
        Literal.methodHandle ⟨.getField, "A", "f", "I", true⟩ =
            .methodHandle ⟨.getField, "A", "f", "I", false⟩ ∨
          (Literal.methodHandle ⟨.getField, "A", "f", "I", true⟩).SameField
            (.methodHandle ⟨.getField, "A", "f", "I", false⟩)) := by
  intro asks
  have number : Gave asks (.literal (.double 0)) 1 := ⟨[], asks.drop 1, rfl, rfl⟩
  have handle : Gave asks (.literal (.methodHandle ⟨.getField, "A", "f", "I", true⟩)) 9 :=
    ⟨asks.take 1, asks.drop 2, rfl, rfl⟩
  have handle' : Gave asks (.literal (.methodHandle ⟨.getField, "A", "f", "I", false⟩)) 9 :=
    ⟨asks.take 2, [], rfl, rfl⟩
  exact ⟨number, handle, handle', literal_slot_eq_iff asks _ _ 1 9 number handle,
    literal_slot_eq_iff asks _ _ 9 9 handle handle'⟩

/-- Equal slots are not always those of equal literals. -/
theorem not_forall_slot_eq_iff_eq :
    ¬ ∀ (asks : List Ask) (first second : Literal) (slot slot' : UInt16),
      Gave asks (.literal first) slot → Gave asks (.literal second) slot' →
        (slot = slot' ↔ first = second) := by
  intro h
  let asks : List Ask :=
    [.literal (.methodHandle ⟨.getField, "A", "f", "I", true⟩),
      .literal (.methodHandle ⟨.getField, "A", "f", "I", false⟩)]
  have first : Gave asks (.literal (.methodHandle ⟨.getField, "A", "f", "I", true⟩)) 7 :=
    ⟨[], asks.drop 1, rfl, rfl⟩
  have second : Gave asks (.literal (.methodHandle ⟨.getField, "A", "f", "I", false⟩)) 7 :=
    ⟨asks.take 1, [], rfl, rfl⟩
  exact absurd ((h asks _ _ 7 7 first second).mp rfl) (by decide)

end ConstantPool

end JavaClass
