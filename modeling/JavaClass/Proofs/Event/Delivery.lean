import JavaClass.Event.Delivery

/-!
# Deliveries without a refusal

A delivery succeeds if every event is accepted, one after the other. Which
method was opened before only matters for the error of an event that is
refused.
-/

namespace JavaClass

/-- The state that a step leaves, whether or not the step was refused. -/
def stateOf {ε σ α : Type} : EStateM.Result ε σ α → σ
  | .ok _ s => s
  | .error _ s => s

/-- A run of two steps succeeds if both do. -/
theorem bind_eq_ok_iff {σ α β : Type} {first : EStateM Error σ α} {next : α → EStateM Error σ β}
    {s s'' : σ} {b : β} :
    (first >>= next) s = .ok b s'' ↔
      ∃ a s', first s = .ok a s' ∧ next a s' = .ok b s'' := by
  simp only [Bind.bind, EStateM.bind]
  cases first s with
  | ok a s' =>
      constructor
      · intro h
        exact ⟨a, s', rfl, h⟩
      · rintro ⟨a', s₁, h, hnext⟩
        cases h
        exact hnext
  | error error s' => simp

/-- A transcript without a failure tells its events. -/
theorem Transcript.eq_tell_of_failure {transcript : Transcript} (h : transcript.failure = none) :
    transcript = .tell transcript.events := by
  obtain ⟨events, failure⟩ := transcript
  cases h
  rfl

namespace Receiver

variable {σ : Type} {receive : Receiver σ}

/-- The receiver takes the events one after the other and goes from one state to another. -/
inductive Takes (receive : Receiver σ) : List Event → σ → σ → Prop where
  | nil {s} : Takes receive [] s s
  | cons {event rest s s' s''} (first : receive event s = .ok () s')
      (others : Takes receive rest s' s'') : Takes receive (event :: rest) s s''

theorem takes_cons_iff {event : Event} {rest : List Event} {s s'' : σ} :
    Takes receive (event :: rest) s s'' ↔
      ∃ s', receive event s = .ok () s' ∧ Takes receive rest s' s'' := by
  constructor
  · rintro ⟨⟩
    rename_i s' first others
    exact ⟨s', first, others⟩
  · rintro ⟨s', first, others⟩
    exact .cons first others

theorem Takes.unique {events : List Event} {s s' s'' : σ} (h : Takes receive events s s')
    (h' : Takes receive events s s'') : s' = s'' := by
  induction h with
  | nil =>
      cases h'
      rfl
  | cons first _ ih =>
      obtain ⟨next, first', others⟩ := takes_cons_iff.mp h'
      obtain ⟨-, rfl⟩ := EStateM.Result.ok.inj (first'.symm.trans first)
      exact ih others

theorem takes_append_iff {first second : List Event} {s s'' : σ} :
    Takes receive (first ++ second) s s'' ↔
      ∃ s', Takes receive first s s' ∧ Takes receive second s' s'' := by
  induction first generalizing s with
  | nil =>
      constructor
      · intro h
        exact ⟨s, .nil, h⟩
      · rintro ⟨s', ⟨⟩, h⟩
        exact h
  | cons event first ih =>
      rw [List.cons_append, takes_cons_iff]
      constructor
      · rintro ⟨s₁, hevent, hrest⟩
        obtain ⟨s', hfirst, hsecond⟩ := ih.mp hrest
        exact ⟨s', .cons hevent hfirst, hsecond⟩
      · rintro ⟨s', hfirst, hsecond⟩
        obtain ⟨s₁, hevent, hrest⟩ := takes_cons_iff.mp hfirst
        exact ⟨s₁, hevent, ih.mpr ⟨s', hrest, hsecond⟩⟩

theorem deliverFrom_eq_ok_iff {current : Option (String × String)} {events : List Event}
    {s s' : σ} : deliverFrom receive current events s = .ok () s' ↔
      Takes receive events s s' := by
  induction events generalizing current s with
  | nil =>
      rw [deliverFrom]
      constructor
      · intro h
        cases h
        exact .nil
      · rintro ⟨⟩
        rfl
  | cons event rest ih =>
      rw [takes_cons_iff, deliverFrom]
      cases hevent : receive event s with
      | ok value s₁ =>
          simp only [hevent]
          rw [ih]
          constructor
          · intro h
            exact ⟨s₁, rfl, h⟩
          · rintro ⟨s₂, h, hrest⟩
            cases h
            exact hrest
      | error error s₁ => simp [hevent]

/-- A transcript is delivered if it does not fail and all of its events are taken. -/
theorem deliver_eq_ok_iff {transcript : Transcript} {s s' : σ} :
    deliver receive transcript s = .ok () s' ↔
      transcript.failure = none ∧ Takes receive transcript.events s s' := by
  rw [← @deliverFrom_eq_ok_iff _ _ none, deliver]
  cases deliverFrom receive none transcript.events s with
  | error error s₁ => simp
  | ok value s₁ => cases transcript.failure <;> simp

/-- The receiver gets the events one after the other, whether it takes or refuses them, and goes
from one state to another. It only takes events of a kind. -/
inductive Gets (receive : Receiver σ) (kind : Event → Prop) : List Event → σ → σ → Prop where
  | nil {s} : Gets receive kind [] s s
  | taken {event rest s s' s''} (of_kind : kind event) (first : receive event s = .ok () s')
      (others : Gets receive kind rest s' s'') : Gets receive kind (event :: rest) s s''
  | refused {event rest error s s' s''} (first : receive event s = .error error s')
      (others : Gets receive kind rest s' s'') : Gets receive kind (event :: rest) s s''

/-- What every step makes true of the events so far and the state that it leaves, whatever comes of
it, is true after a run. -/
theorem Gets.follows {P : List Event → σ → Prop}
    (step : ∀ past event s, P past s → P (past ++ [event]) (stateOf (receive event s)))
    {kind : Event → Prop} {events : List Event} {s s' : σ} (h : Gets receive kind events s s')
    (past : List Event) (holds : P past s) : P (past ++ events) s' := by
  induction h generalizing past with
  | nil =>
      rw [List.append_nil]
      exact holds
  | @taken event rest s _ _ _ first _ ih =>
      have followed := step past event s holds
      rw [first] at followed
      rw [List.append_cons]
      exact ih _ followed
  | @refused event rest _ s _ _ first _ ih =>
      have followed := step past event s holds
      rw [first] at followed
      rw [List.append_cons]
      exact ih _ followed

/-- What every step keeps, whatever comes of it, is kept by a run. -/
theorem Gets.keeps {P : σ → Prop} (step : ∀ event s, P s → P (stateOf (receive event s)))
    {kind : Event → Prop} {events : List Event} {s s' : σ} (h : Gets receive kind events s s')
    (holds : P s) : P s' :=
  h.follows (P := fun _ => P) (fun _ => step) [] holds

/-- Delivering all events is such a run. -/
theorem gets_deliverAll (receive : Receiver σ) {kind : Event → Prop} {events : List Event}
    (of_kind : ∀ event ∈ events, kind event) (s : σ) :
    Gets receive kind events s (deliverAll receive events s).2 := by
  have hgo (position : Nat) (refused : List (Nat × Error)) :
      Gets receive kind events s (deliverAll.go receive position events refused s).2 := by
    induction events generalizing position refused s with
    | nil => exact .nil
    | cons event rest ih =>
        obtain ⟨of_kind, rest_of_kind⟩ := List.forall_mem_cons.mp of_kind
        rw [deliverAll.go]
        cases hevent : receive event s with
        | ok value s' => exact .taken of_kind hevent (ih rest_of_kind s' _ _)
        | error error s' => exact .refused hevent (ih rest_of_kind s' _ _)
  exact hgo 0 []

end Receiver

end JavaClass
