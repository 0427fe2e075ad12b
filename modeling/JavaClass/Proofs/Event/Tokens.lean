import Mathlib.Data.List.Forall2
import JavaClass.Proofs.Event.Delivery

/-!
# Receivers that only compare tokens

Two runs of a receiver are compared, the second of which receives other tokens
for the labels of each method. If the receiver only asks which tokens are equal,
both runs refuse the same events for the same causes, whatever was refused
before.

## Implementation notes

Tokens show in errors, so the errors are the same up to the tokens in them
(`Error.mapTokens`). An event that would begin a method may be refused. Then the
method that was begun before goes on, and so do its tokens
(`Receiver.methodNumbers`).
-/

namespace JavaClass

/-- Exchanges the token that a malformation shows. -/
def Malformation.mapTokens (f : LabelToken → LabelToken) : Malformation → Malformation
  | .unplacedToken token => .unplacedToken (f token)
  | .tokenPlacedTwice token => .tokenPlacedTwice (f token)
  | .inMethod name descriptor cause => .inMethod name descriptor (cause.mapTokens f)
  | .atLocation location cause => .atLocation location (cause.mapTokens f)
  | other => other

/-- Exchanges the token that an error shows. -/
def Error.mapTokens (f : LabelToken → LabelToken) : Error → Error
  | .malformed cause => .malformed (cause.mapTokens f)
  | other => other

section Steps

variable {σ α β : Type} {f : LabelToken → LabelToken} {R : σ → σ → Prop}

/-- Two steps end alike: with the same value or with errors that are the same up to tokens, and in
related states. -/
inductive SameOutcome (f : LabelToken → LabelToken) (R : σ → σ → Prop) :
    EStateM.Result Error σ α → EStateM.Result Error σ α → Prop where
  | ok {value : α} {s s' : σ} (related : R s s') : SameOutcome f R (.ok value s) (.ok value s')
  | error {error : Error} {s s' : σ} (related : R s s') :
      SameOutcome f R (.error error s) (.error (error.mapTokens f) s')

/-- What one step does in a state, the other does in a related state. -/
def Mirrors (f : LabelToken → LabelToken) (R : σ → σ → Prop) (step step' : EStateM Error σ α) :
    Prop :=
  ∀ s s', R s s' → SameOutcome f R (step s) (step' s')

theorem Mirrors.bind {step step' : EStateM Error σ α} {next next' : α → EStateM Error σ β}
    (first : Mirrors f R step step') (rest : ∀ value, Mirrors f R (next value) (next' value)) :
    Mirrors f R (step >>= next) (step' >>= next') := by
  intro s s' related
  have outcome := first s s' related
  simp only [Bind.bind, EStateM.bind]
  generalize step s = result, step' s' = result' at outcome
  cases outcome with
  | ok related => exact rest _ _ _ related
  | error related => exact .error related

theorem mirrors_pure (value : α) : Mirrors f R (pure value) (pure value) :=
  fun _ _ related => .ok related

theorem mirrors_throw {error error' : Error} (h : error' = error.mapTokens f) :
    Mirrors f R (throw error : EStateM Error σ α) (throw error') := by
  intro s s' related
  rw [h]
  exact .error related

theorem mirrors_modifyGet {work work' : σ → α × σ}
    (hwork : ∀ s s', R s s' → (work s).1 = (work' s').1 ∧ R (work s).2 (work' s').2) :
    Mirrors f R (modifyGet work) (modifyGet work') := by
  intro s s' related
  obtain ⟨hvalue, hrelated⟩ := hwork s s' related
  change SameOutcome f R (.ok (work s).1 (work s).2) (.ok (work' s').1 (work' s').2)
  rw [hvalue]
  exact .ok hrelated

theorem mirrors_modify {work work' : σ → σ} (hwork : ∀ s s', R s s' → R (work s) (work' s')) :
    Mirrors f R (modify work) (modify work') :=
  mirrors_modifyGet fun s s' related => ⟨rfl, hwork s s' related⟩

/-- A step that succeeds is mirrored by a step that succeeds. -/
theorem Mirrors.ok {step step' : EStateM Error σ α} (mirrors : Mirrors f R step step') {s s' t : σ}
    {value : α} (related : R s s') (h : step s = .ok value t) :
    ∃ t', step' s' = .ok value t' ∧ R t t' := by
  have outcome := mirrors s s' related
  rw [h] at outcome
  generalize step' s' = result' at outcome
  cases outcome with
  | ok related => exact ⟨_, rfl, related⟩

end Steps

/-- Whether the event begins a method. -/
def Event.beginsMethod : Event → Bool
  | .method .. => true
  | _ => false

namespace Receiver

variable {σ : Type}

/-- How many methods a receiver has begun before each event, refused beginnings not counted. -/
def methodNumbers (receive : Receiver σ) : (begun : Nat) → List Event → σ → List Nat
  | _, [], _ => []
  | begun, event :: rest, s =>
      begun :: match receive event s with
        | .ok _ s => methodNumbers receive (if event.beginsMethod then begun + 1 else begun) rest s
        | .error _ s => methodNumbers receive begun rest s

/-- Exchanges the tokens of each method, methods being known by their numbers. -/
def exchange (f : Nat → LabelToken → LabelToken) (numbers : List Nat)
    (events : List Event) : List Event :=
  List.zipWith (fun number event => event.mapTokens (f number)) numbers events

/-- The same events were refused, for causes that are the same up to the tokens of the method. -/
def SameRefusals (f : Nat → LabelToken → LabelToken) (numbers : List Nat) :
    List (Nat × Error) → List (Nat × Error) → Prop :=
  List.Forall₂ fun refusal other => other.1 = refusal.1 ∧
    ∃ number, numbers[refusal.1]? = some number ∧ other.2 = refusal.2.mapTokens (f number)

/-- The receiver only asks which tokens are equal: states that differ in the tokens of the method
under way stay so, and once a method begins its tokens are free to choose. -/
structure OnlyCompares (receive : Receiver σ)
    (R : (LabelToken → LabelToken) → σ → σ → Prop) : Prop where
  step : ∀ {f : LabelToken → LabelToken}, Function.Injective f → ∀ event : Event,
    Mirrors f (R f) (receive event) (receive (event.mapTokens f))
  begin : ∀ {f g : LabelToken → LabelToken} {event : Event} {s s' t t' : σ},
    event.beginsMethod = true → R f s s' → receive event s = .ok () t →
      receive (event.mapTokens f) s' = .ok () t' → R g t t'

variable {receive : Receiver σ} {R : (LabelToken → LabelToken) → σ → σ → Prop}
  {f : Nat → LabelToken → LabelToken}

/-- What was refused before does not matter for the rest of a run. -/
theorem go_refused (receive : Receiver σ) (position : Nat) (events : List Event)
    (refused : List (Nat × Error)) (s : σ) :
    deliverAll.go receive position events refused s =
      (refused.reverse ++ (deliverAll.go receive position events [] s).1,
        (deliverAll.go receive position events [] s).2) := by
  induction events generalizing position refused s with
  | nil => simp [deliverAll.go]
  | cons event rest ih =>
      rw [deliverAll.go, deliverAll.go]
      cases receive event s with
      | ok value s => exact ih (position + 1) refused s
      | error error s =>
          simp only
          rw [ih, ih (position + 1) [(position, error)]]
          simp

/-- From related states on, with the numbers of all events before. -/
theorem OnlyCompares.go (compares : OnlyCompares receive R) (inj : ∀ n, Function.Injective (f n))
    (events : List Event) {begun : Nat} {s s' : σ} (related : R (f begun) s s')
    (before : List Nat) :
    let numbers := methodNumbers receive begun events s
    let run := deliverAll.go receive before.length events [] s
    let other := deliverAll.go receive before.length (exchange f numbers events) [] s'
    SameRefusals f (before ++ numbers) run.1 other.1 ∧ ∃ n, R (f n) run.2 other.2 := by
  induction events generalizing begun s s' before with
  | nil => exact ⟨.nil, begun, related⟩
  | cons event rest ih =>
      have outcome := compares.step (inj begun) event s s' related
      have hlength : before.length + 1 = (before ++ [begun]).length := by simp
      have hbegun (later : List Nat) :
          before ++ begun :: later = before ++ [begun] ++ later := by simp
      simp only [methodNumbers, exchange, List.zipWith_cons_cons, deliverAll.go]
      generalize hreceive : receive event s = result,
        hother : receive (event.mapTokens (f begun)) s' = result' at outcome
      cases outcome with
      | @ok value t t' related' =>
          have hnext : R (f (if event.beginsMethod then begun + 1 else begun)) t t' := by
            split
            · exact compares.begin ‹_› related hreceive hother
            · exact related'
          rw [hlength, hbegun]
          exact ih hnext (before ++ [begun])
      | @error error t t' related' =>
          dsimp only
          rw [hbegun, go_refused,
            go_refused receive (before.length + 1) _ [(before.length, _)] t', hlength]
          obtain ⟨refusals, final⟩ := ih related' (before ++ [begun])
          refine ⟨.cons ⟨rfl, begun, ?_, rfl⟩ refusals, final⟩
          rw [List.append_assoc, List.getElem?_append_right (Nat.le_refl _), Nat.sub_self]
          rfl

/-- A receiver that only compares tokens refuses the same events whatever the tokens of the methods
are, for the same causes up to tokens. -/
theorem OnlyCompares.deliverAll (compares : OnlyCompares receive R)
    (inj : ∀ n, Function.Injective (f n)) (events : List Event) {s s' : σ}
    (related : R (f 0) s s') :
    let numbers := methodNumbers receive 0 events s
    let run := receive.deliverAll events s
    let other := receive.deliverAll (exchange f numbers events) s'
    SameRefusals f numbers run.1 other.1 ∧ ∃ n, R (f n) run.2 other.2 :=
  compares.go inj events related []

/-- Events that are taken are taken with other tokens too. -/
theorem OnlyCompares.exists_takes (compares : OnlyCompares receive R) {g : LabelToken → LabelToken}
    (inj : Function.Injective g) {events : List Event} {s s' t : σ}
    (takes : Takes receive events s t) (related : R g s s') :
    ∃ t', Takes receive (events.map (Event.mapTokens g)) s' t' ∧ R g t t' := by
  induction takes generalizing s' with
  | nil => exact ⟨s', .nil, related⟩
  | cons first _ ih =>
      obtain ⟨next, hfirst, hnext⟩ := (compares.step inj _).ok related first
      obtain ⟨t', hrest, hlast⟩ := ih hnext
      exact ⟨t', .cons hfirst hrest, hlast⟩

/-- Once a method has begun, its events are taken with tokens of any other choice. -/
theorem OnlyCompares.exists_takes_begun (compares : OnlyCompares receive R)
    {g h : LabelToken → LabelToken} (hg : Function.Injective g) (hh : Function.Injective h)
    {event : Event} (begins : event.beginsMethod = true) {rest : List Event} {s s' t : σ}
    (takes : Takes receive (event :: rest) s t) (related : R g s s') :
    ∃ t', Takes receive ((event :: rest).map (Event.mapTokens h)) s' t' ∧ R h t t' := by
  obtain ⟨next, hfirst, hrest⟩ := takes_cons_iff.mp takes
  obtain ⟨next', hfirst', -⟩ := (compares.step hg event).ok related hfirst
  have hbegun : R h next next' := compares.begin begins related hfirst hfirst'
  have hsame : event.mapTokens h = event.mapTokens g := by
    cases event <;> first | rfl | cases begins
  obtain ⟨t', hrest', hlast⟩ := compares.exists_takes hh hrest hbegun
  rw [← hsame] at hfirst'
  exact ⟨t', .cons hfirst' hrest', hlast⟩

/-- Other tokens in each method change nothing: the same events are refused, for causes that are
the same up to tokens, and the result is the same. -/
def IgnoresTokens {ρ : Type} (receive : Receiver σ) (result : σ → ρ) (start : σ)
    (f : Nat → LabelToken → LabelToken) (events : List Event) : Prop :=
  let numbers := methodNumbers receive 0 events start
  let run := receive.deliverAll events start
  let other := receive.deliverAll (exchange f numbers events) start
  SameRefusals f numbers run.1 other.1 ∧ result other.2 = result run.2

theorem OnlyCompares.ignoresTokens {ρ : Type} {result : σ → ρ} {start : σ}
    (compares : OnlyCompares receive R) (inj : ∀ n, Function.Injective (f n))
    (related : R (f 0) start start)
    (same : ∀ {g : LabelToken → LabelToken} {s s' : σ}, R g s s' → result s' = result s)
    (events : List Event) : IgnoresTokens receive result start f events := by
  obtain ⟨refusals, n, final⟩ := compares.deliverAll inj events related
  exact ⟨refusals, same final⟩

end Receiver

end JavaClass
