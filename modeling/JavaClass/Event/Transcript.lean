import JavaClass.Event.Basic

/-!
# Transcripts

A transcript is the events that were told of a class and, if telling stopped
early, the error that stopped it. Transcripts are put together one after the
other, up to and including the first that fails.
-/

namespace JavaClass

/-- Events, and why there are no more of them. -/
structure Transcript where
  events : List Event
  failure : Option Error
  deriving DecidableEq, Repr

namespace Transcript

/-- Nothing to tell. -/
def done : Transcript := ⟨[], none⟩

/-- Events without a failure. -/
def tell (events : List Event) : Transcript := ⟨events, none⟩

/-- A failure before any event. -/
def fail (error : Error) : Transcript := ⟨[], some error⟩

/-- Goes on with a transcript, unless there was a failure before. -/
def andThen (first : Transcript) (second : Transcript) : Transcript :=
  match first.failure with
  | some _ => first
  | none => ⟨first.events ++ second.events, second.failure⟩

/-- Goes on with what was found, or fails. -/
def withResult {α : Type} (result : Except Error α) (next : α → Transcript) : Transcript :=
  match result with
  | .ok value => next value
  | .error error => fail error

/-- One transcript after the other. -/
def concat (transcripts : List Transcript) : Transcript :=
  transcripts.foldr andThen done

/-- Changes the error, if there is one. -/
def mapFailure (f : Error → Error) (transcript : Transcript) : Transcript :=
  ⟨transcript.events, transcript.failure.map f⟩

/-- The failure, as the result of telling. -/
def result (transcript : Transcript) : Except Error Unit :=
  match transcript.failure with
  | some error => .error error
  | none => .ok ()

@[simp] theorem done_andThen (t : Transcript) : done.andThen t = t := by
  simp [done, andThen]

@[simp] theorem andThen_done (t : Transcript) : t.andThen done = t := by
  cases t with
  | mk events failure => cases failure <;> simp [done, andThen]

theorem andThen_assoc (a b c : Transcript) :
    (a.andThen b).andThen c = a.andThen (b.andThen c) := by
  cases a with
  | mk events failure =>
      cases failure with
      | some error => rfl
      | none =>
          cases b with
          | mk events failure => cases failure <;> simp [andThen]

theorem concat_cons (t : Transcript) (ts : List Transcript) :
    concat (t :: ts) = t.andThen (concat ts) := rfl

end Transcript

end JavaClass
