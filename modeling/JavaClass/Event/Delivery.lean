import JavaClass.Event.Transcript

/-!
# Delivering events

A receiver takes events one at a time and may refuse one. A transcript is
delivered until an event is refused or the transcript itself fails. An event
that is refused within the code of a method is reported with that method.

## Implementation notes

A receiver is a state and a step that may change the state even if it refuses
the event, so a sender may also go on with whatever state is left.
-/

namespace JavaClass

/-- What a receiver does with an event. -/
abbrev Receiver (σ : Type) := Event → EStateM Error σ Unit

namespace Receiver

variable {σ : Type}

/-- The name and the descriptor of the method that an event opens, or those of the method that
was opened before. -/
def methodAfter (current : Option (String × String)) : Event → Option (String × String)
  | .method _ name descriptor _ => some (name, descriptor)
  | _ => current

/-- The error of an event that was refused, told with the method that the event is part of. -/
def located (current : Option (String × String)) (event : Event) (error : Error) : Error :=
  match current with
  | some (name, descriptor) => if event.isCode then error.inMethod name descriptor else error
  | none => error

/-- Delivers events until one is refused, `current` being the method opened before. -/
def deliverFrom (receive : Receiver σ) :
    (current : Option (String × String)) → List Event → EStateM Error σ Unit
  | _, [] => fun s => .ok () s
  | current, event :: rest => fun s =>
      match receive event s with
      | .ok _ s => deliverFrom receive (methodAfter current event) rest s
      | .error error s => .error (located current event error) s

/-- Delivers a transcript. -/
def deliver (receive : Receiver σ) (transcript : Transcript) : EStateM Error σ Unit := fun s =>
  match deliverFrom receive none transcript.events s with
  | .error error s => .error error s
  | .ok _ s =>
      match transcript.failure with
      | some error => .error error s
      | none => .ok () s

/-- Delivers every event, also after some were refused, and tells which were and why. -/
def deliverAll (receive : Receiver σ) (events : List Event) (s : σ) :
    List (Nat × Error) × σ :=
  go 0 events [] s
where
  go (position : Nat) : List Event → List (Nat × Error) → σ → List (Nat × Error) × σ
    | [], refused, s => (refused.reverse, s)
    | event :: rest, refused, s =>
        match receive event s with
        | .ok _ s => go (position + 1) rest refused s
        | .error error s => go (position + 1) rest ((position, error) :: refused) s

end Receiver

end JavaClass
