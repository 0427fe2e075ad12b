import JavaClass.Proofs.Assembly.Descriptors

/-!
# Code that is refused

An event of the code of a method that is refused has mostly done nothing to the
method: whatever can go wrong goes wrong before the method is edited. There are
two exceptions. A label that has a place gets its new place before that is
refused, and an interface call has started before its argument slots are counted.

## Implementation notes

All other events are `Prepared`, and a prepared step edits last of all. So there
is nothing to undo when it is refused.
-/

namespace JavaClass.ClassDraft

open BigEndian ConstantPool

variable {draft draft' : ClassDraft} {method : MethodDraft} {error : Error}
  {R : MethodDraft → MethodDraft → Prop}

/-- A prepared step that is refused leaves the method that is open as it was. -/
theorem Prepared.method_eq {step : Step Unit} (prepared : Prepared R step)
    (h : step draft = .error error draft') : draft'.method = draft.method := by
  induction prepared generalizing draft with
  | refuse cause =>
      cases h
      rfl
  | edit related =>
      unfold editMethod onMethod at h
      split at h
      · cases h
        rfl
      · cases h
  | @request α ask next unlabelled _ ih =>
      have hask := keepsMethod_request ask draft
      simp only [Bind.bind, EStateM.bind] at h
      cases hresult : ClassDraft.request ask draft with
      | error error' mid =>
          rw [hresult] at h hask
          cases h
          exact hask
      | ok value mid =>
          rw [hresult] at h hask
          exact (ih value h).trans hask
  | @note α work next same _ ih =>
      have hwork := ih (work draft).1 h
      rw [same draft] at hwork
      exact hwork

/-- An interface call whose slots cannot be counted is refused for a name before it starts, or for
its descriptor after it has started. -/
theorem method_of_uncounted {owner name descriptor : String} {isInterface : Bool}
    (hslots : Descriptor.argumentSlots? descriptor = none) (hmethod : draft.method = some method)
    (h : call .invokeInterface owner name descriptor isInterface draft = .error error draft') :
    draft'.method = some method ∨ error = .malformed (.badDescriptor descriptor) ∧
      ∃ member, draft'.method = some (method.emit .invokeInterface (u16 member)) := by
  cases hask : request (.method owner name descriptor isInterface) draft with
  | error error' mid =>
      have hmid := (keepsMethod_request (.method owner name descriptor isInterface)).error hask
      simp only [call, Bind.bind, EStateM.bind, hask] at h
      cases h
      exact .inl (hmid.trans hmethod)
  | ok member mid =>
      rw [call_interface_eq hmethod hask, hslots] at h
      cases h
      exact .inr ⟨rfl, member, rfl⟩

/-- The method that is open after a refused event of its code: it is what it was, unless a label got
another place or the start of an interface call was left in it. -/
theorem method_of_refused {event : Event} (code : event.isCode = true)
    (hmethod : draft.method = some method) (h : receive event draft = .error error draft') :
    draft'.method = some method ∨
    (∃ token, event = .instruction (.label token) ∧ token ∈ method.labels ∧
      error = .malformed (.tokenPlacedTwice token) ∧
        draft'.method = some (method.place token).2) ∨
    (∃ owner name descriptor isInterface member,
      event = .instruction (.method .invokeInterface owner name descriptor isInterface) ∧
        Descriptor.argumentSlots? descriptor = none ∧
          error = .malformed (.badDescriptor descriptor) ∧
            draft'.method = some (method.emit .invokeInterface (u16 member))) := by
  have unchanged {R : MethodDraft → MethodDraft → Prop} (prepared : Prepared R (receive event)) :
      draft'.method = some method := (prepared.method_eq h).trans hmethod
  cases event with
  | instruction i =>
      by_cases hlabel : ∃ token, i = .label token
      · obtain ⟨token, rfl⟩ := hlabel
        rw [receive, instruction, place_eq hmethod] at h
        split at h
        · rename_i hplaced
          cases h
          exact .inr (.inl ⟨token, rfl, hplaced, rfl, rfl⟩)
        · cases h
      · by_cases huncounted : Uncounted i
        · obtain ⟨owner, name, descriptor, isInterface, rfl, hslots⟩ := huncounted
          obtain hsame | ⟨herror, member, hstarted⟩ := method_of_uncounted hslots hmethod h
          · exact .inl hsame
          · exact .inr (.inr
              ⟨owner, name, descriptor, isInterface, member, rfl, hslots, herror, hstarted⟩)
        · exact .inl (unchanged (R := fun _ _ => True) (prepared_of_appends (fun _ _ _ => trivial)
            (fun _ _ => trivial) (fun token heq => hlabel ⟨token, heq⟩) huncounted))
  | tryBlock block =>
      exact .inl (unchanged (R := fun _ _ => True)
        (.request (Request.unlabelled_optionalClass block.exception)
          fun _ => .edit fun _ => trivial))
  | maxs stack locals =>
      exact .inl (unchanged (R := fun _ _ => True) (.edit fun _ => trivial))
  | _ => cases code

theorem method_of_refused_noJump :
    ∃ method error draft', opened.method = some method ∧
      receive (.instruction (.jump ⟨0⟩ ⟨3⟩)) opened = .error error draft' ∧
        draft'.method = some method := by
  refine ⟨_, _, _, rfl, rfl, ?_⟩
  obtain hsame | ⟨token, hevent, -⟩ | ⟨owner, name, descriptor, isInterface, member, hevent, -⟩ :=
    method_of_refused (rfl : (Event.instruction (.jump ⟨0⟩ ⟨3⟩)).isCode = true)
      (rfl : opened.method = some _) rfl
  · exact hsame
  · cases hevent
  · cases hevent

/-- The start of a refused call stays in a method. -/
theorem not_forall_refused_keeps_method :
    ¬ ∀ (events : List Event) (event : Event) (method : MethodDraft) (error : Error)
      (draft' : ClassDraft), event.isCode = true →
        (Receiver.deliverAll receive events .empty).2.method = some method →
          receive event (Receiver.deliverAll receive events .empty).2 = .error error draft' →
            draft'.method = some method := by
  intro h
  let began : ClassDraft :=
    (Receiver.deliverAll receive [.method (.ofBits _ 9) "m" "()V" []] .empty).2
  obtain ⟨method, hmethod⟩ : ∃ method, began.method = some method := ⟨_, rfl⟩
  obtain ⟨member, mid, hmember⟩ : ∃ member mid,
      request (.method "A" "m" "(Q)V" true) began = .ok member mid := ⟨_, _, rfl⟩
  have hslots : Descriptor.argumentSlots? "(Q)V" = none := by decide +kernel
  have hcall := call_interface_eq hmethod hmember
  rw [hslots] at hcall
  have hsame := Option.some.inj (h _ (.instruction (.method ..)) _ _ _ rfl hmethod hcall)
  have hsize := (method.appends_emit 0 .invokeInterface (u16 member)).size
  rw [hsame] at hsize
  simp [blankCells, Piece.blank] at hsize

end JavaClass.ClassDraft
