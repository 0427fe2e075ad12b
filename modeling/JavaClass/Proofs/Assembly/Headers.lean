import JavaClass.Proofs.Assembly.Deliveries
import JavaClass.Proofs.Assembly.Files

/-!
# Headers of class files that were written

Between the header and the end of a class no event changes the header that a
class draft has settled, and the pool only grows. So the header of a class file
is read back whatever else the file holds, also if its code makes no sense.
-/

namespace JavaClass

open ConstantPool

/-- The event neither begins nor ends a class. -/
def Event.isInner : Event → Bool
  | .header .. => false
  | .classEnd => false
  | _ => true

theorem FieldDef.isInner_events (field : FieldDef) :
    ∀ event ∈ field.events, event.isInner = true := by
  simp [FieldDef.events, Event.isInner]

theorem MethodStory.isInner_events (story : MethodStory) :
    ∀ event ∈ story.events, event.isInner = true := by
  cases code : story.code with
  | none => simp [MethodStory.events, code, Event.isInner]
  | some listing =>
      simp only [MethodStory.events, code, Option.elim_some, Listing.events, List.forall_mem_cons,
        List.forall_mem_append, List.forall_mem_map]
      simp [Event.isInner]

namespace ClassDraft

variable {draft draft' : ClassDraft}

/-- Between the header and the end, no event changes the header. -/
theorem header_receive {event : Event} (inner : event.isInner = true) (draft : ClassDraft) :
    (stateOf (receive event draft)).header = draft.header := by
  cases event with
  | header => cases inner
  | method flags name descriptor exceptions =>
      obtain ⟨error, draft', h, continues⟩ | ⟨method, mid, -, continues, h⟩ :=
        receive_method_cases flags name descriptor exceptions draft
      · rw [h]
        exact continues.header
      · rw [h]
        exact continues.header
  | methodEnd => exact (continues_methodEnd draft).header
  | classEnd => cases inner
  | _ => exact (leaves_receive rfl draft).header

/-- All events between the header and the end. -/
theorem extends_of_takes {events : List Event} (inner : ∀ event ∈ events, event.isInner = true)
    (takes : Receiver.Takes receive events draft draft') :
    draft.Extends draft' ∧ draft'.header = draft.header := by
  induction takes with
  | nil => exact ⟨.of_same rfl rfl rfl, rfl⟩
  | @cons event rest s s' _ first _ ih =>
      obtain ⟨innerFirst, innerRest⟩ := List.forall_mem_cons.mp inner
      obtain ⟨grown, same⟩ := ih innerRest
      have extends_first := (extends_receive (by rintro rfl; cases innerFirst)).ok first
      have header_first := header_receive innerFirst s
      rw [first] at header_first
      exact ⟨extends_first.trans grown, same.trans header_first⟩

/-- The parts of a class file show the header of the class that was told. -/
theorem takes_header {story : ClassStory} (takes : Receiver.Takes receive story.events empty draft)
    {content : List UInt8} (hbytes : draft.bytes = .ok content) :
    ∃ parts : ClassParts, parts.encode = .ok content ∧ parts.pool.Valid ∧
      HeaderShown ⟨parts.pool.entries⟩ story parts.header := by
  obtain ⟨draft₁, hheader, takes⟩ := Receiver.takes_cons_iff.mp takes
  obtain ⟨draft₂, hsources, takes⟩ := Receiver.takes_append_iff.mp takes
  obtain ⟨draft₃, hfields, takes⟩ := Receiver.takes_append_iff.mp takes
  obtain ⟨draft₄, hmethods, takes⟩ := Receiver.takes_append_iff.mp takes
  obtain ⟨draft₅, hend, takes⟩ := Receiver.takes_cons_iff.mp takes
  cases takes
  obtain ⟨pool, header, grows, hdraft₁, shown⟩ := receive_header sound_empty hheader
  -- The header is settled by the first event and taken by the last one.
  obtain ⟨sources, hsources⟩ := extends_of_takes (by simp [Event.isInner]) hsources
  obtain ⟨fields, hfields⟩ := extends_of_takes
    (List.forall_mem_flatMap.mpr fun field _ => field.isInner_events) hfields
  obtain ⟨methods, hmethods⟩ := extends_of_takes
    (List.forall_mem_flatMap.mpr fun story _ => story.isInner_events) hmethods
  have middle := (sources.trans fields).trans methods
  have header_eq : draft₄.header = some header := by rw [hmethods, hfields, hsources, hdraft₁]
  obtain ⟨last, entries, valid, below, hencode, -⟩ :=
    finish_eq_ok (middle.valid grows.sound.pool) header_eq hend hbytes
  refine ⟨_, hencode, valid, shown _ ?_⟩
  have within := (valid.within_self.of_below below).of_below (middle.below grows.sound.pool)
  rwa [hdraft₁] at within

end ClassDraft

end JavaClass
