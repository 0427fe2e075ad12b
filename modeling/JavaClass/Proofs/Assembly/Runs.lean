import JavaClass.Proofs.Assembly.Effects
import JavaClass.Proofs.Assembly.Files

/-!
# What runs of events leave

Whatever events a class draft takes before the end of the class, its pool and
its bootstrap methods grow by what the events name, and the attributes that it
settles have names that can be looked up and lengths that can be written. This
needs nothing of the order of the events and nothing of the code, so it also
holds where the bytes of an instruction do not read back.

## Implementation notes

The names of the attributes of a method are settled at its end, but they are
known before from the method that is open. So a run keeps count of the names
that the events so far call for.
-/

namespace JavaClass

open BigEndian ConstantPool

namespace MethodDraft

variable {method : MethodDraft} {table : ConstantTable}

theorem size_overwrite (code : Array UInt8) (position : Nat) (part : List UInt8) :
    (overwrite code position part).size = code.size := by
  induction part generalizing code position with
  | nil => rfl
  | cons byte rest ih => rw [overwrite, ih, Array.size_setIfInBounds]

theorem size_patch {code patched : Array UInt8} {fixup : Fixup}
    (h : method.patch code fixup = .ok patched) : patched.size = code.size := by
  obtain ⟨target, -, h⟩ := exceptBind_eq_ok_iff.mp h
  simp only at h
  split at h
  · rw [← Except.ok.inj h, size_overwrite]
  · split at h
    · rw [← Except.ok.inj h, size_overwrite]
    · cases h

theorem size_foldlM_patch {fixups : List Fixup} {code patched : Array UInt8}
    (h : fixups.foldlM method.patch code = .ok patched) : patched.size = code.size := by
  induction fixups generalizing code with
  | nil =>
      cases h
      rfl
  | cons fixup rest ih =>
      rw [List.foldlM_cons] at h
      obtain ⟨next, hfirst, hrest⟩ := exceptBind_eq_ok_iff.mp h
      rw [ih hrest, size_patch hfirst]

/-- Filling in the branches of code does not make it longer. -/
theorem size_patchedCode_le {code : Array UInt8} (h : method.patchedCode = .ok code) :
    code.size ≤ countLimit := by
  unfold patchedCode at h
  split at h
  · cases h
  · rename_i small
    rw [← Array.foldlM_toList] at h
    rw [size_foldlM_patch h]
    exact Nat.not_lt.mp small

/-- The attributes of a settled method can be read if what it declares can be read. -/
theorem Settled.readable {member : EncodedMember} (settled : method.Settled table member)
    (exceptions : ∀ a ∈ method.exceptions.toList, a.Readable table) :
    ∀ a ∈ member.attributes, a.Readable table := by
  obtain ⟨code, attributes, hpatched, rfl, hattributes⟩ := settled
  intro a ha
  obtain ha | ha := List.mem_append.mp ha
  · split at hattributes
    · obtain ⟨coded, isCode, rfl⟩ := hattributes
      obtain rfl := List.mem_singleton.mp ha
      exact isCode.readable (size_patchedCode_le hpatched)
    · rw [hattributes] at ha
      cases ha
  · exact exceptions a ha

end MethodDraft

/-- The bootstrap methods that an event names. -/
def Event.calls : Event → List BootstrapCall
  | instruction i => i.calls
  | _ => []

/-- The names of the attributes that a method gets because of an event. -/
def Event.attributeNames : Event → List String
  | method flags _ _ _ => if flags.hasCode then ["Code"] else []
  | instruction (.label _) => []
  | instruction (.line _ _) => ["LineNumberTable"]
  | instruction _ => ["Code"]
  | tryBlock _ => ["Code"]
  | maxs _ _ => ["Code"]
  | _ => []

theorem calls_events (listing : Listing LabelToken) :
    listing.events.flatMap Event.calls = listing.instructions.flatMap Instruction.calls := by
  have blocks : (listing.blocks.map Event.tryBlock).flatMap Event.calls = [] :=
    List.flatMap_eq_nil_iff.mpr fun event hevent => by
      obtain ⟨block, -, rfl⟩ := List.mem_map.mp hevent
      rfl
  rw [Listing.events, List.flatMap_append, List.flatMap_append, blocks, List.flatMap_map]
  exact List.append_nil _

namespace MethodDraft

variable {method method' method'' : MethodDraft} {names : List String}

/-- The names of the attributes that the method gets for its code. -/
def attributeNames (method : MethodDraft) : List String :=
  (if method.hasCode then ["Code"] else []) ++
    (if method.lines.isEmpty then [] else ["LineNumberTable"])

/-- The second draft gets at most these attributes more than the first. -/
def Names (names : List String) (method method' : MethodDraft) : Prop :=
  method'.attributeNames ⊆ method.attributeNames ++ names

instance (names : List String) : Std.Refl (Names names) := ⟨fun _ => List.subset_append_left ..⟩

instance (names : List String) : IsTrans MethodDraft (Names names) where
  trans := by
    intro method method' method'' first second name mem
    obtain mem | mem := List.mem_append.mp (second mem)
    · exact first mem
    · exact List.mem_append_right _ mem

theorem names_of_appends {cells : List Cell} (h : method.Appends method' cells) :
    Names ["Code"] method method' := by
  intro name
  rw [attributeNames, h.same]
  simp only [attributeNames, List.mem_append]
  rintro (mem | mem)
  · split at mem
    · exact .inr mem
    · cases mem
  · exact .inl (.inr mem)

theorem names_line (method : MethodDraft) (number : UInt16) (token : LabelToken) :
    Names ["LineNumberTable"] method
      { method with lines := method.lines.push (number, token) } := by
  intro name mem
  simp only [attributeNames, List.mem_append] at mem ⊢
  obtain mem | mem := mem
  · exact .inl (.inl mem)
  · split at mem
    · cases mem
    · exact .inr mem

theorem names_coded (method : MethodDraft) (handlers : Array DraftHandler)
    (maxStack maxLocals : UInt16) : Names ["Code"] method
      { method with hasCode := true, handlers, maxStack, maxLocals } := by
  intro name mem
  simp only [attributeNames, List.mem_append] at mem ⊢
  obtain mem | mem := mem
  · exact .inr mem
  · exact .inl (.inr mem)

end MethodDraft

namespace ClassDraft

variable {α : Type} {draft draft' : ClassDraft} {events : List Event}

/-- A confined step adds no bootstrap methods. -/
theorem Confined.grows {step : Step α} (confined : Confined step) (sound : draft.Sound) {value : α}
    (h : step draft = .ok value draft') : draft.Grows draft' [] := by
  induction confined generalizing draft draft' with
  | pure value' =>
      cases h
      exact sound.grows_of_same rfl rfl rfl
  | refuse cause => cases h
  | request keeps =>
      obtain ⟨pool, hask, rfl⟩ := request_eq_ok_iff.mp h
      have kept := keeps draft.pool
      unfold settle at kept
      rw [hask] at kept
      obtain ⟨valid, below⟩ := kept sound.pool
      exact ⟨⟨valid, sound.found, sound.complete, sound.nodup⟩, below, [], by simp, by simp⟩
  | onMethod advances =>
      obtain ⟨method, -, rfl, rfl⟩ := onMethod_eq_ok_iff.mp h
      exact sound.grows_of_same rfl rfl rfl
  | bind _ _ first rest =>
      obtain ⟨middle, draft₁, hfirst, hrest⟩ := bind_eq_ok_iff.mp h
      have grows := first sound hfirst
      exact grows.trans (rest middle grows.sound hrest)

theorem grows_instruction (sound : draft.Sound) {i : Instruction LabelToken}
    (h : instruction i draft = .ok () draft') : draft.Grows draft' i.calls := by
  by_cases hcalls : i.calls = []
  · rw [hcalls]
    exact (confined_instruction hcalls).grows sound h
  · cases i with
    | invokeDynamic name descriptor handle arguments =>
        obtain ⟨position, draft₁, hbootstrap, hsite⟩ := bind_eq_ok_iff.mp h
        obtain ⟨grows, -⟩ := bootstrap_eq_ok sound hbootstrap
        exact grows.trans ((confined_site position name descriptor).grows grows.sound hsite)
    | _ => exact absurd rfl hcalls

/-- The header and all attributes that a draft has settled can be read in a table. -/
structure Legible (draft : ClassDraft) (table : ConstantTable) : Prop where
  header : ∀ header ∈ draft.header, ∃ story, HeaderShown table story header
  source : ∃ file, SourceShown table file draft.source.toList
  field : ∀ part ∈ draft.field, ∀ a ∈ part.attributes, a.Readable table
  fields : ∀ part ∈ draft.fields.toList, ∀ a ∈ part.attributes, a.Readable table
  methods : ∀ part ∈ draft.methods.toList, ∀ a ∈ part.attributes, a.Readable table
  exceptions : ∀ method ∈ draft.method, ∀ a ∈ method.exceptions.toList, a.Readable table

/-- The names of the attributes that the method that is open gets for its code. -/
def attributeNames (draft : ClassDraft) : List String :=
  draft.method.elim [] MethodDraft.attributeNames

/-- The second draft has grown by calls, what it has settled can be read if this was so before, and
the method that is open gets at most these attributes more. -/
structure Continued (draft draft' : ClassDraft) (calls : List BootstrapCall) (names : List String) :
    Prop extends Grows draft draft' calls where
  legible : ∀ table, draft'.pool.Within table → draft.Legible table → draft'.Legible table
  names : draft'.attributeNames ⊆ draft.attributeNames ++ names

/-- An event of code leaves what was settled alone. -/
theorem Legible.changes {placed targets : List LabelToken} {table : ConstantTable}
    (legible : draft.Legible table)
    (changes : draft.Changes (MethodDraft.Places placed targets) draft') :
    draft'.Legible table := by
  have related := changes.method
  rw [changes.same]
  refine ⟨legible.header, legible.source, legible.field, legible.fields, legible.methods, ?_⟩
  have exceptions := legible.exceptions
  generalize draft.method = method, draft'.method = method' at related exceptions
  intro found hfound
  subst hfound
  cases related with
  | some places =>
      rw [places.exceptions]
      exact exceptions _ rfl

theorem Changes.names {names : List String}
    (changes : draft.Changes (MethodDraft.Names names) draft') :
    draft'.attributeNames ⊆ draft.attributeNames ++ names := by
  have related := changes.method
  unfold attributeNames
  generalize draft.method = method, draft'.method = method' at related
  cases related with
  | none => exact List.nil_subset _
  | some names => exact names

/-- An instruction calls for the attributes that stand for it. -/
theorem names_instruction {i : Instruction LabelToken} (h : instruction i draft = .ok () draft') :
    draft'.attributeNames ⊆ draft.attributeNames ++ (Event.instruction i).attributeNames := by
  have coded (hlabel : ∀ token, i ≠ .label token) (hline : ∀ number token, i ≠ .line number token) :
      draft'.attributeNames ⊆ draft.attributeNames ++ ["Code"] := by
    have worked := worked_of_appends (R := MethodDraft.Names ["Code"])
      (fun appends _ _ => MethodDraft.names_of_appends appends)
      (fun heq => absurd heq (hline _ _)) hlabel
    exact (worked.leaves.ok h).names
  cases i with
  | label token =>
      cases hmethod : draft.method with
      | none =>
          simp only [instruction, place, onMethod, Bind.bind, EStateM.bind, hmethod] at h
          cases h
      | some method =>
          rw [instruction, place_eq hmethod] at h
          split at h
          · cases h
          · cases h
            unfold attributeNames
            rw [hmethod]
            exact List.subset_append_left ..
  | line number token =>
      have worked : Worked (MethodDraft.Names ["LineNumberTable"])
          (instruction (.line number token)) := .edit fun method => method.names_line number token
      exact (worked.leaves.ok h).names
  | _ => exact coded (by simp) (by simp)

theorem continued_code (sound : draft.Sound) {event : Event} (code : event.isCode = true)
    (h : receive event draft = .ok () draft') :
    draft.Continued draft' event.calls event.attributeNames := by
  have legible (table : ConstantTable) (_ : draft'.pool.Within table)
      (legible : draft.Legible table) : draft'.Legible table :=
    legible.changes (changes_of_ok code h)
  cases event with
  | instruction i => exact ⟨grows_instruction sound h, legible, names_instruction h⟩
  | tryBlock block =>
      have confined : Confined (receive (.tryBlock block)) :=
        .bind (.request (Request.keeps_optionalClass block.exception)) fun _ =>
          confined_editMethod fun _ => .of_same rfl rfl rfl
      have worked : Worked (MethodDraft.Names ["Code"]) (receive (.tryBlock block)) :=
        .bind (.request (Request.unlabelled_optionalClass block.exception)) fun _ =>
          .edit fun method => method.names_coded ..
      exact ⟨confined.grows sound h, legible, (worked.leaves.ok h).names⟩
  | maxs stack locals =>
      have confined : Confined (receive (.maxs stack locals)) :=
        confined_editMethod fun _ => .of_same rfl rfl rfl
      have worked : Worked (MethodDraft.Names ["Code"]) (receive (.maxs stack locals)) :=
        .edit fun method => method.names_coded ..
      exact ⟨confined.grows sound h, legible, (worked.leaves.ok h).names⟩
  | _ => cases code

theorem continued_methodEnd (sound : draft.Sound) (h : receive .methodEnd draft = .ok () draft') :
    draft.Continued draft' [] [] := by
  cases hmethod : draft.method with
  | none =>
      rw [receive_methodEnd_eq, hmethod] at h
      cases h
  | some method =>
      obtain ⟨pool, part, grows, rfl, settled⟩ := receive_methodEnd sound hmethod h
      refine ⟨grows, fun table within legible => ⟨legible.header, legible.source, legible.field,
        legible.fields, ?_, by simp⟩, List.nil_subset _⟩
      intro other mem
      rw [Array.toList_push, List.mem_append, List.mem_singleton] at mem
      obtain mem | rfl := mem
      · exact legible.methods other mem
      · exact (settled table within).readable (legible.exceptions method hmethod)

/-- What every event but the end of a class does if it is taken. -/
theorem continued_receive (sound : draft.Sound) {event : Event} (inner : event ≠ .classEnd)
    (h : receive event draft = .ok () draft') :
    draft.Continued draft' event.calls event.attributeNames := by
  cases event with
  | header version flags name super interfaces =>
      obtain ⟨pool, header, grows, rfl, shown⟩ :=
        @receive_header _ _ sound ⟨version, flags, name, super, interfaces, [], [], []⟩ h
      refine ⟨grows, fun table within legible => ⟨?_, legible.source, legible.field, legible.fields,
        legible.methods, legible.exceptions⟩, List.subset_append_left ..⟩
      rintro other ⟨rfl⟩
      exact ⟨_, shown table within⟩
  | source file =>
      obtain ⟨pool, source, grows, rfl, shown⟩ :=
        @takes_sources _ _ [file] sound (.cons h .nil)
      refine ⟨grows, fun table within legible => ⟨legible.header, ?_, legible.field, legible.fields,
        legible.methods, legible.exceptions⟩, List.subset_append_left ..⟩
      obtain ⟨hnil, -⟩ | ⟨text, -, shown⟩ := shown table within
      · cases hnil
      · exact ⟨some text, shown⟩
  | field flags name descriptor value =>
      obtain ⟨pool, part, grows, rfl, shown⟩ :=
        @receive_field _ _ sound ⟨flags, name, descriptor, value⟩ h
      refine ⟨grows.trans (grows.sound.grows_of_same rfl rfl rfl), fun table within legible =>
        ⟨legible.header, legible.source, ?_, legible.fields, legible.methods, legible.exceptions⟩,
        List.subset_append_left ..⟩
      rintro other ⟨rfl⟩
      exact (shown table within).readable
  | fieldEnd =>
      obtain ⟨field, mid, htake, h⟩ := bind_eq_ok_iff.mp h
      cases htake
      cases hfield : draft.field with
      | none =>
          rw [hfield] at h
          cases h
      | some field =>
          rw [hfield] at h
          cases h
          refine ⟨sound.grows_of_same rfl rfl rfl, fun table _ legible => ⟨legible.header,
            legible.source, by simp, ?_, legible.methods, legible.exceptions⟩,
            List.subset_append_left ..⟩
          intro other mem
          rw [Array.toList_push, List.mem_append, List.mem_singleton] at mem
          obtain mem | rfl := mem
          · exact legible.fields other mem
          · exact legible.field other hfield
  | method flags name descriptor exceptions =>
      obtain ⟨pool, nameSlot, descriptorSlot, settled, grows, rfl, shown⟩ :=
        @receive_method _ _ sound ⟨flags, name, descriptor, exceptions, none⟩ h
      refine ⟨grows, fun table within legible => ⟨legible.header, legible.source, legible.field,
        legible.fields, legible.methods, ?_⟩, ?_⟩
      · rintro other ⟨rfl⟩
        exact (shown table within).2.2.readable
      · have started : (MethodDraft.start flags nameSlot descriptorSlot settled).attributeNames =
            Event.attributeNames (.method flags name descriptor exceptions) := List.append_nil _
        exact started ▸ List.subset_append_right ..
  | methodEnd => exact continued_methodEnd sound h
  | classEnd => contradiction
  | _ => exact continued_code sound rfl h

/-- What events do if all of them are taken and the class does not end. -/
theorem continued_of_takes (sound : draft.Sound) (inner : .classEnd ∉ events)
    (h : Receiver.Takes receive events draft draft') :
    draft.Continued draft' (events.flatMap Event.calls) (events.flatMap Event.attributeNames) := by
  induction events generalizing draft with
  | nil =>
      cases h
      exact ⟨sound.grows_of_same rfl rfl rfl, fun _ _ => id, List.subset_append_left ..⟩
  | cons event events ih =>
      obtain ⟨mid, hfirst, hrest⟩ := Receiver.takes_cons_iff.mp h
      have first := continued_receive sound (List.ne_of_not_mem_cons inner).symm hfirst
      have rest := ih first.sound (List.not_mem_of_not_mem_cons inner) hrest
      refine ⟨first.toGrows.trans rest.toGrows, fun table within legible =>
        rest.legible table within (first.legible table (within.of_below rest.below) legible), ?_⟩
      intro name mem
      rw [List.flatMap_cons, ← List.append_assoc]
      obtain mem | mem := List.mem_append.mp (rest.names mem)
      · exact List.mem_append_left _ (first.names mem)
      · exact List.mem_append_right _ mem

/-- The attributes of a method that was told can be read. -/
theorem addsMethod_readable (story : MethodStory) :
    AddsMethod (fun table _ part => ∀ a ∈ part.attributes, a.Readable table) story := by
  intro draft draft' sound h
  obtain ⟨draft₁, hstart, h⟩ := Receiver.takes_cons_iff.mp h
  obtain ⟨draft₂, hcode, h⟩ := Receiver.takes_append_iff.mp h
  obtain ⟨draft₃, hend, h⟩ := Receiver.takes_cons_iff.mp h
  cases h
  obtain ⟨pool, name, descriptor, exceptions, grows₁, rfl, hheader⟩ := receive_method sound hstart
  have code : ∀ event ∈ story.code.elim [] Listing.events, event.isCode = true := by
    cases story.code with
    | none => exact fun event hevent => absurd hevent List.not_mem_nil
    | some listing => exact isCode_events listing
  have calls : (story.code.elim [] Listing.events).flatMap Event.calls = story.calls := by
    rw [MethodStory.calls]
    cases story.code with
    | none => rfl
    | some listing => exact calls_events listing
  have inner : .classEnd ∉ story.code.elim [] Listing.events :=
    fun mem => Bool.false_ne_true (code _ mem)
  have changes := changes_of_takes code hcode
  have grows₂ := (continued_of_takes grows₁.sound inner hcode).toGrows
  rw [calls] at grows₂
  obtain ⟨method, hmethod, places⟩ := changes.exists_method rfl
  obtain ⟨pool', part, grows₃, hdraft₃, hsettled⟩ := receive_methodEnd grows₂.sound hmethod hend
  have grows := (grows₁.trans grows₂).trans grows₃
  rw [List.nil_append, List.append_nil] at grows
  refine ⟨part, grows, by rw [hdraft₃, changes.same], fun table bootstraps shown => ?_⟩
  have shown₂ := grows₃.shownIn shown
  obtain ⟨-, -, hexceptions⟩ := hheader table (grows₂.shownIn shown₂).pool
  have within := shown.pool
  rw [hdraft₃] at within
  apply (hsettled table within).readable
  rw [places.exceptions]
  exact hexceptions.readable

end ClassDraft

end JavaClass
