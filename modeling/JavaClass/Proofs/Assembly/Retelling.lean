import JavaClass.Proofs.Assembly.Deliveries
import JavaClass.Proofs.Assembly.Renaming

/-!
# Stories that are told in other words

A class draft does the same for a story with other tokens, and with handles and
literals in normal form.

## Implementation notes

Drafts are compared that differ at most in the tokens of the method under
construction. Every event keeps them so, whether it is refused or not, and when
the method ends, no difference is left.
-/

namespace JavaClass

open ConstantPool

variable {f : LabelToken → LabelToken}

theorem Listing.events_map (listing : Listing LabelToken) :
    (listing.map f).events = listing.events.map (Event.mapTokens f) := by
  simp only [Listing.events, Listing.map, List.map_append, List.map_map]
  rfl

namespace ClassDraft

variable {α β : Type}

/-- The method of the other draft has received other tokens, and all else is the same. -/
structure Renamed (f : LabelToken → LabelToken) (draft other : ClassDraft) : Prop where
  same : other = { draft with method := other.method }
  method : Option.Rel (MethodDraft.Renamed f) draft.method other.method

theorem mirrors_refuse {cause cause' : Malformation} (h : cause' = cause.mapTokens f) :
    Mirrors f (Renamed f) (refuse cause : Step α) (refuse cause') :=
  mirrors_throw (congrArg Error.malformed h)

theorem mirrors_request {ask ask' : Request α} (asked : Mirrors f Eq ask ask') :
    Mirrors f (Renamed f) (request ask) (request ask') := by
  intro draft other renamed
  have hpool : other.pool = draft.pool := by rw [renamed.same]
  have outcome := asked draft.pool draft.pool rfl
  simp only [request, hpool]
  generalize ask draft.pool = result, ask' draft.pool = result' at outcome
  have hrelated (pool : ConstantPool) :
      Renamed f { draft with pool } { other with pool } := by
    refine ⟨?_, renamed.method⟩
    rw [renamed.same]
  cases outcome with
  | ok related => exact related ▸ .ok (hrelated _)
  | error related => exact related ▸ .error (hrelated _)

theorem mirrors_ask {ask : Request α} (plain : ask.Plain) :
    Mirrors f (Renamed f) (request ask) (request ask) :=
  mirrors_request (plain f)

/-- A step that neither reads nor changes the method mirrors itself. -/
theorem mirrors_beside {work : ClassDraft → α × ClassDraft}
    (beside : ∀ draft method,
      work { draft with method } = ((work draft).1, { (work draft).2 with method })) :
    Mirrors f (Renamed f) (modifyGet work) (modifyGet work) := by
  apply mirrors_modifyGet
  intro draft other renamed
  have hother := beside draft other.method
  rw [← renamed.same] at hother
  have hmethod : (work draft).2.method = draft.method :=
    congrArg (fun result => result.2.method) (beside draft draft.method)
  rw [hother]
  exact ⟨rfl, rfl, hmethod ▸ renamed.method⟩

theorem mirrors_onMethod {work work' : MethodDraft → α × MethodDraft}
    (hwork : ∀ method other, MethodDraft.Renamed f method other →
      (work method).1 = (work' other).1 ∧ (work method).2.Renamed f (work' other).2) :
    Mirrors f (Renamed f) (onMethod work) (onMethod work') := by
  intro draft other renamed
  have hrelated := renamed.method
  unfold onMethod
  cases hmethod : draft.method with
  | none =>
      rw [hmethod] at hrelated
      cases hother : other.method with
      | none => exact .error renamed
      | some otherMethod =>
          rw [hother] at hrelated
          cases hrelated
  | some method =>
      rw [hmethod] at hrelated
      cases hother : other.method with
      | none =>
          rw [hother] at hrelated
          cases hrelated
      | some otherMethod =>
          rw [hother] at hrelated
          cases hrelated with
          | some hrenamed =>
              obtain ⟨hvalue, hresult⟩ := hwork method otherMethod hrenamed
              simp only [hvalue]
              apply SameOutcome.ok
              refine ⟨?_, .some hresult⟩
              rw [renamed.same]

theorem mirrors_editMethod {edit edit' : MethodDraft → MethodDraft}
    (hedit : ∀ method other, MethodDraft.Renamed f method other →
      MethodDraft.Renamed f (edit method) (edit' other)) :
    Mirrors f (Renamed f) (editMethod edit) (editMethod edit') :=
  mirrors_onMethod fun method other renamed => ⟨rfl, hedit method other renamed⟩

theorem mirrors_emit (opcode : Opcode) (operands : List UInt8) :
    Mirrors f (Renamed f) (emit opcode operands) (emit opcode operands) :=
  mirrors_editMethod fun _ _ renamed => renamed.emit opcode operands

theorem mirrors_bootstrap (handle : MethodHandle) (arguments : List Literal) :
    Mirrors f (Renamed f) (bootstrap handle arguments) (bootstrap handle arguments) := by
  apply (mirrors_ask (Request.plain_methodHandle handle)).bind
  intro method
  apply (mirrors_ask (Request.plain_each Request.plain_literal arguments)).bind
  intro slots
  apply mirrors_modifyGet
  intro draft other renamed
  have hpositions : other.positions = draft.positions := by rw [renamed.same]
  have hbootstraps : other.bootstraps = draft.bootstraps := by rw [renamed.same]
  rw [hpositions, hbootstraps]
  cases draft.positions[(⟨method, slots⟩ : Bootstrap)]? with
  | some position => exact ⟨rfl, renamed⟩
  | none =>
      refine ⟨rfl, ?_, renamed.method⟩
      rw [renamed.same]

theorem mirrors_int (opcode : Opcode) (operand : Int32) :
    Mirrors f (Renamed f) (int opcode operand) (int opcode operand) := by
  unfold int
  split
  · exact mirrors_emit _ _
  · split
    · exact mirrors_emit _ _
    · split
      · exact mirrors_emit _ _
      · exact mirrors_refuse rfl

theorem mirrors_call (opcode : Opcode) (owner name descriptor : String) (isInterface : Bool) :
    Mirrors f (Renamed f) (call opcode owner name descriptor isInterface)
      (call opcode owner name descriptor isInterface) := by
  unfold call
  apply (mirrors_ask (Request.plain_method owner name descriptor isInterface)).bind
  intro member
  apply (mirrors_emit _ _).bind
  intro _
  split
  · split
    · exact mirrors_refuse rfl
    · exact mirrors_editMethod fun _ _ renamed => renamed.push _
  · exact mirrors_pure _

theorem mirrors_load (literal : Literal) : Mirrors f (Renamed f) (load literal) (load literal) := by
  unfold load
  apply (mirrors_ask (Request.plain_literal literal)).bind
  intro slot
  split
  · exact mirrors_emit _ _
  · split
    · exact mirrors_emit _ _
    · exact mirrors_emit _ _

theorem mirrors_place (inj : Function.Injective f) (token : LabelToken) :
    Mirrors f (Renamed f) (place token) (place (f token)) := by
  unfold place
  apply (mirrors_onMethod fun _ _ renamed => renamed.place inj token).bind
  intro placed
  split
  · exact mirrors_refuse rfl
  · exact mirrors_pure _

/-- An instruction with other tokens is assembled in the same way. -/
theorem mirrors_instruction (inj : Function.Injective f) (i : Instruction LabelToken) :
    Mirrors f (Renamed f) (instruction i) (instruction (i.map f)) := by
  cases i with
  | simple opcode =>
      simp only [Instruction.map, instruction]
      split
      · exact mirrors_emit _ _
      · exact mirrors_refuse rfl
  | int opcode operand => exact mirrors_int opcode operand
  | localVar opcode slot =>
      simp only [Instruction.map, instruction]
      split
      · exact mirrors_editMethod fun _ _ renamed => renamed.localVar ..
      · exact mirrors_refuse rfl
  | increment slot delta => exact mirrors_editMethod fun _ _ renamed => renamed.increment slot delta
  | field opcode owner name descriptor =>
      exact (mirrors_ask (Request.plain_field owner name descriptor)).bind fun _ =>
        mirrors_emit _ _
  | method opcode owner name descriptor isInterface =>
      exact mirrors_call opcode owner name descriptor isInterface
  | invokeDynamic name descriptor handle arguments =>
      exact (mirrors_bootstrap _ _).bind fun _ =>
        (mirrors_ask (Request.plain_callSite _ name descriptor)).bind fun _ => mirrors_emit _ _
  | type opcode name =>
      exact (mirrors_ask (Request.plain_classNamed name)).bind fun _ => mirrors_emit _ _
  | load literal => exact mirrors_load literal
  | jump opcode target =>
      simp only [Instruction.map, instruction]
      split
      · exact mirrors_editMethod fun _ _ renamed => renamed.jump opcode target
      · exact mirrors_refuse rfl
  | lookupSwitch otherwise keys targets =>
      simp only [Instruction.map, instruction, List.length_map]
      split
      · exact mirrors_editMethod fun _ _ renamed => renamed.lookupSwitch otherwise keys targets
      · exact mirrors_refuse rfl
  | tableSwitch low high otherwise targets =>
      simp only [Instruction.map, instruction, List.length_map]
      split
      · exact mirrors_refuse rfl
      · exact mirrors_editMethod fun _ _ renamed => renamed.tableSwitch low high otherwise targets
  | multiNewArray descriptor dimensions =>
      exact (mirrors_ask (Request.plain_classNamed descriptor)).bind fun _ => mirrors_emit _ _
  | label token => exact mirrors_place inj token
  | line number token => exact mirrors_editMethod fun _ _ renamed => renamed.line number token

theorem mirrors_field (flags : FieldFlags) (name descriptor : String) (value : Option Literal) :
    Mirrors f (Renamed f) (receive (.field flags name descriptor value))
      (receive (.field flags name descriptor value)) := by
  apply (mirrors_ask (Request.plain_text name)).bind
  intro nameSlot
  apply (mirrors_ask (Request.plain_text descriptor)).bind
  intro descriptorSlot
  cases value with
  | none => exact mirrors_beside fun _ _ => rfl
  | some value =>
      apply (mirrors_ask (Request.plain_literal value)).bind
      intro slot
      apply (mirrors_ask (Request.plain_named _ (plain_ok _))).bind
      intro a
      exact mirrors_beside fun _ _ => rfl

theorem mirrors_method (flags : MethodFlags) (name descriptor : String)
    (exceptions : List String) :
    Mirrors f (Renamed f) (receive (.method flags name descriptor exceptions))
      (receive (.method flags name descriptor exceptions)) := by
  apply (mirrors_ask (Request.plain_text name)).bind
  intro nameSlot
  apply (mirrors_ask (Request.plain_text descriptor)).bind
  intro descriptorSlot
  have hopen (declared : Option EncodedAttribute) :
      Mirrors f (Renamed f)
        (modify fun draft : ClassDraft =>
          { draft with method := some (.start flags nameSlot descriptorSlot declared) })
        (modify fun draft => { draft with
          method := some (.start flags nameSlot descriptorSlot declared) }) :=
    mirrors_modify fun draft other renamed =>
      ⟨by rw [renamed.same], .some (MethodDraft.renamed_start ..)⟩
  split
  · exact hopen none
  · apply (mirrors_ask (Request.plain_each Request.plain_classNamed exceptions)).bind
    intro classes
    apply (mirrors_ask (Request.plain_named _ (plain_encodeSlots classes))).bind
    intro a
    exact hopen (some a)

/-- Ending a method leaves no difference. -/
theorem mirrors_methodEnd : Mirrors f (Renamed f) (receive .methodEnd) (receive .methodEnd) := by
  intro draft other renamed
  have hrelated := renamed.method
  have hsame : ({ other with method := none } : ClassDraft) = { draft with method := none } := by
    rw [renamed.same]
  have hnone : Renamed f { draft with method := none } { draft with method := none } :=
    ⟨rfl, .none⟩
  rw [receive_methodEnd_eq, receive_methodEnd_eq, hsame]
  generalize draft.method = method, other.method = otherMethod at hrelated
  cases hrelated with
  | none => exact mirrors_refuse rfl _ _ hnone
  | some hrenamed =>
      apply (mirrors_request hrenamed.finish).bind _ _ _ hnone
      intro member
      exact mirrors_beside fun _ _ => rfl

theorem mirrors_classAttributes : Mirrors f (Renamed f) classAttributes classAttributes := by
  apply (mirrors_beside fun _ _ => rfl).bind
  intro source
  apply (mirrors_beside fun _ _ => rfl).bind
  intro bootstraps
  split
  · exact mirrors_pure _
  · apply (mirrors_ask (Request.plain_named _ (plain_encodeTable Bootstrap.plain_encode _))).bind
    intro table
    exact mirrors_pure _

theorem mirrors_finish : Mirrors f (Renamed f) finish finish := by
  apply (mirrors_beside fun _ _ => rfl).bind
  intro header
  cases header with
  | none => exact mirrors_refuse rfl
  | some header =>
      apply mirrors_classAttributes.bind
      intro attributes
      apply (mirrors_beside fun _ _ => rfl).bind
      intro parts
      cases hencode : parts.encode with
      | error error => exact mirrors_throw (parts.plain_encode f error hencode).symm
      | ok bytes => exact mirrors_beside fun _ _ => rfl

/-- An event with other tokens is received in the same way. -/
theorem mirrors_receive (inj : Function.Injective f) (event : Event) :
    Mirrors f (Renamed f) (receive event) (receive (event.mapTokens f)) := by
  cases event with
  | header version flags name super interfaces =>
      apply (mirrors_ask (Request.plain_classNamed name)).bind
      intro thisClass
      apply (mirrors_ask (Request.plain_optionalClass super)).bind
      intro superClass
      apply (mirrors_ask (Request.plain_each Request.plain_classNamed interfaces)).bind
      intro interfaces
      exact mirrors_beside fun _ _ => rfl
  | source file =>
      apply (mirrors_ask (Request.plain_text file)).bind
      intro slot
      apply (mirrors_ask (Request.plain_named _ (plain_ok _))).bind
      intro source
      exact mirrors_beside fun _ _ => rfl
  | field flags name descriptor value => exact mirrors_field flags name descriptor value
  | fieldEnd =>
      apply (mirrors_beside fun _ _ => rfl).bind
      intro field
      cases field with
      | none => exact mirrors_refuse rfl
      | some field => exact mirrors_beside fun _ _ => rfl
  | method flags name descriptor exceptions =>
      exact mirrors_method flags name descriptor exceptions
  | instruction i => exact mirrors_instruction inj i
  | tryBlock block =>
      apply (mirrors_ask (Request.plain_optionalClass block.exception)).bind
      intro catchType
      exact mirrors_editMethod fun _ _ renamed => renamed.handler _
  | maxs stack locals => exact mirrors_editMethod fun _ _ renamed => renamed.maxs stack locals
  | methodEnd => exact mirrors_methodEnd
  | classEnd => exact mirrors_finish

theorem takes_mapTokens (inj : Function.Injective f) {events : List Event}
    {draft draft' other : ClassDraft} (renamed : draft.Renamed f other)
    (h : Receiver.Takes receive events draft draft') :
    ∃ other', Receiver.Takes receive (events.map (Event.mapTokens f)) other other' ∧
      draft'.Renamed f other' := by
  induction h generalizing other with
  | nil => exact ⟨other, .nil, renamed⟩
  | @cons event _ _ _ _ first _ ih =>
      obtain ⟨other₁, hfirst, renamed₁⟩ := (mirrors_receive inj event).ok renamed first
      obtain ⟨other', hrest, renamed'⟩ := ih renamed₁
      exact ⟨other', .cons hfirst hrest, renamed'⟩

theorem instruction_normal (i : Instruction LabelToken) : instruction i.normal = instruction i := by
  cases i with
  | invokeDynamic name descriptor handle arguments =>
      simp only [Instruction.normal, instruction, bootstrap, Request.methodHandle_normal,
        Request.each_literal_normal]
  | load literal =>
      have hwide : literal.normal.isWide = literal.isWide := by cases literal <;> rfl
      simp only [Instruction.normal, instruction, load, Request.literal_normal, hwide]
  | _ => rfl

theorem receive_field_normal (flags : FieldFlags) (name descriptor : String)
    (value : Option Literal) :
    receive (.field flags name descriptor (value.map Literal.normal)) =
      receive (.field flags name descriptor value) := by
  cases value with
  | none => rfl
  | some value => simp only [Option.map_some, receive, Request.literal_normal]

variable {draft draft' : ClassDraft}

/-- Events that are received in the same way may stand for each other. -/
theorem takes_of_same {events events' : List Event}
    (same : List.Forall₂ (fun event event' => receive event' = receive event) events events')
    (h : Receiver.Takes receive events draft draft') :
    Receiver.Takes receive events' draft draft' := by
  induction same generalizing draft with
  | nil => exact h
  | cons first _ ih =>
      obtain ⟨draft₁, hfirst, hrest⟩ := Receiver.takes_cons_iff.mp h
      exact .cons (first ▸ hfirst) (ih hrest)

theorem takes_normal {listing : Listing LabelToken}
    (h : Receiver.Takes receive listing.events draft draft') :
    Receiver.Takes receive listing.normal.events draft draft' := by
  obtain ⟨draft₁, hfirst, hrest⟩ := Receiver.takes_append_iff.mp h
  refine Receiver.takes_append_iff.mpr ⟨draft₁, takes_of_same ?_ hfirst, hrest⟩
  rw [Listing.normal, List.forall₂_map_left_iff, List.forall₂_map_right_iff,
    List.forall₂_map_right_iff, List.forall₂_same]
  exact fun i _ => instruction_normal i

theorem takes_fields_normal {fields : List FieldDef}
    (h : Receiver.Takes receive (fields.flatMap FieldDef.events) draft draft') :
    Receiver.Takes receive ((fields.map FieldDef.normal).flatMap FieldDef.events) draft draft' := by
  induction fields generalizing draft with
  | nil => exact h
  | cons field fields ih =>
      obtain ⟨draft₁, hfirst, hrest⟩ := Receiver.takes_append_iff.mp h
      refine Receiver.takes_append_iff.mpr ⟨draft₁, takes_of_same ?_ hfirst, ih hrest⟩
      exact .cons (receive_field_normal ..) (.cons rfl .nil)

end ClassDraft

/-- The same method with other tokens and in normal form. -/
structure MethodStory.Retold (story story' : MethodStory) : Prop where
  flags : story'.flags = story.flags
  name : story'.name = story.name
  descriptor : story'.descriptor = story.descriptor
  exceptions : story'.exceptions = story.exceptions
  code : Option.Rel (fun listing listing' => ∃ f : LabelToken → LabelToken,
    Function.Injective f ∧ listing' = (listing.map f).normal) story.code story'.code

/-- The same class with other tokens and in normal form. -/
structure ClassStory.Retold (story story' : ClassStory) : Prop where
  version : story'.version = story.version
  flags : story'.flags = story.flags
  name : story'.name = story.name
  super : story'.super = story.super
  interfaces : story'.interfaces = story.interfaces
  sources : story'.sources = story.sources
  fields : story'.fields = story.fields.map FieldDef.normal
  methods : List.Forall₂ MethodStory.Retold story.methods story'.methods

namespace ClassDraft

variable {draft draft' : ClassDraft}

theorem method_of_receive {flags : MethodFlags} {name descriptor : String}
    {exceptions : List String}
    (h : receive (.method flags name descriptor exceptions) draft = .ok () draft') :
    ∃ name descriptor exceptions,
      draft'.method = some (.start flags name descriptor exceptions) := by
  rw [receive_method_eq] at h
  obtain ⟨method, mid, hmethod, h⟩ := bind_eq_ok_iff.mp h
  obtain ⟨nameSlot, descriptorSlot, a, rfl⟩ := eq_start_of_methodOf hmethod
  cases h
  exact ⟨nameSlot, descriptorSlot, a, rfl⟩

/-- Which tokens the labels of a method have is free to choose when the method begins. -/
theorem renamed_of_begun {g : LabelToken → LabelToken} {flags : MethodFlags}
    {name descriptor : String} {exceptions : List String} {other other' : ClassDraft}
    (renamed : draft.Renamed f other)
    (h : receive (.method flags name descriptor exceptions) draft = .ok () draft')
    (hother : receive (.method flags name descriptor exceptions) other = .ok () other') :
    draft'.Renamed g other' := by
  obtain ⟨begun, hbegun, same, related⟩ :=
    (mirrors_method flags name descriptor exceptions).ok renamed h
  obtain rfl : begun = other' := by
    rw [hother] at hbegun
    cases hbegun
    rfl
  obtain ⟨name, descriptor, exceptions, hmethod⟩ := method_of_receive h
  obtain ⟨name', descriptor', exceptions', hmethod'⟩ := method_of_receive hother
  refine ⟨same, ?_⟩
  rw [hmethod, hmethod'] at related ⊢
  cases related with
  | some related =>
      have hstart := related.same
      simp only [MethodDraft.start, MethodDraft.mk.injEq] at hstart
      obtain ⟨-, rfl, rfl, rfl, -⟩ := hstart
      exact .some (MethodDraft.renamed_start ..)

/-- A class draft only asks which tokens are equal. -/
theorem onlyCompares_receive : Receiver.OnlyCompares receive Renamed where
  step inj event := mirrors_receive inj event
  begin {f g event draft other draft' other'} hbegins renamed h hother := by
    cases event with
    | method flags name descriptor exceptions => exact renamed_of_begun renamed h hother
    | _ => cases hbegins

theorem method_of_receive_methodEnd (h : receive .methodEnd draft = .ok () draft') :
    draft'.method = none := by
  rw [receive_methodEnd_eq] at h
  cases hmethod : draft.method with
  | none =>
      rw [hmethod] at h
      cases h
  | some method =>
      rw [hmethod] at h
      obtain ⟨member, draft₁, hrequest, h⟩ := bind_eq_ok_iff.mp h
      obtain ⟨pool, -, rfl⟩ := request_eq_ok_iff.mp hrequest
      cases h
      rfl

/-- Drafts are the same when there is no method. -/
theorem Renamed.eq_of_method {other : ClassDraft} (renamed : draft.Renamed f other)
    (h : draft.method = none) : other = draft := by
  have hrelated := renamed.method
  rw [h] at hrelated
  have hother : other.method = none := by
    cases hmethod : other.method with
    | none => rfl
    | some method =>
        rw [hmethod] at hrelated
        cases hrelated
  rw [renamed.same, hother, ← h]

theorem receive_methodEnd_renamed {other : ClassDraft} (renamed : draft.Renamed f other)
    (h : receive .methodEnd draft = .ok () draft') : receive .methodEnd other = .ok () draft' := by
  obtain ⟨other', hother, renamed'⟩ := mirrors_methodEnd.ok renamed h
  rwa [renamed'.eq_of_method (method_of_receive_methodEnd h)] at hother

/-- A method in other words leaves no trace of its words. -/
theorem takes_method_retold {story story' : MethodStory} (retold : story.Retold story')
    (h : Receiver.Takes receive story.events draft draft') :
    Receiver.Takes receive story'.events draft draft' := by
  obtain ⟨flags, name, descriptor, exceptions, code⟩ := story
  obtain ⟨flags', name', descriptor', exceptions', code'⟩ := story'
  obtain ⟨rfl, rfl, rfl, rfl, hcode⟩ := retold
  obtain ⟨draft₁, hstart, hrest⟩ := Receiver.takes_cons_iff.mp h
  refine .cons hstart ?_
  cases hcode with
  | none => exact hrest
  | @some listing listing' hlisting =>
      obtain ⟨f, inj, rfl⟩ := hlisting
      obtain ⟨draft₂, hlisting, hend⟩ := Receiver.takes_append_iff.mp hrest
      obtain ⟨name, descriptor, exceptions, hmethod⟩ := method_of_receive hstart
      have renamed : draft₁.Renamed f draft₁ := by
        refine ⟨rfl, ?_⟩
        rw [hmethod]
        exact .some (MethodDraft.renamed_start ..)
      obtain ⟨other, hother, renamed'⟩ := takes_mapTokens inj renamed hlisting
      change Receiver.Takes receive (listing.events.map (Event.mapTokens f)) draft₁ other at hother
      rw [← Listing.events_map] at hother
      refine Receiver.takes_append_iff.mpr ⟨other, takes_normal hother, ?_⟩
      obtain ⟨draft₃, hmethodEnd, hnil⟩ := Receiver.takes_cons_iff.mp hend
      exact .cons (receive_methodEnd_renamed renamed' hmethodEnd) hnil

theorem takes_methods_retold {stories stories' : List MethodStory}
    (retold : List.Forall₂ MethodStory.Retold stories stories')
    (h : Receiver.Takes receive (stories.flatMap MethodStory.events) draft draft') :
    Receiver.Takes receive (stories'.flatMap MethodStory.events) draft draft' := by
  induction retold generalizing draft with
  | nil => exact h
  | cons first _ ih =>
      obtain ⟨draft₁, hfirst, hrest⟩ := Receiver.takes_append_iff.mp h
      exact Receiver.takes_append_iff.mpr ⟨draft₁, takes_method_retold first hfirst, ih hrest⟩

/-- A class in other words gives the same class file. -/
theorem takes_retold {story story' : ClassStory} (retold : story.Retold story')
    (h : Receiver.Takes receive story.events draft draft') :
    Receiver.Takes receive story'.events draft draft' := by
  unfold ClassStory.events at h ⊢
  rw [retold.version, retold.flags, retold.name, retold.super, retold.interfaces, retold.sources,
    retold.fields]
  obtain ⟨draft₁, hheader, h⟩ := Receiver.takes_cons_iff.mp h
  obtain ⟨draft₂, hsources, h⟩ := Receiver.takes_append_iff.mp h
  obtain ⟨draft₃, hfields, h⟩ := Receiver.takes_append_iff.mp h
  obtain ⟨draft₄, hmembers, hend⟩ := Receiver.takes_append_iff.mp h
  refine .cons hheader (Receiver.takes_append_iff.mpr ⟨draft₂, hsources, ?_⟩)
  refine Receiver.takes_append_iff.mpr ⟨draft₃, takes_fields_normal hfields, ?_⟩
  exact Receiver.takes_append_iff.mpr ⟨draft₄, takes_methods_retold retold.methods hmembers, hend⟩

end ClassDraft

end JavaClass
