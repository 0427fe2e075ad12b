import JavaClass.Proofs.Assembly.Progress
import JavaClass.Proofs.Event.Tokens

/-!
# Deliveries to a class draft

Whatever events a class draft gets, in whatever order and whether it takes or
refuses them, its pool stays valid and the code of the method under construction
stays made of cells. Until the class ends, constants and bootstrap methods keep
their places, and until the method ends the code that it has stays.

## Implementation notes

The beginning of a class, the two ends of a method and the end of a class change
more than the code of a method, so each of them has a lemma of its own. An end
gives up what it ends even if it is refused, but the beginning of a method does
nothing to the method before unless it is accepted.
-/

namespace JavaClass

open ConstantPool

/-- The event neither begins nor ends a class or a method. -/
def Event.isContent : Event → Bool
  | .header .. => false
  | .method .. => false
  | .methodEnd => false
  | .classEnd => false
  | _ => true

namespace MethodDraft

theorem keeps_settled {α : Type} (result : Except Error α) : Request.Keeps (settled result) := by
  cases result with
  | ok value => exact Request.keeps_pure value
  | error error => exact Request.keeps_throw error

theorem keeps_lineAttributes (method : MethodDraft) : Request.Keeps method.lineAttributes := by
  unfold lineAttributes
  split
  · exact Request.keeps_pure []
  · exact (keeps_settled _).bind fun lines =>
      (Request.keeps_named _ _).bind fun a => Request.keeps_pure _

theorem keeps_codeAttribute (method : MethodDraft) (code : Array UInt8) :
    Request.Keeps (method.codeAttribute code) :=
  (keeps_settled _).bind fun _ =>
    method.keeps_lineAttributes.bind fun _ => Request.keeps_named _ _

theorem keeps_finish (method : MethodDraft) : Request.Keeps method.finish := by
  apply (keeps_settled _).bind
  intro code
  split
  · exact (method.keeps_codeAttribute code).bind fun a => Request.keeps_pure _
  · exact Request.keeps_pure _

end MethodDraft

namespace ClassDraft

variable {draft draft' : ClassDraft}

theorem leaves_editMethod {edit : MethodDraft → MethodDraft}
    (advances : ∀ method : MethodDraft, method.Advances (edit method)) :
    Leaves Continues (editMethod edit) :=
  leaves_onMethod advances

/-- What is told of a class or a method between its beginning and its end. -/
theorem leaves_receive {event : Event} (content : event.isContent = true) :
    Leaves Continues (receive event) := by
  cases event with
  | source file =>
      apply (leaves_request (Request.keeps_intern _)).bind
      intro file
      apply (leaves_request (Request.keeps_named _ _)).bind
      intro source
      exact leaves_modify fun _ => .of_same rfl rfl rfl rfl rfl
  | field flags name descriptor value =>
      apply (leaves_request (Request.keeps_intern _)).bind
      intro name
      apply (leaves_request (Request.keeps_intern _)).bind
      intro descriptor
      cases value with
      | none => exact leaves_modify fun _ => .of_same rfl rfl rfl rfl rfl
      | some value =>
          apply (leaves_request (Request.keeps_literal value)).bind
          intro slot
          apply (leaves_request (Request.keeps_named _ _)).bind
          intro a
          exact leaves_modify fun _ => .of_same rfl rfl rfl rfl rfl
  | fieldEnd =>
      refine Leaves.bind (leaves_modifyGet fun _ => .of_same rfl rfl rfl rfl rfl) fun field => ?_
      cases field with
      | none => exact .refl
      | some field => exact leaves_modify fun _ => .of_same rfl rfl rfl rfl rfl
  | instruction i => exact leaves_instruction i
  | tryBlock block =>
      exact (leaves_request (Request.keeps_optionalClass block.exception)).bind fun _ =>
        leaves_editMethod fun _ => .of_same rfl rfl rfl
  | maxs stack locals => exact leaves_editMethod fun _ => .of_same rfl rfl rfl
  | _ => cases content

/-- The header of a class, settled. -/
def headerOf (version : Version) (flags : ClassFlags) (name : String) (super : Option String)
    (interfaces : List String) : Step EncodedHeader := do
  let thisClass ← request (.classNamed name)
  let superClass ← request (.optionalClass super)
  let interfaces ← request (.each .classNamed interfaces)
  return ⟨version, flags, thisClass, superClass, interfaces⟩

/-- A method without any code, settled. -/
def methodOf (flags : MethodFlags) (name descriptor : String) (exceptions : List String) :
    Step MethodDraft := do
  let name ← request (.text name)
  let descriptor ← request (.text descriptor)
  let exceptions ←
    if exceptions.isEmpty then pure none
    else do
      let classes ← request (.each .classNamed exceptions)
      pure (some (← request (.named "Exceptions" (encodeSlots classes))))
  return .start flags name descriptor exceptions

theorem receive_header_eq (version : Version) (flags : ClassFlags) (name : String)
    (super : Option String) (interfaces : List String) :
    receive (.header version flags name super interfaces) =
      headerOf version flags name super interfaces >>= fun header =>
        modify fun draft => { draft with header := some header } := by
  simp only [receive, headerOf, bind_assoc, pure_bind]

theorem receive_method_eq (flags : MethodFlags) (name descriptor : String)
    (exceptions : List String) :
    receive (.method flags name descriptor exceptions) =
      methodOf flags name descriptor exceptions >>= fun method =>
        modify fun draft => { draft with method := some method } := by
  cases hnone : exceptions.isEmpty with
  | true => simp only [receive, methodOf, bind_assoc, pure_bind, hnone, if_true]
  | false =>
      simp only [receive, methodOf, bind_assoc, pure_bind, hnone, Bool.false_eq_true, if_false]

theorem leaves_headerOf (version : Version) (flags : ClassFlags) (name : String)
    (super : Option String) (interfaces : List String) :
    Leaves Continues (headerOf version flags name super interfaces) := by
  apply (leaves_request (Request.keeps_classNamed name)).bind
  intro thisClass
  apply (leaves_request (Request.keeps_optionalClass super)).bind
  intro superClass
  apply (leaves_request (Request.keeps_each Request.keeps_classNamed interfaces)).bind
  intro interfaces
  exact .refl

theorem leaves_methodOf (flags : MethodFlags) (name descriptor : String)
    (exceptions : List String) :
    Leaves Continues (methodOf flags name descriptor exceptions) := by
  apply (leaves_request (Request.keeps_intern _)).bind
  intro nameSlot
  apply (leaves_request (Request.keeps_intern _)).bind
  intro descriptorSlot
  split
  · exact .refl
  · apply (leaves_request (Request.keeps_each Request.keeps_classNamed exceptions)).bind
    intro classes
    apply (leaves_request (Request.keeps_named _ _)).bind
    intro a
    exact .refl

theorem eq_start_of_methodOf {flags : MethodFlags} {name descriptor : String}
    {exceptions : List String} {method : MethodDraft}
    (h : methodOf flags name descriptor exceptions draft = .ok method draft') :
    ∃ name descriptor exceptions, method = .start flags name descriptor exceptions := by
  obtain ⟨_, _, -, h⟩ := bind_eq_ok_iff.mp h
  obtain ⟨_, _, -, h⟩ := bind_eq_ok_iff.mp h
  split at h
  · cases h
    exact ⟨_, _, _, rfl⟩
  · obtain ⟨_, _, -, h⟩ := bind_eq_ok_iff.mp h
    obtain ⟨_, _, -, h⟩ := bind_eq_ok_iff.mp h
    cases h
    exact ⟨_, _, _, rfl⟩

/-- A step that ends with an edit is refused before the edit, or not at all. -/
theorem Leaves.modify_cases {α : Type} {R : ClassDraft → ClassDraft → Prop} {step : Step α}
    (leaves : Leaves R step) (edit : α → ClassDraft → ClassDraft) (draft : ClassDraft) :
    (∃ error draft', (step >>= fun value => modify (edit value)) draft = .error error draft' ∧
        R draft draft') ∨
      ∃ value mid, step draft = .ok value mid ∧ R draft mid ∧
        (step >>= fun value => modify (edit value)) draft = .ok () (edit value mid) := by
  simp only [Bind.bind, EStateM.bind]
  cases hstep : step draft with
  | error error draft' => exact .inl ⟨error, draft', rfl, leaves.error hstep⟩
  | ok value mid => exact .inr ⟨value, mid, rfl, leaves.ok hstep, rfl⟩

/-- What comes of the beginning of a class. -/
theorem receive_header_cases (version : Version) (flags : ClassFlags) (name : String)
    (super : Option String) (interfaces : List String) (draft : ClassDraft) :
    ∃ mid header, draft.Continues mid ∧
      stateOf (receive (.header version flags name super interfaces) draft) =
        { mid with header } := by
  rw [receive_header_eq]
  obtain ⟨error, mid, h, continues⟩ | ⟨header, mid, -, continues, h⟩ :=
    (leaves_headerOf version flags name super interfaces).modify_cases
      (fun header draft => { draft with header := some header }) draft
  · exact ⟨mid, mid.header, continues, by rw [h]; rfl⟩
  · exact ⟨mid, some header, continues, by rw [h]; rfl⟩

/-- What comes of the beginning of a method. -/
theorem receive_method_cases (flags : MethodFlags) (name descriptor : String)
    (exceptions : List String) (draft : ClassDraft) :
    let result := receive (.method flags name descriptor exceptions) draft
    (∃ error draft', result = .error error draft' ∧ draft.Continues draft') ∨
      ∃ method mid, method.Formed ∧ draft.Continues mid ∧
        result = .ok () { mid with method := some method } := by
  rw [receive_method_eq]
  obtain refused | ⟨method, mid, hstep, continues, h⟩ :=
    (leaves_methodOf flags name descriptor exceptions).modify_cases
      (fun method draft => { draft with method := some method }) draft
  · exact .inl refused
  · obtain ⟨nameSlot, descriptorSlot, a, rfl⟩ := eq_start_of_methodOf hstep
    exact .inr ⟨_, mid, MethodDraft.formed_start .., continues, h⟩

/-- What comes of the end of a method. -/
theorem continues_methodEnd (draft : ClassDraft) :
    Continues { draft with method := none } (stateOf (receive .methodEnd draft)) := by
  rw [receive_methodEnd_eq]
  cases draft.method with
  | none => exact .refl _
  | some method =>
      refine Leaves.bind (leaves_request method.keeps_finish) (fun member => ?_) _
      exact leaves_modify fun _ => .of_same rfl rfl rfl rfl rfl

/-- Ending a class keeps the pool valid, whatever is left of it, and the method that is open. -/
structure Closes (draft draft' : ClassDraft) : Prop where
  valid : draft.pool.Valid → draft'.pool.Valid
  method : draft'.method = draft.method

instance : IsTrans ClassDraft Closes :=
  ⟨fun _ _ _ first second =>
    ⟨fun valid => second.valid (first.valid valid), second.method.trans first.method⟩⟩

theorem Closes.refl (draft : ClassDraft) : draft.Closes draft := ⟨id, rfl⟩

theorem closes_classAttributes : Leaves Closes classAttributes := by
  refine Leaves.bind (leaves_modifyGet fun _ => ⟨id, rfl⟩) fun source => ?_
  refine Leaves.bind (leaves_modifyGet fun _ => ⟨id, rfl⟩) fun bootstraps => ?_
  split
  · exact .refl
  · refine Leaves.bind (fun draft => ?_) fun table => .refl
    have keeps := leaves_request (Request.keeps_named "BootstrapMethods"
      (encodeTable Bootstrap.encode bootstraps.toList)) draft
    refine ⟨keeps.valid, ?_⟩
    unfold request
    simp only
    split
    · rfl
    · rfl

/-- What comes of the end of a class. -/
theorem closes_classEnd : Leaves Closes (receive .classEnd) := by
  refine Leaves.bind (leaves_modifyGet fun _ => ⟨id, rfl⟩) fun header => ?_
  cases header with
  | none => exact .refl
  | some header =>
      apply closes_classAttributes.bind
      intro attributes
      refine Leaves.bind (leaves_modifyGet fun _ => ⟨fun _ => valid_empty, rfl⟩) fun parts => ?_
      split
      · exact .refl
      · exact leaves_modify fun _ => ⟨id, rfl⟩

/-- An event that neither begins nor ends a method leaves the method under construction its code. -/
theorem advances_receive {event : Event} (method : event.beginsMethod = false)
    (methodEnd : event ≠ .methodEnd) (classEnd : event ≠ .classEnd) :
    Leaves Advances (receive event) := by
  intro draft
  cases event with
  | header version flags name super interfaces =>
      obtain ⟨mid, header, continues, h⟩ :=
        receive_header_cases version flags name super interfaces draft
      rw [h]
      exact ⟨continues.toExtends.trans (.of_same rfl rfl rfl), continues.method⟩
  | method => cases method
  | methodEnd => contradiction
  | classEnd => contradiction
  | _ => exact (leaves_receive rfl draft).toAdvances

/-- So does the beginning of a method that is refused. -/
theorem advances_of_refused {event : Event} (methodEnd : event ≠ .methodEnd)
    (classEnd : event ≠ .classEnd) {error : Error}
    (h : receive event draft = .error error draft') : draft.Advances draft' := by
  cases event with
  | method flags name descriptor exceptions =>
      obtain ⟨error', draft₁, hrefused, continues⟩ | ⟨_, _, -, -, haccepted⟩ :=
        receive_method_cases flags name descriptor exceptions draft
      · rw [hrefused] at h
        cases h
        exact continues.toAdvances
      · rw [haccepted] at h
        cases h
  | _ => exact (advances_receive rfl methodEnd classEnd).error h

/-- Every event but the end of a class lets the pool and the bootstrap methods grow. -/
theorem extends_receive {event : Event} (inner : event ≠ .classEnd) :
    Leaves Extends (receive event) := by
  intro draft
  cases event with
  | method flags name descriptor exceptions =>
      obtain ⟨error, draft', h, continues⟩ | ⟨method, mid, -, continues, h⟩ :=
        receive_method_cases flags name descriptor exceptions draft
      · rw [h]
        exact continues.toExtends
      · rw [h]
        exact continues.toExtends.trans (.of_same rfl rfl rfl)
  | methodEnd =>
      have givenUp : draft.Extends { draft with method := none } := .of_same rfl rfl rfl
      exact givenUp.trans (continues_methodEnd draft).toExtends
  | classEnd => contradiction
  | _ => exact (advances_receive (by rfl) (by simp) (by simp) draft).toExtends

/-- What holds of a draft whatever it has got. -/
structure Orderly (draft : ClassDraft) : Prop where
  valid : draft.pool.Valid
  formed : ∀ method, draft.method = some method → method.Formed

theorem orderly_empty : empty.Orderly where
  valid := valid_empty
  formed := fun _ h => by cases h

theorem Orderly.advances (orderly : draft.Orderly) (h : draft.Advances draft') :
    draft'.Orderly where
  valid := h.valid orderly.valid
  formed := by
    have hmethod := h.method
    have formed := orderly.formed
    generalize draft.method = method, draft'.method = method' at hmethod formed ⊢
    intro found hfound
    subst hfound
    cases hmethod with
    | some advances => exact (formed _ rfl).advances advances

theorem Orderly.receive (orderly : draft.Orderly) (event : Event) :
    (stateOf (receive event draft)).Orderly := by
  cases event with
  | method flags name descriptor exceptions =>
      obtain ⟨error, draft', h, continues⟩ | ⟨method, mid, formed, continues, h⟩ :=
        receive_method_cases flags name descriptor exceptions draft
      · rw [h]
        exact orderly.advances continues.toAdvances
      · rw [h]
        refine ⟨continues.valid orderly.valid, fun found hfound => ?_⟩
        obtain rfl := Option.some.inj hfound
        exact formed
  | methodEnd =>
      have orderly' : Orderly { draft with method := none } :=
        ⟨orderly.valid, fun _ h => by cases h⟩
      exact orderly'.advances (continues_methodEnd draft).toAdvances
  | classEnd =>
      have closes := closes_classEnd draft
      refine ⟨closes.valid orderly.valid, ?_⟩
      rw [closes.method]
      exact orderly.formed
  | _ => exact orderly.advances (advances_receive (by rfl) (by simp) (by simp) draft)

variable {kind : Event → Prop} {events : List Event}

theorem Orderly.gets (orderly : draft.Orderly)
    (h : Receiver.Gets ClassDraft.receive kind events draft draft') : draft'.Orderly :=
  h.keeps (fun event _ orderly => orderly.receive event) orderly

/-- Until the class ends, the pool and the bootstrap methods grow. -/
theorem extends_of_gets (inner : .classEnd ∉ events)
    (h : Receiver.Gets receive kind events draft draft') : draft.Extends draft' := by
  induction h with
  | nil => exact .of_same rfl rfl rfl
  | taken _ first _ ih =>
      have extends_first := (extends_receive (List.ne_of_not_mem_cons inner).symm).ok first
      exact extends_first.trans (ih (List.not_mem_of_not_mem_cons inner))
  | refused first _ ih =>
      have extends_first := (extends_receive (List.ne_of_not_mem_cons inner).symm).error first
      exact extends_first.trans (ih (List.not_mem_of_not_mem_cons inner))

/-- Until the method or the class ends and unless another method begins, the code of the method
only gains cells. -/
theorem advances_of_gets (methodEnd : .methodEnd ∉ events) (classEnd : .classEnd ∉ events)
    (h : Receiver.Gets receive (·.beginsMethod = false) events draft draft') :
    draft.Advances draft' := by
  induction h with
  | nil => exact .refl _
  | taken method first _ ih =>
      have advances_first := (advances_receive method (List.ne_of_not_mem_cons methodEnd).symm
        (List.ne_of_not_mem_cons classEnd).symm).ok first
      exact advances_first.trans (ih (List.not_mem_of_not_mem_cons methodEnd)
        (List.not_mem_of_not_mem_cons classEnd))
  | refused first _ ih =>
      have advances_first := advances_of_refused (List.ne_of_not_mem_cons methodEnd).symm
        (List.ne_of_not_mem_cons classEnd).symm first
      exact advances_first.trans (ih (List.not_mem_of_not_mem_cons methodEnd)
        (List.not_mem_of_not_mem_cons classEnd))

end ClassDraft

end JavaClass
