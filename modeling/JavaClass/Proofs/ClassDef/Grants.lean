import JavaClass.Proofs.Body.Grants
import JavaClass.Proofs.ClassDef.Tokens

/-!
# Labels of code that came as events

A partial class puts into a body the labels that the body gave out for the tokens of
the events, and no others. So whatever events built a class, the code of each of its
methods gave out one label for each token that came up between the beginning and the
end of the method. It tells its labels apart, and goes on doing so while it is edited.

## Implementation notes

The events are followed as a list that grows at its end. A refused event may leave a
partial class without the member that was arriving, so the step lemma is about the
state that an event leaves, whatever came of it. A method that has begun again in the
place of another leaves the events of the other behind.
-/

namespace JavaClass

/-- The event that a method begins with. -/
def MethodDef.beginning (method : MethodDef) : Event :=
  .method method.flags method.name method.descriptor method.exceptions

/-- Whether the event neither begins nor ends a method. -/
def Event.staysInMethod (event : Event) : Bool :=
  !event.beginsMethod && event != .methodEnd

namespace MethodBody

variable {given : List Grant} {body : MethodBody}

/-- The body is of code that came as these events: it gave out the labels of the tokens in them, one
after the other, and no other labels were put into it. -/
structure Heard (code : List Event) (given : List Grant) (body : MethodBody) : Prop where
  handed : Handed given body
  tokens : given.map Grant.token? = (code.flatMap Event.targets).map some

theorem labels_resolveAll {token : LabelToken} {label : Label} (tokens : List LabelToken)
    (h : body.labels[token]? = some label) :
    (body.resolveAll tokens).2.labels[token]? = some label := by
  rw [resolveAll_snd]
  induction tokens generalizing body with
  | nil => exact h
  | cons other tokens ih => exact ih (labels_resolve other h)

namespace Handed

variable (handed : Handed given body)

include handed

theorem resolve (token : LabelToken) :
    Handed (given ++ [⟨some token, (body.resolve token).1⟩]) (body.resolve token).2 :=
  handed.operate (.edit (.resolve token)) (List.nil_subset _)

/-- Tokens are met one after the other, and their labels given out. -/
theorem resolveAll (tokens : List LabelToken) :
    ∃ more, more.map Grant.token? = tokens.map some ∧
      Handed (given ++ more) (body.resolveAll tokens).2 ∧
      tokens.map (fun token => ((body.resolveAll tokens).2.resolve token).1) ⊆
        (given ++ more).map Grant.label := by
  induction tokens generalizing body given with
  | nil => exact ⟨[], rfl, by simpa [MethodBody.resolveAll] using handed, List.nil_subset _⟩
  | cons token tokens ih =>
      obtain ⟨more, hmore, handed', hlabels⟩ := ih (handed.resolve token)
      have hlabel := labels_resolveAll tokens (body.labels_resolve_self token)
      have hrest : (body.resolveAll (token :: tokens)).2 =
          ((body.resolve token).2.resolveAll tokens).2 := by
        rw [resolveAll_snd, resolveAll_snd, List.foldl_cons]
      rw [List.append_assoc] at handed' hlabels
      rw [hrest]
      refine ⟨⟨some token, (body.resolve token).1⟩ :: more, congrArg (some token :: ·) hmore,
        handed', List.cons_subset.mpr ⟨?_, hlabels⟩⟩
      simp [resolve_fst_of_known hlabel]

theorem append {i : Instruction Label} (uses : i.targets ⊆ given.map Grant.label) :
    Handed given (body.append i).2 := by
  have appended : Handed (given ++ []) _ := handed.operate (.edit (.append i)) <| by
    rw [Operation.labels, Edit.labels_eq rfl]
    exact uses
  rw [List.append_nil] at appended
  exact appended

theorem furnish {tryBlocks : Array (TryBlock Label)} {maxStack maxLocals : UInt16}
    (uses : tryBlocks.toList.flatMap TryBlock.targets ⊆ given.map Grant.label) :
    Handed given { body with tryBlocks, maxStack, maxLocals } := by
  have furnished : Handed (given ++ []) _ :=
    handed.operate (.furnish tryBlocks maxStack maxLocals) uses
  rw [List.append_nil] at furnished
  exact furnished

end Handed

namespace Heard

variable {code : List Event} (heard : Heard code given body)

include heard

/-- An event without tokens leaves everything as it is. -/
theorem skip (event : Event) (plain : event.targets = []) :
    Heard (code ++ [event]) given body where
  handed := heard.handed
  tokens := by
    rw [List.flatMap_append, List.flatMap_singleton, plain, List.append_nil]
    exact heard.tokens

theorem tokens_append {event : Event} {more : List Grant}
    (hmore : more.map Grant.token? = event.targets.map some) :
    (given ++ more).map Grant.token? = ((code ++ [event]).flatMap Event.targets).map some := by
  rw [List.map_append, List.flatMap_append, List.map_append, heard.tokens, hmore,
    List.flatMap_singleton]

theorem instruction (i : Instruction LabelToken) :
    ∃ given, Heard (code ++ [.instruction i]) given (PartialClass.addInstruction body i) := by
  obtain ⟨more, hmore, handed, hlabels⟩ := heard.handed.resolveAll i.targets
  refine ⟨given ++ more, handed.append ?_, heard.tokens_append hmore⟩
  rw [Instruction.targets_map]
  exact hlabels

theorem tryBlock (block : TryBlock LabelToken) :
    ∃ given, Heard (code ++ [.tryBlock block]) given (PartialClass.addTryBlock body block) := by
  obtain ⟨more, hmore, handed, hlabels⟩ := heard.handed.resolveAll block.targets
  refine ⟨given ++ more, handed.furnish ?_, heard.tokens_append hmore⟩
  rw [Array.toList_push, List.flatMap_append, List.flatMap_singleton, TryBlock.targets_map]
  exact List.append_subset.mpr ⟨(covers_of_handed handed).blocks, hlabels⟩

theorem maxs (stack locals : UInt16) :
    Heard (code ++ [.maxs stack locals]) given
      { body with maxStack := stack, maxLocals := locals } where
  handed := heard.handed.furnish (covers_of_handed heard.handed).blocks
  tokens := (heard.skip (.maxs stack locals) rfl).tokens

/-- Labels are told apart if there are not too many tokens. -/
theorem tellsApart (room : (code.flatMap Event.targets).eraseDups.length < 2 ^ 32) :
    body.TellsApart given :=
  tellsApart_of_handed heard.handed
    (Nat.lt_of_le_of_lt (length_distinctLabels_le_tokens heard.handed heard.tokens) room)

end Heard

end MethodBody

namespace MethodDef

variable {past : List Event} {method : MethodDef}

/-- The method is arriving: it began at some event, and the events since then are of its code. -/
def Arrives (past : List Event) (method : MethodDef) : Prop :=
  ∃ before code given, past = before ++ method.beginning :: code ∧
    (∀ event ∈ code, event.staysInMethod) ∧ method.body.Heard code given

/-- The method has arrived: it ended before some other events. -/
def Arrived (past : List Event) (method : MethodDef) : Prop :=
  ∃ upTo after, past = upTo ++ .methodEnd :: after ∧ method.Arrives upTo

theorem arrives_beginning (flags : MethodFlags) (name descriptor : String)
    (exceptions : List String) (id : UInt32) :
    Arrives (past ++ [.method flags name descriptor exceptions])
      ⟨flags, name, descriptor, exceptions, .empty id⟩ :=
  ⟨past, [], [], rfl, List.forall_mem_nil _, .empty id, rfl⟩

/-- An event of the code adds to the body. -/
theorem Arrives.edit (arrives : method.Arrives past) {event : Event} (inner : event.staysInMethod)
    (edit : MethodBody → MethodBody)
    (hears : ∀ code given, method.body.Heard code given →
      ∃ given, (edit method.body).Heard (code ++ [event]) given) :
    Arrives (past ++ [event]) { method with body := edit method.body } := by
  obtain ⟨before, code, given, rfl, hcode, heard⟩ := arrives
  obtain ⟨given, heard⟩ := hears code given heard
  refine ⟨before, code ++ [event], given, by simp [beginning], ?_, heard⟩
  intro other hother
  obtain hother | hother := List.mem_append.mp hother
  · exact hcode other hother
  · exact List.mem_singleton.mp hother ▸ inner

/-- An event outside code leaves the method that is arriving. -/
theorem Arrives.skip (arrives : method.Arrives past) {event : Event} (inner : event.staysInMethod)
    (plain : event.targets = []) : method.Arrives (past ++ [event]) :=
  arrives.edit inner id fun _ given heard => ⟨given, heard.skip event plain⟩

theorem Arrived.later (arrived : method.Arrived past) (event : Event) :
    method.Arrived (past ++ [event]) := by
  obtain ⟨upTo, after, rfl, arrives⟩ := arrived
  exact ⟨upTo, after ++ [event], by simp, arrives⟩

theorem Arrives.ended (arrives : method.Arrives past) : method.Arrived (past ++ [.methodEnd]) :=
  ⟨past, [], rfl, arrives⟩

end MethodDef

namespace PartialClass

/-- The methods of a partial class came with the events so far, and so did the labels in their
code. -/
structure OwnLabels (past : List Event) (p : PartialClass) : Prop where
  method : ∀ method, p.method = some method → method.Arrives past
  definition : ∀ c, p.definition = some c → ∀ method ∈ c.methods.toList, method.Arrived past
  /-- Only a class that has begun has methods. -/
  begun : p.definition = none → p.method = none

theorem ownLabels_empty : empty.OwnLabels [] where
  method := by rintro _ ⟨⟩
  definition := by rintro _ ⟨⟩
  begun _ := rfl

namespace OwnLabels

variable {past : List Event} {p : PartialClass} (own : p.OwnLabels past)

include own

/-- The methods that ended before an event are still there if the event leaves the class. -/
theorem definition_later (event : Event) : ∀ c, p.definition = some c →
    ∀ method ∈ c.methods.toList, method.Arrived (past ++ [event]) :=
  fun c hc method hmethod => (own.definition c hc method hmethod).later event

/-- An event outside code leaves the methods. -/
theorem skip (event : Event) (inner : event.staysInMethod) (plain : event.targets = []) :
    p.OwnLabels (past ++ [event]) where
  method method hmethod := (own.method method hmethod).skip inner plain
  definition := own.definition_later event
  begun := own.begun

theorem editClass {edit : ClassDef → ClassDef}
    (keeps : ∀ c, ∀ method ∈ (edit c).methods.toList,
      method ∈ c.methods.toList ∨ method.Arrived past) :
    (stateOf (editClass edit p)).OwnLabels past := by
  unfold PartialClass.editClass
  cases hdefinition : p.definition with
  | none => exact own
  | some c =>
      refine ⟨own.method, ?_, by rintro ⟨⟩⟩
      rintro _ ⟨⟩ method hmethod
      obtain hold | hown := keeps c method hmethod
      · exact own.definition c hdefinition method hold
      · exact hown

/-- An event of code adds to the body of the method that is arriving, if there is one. -/
theorem editBody {event : Event} (inner : event.staysInMethod) {edit : MethodBody → MethodBody}
    (hears : ∀ (body : MethodBody) code given, body.Heard code given →
      ∃ given, (edit body).Heard (code ++ [event]) given) :
    (stateOf (editBody edit p)).OwnLabels (past ++ [event]) := by
  unfold PartialClass.editBody
  cases hmethod : p.method with
  | none =>
      refine ⟨?_, own.definition_later event, own.begun⟩
      intro method hsome
      cases hmethod.symm.trans hsome
  | some method =>
      refine ⟨?_, own.definition_later event, ?_⟩
      · rintro _ ⟨⟩
        exact (own.method method hmethod).edit inner edit (hears method.body)
      · intro hdefinition
        cases hmethod.symm.trans (own.begun hdefinition)

theorem beginMethod (flags : MethodFlags) (name descriptor : String) (exceptions : List String) :
    (stateOf (PartialClass.receive (.method flags name descriptor exceptions) p)).OwnLabels
      (past ++ [.method flags name descriptor exceptions]) := by
  obtain ⟨definition, field, method, ended⟩ := p
  cases definition with
  | none =>
      refine ⟨?_, own.definition_later _, own.begun⟩
      intro method hmethod
      cases (own.begun rfl).symm.trans hmethod
  | some c =>
      refine ⟨?_, own.definition_later _, by rintro ⟨⟩⟩
      rintro _ ⟨⟩
      exact MethodDef.arrives_beginning ..

theorem endMethod :
    (stateOf (PartialClass.receive .methodEnd p)).OwnLabels (past ++ [.methodEnd]) := by
  rw [receive_methodEnd_eq]
  have left : OwnLabels (past ++ [.methodEnd]) { p with method := none } :=
    ⟨by rintro _ ⟨⟩, own.definition_later _, fun _ => rfl⟩
  cases hmethod : p.method with
  | none => exact left
  | some method =>
      refine left.editClass fun c other hother => ?_
      rw [Array.toList_push, List.mem_append, List.mem_singleton] at hother
      refine hother.imp_right ?_
      rintro rfl
      exact (own.method _ hmethod).ended

/-- Whatever comes of an event, the methods are those that came, with labels of their own. -/
theorem receive (event : Event) : (stateOf (receive event p)).OwnLabels (past ++ [event]) := by
  cases event with
  | header version flags name super interfaces =>
      have skipped := own.skip (.header version flags name super interfaces) rfl rfl
      rw [receive_header_eq]
      cases hdefinition : p.definition with
      | some c => exact skipped
      | none =>
          refine ⟨skipped.method, ?_, by rintro ⟨⟩⟩
          rintro _ ⟨⟩ method ⟨⟩
  | source file =>
      exact (own.skip (.source file) rfl rfl).editClass fun c method hmethod => .inl hmethod
  | field flags name descriptor value =>
      have skipped := own.skip (.field flags name descriptor value) rfl rfl
      obtain ⟨definition, field, method, ended⟩ := p
      cases definition <;> exact ⟨skipped.method, skipped.definition, skipped.begun⟩
  | fieldEnd =>
      have skipped := own.skip .fieldEnd rfl rfl
      obtain ⟨definition, field, method, ended⟩ := p
      have left : OwnLabels (past ++ [.fieldEnd]) ⟨definition, none, method, ended⟩ :=
        ⟨skipped.method, skipped.definition, skipped.begun⟩
      cases field with
      | none => exact left
      | some field => exact left.editClass fun c method hmethod => .inl hmethod
  | method flags name descriptor exceptions =>
      exact own.beginMethod flags name descriptor exceptions
  | instruction i => exact own.editBody rfl fun body code given heard => heard.instruction i
  | tryBlock block => exact own.editBody rfl fun body code given heard => heard.tryBlock block
  | maxs stack locals =>
      exact own.editBody rfl fun body code given heard => ⟨given, heard.maxs stack locals⟩
  | methodEnd => exact own.endMethod
  | classEnd =>
      have skipped := own.skip .classEnd rfl rfl
      obtain ⟨definition, field, method, ended⟩ := p
      cases definition <;> exact ⟨skipped.method, skipped.definition, skipped.begun⟩

/-- After a run, the methods are those that came in it. -/
theorem gets {kind : Event → Prop} {events : List Event} {q : PartialClass}
    (gets : Receiver.Gets PartialClass.receive kind events p q) : q.OwnLabels (past ++ events) :=
  gets.follows (P := OwnLabels) (fun _ event _ own => own.receive event) past own

theorem finish {c : ClassDef} (h : p.finish = .ok c) {method : MethodDef}
    (hmethod : method ∈ c.methods.toList) : method.Arrived past := by
  unfold PartialClass.finish at h
  split at h
  · rename_i definition hdefinition hended
    cases h
    exact own.definition _ hdefinition method hmethod
  · cases h

end OwnLabels

/-- Code that was built from events, whichever they were and whichever of them were refused, gave
out one label after the other for the tokens between the beginning and the end of its method, and
has no others in it. So it tells its labels apart, as there are less than 2 ^ 32 tokens. Code that
has only labels of its own tells them apart also after it was edited and copied, until 32 bits are
too few for their numbers. -/
theorem labels_told_apart :
    (∀ events c, (Receiver.deliverAll receive events .empty).2.finish = .ok c →
      ∀ method ∈ c.methods.toList, ∃ before code after given,
        events = before ++ method.beginning :: code ++ .methodEnd :: after ∧
        (∀ event ∈ code, event.staysInMethod) ∧ method.body.Heard code given ∧
        ((code.flatMap Event.targets).eraseDups.length < 2 ^ 32 →
          method.body.TellsApart given)) ∧
    ∀ given body, MethodBody.Handed given body → (distinctLabels given).length < 2 ^ 32 →
      body.TellsApart given := by
  refine ⟨?_, fun given body => MethodBody.tellsApart_of_handed⟩
  intro events c hfinish method hmethod
  have hgets : Receiver.Gets receive (fun _ => True) events .empty _ :=
    Receiver.gets_deliverAll receive (fun _ _ => trivial) .empty
  obtain ⟨_, after, hevents, before, code, given, rfl, inner, heard⟩ :=
    (ownLabels_empty.gets hgets).finish hfinish hmethod
  exact ⟨before, code, after, given, hevents, inner, heard, heard.tellsApart⟩

/-- A class with a method that goes on for ever or leaves a loop. -/
def looping : List Event :=
  [.header ⟨65, 0⟩ (.ofBits _ 33) "A" none [], .method (.ofBits _ 9) "m" "()V" [],
    .instruction (.label ⟨7⟩), .instruction (.jump ⟨153⟩ ⟨4⟩), .instruction (.jump ⟨167⟩ ⟨7⟩),
    .instruction (.label ⟨4⟩), .methodEnd, .classEnd]

/-- The code of its only method. -/
theorem code_of_looping {before code after : List Event} {beginning : Event}
    (begins : beginning.beginsMethod) (inner : ∀ event ∈ code, event.staysInMethod)
    (h : looping = before ++ beginning :: code ++ .methodEnd :: after) :
    code = (looping.drop 2).takeWhile Event.staysInMethod := by
  have first : looping[0]?.all (!·.beginsMethod) := by decide
  have later : ∀ event ∈ looping.drop 2, !event.beginsMethod := by decide
  match before with
  | [] => simp [h, begins] at first
  | [_] =>
      have hdrop : looping.drop 2 = code ++ .methodEnd :: after := by rw [h]; rfl
      rw [hdrop, List.takeWhile_append_of_pos inner, List.takeWhile_cons_of_neg (by decide),
        List.append_nil]
  | _ :: _ :: before =>
      have hdrop : looping.drop 2 = before ++ beginning :: code ++ .methodEnd :: after := by
        rw [h]
        rfl
      have hmem : beginning ∈ looping.drop 2 := by simp [hdrop]
      simpa [begins] using later beginning hmem

/-- Code with two tokens that came as events, and a body that gives out a fresh label between two
tokens. -/
theorem labels_told_apart_looping :
    (∃ c method given, (Receiver.deliverAll receive looping .empty).2.finish = .ok c ∧
      method ∈ c.methods.toList ∧
      method.body.instructions =
        [.label ⟨0⟩, .jump ⟨153⟩ ⟨1⟩, .jump ⟨167⟩ ⟨0⟩, .label ⟨1⟩] ∧
      given.map Grant.token? = [some ⟨7⟩, some ⟨4⟩, some ⟨7⟩, some ⟨4⟩] ∧
      MethodBody.Handed given method.body ∧ method.body.TellsApart given) ∧
    ∃ given body, given = [⟨some ⟨7⟩, ⟨0⟩⟩, ⟨none, ⟨1⟩⟩, ⟨some ⟨7⟩, ⟨0⟩⟩, ⟨some ⟨4⟩, ⟨2⟩⟩] ∧
      MethodBody.Handed given body ∧ body.TellsApart given := by
  constructor
  · have hcode : ((Receiver.deliverAll receive looping .empty).2.finish.toOption.map fun c =>
        c.methods.toList.map (·.body.instructions)) =
          some [[.label ⟨0⟩, .jump ⟨153⟩ ⟨1⟩, .jump ⟨167⟩ ⟨0⟩, .label ⟨1⟩]] := by decide +kernel
    obtain ⟨c, hc, hmethods⟩ := Option.map_eq_some_iff.mp hcode
    obtain ⟨method, hmethod, hinstructions⟩ := List.map_eq_singleton_iff.mp hmethods
    have hfinish := eq_ok_of_toOption hc
    have hmem : method ∈ c.methods.toList := hmethod ▸ List.mem_singleton_self method
    obtain ⟨before, code, after, given, hlooping, inner, heard, apart⟩ :=
      labels_told_apart.1 looping c hfinish method hmem
    obtain rfl := code_of_looping rfl inner hlooping
    exact ⟨c, method, given, hfinish, hmem, hinstructions, heard.tokens, heard.handed,
      apart (by decide +kernel)⟩
  · have handed := (((MethodBody.Handed.empty 0).resolve ⟨7⟩).operate (.edit .newLabel)
      (List.nil_subset _)).resolve ⟨7⟩ |>.resolve ⟨4⟩
    refine ⟨_, _, ?_, handed, labels_told_apart.2 _ _ handed ?_⟩
    · decide +kernel
    · decide +kernel

end PartialClass

end JavaClass
