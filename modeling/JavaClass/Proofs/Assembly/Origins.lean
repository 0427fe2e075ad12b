import JavaClass.Proofs.Assembly.Runs
import JavaClass.Proofs.Constant.Additions

/-!
# Where the constants of a class come from

Every entry of the pool of a class draft is a constant that an event needs, or a
part of one. So is every entry of the pool that is written with the class, but
for the name of the bootstrap table.

## Implementation notes

What an event needs is said without the draft, except that a call site refers to
its bootstrap method by a position, which the draft finds. Nothing is said of
refused events, which may leave constants that no other event needs.
-/

namespace JavaClass

open BigEndian ConstantPool

/-- The constants that a call needs. -/
def BootstrapCall.constants (call : BootstrapCall) : List ConstantTree :=
  .methodHandle call.1 :: call.2.map .literal

namespace Event

/-- The constants that an event needs beside code and the names of attributes for code. -/
def constants : Event → List ConstantTree
  | header _ _ name super interfaces =>
      .classNamed name :: (super.toList.map .classNamed ++ interfaces.map .classNamed)
  | source file => [.text file, .text "SourceFile"]
  | field _ name descriptor value =>
      .text name :: .text descriptor ::
        value.toList.flatMap fun value => [.literal value, .text "ConstantValue"]
  | method _ name descriptor exceptions =>
      .text name :: .text descriptor ::
        if exceptions.isEmpty then [] else .text "Exceptions" :: exceptions.map .classNamed
  | instruction i => i.calls.flatMap BootstrapCall.constants
  | tryBlock block => block.exception.toList.map .classNamed
  | _ => []

/-- A constant is needed because of an event. -/
inductive Needs (table : ConstantTable) (bootstraps : Array Bootstrap) : Event → ConstantTree → Prop
  | listed {event tree} (mem : tree ∈ event.constants) : Needs table bootstraps event tree
  | named {event name} (mem : name ∈ event.attributeNames) :
    Needs table bootstraps event (.text name)
  | operand {i tree} (h : i.Operand table bootstraps tree) :
    Needs table bootstraps (.instruction i) tree

end Event

/-- A text or a literal, which classes and handles are too. -/
def ConstantTree.IsPlain (tree : ConstantTree) : Prop :=
  (∃ content, tree = .text content) ∨ ∃ value, tree = .literal value

theorem ConstantTree.IsPlain.ofClass {tree : ConstantTree} (h : tree.IsPlain) : tree.OfClass := by
  obtain ⟨content, rfl⟩ | ⟨value, rfl⟩ := h
  · exact .text content
  · exact .literal value

theorem BootstrapCall.isPlain_of_mem {call : BootstrapCall} {tree : ConstantTree}
    (mem : tree ∈ call.constants) : tree.IsPlain := by
  obtain rfl | mem := List.mem_cons.mp mem
  · exact .inr ⟨.methodHandle call.1, rfl⟩
  · obtain ⟨value, -, rfl⟩ := List.mem_map.mp mem
    exact .inr ⟨value, rfl⟩

/-- The constants that events need beside code are plain. -/
theorem Event.isPlain_of_mem {event : Event} {tree : ConstantTree}
    (mem : tree ∈ event.constants) : tree.IsPlain := by
  have text (content : String) : (ConstantTree.text content).IsPlain := .inl ⟨content, rfl⟩
  have named {names : List String} (mem : tree ∈ names.map .classNamed) : tree.IsPlain := by
    obtain ⟨name, -, rfl⟩ := List.mem_map.mp mem
    exact .inr ⟨.classRef name, rfl⟩
  cases event with
  | header version flags name super interfaces =>
      obtain rfl | mem := List.mem_cons.mp mem
      · exact .inr ⟨.classRef name, rfl⟩
      · exact (List.mem_append.mp mem).elim named named
  | source file =>
      simp only [constants, List.mem_cons, List.not_mem_nil, or_false] at mem
      obtain rfl | rfl := mem
      · exact text _
      · exact text _
  | field flags name descriptor value =>
      simp only [constants, List.mem_cons, List.mem_flatMap, List.not_mem_nil, or_false] at mem
      obtain rfl | rfl | ⟨value, -, rfl | rfl⟩ := mem
      · exact text _
      · exact text _
      · exact .inr ⟨value, rfl⟩
      · exact text _
  | method flags name descriptor exceptions =>
      obtain rfl | mem := List.mem_cons.mp mem
      · exact text _
      obtain rfl | mem := List.mem_cons.mp mem
      · exact text _
      split at mem
      · cases mem
      · obtain rfl | mem := List.mem_cons.mp mem
        · exact text _
        · exact named mem
  | instruction i =>
      obtain ⟨call, -, mem⟩ := List.mem_flatMap.mp mem
      exact BootstrapCall.isPlain_of_mem mem
  | tryBlock block => exact named mem
  | _ => cases mem

theorem Instruction.Operand.ofClass {table : ConstantTable} {bootstraps : Array Bootstrap}
    {i : Instruction LabelToken} {tree : ConstantTree} (h : i.Operand table bootstraps tree) :
    tree.OfClass := by
  cases h with
  | field => exact .field ..
  | method => exact .method ..
  | type => exact .classNamed _
  | load => exact .literal _
  | multiNewArray => exact .classNamed _
  | callSite => exact .callSite ..

/-- Events need constants of classes. -/
theorem Event.Needs.ofClass {table : ConstantTable} {bootstraps : Array Bootstrap} {event : Event}
    {tree : ConstantTree} (h : event.Needs table bootstraps tree) : tree.OfClass := by
  cases h with
  | listed mem => exact (isPlain_of_mem mem).ofClass
  | named mem => exact .text _
  | operand h => exact h.ofClass

/-- A call site is needed only by an event for it. -/
theorem Event.Needs.exists_call {table : ConstantTable} {bootstraps : Array Bootstrap}
    {event : Event} {tree : ConstantTree} (h : event.Needs table bootstraps tree)
    {a b position inner : UInt16} (root : tree.root a b = .invokeDynamic position inner) :
    ∃ name descriptor handle arguments, tree = .callSite position name descriptor ∧
      event = .instruction (.invokeDynamic name descriptor handle arguments) ∧
        ClassDraft.NamesBootstrap (handle, arguments) table bootstraps position := by
  cases h with
  | listed mem =>
      obtain ⟨content, rfl⟩ | ⟨value, rfl⟩ := isPlain_of_mem mem
      · cases root
      · cases value <;> cases root
  | named mem => cases root
  | operand operand =>
      cases operand with
      | @callSite name descriptor handle arguments position names =>
          cases root
          exact ⟨name, descriptor, handle, arguments, rfl, rfl, names⟩
      | @load value => cases value <;> cases root
      | _ => cases root

namespace ClassDraft

variable {α : Type} {draft draft' : ClassDraft} {trees : List ConstantTree}

theorem adds_request {ask : Request α} {more : List ConstantTree}
    (adds : Adds id (ConstantTree.allParts more) ask) (subset : more ⊆ trees) :
    Adds pool (ConstantTree.allParts trees) (request ask) := by
  intro draft value draft' valid h
  obtain ⟨later, hask, rfl⟩ := request_eq_ok_iff.mp h
  exact (adds draft.pool value later valid hask).mono (ConstantTree.allParts_subset subset)

theorem adds_modifyGet {work : ClassDraft → α × ClassDraft}
    (same : ∀ draft : ClassDraft, (work draft).2.pool = draft.pool) :
    Adds pool trees (modifyGet work : Step α) := by
  intro draft value draft' valid h
  cases h
  rw [same]
  exact valid.gains_self

theorem adds_editMethod (edit : MethodDraft → MethodDraft) : Adds pool trees (editMethod edit) := by
  intro draft value draft' valid h
  obtain ⟨method, -, rfl⟩ := editMethod_eq_ok_iff.mp h
  exact valid.gains_self

theorem adds_emit (opcode : Opcode) (operands : List UInt8) :
    Adds pool trees (emit opcode operands) :=
  adds_editMethod _

theorem adds_refuse (cause : Malformation) : Adds pool trees (refuse cause : Step α) :=
  adds_throw _

theorem adds_place (token : LabelToken) : Adds pool trees (place token) := by
  apply Adds.bind
  · intro draft value draft' valid h
    obtain ⟨method, -, -, rfl⟩ := onMethod_eq_ok_iff.mp h
    exact valid.gains_self
  · intro placed
    split
    · exact adds_refuse _
    · exact adds_pure _

/-- An instruction that names no bootstrap method adds what its code refers to. -/
theorem exists_adds_instruction {i : Instruction LabelToken} (hcalls : i.calls = []) :
    ∃ trees, Adds pool (ConstantTree.allParts trees) (instruction i) ∧
      ∀ tree ∈ trees, ∀ table bootstraps, i.Operand table bootstraps tree := by
  -- instructions that ask for nothing
  have none (adds : Adds pool (ConstantTree.allParts []) (instruction i)) :
      ∃ trees, Adds pool (ConstantTree.allParts trees) (instruction i) ∧
        ∀ tree ∈ trees, ∀ table bootstraps, i.Operand table bootstraps tree :=
    ⟨[], adds, by simp⟩
  -- instructions that ask for one constant
  have one {tree : ConstantTree} (operand : ∀ table bootstraps, i.Operand table bootstraps tree)
      {ask : Request UInt16} (adds : Adds id (ConstantTree.allParts [tree]) ask)
      {next : UInt16 → Step Unit}
      (rest : ∀ slot, Adds pool (ConstantTree.allParts [tree]) (next slot))
      (h : instruction i = request ask >>= next) :
      ∃ trees, Adds pool (ConstantTree.allParts trees) (instruction i) ∧
        ∀ tree ∈ trees, ∀ table bootstraps, i.Operand table bootstraps tree :=
    ⟨[tree], h ▸ (adds_request adds (List.Subset.refl _)).bind rest,
      List.forall_mem_singleton.mpr operand⟩
  cases i with
  | simple opcode =>
      apply none
      rw [instruction]
      split
      · exact adds_emit _ _
      · exact adds_refuse _
  | int opcode operand =>
      apply none
      rw [instruction, int]
      split
      · exact adds_emit _ _
      · split
        · exact adds_emit _ _
        · split
          · exact adds_emit _ _
          · exact adds_refuse _
  | localVar opcode slot =>
      apply none
      rw [instruction]
      split
      · exact adds_editMethod _
      · exact adds_refuse _
  | increment slot delta => exact none (adds_editMethod _)
  | field opcode owner name descriptor =>
      have adds := Request.adds_tree (.field owner name descriptor)
      rw [← ConstantTree.allParts_singleton] at adds
      exact one (fun _ _ => .field) adds (fun _ => adds_emit _ _) rfl
  | method opcode owner name descriptor isInterface =>
      have adds := Request.adds_tree (.method owner name descriptor isInterface)
      rw [← ConstantTree.allParts_singleton] at adds
      refine one (fun _ _ => .method) adds (fun slot => (adds_emit _ _).bind fun _ => ?_) rfl
      split
      · split
        · exact adds_refuse _
        · exact adds_editMethod _
      · exact adds_pure _
  | invokeDynamic name descriptor handle arguments => cases hcalls
  | type opcode name =>
      exact one (fun _ _ => .type) (Request.adds_classNamed name) (fun _ => adds_emit _ _) rfl
  | load literal =>
      refine one (fun _ _ => .load) (Request.adds_literal literal) (fun slot => ?_) rfl
      split
      · exact adds_emit _ _
      · split
        · exact adds_emit _ _
        · exact adds_emit _ _
  | jump opcode target =>
      apply none
      rw [instruction]
      split
      · exact adds_editMethod _
      · exact adds_refuse _
  | lookupSwitch otherwise keys targets =>
      apply none
      rw [instruction]
      split
      · exact adds_editMethod _
      · exact adds_refuse _
  | tableSwitch low high otherwise targets =>
      apply none
      rw [instruction]
      split
      · exact adds_refuse _
      · exact adds_editMethod _
  | multiNewArray descriptor dimensions =>
      exact one (fun _ _ => .multiNewArray) (Request.adds_classNamed descriptor)
        (fun _ => adds_emit _ _) rfl
  | label token => exact none (adds_place token)
  | line number token => exact none (adds_editMethod _)

theorem adds_bootstrap (handle : MethodHandle) (arguments : List Literal) :
    Adds pool (ConstantTree.allParts (BootstrapCall.constants (handle, arguments)))
      (bootstrap handle arguments) := by
  have adds := Request.adds_tree (.methodHandle handle)
  rw [← ConstantTree.allParts_singleton, ConstantTree.request_methodHandle] at adds
  apply (adds_request adds (by simp [BootstrapCall.constants])).bind
  intro method
  apply (adds_request (Request.adds_each Request.adds_literal arguments)
    (List.subset_cons_self ..)).bind
  intro slots
  apply adds_modifyGet
  intro draft
  split
  · rfl
  · rfl

/-- A call adds what it needs, and the call site with the position that was found. -/
theorem exists_gains_of_call (sound : draft.Sound) {name descriptor : String}
    {handle : MethodHandle} {arguments : List Literal}
    (h : instruction (.invokeDynamic name descriptor handle arguments) draft = .ok () draft') :
    ∃ trees, draft.pool.Gains (ConstantTree.allParts trees) draft'.pool ∧
      ∀ tree ∈ trees, ∀ table bootstraps, draft'.ShownIn table bootstraps →
        Event.Needs table bootstraps
          (.instruction (.invokeDynamic name descriptor handle arguments)) tree := by
  obtain ⟨position, mid, hbootstrap, hsite⟩ := bind_eq_ok_iff.mp h
  obtain ⟨grows, -, names⟩ := bootstrap_eq_ok sound hbootstrap
  have called := adds_bootstrap handle arguments draft position mid sound.pool hbootstrap
  have adds := Request.adds_tree (.callSite position name descriptor)
  rw [← ConstantTree.allParts_singleton] at adds
  have site := ((adds_request adds (List.Subset.refl _)).bind
    fun slot => adds_emit .invokeDynamic (u16 slot ++ [0, 0])) mid () draft' grows.sound.pool hsite
  have grows' := (confined_site position name descriptor).grows grows.sound hsite
  refine ⟨BootstrapCall.constants (handle, arguments) ++ [.callSite position name descriptor],
    (called.mono (ConstantTree.allParts_subset (List.subset_append_left ..))).trans
      (site.mono (ConstantTree.allParts_subset (List.subset_append_right ..))), ?_⟩
  intro tree mem table bootstraps shown
  obtain mem | mem := List.mem_append.mp mem
  · exact .listed (by simpa [Event.constants, Instruction.calls] using mem)
  · obtain rfl := List.mem_singleton.mp mem
    exact .operand (.callSite (names table bootstraps (grows'.shownIn shown)))

/-- Events that are neither instructions nor ends of methods or classes. -/
theorem adds_receive {event : Event} (code : ∀ i, event ≠ .instruction i)
    (methodEnd : event ≠ .methodEnd) (classEnd : event ≠ .classEnd) :
    Adds pool (ConstantTree.allParts event.constants) (receive event) := by
  cases event with
  | header version flags name super interfaces =>
      apply (adds_request (Request.adds_classNamed name) (by simp [Event.constants])).bind
      intro thisClass
      apply (adds_request (Request.adds_optionalClass super) (by simp [Event.constants])).bind
      intro superClass
      apply (adds_request (Request.adds_each Request.adds_classNamed interfaces)
        (by simp [Event.constants])).bind
      intro interfaces
      exact adds_modifyGet fun _ => rfl
  | source file =>
      apply (adds_request (Request.adds_text file) (by simp [Event.constants])).bind
      intro slot
      apply (adds_request (Request.adds_named "SourceFile" _) (by simp [Event.constants])).bind
      intro source
      exact adds_modifyGet fun _ => rfl
  | field flags name descriptor value =>
      apply (adds_request (Request.adds_text name) (by simp [Event.constants])).bind
      intro nameSlot
      apply (adds_request (Request.adds_text descriptor) (by simp [Event.constants])).bind
      intro descriptorSlot
      cases value with
      | none => exact adds_modifyGet fun _ => rfl
      | some value =>
          apply (adds_request (Request.adds_literal value) (by simp [Event.constants])).bind
          intro slot
          have named := Request.adds_named "ConstantValue"
          apply (adds_request (named _) (by simp [Event.constants])).bind
          intro a
          exact adds_modifyGet fun _ => rfl
  | fieldEnd =>
      refine Adds.bind (adds_modifyGet fun _ => rfl) fun field => ?_
      cases field with
      | none => exact adds_refuse _
      | some field => exact adds_modifyGet fun _ => rfl
  | method flags name descriptor exceptions =>
      apply (adds_request (Request.adds_text name) (by simp [Event.constants])).bind
      intro nameSlot
      apply (adds_request (Request.adds_text descriptor) (by simp [Event.constants])).bind
      intro descriptorSlot
      split
      · exact adds_modifyGet fun _ => rfl
      · rename_i some
        apply (adds_request (Request.adds_each Request.adds_classNamed exceptions)
          fun tree mem => by simp [Event.constants, some, mem]).bind
        intro classes
        apply (adds_request (Request.adds_named "Exceptions" _)
          (by simp [Event.constants, some])).bind
        intro a
        exact adds_modifyGet fun _ => rfl
  | instruction i => exact absurd rfl (code i)
  | tryBlock block =>
      exact (adds_request (Request.adds_optionalClass block.exception) (List.Subset.refl _)).bind
        fun _ => adds_editMethod _
  | maxs stack locals => exact adds_editMethod _
  | methodEnd => contradiction
  | classEnd => contradiction

theorem adds_settled {result : Except Error α} :
    Adds id trees (MethodDraft.settled result) := by
  cases result with
  | ok value => exact adds_pure value
  | error error => exact adds_throw error

/-- The end of a method adds the names of its attributes for code. -/
theorem adds_finish (method : MethodDraft) :
    Adds id (ConstantTree.allParts (method.attributeNames.map .text)) method.finish := by
  have named {name : String} (contents : Except Error (List UInt8))
      (mem : name ∈ method.attributeNames) :
      Adds id (ConstantTree.allParts (method.attributeNames.map .text))
        (Request.named name contents) :=
    (Request.adds_named name contents).mono (ConstantTree.allParts_subset
      (by simpa using List.mem_map_of_mem mem))
  have lines : Adds id (ConstantTree.allParts (method.attributeNames.map .text))
      method.lineAttributes := by
    unfold MethodDraft.lineAttributes
    split
    · exact adds_pure []
    · rename_i some
      exact adds_settled.bind fun lines =>
        (named _ (by simp [MethodDraft.attributeNames, some])).bind fun a => adds_pure [a]
  have code (coded : method.hasCode = true) (code : Array UInt8) :
      Adds id (ConstantTree.allParts (method.attributeNames.map .text))
        (method.codeAttribute code) :=
    adds_settled.bind fun handlers => lines.bind fun attributes =>
      named _ (by simp [MethodDraft.attributeNames, coded])
  apply adds_settled.bind
  intro patched
  split
  · rename_i coded
    exact (code coded patched).bind fun a => (adds_pure [a]).bind fun attributes => adds_pure _
  · exact adds_pure _

/-- What every event but the end of a class adds if it is taken. -/
theorem exists_gains_of_receive (sound : draft.Sound) {event : Event} (inner : event ≠ .classEnd)
    (h : receive event draft = .ok () draft') :
    ∃ trees, draft.pool.Gains (ConstantTree.allParts trees) draft'.pool ∧
      ∀ tree ∈ trees, (∃ name ∈ draft.attributeNames, tree = .text name) ∨
        ∀ table bootstraps, draft'.ShownIn table bootstraps →
          event.Needs table bootstraps tree := by
  by_cases code : ∃ i, event = .instruction i
  · obtain ⟨i, rfl⟩ := code
    by_cases hcalls : i.calls = []
    · obtain ⟨trees, adds, operands⟩ := exists_adds_instruction hcalls
      exact ⟨trees, adds draft () draft' sound.pool h, fun tree mem =>
        .inr fun table bootstraps _ => .operand (operands tree mem table bootstraps)⟩
    · cases i with
      | invokeDynamic name descriptor handle arguments =>
          obtain ⟨trees, gains, needs⟩ := exists_gains_of_call sound h
          exact ⟨trees, gains, fun tree mem => .inr (needs tree mem)⟩
      | _ => exact absurd rfl hcalls
  by_cases methodEnd : event = .methodEnd
  · subst methodEnd
    cases hmethod : draft.method with
    | none =>
        rw [receive_methodEnd_eq, hmethod] at h
        cases h
    | some method =>
        rw [receive_methodEnd_eq, hmethod] at h
        obtain ⟨part, mid, hrequest, h⟩ := bind_eq_ok_iff.mp h
        obtain ⟨later, hask, rfl⟩ := request_eq_ok_iff.mp hrequest
        cases h
        refine ⟨method.attributeNames.map .text, adds_finish method _ _ _ sound.pool hask, ?_⟩
        intro tree mem
        obtain ⟨name, mem, rfl⟩ := List.mem_map.mp mem
        refine .inl ⟨name, ?_, rfl⟩
        unfold attributeNames
        rwa [hmethod]
  · have adds := adds_receive (fun i heq => code ⟨i, heq⟩) methodEnd inner
    exact ⟨event.constants, adds draft () draft' sound.pool h, fun tree mem =>
      .inr fun _ _ _ => .listed mem⟩

/-- What stands at a slot is a part of a constant that one of the events needs. -/
def Accounts (table : ConstantTable) (bootstraps : Array Bootstrap) (events : List Event)
    (slot : UInt16) : Prop :=
  ∃ event ∈ events, ∃ tree, event.Needs table bootstraps tree ∧
    ∃ part ∈ tree.parts, part.Shown table slot

/-- The events account for every entry of the pool, and for the names of the attributes that the
method that is open gets. -/
structure Accounted (events : List Event) (draft : ClassDraft) : Prop where
  sound : draft.Sound
  names : draft.attributeNames ⊆ events.flatMap Event.attributeNames
  entries : ∀ table bootstraps, draft.ShownIn table bootstraps →
    ∀ entry ∈ draft.pool.entries.entries.toList,
      Accounts table bootstraps events (UInt16.ofNat entry.1)

theorem Accounts.mono {table : ConstantTable} {bootstraps : Array Bootstrap}
    {events more : List Event} {slot : UInt16} (h : Accounts table bootstraps events slot)
    (subset : events ⊆ more) : Accounts table bootstraps more slot := by
  obtain ⟨event, mem, rest⟩ := h
  exact ⟨event, subset mem, rest⟩

theorem accounted_empty : Accounted [] empty where
  sound := sound_empty
  names := List.nil_subset _
  entries := fun _ _ _ _ mem => absurd mem List.not_mem_nil

/-- An event accounts for what it adds. -/
theorem Accounted.receive {events : List Event} (accounted : Accounted events draft) {event : Event}
    (inner : event ≠ .classEnd) (h : ClassDraft.receive event draft = .ok () draft') :
    Accounted (events ++ [event]) draft' := by
  have continued := continued_receive accounted.sound inner h
  obtain ⟨trees, gains, needs⟩ := exists_gains_of_receive accounted.sound inner h
  constructor
  case sound => exact continued.sound
  case names =>
    rw [List.flatMap_append, List.flatMap_singleton]
    intro name mem
    obtain mem | mem := List.mem_append.mp (continued.names mem)
    · exact List.mem_append_left _ (accounted.names mem)
    · exact List.mem_append_right _ mem
  case entries =>
    intro table bootstraps shown entry mem
    obtain old | ⟨part, mem, stands⟩ := gains.fresh entry mem
    · exact (accounted.entries table bootstraps (continued.shownIn shown) entry old).mono
        (List.subset_append_left ..)
    · obtain ⟨tree, htree, mem⟩ := List.mem_flatMap.mp mem
      obtain ⟨name, hname, rfl⟩ | needs := needs tree htree
      · obtain ⟨earlier, hearlier, hname⟩ := List.mem_flatMap.mp (accounted.names hname)
        exact ⟨earlier, List.mem_append_left _ hearlier, _, .named hname, part, mem,
          stands table shown.pool⟩
      · exact ⟨event, List.mem_append_right _ (List.mem_singleton_self _), tree,
          needs table bootstraps shown, part, mem, stands table shown.pool⟩

/-- Events that are taken before the end of a class account for all that is added. -/
theorem Accounted.takes {before events : List Event} (accounted : Accounted before draft)
    (inner : .classEnd ∉ events) (h : Receiver.Takes ClassDraft.receive events draft draft') :
    Accounted (before ++ events) draft' := by
  induction events generalizing draft before with
  | nil =>
      cases h
      rwa [List.append_nil]
  | cons event events ih =>
      obtain ⟨mid, hfirst, hrest⟩ := Receiver.takes_cons_iff.mp h
      have first := accounted.receive (List.ne_of_not_mem_cons inner).symm hfirst
      have rest := ih first (List.not_mem_of_not_mem_cons inner) hrest
      rwa [List.append_assoc] at rest

/-- The events account for every entry of the pool that is written with a class, but for the name
of the bootstrap table. -/
theorem Accounted.of_gains {events : List Event} (accounted : Accounted events draft)
    {entries : List EncodedAttribute} {pool : ConstantPool}
    (gains : draft.pool.Gains (tableNames entries) pool) {bootstraps : Array Bootstrap}
    (shown : draft.ShownIn ⟨pool.entries⟩ bootstraps) {slot : UInt16} {constant : Constant}
    (found : ConstantTable.get ⟨pool.entries⟩ slot = .ok constant) :
    Accounts ⟨pool.entries⟩ bootstraps events slot ∨
      ∃ a ∈ entries, (ConstantTree.text "BootstrapMethods").Shown ⟨pool.entries⟩ slot := by
  have mem := SlotVector.mem_of_get? (ConstantTable.get_eq_ok_iff.mp found)
  obtain old | ⟨tree, mem, stands⟩ := gains.fresh _ mem
  · have accounts := accounted.entries _ bootstraps shown _ old
    rw [UInt16.ofNat_toNat] at accounts
    exact .inl accounts
  · have stands := stands _ gains.valid.within_self
    rw [UInt16.ofNat_toNat] at stands
    obtain ⟨whole, hwhole, mem⟩ := List.mem_flatMap.mp mem
    obtain ⟨a, ha, rfl⟩ := List.mem_map.mp hwhole
    obtain rfl := List.mem_singleton.mp mem
    exact .inr ⟨a, ha, stands⟩

end ClassDraft

end JavaClass
