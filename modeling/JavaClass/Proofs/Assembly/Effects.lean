import Mathlib.Data.List.Nodup
import JavaClass.Proofs.Assembly.Deliveries
import JavaClass.Proofs.Event.Story
import JavaClass.Proofs.Failures

/-!
# What the code of a method does to it

An event of the code of a method changes nothing of a draft but the pool, the
bootstrap methods and the method that is open. Of that method it keeps what was
declared, the places of its labels and the labels that it mentions. Only an event
that places a label is ever refused because of a label.

## Implementation notes

All instructions but labels are `Worked`: they ask the pool, note a bootstrap
method, edit the method or refuse, and are put together from such steps. What is
said of them is proved by induction over how they are put together, for every
relation between the methods before and after an edit. What a run of events does
to labels is put together from what the single events do (`MethodDraft.Places`).
-/

namespace JavaClass

open ConstantPool

/-- Whether a label has no place, or more than one. -/
def Malformation.isLabel : Malformation → Bool
  | unplacedLabel _ => true
  | unplacedToken _ => true
  | tokenPlacedTwice _ => true
  | inMethod _ _ cause => cause.isLabel
  | atLocation _ cause => cause.isLabel
  | _ => false

/-- Whether a label has no place, or more than one. -/
def Error.isLabel : Error → Bool
  | malformed cause => cause.isLabel
  | _ => false

/-- The error is about no label: neither about its places nor because a branch does not reach it. -/
structure Error.Unlabelled (error : Error) : Prop where
  placed : error.isLabel = false
  near : ∀ opcode distance, error ≠ .jumpTooFar opcode distance

theorem Error.unlabelled_malformed {cause : Malformation} (h : cause.isLabel = false) :
    (Error.malformed cause).Unlabelled where
  placed := h
  near := by rintro _ _ ⟨⟩

/-- The step is never refused because of a label. -/
abbrev Unlabelled {σ α : Type} (step : EStateM Error σ α) : Prop :=
  RefusesOnly Error.Unlabelled step

namespace ConstantPool.Request

theorem unlabelled_intern (constant : Constant) : Unlabelled (intern constant) := by
  intro pool error pool' h
  unfold intern at h
  cases hencode : constant.encode with
  | error error' =>
      rw [hencode] at h
      cases h
      have heq := hencode
      unfold Constant.encode at heq
      cases constant with
      | utf8 text =>
          simp only [Constant.contents] at heq
          split at heq
          · cases heq
            exact Error.unlabelled_malformed rfl
          · cases heq
      | _ => cases heq
  | ok key =>
      rw [hencode] at h
      simp only at h
      split at h
      · cases h
      · split at h
        · cases h
          exact ⟨rfl, by rintro _ _ ⟨⟩⟩
        · cases h

theorem unlabelled_text (text : String) : Unlabelled (Request.text text) :=
  unlabelled_intern _

theorem unlabelled_classNamed (name : String) : Unlabelled (classNamed name) :=
  (unlabelled_text name).bind fun _ => unlabelled_intern _

theorem unlabelled_optionalClass (name : Option String) : Unlabelled (optionalClass name) := by
  cases name with
  | none => exact refusesOnly_pure 0
  | some name => exact unlabelled_classNamed name

theorem unlabelled_nameAndType (name descriptor : String) :
    Unlabelled (nameAndType name descriptor) :=
  (unlabelled_text name).bind fun _ => (unlabelled_text descriptor).bind fun _ =>
    unlabelled_intern _

theorem unlabelled_field (owner name descriptor : String) :
    Unlabelled (field owner name descriptor) :=
  (unlabelled_classNamed owner).bind fun _ =>
    (unlabelled_nameAndType name descriptor).bind fun _ => unlabelled_intern _

theorem unlabelled_method (owner name descriptor : String) (isInterface : Bool) :
    Unlabelled (method owner name descriptor isInterface) :=
  (unlabelled_classNamed owner).bind fun _ =>
    (unlabelled_nameAndType name descriptor).bind fun _ => unlabelled_intern _

theorem unlabelled_methodHandle (handle : MethodHandle) : Unlabelled (methodHandle handle) := by
  unfold methodHandle
  split
  · exact (unlabelled_field _ _ _).bind fun _ => unlabelled_intern _
  · exact (unlabelled_method _ _ _ _).bind fun _ => unlabelled_intern _

theorem unlabelled_callSite (bootstrap : UInt16) (name descriptor : String) :
    Unlabelled (callSite bootstrap name descriptor) :=
  (unlabelled_nameAndType name descriptor).bind fun _ => unlabelled_intern _

theorem unlabelled_literal (literal : Literal) : Unlabelled (Request.literal literal) := by
  cases literal with
  | int value => exact unlabelled_intern (.integer value)
  | float bits => exact unlabelled_intern (.float bits)
  | long value => exact unlabelled_intern (.long value)
  | double bits => exact unlabelled_intern (.double bits)
  | string contents => exact (unlabelled_text contents).bind fun _ => unlabelled_intern _
  | methodType descriptor => exact (unlabelled_text descriptor).bind fun _ => unlabelled_intern _
  | classRef name => exact unlabelled_classNamed name
  | methodHandle handle => exact unlabelled_methodHandle handle

theorem unlabelled_each {α : Type} {request : α → Request UInt16}
    (unlabelled : ∀ item, Unlabelled (request item)) (items : List α) :
    Unlabelled (each request items) := by
  unfold each
  generalize ([] : List UInt16) = done
  induction items generalizing done with
  | nil => exact refusesOnly_pure _
  | cons item rest ih =>
      apply (unlabelled item).bind
      intro slot
      exact ih (slot :: done)

theorem refusesOnly_named {kind : Error → Prop}
    (plain : ∀ error : Error, error.Unlabelled → kind error) (name : String)
    {contents : Except Error (List UInt8)} (fails : FailsOnly kind contents) :
    RefusesOnly kind (named name contents) := by
  apply ((unlabelled_text name).imp plain).bind
  intro slot
  cases contents with
  | ok contents => exact refusesOnly_pure _
  | error error => exact refusesOnly_throw (fails error rfl)

end ConstantPool.Request

/-- The labels that a cell mentions. -/
def Piece.targets : Piece → List LabelToken
  | bytes _ => []
  | branch _ target => [target]

theorem map_target_fixupsFrom (position : Nat) (cells : List Cell) :
    (fixupsFrom position cells).map Fixup.target = cells.flatMap (·.piece.targets) := by
  induction cells generalizing position with
  | nil => rfl
  | cons cell cells ih =>
      obtain ⟨opcode, origin, piece⟩ := cell
      cases piece with
      | bytes content =>
          rw [fixupsFrom, List.nil_append, ih]
          rfl
      | branch wide target =>
          rw [fixupsFrom, List.singleton_append, List.map_cons, ih]
          rfl

theorem targets_tableCells (origin : Nat) (low high : Int32) (otherwise : LabelToken)
    (targets : List LabelToken) :
    (tableCells origin low high otherwise targets).flatMap (·.piece.targets) =
      otherwise :: targets := by
  simp [tableCells, switchCells, Piece.targets, List.flatMap_map]

theorem targets_pairCells_subset (origin : Nat) (otherwise : LabelToken) (keys : List Int32)
    (targets : List LabelToken) :
    (pairCells origin otherwise (keys.zip targets)).flatMap (·.piece.targets) ⊆
      otherwise :: targets := by
  have hcells : (pairCells origin otherwise (keys.zip targets)).flatMap (·.piece.targets) =
      otherwise :: (keys.zip targets).map Prod.snd := by
    simp [pairCells, switchCells, Piece.targets, List.flatMap_assoc, ← List.map_eq_flatMap]
  rw [hcells]
  apply List.cons_subset_cons
  intro target htarget
  obtain ⟨pair, hpair, rfl⟩ := List.mem_map.mp htarget
  exact (List.of_mem_zip hpair).2

namespace MethodDraft

variable {draft draft' draft'' : MethodDraft} {targets : List LabelToken}

/-- The cells are those of one instruction behind the code of the draft, which starts with its
operation code. -/
def InstructionCells (draft : MethodDraft) (cells : List Cell) : Prop :=
  ∃ opcode operands rest,
    cells = ⟨opcode, draft.code.size, .bytes (opcode.byte :: operands)⟩ :: rest ∧
      ∀ cell ∈ rest, cell.opcode = opcode ∧ cell.origin = draft.code.size

theorem instructionCells_emit (draft : MethodDraft) (opcode : Opcode) (operands : List UInt8) :
    draft.InstructionCells [⟨opcode, draft.code.size, .bytes (opcode.byte :: operands)⟩] :=
  ⟨opcode, operands, [], rfl, by simp⟩

theorem instructionCells_pairCells (draft : MethodDraft) (otherwise : LabelToken)
    (pairs : List (Int32 × LabelToken)) :
    draft.InstructionCells (pairCells draft.code.size otherwise pairs) := by
  refine ⟨.lookupSwitch, _, _ :: _ :: _, rfl, fun cell hcell => ?_⟩
  simp only [List.mem_cons, List.mem_flatMap] at hcell
  obtain rfl | rfl | ⟨pair, -, rfl | rfl | hnil⟩ := hcell
  · exact ⟨rfl, rfl⟩
  · exact ⟨rfl, rfl⟩
  · exact ⟨rfl, rfl⟩
  · exact ⟨rfl, rfl⟩
  · cases hnil

theorem instructionCells_tableCells (draft : MethodDraft) (low high : Int32)
    (otherwise : LabelToken) (targets : List LabelToken) :
    draft.InstructionCells (tableCells draft.code.size low high otherwise targets) := by
  refine ⟨.tableSwitch, _, _ :: _ :: _, rfl, fun cell hcell => ?_⟩
  simp only [List.mem_cons, List.mem_map] at hcell
  obtain rfl | rfl | ⟨target, -, rfl⟩ := hcell
  · exact ⟨rfl, rfl⟩
  · exact ⟨rfl, rfl⟩
  · exact ⟨rfl, rfl⟩

/-- The labels that the branches, the exception table and the lines mention. -/
def mentioned (draft : MethodDraft) : List LabelToken :=
  draft.fixups.toList.map Fixup.target ++
    (draft.handlers.toList.flatMap fun handler =>
      [handler.start, handler.stop, handler.handler]) ++
    draft.lines.toList.map (·.2)

/-- The second draft mentions at most these labels more than the first, each of them at the same
place or none, and declares the same. -/
structure Widens (targets : List LabelToken) (draft draft' : MethodDraft) : Prop where
  exceptions : draft'.exceptions = draft.exceptions
  labels : draft'.labels = draft.labels
  keeps : draft.mentioned ⊆ draft'.mentioned
  adds : draft'.mentioned ⊆ draft.mentioned ++ targets

theorem Widens.refl (targets : List LabelToken) (draft : MethodDraft) :
    draft.Widens targets draft where
  exceptions := rfl
  labels := rfl
  keeps := List.Subset.refl _
  adds := List.subset_append_left ..

theorem Widens.trans (h : Widens targets draft draft') (h' : Widens targets draft' draft'') :
    Widens targets draft draft'' where
  exceptions := h'.exceptions.trans h.exceptions
  labels := h'.labels.trans h.labels
  keeps := List.Subset.trans h.keeps h'.keeps
  adds := by
    intro token htoken
    obtain htoken | htoken := List.mem_append.mp (h'.adds htoken)
    · exact h.adds htoken
    · exact List.mem_append_right _ htoken

instance (targets : List LabelToken) : Std.Refl (Widens targets) := ⟨Widens.refl targets⟩

instance (targets : List LabelToken) : IsTrans MethodDraft (Widens targets) :=
  ⟨fun _ _ _ => Widens.trans⟩

theorem Appends.widens {cells : List Cell} (h : draft.Appends draft' cells)
    (hcells : cells.flatMap (·.piece.targets) ⊆ targets) : Widens targets draft draft' := by
  have hmentioned : draft'.mentioned = draft.fixups.toList.map Fixup.target ++
      cells.flatMap (·.piece.targets) ++
      (draft.handlers.toList.flatMap fun handler =>
        [handler.start, handler.stop, handler.handler]) ++ draft.lines.toList.map (·.2) := by
    rw [mentioned, h.fixups, List.map_append, map_target_fixupsFrom, h.same]
  constructor
  case exceptions => rw [h.same]
  case labels => rw [h.same]
  case keeps =>
    intro token htoken
    rw [hmentioned]
    simp only [mentioned, List.mem_append] at htoken ⊢
    tauto
  case adds =>
    intro token htoken
    have hadded := @hcells token
    rw [hmentioned] at htoken
    simp only [mentioned, List.mem_append] at htoken ⊢
    tauto

theorem widens_line (draft : MethodDraft) (number : UInt16) (token : LabelToken) :
    Widens [token] draft { draft with lines := draft.lines.push (number, token) } := by
  have hmentioned : mentioned { draft with lines := draft.lines.push (number, token) } =
      draft.mentioned ++ [token] := by
    simp [mentioned]
  refine ⟨rfl, rfl, ?_, ?_⟩
  · rw [hmentioned]
    exact List.subset_append_left ..
  · rw [hmentioned]
    exact List.Subset.refl _

end MethodDraft

namespace ClassDraft

variable {α β : Type} {draft draft' draft'' : ClassDraft}
  {R R' : MethodDraft → MethodDraft → Prop}

/-- The second draft is the first but for the pool, the bootstrap methods and an edit of the method
that is open. -/
structure Changes (R : MethodDraft → MethodDraft → Prop) (draft draft' : ClassDraft) : Prop where
  same : draft' = { draft with
    pool := draft'.pool
    bootstraps := draft'.bootstraps
    positions := draft'.positions
    method := draft'.method }
  method : Option.Rel R draft.method draft'.method

theorem Changes.of_method [Std.Refl R]
    (same : draft' = { draft with
      pool := draft'.pool, bootstraps := draft'.bootstraps, positions := draft'.positions }) :
    draft.Changes R draft' where
  same := by rw [same]
  method := by
    rw [same]
    cases draft.method with
    | none => exact .none
    | some method => exact .some (Std.Refl.refl method)

theorem Changes.imp (h : draft.Changes R draft') (related : ∀ method method', R method method' →
    R' method method') : draft.Changes R' draft' where
  same := h.same
  method := by
    have hedit := h.method
    generalize draft.method = method, draft'.method = method' at hedit
    cases hedit with
    | none => exact .none
    | some edit => exact .some (related _ _ edit)

/-- An edit after an edit. -/
theorem Changes.comp {R'' : MethodDraft → MethodDraft → Prop} (first : draft.Changes R draft')
    (second : draft'.Changes R' draft'')
    (trans : ∀ method method' method'', R method method' → R' method' method'' →
      R'' method method'') : draft.Changes R'' draft'' where
  same := by rw [second.same, first.same]
  method := by
    have before := first.method
    have after := second.method
    generalize draft.method = method, draft'.method = method', draft''.method = method''
      at before after
    cases before with
    | none =>
        cases after
        exact .none
    | some before =>
        cases after with
        | some after => exact .some (trans _ _ _ before after)

instance [IsTrans MethodDraft R] : IsTrans ClassDraft (Changes R) :=
  ⟨fun _ _ _ first second => first.comp second IsTrans.trans⟩

/-- The edit of a method that is open. -/
theorem Changes.exists_method {method : MethodDraft} (h : draft.Changes R draft')
    (hmethod : draft.method = some method) :
    ∃ method', draft'.method = some method' ∧ R method method' := by
  have hedit := h.method
  rw [hmethod] at hedit
  generalize draft'.method = method' at hedit
  cases hedit with
  | some related => exact ⟨_, rfl, related⟩

/-- The step asks the pool, notes a bootstrap method, edits the method that is open and refuses,
though not because of a label, and does nothing else. -/
inductive Worked (R : MethodDraft → MethodDraft → Prop) : {α : Type} → Step α → Prop where
  | pure {α : Type} (value : α) : Worked R (pure value)
  | refuse {α : Type} {cause : Malformation} (h : cause.isLabel = false) :
      Worked R (refuse cause : Step α)
  | request {α : Type} {ask : Request α} (unlabelled : Unlabelled ask) : Worked R (request ask)
  | note {α : Type} {work : ClassDraft → α × ClassDraft}
      (same : ∀ draft : ClassDraft, (work draft).2 = { draft with
        bootstraps := (work draft).2.bootstraps, positions := (work draft).2.positions }) :
      Worked R (modifyGet work)
  | edit {edit : MethodDraft → MethodDraft}
      (related : ∀ method : MethodDraft, R method (edit method)) : Worked R (editMethod edit)
  | bind {α β : Type} {step : Step α} {next : α → Step β} (first : Worked R step)
      (rest : ∀ value, Worked R (next value)) : Worked R (step >>= next)

/-- Whatever comes of such a step, only the method that is open was edited. -/
theorem Worked.leaves [Std.Refl R] [IsTrans MethodDraft R] {step : Step α}
    (worked : Worked R step) : Leaves (Changes R) step := by
  induction worked with
  | pure value => exact fun draft => .of_method rfl
  | refuse h => exact fun draft => .of_method rfl
  | request unlabelled =>
      intro draft
      unfold ClassDraft.request
      simp only
      split
      · exact .of_method rfl
      · exact .of_method rfl
  | note same => exact leaves_modifyGet fun draft => .of_method (by rw [same draft])
  | edit related =>
      intro draft
      unfold editMethod onMethod
      cases hmethod : draft.method with
      | none => exact .of_method rfl
      | some method =>
          refine ⟨rfl, ?_⟩
          rw [hmethod]
          exact .some (related method)
  | bind _ _ first rest => exact first.bind rest

theorem unlabelled_editMethod (edit : MethodDraft → MethodDraft) :
    Unlabelled (editMethod edit) := by
  intro draft error draft' h
  unfold editMethod onMethod at h
  split at h
  · cases h
    exact Error.unlabelled_malformed rfl
  · cases h

theorem refusesOnly_request {kind : Error → Prop} {ask : Request α}
    (refuses : RefusesOnly kind ask) : RefusesOnly kind (request ask) := by
  intro draft error draft' h
  unfold request at h
  simp only at h
  split at h
  · cases h
  · rename_i hask
    cases h
    exact refuses _ _ _ hask

/-- Such a step is never refused because of a label. -/
theorem Worked.unlabelled {step : Step α} (worked : Worked R step) : Unlabelled step := by
  induction worked with
  | pure value => exact refusesOnly_pure value
  | refuse h => exact refusesOnly_throw (Error.unlabelled_malformed h)
  | request unlabelled => exact refusesOnly_request unlabelled
  | note same =>
      intro draft error draft' h
      cases h
  | edit related => exact unlabelled_editMethod _
  | bind _ _ first rest => exact first.bind rest

/-- The method that is open is the same. -/
def KeepsMethod (draft draft' : ClassDraft) : Prop := draft'.method = draft.method

instance : IsTrans ClassDraft KeepsMethod := ⟨fun _ _ _ first second => second.trans first⟩

theorem keepsMethod_request {α : Type} (ask : Request α) : Leaves KeepsMethod (request ask) := by
  intro draft
  unfold request
  simp only
  split
  · rfl
  · rfl

theorem keepsMethod_headerOf (version : Version) (flags : ClassFlags) (name : String)
    (super : Option String) (interfaces : List String) :
    Leaves KeepsMethod (headerOf version flags name super interfaces) := by
  apply (keepsMethod_request _).bind
  intro thisClass
  apply (keepsMethod_request _).bind
  intro superClass
  apply (keepsMethod_request _).bind
  intro interfaces draft
  rfl

theorem keepsMethod_methodOf (flags : MethodFlags) (name descriptor : String)
    (exceptions : List String) :
    Leaves KeepsMethod (methodOf flags name descriptor exceptions) := by
  apply (keepsMethod_request _).bind
  intro nameSlot
  apply (keepsMethod_request _).bind
  intro descriptorSlot
  split
  · exact fun draft => rfl
  · apply (keepsMethod_request _).bind
    intro classes
    apply (keepsMethod_request _).bind
    intro a draft
    rfl

/-- What is told outside of a method leaves the method that is open alone. -/
theorem keepsMethod_receive {event : Event} (code : event.isCode = false)
    (method : event.beginsMethod = false) (methodEnd : event ≠ .methodEnd) :
    Leaves KeepsMethod (receive event) := by
  cases event with
  | header version flags name super interfaces =>
      rw [receive_header_eq]
      exact (keepsMethod_headerOf version flags name super interfaces).bind fun header =>
        leaves_modify fun draft => rfl
  | source file =>
      apply (keepsMethod_request _).bind
      intro file
      exact (keepsMethod_request _).bind fun source => leaves_modify fun draft => rfl
  | field flags name descriptor value =>
      apply (keepsMethod_request _).bind
      intro name
      apply (keepsMethod_request _).bind
      intro descriptor
      cases value with
      | none => exact leaves_modify fun draft => rfl
      | some value =>
          apply (keepsMethod_request _).bind
          intro slot
          exact (keepsMethod_request _).bind fun a => leaves_modify fun draft => rfl
  | fieldEnd =>
      refine Leaves.bind (leaves_modifyGet fun draft => rfl) fun field => ?_
      cases field with
      | none => exact fun draft => rfl
      | some field => exact leaves_modify fun draft => rfl
  | method => cases method
  | methodEnd => contradiction
  | classEnd => exact fun draft => (closes_classEnd draft).method
  | _ => cases code

/-- The step edits the method that is open last of all: before that it asks the pool, notes a
bootstrap method or refuses, though not because of a label. -/
inductive Prepared (R : MethodDraft → MethodDraft → Prop) : Step Unit → Prop where
  | refuse {cause : Malformation} (h : cause.isLabel = false) : Prepared R (refuse cause)
  | edit {edit : MethodDraft → MethodDraft}
      (related : ∀ method : MethodDraft, R method (edit method)) : Prepared R (editMethod edit)
  | request {α : Type} {ask : Request α} {next : α → Step Unit} (unlabelled : Unlabelled ask)
      (rest : ∀ value, Prepared R (next value)) : Prepared R (request ask >>= next)
  | note {α : Type} {work : ClassDraft → α × ClassDraft} {next : α → Step Unit}
      (same : ∀ draft : ClassDraft, (work draft).2 = { draft with
        bootstraps := (work draft).2.bootstraps, positions := (work draft).2.positions })
      (rest : ∀ value, Prepared R (next value)) : Prepared R (modifyGet work >>= next)

theorem Prepared.worked {step : Step Unit} (prepared : Prepared R step) : Worked R step := by
  induction prepared with
  | refuse h => exact .refuse h
  | edit related => exact .edit related
  | request unlabelled _ ih => exact .bind (.request unlabelled) ih
  | note same _ ih => exact .bind (.note same) ih

/-- Two edits are one. -/
theorem editMethod_bind (first second : MethodDraft → MethodDraft) :
    (editMethod first >>= fun _ => editMethod second) =
      editMethod fun method => second (first method) := by
  funext draft
  simp only [editMethod, onMethod, Bind.bind, EStateM.bind]
  cases draft.method with
  | none => rfl
  | some method => rfl

/-- The instruction is an interface call whose argument slots cannot be counted. -/
def Uncounted (i : Instruction LabelToken) : Prop :=
  ∃ owner name descriptor isInterface,
    i = .method .invokeInterface owner name descriptor isInterface ∧
      Descriptor.argumentSlots? descriptor = none

section Instructions

variable {i : Instruction LabelToken}
  (appends : ∀ {method method' : MethodDraft} {cells : List Cell}, method.Appends method' cells →
    method.InstructionCells cells → cells.flatMap (·.piece.targets) ⊆ i.targets → R method method')
  (line : ∀ {number : UInt16} {token : LabelToken}, i = .line number token →
    ∀ method : MethodDraft, R method { method with lines := method.lines.push (number, token) })

include appends in
theorem prepared_emit (opcode : Opcode) (operands : List UInt8) :
    Prepared R (emit opcode operands) :=
  .edit fun method => appends (method.appends_emit method.code.size opcode operands)
    (method.instructionCells_emit opcode operands) (List.nil_subset _)

include appends line in
/-- All instructions but labels and interface calls whose slots cannot be counted are prepared, for
every relation that holds when the cells of one instruction are appended that mention targets of it,
and when a line is added. -/
theorem prepared_of_appends (hlabel : ∀ token, i ≠ .label token) (hcounted : ¬ Uncounted i) :
    Prepared R (instruction i) := by
  have hemit (opcode : Opcode) (operands : List UInt8) : Prepared R (emit opcode operands) :=
    prepared_emit appends opcode operands
  cases i with
  | simple opcode =>
      rw [instruction]
      split
      · exact hemit ..
      · exact .refuse rfl
  | int opcode operand =>
      rw [instruction, int]
      split
      · exact hemit ..
      · split
        · exact hemit ..
        · split
          · exact hemit ..
          · exact .refuse rfl
  | localVar opcode slot =>
      rw [instruction]
      split
      · apply Prepared.edit
        intro method
        obtain ⟨form, operands, h⟩ := method.exists_localVar_eq opcode opcode.shortForm? slot
        rw [h]
        exact appends (method.appends_emit method.code.size form operands)
          (method.instructionCells_emit form operands) (List.nil_subset _)
      · exact .refuse rfl
  | increment slot delta =>
      apply Prepared.edit
      intro method
      obtain ⟨form, operands, h⟩ := method.exists_increment_eq slot delta
      rw [h]
      exact appends (method.appends_emit method.code.size form operands)
        (method.instructionCells_emit form operands) (List.nil_subset _)
  | field opcode owner name descriptor =>
      exact .request (Request.unlabelled_field owner name descriptor) fun _ => hemit ..
  | method opcode owner name descriptor isInterface =>
      apply Prepared.request (Request.unlabelled_method owner name descriptor isInterface)
      intro member
      split
      · rename_i hinterface
        subst hinterface
        cases hslots : Descriptor.argumentSlots? descriptor with
        | none => exact absurd ⟨owner, name, descriptor, isInterface, rfl, hslots⟩ hcounted
        | some slots =>
            -- The two edits of a call are one, so a refusal cannot come between them.
            rw [emit, editMethod_bind]
            apply Prepared.edit
            intro method
            have hfirst :=
              method.appends_emit method.code.size .invokeInterface (BigEndian.u16 member)
            refine appends
              (hfirst.trans (MethodDraft.appends_push _ .invokeInterface method.code.size _))
              ⟨.invokeInterface, BigEndian.u16 member, _, rfl, ?_⟩ (List.nil_subset _)
            intro cell hcell
            obtain rfl := List.mem_singleton.mp hcell
            exact ⟨rfl, rfl⟩
      · have hdone : (emit opcode (BigEndian.u16 member) >>= fun _ => pure ()) =
            emit opcode (BigEndian.u16 member) := bind_pure _
        rw [hdone]
        exact hemit ..
  | invokeDynamic name descriptor handle arguments =>
      rw [instruction, bootstrap]
      simp only [bind_assoc]
      refine .request (Request.unlabelled_methodHandle handle) fun method =>
        .request (Request.unlabelled_each Request.unlabelled_literal arguments) fun slots =>
          .note (fun draft => ?_) fun position =>
            .request (Request.unlabelled_callSite position name descriptor) fun _ => hemit ..
      split
      · rfl
      · rfl
  | type opcode name =>
      exact .request (Request.unlabelled_classNamed name) fun _ => hemit ..
  | load literal =>
      apply Prepared.request (Request.unlabelled_literal literal)
      intro slot
      split
      · exact hemit ..
      · split
        · exact hemit ..
        · exact hemit ..
  | jump opcode target =>
      rw [instruction]
      split
      · apply Prepared.edit
        intro method
        refine appends (method.appends_jump opcode target) ⟨opcode, [], _, rfl, ?_⟩
          (List.Subset.refl _)
        intro cell hcell
        obtain rfl := List.mem_singleton.mp hcell
        exact ⟨rfl, rfl⟩
      · exact .refuse rfl
  | lookupSwitch otherwise keys targets =>
      rw [instruction]
      split
      · exact .edit fun method =>
          appends (method.appends_lookupSwitch otherwise (keys.zip targets))
            (method.instructionCells_pairCells otherwise (keys.zip targets))
            (targets_pairCells_subset ..)
      · exact .refuse rfl
  | tableSwitch low high otherwise targets =>
      rw [instruction]
      split
      · exact .refuse rfl
      · apply Prepared.edit
        intro method
        apply appends (method.appends_tableSwitch otherwise low high targets)
          (method.instructionCells_tableCells low high otherwise targets)
        rw [targets_tableCells]
        exact List.Subset.refl _
  | multiNewArray descriptor dimensions =>
      exact .request (Request.unlabelled_classNamed descriptor) fun _ => hemit ..
  | label token => exact absurd rfl (hlabel token)
  | line number token => exact .edit (line rfl)

include appends line in
/-- All instructions but labels are worked, for every such relation. -/
theorem worked_of_appends (hlabel : ∀ token, i ≠ .label token) : Worked R (instruction i) := by
  by_cases hcounted : Uncounted i
  · obtain ⟨owner, name, descriptor, isInterface, rfl, hslots⟩ := hcounted
    apply Worked.bind (.request (Request.unlabelled_method owner name descriptor isInterface))
    intro member
    apply ((prepared_emit appends .invokeInterface (BigEndian.u16 member)).worked).bind
    intro _
    rw [if_pos rfl, hslots]
    exact .refuse rfl
  · exact (prepared_of_appends appends line hlabel hcounted).worked

end Instructions

open MethodDraft in
/-- An instruction that is no label mentions its targets and changes no label. -/
theorem worked_instruction {i : Instruction LabelToken} (hlabel : ∀ token, i ≠ .label token) :
    Worked (Widens i.targets) (instruction i) := by
  apply worked_of_appends _ _ hlabel
  · exact fun appends _ subset => appends.widens subset
  · rintro number token rfl
    exact fun method => method.widens_line number token

end ClassDraft

/-- The label that an event places. -/
def Event.placed : Event → List LabelToken
  | instruction (.label token) => [token]
  | _ => []

theorem isCode_events (listing : Listing LabelToken) :
    ∀ event ∈ listing.events, event.isCode = true := by
  intro event hevent
  simp only [Listing.events, List.mem_append, List.mem_map, List.mem_singleton] at hevent
  obtain ⟨i, -, rfl⟩ | ⟨block, -, rfl⟩ | rfl := hevent
  · rfl
  · rfl
  · rfl

namespace MethodDraft

variable {method method' method'' : MethodDraft} {placed more targets others : List LabelToken}

/-- The second draft has places for some labels that had none in the first, and mentions at most
some others more than the first. -/
structure Places (placed targets : List LabelToken) (method method' : MethodDraft) : Prop where
  exceptions : method'.exceptions = method.exceptions
  nodup : placed.Nodup
  fresh : ∀ token ∈ placed, token ∉ method.labels
  labels : ∀ token, token ∈ method'.labels ↔ token ∈ method.labels ∨ token ∈ placed
  keeps : method.mentioned ⊆ method'.mentioned
  adds : method'.mentioned ⊆ method.mentioned ++ targets

theorem Widens.places (h : method.Widens targets method') : method.Places [] targets method' where
  exceptions := h.exceptions
  nodup := List.nodup_nil
  fresh := fun _ htoken => absurd htoken List.not_mem_nil
  labels := fun token => by rw [h.labels]; simp
  keeps := h.keeps
  adds := h.adds

theorem Places.refl (method : MethodDraft) : method.Places [] [] method :=
  (Widens.refl [] method).places

theorem Places.trans (first : method.Places placed targets method')
    (second : method'.Places more others method'') :
    method.Places (placed ++ more) (targets ++ others) method'' where
  exceptions := second.exceptions.trans first.exceptions
  nodup := by
    rw [List.nodup_append']
    refine ⟨first.nodup, second.nodup, fun token hfirst hsecond => ?_⟩
    exact second.fresh token hsecond ((first.labels token).mpr (.inr hfirst))
  fresh := by
    intro token htoken hplaced
    obtain htoken | htoken := List.mem_append.mp htoken
    · exact first.fresh token htoken hplaced
    · exact second.fresh token htoken ((first.labels token).mpr (.inl hplaced))
  labels := by
    intro token
    rw [second.labels, first.labels, List.mem_append, or_assoc]
  keeps := List.Subset.trans first.keeps second.keeps
  adds := by
    intro token htoken
    have hfirst := @first.adds token
    have hsecond := second.adds htoken
    simp only [List.mem_append] at hfirst hsecond ⊢
    tauto

theorem places_place {token : LabelToken} (h : token ∉ method.labels) :
    method.Places [token] [token] (method.place token).2 where
  exceptions := rfl
  nodup := List.nodup_singleton token
  fresh := by
    intro other hother
    rwa [List.mem_singleton.mp hother]
  labels := by
    intro other
    rw [place, Std.TreeMap.mem_insert, List.mem_singleton, or_comm,
      Std.LawfulEqCmp.compare_eq_iff_eq, eq_comm]
  keeps := List.Subset.refl _
  adds := List.subset_append_left ..

end MethodDraft

namespace ClassDraft

open MethodDraft

variable {draft draft' : ClassDraft} {events : List Event}

theorem worked_tryBlock (block : TryBlock LabelToken) :
    Worked (Widens block.targets) (receive (.tryBlock block)) := by
  apply Worked.bind (.request (Request.unlabelled_optionalClass block.exception))
  intro slot
  apply Worked.edit
  intro method
  have hmentioned (token : LabelToken) : token ∈ mentioned { method with
      hasCode := true
      handlers := method.handlers.push ⟨block.start, block.stop, block.handler, slot⟩ } ↔
        token ∈ method.mentioned ∨ token ∈ block.targets := by
    simp [mentioned, TryBlock.targets, or_assoc, or_comm]
  refine ⟨rfl, rfl, fun token htoken => ?_, fun token htoken => ?_⟩
  · exact (hmentioned token).mpr (.inl htoken)
  · exact List.mem_append.mpr ((hmentioned token).mp htoken)

theorem worked_maxs (stack locals : UInt16) : Worked (Widens []) (receive (.maxs stack locals)) :=
  .edit fun _ => ⟨rfl, rfl, List.Subset.refl _, List.subset_append_left ..⟩

/-- A label is placed unless it has a place. -/
theorem place_eq {method : MethodDraft} (hmethod : draft.method = some method)
    (token : LabelToken) :
    place token draft =
      if token ∈ method.labels then
        .error (.malformed (.tokenPlacedTwice token))
          { draft with method := some (method.place token).2 }
      else .ok () { draft with method := some (method.place token).2 } := by
  unfold place onMethod
  simp only [Bind.bind, EStateM.bind, hmethod, MethodDraft.place, ← Std.TreeMap.contains_iff_mem]
  cases method.labels.contains token with
  | true => rfl
  | false => rfl

/-- What an event of the code of a method does if it is taken. -/
theorem changes_of_ok {event : Event} (code : event.isCode = true)
    (h : receive event draft = .ok () draft') :
    draft.Changes (Places event.placed event.targets) draft' := by
  cases event with
  | instruction i =>
      by_cases hlabel : ∃ token, i = .label token
      · obtain ⟨token, rfl⟩ := hlabel
        cases hmethod : draft.method with
        | none =>
            simp only [receive, instruction, place, onMethod, Bind.bind, EStateM.bind, hmethod] at h
            cases h
        | some method =>
            rw [receive, instruction, place_eq hmethod] at h
            split at h
            · cases h
            · rename_i fresh
              cases h
              refine ⟨rfl, ?_⟩
              rw [hmethod]
              exact .some (places_place fresh)
      · have hplaced : Event.placed (.instruction i) = [] := by
          cases i with
          | label token => exact absurd ⟨token, rfl⟩ hlabel
          | _ => rfl
        rw [hplaced]
        have worked := worked_instruction fun token heq => hlabel ⟨token, heq⟩
        exact (worked.leaves.ok h).imp fun _ _ => Widens.places
  | tryBlock block => exact ((worked_tryBlock block).leaves.ok h).imp fun _ _ => Widens.places
  | maxs stack locals => exact ((worked_maxs stack locals).leaves.ok h).imp fun _ _ => Widens.places
  | _ => cases code

/-- What the events of the code of a method do if all of them are taken. -/
theorem changes_of_takes (code : ∀ event ∈ events, event.isCode = true)
    (h : Receiver.Takes receive events draft draft') :
    draft.Changes (Places (events.flatMap Event.placed) (events.flatMap Event.targets)) draft' := by
  induction events generalizing draft with
  | nil =>
      cases h
      refine ⟨rfl, ?_⟩
      cases draft'.method with
      | none => exact .none
      | some method => exact .some (Places.refl method)
  | cons event events ih =>
      obtain ⟨first, rest⟩ := List.forall_mem_cons.mp code
      obtain ⟨mid, hfirst, hrest⟩ := Receiver.takes_cons_iff.mp h
      rw [List.flatMap_cons, List.flatMap_cons]
      exact (changes_of_ok first hfirst).comp (ih rest hrest) fun _ _ _ => Places.trans

end ClassDraft

end JavaClass
