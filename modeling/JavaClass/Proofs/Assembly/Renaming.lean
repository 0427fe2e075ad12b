import JavaClass.Proofs.Assembly.Entries
import JavaClass.Proofs.Constant.Refusals
import JavaClass.Proofs.Event.Story

/-!
# Other tokens for the same labels

Which tokens stand for the labels of a method makes no difference to the class
file, as long as different labels have different tokens. Nor does it make a
difference whether handles and literals are in normal form.

## Implementation notes

Two methods under construction are compared, one of which has received other
tokens. Whatever the first does, the second does with the same result, and where
the first is refused the second is too. Tokens show in errors, so the errors are
the same up to the tokens in them.
-/

namespace JavaClass

open ConstantPool

variable {f : LabelToken → LabelToken}

theorem mapError_bind {ε α β : Type} (g : ε → ε) (result : Except ε α) (next : α → Except ε β) :
    (result >>= next).mapError g = result.mapError g >>= fun value => (next value).mapError g := by
  cases result with
  | error error => rfl
  | ok value => rfl

theorem mapM_map_mapError {ε α β γ : Type} {g : ε → ε} {h : α → β} {encode : α → Except ε γ}
    {encode' : β → Except ε γ} (same : ∀ item, encode' (h item) = (encode item).mapError g)
    (items : List α) : (items.map h).mapM encode' = (items.mapM encode).mapError g := by
  induction items with
  | nil => rfl
  | cons item items ih =>
      simp only [List.map_cons, List.mapM_cons, same, ih, mapError_bind]
      rfl

def Fixup.map (f : LabelToken → LabelToken) (fixup : Fixup) : Fixup :=
  { fixup with target := f fixup.target }

def DraftHandler.map (f : LabelToken → LabelToken) (handler : DraftHandler) : DraftHandler :=
  { handler with start := f handler.start, stop := f handler.stop, handler := f handler.handler }

namespace MethodDraft

/-- The other method has received other tokens. -/
structure Renamed (f : LabelToken → LabelToken) (draft other : MethodDraft) : Prop where
  same : other = { draft with
    labels := other.labels
    fixups := draft.fixups.map (Fixup.map f)
    lines := draft.lines.map fun line => (line.1, f line.2)
    handlers := draft.handlers.map (DraftHandler.map f) }
  labels : ∀ token, other.labels[f token]? = draft.labels[token]?

variable {draft other : MethodDraft}

theorem mirrors_settled {α : Type} {result result' : Except Error α}
    (h : result' = result.mapError (Error.mapTokens f)) :
    Mirrors f Eq (settled result) (settled result') := by
  rw [h]
  cases result with
  | error error => exact mirrors_throw rfl
  | ok value => exact mirrors_pure value

theorem renamed_start (f : LabelToken → LabelToken) (flags : MethodFlags)
    (name descriptor : UInt16) (exceptions : Option EncodedAttribute) :
    Renamed f (start flags name descriptor exceptions) (start flags name descriptor exceptions) :=
  ⟨by simp [start], by simp [start]⟩

namespace Renamed

variable (renamed : draft.Renamed f other)

include renamed

theorem push (bytes : List UInt8) : (draft.push bytes).Renamed f (other.push bytes) := by
  refine ⟨?_, renamed.labels⟩
  rw [renamed.same]
  rfl

theorem emit (opcode : Opcode) (operands : List UInt8) :
    (draft.emit opcode operands).Renamed f (other.emit opcode operands) := by
  refine ⟨?_, renamed.labels⟩
  rw [renamed.same]
  rfl

theorem size_eq : other.code.size = draft.code.size := by
  rw [renamed.same]

theorem reserve (opcode : Opcode) (origin : Nat) (wide : Bool) (target : LabelToken) :
    (draft.reserve opcode origin wide target).Renamed f
      (other.reserve opcode origin wide (f target)) := by
  refine ⟨?_, renamed.labels⟩
  rw [renamed.same]
  simp [MethodDraft.reserve, Fixup.map]

theorem jump (opcode : Opcode) (target : LabelToken) :
    (draft.jump opcode target).Renamed f (other.jump opcode (f target)) := by
  unfold MethodDraft.jump
  rw [renamed.size_eq]
  exact (renamed.emit _ _).reserve ..

theorem switch (opcode : Opcode) (otherwise : LabelToken) :
    (draft.switch opcode otherwise).Renamed f (other.switch opcode (f otherwise)) := by
  unfold MethodDraft.switch
  rw [renamed.size_eq]
  exact (renamed.emit _ _).reserve ..

theorem foldl {α β : Type} {g : α → β} {step : MethodDraft → α → MethodDraft}
    {step' : MethodDraft → β → MethodDraft}
    (hstep : ∀ draft other item, Renamed f draft other →
      Renamed f (step draft item) (step' other (g item))) (items : List α) :
    Renamed f (items.foldl step draft) ((items.map g).foldl step' other) := by
  induction items generalizing draft other with
  | nil => exact renamed
  | cons item items ih => exact ih (hstep draft other item renamed)

theorem lookupSwitch (otherwise : LabelToken) (keys : List Int32) (targets : List LabelToken) :
    (draft.lookupSwitch otherwise (keys.zip targets)).Renamed f
      (other.lookupSwitch (f otherwise) (keys.zip (targets.map f))) := by
  unfold MethodDraft.lookupSwitch
  rw [List.zip_map_right, renamed.size_eq, List.length_map]
  refine ((renamed.switch _ otherwise).push _).foldl ?_ _
  rintro draft other ⟨key, target⟩ h
  exact (h.push _).reserve ..

theorem tableSwitch (low high : Int32) (otherwise : LabelToken) (targets : List LabelToken) :
    (draft.tableSwitch low high otherwise targets).Renamed f
      (other.tableSwitch low high (f otherwise) (targets.map f)) := by
  unfold MethodDraft.tableSwitch
  rw [renamed.size_eq]
  refine ((renamed.switch _ otherwise).push _).foldl ?_ _
  intro draft other target h
  exact h.reserve ..

theorem localVar (opcode : Opcode) (short : Option Opcode) (slot : UInt16) :
    (draft.localVar opcode short slot).Renamed f (other.localVar opcode short slot) := by
  unfold MethodDraft.localVar
  cases short with
  | none =>
      simp only
      split
      · exact renamed.emit ..
      · exact renamed.emit ..
  | some short =>
      simp only
      split
      · exact renamed.emit ..
      · split
        · exact renamed.emit ..
        · exact renamed.emit ..

theorem increment (slot : UInt16) (delta : Int16) :
    (draft.increment slot delta).Renamed f (other.increment slot delta) := by
  unfold MethodDraft.increment
  split
  · exact renamed.emit ..
  · exact renamed.emit ..

theorem line (number : UInt16) (token : LabelToken) :
    Renamed f { draft with lines := draft.lines.push (number, token) }
      { other with lines := other.lines.push (number, f token) } := by
  refine ⟨?_, renamed.labels⟩
  rw [renamed.same]
  simp

theorem handler (handler : DraftHandler) :
    Renamed f { draft with hasCode := true, handlers := draft.handlers.push handler }
      { other with hasCode := true, handlers := other.handlers.push (handler.map f) } := by
  refine ⟨?_, renamed.labels⟩
  rw [renamed.same]
  simp

theorem maxs (stack locals : UInt16) :
    Renamed f { draft with hasCode := true, maxStack := stack, maxLocals := locals }
      { other with hasCode := true, maxStack := stack, maxLocals := locals } := by
  refine ⟨?_, renamed.labels⟩
  rw [renamed.same]

theorem place (inj : Function.Injective f) (token : LabelToken) :
    (draft.place token).1 = (other.place (f token)).1 ∧
      (draft.place token).2.Renamed f (other.place (f token)).2 := by
  unfold MethodDraft.place
  constructor
  · simp only [Std.TreeMap.contains_eq_isSome_getElem?, renamed.labels]
  · refine ⟨?_, fun other' => ?_⟩
    · rw [renamed.same]
    · simp only [Std.TreeMap.getElem?_insert, Std.compare_eq_iff_eq, inj.eq_iff, renamed.labels,
        renamed.size_eq]

theorem offset (token : LabelToken) :
    other.offset (f token) = (draft.offset token).mapError (Error.mapTokens f) := by
  rw [MethodDraft.offset, MethodDraft.offset, renamed.labels]
  cases draft.labels[token]? with
  | none => rfl
  | some offset => rfl

theorem offsetBytes (token : LabelToken) :
    other.offsetBytes (f token) = (draft.offsetBytes token).mapError (Error.mapTokens f) := by
  rw [MethodDraft.offsetBytes, MethodDraft.offsetBytes, renamed.offset]
  cases draft.offset token with
  | error error => rfl
  | ok n => rfl

theorem patch (code : Array UInt8) (fixup : Fixup) :
    other.patch code (fixup.map f) = (draft.patch code fixup).mapError (Error.mapTokens f) := by
  rw [MethodDraft.patch, MethodDraft.patch, mapError_bind, Fixup.map, renamed.offset]
  apply congrArg
  funext target
  simp only
  split
  · rfl
  · split
    · rfl
    · rfl

theorem patchedCode :
    other.patchedCode = draft.patchedCode.mapError (Error.mapTokens f) := by
  have hfixups : other.fixups.toList = draft.fixups.toList.map (Fixup.map f) := by
    rw [renamed.same]
    simp
  have hcode : other.code = draft.code := by rw [renamed.same]
  rw [MethodDraft.patchedCode, MethodDraft.patchedCode, hcode]
  split
  · rfl
  · rw [← Array.foldlM_toList, ← Array.foldlM_toList, hfixups]
    generalize draft.code = start, draft.fixups.toList = fixups
    induction fixups generalizing start with
    | nil => rfl
    | cons fixup fixups ih =>
        rw [List.map_cons, List.foldlM_cons, List.foldlM_cons, mapError_bind, renamed.patch]
        apply congrArg
        funext next
        exact ih next

theorem encodeHandler (handler : DraftHandler) :
    other.encodeHandler (handler.map f) =
      (draft.encodeHandler handler).mapError (Error.mapTokens f) := by
  simp only [MethodDraft.encodeHandler, DraftHandler.map, renamed.offsetBytes, mapError_bind]
  rfl

theorem encodeLine (line : UInt16 × LabelToken) :
    other.encodeLine (line.1, f line.2) =
      (draft.encodeLine line).mapError (Error.mapTokens f) := by
  simp only [MethodDraft.encodeLine, renamed.offsetBytes, mapError_bind]
  rfl

theorem encodeHandlers :
    other.handlers.toList.mapM other.encodeHandler =
      (draft.handlers.toList.mapM draft.encodeHandler).mapError (Error.mapTokens f) := by
  have hhandlers : other.handlers.toList = draft.handlers.toList.map (DraftHandler.map f) := by
    rw [renamed.same]
    simp
  rw [hhandlers]
  exact mapM_map_mapError renamed.encodeHandler _

theorem encodeLines :
    other.lines.toList.mapM other.encodeLine =
      (draft.lines.toList.mapM draft.encodeLine).mapError (Error.mapTokens f) := by
  have hlines : other.lines.toList = draft.lines.toList.map fun line => (line.1, f line.2) := by
    rw [renamed.same]
    simp
  rw [hlines]
  exact mapM_map_mapError renamed.encodeLine _

theorem lineAttributes : Mirrors f Eq draft.lineAttributes other.lineAttributes := by
  have hempty : other.lines.isEmpty = draft.lines.isEmpty := by
    rw [renamed.same]
    simp [Array.isEmpty]
  rw [MethodDraft.lineAttributes, MethodDraft.lineAttributes, hempty]
  split
  · exact mirrors_pure []
  · apply (mirrors_settled renamed.encodeLines).bind
    intro lines
    apply (Request.plain_named _ (plain_encodeTable plain_ok lines) f).bind
    intro a
    exact mirrors_pure _

theorem codeAttribute (code : Array UInt8) :
    Mirrors f Eq (draft.codeAttribute code) (other.codeAttribute code) := by
  have hstack : other.maxStack = draft.maxStack := by rw [renamed.same]
  have hlocals : other.maxLocals = draft.maxLocals := by rw [renamed.same]
  rw [MethodDraft.codeAttribute, MethodDraft.codeAttribute, hstack, hlocals]
  apply (mirrors_settled renamed.encodeHandlers).bind
  intro handlers
  apply renamed.lineAttributes.bind
  intro attributes
  apply Request.plain_named
  apply (plain_encodeTable plain_ok handlers).bind
  intro handlers
  apply (plain_encodeTable (fun _ => plain_ok _) attributes).bind
  intro attributes
  exact plain_ok _

/-- A method with other tokens is settled in the same way. -/
theorem finish : Mirrors f Eq draft.finish other.finish := by
  have hfields : other.hasCode = draft.hasCode ∧ other.flags = draft.flags ∧
      other.name = draft.name ∧ other.descriptor = draft.descriptor ∧
        other.exceptions = draft.exceptions := by
    rw [renamed.same]
    exact ⟨rfl, rfl, rfl, rfl, rfl⟩
  obtain ⟨hhasCode, hflags, hname, hdescriptor, hexceptions⟩ := hfields
  rw [MethodDraft.finish, MethodDraft.finish, hhasCode, hflags, hname, hdescriptor, hexceptions]
  apply (mirrors_settled renamed.patchedCode).bind
  intro code
  split
  · apply (renamed.codeAttribute code).bind
    intro a
    exact mirrors_pure _
  · exact mirrors_pure _

end Renamed

end MethodDraft

end JavaClass
