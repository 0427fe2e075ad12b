import JavaClass.Assembly.Parts
import JavaClass.Proofs.Bytes.Reading
import JavaClass.Proofs.Event.Tokens

/-!
# Refusals that show no tokens

What is asked of a constant pool, and what is encoded without a method, knows
nothing of labels. When it is refused, the error is the same whatever the tokens
are.
-/

namespace JavaClass

variable {α β : Type}

/-- The error of a result, if it is one, shows no token. -/
def PlainResult (result : Except Error α) : Prop :=
  ∀ (f : LabelToken → LabelToken) (error : Error), result = .error error →
    error.mapTokens f = error

theorem plain_ok (value : α) : PlainResult (.ok value : Except Error α) := by
  intro f error h
  cases h

theorem plain_error {error : Error} (h : ∀ f, error.mapTokens f = error) :
    PlainResult (.error error : Except Error α) := by
  intro f other heq
  cases heq
  exact h f

theorem PlainResult.bind {result : Except Error α} {next : α → Except Error β}
    (first : PlainResult result) (rest : ∀ value, PlainResult (next value)) :
    PlainResult (result >>= next) := by
  cases result with
  | error error => exact plain_error fun f => first f error rfl
  | ok value => exact rest value

theorem PlainResult.map {result : Except Error α} (plain : PlainResult result) (g : α → β) :
    PlainResult (result.map g) := by
  cases result with
  | error error => exact plain_error fun f => plain f error rfl
  | ok value => exact plain_ok _

theorem PlainResult.mapM {encode : α → Except Error β} (plain : ∀ item, PlainResult (encode item))
    (items : List α) : PlainResult (items.mapM encode) := by
  induction items with
  | nil => exact plain_ok []
  | cons item items ih =>
      rw [List.mapM_cons]
      apply (plain item).bind
      intro first
      apply ih.bind
      intro others
      exact plain_ok _

theorem plain_encodeTable {encode : α → Except Error (List UInt8)}
    (plain : ∀ entry, PlainResult (encode entry)) (entries : List α) :
    PlainResult (encodeTable encode entries) := by
  unfold encodeTable
  split
  · exact plain_error fun _ => rfl
  · exact (PlainResult.mapM plain entries).map _

theorem plain_encodeSlots (slots : List UInt16) : PlainResult (encodeSlots slots) :=
  plain_encodeTable (fun _ => plain_ok _) slots

theorem Bootstrap.plain_encode (entry : Bootstrap) : PlainResult entry.encode :=
  (plain_encodeSlots entry.arguments).map _

theorem EncodedMember.plain_encode (member : EncodedMember) : PlainResult member.encode :=
  (plain_encodeTable (fun _ => plain_ok _) member.attributes).map _

theorem Constant.plain_encode (constant : Constant) : PlainResult constant.encode := by
  apply PlainResult.map
  cases constant with
  | utf8 text =>
      simp only [contents]
      split
      · exact plain_error fun _ => rfl
      · exact plain_ok _
  | _ => exact plain_ok _

theorem ConstantPool.plain_encode (pool : ConstantPool) : PlainResult pool.encode :=
  (PlainResult.mapM Constant.plain_encode pool.entries.toList).map _

theorem ClassParts.plain_encode (parts : ClassParts) : PlainResult parts.encode := by
  apply parts.pool.plain_encode.bind
  intro pool
  apply (plain_encodeSlots parts.header.interfaces).bind
  intro interfaces
  apply (plain_encodeTable EncodedMember.plain_encode parts.fields).bind
  intro fields
  apply (plain_encodeTable EncodedMember.plain_encode parts.methods).bind
  intro methods
  apply (plain_encodeTable (fun _ => plain_ok _) parts.attributes).bind
  intro attributes
  exact plain_ok _

namespace ConstantPool.Request

/-- A request mirrors itself: when it is refused, the error shows no token. -/
def Plain (ask : Request α) : Prop :=
  ∀ f : LabelToken → LabelToken, Mirrors f Eq ask ask

theorem Plain.bind {ask : Request α} {next : α → Request β} (first : Plain ask)
    (rest : ∀ value, Plain (next value)) : Plain (ask >>= next) :=
  fun f => (first f).bind fun value => rest value f

theorem plain_pure (value : α) : Plain (pure value) :=
  fun _ => mirrors_pure value

theorem plain_intern (constant : Constant) : Plain (intern constant) := by
  rintro f pool _ rfl
  unfold intern
  cases hencode : constant.encode with
  | error error =>
      have outcome : SameOutcome f Eq (.error error pool : EStateM.Result Error ConstantPool UInt16)
          (.error (error.mapTokens f) pool) := .error rfl
      rwa [constant.plain_encode f error hencode] at outcome
  | ok key =>
      simp only
      split
      · exact .ok rfl
      · split
        · exact .error rfl
        · exact .ok rfl

theorem plain_text (text : String) : Plain (Request.text text) :=
  plain_intern _

theorem plain_classNamed (name : String) : Plain (classNamed name) :=
  (plain_text name).bind fun _ => plain_intern _

theorem plain_optionalClass (name : Option String) : Plain (optionalClass name) := by
  cases name with
  | none => exact plain_pure 0
  | some name => exact plain_classNamed name

theorem plain_nameAndType (name descriptor : String) : Plain (nameAndType name descriptor) :=
  (plain_text name).bind fun _ => (plain_text descriptor).bind fun _ => plain_intern _

theorem plain_field (owner name descriptor : String) : Plain (field owner name descriptor) :=
  (plain_classNamed owner).bind fun _ =>
    (plain_nameAndType name descriptor).bind fun _ => plain_intern _

theorem plain_method (owner name descriptor : String) (isInterface : Bool) :
    Plain (method owner name descriptor isInterface) :=
  (plain_classNamed owner).bind fun _ =>
    (plain_nameAndType name descriptor).bind fun _ => plain_intern _

theorem plain_methodHandle (handle : MethodHandle) : Plain (methodHandle handle) := by
  unfold methodHandle
  split
  · exact (plain_field _ _ _).bind fun _ => plain_intern _
  · exact (plain_method _ _ _ _).bind fun _ => plain_intern _

theorem plain_callSite (bootstrap : UInt16) (name descriptor : String) :
    Plain (callSite bootstrap name descriptor) :=
  (plain_nameAndType name descriptor).bind fun _ => plain_intern _

theorem plain_literal (literal : Literal) : Plain (Request.literal literal) := by
  cases literal with
  | int value => exact plain_intern (.integer value)
  | float bits => exact plain_intern (.float bits)
  | long value => exact plain_intern (.long value)
  | double bits => exact plain_intern (.double bits)
  | string contents => exact (plain_text contents).bind fun _ => plain_intern _
  | methodType descriptor => exact (plain_text descriptor).bind fun _ => plain_intern _
  | classRef name => exact plain_classNamed name
  | methodHandle handle => exact plain_methodHandle handle

theorem plain_each {request : α → Request UInt16} (plain : ∀ item, Plain (request item))
    (items : List α) : Plain (each request items) := by
  unfold each
  generalize ([] : List UInt16) = done
  induction items generalizing done with
  | nil => exact plain_pure _
  | cons item rest ih =>
      apply (plain item).bind
      intro slot
      exact ih (slot :: done)

/-- The name of an attribute is asked for before its contents are looked at. -/
theorem mirrors_named {f : LabelToken → LabelToken} (name : String)
    {contents contents' : Except Error (List UInt8)}
    (h : contents' = contents.mapError (Error.mapTokens f)) :
    Mirrors f Eq (named name contents) (named name contents') := by
  rw [h]
  apply (plain_text name f).bind
  intro slot
  cases contents with
  | ok contents => exact mirrors_pure _
  | error error => exact mirrors_throw rfl

theorem plain_named (name : String) {contents : Except Error (List UInt8)}
    (plain : PlainResult contents) : Plain (named name contents) := by
  intro f
  apply mirrors_named
  cases contents with
  | ok contents => rfl
  | error error => exact congrArg _ (plain f error rfl).symm

end ConstantPool.Request

end JavaClass
