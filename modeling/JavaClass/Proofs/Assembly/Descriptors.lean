import Mathlib.Data.List.TakeWhile
import JavaClass.Proofs.Assembly.Effects

/-!
# Arguments of interface calls

The descriptor of a method opens with the types of its arguments. What an
interface call announces is counted from them: one slot for the receiver, two
for a long or a double, and one for each other argument.

## Implementation notes

The scanner splits at the first closing parenthesis before it looks at the
types. So the parenthesis that should close the arguments may be missing, and a
class whose name has one in it cannot be the type of an argument.
-/

namespace JavaClass

/-- A type whose values are no references. -/
inductive BaseType where
  | byte
  | char
  | double
  | float
  | int
  | long
  | short
  | boolean
  deriving DecidableEq, Repr

namespace BaseType

/-- The letter that stands for a type. -/
def letter : BaseType → Char
  | byte => 'B'
  | char => 'C'
  | double => 'D'
  | float => 'F'
  | int => 'I'
  | long => 'J'
  | short => 'S'
  | boolean => 'Z'

/-- How many argument slots a value takes. -/
def slots : BaseType → Nat
  | double => 2
  | long => 2
  | _ => 1

end BaseType

/-- What stands between the letter of a class type and the semicolon that ends it. -/
structure ClassName where
  chars : List Char
  semicolon_notMem : ';' ∉ chars

/-- The type of an argument. -/
inductive FieldType where
  | base (type : BaseType)
  | object (name : ClassName)
  | array (element : FieldType)

namespace FieldType

/-- The descriptor of a type. -/
def text : FieldType → List Char
  | base type => [type.letter]
  | object name => 'L' :: (name.chars ++ [';'])
  | array element => '[' :: element.text

/-- How many argument slots a value takes. -/
def slots : FieldType → Nat
  | base type => type.slots
  | _ => 1

theorem text_object_append (name : ClassName) (rest : List Char) :
    (object name).text ++ rest = 'L' :: (name.chars ++ ';' :: rest) := by
  simp [text]

end FieldType

namespace Descriptor

/-- The descriptors of types one after the other. -/
def texts (types : List FieldType) : List Char := types.flatMap FieldType.text

/-- The argument slots of a call with its receiver. -/
def slotCount (types : List FieldType) : Nat := 1 + (types.map FieldType.slots).sum

/-- The descriptor has these arguments between its parentheses. -/
def Encloses (descriptor : String) (types : List FieldType) : Prop :=
  ∃ rest, descriptor.toList = '(' :: (texts types ++ ')' :: rest)

/-- The descriptor opens with these arguments, and the first closing parenthesis, if there is one,
stands right behind them. -/
structure Opens (descriptor : String) (types : List FieldType) : Prop where
  inner : ')' ∉ texts types
  ends : descriptor.toList = '(' :: texts types ∨ Encloses descriptor types

variable {c : Char} {cs before after rest : List Char} {n m : Nat}

/-- A list is cut before the first place of a character in only one way. -/
theorem cut_eq_iff :
    cs.takeWhile (· ≠ c) = before ∧ cs.dropWhile (· ≠ c) = after ↔
      cs = before ++ after ∧ c ∉ before ∧ (after = [] ∨ ∃ more, after = c :: more) := by
  constructor
  · rintro ⟨rfl, rfl⟩
    refine ⟨List.takeWhile_append_dropWhile.symm, fun hmem => ?_, ?_⟩
    · simpa using List.mem_takeWhile_imp hmem
    · have hnot := List.head?_dropWhile_not (fun d => decide (d ≠ c)) cs
      cases hafter : cs.dropWhile fun d => decide (d ≠ c) with
      | nil => exact .inl rfl
      | cons first more =>
          rw [hafter] at hnot
          obtain rfl : first = c := by simpa using hnot
          exact .inr ⟨more, rfl⟩
  · rintro ⟨rfl, hbefore, hafter⟩
    have hall (d : Char) (hd : d ∈ before) : decide (d ≠ c) = true := by
      rw [decide_eq_true_eq]
      rintro rfl
      exact hbefore hd
    rw [List.takeWhile_append_of_pos hall, List.dropWhile_append_of_pos hall]
    obtain rfl | ⟨more, rfl⟩ := hafter
    · simp
    · simp

theorem isWideBase_iff :
    isWideBase c = true ↔ ∃ type : BaseType, type.letter = c ∧ type.slots = 2 := by
  constructor
  · intro h
    simp only [isWideBase, Bool.or_eq_true, decide_eq_true_eq] at h
    obtain rfl | rfl := h
    · exact ⟨.long, rfl, rfl⟩
    · exact ⟨.double, rfl, rfl⟩
  · rintro ⟨type, rfl, hslots⟩
    cases type with
    | double => rfl
    | long => rfl
    | _ => cases hslots

theorem isNarrowBase_iff :
    isNarrowBase c = true ↔ ∃ type : BaseType, type.letter = c ∧ type.slots = 1 := by
  constructor
  · intro h
    simp only [isNarrowBase, Bool.or_eq_true, decide_eq_true_eq] at h
    obtain ((((rfl | rfl) | rfl) | rfl) | rfl) | rfl := h
    · exact ⟨.byte, rfl, rfl⟩
    · exact ⟨.char, rfl, rfl⟩
    · exact ⟨.float, rfl, rfl⟩
    · exact ⟨.int, rfl, rfl⟩
    · exact ⟨.short, rfl, rfl⟩
    · exact ⟨.boolean, rfl, rfl⟩
  · rintro ⟨type, rfl, hslots⟩
    cases type with
    | double => cases hslots
    | long => cases hslots
    | _ => rfl

theorem afterClassName_eq_some_iff :
    afterClassName cs = some rest ↔ ∃ name : ClassName, cs = name.chars ++ ';' :: rest := by
  constructor
  · intro h
    unfold afterClassName at h
    split at h
    · cases h
    · rename_i last more hmore
      obtain rfl := Option.some.inj h
      obtain ⟨hsplit, hname, hnil | ⟨_, hcons⟩⟩ := cut_eq_iff.mp ⟨rfl, hmore⟩
      · cases hnil
      · cases hcons
        exact ⟨⟨_, hname⟩, hsplit⟩
  · rintro ⟨name, rfl⟩
    obtain ⟨-, hafter⟩ := cut_eq_iff.mpr ⟨rfl, name.semicolon_notMem, .inr ⟨rest, rfl⟩⟩
    rw [afterClassName, hafter]

/-- What is no array is scanned as an element. -/
theorem afterElement_eq_some_iff (h : c ≠ '[') :
    afterElement (c :: cs) = some rest ↔ ∃ type : FieldType, c :: cs = type.text ++ rest := by
  constructor
  · intro hrest
    rw [afterElement] at hrest
    split at hrest
    · rename_i hclass
      obtain ⟨name, rfl⟩ := afterClassName_eq_some_iff.mp hrest
      exact ⟨.object name, by rw [FieldType.text_object_append, hclass]⟩
    · split at hrest
      · rename_i hbase
        obtain rfl := Option.some.inj hrest
        obtain hwide | hnarrow := Bool.or_eq_true_iff.mp hbase
        · obtain ⟨type, rfl, -⟩ := isWideBase_iff.mp hwide
          exact ⟨.base type, rfl⟩
        · obtain ⟨type, rfl, -⟩ := isNarrowBase_iff.mp hnarrow
          exact ⟨.base type, rfl⟩
      · cases hrest
  · rintro ⟨type, htext⟩
    cases type with
    | base type =>
        obtain ⟨rfl, rfl⟩ := List.cons.inj htext
        cases type <;> rfl
    | object name =>
        rw [FieldType.text_object_append] at htext
        obtain ⟨rfl, rfl⟩ := List.cons.inj htext
        exact afterClassName_eq_some_iff.mpr ⟨name, rfl⟩
    | array element => exact absurd (List.cons.inj htext).1 h

/-- Behind the first bracket of an array its element is scanned, which may be an array again. -/
theorem afterArray_eq_some_iff :
    afterArray cs = some rest ↔ ∃ type : FieldType, cs = type.text ++ rest := by
  induction cs with
  | nil =>
      constructor
      · intro h
        cases h
      · rintro ⟨type, h⟩
        cases type <;> cases h
  | cons c cs ih =>
      by_cases hbracket : c = '['
      · subst hbracket
        have hskip : afterArray ('[' :: cs) = afterArray cs := by
          rw [afterArray, List.dropWhile_cons_of_pos (by rfl), afterArray]
        rw [hskip, ih]
        constructor
        · rintro ⟨type, rfl⟩
          exact ⟨.array type, rfl⟩
        · rintro ⟨type, h⟩
          cases type with
          | base type => cases type <;> cases (List.cons.inj h).1
          | object name => cases (List.cons.inj h).1
          | array element => exact ⟨element, (List.cons.inj h).2⟩
      · rw [afterArray, List.dropWhile_cons_of_neg (by simpa using hbracket)]
        exact afterElement_eq_some_iff hbracket

/-- One type is scanned at a time. -/
theorem slotsFrom_text (type : FieldType) :
    slotsFrom n (type.text ++ rest) = slotsFrom (n + type.slots) rest := by
  cases type with
  | base type => cases type <;> simp [FieldType.text, BaseType.letter, FieldType.slots,
      BaseType.slots, slotsFrom, isWideBase, isNarrowBase]
  | object name =>
      have hname : afterClassName (name.chars ++ ';' :: rest) = some rest :=
        afterClassName_eq_some_iff.mpr ⟨name, rfl⟩
      rw [FieldType.text_object_append, slotsFrom, if_neg (by decide), if_neg (by decide),
        if_pos rfl]
      split
      · rename_i hnone
        rw [hname] at hnone
        cases hnone
      · rename_i more hmore
        obtain rfl := Option.some.inj (hname.symm.trans hmore)
        rfl
  | array element =>
      have harray : afterArray (element.text ++ rest) = some rest :=
        afterArray_eq_some_iff.mpr ⟨element, rfl⟩
      rw [FieldType.text, List.cons_append, slotsFrom, if_neg (by decide), if_neg (by decide),
        if_neg (by decide), if_pos rfl]
      split
      · rename_i hnone
        rw [harray] at hnone
        cases hnone
      · rename_i more hmore
        obtain rfl := Option.some.inj (harray.symm.trans hmore)
        rfl

/-- One more type in front of those that were found. -/
theorem exists_texts_eq (type : FieldType) (htext : cs = type.text ++ rest)
    (h : ∃ types, rest = texts types ∧ m = n + type.slots + (types.map FieldType.slots).sum) :
    ∃ types, cs = texts types ∧ m = n + (types.map FieldType.slots).sum := by
  obtain ⟨types, rfl, rfl⟩ := h
  refine ⟨type :: types, htext, ?_⟩
  rw [List.map_cons, List.sum_cons, Nat.add_assoc]

/-- The scanner counts the slots of the types that it finds, and finds types only. -/
theorem slotsFrom_eq_some_iff :
    slotsFrom n cs = some m ↔
      ∃ types, cs = texts types ∧ m = n + (types.map FieldType.slots).sum := by
  constructor
  · intro h
    fun_induction slotsFrom n cs with
    | case1 n =>
        obtain rfl := Option.some.inj h
        exact ⟨[], rfl, rfl⟩
    | case2 n c rest hwide ih =>
        obtain ⟨type, rfl, hslots⟩ := isWideBase_iff.mp hwide
        rw [← hslots] at ih h
        exact exists_texts_eq (.base type) rfl (ih h)
    | case3 n c rest _ hnarrow ih =>
        obtain ⟨type, rfl, hslots⟩ := isNarrowBase_iff.mp hnarrow
        rw [← hslots] at ih h
        exact exists_texts_eq (.base type) rfl (ih h)
    | case5 n rest more hmore _ _ ih =>
        obtain ⟨name, rfl⟩ := afterClassName_eq_some_iff.mp hmore
        exact exists_texts_eq (.object name) (FieldType.text_object_append name more).symm (ih h)
    | case7 n rest more hmore _ _ _ ih =>
        obtain ⟨element, rfl⟩ := afterArray_eq_some_iff.mp hmore
        exact exists_texts_eq (.array element) rfl (ih h)
    | _ => cases h
  · rintro ⟨types, rfl, rfl⟩
    induction types generalizing n with
    | nil => simp [texts, slotsFrom]
    | cons type types ih =>
        rw [texts, List.flatMap_cons, slotsFrom_text, List.map_cons, List.sum_cons, ← Nat.add_assoc]
        exact ih

/-- A descriptor is counted if it opens with arguments of at most 255 slots. -/
theorem argumentSlots?_eq_some_iff {descriptor : String} {slots : UInt8} :
    argumentSlots? descriptor = some slots ↔
      ∃ types, Opens descriptor types ∧ slots.toNat = slotCount types := by
  unfold argumentSlots?
  constructor
  · intro h
    split at h
    · rename_i rest hrest
      split at h
      · rename_i n hn
        obtain ⟨types, htypes, rfl⟩ := slotsFrom_eq_some_iff.mp hn
        obtain ⟨hsplit, hinner, hclosed⟩ := cut_eq_iff.mp ⟨htypes, rfl⟩
        split at h
        · rename_i hsmall
          obtain rfl := Option.some.inj h
          rw [hsplit] at hrest
          refine ⟨types, ⟨hinner, ?_⟩, ?_⟩
          · obtain hnone | ⟨more, hmore⟩ := hclosed
            · exact .inl (by rw [hrest, hnone, List.append_nil])
            · exact .inr ⟨more, by rw [hrest, hmore]⟩
          · rw [UInt8.toNat_ofNat_of_lt' (Nat.lt_succ_of_le hsmall)]
            rfl
        · cases h
      · cases h
    · cases h
  · rintro ⟨types, opens, hslots⟩
    obtain ⟨rest, hsplit, hclosed⟩ : ∃ rest, descriptor.toList = '(' :: (texts types ++ rest) ∧
        (rest = [] ∨ ∃ more, rest = ')' :: more) := by
      obtain hends | ⟨more, hends⟩ := opens.ends
      · exact ⟨[], by rw [hends, List.append_nil], .inl rfl⟩
      · exact ⟨')' :: more, hends, .inr ⟨more, rfl⟩⟩
    obtain ⟨htypes, -⟩ := cut_eq_iff.mpr ⟨rfl, opens.inner, hclosed⟩
    have hcount := slotsFrom_eq_some_iff.mpr ⟨types, rfl, hslots⟩
    rw [hsplit]
    simp only [htypes, hcount]
    rw [if_pos (Nat.le_of_lt_succ slots.toNat_lt), UInt8.ofNat_toNat]

end Descriptor

namespace ClassDraft

open BigEndian Descriptor

variable {draft draft' : ClassDraft} {method : MethodDraft} {owner name descriptor : String}
  {isInterface : Bool} {member : UInt16}

/-- What an interface call does once its method is found in the pool. -/
theorem call_interface_eq (hmethod : draft.method = some method)
    (hmember : request (.method owner name descriptor isInterface) draft = .ok member draft') :
    call .invokeInterface owner name descriptor isInterface draft =
      match argumentSlots? descriptor with
      | none => .error (.malformed (.badDescriptor descriptor))
          { draft' with method := some (method.emit .invokeInterface (u16 member)) }
      | some slots => .ok () { draft' with
          method := some ((method.emit .invokeInterface (u16 member)).push [slots, 0]) } := by
  obtain ⟨pool, hask, rfl⟩ := request_eq_ok_iff.mp hmember
  simp only [call, Bind.bind, EStateM.bind, hmember, emit, editMethod, onMethod, hmethod, if_true]
  cases argumentSlots? descriptor with
  | none => rfl
  | some slots => rfl

/-- The call of an interface method counts the slots of its arguments, and is refused only for its
descriptor once its method is found in the pool: if the descriptor does not open with arguments of
at most 255 slots. -/
theorem interface_call_counts (descriptor : String) :
    (∀ slots : UInt8, argumentSlots? descriptor = some slots ↔
      ∃ types, Opens descriptor types ∧ slots.toNat = slotCount types) ∧
    ∀ (draft draft' : ClassDraft) (method : MethodDraft) (owner name : String) (isInterface : Bool)
      (member : UInt16), draft.method = some method →
      request (.method owner name descriptor isInterface) draft = .ok member draft' →
      let result := receive
        (.instruction (.method .invokeInterface owner name descriptor isInterface)) draft
      let started := method.emit .invokeInterface (u16 member)
      (∃ (types : List FieldType) (slots : UInt8), Opens descriptor types ∧
        slots.toNat = slotCount types ∧
          result = .ok () { draft' with method := some (started.push [slots, 0]) }) ∨
      ((∀ types, Opens descriptor types → 255 < slotCount types) ∧
        result = .error (.malformed (.badDescriptor descriptor))
          { draft' with method := some started }) := by
  refine ⟨fun slots => argumentSlots?_eq_some_iff, ?_⟩
  intro draft draft' method owner name isInterface member hmethod hmember
  simp only [receive, instruction, call_interface_eq hmethod hmember]
  cases hslots : argumentSlots? descriptor with
  | some slots =>
      obtain ⟨types, opens, hcount⟩ := argumentSlots?_eq_some_iff.mp hslots
      exact .inl ⟨types, slots, opens, hcount, rfl⟩
  | none =>
      refine .inr ⟨fun types opens => ?_, rfl⟩
      by_contra! hsmall
      have hcount : (UInt8.ofNat (slotCount types)).toNat = slotCount types :=
        UInt8.toNat_ofNat_of_lt' (Nat.lt_succ_of_le hsmall)
      rw [argumentSlots?_eq_some_iff.mpr ⟨types, opens, hcount⟩] at hslots
      cases hslots

/-- A draft with an open method. -/
def opened : ClassDraft :=
  { empty with method := some (.start (.ofBits _ 9) 0 0 none) }

theorem interface_call_counts_longArrayClass :
    argumentSlots? "(J[[DLB;)V" = some 5 ∧
      ∃ method member draft', opened.method = some method ∧
        request (.method "A" "m" "(J[[DLB;)V" true) opened = .ok member draft' ∧
          receive (.instruction (.method .invokeInterface "A" "m" "(J[[DLB;)V" true)) opened =
            .ok () { draft' with
              method := some ((method.emit .invokeInterface (u16 member)).push [5, 0]) } := by
  have counts := interface_call_counts "(J[[DLB;)V"
  have opens : Opens "(J[[DLB;)V"
      [.base .long, .array (.array (.base .double)), .object ⟨['B'], by decide⟩] :=
    ⟨by decide, .inr ⟨['V'], rfl⟩⟩
  have hfive := (counts.1 5).mpr ⟨_, opens, rfl⟩
  refine ⟨hfive, _, _, _, rfl, rfl, ?_⟩
  obtain ⟨types, slots, hopens, hslots, hresult⟩ | ⟨hlarge, -⟩ :=
    counts.2 opened _ _ "A" "m" true _ rfl rfl
  · obtain rfl : slots = 5 :=
      Option.some.inj (((counts.1 slots).mpr ⟨types, hopens, hslots⟩).symm.trans hfive)
    exact hresult
  · exact absurd (hlarge _ opens) (by decide)

/-- A descriptor is counted though its arguments are not closed. -/
theorem not_forall_argumentSlots_encloses :
    ¬ ∀ (descriptor : String) (slots : UInt8), argumentSlots? descriptor = some slots ↔
      ∃ types, Encloses descriptor types ∧ slots.toNat = slotCount types := by
  intro h
  have hcounted : argumentSlots? "(I" = some 2 :=
    argumentSlots?_eq_some_iff.mpr ⟨[.base .int], ⟨by decide, .inl rfl⟩, rfl⟩
  obtain ⟨types, ⟨rest, hrest⟩, -⟩ := (h "(I" 2).mp hcounted
  have hclosed : ')' ∈ "(I".toList := by
    rw [hrest]
    simp
  exact absurd hclosed (by decide)

end ClassDraft

end JavaClass
