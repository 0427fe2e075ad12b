import Mathlib.Algebra.Ring.Nat
import Mathlib.Data.List.Forall2
import Mathlib.Data.Set.Function
import JavaClass.Event.Basic
import JavaClass.Proofs.Constant.Requests

/-!
# Listings and outlines

A listing is the code of a method with labels and lines among its instructions.
Its outline has no labels: branches, handlers and lines name the position of
what they refer to, which is the number of instructions before it.

## Implementation notes

Labels may be of any type, so one definition serves the labels of a body, the
tokens of events and positions themselves. Exchanging the labels of a listing
does not change its outline as long as different labels stay different.
-/

namespace JavaClass

/-- The code of a method. -/
structure Listing (label : Type) where
  instructions : List (Instruction label)
  blocks : List (TryBlock label)
  maxStack : UInt16
  maxLocals : UInt16

/-- Code without labels. -/
structure Outline where
  instructions : List (Instruction Nat)
  blocks : List (TryBlock Nat)
  /-- The position where a line starts, and the number of the line. -/
  lines : List (Nat × UInt16)
  maxStack : UInt16
  maxLocals : UInt16

namespace Opcode

/-- A property of operation codes is checked code by code. -/
theorem forall_of_bytes {p : Opcode → Prop} (h : ∀ n : Fin 256, p ⟨UInt8.ofNat n.val⟩)
    (opcode : Opcode) : p opcode := by
  have hbyte := h ⟨opcode.byte.toNat, opcode.byte.toNat_lt⟩
  rwa [UInt8.ofNat_toNat] at hbyte

theorem shape_eq_field_iff :
    ∀ opcode : Opcode, opcode.shape = .field ↔ 178 ≤ opcode.byte ∧ opcode.byte ≤ 181 :=
  forall_of_bytes (by decide +kernel)

theorem shape_eq_method_iff :
    ∀ opcode : Opcode, opcode.shape = .method ↔ 182 ≤ opcode.byte ∧ opcode.byte ≤ 185 :=
  forall_of_bytes (by decide +kernel)

theorem shape_eq_type_iff :
    ∀ opcode : Opcode, opcode.shape = .type ↔ opcode.byte ∈ [187, 189, 192, 193] :=
  forall_of_bytes (by decide +kernel)

end Opcode

namespace Instruction

variable {α β : Type}

@[simp] theorem isPseudo_map (f : α → β) (i : Instruction α) : (i.map f).isPseudo = i.isPseudo := by
  rw [isPseudo, opcode?_map, isPseudo]

theorem map_congr {f g : α → β} {i : Instruction α} (h : ∀ label ∈ i.targets, f label = g label) :
    i.map f = i.map g := by
  cases i <;> simp_all [map, targets]

/-- The cases of a switch, given by pairs of a key and a target. -/
theorem map_lookupSwitch (f : α → β) (otherwise : α) (pairs : List (Int32 × α)) :
    (lookupSwitch otherwise (pairs.map (·.1)) (pairs.map (·.2))).map f =
      lookupSwitch (f otherwise) ((pairs.map fun pair => (pair.1, f pair.2)).map (·.1))
        ((pairs.map fun pair => (pair.1, f pair.2)).map (·.2)) := by
  simp [map, Function.comp_def]

theorem map_id (i : Instruction α) : i.map id = i := by
  cases i <;> simp [map]

/-- The line that an instruction places, with the label where it starts. -/
def line? : Instruction α → Option (α × UInt16)
  | line number start => some (start, number)
  | _ => none

theorem line?_map (f : α → β) (i : Instruction α) :
    (i.map f).line? = i.line?.map fun line => (f line.1, line.2) := by
  cases i <;> rfl

theorem line?_eq_none {i : Instruction α} (h : i.isPseudo = false) : i.line? = none := by
  cases i <;> first | rfl | cases h

theorem mem_targets_of_line? {i : Instruction α} {line : α × UInt16} (h : i.line? = some line) :
    line.1 ∈ i.targets := by
  cases i with
  | line number start =>
      obtain rfl := Option.some.inj h
      exact List.mem_singleton_self start
  | _ => cases h

end Instruction

/-- What a call site names: a bootstrap method and its arguments. -/
abbrev BootstrapCall := MethodHandle × List Literal

namespace Instruction

variable {α β : Type}

/-- The instruction that a class file gives back. -/
def normal : Instruction α → Instruction α
  | invokeDynamic name descriptor bootstrap arguments =>
      invokeDynamic name descriptor bootstrap.normal (arguments.map Literal.normal)
  | load literal => load literal.normal
  | other => other

/-- The bootstrap method that an instruction names. -/
def calls : Instruction α → List BootstrapCall
  | invokeDynamic _ _ bootstrap arguments => [(bootstrap, arguments)]
  | _ => []

/-- An operation on a member or on a type has a code of its family. -/
def Documented : Instruction α → Prop
  | field opcode _ _ _ => 178 ≤ opcode.byte ∧ opcode.byte ≤ 181
  | method opcode _ _ _ _ => 182 ≤ opcode.byte ∧ opcode.byte ≤ 185
  | type opcode _ => opcode.byte ∈ [187, 189, 192, 193]
  | _ => True

instance : DecidablePred (@Documented α)
  | field opcode _ _ _ => inferInstanceAs (Decidable (178 ≤ opcode.byte ∧ opcode.byte ≤ 181))
  | method opcode _ _ _ _ => inferInstanceAs (Decidable (182 ≤ opcode.byte ∧ opcode.byte ≤ 185))
  | type opcode _ => inferInstanceAs (Decidable (opcode.byte ∈ [187, 189, 192, 193]))
  | simple .. | int .. | localVar .. | increment .. | invokeDynamic .. | load .. | jump ..
  | lookupSwitch .. | tableSwitch .. | multiNewArray .. | label .. | line .. => .isTrue trivial

theorem normal_map (f : α → β) (i : Instruction α) : (i.map f).normal = i.normal.map f := by
  cases i <;> rfl

@[simp] theorem documented_map (f : α → β) (i : Instruction α) :
    (i.map f).Documented ↔ i.Documented := by
  cases i <;> exact Iff.rfl

@[simp] theorem calls_map (f : α → β) (i : Instruction α) : (i.map f).calls = i.calls := by
  cases i <;> rfl

theorem isPseudo_of_mem_calls {i : Instruction α} {call : BootstrapCall} (h : call ∈ i.calls) :
    i.isPseudo = false := by
  cases i <;> first | rfl | cases h

@[simp] theorem targets_normal (i : Instruction α) : i.normal.targets = i.targets := by
  cases i <;> rfl

@[simp] theorem isPseudo_normal (i : Instruction α) : i.normal.isPseudo = i.isPseudo := by
  cases i <;> rfl

theorem normal_eq_self {i : Instruction α} (h : i.isPseudo = true) : i.normal = i := by
  cases i <;> first | rfl | cases h

end Instruction

theorem TryBlock.map_congr {α β : Type} {f g : α → β} {block : TryBlock α}
    (h : ∀ label ∈ block.targets, f label = g label) : block.map f = block.map g := by
  simp_all [TryBlock.map, TryBlock.targets]

theorem TryBlock.map_map {α β γ : Type} (f : α → β) (g : β → γ) (block : TryBlock α) :
    (block.map f).map g = block.map (g ∘ f) := rfl

theorem TryBlock.targets_map {α β : Type} (f : α → β) (block : TryBlock α) :
    (block.map f).targets = block.targets.map f := rfl

namespace Listing

variable {α β γ : Type}

/-- Exchanges the labels. -/
def map (f : α → β) (listing : Listing α) : Listing β :=
  ⟨listing.instructions.map (·.map f), listing.blocks.map (·.map f), listing.maxStack,
    listing.maxLocals⟩

/-- The labels that the instructions and then the exception table refer to. -/
def referenced (listing : Listing α) : List α :=
  listing.instructions.flatMap Instruction.targets ++ listing.blocks.flatMap TryBlock.targets

theorem map_map (f : α → β) (g : β → γ) (listing : Listing α) :
    (listing.map f).map g = listing.map (g ∘ f) := by
  simp [map, Function.comp_def, Instruction.map_map, TryBlock.map_map]

theorem map_congr {f g : α → β} {listing : Listing α}
    (h : ∀ label ∈ listing.referenced, f label = g label) : listing.map f = listing.map g := by
  have hinstructions : listing.instructions.map (·.map f) = listing.instructions.map (·.map g) := by
    refine List.map_congr_left fun i hi => Instruction.map_congr fun label hlabel => h label ?_
    exact List.mem_append_left _ (List.mem_flatMap.mpr ⟨i, hi, hlabel⟩)
  have hblocks : listing.blocks.map (·.map f) = listing.blocks.map (·.map g) := by
    refine List.map_congr_left fun block hblock => TryBlock.map_congr fun label hlabel => h label ?_
    exact List.mem_append_right _ (List.mem_flatMap.mpr ⟨block, hblock, hlabel⟩)
  rw [map, map, hinstructions, hblocks]

theorem referenced_map (f : α → β) (listing : Listing α) :
    (listing.map f).referenced = listing.referenced.map f := by
  simp only [referenced, map, List.flatMap_map, Instruction.targets_map, TryBlock.targets_map,
    List.map_append, List.map_flatMap]

theorem map_eq_label_iff {f : α → β} {i : Instruction α} {label : β} :
    i.map f = .label label ↔ ∃ source, i = .label source ∧ f source = label := by
  cases i <;> simp [Instruction.map]

/-- The listing that a class file gives back. -/
def normal (listing : Listing α) : Listing α :=
  { listing with instructions := listing.instructions.map Instruction.normal }

section Outline

variable [DecidableEq α] [DecidableEq β]

/-- The number of instructions before the first place of a label. -/
def position (instructions : List (Instruction α)) (label : α) : Nat :=
  ((instructions.takeWhile (· ≠ .label label)).filter (!·.isPseudo)).length

/-- The listing without labels. -/
def outline (listing : Listing α) : Outline where
  instructions := (listing.instructions.filter (!·.isPseudo)).map
    (·.map (position listing.instructions))
  blocks := listing.blocks.map (·.map (position listing.instructions))
  lines := (listing.instructions.filterMap Instruction.line?).map fun line =>
    (position listing.instructions line.1, line.2)
  maxStack := listing.maxStack
  maxLocals := listing.maxLocals

/-- Every label that is referred to has exactly one place. -/
def Placed (listing : Listing α) : Prop :=
  ∀ label ∈ listing.referenced, listing.instructions.count (.label label) = 1

theorem position_label (instructions : List (Instruction α)) (label : α) :
    position (.label label :: instructions) label = 0 := by
  simp [position]

theorem position_cons {i : Instruction α} {label : α} (h : i ≠ .label label)
    (instructions : List (Instruction α)) :
    position (i :: instructions) label =
      (if i.isPseudo then 0 else 1) + position instructions label := by
  unfold position
  rw [List.takeWhile_cons_of_pos (by simpa using h), List.filter_cons]
  cases i.isPseudo
  · simp only [Bool.not_false, if_true, List.length_cons, Bool.false_eq_true, if_false]
    omega
  · simp

/-- Marks of other labels do not count. -/
theorem position_marks {marks : List (Instruction α)} {label : α}
    (h : ∀ i ∈ marks, i.isPseudo ∧ i ≠ .label label) (instructions : List (Instruction α)) :
    position (marks ++ instructions) label = position instructions label := by
  induction marks with
  | nil => rfl
  | cons i marks ih =>
      obtain ⟨hpseudo, hne⟩ := h i List.mem_cons_self
      rw [List.cons_append, position_cons hne, hpseudo, if_pos rfl, Nat.zero_add]
      exact ih fun j hj => h j (List.mem_cons_of_mem _ hj)

theorem position_le (instructions : List (Instruction α)) (label : α) :
    position instructions label ≤ (instructions.filter (!·.isPseudo)).length :=
  ((List.takeWhile_sublist _).filter _).length_le

/-- Positions stay as they are when different labels stay different. -/
theorem position_map {f : α → β} {labels : List α} {instructions : List (Instruction α)}
    (hlabels : ∀ i ∈ instructions, ∀ label ∈ i.targets, label ∈ labels)
    (inj : Set.InjOn f {label | label ∈ labels}) {label : α} (hlabel : label ∈ labels) :
    position (instructions.map (·.map f)) (f label) = position instructions label := by
  induction instructions with
  | nil => rfl
  | cons i instructions ih =>
      have htail := ih fun j hj => hlabels j (List.mem_cons_of_mem _ hj)
      by_cases hi : i = .label label
      · subst hi
        rw [List.map_cons, Instruction.map, position_label, position_label]
      · have hne : i.map f ≠ .label (f label) := by
          intro heq
          obtain ⟨source, rfl, hsource⟩ := map_eq_label_iff.mp heq
          have hmem := hlabels _ List.mem_cons_self source (by simp [Instruction.targets])
          exact hi (congrArg _ (inj hmem hlabel hsource))
        rw [List.map_cons, position_cons hne, position_cons hi, htail, Instruction.isPseudo_map]

/-- Exchanging the labels does not change the outline. -/
theorem outline_map {f : α → β} {listing : Listing α}
    (inj : Set.InjOn f {label | label ∈ listing.referenced}) :
    (listing.map f).outline = listing.outline := by
  have hlabels : ∀ i ∈ listing.instructions, ∀ label ∈ i.targets, label ∈ listing.referenced :=
    fun i hi label hlabel => List.mem_append_left _ (List.mem_flatMap.mpr ⟨i, hi, hlabel⟩)
  have hposition : ∀ label ∈ listing.referenced,
      position (listing.instructions.map (·.map f)) (f label) =
        position listing.instructions label :=
    fun label hlabel => position_map hlabels inj hlabel
  unfold outline map
  simp only [Outline.mk.injEq, and_true]
  refine ⟨?_, ?_, ?_⟩
  · rw [List.filter_map, List.map_map]
    simp only [Function.comp_def, Instruction.isPseudo_map, Instruction.map_map]
    refine List.map_congr_left fun i hi => Instruction.map_congr fun label hlabel => ?_
    exact hposition label (hlabels i (List.mem_of_mem_filter hi) label hlabel)
  · rw [List.map_map]
    simp only [Function.comp_def, TryBlock.map_map]
    refine List.map_congr_left fun block hblock => TryBlock.map_congr fun label hlabel => ?_
    exact hposition label (List.mem_append_right _ (List.mem_flatMap.mpr ⟨block, hblock, hlabel⟩))
  · rw [List.filterMap_map]
    simp only [Function.comp_def, Instruction.line?_map, ← List.map_filterMap, List.map_map]
    refine List.map_congr_left fun line hline => ?_
    obtain ⟨i, hi, hsome⟩ := List.mem_filterMap.mp hline
    rw [hposition line.1 (hlabels i hi _ (Instruction.mem_targets_of_line? hsome))]

end Outline

end Listing

end JavaClass
