import Mathlib.Data.Fintype.EquivFin
import Mathlib.Data.Fintype.Sum
import JavaClass.Proofs.Listing.Arrangement

/-!
# Exchanging labels

Labels that refer to a place still do after all labels were exchanged. If two
listings of tokens are the same but for their tokens, there is one exchange of
tokens that goes from the first to the second.
-/

namespace JavaClass

instance : Finite LabelToken :=
  Finite.of_injective (fun token => token.id.toFin) fun first second h => by
    cases first
    cases second
    exact congrArg LabelToken.mk (UInt32.toFin_inj.mp h)

/-- There is an exchange of tokens from one way of choosing them to another. -/
theorem exists_exchange {α : Type} {s : Set α} {f g : α → LabelToken} (hf : Set.InjOn f s)
    (hg : Set.InjOn g s) :
    ∃ exchange : LabelToken → LabelToken, Function.Injective exchange ∧
      ∀ a ∈ s, exchange (f a) = g a := by
  obtain rfl | ⟨a, ha⟩ := s.eq_empty_or_nonempty
  · exact ⟨id, Function.injective_id, fun a ha => absurd ha (Set.notMem_empty a)⟩
  · have : Nonempty α := ⟨a⟩
    have := Fintype.ofFinite LabelToken
    have hback : ∀ a ∈ s, Function.invFunOn f s (f a) = a := hf.leftInvOn_invFunOn
    have hinj : Set.InjOn (g ∘ Function.invFunOn f s) (f '' s) := by
      rintro _ ⟨a, ha, rfl⟩ _ ⟨b, hb, rfl⟩ h
      rw [Function.comp_apply, Function.comp_apply, hback a ha, hback b hb] at h
      rw [hg ha hb h]
    obtain ⟨exchange, hexchange⟩ := Set.MapsTo.exists_equiv_extend_of_card_eq
      (t := Finset.univ) Finset.card_univ.symm (fun _ _ => Finset.mem_coe.mpr (Finset.mem_univ _))
      hinj
    refine ⟨fun token => exchange token, Subtype.val_injective.comp exchange.injective, ?_⟩
    intro a ha
    exact (hexchange (f a) ⟨a, ha, rfl⟩).trans (congrArg g (hback a ha))

namespace Listing

variable {α β : Type}

theorem normal_map (f : α → β) (listing : Listing α) :
    (listing.map f).normal = listing.normal.map f := by
  simp only [normal, map, List.map_map, Function.comp_def, Instruction.normal_map]

theorem referenced_normal (listing : Listing α) :
    listing.normal.referenced = listing.referenced := by
  simp only [referenced, normal, List.flatMap_map, Instruction.targets_normal]

/-- Every label that is referred to has a place. -/
def Closed (listing : Listing α) : Prop :=
  ∀ label ∈ listing.referenced, .label label ∈ listing.instructions

variable [DecidableEq α] [DecidableEq β]

theorem Placed.closed {listing : Listing α} (placed : listing.Placed) : listing.Closed := by
  intro label h
  refine List.count_pos_iff.mp ?_
  rw [placed label h]
  exact Nat.one_pos

theorem count_label_map {f : α → β} {labels : List α} {instructions : List (Instruction α)}
    (hlabels : ∀ i ∈ instructions, ∀ label ∈ i.targets, label ∈ labels)
    (inj : Set.InjOn f {label | label ∈ labels}) {label : α} (hlabel : label ∈ labels) :
    (instructions.map (·.map f)).count (.label (f label)) = instructions.count (.label label) := by
  induction instructions with
  | nil => rfl
  | cons i instructions ih =>
      have htail := ih fun j hj => hlabels j (List.mem_cons_of_mem _ hj)
      have hhead : i.map f = .label (f label) ↔ i = .label label := by
        rw [map_eq_label_iff]
        constructor
        · rintro ⟨source, rfl, hsource⟩
          have hmem := hlabels _ List.mem_cons_self source (by simp [Instruction.targets])
          rw [inj hmem hlabel hsource]
        · rintro rfl
          exact ⟨label, rfl, rfl⟩
      rw [List.map_cons, List.count_cons, List.count_cons, htail]
      simp only [beq_iff_eq, hhead]

/-- Labels that have one place still have one after different labels stayed different. -/
theorem placed_map_iff {f : α → β} {listing : Listing α}
    (inj : Set.InjOn f {label | label ∈ listing.referenced}) :
    (listing.map f).Placed ↔ listing.Placed := by
  have hcount : ∀ label ∈ listing.referenced,
      (listing.map f).instructions.count (.label (f label)) =
        listing.instructions.count (.label label) := by
    intro label hlabel
    refine count_label_map (fun i hi other hother => ?_) inj hlabel
    exact List.mem_append_left _ (List.mem_flatMap.mpr ⟨i, hi, hother⟩)
  unfold Placed
  rw [referenced_map]
  constructor
  · intro h label hlabel
    rw [← hcount label hlabel]
    exact h (f label) (List.mem_map_of_mem hlabel)
  · intro h label hlabel
    obtain ⟨source, hsource, rfl⟩ := List.mem_map.mp hlabel
    rw [hcount source hsource]
    exact h source hsource

end Listing

namespace Listing

variable {α β : Type}

/-- The listing is an arrangement with labels in the place of positions. -/
structure Arranges (listing : Listing α) (o : Outline) : Prop where
  proper : o.Proper
  labels : ∃ f : Nat → α, Set.InjOn f {position | position ∈ o.arrange.referenced} ∧
    listing = o.arrange.map f

theorem Arranged.arranges {listing : Listing LabelToken} {o : Outline}
    (arranged : listing.Arranged o) : listing.Arranges o := by
  obtain ⟨f, inj, -, h⟩ := arranged.tokens
  exact ⟨arranged.proper, f, inj.mono fun _ => Outline.mem_mentioned_of_referenced, h⟩

namespace Arranges

variable {listing : Listing α} {o : Outline}

theorem map (arranges : listing.Arranges o) {f : α → β}
    (inj : Set.InjOn f {label | label ∈ listing.referenced}) : (listing.map f).Arranges o := by
  obtain ⟨g, hg, rfl⟩ := arranges.labels
  refine ⟨arranges.proper, f ∘ g, ?_, map_map g f o.arrange⟩
  refine inj.comp hg fun position hposition => ?_
  change g position ∈ (o.arrange.map g).referenced
  rw [referenced_map]
  exact List.mem_map_of_mem hposition

theorem of_same {o' : Outline} (arranges : listing.Arranges o') (proper : o.Proper)
    (same : o.Same o') : listing.Arranges o := by
  obtain ⟨f, inj, rfl⟩ := arranges.labels
  rw [same.arrange] at inj ⊢
  exact ⟨proper, f, inj, rfl⟩

theorem normal (arranges : listing.Arranges o) : listing.normal.Arranges o.normal := by
  obtain ⟨f, hf, rfl⟩ := arranges.labels
  refine ⟨arranges.proper.normal, f, ?_, ?_⟩
  · rwa [Outline.arrange_normal, referenced_normal]
  · rw [Outline.arrange_normal, normal_map]

/-- Two arrangements of one outline differ by an exchange of tokens. -/
theorem exists_map_eq {listing listing' : Listing LabelToken} (arranges : listing.Arranges o)
    (arranges' : listing'.Arranges o) :
    ∃ f : LabelToken → LabelToken, Function.Injective f ∧ listing' = listing.map f := by
  obtain ⟨f, hf, rfl⟩ := arranges.labels
  obtain ⟨g, hg, rfl⟩ := arranges'.labels
  obtain ⟨exchange, inj, hexchange⟩ := JavaClass.exists_exchange hf hg
  refine ⟨exchange, inj, ?_⟩
  rw [map_map]
  exact map_congr fun position hposition => (hexchange position hposition).symm

/-- An arrangement of an outline and one of its normal form differ by an exchange of tokens. -/
theorem exists_exchange {listing listing' : Listing LabelToken} (arranges : listing.Arranges o)
    (arranges' : listing'.Arranges o.normal) :
    ∃ f : LabelToken → LabelToken, Function.Injective f ∧ listing' = (listing.map f).normal := by
  obtain ⟨f, inj, rfl⟩ := arranges.normal.exists_map_eq arranges'
  exact ⟨f, inj, (normal_map f listing).symm⟩

variable [DecidableEq α]

theorem placed (arranges : listing.Arranges o) : listing.Placed := by
  obtain ⟨f, inj, rfl⟩ := arranges.labels
  exact (placed_map_iff inj).mpr (Outline.placed_arrange arranges.proper)

theorem same_outline (arranges : listing.Arranges o) : o.Same listing.outline := by
  obtain ⟨f, inj, rfl⟩ := arranges.labels
  rw [outline_map inj]
  exact Outline.outline_arrange arranges.proper

theorem lines_eq (arranges : listing.Arranges o) :
    listing.outline.lines = o.lines.mergeSort (·.1 ≤ ·.1) := by
  obtain ⟨f, inj, rfl⟩ := arranges.labels
  rw [outline_map inj]
  exact Outline.lines_arrange arranges.proper

end Arranges

end Listing

end JavaClass
