import JavaClass.Proofs.ClassDef.RoundTrip

/-!
# The order of exception tables and lines

An exception table comes back from a class file in the order in which it was
written. Lines come back right behind the label of their position, so they are
sorted by position, and the lines of one position keep their order.

## Implementation notes

Positions are numbers of instructions, as in outlines, so orders can be compared
though the labels are not the same. Nothing is assumed about the size of the
class: if the file can be decoded at all, these are its orders.
-/

namespace JavaClass.ClassDef

variable {c c' : ClassDef} {content : List UInt8}

/-- Code of one method keeps the order of its exception table, and its lines are put in the order of
their positions. -/
structure OrdersKept (method method' : MethodDef) : Prop where
  blocks : method'.body.listing.outline.blocks = method.body.listing.outline.blocks
  lines : method'.body.listing.outline.lines =
    method.body.listing.outline.lines.mergeSort (·.1 ≤ ·.1)

theorem ordersKept_of_builds {method method' : MethodDef} {story : MethodStory}
    (recovered : method.story.Recovered story) (builds : method'.Builds story)
    (hcode : method.hasCode = true) : OrdersKept method method' := by
  obtain ⟨-, arranges⟩ := MethodDef.arranges_of_builds recovered builds hcode
  exact ⟨arranges.same_outline.blocks, arranges.lines_eq⟩

/-- Exception tables come back in their order, and lines in the order of their positions, those of
one position in the order in which they were. -/
theorem decode_keeps_orders (documented : c.Documented) (encoded : c.encode = .ok content)
    (decoded : decode content.toArray = .ok c') :
    List.Forall₂ (fun method method' => method.hasCode = true → OrdersKept method method')
      c.methods.toList c'.methods.toList := by
  obtain ⟨story, recovered, builds⟩ := exists_story_of_decode documented encoded decoded
  refine forall₂_trans (List.forall₂_map_left_iff.mp recovered.methods) builds.methods.flip ?_
  exact fun method story method' hrecovered hbuilds => ordersKept_of_builds hrecovered hbuilds

/-- A class whose only method names the line of its second instruction first. -/
def backwards : ClassDef where
  version := ⟨65, 0⟩
  flags := .ofBits _ 0x21
  name := "A"
  super := some "B"
  interfaces := []
  source := none
  fields := #[]
  methods := #[⟨.ofBits _ 9, "m", "()V", [],
    [.label ⟨0⟩, .simple ⟨0⟩, .label ⟨1⟩, .line 10 ⟨1⟩, .line 20 ⟨0⟩, .line 30 ⟨1⟩,
        .simple ⟨177⟩].foldl
      (fun body i => (body.append i).2)
      ((MethodBody.empty 0).addTryBlock ⟨⟨0⟩, ⟨1⟩, ⟨1⟩, none⟩)⟩]

/-- The lines of all methods. -/
def linesOf (c : ClassDef) : List (List (Nat × UInt16)) :=
  c.methods.toList.map fun method => method.body.listing.outline.lines

theorem exists_decode_backwards :
    ∃ content c', backwards.encode = .ok content ∧ decode content.toArray = .ok c' ∧
      linesOf c' = [[(0, 20), (1, 10), (1, 30)]] := by
  have h : (backwards.encode.toOption.bind fun content =>
      (decode content.toArray).toOption.map linesOf) = some [[(0, 20), (1, 10), (1, 30)]] := by
    decide +kernel
  obtain ⟨content, hcontent, h⟩ := Option.bind_eq_some_iff.mp h
  obtain ⟨c', hc', h⟩ := Option.map_eq_some_iff.mp h
  exact ⟨content, c', eq_ok_of_toOption hcontent, eq_ok_of_toOption hc', h⟩

theorem decode_keeps_orders_backwards :
    ∃ content c', backwards.Documented ∧ backwards.encode = .ok content ∧
      decode content.toArray = .ok c' ∧
      List.Forall₂ (fun method method' => method.hasCode = true → OrdersKept method method')
        backwards.methods.toList c'.methods.toList := by
  obtain ⟨content, c', encoded, decoded, -⟩ := exists_decode_backwards
  have documented : backwards.Documented := by decide +kernel
  exact ⟨content, c', documented, encoded, decoded,
    decode_keeps_orders documented encoded decoded⟩

/-- Lines do not always come back in the order in which they were. -/
theorem not_forall_orders_same :
    ¬ ∀ (c c' : ClassDef) (content : List UInt8), c.encode = .ok content →
      decode content.toArray = .ok c' →
        List.Forall₂ (fun method method' => method.hasCode = true →
          method'.body.listing.outline.blocks = method.body.listing.outline.blocks ∧
            method'.body.listing.outline.lines = method.body.listing.outline.lines)
          c.methods.toList c'.methods.toList := by
  intro h
  obtain ⟨content, c', encoded, decoded, hlines⟩ := exists_decode_backwards
  have hsame : linesOf backwards = linesOf c' := by
    rw [linesOf, linesOf, ← List.forall₂_eq_eq_eq, List.forall₂_map_left_iff,
      List.forall₂_map_right_iff]
    refine forall₂_imp_mem (h backwards c' content encoded decoded)
      fun method hmethod _ _ same => ?_
    obtain rfl := List.mem_singleton.mp hmethod
    exact (same (by decide +kernel)).2.symm
  rw [hlines] at hsame
  exact absurd hsame (by decide +kernel)

end JavaClass.ClassDef
