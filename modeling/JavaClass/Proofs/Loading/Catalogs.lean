import JavaClass.Proofs.Assembly.Headers
import JavaClass.Proofs.ClassDef.RoundTrip
import JavaClass.Proofs.Loading.Histories

/-!
# Loading the classes of a catalog

A registry of the classes in a catalog has the encoded file of each of them.
Loading a name defines the class by the header of its file, which is the header
of the class that was encoded; a parent is asked for all other names.
-/

namespace JavaClass

/-- The class that an encoded definition is loaded as. -/
def ClassDef.defined (c : ClassDef) (content : List UInt8) : DefinedClass :=
  ⟨c.name, c.super, c.interfaces, content.toArray⟩

/-- A class is defined again by the file that it was encoded as, whatever its code is. -/
theorem DefinedClass.ofBytes_of_encode {c : ClassDef}
    (supported : c.version.major ≤ Version.latestMajor) {content : List UInt8}
    (encoded : c.encode = .ok content) : ofBytes content.toArray = .ok (c.defined content) := by
  obtain ⟨-, draft, takes, hbytes⟩ := ClassDef.encode_eq_ok encoded
  obtain ⟨parts, hparts, valid, shown⟩ := ClassDraft.takes_header takes hbytes
  have supported' : parts.header.version.major ≤ Version.latestMajor := by
    rw [shown.version]
    exact supported
  obtain ⟨file, hread, within⟩ :=
    ClassParts.read_eq valid.writable supported' hparts (Bytes.holds_all content)
  rw [← within.constants] at shown
  unfold ofBytes
  simp only [hread, within.name_eq shown, within.superName_eq shown, within.interfaces_eq shown,
    bind, Except.bind]
  rfl

namespace Registry

variable {π : Type}

/-- The registry has a class, or a file that gives it. -/
def Offers (registry : Registry) (name : String) (c : DefinedClass) : Prop :=
  registry.defined[name]? = some c ∨
    registry.defined[name]? = none ∧ ∃ bytes, registry.registered[name]? = some bytes ∧
      DefinedClass.named name bytes = .ok c

section Turns

variable {source : Parent π} {registry : Registry} {parent : π} {answer : Answer}
  {after : Registry × π} {name other : String} {c : DefinedClass}

theorem Offers.has (offers : registry.Offers name c) : registry.has name = true := by
  apply eq_true_of_ne_false
  intro absent
  obtain ⟨unregistered, undefined⟩ := has_eq_false_iff.mp absent
  obtain known | ⟨-, bytes, waits, -⟩ := offers
  · rw [undefined] at known
    contradiction
  · rw [unregistered] at waits
    contradiction

/-- A load of a name gives the class that is offered under it, and leaves the parent alone. -/
theorem Offers.act (offers : registry.Offers name c) (source : Parent π) (parent : π) :
    ((Call.load name).act source (registry, parent)).1 = .ok (some c) ∧
      ((Call.load name).act source (registry, parent)).2.2 = parent := by
  obtain known | ⟨undefined, bytes, waits, defines⟩ := offers
  · have act_eq := @act_load_of_defined _ source (registry, parent) name c known
    rw [act_eq]
    exact ⟨rfl, rfl⟩
  · have act_eq := @act_load_of_waiting _ source (registry, parent) name bytes c undefined waits
      defines
    rw [act_eq]
    exact ⟨rfl, rfl⟩

/-- A load of any name leaves what is offered. -/
theorem Offers.load (offers : registry.Offers name c)
    (turn : Turn source registry parent (.load other) answer after) :
    after.1.Offers name c := by
  cases known : after.1.defined[name]? with
  | none =>
      obtain defined | ⟨-, bytes, waits, defines⟩ := offers
      · rw [turn.undefined_before known] at defined
        contradiction
      · refine .inr ⟨known, bytes, ?_, defines⟩
        rw [turn.registered_eq known, waits]
        rfl
  | some found =>
      left
      rw [known]
      obtain defined | ⟨undefined, -, -, bytes, waits, defines⟩ :=
        turn.defined_before_or_here known
      · obtain defined' | ⟨undefined, -⟩ := offers
        · exact defined.symm.trans defined'
        · rw [defined] at undefined
          contradiction
      · obtain defined | ⟨-, bytes', waits', defines'⟩ := offers
        · rw [undefined] at defined
          contradiction
        · obtain rfl := Option.some.inj (waits.symm.trans waits')
          exact congrArg some (Except.ok.inj (defines.symm.trans defines'))

/-- A load does not bring a name about. -/
theorem Turn.absent_of_load (turn : Turn source registry parent (.load other) answer after)
    (absent : registry.has name = false) : after.1.has name = false := by
  obtain ⟨unregistered, undefined⟩ := has_eq_false_iff.mp absent
  have undefined_after : after.1.defined[name]? = none := by
    apply Option.eq_none_iff_forall_ne_some.mpr
    intro c known
    obtain defined | ⟨-, -, -, bytes, waits, -⟩ := turn.defined_before_or_here known
    · rw [undefined] at defined
      contradiction
    · rw [unregistered] at waits
      contradiction
  rw [has_eq_false_iff]
  exact ⟨by rw [turn.registered_eq undefined_after, unregistered]; rfl, undefined_after⟩

end Turns

section Runs

variable {state : Registry × π} {name : String} {c : DefinedClass}

theorem Offers.after_loads (offers : state.1.Offers name c) (source : Parent π)
    (loads : List String) : (after source (loads.map .load) state).1.Offers name c := by
  induction loads using List.reverseRecOn with
  | nil => exact offers
  | append_singleton loads other ih =>
      rw [List.map_append]
      exact ih.load (turn_after source (loads.map .load) (.load other) state)

theorem absent_after_loads (absent : state.1.has name = false) (source : Parent π)
    (loads : List String) : (after source (loads.map .load) state).1.has name = false := by
  induction loads using List.reverseRecOn with
  | nil => exact absent
  | append_singleton loads other ih =>
      rw [List.map_append]
      exact (turn_after source (loads.map .load) (.load other) state).absent_of_load ih

theorem has_after_loads (source : Parent π) (loads : List String) (state : Registry × π)
    (name : String) :
    (after source (loads.map .load) state).1.has name = state.1.has name := by
  cases present : state.1.has name with
  | true => exact grows_after present _
  | false => exact absent_after_loads present source loads

/-- Of the names that are loaded, those that the registry lacks are asked for, in order. -/
theorem asked_by_loads (source : Parent π) (registry : Registry) (parent : π)
    (loads : List String) :
    (after source.noting (loads.map .load) (registry, [], parent)).2.1 =
      loads.filter (!registry.has ·) := by
  induction loads using List.reverseRecOn with
  | nil => rfl
  | append_singleton loads name ih =>
      have has_eq := has_after_loads source.noting loads (registry, [], parent) name
      rw [List.map_append, List.map_singleton, after_concat, List.filter_append, ← ih]
      generalize after source.noting (loads.map .load) (registry, [], parent) = state at has_eq ⊢
      obtain ⟨now, names, parentNow⟩ := state
      rw [act_noting, Call.asks, has_eq]
      cases present : registry.has name <;> simp [present]

end Runs

/-- Files are registered with a registry that has no classes yet. -/
theorem registerAll_eq (files : List (String × Bytes)) {registry : Registry}
    (undefined : ∀ name : String, registry.defined.contains name = false) :
    registerAll files registry =
      .ok () { registry with registered := registry.registered.insertMany files } := by
  induction files generalizing registry with
  | nil => rw [Std.TreeMap.insertMany_nil]; rfl
  | cons file files ih =>
      have first : register file.1 file.2 registry =
          .ok () { registry with registered := registry.registered.insert file.1 file.2 } := by
        rw [register, if_neg]
        rw [undefined]
        decide
      rw [Std.TreeMap.insertMany_cons]
      calc registerAll (file :: files) registry
        _ = registerAll files { registry with
              registered := registry.registered.insert file.1 file.2 } := by
          change (register file.1 file.2 >>= fun _ => registerAll files) registry = _
          simp only [bind, EStateM.bind, first]
        _ = _ := ih undefined

end Registry

namespace Catalog

open Registry (Call Parent after)

variable {catalog : Catalog}

/-- The file of a class, by its name. -/
def IsFile (c : ClassDef) (file : String × Bytes) : Prop :=
  ∃ content, c.encode = .ok content ∧ file = (c.name, content.toArray)

/-- Every class of a catalog is encoded, under its name. -/
theorem exists_encode (encodes : ∀ c ∈ catalog.toList, ∃ content, c.encode = .ok content) :
    ∃ files, catalog.encode = .ok files ∧ List.Forall₂ IsFile catalog.toList files := by
  obtain ⟨files, related⟩ : ∃ files, List.Forall₂ (flip IsFile) files catalog.toList := by
    apply exists_forall₂
    intro c mem
    obtain ⟨content, encoded⟩ := encodes c mem
    exact ⟨(c.name, content.toArray), content, encoded, rfl⟩
  refine ⟨files, mapM_eq_ok_iff.mpr (related.flip.imp ?_), related.flip⟩
  rintro c file ⟨content, encoded, rfl⟩
  rw [encoded]
  rfl

section Files

variable {files : List (String × Bytes)} (related : List.Forall₂ IsFile catalog.toList files)

include related

theorem names_of_files : files.map Prod.fst = catalog.names := by
  rw [names]
  generalize catalog.toList = classes at related
  induction related with
  | nil => rfl
  | cons first _ ih =>
      obtain ⟨content, -, rfl⟩ := first
      rw [List.map_cons, List.map_cons, ih]

theorem offers_of_files (distinct : catalog.names.Nodup) {c : ClassDef} (mem : c ∈ catalog.toList)
    (supported : c.version.major ≤ Version.latestMajor) {content : List UInt8}
    (encoded : c.encode = .ok content) :
    Registry.Offers ⟨Std.TreeMap.insertMany ∅ files, ∅⟩ c.name (c.defined content) := by
  obtain ⟨file, mem, content', encoded', rfl⟩ := exists_right related mem
  obtain rfl := Except.ok.inj (encoded.symm.trans encoded')
  have apart : List.Pairwise (fun a b => ¬ compare a.1 b.1 = .eq) files := by
    rw [← names_of_files related, List.Nodup, List.pairwise_map] at distinct
    exact distinct.imp fun differ same => differ (Std.compare_eq_iff_eq.mp same)
  refine .inr ⟨Std.TreeMap.getElem?_emptyc, content.toArray, ?_, ?_⟩
  · exact Std.TreeMap.getElem?_insertMany_list_of_mem Std.ReflCmp.compare_self apart mem
  · exact DefinedClass.named_eq_ok_iff.mpr
      ⟨DefinedClass.ofBytes_of_encode supported encoded, rfl⟩

theorem absent_of_files {name : String} (other : name ∉ catalog.names) :
    Registry.has ⟨Std.TreeMap.insertMany ∅ files, ∅⟩ name = false := by
  rw [Registry.has_eq_false_iff]
  refine ⟨?_, Std.TreeMap.getElem?_emptyc⟩
  rw [← names_of_files related] at other
  rw [Std.TreeMap.getElem?_insertMany_list_of_contains_eq_false (by simpa using other)]
  exact Std.TreeMap.getElem?_emptyc

end Files

/-- Whatever was loaded before, a registry gives the classes of a catalog and asks its parent for
nothing else. -/
structure Serves (catalog : Catalog) (registry : Registry) : Prop where
  /-- A class of the catalog is given as it was encoded, and the parent stays as it is. -/
  gives : ∀ {π : Type} (source : Parent π) (parent : π) (loads : List String),
    ∀ c ∈ catalog.toList, ∃ content, c.encode = .ok content ∧
      ((Call.load c.name).act source (after source (loads.map .load) (registry, parent))).1 =
        .ok (some ⟨c.name, c.super, c.interfaces, content.toArray⟩) ∧
      ((Call.load c.name).act source (after source (loads.map .load) (registry, parent))).2.2 =
        (after source (loads.map .load) (registry, parent)).2
  /-- For another name, the parent's answer is given. -/
  delegates : ∀ {π : Type} (source : Parent π) (parent : π) (loads : List String),
    ∀ name ∉ catalog.names,
      ((Call.load name).act source (after source (loads.map .load) (registry, parent))).1 =
        (Registry.loaded (source name (after source (loads.map .load) (registry, parent)).2)).1
  /-- The parent is asked exactly for the other names, once for each load. -/
  asks : ∀ {π : Type} (source : Parent π) (parent : π) (loads : List String),
    (after source.noting (loads.map .load) (registry, [], parent)).2.1 =
      loads.filter (· ∉ catalog.names)

/-- A catalog of classes that have different names, are not too new and can all be encoded gives a
registry that serves these classes. -/
theorem registry_serves (distinct : catalog.names.Nodup)
    (supported : ∀ c ∈ catalog.toList, c.version.major ≤ Version.latestMajor)
    (encodes : ∀ c ∈ catalog.toList, ∃ content, c.encode = .ok content) :
    ∃ registry, catalog.registry = .ok registry ∧
      (∀ parent : Loader, catalog.loader parent = .ok (.registry registry parent)) ∧
      catalog.Serves registry := by
  obtain ⟨files, encoded, related⟩ := exists_encode encodes
  have registry_eq : catalog.registry = .ok ⟨Std.TreeMap.insertMany ∅ files, ∅⟩ := by
    have registered := @Registry.registerAll_eq files .empty fun _ => rfl
    simp only [Catalog.registry, encoded, bind, Except.bind, registered]
    rfl
  refine ⟨_, registry_eq, fun parent => ?_, ?_⟩
  · rw [loader, registry_eq]
    rfl
  · have offers {c : ClassDef} (mem : c ∈ catalog.toList) {content : List UInt8}
        (encoded : c.encode = .ok content) :=
      offers_of_files related distinct mem (supported c mem) encoded
    constructor
    · intro π source parent loads c mem
      obtain ⟨content, encoded⟩ := encodes c mem
      exact ⟨content, encoded, ((offers mem encoded).after_loads source loads).act source _⟩
    · intro π source parent loads name other
      rw [Registry.act_load_of_absent]
      exact Registry.absent_after_loads (absent_of_files related other) source loads
    · intro π source parent loads
      rw [Registry.asked_by_loads]
      apply List.filter_congr
      intro name _
      by_cases present : name ∈ catalog.names
      · obtain ⟨c, mem, rfl⟩ := List.mem_map.mp present
        obtain ⟨content, encoded⟩ := encodes c mem
        rw [(offers mem encoded).has]
        simp [present]
      · rw [absent_of_files related present]
        simp [present]

/-- A class with an interface, and its super class. -/
def family : Catalog :=
  (empty.add (.new "B" none)).add { ClassDef.new "A" (some "B") with interfaces := ["I"] }

theorem registry_serves_family :
    family.names = ["B", "A"] ∧ ∃ registry, family.registry = .ok registry ∧
      (∀ parent : Loader, family.loader parent = .ok (.registry registry parent)) ∧
      family.Serves registry := by
  have encoded : ∀ c ∈ family.toList, c.encode.toOption.isSome = true := by decide +kernel
  refine ⟨by decide +kernel, registry_serves (by decide +kernel) (by decide +kernel) ?_⟩
  intro c mem
  have isSome := encoded c mem
  cases encode : c.encode with
  | error error =>
      rw [encode] at isSome
      cases isSome
  | ok content => exact ⟨content, rfl⟩

end Catalog

end JavaClass
