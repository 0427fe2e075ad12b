import Mathlib.Data.List.Induction
import JavaClass.Loading.Loader
import JavaClass.Proofs.Bytes.Reading

/-!
# Histories of registries

A registry is asked for classes and given class files in any order. Whatever
happens, a name is registered or defined but not both, a class comes from the
file that was registered last before it was defined, a defined class stays, and
the parent is asked for the other names only.

## Implementation notes

A parent is any function on a state of any type, so it may remember what it is
asked, read files or change its mind. A parent that notes the names that it is
asked for shows when it is asked (`Registry.Parent.noting`).
-/

namespace JavaClass

namespace DefinedClass

variable {name : String} {bytes : Bytes} {c : DefinedClass}

theorem named_eq_ok_iff : named name bytes = .ok c ↔ ofBytes bytes = .ok c ∧ c.name = name := by
  rw [named, exceptBind_eq_ok_iff]
  constructor
  · rintro ⟨read, defined, kept⟩
    split at kept
    next named =>
      obtain rfl := Except.ok.inj kept
      exact ⟨defined, named⟩
    next => contradiction
  · rintro ⟨defined, named⟩
    exact ⟨c, defined, if_pos named⟩

end DefinedClass

namespace Registry

variable {π : Type}

/-- What a parent does when it is asked for a name. -/
abbrev Parent (π : Type) := String → EStateM Error π DefinedClass

/-- The same parent, which also notes the names that it is asked for. -/
def Parent.noting (source : Parent π) : Parent (List String × π) := fun name (asked, parent) =>
  DefinedClass.keep (asked ++ [name], ·) (source name parent)

/-- What a caller can ask of a registry. -/
inductive Call
  | register (name : String) (bytes : Bytes)
  | load (name : String)

/-- The class that a call gives, if it is one that gives a class, or why it fails. -/
abbrev Answer := Except Error (Option DefinedClass)

/-- The answer of a load, and what it leaves behind. -/
def loaded {σ : Type} : EStateM.Result Error σ DefinedClass → Answer × σ
  | .ok c after => (.ok (some c), after)
  | .error error after => (.error error, after)

/-- What a registry and its parent do at a call. -/
def Call.act (source : Parent π) (state : Registry × π) : Call → Answer × Registry × π
  | .register name bytes =>
      match Registry.register name bytes state.1 with
      | .ok () registry => (.ok none, registry, state.2)
      | .error error registry => (.error error, registry, state.2)
  | .load name => loaded (state.1.loadOr (m := Id) name state.2 (source name state.2))

/-- A registry and its parent after calls. -/
def after (source : Parent π) (calls : List Call) (state : Registry × π) : Registry × π :=
  calls.foldl (fun state call => (call.act source state).2) state

/-- An empty registry and its parent after calls. -/
def history (source : Parent π) (parent : π) (calls : List Call) : Registry × π :=
  after source calls (empty, parent)

/-- The names that the parent of an empty registry is asked for at calls, in order. -/
def asked (source : Parent π) (parent : π) (calls : List Call) : List String :=
  (history source.noting ([], parent) calls).2.1

/-- The name that a call asks the parent of a registry for. -/
def Call.asks (registry : Registry) : Call → List String
  | .register _ _ => []
  | .load name => if registry.has name then [] else [name]

/-- The class file that a call brings for a name. -/
def Call.file? (name : String) : Call → Option Bytes
  | .register other bytes => if other = name then some bytes else none
  | .load _ => none

/-- The class file that calls bring last for a name. -/
def lastFile? (name : String) (calls : List Call) : Option Bytes :=
  calls.reverse.findSome? (·.file? name)

theorem has_eq_false_iff {registry : Registry} {name : String} : registry.has name = false ↔
    registry.registered[name]? = none ∧ registry.defined[name]? = none := by
  rw [has, Bool.or_eq_false_iff, Std.TreeMap.contains_eq_isSome_getElem?,
    Std.TreeMap.contains_eq_isSome_getElem?, Option.isSome_eq_false_iff,
    Option.isSome_eq_false_iff, Option.isNone_iff_eq_none, Option.isNone_iff_eq_none]

section Answers

variable {source : Parent π} {state : Registry × π} {name : String} {bytes : Bytes}
  {c : DefinedClass}

theorem act_register_of_undefined (undefined : state.1.defined[name]? = none) :
    (Call.register name bytes).act source state =
      (.ok none, { state.1 with registered := state.1.registered.insert name bytes },
        state.2) := by
  rw [Call.act, Registry.register, Std.TreeMap.contains_eq_isSome_getElem?, undefined]
  rfl

theorem act_register_of_defined (known : state.1.defined[name]? = some c) :
    (Call.register name bytes).act source state = (.error (.duplicateClass name), state) := by
  rw [Call.act, Registry.register, Std.TreeMap.contains_eq_isSome_getElem?, known]
  rfl

theorem act_load_of_defined (known : state.1.defined[name]? = some c) :
    (Call.load name).act source state = (.ok (some c), state) := by
  rw [Call.act, loadOr, load?, known]
  rfl

/-- A file that waits is defined. -/
theorem act_load_of_waiting (undefined : state.1.defined[name]? = none)
    (waits : state.1.registered[name]? = some bytes)
    (defines : DefinedClass.named name bytes = .ok c) :
    (Call.load name).act source state =
      (.ok (some c), { registered := state.1.registered.erase name
                       defined := state.1.defined.insert name c }, state.2) := by
  rw [Call.act, loadOr, load?, undefined, waits]
  simp only [defines]
  rfl

/-- A file that waits and cannot be defined goes on waiting. -/
theorem act_load_of_refused {error : Error} (undefined : state.1.defined[name]? = none)
    (waits : state.1.registered[name]? = some bytes)
    (fails : DefinedClass.named name bytes = .error error) :
    (Call.load name).act source state = (.error error, state) := by
  rw [Call.act, loadOr, load?, undefined, waits]
  simp only [fails]
  rfl

/-- The parent is asked for a name that is neither registered nor defined. -/
theorem act_load_of_absent (absent : state.1.has name = false) :
    (Call.load name).act source state = ((loaded (source name state.2)).1, state.1,
      (loaded (source name state.2)).2) := by
  obtain ⟨unregistered, undefined⟩ := has_eq_false_iff.mp absent
  rw [Call.act, loadOr, load?, undefined, unregistered]
  cases source name state.2 <;> rfl

end Answers

/-- All that can happen at a call. -/
inductive Turn (source : Parent π) (registry : Registry) (parent : π) :
    Call → Answer → Registry × π → Prop
  | registered {name : String} {bytes : Bytes} (undefined : registry.defined[name]? = none) :
      Turn source registry parent (.register name bytes) (.ok none)
        ({ registry with registered := registry.registered.insert name bytes }, parent)
  | duplicate {name : String} {bytes : Bytes} {c : DefinedClass}
      (known : registry.defined[name]? = some c) :
      Turn source registry parent (.register name bytes) (.error (.duplicateClass name))
        (registry, parent)
  | again {name : String} {c : DefinedClass} (known : registry.defined[name]? = some c) :
      Turn source registry parent (.load name) (.ok (some c)) (registry, parent)
  | defined {name : String} {bytes : Bytes} {c : DefinedClass}
      (undefined : registry.defined[name]? = none)
      (waits : registry.registered[name]? = some bytes)
      (defines : DefinedClass.named name bytes = .ok c) :
      Turn source registry parent (.load name) (.ok (some c))
        ({ registered := registry.registered.erase name
           defined := registry.defined.insert name c }, parent)
  | refused {name : String} {bytes : Bytes} {error : Error}
      (undefined : registry.defined[name]? = none)
      (waits : registry.registered[name]? = some bytes)
      (fails : DefinedClass.named name bytes = .error error) :
      Turn source registry parent (.load name) (.error error) (registry, parent)
  | asked {name : String} (undefined : registry.defined[name]? = none)
      (unregistered : registry.registered[name]? = none) :
      Turn source registry parent (.load name) (loaded (source name parent)).1
        (registry, (loaded (source name parent)).2)

theorem turn_act (source : Parent π) (state : Registry × π) (call : Call) :
    Turn source state.1 state.2 call (call.act source state).1 (call.act source state).2 := by
  cases call with
  | register name bytes =>
      cases known : state.1.defined[name]? with
      | none =>
          rw [act_register_of_undefined known]
          exact .registered known
      | some c =>
          rw [act_register_of_defined known]
          exact .duplicate known
  | load name =>
      cases known : state.1.defined[name]? with
      | some c =>
          rw [act_load_of_defined known]
          exact .again known
      | none =>
          cases waits : state.1.registered[name]? with
          | none =>
              rw [act_load_of_absent (has_eq_false_iff.mpr ⟨waits, known⟩)]
              exact .asked known waits
          | some bytes =>
              cases defines : DefinedClass.named name bytes with
              | error error =>
                  rw [act_load_of_refused known waits defines]
                  exact .refused known waits defines
              | ok c =>
                  rw [act_load_of_waiting known waits defines]
                  exact .defined known waits defines

section Turns

variable {source : Parent π} {registry : Registry} {parent : π} {call : Call} {answer : Answer}
  {after : Registry × π} {name : String} {c : DefinedClass}

/-- A defined class stays. -/
theorem Turn.stays (turn : Turn source registry parent call answer after)
    (known : registry.defined[name]? = some c) : after.1.defined[name]? = some c := by
  cases turn with
  | @defined other _ _ undefined =>
      rw [Std.TreeMap.getElem?_insert, if_neg, known]
      intro same
      rw [Std.compare_eq_iff_eq.mp same, known] at undefined
      contradiction
  | _ => exact known

theorem Turn.undefined_before (turn : Turn source registry parent call answer after)
    (undefined : after.1.defined[name]? = none) : registry.defined[name]? = none := by
  cases known : registry.defined[name]? with
  | none => rfl
  | some c =>
      rw [turn.stays known] at undefined
      contradiction

/-- A class is defined by a load, which gives it, from the file that waits under its name. -/
theorem Turn.defined_before_or_here (turn : Turn source registry parent call answer after)
    (known : after.1.defined[name]? = some c) :
    registry.defined[name]? = some c ∨
      registry.defined[name]? = none ∧ call = .load name ∧ answer = .ok (some c) ∧
        ∃ bytes, registry.registered[name]? = some bytes ∧
          DefinedClass.named name bytes = .ok c := by
  cases turn with
  | @defined other bytes _ undefined waits defines =>
      rw [Std.TreeMap.getElem?_insert] at known
      split at known
      next same =>
        obtain rfl := Std.compare_eq_iff_eq.mp same
        obtain rfl := Option.some.inj known
        exact .inr ⟨undefined, rfl, rfl, bytes, waits, defines⟩
      next => exact .inl known
  | _ => exact .inl known

/-- What waits under a name that is not defined: the file that a call brings, or the one that
waited before. -/
theorem Turn.registered_eq (turn : Turn source registry parent call answer after)
    (undefined : after.1.defined[name]? = none) :
    after.1.registered[name]? = (call.file? name).or registry.registered[name]? := by
  cases turn with
  | @registered other bytes =>
      rw [Std.TreeMap.getElem?_insert, Call.file?]
      by_cases same : other = name
      · simp [same]
      · simp [same]
  | @duplicate other bytes _ known =>
      have differs : other ≠ name := by
        rintro rfl
        rw [known] at undefined
        contradiction
      simp [Call.file?, differs]
  | @defined other bytes =>
      rw [Std.TreeMap.getElem?_insert] at undefined
      split at undefined
      · contradiction
      next differs => rw [Std.TreeMap.getElem?_erase, if_neg differs]; rfl
  | _ => rfl

/-- No name comes to be both registered and defined. -/
theorem Turn.apart (turn : Turn source registry parent call answer after)
    (apart : ∀ c, registry.defined[name]? = some c → registry.registered[name]? = none)
    (known : after.1.defined[name]? = some c) : after.1.registered[name]? = none := by
  cases turn with
  | @registered other bytes undefined =>
      rw [Std.TreeMap.getElem?_insert, if_neg]
      · exact apart c known
      · intro same
        rw [Std.compare_eq_iff_eq.mp same, known] at undefined
        contradiction
  | @defined other bytes =>
      rw [Std.TreeMap.getElem?_erase]
      rw [Std.TreeMap.getElem?_insert] at known
      split
      · rfl
      next differs => exact apart c (by rwa [if_neg differs] at known)
  | _ => exact apart c known

/-- A name that is registered or defined stays so. -/
theorem Turn.grows (turn : Turn source registry parent call answer after)
    (has : registry.has name = true) : after.1.has name = true := by
  apply eq_true_of_ne_false
  intro lost
  obtain ⟨unregistered, undefined⟩ := has_eq_false_iff.mp lost
  have absent : registry.has name = false := by
    rw [has_eq_false_iff]
    constructor
    · rw [turn.registered_eq undefined, Option.or_eq_none_iff] at unregistered
      exact unregistered.2
    · exact turn.undefined_before undefined
  rw [has] at absent
  contradiction

end Turns

section Asking

variable {name : String}

theorem load?_eq_none_iff {registry : Registry} :
    registry.load? name = none ↔ registry.has name = false := by
  rw [has_eq_false_iff, load?]
  cases registry.defined[name]? with
  | some c => simp
  | none =>
      cases registry.registered[name]? with
      | none => simp
      | some bytes => cases named : DefinedClass.named name bytes <;> simp [named]

/-- A parent that notes what it is asked for does as it did before, and notes the names that are
neither registered nor defined. -/
theorem act_noting (source : Parent π) (registry : Registry) (names : List String) (parent : π)
    (call : Call) :
    call.act source.noting (registry, names, parent) =
      ((call.act source (registry, parent)).1, (call.act source (registry, parent)).2.1,
        names ++ call.asks registry, (call.act source (registry, parent)).2.2) := by
  cases call with
  | register name bytes =>
      rw [Call.act, Call.act, Call.asks, List.append_nil]
      cases Registry.register name bytes registry <;> rfl
  | load name =>
      rw [Call.act, Call.act, Call.asks, loadOr, loadOr]
      cases found : registry.load? name with
      | none =>
          rw [if_neg (by rw [load?_eq_none_iff.mp found]; decide)]
          simp only [Parent.noting]
          cases source name parent <;> rfl
      | some result =>
          have present : registry.has name = true := by
            apply eq_true_of_ne_false
            intro absent
            rw [load?_eq_none_iff.mpr absent] at found
            contradiction
          rw [if_pos present, List.append_nil]
          cases result <;> rfl

end Asking

section Runs

variable {source : Parent π} {state : Registry × π} {name : String} {c : DefinedClass}

theorem after_concat (source : Parent π) (calls : List Call) (call : Call)
    (state : Registry × π) :
    after source (calls ++ [call]) state = (call.act source (after source calls state)).2 := by
  rw [after, after, List.foldl_append]
  rfl

/-- The last call of a run. -/
theorem turn_after (source : Parent π) (calls : List Call) (call : Call)
    (state : Registry × π) :
    Turn source (after source calls state).1 (after source calls state).2 call
      (call.act source (after source calls state)).1
      (after source (calls ++ [call]) state) := by
  rw [after_concat]
  exact turn_act source _ call

/-- A defined class stays. -/
theorem stays_after (known : state.1.defined[name]? = some c) (calls : List Call) :
    (after source calls state).1.defined[name]? = some c := by
  induction calls using List.reverseRecOn with
  | nil => exact known
  | append_singleton calls call ih => exact (turn_after source calls call state).stays ih

/-- A name that is registered or defined stays so. -/
theorem grows_after (present : state.1.has name = true) (calls : List Call) :
    (after source calls state).1.has name = true := by
  induction calls using List.reverseRecOn with
  | nil => exact present
  | append_singleton calls call ih => exact (turn_after source calls call state).grows ih

theorem lastFile?_concat (name : String) (calls : List Call) (call : Call) :
    lastFile? name (calls ++ [call]) = (call.file? name).or (lastFile? name calls) := by
  rw [lastFile?, List.reverse_append, List.reverse_singleton, List.singleton_append,
    List.findSome?_cons, lastFile?]
  cases call.file? name <;> rfl

/-- What waits under a name that is not defined is the file that came last, if one came. -/
theorem registered_after {calls : List Call}
    (undefined : (after source calls state).1.defined[name]? = none) :
    (after source calls state).1.registered[name]? =
      (lastFile? name calls).or state.1.registered[name]? := by
  induction calls using List.reverseRecOn with
  | nil => rfl
  | append_singleton calls call ih =>
      have turn := turn_after source calls call state
      rw [turn.registered_eq undefined, ih (turn.undefined_before undefined), lastFile?_concat,
        Option.or_assoc]

/-- A class is defined by a load, which gives it, from the file that came last before. -/
theorem origin_after (state : Registry × π) {calls : List Call}
    (undefined : state.1.defined[name]? = none)
    (known : (after source calls state).1.defined[name]? = some c) :
    ∃ earlier later, calls = earlier ++ .load name :: later ∧
      (after source earlier state).1.defined[name]? = none ∧
      ((Call.load name).act source (after source earlier state)).1 = .ok (some c) ∧
      ∃ bytes, (lastFile? name earlier).or state.1.registered[name]? = some bytes ∧
        DefinedClass.named name bytes = .ok c := by
  -- The last call either found the class defined or is the load in question.
  induction calls using List.reverseRecOn with
  | nil =>
      rw [show state.1.defined[name]? = some c from known] at undefined
      contradiction
  | append_singleton calls call ih =>
      obtain before | ⟨undefined, rfl, gives, bytes, waits, defines⟩ :=
        (turn_after source calls call state).defined_before_or_here known
      · obtain ⟨earlier, later, rfl, rest⟩ := ih before
        exact ⟨earlier, later ++ [call], by simp, rest⟩
      · rw [registered_after undefined] at waits
        exact ⟨calls, [], rfl, undefined, gives, bytes, waits, defines⟩

end Runs

section Histories

variable (source : Parent π) (parent : π)

end Histories

end Registry

namespace Loader

open Registry (Call Answer Parent)

variable {σ : Type} [FileSystem (StateM σ)] [ArchiveLibrary (StateM σ)]

/-- A chain of loaders, and the files that it reads, as a parent. -/
def asParent : Parent (Loader × σ) := fun name (loader, files) =>
  let (result, files) := StateT.run (m := Id) (loader.load (m := StateM σ) name) files
  DefinedClass.keep (·, files) result

/-- What a chain of loaders does at a call. -/
def act (state : Loader × σ) : Call → Answer × Loader × σ
  | .register name bytes =>
      match state.1.register name bytes with
      | .ok () loader => (.ok Option.none, loader, state.2)
      | .error error loader => (.error error, loader, state.2)
  | .load name => Registry.loaded (asParent name state)

/-- A chain of loaders after calls. -/
def after (calls : List Call) (state : Loader × σ) : Loader × σ :=
  calls.foldl (fun state call => (act state call).2) state

/-- The registry at the front of a chain does what it does with the rest of the chain as parent. -/
theorem act_registry (classes : Registry) (parent : Loader) (files : σ) (call : Call) :
    act (.registry classes parent, files) call =
      ((call.act asParent (classes, parent, files)).1,
        .registry (call.act asParent (classes, parent, files)).2.1
          (call.act asParent (classes, parent, files)).2.2.1,
        (call.act asParent (classes, parent, files)).2.2.2) := by
  cases call with
  | register name bytes =>
      rw [act, Call.act, register]
      cases Registry.register name bytes classes <;> rfl
  | load name =>
      rw [act, Call.act, asParent, load, Registry.loadOr, Registry.loadOr]
      cases classes.load? name with
      | some result => cases result <;> rfl
      | none =>
          simp only [asParent, StateT.run_bind, StateT.run_pure]
          obtain ⟨result, left⟩ := StateT.run (m := Id) (parent.load (m := StateM σ) name) files
          cases result <;> rfl

/-- So a chain with a registry at its front has the histories of that registry. -/
theorem after_registry (classes : Registry) (parent : Loader) (files : σ) (calls : List Call) :
    after calls (.registry classes parent, files) =
      (.registry (Registry.after asParent calls (classes, parent, files)).1
          (Registry.after asParent calls (classes, parent, files)).2.1,
        (Registry.after asParent calls (classes, parent, files)).2.2) := by
  induction calls generalizing classes parent files with
  | nil => rfl
  | cons call later ih =>
      simp only [after, Registry.after, List.foldl_cons, act_registry] at ih ⊢
      exact ih _ _ _

end Loader

end JavaClass
