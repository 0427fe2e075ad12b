import JavaClass.Proofs.Loading.Histories

/-!
# Loading a class again

A parent honours the contract of loaders if all the classes that it gives for
one name are the same. A registry with such a parent gives the same class again,
unless its parent gave the first one and a file was registered under the name
since: what the parent gives is not kept, so the file is defined beside it.
-/

namespace JavaClass.Registry

variable {π : Type}

/-- What a parent can become by being asked. -/
inductive Parent.Becomes (source : Parent π) (parent : π) : π → Prop
  | unasked : Becomes source parent parent
  | gave {name : String} {c : DefinedClass} {between after : π}
      (becomes : Becomes source parent between) (gives : source name between = .ok c after) :
      Becomes source parent after
  | failed {name : String} {error : Error} {between after : π}
      (becomes : Becomes source parent between) (fails : source name between = .error error after) :
      Becomes source parent after

/-- Two classes that a parent gives for one name are the same, whatever it is asked before and in
between. -/
def Parent.Honours (source : Parent π) (parent : π) : Prop :=
  ∀ (name : String) (c c' : DefinedClass) (first left second last : π),
    Becomes source parent first → source name first = .ok c left →
      Becomes source left second → source name second = .ok c' last → c' = c

theorem Parent.Becomes.trans {source : Parent π} {first second third : π}
    (before : Becomes source first second) (later : Becomes source second third) :
    Becomes source first third := by
  induction later with
  | unasked => exact before
  | gave _ gives ih => exact ih.gave gives
  | failed _ fails ih => exact ih.failed fails

section Turns

variable {source : Parent π} {registry : Registry} {parent : π} {name : String} {c : DefinedClass}
  {state : Registry × π}

theorem Turn.becomes {call : Call} {answer : Answer} {after : Registry × π}
    (turn : Turn source registry parent call answer after) : source.Becomes parent after.2 := by
  cases turn with
  | @asked name =>
      cases asked : source name parent with
      | ok c left => exact .gave .unasked asked
      | error error left => exact .failed .unasked asked
  | _ => exact .unasked

theorem becomes_after (source : Parent π) (calls : List Call) (state : Registry × π) :
    source.Becomes state.2 (after source calls state).2 := by
  induction calls using List.reverseRecOn with
  | nil => exact .unasked
  | append_singleton calls call ih => exact ih.trans (turn_after source calls call state).becomes

/-- A class that a load gives is one that the registry keeps from then on, or one of the parent. -/
theorem Turn.gives {call : Call} {answer : Answer} {after : Registry × π}
    (turn : Turn source registry parent call answer after) (loads : call = .load name)
    (given : answer = .ok (some c)) :
    after.1.defined[name]? = some c ∨
      registry.has name = false ∧ after.1 = registry ∧ source name parent = .ok c after.2 := by
  cases turn with
  | registered => contradiction
  | duplicate => contradiction
  | refused => contradiction
  | @again other found known =>
      obtain rfl := Call.load.inj loads
      obtain rfl := Option.some.inj (Except.ok.inj given)
      exact .inl known
  | @defined other bytes found =>
      obtain rfl := Call.load.inj loads
      obtain rfl := Option.some.inj (Except.ok.inj given)
      exact .inl Std.TreeMap.getElem?_insert_self
  | @asked other undefined unregistered =>
      obtain rfl := Call.load.inj loads
      cases asked : source other parent with
      | error error left =>
          rw [asked] at given
          contradiction
      | ok found left =>
          rw [asked] at given
          obtain rfl := Option.some.inj (Except.ok.inj given)
          exact .inr ⟨has_eq_false_iff.mpr ⟨unregistered, undefined⟩, rfl, rfl⟩

theorem register_mem_of_lastFile? {calls : List Call} {bytes : Bytes}
    (last : lastFile? name calls = some bytes) : .register name bytes ∈ calls := by
  obtain ⟨call, mem, brings⟩ := List.exists_of_findSome?_eq_some last
  cases call with
  | load other => contradiction
  | register other contents =>
      rw [Call.file?] at brings
      split at brings
      next same =>
        rw [← same, ← Option.some.inj brings]
        exact List.mem_reverse.mp mem
      next => contradiction

/-- A class that is defined under a name that was absent comes from a file that was registered
since. -/
theorem registered_since (absent : state.1.has name = false) {calls : List Call}
    (known : (after source calls state).1.defined[name]? = some c) :
    ∃ bytes, .register name bytes ∈ calls ∧ DefinedClass.named name bytes = .ok c := by
  obtain ⟨unregistered, undefined⟩ := has_eq_false_iff.mp absent
  obtain ⟨earlier, later, rfl, -, -, bytes, last, defines⟩ := origin_after state undefined known
  rw [unregistered, Option.or_none] at last
  exact ⟨bytes, List.mem_append_left _ (register_mem_of_lastFile? last), defines⟩

end Turns

/-- A registry whose parent honours the contract of loaders gives the same class of a name again,
unless the class was one of the parent and a file of the name was registered since; then it may also
give the class of that file. -/
theorem load_agrees_unless_registered_since (source : Parent π) (state : Registry × π)
    (honours : source.Honours state.2) (earlier between : List Call) (name : String)
    (c c' : DefinedClass)
    (first : ((Call.load name).act source (after source earlier state)).1 = .ok (some c))
    (second : ((Call.load name).act source
      (after source (earlier ++ .load name :: between) state)).1 = .ok (some c')) :
    c' = c ∨ (after source earlier state).1.has name = false ∧
      ∃ bytes, .register name bytes ∈ between ∧ DefinedClass.named name bytes = .ok c' := by
  have after_eq : after source (earlier ++ .load name :: between) state =
      after source between ((Call.load name).act source (after source earlier state)).2 :=
    List.foldl_append
  rw [after_eq] at second
  -- A class that the registry gave stays; one of its parent is compared with what is given later.
  have parent_now := becomes_after source earlier state
  generalize after source earlier state = now at *
  obtain kept | ⟨absent, same, given⟩ := (turn_act source now (.load name)).gives rfl first
  · left
    rw [act_load_of_defined (stays_after kept between)] at second
    exact (Option.some.inj (Except.ok.inj second)).symm
  · rw [← same] at absent ⊢
    generalize (Call.load name).act source now = loaded at *
    have parent_later := becomes_after source between loaded.2
    have lastTurn := turn_after source between (.load name) loaded.2
    obtain kept | ⟨-, -, given'⟩ := lastTurn.gives rfl second
    · right
      obtain ⟨bytes, registers, defines⟩ := registered_since absent kept
      refine ⟨absent, bytes, ?_, defines⟩
      obtain registers | loads := List.mem_append.mp registers
      · exact registers
      · simp at loads
    · left
      exact honours name c c' _ _ _ _ parent_now given parent_later given'

/-- A file of the class `p`, which has no super class. -/
def rootFile : Bytes :=
  #[0xCA, 0xFE, 0xBA, 0xBE, 0, 0, 0, 0x34, 0, 3, 1, 0, 1, 0x70, 7, 0, 1, 0, 0x21, 0, 2, 0, 0, 0, 0,
    0, 0, 0, 0, 0, 0]

/-- A file of another class `p`, below `q`. -/
def shadowFile : Bytes :=
  #[0xCA, 0xFE, 0xBA, 0xBE, 0, 0, 0, 0x34, 0, 5, 1, 0, 1, 0x70, 7, 0, 1, 1, 0, 1, 0x71, 7, 0, 3, 0,
    0x21, 0, 2, 0, 4, 0, 0, 0, 0, 0, 0, 0, 0]

/-- Has the first of the two classes and no other. -/
def rootOnly : Parent Unit := fun name =>
  if name = "p" then return ⟨"p", none, [], rootFile⟩ else throw (.classNotFound name)

theorem rootOnly_honours : rootOnly.Honours () := by
  have only {name : String} {parent left : Unit} {c : DefinedClass}
      (given : rootOnly name parent = .ok c left) : c = ⟨"p", none, [], rootFile⟩ := by
    rw [rootOnly] at given
    split at given
    · cases given
      rfl
    · contradiction
  intro name c c' _ _ _ _ _ given _ given'
  rw [only given, only given']

theorem load_agrees_unless_registered_since_shadow :
    rootOnly.Honours () ∧
      ((Call.load "p").act rootOnly (after rootOnly [] (empty, ()))).1 =
        .ok (some ⟨"p", none, [], rootFile⟩) ∧
      ((Call.load "p").act rootOnly
          (after rootOnly [.load "p", .register "p" shadowFile] (empty, ()))).1 =
        .ok (some ⟨"p", some "q", [], shadowFile⟩) ∧
      (after rootOnly [] (empty, ())).1.has "p" = false ∧
      DefinedClass.named "p" shadowFile = .ok ⟨"p", some "q", [], shadowFile⟩ := by
  have first : ((Call.load "p").act rootOnly (after rootOnly [] (empty, ()))).1 =
      .ok (some ⟨"p", none, [], rootFile⟩) := by
    decide +kernel
  have second : ((Call.load "p").act rootOnly
        (after rootOnly [.load "p", .register "p" shadowFile] (empty, ()))).1 =
      .ok (some ⟨"p", some "q", [], shadowFile⟩) := by
    decide +kernel
  obtain same | ⟨absent, bytes, registers, defines⟩ := load_agrees_unless_registered_since rootOnly
    (empty, ()) rootOnly_honours [] [.register "p" shadowFile] "p" _ _ first second
  · simp at same
  · obtain rfl : bytes = shadowFile := by simpa using registers
    exact ⟨rootOnly_honours, first, second, absent, defines⟩

/-- A registry does not always give the same class again when its parent does. -/
theorem not_forall_load_agrees :
    ¬ ∀ {π : Type} (source : Parent π) (parent : π), source.Honours parent →
      ∀ (earlier between : List Call) (name : String) (c c' : DefinedClass),
        ((Call.load name).act source (history source parent earlier)).1 = .ok (some c) →
        ((Call.load name).act source
          (history source parent (earlier ++ .load name :: between))).1 = .ok (some c') →
        c' = c := by
  intro agree
  have same := agree rootOnly () rootOnly_honours [] [.register "p" shadowFile] "p"
    ⟨"p", none, [], rootFile⟩ ⟨"p", some "q", [], shadowFile⟩ (by decide +kernel)
    (by decide +kernel)
  simp at same

end JavaClass.Registry
