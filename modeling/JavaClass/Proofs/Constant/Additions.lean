import JavaClass.Proofs.Constant.Trees

/-!
# What requests add to a pool

A request for a constant adds the constant and its parts, and nothing else. So
every entry of a pool is a part of something that was asked for.

## Implementation notes

A step may keep more than a pool, and only the pool counts here. Nothing is said
of steps that are refused, which may have added a part of what they ask for.
-/

namespace JavaClass.ConstantPool

variable {σ α β : Type} {poolOf : σ → ConstantPool} {pool pool' pool'' : ConstantPool}
  {trees more : List ConstantTree}

/-- The second pool has grown from the first, and each entry that is new in it is one of these
constants. -/
structure Gains (pool : ConstantPool) (trees : List ConstantTree) (pool' : ConstantPool) :
    Prop where
  valid : pool'.Valid
  below : pool.Below pool'
  fresh : ∀ entry ∈ pool'.entries.entries.toList, entry ∈ pool.entries.entries.toList ∨
    ∃ tree ∈ trees, ∀ table, pool'.Within table → tree.Shown table (UInt16.ofNat entry.1)

theorem Valid.gains_self (valid : pool.Valid) : pool.Gains trees pool :=
  ⟨valid, .refl _, fun _ => .inl⟩

theorem Gains.mono (gains : pool.Gains trees pool') (subset : trees ⊆ more) :
    pool.Gains more pool' where
  valid := gains.valid
  below := gains.below
  fresh := by
    intro entry mem
    refine (gains.fresh entry mem).imp_right ?_
    rintro ⟨tree, mem, shown⟩
    exact ⟨tree, subset mem, shown⟩

theorem Gains.trans (first : pool.Gains trees pool') (second : pool'.Gains trees pool'') :
    pool.Gains trees pool'' where
  valid := second.valid
  below := first.below.trans second.below
  fresh := by
    intro entry mem
    obtain old | new := second.fresh entry mem
    · refine (first.fresh entry old).imp_right ?_
      rintro ⟨tree, mem, shown⟩
      exact ⟨tree, mem, fun table within => shown table (within.of_below second.below)⟩
    · exact .inr new

/-- Whenever the step is taken, the pool grows by these constants at most. -/
def Adds (poolOf : σ → ConstantPool) (trees : List ConstantTree) (step : EStateM Error σ α) :
    Prop :=
  ∀ s value s', (poolOf s).Valid → step s = .ok value s' → (poolOf s).Gains trees (poolOf s')

theorem Adds.mono {step : EStateM Error σ α} (adds : Adds poolOf trees step)
    (subset : trees ⊆ more) : Adds poolOf more step :=
  fun s value s' valid h => (adds s value s' valid h).mono subset

theorem adds_pure (value : α) : Adds poolOf trees (pure value : EStateM Error σ α) := by
  intro s value' s' valid h
  cases h
  exact valid.gains_self

theorem adds_throw (error : Error) : Adds poolOf trees (throw error : EStateM Error σ α) := by
  intro s value s' _ h
  cases h

theorem Adds.bind {step : EStateM Error σ α} {next : α → EStateM Error σ β}
    (first : Adds poolOf trees step) (rest : ∀ value, Adds poolOf trees (next value)) :
    Adds poolOf trees (step >>= next) := by
  intro s value s'' valid h
  obtain ⟨middle, s', hfirst, hrest⟩ := bind_eq_ok_iff.mp h
  have gains := first s middle s' valid hfirst
  exact gains.trans (rest middle s' value s'' gains.valid hrest)

namespace Request

/-- A request for one constant adds at most an entry at the slot that it gives. -/
theorem mem_of_intern {constant : Constant} {slot : UInt16}
    (h : intern constant pool = .ok slot pool') {entry : Nat × Constant}
    (mem : entry ∈ pool'.entries.entries.toList) :
    entry ∈ pool.entries.entries.toList ∨ UInt16.ofNat entry.1 = slot := by
  unfold intern at h
  split at h
  · cases h
  · split at h
    · cases h
      exact .inl mem
    · simp only at h
      split at h
      · cases h
      · cases h
        rw [SlotVector.push, Array.toList_push, List.mem_append, List.mem_singleton] at mem
        refine mem.imp_right ?_
        rintro rfl
        rfl

/-- A constant that is asked for behind its parts. -/
theorem adds_whole {ask : Request α} {tree : ConstantTree} (make : α → Constant)
    (parts : Adds id trees ask) (subset : trees ⊆ tree.parts)
    (h : tree.request = ask >>= fun value => intern (make value)) :
    Adds id tree.parts tree.request := by
  intro pool slot pool'' valid hask
  obtain ⟨valid'', -, shown, -⟩ := tree.gives_request pool slot pool'' valid hask
  rw [h] at hask
  obtain ⟨value, pool', hparts, hintern⟩ := bind_eq_ok_iff.mp hask
  have gains := parts.mono subset pool value pool' valid hparts
  refine gains.trans ⟨valid'', ?_, fun entry mem => (mem_of_intern hintern mem).imp_right ?_⟩
  · exact (gives_intern (make value) pool' slot pool'' gains.valid hintern).2.1
  · rintro rfl
    exact ⟨tree, tree.self_mem_parts, fun table within => (shown table within).2⟩

/-- A request for a constant adds the constant and its parts. -/
theorem adds_tree (tree : ConstantTree) : Adds id tree.parts tree.request := by
  induction tree with
  | leaf constant =>
      exact adds_whole (fun _ => constant) (adds_pure ()) (List.nil_subset _) rfl
  | one make refers part ih => exact adds_whole make ih (List.subset_cons_self _ _) rfl
  | two make refers first second ihFirst ihSecond =>
      have both : Adds id (first.parts ++ second.parts)
          (do return (← first.request, ← second.request)) :=
        (ihFirst.mono (List.subset_append_left _ _)).bind fun _ =>
          (ihSecond.mono (List.subset_append_right _ _)).bind fun _ => adds_pure _
      refine adds_whole (fun slots => make slots.1 slots.2) both (List.subset_cons_self _ _) ?_
      simp only [ConstantTree.request, bind_assoc, pure_bind]

theorem adds_text (content : String) :
    Adds id (ConstantTree.allParts [.text content]) (text content) := by
  rw [ConstantTree.allParts_singleton]
  exact adds_tree (.text content)

theorem adds_classNamed (name : String) :
    Adds id (ConstantTree.allParts [.classNamed name]) (classNamed name) := by
  rw [ConstantTree.allParts_singleton]
  exact adds_tree (.classNamed name)

theorem adds_optionalClass (name : Option String) :
    Adds id (ConstantTree.allParts (name.toList.map .classNamed)) (optionalClass name) := by
  cases name with
  | none => exact adds_pure 0
  | some name => exact adds_classNamed name

theorem adds_literal (value : Literal) :
    Adds id (ConstantTree.allParts [.literal value]) (literal value) := by
  rw [ConstantTree.allParts_singleton, ← ConstantTree.request_literal]
  exact adds_tree (.literal value)

theorem adds_each {request : α → Request UInt16} {tree : α → ConstantTree}
    (adds : ∀ item, Adds id (ConstantTree.allParts [tree item]) (request item)) (items : List α) :
    Adds id (ConstantTree.allParts (items.map tree)) (each request items) := by
  have go (items : List α) (done : List UInt16) :
      Adds id (ConstantTree.allParts (items.map tree)) (each.go request items done) := by
    induction items generalizing done with
    | nil => exact adds_pure _
    | cons item rest ih =>
        refine ((adds item).mono (ConstantTree.allParts_subset (by simp))).bind fun slot => ?_
        exact (ih (slot :: done)).mono (ConstantTree.allParts_subset (by simp))
  exact go items []

theorem adds_named (name : String) (contents : Except Error (List UInt8)) :
    Adds id (ConstantTree.allParts [.text name]) (named name contents) := by
  refine (adds_text name).bind fun slot => ?_
  cases contents with
  | ok contents => exact adds_pure _
  | error error => exact adds_throw error

end Request

end JavaClass.ConstantPool
