import JavaClass.Proofs.Constant.Trees

/-!
# Texts and numbers

In the end a constant is made of texts and numbers. What is looked up at a slot
is made of some that are found from there, even if the constants between are not
the ones that would be written for it.
-/

namespace JavaClass

/-- The texts and numbers that a constant is made of. -/
def ConstantTree.leaves : ConstantTree → List Constant
  | leaf constant => [constant]
  | one _ _ part => part.leaves
  | two _ _ first second => first.leaves ++ second.leaves

namespace ConstantTable

variable {table : ConstantTable} {slot inner : UInt16} {constant : Constant}

/-- A constant stands where one is led to from a slot. -/
def Finds (table : ConstantTable) (slot : UInt16) (constant : Constant) : Prop :=
  ∃ inner, table.Leads slot inner ∧ table.get inner = .ok constant

theorem Finds.of_get (found : table.get slot = .ok constant) : table.Finds slot constant :=
  ⟨slot, .refl, found⟩

theorem Finds.behind {whole : Constant} (found : table.get slot = .ok whole)
    (refers : inner ∈ whole.references) (finds : table.Finds inner constant) :
    table.Finds slot constant := by
  obtain ⟨last, leads, stands⟩ := finds
  exact ⟨last, (Leads.of_reference found refers).trans leads, stands⟩

end ConstantTable

namespace ConstantTree

variable {table : ConstantTable} {slot : UInt16} {tree part : ConstantTree} {constant : Constant}

/-- Where a constant stands, what it is made of is found. -/
theorem Shown.finds (shown : tree.Shown table slot) (mem : constant ∈ tree.leaves) :
    table.Finds slot constant := by
  induction tree generalizing slot with
  | leaf whole =>
      obtain rfl := List.mem_singleton.mp mem
      exact .of_get shown
  | one make refers part ih =>
      obtain ⟨inner, whole, shown⟩ := shown
      exact .behind whole (by simp [refers]) (ih shown mem)
  | two make refers first second ihFirst ihSecond =>
      obtain ⟨a, b, whole, shown, shown'⟩ := shown
      obtain mem | mem := List.mem_append.mp mem
      · exact .behind whole (by simp [refers]) (ihFirst shown mem)
      · exact .behind whole (by simp [refers]) (ihSecond shown' mem)

theorem leaves_subset_of_mem_parts (mem : part ∈ tree.parts) : part.leaves ⊆ tree.leaves := by
  induction tree with
  | leaf whole =>
      obtain rfl := List.mem_singleton.mp mem
      exact List.Subset.refl _
  | one make refers rest ih =>
      obtain rfl | mem := List.mem_cons.mp mem
      · exact List.Subset.refl _
      · exact ih mem
  | two make refers first second ihFirst ihSecond =>
      obtain rfl | mem := List.mem_cons.mp mem
      · exact List.Subset.refl _
      obtain mem | mem := List.mem_append.mp mem
      · exact List.subset_append_of_subset_left _ (ihFirst mem)
      · exact List.subset_append_of_subset_right _ (ihSecond mem)

/-- A constant without references is all that it is made of. -/
theorem Shown.mem_leaves (shown : part.Shown table slot) (found : table.get slot = .ok constant)
    (last : constant.references = []) : constant ∈ part.leaves := by
  cases part with
  | leaf whole =>
      obtain rfl := Except.ok.inj (found.symm.trans shown)
      exact List.mem_singleton_self _
  | one make refers part =>
      obtain ⟨inner, whole, -⟩ := shown
      obtain rfl := Except.ok.inj (found.symm.trans whole)
      cases (refers inner).symm.trans last
  | two make refers first second =>
      obtain ⟨a, b, whole, -⟩ := shown
      obtain rfl := Except.ok.inj (found.symm.trans whole)
      cases (refers a b).symm.trans last

theorem finds_of_memberOf {owner named : UInt16} {isInterface : Bool}
    {member : ConstantTable.Member} (h : table.memberOf owner named isInterface = .ok member)
    (mem : constant ∈ (field member.owner member.name member.descriptor).leaves) :
    table.Finds owner constant ∨ table.Finds named constant := by
  obtain ⟨name, hname, h⟩ := exceptBind_eq_ok_iff.mp h
  obtain ⟨⟨_, _⟩, hnamed, h⟩ := exceptBind_eq_ok_iff.mp h
  obtain rfl := Except.ok.inj h
  obtain mem | mem := List.mem_append.mp mem
  · exact .inl ((shown_classNamed_iff.mpr hname).finds mem)
  · exact .inr ((shown_nameAndType_iff.mpr hnamed).finds mem)

/-- Where a field or a method is looked up, its owner, name and descriptor are found. -/
theorem finds_of_member {member : ConstantTable.Member} (h : table.member slot = .ok member)
    (mem : constant ∈ (field member.owner member.name member.descriptor).leaves) :
    table.Finds slot constant := by
  unfold ConstantTable.member at h
  obtain ⟨whole, found, h⟩ := exceptBind_eq_ok_iff.mp h
  cases whole with
  | fieldRef owner named =>
      obtain finds | finds := finds_of_memberOf h mem
      · exact .behind found (by simp [Constant.references]) finds
      · exact .behind found (by simp [Constant.references]) finds
  | methodRef owner named isInterface =>
      obtain finds | finds := finds_of_memberOf h mem
      · exact .behind found (by simp [Constant.references]) finds
      · exact .behind found (by simp [Constant.references]) finds
  | _ => cases h

theorem leaves_handleMember (handle : MethodHandle) :
    (handleMember handle).leaves = (field handle.owner handle.name handle.descriptor).leaves := by
  unfold handleMember
  split <;> rfl

theorem finds_of_methodHandle {handle : MethodHandle} (h : table.methodHandle slot = .ok handle)
    (mem : constant ∈ (methodHandle handle).leaves) : table.Finds slot constant := by
  unfold ConstantTable.methodHandle at h
  obtain ⟨whole, found, h⟩ := exceptBind_eq_ok_iff.mp h
  cases whole with
  | methodHandle kind inner =>
      obtain ⟨member, hmember, h⟩ := exceptBind_eq_ok_iff.mp h
      obtain rfl := Except.ok.inj h
      change constant ∈ (handleMember _).leaves at mem
      rw [leaves_handleMember] at mem
      exact .behind found (by simp [Constant.references]) (finds_of_member hmember mem)
  | _ => cases h

theorem finds_of_literal {value : Literal} (h : table.literal slot = .ok value)
    (mem : constant ∈ (literal value).leaves) : table.Finds slot constant := by
  obtain shown | ⟨handle, rfl, hhandle⟩ := shown_or_methodHandle_of_literal h
  · exact shown.finds mem
  · exact finds_of_methodHandle hhandle mem

end ConstantTree

end JavaClass
