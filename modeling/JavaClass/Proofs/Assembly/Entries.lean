import Mathlib.Algebra.Order.BigOperators.Group.List
import Mathlib.Algebra.Order.Group.Nat
import Mathlib.Data.List.Dedup
import Mathlib.Data.List.Perm.Subperm
import JavaClass.Proofs.Assembly.Steps
import JavaClass.Proofs.ClassFile.Stories

/-!
# The size of a bootstrap table

A class draft lists each bootstrap method once, however many call sites name it.
So the table that it writes is as long as the different calls of the class take,
and no longer than any table from which the calls were read.
-/

namespace JavaClass

open ConstantPool

/-- Items of one list take no more than those of another if each of them is matched by one there,
of the same size and by no other item. -/
theorem sum_le_of_matched {α β : Type} {f : α → Nat} {g : β → Nat} {r : α → β → Prop}
    {first : List α} {second : List β} (nodup : first.Nodup)
    (matched : ∀ a ∈ first, ∃ b ∈ second, r a b)
    (unique : ∀ a a' b, r a b → r a' b → a = a')
    (size : ∀ a b, r a b → f a = g b) :
    (first.map f).sum ≤ (second.map g).sum := by
  cases first with
  | nil => exact Nat.zero_le _
  | cons a rest =>
      have : Nonempty β := ⟨(matched a List.mem_cons_self).choose⟩
      choose! pick hmem hrel using matched
      have hnodup : ((a :: rest).map pick).Nodup := by
        refine nodup.map_on fun x hx y hy heq => unique x y (pick x) (hrel x hx) ?_
        rw [heq]
        exact hrel y hy
      have hsubset : (a :: rest).map pick ⊆ second := by
        intro b hb
        obtain ⟨x, hx, rfl⟩ := List.mem_map.mp hb
        exact hmem x hx
      obtain ⟨picked, hperm, hsublist⟩ := List.subperm_of_subset hnodup hsubset
      calc ((a :: rest).map f).sum
          = (((a :: rest).map pick).map g).sum := by
            rw [List.map_map]
            refine congrArg List.sum (List.map_congr_left fun x hx => ?_)
            exact size x (pick x) (hrel x hx)
        _ = (picked.map g).sum := (hperm.map g).sum_eq.symm
        _ ≤ (second.map g).sum := (hsublist.map g).sum_le_sum fun _ _ => Nat.zero_le _

/-- The call that a class file gives back. -/
def BootstrapCall.normal (call : BootstrapCall) : BootstrapCall :=
  (call.1.normal, call.2.map Literal.normal)

/-- The bytes of the entry for a call. -/
def BootstrapCall.size (call : BootstrapCall) : Nat :=
  4 + 2 * call.2.length

/-- The bytes of a bootstrap table for some calls. -/
def bootstrapTableSize (calls : List BootstrapCall) : Nat :=
  2 + ((calls.map BootstrapCall.normal).dedup.map BootstrapCall.size).sum

namespace ConstantPool.Request

theorem each_go_map {α β : Type} {f : α → β} {request : β → Request UInt16}
    (items : List α) (done : List UInt16) :
    each.go request (items.map f) done = each.go (request ∘ f) items done := by
  induction items generalizing done with
  | nil => rfl
  | cons item items ih =>
      simp only [List.map_cons, each.go, ih]
      rfl

theorem each_literal_normal (arguments : List Literal) :
    each literal (arguments.map Literal.normal) = each literal arguments := by
  rw [each, each_go_map, each]
  congr 1
  funext value
  exact literal_normal value

end ConstantPool.Request

variable {pool : ConstantPool} {entry entry' : Bootstrap} {call call' : BootstrapCall}

theorem Bootstrap.From.normal_iff : entry.From pool call.normal ↔ entry.From pool call := by
  simp only [Bootstrap.From, BootstrapCall.normal, Request.methodHandle_normal,
    Request.each_literal_normal]

/-- A call has one entry. -/
theorem Bootstrap.From.unique (valid : pool.Valid) (h : entry.From pool call)
    (h' : entry'.From pool call) : entry = entry' := by
  obtain ⟨hmethod, harguments⟩ := h pool valid (.refl _)
  obtain ⟨hmethod', harguments'⟩ := h' pool valid (.refl _)
  rw [hmethod] at hmethod'
  rw [harguments] at harguments'
  cases entry
  cases entry'
  cases hmethod'
  cases harguments'
  rfl

theorem Bootstrap.From.size_eq (valid : pool.Valid) (h : entry.From pool call) :
    entry.size = call.size := by
  obtain ⟨-, harguments⟩ := h pool valid (.refl _)
  obtain ⟨-, -, hpost, -⟩ :=
    Request.gives_each Request.gives_literal call.2 pool _ _ valid harguments
  rw [Bootstrap.size, BootstrapCall.size, (hpost _ valid.within_self).length_eq]

/-- The table that a class draft writes. -/
theorem sum_entries_le {entries : List Bootstrap} {calls : List BootstrapCall} (valid : pool.Valid)
    (nodup : entries.Nodup) (hfrom : ∀ entry ∈ entries, ∃ call ∈ calls, entry.From pool call) :
    2 + (entries.map Bootstrap.size).sum ≤ bootstrapTableSize calls := by
  refine Nat.add_le_add_left (sum_le_of_matched (r := Bootstrap.From pool) nodup ?_
    (fun _ _ _ h h' => h.unique valid h') fun _ _ h => h.size_eq valid) 2
  intro entry hentry
  obtain ⟨call, hcall, h⟩ := hfrom entry hentry
  exact ⟨call.normal, List.mem_dedup.mpr (List.mem_map_of_mem hcall),
    Bootstrap.From.normal_iff.mpr h⟩

/-- The table from which calls were read. -/
theorem bootstrapTableSize_le {table : ConstantTable} {entries : List Bootstrap}
    {calls : List BootstrapCall}
    (hreads : ∀ call ∈ calls, ∃ entry ∈ entries, entry.Reads table call) :
    bootstrapTableSize calls ≤ 2 + (entries.map Bootstrap.size).sum := by
  refine Nat.add_le_add_left (sum_le_of_matched (List.nodup_dedup _)
    (r := fun call entry => ∃ read, entry.Reads table read ∧ call = read.normal) ?_ ?_ ?_) 2
  · intro call hcall
    obtain ⟨read, hread, rfl⟩ := List.mem_map.mp (List.mem_dedup.mp hcall)
    obtain ⟨entry, hentry, h⟩ := hreads read hread
    exact ⟨entry, hentry, read, h, rfl⟩
  · rintro call call' entry ⟨read, h, rfl⟩ ⟨read', h', rfl⟩
    have hmethod := Except.ok.inj (h.method.symm.trans h'.method)
    have harguments := Except.ok.inj (h.arguments.symm.trans h'.arguments)
    rw [Prod.ext hmethod harguments]
  · rintro call entry ⟨read, h, rfl⟩
    have hlength := (mapM_eq_ok_iff.mp h.arguments).length_eq
    simp only [BootstrapCall.size, BootstrapCall.normal, Bootstrap.size, List.length_map]
    omega

end JavaClass
