import JavaClass.Constant.Table
import JavaClass.Proofs.Bytes.Reach

/-!
# How far reading a constant pool goes

A constant pool is read up to where it ends and no further. An entry that is cut
off ends unexpectedly, whatever it would have been.
-/

namespace JavaClass.ConstantTable

open Bytes

variable {bytes : Bytes} {index next stop : Nat} {constant : Constant}

theorem reaches_one {make : UInt16 → Constant} {start : Nat}
    (h : one bytes index make = .ok (constant, next)) (le : start ≤ index + 2) :
    bytes.Reaches (one · index make) (constant, next) start next := by
  unfold one at h ⊢
  obtain ⟨slot, hslot, h⟩ := exceptBind_eq_ok_iff.mp h
  obtain ⟨rfl, rfl⟩ := Prod.mk.inj (Except.ok.inj h)
  exact .bind (reaches_u16 hslot le) (reaches_const rfl _)

theorem reaches_two {make : UInt16 → UInt16 → Constant} {start : Nat}
    (h : two bytes index make = .ok (constant, next)) (le : start ≤ index + 2) :
    bytes.Reaches (two · index make) (constant, next) start next := by
  unfold two at h ⊢
  obtain ⟨first, hfirst, h⟩ := exceptBind_eq_ok_iff.mp h
  obtain ⟨second, hsecond, h⟩ := exceptBind_eq_ok_iff.mp h
  obtain ⟨rfl, rfl⟩ := Prod.mk.inj (Except.ok.inj h)
  refine .bind (reaches_u16 hfirst le) (.bind (reaches_u16 hsecond (by omega)) ?_)
  exact reaches_const rfl _

/-- A number that takes all of the contents. -/
theorem reaches_single {α : Type} {number : Bytes → Except Error α} {make : α → Constant}
    {width : Nat}
    (h : (number bytes >>= fun value => pure (make value, index + width)) = .ok (constant, next))
    (reaches : ∀ value, number bytes = .ok value →
      bytes.Reaches number value index (index + width)) :
    bytes.Reaches (fun bytes => number bytes >>= fun value => pure (make value, index + width))
      (constant, next) index next := by
  obtain ⟨value, found, h⟩ := exceptBind_eq_ok_iff.mp h
  obtain ⟨rfl, rfl⟩ := Prod.mk.inj (Except.ok.inj h)
  exact (reaches value found).bind (reaches_const rfl _)

/-- An entry is read up to its end. -/
theorem reaches_readEntry (h : readEntry bytes index = .ok (constant, next)) :
    bytes.Reaches (readEntry · index) (constant, next) index next := by
  unfold readEntry at h ⊢
  obtain ⟨tag, htag, h⟩ := exceptBind_eq_ok_iff.mp h
  refine .bind (reaches_u8 htag (Nat.le_succ index)) ?_
  refine reaches_ite h (fun _ h => ?_) fun _ h => ?_
  · obtain ⟨length, hlength, h⟩ := exceptBind_eq_ok_iff.mp h
    obtain ⟨payload, hpayload, h⟩ := exceptBind_eq_ok_iff.mp h
    obtain ⟨text, htext, h⟩ := exceptBind_eq_ok_iff.mp h
    obtain ⟨rfl, rfl⟩ := Prod.mk.inj (Except.ok.inj h)
    refine .bind (reaches_u16 hlength (by omega)) (.bind (reaches_slice hpayload (by omega)) ?_)
    exact .bind (reaches_const htext _) (reaches_const rfl _)
  refine reaches_ite h (fun _ h => ?_) fun _ h => ?_
  · exact reaches_single h fun _ found => reaches_i32 found (by omega)
  refine reaches_ite h (fun _ h => ?_) fun _ h => ?_
  · exact reaches_single h fun _ found => reaches_u32 found (by omega)
  refine reaches_ite h (fun _ h => ?_) fun _ h => ?_
  · exact reaches_single h fun _ found => reaches_i64 found (by omega)
  refine reaches_ite h (fun _ h => ?_) fun _ h => ?_
  · exact reaches_single h fun _ found => reaches_u64 found (by omega)
  refine reaches_ite h (fun _ h => ?_) fun _ h => ?_
  · exact reaches_one h (by omega)
  refine reaches_ite h (fun _ h => ?_) fun _ h => ?_
  · exact reaches_one h (by omega)
  refine reaches_ite h (fun _ h => ?_) fun _ h => ?_
  · exact reaches_two h (by omega)
  refine reaches_ite h (fun _ h => ?_) fun _ h => ?_
  · exact reaches_two h (by omega)
  refine reaches_ite h (fun _ h => ?_) fun _ h => ?_
  · exact reaches_two h (by omega)
  refine reaches_ite h (fun _ h => ?_) fun _ h => ?_
  · exact reaches_two h (by omega)
  refine reaches_ite h (fun _ h => ?_) fun _ h => ?_
  · obtain ⟨code, hcode, h⟩ := exceptBind_eq_ok_iff.mp h
    refine .bind (reaches_u8 hcode (by omega)) ?_
    cases hkind : HandleKind.ofCode? code with
    | none =>
        simp only [hkind] at h
        cases h
    | some kind =>
        simp only [hkind] at h ⊢
        obtain ⟨member, hmember, h⟩ := exceptBind_eq_ok_iff.mp h
        obtain ⟨rfl, rfl⟩ := Prod.mk.inj (Except.ok.inj h)
        exact .bind (reaches_u16 hmember (by omega)) (reaches_const rfl _)
  refine reaches_ite h (fun _ h => ?_) fun _ h => ?_
  · exact reaches_one h (by omega)
  refine reaches_ite h (fun _ h => ?_) fun _ h => ?_
  · exact reaches_two h (by omega)
  refine reaches_ite h (fun _ h => ?_) fun _ h => ?_
  · exact reaches_one h (by omega)
  refine reaches_ite h (fun _ h => ?_) fun _ h => ?_
  · exact reaches_one h (by omega)
  · cases h

theorem reaches_readEntries {count : Nat} {v found : SlotVector Constant}
    (h : readEntries bytes count index v = .ok (found, stop)) :
    bytes.Reaches (readEntries · count index v) (found, stop) index stop := by
  fun_induction readEntries bytes count index v with
  | case1 => cases h
  | case2 index v less constant next hentry ih =>
      have readEntries_lt : ∀ bytes, readEntries bytes count index v =
          readEntry bytes index >>= fun found =>
            readEntries bytes count found.2 (v.push found.1) := by
        intro bytes
        rw [readEntries, if_pos less]
        cases readEntry bytes index <;> rfl
      simp only [readEntries_lt]
      exact (reaches_readEntry hentry).bind (ih h)
  | case3 index v done =>
      have readEntries_done : ∀ bytes, readEntries bytes count index v = .ok (v, index) := by
        intro bytes
        rw [readEntries, if_neg done]
      obtain ⟨rfl, rfl⟩ := Prod.mk.inj (Except.ok.inj h)
      simp only [readEntries_done]
      exact reaches_const rfl index

/-- A constant pool is read up to its end. -/
theorem reaches_read {table : ConstantTable} (h : read bytes index = .ok (table, stop)) :
    bytes.Reaches (read · index) (table, stop) index stop := by
  unfold read at h ⊢
  obtain ⟨count, hcount, h⟩ := exceptBind_eq_ok_iff.mp h
  obtain ⟨⟨entries, after⟩, hentries, h⟩ := exceptBind_eq_ok_iff.mp h
  refine .bind (reaches_u16 hcount (by omega)) (.bind (reaches_readEntries hentries) ?_)
  obtain ⟨hnext, h⟩ | ⟨-, h⟩ := ite_eq_iff.mp h
  · obtain ⟨rfl, rfl⟩ := Prod.mk.inj (Except.ok.inj h)
    simp only [if_pos hnext]
    exact reaches_const rfl _
  · cases h

end JavaClass.ConstantTable
