import JavaClass.Proofs.Constant.Requests

/-!
# A pool and its table

The constant pool of a file is read back entry by entry as the pool that was
written there, and reading ends where the bytes of the pool end.
-/

namespace JavaClass

variable {bytes : Bytes} {index : Nat}

/-- The entries stand one behind the other from slot 1 on, and their count fits 16 bits. -/
structure ConstantPool.Writable (pool : ConstantPool) : Prop where
  laidOut : ∃ constants, pool.entries = (SlotVector.startingAt 1).append constants
  next_le : pool.entries.next ≤ countLimit

theorem ConstantPool.Valid.writable {pool : ConstantPool} (valid : pool.Valid) : pool.Writable :=
  ⟨valid.laidOut, valid.next_le⟩

namespace ConstantTable

/-- Entries that are each read wherever they stand are read one behind the other. -/
theorem readEntries_append {constants : List Constant} {parts : List (List UInt8)}
    (each : List.Forall₂ (fun constant part => ∀ index, bytes.Holds index part →
      readEntry bytes index = .ok (constant, index + part.length)) constants parts)
    (v : SlotVector Constant) (holds : bytes.Holds index parts.flatten) :
    readEntries bytes (v.append constants).next index v =
      .ok (v.append constants, index + parts.flatten.length) := by
  induction each generalizing index v with
  | nil =>
      have hnil : v.append ([] : List Constant) = v := rfl
      rw [hnil, readEntries, if_neg (Nat.lt_irrefl _)]
      rfl
  | @cons constant part constants parts first each ih =>
      have hless : v.next < ((v.push constant).append constants).next :=
        Nat.lt_of_lt_of_le (Nat.lt_add_of_pos_right constant.width_pos)
          ((v.push constant).next_le_append constants)
      rw [List.flatten_cons] at holds
      rw [SlotVector.append_cons, readEntries, if_pos hless, first index holds.left]
      simp only
      rw [ih (v.push constant) holds.right, List.flatten_cons, List.length_append, Nat.add_assoc]

theorem readEntries_eq {constants : List Constant} {parts : List (List UInt8)}
    (each : List.Forall₂ (fun constant part => constant.encode = .ok part) constants parts)
    (v : SlotVector Constant) (holds : bytes.Holds index parts.flatten) :
    readEntries bytes (v.append constants).next index v =
      .ok (v.append constants, index + parts.flatten.length) :=
  readEntries_append (each.imp fun _ _ h _ holds => readEntry_eq h holds) v holds

/-- A pool that was written is read back. -/
theorem read_eq {pool : ConstantPool} (writable : pool.Writable) {part : List UInt8}
    (h : pool.encode = .ok part) (holds : bytes.Holds index part) :
    read bytes index = .ok (⟨pool.entries⟩, index + part.length) := by
  obtain ⟨constants, hconstants⟩ := writable.laidOut
  have hnext := writable.next_le
  simp only [countLimit] at hnext
  have hlist : pool.entries.toList = constants := by
    rw [hconstants, SlotVector.toList_append]
    rfl
  unfold ConstantPool.encode at h
  rw [hlist] at h
  cases hparts : constants.mapM Constant.encode with
  | error error => rw [hparts] at h; cases h
  | ok parts =>
      rw [hparts] at h
      obtain rfl := Except.ok.inj h
      have htoNat : pool.slotCount.toNat = pool.entries.next :=
        UInt16.toNat_ofNat_of_lt' (by change _ < 65536; omega)
      have hentries : bytes.Holds (index + 2) parts.flatten := holds.right
      have hread := readEntries_eq (mapM_eq_ok_iff.mp hparts) (.startingAt 1) hentries
      rw [← hconstants] at hread
      unfold read
      rw [holds.left.u16]
      simp only [bind, Except.bind, htoNat, hread, if_true]
      rw [List.length_append, ← Nat.add_assoc]
      rfl

end ConstantTable

end JavaClass
