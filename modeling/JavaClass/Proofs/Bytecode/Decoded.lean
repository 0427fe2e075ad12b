import JavaClass.Proofs.Bytecode.Outcomes
import JavaClass.Proofs.Listing.Basic

/-!
# What decoding can give

Whatever the bytes are, a decoded instruction is no mark, an operation on a
member or on a type has a code of its family, and calls are left open. The offsets of the decoded
instructions rise up to the end of the code.
-/

namespace JavaClass.Bytecode

/-- An instruction as decoding gives it. -/
def Decoded.Regular : Decoded → Prop
  | complete i => i.isPseudo = false ∧ i.calls = [] ∧ i.Documented
  | load _ => True
  | call _ => True

namespace Window

variable {window : Window} {pc : Nat} {decoded : Decoded} {n : Nat}

/-- Every decoded instruction is regular. -/
theorem decode_regular (h : window.decode pc = .ok (decoded, n)) : decoded.Regular := by
  cases decode_eq_ok_iff.mp h with
  | field code => exact ⟨rfl, rfl, (Opcode.shape_eq_field_iff _).mp code.shape_eq⟩
  | method code => exact ⟨rfl, rfl, (Opcode.shape_eq_method_iff _).mp code.shape_eq⟩
  | type code => exact ⟨rfl, rfl, (Opcode.shape_eq_type_iff _).mp code.shape_eq⟩
  | constant | wideConstant | callSite => trivial
  | _ => exact ⟨rfl, rfl, trivial⟩

/-- The offsets of decoded instructions rise from where decoding starts to the end of the code. -/
theorem decodeFrom_eq_ok {done items : List (Nat × Decoded)}
    (h : window.decodeFrom pc done = .ok items) :
    ∃ more, items = done.reverse ++ more ∧
      (more.map (·.1) ++ [window.length]).Pairwise (· < ·) ∧
      (∀ start ∈ more.map (·.1) ++ [window.length], pc ≤ start) ∧
      ∀ item ∈ more, item.2.Regular := by
  induction pc, done using Window.decodeFrom.induct window with
  | case1 pc done hlt error herror =>
      rw [decodeFrom, if_pos hlt, herror] at h
      cases h
  | case2 pc done hlt decoded operands hdecode ih =>
      rw [decodeFrom, if_pos hlt, hdecode] at h
      obtain ⟨more, rfl, hsorted, hfirst, hregular⟩ := ih h
      refine ⟨(pc, decoded) :: more, by simp, ?_, ?_, ?_⟩
      · rw [List.map_cons, List.cons_append, List.pairwise_cons]
        refine ⟨fun start hstart => ?_, hsorted⟩
        have hle := hfirst start hstart
        omega
      · intro start hstart
        obtain rfl | hstart := List.mem_cons.mp hstart
        · exact Nat.le_refl _
        · have hle := hfirst start hstart
          omega
      · intro item hitem
        obtain rfl | hitem := List.mem_cons.mp hitem
        · exact decode_regular hdecode
        · exact hregular item hitem
  | case3 done hlt =>
      rw [decodeFrom, if_neg hlt, if_pos rfl] at h
      obtain rfl := Except.ok.inj h
      exact ⟨[], by simp, by simp, by simp, by simp⟩
  | case4 pc done hlt hne =>
      rw [decodeFrom, if_neg hlt, if_neg hne] at h
      cases h

end Window

end JavaClass.Bytecode
