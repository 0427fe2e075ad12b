import JavaClass.Bytes.Table
import JavaClass.Proofs.Failures

/-!
# Failures of reading

Reading bytes fails for one kind of reason only: they are malformed. This does
not depend on what they are.

## Implementation notes

`BlamesOr` says what a result is if there is one. It is for results that are put
together, so that both what is read and how reading fails come from one look at
how it goes.
-/

namespace JavaClass

variable {α β : Type}

/-- If there is no result, then because something is malformed. -/
abbrev Blames (result : Except Error α) : Prop :=
  FailsOnly (fun error => ∃ cause, error = .malformed cause) result

theorem blames_malformed (cause : Malformation) : Blames (malformed cause : Except Error α) :=
  failsOnly_error ⟨cause, rfl⟩

/-- There is a result of which this holds, or something is malformed. -/
structure BlamesOr (holds : α → Prop) (result : Except Error α) : Prop where
  blames : Blames result
  of_eq_ok : ∀ {a}, result = .ok a → holds a

theorem blamesOr_ok {holds : α → Prop} {a : α} (h : holds a) : BlamesOr holds (.ok a) where
  blames := failsOnly_ok a
  of_eq_ok eq := by
    obtain rfl := Except.ok.inj eq
    exact h

theorem blamesOr_malformed {holds : α → Prop} (cause : Malformation) :
    BlamesOr holds (malformed cause) where
  blames := blames_malformed cause
  of_eq_ok eq := by cases eq

/-- What holds after a first result holds of both together. -/
theorem FailsOnly.bindOr {result : Except Error α} {next : α → Except Error β} {holds : β → Prop}
    (first : Blames result) (rest : ∀ a, result = .ok a → BlamesOr holds (next a)) :
    BlamesOr holds (result >>= next) := by
  cases found : result with
  | error error =>
      obtain ⟨cause, rfl⟩ := first error found
      exact blamesOr_malformed cause
  | ok a => exact rest a found

namespace Bytes

variable (bytes : Bytes) (index : Nat)

theorem blames_check (length : Nat) : Blames (bytes.check index length) := by
  unfold check
  split
  · exact failsOnly_ok _
  · exact blames_malformed _

theorem blames_slice (length : Nat) : Blames (bytes.slice index length) := by
  unfold slice
  split
  · exact failsOnly_ok _
  · exact blames_malformed _

theorem blames_number (width : Nat) : Blames (bytes.number width index) :=
  (bytes.blames_slice index width).map _

theorem blames_u8 : Blames (bytes.u8 index) := (bytes.blames_number index 1).map _

theorem blames_u16 : Blames (bytes.u16 index) := (bytes.blames_number index 2).map _

theorem blames_u32 : Blames (bytes.u32 index) := (bytes.blames_number index 4).map _

theorem blames_i8 : Blames (bytes.i8 index) := (bytes.blames_u8 index).map _

theorem blames_i16 : Blames (bytes.i16 index) := (bytes.blames_u16 index).map _

theorem blames_i32 : Blames (bytes.i32 index) := (bytes.blames_u32 index).map _

end Bytes

theorem failsOnly_readEach {kind : Error → Prop} {read : Nat → Except Error α}
    (each : ∀ index, FailsOnly kind (read index)) (stride index count : Nat) :
    FailsOnly kind (readEach read stride index count) := by
  have go (done : List α) : FailsOnly kind (readEach.go read stride index count done) := by
    induction count generalizing index done with
    | zero => exact failsOnly_ok _
    | succ count ih =>
        rw [readEach.go]
        cases h : read index with
        | error error => exact failsOnly_error (each index error h)
        | ok item => exact ih _ _
  exact go []

end JavaClass
