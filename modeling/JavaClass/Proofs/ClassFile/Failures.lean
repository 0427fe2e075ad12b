import JavaClass.ClassFile.Body
import JavaClass.Proofs.Bytecode.Outcomes

/-!
# Code that is not read

The code of a method is not read only if its attribute is malformed, whatever
the bytes are.
-/

namespace JavaClass

variable {α : Type}

theorem ClassFile.failsOnly_readRun {kind : Error → Prop}
    {read : Nat → Except Error (α × Nat)} (each : ∀ index, FailsOnly kind (read index))
    (index count : Nat) (done : List α) : FailsOnly kind (readRun read index count done) := by
  induction count generalizing index done with
  | zero => exact failsOnly_ok _
  | succ count ih =>
      rw [readRun]
      cases h : read index with
      | error error => exact failsOnly_error (each index error h)
      | ok found => exact ih _ _

namespace Bytecode.Window

variable (window : Window) (pc : Nat)

theorem blames_decodeFrom (done : List (Nat × Decoded)) : Blames (window.decodeFrom pc done) := by
  induction pc, done using Window.decodeFrom.induct window with
  | case1 pc done lt error failed =>
      rw [decodeFrom, if_pos lt, failed]
      exact failsOnly_error (window.blames_decode pc error failed)
  | case2 pc done lt decoded operands found ih =>
      rw [decodeFrom, if_pos lt, found]
      exact ih
  | case3 done lt =>
      rw [decodeFrom, if_neg lt, if_pos rfl]
      exact failsOnly_ok _
  | case4 pc done lt ne =>
      rw [decodeFrom, if_neg lt, if_neg ne]
      exact blames_malformed _

end Bytecode.Window

namespace ClassFile

variable (file : ClassFile)

theorem blames_readAttribute (index : Nat) : Blames (file.readAttribute index) := by
  apply (file.bytes.blames_u16 index).bind
  intro slot
  apply (file.constants.blames_text slot).bind
  intro name
  apply (file.bytes.blames_u32 _).bind
  intro length
  exact (file.bytes.blames_check _ _).bind fun _ => failsOnly_ok _

theorem blames_readAttributes (index : Nat) : Blames (file.readAttributes index) :=
  (file.bytes.blames_u16 index).bind fun _ => failsOnly_readRun file.blames_readAttribute _ _ _

theorem blames_readHandler (window : Bytecode.Window) (index : Nat) :
    Blames (file.readHandler window index) := by
  apply (file.bytes.blames_u16 index).bind
  intro start
  apply (window.blames_offset _).bind
  intro start
  apply (file.bytes.blames_u16 _).bind
  intro stop
  apply (window.blames_offset _).bind
  intro stop
  apply (file.bytes.blames_u16 _).bind
  intro handler
  apply (window.blames_offset _).bind
  intro handler
  exact (file.bytes.blames_u16 _).bind fun _ => failsOnly_ok _

theorem blames_readLines (window : Bytecode.Window) (range : AttributeRange) :
    Blames (file.readLines window range) := by
  apply (file.bytes.blames_u16 range.start).bind
  intro count
  apply failsOnly_readEach
  intro index
  apply (file.bytes.blames_u16 index).bind
  intro offset
  apply (window.blames_offset _).bind
  intro offset
  exact (file.bytes.blames_u16 _).bind fun _ => failsOnly_ok _

/-- A code attribute that is not read is malformed. -/
theorem blames_readBody (range : AttributeRange) : Blames (file.readBody range) := by
  apply (file.bytes.blames_u16 range.start).bind
  intro maxStack
  apply (file.bytes.blames_u16 _).bind
  intro maxLocals
  apply (file.bytes.blames_u32 _).bind
  intro length
  simp only
  split
  · exact blames_malformed _
  · apply (Bytecode.Window.blames_decodeFrom _ 0 []).bind
    intro instructions
    apply (file.bytes.blames_u16 _).bind
    intro handlerCount
    apply (failsOnly_readEach (file.blames_readHandler _) _ _ _).bind
    intro handlers
    apply (file.blames_readAttributes _).bind
    intro attributes
    apply (FailsOnly.mapM fun range _ => file.blames_readLines _ range).bind
    intro lines
    split
    · exact blames_malformed _
    · exact failsOnly_ok _

end ClassFile

theorem Version.blames_read (bytes : Bytes) (index : Nat) : Blames (Version.read bytes index) := by
  apply (bytes.blames_u16 index).bind
  intro minor
  apply (bytes.blames_u16 _).bind
  intro major
  simp only
  split
  · exact blames_malformed _
  · exact failsOnly_ok _

end JavaClass
