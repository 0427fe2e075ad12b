import Std.Data.TreeMap

/-!
# Bootstrap methods

A call site names a bootstrap method by its position in a table of the class.
An entry of the table is a method handle and its arguments, all of them slots
of the constant pool.
-/

namespace JavaClass

/-- A bootstrap method and its arguments. -/
structure Bootstrap where
  method : UInt16
  arguments : List UInt16
  deriving DecidableEq, Repr

namespace Bootstrap

/-- All slots of an entry, by which entries are looked up. -/
def slots (bootstrap : Bootstrap) : List UInt16 :=
  bootstrap.method :: bootstrap.arguments

instance : Ord Bootstrap := ⟨compareOn slots⟩

instance : Std.TransOrd Bootstrap := inferInstanceAs (Std.TransCmp (compareOn slots))

instance : Std.LawfulEqOrd Bootstrap where
  eq_of_compare {a b} h := by
    have : a.slots = b.slots := Std.LawfulEqOrd.eq_of_compare h
    cases a
    cases b
    simpa [slots] using this

end Bootstrap

end JavaClass
