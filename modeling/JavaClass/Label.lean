import Std.Data.TreeMap

/-!
# Labels

A label marks a position in the code of a method. The method that owns the code
numbers its labels; whoever sends the events of a class picks tokens for them.
Tokens mean something within one method only and are compared for equality;
their order serves to look them up.
-/

namespace JavaClass

/-- A label of a method body, by the number that the body gave it. -/
structure Label where
  id : UInt32
  deriving DecidableEq, Repr

/-- What stands for a label in the events of a class. -/
structure LabelToken where
  id : UInt32
  deriving DecidableEq, Repr

instance : Ord Label := ⟨compareOn Label.id⟩

instance : Std.TransOrd Label := inferInstanceAs (Std.TransCmp (compareOn Label.id))

instance : Std.LawfulEqOrd Label where
  eq_of_compare {a b} h := by
    have : a.id = b.id := Std.LawfulEqOrd.eq_of_compare h
    cases a
    cases b
    simpa using this

instance : Ord LabelToken := ⟨compareOn LabelToken.id⟩

instance : Std.TransOrd LabelToken := inferInstanceAs (Std.TransCmp (compareOn LabelToken.id))

instance : Std.LawfulEqOrd LabelToken where
  eq_of_compare {a b} h := by
    have : a.id = b.id := Std.LawfulEqOrd.eq_of_compare h
    cases a
    cases b
    simpa using this

/-- The token that a body uses for its label. -/
def Label.token (label : Label) : LabelToken := ⟨label.id⟩

def Label.text (label : Label) : String := s!"L{label.id}"

def LabelToken.text (token : LabelToken) : String := s!"t{token.id}"

end JavaClass
