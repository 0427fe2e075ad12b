/-!
# Class file versions

A version is a major and a minor number. Versions are ordered by their major
number first.
-/

namespace JavaClass

/-- A class file version. -/
structure Version where
  major : UInt16
  minor : UInt16
  deriving DecidableEq, Repr

namespace Version

/-- The version that a new class gets. -/
def standard : Version := ⟨52, 0⟩

/-- The newest major number that is understood. -/
def latestMajor : UInt16 := 65

/-- The major number decides, and the minor number breaks ties. -/
def compare (a b : Version) : Ordering :=
  (Ord.compare a.major b.major).then (Ord.compare a.minor b.minor)

/-- The two numbers, separated by a point. -/
def text (v : Version) : String :=
  s!"{v.major}.{v.minor}"

end Version

end JavaClass
