import JavaClass.Body.Basic

/-!
# Several method bodies side by side

A workspace holds the bodies that are being edited and gives each of them an
identity of its own, so that a handle is only ever accepted by the body that
gave it out.
-/

namespace JavaClass

/-- Bodies, each under its position as its identity. -/
structure Workspace where
  bodies : Array MethodBody

namespace Workspace

/-- No bodies. -/
def empty : Workspace := ⟨#[]⟩

/-- The identity of the next body. -/
def nextId (workspace : Workspace) : UInt32 := UInt32.ofNat workspace.bodies.size

/-- Adds an empty body. -/
def addEmpty (workspace : Workspace) : Workspace :=
  ⟨workspace.bodies.push (.empty workspace.nextId)⟩

/-- Adds a copy of a body. -/
def addCopy (workspace : Workspace) (body : MethodBody) : Workspace :=
  ⟨workspace.bodies.push (body.copy workspace.nextId)⟩

/-- Puts a body in the place of an earlier state of it. -/
def set (workspace : Workspace) (position : Nat) (body : MethodBody) : Workspace :=
  ⟨workspace.bodies.setIfInBounds position body⟩

end Workspace

end JavaClass
