import JavaClass.Archive.Library
import JavaClass.Command.Run

/-!
# The command

Runs the command on the files of the machine.
-/

namespace JavaClass

/-- Whether an action succeeds. -/
def succeeds (action : IO Unit) : IO Bool := do
  match ← action.toBaseIO with
  | .ok () => return true
  | .error _ => return false

instance : FileSystem IO where
  isThere path := do return (← (← IO.currentDir) / path |>.pathExists)
  isDirectory path := do return (← (← IO.currentDir) / path |>.isDir)
  isFile path := do
    let file := (← IO.currentDir) / path
    return (← file.pathExists) && !(← file.isDir)
  read path := do
    match ← (IO.FS.readBinFile path).toBaseIO with
    | .ok contents => return some contents.data
    | .error _ => return none
  write path contents := succeeds (IO.FS.writeBinFile path ⟨contents⟩)
  makeDirectories path := do
    if path == "" then return true else succeeds (IO.FS.createDirAll path)
  walk path := do
    let root := (← IO.currentDir) / path
    if !(← root.isDir) then return [⟨[], false⟩]
    let depth := root.components.length
    let mut found := #[⟨[], true⟩]
    for below in ← root.walkDir do
      found := found.push ⟨below.components.drop depth, ← below.isDir⟩
    return found.toList.mergeSort fun a b => (compare a.names b.names).isLE

/-- Prints what a run prints, and the reason if it failed. -/
def report (outcome : Command.Outcome) : IO UInt32 := do
  IO.print outcome.output
  match outcome.failure with
  | some error => IO.eprintln ("Error: " ++ error.message?.getD "the file system refused")
  | none => if outcome.code ≠ 0 then IO.eprint Command.helpText
  return outcome.code

end JavaClass

def main (arguments : List String) : IO UInt32 := do
  JavaClass.report (← JavaClass.Command.run arguments)
