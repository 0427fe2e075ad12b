/-!
# Command line arguments

The command takes the path of an input, and optionally the path of an output
and the wish for a list. Arguments are read from left to right: asking for help
or for the version ends the reading, and so does the first mistake.

## Implementation notes

A value follows its option as the next argument or in the same one. An argument
that looks like an option is never taken as a value; a lone dash does not look
like one.
-/

namespace JavaClass.Command

/-- What the arguments ask for. -/
structure Request where
  input : String
  output : Option String
  list : Bool
  deriving DecidableEq, Repr

/-- How the arguments are understood. -/
inductive Invocation where
  | run (request : Request)
  | help
  | version
  | misuse
  deriving DecidableEq, Repr

/-- The arguments read so far. -/
structure Seen where
  input : Option String
  output : Option String
  list : Bool

namespace Seen

def empty : Seen := ⟨none, none, false⟩

/-- Takes the input, which is given once and is not empty. -/
def takeInput? (seen : Seen) (value : String) : Option Seen :=
  if seen.input.isSome || value == "" then none else some { seen with input := some value }

/-- Takes the output, which is given at most once and is not empty. -/
def takeOutput? (seen : Seen) (value : String) : Option Seen :=
  if seen.output.isSome || value == "" then none else some { seen with output := some value }

/-- Takes the wish for a list, which is expressed at most once. -/
def takeList? (seen : Seen) : Option Seen :=
  if seen.list then none else some { seen with list := true }

/-- What the arguments ask for at their end. -/
def finish (seen : Seen) : Invocation :=
  match seen.input with
  | some input => .run ⟨input, seen.output, seen.list⟩
  | none => .misuse

end Seen

/-- Whether an argument looks like an option. -/
def looksLikeOption (argument : String) : Bool :=
  argument.toList.head? == some '-' && argument != "-"

/-- What an argument is. -/
inductive Argument where
  | value (text : String)
  /-- All arguments after it are values. -/
  | valuesFollow
  | help
  | version
  | list
  /-- The output, with its path if that is in the same argument. -/
  | output (path : Option String)
  | unknown
  deriving DecidableEq, Repr

/-- The letter of a short option, and what follows it. -/
def shortOption : List Char → Argument
  | 'h' :: _ => .help
  | 'V' :: _ => .version
  | ['o'] => .output none
  | 'o' :: '=' :: path => .output (some (String.ofList path))
  | 'o' :: path => .output (some (String.ofList path))
  | _ => .unknown

/-- The name of a long option, and what follows it after an equals sign. -/
def longOption : (name : String) → (value : Option String) → Argument
  | "help", none => .help
  | "version", none => .version
  | "list", none => .list
  | "output", path => .output path
  | _, _ => .unknown

/-- Tells what an argument is. -/
def classify (argument : String) : Argument :=
  match argument.toList with
  | ['-', '-'] => .valuesFollow
  | '-' :: '-' :: rest =>
      let (name, value) := rest.span (· ≠ '=')
      longOption (String.ofList name) (value.tail?.map String.ofList)
  | '-' :: letter :: rest => shortOption (letter :: rest)
  | _ => .value argument

/-- Reads arguments that are all values. -/
def readValues : List String → Seen → Invocation
  | [], seen => seen.finish
  | value :: rest, seen =>
      match seen.takeInput? value with
      | some seen => readValues rest seen
      | none => .misuse

/-- Reads arguments. -/
def read : List String → Seen → Invocation
  | [], seen => seen.finish
  | argument :: rest, seen =>
      match classify argument with
      | .value text =>
          match seen.takeInput? text with
          | some seen => read rest seen
          | none => .misuse
      | .valuesFollow => readValues rest seen
      | .help => .help
      | .version => .version
      | .list =>
          match seen.takeList? with
          | some seen => read rest seen
          | none => .misuse
      | .output (some path) =>
          match seen.takeOutput? path with
          | some seen => read rest seen
          | none => .misuse
      | .output none =>
          match rest with
          | [] => .misuse
          | path :: rest =>
              if looksLikeOption path then .misuse
              else
                match seen.takeOutput? path with
                | some seen => read rest seen
                | none => .misuse
      | .unknown => .misuse

/-- How arguments are understood. -/
def Invocation.ofArguments (arguments : List String) : Invocation :=
  read arguments .empty

end JavaClass.Command
