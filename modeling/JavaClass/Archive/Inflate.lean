import JavaClass.Bytes.Basic

/-!
# Inflating

Decompresses a stream of blocks: stored bytes, or literals and copies of
earlier output under prefix codes, which are fixed or described at the start of
the block.

## Implementation notes

A position is a number of bits from the start, the lowest bit of a byte first.
A prefix code is a binary tree, so decoding one symbol is recursion on the tree.
Every symbol and every block takes at least one bit, so the number of bits of
the stream bounds the number of steps. A copy may reach back behind the start
of the output, where it finds zeros. Whatever follows the last block is ignored.
-/

namespace JavaClass.Archive.Inflate

/-- Why a stream cannot be followed further. -/
inductive Stop where
  /-- The stream ends. -/
  | cutOff
  /-- No stream goes on like this. -/
  | damaged
  deriving DecidableEq, Repr

/-- The bit at a position. -/
def bit (bytes : Bytes) (position : Nat) : Except Stop Bool :=
  match bytes[position / 8]? with
  | some byte => .ok (byte.toNat.testBit (position % 8))
  | none => .error .cutOff

/-- The number in the next `count` bits, the lowest bit first, and the position after it. -/
def bits (bytes : Bytes) : (count : Nat) → (position : Nat) → Except Stop (Nat × Nat)
  | 0, position => .ok (0, position)
  | count + 1, position => do
      let low ← bit bytes position
      let (high, position) ← bits bytes count (position + 1)
      return (low.toNat + 2 * high, position)

/-- A prefix code. -/
inductive Code where
  | none
  | symbol (n : Nat)
  | branch (zero one : Code)
  deriving Repr, Inhabited

namespace Code

/-- Adds a symbol under a word. -/
def insert (n : Nat) : (word : List Bool) → Code → Code
  | [], _ => symbol n
  | bit :: rest, code =>
      let (zero, one) := match code with
        | branch zero one => (zero, one)
        | _ => (none, none)
      if bit then branch zero (insert n rest one) else branch (insert n rest zero) one

/-- The lowest `length` bits of a number, the highest one first. -/
def word (length n : Nat) : List Bool :=
  ((List.range length).map n.testBit).reverse

/-- Gives words to symbols that are ordered by the length of their words: each next word is the
next number, extended by zeros. -/
def assign : List (Nat × Nat) → (length next : Nat) → Code → Code
  | [], _, _, code => code
  | (n, owner) :: rest, length, next, code =>
      let next := next <<< (n - length)
      assign rest n (next + 1) (insert owner (word n next) code)

/-- The share that the words of all lengths take up. -/
def wholeShare : Nat := 1 <<< 15

/-- The share of all words that words of these lengths take up. A length of 0 means no word. -/
def share (lengths : List Nat) : Nat :=
  (lengths.filter (· ≠ 0)).foldl (fun total n => total + 1 <<< (15 - n)) 0

/-- The canonical code for the word lengths of all symbols. Its words have at least one bit, and a
bit is read even if there is no word. -/
def canonical (lengths : List Nat) : Code :=
  let used : List (Nat × Nat) := lengths.zipIdx.filter (·.1 != 0)
  assign ((List.range 16).flatMap fun n => used.filter (·.1 == n)) 0 0 (branch none none)

/-- The canonical code for word lengths that take up all words. -/
def ofLengths (lengths : List Nat) : Except Stop Code :=
  if share lengths = wholeShare then .ok (canonical lengths) else .error .damaged

/-- The canonical code for word lengths that take up all words, or of at most one word, which then
is a single bit. -/
def ofFewLengths (lengths : List Nat) : Except Stop Code :=
  if lengths.all (· ≤ 1) && share lengths ≤ wholeShare then .ok (canonical lengths)
  else ofLengths lengths

/-- The symbol at a position, and the position after it. -/
def decode (bytes : Bytes) : Code → (position : Nat) → Except Stop (Nat × Nat)
  | none, _ => .error .damaged
  | symbol n, position => .ok (n, position)
  | branch zero one, position =>
      match bit bytes position with
      | .ok true => one.decode bytes (position + 1)
      | .ok false => zero.decode bytes (position + 1)
      | .error stop => .error stop

end Code

/-- The least length or distance and the number of extra bits for each symbol of a table that
starts with these extra bits. -/
def ranges (first : Nat) : List Nat → List (Nat × Nat)
  | [] => []
  | extra :: rest => (first, extra) :: ranges (first + 1 <<< extra) rest

/-- The lengths for the symbols from 257 on. -/
def lengthRanges : Array (Nat × Nat) :=
  (ranges 3 [0, 0, 0, 0, 0, 0, 0, 0, 1, 1, 1, 1, 2, 2, 2, 2, 3, 3, 3, 3, 4, 4, 4, 4,
    5, 5, 5, 5] ++ [(258, 0)]).toArray

/-- The distances for all symbols. -/
def distanceRanges : Array (Nat × Nat) :=
  (ranges 1 [0, 0, 0, 0, 1, 1, 2, 2, 3, 3, 4, 4, 5, 5, 6, 6, 7, 7, 8, 8, 9, 9, 10, 10,
    11, 11, 12, 12, 13, 13]).toArray

/-- Repeats output that starts `distance` bytes back. -/
def repeatBack (out : Bytes) (distance : Nat) : (count : Nat) → Bytes
  | 0 => out
  | count + 1 =>
      let byte := if distance ≤ out.size then out.getD (out.size - distance) 0 else 0
      repeatBack (out.push byte) distance count

/-- The value of a symbol that stands for a range. -/
def inRange (bytes : Bytes) (table : Array (Nat × Nat)) (symbol position : Nat) :
    Except Stop (Nat × Nat) :=
  match table[symbol]? with
  | none => .error .damaged
  | some (first, extra) => do
      let (n, position) ← bits bytes extra position
      return (first + n, position)

/-- What a compressed block is made of. -/
inductive Symbol where
  | literal (byte : UInt8)
  | copy (length distance : Nat)
  | endOfBlock
  deriving DecidableEq, Repr

/-- The next part of a compressed block, and the position after it. -/
def symbol (bytes : Bytes) (literals distances : Code) (position : Nat) :
    Except Stop (Symbol × Nat) := do
  let (n, position) ← literals.decode bytes position
  if n < 256 then return (.literal (UInt8.ofNat n), position)
  else if n = 256 then return (.endOfBlock, position)
  else
    let (length, position) ← inRange bytes lengthRanges (n - 257) position
    let (n, position) ← distances.decode bytes position
    let (distance, position) ← inRange bytes distanceRanges n position
    return (.copy length distance, position)

/-- Follows symbols up to the end of a block. -/
def symbols (bytes : Bytes) (literals distances : Code) :
    (fuel : Nat) → (position : Nat) → Bytes → Except Stop (Nat × Bytes)
  | 0, _, _ => .error .cutOff
  | fuel + 1, position, out =>
      match symbol bytes literals distances position with
      | .error stop => .error stop
      | .ok (.literal byte, position) =>
          symbols bytes literals distances fuel position (out.push byte)
      | .ok (.copy length distance, position) =>
          symbols bytes literals distances fuel position (repeatBack out distance length)
      | .ok (.endOfBlock, position) => .ok (position, out)

/-- Copies stored bytes, which start at a whole byte with their length and its complement. -/
def stored (bytes : Bytes) (position : Nat) (out : Bytes) : Except Stop (Nat × Bytes) := do
  let index := (position + 7) / 8
  let (length, _) ← bits bytes 16 (8 * index)
  let (complement, _) ← bits bytes 16 (8 * index + 16)
  if length + complement ≠ 65535 then throw .damaged
  let start := index + 4
  let stop := start + length
  if bytes.size < stop then throw .cutOff
  return (8 * stop, out ++ bytes.extract start stop)

/-- The word lengths of literals and lengths in a block with fixed codes. -/
def fixedLengths : List Nat :=
  List.replicate 144 8 ++ List.replicate 112 9 ++ List.replicate 24 7 ++ List.replicate 8 8

/-- The order in which the word lengths of the code for word lengths are written. -/
def lengthOrder : List Nat :=
  [16, 17, 18, 0, 8, 7, 9, 6, 10, 5, 11, 4, 12, 3, 13, 2, 14, 1, 15]

/-- The number of extra bits and the least number of repetitions for a symbol that repeats a word
length. -/
def repetition (symbol : Nat) : Nat × Nat :=
  if symbol = 16 then (2, 3) else if symbol = 17 then (3, 3) else (7, 11)

/-- The word length that a symbol repeats: the one before it, or none. -/
def repeated (symbol : Nat) (done : List Nat) : Except Stop Nat :=
  if symbol = 16 then
    match done with
    | [] => .error .damaged
    | length :: _ => .ok length
  else .ok 0

/-- Reads word lengths until there are `count` of them, the last one first. -/
def wordLengths (bytes : Bytes) (code : Code) (count : Nat) :
    (fuel : Nat) → (position : Nat) → List Nat → Except Stop (Nat × List Nat)
  | 0, _, _ => .error .cutOff
  | fuel + 1, position, done =>
      if done.length = count then .ok (position, done.reverse)
      else if count < done.length then .error .damaged
      else do
        let (symbol, position) ← code.decode bytes position
        if symbol < 16 then wordLengths bytes code count fuel position (symbol :: done)
        else
          let length ← repeated symbol done
          let (extra, least) := repetition symbol
          let (n, position) ← bits bytes extra position
          wordLengths bytes code count fuel position (List.replicate (least + n) length ++ done)

/-- The most literals and lengths that have a word. -/
def literalLimit : Nat := 286

/-- The most distances that have a word. -/
def distanceLimit : Nat := 30

/-- Reads the codes at the start of a block. -/
def codes (bytes : Bytes) (position : Nat) : Except Stop (Nat × Code × Code) := do
  let (n, position) ← bits bytes 5 position
  let (m, position) ← bits bytes 5 position
  let (k, position) ← bits bytes 4 position
  let literalCount := n + 257
  let distanceCount := m + 1
  let count := k + 4
  if literalLimit < literalCount ∨ distanceLimit < distanceCount then throw .damaged
  let written ← (List.range count).mapM fun i => bits bytes 3 (position + 3 * i)
  let pairs := lengthOrder.zip (written.map (·.1))
  let code ← Code.ofLengths ((List.range 19).map fun symbol => (pairs.lookup symbol).getD 0)
  let total := literalCount + distanceCount
  let (position, lengths) ←
    wordLengths bytes code total (total + 1) (position + 3 * count) []
  let literals ← Code.ofFewLengths (lengths.take literalCount)
  let distances ← Code.ofFewLengths (lengths.drop literalCount)
  return (position, literals, distances)

/-- Follows one block behind its first three bits. -/
def block (bytes : Bytes) (kind position : Nat) (out : Bytes) : Except Stop (Nat × Bytes) :=
  let fuel := 8 * bytes.size + 1
  if kind = 0 then stored bytes position out
  else if kind = 1 then do
    let literals ← Code.ofLengths fixedLengths
    let distances ← Code.ofLengths (List.replicate 32 5)
    symbols bytes literals distances fuel position out
  else if kind = 2 then do
    let (position, literals, distances) ← codes bytes position
    symbols bytes literals distances fuel position out
  else .error .damaged

/-- The first three bits of a block: whether it is the last one, and its kind. -/
def blockHead (bytes : Bytes) (position : Nat) : Except Stop (Nat × Nat × Nat) := do
  let (final, position) ← bits bytes 1 position
  let (kind, position) ← bits bytes 2 position
  return (final, kind, position)

/-- Follows blocks up to the last one. -/
def blocks (bytes : Bytes) : (fuel : Nat) → (position : Nat) → Bytes → Except Stop Bytes
  | 0, _, _ => .error .cutOff
  | fuel + 1, position, out =>
      match blockHead bytes position with
      | .error stop => .error stop
      | .ok (final, kind, position) =>
          match block bytes kind position out with
          | .error stop => .error stop
          | .ok (position, out) => if final = 1 then .ok out else blocks bytes fuel position out

end Inflate

/-- The bytes of a compressed stream. -/
def inflate (bytes : Bytes) : Except Inflate.Stop Bytes :=
  Inflate.blocks bytes (8 * bytes.size + 1) 0 #[]

end JavaClass.Archive
