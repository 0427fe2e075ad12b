import JavaClass.Proofs.Assembly.Written
import JavaClass.Proofs.ClassDef.Reencoding
import JavaClass.Proofs.ClassFile.Tiling

/-!
# Code that comes back

Code that is decoded and encoded again consists of the same instructions, and no
instruction starts later than it did before. Only a load can become longer, when
its constant gets a slot that needs two bytes, so this holds of all code in
which no short load becomes a long one.

## Implementation notes

Lengths do not shrink one by one, since the padding of a switch may grow. What
does not grow is the offset behind it, so the induction carries the offsets.
-/

namespace JavaClass

open Bytecode

namespace Bytecode

/-- What was decoded takes as much as the instruction that it tells. -/
theorem Decoded.Tells.room_eq {table : ConstantTable} {bootstraps : Array Bootstrap}
    {decoded : Decoded} {i : Instruction Nat} (h : decoded.Tells table bootstraps i)
    (origin : Nat) : decoded.room origin = i.room origin := by
  cases h <;> rfl

namespace Window

variable {window window' : Window}

/-- A load with a slot of one byte comes back with one of two bytes. -/
def Widens (window window' : Window) (item item' : Nat × Decoded) : Prop :=
  window.bytes.u8 (window.start + item.1) = .ok 18 ∧ window'.Step item'.1 (item'.1 + 3)

/-- What was decoded is spelled again, and takes no more than it did. -/
structure Respells (window window' : Window) (bootstraps : Array Bootstrap)
    (item item' : Nat × Decoded) : Prop where
  same : ∃ i : Instruction LabelToken, (∀ origin, item.2.room origin = i.room origin) ∧
    window'.Spelled bootstraps i item'
  short : ¬window.Widens window' item item'

/-- An instruction that does not start later does not end later. -/
theorem Respells.next_le {bootstraps : Array Bootstrap} {pc pc' operands operands' : Nat}
    {decoded decoded' : Decoded}
    (respells : window.Respells window' bootstraps (pc, decoded) (pc', decoded'))
    (found : window.decode pc = .ok (decoded, operands)) (inside : pc' < window'.length)
    (found' : window'.decode pc' = .ok (decoded', operands')) (le : pc' ≤ pc) :
    pc' + 1 + operands' ≤ pc + 1 + operands := by
  obtain ⟨i, same, spelled⟩ := respells.same
  obtain ⟨count, counted, room'⟩ := spelled.room
  obtain rfl : operands' = count := congrArg Prod.snd (Except.ok.inj (found'.symm.trans counted))
  obtain room | ⟨code, rfl, slot, rfl⟩ := room_decode_le found
  · have mono := i.room_mono le
    have eq := same pc
    simp only at room' eq
    omega
  · -- A load takes three bytes at most, and not three bytes here.
    have narrow : operands' ≠ 2 := by
      rintro rfl
      exact respells.short ⟨code, inside, decoded', 2, found', rfl⟩
    have eq : 3 = i.room pc' := same pc'
    simp only at room'
    omega

/-- As long as each instruction is spelled again, none starts later. -/
theorem Run.shrinks {bootstraps : Array Bootstrap} {pc pc' stop stop' : Nat}
    {items items' : List (Nat × Decoded)} (run : window.Run pc items stop)
    (run' : window'.Run pc' items' stop')
    (respells : List.Forall₂ (window.Respells window' bootstraps) items items') (le : pc' ≤ pc) :
    List.Forall₂ (fun item item' => item'.1 ≤ item.1) items items' ∧ stop' ≤ stop := by
  induction run generalizing pc' items' with
  | nil =>
      cases respells
      cases run'
      exact ⟨.nil, le⟩
  | cons inside found rest ih =>
      cases respells with
      | cons first others =>
          cases run' with
          | cons inside' found' rest' =>
              obtain ⟨starts, stops⟩ := ih rest' others (first.next_le found inside' found' le)
              exact ⟨.cons le starts, stops⟩

end Window

end Bytecode

/-- The instructions of an arrangement are those of the outline, with other labels. -/
theorem Listing.Arranges.exists_code_eq {α : Type} {listing : Listing α} {o : Outline}
    (arranges : listing.Arranges o) :
    ∃ f : Nat → α, listing.instructions.filter (!·.isPseudo) = o.instructions.map (·.map f) := by
  obtain ⟨f, -, rfl⟩ := arranges.labels
  refine ⟨f, ?_⟩
  change (o.arrange.instructions.map (·.map f)).filter (!·.isPseudo) = _
  rw [List.filter_map]
  simp only [Function.comp_def, Instruction.isPseudo_map]
  exact congrArg _ (Outline.filter_arrange arranges.proper)

namespace ClassFile

variable {file file' : ClassFile} {bootstraps bootstraps' : Array Bootstrap}
  {member member' : MemberRange} {range range' : AttributeRange} {body body' : BodyRecord}

/-- Some instruction of a code attribute is a short load that comes back as a long one. -/
def WidensLoad (file file' : ClassFile) (range range' : AttributeRange) (body body' : BodyRecord) :
    Prop :=
  ∃ pair ∈ body.instructions.zip body'.instructions,
    (file.window range body.length).Widens (file'.window range' body'.length) pair.1 pair.2

/-- The code attribute of a method comes back with the same instructions, and unless some load is
widened, none of them starts later and the code is no longer. -/
structure CodeReturns (file file' : ClassFile) (bootstraps bootstraps' : Array Bootstrap)
    (range range' : AttributeRange) (body body' : BodyRecord) : Prop where
  reads : file.readBody range = .ok body
  reads' : file'.readBody range' = .ok body'
  same : ∃ o o', body.Shows file.constants bootstraps o ∧ o.normal.Same o' ∧
    body'.Shows file'.constants bootstraps' o'
  shrinks : ¬file.WidensLoad file' range range' body body' →
    List.Forall₂ (fun item item' => item'.1 ≤ item.1) body.instructions body'.instructions ∧
      body'.length ≤ body.length

/-- A method that has code comes back with it, or without a code attribute if the code is empty. -/
def MethodReturns (file file' : ClassFile) (bootstraps bootstraps' : Array Bootstrap)
    (member member' : MemberRange) : Prop :=
  ∀ range, member.attributes.find? (·.name = "Code") = some range →
    (∃ body, file.readBody range = .ok body ∧ body.instructions = [] ∧
      member'.attributes.find? (·.name = "Code") = none) ∨
    ∃ range' body body', member'.attributes.find? (·.name = "Code") = some range' ∧
      file.CodeReturns file' bootstraps bootstraps' range range' body body'

/-- Code that is spelled again does not grow. -/
theorem codeReturns_of_spelled {o : Outline} {listing : Listing LabelToken}
    (reads : file.readBody range = .ok body) (shows : body.Shows file.constants bootstraps o)
    (arranges : listing.Arranges o) (reads' : file'.readBody range' = .ok body')
    (shows' : body'.Shows file'.constants bootstraps' listing.outline.normal)
    (spelled : List.Forall₂ ((file'.window range' body'.length).Spelled bootstraps')
      (listing.instructions.filter (!·.isPseudo)) body'.instructions) :
    file.CodeReturns file' bootstraps bootstraps' range range' body body' := by
  refine ⟨reads, reads', ⟨o, _, shows, arranges.same_outline.normal, shows'⟩, fun narrow => ?_⟩
  obtain ⟨f, code⟩ := arranges.exists_code_eq
  rw [code, List.forall₂_map_left_iff] at spelled
  have told : List.Forall₂ (fun item i => item.2.Tells file.constants bootstraps
      (i.map body.startAt)) body.instructions o.instructions :=
    (List.forall₂_map_left_iff.mp shows.reads.instructions).flip
  have same : List.Forall₂ (fun item item' => ∃ i : Instruction LabelToken,
      (∀ origin, item.2.room origin = i.room origin) ∧
        (file'.window range' body'.length).Spelled bootstraps' i item')
      body.instructions body'.instructions := by
    refine forall₂_trans told spelled fun item i item' tells spelled =>
      ⟨_, fun origin => ?_, spelled⟩
    rw [tells.room_eq, Instruction.room_map, Instruction.room_map]
  obtain ⟨count, same⟩ := List.forall₂_iff_zip.mp same
  have respells : List.Forall₂ ((file.window range body.length).Respells
      (file'.window range' body'.length) bootstraps') body.instructions body'.instructions :=
    List.forall₂_iff_zip.mpr
      ⟨count, fun mem => ⟨same mem, fun widens => narrow ⟨_, mem, widens⟩⟩⟩
  exact Window.Run.shrinks (Window.run_of_decodeAll (readBody_eq_ok_iff.mp reads).instructions)
    (Window.run_of_decodeAll (readBody_eq_ok_iff.mp reads').instructions) respells (Nat.le_refl 0)

/-- A method that was built from what a file tells comes back from a file that spells it. -/
theorem methodReturns_of_builds {method : MethodDef} {story : MethodStory}
    (tells : file.TellsMethod bootstraps story member) (builds : method.Builds story)
    (spells : file'.SpellsCode bootstraps' member'.attributes method.story.code) :
    file.MethodReturns file' bootstraps bootstraps' member member' := by
  intro range found
  have regular := builds.regular tells
  obtain ⟨known, built⟩ := builds.body
  have code := tells.code
  generalize story.code = told at built code
  cases code with
  | absent missing =>
      rw [missing] at found
      cases found
  | @told first body o found' reads shows proper =>
      obtain rfl := Option.some.inj (found'.symm.trans found)
      have arranges := built.arranges ((readBody_eq_ok_iff.mp reads).arranged shows proper).arranges
      generalize hstory : method.story.code = spelled at spells
      cases spells with
      | absent missing =>
          -- Only code without an instruction is left out.
          have uncoded := MethodDef.story_code_eq_none_iff.mp hstory
          have empty : method.body.isEmpty = true := by
            simpa using (Bool.or_eq_false_iff.mp uncoded).2
          obtain ⟨f, code⟩ := arranges.exists_code_eq
          rw [regular.empty.mp empty, List.filter_nil, eq_comm, List.map_eq_nil_iff] at code
          have told := shows.reads.instructions
          rw [Outline.map, code] at told
          exact .inl ⟨body, reads, List.forall₂_nil_left_iff.mp told, missing⟩
      | spelled found' reads' _ shows' spelled =>
          obtain ⟨-, rfl⟩ := MethodDef.story_code_eq_some_iff.mp hstory
          have arranges' := arranges.map Label.token_injective.injOn
          exact .inr ⟨_, body, _, found',
            codeReturns_of_spelled reads shows arranges' reads' shows' spelled⟩

end ClassFile

namespace ClassDef

variable {c : ClassDef} {bytes : Bytes} {content : List UInt8}

/-- Whatever file is decoded and encoded again, each method comes back with the instructions that it
had, and unless a short load has become a long one among them, each of them starts where it did or
earlier, and the code is no longer than it was. -/
theorem encode_shrinks_code (decoded : decode bytes = .ok c) (encoded : c.encode = .ok content) :
    ∃ file extents file' extents', ClassFile.read bytes = .ok file ∧ file.extents = .ok extents ∧
      ClassFile.read content.toArray = .ok file' ∧ file'.extents = .ok extents' ∧
      List.Forall₂ (file.MethodReturns file' (file.bootstraps extents.attributes)
        (file'.bootstraps extents'.attributes)) extents.methods extents'.methods := by
  obtain ⟨file, extents, story, read, tells, builds⟩ := decode_eq_ok decoded
  have documented := documented_of_regular (builds.regular tells)
  obtain ⟨-, draft, takes, written⟩ := encode_eq_ok encoded
  obtain ⟨file', extents', parts, opens, version, written⟩ :=
    ClassStory.exists_written (story_proper documented) takes written
  have supported : file'.version.major ≤ Version.latestMajor := by
    rw [version]
    exact builds.supported tells read
  refine ⟨file, extents, file', extents', read, tells.extents,
    ClassFile.read_eq_ok_iff.mpr ⟨opens, supported⟩, written.layout, ?_⟩
  have spells : List.Forall₂ (fun story member =>
      file'.SpellsCode (file'.bootstraps extents'.attributes) member.attributes story.code)
      (c.methods.toList.map MethodDef.story) extents'.methods :=
    forall₂_trans written.shown.methods written.methods
      fun story part member shown covers => (shown.reads covers).2
  have built := forall₂_trans tells.methods.flip builds.methods.flip
    fun member story method told built => (⟨story, told, built⟩ : ∃ story,
      file.TellsMethod (file.bootstraps extents.attributes) story member ∧ method.Builds story)
  refine forall₂_trans built (List.forall₂_map_left_iff.mp spells)
    fun member method member' built spells => ?_
  obtain ⟨story, told, built⟩ := built
  exact ClassFile.methodReturns_of_builds told built spells

/-- A file whose only method has a load and, at an offset where it needs no padding, a switch. -/
def switchFile : Bytes :=
  #[0xCA, 0xFE, 0xBA, 0xBE, 0, 0, 0, 65, 0, 7, 3, 0, 0, 0, 7, 1, 0, 1, 65, 7, 0, 2, 1, 0, 1, 109,
    1, 0, 3, 40, 41, 86, 1, 0, 4, 67, 111, 100, 101, 4, 32, 0, 3, 0, 0, 0, 0, 0, 0, 0, 1, 0, 8,
    0, 4, 0, 5, 0, 1, 0, 6, 0, 0, 0, 29, 0, 1, 0, 1, 0, 0, 0, 17, 18, 1, 87, 21, 0, 0, 0, 171,
    0, 0, 0, 9, 0, 0, 0, 0, 177, 0, 0, 0, 0, 0, 0]

/-- Where the instructions of each method start, and where its code ends. -/
def codeStarts (bytes : Bytes) : Except Error (List (List Nat)) := do
  let file ← ClassFile.read bytes
  let extents ← file.extents
  let ranges := extents.methods.filterMap fun member =>
    member.attributes.find? (·.name = "Code")
  return (← ranges.mapM file.readBody).map BodyRecord.starts

/-- The switch comes back a byte longer, but it starts a byte earlier. -/
theorem encode_shrinks_code_switchFile :
    ∃ c content, decode switchFile = .ok c ∧ c.encode = .ok content ∧
      codeStarts switchFile = .ok [[0, 2, 3, 5, 6, 7, 16, 17]] ∧
      codeStarts content.toArray = .ok [[0, 2, 3, 4, 5, 6, 16, 17]] ∧
      ∃ file extents file' extents', ClassFile.read switchFile = .ok file ∧
        file.extents = .ok extents ∧ ClassFile.read content.toArray = .ok file' ∧
        file'.extents = .ok extents' ∧
        List.Forall₂ (file.MethodReturns file' (file.bootstraps extents.attributes)
          (file'.bootstraps extents'.attributes)) extents.methods extents'.methods := by
  have starts : codeStarts switchFile = .ok [[0, 2, 3, 5, 6, 7, 16, 17]] := by decide +kernel
  have again : ((decode switchFile).bind encode).bind (fun content => codeStarts content.toArray) =
      .ok [[0, 2, 3, 4, 5, 6, 16, 17]] := by decide +kernel
  obtain ⟨content, hcontent, again⟩ := exceptBind_eq_ok_iff.mp again
  obtain ⟨c, decoded, encoded⟩ := exceptBind_eq_ok_iff.mp hcontent
  exact ⟨c, content, decoded, encoded, starts, again, encode_shrinks_code decoded encoded⟩

end ClassDef

end JavaClass
