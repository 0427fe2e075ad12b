import JavaClass.Proofs.ClassDef.Rebuilding
import JavaClass.Proofs.ClassDef.Tokens
import JavaClass.Proofs.Spelling.Classes

/-!
# Spellings of one class are decoded to one definition

Two class files that spell out the same class may differ in the constants, in
the size of almost every instruction and so in every offset. They are decoded to
definitions that are the same down to the numbers of their labels, and so they
are encoded to the same bytes.

## Implementation notes

The offsets are the tokens of the labels, so the files tell the class with
different tokens. A partial class only asks which tokens are equal.
-/

namespace JavaClass

/-- The other story is the same with other tokens. -/
def MethodStory.Exchanged (story other : MethodStory) : Prop :=
  ∃ f : LabelToken → LabelToken, Function.Injective f ∧ other = story.mapTokens f

/-- The other story is the same with other tokens in each method. -/
def ClassStory.Exchanged (story other : ClassStory) : Prop :=
  ∃ methods, List.Forall₂ MethodStory.Exchanged story.methods methods ∧
    other = { story with methods }

/-- A method is told in one way up to tokens. -/
theorem MethodOutline.Told.exchanged {method : MethodOutline} {story other : MethodStory}
    (told : method.Told story) (told' : method.Told other) : story.Exchanged other := by
  obtain ⟨flags, name, descriptor, exceptions, code⟩ := method
  obtain ⟨flags, name, descriptor, exceptions, code⟩ := story
  obtain ⟨flags', name', descriptor', exceptions', code'⟩ := other
  obtain ⟨rfl, rfl, rfl, rfl, hcode⟩ := told
  obtain ⟨rfl, rfl, rfl, rfl, hcode'⟩ := told'
  cases hcode with
  | none =>
      cases hcode'
      exact ⟨id, Function.injective_id, rfl⟩
  | some arranges =>
      cases hcode' with
      | some arranges' =>
          obtain ⟨f, inj, rfl⟩ := arranges.exists_map_eq arranges'
          exact ⟨f, inj, rfl⟩

/-- A class is told in one way up to tokens. -/
theorem ClassOutline.Told.exchanged {c : ClassOutline} {story other : ClassStory}
    (told : c.Told story) (told' : c.Told other) : story.Exchanged other := by
  obtain ⟨methods, hmethods, rfl⟩ := told
  obtain ⟨methods', hmethods', rfl⟩ := told'
  refine ⟨methods', ?_, rfl⟩
  exact forall₂_trans hmethods.flip hmethods' fun _ _ _ h h' => h.exchanged h'

theorem Event.mapTokens_id (event : Event) : event.mapTokens id = event := by
  cases event with
  | instruction i => exact congrArg Event.instruction i.map_id
  | _ => rfl

namespace Receiver

variable {σ : Type} {receive : Receiver σ} {R : (LabelToken → LabelToken) → σ → σ → Prop}
  {s s' t : σ}

/-- Methods that are taken are taken with other tokens in each of them. -/
theorem OnlyCompares.exists_takes_methods (compares : OnlyCompares receive R)
    {stories others : List MethodStory}
    (exchanged : List.Forall₂ MethodStory.Exchanged stories others)
    {g : LabelToken → LabelToken} (inj : Function.Injective g)
    (takes : Takes receive (stories.flatMap MethodStory.events) s t) (related : R g s s') :
    ∃ t' h, Takes receive (others.flatMap MethodStory.events) s' t' ∧ Function.Injective h ∧
      R h t t' := by
  induction exchanged generalizing s s' g with
  | nil =>
      cases takes
      exact ⟨s', g, .nil, inj, related⟩
  | @cons story other stories others first _ ih =>
      obtain ⟨f, hf, rfl⟩ := first
      rw [List.flatMap_cons] at takes
      obtain ⟨next, hstory, hrest⟩ := takes_append_iff.mp takes
      obtain ⟨next', hstory', hnext⟩ := compares.exists_takes_begun inj hf rfl hstory related
      rw [← MethodStory.events, ← MethodStory.events_mapTokens] at hstory'
      obtain ⟨t', h, hrest', hh, hlast⟩ := ih hf hrest hnext
      exact ⟨t', h, takes_append_iff.mpr ⟨next', hstory', hrest'⟩, hh, hlast⟩

/-- A class that is taken is taken with other tokens in each of its methods. -/
theorem OnlyCompares.exists_takes_class (compares : OnlyCompares receive R)
    {story other : ClassStory} (exchanged : story.Exchanged other)
    (takes : Takes receive story.events s t) (related : R id s s') :
    ∃ t' h, Takes receive other.events s' t' ∧ R h t t' := by
  obtain ⟨methods, hmethods, rfl⟩ := exchanged
  -- up to the methods no event has a token
  rw [ClassStory.events, ← List.append_assoc, ← List.cons_append] at takes
  obtain ⟨between, hfront, hrest⟩ := takes_append_iff.mp takes
  obtain ⟨between', hfront', hbetween⟩ :=
    compares.exists_takes Function.injective_id hfront related
  rw [List.map_congr_left fun event _ => event.mapTokens_id, List.map_id'] at hfront'
  obtain ⟨last, htaken, hend⟩ := takes_append_iff.mp hrest
  obtain ⟨last', g, htaken', hg, hlast⟩ :=
    compares.exists_takes_methods hmethods Function.injective_id htaken hbetween
  obtain ⟨t', hend', hrelated⟩ := compares.exists_takes hg hend hlast
  refine ⟨t', g, ?_, hrelated⟩
  rw [ClassStory.events, ← List.append_assoc, ← List.cons_append]
  exact takes_append_iff.mpr ⟨between', hfront', takes_append_iff.mpr ⟨last', htaken', hend'⟩⟩

end Receiver

theorem MethodBody.transcript_withoutTokens (body : MethodBody) :
    body.withoutTokens.transcript = body.transcript := by
  have htoList : body.withoutTokens.toList = body.toList :=
    SameList.toList_eq ⟨rfl, rfl, rfl, rfl, rfl⟩ rfl
  simp only [transcript, checkLabels, placed, referenced, instructions, htoList]
  rfl

theorem MethodDef.transcript_withoutTokens (method : MethodDef) :
    method.withoutTokens.transcript = method.transcript := by
  have hbody := method.body.transcript_withoutTokens
  unfold transcript tellCode
  change _ = _ at hbody
  rw [← hbody]
  rfl

namespace ClassDef

variable {c : ClassDef} {story other : ClassStory}

/-- What a definition tells does not depend on the tokens that its methods have met. -/
theorem transcript_withoutTokens (c : ClassDef) : c.withoutTokens.transcript = c.transcript := by
  have hmethods : c.withoutTokens.methods.toList.map MethodDef.transcript =
      c.methods.toList.map MethodDef.transcript := by
    rw [withoutTokens, Array.toList_map, List.map_map]
    exact List.map_congr_left fun method _ => method.transcript_withoutTokens
  rw [transcript, hmethods]
  rfl

theorem encode_eq_of_withoutTokens_eq {c' : ClassDef} (h : c'.withoutTokens = c.withoutTokens) :
    c'.encode = c.encode := by
  rw [encode, encode, ← transcript_withoutTokens c', h, transcript_withoutTokens]

/-- Stories that differ in their tokens are built to the same definition. -/
theorem exists_ofTranscript_exchanged (exchanged : story.Exchanged other)
    (h : ofTranscript (.tell story.events) = .ok c) :
    ∃ c', ofTranscript (.tell other.events) = .ok c' ∧ c'.withoutTokens = c.withoutTokens := by
  unfold ofTranscript at h
  cases hdeliver : Receiver.deliver PartialClass.receive (.tell story.events) .empty with
  | error error p =>
      rw [hdeliver] at h
      cases h
  | ok value p =>
      rw [hdeliver] at h
      have htakes := (Receiver.deliver_eq_ok_iff.mp hdeliver).2
      obtain ⟨p', g, htakes', renamed⟩ := PartialClass.onlyCompares_receive.exists_takes_class
        exchanged htakes (PartialClass.renamed_empty id)
      have hdeliver' : Receiver.deliver PartialClass.receive (.tell other.events) .empty =
          .ok () p' := Receiver.deliver_eq_ok_iff.mpr ⟨rfl, htakes'⟩
      have hfinish := renamed.finish_eq
      change p.finish = .ok c at h
      rw [h] at hfinish
      cases hp : p'.finish with
      | error error =>
          rw [hp] at hfinish
          cases hfinish
      | ok c' =>
          rw [hp] at hfinish
          refine ⟨c', ?_, Except.ok.inj hfinish⟩
          rw [ofTranscript, hdeliver']
          exact hp

variable {outline : ClassOutline} {parts parts' : ClassParts} {content content' : List UInt8}

/-- A spelling is decoded to what it tells. -/
theorem decode_eq_ofTranscript {file : ClassFile} {extents : ClassLayout} {bytes : Bytes}
    (hread : ClassFile.read bytes = .ok file) (tells : file.Tells extents story) :
    decode bytes = ofTranscript (.tell story.events) := by
  have htranscript := ClassFile.transcript_eq_tell_iff.mpr ⟨extents, story, tells, rfl⟩
  rw [decode, hread, ← htranscript]
  rfl

/-- Whichever spellings are chosen for a class, the file is decoded, to a definition of that class,
and any two spellings are decoded to the same definition, which is encoded to the same bytes. -/
theorem spellings_decode_alike (spelled : outline.SpelledAs parts)
    (spelled' : outline.SpelledAs parts') (encoded : parts.encode = .ok content)
    (encoded' : parts'.encode = .ok content') :
    ∃ c c', decode content.toArray = .ok c ∧ decode content'.toArray = .ok c' ∧
      (∃ story, outline.Told story ∧ c.Builds story) ∧ c'.withoutTokens = c.withoutTokens ∧
        c'.encode = c.encode := by
  obtain ⟨file, extents, story, hread, tells, told⟩ := spelled.exists_told encoded
  obtain ⟨file', extents', story', hread', tells', told'⟩ := spelled'.exists_told encoded'
  obtain ⟨c, hbuilt, builds, -⟩ := ofTranscript_tell tells.small
  obtain ⟨c', hbuilt', same⟩ := exists_ofTranscript_exchanged (told.exchanged told') hbuilt
  refine ⟨c, c', ?_, ?_, ⟨story, told, builds⟩, same, encode_eq_of_withoutTokens_eq same⟩
  · rw [decode_eq_ofTranscript hread tells, hbuilt]
  · rw [decode_eq_ofTranscript hread' tells', hbuilt']

/-- A body that counts up a local variable until a table says that it is done. -/
def countingBody : Outline where
  instructions := [.localVar .iload 1, .increment 1 1, .load (.int 7), .tableSwitch 7 7 4 [5],
    .jump ⟨167⟩ 0, .simple ⟨177⟩]
  blocks := [⟨0, 5, 5, none⟩]
  lines := [(3, 20), (0, 10)]
  maxStack := 2
  maxLocals := 2

def counting : ClassOutline where
  version := ⟨52, 0⟩
  flags := .ofBits _ 0x20
  name := "A"
  super := none
  interfaces := []
  sources := []
  fields := []
  methods := [⟨.ofBits _ 8, "m", "()V", [], some countingBody⟩]

/-- The short forms of all instructions. -/
def countingShort : BodySpelling where
  code := [.plain ⟨27⟩ [], .plain .iinc [1, 1], .plain .ldc [3],
    .tableSwitch #v[0, 0, 0] 7 7 4 [5], .jump ⟨167⟩ 0, .plain ⟨177⟩ []]
  catchTypes := [0]
  attributes := [.lines 7 [(3, 20), (0, 10)]]

/-- Long forms, bytes of all kinds for alignment, and two line number tables. -/
def countingLong : BodySpelling where
  code := [.plain .wide [21, 0, 1], .plain .wide [132, 0, 1, 0, 1], .plain .ldcWide [0, 3],
    .tableSwitch #v[1, 2, 3] 7 7 4 [5], .jump ⟨167⟩ 0, .plain ⟨177⟩ []]
  catchTypes := [0]
  attributes := [.lines 7 [(3, 20)], .lines 7 [(0, 10)]]

/-- The constants of the class, each referred to by its slot. -/
def countingPool : ConstantPool :=
  ⟨(SlotVector.startingAt 1).append [.utf8 "A", .classInfo 1, .integer 7, .utf8 "m",
    .utf8 "()V", .utf8 "Code", .utf8 "LineNumberTable"], ∅⟩

/-- The parts of the class, its method being spelled in some way. -/
def countingParts (body : BodySpelling) : ClassParts where
  header := ⟨⟨52, 0⟩, .ofBits _ 0x20, 2, 0, []⟩
  pool := countingPool
  fields := []
  methods := [⟨8, 4, 5, [⟨6, body.contents countingBody⟩]⟩]
  attributes := []

theorem countingPool_constants :
    let table : ConstantTable := ⟨countingPool.entries⟩
    table.className 2 = .ok "A" ∧ table.literal 3 = .ok (.int 7) ∧ table.text 4 = .ok "m" ∧
      table.text 5 = .ok "()V" ∧ table.text 6 = .ok "Code" ∧
        table.text 7 = .ok "LineNumberTable" := by
  refine ⟨?_, ?_, ?_, ?_, ?_, ?_⟩ <;> cbv

theorem counting_spelledAs {body : BodySpelling}
    (small : (body.contents countingBody).length < 2 ^ 32)
    (spelled : countingBody.SpelledAs ⟨countingPool.entries⟩ #[] body) :
    counting.SpelledAs (countingParts body) := by
  obtain ⟨owner, -, name, descriptor, code, -⟩ := countingPool_constants
  refine ⟨[], ?_⟩
  constructor
  case pool => exact ⟨⟨_, rfl⟩, by change countingPool.entries.next ≤ _; decide⟩
  case supported => decide
  case version => rfl
  case flags => rfl
  case name => exact owner
  case super => rfl
  case interfaces => exact .nil
  case attributes => exact ⟨by simp [countingParts], .nil, .nil⟩
  case fields => exact .nil
  case methods =>
    refine .cons ?_ .nil
    constructor
    case flags => rfl
    case name => exact name
    case descriptor => exact descriptor
    case readable =>
      rintro a (⟨⟩ | ⟨_, ⟨⟩⟩)
      exact ⟨⟨"Code", code⟩, small⟩
    case exceptions =>
      refine ⟨[], ?_, rfl⟩
      rw [List.filter_cons_of_neg (by simp [EncodedAttribute.isNamed, countingParts, code])]
      exact .nil
    case code =>
      rw [List.find?_cons_of_pos (by simp [EncodedAttribute.isNamed, countingParts, code])]
      exact .some ⟨body, spelled, rfl⟩

theorem countingShort_spells : countingBody.SpelledAs ⟨countingPool.entries⟩ #[] countingShort := by
  obtain ⟨-, literal, -, -, -, lines⟩ := countingPool_constants
  constructor
  case code =>
    exact .cons (@Instruction.SpelledAs.shortLoad _ _ ⟨27⟩ rfl) <| .cons (.increment 1 1) <|
      .cons (.load literal rfl) <| .cons (.tableSwitch _ 4 (by decide) (by decide)) <|
      .cons (.jump rfl 0) <| .cons (.simple rfl) .nil
  case bound => decide
  case length_le => decide
  case reach => exact ⟨trivial, trivial, trivial, trivial, by decide, trivial, trivial⟩
  case catchTypes => exact .cons rfl .nil
  case blocks_le => decide
  case lines => rfl
  case attributes =>
    rintro a (⟨⟩ | ⟨_, ⟨⟩⟩)
    exact .lines lines (by decide)
  case attributes_le => decide

theorem countingLong_spells : countingBody.SpelledAs ⟨countingPool.entries⟩ #[] countingLong := by
  obtain ⟨-, literal, -, -, -, lines⟩ := countingPool_constants
  constructor
  case code =>
    exact .cons (.widened rfl 1) <| .cons (.widenedIncrement 1 1) <|
      .cons (.wideLoad literal rfl) <| .cons (.tableSwitch _ 4 (by decide) (by decide)) <|
      .cons (.jump rfl 0) <| .cons (.simple rfl) .nil
  case bound => decide
  case length_le => decide
  case reach => exact ⟨trivial, trivial, trivial, trivial, by decide, trivial, trivial⟩
  case catchTypes => exact .cons rfl .nil
  case blocks_le => decide
  case lines => rfl
  case attributes =>
    rintro a (⟨⟩ | ⟨_, ⟨⟩ | ⟨_, ⟨⟩⟩⟩)
    · exact .lines lines (by decide)
    · exact .lines lines (by decide)
  case attributes_le => decide

theorem spellings_decode_alike_counting :
    counting.SpelledAs (countingParts countingShort) ∧
      counting.SpelledAs (countingParts countingLong) ∧
      ∃ content content', (countingParts countingShort).encode = .ok content ∧
        (countingParts countingLong).encode = .ok content' ∧ content ≠ content' ∧
        ∃ c c', decode content.toArray = .ok c ∧ decode content'.toArray = .ok c' ∧
          (∃ story, counting.Told story ∧ c.Builds story) ∧
          c'.withoutTokens = c.withoutTokens ∧ c'.encode = c.encode := by
  have spelled := counting_spelledAs (by decide) countingShort_spells
  have spelled' := counting_spelledAs (by decide) countingLong_spells
  refine ⟨spelled, spelled', _, _, rfl, rfl, by decide +kernel, ?_⟩
  exact spellings_decode_alike spelled spelled' rfl rfl

end ClassDef

end JavaClass
