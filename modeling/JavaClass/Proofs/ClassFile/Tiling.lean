import JavaClass.Proofs.Bytecode.Formats
import JavaClass.Proofs.Bytes.Reach
import JavaClass.Proofs.ClassFile.Failures
import JavaClass.Proofs.ClassFile.Records

/-!
# Instructions tile the code

Code is decoded by going from one instruction to the next until the end of the
code is reached. Each step goes forward, so this ends whatever the bytes are. If
the code is accepted, then its instructions tile it: the first one starts at 0,
each next one where the one before it ends, and the last one ends with the code.
Whatever refers to an offset of the code refers to the start of one of them or
to the end. All other code is refused as malformed.

## Implementation notes

A tiling is made of formats, and what refers to an offset is said of the bytes,
so neither depends on what is decoded. Code may be refused although it tiles,
for instance because a constant is missing.
-/

namespace JavaClass

open Bytecode

namespace Bytecode.Window

variable {window : Window} {pc stop : Nat} {items : List (Nat × Decoded)}

/-- Within the code, decoding an instruction leads to the offset behind it. -/
def Step (window : Window) (pc next : Nat) : Prop :=
  pc < window.length ∧ ∃ decoded operands, window.decode pc = .ok (decoded, operands) ∧
    next = pc + 1 + operands

/-- Decoding one instruction after the other leads from an offset to another one. -/
inductive Run (window : Window) : (pc : Nat) → (items : List (Nat × Decoded)) → (stop : Nat) → Prop
  | nil (pc : Nat) : Run window pc [] pc
  | cons {pc operands stop : Nat} {decoded : Decoded} {items : List (Nat × Decoded)}
      (inside : pc < window.length) (found : window.decode pc = .ok (decoded, operands))
      (rest : Run window (pc + 1 + operands) items stop) :
      Run window pc ((pc, decoded) :: items) stop

/-- What comes of decoding that stopped at an offset: it is complete at the end of the code, and
behind the end or within the code it is refused. -/
inductive Ends (window : Window) (items : List (Nat × Decoded)) :
    (stop : Nat) → (result : Except Error (List (Nat × Decoded))) → Prop
  | complete : Ends window items window.length (.ok items)
  | overrun {stop : Nat} (behind : window.length < stop) :
      Ends window items stop (malformed .codeOverrun)
  | refused {stop : Nat} {cause : Malformation} (inside : stop < window.length)
      (failed : window.decode stop = malformed cause) : Ends window items stop (malformed cause)

theorem Step.lt {next : Nat} (step : window.Step pc next) : pc < next := by
  obtain ⟨-, decoded, operands, -, rfl⟩ := step
  omega

/-- No code makes decoding go on for ever. -/
theorem wellFounded_step (window : Window) : WellFounded fun next pc => window.Step pc next := by
  refine Subrelation.wf (fun {next pc} step => ?_) (measure fun pc => window.length - pc).wf
  have inside := step.1
  have lt := step.lt
  change window.length - next < window.length - pc
  omega

/-- Decoding goes from instruction to instruction as far as it can. -/
theorem exists_run (window : Window) (pc : Nat) (done : List (Nat × Decoded)) :
    ∃ items stop, window.Run pc items stop ∧
      window.Ends (done.reverse ++ items) stop (window.decodeFrom pc done) := by
  induction pc, done using Window.decodeFrom.induct window with
  | case1 pc done inside error failed =>
      obtain ⟨cause, rfl⟩ := window.blames_decode pc error failed
      refine ⟨[], pc, .nil pc, ?_⟩
      rw [decodeFrom, if_pos inside, failed]
      exact .refused inside failed
  | case2 pc done inside decoded operands found ih =>
      obtain ⟨items, stop, run, ends⟩ := ih
      refine ⟨(pc, decoded) :: items, stop, .cons inside found run, ?_⟩
      rw [decodeFrom, if_pos inside, found]
      rwa [List.reverse_cons, List.append_assoc] at ends
  | case3 done inside =>
      refine ⟨[], window.length, .nil _, ?_⟩
      rw [decodeFrom, if_neg inside, if_pos rfl, List.append_nil]
      exact .complete
  | case4 pc done inside ne =>
      refine ⟨[], pc, .nil pc, ?_⟩
      rw [decodeFrom, if_neg inside, if_neg ne]
      exact .overrun (by omega)

theorem run_of_decodeAll (h : window.decodeAll = .ok items) :
    window.Run 0 items window.length := by
  obtain ⟨found, stop, run, ends⟩ := window.exists_run 0 []
  rw [← decodeAll, h] at ends
  cases ends
  exact run

/-- From an offset on, instructions with these starts tile the code: each starts where the one
before it ends, and the last one ends with the code. They branch to these offsets. -/
inductive Tiles (window : Window) :
    (pc : Nat) → (starts : List Nat) → (branches : List Int) → Prop
  | nil : Tiles window window.length [] []
  | cons {pc size : Nat} {starts : List Nat} {here branches : List Int}
      (inside : pc < window.length) (format : window.Format pc size here)
      (rest : Tiles window (pc + size) starts branches) :
      Tiles window pc (pc :: starts) (here ++ branches)

/-- Instructions that were decoded up to the end of the code tile it. -/
theorem Run.tiles (run : window.Run pc items window.length) :
    window.Tiles pc (items.map (·.1)) (items.flatMap fun item => item.2.targets.map Int.ofNat) := by
  generalize hstop : window.length = stop at run
  induction run with
  | nil pc =>
      subst hstop
      exact .nil
  | cons inside found rest ih =>
      have tiles := ih hstop
      rw [Nat.add_assoc] at tiles
      exact .cons inside (format_of_decode found) tiles

end Bytecode.Window

namespace ClassFile

variable {file : ClassFile} {range : AttributeRange} {body : BodyRecord} {length : Nat}

/-- The exception table or a line of a code attribute mentions an offset. -/
inductive Mentions (file : ClassFile) (range : AttributeRange) (length : Nat) : Nat → Prop
  | handler {count offset : UInt16} {k place : Nat}
      (counted : file.bytes.u16 (range.start + 8 + length) = .ok count) (lt : k < count.toNat)
      (bound : place ∈ [0, 2, 4])
      (found : file.bytes.u16 (range.start + 8 + length + 2 + 8 * k + place) = .ok offset) :
      Mentions file range length offset.toNat
  | line {handlerCount count offset : UInt16} {k stop : Nat} {attributes : List AttributeRange}
      {table : AttributeRange}
      (handlers : file.bytes.u16 (range.start + 8 + length) = .ok handlerCount)
      (nested : file.readAttributes (range.start + 8 + length + 2 + 8 * handlerCount.toNat) =
        .ok (attributes, stop))
      (mem : table ∈ attributes) (named : table.name = "LineNumberTable")
      (counted : file.bytes.u16 table.start = .ok count) (lt : k < count.toNat)
      (found : file.bytes.u16 (table.start + 2 + 4 * k) = .ok offset) :
      Mentions file range length offset.toNat

/-- Instructions with these starts tile the code of a code attribute, and whatever branches to an
offset or mentions it finds one of them there or the end of the code. -/
structure TiledBy (file : ClassFile) (range : AttributeRange) (length : Nat) (starts : List Nat)
    (branches : List Int) : Prop where
  tiles : (file.window range length).Tiles 0 starts branches
  branches : ∀ target ∈ branches, ∃ offset ∈ starts ++ [length], target = Int.ofNat offset
  mentions : ∀ offset, file.Mentions range length offset → offset ∈ starts ++ [length]

/-- A code attribute was decoded from 0 to the end of its code, and its instructions tile it. -/
structure Tiled (file : ClassFile) (range : AttributeRange) (body : BodyRecord) : Prop where
  run : (file.window range body.length).Run 0 body.instructions body.length
  tiled : file.TiledBy range body.length (body.instructions.map (·.1))
    (body.instructions.flatMap fun item => item.2.targets.map Int.ofNat)
  mentioned : ∀ offset ∈ body.mentioned, offset ∈ body.instructions.map (·.1) ++ [body.length]

theorem toNat_eq_of_offset {window : Window} {bound : UInt16} {offset : Nat}
    (h : window.offset bound.toNat = .ok offset) : bound.toNat = offset :=
  (Int.ofNat.inj (Window.eq_of_offset h)).symm

theorem bound_of_readHandler {window : Window} {index place : Nat} {handler : HandlerRange}
    {offset : UInt16} (h : file.readHandler window index = .ok handler) (bound : place ∈ [0, 2, 4])
    (found : file.bytes.u16 (index + place) = .ok offset) :
    offset.toNat ∈ [handler.start, handler.stop, handler.handler] := by
  obtain ⟨start, hstart, h⟩ := exceptBind_eq_ok_iff.mp h
  obtain ⟨first, hfirst, h⟩ := exceptBind_eq_ok_iff.mp h
  obtain ⟨stop, hstop, h⟩ := exceptBind_eq_ok_iff.mp h
  obtain ⟨second, hsecond, h⟩ := exceptBind_eq_ok_iff.mp h
  obtain ⟨target, htarget, h⟩ := exceptBind_eq_ok_iff.mp h
  obtain ⟨third, hthird, h⟩ := exceptBind_eq_ok_iff.mp h
  obtain ⟨slot, -, h⟩ := exceptBind_eq_ok_iff.mp h
  obtain rfl := Except.ok.inj h
  simp only [List.mem_cons, List.not_mem_nil, or_false] at bound ⊢
  obtain rfl | rfl | rfl := bound
  · obtain rfl := Except.ok.inj (hstart.symm.trans found)
    exact .inl (toNat_eq_of_offset hfirst)
  · obtain rfl := Except.ok.inj (hstop.symm.trans found)
    exact .inr (.inl (toNat_eq_of_offset hsecond))
  · obtain rfl := Except.ok.inj (htarget.symm.trans found)
    exact .inr (.inr (toNat_eq_of_offset hthird))

theorem offset_of_readLines {window : Window} {table : AttributeRange}
    {lines : List (Nat × UInt16)} {count offset : UInt16} {k : Nat}
    (h : file.readLines window table = .ok lines) (counted : file.bytes.u16 table.start = .ok count)
    (lt : k < count.toNat) (found : file.bytes.u16 (table.start + 2 + 4 * k) = .ok offset) :
    offset.toNat ∈ lines.map (·.1) := by
  obtain ⟨count', hcount, h⟩ := exceptBind_eq_ok_iff.mp h
  obtain rfl := Except.ok.inj (counted.symm.trans hcount)
  have inside : k < lines.length := by rwa [length_of_readEach h]
  have line := getElem?_of_readEach h (List.getElem?_eq_getElem inside)
  obtain ⟨start, hstart, line⟩ := exceptBind_eq_ok_iff.mp line
  obtain ⟨first, hfirst, line⟩ := exceptBind_eq_ok_iff.mp line
  obtain ⟨number, -, line⟩ := exceptBind_eq_ok_iff.mp line
  obtain rfl := Except.ok.inj (hstart.symm.trans found)
  rw [toNat_eq_of_offset hfirst]
  exact List.mem_map.mpr ⟨_, List.getElem_mem inside, by rw [← Except.ok.inj line]⟩

/-- Whatever the exception table or a line mentions is mentioned by the record. -/
theorem ReadsBody.mentioned_of_mentions (reads : file.ReadsBody range body) {offset : Nat}
    (mentions : file.Mentions range body.length offset) : offset ∈ body.mentioned := by
  obtain ⟨count, hcount, hhandlers, attributes, stop, parts, hattributes, hparts, hlines⟩ :=
    reads.tables
  unfold BodyRecord.mentioned
  cases mentions with
  | handler counted lt bound found =>
      obtain rfl := Except.ok.inj (counted.symm.trans hcount)
      rw [← length_of_readEach hhandlers] at lt
      have handler := getElem?_of_readEach hhandlers (List.getElem?_eq_getElem lt)
      refine List.mem_append_left _ (List.mem_append_right _ ?_)
      exact List.mem_flatMap_of_mem (List.getElem_mem lt) (bound_of_readHandler handler bound found)
  | line handlers nested mem named counted lt found =>
      obtain rfl := Except.ok.inj (handlers.symm.trans hcount)
      obtain ⟨rfl, rfl⟩ := Prod.mk.inj (Except.ok.inj (nested.symm.trans hattributes))
      obtain ⟨part, hpart, read⟩ := exists_right (mapM_eq_ok_iff.mp hparts)
        (List.mem_filter.mpr ⟨mem, decide_eq_true named⟩)
      obtain ⟨line, hline, offset_eq⟩ := List.mem_map.mp (offset_of_readLines read counted lt found)
      rw [← offset_eq, hlines]
      exact List.mem_append_right _ (List.mem_map_of_mem (List.mem_flatten_of_mem hpart hline))

/-- A code attribute that is accepted is tiled. -/
theorem ReadsBody.tiled (reads : file.ReadsBody range body) : file.Tiled range body := by
  have run := Window.run_of_decodeAll reads.instructions
  refine ⟨run, ⟨run.tiles, fun target htarget => ?_, fun offset mentions => ?_⟩, reads.placeable⟩
  · obtain ⟨item, hitem, htarget⟩ := List.mem_flatMap.mp htarget
    obtain ⟨offset, hoffset, rfl⟩ := List.mem_map.mp htarget
    refine ⟨offset, reads.placeable offset ?_, rfl⟩
    refine List.mem_append_left _ (List.mem_append_left _ ?_)
    exact List.mem_flatMap_of_mem hitem hoffset
  · exact reads.placeable offset (reads.mentioned_of_mentions mentions)

/-- Decoding code goes forward from instruction to instruction and ends. A code attribute is
accepted only if its instructions tile its code and nothing refers to any other offset, and is
refused as malformed otherwise. -/
theorem readBody_tiles (file : ClassFile) (range : AttributeRange) :
    (∀ (window : Window) (pc operands : Nat) (decoded : Decoded),
      window.decode pc = .ok (decoded, operands) →
        pc < pc + 1 + operands ∧
          window.Format pc (1 + operands) (decoded.targets.map Int.ofNat)) ∧
    (∀ window : Window, WellFounded (fun next pc => window.Step pc next) ∧
      (∃ items stop, window.Run 0 items stop ∧ window.Ends items stop window.decodeAll) ∧
      ∀ items, window.decodeAll = .ok items → window.Tiles 0 (items.map (·.1))
        (items.flatMap fun item => item.2.targets.map Int.ofNat)) ∧
    (∀ body, file.readBody range = .ok body → file.Tiled range body) ∧
    (∀ error, file.readBody range = .error error → ∃ cause, error = .malformed cause) ∧
    (∀ length, file.bytes.u32 (range.start + 4) = .ok length →
      (¬∃ starts branches, file.TiledBy range length.toNat starts branches) →
        ∃ cause, file.readBody range = .error (.malformed cause)) := by
  have tiled (body : BodyRecord) (h : file.readBody range = .ok body) : file.Tiled range body :=
    (readBody_eq_ok_iff.mp h).tiled
  refine ⟨fun window pc operands decoded found => ?_, fun window => ?_, tiled,
    file.blames_readBody range, fun length hlength untiled => ?_⟩
  · exact ⟨by omega, Window.format_of_decode found⟩
  · exact ⟨window.wellFounded_step, window.exists_run 0 [],
      fun items accepted => (Window.run_of_decodeAll accepted).tiles⟩
  · cases hread : file.readBody range with
    | error error =>
        obtain ⟨cause, rfl⟩ := file.blames_readBody range error hread
        exact ⟨cause, rfl⟩
    | ok body =>
        obtain ⟨n, hn, length_eq⟩ := (readBody_eq_ok_iff.mp hread).length
        obtain rfl := Except.ok.inj (hn.symm.trans hlength)
        rw [length_eq] at untiled
        exact absurd ⟨_, _, (tiled body hread).tiled⟩ untiled

/-- A file of which only the code is looked at: a jump to the next instruction, and a return. -/
def jumpingFile : ClassFile where
  bytes := #[0, 1, 0, 1, 0, 0, 0, 4, 167, 0, 3, 177, 0, 0, 0, 0]
  version := ⟨65, 0⟩
  constants := ⟨.startingAt 1⟩
  headerStart := 0

/-- The same with code that ends within the number to push. -/
def overrunningFile : ClassFile :=
  { jumpingFile with bytes := #[0, 1, 0, 1, 0, 0, 0, 1, 17, 0, 0, 0, 0] }

theorem readBody_tiles_jumpingFile :
    (∃ body, jumpingFile.readBody ⟨"Code", 0, 16⟩ = .ok body ∧
      body.instructions.map (·.1) = [0, 3] ∧ jumpingFile.Tiled ⟨"Code", 0, 16⟩ body) ∧
    ∃ cause, overrunningFile.readBody ⟨"Code", 0, 13⟩ = .error (.malformed cause) := by
  have starts : (jumpingFile.readBody ⟨"Code", 0, 16⟩).map (·.instructions.map (·.1)) =
      .ok [0, 3] := by decide +kernel
  have refused : (overrunningFile.readBody ⟨"Code", 0, 13⟩).isOk = false := by decide +kernel
  obtain ⟨body, read, starts⟩ := exceptMap_eq_ok_iff.mp starts
  obtain ⟨-, -, tiled, -⟩ := readBody_tiles jumpingFile ⟨"Code", 0, 16⟩
  obtain ⟨-, -, -, malformed, -⟩ := readBody_tiles overrunningFile ⟨"Code", 0, 13⟩
  refine ⟨⟨body, read, starts, tiled body read⟩, ?_⟩
  cases hread : overrunningFile.readBody ⟨"Code", 0, 13⟩ with
  | error error =>
      obtain ⟨cause, rfl⟩ := malformed error hread
      exact ⟨cause, rfl⟩
  | ok body =>
      rw [hread] at refused
      cases refused

end ClassFile

end JavaClass
