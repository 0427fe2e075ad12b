import JavaClass.Proofs.Assembly.Code
import JavaClass.Proofs.Assembly.Finish
import JavaClass.Proofs.ClassFile.Records

/-!
# Code attributes that are read back

The code attribute that a class draft settles for a method is read back as a
record that shows the outline of what was told.
-/

namespace JavaClass

open BigEndian Bytecode ConstantPool

variable {table : ConstantTable} {bootstraps : Array Bootstrap} {offset : LabelToken → Nat}
  {origin : Nat} {is : List (Instruction LabelToken)} {cells : List Cell}

theorem Laid.offset_le (laid : Laid table bootstraps offset origin is cells) {token : LabelToken}
    (h : .label token ∈ is) : offset token ≤ origin + (blankCells cells).length := by
  induction laid with
  | nil => cases h
  | label placed _ ih =>
      obtain heq | h := List.mem_cons.mp h
      · cases heq
        omega
      · exact ih h
  | line _ ih => exact ih ((List.mem_cons.mp h).resolve_left (by simp))
  | code pseudo _ _ ih =>
      rw [blankCells_append, List.length_append, ← Nat.add_assoc]
      obtain rfl | h := List.mem_cons.mp h
      · cases pseudo
      · exact ih h

/-- Every target of the code is a branch of some cell. -/
theorem Laid.mentions (laid : Laid table bootstraps offset origin is cells)
    {i : Instruction LabelToken} (hi : i ∈ is) (hpseudo : i.isPseudo = false)
    {token : LabelToken} (h : token ∈ i.targets) :
    ∃ cell ∈ cells, ∃ wide, cell.piece = .branch wide token := by
  induction laid with
  | nil => cases hi
  | label _ _ ih =>
      obtain rfl | hi := List.mem_cons.mp hi
      · cases hpseudo
      · exact ih hi
  | line _ ih =>
      obtain rfl | hi := List.mem_cons.mp hi
      · cases hpseudo
      · exact ih hi
  | code _ spelled _ ih =>
      obtain rfl | hi := List.mem_cons.mp hi
      · obtain ⟨cell, hcell, hbranch⟩ := spelled.mentions token h
        exact ⟨cell, List.mem_append_left _ hcell, hbranch⟩
      · obtain ⟨cell, hcell, hbranch⟩ := ih hi
        exact ⟨cell, List.mem_append_right _ hcell, hbranch⟩

/-- What is decoded of laid out instructions: the offsets rise, each instruction is told as it
was, and each label stands at the offset of its position. -/
structure Decodes (table : ConstantTable) (bootstraps : Array Bootstrap)
    (offset : LabelToken → Nat) (origin stop : Nat) (is : List (Instruction LabelToken))
    (items : List (Nat × Decoded)) : Prop where
  tells : List.Forall₂ (fun i item => item.2.Tells table bootstraps (i.map offset).normal)
    (is.filter (!·.isPseudo)) items
  first : (items.map (·.1) ++ [stop]).head? = some origin
  sorted : (items.map (·.1) ++ [stop]).Pairwise (· < ·)
  placed : ∀ {token : LabelToken}, .label token ∈ is →
    (items.map (·.1) ++ [stop])[Listing.position is token]? = some (offset token)

theorem Decodes.first_le {stop : Nat} {items : List (Nat × Decoded)}
    (h : Decodes table bootstraps offset origin stop is items) {start : Nat}
    (hstart : start ∈ items.map (·.1) ++ [stop]) : origin ≤ start := by
  have hfirst := h.first
  have hsorted := h.sorted
  cases hlist : items.map (·.1) ++ [stop] with
  | nil => rw [hlist] at hfirst; cases hfirst
  | cons first rest =>
      rw [hlist] at hfirst hsorted hstart
      obtain rfl := Option.some.inj hfirst
      obtain rfl | hmem := List.mem_cons.mp hstart
      · exact Nat.le_refl _
      · exact Nat.le_of_lt ((List.pairwise_cons.mp hsorted).1 start hmem)

theorem Decodes.pseudo {stop : Nat} {items : List (Nat × Decoded)}
    (h : Decodes table bootstraps offset origin stop is items) {i : Instruction LabelToken}
    (hpseudo : i.isPseudo = true)
    (hplaced : ∀ token, i = .label token → offset token = origin) :
    Decodes table bootstraps offset origin stop (i :: is) items where
  tells := by
    rw [List.filter_cons_of_neg (by simp [hpseudo])]
    exact h.tells
  first := h.first
  sorted := h.sorted
  placed := by
    intro token hmem
    by_cases heq : i = .label token
    · subst heq
      rw [Listing.position_label, hplaced token rfl, ← List.head?_eq_getElem?, h.first]
    · rw [Listing.position_cons heq, hpseudo, if_pos rfl, Nat.zero_add]
      exact h.placed ((List.mem_cons.mp hmem).resolve_left (Ne.symm heq))

theorem Decodes.code {next stop : Nat} {items : List (Nat × Decoded)} {decoded : Decoded}
    {i : Instruction LabelToken} (h : Decodes table bootstraps offset next stop is items)
    (hpseudo : i.isPseudo = false) (hless : origin < next)
    (htells : decoded.Tells table bootstraps (i.map offset).normal) :
    Decodes table bootstraps offset origin stop (i :: is) ((origin, decoded) :: items) where
  tells := by
    rw [List.filter_cons_of_pos (by simp [hpseudo])]
    exact .cons htells h.tells
  first := rfl
  sorted := by
    rw [List.map_cons, List.cons_append]
    exact List.pairwise_cons.mpr
      ⟨fun start hstart => Nat.lt_of_lt_of_le hless (h.first_le hstart), h.sorted⟩
  placed := by
    intro token hmem
    have hne : i ≠ .label token := by
      rintro rfl
      cases hpseudo
    rw [Listing.position_cons hne, hpseudo, Nat.add_comm, List.map_cons, List.cons_append]
    exact h.placed ((List.mem_cons.mp hmem).resolve_left (Ne.symm hne))

/-- An instruction is decoded at an offset from no more bytes than it takes, and a constant that
it needs is at the slot to which it refers there. -/
structure Bytecode.Window.Spelled (window : Window) (bootstraps : Array Bootstrap)
    (i : Instruction LabelToken) (item : Nat × Decoded) : Prop where
  room : ∃ operands, window.decode item.1 = .ok (item.2, operands) ∧ 1 + operands ≤ i.room item.1
  refers : (∃ tree, i.Operand window.constants bootstraps tree) → ∃ tree slot,
    i.Operand window.constants bootstraps tree ∧ tree.Shown window.constants slot ∧
      window.Refers item.1 slot

/-- Laid out instructions are decoded, up to the end of the code. -/
theorem Laid.decodeFrom {window : Window}
    (laid : Laid window.constants bootstraps offset origin is cells)
    (small : window.length ≤ countLimit)
    (hstop : origin + (blankCells cells).length = window.length)
    (htargets : ∀ i ∈ is, i.isPseudo = false → ∀ token ∈ i.targets,
      offset token ≤ window.length)
    (fits : ∀ cell ∈ cells, cell.piece.Fits offset cell.origin)
    (shows : window.Shows origin (fillCells offset cells)) (done : List (Nat × Decoded)) :
    ∃ items, window.decodeFrom origin done = .ok (done.reverse ++ items) ∧
      Decodes window.constants bootstraps offset origin window.length is items ∧
      List.Forall₂ (window.Spelled bootstraps) (is.filter (!·.isPseudo)) items := by
  induction laid generalizing done with
  | @nil origin =>
      have hend : origin = window.length := by simpa [blankCells] using hstop
      refine ⟨[], ?_, ⟨.nil, by rw [hend]; rfl, by simp, by simp⟩, .nil⟩
      rw [Window.decodeFrom, if_neg (by omega), if_pos hend, List.append_nil]
  | label placed _ ih =>
      obtain ⟨items, hdecode, hdecodes, hspelled⟩ :=
        ih hstop (fun i hi => htargets i (List.mem_cons_of_mem _ hi)) fits shows done
      refine ⟨items, hdecode, hdecodes.pseudo rfl fun token heq => ?_, hspelled⟩
      cases heq
      exact placed
  | line _ ih =>
      obtain ⟨items, hdecode, hdecodes, hspelled⟩ :=
        ih hstop (fun i hi => htargets i (List.mem_cons_of_mem _ hi)) fits shows done
      exact ⟨items, hdecode, hdecodes.pseudo rfl (fun token heq => by cases heq), hspelled⟩
  | @code origin i rest first cells pseudo spelled others ih =>
      have hpositive := spelled.positive
      rw [blankCells_append, List.length_append] at hstop
      rw [fillCells_append] at shows
      obtain ⟨decoded, hdecoded, htells⟩ := spelled.reads window offset rfl small (by omega)
        (htargets i List.mem_cons_self pseudo)
        (fun cell hcell => fits cell (List.mem_append_left _ hcell)) shows.left
      have hrest := shows.right
      rw [length_fillCells] at hrest
      obtain ⟨items, hdecode, hdecodes, hspelled⟩ := ih (by omega)
        (fun j hj => htargets j (List.mem_cons_of_mem _ hj))
        (fun cell hcell => fits cell (List.mem_append_right _ hcell)) hrest
        ((origin, decoded) :: done)
      have hroom := spelled.room
      have hfirst : window.Spelled bootstraps i (origin, decoded) := by
        refine ⟨⟨_, hdecoded, by dsimp only; omega⟩, fun needed => ?_⟩
        obtain ⟨tree, slot, operand, shown, refers⟩ := spelled.refers needed
        exact ⟨tree, slot, operand, shown, refers window offset shows.left⟩
      refine ⟨(origin, decoded) :: items, ?_, hdecodes.code pseudo (by omega) htells, ?_⟩
      case refine_2 =>
        rw [List.filter_cons_of_pos (by simp [pseudo])]
        exact .cons hfirst hspelled
      have hnext : origin + 1 + ((blankCells first).length - 1) =
          origin + (blankCells first).length := by omega
      rw [Window.decodeFrom, if_pos (by omega), hdecoded]
      simp only [hnext]
      rw [hdecode, List.reverse_cons, List.append_assoc, List.singleton_append]

/-- An entry of the exception table is settled for a block. -/
structure DraftHandler.Settles (table : ConstantTable) (block : TryBlock LabelToken)
    (entry : DraftHandler) : Prop where
  start : entry.start = block.start
  stop : entry.stop = block.stop
  handler : entry.handler = block.handler
  exception : table.optionalClassName entry.catchType = .ok block.exception

/-- A method under construction has the code of a listing. -/
structure MethodDraft.Has (table : ConstantTable) (bootstraps : Array Bootstrap)
    (method : MethodDraft) (listing : Listing LabelToken) (cells : List Cell) : Prop
    extends method.MadeOf cells where
  lines : method.lines.toList = (listing.instructions.filterMap Instruction.line?).map Prod.swap
  labels : ∀ {token : LabelToken} {n : Nat}, method.labels[token]? = some n →
    .label token ∈ listing.instructions
  once : ∀ {token : LabelToken}, .label token ∈ listing.instructions →
    (∃ n, method.labels[token]? = some n) ∧ listing.instructions.count (.label token) = 1
  laid : Laid table bootstraps method.offsetD 0 listing.instructions cells
  handlers : List.Forall₂ (DraftHandler.Settles table) listing.blocks method.handlers.toList
  maxStack : method.maxStack = listing.maxStack
  maxLocals : method.maxLocals = listing.maxLocals

section Tables

variable {file : ClassFile} {window : Window} {index : Nat} {method : MethodDraft}
  {listing : Listing LabelToken}

theorem u16_eq {n : Nat} (small : window.length ≤ countLimit) (hn : n ≤ window.length)
    (h : file.bytes.Holds index (ofNat 2 n)) :
    file.bytes.u16 index = .ok (UInt16.ofNat n) ∧
      window.offset (UInt16.ofNat n).toNat = .ok n := by
  simp only [countLimit] at small
  have hnat : (UInt16.ofNat n).toNat = n := UInt16.toNat_ofNat_of_lt' (by change n < 65536; omega)
  refine ⟨h.u16_ofNat (by omega), ?_⟩
  rw [hnat]
  exact Window.offset_natCast hn

theorem readHandler_eq (small : window.length ≤ countLimit) {start stop handler : Nat}
    (hstart : start ≤ window.length) (hstop : stop ≤ window.length)
    (hhandler : handler ≤ window.length) {slot : UInt16}
    (h : file.bytes.Holds index (ofNat 2 start ++ ofNat 2 stop ++ ofNat 2 handler ++ u16 slot)) :
    file.readHandler window index = .ok ⟨start, stop, handler, slot⟩ := by
  obtain ⟨hu16, hoffset⟩ := u16_eq small hstart h.left.left.left
  obtain ⟨hu16', hoffset'⟩ := u16_eq small hstop h.left.left.right
  obtain ⟨hu16'', hoffset''⟩ := u16_eq small hhandler h.left.right
  have hslot := h.right.u16
  simp only [List.length_append, length_ofNat] at hu16' hu16'' hslot
  unfold ClassFile.readHandler
  simp only [bind, Except.bind, hu16, hoffset, hu16', hoffset', hu16'', hoffset'', hslot]
  rfl

/-- The bytes of an entry of an exception table. -/
def HandlerRange.encode (range : HandlerRange) : List UInt8 :=
  ofNat 2 range.start ++ ofNat 2 range.stop ++ ofNat 2 range.handler ++ u16 range.catchType

/-- An exception table is read back. -/
theorem readRanges_eq (small : window.length ≤ countLimit) {ranges : List HandlerRange}
    (within : ∀ range ∈ ranges, ∀ offset ∈ [range.start, range.stop, range.handler],
      offset ≤ window.length)
    (h : file.bytes.Holds index (ranges.map HandlerRange.encode).flatten) :
    readEach (file.readHandler window) 8 index ranges.length = .ok ranges := by
  rw [← List.length_map HandlerRange.encode]
  refine readEach_eq ?_ h
  rw [List.forall₂_map_right_iff, List.forall₂_same]
  intro range hrange
  refine ⟨by simp [HandlerRange.encode, u16], fun i hi => ?_⟩
  have hoffset := within range hrange
  exact readHandler_eq small (hoffset _ (by simp)) (hoffset _ (by simp)) (hoffset _ (by simp)) hi

/-- The exception table of a method is read back, with offsets in the place of labels. -/
theorem readHandlers_eq (small : window.length ≤ countLimit) {blocks : List (TryBlock LabelToken)}
    {handlers : List DraftHandler} {parts : List (List UInt8)}
    (settles : List.Forall₂ (DraftHandler.Settles file.constants) blocks handlers)
    (hparts : handlers.mapM method.encodeHandler = .ok parts)
    (hoffsets : ∀ token n, method.labels[token]? = some n → method.offsetD token ≤ window.length)
    (h : file.bytes.Holds index parts.flatten) :
    ∃ ranges, readEach (file.readHandler window) 8 index parts.length = .ok ranges ∧
      List.Forall₂ (HandlerRange.Shows file.constants) (blocks.map (·.map method.offsetD))
        ranges := by
  let rangeOf (handler : DraftHandler) : HandlerRange := ⟨method.offsetD handler.start,
    method.offsetD handler.stop, method.offsetD handler.handler, handler.catchType⟩
  have hencoded := mapM_eq_ok_iff.mp hparts
  obtain rfl : (handlers.map rangeOf).map HandlerRange.encode = parts := by
    rw [← List.forall₂_eq_eq_eq, List.map_map, List.forall₂_map_left_iff]
    exact hencoded.imp fun handler part hpart => (MethodDraft.encodeHandler_eq_ok hpart).2.symm
  refine ⟨handlers.map rangeOf, ?_, ?_⟩
  · rw [List.length_map]
    refine readRanges_eq small (List.forall_mem_map.mpr fun handler hhandler => ?_) h
    obtain ⟨part, -, hpart⟩ := exists_right hencoded hhandler
    have hplaced {token : LabelToken}
        (htoken : token ∈ [handler.start, handler.stop, handler.handler]) :
        method.offsetD token ≤ window.length := by
      obtain ⟨n, hn⟩ := (MethodDraft.encodeHandler_eq_ok hpart).1 token htoken
      exact hoffsets token n hn
    change ∀ offset ∈ [handler.start, handler.stop, handler.handler].map method.offsetD, _
    exact List.forall_mem_map.mpr fun token => hplaced
  · rw [List.forall₂_map_left_iff, List.forall₂_map_right_iff]
    refine settles.imp fun block handler hsettles => ⟨?_, ?_, ?_, hsettles.exception⟩
    · exact congrArg method.offsetD hsettles.start
    · exact congrArg method.offsetD hsettles.stop
    · exact congrArg method.offsetD hsettles.handler

/-- The bytes of an entry of a line number table. -/
def lineBytes (line : Nat × UInt16) : List UInt8 :=
  ofNat 2 line.1 ++ u16 line.2

/-- A line number table is read back. -/
theorem readLines_eq (small : window.length ≤ countLimit) {lines : List (Nat × UInt16)}
    {range : AttributeRange} (few : lines.length < 65536)
    (within : ∀ line ∈ lines, line.1 ≤ window.length)
    (h : file.bytes.Holds range.start (ofNat 2 lines.length ++ (lines.map lineBytes).flatten)) :
    file.readLines window range = .ok lines := by
  have hnat : (UInt16.ofNat lines.length).toNat = lines.length :=
    UInt16.toNat_ofNat_of_lt' few
  have hflatten := h.right
  rw [length_ofNat] at hflatten
  unfold ClassFile.readLines
  simp only [h.left.u16_ofNat few, bind, Except.bind, hnat]
  rw [← List.length_map lineBytes]
  refine readEach_eq ?_ hflatten
  rw [List.forall₂_map_right_iff, List.forall₂_same]
  intro line hline
  refine ⟨by simp [lineBytes, u16], fun i hi => ?_⟩
  obtain ⟨hu16, hoffset⟩ := u16_eq small (within line hline) hi.left
  have hnumber := hi.right.u16
  rw [length_ofNat] at hnumber
  simp only [hu16, hoffset, hnumber]
  rfl

/-- The line number table of a method is read back, with offsets in the place of labels. -/
theorem readMethodLines_eq (small : window.length ≤ countLimit)
    {lines : List (UInt16 × LabelToken)} {parts : List (List UInt8)} {contents : List UInt8}
    {range : AttributeRange} (hparts : lines.mapM method.encodeLine = .ok parts)
    (hcontents : encodeTable .ok parts = .ok contents)
    (hoffsets : ∀ token n, method.labels[token]? = some n → method.offsetD token ≤ window.length)
    (h : file.bytes.Holds range.start contents) :
    file.readLines window range =
      .ok (lines.map fun line => (method.offsetD line.2, line.1)) := by
  have hencoded := mapM_eq_ok_iff.mp hparts
  obtain ⟨few, rfl⟩ := encodeTable_ok_eq_ok hcontents
  obtain rfl : (lines.map fun line => (method.offsetD line.2, line.1)).map lineBytes = parts := by
    rw [← List.forall₂_eq_eq_eq, List.map_map, List.forall₂_map_left_iff]
    exact hencoded.imp fun line part hpart => (MethodDraft.encodeLine_eq_ok hpart).2.symm
  rw [List.length_map] at few h
  refine readLines_eq small few (List.forall_mem_map.mpr fun line hline => ?_) h
  obtain ⟨part, -, hpart⟩ := exists_right hencoded hline
  obtain ⟨n, hn⟩ := (MethodDraft.encodeLine_eq_ok hpart).1
  exact hoffsets line.2 n hn

end Tables

/-- The parts of a code attribute stand in a file. -/
structure CodeStands (file : ClassFile) (start : Nat) (maxStack maxLocals : UInt16)
    (array : List UInt8) (parts : List (List UInt8)) (tables : List UInt8) : Prop where
  maxStack : file.bytes.u16 start = .ok maxStack
  maxLocals : file.bytes.u16 (start + 2) = .ok maxLocals
  length : file.bytes.Holds (start + 4) (ofNat 4 array.length)
  code : file.bytes.Holds (start + 8) array
  count : file.bytes.Holds (start + 8 + array.length) (ofNat 2 parts.length)
  handlers : file.bytes.Holds (start + 8 + array.length + 2) parts.flatten
  attributes : file.bytes.Holds (start + 8 + array.length + 2 + 8 * parts.length) tables

section CodeStands

variable {file : ClassFile} {start : Nat} {maxStack maxLocals : UInt16} {array : List UInt8}
  {parts : List (List UInt8)} {tables : List UInt8}

theorem codeStands
    (h : file.bytes.Holds start (u16 maxStack ++ u16 maxLocals ++ encodeBlock array ++
      (ofNat 2 parts.length ++ parts.flatten) ++ tables))
    (width : ∀ part ∈ parts, part.length = 8) :
    CodeStands file start maxStack maxLocals array parts tables := by
  have hflatten := length_flatten_of_width width
  rw [encodeBlock] at h
  constructor
  case maxStack => exact h.left.left.left.left.u16
  case maxLocals => exact h.left.left.left.right.u16
  case length => exact h.left.left.right.left
  case code =>
    apply h.left.left.right.right.of_index
    simp [u16, length_ofNat]
  case count =>
    apply h.left.right.left.of_index
    simp only [List.length_append, u16, length_ofNat]
    omega
  case handlers =>
    apply h.left.right.right.of_index
    simp only [List.length_append, u16, length_ofNat]
    omega
  case attributes =>
    apply h.right.of_index
    simp only [List.length_append, u16, length_ofNat, hflatten]
    omega

/-- The code attribute is read if each of its parts is. -/
theorem CodeStands.readBody_eq {range : AttributeRange}
    (stands : CodeStands file range.start maxStack maxLocals array parts tables)
    (small : array.length ≤ countLimit) (room : 8 + array.length ≤ range.length)
    (count : parts.length < 65536) {items : List (Nat × Decoded)} {ranges : List HandlerRange}
    {lines : List (Nat × UInt16)}
    (hitems : (file.window range array.length).decodeAll = .ok items)
    (hranges : readEach (file.readHandler (file.window range array.length)) 8
      (range.start + 8 + array.length + 2) parts.length = .ok ranges)
    (hlines : file.ReadsLines (file.window range array.length)
      (range.start + 8 + array.length + 2 + 8 * parts.length) lines)
    (placeable : let body : BodyRecord := ⟨maxStack, maxLocals, array.length, items, ranges, lines⟩
      ∀ offset ∈ body.mentioned, offset ∈ body.starts) :
    file.readBody range = .ok ⟨maxStack, maxLocals, array.length, items, ranges, lines⟩ := by
  have hbound : array.length < 2 ^ 32 := by
    simp only [countLimit] at small
    omega
  have hcount : (UInt16.ofNat parts.length).toNat = parts.length :=
    UInt16.toNat_ofNat_of_lt' count
  apply ClassFile.readBody_eq_ok_iff.mpr
  constructor
  case maxStack => exact stands.maxStack
  case maxLocals => exact stands.maxLocals
  case length => exact ⟨_, stands.length.u32_ofNat hbound, UInt32.toNat_ofNat_of_lt' hbound⟩
  case small => exact small
  case room => exact room
  case instructions => exact hitems
  case tables =>
    refine ⟨UInt16.ofNat parts.length, stands.count.u16_ofNat count, ?_, ?_⟩
    · rw [hcount]
      exact hranges
    · rw [hcount]
      exact hlines
  case placeable => exact placeable

end CodeStands

/-- What is read from the code attribute of a method, given what is read through its window. -/
def MethodDraft.bodyRecord (method : MethodDraft) (listing : Listing LabelToken)
    (cells : List Cell) (items : List (Nat × Decoded)) (ranges : List HandlerRange) : BodyRecord :=
  ⟨method.maxStack, method.maxLocals, (blankCells cells).length, items, ranges,
    (listing.instructions.filterMap Instruction.line?).map fun line =>
      (method.offsetD line.1, line.2)⟩

namespace MethodDraft.Has

variable {file : ClassFile} {method : MethodDraft} {listing : Listing LabelToken}

/-- Everything that the code refers to has a place. -/
theorem placed_of_finished (has : method.Has table bootstraps listing cells)
    (filled : method.Filled cells) {handlers attributes : List UInt8}
    (tables : method.CodeTables table handlers attributes) {token : LabelToken}
    (h : token ∈ listing.referenced) : ∃ n, method.labels[token]? = some n := by
  obtain h | h := List.mem_append.mp h
  · obtain ⟨i, hi, htoken⟩ := List.mem_flatMap.mp h
    cases hpseudo : i.isPseudo with
    | false =>
        obtain ⟨cell, hcell, wide, hbranch⟩ := has.laid.mentions hi hpseudo htoken
        exact filled.placed cell hcell wide token hbranch
    | true =>
        cases i with
        | label other =>
            obtain rfl := List.mem_singleton.mp htoken
            exact (has.once hi).1
        | line number other =>
            obtain rfl := List.mem_singleton.mp htoken
            have hline : (number, token) ∈ method.lines.toList := by
              rw [has.lines]
              exact List.mem_map.mpr ⟨_, List.mem_filterMap.mpr ⟨_, hi, rfl⟩, rfl⟩
            obtain ⟨_, hlines, -⟩ := tables.attributes
            obtain ⟨hnil, -⟩ | ⟨lines, a, hparts, -⟩ := hlines
            · rw [hnil] at hline
              cases hline
            · obtain ⟨part, -, hpart⟩ := exists_right (mapM_eq_ok_iff.mp hparts) hline
              exact (encodeLine_eq_ok hpart).1
        | _ => cases hpseudo
  · obtain ⟨block, hblock, htoken⟩ := List.mem_flatMap.mp h
    obtain ⟨entry, hentry, settles⟩ := exists_right has.handlers hblock
    obtain ⟨parts, hparts, -⟩ := tables.handlers
    obtain ⟨part, -, hpart⟩ := exists_right (mapM_eq_ok_iff.mp hparts) hentry
    have hlabels := (encodeHandler_eq_ok hpart).1
    rw [settles.start, settles.stop, settles.handler] at hlabels
    exact hlabels token htoken

theorem placed (has : method.Has table bootstraps listing cells) {code : Array UInt8}
    (hcode : method.patchedCode = .ok code) {a : EncodedAttribute}
    (ha : method.IsCode code.toList table a) : listing.Placed := by
  obtain ⟨-, filled, -⟩ := patchedCode_eq_ok has.toMadeOf hcode
  obtain ⟨-, handlers, attributes, tables, -⟩ := ha
  intro token htoken
  obtain ⟨n, hn⟩ := has.placed_of_finished filled tables htoken
  exact (has.once (has.labels hn)).2

/-- Labels stand within the code or right behind it. -/
theorem offsetD_le (has : method.Has table bootstraps listing cells) {token : LabelToken} {n : Nat}
    (h : method.labels[token]? = some n) : method.offsetD token ≤ (blankCells cells).length := by
  have hle := has.laid.offset_le (has.labels h)
  rwa [Nat.zero_add] at hle

/-- The lines are read back from wherever the attributes of the code are held. -/
theorem readsLines (has : method.Has table bootstraps listing cells) {window : Window}
    (hlength : window.length = (blankCells cells).length) (small : window.length ≤ countLimit)
    {attributes : List EncodedAttribute}
    (hattributes : method.LineAttributes file.constants attributes)
    {part : List UInt8} {index : Nat}
    (hpart : encodeTable (fun a => .ok (EncodedAttribute.encode a)) attributes = .ok part)
    (h : file.bytes.Holds index part) :
    file.ReadsLines window index ((listing.instructions.filterMap Instruction.line?).map
      fun line => (method.offsetD line.1, line.2)) := by
  have hoffsets (token : LabelToken) (n : Nat) (hlabel : method.labels[token]? = some n) :
      method.offsetD token ≤ window.length := (has.offsetD_le hlabel).trans_eq hlength.symm
  have hsmall := @hattributes.contents_le
  obtain ⟨hnil, rfl⟩ | ⟨lines, a, hlines, hcontents, hname, rfl⟩ := hattributes
  · obtain ⟨ranges, hranges, hcovers⟩ :=
      @ClassFile.readAttributes_eq file _ _ _ (by simp) hpart h
    cases hcovers
    refine ⟨[], _, [], hranges, rfl, ?_⟩
    have hlines := has.lines
    rw [hnil, eq_comm, List.map_eq_nil_iff] at hlines
    rw [hlines]
    rfl
  · have hcontentsSmall := hsmall (List.mem_singleton_self a)
    have readable : a.Readable file.constants := ⟨⟨_, hname⟩, by omega⟩
    obtain ⟨ranges, hranges, hcovers⟩ :=
      ClassFile.readAttributes_eq (by simpa using readable) hpart h
    cases hcovers with
    | @cons _ range _ _ covers hrest =>
        cases hrest
        have hrange : range.name = "LineNumberTable" :=
          (Except.ok.inj (covers.name.symm.trans hname))
        have hread := readMethodLines_eq small hlines hcontents hoffsets covers.holds
        refine ⟨[range], _, [method.lines.toList.map fun line => (method.offsetD line.2, line.1)],
          hranges, ?_, ?_⟩
        · rw [List.filter_cons_of_pos (by simpa using hrange), List.filter_nil, List.mapM_cons,
            hread]
          rfl
        · rw [has.lines, List.map_map, List.flatten_singleton]
          rfl

/-- What is read shows the outline of the listing. -/
theorem shows (has : method.Has file.constants bootstraps listing cells)
    (hplaced : ∀ token ∈ listing.referenced, ∃ n, method.labels[token]? = some n)
    (small : (blankCells cells).length ≤ countLimit) {items : List (Nat × Decoded)}
    (decodes : Decodes file.constants bootstraps method.offsetD 0 (blankCells cells).length
      listing.instructions items) {ranges : List HandlerRange}
    (shown : List.Forall₂ (HandlerRange.Shows file.constants)
      (listing.blocks.map (·.map method.offsetD)) ranges) :
    (method.bodyRecord listing cells items ranges).Shows file.constants bootstraps
      listing.outline.normal := by
  have hposition : ∀ token ∈ listing.referenced,
      (method.bodyRecord listing cells items ranges).startAt
        (Listing.position listing.instructions token) = method.offsetD token := by
    intro token htoken
    obtain ⟨n, hn⟩ := hplaced token htoken
    have hstarts : (method.bodyRecord listing cells items ranges).starts =
        items.map (·.1) ++ [(blankCells cells).length] := rfl
    rw [BodyRecord.startAt, hstarts, decodes.placed (has.labels hn), Option.getD_some]
  refine ⟨decodes.sorted, small, ?_⟩
  rw [Listing.outline_normal_map hposition]
  refine ⟨?_, shown, rfl, has.maxStack, has.maxLocals⟩
  rw [List.forall₂_map_left_iff]
  exact decodes.tells

/-- The code attribute is read back as a record that shows the outline of the listing, with its
instructions spelled in its code. -/
theorem readBody_eq (has : method.Has file.constants bootstraps listing cells) {code : Array UInt8}
    (hcode : method.patchedCode = .ok code) {a : EncodedAttribute}
    (ha : method.IsCode code.toList file.constants a) {range : AttributeRange}
    (covers : a.At file range) :
    ∃ body, file.readBody range = .ok body ∧
      body.Shows file.constants bootstraps listing.outline.normal ∧
      List.Forall₂ ((file.window range body.length).Spelled bootstraps)
        (listing.instructions.filter (!·.isPseudo)) body.instructions := by
  obtain ⟨-, handlers, attributes, tables, hcontents⟩ := ha
  obtain ⟨small, filled, hfill⟩ := patchedCode_eq_ok has.toMadeOf hcode
  have hplaced : ∀ token ∈ listing.referenced, ∃ n, method.labels[token]? = some n :=
    fun token h => has.placed_of_finished filled tables h
  obtain ⟨parts, hparts, hhandlers⟩ := tables.handlers
  obtain ⟨lineParts, hlineParts, hattributes⟩ := tables.attributes
  obtain ⟨hcount, rfl⟩ := encodeTable_ok_eq_ok hhandlers
  have hlength := length_fillCells method.offsetD cells
  have stands : CodeStands file range.start method.maxStack method.maxLocals
      (fillCells method.offsetD cells) parts attributes := by
    apply codeStands
    · have hholds := covers.holds
      rwa [hcontents, hfill, codeBytes] at hholds
    · intro part hpart
      obtain ⟨handler, -, hhandler⟩ := exists_left (mapM_eq_ok_iff.mp hparts) hpart
      obtain ⟨-, rfl⟩ := encodeHandler_eq_ok hhandler
      simp [u16]
  have hoffsets : ∀ token n, method.labels[token]? = some n →
      method.offsetD token ≤ (blankCells cells).length := fun _ _ h => has.offsetD_le h
  -- the three parts of the attribute that are read through a window
  have hlaid : Laid (file.window range (blankCells cells).length).constants bootstraps
      method.offsetD 0 listing.instructions cells := has.laid
  obtain ⟨items, hdecode, hdecodes, hspelled⟩ := hlaid.decodeFrom small (Nat.zero_add _)
    (fun i hi _ token htoken => by
      obtain ⟨n, hn⟩ := hplaced token
        (List.mem_append_left _ (List.mem_flatMap.mpr ⟨i, hi, htoken⟩))
      exact hoffsets token n hn) filled.fits stands.code []
  obtain ⟨ranges, hranges, hshown⟩ := @readHandlers_eq file
    (file.window range (blankCells cells).length) _ _ small _ _ _ has.handlers hparts hoffsets
    stands.handlers
  have hlines : file.ReadsLines (file.window range (blankCells cells).length) _ _ :=
    has.readsLines rfl small hlineParts hattributes stands.attributes
  have hshows := has.shows hplaced small hdecodes hshown
  have hroom : 8 + (blankCells cells).length ≤ range.length := by
    have hcovered := covers.length
    rw [hcontents, hfill] at hcovered
    simp only [codeBytes, encodeBlock, u16, List.length_append, length_ofNat] at hcovered
    omega
  have hread := @stands.readBody_eq
  rw [hlength] at hread hranges hlines
  exact ⟨_, hread small hroom hcount hdecode hranges hlines
    (hshows.placeable listing.proper_outline.normal), hshows, hspelled⟩

end MethodDraft.Has

end JavaClass
