import JavaClass.Proofs.Assembly.Spelling

/-!
# Spellings of instructions

One instruction can be written in several ways: with a short form, a slot of one
byte or the `wide` modifier, with an index of one or of two bytes, and with any
bytes where nothing is looked at. Whichever way is chosen for each instruction,
the choice settles where the others stand, and decoding gives back the
instructions.

## Implementation notes

Positions are the labels of the instructions: a branch names the position of its
target, and its offset comes from the layout. Constants are named by their slots,
so what a spelling stands for depends on a table of constants.
-/

namespace JavaClass

open BigEndian Bytecode

/-- A way to write an instruction. The bytes that align the operands of a switch are free. -/
inductive Spelling where
  /-- An operation code with operands that are no branches. -/
  | plain (opcode : Opcode) (operands : List UInt8)
  | jump (opcode : Opcode) (target : Nat)
  | wideJump (opcode : Opcode) (target : Nat)
  | tableSwitch (filler : Vector UInt8 3) (low high : Int32) (otherwise : Nat) (targets : List Nat)
  | lookupSwitch (filler : Vector UInt8 3) (otherwise : Nat) (pairs : List (Int32 × Nat))
  deriving DecidableEq, Repr

namespace Spelling

/-- The bytes in front of the operands of a switch. -/
def alignment (filler : Vector UInt8 3) (pc : Nat) : List UInt8 :=
  filler.toList.take (Window.padding pc)

theorem length_alignment (filler : Vector UInt8 3) (pc : Nat) :
    (alignment filler pc).length = Window.padding pc := by
  rw [alignment, List.length_take, Vector.length_toList, Window.padding]
  omega

/-- How many bytes an instruction at `pc` takes. -/
def width (pc : Nat) : Spelling → Nat
  | plain _ operands => 1 + operands.length
  | jump _ _ => 3
  | wideJump _ _ => 5
  | tableSwitch _ _ _ _ targets => 1 + (Window.padding pc + 12 + 4 * targets.length)
  | lookupSwitch _ _ pairs => 1 + (Window.padding pc + 8 + 8 * pairs.length)

theorem width_pos (pc : Nat) (spelling : Spelling) : 0 < spelling.width pc := by
  cases spelling <;> simp only [width] <;> omega

/-- The bytes of an instruction at `pc`, given the offset of each position. -/
def bytes (offset : Nat → Nat) (pc : Nat) : Spelling → List UInt8
  | plain opcode operands => opcode.byte :: operands
  | jump opcode target => opcode.byte :: i16 (Int16.ofInt (offset target - pc))
  | wideJump opcode target => opcode.byte :: Window.wideBranch pc (offset target)
  | tableSwitch filler low high otherwise targets =>
      Opcode.tableSwitch.byte :: (alignment filler pc ++ (Window.wideBranch pc (offset otherwise) ++
        ((i32 low ++ i32 high) ++ ((targets.map offset).map (Window.wideBranch pc)).flatten)))
  | lookupSwitch filler otherwise pairs =>
      Opcode.lookupSwitch.byte :: (alignment filler pc ++
        (Window.wideBranch pc (offset otherwise) ++ (ofNat 4 pairs.length ++
          ((pairs.map fun pair => (pair.1, offset pair.2)).map (Window.pairBytes pc)).flatten)))

theorem length_bytes (offset : Nat → Nat) (pc : Nat) (spelling : Spelling) :
    (spelling.bytes offset pc).length = spelling.width pc := by
  cases spelling with
  | plain opcode operands => simp only [bytes, width, List.length_cons]; omega
  | jump opcode target => simp [bytes, width, i16, u16]
  | wideJump opcode target => simp [bytes, width, Window.length_wideBranch]
  | tableSwitch filler low high otherwise targets =>
      simp only [bytes, width, List.length_cons, List.length_append, length_alignment,
        Window.length_wideBranch, Window.length_wideBranches, List.length_map, i32, u32,
        length_ofNat]
      omega
  | lookupSwitch filler otherwise pairs =>
      simp only [bytes, width, List.length_cons, List.length_append, length_alignment,
        Window.length_wideBranch, Window.length_pairs, List.length_map, length_ofNat]
      omega

/-- A branch of two bytes reaches its target. -/
def Reaches (offset : Nat → Nat) (pc : Nat) : Spelling → Prop
  | jump _ target => -32768 ≤ (offset target : Int) - pc ∧ (offset target : Int) - pc ≤ 32767
  | _ => True

instance (offset : Nat → Nat) (pc : Nat) (spelling : Spelling) :
    Decidable (spelling.Reaches offset pc) := by
  cases spelling <;> unfold Reaches <;> infer_instance

end Spelling

/-- The spellings of an instruction, constants being found in a table. -/
inductive Instruction.SpelledAs (table : ConstantTable) (bootstraps : Array Bootstrap) :
    Instruction Nat → Spelling → Prop where
  | simple {opcode} (shape : opcode.shape = .bare) :
      SpelledAs table bootstraps (.simple opcode) (.plain opcode [])
  | pushByte {opcode} (shape : opcode.shape = .pushByte) (operand : Int8) :
      SpelledAs table bootstraps (.int opcode operand.toInt32) (.plain opcode (i8 operand))
  | pushShort {opcode} (shape : opcode.shape = .pushShort) (operand : Int16) :
      SpelledAs table bootstraps (.int opcode operand.toInt32) (.plain opcode (i16 operand))
  | newArray {opcode} (shape : opcode.shape = .arrayType) (element : UInt8) :
      SpelledAs table bootstraps (.int opcode (Int32.ofNat element.toNat)) (.plain opcode [element])
  /-- A load with its slot in the code. -/
  | shortLoad {opcode} (shape : opcode.shape = .shortLoad) :
      SpelledAs table bootstraps (.localVar opcode.ofShortLoad.1 opcode.ofShortLoad.2)
        (.plain opcode [])
  /-- A store with its slot in the code. -/
  | shortStore {opcode} (shape : opcode.shape = .shortStore) :
      SpelledAs table bootstraps (.localVar opcode.ofShortStore.1 opcode.ofShortStore.2)
        (.plain opcode [])
  | localVar {opcode} (shape : opcode.shape = .localVar) (slot : UInt8) :
      SpelledAs table bootstraps (.localVar opcode slot.toUInt16) (.plain opcode [slot])
  | widened {opcode} (shape : opcode.shape = .localVar) (slot : UInt16) :
      SpelledAs table bootstraps (.localVar opcode slot) (.plain .wide (opcode.byte :: u16 slot))
  | increment (slot : UInt8) (delta : Int8) :
      SpelledAs table bootstraps (.increment slot.toUInt16 delta.toInt16)
        (.plain .iinc (slot :: i8 delta))
  | widenedIncrement (slot : UInt16) (delta : Int16) :
      SpelledAs table bootstraps (.increment slot delta)
        (.plain .wide (Opcode.iinc.byte :: (u16 slot ++ i16 delta)))
  | load {slot : UInt8} {literal} (found : table.literal slot.toUInt16 = .ok literal)
      (narrow : literal.isWide = false) :
      SpelledAs table bootstraps (.load literal) (.plain .ldc [slot])
  | wideLoad {slot} {literal} (found : table.literal slot = .ok literal)
      (narrow : literal.isWide = false) :
      SpelledAs table bootstraps (.load literal) (.plain .ldcWide (u16 slot))
  | longLoad {slot} {literal} (found : table.literal slot = .ok literal)
      (wide : literal.isWide = true) :
      SpelledAs table bootstraps (.load literal) (.plain .ldcLong (u16 slot))
  | field {opcode slot member} (shape : opcode.shape = .field)
      (found : table.member slot = .ok member) :
      SpelledAs table bootstraps (.field opcode member.owner member.name member.descriptor)
        (.plain opcode (u16 slot))
  | method {opcode slot member} (shape : opcode.shape = .method) (plain : opcode ≠ .invokeInterface)
      (found : table.member slot = .ok member) :
      SpelledAs table bootstraps
        (.method opcode member.owner member.name member.descriptor member.isInterface)
        (.plain opcode (u16 slot))
  /-- A call through an interface with any count and any byte behind it. -/
  | interfaceMethod {slot member} (found : table.member slot = .ok member) (count last : UInt8) :
      SpelledAs table bootstraps
        (.method .invokeInterface member.owner member.name member.descriptor member.isInterface)
        (.plain .invokeInterface (u16 slot ++ [count, last]))
  /-- A call of a bootstrap method with any two bytes behind it. -/
  | invokeDynamic {slot site bootstrap handle arguments}
      (found : table.callSite slot = .ok site)
      (entry : bootstraps[site.bootstrap.toNat]? = some bootstrap)
      (method : table.methodHandle bootstrap.method = .ok handle)
      (literals : bootstrap.arguments.mapM table.literal = .ok arguments) (first last : UInt8) :
      SpelledAs table bootstraps (.invokeDynamic site.name site.descriptor handle arguments)
        (.plain .invokeDynamic (u16 slot ++ [first, last]))
  | type {opcode slot name} (shape : opcode.shape = .type)
      (found : table.className slot = .ok name) :
      SpelledAs table bootstraps (.type opcode name) (.plain opcode (u16 slot))
  | multiNewArray {slot name} (found : table.className slot = .ok name) (dimensions : UInt8) :
      SpelledAs table bootstraps (.multiNewArray name dimensions)
        (.plain .multiNewArray (u16 slot ++ [dimensions]))
  | jump {opcode} (shape : opcode.shape = .jump) (target : Nat) :
      SpelledAs table bootstraps (.jump opcode target) (.jump opcode target)
  | wideJump {opcode} (shape : opcode.shape = .wideJump) (target : Nat) :
      SpelledAs table bootstraps (.jump opcode target) (.wideJump opcode target)
  | tableSwitch (filler : Vector UInt8 3) {low high : Int32} (otherwise : Nat) {targets : List Nat}
      (ordered : ¬ high < low) (count : high.toInt - low.toInt + 1 = targets.length) :
      SpelledAs table bootstraps (.tableSwitch low high otherwise targets)
        (.tableSwitch filler low high otherwise targets)
  | lookupSwitch (filler : Vector UInt8 3) (otherwise : Nat) (pairs : List (Int32 × Nat)) :
      SpelledAs table bootstraps (.lookupSwitch otherwise (pairs.map (·.1)) (pairs.map (·.2)))
        (.lookupSwitch filler otherwise pairs)

namespace Instruction.SpelledAs

variable {table : ConstantTable} {bootstraps : Array Bootstrap} {i : Instruction Nat}
  {spelling : Spelling}

theorem isPseudo_eq (h : i.SpelledAs table bootstraps spelling) : i.isPseudo = false := by
  cases h <;> rfl

variable {window : Window} {offset : Nat → Nat} {pc : Nat}

/-- Operands that are no branches are decoded. -/
theorem exists_decode_plain {opcode : Opcode} {operands : List UInt8}
    (h : i.SpelledAs window.constants bootstraps (.plain opcode operands))
    (shows : window.Shows pc (opcode.byte :: operands)) :
    ∃ decoded, window.decode pc = .ok (decoded, operands.length) ∧
      decoded.Tells window.constants bootstraps (i.map offset) := by
  cases h with
  | simple shape =>
      exact ⟨_, Window.decode_bare shows shape, .complete _⟩
  | pushByte shape operand =>
      exact ⟨_, Window.decode_pushByte shows shape, .complete _⟩
  | pushShort shape operand =>
      exact ⟨_, Window.decode_pushShort shows shape, .complete _⟩
  | newArray shape element =>
      exact ⟨_, Window.decode_arrayType shows shape, .complete _⟩
  | shortLoad shape =>
      exact ⟨_, Window.decode_shortLoad shows shape, .complete _⟩
  | shortStore shape =>
      exact ⟨_, Window.decode_shortStore shows shape, .complete _⟩
  | localVar shape slot =>
      exact ⟨_, Window.decode_localVar shows shape, .complete _⟩
  | widened shape slot =>
      exact ⟨_, Window.decode_widenedLocalVar shape shows, .complete _⟩
  | increment slot delta =>
      exact ⟨_, Window.decode_increment shows rfl, .complete _⟩
  | widenedIncrement slot delta =>
      exact ⟨_, Window.decode_widenedIncrement shows, .complete _⟩
  | load found narrow =>
      exact ⟨_, Window.decode_constant shows rfl, .load found⟩
  | wideLoad found narrow =>
      exact ⟨_, Window.decode_wideConstant shows rfl, .load found⟩
  | longLoad found wide =>
      exact ⟨_, Window.decode_wideConstant shows rfl, .load found⟩
  | field shape found =>
      exact ⟨_, Window.decode_field shows shape found, .complete _⟩
  | method shape plain found =>
      have hdecode := Window.decode_method shows shape found
      rw [if_neg plain] at hdecode
      exact ⟨_, hdecode, .complete _⟩
  | @interfaceMethod slot _ found count last =>
      have hcall : window.Shows pc ((Opcode.invokeInterface.byte :: u16 slot) ++ [count, last]) :=
        shows
      exact ⟨_, Window.decode_method hcall.left rfl found, .complete _⟩
  | @invokeDynamic slot _ _ _ _ found entry method literals first last =>
      have hcall : window.Shows pc ((Opcode.invokeDynamic.byte :: u16 slot) ++ [first, last]) :=
        shows
      exact ⟨_, Window.decode_callSite hcall.left rfl found, .call entry method literals⟩
  | type shape found =>
      exact ⟨_, Window.decode_type shows shape found, .complete _⟩
  | multiNewArray found dimensions =>
      exact ⟨_, Window.decode_multiArray shows rfl found, .complete _⟩

/-- Wherever a spelling stands, with all of its targets in the code, the instruction is decoded. -/
theorem exists_decode (h : i.SpelledAs window.constants bootstraps spelling)
    (small : window.length ≤ countLimit) (room : pc + spelling.width pc ≤ window.length)
    (targets : ∀ position ∈ i.targets, offset position ≤ window.length)
    (reaches : spelling.Reaches offset pc) (shows : window.Shows pc (spelling.bytes offset pc)) :
    ∃ decoded, window.decode pc = .ok (decoded, spelling.width pc - 1) ∧
      decoded.Tells window.constants bootstraps (i.map offset) := by
  have hpc : pc ≤ window.length := by omega
  cases spelling with
  | plain opcode operands =>
      have hwidth : (Spelling.plain opcode operands).width pc - 1 = operands.length :=
        Nat.add_sub_cancel_left 1 _
      rw [hwidth]
      exact h.exists_decode_plain shows
  | jump opcode target =>
      cases h with
      | jump shape target =>
          have htarget := targets target (List.mem_singleton_self _)
          exact ⟨_, Window.decode_jump shape htarget reaches shows, .complete _⟩
  | wideJump opcode target =>
      cases h with
      | wideJump shape target =>
          have htarget := targets target (List.mem_singleton_self _)
          exact ⟨_, Window.decode_wideJump small hpc shape htarget shows, .complete _⟩
  | tableSwitch filler low high otherwise cases' =>
      cases h with
      | tableSwitch filler otherwise ordered count =>
          have hotherwise := targets otherwise List.mem_cons_self
          have hcases : ∀ n ∈ cases'.map offset, n ≤ window.length :=
            List.forall_mem_map.mpr fun position hposition =>
              targets position (List.mem_cons_of_mem _ hposition)
          have hdecode := Window.decode_tableSwitch small hpc (Spelling.length_alignment filler pc)
            ordered (by rw [count, List.length_map]) hotherwise hcases shows
          rw [List.length_map] at hdecode
          rw [Spelling.width, Nat.add_sub_cancel_left]
          exact ⟨_, hdecode, .complete _⟩
  | lookupSwitch filler otherwise pairs =>
      cases h with
      | lookupSwitch filler otherwise pairs =>
          have hotherwise := targets otherwise List.mem_cons_self
          have hpairs : ∀ pair ∈ pairs.map (fun pair => (pair.1, offset pair.2)),
              pair.2 ≤ window.length :=
            List.forall_mem_map.mpr fun pair hpair =>
              targets pair.2 (List.mem_cons_of_mem _ (List.mem_map_of_mem hpair))
          have hcount : pairs.length < 2 ^ 31 := by
            simp only [Spelling.width, countLimit] at room small
            omega
          rw [Spelling.bytes, ← List.length_map fun pair => (pair.1, offset pair.2)] at shows
          have hdecode := Window.decode_lookupSwitch small hpc (Spelling.length_alignment filler pc)
            (by rwa [List.length_map]) hotherwise hpairs shows
          rw [List.length_map, ← Instruction.map_lookupSwitch] at hdecode
          rw [Spelling.width, Nat.add_sub_cancel_left]
          exact ⟨_, hdecode, .complete _⟩

end Instruction.SpelledAs

namespace Spelling

/-- The offsets of instructions, the first of which stands at `pc`, and the end of the last. -/
def startsFrom : (pc : Nat) → List Spelling → List Nat
  | pc, [] => [pc]
  | pc, spelling :: rest => pc :: startsFrom (pc + spelling.width pc) rest

/-- The offset of a position. -/
def offsetIn (code : List Spelling) (position : Nat) : Nat :=
  (startsFrom 0 code)[position]?.getD 0

/-- The end of instructions, the first of which stands at `pc`. -/
def stopFrom : (pc : Nat) → List Spelling → Nat
  | pc, [] => pc
  | pc, spelling :: rest => stopFrom (pc + spelling.width pc) rest

/-- The bytes of instructions, the first of which stands at `pc`. -/
def bytesFrom (offset : Nat → Nat) : (pc : Nat) → List Spelling → List UInt8
  | _, [] => []
  | pc, spelling :: rest =>
      spelling.bytes offset pc ++ bytesFrom offset (pc + spelling.width pc) rest

/-- All branches of two bytes reach their targets. -/
def ReachFrom (offset : Nat → Nat) : (pc : Nat) → List Spelling → Prop
  | _, [] => True
  | pc, spelling :: rest =>
      spelling.Reaches offset pc ∧ ReachFrom offset (pc + spelling.width pc) rest

variable {code : List Spelling} {offset : Nat → Nat} {pc : Nat}

theorem le_stopFrom (pc : Nat) (code : List Spelling) : pc ≤ stopFrom pc code := by
  induction code generalizing pc with
  | nil => exact Nat.le_refl pc
  | cons spelling rest ih => exact (Nat.le_add_right pc _).trans (ih _)

theorem add_length_bytesFrom (offset : Nat → Nat) (pc : Nat) (code : List Spelling) :
    pc + (bytesFrom offset pc code).length = stopFrom pc code := by
  induction code generalizing pc with
  | nil => rfl
  | cons spelling rest ih =>
      rw [bytesFrom, stopFrom, List.length_append, length_bytes, ← Nat.add_assoc, ih]

theorem bounds_of_mem_startsFrom {start : Nat} (h : start ∈ startsFrom pc code) :
    pc ≤ start ∧ start ≤ stopFrom pc code := by
  induction code generalizing pc with
  | nil =>
      obtain rfl := List.mem_singleton.mp h
      exact ⟨Nat.le_refl _, Nat.le_refl _⟩
  | cons spelling rest ih =>
      obtain rfl | h := List.mem_cons.mp h
      · exact ⟨Nat.le_refl _, le_stopFrom _ (spelling :: rest)⟩
      · obtain ⟨hfirst, hlast⟩ := ih h
        exact ⟨(Nat.le_add_right pc _).trans hfirst, hlast⟩

/-- Instructions stand one behind the other. -/
theorem sorted_startsFrom (pc : Nat) (code : List Spelling) :
    (startsFrom pc code).Pairwise (· < ·) := by
  induction code generalizing pc with
  | nil => exact List.pairwise_singleton _ _
  | cons spelling rest ih =>
      apply List.pairwise_cons.mpr
      refine ⟨fun start hstart => ?_, ih _⟩
      have hwidth := spelling.width_pos pc
      have hfirst := (bounds_of_mem_startsFrom hstart).1
      omega

theorem offsetIn_le (code : List Spelling) (position : Nat) :
    offsetIn code position ≤ stopFrom 0 code := by
  unfold offsetIn
  cases hstart : (startsFrom 0 code)[position]? with
  | none => exact Nat.zero_le _
  | some start => exact (bounds_of_mem_startsFrom (List.mem_of_getElem? hstart)).2

/-- Code is decoded up to its end, whichever spellings were chosen. -/
theorem exists_decodeFrom {window : Window} {bootstraps : Array Bootstrap}
    {is : List (Instruction Nat)}
    (spelled : List.Forall₂ (Instruction.SpelledAs window.constants bootstraps) is code)
    (small : window.length ≤ countLimit) (stop : stopFrom pc code = window.length)
    (targets : ∀ position, offset position ≤ window.length) (reach : ReachFrom offset pc code)
    (shows : window.Shows pc (bytesFrom offset pc code)) (done : List (Nat × Decoded)) :
    ∃ items, window.decodeFrom pc done = .ok (done.reverse ++ items) ∧
      List.Forall₂ (fun i item => item.2.Tells window.constants bootstraps i)
        (is.map (·.map offset)) items ∧
      items.map (·.1) ++ [window.length] = startsFrom pc code := by
  induction spelled generalizing pc done with
  | nil =>
      obtain rfl : pc = window.length := stop
      refine ⟨[], ?_, .nil, rfl⟩
      rw [Window.decodeFrom, if_neg (Nat.lt_irrefl _), if_pos rfl, List.append_nil]
  | @cons i spelling is code first _ ih =>
      have hroom := le_stopFrom (pc + spelling.width pc) code
      have hwidth := spelling.width_pos pc
      rw [stopFrom] at stop
      obtain ⟨decoded, hdecoded, tells⟩ := first.exists_decode small (by omega)
        (fun position _ => targets position) reach.1 shows.left
      have hrest := shows.right
      rw [length_bytes] at hrest
      obtain ⟨items, hitems, htells, hstarts⟩ := ih stop reach.2 hrest ((pc, decoded) :: done)
      refine ⟨(pc, decoded) :: items, ?_, .cons tells htells, ?_⟩
      · have hnext : pc + 1 + (spelling.width pc - 1) = pc + spelling.width pc := by omega
        rw [Window.decodeFrom, if_pos (by omega), hdecoded]
        simp only [hnext]
        rw [hitems, List.reverse_cons, List.append_assoc, List.singleton_append]
      · rw [List.map_cons, List.cons_append, hstarts, startsFrom]

end Spelling

end JavaClass
