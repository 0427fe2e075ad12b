import JavaClass.Proofs.Assembly.Spelling

/-!
# Every instruction is read back

One lemma for each shape of instruction says that the class draft spells it in
cells that are decoded as the same instruction.
-/

namespace JavaClass

open BigEndian ConstantPool Bytecode

theorem toInt32_toInt8 {n : Int32} (low : -128 ≤ n) (high : n ≤ 127) : n.toInt8.toInt32 = n := by
  rw [Int32.le_iff_toInt_le] at low high
  change -128 ≤ n.toInt at low
  change n.toInt ≤ 127 at high
  apply Int32.toInt.inj
  rw [Int8.toInt_toInt32, Int32.toInt_toInt8]
  exact Int.bmod_eq_of_le (by omega) (by omega)

theorem toInt32_toInt16 {n : Int32} (low : -32768 ≤ n) (high : n ≤ 32767) :
    n.toInt16.toInt32 = n := by
  rw [Int32.le_iff_toInt_le] at low high
  change -32768 ≤ n.toInt at low
  change n.toInt ≤ 32767 at high
  apply Int32.toInt.inj
  rw [Int16.toInt_toInt32, Int32.toInt_toInt16]
  exact Int.bmod_eq_of_le (by omega) (by omega)

theorem toInt16_toInt8 {n : Int16} (low : -128 ≤ n) (high : n ≤ 127) : n.toInt8.toInt16 = n := by
  rw [Int16.le_iff_toInt_le] at low high
  change -128 ≤ n.toInt at low
  change n.toInt ≤ 127 at high
  apply Int16.toInt.inj
  rw [Int8.toInt_toInt16, Int16.toInt_toInt8]
  exact Int.bmod_eq_of_le (by omega) (by omega)

theorem ofNat_toUInt8 {n : Int32} (low : 0 ≤ n) (high : n ≤ 255) :
    Int32.ofNat n.toUInt32.toUInt8.toNat = n := by
  rw [Int32.le_iff_toInt_le] at low high
  change 0 ≤ n.toInt at low
  change n.toInt ≤ 255 at high
  obtain ⟨m, rfl⟩ : ∃ m : UInt32, n = m.toInt32 := ⟨n.toUInt32, rfl⟩
  have hm := m.toNat_lt
  have hvalue : m.toInt32.toInt = m.toNat := by
    have hbmod : m.toInt32.toInt = (m.toNat : Int).bmod (2 ^ 32) :=
      BitVec.toInt_eq_toNat_bmod m.toBitVec
    rw [hbmod, Int.bmod] at low high ⊢
    split at low <;> omega
  apply Int32.toInt.inj
  rw [hvalue] at low high ⊢
  have hbyte : m.toUInt8.toNat = m.toNat := by
    rw [UInt32.toNat_toUInt8]
    omega
  change (Int32.ofNat m.toUInt8.toNat).toInt = m.toNat
  rw [hbyte, Int32.toInt_ofNat_of_lt (by omega)]

theorem toUInt16_toUInt8 {n : UInt16} (h : n < 256) : n.toUInt8.toUInt16 = n := by
  apply UInt16.toNat.inj
  have hlt : n.toNat < 256 := h
  rw [UInt8.toNat_toUInt16, UInt16.toNat_toUInt8]
  omega

namespace ClassDraft

variable {draft draft' : ClassDraft} {method : MethodDraft} (sound : draft.Sound)
  (hmethod : draft.method = some method)

include sound hmethod

theorem writes_simple {opcode : Opcode} (h : instruction (.simple opcode) draft = .ok () draft') :
    Writes draft draft' method (.simple opcode) := by
  simp only [instruction] at h
  by_cases hshape : opcode.shape = .bare
  · rw [if_pos hshape] at h
    refine writes_emit sound hmethod rfl rfl (Nat.le_refl _) nofun (fun window hshows => ?_) h
    exact ⟨_, Window.decode_bare hshows hshape, fun _ _ _ => .complete _⟩
  · rw [if_neg hshape] at h
    cases h

theorem writes_int {opcode : Opcode} {operand : Int32}
    (h : instruction (.int opcode operand) draft = .ok () draft') :
    Writes draft draft' method (.int opcode operand) := by
  simp only [instruction, int] at h
  by_cases hpush : opcode = .bipush ∧ -128 ≤ operand ∧ operand ≤ 127
  · rw [if_pos hpush] at h
    obtain ⟨rfl, hlow, hhigh⟩ := hpush
    refine writes_emit sound hmethod rfl rfl (Nat.le_refl _) nofun (fun window hshows => ?_) h
    refine ⟨_, Window.decode_pushByte hshows rfl, fun _ _ _ => ?_⟩
    rw [toInt32_toInt8 hlow hhigh]
    exact .complete _
  rw [if_neg hpush] at h
  by_cases hpush' : opcode = .sipush ∧ -32768 ≤ operand ∧ operand ≤ 32767
  · rw [if_pos hpush'] at h
    obtain ⟨rfl, hlow, hhigh⟩ := hpush'
    refine writes_emit sound hmethod rfl rfl (Nat.le_refl _) nofun (fun window hshows => ?_) h
    refine ⟨_, Window.decode_pushShort hshows rfl, fun _ _ _ => ?_⟩
    rw [toInt32_toInt16 hlow hhigh]
    exact .complete _
  rw [if_neg hpush'] at h
  by_cases harray : opcode = .newArray ∧ 0 ≤ operand ∧ operand ≤ 255
  · rw [if_pos harray] at h
    obtain ⟨rfl, hlow, hhigh⟩ := harray
    refine writes_emit sound hmethod rfl rfl (Nat.le_refl _) nofun (fun window hshows => ?_) h
    refine ⟨_, Window.decode_arrayType hshows rfl, fun _ _ _ => ?_⟩
    rw [ofNat_toUInt8 hlow hhigh]
    exact .complete _
  · rw [if_neg harray] at h
    cases h

omit sound hmethod in
/-- What is decoded from the short form of an access. -/
theorem decode_shortForm {window : Window} {pc : Nat} {opcode short : Opcode} {slot : UInt16}
    (hshort : opcode.shortForm? = some short) (hslot : slot < 4)
    (h : window.Shows pc [short.byte + slot.toUInt8]) :
    window.decode pc = .ok (.complete (.localVar opcode slot), 0) := by
  have hforms : ∀ n : Fin 256, ∀ k : Fin 4,
      ((Opcode.mk (UInt8.ofNat n.val)).shortForm?.all fun short =>
        let spelled : Opcode := ⟨short.byte + UInt8.ofNat k.val⟩
        (spelled.shape = .shortLoad ∧
          spelled.ofShortLoad = (⟨UInt8.ofNat n.val⟩, UInt16.ofNat k.val)) ∨
        (spelled.shape = .shortStore ∧
          spelled.ofShortStore = (⟨UInt8.ofNat n.val⟩, UInt16.ofNat k.val))) = true := by
    decide +kernel
  have hfour : slot.toNat < 4 := hslot
  have hform := hforms ⟨opcode.byte.toNat, opcode.byte.toNat_lt⟩ ⟨slot.toNat, hfour⟩
  have hbyte : UInt8.ofNat slot.toNat = slot.toUInt8 := rfl
  simp only [UInt8.ofNat_toNat, UInt16.ofNat_toNat, hbyte, hshort, Option.all_some,
    decide_eq_true_iff] at hform
  obtain ⟨hshape, haccess⟩ | ⟨hshape, haccess⟩ := hform
  · rw [Window.decode_shortLoad h hshape, haccess]
  · rw [Window.decode_shortStore h hshape, haccess]

theorem writes_localVar {opcode : Opcode} {slot : UInt16}
    (h : instruction (.localVar opcode slot) draft = .ok () draft') :
    Writes draft draft' method (.localVar opcode slot) := by
  simp only [instruction] at h
  by_cases hshape : opcode.shape = .localVar
  · rw [if_pos hshape] at h
    have hnarrow (hslot : slot < 256) (hfew : ¬ (slot < 4 ∧ opcode.shortForm?.isSome))
        (h : emit opcode [slot.toUInt8] draft = .ok () draft') :
        Writes draft draft' method (.localVar opcode slot) := by
      refine writes_emit sound hmethod rfl rfl ?_ nofun (fun window hshows => ?_) h
      · simp [Instruction.room, hfew, hslot]
      · refine ⟨_, Window.decode_localVar hshows hshape, fun _ _ _ => ?_⟩
        rw [toUInt16_toUInt8 hslot]
        exact .complete _
    have hwide (hslot : ¬ slot < 256) (hfew : ¬ (slot < 4 ∧ opcode.shortForm?.isSome))
        (h : emit .wide (opcode.byte :: u16 slot) draft = .ok () draft') :
        Writes draft draft' method (.localVar opcode slot) := by
      refine writes_emit sound hmethod rfl rfl ?_ nofun (fun window hshows => ?_) h
      · simp [Instruction.room, hfew, hslot, u16]
      · exact ⟨_, Window.decode_widenedLocalVar hshape hshows, fun _ _ _ => .complete _⟩
    have hedit (edit : MethodDraft → MethodDraft)
        (hsame : method.localVar opcode opcode.shortForm? slot = edit method)
        (h : editMethod (fun method => method.localVar opcode opcode.shortForm? slot) draft =
          .ok () draft') : editMethod edit draft = .ok () draft' := by
      obtain ⟨found, hfound, rfl⟩ := editMethod_eq_ok_iff.mp h
      obtain rfl : method = found := Option.some.inj (hmethod.symm.trans hfound)
      exact editMethod_eq_ok_iff.mpr ⟨method, hmethod, by rw [hsame]⟩
    cases hshort : opcode.shortForm? with
    | none =>
        have hfew : ¬ (slot < 4 ∧ opcode.shortForm?.isSome) := by simp [hshort]
        by_cases hslot : slot < 256
        · exact hnarrow hslot hfew (hedit _ (by simp [MethodDraft.localVar, hshort, hslot]) h)
        · exact hwide hslot hfew (hedit _ (by simp [MethodDraft.localVar, hshort, hslot]) h)
    | some short =>
        by_cases hfew : slot < 4
        · have hemit := hedit (fun method => method.emit ⟨short.byte + slot.toUInt8⟩ [])
            (by simp [MethodDraft.localVar, hshort, hfew]) h
          refine writes_emit sound hmethod rfl rfl ?_ nofun (fun window hshows => ?_) hemit
          · simp [Instruction.room, hfew, hshort]
          · exact ⟨_, decode_shortForm hshort hfew hshows, fun _ _ _ => .complete _⟩
        · have hmany : ¬ (slot < 4 ∧ opcode.shortForm?.isSome) := fun few => hfew few.1
          by_cases hslot : slot < 256
          · exact hnarrow hslot hmany
              (hedit _ (by simp [MethodDraft.localVar, hshort, hfew, hslot]) h)
          · exact hwide hslot hmany
              (hedit _ (by simp [MethodDraft.localVar, hshort, hfew, hslot]) h)
  · rw [if_neg hshape] at h
    cases h

theorem writes_increment {slot : UInt16} {delta : Int16}
    (h : instruction (.increment slot delta) draft = .ok () draft') :
    Writes draft draft' method (.increment slot delta) := by
  simp only [instruction] at h
  obtain ⟨found, hfound, rfl⟩ := editMethod_eq_ok_iff.mp h
  obtain rfl : method = found := Option.some.inj (hmethod.symm.trans hfound)
  by_cases hsmall : slot < 256 ∧ -128 ≤ delta ∧ delta ≤ 127
  · have hemit : emit .iinc [slot.toUInt8, delta.toInt8.toUInt8] draft = .ok ()
        { draft with method := some (method.increment slot delta) } :=
      editMethod_eq_ok_iff.mpr ⟨method, hmethod, by rw [MethodDraft.increment, if_pos hsmall]⟩
    refine writes_emit sound hmethod rfl rfl ?_ nofun (fun window hshows => ?_) hemit
    · simp [Instruction.room, hsmall]
    · refine ⟨_, Window.decode_increment hshows rfl, fun _ _ _ => ?_⟩
      rw [toUInt16_toUInt8 hsmall.1, toInt16_toInt8 hsmall.2.1 hsmall.2.2]
      exact .complete _
  · have hemit : emit .wide (Opcode.iinc.byte :: (u16 slot ++ i16 delta)) draft = .ok ()
        { draft with method := some (method.increment slot delta) } :=
      editMethod_eq_ok_iff.mpr ⟨method, hmethod, by rw [MethodDraft.increment, if_neg hsmall]⟩
    refine writes_emit sound hmethod rfl rfl ?_ nofun (fun window hshows => ?_) hemit
    · simp only [Instruction.room, if_neg hsmall]
      exact Nat.le_refl _
    · exact ⟨_, Window.decode_widenedIncrement hshows, fun _ _ _ => .complete _⟩

theorem writes_field {opcode : Opcode} {owner name descriptor : String}
    (documented : opcode.shape = .field)
    (h : instruction (.field opcode owner name descriptor) draft = .ok () draft') :
    Writes draft draft' method (.field opcode owner name descriptor) := by
  simp only [instruction] at h
  refine writes_request sound hmethod (.field owner name descriptor)
    (Request.gives_field owner name descriptor) rfl rfl (fun _ _ => .field)
    (fun _ => Nat.le_refl _) (fun window slot hshows => ?_) (fun window slot hmember hshows => ?_) h
  · exact Window.refers_wide hshows (by simp [documented])
  · exact ⟨_, Window.decode_field hshows documented hmember, fun _ _ => .complete _⟩

theorem writes_type {opcode : Opcode} {name : String} (documented : opcode.shape = .type)
    (h : instruction (.type opcode name) draft = .ok () draft') :
    Writes draft draft' method (.type opcode name) := by
  simp only [instruction] at h
  refine writes_request sound hmethod (.classNamed name) (Request.gives_classNamed name) rfl rfl
    (fun _ _ => .type) (fun _ => Nat.le_refl _) (fun window slot hshows => ?_)
    (fun window slot hname hshows => ?_) h
  · exact Window.refers_wide hshows (by simp [documented])
  · exact ⟨_, Window.decode_type hshows documented hname.2, fun _ _ => .complete _⟩

theorem writes_multiNewArray {descriptor : String} {dimensions : UInt8}
    (h : instruction (.multiNewArray descriptor dimensions) draft = .ok () draft') :
    Writes draft draft' method (.multiNewArray descriptor dimensions) := by
  simp only [instruction] at h
  refine writes_request sound hmethod (.classNamed descriptor)
    (Request.gives_classNamed descriptor) rfl rfl (fun _ _ => .multiNewArray)
    (fun _ => Nat.le_refl _) (fun window slot hshows => ?_) (fun window slot hname hshows => ?_) h
  · have hsplit : window.Shows method.code.size
        ((Opcode.multiNewArray.byte :: u16 slot) ++ [dimensions]) := hshows
    exact Window.refers_wide hsplit.left (by decide)
  · exact ⟨_, Window.decode_multiArray hshows rfl hname.2, fun _ _ => .complete _⟩

theorem writes_load {value : Literal}
    (h : instruction (.load value) draft = .ok () draft') :
    Writes draft draft' method (.load value) := by
  simp only [instruction, load] at h
  have hgives := Request.gives_literal value
  rw [← ConstantTree.request_literal] at h hgives
  by_cases hwide : value.isWide = true
  · simp only [hwide, if_true] at h
    refine writes_request sound hmethod (.literal value) hgives rfl rfl (fun _ _ => .load)
      (fun _ => Nat.le_refl _) (fun window slot hshows => ?_)
      (fun window slot hvalue hshows => ?_) h
    · exact Window.refers_wide hshows (by decide)
    · exact ⟨_, Window.decode_wideConstant hshows rfl, fun _ _ => .load hvalue⟩
  · have hform : (fun slot : UInt16 =>
        if slot < 256 then emit .ldc [slot.toUInt8] else emit .ldcWide (u16 slot)) =
        fun slot => emit (if slot < 256 then .ldc else .ldcWide)
          (if slot < 256 then [slot.toUInt8] else u16 slot) := by
      funext slot
      split <;> rfl
    simp only [hwide] at h
    change (request (ConstantTree.literal value).request >>= fun slot : UInt16 =>
      if slot < 256 then emit .ldc [slot.toUInt8] else emit .ldcWide (u16 slot)) draft = _ at h
    rw [hform] at h
    refine writes_request sound hmethod (.literal value) hgives rfl rfl (fun _ _ => .load)
      (fun slot => ?_) (fun window slot hshows => ?_) (fun window slot hvalue hshows => ?_) h
    · split
      · exact Nat.le_succ 2
      · exact Nat.le_refl 3
    · by_cases hslot : slot < 256
      · simp only [if_pos hslot] at hshows
        rw [← toUInt16_toUInt8 hslot]
        exact Window.refers_narrow hshows rfl
      · simp only [if_neg hslot] at hshows
        exact Window.refers_wide hshows (by decide)
    · by_cases hslot : slot < 256
      · simp only [if_pos hslot] at hshows ⊢
        refine ⟨_, Window.decode_constant hshows rfl, fun _ _ => ?_⟩
        rw [toUInt16_toUInt8 hslot]
        exact .load hvalue
      · simp only [if_neg hslot] at hshows ⊢
        exact ⟨_, Window.decode_wideConstant hshows rfl, fun _ _ => .load hvalue⟩

theorem writes_method {opcode : Opcode} {owner name descriptor : String} {isInterface : Bool}
    (documented : opcode.shape = .method)
    (h : instruction (.method opcode owner name descriptor isInterface) draft = .ok () draft') :
    Writes draft draft' method (.method opcode owner name descriptor isInterface) := by
  simp only [instruction, call] at h
  by_cases hinterface : opcode = .invokeInterface
  · -- the argument count is pushed behind the reference and is never read
    subst hinterface
    obtain ⟨slot, draft₁, hrequest, h⟩ := bind_eq_ok_iff.mp h
    obtain ⟨pool, hask, rfl⟩ := request_eq_ok_iff.mp hrequest
    obtain ⟨grows, hpost, -⟩ :=
      sound.grows_request (Request.gives_method owner name descriptor isInterface) hask
    obtain ⟨-, hstands, -⟩ := sound.grows_request
      (ConstantTree.method owner name descriptor isInterface).gives_request hask
    obtain ⟨⟨⟩, draft₂, hemit, h⟩ := bind_eq_ok_iff.mp h
    obtain ⟨found, hfound, rfl⟩ := editMethod_eq_ok_iff.mp hemit
    obtain rfl : method = found := Option.some.inj (hmethod.symm.trans hfound)
    simp only [if_true] at h
    cases hslots : Descriptor.argumentSlots? descriptor with
    | none => simp only [hslots] at h; cases h
    | some slots =>
        simp only [hslots] at h
        obtain ⟨pushed, hpushed, rfl⟩ := editMethod_eq_ok_iff.mp h
        obtain rfl := Option.some.inj hpushed
        refine ⟨_, _, rfl, (method.appends_emit method.code.size .invokeInterface (u16 slot)).trans
          (MethodDraft.appends_push _ .invokeInterface method.code.size [slots, 0]),
          grows.trans (grows.sound.grows_of_same rfl rfl rfl), fun table bootstraps shown => ?_⟩
        have hfill (offset : LabelToken → Nat) :
            fillCells offset ([⟨.invokeInterface, method.code.size,
                .bytes (Opcode.invokeInterface.byte :: u16 slot)⟩] ++
              [⟨.invokeInterface, method.code.size, .bytes [slots, 0]⟩]) =
              Opcode.invokeInterface.byte :: (u16 slot ++ [slots, 0]) := by
          simp [fillCells, Piece.fill]
        refine spells_settled rfl hfill (Nat.le_refl _)
          (fun _ => ⟨_, slot, .method, (hstands table shown.pool).2, fun window hshows => ?_⟩)
          fun window hwindow hshows => ?_
        · have hsplit : window.Shows method.code.size
              ((Opcode.invokeInterface.byte :: u16 slot) ++ [slots, 0]) := hshows
          exact Window.refers_wide hsplit.left (by decide)
        · subst hwindow
          have hdecode := Window.decode_method hshows.left documented (hpost _ shown.pool)
          exact ⟨_, hdecode, fun _ => .complete _⟩
  · simp only [hinterface, if_false, bind_pure_unit] at h
    refine writes_request sound hmethod (.method owner name descriptor isInterface)
      (Request.gives_method owner name descriptor isInterface) rfl rfl (fun _ _ => .method)
      (fun _ => ?_) (fun window slot hshows => ?_) (fun window slot hmember hshows => ?_) h
    · simp [Instruction.room, hinterface, u16]
    · exact Window.refers_wide hshows (by simp [documented])
    · have hdecode := Window.decode_method hshows documented hmember
      rw [if_neg hinterface] at hdecode
      exact ⟨_, hdecode, fun _ _ => .complete _⟩

theorem writes_invokeDynamic {name descriptor : String} {handle : MethodHandle}
    {arguments : List Literal}
    (h : instruction (.invokeDynamic name descriptor handle arguments) draft = .ok () draft') :
    Writes draft draft' method (.invokeDynamic name descriptor handle arguments) := by
  simp only [instruction] at h
  obtain ⟨position, draft₁, hbootstrap, h⟩ := bind_eq_ok_iff.mp h
  obtain ⟨grows₁, hsame, hnames⟩ := bootstrap_eq_ok sound hbootstrap
  obtain ⟨site, draft₂, hrequest, h⟩ := bind_eq_ok_iff.mp h
  obtain ⟨pool, hask, rfl⟩ := request_eq_ok_iff.mp hrequest
  obtain ⟨grows₂, hpost, -⟩ :=
    grows₁.sound.grows_request (Request.gives_callSite position name descriptor) hask
  obtain ⟨-, hstands, -⟩ := grows₁.sound.grows_request
    (ConstantTree.callSite position name descriptor).gives_request hask
  obtain ⟨found, hfound, rfl⟩ := editMethod_eq_ok_iff.mp h
  have hkept : draft₁.method = draft.method := by rw [hsame]
  obtain rfl : method = found := Option.some.inj (hmethod.symm.trans (hkept.symm.trans hfound))
  refine ⟨_, _, by rw [hsame], method.appends_emit method.code.size .invokeDynamic
    (u16 site ++ [0, 0]), (grows₁.trans grows₂).trans (grows₂.sound.grows_of_same rfl rfl rfl),
    fun table bootstraps shown => ?_⟩
  have shown₂ : ClassDraft.ShownIn { draft₁ with pool } table bootstraps :=
    ⟨shown.pool, shown.entries, shown.small⟩
  obtain ⟨entry, hentry, hhandle, hliterals⟩ := hnames table bootstraps (grows₂.shownIn shown₂)
  have harguments : entry.arguments.mapM table.literal = .ok (arguments.map Literal.normal) := by
    rw [mapM_eq_ok_iff, List.forall₂_map_right_iff]
    exact hliterals.flip
  refine spells_settled rfl (fun offset => fillCells_bytes ..) (Nat.le_refl _)
    (fun _ => ⟨_, site, .callSite ⟨entry, hentry, hhandle, hliterals⟩,
      (hstands table shown.pool).2, fun window hshows => ?_⟩) fun window hwindow hshows => ?_
  · have hsplit : window.Shows method.code.size
        ((Opcode.invokeDynamic.byte :: u16 site) ++ [0, 0]) := hshows
    exact Window.refers_wide hsplit.left (by decide)
  · subst hwindow
    have hsplit : window.Shows method.code.size
        ((Opcode.invokeDynamic.byte :: u16 site) ++ [0, 0]) := hshows
    exact ⟨_, Window.decode_callSite hsplit.left rfl (hpost _ shown.pool),
      fun _ => .call hentry hhandle harguments⟩

theorem writes_jump {opcode : Opcode} {target : LabelToken}
    (h : instruction (.jump opcode target) draft = .ok () draft') :
    Writes draft draft' method (.jump opcode target) := by
  simp only [instruction] at h
  by_cases hjump : opcode.isJump = true
  · rw [if_pos hjump] at h
    refine writes_edit sound hmethod rfl (method.appends_jump opcode target)
      (fun table bootstraps => ⟨by simp [blankCells, Piece.blank], ?_, ?_, ?_, nofun⟩) h
    · cases hwide : opcode.isWideJump <;>
        simp [blankCells, Piece.blank, Instruction.room, hwide]
    · intro token htoken
      obtain rfl := List.mem_singleton.mp htoken
      exact ⟨⟨opcode, method.code.size, .branch opcode.isWideJump token⟩, by simp, _, rfl⟩
    · intro window offset _ small hroom hplaced fits hshows
      have hoffset : offset target ≤ window.length := hplaced target (by simp [Instruction.targets])
      have hpc : method.code.size ≤ window.length := by omega
      cases hwide : opcode.isWideJump with
      | true =>
          rw [hwide] at hshows
          have hshape : opcode.shape = .wideJump := of_decide_eq_true hwide
          exact ⟨_, Window.decode_wideJump small hpc hshape hoffset hshows, .complete _⟩
      | false =>
          rw [hwide] at hshows
          have hshape : opcode.shape = .jump := by
            have hnot : ¬ opcode.shape = .wideJump := of_decide_eq_false hwide
            simpa [Opcode.isJump, hnot] using hjump
          have hfits := fits ⟨opcode, method.code.size, .branch false target⟩ (by simp [hwide])
          exact ⟨_, Window.decode_jump hshape hoffset hfits hshows, .complete _⟩
  · rw [if_neg hjump] at h
    cases h

end ClassDraft

/-- The cells in front of the cases of a switch. -/
def switchCells (opcode : Opcode) (origin : Nat) (otherwise : LabelToken) : List Cell :=
  [⟨opcode, origin, .bytes (opcode.byte :: MethodDraft.switchPadding (origin + 1))⟩,
    ⟨opcode, origin, .branch true otherwise⟩]

/-- The cells of a switch by bounds. -/
def tableCells (origin : Nat) (low high : Int32) (otherwise : LabelToken)
    (targets : List LabelToken) : List Cell :=
  switchCells .tableSwitch origin otherwise ++
    ⟨.tableSwitch, origin, .bytes (i32 low ++ i32 high)⟩ ::
      targets.map fun target => ⟨.tableSwitch, origin, .branch true target⟩

/-- The cells of a switch by pairs of a key and a target. -/
def pairCells (origin : Nat) (otherwise : LabelToken) (pairs : List (Int32 × LabelToken)) :
    List Cell :=
  switchCells .lookupSwitch origin otherwise ++
    ⟨.lookupSwitch, origin, .bytes (ofNat 4 pairs.length)⟩ ::
      pairs.flatMap fun pair => [⟨.lookupSwitch, origin, .bytes (i32 pair.1)⟩,
        ⟨.lookupSwitch, origin, .branch true pair.2⟩]

section SwitchCells

variable (offset : LabelToken → Nat) (origin : Nat) (otherwise : LabelToken)

theorem fillCells_switchCells (opcode : Opcode) :
    fillCells offset (switchCells opcode origin otherwise) =
      opcode.byte :: (MethodDraft.switchPadding (origin + 1) ++
        Window.wideBranch origin (offset otherwise)) := by
  simp [switchCells, fillCells, Piece.fill, Window.wideBranch]

/-- Wide branches one behind the other. -/
theorem fillCells_branches (opcode : Opcode) (targets : List LabelToken) :
    fillCells offset (targets.map fun target => ⟨opcode, origin, .branch true target⟩) =
      ((targets.map offset).map (Window.wideBranch origin)).flatten := by
  induction targets with
  | nil => rfl
  | cons target targets ih =>
      rw [List.map_cons, fillCells_cons, ih]
      rfl

/-- Pairs of a key and a wide branch one behind the other. -/
theorem fillCells_pairs (opcode : Opcode) (pairs : List (Int32 × LabelToken)) :
    fillCells offset (pairs.flatMap fun pair =>
        [⟨opcode, origin, .bytes (i32 pair.1)⟩, ⟨opcode, origin, .branch true pair.2⟩]) =
      ((pairs.map fun pair => (pair.1, offset pair.2)).map (Window.pairBytes origin)).flatten := by
  induction pairs with
  | nil => rfl
  | cons pair pairs ih =>
      rw [List.flatMap_cons, fillCells_append, ih]
      simp [fillCells, Piece.fill, Window.pairBytes, Window.wideBranch]

theorem fillCells_tableCells (low high : Int32) (targets : List LabelToken) :
    fillCells offset (tableCells origin low high otherwise targets) =
      Opcode.tableSwitch.byte :: (MethodDraft.switchPadding (origin + 1) ++
        (Window.wideBranch origin (offset otherwise) ++ ((i32 low ++ i32 high) ++
          ((targets.map offset).map (Window.wideBranch origin)).flatten))) := by
  rw [tableCells, fillCells_append, fillCells_cons, fillCells_switchCells, fillCells_branches]
  simp [Piece.fill]

theorem fillCells_pairCells (pairs : List (Int32 × LabelToken)) :
    fillCells offset (pairCells origin otherwise pairs) =
      Opcode.lookupSwitch.byte :: (MethodDraft.switchPadding (origin + 1) ++
        (Window.wideBranch origin (offset otherwise) ++ (ofNat 4 pairs.length ++
          ((pairs.map fun pair => (pair.1, offset pair.2)).map
            (Window.pairBytes origin)).flatten))) := by
  rw [pairCells, fillCells_append, fillCells_cons, fillCells_switchCells, fillCells_pairs]
  simp [Piece.fill]

theorem length_tableCells (low high : Int32) (targets : List LabelToken) :
    (blankCells (tableCells origin low high otherwise targets)).length =
      1 + (Window.padding origin + 12 + 4 * targets.length) := by
  rw [← length_fillCells (fun _ => 0), fillCells_tableCells]
  simp only [List.length_cons, List.length_append, Window.length_switchPadding,
    Window.length_wideBranch, Window.length_wideBranches, List.length_map, i32, u32, length_ofNat]
  omega

theorem length_pairCells (pairs : List (Int32 × LabelToken)) :
    (blankCells (pairCells origin otherwise pairs)).length =
      1 + (Window.padding origin + 8 + 8 * pairs.length) := by
  rw [← length_fillCells (fun _ => 0), fillCells_pairCells]
  simp only [List.length_cons, List.length_append, Window.length_switchPadding,
    Window.length_wideBranch, Window.length_pairs, List.length_map, length_ofNat]
  omega

end SwitchCells

namespace MethodDraft

variable (method : MethodDraft) (otherwise : LabelToken)

theorem appends_switch (opcode : Opcode) :
    method.Appends (method.switch opcode otherwise)
      (switchCells opcode method.code.size otherwise) :=
  (method.appends_emit method.code.size opcode _).trans
    (appends_reserve _ opcode method.code.size true otherwise)

theorem appends_tableSwitch (low high : Int32) (targets : List LabelToken) :
    method.Appends (method.tableSwitch low high otherwise targets)
      (tableCells method.code.size low high otherwise targets) := by
  have hcases := appends_foldl (fun draft target =>
      draft.reserve .tableSwitch method.code.size true target)
    (fun target => [⟨.tableSwitch, method.code.size, .branch true target⟩])
    (fun draft target => draft.appends_reserve .tableSwitch method.code.size true target)
    ((method.switch .tableSwitch otherwise).push (i32 low ++ i32 high)) targets
  rw [← List.map_eq_flatMap] at hcases
  have hbounds := appends_push (method.switch .tableSwitch otherwise) .tableSwitch
    method.code.size (i32 low ++ i32 high)
  exact (method.appends_switch otherwise .tableSwitch).trans (hbounds.trans hcases)

theorem appends_lookupSwitch (pairs : List (Int32 × LabelToken)) :
    method.Appends (method.lookupSwitch otherwise pairs)
      (pairCells method.code.size otherwise pairs) := by
  have hcases := appends_foldl (fun draft (pair : Int32 × LabelToken) =>
      (draft.push (i32 pair.1)).reserve .lookupSwitch method.code.size true pair.2)
    (fun pair => [⟨.lookupSwitch, method.code.size, .bytes (i32 pair.1)⟩,
      ⟨.lookupSwitch, method.code.size, .branch true pair.2⟩])
    (fun draft pair => (draft.appends_push .lookupSwitch method.code.size (i32 pair.1)).trans
      (appends_reserve _ .lookupSwitch method.code.size true pair.2))
    ((method.switch .lookupSwitch otherwise).push (ofNat 4 pairs.length)) pairs
  have hcount := appends_push (method.switch .lookupSwitch otherwise) .lookupSwitch
    method.code.size (ofNat 4 pairs.length)
  exact (method.appends_switch otherwise .lookupSwitch).trans (hcount.trans hcases)

end MethodDraft

namespace ClassDraft

variable {draft draft' : ClassDraft} {method : MethodDraft} (sound : draft.Sound)
  (hmethod : draft.method = some method)

include sound hmethod

theorem writes_tableSwitch {low high : Int32} {otherwise : LabelToken}
    {targets : List LabelToken}
    (h : instruction (.tableSwitch low high otherwise targets) draft = .ok () draft') :
    Writes draft draft' method (.tableSwitch low high otherwise targets) := by
  simp only [instruction] at h
  by_cases hbad : high < low ∨ high.toInt - low.toInt + 1 ≠ targets.length
  · rw [if_pos hbad] at h
    cases h
  rw [if_neg hbad] at h
  rw [not_or, not_not] at hbad
  refine writes_edit sound hmethod rfl (method.appends_tableSwitch otherwise low high targets)
    (fun table bootstraps => ⟨?_, ?_, ?_, ?_, nofun⟩) h
  · rw [length_tableCells]
    omega
  · exact Nat.le_of_eq (length_tableCells ..)
  · intro token htoken
    refine ⟨⟨.tableSwitch, method.code.size, .branch true token⟩, ?_, true, rfl⟩
    obtain rfl | htoken := List.mem_cons.mp htoken
    · simp [tableCells, switchCells]
    · simp [tableCells, htoken]
  · intro window offset _ small hroom hplaced _ hshows
    rw [length_tableCells] at hroom ⊢
    rw [fillCells_tableCells] at hshows
    have htargets : ∀ n ∈ targets.map offset, n ≤ window.length := by
      intro n hn
      obtain ⟨token, htoken, rfl⟩ := List.mem_map.mp hn
      exact hplaced token (by simp [Instruction.targets, htoken])
    refine ⟨_, (Window.decode_tableSwitch small (by omega) (Window.length_switchPadding _) hbad.1
      (by rw [hbad.2]; simp) (hplaced otherwise (by simp [Instruction.targets])) htargets
      hshows).trans ?_, .complete _⟩
    rw [List.length_map, Nat.add_sub_cancel_left]
    rfl

theorem writes_lookupSwitch {otherwise : LabelToken} {keys : List Int32}
    {targets : List LabelToken}
    (h : instruction (.lookupSwitch otherwise keys targets) draft = .ok () draft') :
    Writes draft draft' method (.lookupSwitch otherwise keys targets) := by
  simp only [instruction] at h
  by_cases hkeys : keys.length = targets.length
  · rw [if_pos hkeys] at h
    have hfst : (keys.zip targets).map (·.1) = keys := List.map_fst_zip (by omega)
    have hsnd : (keys.zip targets).map (·.2) = targets := List.map_snd_zip (by omega)
    generalize keys.zip targets = pairs at h hfst hsnd
    subst hfst hsnd
    refine writes_edit sound hmethod rfl (method.appends_lookupSwitch otherwise pairs)
      (fun table bootstraps => ⟨?_, ?_, ?_, ?_, nofun⟩) h
    · rw [length_pairCells]
      omega
    · rw [length_pairCells, Instruction.room, List.length_map]
    · intro token htoken
      refine ⟨⟨.lookupSwitch, method.code.size, .branch true token⟩, ?_, true, rfl⟩
      obtain rfl | htoken := List.mem_cons.mp htoken
      · simp [pairCells, switchCells]
      · obtain ⟨pair, hpair, rfl⟩ := List.mem_map.mp htoken
        refine List.mem_append_right _ (List.mem_cons_of_mem _ ?_)
        exact List.mem_flatMap.mpr ⟨pair, hpair, by simp⟩
    · intro window offset _ small hroom hplaced _ hshows
      rw [length_pairCells] at hroom ⊢
      rw [fillCells_pairCells, ← List.length_map (fun pair => (pair.1, offset pair.2))] at hshows
      have htargets : ∀ pair ∈ pairs.map (fun pair => (pair.1, offset pair.2)),
          pair.2 ≤ window.length := by
        intro pair hpair
        obtain ⟨source, hsource, rfl⟩ := List.mem_map.mp hpair
        refine hplaced source.2 (List.mem_cons_of_mem _ ?_)
        exact List.mem_map_of_mem hsource
      simp only [countLimit] at small
      have hdecode := Window.decode_lookupSwitch small (by omega) (Window.length_switchPadding _)
        (by rw [List.length_map]; omega) (hplaced otherwise (by simp [Instruction.targets]))
        htargets hshows
      rw [List.length_map, ← Instruction.map_lookupSwitch] at hdecode
      rw [Nat.add_sub_cancel_left]
      exact ⟨_, hdecode, .complete _⟩
  · rw [if_neg hkeys] at h
    cases h

/-- Every instruction that is no mark is written so that it is read back. -/
theorem writes_instruction {i : Instruction LabelToken} (hpseudo : i.isPseudo = false)
    (documented : i.Documented) (h : instruction i draft = .ok () draft') :
    Writes draft draft' method i := by
  cases i with
  | simple opcode => exact writes_simple sound hmethod h
  | int opcode operand => exact writes_int sound hmethod h
  | localVar opcode slot => exact writes_localVar sound hmethod h
  | increment slot delta => exact writes_increment sound hmethod h
  | field opcode owner name descriptor =>
      exact writes_field sound hmethod (opcode.shape_eq_field_iff.mpr documented) h
  | method opcode owner name descriptor isInterface =>
      exact writes_method sound hmethod (opcode.shape_eq_method_iff.mpr documented) h
  | invokeDynamic name descriptor handle arguments =>
      exact writes_invokeDynamic sound hmethod h
  | type opcode name =>
      exact writes_type sound hmethod (opcode.shape_eq_type_iff.mpr documented) h
  | load value => exact writes_load sound hmethod h
  | jump opcode target => exact writes_jump sound hmethod h
  | lookupSwitch otherwise keys targets => exact writes_lookupSwitch sound hmethod h
  | tableSwitch low high otherwise targets => exact writes_tableSwitch sound hmethod h
  | multiNewArray descriptor dimensions => exact writes_multiNewArray sound hmethod h
  | label token => cases hpseudo
  | line number token => cases hpseudo

end ClassDraft

end JavaClass
