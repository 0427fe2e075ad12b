import JavaClass.Proofs.Bytes.Reading

/-!
# How far a reading goes

A reading that gives a result has looked at bytes up to some index only. All
bytes that are the same up to there give the same result; cut off earlier, they
end unexpectedly.

## Implementation notes

A reading often starts behind bytes that were read before. `Reaches` says what
it needs once these are there, so that readings that follow each other need what
the last one does.
-/

namespace JavaClass

theorem exceptMap_eq_ok_iff {α β : Type} {f : α → β} {result : Except Error α} {b : β} :
    result.map f = .ok b ↔ ∃ a, result = .ok a ∧ f a = b := by
  cases result with
  | error error => simp [Except.map]
  | ok a => simp [Except.map]

namespace Bytes

/-- The bytes up to an index. -/
def upTo (bytes : Bytes) (stop : Nat) : Bytes :=
  bytes.extract 0 stop

theorem size_upTo (bytes : Bytes) (stop : Nat) : (bytes.upTo stop).size = min stop bytes.size := by
  rw [upTo, Array.size_extract, Nat.sub_zero]

/-- A range that is not cut off is the same range. -/
theorem extract_upTo (bytes : Bytes) {index length stop : Nat} (h : index + length ≤ stop) :
    (bytes.upTo stop).extract index (index + length) = bytes.extract index (index + length) := by
  rw [upTo, Array.extract_extract, Nat.zero_add, Nat.zero_add, Nat.min_eq_left h]

theorem upTo_upTo (bytes : Bytes) {stop cut : Nat} (h : stop ≤ cut) :
    (bytes.upTo cut).upTo stop = bytes.upTo stop := by
  have extracted : (bytes.upTo cut).extract 0 (0 + stop) = bytes.extract 0 (0 + stop) :=
    bytes.extract_upTo (by omega)
  rwa [Nat.zero_add] at extracted

theorem upTo_size (bytes : Bytes) : bytes.upTo bytes.size = bytes :=
  Array.extract_size

theorem upTo_append (bytes more : Bytes) {stop : Nat} (h : stop ≤ bytes.size) :
    Bytes.upTo (bytes ++ more) stop = bytes.upTo stop := by
  rw [upTo, Array.extract_append, Nat.zero_sub, Nat.sub_eq_zero_of_le h, Array.extract_zero,
    Array.append_empty, upTo]

/-- From bytes that go on behind `start`, the reading gives `a` if they go on to `stop`, and so it
does from all bytes that are the same up to there. If they end before that, it misses some of
them. -/
structure Reaches {α : Type} (bytes : Bytes) (read : Bytes → Except Error α) (a : α)
    (start stop : Nat) : Prop where
  start_le : start ≤ stop
  agrees : ∀ other : Bytes, other.upTo stop = bytes.upTo stop → read other = .ok a
  misses : ∀ cut, start ≤ cut → cut < stop →
    ∃ length index, read (bytes.upTo cut) = malformed (.unexpectedEnd length index)

variable {bytes other : Bytes} {α β : Type} {read : Bytes → Except Error α} {a : α}
  {start middle stop index length : Nat}

/-- Bytes that are the same up to an index are the same up to an earlier one. -/
theorem upTo_congr (same : other.upTo stop = bytes.upTo stop) (le : middle ≤ stop) :
    other.upTo middle = bytes.upTo middle := by
  rw [← upTo_upTo other le, same, upTo_upTo bytes le]

theorem le_size_of_upTo_eq (same : other.upTo stop = bytes.upTo stop) (le : index ≤ stop)
    (h : index ≤ bytes.size) : index ≤ other.size := by
  have sizes := congrArg Array.size same
  rw [size_upTo, size_upTo] at sizes
  omega

theorem Reaches.reads (h : bytes.Reaches read a start stop) (cut : Nat) (le : stop ≤ cut) :
    read (bytes.upTo cut) = .ok a :=
  h.agrees _ (upTo_upTo bytes le)

/-- A reading does not go behind the bytes that it was done with. -/
theorem Reaches.stop_le (h : bytes.Reaches read a start stop) (found : read bytes = .ok a)
    (le : start ≤ bytes.size) : stop ≤ bytes.size := by
  by_contra lt
  obtain ⟨length, index, missed⟩ := h.misses bytes.size le (Nat.not_le.mp lt)
  rw [upTo_size, found] at missed
  cases missed

/-- A result that depends on nothing. -/
theorem reaches_const {result : Except Error α} (h : result = .ok a) (start : Nat) :
    bytes.Reaches (fun _ => result) a start start where
  start_le := Nat.le_refl start
  agrees _ _ := h
  misses _ le lt := absurd lt (Nat.not_lt.mpr le)

/-- The second of two readings goes on where the first one stopped. -/
theorem Reaches.bind {next : Bytes → α → Except Error β} {b : β}
    (first : bytes.Reaches read a start middle)
    (second : bytes.Reaches (fun bytes => next bytes a) b middle stop) :
    bytes.Reaches (fun bytes => read bytes >>= next bytes) b start stop where
  start_le := Nat.le_trans first.start_le second.start_le
  agrees other same := by
    have found := first.agrees other (upTo_congr same second.start_le)
    simp only [found]
    exact second.agrees other same
  misses cut le lt := by
    obtain before | behind := Nat.lt_or_ge cut middle
    · obtain ⟨length, index, missed⟩ := first.misses cut le before
      exact ⟨length, index, by simp only [missed]; rfl⟩
    · obtain ⟨length, index, missed⟩ := second.misses cut behind lt
      refine ⟨length, index, ?_⟩
      simp only [first.reads cut behind]
      exact missed

theorem Reaches.map (f : α → β) (h : bytes.Reaches read a start stop) :
    bytes.Reaches (fun bytes => (read bytes).map f) (f a) start stop where
  start_le := h.start_le
  agrees other same := by
    simp only [h.agrees other same]
    rfl
  misses cut le lt := by
    obtain ⟨length, index, missed⟩ := h.misses cut le lt
    exact ⟨length, index, by simp only [missed]; rfl⟩

/-- With more bytes there already, no more are needed. -/
theorem Reaches.behind (h : bytes.Reaches read a start stop) (le : start ≤ middle) :
    bytes.Reaches read a middle (max middle stop) where
  start_le := Nat.le_max_left middle stop
  agrees other same := h.agrees other (upTo_congr same (Nat.le_max_right middle stop))
  misses cut _ lt := h.misses cut (by omega) (by omega)

/-- A reading that is done with bytes which are there already needs no more. -/
theorem Reaches.already (h : bytes.Reaches read a start stop) (le : stop ≤ middle) :
    bytes.Reaches read a middle middle := by
  have behind := h.behind (Nat.le_trans h.start_le le)
  rwa [Nat.max_eq_left le] at behind

/-- The reading gives `a` and needs no bytes behind `limit`. -/
def ReachesWithin (bytes : Bytes) (read : Bytes → Except Error α) (a : α) (limit : Nat) : Prop :=
  ∃ stop ≤ limit, bytes.Reaches read a 0 stop

theorem reachesWithin_const {result : Except Error α} (h : result = .ok a) (limit : Nat) :
    bytes.ReachesWithin (fun _ => result) a limit :=
  ⟨0, Nat.zero_le limit, reaches_const h 0⟩

theorem Reaches.within (h : bytes.Reaches read a 0 stop) {limit : Nat} (le : stop ≤ limit) :
    bytes.ReachesWithin read a limit :=
  ⟨stop, le, h⟩

theorem ReachesWithin.bind {limit : Nat} {next : Bytes → α → Except Error β} {b : β}
    (first : bytes.ReachesWithin read a limit)
    (second : bytes.ReachesWithin (fun bytes => next bytes a) b limit) :
    bytes.ReachesWithin (fun bytes => read bytes >>= next bytes) b limit := by
  obtain ⟨middle, middle_le, first⟩ := first
  obtain ⟨stop, stop_le, second⟩ := second
  exact ⟨max middle stop, Nat.max_le.mpr ⟨middle_le, stop_le⟩,
    first.bind (second.behind (Nat.zero_le middle))⟩

/-- Whichever reading is chosen, it reaches where it stops. -/
theorem reaches_ite {c : Prop} [Decidable c] {first second : Bytes → Except Error α}
    (h : (if c then first bytes else second bytes) = .ok a)
    (pos : c → first bytes = .ok a → bytes.Reaches first a start stop)
    (neg : ¬ c → second bytes = .ok a → bytes.Reaches second a start stop) :
    bytes.Reaches (fun bytes => if c then first bytes else second bytes) a start stop := by
  by_cases hc : c
  · simp only [if_pos hc] at h ⊢
    exact pos hc h
  · simp only [if_neg hc] at h ⊢
    exact neg hc h

theorem reaches_check (h : bytes.check index length = .ok ()) (le : start ≤ index + length) :
    bytes.Reaches (·.check index length) () start (index + length) where
  start_le := le
  agrees other same := by
    unfold check at h ⊢
    split at h
    · rename_i fits
      rw [if_pos (le_size_of_upTo_eq same (Nat.le_refl _) fits)]
    · cases h
  misses cut _ lt := ⟨length, index, by
    simp only [check]
    rw [if_neg (by rw [size_upTo]; omega)]⟩

theorem reaches_slice {content : List UInt8} (h : bytes.slice index length = .ok content)
    (le : start ≤ index + length) :
    bytes.Reaches (·.slice index length) content start (index + length) where
  start_le := le
  agrees other same := by
    unfold slice at h ⊢
    split at h
    · rename_i fits
      rw [if_pos (le_size_of_upTo_eq same (Nat.le_refl _) fits),
        ← extract_upTo other (Nat.le_refl _), same, extract_upTo bytes (Nat.le_refl _)]
      exact h
    · cases h
  misses cut _ lt := ⟨length, index, by
    simp only [slice]
    rw [if_neg (by rw [size_upTo]; omega)]⟩

theorem reaches_number {width n : Nat} (h : bytes.number width index = .ok n)
    (le : start ≤ index + width) :
    bytes.Reaches (·.number width index) n start (index + width) := by
  obtain ⟨content, found, rfl⟩ := exceptMap_eq_ok_iff.mp h
  exact (reaches_slice found le).map BigEndian.toNat

theorem reaches_u8 {n : UInt8} (h : bytes.u8 index = .ok n) (le : start ≤ index + 1) :
    bytes.Reaches (·.u8 index) n start (index + 1) := by
  obtain ⟨number, found, rfl⟩ := exceptMap_eq_ok_iff.mp h
  exact (reaches_number found le).map UInt8.ofNat

theorem reaches_u16 {n : UInt16} (h : bytes.u16 index = .ok n) (le : start ≤ index + 2) :
    bytes.Reaches (·.u16 index) n start (index + 2) := by
  obtain ⟨number, found, rfl⟩ := exceptMap_eq_ok_iff.mp h
  exact (reaches_number found le).map UInt16.ofNat

theorem reaches_u32 {n : UInt32} (h : bytes.u32 index = .ok n) (le : start ≤ index + 4) :
    bytes.Reaches (·.u32 index) n start (index + 4) := by
  obtain ⟨number, found, rfl⟩ := exceptMap_eq_ok_iff.mp h
  exact (reaches_number found le).map UInt32.ofNat

theorem reaches_u64 {n : UInt64} (h : bytes.u64 index = .ok n) (le : start ≤ index + 8) :
    bytes.Reaches (·.u64 index) n start (index + 8) := by
  obtain ⟨number, found, rfl⟩ := exceptMap_eq_ok_iff.mp h
  exact (reaches_number found le).map UInt64.ofNat

theorem reaches_i8 {n : Int8} (h : bytes.i8 index = .ok n) (le : start ≤ index + 1) :
    bytes.Reaches (·.i8 index) n start (index + 1) := by
  obtain ⟨number, found, rfl⟩ := exceptMap_eq_ok_iff.mp h
  exact (reaches_u8 found le).map UInt8.toInt8

theorem reaches_i16 {n : Int16} (h : bytes.i16 index = .ok n) (le : start ≤ index + 2) :
    bytes.Reaches (·.i16 index) n start (index + 2) := by
  obtain ⟨number, found, rfl⟩ := exceptMap_eq_ok_iff.mp h
  exact (reaches_u16 found le).map UInt16.toInt16

theorem reaches_i32 {n : Int32} (h : bytes.i32 index = .ok n) (le : start ≤ index + 4) :
    bytes.Reaches (·.i32 index) n start (index + 4) := by
  obtain ⟨number, found, rfl⟩ := exceptMap_eq_ok_iff.mp h
  exact (reaches_u32 found le).map UInt32.toInt32

theorem reaches_i64 {n : Int64} (h : bytes.i64 index = .ok n) (le : start ≤ index + 8) :
    bytes.Reaches (·.i64 index) n start (index + 8) := by
  obtain ⟨number, found, rfl⟩ := exceptMap_eq_ok_iff.mp h
  exact (reaches_u64 found le).map UInt64.toInt64

/-- Items of one width, each of which is read up to its end. -/
theorem reaches_readEach_go (read : Bytes → Nat → Except Error α) {stride count : Nat}
    (each : ∀ i item, read bytes i = .ok item →
      bytes.Reaches (read · i) item i (i + stride))
    {done items : List α} (h : readEach.go (read bytes) stride index count done = .ok items) :
    bytes.Reaches (fun bytes => readEach.go (read bytes) stride index count done) items index
      (index + stride * count) := by
  induction count generalizing index done with
  | zero => exact reaches_const h index
  | succ count ih =>
      have go_succ : ∀ bytes, readEach.go (read bytes) stride index (count + 1) done =
          read bytes index >>= fun item =>
            readEach.go (read bytes) stride (index + stride) count (item :: done) := by
        intro bytes
        rw [readEach.go]
        cases read bytes index <;> rfl
      simp only [go_succ] at h ⊢
      obtain ⟨item, found, h⟩ := exceptBind_eq_ok_iff.mp h
      have rest := ih h
      rw [Nat.add_assoc, Nat.add_comm stride, ← Nat.mul_succ] at rest
      exact (each index item found).bind rest

theorem reaches_readEach (read : Bytes → Nat → Except Error α) {stride count : Nat}
    (each : ∀ i item, read bytes i = .ok item →
      bytes.Reaches (read · i) item i (i + stride))
    {items : List α} (h : readEach (read bytes) stride index count = .ok items) :
    bytes.Reaches (fun bytes => readEach (read bytes) stride index count) items index
      (index + stride * count) :=
  reaches_readEach_go read each h

/-- Items that tell where they end, each of which is read up to there. -/
theorem reaches_readRun (read : Bytes → Nat → Except Error (α × Nat)) {count : Nat}
    (each : ∀ i item next, read bytes i = .ok (item, next) →
      bytes.Reaches (read · i) (item, next) i next)
    {done items : List α}
    (h : ClassFile.readRun (read bytes) index count done = .ok (items, stop)) :
    bytes.Reaches (fun bytes => ClassFile.readRun (read bytes) index count done) (items, stop) index
      stop := by
  induction count generalizing index done with
  | zero =>
      obtain ⟨-, rfl⟩ := Prod.mk.inj (Except.ok.inj h)
      exact reaches_const h index
  | succ count ih =>
      have readRun_succ : ∀ bytes, ClassFile.readRun (read bytes) index (count + 1) done =
          read bytes index >>= fun found =>
            ClassFile.readRun (read bytes) found.2 count (found.1 :: done) := by
        intro bytes
        rw [ClassFile.readRun]
        cases read bytes index <;> rfl
      simp only [readRun_succ] at h ⊢
      obtain ⟨⟨item, next⟩, found, h⟩ := exceptBind_eq_ok_iff.mp h
      exact (each index item next found).bind (ih h)

/-- The last of the ends of some ranges and of `start`. -/
def lastEnd (start : Nat) (ends : List Nat) : Nat :=
  ends.foldl max start

/-- Items that are read from places of their own. -/
theorem reaches_mapM (read : Bytes → β → Except Error α) (ends : β → α → Nat) {places : List β}
    {items : List α} (each : ∀ place ∈ places, ∀ item, read bytes place = .ok item →
      bytes.Reaches (read · place) item 0 (ends place item))
    (h : places.mapM (read bytes) = .ok items) (start : Nat) :
    bytes.Reaches (fun bytes => places.mapM (read bytes)) items start
      (lastEnd start (List.zipWith ends places items)) := by
  induction places generalizing items start with
  | nil =>
      rw [List.mapM_nil] at h
      obtain rfl := Except.ok.inj h
      exact reaches_const rfl start
  | cons place places ih =>
      simp only [List.mapM_cons] at h ⊢
      obtain ⟨item, found, h⟩ := exceptBind_eq_ok_iff.mp h
      obtain ⟨others, rest, h⟩ := exceptBind_eq_ok_iff.mp h
      obtain rfl := Except.ok.inj h
      have first := (each place List.mem_cons_self item found).behind (Nat.zero_le start)
      have others_reach := ih (fun other mem => each other (List.mem_cons_of_mem _ mem)) rest
        (max start (ends place item))
      exact first.bind (others_reach.bind (reaches_const rfl _))

end Bytes

end JavaClass
