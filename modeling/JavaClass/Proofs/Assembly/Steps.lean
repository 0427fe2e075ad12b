import JavaClass.Assembly.ClassDraft
import JavaClass.Proofs.Assembly.Cells
import JavaClass.Proofs.Event.Delivery
import JavaClass.Proofs.Listing.Basic

/-!
# Steps of a class draft

A step that succeeds only adds to the constants and to the bootstrap methods of
a draft. What the draft knows of its bootstrap methods stays true, and each of
them comes from a call site that was told.

## Implementation notes

A bootstrap method is known by a handle and literals that give its slots again
whenever they are asked for. So two bootstrap methods that come from the same
handle and the same literals are one.
-/

namespace JavaClass

open ConstantPool

/-- Asking for the handle and the literals of a call gives the slots of an entry, from this pool
on. -/
def Bootstrap.From (pool : ConstantPool) (entry : Bootstrap) (call : BootstrapCall) : Prop :=
  ∀ grown, grown.Valid → pool.Below grown →
    Request.methodHandle call.1 grown = .ok entry.method grown ∧
      Request.each Request.literal call.2 grown = .ok entry.arguments grown

theorem Bootstrap.From.mono {pool later : ConstantPool} {entry : Bootstrap} {call : BootstrapCall}
    (h : Bootstrap.From pool entry call) (below : pool.Below later) :
    Bootstrap.From later entry call :=
  fun grown valid hbelow => h grown valid (below.trans hbelow)

namespace ClassDraft

variable {α : Type} {draft draft' draft'' : ClassDraft}

theorem request_eq_ok_iff {ask : Request α} {value : α} :
    request ask draft = .ok value draft' ↔
      ∃ pool, ask draft.pool = .ok value pool ∧ draft' = { draft with pool } := by
  unfold request
  simp only
  cases ask draft.pool with
  | ok value' pool =>
      constructor
      · intro h
        cases h
        exact ⟨pool, rfl, rfl⟩
      · rintro ⟨pool', h, rfl⟩
        cases h
        rfl
  | error error pool => simp

theorem onMethod_eq_ok_iff {work : MethodDraft → α × MethodDraft} {value : α} :
    onMethod work draft = .ok value draft' ↔
      ∃ method, draft.method = some method ∧ value = (work method).1 ∧
        draft' = { draft with method := some (work method).2 } := by
  unfold onMethod
  cases hmethod : draft.method with
  | none => simp
  | some method =>
      constructor
      · intro h
        cases h
        exact ⟨method, rfl, rfl, rfl⟩
      · rintro ⟨method', h, rfl, rfl⟩
        cases h
        rfl

theorem editMethod_eq_ok_iff {edit : MethodDraft → MethodDraft} :
    editMethod edit draft = .ok () draft' ↔
      ∃ method, draft.method = some method ∧
        draft' = { draft with method := some (edit method) } := by
  rw [editMethod, onMethod_eq_ok_iff]
  simp

/-- The method is given up before it is settled. -/
theorem receive_methodEnd_eq (draft : ClassDraft) : receive .methodEnd draft =
    (match draft.method with
      | none => refuse .methodEndWithoutMethod
      | some method => do
          let method ← request method.finish
          modify fun draft => { draft with methods := draft.methods.push method } : Step Unit)
      { draft with method := none } := by
  rw [receive]
  rfl

/-- The pool is valid, and the positions of the bootstrap methods are right. -/
structure Sound (draft : ClassDraft) : Prop where
  pool : draft.pool.Valid
  found : ∀ {entry : Bootstrap} {position : UInt16}, draft.positions[entry]? = some position →
    ∃ n, draft.bootstraps.toList[n]? = some entry ∧ position = UInt16.ofNat n
  complete : ∀ entry ∈ draft.bootstraps.toList, ∃ position,
    draft.positions[entry]? = some position
  nodup : draft.bootstraps.toList.Nodup

/-- What the second draft has more than the first, after these calls were told. -/
structure Grows (draft draft' : ClassDraft) (calls : List BootstrapCall) : Prop where
  sound : draft'.Sound
  below : draft.pool.Below draft'.pool
  bootstraps : ∃ more, draft'.bootstraps.toList = draft.bootstraps.toList ++ more ∧
    ∀ entry ∈ more, ∃ call ∈ calls, entry.From draft'.pool call

theorem sound_empty : empty.Sound where
  pool := valid_empty
  found := by
    intro entry position h
    simp [empty] at h
  complete := by simp [empty]
  nodup := by simp [empty]

theorem Grows.trans {calls more : List BootstrapCall} (h : draft.Grows draft' calls)
    (h' : draft'.Grows draft'' more) : draft.Grows draft'' (calls ++ more) where
  sound := h'.sound
  below := h.below.trans h'.below
  bootstraps := by
    obtain ⟨first, hfirst, hcalls⟩ := h.bootstraps
    obtain ⟨second, hsecond, hmore⟩ := h'.bootstraps
    refine ⟨first ++ second, by rw [hsecond, hfirst, List.append_assoc], fun entry hentry => ?_⟩
    obtain hentry | hentry := List.mem_append.mp hentry
    · obtain ⟨call, hcall, hfrom⟩ := hcalls entry hentry
      exact ⟨call, List.mem_append_left _ hcall, hfrom.mono h'.below⟩
    · obtain ⟨call, hcall, hfrom⟩ := hmore entry hentry
      exact ⟨call, List.mem_append_right _ hcall, hfrom⟩

/-- A step that touches neither the pool nor the bootstrap methods. -/
theorem Sound.grows_of_same (sound : draft.Sound) (hpool : draft'.pool = draft.pool)
    (hbootstraps : draft'.bootstraps = draft.bootstraps)
    (hpositions : draft'.positions = draft.positions) : draft.Grows draft' [] where
  sound := by
    refine ⟨hpool ▸ sound.pool, ?_, ?_, hbootstraps ▸ sound.nodup⟩
    · rw [hpositions, hbootstraps]
      exact sound.found
    · rw [hpositions, hbootstraps]
      exact sound.complete
  below := hpool ▸ .refl _
  bootstraps := ⟨[], by rw [hbootstraps, List.append_nil], by simp⟩

theorem Sound.grows_request (sound : draft.Sound) {ask : Request α}
    {post : ConstantTable → α → Prop} (gives : ask.Gives post) {value : α} {pool : ConstantPool}
    (h : ask draft.pool = .ok value pool) :
    draft.Grows { draft with pool } [] ∧ (∀ table, pool.Within table → post table value) ∧
      ∀ grown, grown.Valid → pool.Below grown → ask grown = .ok value grown := by
  obtain ⟨valid, below, hpost, again⟩ := gives draft.pool value pool sound.pool h
  exact ⟨⟨⟨valid, sound.found, sound.complete, sound.nodup⟩, below, ⟨[], by simp, by simp⟩⟩,
    hpost, again⟩

/-- What a class file shows of a draft that has grown into it. -/
structure ShownIn (draft : ClassDraft) (table : ConstantTable) (bootstraps : Array Bootstrap) :
    Prop where
  pool : draft.pool.Within table
  entries : draft.bootstraps.toList <+: bootstraps.toList
  small : bootstraps.size ≤ countLimit

theorem Grows.shownIn {calls : List BootstrapCall} {table : ConstantTable}
    {bootstraps : Array Bootstrap} (h : draft.Grows draft' calls)
    (shown : draft'.ShownIn table bootstraps) : draft.ShownIn table bootstraps where
  pool := shown.pool.of_below h.below
  entries := by
    obtain ⟨more, hmore, -⟩ := h.bootstraps
    exact (hmore ▸ List.prefix_append _ _ : draft.bootstraps.toList <+: _).trans shown.entries
  small := shown.small

/-- The entry at a position of the bootstrap methods leads to a call. -/
def NamesBootstrap (call : BootstrapCall) (table : ConstantTable) (bootstraps : Array Bootstrap)
    (position : UInt16) : Prop :=
  ∃ entry, bootstraps[position.toNat]? = some entry ∧
    table.methodHandle entry.method = .ok call.1.normal ∧
      List.Forall₂ (fun (value : Literal) slot => table.literal slot = .ok value.normal) call.2
        entry.arguments

/-- Adding an entry that has no position yet. -/
theorem Sound.push (sound : draft.Sound) {entry : Bootstrap}
    (hnew : draft.positions[entry]? = none) :
    Sound { draft with
      bootstraps := draft.bootstraps.push entry
      positions := draft.positions.insert entry (UInt16.ofNat draft.bootstraps.size) } where
  pool := sound.pool
  found := by
    intro other position hfound
    rw [Std.TreeMap.getElem?_insert] at hfound
    split at hfound
    · rename_i hcompare
      obtain rfl := Std.LawfulEqCmp.eq_of_compare hcompare
      exact ⟨draft.bootstraps.size, by simp, (Option.some.inj hfound).symm⟩
    · obtain ⟨n, hn, rfl⟩ := sound.found hfound
      obtain ⟨hlt, -⟩ := List.getElem?_eq_some_iff.mp hn
      exact ⟨n, by rw [Array.toList_push, List.getElem?_append_left hlt, hn], rfl⟩
  complete := by
    intro other hmem
    by_cases hother : other = entry
    · exact ⟨UInt16.ofNat draft.bootstraps.size, by rw [hother]; simp⟩
    · rw [Array.toList_push, List.mem_append, List.mem_singleton] at hmem
      obtain ⟨position, hposition⟩ := sound.complete other (hmem.resolve_right hother)
      refine ⟨position, ?_⟩
      rw [Std.TreeMap.getElem?_insert, if_neg]
      · exact hposition
      · intro hcompare
        exact hother (Std.LawfulEqCmp.eq_of_compare hcompare).symm
  nodup := by
    have hnotMem : entry ∉ draft.bootstraps.toList := by
      intro hmem
      obtain ⟨position, hposition⟩ := sound.complete entry hmem
      rw [hnew] at hposition
      cases hposition
    rw [Array.toList_push, List.nodup_append]
    refine ⟨sound.nodup, by simp, fun a ha b hb => ?_⟩
    rw [List.mem_singleton.mp hb]
    rintro rfl
    exact hnotMem ha

/-- Looking up or adding an entry. -/
theorem Sound.place (sound : draft.Sound) {entry : Bootstrap} {position : UInt16}
    {call : BootstrapCall} (hfrom : entry.From draft.pool call)
    (h : (match draft.positions[entry]? with
      | some position => (position, draft)
      | none => (UInt16.ofNat draft.bootstraps.size, { draft with
          bootstraps := draft.bootstraps.push entry
          positions := draft.positions.insert entry
            (UInt16.ofNat draft.bootstraps.size) })) = (position, draft')) :
    draft.Grows draft' [call] ∧
      draft' = { draft with bootstraps := draft'.bootstraps, positions := draft'.positions } ∧
        ∃ n, draft'.bootstraps.toList[n]? = some entry ∧ position = UInt16.ofNat n := by
  split at h
  · rename_i found hfound
    obtain ⟨rfl, rfl⟩ := Prod.mk.inj h
    exact ⟨⟨sound, .refl _, ⟨[], by simp, by simp⟩⟩, rfl, sound.found hfound⟩
  · rename_i hnew
    obtain ⟨rfl, rfl⟩ := Prod.mk.inj h
    refine ⟨⟨sound.push hnew, .refl _, ⟨[entry], by simp, fun other hmem => ?_⟩⟩, rfl,
      draft.bootstraps.size, by simp, rfl⟩
    rw [List.mem_singleton.mp hmem]
    exact ⟨call, by simp, hfrom⟩

theorem bootstrap_eq_ok {handle : MethodHandle} {arguments : List Literal} {position : UInt16}
    (sound : draft.Sound) (h : bootstrap handle arguments draft = .ok position draft') :
    draft.Grows draft' [(handle, arguments)] ∧
      draft' = { draft with
        pool := draft'.pool, bootstraps := draft'.bootstraps, positions := draft'.positions } ∧
      ∀ table bootstraps, draft'.ShownIn table bootstraps →
        NamesBootstrap (handle, arguments) table bootstraps position := by
  unfold bootstrap at h
  obtain ⟨method, draft₁, hmethod, h⟩ := bind_eq_ok_iff.mp h
  obtain ⟨pool₁, hask₁, rfl⟩ := request_eq_ok_iff.mp hmethod
  obtain ⟨grows₁, hpost₁, again₁⟩ :=
    sound.grows_request (Request.gives_methodHandle handle) hask₁
  obtain ⟨slots, draft₂, harguments, h⟩ := bind_eq_ok_iff.mp h
  obtain ⟨pool₂, hask₂, rfl⟩ := request_eq_ok_iff.mp harguments
  obtain ⟨grows₂, hpost₂, again₂⟩ :=
    grows₁.sound.grows_request (Request.gives_each Request.gives_literal arguments) hask₂
  have hfrom : Bootstrap.From pool₂ ⟨method, slots⟩ (handle, arguments) :=
    fun grown valid below => ⟨again₁ grown valid (grows₂.below.trans below),
      again₂ grown valid below⟩
  have hplace := EStateM.Result.ok.inj h
  obtain ⟨grows₃, hsame, n, hn, rfl⟩ := grows₂.sound.place hfrom (Prod.ext hplace.1 hplace.2)
  refine ⟨(grows₁.trans grows₂).trans grows₃, ?_, fun table bootstraps shown => ?_⟩
  · rw [hsame]
  · have shown₂ := grows₃.shownIn shown
    have shown₁ := grows₂.shownIn shown₂
    obtain ⟨more, hmore⟩ := shown.entries
    obtain ⟨hlt, -⟩ := List.getElem?_eq_some_iff.mp hn
    have hentry : bootstraps.toList[n]? = some ⟨method, slots⟩ := by
      rw [← hmore, List.getElem?_append_left hlt, hn]
    have hsmall : n < 65536 := by
      obtain ⟨hlt', -⟩ := List.getElem?_eq_some_iff.mp hentry
      have hsize := shown.small
      simp only [countLimit, Array.length_toList] at hsize hlt'
      omega
    refine ⟨⟨method, slots⟩, ?_, (hpost₁ table shown₁.pool).2, hpost₂ table shown₂.pool⟩
    rw [UInt16.toNat_ofNat_of_lt' hsmall, ← Array.getElem?_toList, hentry]

end ClassDraft

end JavaClass
