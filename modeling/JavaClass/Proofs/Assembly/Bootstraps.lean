import JavaClass.Proofs.Assembly.Origins
import JavaClass.Proofs.ClassFile.Order

/-!
# Positions of bootstrap methods

A call site names its bootstrap method by a position of 16 bits, which a class
draft finds without asking whether it fits. It always does, since each bootstrap
method has a call site of its own in the pool. So in the file that is written
each call site leads to the bootstrap method that its event named, and bootstrap
methods share a position exactly if they are the same.

## Implementation notes

What is said of the file does not need its version to be one that can be read.
Handles are compared as the pool knows them, where the owner of a field counts
as a class.
-/

namespace JavaClass

open ConstantPool

section Entries

variable {pool : ConstantPool} {bootstraps : Array Bootstrap} {entry entry' : Bootstrap}
  {call call' : BootstrapCall} {calls : List BootstrapCall}

/-- The entry for a call is read as the call. -/
theorem Bootstrap.From.reads (valid : pool.Valid) (h : entry.From pool call) :
    entry.Reads ⟨pool.entries⟩ call.normal := by
  obtain ⟨hmethod, harguments⟩ := h pool valid (.refl _)
  obtain ⟨-, -, method, -⟩ := Request.gives_methodHandle call.1 pool _ _ valid hmethod
  obtain ⟨-, -, arguments, -⟩ :=
    Request.gives_each Request.gives_literal call.2 pool _ _ valid harguments
  refine ⟨(method _ valid.within_self).2, mapM_eq_ok_iff.mpr ?_⟩
  exact List.forall₂_map_right_iff.mpr (arguments _ valid.within_self).flip

theorem Bootstrap.Reads.unique {table : ConstantTable} (h : entry.Reads table call)
    (h' : entry.Reads table call') : call = call' :=
  Prod.ext (Except.ok.inj (h.method.symm.trans h'.method))
    (Except.ok.inj (h.arguments.symm.trans h'.arguments))

/-- Entries are read as the same call only if they are at the same position. -/
theorem position_eq_iff (valid : pool.Valid) (nodup : bootstraps.toList.Nodup)
    (called : ∀ entry ∈ bootstraps.toList, ∃ call ∈ calls, entry.From pool call) {i j : Nat}
    (found : bootstraps[i]? = some entry) (reads : entry.Reads ⟨pool.entries⟩ call)
    (found' : bootstraps[j]? = some entry') (reads' : entry'.Reads ⟨pool.entries⟩ call') :
    i = j ↔ call = call' := by
  constructor
  · rintro rfl
    obtain rfl := Option.some.inj (found.symm.trans found')
    exact reads.unique reads'
  · rintro rfl
    rw [← Array.getElem?_toList] at found found'
    obtain ⟨first, -, hfirst⟩ := called entry (List.mem_of_getElem? found)
    obtain ⟨second, -, hsecond⟩ := called entry' (List.mem_of_getElem? found')
    -- Both entries are for the call as the pool knows it.
    have same : first.normal = second.normal :=
      ((hfirst.reads valid).unique reads).trans (reads'.unique (hsecond.reads valid))
    have shared := Bootstrap.From.normal_iff.mpr hsecond
    rw [← same] at shared
    obtain rfl := (Bootstrap.From.normal_iff.mpr hfirst).unique valid shared
    obtain ⟨inside, -⟩ := List.getElem?_eq_some_iff.mp found
    exact (List.getElem?_inj inside nodup).mp (found.trans found'.symm)

end Entries

/-- Only events for call sites name bootstrap methods. -/
theorem Event.eq_of_mem_calls {event : Event} {call : BootstrapCall} (h : call ∈ event.calls) :
    ∃ name descriptor, event = .instruction (.invokeDynamic name descriptor call.1 call.2) := by
  cases event with
  | instruction i =>
      cases i with
      | invokeDynamic name descriptor handle arguments =>
          obtain rfl := List.mem_singleton.mp h
          exact ⟨name, descriptor, rfl⟩
      | _ => cases h
  | _ => cases h

namespace ClassDraft

variable {draft draft' : ClassDraft} {events : List Event} {name descriptor : String}
  {call : BootstrapCall} {position : UInt16}

theorem NamesBootstrap.exists_reads {table : ConstantTable} {bootstraps : Array Bootstrap}
    (names : NamesBootstrap call table bootstraps position) :
    ∃ entry, bootstraps[position.toNat]? = some entry ∧ entry.Reads table call.normal := by
  obtain ⟨entry, found, method, arguments⟩ := names
  exact ⟨entry, found, method, mapM_eq_ok_iff.mpr (List.forall₂_map_right_iff.mpr arguments.flip)⟩

/-- Each bootstrap method has a call site in the pool. -/
def Sited (draft : ClassDraft) : Prop :=
  ∀ position < draft.bootstraps.size, ∃ slot inner,
    (slot, Constant.invokeDynamic (UInt16.ofNat position) inner) ∈
      draft.pool.entries.entries.toList

theorem sited_empty : empty.Sited :=
  fun _ h => absurd h (Nat.not_lt_zero _)

theorem length_entries_le {pool : ConstantPool} (valid : pool.Valid) :
    pool.entries.entries.toList.length ≤ countLimit := by
  obtain ⟨ordered, inside⟩ := valid.strict
  have starts : (pool.entries.entries.toList.map (·.1)).Nodup :=
    (ordered.imp Nat.ne_of_lt).map _ fun _ _ => id
  have subset : pool.entries.entries.toList.map (·.1) ⊆ List.range pool.entries.next := by
    intro start mem
    obtain ⟨entry, hentry, rfl⟩ := List.mem_map.mp mem
    exact List.mem_range.mpr (inside entry hentry).2
  have le := (List.subperm_of_subset starts subset).length_le
  rw [List.length_map, List.length_range] at le
  exact le.trans valid.next_le

/-- There are no more bootstrap methods than constants. -/
theorem Sited.size_le (sited : draft.Sited) (valid : draft.pool.Valid)
    (small : draft.bootstraps.size ≤ countLimit + 1) : draft.bootstraps.size ≤ countLimit := by
  have counted : ((List.range draft.bootstraps.size).map fun _ => 1).sum ≤
      (draft.pool.entries.entries.toList.map fun _ => 1).sum := by
    apply sum_le_of_matched (r := fun position entry => position < 65536 ∧ ∃ inner,
      entry.2 = Constant.invokeDynamic (UInt16.ofNat position) inner) List.nodup_range
    · intro position mem
      have inside := List.mem_range.mp mem
      obtain ⟨slot, inner, found⟩ := sited position inside
      exact ⟨_, found, Nat.lt_of_lt_of_le inside small, inner, rfl⟩
    · rintro i j entry ⟨hi, inner, hentry⟩ ⟨hj, inner', hentry'⟩
      have same := (Constant.invokeDynamic.inj (hentry.symm.trans hentry')).1
      rw [← UInt16.toNat_ofNat_of_lt' hi, same, UInt16.toNat_ofNat_of_lt' hj]
    · exact fun _ _ _ => rfl
  simp only [List.map_const', List.sum_replicate_nat, List.length_range, Nat.mul_one] at counted
  exact counted.trans (length_entries_le valid)

/-- A call adds one bootstrap method at most, at the position that it gives. -/
theorem bootstraps_bootstrap {handle : MethodHandle} {arguments : List Literal}
    (h : bootstrap handle arguments draft = .ok position draft') :
    draft'.bootstraps = draft.bootstraps ∨ position = UInt16.ofNat draft.bootstraps.size ∧
      draft'.bootstraps.size = draft.bootstraps.size + 1 := by
  unfold bootstrap at h
  obtain ⟨method, draft₁, hmethod, h⟩ := bind_eq_ok_iff.mp h
  obtain ⟨pool₁, -, rfl⟩ := request_eq_ok_iff.mp hmethod
  obtain ⟨slots, draft₂, harguments, h⟩ := bind_eq_ok_iff.mp h
  obtain ⟨pool₂, -, rfl⟩ := request_eq_ok_iff.mp harguments
  obtain ⟨hposition, rfl⟩ := EStateM.Result.ok.inj h
  split
  · exact .inl rfl
  · rename_i hnew
    refine .inr ⟨?_, Array.size_push _⟩
    rw [← hposition]
    split
    · rename_i hfound
      rw [hnew] at hfound
      cases hfound
    · rfl

/-- A call that is taken yields its call site in the pool. -/
theorem exists_site (sound : draft.Sound) (h : (do
      emit .invokeDynamic
        (BigEndian.u16 (← request (.callSite position name descriptor)) ++ [0, 0]) : Step Unit)
      draft = .ok () draft') :
    draft'.bootstraps = draft.bootstraps ∧
      ∃ slot, ∀ table, draft'.pool.Within table →
        (ConstantTree.callSite position name descriptor).Shown table slot := by
  obtain ⟨slot, mid, hrequest, hemit⟩ := bind_eq_ok_iff.mp h
  obtain ⟨pool, hask, rfl⟩ := request_eq_ok_iff.mp hrequest
  obtain ⟨method, -, rfl⟩ := editMethod_eq_ok_iff.mp hemit
  obtain ⟨-, -, shown, -⟩ :=
    (ConstantTree.callSite position name descriptor).gives_request draft.pool slot pool sound.pool
      hask
  exact ⟨rfl, slot, fun table within => (shown table within).2⟩

theorem Grows.bootstraps_eq (grows : draft.Grows draft' []) :
    draft'.bootstraps = draft.bootstraps := by
  obtain ⟨more, hmore, called⟩ := grows.bootstraps
  obtain rfl : more = [] := List.eq_nil_iff_forall_not_mem.mpr fun entry mem => by
    obtain ⟨call, hcall, -⟩ := called entry mem
    cases hcall
  rw [List.append_nil] at hmore
  exact Array.toList_inj.mp hmore

theorem Sited.grows (sited : draft.Sited) (grows : draft.Grows draft' []) : draft'.Sited := by
  intro position inside
  rw [grows.bootstraps_eq] at inside
  obtain ⟨slot, inner, found⟩ := sited position inside
  exact ⟨slot, inner, grows.below found⟩

/-- An event adds one bootstrap method at most, with a call site. -/
theorem Sited.receive (sited : draft.Sited) (sound : draft.Sound) {event : Event}
    (inner : event ≠ .classEnd) (h : ClassDraft.receive event draft = .ok () draft') :
    draft'.Sited ∧ draft'.bootstraps.size ≤ draft.bootstraps.size + 1 := by
  have continued := continued_receive sound inner h
  by_cases hcalls : event.calls = []
  · have grows := continued.toGrows
    rw [hcalls] at grows
    rw [grows.bootstraps_eq]
    exact ⟨sited.grows grows, Nat.le_succ _⟩
  obtain ⟨i, rfl⟩ : ∃ i, event = .instruction i := by
    cases event with
    | instruction i => exact ⟨i, rfl⟩
    | _ => exact absurd rfl hcalls
  cases i with
  | invokeDynamic name descriptor handle arguments =>
      obtain ⟨position, mid, hbootstrap, hsite⟩ := bind_eq_ok_iff.mp h
      obtain ⟨grows, -⟩ := bootstrap_eq_ok sound hbootstrap
      have grows' := (confined_site position name descriptor).grows grows.sound hsite
      obtain ⟨same, slot, shown⟩ := exists_site grows.sound hsite
      obtain ⟨inside, whole, -⟩ := shown _ continued.sound.pool.within_self
      have below := grows.below.trans grows'.below
      rw [Sited, same]
      obtain old | ⟨rfl, size⟩ := bootstraps_bootstrap hbootstrap
      · rw [old]
        refine ⟨fun position hposition => ?_, Nat.le_succ _⟩
        obtain ⟨slot, inner, found⟩ := sited position hposition
        exact ⟨slot, inner, below found⟩
      · rw [size]
        refine ⟨fun position hposition => ?_, Nat.le_refl _⟩
        obtain hposition | rfl := Nat.lt_succ_iff_lt_or_eq.mp hposition
        · obtain ⟨slot, inner, found⟩ := sited position hposition
          exact ⟨slot, inner, below found⟩
        · exact ⟨_, inside, SlotVector.mem_of_get? (ConstantTable.get_eq_ok_iff.mp whole)⟩
  | _ => exact absurd rfl hcalls

/-- However many events are taken, the positions of the bootstrap methods fit into 16 bits. -/
theorem sited_of_takes (sited : draft.Sited) (sound : draft.Sound)
    (small : draft.bootstraps.size ≤ countLimit) (inner : .classEnd ∉ events)
    (h : Receiver.Takes ClassDraft.receive events draft draft') :
    draft'.Sited ∧ draft'.bootstraps.size ≤ countLimit := by
  induction events generalizing draft with
  | nil =>
      cases h
      exact ⟨sited, small⟩
  | cons event events ih =>
      obtain ⟨mid, hfirst, hrest⟩ := Receiver.takes_cons_iff.mp h
      have innerFirst : event ≠ .classEnd := (List.ne_of_not_mem_cons inner).symm
      have soundMid := (continued_receive sound innerFirst hfirst).sound
      obtain ⟨sitedMid, size⟩ := sited.receive sound innerFirst hfirst
      have smallMid := sitedMid.size_le soundMid.pool (size.trans (Nat.succ_le_succ small))
      exact ih sitedMid soundMid smallMid (List.not_mem_of_not_mem_cons inner) hrest

theorem legible_empty (table : ConstantTable) : empty.Legible table where
  header := nofun
  source := ⟨none, rfl⟩
  field := nofun
  fields := nofun
  methods := nofun
  exceptions := nofun

/-- A draft that took these events was written as a file with these extents, after names of tables
were added to its pool. -/
structure Yields (draft : ClassDraft) (events : List Event) (entries : List EncodedAttribute)
    (pool : ConstantPool) (file : ClassFile) (extents : ClassLayout) : Prop where
  inner : .classEnd ∉ events
  takes : Receiver.Takes receive events empty draft
  gains : draft.pool.Gains (tableNames entries) pool
  shown : draft.ShownIn ⟨pool.entries⟩ draft.bootstraps
  constants : file.constants = ⟨pool.entries⟩
  layout : file.extents = .ok extents
  bootstraps : file.bootstraps extents.attributes = draft.bootstraps
  tables : ∀ a ∈ entries, ∃ range ∈ extents.attributes, range.name = "BootstrapMethods"

/-- Whatever events led to the end of a class, the file that it gives is read up to its bootstrap
table, which holds the bootstrap methods that the draft listed. -/
theorem exists_file_of_takes (inner : .classEnd ∉ events)
    (h : Receiver.Takes receive (events ++ [.classEnd]) empty draft') :
    ∃ (draft : ClassDraft) (entries : List EncodedAttribute) (pool : ConstantPool)
      (file : ClassFile) (extents : ClassLayout) (content : List UInt8),
      draft'.bytes = .ok content ∧ ClassFile.Opens file content.toArray ∧
      draft.Yields events entries pool file extents := by
  obtain ⟨draft, hevents, hend⟩ := Receiver.takes_append_iff.mp h
  obtain ⟨draft₁, hend, hnil⟩ := Receiver.takes_cons_iff.mp hend
  cases hnil
  have continued := continued_of_takes sound_empty inner hevents
  obtain ⟨header, pool, entries, content, hheader, hbytes, gains, hencode, hshown⟩ :=
    exists_of_finish continued.sound.pool hend
  have within := gains.valid.within_self
  have shown := hshown _ within
  have withinDraft := within.of_below gains.below
  have legible := continued.legible _ withinDraft (legible_empty _)
  obtain ⟨story, headerShown⟩ := legible.header header hheader
  obtain ⟨source, sourceShown⟩ := legible.source
  obtain ⟨file, opens, parts⟩ :=
    ClassParts.opens gains.valid.writable hencode (Bytes.holds_all content)
  have same : file.constants = ⟨pool.entries⟩ := parts.constants
  have small := shown.size_le
  rw [← same] at legible headerShown sourceShown shown
  obtain ⟨extents, hlayout, -, -, hstarts⟩ :=
    parts.exists_layout legible.fields legible.methods (R := EncodedAttribute.Starts file)
      fun h holds => ClassFile.exists_readAttributes sourceShown.readable
        (fun a mem => ⟨_, shown.named.2 a mem⟩) shown.named.1 h holds
  obtain ⟨first, second, hranges, hfirst, hsecond⟩ := forall₂_append_left hstarts
  refine ⟨draft, entries, pool, file, extents, content, hbytes, opens, ?_⟩
  constructor
  case inner => exact inner
  case takes => exact hevents
  case gains => exact gains
  case shown => exact ⟨withinDraft, List.prefix_rfl, small⟩
  case constants => exact same
  case layout =>
    have read := parts.header_eq headerShown
    rw [headerShown.interfaces.length_eq] at read
    simp only [ClassFile.extents, read, bind, Except.bind, hlayout]
  case bootstraps =>
    rw [hranges]
    exact (shown.tells hsecond).2 first (sourceShown.tells hfirst).2
  case tables =>
    intro a mem
    obtain ⟨range, hrange, starts⟩ := exists_right hsecond mem
    rw [hranges]
    exact ⟨range, List.mem_append_right _ hrange, starts.name_eq (shown.named.2 a mem)⟩

section Yields

variable {entries : List EncodedAttribute} {pool : ConstantPool} {file : ClassFile}
  {extents : ClassLayout} {call' : BootstrapCall} {position' : UInt16}

/-- Each bootstrap method was listed for a call. -/
theorem Yields.called (h : draft.Yields events entries pool file extents) {entry : Bootstrap}
    (mem : entry ∈ draft.bootstraps.toList) :
    ∃ call ∈ events.flatMap Event.calls, entry.From pool call := by
  obtain ⟨more, hmore, called⟩ := (continued_of_takes sound_empty h.inner h.takes).bootstraps
  rw [hmore] at mem
  obtain ⟨call, hcall, hfrom⟩ := called entry mem
  exact ⟨call, hcall, hfrom.mono h.gains.below⟩

/-- A bootstrap method that is named by calls has one position. -/
theorem Yields.position_eq_iff (h : draft.Yields events entries pool file extents)
    (names : NamesBootstrap call ⟨pool.entries⟩ draft.bootstraps position)
    (names' : NamesBootstrap call' ⟨pool.entries⟩ draft.bootstraps position') :
    position = position' ↔ call.normal = call'.normal := by
  obtain ⟨entry, found, reads⟩ := names.exists_reads
  obtain ⟨entry', found', reads'⟩ := names'.exists_reads
  have nodup := (continued_of_takes sound_empty h.inner h.takes).sound.nodup
  rw [← UInt16.toNat_inj]
  exact JavaClass.position_eq_iff h.gains.valid nodup (fun _ => h.called) found reads found' reads'

end Yields

/-- One of the events is for a call site, and this is the position that its bootstrap method gets
from a draft which took the events before it. -/
def Positions (events : List Event) (site : ConstantTable.CallSite) (call : BootstrapCall) : Prop :=
  ∃ before after mid mid',
    events = before ++
      .instruction (.invokeDynamic site.name site.descriptor call.1 call.2) :: after ∧
    Receiver.Takes receive before empty mid ∧
      bootstrap call.1 call.2 mid = .ok site.bootstrap mid'

/-- The bootstrap table of a class file, its call sites and the events that led to it agree. -/
structure Tabulates (events : List Event) (constants : ConstantTable)
    (entries : Array Bootstrap) : Prop where
  small : entries.size ≤ countLimit
  /-- Each event for a call site has a position. -/
  placed : ∀ name descriptor handle arguments,
    .instruction (.invokeDynamic name descriptor handle arguments) ∈ events →
      ∃ position, Positions events ⟨position, name, descriptor⟩ (handle, arguments)
  /-- The entry at the position is read as what the event named. -/
  entry : ∀ site call, Positions events site call →
    ∃ entry, entries[site.bootstrap.toNat]? = some entry ∧ entry.Reads constants call.normal
  /-- The call site was written with the position. -/
  site : ∀ site call, Positions events site call → ∃ slot, constants.callSite slot = .ok site
  /-- No other call sites were written. -/
  written : ∀ slot position inner, constants.get slot = .ok (.invokeDynamic position inner) →
    ∃ site call, Positions events site call ∧ constants.callSite slot = .ok site ∧
      site.bootstrap = position
  /-- Equal bootstrap methods share a position, and different ones do not. -/
  shared : ∀ site call site' call', Positions events site call → Positions events site' call' →
    (site.bootstrap = site'.bootstrap ↔ call.normal = call'.normal)
  /-- No entry is there for nothing. -/
  used : ∀ position < entries.size, ∃ site call, Positions events site call ∧
    site.bootstrap.toNat = position

theorem exists_positions (h : Receiver.Takes receive events empty draft)
    {handle : MethodHandle} {arguments : List Literal}
    (mem : .instruction (.invokeDynamic name descriptor handle arguments) ∈ events) :
    ∃ position, Positions events ⟨position, name, descriptor⟩ (handle, arguments) := by
  obtain ⟨before, after, rfl⟩ := List.mem_iff_append.mp mem
  obtain ⟨mid, hbefore, hrest⟩ := Receiver.takes_append_iff.mp h
  obtain ⟨next, hcall, -⟩ := Receiver.takes_cons_iff.mp hrest
  obtain ⟨position, mid', hbootstrap, -⟩ := bind_eq_ok_iff.mp hcall
  exact ⟨position, before, after, mid, mid', rfl, hbefore, hbootstrap⟩

/-- A position leads to what the event named, and the call site is in the pool. -/
theorem Positions.named {site : ConstantTable.CallSite} (positions : Positions events site call)
    (inner : .classEnd ∉ events) (h : Receiver.Takes receive events empty draft)
    {table : ConstantTable} {bootstraps : Array Bootstrap}
    (shown : draft.ShownIn table bootstraps) :
    NamesBootstrap call table bootstraps site.bootstrap ∧
      ∃ slot, table.callSite slot = .ok site := by
  obtain ⟨before, after, mid, mid', rfl, hbefore, hbootstrap⟩ := positions
  obtain ⟨innerBefore, innerAfter⟩ := not_or.mp (List.mem_append.not.mp inner)
  obtain ⟨found, hfound, hrest⟩ := Receiver.takes_append_iff.mp h
  obtain rfl := hfound.unique hbefore
  obtain ⟨next, hcall, hafter⟩ := Receiver.takes_cons_iff.mp hrest
  obtain ⟨position, found, hposition, hsite⟩ := bind_eq_ok_iff.mp hcall
  obtain ⟨rfl, rfl⟩ := EStateM.Result.ok.inj (hposition.symm.trans hbootstrap)
  have sound := (continued_of_takes sound_empty innerBefore hbefore).sound
  obtain ⟨grows, -, names⟩ := bootstrap_eq_ok sound hbootstrap
  have siteGrows := (confined_site _ site.name site.descriptor).grows grows.sound hsite
  have rest := continued_of_takes siteGrows.sound (List.not_mem_of_not_mem_cons innerAfter) hafter
  have shownNext := rest.shownIn shown
  obtain ⟨-, slot, siteShown⟩ := exists_site grows.sound hsite
  exact ⟨names table bootstraps (siteGrows.shownIn shownNext), slot,
    ConstantTree.shown_callSite_iff.mp (siteShown table shownNext.pool)⟩

/-- Whatever events a class draft takes up to the end of a class, the positions of its bootstrap
methods are numbers of 16 bits at all times, and the file that it gives agrees with the events on
which bootstrap method each call site has. -/
theorem bootstraps_positioned (inner : .classEnd ∉ events)
    (h : Receiver.Takes receive (events ++ [.classEnd]) empty draft) :
    (∀ before after mid, events = before ++ after → Receiver.Takes receive before empty mid →
      mid.bootstraps.size ≤ countLimit ∧
        (UInt16.ofNat mid.bootstraps.size).toNat = mid.bootstraps.size) ∧
    ∃ content file extents, draft.bytes = .ok content ∧ ClassFile.Opens file content.toArray ∧
      file.extents = .ok extents ∧
      Tabulates events file.constants (file.bootstraps extents.attributes) := by
  constructor
  · rintro before after mid rfl hbefore
    obtain ⟨-, small⟩ := sited_of_takes sited_empty sound_empty (Nat.zero_le _)
      (not_or.mp (List.mem_append.not.mp inner)).1 hbefore
    exact ⟨small, UInt16.toNat_ofNat_of_lt' (Nat.lt_succ_of_le small)⟩
  obtain ⟨last, names, pool, file, extents, content, hbytes, opens, yields⟩ :=
    exists_file_of_takes inner h
  refine ⟨content, file, extents, hbytes, opens, yields.layout, ?_⟩
  rw [yields.constants, yields.bootstraps]
  have named {site call} (positions : Positions events site call) :
      NamesBootstrap call ⟨pool.entries⟩ last.bootstraps site.bootstrap :=
    (positions.named inner yields.takes yields.shown).1
  constructor
  case small => exact yields.shown.small
  case placed => exact fun _ _ _ _ mem => exists_positions yields.takes mem
  case entry => exact fun _ _ positions => (named positions).exists_reads
  case site => exact fun _ _ positions => (positions.named inner yields.takes yields.shown).2
  case shared =>
    exact fun _ _ _ _ first second => yields.position_eq_iff (named first) (named second)
  case used =>
    intro position inside
    have found := Array.getElem?_eq_getElem inside
    obtain ⟨⟨handle, arguments⟩, hcall, hfrom⟩ := yields.called (Array.getElem_mem_toList inside)
    obtain ⟨event, hevent, hcall⟩ := List.mem_flatMap.mp hcall
    obtain ⟨name, descriptor, rfl⟩ := Event.eq_of_mem_calls hcall
    obtain ⟨placed, positions⟩ := exists_positions yields.takes hevent
    obtain ⟨entry', found', hreads'⟩ := (named positions).exists_reads
    have nodup := (continued_of_takes sound_empty inner yields.takes).sound.nodup
    exact ⟨_, _, positions, ((position_eq_iff yields.gains.valid nodup (fun _ => yields.called)
      found (hfrom.reads yields.gains.valid) found' hreads').mpr rfl).symm⟩
  case written =>
    intro slot position part whole
    obtain accounts | ⟨-, -, text⟩ :=
      (accounted_empty.takes inner yields.takes).of_gains yields.gains yields.shown whole
    · obtain ⟨event, hevent, tree, needs, other, mem, stands⟩ := accounts
      obtain ⟨a, b, hroot⟩ := stands.get
      replace hroot := (Except.ok.inj (whole.symm.trans hroot)).symm
      obtain rfl := needs.ofClass.eq_of_callSite mem hroot
      obtain ⟨name, descriptor, handle, arguments, rfl, rfl, names⟩ := needs.exists_call hroot
      obtain ⟨found, positions⟩ := exists_positions yields.takes hevent
      obtain rfl := (yields.position_eq_iff names (named positions)).mpr rfl
      exact ⟨_, _, positions, ConstantTree.shown_callSite_iff.mp stands, rfl⟩
    · cases (whole.symm.trans text)

/-- Three call sites whose handles name a field, with and without saying that its owner is an
interface. -/
def fieldCalls : List Event :=
  [.header ⟨52, 0⟩ (.ofBits _ 0x21) "A" none [], .method (.ofBits _ 9) "m" "()V" [],
    .instruction (.invokeDynamic "a" "()V" ⟨.getStatic, "B", "f", "I", true⟩ [.int 1]),
    .instruction (.invokeDynamic "b" "()V" ⟨.getStatic, "B", "f", "I", false⟩ [.int 1]),
    .instruction (.invokeDynamic "b" "()V" ⟨.getStatic, "B", "f", "I", false⟩ [.int 2]),
    .maxs 0 0, .methodEnd]

theorem bootstraps_positioned_fieldCalls : ∃ draft content file extents,
    Receiver.Takes receive (fieldCalls ++ [.classEnd]) empty draft ∧ draft.bytes = .ok content ∧
    ClassFile.Opens file content.toArray ∧ file.extents = .ok extents ∧
    Tabulates fieldCalls file.constants (file.bootstraps extents.attributes) ∧
    ∃ a b c,
      Positions fieldCalls ⟨a, "a", "()V"⟩ (⟨.getStatic, "B", "f", "I", true⟩, [.int 1]) ∧
      Positions fieldCalls ⟨b, "b", "()V"⟩ (⟨.getStatic, "B", "f", "I", false⟩, [.int 1]) ∧
      Positions fieldCalls ⟨c, "b", "()V"⟩ (⟨.getStatic, "B", "f", "I", false⟩, [.int 2]) ∧
      a = b ∧ b ≠ c := by
  have accepted : accepts (Receiver.deliverFrom receive none (fieldCalls ++ [.classEnd]) empty) =
      true := by decide +kernel
  have takes := Receiver.deliverFrom_eq_ok_iff.mp (eq_ok_of_accepts accepted)
  obtain ⟨-, content, file, extents, hbytes, opens, hextents, tabulates⟩ :=
    bootstraps_positioned (by simp [fieldCalls]) takes
  obtain ⟨a, ha⟩ := tabulates.placed "a" "()V" ⟨.getStatic, "B", "f", "I", true⟩ [.int 1]
    (by simp [fieldCalls])
  obtain ⟨b, hb⟩ := tabulates.placed "b" "()V" ⟨.getStatic, "B", "f", "I", false⟩ [.int 1]
    (by simp [fieldCalls])
  obtain ⟨c, hc⟩ := tabulates.placed "b" "()V" ⟨.getStatic, "B", "f", "I", false⟩ [.int 2]
    (by simp [fieldCalls])
  refine ⟨_, content, file, extents, takes, hbytes, opens, hextents, tabulates, a, b, c, ha, hb, hc,
    (tabulates.shared _ _ _ _ ha hb).mpr (by decide), fun same => ?_⟩
  exact absurd ((tabulates.shared _ _ _ _ hb hc).mp same) (by decide)

end ClassDraft

end JavaClass
