import JavaClass.Proofs.Assembly.Reading

/-!
# Fields and methods of a class draft

The events of a field, and those of a method, add one member to the draft. In
every table that has the constants of the draft this member shows what was
told.
-/

namespace JavaClass

open BigEndian ConstantPool

/-- The attributes of a field whose value is told. -/
def ValueShown (table : ConstantTable) (value : Option Literal)
    (attributes : List EncodedAttribute) : Prop :=
  match value with
  | none => attributes = []
  | some value => ∃ a slot, attributes = [a] ∧ table.text a.name = .ok "ConstantValue" ∧
      a.contents = u16 slot ∧ table.literal slot = .ok value.normal

/-- A member was settled for a field. -/
structure FieldShown (table : ConstantTable) (field : FieldDef) (part : EncodedMember) : Prop where
  flags : part.flags = field.flags.bits
  name : table.text part.name = .ok field.name
  descriptor : table.text part.descriptor = .ok field.descriptor
  value : ValueShown table field.value part.attributes

/-- The attributes of a method for what it declares. -/
def ExceptionsShown (table : ConstantTable) (exceptions : List String)
    (attributes : List EncodedAttribute) : Prop :=
  (exceptions = [] ∧ attributes = []) ∨
    ∃ a slots, attributes = [a] ∧ table.text a.name = .ok "Exceptions" ∧
      encodeSlots slots = .ok a.contents ∧
        List.Forall₂ (fun name slot => table.className slot = .ok name) exceptions slots

/-- The attributes of a method for its code. -/
def CodeShown (table : ConstantTable) (bootstraps : Array Bootstrap)
    (code : Option (Listing LabelToken)) (attributes : List EncodedAttribute) : Prop :=
  match code with
  | none => attributes = []
  | some listing => ∃ a, attributes = [a] ∧ a.Readable table ∧ table.text a.name = .ok "Code" ∧
      listing.Placed ∧ ∀ (file : ClassFile) range, file.constants = table → a.At file range →
        ∃ body, file.readBody range = .ok body ∧
          body.Shows table bootstraps listing.outline.normal ∧
          List.Forall₂ ((file.window range body.length).Spelled bootstraps)
            (listing.instructions.filter (!·.isPseudo)) body.instructions

/-- A member was settled for a method. -/
structure MethodShown (table : ConstantTable) (bootstraps : Array Bootstrap)
    (story : MethodStory) (part : EncodedMember) : Prop where
  flags : part.flags = story.flags.bits
  name : table.text part.name = .ok story.name
  descriptor : table.text part.descriptor = .ok story.descriptor
  attributes : ∃ code exceptions, part.attributes = code ++ exceptions ∧
    CodeShown table bootstraps story.code code ∧
      ExceptionsShown table story.exceptions exceptions

namespace ClassDraft

variable {draft draft' : ClassDraft}

/-- A request in a run of steps, and what is known of its result from then on. -/
theorem request_bind_eq_ok {α β : Type} {ask : Request α} {next : α → Step β} {b : β}
    {post : ConstantTable → α → Prop} (sound : draft.Sound) (gives : ask.Gives post)
    (h : (request ask >>= next) draft = .ok b draft') :
    ∃ value pool, draft.Grows { draft with pool } [] ∧
      (∀ table, pool.Within table → post table value) ∧
        next value { draft with pool } = .ok b draft' := by
  obtain ⟨value, draft₁, hrequest, h⟩ := bind_eq_ok_iff.mp h
  obtain ⟨pool, hask, rfl⟩ := request_eq_ok_iff.mp hrequest
  obtain ⟨grows, hpost, -⟩ := sound.grows_request gives hask
  exact ⟨value, pool, grows, hpost, h⟩

theorem receive_field (sound : draft.Sound) {field : FieldDef}
    (h : receive (.field field.flags field.name field.descriptor field.value) draft =
      .ok () draft') :
    ∃ pool part, draft.Grows { draft with pool } [] ∧
      draft' = { draft with pool, field := some part } ∧
      ∀ table, pool.Within table → FieldShown table field part := by
  simp only [receive] at h
  obtain ⟨name, pool₁, grows₁, hname, h⟩ := request_bind_eq_ok sound (Request.gives_text _) h
  obtain ⟨descriptor, pool₂, grows₂, hdescriptor, h⟩ :=
    request_bind_eq_ok grows₁.sound (Request.gives_text _) h
  cases hvalue : field.value with
  | none =>
      rw [hvalue] at h
      cases h
      refine ⟨pool₂, _, grows₁.trans grows₂, rfl, fun table within => ⟨rfl, ?_, ?_, ?_⟩⟩
      · exact (hname table (within.of_below grows₂.below)).2
      · exact (hdescriptor table within).2
      · rw [hvalue]
        rfl
  | some value =>
      rw [hvalue] at h
      obtain ⟨slot, pool₃, grows₃, hslot, h⟩ :=
        request_bind_eq_ok grows₂.sound (Request.gives_literal value) h
      obtain ⟨a, pool₄, grows₄, ha, h⟩ :=
        request_bind_eq_ok grows₃.sound (Request.gives_named "ConstantValue" (.ok (u16 slot))) h
      cases h
      have below₃ := grows₄.below
      have below₂ := grows₃.below.trans below₃
      refine ⟨pool₄, _, (grows₁.trans grows₂).trans (grows₃.trans grows₄), rfl,
        fun table within => ⟨rfl, ?_, ?_, ?_⟩⟩
      · exact (hname table (within.of_below (grows₂.below.trans below₂))).2
      · exact (hdescriptor table (within.of_below below₂)).2
      · rw [hvalue]
        exact ⟨a, slot, rfl, (ha table within).1, (Except.ok.inj (ha table within).2).symm,
          hslot table (within.of_below below₃)⟩

/-- The events of a field add a member that shows it. -/
theorem takes_field (sound : draft.Sound) {field : FieldDef}
    (h : Receiver.Takes receive field.events draft draft') :
    ∃ pool part, draft.Grows draft' [] ∧
      draft' = { draft with pool, fields := draft.fields.push part, field := none } ∧
      ∀ table, pool.Within table → FieldShown table field part := by
  obtain ⟨draft₁, hfirst, hrest⟩ := Receiver.takes_cons_iff.mp h
  obtain ⟨draft₂, hsecond, hrest⟩ := Receiver.takes_cons_iff.mp hrest
  cases hrest
  obtain ⟨pool, part, grows, rfl, hshown⟩ := receive_field sound hfirst
  cases hsecond
  exact ⟨pool, part, grows.trans (grows.sound.grows_of_same rfl rfl rfl), rfl, hshown⟩

theorem receive_method (sound : draft.Sound) {story : MethodStory}
    (h : receive (.method story.flags story.name story.descriptor story.exceptions) draft =
      .ok () draft') :
    ∃ pool name descriptor exceptions, draft.Grows draft' [] ∧
      draft' = { draft with
        pool, method := some (.start story.flags name descriptor exceptions) } ∧
      ∀ table, pool.Within table → table.text name = .ok story.name ∧
        table.text descriptor = .ok story.descriptor ∧
          ExceptionsShown table story.exceptions exceptions.toList := by
  simp only [receive] at h
  obtain ⟨name, pool₁, grows₁, hname, h⟩ := request_bind_eq_ok sound (Request.gives_text _) h
  obtain ⟨descriptor, pool₂, grows₂, hdescriptor, h⟩ :=
    request_bind_eq_ok grows₁.sound (Request.gives_text _) h
  by_cases hempty : story.exceptions.isEmpty = true
  · rw [if_pos hempty] at h
    cases h
    refine ⟨pool₂, name, descriptor, none,
      (grows₁.trans grows₂).trans (grows₂.sound.grows_of_same rfl rfl rfl), rfl,
      fun table within => ?_⟩
    exact ⟨(hname table (within.of_below grows₂.below)).2, (hdescriptor table within).2,
      .inl ⟨List.isEmpty_iff.mp hempty, rfl⟩⟩
  · rw [if_neg hempty] at h
    obtain ⟨slots, pool₃, grows₃, hslots, h⟩ := request_bind_eq_ok grows₂.sound
      (Request.gives_each Request.gives_classNamed story.exceptions) h
    obtain ⟨a, pool₄, grows₄, ha, h⟩ :=
      request_bind_eq_ok grows₃.sound (Request.gives_named "Exceptions" (encodeSlots slots)) h
    cases h
    have below₃ := grows₄.below
    have below₂ := grows₃.below.trans below₃
    have grows := (grows₁.trans grows₂).trans (grows₃.trans grows₄)
    refine ⟨pool₄, name, descriptor, some a,
      grows.trans (grows₄.sound.grows_of_same rfl rfl rfl), rfl, fun table within => ⟨?_, ?_,
        .inr ⟨a, slots, rfl, (ha table within).1, (ha table within).2, ?_⟩⟩⟩
    · exact (hname table (within.of_below (grows₂.below.trans below₂))).2
    · exact (hdescriptor table (within.of_below below₂)).2
    · exact (hslots table (within.of_below below₃)).imp fun _ _ hslot => hslot.2

theorem takes_blocks {blocks : List (TryBlock LabelToken)} {method : MethodDraft}
    (sound : draft.Sound) (hmethod : draft.method = some method)
    (h : Receiver.Takes receive (blocks.map .tryBlock) draft draft') :
    ∃ pool method' entries, draft.Grows draft' [] ∧
      draft' = { draft with pool, method := some method' } ∧
      method' = { method with hasCode := method'.hasCode, handlers := method'.handlers } ∧
      method'.handlers.toList = method.handlers.toList ++ entries ∧
      ∀ table, pool.Within table → List.Forall₂ (DraftHandler.Settles table) blocks entries := by
  induction blocks generalizing draft method with
  | nil =>
      cases h
      exact ⟨draft'.pool, method, [], sound.grows_of_same rfl rfl rfl, by rw [← hmethod], rfl,
        by simp, fun _ _ => .nil⟩
  | cons block rest ih =>
      obtain ⟨draft₁, hfirst, hrest⟩ := Receiver.takes_cons_iff.mp h
      simp only [receive] at hfirst
      obtain ⟨slot, pool, grows, hslot, hfirst⟩ :=
        request_bind_eq_ok sound (Request.gives_optionalClass block.exception) hfirst
      obtain ⟨found, hfound, rfl⟩ := editMethod_eq_ok_iff.mp hfirst
      obtain rfl : method = found := Option.some.inj (hmethod.symm.trans hfound)
      have grows₁ : draft.Grows { draft with
          pool, method := some { method with
            hasCode := true
            handlers := method.handlers.push ⟨block.start, block.stop, block.handler, slot⟩ } }
          [] := grows.trans (grows.sound.grows_of_same rfl rfl rfl)
      obtain ⟨pool', method', entries, grows₂, rfl, hsame, hhandlers, hsettles⟩ :=
        ih grows₁.sound rfl hrest
      refine ⟨pool', method', ⟨block.start, block.stop, block.handler, slot⟩ :: entries,
        grows₁.trans grows₂, rfl, by rw [hsame], by rw [hhandlers]; simp,
        fun table within => .cons ⟨rfl, rfl, rfl, ?_⟩ (hsettles table within)⟩
      exact hslot table (within.of_below grows₂.below)

/-- A method that followed all instructions from its start has the code that they make. -/
theorem has_of_follows {flags : MethodFlags} {name descriptor : UInt16}
    {exceptions : Option EncodedAttribute} {method method' : MethodDraft}
    {listing : Listing LabelToken} {cells : List Cell} {table : ConstantTable}
    {bootstraps : Array Bootstrap}
    (follows : (MethodDraft.start flags name descriptor exceptions).Follows method
      listing.instructions cells)
    (same : method' = { method with
      hasCode := method'.hasCode
      handlers := method'.handlers
      maxStack := listing.maxStack
      maxLocals := listing.maxLocals })
    (laid : ∀ offset : LabelToken → Nat,
      (∀ {token : LabelToken} {n : Nat}, method.labels[token]? = some n → offset token = n) →
        Laid table bootstraps offset 0 listing.instructions cells)
    (settles : List.Forall₂ (DraftHandler.Settles table) listing.blocks method'.handlers.toList) :
    method'.Has table bootstraps listing cells := by
  have hlabels : method'.labels = method.labels := by rw [same]
  constructor
  case toMadeOf =>
    have made := (MethodDraft.madeOf_start ..).gains follows.toGains
    rw [same]
    exact ⟨made.code, made.fixups⟩
  case lines =>
    rw [same]
    simpa [MethodDraft.start] using follows.lines
  case labels =>
    intro token n hplaced
    rw [hlabels] at hplaced
    apply (follows.placed hplaced).resolve_left
    simp [MethodDraft.start]
  case once =>
    intro token hmem
    obtain ⟨-, hplaced, hcount⟩ := follows.once hmem
    rw [← hlabels] at hplaced
    exact ⟨hplaced, hcount⟩
  case laid =>
    apply laid
    intro token n h
    rw [MethodDraft.offsetD, hlabels, h, Option.getD_some]
  case handlers => exact settles
  case maxStack => rw [same]
  case maxLocals => rw [same]

/-- What a method has once all of its code was told. -/
theorem takes_listing {listing : Listing LabelToken} {flags : MethodFlags}
    {name descriptor : UInt16} {exceptions : Option EncodedAttribute} (sound : draft.Sound)
    (hmethod : draft.method = some (.start flags name descriptor exceptions))
    (documented : ∀ i ∈ listing.instructions, i.Documented)
    (h : Receiver.Takes receive listing.events draft draft') :
    ∃ method cells, draft.Grows draft' (listing.instructions.flatMap Instruction.calls) ∧
      draft' = { draft with
        pool := draft'.pool
        bootstraps := draft'.bootstraps
        positions := draft'.positions
        method := some method } ∧
      (method.flags = flags ∧ method.name = name ∧ method.descriptor = descriptor ∧
        method.exceptions = exceptions ∧ method.hasCode = true) ∧
      ∀ table bootstraps, draft'.ShownIn table bootstraps →
        method.Has table bootstraps listing cells := by
  obtain ⟨draft₁, hinstructions, h⟩ := Receiver.takes_append_iff.mp h
  obtain ⟨draft₂, hblocks, h⟩ := Receiver.takes_append_iff.mp h
  obtain ⟨draft₃, hmaxs, h⟩ := Receiver.takes_cons_iff.mp h
  cases h
  obtain ⟨method₁, cells, ran⟩ := ran_instructions sound hmethod documented hinstructions
  have hmethod₁ : draft₁.method = some method₁ := by rw [ran.others]
  obtain ⟨pool, method₂, entries, grows₂, hdraft₂, hsame₂, hhandlers, hsettles⟩ :=
    takes_blocks ran.grows.sound hmethod₁ hblocks
  obtain ⟨found, hfound, rfl⟩ := editMethod_eq_ok_iff.mp hmaxs
  obtain rfl : method₂ = found := Option.some.inj (by rw [hdraft₂] at hfound; exact hfound)
  have hsame₁ := ran.follows.same
  have grows₃ : draft₂.Grows { draft₂ with
      method := some { method₂ with
        hasCode := true, maxStack := listing.maxStack, maxLocals := listing.maxLocals } } [] :=
    grows₂.sound.grows_of_same rfl rfl rfl
  refine ⟨{ method₂ with
      hasCode := true, maxStack := listing.maxStack, maxLocals := listing.maxLocals },
    cells, ?_, ?_, ?_, fun table bootstraps shown => ?_⟩
  · have grows := (ran.grows.trans grows₂).trans grows₃
    rwa [List.append_nil, List.append_nil] at grows
  · rw [hdraft₂, ran.others]
  · rw [hsame₂, hsame₁]
    exact ⟨rfl, rfl, rfl, rfl, rfl⟩
  · have shown₂ := grows₃.shownIn shown
    apply has_of_follows ran.follows
    · rw [hsame₂]
    · intro offset hoffset
      exact ran.laid table bootstraps offset (grows₂.shownIn shown₂) hoffset
    · have hempty : method₁.handlers.toList = [] := by
        rw [hsame₁]
        rfl
      rw [hempty, List.nil_append] at hhandlers
      change List.Forall₂ _ _ method₂.handlers.toList
      rw [hhandlers]
      apply hsettles
      rw [hdraft₂] at shown₂
      exact shown₂.pool

/-- The end of a method that is taken settles the method. -/
theorem methodEnd_eq_ok {method : MethodDraft} (valid : draft.pool.Valid)
    (hmethod : draft.method = some method) (h : receive .methodEnd draft = .ok () draft') :
    ∃ pool part, pool.Valid ∧ draft.pool.Below pool ∧
      draft' = { draft with pool, method := none, methods := draft.methods.push part } ∧
      ∀ table, pool.Within table → method.Settled table part := by
  rw [receive_methodEnd_eq, hmethod] at h
  obtain ⟨part, draft₁, hrequest, h⟩ := bind_eq_ok_iff.mp h
  obtain ⟨pool, hask, rfl⟩ := request_eq_ok_iff.mp hrequest
  obtain ⟨valid', below, hsettled, -⟩ := method.gives_finish _ _ _ valid hask
  cases h
  exact ⟨pool, part, valid', below, rfl, hsettled⟩

theorem receive_methodEnd {method : MethodDraft} (sound : draft.Sound)
    (hmethod : draft.method = some method) (h : receive .methodEnd draft = .ok () draft') :
    ∃ pool part, draft.Grows draft' [] ∧
      draft' = { draft with pool, method := none, methods := draft.methods.push part } ∧
      ∀ table, pool.Within table → method.Settled table part := by
  obtain ⟨pool, part, valid, below, rfl, hsettled⟩ := methodEnd_eq_ok sound.pool hmethod h
  exact ⟨pool, part, ⟨⟨valid, sound.found, sound.complete, sound.nodup⟩, below, [], by simp,
    by simp⟩, rfl, hsettled⟩

/-- A settled method shows the code that it has. -/
theorem codeShown_of_settled {table : ConstantTable} {bootstraps : Array Bootstrap}
    {method : MethodDraft} {listing : Listing LabelToken} {cells : List Cell}
    {member : EncodedMember} (has : method.Has table bootstraps listing cells)
    (hcode : method.hasCode = true) (settled : method.Settled table member) :
    ∃ code, member = ⟨method.flags.bits, method.name, method.descriptor,
      code ++ method.exceptions.toList⟩ ∧ CodeShown table bootstraps (some listing) code := by
  obtain ⟨code, attributes, hpatched, hmember, hattributes⟩ := settled
  rw [if_pos hcode] at hattributes
  obtain ⟨a, ha, rfl⟩ := hattributes
  obtain ⟨small, -, hfill⟩ := MethodDraft.patchedCode_eq_ok has.toMadeOf hpatched
  have hlength : code.toList.length ≤ countLimit := by
    rw [hfill, length_fillCells]
    exact small
  refine ⟨[a], hmember, a, rfl, ha.readable hlength, ha.1, has.placed hpatched ha, ?_⟩
  rintro file range rfl covers
  exact has.readBody_eq hpatched ha covers

/-- The events of a method add a member that shows it. -/
theorem takes_method (sound : draft.Sound) {story : MethodStory} (proper : story.Proper)
    (h : Receiver.Takes receive story.events draft draft') :
    ∃ part, draft.Grows draft' story.calls ∧
      draft' = { draft with
        pool := draft'.pool
        bootstraps := draft'.bootstraps
        positions := draft'.positions
        methods := draft.methods.push part
        method := none } ∧
      ∀ table bootstraps, draft'.ShownIn table bootstraps →
        MethodShown table bootstraps story part := by
  obtain ⟨draft₁, hstart, h⟩ := Receiver.takes_cons_iff.mp h
  obtain ⟨draft₂, hcode, h⟩ := Receiver.takes_append_iff.mp h
  obtain ⟨draft₃, hend, h⟩ := Receiver.takes_cons_iff.mp h
  cases h
  obtain ⟨pool, name, descriptor, exceptions, grows₁, rfl, hheader⟩ := receive_method sound hstart
  cases hlisting : story.code with
  | none =>
      rw [hlisting] at hcode
      cases hcode
      obtain ⟨pool', part, grows₂, rfl, hsettled⟩ := receive_methodEnd grows₁.sound rfl hend
      refine ⟨part, ?_, rfl, fun table bootstraps shown => ?_⟩
      · rw [MethodStory.calls, hlisting]
        exact grows₁.trans grows₂
      · obtain ⟨code, attributes, -, rfl, hattributes⟩ := hsettled table shown.pool
        obtain ⟨hname, hdescriptor, hexceptions⟩ := hheader table (grows₂.shownIn shown).pool
        have hcoded : (MethodDraft.start story.flags name descriptor exceptions).hasCode = false :=
          proper.coded hlisting
        rw [hcoded, if_neg (by simp)] at hattributes
        subst hattributes
        refine ⟨rfl, hname, hdescriptor, [], _, rfl, ?_, hexceptions⟩
        rw [hlisting]
        rfl
  | some listing =>
      rw [hlisting] at hcode
      obtain ⟨method, cells, grows₂, hdraft₂, ⟨hflags, hname, hdescriptor, hexceptions, hhasCode⟩,
        hhas⟩ := takes_listing grows₁.sound rfl (proper.documented listing hlisting) hcode
      have hmethod : draft₂.method = some method := by rw [hdraft₂]
      obtain ⟨pool', part, grows₃, hdraft₃, hsettled⟩ :=
        receive_methodEnd grows₂.sound hmethod hend
      refine ⟨part, ?_, ?_, fun table bootstraps shown => ?_⟩
      · have grows := (grows₁.trans grows₂).trans grows₃
        rw [MethodStory.calls, hlisting]
        rwa [List.nil_append, List.append_nil] at grows
      · rw [hdraft₃, hdraft₂]
      · have shown₂ := grows₃.shownIn shown
        have hpool : pool'.Within table := by
          have hshown := shown.pool
          rw [hdraft₃] at hshown
          exact hshown
        obtain ⟨code, rfl, hcodeShown⟩ :=
          codeShown_of_settled (hhas table bootstraps shown₂) hhasCode (hsettled table hpool)
        obtain ⟨hname', hdescriptor', hexceptions'⟩ := hheader table (grows₂.shownIn shown₂).pool
        refine ⟨by rw [hflags], by rw [hname]; exact hname',
          by rw [hdescriptor]; exact hdescriptor',
          code, exceptions.toList, by rw [hexceptions], ?_, hexceptions'⟩
        rw [hlisting]
        exact hcodeShown

end ClassDraft

end JavaClass
