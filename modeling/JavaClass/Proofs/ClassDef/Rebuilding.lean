import JavaClass.Proofs.Assembly.Retelling
import JavaClass.Proofs.ClassDef.RoundTrip

/-!
# Building what was told

A definition that is built from the events of another tells the same events,
with other tokens in each method: the tokens are numbered in the order in which
they come. This order does not depend on which tokens they are, so a definition
that is built from its events in turn tells exactly the same events.

## Implementation notes

A body that says that it has instructions is told with code, so its size has to
be that of its walk. Every body whose list was made by edits is well linked in
this way, and so is every body that was built from events.
-/

namespace JavaClass

open MethodBody

theorem idxOf_map_of_injOn {f : LabelToken → LabelToken} {known : List LabelToken}
    {token : LabelToken} (inj : Set.InjOn f {other | other ∈ known}) (h : token ∈ known) :
    (known.map f).idxOf (f token) = known.idxOf token := by
  induction known with
  | nil => cases h
  | cons first rest ih =>
      rw [List.map_cons, List.idxOf_cons, List.idxOf_cons]
      by_cases heq : first = token
      · subst heq
        simp
      · have hne : f first ≠ f token := fun hf => heq (inj List.mem_cons_self h hf)
        have hrest := ih (inj.mono fun _ => List.mem_cons_of_mem _)
          ((List.mem_cons.mp h).resolve_left (Ne.symm heq))
        rw [beq_false_of_ne heq, beq_false_of_ne hne, hrest]

/-- The order in which tokens are met does not depend on which tokens they are. -/
theorem foldl_meet_map {f : LabelToken → LabelToken} {known tokens : List LabelToken}
    (inj : Set.InjOn f {other | other ∈ known ∨ other ∈ tokens}) :
    (tokens.map f).foldl meet (known.map f) = (tokens.foldl meet known).map f := by
  induction tokens generalizing known with
  | nil => rfl
  | cons token tokens ih =>
      -- either both runs have met the token or neither has
      have hmem : f token ∈ known.map f ↔ token ∈ known := by
        constructor
        · intro h
          obtain ⟨other, hother, heq⟩ := List.mem_map.mp h
          exact inj (.inl hother) (.inr List.mem_cons_self) heq ▸ hother
        · exact List.mem_map_of_mem
      have hmeet : meet (known.map f) (f token) = (meet known token).map f := by
        simp only [meet, hmem]
        split
        · rfl
        · rw [List.map_append, List.map_singleton]
      rw [List.map_cons, List.foldl_cons, List.foldl_cons, hmeet]
      apply ih
      apply inj.mono
      rintro other (hother | hother)
      · exact (mem_meet_iff.mp hother).imp_right fun heq => List.mem_cons.mpr (.inl heq)
      · exact .inr (List.mem_cons_of_mem _ hother)

namespace Listing

variable {listing : Listing LabelToken}

/-- The token for a token of a listing: how many others come before it. -/
def number (listing : Listing LabelToken) (token : LabelToken) : LabelToken :=
  (labelOf (listing.referenced.foldl meet []) token).token

/-- The listing with its tokens numbered in the order in which they come. -/
def renumbered (listing : Listing LabelToken) : Listing LabelToken :=
  listing.map listing.number

theorem number_injOn (listing : Listing LabelToken) :
    Set.InjOn listing.number {token | token ∈ listing.referenced} := by
  intro first hfirst second hsecond h
  have hknown {token : LabelToken} (htoken : token ∈ listing.referenced) :
      token ∈ listing.referenced.foldl meet [] := mem_foldl_meet_iff.mpr (.inr htoken)
  exact labelOf_injOn (nodup_foldl_meet List.nodup_nil _) (hknown hfirst) (hknown hsecond)
    (Label.token_injective h)

/-- Exchanging the tokens does not change their numbers. -/
theorem number_map {f : LabelToken → LabelToken}
    (inj : Set.InjOn f {token | token ∈ listing.referenced}) {token : LabelToken}
    (h : token ∈ listing.referenced) : (listing.map f).number (f token) = listing.number token := by
  have hknown : ∀ other, other ∈ listing.referenced.foldl meet [] ↔ other ∈ listing.referenced := by
    intro other
    rw [mem_foldl_meet_iff]
    simp
  have hmeet : (listing.map f).referenced.foldl meet [] =
      (listing.referenced.foldl meet []).map f := by
    rw [referenced_map]
    exact @foldl_meet_map f [] listing.referenced (by simpa using inj)
  have hidx : ((listing.referenced.foldl meet []).map f).idxOf (f token) =
      (listing.referenced.foldl meet []).idxOf token :=
    idxOf_map_of_injOn (inj.mono fun other => (hknown other).mp) ((hknown token).mpr h)
  rw [number, number, labelOf, labelOf, hmeet, hidx]

/-- Numbered tokens keep their numbers. -/
theorem renumbered_renumbered (listing : Listing LabelToken) :
    listing.renumbered.renumbered = listing.renumbered := by
  calc listing.renumbered.renumbered
      = listing.map (listing.renumbered.number ∘ listing.number) := map_map ..
    _ = listing.map listing.number := map_congr fun token => number_map listing.number_injOn

/-- Numbering the tokens is an exchange of tokens. -/
theorem exists_renumbered_eq (listing : Listing LabelToken) :
    ∃ f : LabelToken → LabelToken, Function.Injective f ∧ listing.renumbered = listing.map f := by
  obtain ⟨f, inj, hf⟩ := exists_exchange (Set.injOn_id _) listing.number_injOn
  exact ⟨f, inj, map_congr fun token htoken => (hf token htoken).symm⟩

/-- The events of a body end no method. -/
theorem methodEnd_notMem_events (listing : Listing LabelToken) :
    Event.methodEnd ∉ listing.events := by
  simp [events]

theorem Closed.map {α β : Type} {listing : Listing α} (closed : listing.Closed) (f : α → β) :
    (listing.map f).Closed := by
  intro label h
  rw [referenced_map] at h
  obtain ⟨source, hsource, rfl⟩ := List.mem_map.mp h
  exact List.mem_map.mpr ⟨_, closed source hsource, rfl⟩

end Listing

namespace MethodStory

/-- Exchanges the tokens. -/
def mapTokens (f : LabelToken → LabelToken) (story : MethodStory) : MethodStory :=
  { story with code := story.code.map (Listing.map f) }

/-- The story with its tokens numbered in the order in which they come. -/
def renumbered (story : MethodStory) : MethodStory :=
  { story with code := story.code.map Listing.renumbered }

theorem renumbered_renumbered (story : MethodStory) :
    story.renumbered.renumbered = story.renumbered := by
  simp only [renumbered, Option.map_map, Function.comp_def, Listing.renumbered_renumbered]

theorem exists_renumbered_eq (story : MethodStory) :
    ∃ f : LabelToken → LabelToken, Function.Injective f ∧
      story.renumbered = story.mapTokens f := by
  cases hcode : story.code with
  | none => exact ⟨id, Function.injective_id, by simp only [renumbered, mapTokens, hcode]; rfl⟩
  | some listing =>
      obtain ⟨f, inj, hf⟩ := listing.exists_renumbered_eq
      refine ⟨f, inj, ?_⟩
      simp only [renumbered, mapTokens, hcode, Option.map_some, hf]

theorem events_mapTokens (f : LabelToken → LabelToken) (story : MethodStory) :
    (story.mapTokens f).events = story.events.map (Event.mapTokens f) := by
  unfold events mapTokens
  cases story.code with
  | none => rfl
  | some listing =>
      simp only [Option.map_some, Option.elim_some, Listing.events_map, List.map_cons,
        List.map_append]
      rfl

/-- A story that a method with sound labels can tell. -/
structure Tellable (story : MethodStory) : Prop where
  uncoded : story.code = none → story.flags.hasCode = false
  coded : ∀ listing, story.code = some listing →
    story.flags.hasCode = true ∨ listing.instructions ≠ []
  closed : ∀ listing, story.code = some listing → listing.Closed
  small : ∀ listing, story.code = some listing → listing.instructions.length ≤ 2 ^ 32

end MethodStory

theorem MethodBody.WellLinked.length_le {body : MethodBody} (linked : body.WellLinked) :
    body.instructions.length ≤ 2 ^ 32 := by
  have hle := length_words_le linked.slots_nodup
  rwa [List.length_map, ← List.length_map (f := (·.2))] at hle

/-- A body is empty exactly if its walk is. -/
theorem MethodBody.WellLinked.isEmpty_iff {body : MethodBody} (linked : body.WellLinked) :
    body.isEmpty = true ↔ body.instructions = [] := by
  rw [isEmpty, beq_iff_eq, ← linked.length, List.length_eq_zero_iff, instructions,
    List.map_eq_nil_iff]

namespace MethodDef

variable {method : MethodDef} {story : MethodStory}

/-- What a method with sound links and labels tells can be told again. -/
theorem tellable_story (linked : method.body.WellLinked) (checked : method.Checked) :
    method.story.Tellable := by
  constructor
  · intro hnone
    exact (Bool.or_eq_false_iff.mp (story_code_eq_none_iff.mp hnone)).1
  · intro listing hlisting
    obtain ⟨hcode, rfl⟩ := story_code_eq_some_iff.mp hlisting
    refine (Bool.or_eq_true_iff.mp hcode).imp_right fun hfull hempty => ?_
    have hwalk : method.body.instructions = [] := List.map_eq_nil_iff.mp hempty
    rw [linked.isEmpty_iff.mpr hwalk] at hfull
    cases hfull
  · intro listing hlisting
    obtain ⟨hcode, rfl⟩ := story_code_eq_some_iff.mp hlisting
    apply Listing.Closed.map
    exact checkLabels_eq_ok_iff.mp (checked hcode)
  · intro listing hlisting
    obtain ⟨-, rfl⟩ := story_code_eq_some_iff.mp hlisting
    have hlength : (method.body.listing.map Label.token).instructions.length =
        method.body.instructions.length := List.length_map _
    exact hlength ▸ linked.length_le

/-- A method that was built in order tells its story with numbered tokens. -/
theorem Builds.told (builds : method.Builds story) (numbered : method.Numbered story)
    (tellable : story.Tellable) :
    method.Checked ∧ method.body.WellLinked ∧ method.story = story.renumbered := by
  obtain ⟨order, chain⟩ := numbered.chain
  have hempty := numbered.isEmpty_iff
  have holds := numbered.holds
  cases hcode : story.code with
  | none =>
      have hnone : method.hasCode = false := by
        rw [hasCode, builds.flags, tellable.uncoded hcode, Bool.false_or]
        rw [hcode] at hempty
        simp [hempty.mpr rfl]
      refine ⟨fun h => ?_, chain.wellLinked, ?_⟩
      · rw [hnone] at h
        cases h
      · simp only [MethodDef.story, MethodStory.renumbered, hnone, hcode, builds.flags,
          builds.name, builds.descriptor, builds.exceptions]
        rfl
  | some listing =>
      rw [hcode, Option.getD_some] at hempty holds
      have hsome : method.hasCode = true := by
        rw [hasCode, builds.flags]
        obtain h | h := tellable.coded listing hcode
        · rw [h, Bool.true_or]
        · rw [eq_false_of_ne_true (mt hempty.mp h)]
          simp
      refine ⟨fun _ => ?_, chain.wellLinked, ?_⟩
      · rw [checkLabels_eq_ok_iff, holds]
        exact (tellable.closed listing hcode).map _
      · have htold : method.body.listing.map Label.token = listing.renumbered := by
          rw [holds, Listing.map_map]
          rfl
        simp only [MethodDef.story, MethodStory.renumbered, hsome, hcode, builds.flags,
          builds.name, builds.descriptor, builds.exceptions, htold]
        rfl

/-- Methods that were built in order tell their stories with numbered tokens. -/
theorem told_methods {methods : List MethodDef} {stories : List MethodStory}
    (builds : List.Forall₂ Builds methods stories)
    (numbered : List.Forall₂ Numbered methods stories)
    (tellable : ∀ story ∈ stories, story.Tellable) :
    (∀ method ∈ methods, method.body.WellLinked ∧ method.Checked) ∧
      methods.map MethodDef.story = stories.map MethodStory.renumbered := by
  induction builds with
  | nil => simp
  | cons first rest ih =>
      obtain ⟨hfirst, hrest⟩ := List.forall₂_cons.mp numbered
      obtain ⟨checked, linked, hstory⟩ := first.told hfirst (tellable _ List.mem_cons_self)
      obtain ⟨sound, hstories⟩ := ih hrest fun _ h => tellable _ (List.mem_cons_of_mem _ h)
      constructor
      · exact List.forall_mem_cons.mpr ⟨⟨linked, checked⟩, sound⟩
      · rw [List.map_cons, List.map_cons, hstory, hstories]

end MethodDef

namespace ClassStory

/-- The story with the tokens of each method numbered in the order in which they come. -/
def renumbered (story : ClassStory) : ClassStory :=
  { story with methods := story.methods.map MethodStory.renumbered }

theorem renumbered_renumbered (story : ClassStory) :
    story.renumbered.renumbered = story.renumbered := by
  simp only [renumbered, List.map_map, Function.comp_def, MethodStory.renumbered_renumbered]

end ClassStory

namespace ClassDef

variable {c : ClassDef}

/-- The links and the labels of all methods are sound. -/
def Sound (c : ClassDef) : Prop :=
  ∀ method ∈ c.methods.toList, method.body.WellLinked ∧ method.Checked

/-- A definition is built again from its story, and tells it with numbered tokens. -/
theorem ofTranscript_story (sound : c.Sound) :
    ∃ c', ofTranscript (.tell c.story.events) = .ok c' ∧ c'.Sound ∧
      c'.story = c.story.renumbered := by
  have tellable : ∀ story ∈ c.story.methods, story.Tellable := by
    intro story hstory
    obtain ⟨method, hmethod, rfl⟩ := List.mem_map.mp hstory
    exact MethodDef.tellable_story (sound method hmethod).1 (sound method hmethod).2
  obtain ⟨c', hbuilt, builds, numbered⟩ := @ofTranscript_tell c.story
    fun story hstory => (tellable story hstory).small
  obtain ⟨sound', hmethods⟩ := MethodDef.told_methods builds.methods numbered tellable
  refine ⟨c', hbuilt, sound', ?_⟩
  change _ = (c.methods.toList.map MethodDef.story).map MethodStory.renumbered at hmethods
  have hsource : (c.source.toList.getLast?).toList = c.source.toList := by
    cases c.source <;> rfl
  simp only [story, ClassStory.renumbered, builds.version, builds.flags, builds.name, builds.super,
    builds.interfaces, builds.source, builds.fields, hmethods, hsource]

end ClassDef

namespace Event

/-- Exchanges the tokens of each method by an exchange of its own, after `n` methods have ended. -/
def mapMethodTokens (f : Nat → LabelToken → LabelToken) : (n : Nat) → List Event → List Event
  | _, [] => []
  | n, event :: rest =>
      event.mapTokens (f n) :: mapMethodTokens f (if event = .methodEnd then n + 1 else n) rest

variable {f : Nat → LabelToken → LabelToken} {n : Nat}

theorem mapMethodTokens_append {events : List Event} (h : ∀ event ∈ events, event ≠ .methodEnd)
    (rest : List Event) :
    mapMethodTokens f n (events ++ rest) =
      events.map (mapTokens (f n)) ++ mapMethodTokens f n rest := by
  induction events with
  | nil => rfl
  | cons event events ih =>
      have hrest := ih fun other hother => h other (List.mem_cons_of_mem _ hother)
      rw [List.cons_append, mapMethodTokens, if_neg (h event List.mem_cons_self), hrest]
      rfl

/-- An event that has no tokens and ends no method. -/
def Plain (event : Event) : Prop :=
  event ≠ .methodEnd ∧ ∀ f, event.mapTokens f = event

/-- Plain events stay as they are. -/
theorem mapMethodTokens_append_of_plain {events : List Event}
    (plain : ∀ event ∈ events, Plain event) (rest : List Event) :
    mapMethodTokens f n (events ++ rest) = events ++ mapMethodTokens f n rest := by
  rw [mapMethodTokens_append fun event hevent => (plain event hevent).1]
  congr 1
  exact (List.map_congr_left fun event hevent => (plain event hevent).2 (f n)).trans
    (List.map_id' _)

theorem mapMethodTokens_method (story : MethodStory) (rest : List Event) :
    mapMethodTokens f n (story.events ++ rest) =
      (story.mapTokens (f n)).events ++ mapMethodTokens f (n + 1) rest := by
  obtain ⟨front, hfront, hevents⟩ : ∃ front : List Event, (∀ event ∈ front, event ≠ .methodEnd) ∧
      story.events = front ++ [.methodEnd] := by
    refine ⟨.method story.flags story.name story.descriptor story.exceptions ::
      story.code.elim [] Listing.events, fun event hevent => ?_, rfl⟩
    obtain rfl | hcode := List.mem_cons.mp hevent
    · exact Event.noConfusion
    · rintro rfl
      cases hlisting : story.code with
      | none =>
          rw [hlisting] at hcode
          cases hcode
      | some listing =>
          rw [hlisting] at hcode
          exact listing.methodEnd_notMem_events hcode
  rw [MethodStory.events_mapTokens, hevents, List.append_assoc, mapMethodTokens_append hfront,
    List.map_append, List.append_assoc]
  rfl

theorem mapMethodTokens_methods (stories : List MethodStory) (rest : List Event) :
    mapMethodTokens f n (stories.flatMap MethodStory.events ++ rest) =
      (stories.mapIdx fun k story => story.mapTokens (f (n + k))).flatMap MethodStory.events ++
        mapMethodTokens f (n + stories.length) rest := by
  induction stories generalizing n with
  | nil => rfl
  | cons story stories ih =>
      rw [List.flatMap_cons, List.append_assoc, mapMethodTokens_method, ih, List.mapIdx_cons,
        List.flatMap_cons, List.append_assoc, List.length_cons]
      simp only [Nat.add_zero, Nat.add_assoc, Nat.add_comm 1]

end Event

namespace ClassStory

open Event

theorem plain_sources (sources : List String) :
    ∀ event ∈ sources.map Event.source, Plain event := by
  intro event hevent
  obtain ⟨source, -, rfl⟩ := List.mem_map.mp hevent
  exact ⟨Event.noConfusion, fun _ => rfl⟩

theorem plain_fields (fields : List FieldDef) :
    ∀ event ∈ fields.flatMap FieldDef.events, Plain event := by
  intro event hevent
  obtain ⟨field, -, hfield⟩ := List.mem_flatMap.mp hevent
  simp only [FieldDef.events, List.mem_cons, List.not_mem_nil, or_false] at hfield
  obtain rfl | rfl := hfield
  · exact ⟨Event.noConfusion, fun _ => rfl⟩
  · exact ⟨Event.noConfusion, fun _ => rfl⟩

/-- Exchanging the tokens of the events is exchanging those of each method. -/
theorem mapMethodTokens_events (f : Nat → LabelToken → LabelToken) (story : ClassStory) :
    mapMethodTokens f 0 story.events =
      events { story with
        methods := story.methods.mapIdx fun k method => method.mapTokens (f k) } := by
  have hheader : (Event.header story.version story.flags story.name story.super
      story.interfaces) ≠ .methodEnd := Event.noConfusion
  rw [events, mapMethodTokens, if_neg hheader,
    mapMethodTokens_append_of_plain (plain_sources _),
    mapMethodTokens_append_of_plain (plain_fields _), mapMethodTokens_methods]
  simp only [Nat.zero_add]
  rfl

/-- The numbered tokens are an exchange of tokens for each method. -/
theorem exists_events_renumbered (story : ClassStory) :
    ∃ f : Nat → LabelToken → LabelToken, (∀ n, Function.Injective (f n)) ∧
      story.renumbered.events = mapMethodTokens f 0 story.events := by
  choose exchange inj hexchange using MethodStory.exists_renumbered_eq
  refine ⟨fun n => (story.methods[n]?).elim id exchange, fun n => ?_, ?_⟩
  · simp only
    cases story.methods[n]? with
    | none => exact Function.injective_id
    | some method => exact inj method
  · have hmethods : story.methods.map MethodStory.renumbered =
        story.methods.mapIdx fun k method =>
          method.mapTokens ((story.methods[k]?).elim id exchange) := by
      apply List.ext_getElem
      · simp
      · intro k hk _
        rw [List.length_map] at hk
        simp [hexchange, hk]
    rw [mapMethodTokens_events, ← hmethods]
    rfl

end ClassStory

namespace ClassDef

variable {c : ClassDef}

/-- A definition is built again from the events that it tells. What is built tells the same events
but for an exchange of tokens in each method, and what is built from these events in turn tells
exactly the same. -/
theorem ofTranscript_retells {events : List Event}
    (linked : ∀ method ∈ c.methods.toList, method.body.WellLinked)
    (told : c.transcript = .tell events) :
    ∃ c' events', ofTranscript (.tell events) = .ok c' ∧ c'.transcript = .tell events' ∧
      (∃ f : Nat → LabelToken → LabelToken, (∀ n, Function.Injective (f n)) ∧
        events' = Event.mapMethodTokens f 0 events) ∧
      ∃ c'', ofTranscript (.tell events') = .ok c'' ∧ c''.transcript = .tell events' := by
  obtain ⟨checked, rfl⟩ := transcript_eq_tell_iff.mp told
  have sound : c.Sound := fun method hmethod => ⟨linked method hmethod, checked method hmethod⟩
  obtain ⟨c', hbuilt, sound', hstory⟩ := ofTranscript_story sound
  obtain ⟨c'', hbuilt', sound'', hstory'⟩ := ofTranscript_story sound'
  obtain ⟨f, inj, hf⟩ := c.story.exists_events_renumbered
  have hsame : c''.story = c'.story := by
    rw [hstory', hstory, ClassStory.renumbered_renumbered]
  refine ⟨c', c'.story.events, hbuilt, ?_, ⟨f, inj, by rw [hstory, hf]⟩, c'', hbuilt', ?_⟩
  · exact transcript_eq_tell_iff.mpr ⟨fun method hmethod => (sound' method hmethod).2, rfl⟩
  · rw [← hsame]
    exact transcript_eq_tell_iff.mpr ⟨fun method hmethod => (sound'' method hmethod).2, rfl⟩

/-- A class with a method without code and one whose labels are used in another order than that of
their numbers. -/
def detour : ClassDef where
  version := ⟨52, 0⟩
  flags := .ofBits _ 0x421
  name := "A"
  super := some "B"
  interfaces := ["C"]
  source := none
  fields := #[]
  methods := #[⟨.ofBits _ 0x401, "f", "()V", [], .empty 0⟩,
    ⟨.ofBits _ 9, "g", "()V", [], ((empty 1).changeAll
      [.edit (.append (.jump ⟨167⟩ ⟨7⟩)), .edit (.append (.label ⟨4⟩)),
        .edit (.append (.simple ⟨177⟩)), .edit (.append (.label ⟨7⟩)),
        .edit (.append (.line 3 ⟨7⟩)), .edit (.append (.jump ⟨167⟩ ⟨4⟩))]).2⟩]

theorem ofTranscript_retells_detour :
    ∃ c' events', ofTranscript (.tell detour.transcript.events) = .ok c' ∧
      c'.transcript = .tell events' ∧
      (∃ f : Nat → LabelToken → LabelToken, (∀ n, Function.Injective (f n)) ∧
        events' = Event.mapMethodTokens f 0 detour.transcript.events) ∧
      ∃ c'', ofTranscript (.tell events') = .ok c'' ∧ c''.transcript = .tell events' := by
  have linked : ∀ method ∈ detour.methods.toList, method.body.WellLinked := by
    intro method hmethod
    obtain rfl | hmethod := List.mem_cons.mp hmethod
    · exact (chain_empty 0).wellLinked
    · obtain rfl := List.mem_singleton.mp hmethod
      exact ((chain_empty 1).changeAll _ (by decide)).1.elim fun _ chain => chain.wellLinked
  exact ofTranscript_retells linked (Transcript.eq_tell_of_failure (by decide +kernel))

end ClassDef

end JavaClass
