import JavaClass.Proofs.Assembly.Patching
import JavaClass.Proofs.ClassDef.RoundTrip

/-!
# Two checks of labels

A body checks its labels before it tells anything, and a class draft checks them
once more: each label when it is placed, and all that are mentioned when the
method ends. The checks agree: a body that is told to a method without labels is
refused because of a label exactly if a label that it refers to has no place or
some label has two.

## Implementation notes

The method that is open may have got code before the body is told to it. Labels
of that code count as well, so the statement names those that have a place and
those that are mentioned.
-/

namespace JavaClass

open ConstantPool

namespace MethodDraft

variable {method : MethodDraft}

/-- If the error is about a label, then that label is mentioned and has no place. -/
def Misses (method : MethodDraft) (error : Error) : Prop :=
  error.isLabel = true →
    ∃ token ∈ method.mentioned, token ∉ method.labels ∧ error = .malformed (.unplacedToken token)

theorem misses_of_unlabelled (error : Error) (h : error.Unlabelled) : method.Misses error := by
  intro isLabel
  rw [h.placed] at isLabel
  cases isLabel

theorem misses_of_missing (token : LabelToken) (htoken : token ∈ method.mentioned)
    (hmissing : token ∉ method.labels) : method.Misses (.malformed (.unplacedToken token)) :=
  fun _ => ⟨token, htoken, hmissing, rfl⟩

theorem mem_labels_of_getElem? {token : LabelToken} {n : Nat}
    (h : method.labels[token]? = some n) : token ∈ method.labels :=
  Std.TreeMap.mem_iff_isSome_getElem?.mpr (by rw [h]; rfl)

theorem fails_patchedCode (method : MethodDraft) : FailsOnly method.Misses method.patchedCode := by
  unfold patchedCode
  split
  · exact failsOnly_error (misses_of_unlabelled _ ⟨rfl, by rintro _ _ ⟨⟩⟩)
  · rw [← Array.foldlM_toList]
    apply FailsOnly.foldlM
    intro fixup hfixup code
    have htarget : fixup.target ∈ method.mentioned := by
      rw [mentioned, List.append_assoc]
      exact List.mem_append_left _ (List.mem_map_of_mem hfixup)
    apply (fails_offset misses_of_missing htarget).bind
    intro target
    simp only
    split
    · exact failsOnly_ok _
    · split
      · exact failsOnly_ok _
      · exact failsOnly_error (by rintro ⟨⟩)

/-- A method is refused because of a label only if a label that it mentions has no place. -/
theorem misses_finish (method : MethodDraft) : RefusesOnly method.Misses method.finish :=
  refuses_finish misses_of_unlabelled misses_of_missing method.fails_patchedCode

theorem settled_eq_ok {α : Type} {result : Except Error α} {value : α} {pool pool' : ConstantPool}
    (h : settled result pool = .ok value pool') : result = .ok value := by
  cases result with
  | ok found =>
      cases h
      rfl
  | error error => cases h

theorem placed_of_patchedCode {code : Array UInt8} (h : method.patchedCode = .ok code) :
    ∀ fixup ∈ method.fixups.toList, fixup.target ∈ method.labels := by
  unfold patchedCode at h
  split at h
  · cases h
  · rw [← Array.foldlM_toList] at h
    generalize method.code = start, method.fixups.toList = fixups at h
    induction fixups generalizing start with
    | nil => exact fun fixup hfixup => absurd hfixup List.not_mem_nil
    | cons first rest ih =>
        rw [List.foldlM_cons] at h
        obtain ⟨next, hfirst, hrest⟩ := exceptBind_eq_ok_iff.mp h
        obtain ⟨target, htarget, -⟩ := exceptBind_eq_ok_iff.mp hfirst
        exact List.forall_mem_cons.mpr
          ⟨mem_labels_of_getElem? (offset_eq_ok_iff.mp htarget), ih next hrest⟩

/-- A method with code is settled only if all labels that it mentions have places. -/
theorem placed_of_finish {pool pool' : ConstantPool} {member : EncodedMember}
    (code : method.hasCode = true) (h : method.finish pool = .ok member pool') :
    ∀ token ∈ method.mentioned, token ∈ method.labels := by
  obtain ⟨patched, pool₁, hpatched, h⟩ := bind_eq_ok_iff.mp h
  rw [if_pos code] at h
  obtain ⟨a, pool₂, hcode, -⟩ := bind_eq_ok_iff.mp h
  obtain ⟨handlers, pool₃, hhandlers, hrest⟩ := bind_eq_ok_iff.mp hcode
  obtain ⟨attributes, pool₄, hlines, -⟩ := bind_eq_ok_iff.mp hrest
  have hfixups := placed_of_patchedCode (settled_eq_ok hpatched)
  have hhandlers : ∀ handler ∈ method.handlers.toList,
      ∀ token ∈ [handler.start, handler.stop, handler.handler], token ∈ method.labels := by
    intro handler hhandler token htoken
    obtain ⟨part, -, hpart⟩ := exists_right (mapM_eq_ok_iff.mp (settled_eq_ok hhandlers)) hhandler
    obtain ⟨n, hn⟩ := (encodeHandler_eq_ok hpart).1 token htoken
    exact mem_labels_of_getElem? hn
  have hlines : ∀ line ∈ method.lines.toList, line.2 ∈ method.labels := by
    intro line hline
    unfold lineAttributes at hlines
    rw [if_neg] at hlines
    · obtain ⟨lines, pool₅, hlines, -⟩ := bind_eq_ok_iff.mp hlines
      obtain ⟨part, -, hpart⟩ := exists_right (mapM_eq_ok_iff.mp (settled_eq_ok hlines)) hline
      obtain ⟨n, hn⟩ := (encodeLine_eq_ok hpart).1
      exact mem_labels_of_getElem? hn
    · intro hempty
      rw [Array.isEmpty_iff.mp hempty] at hline
      cases hline
  intro token htoken
  simp only [mentioned, List.mem_append, List.mem_map, List.mem_flatMap] at htoken
  obtain (⟨fixup, hfixup, rfl⟩ | ⟨handler, hhandler, htoken⟩) | ⟨line, hline, rfl⟩ := htoken
  · exact hfixups fixup hfixup
  · exact hhandlers handler hhandler token htoken
  · exact hlines line hline

end MethodDraft

namespace ClassDraft

open MethodDraft

variable {draft draft' : ClassDraft} {events : List Event} {error : Error}

/-- Only an event that places a label is refused because of a label. -/
theorem placed_of_error {event : Event} (code : event.isCode = true)
    (h : receive event draft = .error error draft') (isLabel : error.isLabel = true) :
    ∃ token method, event.placed = [token] ∧ draft.method = some method ∧ token ∈ method.labels ∧
      error = .malformed (.tokenPlacedTwice token) := by
  have absurd_of {R : MethodDraft → MethodDraft → Prop} {step : Step Unit} (worked : Worked R step)
      (h : step draft = .error error draft') : False := by
    rw [(worked.unlabelled _ _ _ h).placed] at isLabel
    cases isLabel
  cases event with
  | instruction i =>
      by_cases hlabel : ∃ token, i = .label token
      · obtain ⟨token, rfl⟩ := hlabel
        cases hmethod : draft.method with
        | none =>
            simp only [receive, instruction, place, onMethod, Bind.bind, EStateM.bind, hmethod] at h
            cases h
            cases isLabel
        | some method =>
            rw [receive, instruction, place_eq hmethod] at h
            split at h
            · rename_i placed
              cases h
              exact ⟨token, method, rfl, rfl, placed, rfl⟩
            · cases h
      · exact (absurd_of (worked_instruction fun token heq => hlabel ⟨token, heq⟩) h).elim
  | tryBlock block => exact (absurd_of (worked_tryBlock block) h).elim
  | maxs stack locals => exact (absurd_of (worked_maxs stack locals) h).elim
  | _ => cases code

/-- If code and the end of its method are refused because of a label, then some label was placed
twice, or it is the end that was refused. -/
theorem placedTwice_or_methodEnd {method : MethodDraft} (hmethod : draft.method = some method)
    (code : ∀ event ∈ events, event.isCode = true)
    (h : Receiver.deliverFrom receive none (events ++ [.methodEnd]) draft = .error error draft')
    (isLabel : error.isLabel = true) :
    (∃ token, error = .malformed (.tokenPlacedTwice token) ∧
        ((∃ token ∈ events.flatMap Event.placed, token ∈ method.labels) ∨
          ¬(events.flatMap Event.placed).Nodup)) ∨
      ∃ mid, Receiver.Takes receive events draft mid ∧
        receive .methodEnd mid = .error error draft' := by
  induction events generalizing draft method with
  | nil =>
      refine .inr ⟨draft, .nil, ?_⟩
      simp only [List.nil_append, Receiver.deliverFrom] at h
      split at h
      · cases h
      · rename_i hend
        cases h
        exact hend
  | cons event events ih =>
      obtain ⟨first, rest⟩ := List.forall_mem_cons.mp code
      rw [List.cons_append, Receiver.deliverFrom] at h
      rw [List.flatMap_cons]
      cases hevent : receive event draft with
      | error found mid =>
          simp only [hevent] at h
          cases h
          obtain ⟨token, found, hplaced, hfound, hlabels, rfl⟩ :=
            placed_of_error first hevent isLabel
          obtain rfl : method = found := Option.some.inj (hmethod.symm.trans hfound)
          refine .inl ⟨token, rfl, .inl ⟨token, ?_, hlabels⟩⟩
          rw [hplaced]
          exact List.mem_cons_self
      | ok value mid =>
          have hcurrent : Receiver.methodAfter none event = none := by
            cases event with
            | method flags name descriptor exceptions => cases first
            | _ => rfl
          simp only [hevent, hcurrent] at h
          obtain ⟨method', hmethod', places⟩ :=
            (changes_of_ok first hevent).exists_method hmethod
          obtain ⟨token, herror, ⟨other, hplaced, hlabels⟩ | hnodup⟩ | ⟨last, htakes, hend⟩ :=
            ih hmethod' rest h
          · refine .inl ⟨token, herror, ?_⟩
            obtain hlabels | hfirst := (places.labels other).mp hlabels
            · exact .inl ⟨other, List.mem_append_right _ hplaced, hlabels⟩
            · refine .inr fun hnodup => ?_
              exact (List.nodup_append'.mp hnodup).2.2 hfirst hplaced
          · refine .inl ⟨token, herror, .inr fun hall => hnodup ?_⟩
            exact (List.nodup_append'.mp hall).2.1
          · exact .inr ⟨last, .cons hevent htakes, hend⟩

/-- The end of a method that is refused because of a label misses one. -/
theorem misses_of_methodEnd {method : MethodDraft} (hmethod : draft.method = some method)
    (h : receive .methodEnd draft = .error error draft') : method.Misses error := by
  have refuses : RefusesOnly method.Misses (do
      let member ← request method.finish
      modify fun draft => { draft with methods := draft.methods.push member } : Step Unit) := by
    apply (refusesOnly_request method.misses_finish).bind
    intro member draft error draft' h
    cases h
  rw [receive_methodEnd_eq, hmethod] at h
  exact refuses _ _ _ h

/-- The end of a method with code that is taken misses no label. -/
theorem placed_of_methodEnd {method : MethodDraft} (hmethod : draft.method = some method)
    (code : method.hasCode = true) (h : receive .methodEnd draft = .ok () draft') :
    ∀ token ∈ method.mentioned, token ∈ method.labels := by
  rw [receive_methodEnd_eq, hmethod] at h
  obtain ⟨member, draft₁, hrequest, -⟩ := bind_eq_ok_iff.mp h
  obtain ⟨pool, hask, -⟩ := request_eq_ok_iff.mp hrequest
  exact MethodDraft.placed_of_finish code hask

end ClassDraft

namespace MethodBody

variable {body : MethodBody}

/-- Tells the code of a method, and that the method ends. -/
def tellMethod (body : MethodBody) : Transcript :=
  body.transcript.andThen (.tell [.methodEnd])

/-- What comes of telling the code of a method to a draft, and then that the method ends. -/
def tellTo (body : MethodBody) (draft : ClassDraft) : EStateM.Result Error ClassDraft Unit :=
  Receiver.deliver ClassDraft.receive body.tellMethod draft

/-- The body is refused because of a label. -/
def Mislabelled (body : MethodBody) (draft : ClassDraft) : Prop :=
  ∃ error draft', body.tellTo draft = .error error draft' ∧ error.isLabel = true

/-- The body is taken or refused because of a label. -/
def OtherwiseTaken (body : MethodBody) (draft : ClassDraft) : Prop :=
  ∀ error draft', body.tellTo draft = .error error draft' → error.isLabel = true

/-- The body refers to a label that has no place in it. -/
def Lacks (body : MethodBody) (label : Label) : Prop :=
  label ∈ body.referenced ∧ label ∉ body.placed

/-- The first label without a place is the one that is reported. -/
theorem checkLabels_cases (body : MethodBody) :
    (body.checkLabels = .ok () ∧ ∀ label, ¬body.Lacks label) ∨
      ∃ before label after, body.referenced = before ++ label :: after ∧
        (∀ other ∈ before, other ∈ body.placed) ∧ label ∉ body.placed ∧
          body.checkLabels = malformed (.unplacedLabel label) := by
  cases hfound : body.referenced.find? fun label =>
      !(Std.TreeSet.ofList body.placed).contains label with
  | none =>
      refine .inl ⟨?_, fun label lacks => ?_⟩
      · simp only [checkLabels, hfound]
      · exact List.find?_eq_none.mp hfound label lacks.1 (body.not_contains_iff.mpr lacks.2)
  | some label =>
      obtain ⟨hlabel, before, after, hreferenced, hbefore⟩ :=
        List.find?_eq_some_iff_append.mp hfound
      refine .inr ⟨before, label, after, hreferenced, fun other hother => ?_,
        body.not_contains_iff.mp hlabel, ?_⟩
      · have hother := hbefore other hother
        by_contra hmissing
        rw [body.not_contains_iff.mpr hmissing] at hother
        cases hother
      · simp only [checkLabels, hfound]

theorem placed_events (body : MethodBody) :
    (body.listing.map Label.token).events.flatMap Event.placed = body.placed.map Label.token := by
  have hblocks (blocks : List (TryBlock Label)) :
      blocks.flatMap (fun block => Event.placed (.tryBlock (block.map Label.token))) = [] :=
    List.flatMap_eq_nil_iff.mpr fun _ _ => rfl
  simp only [Listing.events, Listing.map, listing, placed, List.flatMap_append, List.flatMap_map]
  rw [hblocks, List.flatMap_singleton, List.nil_append]
  apply (List.append_nil _).trans
  generalize body.instructions = instructions
  induction instructions with
  | nil => rfl
  | cons i rest ih =>
      rw [List.flatMap_cons, ih]
      cases i with
      | _ => rfl

theorem targets_events (body : MethodBody) :
    (body.listing.map Label.token).events.flatMap Event.targets =
      body.referenced.map Label.token := by
  simp only [Listing.events, Listing.map, listing, referenced, List.flatMap_append,
    List.flatMap_map, List.map_append, List.map_flatMap, Event.targets, Instruction.targets_map]
  rw [List.flatMap_singleton]
  exact congrArg _ (List.append_nil _)

/-- What is told of a body whose labels all have places. -/
theorem tellTo_eq (checked : body.checkLabels = .ok ()) (draft : ClassDraft) :
    body.tellTo draft = Receiver.deliverFrom ClassDraft.receive none
      ((body.listing.map Label.token).events ++ [.methodEnd]) draft := by
  have htold := transcript_eq_tell_iff.mpr ⟨checked, rfl⟩
  rw [tellTo, tellMethod, htold]
  simp only [Transcript.andThen, Transcript.tell, Receiver.deliver]
  cases Receiver.deliverFrom ClassDraft.receive none
    ((body.listing.map Label.token).events ++ [.methodEnd]) draft with
  | ok value draft' => rfl
  | error error draft' => rfl

/-- A body whose labels all have places is refused because of a label only for these causes. -/
theorem cases_of_error {draft draft' : ClassDraft} {method : MethodDraft} {error : Error}
    (hmethod : draft.method = some method) (checked : body.checkLabels = .ok ())
    (h : body.tellTo draft = .error error draft') (isLabel : error.isLabel = true) :
    (∃ token, error = .malformed (.tokenPlacedTwice token) ∧
        ((∃ label ∈ body.placed, label.token ∈ method.labels) ∨ ¬body.placed.Nodup)) ∨
      ∃ token ∈ method.mentioned, token ∉ method.labels ∧ token ∉ body.placed.map Label.token ∧
        error = .malformed (.unplacedToken token) := by
  rw [tellTo_eq checked] at h
  obtain ⟨token, rfl, htwice⟩ | ⟨mid, htakes, hend⟩ :=
    ClassDraft.placedTwice_or_methodEnd hmethod (isCode_events _) h isLabel
  · rw [placed_events, List.nodup_map_iff Label.token_injective] at htwice
    refine .inl ⟨token, rfl, htwice.imp_left ?_⟩
    rintro ⟨_, hplaced, hlabels⟩
    obtain ⟨label, hlabel, rfl⟩ := List.mem_map.mp hplaced
    exact ⟨label, hlabel, hlabels⟩
  · obtain ⟨method', hmethod', places⟩ :=
      (ClassDraft.changes_of_takes (isCode_events _) htakes).exists_method hmethod
    rw [placed_events, targets_events] at places
    obtain ⟨token, hmentioned, hmissing, rfl⟩ :=
      ClassDraft.misses_of_methodEnd hmethod' hend isLabel
    rw [places.labels, not_or] at hmissing
    refine .inr ⟨token, ?_, hmissing.1, hmissing.2, rfl⟩
    -- All that the body itself refers to was placed by it.
    refine (List.mem_append.mp (places.adds hmentioned)).resolve_right fun htarget => ?_
    obtain ⟨label, hlabel, rfl⟩ := List.mem_map.mp htarget
    refine hmissing.2 (List.mem_map_of_mem ?_)
    exact mem_placed_iff.mpr (checkLabels_eq_ok_iff.mp checked label hlabel)

/-- The sizes come last and give the method code. -/
theorem hasCode_of_takes {draft draft' : ClassDraft} {listing : Listing LabelToken}
    {method : MethodDraft} (h : Receiver.Takes ClassDraft.receive listing.events draft draft')
    (hmethod : draft'.method = some method) : method.hasCode = true := by
  obtain ⟨draft₁, -, h⟩ := Receiver.takes_append_iff.mp h
  obtain ⟨draft₂, -, h⟩ := Receiver.takes_append_iff.mp h
  obtain ⟨draft₃, hmaxs, h⟩ := Receiver.takes_cons_iff.mp h
  cases h
  obtain ⟨before, -, rfl⟩ := ClassDraft.editMethod_eq_ok_iff.mp hmaxs
  cases hmethod
  rfl

/-- A body that is taken has all labels in order. -/
theorem placed_of_ok {draft draft' : ClassDraft} {method : MethodDraft}
    (hmethod : draft.method = some method) (h : body.tellTo draft = .ok () draft') :
    (∀ label, ¬body.Lacks label) ∧ body.placed.Nodup ∧
      (∀ label ∈ body.placed, label.token ∉ method.labels) ∧
        ∀ token ∈ method.mentioned,
          token ∈ method.labels ∨ token ∈ body.placed.map Label.token := by
  obtain ⟨checked, complete⟩ | ⟨before, label, after, -, -, -, hcheck⟩ := body.checkLabels_cases
  · rw [tellTo_eq checked, Receiver.deliverFrom_eq_ok_iff, Receiver.takes_append_iff] at h
    obtain ⟨mid, htakes, hend⟩ := h
    obtain ⟨draft₁, hend, -⟩ := Receiver.takes_cons_iff.mp hend
    obtain ⟨method', hmethod', places⟩ :=
      (ClassDraft.changes_of_takes (isCode_events _) htakes).exists_method hmethod
    rw [placed_events, targets_events] at places
    have hplaced := ClassDraft.placed_of_methodEnd hmethod' (hasCode_of_takes htakes hmethod') hend
    refine ⟨complete, ?_, fun label hlabel => ?_, fun token htoken => ?_⟩
    · exact (List.nodup_map_iff Label.token_injective).mp places.nodup
    · exact places.fresh _ (List.mem_map_of_mem hlabel)
    · exact (places.labels token).mp (hplaced token (places.keeps htoken))
  · rw [tellTo, tellMethod, transcript, hcheck] at h
    cases h

/-- A body that lacks a label is refused because of the first one, before anything is told. -/
theorem refused_of_lacks (lacks : ∃ label, body.Lacks label) (draft : ClassDraft) :
    ∃ before label after, body.referenced = before ++ label :: after ∧
      (∀ other ∈ before, other ∈ body.placed) ∧ label ∉ body.placed ∧
        body.tellMethod = .fail (.malformed (.unplacedLabel label)) ∧
          body.tellTo draft = .error (.malformed (.unplacedLabel label)) draft := by
  obtain ⟨-, complete⟩ | ⟨before, first, after, hreferenced, hbefore, hfirst, hcheck⟩ :=
    body.checkLabels_cases
  · obtain ⟨label, lacks⟩ := lacks
    exact absurd lacks (complete label)
  · have htell : body.tellMethod = .fail (.malformed (.unplacedLabel first)) := by
      rw [tellMethod, transcript, hcheck]
      rfl
    refine ⟨before, first, after, hreferenced, hbefore, hfirst, htell, ?_⟩
    rw [tellTo, htell]
    rfl

/-- A body lacks a label unless its check succeeds. -/
theorem checked_or_lacks (body : MethodBody) :
    body.checkLabels = .ok () ∨ ∃ label, body.Lacks label := by
  obtain ⟨checked, -⟩ | ⟨before, label, after, hreferenced, -, hlabel, -⟩ := body.checkLabels_cases
  · exact .inl checked
  · refine .inr ⟨label, ?_, hlabel⟩
    rw [hreferenced]
    exact List.mem_append_right _ List.mem_cons_self

/-- A body that is told to a method is refused because of a label exactly if it lacks a label, has
one twice, has one that the method had before or leaves one out that the method mentioned before. -/
theorem mislabelled_iff {draft : ClassDraft} {method : MethodDraft}
    (hmethod : draft.method = some method) (otherwise : body.OtherwiseTaken draft) :
    body.Mislabelled draft ↔ (∃ label, body.Lacks label) ∨ ¬body.placed.Nodup ∨
      (∃ label ∈ body.placed, label.token ∈ method.labels) ∨
        ∃ token ∈ method.mentioned, token ∉ method.labels ∧
          token ∉ body.placed.map Label.token := by
  constructor
  · rintro ⟨error, draft', h, isLabel⟩
    obtain checked | lacks := body.checked_or_lacks
    · obtain ⟨-, -, hplaced | hnodup⟩ | ⟨token, hmentioned, hlabels, hplaced, -⟩ :=
        cases_of_error hmethod checked h isLabel
      · exact .inr (.inr (.inl hplaced))
      · exact .inr (.inl hnodup)
      · exact .inr (.inr (.inr ⟨token, hmentioned, hlabels, hplaced⟩))
    · exact .inl lacks
  · intro wrong
    cases h : body.tellTo draft with
    | error error draft' => exact ⟨error, draft', h, otherwise error draft' h⟩
    | ok value draft' =>
        obtain ⟨complete, nodup, fresh, kept⟩ := placed_of_ok hmethod h
        obtain ⟨label, lacks⟩ | twice | ⟨label, hlabel, hplaced⟩ | ⟨token, hmentioned, hmissing⟩ :=
          wrong
        · exact absurd lacks (complete label)
        · exact absurd nodup twice
        · exact absurd hplaced (fresh label hlabel)
        · exact absurd (kept token hmentioned) (not_or.mpr hmissing)

/-- The draft itself misses only a label that was mentioned before the body was told. -/
theorem mentioned_of_unplaced {draft draft' : ClassDraft} {method : MethodDraft}
    {token : LabelToken} (hmethod : draft.method = some method)
    (h : body.tellTo draft = .error (.malformed (.unplacedToken token)) draft') :
    token ∈ method.mentioned ∧ token ∉ method.labels ∧ token ∉ body.placed.map Label.token := by
  obtain checked | lacks := body.checked_or_lacks
  · obtain ⟨other, herror, -⟩ | ⟨other, hmentioned, hlabels, hplaced, herror⟩ :=
      cases_of_error hmethod checked h rfl
    · cases herror
    · cases herror
      exact ⟨hmentioned, hlabels, hplaced⟩
  · obtain ⟨_, _, _, -, -, -, -, hrefused⟩ := refused_of_lacks lacks draft
    rw [hrefused] at h
    cases h

/-- A body that is told to a method is refused because of a label exactly if it lacks a label, has
one twice, has one that the method had before or leaves one out that the method mentioned before.
The first label that it lacks is reported before anything is told. A label that the draft itself
misses was mentioned before. -/
theorem label_checks_agree (body : MethodBody) {draft : ClassDraft} {method : MethodDraft}
    (hmethod : draft.method = some method) :
    ((∃ label, body.Lacks label) → ∃ before label after,
      body.referenced = before ++ label :: after ∧ (∀ other ∈ before, other ∈ body.placed) ∧
        label ∉ body.placed ∧ body.tellMethod = .fail (.malformed (.unplacedLabel label)) ∧
          body.tellTo draft = .error (.malformed (.unplacedLabel label)) draft) ∧
    (body.OtherwiseTaken draft → (body.Mislabelled draft ↔
      (∃ label, body.Lacks label) ∨ ¬body.placed.Nodup ∨
        (∃ label ∈ body.placed, label.token ∈ method.labels) ∨
          ∃ token ∈ method.mentioned, token ∉ method.labels ∧
            token ∉ body.placed.map Label.token)) ∧
    (∀ token draft', body.tellTo draft = .error (.malformed (.unplacedToken token)) draft' →
      token ∈ method.mentioned ∧ token ∉ method.labels ∧ token ∉ body.placed.map Label.token) ∧
    ∀ flags name descriptor exceptions, method = .start flags name descriptor exceptions →
      (body.OtherwiseTaken draft → (body.Mislabelled draft ↔
        (∃ label, body.Lacks label) ∨ ¬body.placed.Nodup)) ∧
      ∀ token draft', body.tellTo draft ≠ .error (.malformed (.unplacedToken token)) draft' := by
  refine ⟨fun lacks => refused_of_lacks lacks draft, mislabelled_iff hmethod,
    fun token draft' => mentioned_of_unplaced hmethod, ?_⟩
  rintro flags name descriptor exceptions rfl
  have hmentioned : (MethodDraft.start flags name descriptor exceptions).mentioned = [] := rfl
  constructor
  · intro otherwise
    rw [mislabelled_iff hmethod otherwise, hmentioned]
    simp [MethodDraft.start]
  · intro token draft' h
    have hmem := (mentioned_of_unplaced hmethod h).1
    rw [hmentioned] at hmem
    cases hmem

/-- Why a delivery was refused, if it was. -/
def refusal? : EStateM.Result Error ClassDraft Unit → Option Error
  | .ok _ _ => none
  | .error error _ => some error

theorem exists_eq_error (result : EStateM.Result Error ClassDraft Unit) (error : Error)
    (h : refusal? result = some error) : ∃ draft', result = .error error draft' := by
  cases result with
  | ok value draft' => cases h
  | error other draft' =>
      cases h
      exact ⟨draft', rfl⟩

theorem otherwiseTaken_of_error {draft draft' : ClassDraft} {error : Error}
    (h : body.tellTo draft = .error error draft') (isLabel : error.isLabel = true) :
    body.OtherwiseTaken draft := by
  intro other draft'' hother
  obtain ⟨rfl, -⟩ := EStateM.Result.error.inj (h.symm.trans hother)
  exact isLabel

/-- A draft whose method was opened and got an instruction. -/
def openedWith (i : Instruction LabelToken) : ClassDraft :=
  (Receiver.deliverAll ClassDraft.receive [.header ⟨65, 0⟩ (.ofBits _ 33) "A" none [],
    .method (.ofBits _ 9) "m" "()V" [], .instruction i] .empty).2

/-- A draft whose method has just begun. -/
def justBegun : ClassDraft :=
  { ClassDraft.empty with method := some (.start (.ofBits _ 9) 0 0 none) }

/-- A body with this code. -/
def ofCode (code : List (Instruction Label)) : MethodBody :=
  code.foldl (fun body i => (body.append i).2) (.empty 0)

/-- In a method that has jumped to a label before, a body that lacks a label is refused, and so is
one without labels. In a method that has just begun, a body that places a label twice is refused,
and not because a label is missing. -/
theorem label_checks_agree_jumpedAhead :
    ∃ method draft', (openedWith (.jump ⟨167⟩ ⟨7⟩)).method = some method ∧
      (ofCode [.jump ⟨167⟩ ⟨0⟩]).tellTo (openedWith (.jump ⟨167⟩ ⟨7⟩)) =
        .error (.malformed (.unplacedLabel ⟨0⟩)) (openedWith (.jump ⟨167⟩ ⟨7⟩)) ∧
      (ofCode [.simple ⟨177⟩]).Mislabelled (openedWith (.jump ⟨167⟩ ⟨7⟩)) ∧
      (ofCode [.simple ⟨177⟩]).tellTo (openedWith (.jump ⟨167⟩ ⟨7⟩)) =
        .error (.malformed (.unplacedToken ⟨7⟩)) draft' ∧
      (⟨7⟩ ∈ method.mentioned ∧ ⟨7⟩ ∉ method.labels ∧
        ⟨7⟩ ∉ (ofCode [.simple ⟨177⟩]).placed.map Label.token) ∧
      (ofCode [.label ⟨0⟩, .label ⟨0⟩]).Mislabelled justBegun ∧
      ∀ token draft', (ofCode [.label ⟨0⟩, .label ⟨0⟩]).tellTo justBegun ≠
        .error (.malformed (.unplacedToken token)) draft' := by
  have hopen : (openedWith (.jump ⟨167⟩ ⟨7⟩)).method.isSome = true := by decide +kernel
  obtain ⟨method, hmethod⟩ := Option.isSome_iff_exists.mp hopen
  -- a body that lacks a label
  have hreferenced : (ofCode [.jump ⟨167⟩ ⟨0⟩]).referenced = [⟨0⟩] := by decide +kernel
  have lacks : (ofCode [.jump ⟨167⟩ ⟨0⟩]).Lacks ⟨0⟩ := ⟨by decide +kernel, by decide +kernel⟩
  obtain ⟨before, label, after, hlabel, -, -, -, hlacking⟩ :=
    (label_checks_agree (ofCode [.jump ⟨167⟩ ⟨0⟩]) hmethod).1 ⟨_, lacks⟩
  obtain rfl : label = ⟨0⟩ := by
    have hmem : label ∈ before ++ label :: after := by simp
    rw [← hlabel, hreferenced] at hmem
    exact List.mem_singleton.mp hmem
  -- a body without labels
  obtain ⟨draft', hrefused⟩ := exists_eq_error
    ((ofCode [.simple ⟨177⟩]).tellTo (openedWith (.jump ⟨167⟩ ⟨7⟩)))
    (.malformed (.unplacedToken ⟨7⟩)) (by decide +kernel)
  obtain ⟨-, agree, missing, -⟩ := label_checks_agree (ofCode [.simple ⟨177⟩]) hmethod
  have hmissing := missing ⟨7⟩ draft' hrefused
  have mislabelled := (agree (otherwiseTaken_of_error hrefused rfl)).mpr
    (.inr (.inr (.inr ⟨⟨7⟩, hmissing⟩)))
  -- a method that has just begun
  obtain ⟨draft'', htwice⟩ := exists_eq_error
    ((ofCode [.label ⟨0⟩, .label ⟨0⟩]).tellTo justBegun)
    (.malformed (.tokenPlacedTwice ⟨0⟩)) (by decide +kernel)
  obtain ⟨-, -, -, begun⟩ :=
    @label_checks_agree (ofCode [.label ⟨0⟩, .label ⟨0⟩]) justBegun _ rfl
  obtain ⟨agreeBegun, complete⟩ := begun _ _ _ _ rfl
  have twice : ¬(ofCode [.label ⟨0⟩, .label ⟨0⟩]).placed.Nodup := by decide +kernel
  exact ⟨method, draft', hmethod, hlacking, mislabelled, hrefused, hmissing,
    (agreeBegun (otherwiseTaken_of_error htwice rfl)).mpr (.inr twice), complete⟩

/-- A body that places a label which the method placed before is refused, although the body itself
refers to no other label and places none twice. -/
theorem not_forall_label_checks :
    ¬ ∀ (body : MethodBody) (draft : ClassDraft), draft.method.isSome = true →
      body.OtherwiseTaken draft →
        (body.Mislabelled draft ↔ (∃ label, body.Lacks label) ∨ ¬body.placed.Nodup) := by
  intro agree
  let body := ofCode [.label ⟨3⟩, .simple ⟨177⟩]
  have hopen : (openedWith (.label ⟨3⟩)).method.isSome = true := by decide +kernel
  have hreferenced : body.referenced = [⟨3⟩] := by decide +kernel
  have hplaced : body.placed = [⟨3⟩] := by decide +kernel
  obtain ⟨draft', hrefused⟩ := exists_eq_error (body.tellTo (openedWith (.label ⟨3⟩)))
    (.malformed (.tokenPlacedTwice ⟨3⟩)) (by decide +kernel)
  obtain ⟨label, lacks⟩ | twice :=
    (agree body _ hopen (otherwiseTaken_of_error hrefused rfl)).mp ⟨_, draft', hrefused, rfl⟩
  · rw [Lacks, hreferenced, hplaced] at lacks
    exact lacks.2 lacks.1
  · rw [hplaced] at twice
    exact twice (List.nodup_singleton _)

end MethodBody

end JavaClass
