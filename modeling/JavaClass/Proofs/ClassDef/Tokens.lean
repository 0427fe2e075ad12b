import JavaClass.Proofs.Assembly.Retelling
import JavaClass.Proofs.ClassDef.Building

/-!
# Only equality of tokens counts

Events may be sent with any tokens for the labels of a method. A class draft and
a partial class refuse the same events whichever they are, and what comes out in
the end is the same: the bytes of the class file and the definition of the
class, down to the numbers of its labels.

## Implementation notes

A body remembers the tokens that it has met. Definitions are compared without
this memory (`ClassDef.withoutTokens`).
-/

namespace JavaClass

variable {f : LabelToken → LabelToken}

namespace MethodBody

/-- The body, without the tokens that it has met. -/
def withoutTokens (body : MethodBody) : MethodBody :=
  { body with labels := ∅ }

/-- The other body has met other tokens for the same labels. -/
structure Renamed (f : LabelToken → LabelToken) (body other : MethodBody) : Prop where
  same : other.withoutTokens = body.withoutTokens
  labels : ∀ token, other.labels[f token]? = body.labels[token]?

variable {body other : MethodBody}

theorem renamed_empty (f : LabelToken → LabelToken) (id : UInt32) :
    (empty id).Renamed f (empty id) :=
  ⟨rfl, by simp [empty]⟩

theorem withoutTokens_linkAfter (slot after : Option UInt32) :
    (body.linkAfter slot after).withoutTokens = body.withoutTokens.linkAfter slot after := by
  have hnode : body.withoutTokens.node? = body.node? := rfl
  simp only [linkAfter, hnode]
  split <;> rfl

theorem withoutTokens_linkBefore (slot before : Option UInt32) :
    (body.linkBefore slot before).withoutTokens = body.withoutTokens.linkBefore slot before := by
  have hnode : body.withoutTokens.node? = body.node? := rfl
  simp only [linkBefore, hnode]
  split <;> rfl

theorem withoutTokens_allocate (node : BodyNode) :
    (body.allocate node).2.withoutTokens = (body.withoutTokens.allocate node).2 := by
  have hfree : body.withoutTokens.free = body.free := rfl
  simp only [allocate, hfree]
  split <;> rfl

/-- Adding an instruction does not look at tokens. -/
theorem withoutTokens_append (i : Instruction Label) :
    (body.append i).2.withoutTokens = (body.withoutTokens.append i).2 := by
  have hresize (body : MethodBody) :
      (body.resize (body.size + 1)).withoutTokens =
        body.withoutTokens.resize (body.withoutTokens.size + 1) := rfl
  have hslot : body.withoutTokens.nextSlot = body.nextSlot := rfl
  have hlast : body.withoutTokens.last = body.last := rfl
  simp only [append, insertBetween_snd, hresize, relink, withNode, withoutTokens_linkBefore,
    withoutTokens_linkAfter, withoutTokens_allocate, hslot, hlast]

namespace Renamed

variable (renamed : body.Renamed f other)

include renamed

theorem labelCount : other.labelCount = body.labelCount :=
  (congrArg MethodBody.labelCount renamed.same :)

theorem resolve (inj : Function.Injective f) (token : LabelToken) :
    (other.resolve (f token)).1 = (body.resolve token).1 ∧
      (body.resolve token).2.Renamed f (other.resolve (f token)).2 := by
  have hcount := renamed.labelCount
  unfold MethodBody.resolve
  rw [renamed.labels]
  cases body.labels[token]? with
  | some label => exact ⟨rfl, renamed⟩
  | none =>
      simp only [newLabel, hcount, true_and]
      refine ⟨?_, fun token' => ?_⟩
      · calc ({ other with labelCount := body.labelCount + 1 } : MethodBody).withoutTokens
            = { other.withoutTokens with labelCount := body.labelCount + 1 } := rfl
          _ = { body.withoutTokens with labelCount := body.labelCount + 1 } := by rw [renamed.same]
      · simp only [Std.TreeMap.getElem?_insert, Std.compare_eq_iff_eq, inj.eq_iff, renamed.labels]

theorem resolveAll (inj : Function.Injective f) (tokens : List LabelToken) :
    (body.resolveAll tokens).2.Renamed f (other.resolveAll (tokens.map f)).2 := by
  rw [resolveAll_snd, resolveAll_snd]
  induction tokens generalizing body other with
  | nil => exact renamed
  | cons token tokens ih => exact ih (renamed.resolve inj token).2

theorem addInstruction (inj : Function.Injective f) (i : Instruction LabelToken) :
    (PartialClass.addInstruction body i).Renamed f
      (PartialClass.addInstruction other (i.map f)) := by
  have renamed' := renamed.resolveAll inj i.targets
  unfold PartialClass.addInstruction
  rw [Instruction.targets_map]
  generalize (body.resolveAll i.targets).2 = body, (other.resolveAll (i.targets.map f)).2 = other
    at renamed'
  have hmap : (i.map f).map (fun token => (other.resolve token).1) =
      i.map fun token => (body.resolve token).1 := by
    rw [Instruction.map_map]
    exact Instruction.map_congr fun token _ => (renamed'.resolve inj token).1
  simp only [hmap]
  generalize i.map (fun token => (body.resolve token).1) = i
  constructor
  · rw [withoutTokens_append, renamed'.same, withoutTokens_append]
  · rw [sameTables_append i |>.labels, sameTables_append i |>.labels]
    exact renamed'.labels

theorem addTryBlock (inj : Function.Injective f) (block : TryBlock LabelToken) :
    (PartialClass.addTryBlock body block).Renamed f
      (PartialClass.addTryBlock other (block.map f)) := by
  have renamed' := renamed.resolveAll inj block.targets
  unfold PartialClass.addTryBlock
  rw [TryBlock.targets_map]
  generalize (body.resolveAll block.targets).2 = body,
    (other.resolveAll (block.targets.map f)).2 = other at renamed'
  have hmap : (block.map f).map (fun token => (other.resolve token).1) =
      block.map fun token => (body.resolve token).1 := by
    rw [TryBlock.map_map]
    exact TryBlock.map_congr fun token _ => (renamed'.resolve inj token).1
  simp only [hmap]
  refine ⟨?_, renamed'.labels⟩
  generalize block.map (fun token => (body.resolve token).1) = block
  calc (other.addTryBlock block).withoutTokens
      = other.withoutTokens.addTryBlock block := rfl
    _ = body.withoutTokens.addTryBlock block := by rw [renamed'.same]

theorem sized (maxStack maxLocals : UInt16) :
    Renamed f { body with maxStack, maxLocals } { other with maxStack, maxLocals } := by
  refine ⟨?_, renamed.labels⟩
  calc ({ other with maxStack, maxLocals } : MethodBody).withoutTokens
      = { other.withoutTokens with maxStack, maxLocals } := rfl
    _ = { body.withoutTokens with maxStack, maxLocals } := by rw [renamed.same]

end Renamed

end MethodBody

namespace MethodDef

/-- The method, without the tokens that its body has met. -/
def withoutTokens (method : MethodDef) : MethodDef :=
  { method with body := method.body.withoutTokens }

/-- The other method has met other tokens for the same labels. -/
structure Renamed (f : LabelToken → LabelToken) (method other : MethodDef) : Prop where
  same : other = { method with body := other.body }
  body : method.body.Renamed f other.body

theorem Renamed.withoutTokens_eq {method other : MethodDef} (renamed : method.Renamed f other) :
    other.withoutTokens = method.withoutTokens := by
  calc other.withoutTokens
      = { method with body := other.body.withoutTokens } := by rw [renamed.same]; rfl
    _ = method.withoutTokens := by rw [renamed.body.same]; rfl

end MethodDef

/-- The definition, without the tokens that its methods have met. -/
def ClassDef.withoutTokens (c : ClassDef) : ClassDef :=
  { c with methods := c.methods.map MethodDef.withoutTokens }

theorem ClassDef.withoutTokens_push (c : ClassDef) (method : MethodDef) :
    { c with methods := c.methods.push method }.withoutTokens =
      { c.withoutTokens with
        methods := c.withoutTokens.methods.push method.withoutTokens } := by
  simp only [withoutTokens, Array.map_push]

namespace PartialClass

/-- The method of the other class has received other tokens, and so have methods before. -/
structure Renamed (f : LabelToken → LabelToken) (p other : PartialClass) : Prop where
  definition : other.definition.map ClassDef.withoutTokens =
    p.definition.map ClassDef.withoutTokens
  field : other.field = p.field
  method : Option.Rel (MethodDef.Renamed f) p.method other.method
  ended : other.ended = p.ended

variable {p other : PartialClass}

theorem renamed_empty (f : LabelToken → LabelToken) : empty.Renamed f empty :=
  ⟨rfl, rfl, .none, rfl⟩

namespace Renamed

variable (renamed : p.Renamed f other)

include renamed

theorem nextId_eq : other.nextId = p.nextId := by
  have hsize (p : PartialClass) : p.definition.map (·.methods.size) =
      (p.definition.map ClassDef.withoutTokens).map (·.methods.size) := by
    rw [Option.map_map]
    congr 1
    ext c
    exact (Array.size_map).symm
  rw [nextId, nextId, hsize, renamed.definition, ← hsize]

/-- Both classes have a header or neither has. -/
theorem definition_rel : Option.Rel (fun c d : ClassDef => d.withoutTokens = c.withoutTokens)
    p.definition other.definition := by
  have h := renamed.definition
  generalize p.definition = definition, other.definition = definition' at h
  cases definition with
  | none =>
      rw [Option.map_none, Option.map_eq_none_iff] at h
      rw [h]
      exact .none
  | some c =>
      obtain ⟨d, rfl, hsame⟩ := Option.map_eq_some_iff.mp h
      exact .some hsame

end Renamed

theorem mirrors_refuse {α : Type} {cause : Malformation} (plain : cause.mapTokens f = cause) :
    Mirrors f (Renamed f) (refuse cause : Step α) (refuse cause) :=
  mirrors_throw (congrArg Error.malformed plain.symm)

theorem mirrors_needHeader : Mirrors f (Renamed f) needHeader needHeader := by
  intro p other renamed
  have hrelated := renamed.definition_rel
  unfold needHeader
  generalize p.definition = definition, other.definition = definition' at hrelated
  cases hrelated with
  | none => exact .error renamed
  | some _ => exact .ok renamed

/-- A change of the class that is the same but for tokens. -/
theorem mirrors_editClass {edit edit' : ClassDef → ClassDef}
    (same : ∀ c d : ClassDef, d.withoutTokens = c.withoutTokens →
      (edit' d).withoutTokens = (edit c).withoutTokens) :
    Mirrors f (Renamed f) (editClass edit) (editClass edit') := by
  intro p other renamed
  have hrelated := renamed.definition_rel
  unfold editClass
  generalize p.definition = definition, other.definition = definition' at hrelated
  cases hrelated with
  | none => exact .error renamed
  | some hsame =>
      apply SameOutcome.ok
      exact ⟨congrArg some (same _ _ hsame), renamed.field, renamed.method, renamed.ended⟩

/-- A change of the body that keeps to the labels. -/
theorem mirrors_editBody {edit edit' : MethodBody → MethodBody}
    (same : ∀ body other, MethodBody.Renamed f body other →
      (edit body).Renamed f (edit' other)) :
    Mirrors f (Renamed f) (editBody edit) (editBody edit') := by
  intro p other renamed
  have hrelated := renamed.method
  unfold editBody
  generalize p.method = method, other.method = method' at hrelated
  cases hrelated with
  | none => exact .error renamed
  | some hmethod =>
      apply SameOutcome.ok
      refine ⟨renamed.definition, renamed.field, .some ⟨?_, same _ _ hmethod.body⟩, renamed.ended⟩
      rw [hmethod.same]

theorem receive_header_eq (version : Version) (flags : ClassFlags) (name : String)
    (super : Option String) (interfaces : List String) (p : PartialClass) :
    receive (.header version flags name super interfaces) p =
      match p.definition with
      | some _ => refuse .secondHeader p
      | none => .ok () { p with
          definition := some { ClassDef.new name super with version, flags, interfaces } } := by
  obtain ⟨definition, field, method, ended⟩ := p
  cases definition with
  | some _ => rfl
  | none => rfl

theorem mirrors_header (version : Version) (flags : ClassFlags) (name : String)
    (super : Option String) (interfaces : List String) :
    Mirrors f (Renamed f) (receive (.header version flags name super interfaces))
      (receive (.header version flags name super interfaces)) := by
  intro p other renamed
  have hrelated := renamed.definition_rel
  rw [receive_header_eq, receive_header_eq]
  generalize p.definition = definition, other.definition = definition' at hrelated
  cases hrelated with
  | some _ => exact mirrors_refuse rfl _ _ renamed
  | none => exact .ok ⟨rfl, renamed.field, renamed.method, renamed.ended⟩

/-- The method is taken before it becomes part of the class. -/
theorem receive_methodEnd_eq (p : PartialClass) : receive .methodEnd p =
    (match p.method with
      | none => refuse .methodEndWithoutMethod
      | some method => editClass fun c => { c with methods := c.methods.push method } : Step Unit)
      { p with method := none } := by
  rw [receive]
  rfl

theorem mirrors_methodEnd : Mirrors f (Renamed f) (receive .methodEnd) (receive .methodEnd) := by
  intro p other renamed
  have hrelated := renamed.method
  have hnone : Renamed f { p with method := none } { other with method := none } :=
    ⟨renamed.definition, renamed.field, .none, renamed.ended⟩
  rw [receive_methodEnd_eq, receive_methodEnd_eq]
  generalize p.method = method, other.method = method' at hrelated
  cases hrelated with
  | none => exact mirrors_refuse rfl _ _ hnone
  | some hmethod =>
      apply mirrors_editClass _ _ _ hnone
      intro c d h
      rw [ClassDef.withoutTokens_push, ClassDef.withoutTokens_push, h, hmethod.withoutTokens_eq]

/-- An event with other tokens is received in the same way. -/
theorem mirrors_receive (inj : Function.Injective f) (event : Event) :
    Mirrors f (Renamed f) (receive event) (receive (event.mapTokens f)) := by
  cases event with
  | header version flags name super interfaces =>
      exact mirrors_header version flags name super interfaces
  | source file =>
      apply mirrors_editClass
      intro c d h
      calc ({ d with source := some file } : ClassDef).withoutTokens
          = { d.withoutTokens with source := some file } := rfl
        _ = { c.withoutTokens with source := some file } := by rw [h]
  | field flags name descriptor value =>
      apply mirrors_needHeader.bind
      intro _
      apply mirrors_modify
      intro p other renamed
      exact ⟨renamed.definition, rfl, renamed.method, renamed.ended⟩
  | fieldEnd =>
      have htake : Mirrors f (Renamed f)
          (modifyGet fun p : PartialClass => (p.field, { p with field := none }))
          (modifyGet fun p => (p.field, { p with field := none })) :=
        mirrors_modifyGet fun p other renamed =>
          ⟨renamed.field.symm, renamed.definition, rfl, renamed.method, renamed.ended⟩
      apply htake.bind
      intro field
      cases field with
      | none => exact mirrors_refuse rfl
      | some field =>
          apply mirrors_editClass
          intro c d h
          calc ({ d with fields := d.fields.push field } : ClassDef).withoutTokens
              = { d.withoutTokens with fields := d.withoutTokens.fields.push field } := rfl
            _ = { c.withoutTokens with fields := c.withoutTokens.fields.push field } := by rw [h]
  | method flags name descriptor exceptions =>
      apply mirrors_needHeader.bind
      intro _
      apply mirrors_modify
      intro p other renamed
      rw [renamed.nextId_eq]
      exact ⟨renamed.definition, renamed.field, .some ⟨rfl, MethodBody.renamed_empty f _⟩,
        renamed.ended⟩
  | instruction i => exact mirrors_editBody fun _ _ renamed => renamed.addInstruction inj i
  | tryBlock block => exact mirrors_editBody fun _ _ renamed => renamed.addTryBlock inj block
  | maxs stack locals =>
      exact mirrors_editBody fun _ _ renamed => renamed.sized stack locals
  | methodEnd => exact mirrors_methodEnd
  | classEnd =>
      apply mirrors_needHeader.bind
      intro _
      apply mirrors_modify
      intro p other renamed
      exact ⟨renamed.definition, renamed.field, renamed.method, rfl⟩

theorem receive_method_eq_ok {flags : MethodFlags} {name descriptor : String}
    {exceptions : List String} {q : PartialClass}
    (h : receive (.method flags name descriptor exceptions) p = .ok () q) :
    q = { p with method := some ⟨flags, name, descriptor, exceptions, .empty p.nextId⟩ } := by
  obtain ⟨_, p', hheader, h⟩ := bind_eq_ok_iff.mp h
  obtain rfl : p = p' := by
    unfold needHeader at hheader
    split at hheader
    · cases hheader
      rfl
    · cases hheader
  cases h
  rfl

/-- Which tokens the labels of a method have is free to choose when the method begins. -/
theorem renamed_of_begun {g : LabelToken → LabelToken} {flags : MethodFlags}
    {name descriptor : String} {exceptions : List String} {q q' : PartialClass}
    (renamed : p.Renamed f other)
    (h : receive (.method flags name descriptor exceptions) p = .ok () q)
    (hother : receive (.method flags name descriptor exceptions) other = .ok () q') :
    q.Renamed g q' := by
  rw [receive_method_eq_ok h, receive_method_eq_ok hother, renamed.nextId_eq]
  exact ⟨renamed.definition, renamed.field, .some ⟨rfl, MethodBody.renamed_empty g _⟩,
    renamed.ended⟩

/-- A partial class only asks which tokens are equal. -/
theorem onlyCompares_receive : Receiver.OnlyCompares receive Renamed where
  step inj event := mirrors_receive inj event
  begin {f g event p other q q'} hbegins renamed h hother := by
    cases event with
    | method flags name descriptor exceptions => exact renamed_of_begun renamed h hother
    | _ => cases hbegins

theorem Renamed.finish_eq (renamed : p.Renamed f other) :
    other.finish.map ClassDef.withoutTokens = p.finish.map ClassDef.withoutTokens := by
  have hrelated := renamed.definition_rel
  unfold finish
  rw [renamed.ended]
  generalize p.definition = definition, other.definition = definition' at hrelated
  cases hrelated with
  | none => rfl
  | some hsame =>
      cases p.ended with
      | false => rfl
      | true => exact congrArg Except.ok hsame

end PartialClass

namespace ClassDraft

theorem renamed_empty (f : LabelToken → LabelToken) : empty.Renamed f empty :=
  ⟨rfl, .none⟩

theorem Renamed.bytes_eq {draft other : ClassDraft} (renamed : draft.Renamed f other) :
    other.bytes = draft.bytes := by
  rw [bytes, renamed.same]
  rfl

end ClassDraft

namespace Event

/-- Whatever the tokens of the labels are, the same events are refused when a class file is
assembled or a class is defined, and the class file and the definition are the same. -/
theorem consumers_ignore_tokens {f : Nat → LabelToken → LabelToken}
    (inj : ∀ n, Function.Injective (f n)) (events : List Event) :
    Receiver.IgnoresTokens ClassDraft.receive ClassDraft.bytes .empty f events ∧
      Receiver.IgnoresTokens PartialClass.receive
        (fun p => p.finish.map ClassDef.withoutTokens) .empty f events := by
  constructor
  · apply ClassDraft.onlyCompares_receive.ignoresTokens inj (ClassDraft.renamed_empty _)
    exact fun renamed => renamed.bytes_eq
  · apply PartialClass.onlyCompares_receive.ignoresTokens inj (PartialClass.renamed_empty _)
    exact fun renamed => renamed.finish_eq

/-- Events some of which are refused: a label outside of methods, a label with two places, and the
end of a method with a label without a place. -/
def stumbling : List Event :=
  [.header ⟨52, 0⟩ (.ofBits _ 0x21) "A" none [], .instruction (.label ⟨3⟩),
    .method (.ofBits _ 9) "f" "()V" [], .instruction (.label ⟨3⟩), .instruction (.label ⟨3⟩),
    .instruction (.jump ⟨167⟩ ⟨3⟩), .maxs 0 0, .methodEnd,
    .method (.ofBits _ 9) "g" "()V" [], .instruction (.jump ⟨167⟩ ⟨3⟩), .methodEnd, .classEnd]

/-- Adds the number of the method to its tokens. -/
def shift (number : Nat) (token : LabelToken) : LabelToken :=
  ⟨token.id + UInt32.ofNat number⟩

theorem consumers_ignore_tokens_stumbling :
    (∀ n, Function.Injective (shift n)) ∧
      Receiver.IgnoresTokens ClassDraft.receive ClassDraft.bytes .empty shift stumbling ∧
      Receiver.IgnoresTokens PartialClass.receive
        (fun p => p.finish.map ClassDef.withoutTokens) .empty shift stumbling ∧
      (Receiver.deliverAll ClassDraft.receive stumbling .empty).1.map (·.1) = [1, 4, 10] := by
  have inj (n : Nat) : Function.Injective (shift n) := by
    intro first second h
    have hid : first.id = second.id := by simpa [shift] using h
    cases first
    cases second
    cases hid
    rfl
  obtain ⟨assembled, defined⟩ := consumers_ignore_tokens inj stumbling
  exact ⟨inj, assembled, defined, by decide +kernel⟩

end Event

end JavaClass
