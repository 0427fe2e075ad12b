import JavaClass.Proofs.Constant.Asking
import JavaClass.Proofs.Event.Delivery

/-!
# Constants with their parts

A constant refers to other constants, which are in the pool before it. Where a
constant stands with all of its parts is known from what it is, since no
constant is in a pool twice, and its parts are found from there.

## Implementation notes

A tree says what a constant is without the slots of its parts. The requests of
the pool for composed constants are all the one request for a tree, which asks
for the parts first.
-/

namespace JavaClass

/-- The slots that an entry refers to. -/
def Constant.references : Constant → List UInt16
  | classInfo name => [name]
  | fieldRef owner member => [owner, member]
  | methodRef owner member _ => [owner, member]
  | string text => [text]
  | nameAndType name descriptor => [name, descriptor]
  | methodHandle _ member => [member]
  | methodType descriptor => [descriptor]
  | invokeDynamic _ member => [member]
  | moduleInfo name => [name]
  | packageInfo name => [name]
  | _ => []

/-- A constant, made of the slots of its parts, and these parts. -/
inductive ConstantTree where
  | leaf (constant : Constant)
  | one (make : UInt16 → Constant) (refers : ∀ slot, (make slot).references = [slot])
      (part : ConstantTree)
  | two (make : UInt16 → UInt16 → Constant) (refers : ∀ a b, (make a b).references = [a, b])
      (first second : ConstantTree)

namespace ConstantTree

open ConstantPool

def text (content : String) : ConstantTree := leaf (.utf8 content)

def classNamed (name : String) : ConstantTree := one .classInfo (fun _ => rfl) (text name)

def nameAndType (name descriptor : String) : ConstantTree :=
  two .nameAndType (fun _ _ => rfl) (text name) (text descriptor)

def field (owner name descriptor : String) : ConstantTree :=
  two .fieldRef (fun _ _ => rfl) (classNamed owner) (nameAndType name descriptor)

def method (owner name descriptor : String) (isInterface : Bool) : ConstantTree :=
  two (.methodRef · · isInterface) (fun _ _ => rfl) (classNamed owner)
    (nameAndType name descriptor)

/-- The field or the method that a handle names. -/
def handleMember (handle : MethodHandle) : ConstantTree :=
  if handle.kind.isField then field handle.owner handle.name handle.descriptor
  else method handle.owner handle.name handle.descriptor handle.isInterface

def methodHandle (handle : MethodHandle) : ConstantTree :=
  one (.methodHandle handle.kind) (fun _ => rfl) (handleMember handle)

def callSite (position : UInt16) (name descriptor : String) : ConstantTree :=
  one (.invokeDynamic position) (fun _ => rfl) (nameAndType name descriptor)

def literal : Literal → ConstantTree
  | .int value => leaf (.integer value)
  | .float bits => leaf (.float bits)
  | .long value => leaf (.long value)
  | .double bits => leaf (.double bits)
  | .string contents => one .string (fun _ => rfl) (text contents)
  | .classRef name => classNamed name
  | .methodType descriptor => one .methodType (fun _ => rfl) (text descriptor)
  | .methodHandle handle => methodHandle handle

/-- Asks for the parts of a constant, and then for the constant. -/
def request : ConstantTree → Request UInt16
  | leaf constant => .intern constant
  | one make _ part => do .intern (make (← part.request))
  | two make _ first second => do
      let first ← first.request
      let second ← second.request
      .intern (make first second)

theorem request_methodHandle (handle : MethodHandle) :
    (methodHandle handle).request = .methodHandle handle := by
  have member : (handleMember handle).request = Request.handleMember handle := by
    unfold handleMember Request.handleMember
    split <;> rfl
  rw [Request.methodHandle_eq, ← member]
  rfl

theorem request_literal (value : Literal) : (literal value).request = .literal value := by
  cases value with
  | methodHandle handle => exact request_methodHandle handle
  | _ => rfl

/-- The constant itself, with these slots for its parts. -/
def root : ConstantTree → UInt16 → UInt16 → Constant
  | leaf constant, _, _ => constant
  | one make _ _, a, _ => make a
  | two make _ _ _, a, b => make a b

variable {table : ConstantTable} {slot slot' : UInt16} {tree part : ConstantTree}

/-- The constant stands at a slot of a table, and each part where it says. -/
def Shown (table : ConstantTable) : ConstantTree → UInt16 → Prop
  | leaf constant, slot => table.get slot = .ok constant
  | one make _ part, slot => ∃ inner, table.get slot = .ok (make inner) ∧ part.Shown table inner
  | two make _ first second, slot => ∃ a b, table.get slot = .ok (make a b) ∧
      first.Shown table a ∧ second.Shown table b

theorem Shown.get (shown : tree.Shown table slot) :
    ∃ a b, table.get slot = .ok (tree.root a b) := by
  cases tree with
  | leaf constant => exact ⟨0, 0, shown⟩
  | one make _ part =>
      obtain ⟨inner, whole, -⟩ := shown
      exact ⟨inner, 0, whole⟩
  | two make _ first second =>
      obtain ⟨a, b, whole, -⟩ := shown
      exact ⟨a, b, whole⟩

/-- A constant and its parts stand where the request for it says. -/
theorem gives_request (tree : ConstantTree) :
    tree.request.Gives fun table slot => slot ≠ 0 ∧ tree.Shown table slot := by
  induction tree with
  | leaf constant => exact Request.gives_intern constant
  | one make _ part ih =>
      refine ih.bind (fun inner => Request.gives_intern (make inner)) ?_
      intro table inner slot shown leads
      exact ⟨leads.1, inner, leads.2, shown.2⟩
  | two make _ first second ihFirst ihSecond =>
      have rest (a : UInt16) : Request.Gives (do Request.intern (make a (← second.request)))
          fun table slot => ∃ b, second.Shown table b ∧ Request.LeadsTo (make a b) table slot :=
        ihSecond.bind (fun b => Request.gives_intern (make a b))
          fun table b slot shown leads => ⟨b, shown.2, leads⟩
      refine ihFirst.bind rest ?_
      rintro table a slot shown ⟨b, shown', leads⟩
      exact ⟨leads.1, a, b, leads.2, shown.2, shown'⟩

/-- A constant that stands in a pool is found there, and nothing is added. -/
theorem request_of_shown {pool : ConstantPool} (valid : pool.Valid)
    (shown : tree.Shown ⟨pool.entries⟩ slot) : tree.request pool = .ok slot pool := by
  have found {slot : UInt16} {constant : Constant}
      (h : ConstantTable.get ⟨pool.entries⟩ slot = .ok constant) :
      Request.intern constant pool = .ok slot pool :=
    valid.intern_of_mem (SlotVector.mem_of_get? (ConstantTable.get_eq_ok_iff.mp h))
  induction tree generalizing slot with
  | leaf constant => exact found shown
  | one make _ part ih =>
      obtain ⟨inner, whole, shown⟩ := shown
      exact bind_eq_ok_iff.mpr ⟨inner, pool, ih shown, found whole⟩
  | two make _ first second ihFirst ihSecond =>
      obtain ⟨a, b, whole, shown, shown'⟩ := shown
      exact bind_eq_ok_iff.mpr
        ⟨a, pool, ihFirst shown, bind_eq_ok_iff.mpr ⟨b, pool, ihSecond shown', found whole⟩⟩

/-- A constant stands in a pool with its parts once. -/
theorem Shown.unique {pool : ConstantPool} (valid : pool.Valid)
    (shown : tree.Shown ⟨pool.entries⟩ slot) (shown' : tree.Shown ⟨pool.entries⟩ slot') :
    slot = slot' := by
  have same := (request_of_shown valid shown).symm.trans (request_of_shown valid shown')
  exact (EStateM.Result.ok.inj same).1

end ConstantTree

/-- One slot leads to another by references. -/
inductive ConstantTable.Leads (table : ConstantTable) (slot : UInt16) : UInt16 → Prop where
  | refl : Leads table slot slot
  | step {middle next : UInt16} {constant : Constant} (led : Leads table slot middle)
      (found : table.get middle = .ok constant) (refers : next ∈ constant.references) :
      Leads table slot next

namespace ConstantTable

variable {table : ConstantTable} {first second third : UInt16}

theorem Leads.trans (h : table.Leads first second) (h' : table.Leads second third) :
    table.Leads first third := by
  induction h' with
  | refl => exact h
  | step _ found refers ih => exact ih.step found refers

theorem Leads.of_reference {constant : Constant} (found : table.get first = .ok constant)
    (refers : second ∈ constant.references) : table.Leads first second :=
  .step .refl found refers

end ConstantTable

namespace ConstantTree

open ConstantPool

variable {table : ConstantTable} {slot : UInt16} {tree part : ConstantTree}

/-- A constant and everything that it is made of. -/
def parts : ConstantTree → List ConstantTree
  | leaf constant => [leaf constant]
  | one make refers part => one make refers part :: part.parts
  | two make refers first second =>
      two make refers first second :: (first.parts ++ second.parts)

theorem self_mem_parts (tree : ConstantTree) : tree ∈ tree.parts := by
  cases tree <;> exact List.mem_cons_self

/-- Some constants and everything that they are made of. -/
def allParts (trees : List ConstantTree) : List ConstantTree :=
  trees.flatMap parts

theorem allParts_subset {trees more : List ConstantTree} (subset : trees ⊆ more) :
    allParts trees ⊆ allParts more := by
  intro part mem
  obtain ⟨tree, htree, mem⟩ := List.mem_flatMap.mp mem
  exact List.mem_flatMap.mpr ⟨tree, subset htree, mem⟩

theorem allParts_singleton (tree : ConstantTree) : allParts [tree] = tree.parts :=
  List.flatMap_singleton ..

/-- The parts of a constant are found from where the constant stands. -/
theorem Shown.leads (shown : tree.Shown table slot) (mem : part ∈ tree.parts) :
    ∃ inner, part.Shown table inner ∧ table.Leads slot inner := by
  induction tree generalizing slot with
  | leaf constant =>
      obtain rfl := List.mem_singleton.mp mem
      exact ⟨slot, shown, .refl⟩
  | one make refers rest ih =>
      obtain rfl | mem := List.mem_cons.mp mem
      · exact ⟨slot, shown, .refl⟩
      · obtain ⟨inner, whole, shown⟩ := shown
        obtain ⟨last, shown, leads⟩ := ih shown mem
        exact ⟨last, shown, (ConstantTable.Leads.of_reference whole (by simp [refers])).trans leads⟩
  | two make refers first second ihFirst ihSecond =>
      obtain rfl | mem := List.mem_cons.mp mem
      · exact ⟨slot, shown, .refl⟩
      · obtain ⟨a, b, whole, shown, shown'⟩ := shown
        obtain mem | mem := List.mem_append.mp mem
        · obtain ⟨last, shown, leads⟩ := ihFirst shown mem
          exact ⟨last, shown,
            (ConstantTable.Leads.of_reference whole (by simp [refers])).trans leads⟩
        · obtain ⟨last, shown, leads⟩ := ihSecond shown' mem
          exact ⟨last, shown,
            (ConstantTable.Leads.of_reference whole (by simp [refers])).trans leads⟩

/-- A constant that a class asks for, or a part of one. -/
inductive OfClass : ConstantTree → Prop
  | text (content : String) : OfClass (text content)
  | nameAndType (name descriptor : String) : OfClass (nameAndType name descriptor)
  | field (owner name descriptor : String) : OfClass (field owner name descriptor)
  | method (owner name descriptor : String) (isInterface : Bool) :
    OfClass (method owner name descriptor isInterface)
  | callSite (position : UInt16) (name descriptor : String) :
    OfClass (callSite position name descriptor)
  | literal (value : Literal) : OfClass (literal value)

theorem OfClass.classNamed (name : String) : (classNamed name).OfClass := literal (.classRef name)

/-- Constants with one part. -/
theorem parts_one_ofClass {make : UInt16 → Constant}
    {refers : ∀ slot, (make slot).references = [slot]} (whole : (one make refers part).OfClass)
    (rest : ∀ tree ∈ part.parts, tree.OfClass) :
    ∀ tree ∈ (one make refers part).parts, tree.OfClass :=
  List.forall_mem_cons.mpr ⟨whole, rest⟩

/-- Constants with two parts. -/
theorem parts_two_ofClass {make : UInt16 → UInt16 → Constant}
    {refers : ∀ a b, (make a b).references = [a, b]} {second : ConstantTree}
    (whole : (two make refers part second).OfClass) (rest : ∀ tree ∈ part.parts, tree.OfClass)
    (rest' : ∀ tree ∈ second.parts, tree.OfClass) :
    ∀ tree ∈ (two make refers part second).parts, tree.OfClass :=
  List.forall_mem_cons.mpr ⟨whole, List.forall_mem_append.mpr ⟨rest, rest'⟩⟩

/-- The parts of what a class asks for. -/
theorem OfClass.parts (h : tree.OfClass) : ∀ part ∈ tree.parts, part.OfClass := by
  have text (content : String) : ∀ part ∈ (ConstantTree.text content).parts, part.OfClass :=
    List.forall_mem_singleton.mpr (.text content)
  have classNamed (name : String) : ∀ part ∈ (ConstantTree.classNamed name).parts, part.OfClass :=
    parts_one_ofClass (.classNamed name) (text name)
  have nameAndType (name descriptor : String) :
      ∀ part ∈ (ConstantTree.nameAndType name descriptor).parts, part.OfClass :=
    parts_two_ofClass (.nameAndType name descriptor) (text name) (text descriptor)
  have member (handle : MethodHandle) :
      ∀ part ∈ (ConstantTree.handleMember handle).parts, part.OfClass := by
    unfold ConstantTree.handleMember
    split
    · exact parts_two_ofClass (.field ..) (classNamed _) (nameAndType _ _)
    · exact parts_two_ofClass (.method ..) (classNamed _) (nameAndType _ _)
  cases h with
  | text content => exact text content
  | nameAndType name descriptor => exact nameAndType name descriptor
  | field owner name descriptor =>
      exact parts_two_ofClass (.field ..) (classNamed owner) (nameAndType name descriptor)
  | method owner name descriptor isInterface =>
      exact parts_two_ofClass (.method ..) (classNamed owner) (nameAndType name descriptor)
  | callSite position name descriptor =>
      exact parts_one_ofClass (.callSite ..) (nameAndType name descriptor)
  | literal value =>
      have whole := OfClass.literal value
      cases value with
      | string contents => exact parts_one_ofClass whole (text contents)
      | classRef name => exact parts_one_ofClass whole (text name)
      | methodType descriptor => exact parts_one_ofClass whole (text descriptor)
      | methodHandle handle => exact parts_one_ofClass whole (member handle)
      | _ => exact List.forall_mem_singleton.mpr whole

/-- A handle that a class asks for is asked for as a handle. -/
theorem OfClass.eq_methodHandle {a b inner : UInt16} {kind : HandleKind} (h : tree.OfClass)
    (root : tree.root a b = .methodHandle kind inner) :
    ∃ handle, tree = ConstantTree.methodHandle handle := by
  cases h with
  | literal value =>
      cases value with
      | methodHandle handle => exact ⟨handle, rfl⟩
      | _ => cases root
  | _ => cases root

/-- A call site is no part of anything else that a class asks for. -/
theorem OfClass.eq_of_callSite {a b position inner : UInt16} (h : tree.OfClass)
    (mem : part ∈ tree.parts) (root : part.root a b = .invokeDynamic position inner) :
    part = tree := by
  have none {trees : List ConstantTree} (mem : part ∈ trees)
      (others : ∀ other ∈ trees, other.root a b ≠ .invokeDynamic position inner) : part = tree :=
    absurd root (others part mem)
  have nameAndType (name descriptor : String) :
      ∀ other ∈ (ConstantTree.nameAndType name descriptor).parts,
        other.root a b ≠ .invokeDynamic position inner := by
    simp [ConstantTree.nameAndType, ConstantTree.text, ConstantTree.parts, ConstantTree.root]
  have field (owner name descriptor : String) :
      ∀ other ∈ (ConstantTree.field owner name descriptor).parts,
        other.root a b ≠ .invokeDynamic position inner := by
    simp [ConstantTree.field, ConstantTree.nameAndType, ConstantTree.classNamed,
      ConstantTree.text, ConstantTree.parts, ConstantTree.root]
  have method (owner name descriptor : String) (isInterface : Bool) :
      ∀ other ∈ (ConstantTree.method owner name descriptor isInterface).parts,
        other.root a b ≠ .invokeDynamic position inner := by
    simp [ConstantTree.method, ConstantTree.nameAndType, ConstantTree.classNamed,
      ConstantTree.text, ConstantTree.parts, ConstantTree.root]
  cases h with
  | callSite position name descriptor =>
      exact (List.mem_cons.mp mem).elim id fun mem => none mem (nameAndType name descriptor)
  | text content =>
      exact none mem (by simp [ConstantTree.text, ConstantTree.parts, ConstantTree.root])
  | nameAndType name descriptor => exact none mem (nameAndType name descriptor)
  | field owner name descriptor => exact none mem (field owner name descriptor)
  | method owner name descriptor isInterface =>
      exact none mem (method owner name descriptor isInterface)
  | literal value =>
      cases value with
      | methodHandle handle =>
          obtain rfl | mem := List.mem_cons.mp mem
          · rfl
          · apply none mem
            unfold ConstantTree.handleMember
            split
            · exact field _ _ _
            · exact method _ _ _ _
      | _ =>
          exact none mem (by simp [ConstantTree.literal, ConstantTree.classNamed, ConstantTree.text,
            ConstantTree.parts, ConstantTree.root])

theorem shown_text_iff {content : String} :
    (text content).Shown table slot ↔ table.text slot = .ok content := by
  change table.get slot = .ok (.utf8 content) ↔ _
  unfold ConstantTable.text
  constructor
  · intro h
    rw [h]
    rfl
  · intro h
    obtain ⟨constant, found, h⟩ := exceptBind_eq_ok_iff.mp h
    cases constant with
    | utf8 text =>
        cases h
        exact found
    | _ => cases h

theorem shown_classNamed_iff {name : String} :
    (classNamed name).Shown table slot ↔ table.className slot = .ok name := by
  unfold ConstantTable.className
  constructor
  · rintro ⟨inner, whole, shown⟩
    rw [whole]
    exact shown_text_iff.mp shown
  · intro h
    obtain ⟨constant, found, h⟩ := exceptBind_eq_ok_iff.mp h
    cases constant with
    | classInfo inner => exact ⟨inner, found, shown_text_iff.mpr h⟩
    | _ => cases h

theorem shown_nameAndType_iff {name descriptor : String} :
    (nameAndType name descriptor).Shown table slot ↔
      table.nameAndType slot = .ok (name, descriptor) := by
  unfold ConstantTable.nameAndType
  constructor
  · rintro ⟨a, b, whole, shown, shown'⟩
    simp only [whole, bind, Except.bind, shown_text_iff.mp shown, shown_text_iff.mp shown']
    rfl
  · intro h
    obtain ⟨constant, found, h⟩ := exceptBind_eq_ok_iff.mp h
    cases constant with
    | nameAndType a b =>
        obtain ⟨first, hfirst, h⟩ := exceptBind_eq_ok_iff.mp h
        obtain ⟨second, hsecond, h⟩ := exceptBind_eq_ok_iff.mp h
        cases h
        exact ⟨a, b, found, shown_text_iff.mpr hfirst, shown_text_iff.mpr hsecond⟩
    | _ => cases h

theorem shown_callSite_iff {position : UInt16} {name descriptor : String} :
    (callSite position name descriptor).Shown table slot ↔
      table.callSite slot = .ok ⟨position, name, descriptor⟩ := by
  unfold ConstantTable.callSite
  constructor
  · rintro ⟨inner, whole, shown⟩
    simp only [whole, bind, Except.bind, shown_nameAndType_iff.mp shown]
    rfl
  · intro h
    obtain ⟨constant, found, h⟩ := exceptBind_eq_ok_iff.mp h
    cases constant with
    | invokeDynamic position inner =>
        obtain ⟨member, hmember, h⟩ := exceptBind_eq_ok_iff.mp h
        cases h
        exact ⟨inner, found, shown_nameAndType_iff.mpr hmember⟩
    | _ => cases h

/-- A constant that a request always gives where it is read is read where it stands. -/
theorem read_of_shown {α : Type} {read : ConstantTable → UInt16 → Except Error α} {value : α}
    (gives : tree.request.Gives fun table slot => read table slot = .ok value)
    {pool : ConstantPool} (valid : pool.Valid) (shown : tree.Shown ⟨pool.entries⟩ slot) :
    read ⟨pool.entries⟩ slot = .ok value := by
  obtain ⟨-, -, post, -⟩ := gives pool slot pool valid (request_of_shown valid shown)
  exact post _ valid.within_self

theorem methodHandle_normal (handle : MethodHandle) :
    methodHandle handle.normal = methodHandle handle := by
  unfold methodHandle handleMember MethodHandle.normal
  split
  · rfl
  · rfl

theorem literal_normal (value : Literal) : literal value.normal = literal value := by
  cases value with
  | methodHandle handle => exact methodHandle_normal handle
  | _ => rfl

/-- A handle is read as a literal. -/
theorem literal_of_methodHandle {handle : MethodHandle} (h : table.methodHandle slot = .ok handle) :
    table.literal slot = .ok (.methodHandle handle) := by
  unfold ConstantTable.literal
  obtain ⟨constant, found, -⟩ := exceptBind_eq_ok_iff.mp h
  cases constant with
  | methodHandle kind inner =>
      rw [found]
      simp only [bind, Except.bind, h]
      rfl
  | _ =>
      unfold ConstantTable.methodHandle at h
      rw [found] at h
      cases h

/-- A literal stands where it is read, unless it is a handle. -/
theorem shown_or_methodHandle_of_literal {value : Literal} (h : table.literal slot = .ok value) :
    (literal value).Shown table slot ∨
      ∃ handle, value = .methodHandle handle ∧ table.methodHandle slot = .ok handle := by
  unfold ConstantTable.literal at h
  obtain ⟨constant, found, h⟩ := exceptBind_eq_ok_iff.mp h
  cases constant with
  | integer value | float bits | long value | double bits =>
      obtain rfl := Except.ok.inj h
      exact .inl found
  | string inner | classInfo inner | methodType inner =>
      obtain ⟨contents, htext, h⟩ := exceptBind_eq_ok_iff.mp h
      obtain rfl := Except.ok.inj h
      exact .inl ⟨inner, found, shown_text_iff.mpr htext⟩
  | methodHandle kind inner =>
      obtain ⟨handle, hhandle, h⟩ := exceptBind_eq_ok_iff.mp h
      exact .inr ⟨handle, (Except.ok.inj h).symm, hhandle⟩
  | _ => cases h

/-- Wherever a literal is read stands one, if every handle there is one that was asked for. -/
theorem exists_shown_literal
    (handles : ∀ kind inner, table.get slot = .ok (.methodHandle kind inner) →
      ∃ handle, (methodHandle handle).Shown table slot) {read : Literal}
    (h : table.literal slot = .ok read) : ∃ value, (literal value).Shown table slot := by
  obtain shown | ⟨handle, -, h⟩ := shown_or_methodHandle_of_literal h
  · exact ⟨read, shown⟩
  · unfold ConstantTable.methodHandle at h
    obtain ⟨constant, found, h⟩ := exceptBind_eq_ok_iff.mp h
    cases constant with
    | methodHandle kind inner =>
        obtain ⟨handle, shown⟩ := handles kind inner found
        exact ⟨.methodHandle handle, shown⟩
    | _ => cases h

/-- A literal stands where it is read. -/
theorem shown_literal_of_read {pool : ConstantPool} (valid : pool.Valid)
    (handles : ∀ kind inner, ConstantTable.get ⟨pool.entries⟩ slot =
      .ok (.methodHandle kind inner) → ∃ handle, (methodHandle handle).Shown ⟨pool.entries⟩ slot)
    {value : Literal} (h : ConstantTable.literal ⟨pool.entries⟩ slot = .ok value.normal) :
    (literal value).Shown ⟨pool.entries⟩ slot := by
  obtain ⟨found, shown⟩ := exists_shown_literal handles h
  have gives := Request.gives_literal found
  rw [← request_literal] at gives
  have same := Except.ok.inj ((read_of_shown gives valid shown).symm.trans h)
  rwa [← literal_normal value, ← same, literal_normal]

end ConstantTree

end JavaClass
