import JavaClass.Proofs.Assembly.Parts
import JavaClass.Proofs.Assembly.Cells

/-!
# Methods that are settled

What the request that settles a method gives: the bytes of its code with all
branches filled in, its exception table and its lines, under the names of the
attributes that they stand in.
-/

namespace JavaClass

open BigEndian ConstantPool

namespace MethodDraft

variable {method : MethodDraft}

theorem offsetBytes_eq_ok {token : LabelToken} {part : List UInt8}
    (h : method.offsetBytes token = .ok part) :
    (∃ n, method.labels[token]? = some n) ∧ part = ofNat 2 (method.offsetD token) := by
  unfold offsetBytes at h
  cases hoffset : method.offset token with
  | error error => rw [hoffset] at h; cases h
  | ok n =>
      rw [hoffset] at h
      have hlabel := offset_eq_ok_iff.mp hoffset
      refine ⟨⟨n, hlabel⟩, ?_⟩
      rw [offsetD, hlabel, Option.getD_some]
      exact (Except.ok.inj h).symm

theorem encodeHandler_eq_ok {handler : DraftHandler} {part : List UInt8}
    (h : method.encodeHandler handler = .ok part) :
    (∀ token ∈ [handler.start, handler.stop, handler.handler],
      ∃ n, method.labels[token]? = some n) ∧
      part = ofNat 2 (method.offsetD handler.start) ++ ofNat 2 (method.offsetD handler.stop) ++
        ofNat 2 (method.offsetD handler.handler) ++ u16 handler.catchType := by
  unfold encodeHandler at h
  obtain ⟨_, hstart, h⟩ := exceptBind_eq_ok_iff.mp h
  obtain ⟨_, hstop, h⟩ := exceptBind_eq_ok_iff.mp h
  obtain ⟨_, htarget, h⟩ := exceptBind_eq_ok_iff.mp h
  obtain ⟨first, rfl⟩ := offsetBytes_eq_ok hstart
  obtain ⟨second, rfl⟩ := offsetBytes_eq_ok hstop
  obtain ⟨third, rfl⟩ := offsetBytes_eq_ok htarget
  exact ⟨by simp [first, second, third], (Except.ok.inj h).symm⟩

theorem encodeLine_eq_ok {line : UInt16 × LabelToken} {part : List UInt8}
    (h : method.encodeLine line = .ok part) :
    (∃ n, method.labels[line.2]? = some n) ∧
      part = ofNat 2 (method.offsetD line.2) ++ u16 line.1 := by
  unfold encodeLine at h
  obtain ⟨_, hoffset, h⟩ := exceptBind_eq_ok_iff.mp h
  obtain ⟨placed, rfl⟩ := offsetBytes_eq_ok hoffset
  exact ⟨placed, (Except.ok.inj h).symm⟩

/-- The attributes that the code attribute gets. -/
def LineAttributes (method : MethodDraft) (table : ConstantTable)
    (attributes : List EncodedAttribute) : Prop :=
  (method.lines.toList = [] ∧ attributes = []) ∨
    ∃ lines a, method.lines.toList.mapM method.encodeLine = .ok lines ∧
      encodeTable .ok lines = .ok a.contents ∧ table.text a.name = .ok "LineNumberTable" ∧
        attributes = [a]

/-- The exception table and the attributes that the code attribute gets. -/
structure CodeTables (method : MethodDraft) (table : ConstantTable)
    (handlers attributes : List UInt8) : Prop where
  handlers : ∃ parts, method.handlers.toList.mapM method.encodeHandler = .ok parts ∧
    encodeTable .ok parts = .ok handlers
  attributes : ∃ parts, method.LineAttributes table parts ∧
    encodeTable (fun a => .ok (EncodedAttribute.encode a)) parts = .ok attributes

/-- The contents of the code attribute. -/
def codeBytes (method : MethodDraft) (code handlers attributes : List UInt8) : List UInt8 :=
  u16 method.maxStack ++ u16 method.maxLocals ++ encodeBlock code ++ handlers ++ attributes

/-- An attribute is the code attribute of a method. -/
def IsCode (method : MethodDraft) (code : List UInt8) (table : ConstantTable)
    (a : EncodedAttribute) : Prop :=
  table.text a.name = .ok "Code" ∧ ∃ handlers attributes,
    method.CodeTables table handlers attributes ∧
      a.contents = method.codeBytes code handlers attributes

/-- A member was settled for a method: the code attribute if it has code, then what it
declares. -/
def Settled (method : MethodDraft) (table : ConstantTable) (member : EncodedMember) : Prop :=
  ∃ code attributes, method.patchedCode = .ok code ∧
    member = ⟨method.flags.bits, method.name, method.descriptor,
      attributes ++ method.exceptions.toList⟩ ∧
    if method.hasCode then ∃ a, method.IsCode code.toList table a ∧ attributes = [a]
    else attributes = []

theorem LineAttributes.contents_le {table : ConstantTable} {attributes : List EncodedAttribute}
    (h : method.LineAttributes table attributes) {a : EncodedAttribute} (ha : a ∈ attributes) :
    a.contents.length ≤ 2 + 4 * 65535 := by
  obtain ⟨-, rfl⟩ | ⟨lines, a', hlines, hcontents, -, rfl⟩ := h
  · cases ha
  · obtain rfl := List.mem_singleton.mp ha
    refine length_encodeTable_le 4 hcontents fun entry hentry part hpart => ?_
    obtain rfl := Except.ok.inj hpart
    obtain ⟨line, -, hline⟩ := exists_left (mapM_eq_ok_iff.mp hlines) hentry
    obtain ⟨-, rfl⟩ := encodeLine_eq_ok hline
    simp [u16]

theorem LineAttributes.encoded_le {table : ConstantTable} {attributes : List EncodedAttribute}
    (h : method.LineAttributes table attributes) {part : List UInt8}
    (hpart : encodeTable (fun a => .ok (EncodedAttribute.encode a)) attributes = .ok part) :
    part.length ≤ 8 + (2 + 4 * 65535) := by
  have hcontents := @h.contents_le
  obtain ⟨-, parts, hparts, rfl⟩ := encodeTable_eq_ok hpart
  obtain ⟨-, rfl⟩ | ⟨lines, a, -, -, -, rfl⟩ := h
  · cases hparts
    simp
  · obtain ⟨encoded, rest, hencoded, hrest, rfl⟩ := List.forall₂_cons_left_iff.mp hparts
    cases hrest
    have hle := hcontents (List.mem_singleton_self a)
    rw [← Except.ok.inj hencoded]
    simp only [List.length_append, length_ofNat, List.flatten_singleton, EncodedAttribute.encode,
      encodeBlock, u16]
    omega

/-- The length of a code attribute can be written. -/
theorem IsCode.readable {code : List UInt8} {table : ConstantTable} {a : EncodedAttribute}
    (h : method.IsCode code table a) (hcode : code.length ≤ countLimit) : a.Readable table := by
  obtain ⟨hname, handlers, attributes, tables, hcontents⟩ := h
  obtain ⟨parts, hparts, hhandlers⟩ := tables.handlers
  obtain ⟨lines, hlines, hattributes⟩ := tables.attributes
  have hhandlersLength : handlers.length ≤ 2 + 8 * 65535 := by
    refine length_encodeTable_le 8 hhandlers fun entry hentry part hpart => ?_
    obtain rfl := Except.ok.inj hpart
    obtain ⟨handler, -, hhandler⟩ := exists_left (mapM_eq_ok_iff.mp hparts) hentry
    obtain ⟨-, rfl⟩ := encodeHandler_eq_ok hhandler
    simp [u16]
  have hlinesLength := hlines.encoded_le hattributes
  simp only [countLimit] at hcode
  refine ⟨⟨_, hname⟩, ?_⟩
  rw [hcontents, codeBytes]
  simp only [List.length_append, length_ofNat, encodeBlock, u16]
  omega

theorem gives_lineAttributes (method : MethodDraft) :
    Request.Gives method.lineAttributes method.LineAttributes := by
  unfold lineAttributes
  by_cases hempty : method.lines.isEmpty = true
  · rw [if_pos hempty]
    refine Request.gives_pure _ fun table => .inl ⟨?_, rfl⟩
    simpa using hempty
  · rw [if_neg hempty]
    have hnamed (lines : List (List UInt8)) :
        Request.Gives (do
          return [← Request.named "LineNumberTable" (encodeTable .ok lines)])
          fun table attributes => ∃ a, table.text a.name = .ok "LineNumberTable" ∧
            encodeTable .ok lines = .ok a.contents ∧ attributes = [a] :=
      (Request.gives_named "LineNumberTable" (encodeTable .ok lines)).bind
        (fun a => Request.gives_return [a])
        fun table a attributes ha hattributes => ⟨a, ha.1, ha.2, hattributes⟩
    refine (Request.gives_settled _).bind hnamed ?_
    rintro table lines attributes hlines ⟨a, hname, hcontents, rfl⟩
    exact .inr ⟨lines, a, hlines, hcontents, hname, rfl⟩

theorem gives_codeAttribute (method : MethodDraft) (code : Array UInt8) :
    Request.Gives (method.codeAttribute code) (method.IsCode code.toList) := by
  have hnamed (handlers : List (List UInt8)) :
      Request.Gives (do
        let attributes ← method.lineAttributes
        Request.named "Code" do
          let handlers ← encodeTable .ok handlers
          let attributes ← encodeTable (fun a => .ok (EncodedAttribute.encode a)) attributes
          return u16 method.maxStack ++ u16 method.maxLocals ++ encodeBlock code.toList ++
            handlers ++ attributes)
        fun table a => table.text a.name = .ok "Code" ∧ ∃ attributes handlers' attributes',
          method.LineAttributes table attributes ∧ encodeTable .ok handlers = .ok handlers' ∧
            encodeTable (fun a => .ok (EncodedAttribute.encode a)) attributes = .ok attributes' ∧
              a.contents = method.codeBytes code.toList handlers' attributes' := by
    refine method.gives_lineAttributes.bind (fun attributes => Request.gives_named "Code" _) ?_
    rintro table attributes a hlines ⟨hname, hcontents⟩
    obtain ⟨handlers', hhandlers, hcontents⟩ := exceptBind_eq_ok_iff.mp hcontents
    obtain ⟨attributes', hattributes, hcontents⟩ := exceptBind_eq_ok_iff.mp hcontents
    exact ⟨hname, attributes, handlers', attributes', hlines, hhandlers, hattributes,
      (Except.ok.inj hcontents).symm⟩
  refine (Request.gives_settled _).bind hnamed ?_
  rintro table parts a hparts ⟨hname, lines, handlers, attributes, hlines, hhandlers, hattributes,
    hcontents⟩
  exact ⟨hname, handlers, attributes, ⟨⟨parts, hparts, hhandlers⟩, ⟨lines, hlines, hattributes⟩⟩,
    hcontents⟩

theorem gives_finish (method : MethodDraft) : Request.Gives method.finish method.Settled := by
  unfold finish
  have hfinish (code : Array UInt8) :
      Request.Gives (do
        let attributes ← if method.hasCode then do pure [← method.codeAttribute code] else pure []
        return (⟨method.flags.bits, method.name, method.descriptor,
          attributes ++ method.exceptions.toList⟩ : EncodedMember))
        fun table member => ∃ attributes,
          member = ⟨method.flags.bits, method.name, method.descriptor,
            attributes ++ method.exceptions.toList⟩ ∧
          if method.hasCode then ∃ a, method.IsCode code.toList table a ∧ attributes = [a]
          else attributes = [] := by
    cases method.hasCode with
    | true =>
        simp only [if_true]
        have hrest (a : EncodedAttribute) :
            Request.Gives (do
              let attributes ← pure [a]
              return (⟨method.flags.bits, method.name, method.descriptor,
                attributes ++ method.exceptions.toList⟩ : EncodedMember))
              fun _ member => member = ⟨method.flags.bits, method.name, method.descriptor,
                [a] ++ method.exceptions.toList⟩ :=
          Request.gives_return _
        exact (method.gives_codeAttribute code).bind hrest
          fun table a member ha hmember => ⟨[a], hmember, a, ha, rfl⟩
    | false =>
        simp only [Bool.false_eq_true, if_false]
        exact (Request.gives_return []).bind (fun attributes => Request.gives_return _)
          fun table attributes member hattributes hmember => ⟨attributes, hmember, hattributes⟩
  refine (Request.gives_settled _).bind hfinish ?_
  rintro table code member hcode ⟨attributes, hmember, hattributes⟩
  exact ⟨code, attributes, hcode, hmember, hattributes⟩

end MethodDraft

end JavaClass
