/-
  KalavaPir.Common.QXml — reading and printing XML (`common/qxml.h`,
  `common/qxml.cc`).

  A pointer into the text is what it points to, up to the end of the string; a
  pointer that is 0 is `none`.  `XMLNode::ParseDeep` calls itself for the children
  of an element, so it takes fuel, and `none` is a `memcpy` of a negative length or
  no fuel.  `_closingType` and `endTag` are part of what a call returns.

  Left out: the texts of the errors, the pointers between nodes, and memory that
  is not there.
-/
import Mathlib.Algebra.Order.Ring.Int

namespace KalavaPir.Common

namespace QXml

/-! ## §1. `XMLUtil` (qxml.h:45). -/

/-- The bytes of a string, without the terminating 0. -/
abbrev CStr : Type := List UInt8

/-- A string of the source. -/
def cstr (s : String) : CStr := s.toList.map (fun c => c.toNat.toUInt8)

namespace XMLUtil

/-- `isspace`, `isalpha` and `isdigit` of the C locale. -/
def isspace (ch : UInt8) : Bool := ch == 32 || (9 ≤ ch && ch ≤ 13)
def isalpha (ch : UInt8) : Bool := (65 ≤ ch && ch ≤ 90) || (97 ≤ ch && ch ≤ 122)
def isdigit (ch : UInt8) : Bool := 48 ≤ ch && ch ≤ 57

/-- The text behind the white space. -/
def SkipWhiteSpace (p : CStr) : CStr := p.dropWhile isspace

/-- `':'` is 58 and `'_'` is 95. -/
def IsNameStartChar (ch : UInt8) : Bool := (if ch < 128 then isalpha ch else true) || ch == 58 || ch == 95

/-- `'.'` is 46 and `'-'` is 45. -/
def IsNameChar (ch : UInt8) : Bool := IsNameStartChar ch || isdigit ch || ch == 46 || ch == 45

/-- `StringEqual(p, q, nChar)`. -/
def StringEqual : ℕ → CStr → CStr → Bool
  | 0, _, _ => true
  | n + 1, a :: p, b :: q => a == b && StringEqual n p q
  | _ + 1, [], [] => true
  | _ + 1, [], _ :: _ => false
  | _ + 1, _ :: _, [] => false

/-- The greatest `int32_t`. -/
def MAX_INT32 : ℕ := 2147483647

end XMLUtil

open XMLUtil

/-! ## §2. `XMLStr` (qxml.cc:22). -/

/-- The name, and what is behind it. -/
def ParseName : CStr → Option (CStr × CStr)
  | [] => none
  | c :: p => if IsNameStartChar c then some (c :: p.takeWhile IsNameChar, p.dropWhile IsNameChar) else none

/-- What is in front of `endTag`, and what is behind it. -/
def ParseText (endTag : CStr) : CStr → Option (CStr × CStr)
  | [] => none
  | c :: p =>
    if endTag.isPrefixOf (c :: p) then some ([], (c :: p).drop endTag.length)
    else
      match ParseText endTag p with
      | none => none
      | some (value, rest) => some (c :: value, rest)

/-! ## §3. Nodes. -/

/-- The errors of the reader. -/
inductive XMLError where
  | XML_NO_ERROR
  | XML_ERROR_EMPTY_STR
  | XML_ERROR_ELEMENT_MISMATCH
  | XML_ERROR_PARSING_ELEMENT
  | XML_ERROR_PARSING_ATTRIBUTE
  | XML_ERROR_PARSING_TEXT
  | XML_ERROR_PARSING_CDATA
  | XML_ERROR_PARSING_COMMENT
  | XML_ERROR_PARSING_DECLARATION
  | XML_ERROR_PARSING_UNKNOWN
  | XML_ERROR_EMPTY_DOCUMENT
  | XML_ERROR_MISMATCHED_ELEMENT
  | XML_ERROR_PARSING
  deriving DecidableEq, Repr

open XMLError

/-- `_closingType`. -/
inductive ClosingType where
  /-- `<foo>` -/
  | OPEN
  /-- `<foo/>` -/
  | CLOSED
  /-- `</foo>` -/
  | CLOSING
  deriving DecidableEq, Repr

/-- `XMLAttribute`: `_name` and `_value`. -/
abbrev XMLAttribute : Type := CStr × CStr

/-- `XMLNode` and what is derived from it; the first field is `_value`. -/
inductive XMLNode where
  | XMLElement (value : CStr) (attributes : List XMLAttribute) (children : List XMLNode)
  | XMLText (value : CStr) (isCData : Bool)
  | XMLComment (value : CStr)
  | XMLDeclaration (value : CStr)
  | XMLUnknown (value : CStr)

namespace XMLNode

/-- `ToElement()` is not 0. -/
def isElement : XMLNode → Bool
  | XMLElement _ _ _ => true
  | XMLText _ _ => false
  | XMLComment _ => false
  | XMLDeclaration _ => false
  | XMLUnknown _ => false

/-- The text that a node keeps. -/
def Value : XMLNode → CStr
  | XMLElement value _ _ => value
  | XMLText value _ => value
  | XMLComment value => value
  | XMLDeclaration value => value
  | XMLUnknown value => value

end XMLNode

/-! ## §4. Reading (qxml.cc:64, 131–318). -/

/-- `XMLAttribute::ParseDeep`. -/
def ParseAttribute (p : CStr) : Option (XMLAttribute × CStr) :=
  match ParseName p with
  | none => none
  | some (name, p) =>
    match SkipWhiteSpace p with
    | [] => none
    | c :: p =>
      if c ≠ 61 then none
      else
        match SkipWhiteSpace p with
        | [] => none
        | q :: p =>
          -- `'"'` or `'\''`
          if q ≠ 34 ∧ q ≠ 39 then none
          else
            match ParseText [q] p with
            | none => none
            | some (value, p) => some ((name, value), p)

/-- What `ParseAttributes` leaves: the pointer, whether it ended at `/>`, and the
    attributes. -/
abbrev Attributes : Type := CStr × Bool × List XMLAttribute

/-- `XMLElement::ParseAttributes`; `attributes` are those that were read. -/
def ParseAttributes : ℕ → CStr → List XMLAttribute → Option (Except XMLError Attributes)
  | 0, _, _ => none
  | fuel + 1, p, attributes =>
    match SkipWhiteSpace p with
    | [] => some (.error XML_ERROR_PARSING_ELEMENT)
    | c :: p =>
      if IsNameStartChar c then
        match ParseAttribute (c :: p) with
        | none => some (.error XML_ERROR_PARSING_ATTRIBUTE)
        | some (attrib, rest) =>
          if attributes.any (fun a => StringEqual MAX_INT32 a.1 attrib.1) then
            some (.error XML_ERROR_PARSING_ATTRIBUTE)
          else ParseAttributes fuel rest (attributes ++ [attrib])
      else if c = 47 ∧ p.head? = some 62 then some (.ok (p.tail, true, attributes))
      else if c = 62 then some (.ok (p, false, attributes))
      else some (.error XML_ERROR_PARSING_ELEMENT)

/-- What `XMLNode::ParseDeep` leaves: its pointer, the children it inserted,
    `parentEnd`, and `_errorID`. -/
structure Children where
  p : Option CStr
  nodes : List XMLNode
  parentEnd : CStr
  error : XMLError

/-- What the `ParseDeep` of a node leaves; `closingType` is about elements. -/
structure Parsed where
  p : Option CStr
  node : XMLNode
  closingType : ClosingType
  endTag : CStr
  error : XMLError

/-- `XMLElement::ParseDeep`; `children` is the call of `XMLNode::ParseDeep`. -/
def ParseElement (fuel : ℕ) (children : CStr → XMLError → Option Children) (p : CStr) (error : XMLError) :
    Option Parsed :=
  let p := SkipWhiteSpace p
  let closing := p.head? = some 47
  match ParseName (if closing then p.tail else p) with
  | none => some ⟨none, .XMLElement [] [] [], .OPEN, [], error⟩
  | some (value, p) =>
    match ParseAttributes fuel p [] with
    | none => none
    | some (.error e) => some ⟨none, .XMLElement value [] [], .OPEN, [], e⟩
    | some (.ok (p, closed, attributes)) =>
      let closingType : ClosingType := if closed then .CLOSED else if closing then .CLOSING else .OPEN
      if p = [] ∨ closingType ≠ .OPEN then some ⟨some p, .XMLElement value attributes [], closingType, [], error⟩
      else
        match children p error with
        | none => none
        | some c => some ⟨c.p, .XMLElement value attributes c.nodes, closingType, c.parentEnd, c.error⟩

/-- `ParseDeep` of a node that is not an element: its text goes up to `endTag`. -/
def ParseLeaf (endTag : CStr) (node : CStr → XMLNode) (code : XMLError) (p : CStr) (error : XMLError) : Parsed :=
  match ParseText endTag p with
  | none => ⟨none, node [], .OPEN, [], code⟩
  | some (value, p) => ⟨some p, node value, .OPEN, [], error⟩

/-- The `ParseDeep` of a text: the pointer goes back to the `'<'`, and is 0 if
    nothing is behind it. -/
def ParsePlainText (p : CStr) (error : XMLError) : Parsed :=
  let r := ParseLeaf (cstr "<") (fun value => .XMLText value false) XML_ERROR_PARSING_TEXT p error
  match r.p with
  | none => r
  | some [] => { r with p := none }
  | some (c :: p) => { r with p := some (60 :: c :: p) }

/-- The node that `Identify` makes. -/
inductive NodeKind where
  | declaration
  | comment
  | cdata
  | unknown
  | element
  | text
  deriving DecidableEq, Repr

/-- `XMLDocument::Identify`: the node and the pointer; `none` at the end. -/
def Identify (start : CStr) : Option (NodeKind × CStr) :=
  let p := SkipWhiteSpace start
  if p = [] then none
  else if StringEqual 2 p (cstr "<?") then some (.declaration, p.drop 2)
  else if StringEqual 4 p (cstr "<!--") then some (.comment, p.drop 4)
  else if StringEqual 9 p (cstr "<![CDATA[") then some (.cdata, p.drop 9)
  else if StringEqual 2 p (cstr "<!") then some (.unknown, p.drop 2)
  else if StringEqual 1 p (cstr "<") then some (.element, p.drop 1)
  else some (.text, start)

/-- `node->ParseDeep(p, &endTag)`. -/
def ParseNode (fuel : ℕ) (children : CStr → XMLError → Option Children) (kind : NodeKind) (p : CStr)
    (error : XMLError) : Option Parsed :=
  match kind with
  | .declaration => some (ParseLeaf (cstr "?>") .XMLDeclaration XML_ERROR_PARSING_DECLARATION p error)
  | .comment => some (ParseLeaf (cstr "-->") .XMLComment XML_ERROR_PARSING_COMMENT p error)
  | .cdata => some (ParseLeaf (cstr "]]>") (fun value => .XMLText value true) XML_ERROR_PARSING_CDATA p error)
  | .unknown => some (ParseLeaf (cstr ">") .XMLUnknown XML_ERROR_PARSING_UNKNOWN p error)
  | .element => ParseElement fuel children p error
  | .text => some (ParsePlainText p error)

/-- The end tag of an element is missing, is one too many, or has another name. -/
def Parsed.mismatched (n : Parsed) : Bool :=
  n.node.isElement &&
    if n.endTag = [] then n.closingType = .OPEN
    else n.closingType ≠ .OPEN || !StringEqual MAX_INT32 n.endTag n.node.Value

/-- `XMLNode::ParseDeep`, its loop from one child on. -/
def ParseDeep : ℕ → CStr → XMLError → Option Children
  | 0, _, _ => none
  | fuel + 1, p, error =>
    match Identify p with
    | none => some ⟨none, [], [], error⟩
    | some (kind, q) =>
      match ParseNode fuel (ParseDeep fuel) kind q error with
      | none => none
      | some n =>
        match n.p with
        | none => some ⟨none, [], [], if n.error = XML_NO_ERROR then XML_ERROR_PARSING else n.error⟩
        | some p =>
          if n.node.isElement ∧ n.closingType = .CLOSING then some ⟨some p, [], n.node.Value, n.error⟩
          else if n.mismatched then some ⟨none, [], [], XML_ERROR_MISMATCHED_ELEMENT⟩
          else
            match ParseDeep fuel p n.error with
            | none => none
            | some c => some { c with nodes := n.node :: c.nodes }

/-- `XMLDocument::Parse` of a new document: what it returns, and the nodes of the
    document. -/
def Parse (xml : CStr) (nBytes : ℤ) : Option (XMLError × List XMLNode) :=
  if xml = [] then some (XML_ERROR_EMPTY_STR, [])
  else
    let nBytes := Int.bmod (if nBytes = -1 then xml.length else nBytes) (2 ^ 32)
    -- `nBytes+1` bytes are allocated, of which `memcpy` fills `nBytes`
    if nBytes < 0 ∨ 2 ^ 31 ≤ nBytes + 1 ∨ (xml.length : ℤ) + 1 < nBytes then none
    else
      let charBuffer := xml.take nBytes.toNat
      let delta := xml.length - (SkipWhiteSpace xml).length
      if SkipWhiteSpace xml = [] then some (XML_ERROR_EMPTY_STR, [])
      else if charBuffer.length < delta then none
      else
        match ParseDeep (charBuffer.length + 1) (charBuffer.drop delta) XML_NO_ERROR with
        | none => none
        | some c => some (c.error, c.nodes)

/-! ### What a call leaves. -/

/-- The name and the attributes of a tag, and whether it begins with `</` and ends
    with `/>`. -/
structure TagRead (fuel : ℕ) (p : CStr) (name r : CStr) (closing closed : Bool)
    (attributes : List XMLAttribute) : Prop where
  slash : closing = decide ((SkipWhiteSpace p).head? = some 47)
  read : ∃ behind, ParseName (if closing then (SkipWhiteSpace p).tail else SkipWhiteSpace p) =
      some (name, behind) ∧
    ParseAttributes fuel behind [] = some (.ok (r, closed, attributes))

/-- `_closingType` of such a tag. -/
def closingTypeOf (closing closed : Bool) : ClosingType :=
  if closed then .CLOSED else if closing then .CLOSING else .OPEN

variable {error : XMLError}

variable {p : CStr}

/-- **Inversion** of `XMLElement::ParseDeep`: no tag; a tag alone; a start tag and
    what is inside. -/
theorem ParseElement_cases {fuel : ℕ} {children : CStr → XMLError → Option Children} {n : Parsed}
    (h : ParseElement fuel children p error = some n) : (n.p = none ∧ n.node.isElement = true) ∨
    ∃ name r closing closed attributes, TagRead fuel p name r closing closed attributes ∧
      ((r = [] ∨ closingTypeOf closing closed ≠ .OPEN) ∧
          n = ⟨some r, .XMLElement name attributes [], closingTypeOf closing closed, [], error⟩ ∨
        closingTypeOf closing closed = .OPEN ∧ ∃ c, children r error = some c ∧
          n = ⟨c.p, .XMLElement name attributes c.nodes, .OPEN, c.parentEnd, c.error⟩) := by
  unfold ParseElement at h
  dsimp only at h
  split at h
  next =>
    cases h
    exact Or.inl ⟨rfl, rfl⟩
  next name behind hname =>
    split at h
    next => cases h
    next =>
      cases h
      exact Or.inl ⟨rfl, rfl⟩
    next r closed attributes hattributes =>
      right
      obtain ⟨closing, hclosing⟩ : ∃ b : Bool, b = decide ((SkipWhiteSpace p).head? = some 47) := ⟨_, rfl⟩
      have htype : (if closed = true then ClosingType.CLOSED
          else if (SkipWhiteSpace p).head? = some 47 then .CLOSING else .OPEN) =
          closingTypeOf closing closed := by
        unfold closingTypeOf
        simp only [hclosing, decide_eq_true_eq]
      rw [htype] at h
      refine ⟨name, r, closing, closed, attributes, ⟨hclosing, behind, ?_, hattributes⟩, ?_⟩
      · simp only [hclosing, decide_eq_true_eq]
        exact hname
      · split at h
        next hlast =>
          cases h
          exact Or.inl ⟨hlast, rfl⟩
        next hopen =>
          have htypeOpen : closingTypeOf closing closed = .OPEN := by
            by_contra hne
            exact hopen (Or.inr hne)
          split at h
          next => cases h
          next c hc =>
            injection h with hn
            rw [htypeOpen] at hn
            exact Or.inr ⟨htypeOpen, c, hc, hn.symm⟩

/-- Inversion of the `ParseDeep` of a node that is not an element. -/
theorem ParseLeaf_cases {endTag : CStr} {node : CStr → XMLNode} {code : XMLError} {r : CStr}
    (hr : (ParseLeaf endTag node code p error).p = some r) : ∃ value, ParseText endTag p = some (value, r) ∧
      ParseLeaf endTag node code p error = ⟨some r, node value, .OPEN, [], error⟩ := by
  unfold ParseLeaf at hr ⊢
  cases htext : ParseText endTag p with
  | none =>
    rw [htext] at hr
    cases hr
  | some found =>
    obtain ⟨value, rest⟩ := found
    rw [htext] at hr
    injection hr with hr
    exact ⟨value, by rw [hr], by rw [hr]⟩

/-- **Inversion** of one round of `XMLNode::ParseDeep`. -/
theorem ParseDeep_cases {fuel : ℕ} {c : Children} (h : ParseDeep (fuel + 1) p error = some c) :
    (Identify p = none ∧ c = ⟨none, [], [], error⟩) ∨
    ∃ kind q n, Identify p = some (kind, q) ∧ ParseNode fuel (ParseDeep fuel) kind q error = some n ∧
      ((n.p = none ∧ c.error ≠ XML_NO_ERROR ∧ c.nodes = []) ∨
        (∃ r, n.p = some r ∧ n.node.isElement = true ∧ n.closingType = .CLOSING ∧
          c = ⟨some r, [], n.node.Value, n.error⟩) ∨
        (c.error ≠ XML_NO_ERROR ∧ c.nodes = []) ∨
        (∃ r c', n.p = some r ∧ ¬ (n.node.isElement = true ∧ n.closingType = .CLOSING) ∧
          n.mismatched = false ∧ ParseDeep fuel r n.error = some c' ∧
          c = { c' with nodes := n.node :: c'.nodes })) := by
  rw [ParseDeep] at h
  split at h
  next hend =>
    cases h
    exact Or.inl ⟨hend, rfl⟩
  next kind q hidentify =>
    right
    split at h
    next => cases h
    next n hnode =>
      refine ⟨kind, q, n, hidentify, hnode, ?_⟩
      split at h
      next hnone =>
        cases h
        refine Or.inl ⟨hnone, ?_, rfl⟩
        split
        next => decide
        next hne => exact hne
      next r hr =>
        split_ifs at h with hclosing hmismatched
        · cases h
          exact Or.inr (Or.inl ⟨r, hr, hclosing.1, hclosing.2, rfl⟩)
        · cases h
          exact Or.inr (Or.inr (Or.inl ⟨nofun, rfl⟩))
        · split at h
          next => cases h
          next c' hrest =>
            cases h
            exact Or.inr (Or.inr (Or.inr ⟨r, c', hr, hclosing, Bool.of_not_eq_true hmismatched, hrest, rfl⟩))

/-- Inversion of a `Parse` that reports no error, for `nBytes` -1. -/
theorem Parse_cases {xml : CStr} {nodes : List XMLNode} (h : Parse xml (-1) = some (XML_NO_ERROR, nodes)) :
    0 ≤ Int.bmod xml.length (2 ^ 32) ∧
    ∃ c, ParseDeep ((xml.take (Int.bmod xml.length (2 ^ 32)).toNat).length + 1)
        ((xml.take (Int.bmod xml.length (2 ^ 32)).toNat).drop
          (xml.length - (SkipWhiteSpace xml).length)) XML_NO_ERROR = some c ∧
      c.error = XML_NO_ERROR ∧ c.nodes = nodes := by
  unfold Parse at h
  dsimp only at h
  rw [if_pos rfl] at h
  split_ifs at h with hempty hbytes hblank hdelta
  · cases h
  · cases h
  · split at h
    next => cases h
    next c hread =>
      injection h with hpair
      injection hpair with herror hnodes
      exact ⟨by omega, c, hread, herror, hnodes⟩

/-! ## §5. Printing (qxml.cc:305, 390). -/

/-- The attributes of a tag. -/
def printAttributes (attributes : List XMLAttribute) : CStr :=
  attributes.flatMap (fun attr => cstr " " ++ attr.1 ++ cstr "=" ++ cstr "\"" ++ attr.2 ++ cstr "\"")

/-- What is printed of the first child, if no child is an element. -/
def printText : Option XMLNode → CStr
  | some (.XMLText value isCData) =>
    (if isCData then cstr "<![CDATA[" else []) ++ value ++ (if isCData then cstr "]]>" else [])
  | _ => []

mutual

/-- `XMLDocument::ToXML(element, _xml)`. -/
def XMLNode.print : XMLNode → CStr
  | .XMLElement value attributes children =>
    cstr "<" ++ value ++ printAttributes attributes ++ cstr ">" ++
      (if children.any XMLNode.isElement then cstr "\n" ++ printElements children else printText children.head?) ++
      cstr "</" ++ value ++ cstr ">" ++ cstr "\n"
  | _ => []

/-- The children that are elements. -/
def printElements : List XMLNode → CStr
  | [] => []
  | child :: children => child.print ++ printElements children

end

/-- The text that `XMLDocument::ToXML()` has in `_xml`, for a document with these
    nodes. -/
def ToXML (nodes : List XMLNode) : CStr :=
  (match nodes.head? with
    | some (.XMLDeclaration value) => cstr "<?" ++ value ++ cstr ">" ++ cstr "\n"
    | _ => []) ++
  (match nodes.find? XMLNode.isElement with
    | some element => element.print
    | none => [])

/-- Whether `_xml` still lives: not for the caller of `ToXML()`, which returns the
    characters of a local variable. -/
inductive Buffer where
  | living
  | destroyed
  deriving DecidableEq, Repr

/-- What is in the buffer. -/
def Buffer.text (nodes : List XMLNode) : Buffer → Option CStr
  | .living => some (ToXML nodes)
  | .destroyed => none

/-- `Parse` of what was printed. -/
def ParsePrinted (buffer : Buffer) (nodes : List XMLNode) : Option (XMLError × List XMLNode) :=
  (buffer.text nodes).bind fun xml => Parse xml (-1)

theorem ParsePrinted_living (nodes : List XMLNode) : ParsePrinted .living nodes = Parse (ToXML nodes) (-1) := rfl
theorem ParsePrinted_destroyed (nodes : List XMLNode) : ParsePrinted .destroyed nodes = none := rfl

end QXml

end KalavaPir.Common
