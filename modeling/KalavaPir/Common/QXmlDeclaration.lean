/-
  KalavaPir.Common.QXmlDeclaration — documents with a declaration.

  `XMLDeclaration::ParseDeep` reads up to `?>`, but `ToXML` ends a declaration
  with `>`.
-/
import KalavaPir.Common.QXmlPrint

namespace KalavaPir.Common

open List

namespace QXml

open XMLUtil XMLError

/-- `Parse` reads back what `ToXML` printed of a document with these nodes: no
    error, the same `Declaration()` and the same `RootElement()`. -/
def ReadsBack (nodes : List XMLNode) : Prop :=
  ∃ nodes', Parse (ToXML nodes) (-1) = some (XML_NO_ERROR, nodes') ∧
    nodes'.head? = nodes.head? ∧
    nodes'.find? XMLNode.isElement = nodes.find? XMLNode.isElement

/-! ## §1. What is read. -/

variable {endTag p q : CStr} {kind : NodeKind}

/-- What was read, the end tag, and what is behind it. -/
theorem eq_of_ParseText : ∀ {p value r : CStr},
    ParseText endTag p = some (value, r) → p = value ++ endTag ++ r := by
  intro p
  induction p with
  | nil =>
    intro value r h
    exact absurd h (by simp [ParseText])
  | cons c p ih =>
    intro value r h
    unfold ParseText at h
    split_ifs at h with hbegins
    · cases h
      obtain ⟨rest, hrest⟩ := isPrefixOf_iff_prefix.mp hbegins
      rw [nil_append, ← hrest, drop_left]
    split at h
    · cases h
    · rename_i v rest hfound
      cases h
      rw [cons_append, cons_append, ← ih hfound]

theorem Identify_declaration (h : Identify p = some (.declaration, q)) :
    SkipWhiteSpace p = cstr "<?" ++ q := by
  unfold Identify at h
  dsimp only at h
  split_ifs at h with _ hheader
  rotate_left
  all_goals
    injection h with hpair
    injection hpair with hkind hq
  · cases hkind
  · cases hkind
  · cases hkind
  · cases hkind
  · cases hkind
  · have htake := (StringEqual_iff 2 _ _).mp hheader
    have hsplit := take_append_drop 2 (SkipWhiteSpace p)
    rw [htake, hq] at hsplit
    exact hsplit.symm

variable {fuel : ℕ} {v : CStr} {error : XMLError}

/-- A declaration is only made of a declaration. -/
theorem declaration_of_ParseNode {children : CStr → XMLError → Option Children} {r : CStr} {n : Parsed}
    (h : ParseNode fuel children kind q error = some n) (hr : n.p = some r)
    (hnode : n.node = .XMLDeclaration v) : kind = .declaration ∧ ParseText (cstr "?>") q = some (v, r) := by
  cases kind with
  | declaration =>
    injection h with hn
    rw [← hn] at hr hnode
    obtain ⟨value, htext, hleaf⟩ := ParseLeaf_cases hr
    rw [hleaf] at hnode
    injection hnode with hvalue
    exact ⟨rfl, hvalue ▸ htext⟩
  | element =>
    rcases ParseElement_cases h with ⟨-, helement⟩ | ⟨_, _, _, _, _, -, ⟨-, rfl⟩ | ⟨-, _, -, rfl⟩⟩
    · rw [hnode] at helement
      cases helement
    · cases hnode
    · cases hnode
  | text =>
    injection h with hn
    rw [← hn] at hr hnode
    unfold ParsePlainText ParseLeaf at hnode
    cases htext : ParseText (cstr "<") q with
    | none =>
      rw [htext] at hnode
      cases hnode
    | some found =>
      obtain ⟨value, rest⟩ := found
      rw [htext] at hnode
      cases rest with
      | nil => cases hnode
      | cons c rest => cases hnode
  | comment | cdata | unknown =>
    injection h with hn
    rw [← hn] at hr hnode
    obtain ⟨value, -, hleaf⟩ := ParseLeaf_cases hr
    rw [hleaf] at hnode
    cases hnode

theorem declaration_of_ParseDeep {c : Children} (h : ParseDeep fuel p error = some c)
    (hnode : c.nodes.head? = some (.XMLDeclaration v)) :
    ∃ r, SkipWhiteSpace p = cstr "<?" ++ (v ++ cstr "?>" ++ r) := by
  cases fuel with
  | zero => cases h
  | succ fuel =>
    obtain ⟨-, rfl⟩ | ⟨kind, q, n, hidentify, hparsed, hcases⟩ := ParseDeep_cases h
    · cases hnode
    rcases hcases with ⟨-, -, hnil⟩ | ⟨_, -, -, -, rfl⟩ | ⟨-, hnil⟩ | ⟨r, c', hr, -, -, -, rfl⟩
    · rw [hnil] at hnode
      cases hnode
    · cases hnode
    · rw [hnil] at hnode
      cases hnode
    · obtain ⟨rfl, htext⟩ := declaration_of_ParseNode hparsed hr (Option.some.inj hnode)
      rw [Identify_declaration hidentify, eq_of_ParseText htext]
      exact ⟨r, rfl⟩

/-! ## §2. What is printed. -/

theorem ToXML_declaration (v : CStr) (rest : List XMLNode) :
    ∃ s, ToXML (.XMLDeclaration v :: rest) = cstr "<?" ++ (v ++ cstr ">" ++ s) := by
  have hassoc : ∀ root : CStr, cstr "<?" ++ v ++ cstr ">" ++ cstr "\n" ++ root =
      cstr "<?" ++ (v ++ cstr ">" ++ (cstr "\n" ++ root)) := by
    intro root
    simp only [append_assoc]
  exact ⟨_, hassoc _⟩

/-- **NEVER READ BACK**: what is printed of a document with a declaration has not
    its declaration any more. -/
theorem xml_declaration_not_read_back (v : CStr) (rest : List XMLNode) :
    ¬ ReadsBack (.XMLDeclaration v :: rest) := by
  rintro ⟨nodes, hparse, hdeclaration, -⟩
  obtain ⟨s, hprint⟩ := ToXML_declaration v rest
  rw [List.head?_cons] at hdeclaration
  rw [hprint] at hparse
  have hskip : SkipWhiteSpace (cstr "<?" ++ (v ++ cstr ">" ++ s)) = cstr "<?" ++ (v ++ cstr ">" ++ s) := rfl
  obtain ⟨-, c, hdeep, -, rfl⟩ := Parse_cases hparse
  obtain ⟨r, hread⟩ := declaration_of_ParseDeep hdeep hdeclaration
  rw [hskip, Nat.sub_self, List.drop_zero] at hread
  -- what was copied begins with what was printed
  generalize (Int.bmod _ _).toNat = nBytes at hread
  have hprefix : SkipWhiteSpace ((cstr "<?" ++ (v ++ cstr ">" ++ s)).take nBytes) <+:
      cstr "<?" ++ (v ++ cstr ">" ++ s) := by
    cases nBytes with
    | zero => exact List.nil_prefix
    | succ k =>
      have hsame : SkipWhiteSpace ((cstr "<?" ++ (v ++ cstr ">" ++ s)).take (k + 1)) =
          (cstr "<?" ++ (v ++ cstr ">" ++ s)).take (k + 1) := rfl
      rw [hsame]
      exact List.take_prefix (k + 1) _
  rw [hread, List.prefix_append_right_inj, List.append_assoc, List.append_assoc,
    List.prefix_append_right_inj] at hprefix
  have hend : (63 : UInt8) = 62 := (List.cons_prefix_cons.mp hprefix).1
  cases hend

/-! ## §3. What happens instead. -/

/-- No character of the end tag is missing in front of it. -/
theorem ParseText_declaration (h : ¬ cstr "?>" <:+: v) (s : CStr) :
    ParseText (cstr "?>") (v ++ cstr "?>" ++ s) = some (v, s) := by
  refine ParseText_of_apart (cons_ne_nil 63 _) v ?_
  intro b hb hends hbegins
  match b, hb with
  | [x], _ =>
    obtain ⟨-, hbegins⟩ := cons_prefix_cons.mp hbegins
    exact absurd (cons_prefix_cons.mp hbegins).1 (by decide)
  | x :: y :: b, _ =>
    obtain ⟨hx, hbegins⟩ := cons_prefix_cons.mp hbegins
    obtain ⟨hy, -⟩ := cons_prefix_cons.mp hbegins
    rw [← hx, ← hy] at hends
    have hwithin : [63, 62] <:+: 63 :: 62 :: b := ⟨[], b, rfl⟩
    exact h (hwithin.trans hends.isInfix)

theorem ParseText_none : ∀ {p : CStr}, ¬ endTag <:+: p → ParseText endTag p = none := by
  intro p
  induction p with
  | nil => exact fun _ => rfl
  | cons c p ih =>
    intro h
    have hfirst : ¬ endTag.isPrefixOf (c :: p) = true := fun hbegins =>
      h (List.isPrefixOf_iff_prefix.mp hbegins).isInfix
    have hrest := ih fun hwithin => h (hwithin.trans (suffix_cons c p).isInfix)
    unfold ParseText
    rw [if_neg hfirst, hrest]

/-- A node that is not an element, and what is behind it. -/
theorem ParseDeep_leaf {r : CStr} {n : Parsed} {c : Children} (hidentify : Identify p = some (kind, q))
    (hnode : ParseNode fuel (ParseDeep fuel) kind q error = some n) (hr : n.p = some r)
    (hleaf : n.node.isElement = false) (hrest : ParseDeep fuel r n.error = some c) :
    ParseDeep (fuel + 1) p error = some { c with nodes := n.node :: c.nodes } := by
  have hopen : ¬ (n.node.isElement = true ∧ n.closingType = .CLOSING) := by
    rw [hleaf]
    exact fun h => absurd h.1 Bool.false_ne_true
  have hmatched : ¬ n.mismatched = true := by
    rw [Parsed.mismatched, hleaf]
    exact Bool.false_ne_true
  rw [ParseDeep, hidentify]
  dsimp only
  rw [hnode]
  dsimp only
  rw [hr]
  dsimp only
  rw [if_neg hopen, if_neg hmatched, hrest]

theorem Identify_header (q : CStr) : Identify (cstr "<?" ++ q) = some (.declaration, q) := rfl

/-- **A declaration and an element** are read. -/
theorem Parse_declared {e : XMLNode} (hv : ¬ cstr "?>" <:+: v) (he : Printable e)
    (hlen : (cstr "<?" ++ (v ++ cstr "?>" ++ e.print)).length < 2 ^ 31 - 1) :
    Parse (cstr "<?" ++ (v ++ cstr "?>" ++ e.print)) (-1) = some (XML_NO_ERROR, [.XMLDeclaration v, e]) := by
  have htext : cstr "<?" ++ (v ++ cstr "?>" ++ e.print) = 60 :: 63 :: (v ++ cstr "?>" ++ e.print) := rfl
  have hheader : (cstr "<?").length = 2 := rfl
  have hend : (cstr "?>").length = 2 := rfl
  have hlen' := hlen
  rw [length_append, length_append, length_append, hheader, hend] at hlen'
  have hshort : e.print.length ≤ MAX_INT32 := by
    unfold MAX_INT32
    omega
  obtain ⟨k, hk⟩ : ∃ k, (cstr "<?" ++ (v ++ cstr "?>" ++ e.print)).length = k + 1 := ⟨_, rfl⟩
  have hfuel : e.print.length ≤ k := by
    rw [length_append, length_append, length_append, hheader, hend] at hk
    omega
  have hnode : ParseNode (k + 1) (ParseDeep (k + 1)) .declaration (v ++ cstr "?>" ++ e.print) XML_NO_ERROR =
      some ⟨some e.print, .XMLDeclaration v, .OPEN, [], XML_NO_ERROR⟩ := by
    rw [ParseNode, ParseLeaf, ParseText_declaration hv]
  rw [Parse_of_lt htext hlen, hk,
    ParseDeep_leaf (Identify_header _) hnode rfl rfl (ParseDeep_print he hshort hfuel)]
  rfl

/-- **What `ToXML` prints of it** is an error, if there is no `?>` behind. -/
theorem Parse_printed_declaration {e : XMLNode} (he : Printable e)
    (hno : ¬ cstr "?>" <:+: v ++ cstr ">" ++ cstr "\n" ++ e.print)
    (hlen : (ToXML [.XMLDeclaration v, e]).length < 2 ^ 31 - 1) :
    Parse (ToXML [.XMLDeclaration v, e]) (-1) = some (XML_ERROR_PARSING_DECLARATION, []) := by
  have hprint : ToXML [.XMLDeclaration v, e] =
      cstr "<?" ++ (v ++ cstr ">" ++ cstr "\n" ++ e.print) := by
    have helement := isElement_of_printable he
    unfold ToXML
    rw [find?_cons_of_neg Bool.false_ne_true, find?_cons_of_pos helement]
    simp only [head?_cons, append_assoc]
  have htext : cstr "<?" ++ (v ++ cstr ">" ++ cstr "\n" ++ e.print) =
      60 :: 63 :: (v ++ cstr ">" ++ cstr "\n" ++ e.print) := rfl
  rw [hprint] at hlen ⊢
  rw [Parse_of_lt htext hlen, ParseDeep, Identify_header]
  dsimp only [ParseNode, ParseLeaf]
  rw [ParseText_none hno]
  rfl

/-- `<?xml?>` and `<a></a>` on a line of its own. -/
theorem xml_declaration_lost :
    ¬ ∀ (d v : CStr) (e : XMLNode), Parse d (-1) = some (XML_NO_ERROR, [.XMLDeclaration v, e]) →
      ¬ cstr "?>" <:+: v → Printable e → ReadsBack [.XMLDeclaration v, e] := by
  intro h
  have hnames : PrintableAttributes [] :=
    ⟨fun a ha => absurd ha List.not_mem_nil, fun a ha => absurd ha List.not_mem_nil, List.nodup_nil⟩
  have he : Printable (.XMLElement (cstr "a") [] []) := ⟨rfl, hnames, Or.inl trivial⟩
  have hv : ¬ cstr "?>" <:+: cstr "xml" := by decide
  have hread := Parse_declared hv he (by decide)
  obtain ⟨nodes, hparse, -⟩ := h _ _ _ hread hv he
  rw [Parse_printed_declaration he (by decide) (by decide)] at hparse
  cases hparse

end QXml

end KalavaPir.Common
