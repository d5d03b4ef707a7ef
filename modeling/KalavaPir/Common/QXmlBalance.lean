/-
  KalavaPir.Common.QXmlBalance — which texts `Parse` accepts.

  The tags of a text are read off from left to right, piece by piece, without a
  stack.  `XMLNode::ParseDeep` finds an end tag by returning from the recursion:
  inside of an element it is compared with the name, but outside of every element
  the document just returns, without an error, and reads no further.
-/
import KalavaPir.Framework.Nesting
import KalavaPir.Common.QXmlDeclaration
import Mathlib.Data.List.DropRight

namespace KalavaPir.Common

namespace QXml

open KalavaPir.Framework XMLUtil XMLError List

/-! ## §1. The tags of a text. -/

/-- A tag: its name, and whether it begins with `</` and ends with `/>`. -/
structure Tag where
  name : CStr
  closing : Bool
  closed : Bool
  deriving DecidableEq, Repr

/-- An end tag begins with `</`, however it ends. -/
def Tag.bracket (t : Tag) : Bracket CStr :=
  if t.closing then .closing t.name else if t.closed then .neither else .opening t.name

/-- The tag behind a `<`, and what is behind it. -/
def readTag (q : CStr) : Option (Tag × CStr) :=
  let closing := decide ((SkipWhiteSpace q).head? = some 47)
  match ParseName (if closing then (SkipWhiteSpace q).tail else SkipWhiteSpace q) with
  | none => none
  | some (name, behind) =>
    match ParseAttributes (behind.length + 1) behind [] with
    | some (.ok (r, closed, _)) => some ({ name := name, closing := closing, closed := closed }, r)
    | _ => none

/-- The end of a piece that is not a tag. -/
def skipPiece (endTag q : CStr) : Option (Option Tag × CStr) :=
  (ParseText endTag q).map fun found => (none, found.2)

/-- The first piece of a text: a tag, or something without tags; `none` at the end
    of the text, or where it is malformed. -/
def piece (p : CStr) : Option (Option Tag × CStr) :=
  match Identify p with
  | none => none
  | some (.element, q) => (readTag q).map fun found => (some found.1, found.2)
  | some (.declaration, q) => skipPiece (cstr "?>") q
  | some (.comment, q) => skipPiece (cstr "-->") q
  | some (.cdata, q) => skipPiece (cstr "]]>") q
  | some (.unknown, q) => skipPiece (cstr ">") q
  | some (.text, q) =>
    -- a text ends in front of a `<`
    match ParseText (cstr "<") q with
    | some (_, c :: r) => some (none, 60 :: c :: r)
    | _ => none

/-- The tags of the first pieces. -/
def tags : ℕ → CStr → List Tag
  | 0, _ => []
  | n + 1, p =>
    match piece p with
    | none => []
    | some (t, r) => t.toList ++ tags n r

/-- **The tags** of a text, in their order. -/
def tagsOf (p : CStr) : List Tag := tags (p.length + 1) p

/-! ### Pieces get shorter. -/

variable {q r p : CStr} {t : Option Tag} {fuel : ℕ} {c : Children} {nodes : List XMLNode}

theorem length_of_readTag {t : Tag} (h : readTag q = some (t, r)) : t.name.length + r.length < q.length := by
  unfold readTag at h
  dsimp only at h
  have hskip := length_SkipWhiteSpace q
  have htail : ∀ b : Bool, (if b then (SkipWhiteSpace q).tail else SkipWhiteSpace q).length ≤ q.length := by
    intro b
    split
    · rw [length_tail]
      omega
    · exact hskip
  split at h
  next => cases h
  next name behind hname =>
    obtain ⟨hlen, hpos⟩ := length_of_ParseName hname
    have hle := htail (decide ((SkipWhiteSpace q).head? = some 47))
    split at h
    next r' closed attributes hattributes =>
      cases h
      have hread := length_of_ParseAttributes _ hattributes
      have hnone : (printAttributes []).length = 0 := rfl
      dsimp only
      omega
    next => cases h

theorem length_of_skipPiece {endTag : CStr} (hne : endTag ≠ []) (hle : q.length ≤ p.length)
    (h : skipPiece endTag q = some (t, r)) : (∀ x ∈ t, x.name.length ≤ p.length) ∧ r.length < p.length := by
  unfold skipPiece at h
  rw [Option.map_eq_some_iff] at h
  obtain ⟨⟨value, r'⟩, htext, heq⟩ := h
  cases heq
  have hlen := length_of_ParseText htext
  have hpos := length_pos_iff.mpr hne
  refine ⟨fun x hx => absurd hx (Option.not_mem_none x), ?_⟩
  dsimp only
  omega

/-- A text does not begin with a `<`. -/
theorem Identify_text_start (h : Identify p = some (.text, q)) : q = p ∧ p.head? ≠ some 60 := by
  unfold Identify at h
  dsimp only at h
  split_ifs at h with _ _ _ _ _ helement
  all_goals
    injection h with hpair
    injection hpair with hkind hq
  · cases hkind
  · cases hkind
  · cases hkind
  · cases hkind
  · cases hkind
  · refine ⟨hq.symm, fun hhead => helement ?_⟩
    cases p with
    | nil => cases hhead
    | cons c p =>
      obtain rfl : c = 60 := Option.some.inj hhead
      rfl

theorem length_of_piece (h : piece p = some (t, r)) :
    (∀ x ∈ t, x.name.length ≤ p.length) ∧ r.length < p.length := by
  unfold piece at h
  split at h
  next => cases h
  next q hidentify =>
    have hle := length_of_Identify hidentify
    rw [Option.map_eq_some_iff] at h
    obtain ⟨⟨x, r'⟩, hread, heq⟩ := h
    cases heq
    have hlen := length_of_readTag hread
    refine ⟨fun y hy => ?_, ?_⟩
    · cases hy
      dsimp only at hlen ⊢
      omega
    · dsimp only at hlen ⊢
      omega
  next q hidentify =>
    have hle := length_of_Identify hidentify
    exact length_of_skipPiece (by decide) (by omega) h
  next q hidentify =>
    have hle := length_of_Identify hidentify
    exact length_of_skipPiece (by decide) (by omega) h
  next q hidentify =>
    have hle := length_of_Identify hidentify
    exact length_of_skipPiece (by decide) (by omega) h
  next q hidentify =>
    have hle := length_of_Identify hidentify
    exact length_of_skipPiece (by decide) (by omega) h
  next q hidentify =>
    obtain ⟨rfl, hstart⟩ := Identify_text_start hidentify
    split at h
    next value c r' htext =>
      cases h
      refine ⟨fun x hx => absurd hx (Option.not_mem_none x), ?_⟩
      have hlen := length_of_ParseText htext
      have heq := eq_of_ParseText htext
      have hone : (cstr "<").length = 1 := rfl
      have hvalue : 0 < value.length := by
        cases value with
        | nil =>
          rw [heq] at hstart
          exact absurd rfl hstart
        | cons b value => exact Nat.succ_pos _
      rw [length_cons, length_cons]
      rw [length_cons] at hlen
      omega
    next => cases h

/-- Enough rounds give all the tags. -/
theorem tags_enough (n : ℕ) : ∀ (p : CStr) (m : ℕ), p.length < n → p.length < m → tags n p = tags m p := by
  induction n with
  | zero => intro p m hn _; omega
  | succ n ih =>
    intro p m hn hm
    obtain ⟨k, rfl⟩ : ∃ k, m = k + 1 := ⟨m - 1, by omega⟩
    rw [tags, tags]
    cases hpiece : piece p with
    | none => rfl
    | some found =>
      obtain ⟨t, r⟩ := found
      have hlen := (length_of_piece hpiece).2
      dsimp only
      rw [ih r k (by omega) (by omega)]

theorem tagsOf_none (h : piece p = none) : tagsOf p = [] := by
  rw [tagsOf, tags, h]

theorem tagsOf_some (h : piece p = some (t, r)) : tagsOf p = t.toList ++ tagsOf r := by
  have hlen := (length_of_piece h).2
  rw [tagsOf, tags, h]
  dsimp only
  rw [tagsOf, tags_enough p.length r (r.length + 1) hlen (Nat.lt_succ_self _)]

/-! ## §2. What the reader does with a piece. -/

/-- More fuel reads the same attributes. -/
theorem ParseAttributes_mono (fuel : ℕ) : ∀ {p : CStr} {attributes : List XMLAttribute}
    {x : Except XMLError Attributes} (k : ℕ), ParseAttributes fuel p attributes = some x →
      ParseAttributes (fuel + k) p attributes = some x := by
  induction fuel with
  | zero =>
    intro p attributes x k h
    cases h
  | succ fuel ih =>
    intro p attributes x k h
    rw [Nat.succ_add]
    unfold ParseAttributes at h ⊢
    cases hskip : SkipWhiteSpace p with
    | nil =>
      rw [hskip] at h
      exact h
    | cons c p' =>
      rw [hskip] at h
      dsimp only at h ⊢
      split_ifs at h ⊢
      · split at h
        next => exact h
        next attrib rest hattribute =>
          split_ifs at h ⊢
          · exact h
          · exact ih k h
      · exact h
      · exact h
      · exact h

/-- A round for each attribute is enough fuel. -/
theorem ParseAttributes_enough (fuel : ℕ) : ∀ (p : CStr) (attributes : List XMLAttribute),
    p.length < fuel → ∃ x, ParseAttributes fuel p attributes = some x := by
  induction fuel with
  | zero => intro p attributes h; omega
  | succ fuel ih =>
    intro p attributes h
    have hskip := length_SkipWhiteSpace p
    unfold ParseAttributes
    cases hp : SkipWhiteSpace p with
    | nil => exact ⟨_, rfl⟩
    | cons c p' =>
      rw [hp] at hskip
      dsimp only
      split_ifs
      · split
        next => exact ⟨_, rfl⟩
        next attrib rest hattribute =>
          have hlen := (length_of_ParseAttribute hattribute).1
          split_ifs
          · exact ⟨_, rfl⟩
          · exact ih rest _ (by omega)
      · exact ⟨_, rfl⟩
      · exact ⟨_, rfl⟩
      · exact ⟨_, rfl⟩

variable {closing closed : Bool} {attributes : List XMLAttribute} {error : XMLError}

/-- The tag that the reader reads is the tag of the text. -/
theorem readTag_of_TagRead {name : CStr} (h : TagRead fuel q name r closing closed attributes) :
    readTag q = some ({ name := name, closing := closing, closed := closed }, r) := by
  obtain ⟨hslash, behind, hname, hread⟩ := h
  obtain ⟨x, hx⟩ := ParseAttributes_enough (behind.length + 1) behind [] (Nat.lt_succ_self _)
  have hsame : x = .ok (r, closed, attributes) := by
    have hlong := ParseAttributes_mono _ fuel hx
    rw [Nat.add_comm, ParseAttributes_mono _ (behind.length + 1) hread] at hlong
    exact (Option.some.inj hlong).symm
  subst hslash hsame
  unfold readTag
  dsimp only
  rw [hname]
  dsimp only
  rw [hx]

theorem ParsePlainText_cases (hr : (ParsePlainText q error).p = some r) :
    ∃ value c r', ParseText (cstr "<") q = some (value, c :: r') ∧ r = 60 :: c :: r' ∧
      (ParsePlainText q error).node.isElement = false ∧ (ParsePlainText q error).error = error := by
  unfold ParsePlainText at hr ⊢
  dsimp only at hr ⊢
  split at hr
  next hnone =>
    rw [hnone] at hr
    cases hr
  next => cases hr
  next c r' hp =>
    obtain ⟨value, htext, hleaf⟩ := ParseLeaf_cases hp
    rw [hleaf]
    exact ⟨value, c, r', htext, (Option.some.inj hr).symm, rfl, rfl⟩

/-- A node that is not an element is a piece without tags. -/
theorem piece_of_leaf {children : CStr → XMLError → Option Children} {kind : NodeKind} {n : Parsed}
    (hidentify : Identify p = some (kind, q)) (hkind : kind ≠ .element)
    (hnode : ParseNode fuel children kind q error = some n) (hr : n.p = some r) :
    piece p = some (none, r) ∧ n.node.isElement = false ∧ n.error = error := by
  cases kind with
  | element => exact absurd rfl hkind
  | text =>
    injection hnode with hn
    subst hn
    obtain ⟨value, c, r', htext, rfl, hleaf, herror⟩ := ParsePlainText_cases hr
    refine ⟨?_, hleaf, herror⟩
    unfold piece
    rw [hidentify]
    dsimp only
    rw [htext]
  | declaration | comment | cdata | unknown =>
    injection hnode with hn
    subst hn
    obtain ⟨value, htext, hleaf⟩ := ParseLeaf_cases hr
    refine ⟨?_, ?_, ?_⟩
    · unfold piece
      rw [hidentify]
      dsimp only [skipPiece]
      rw [htext]
      rfl
    · rw [hleaf]
      rfl
    · rw [hleaf]

/-! ## §3. What was read without an error. -/

/-- The reader takes a tag that ends with `/>` for an empty element, also `</a/>`. -/
def Tag.readAs (t : Tag) : Bracket CStr :=
  if t.closed then .neither else if t.closing then .closing t.name else .opening t.name

/-- How a call of `XMLNode::ParseDeep` without an error ends: with the text, or
    with an end tag.  What it read in front of it is balanced. -/
inductive Ends (p : CStr) (c : Children) : Prop
  | text (hp : c.p = none) (h : Balanced ((tagsOf p).map Tag.readAs))
  | tag {r : CStr} (ts : List Tag) {t : Tag} (hp : c.p = some r) (hend : c.parentEnd = t.name)
      (ht : t.readAs = .closing t.name) (hname : t.name.length ≤ p.length) (hr : r.length ≤ p.length)
      (h : Balanced (ts.map Tag.readAs)) (htags : tagsOf p = ts ++ t :: tagsOf r)

/-- Something balanced in front. -/
theorem Ends.prepend (pre : List Tag) (h : Ends r c) (htags : tagsOf p = pre ++ tagsOf r)
    (hpre : Balanced (pre.map Tag.readAs)) (hle : r.length ≤ p.length) :
    Ends p { c with nodes := nodes } := by
  cases h with
  | text hp h =>
    refine .text hp ?_
    rw [htags, map_append]
    exact hpre.append h
  | @tag r' ts t hp hend ht hname hr h hrest =>
    refine .tag (pre ++ ts) hp hend ht (by omega) (by omega) ?_ ?_
    · rw [map_append]
      exact hpre.append h
    · rw [htags, hrest, append_assoc]

theorem name_of_matched {n : Parsed} (helement : n.node.isElement = true) (hopen : n.closingType = .OPEN)
    (hmatched : n.mismatched = false) (hend : n.endTag.length ≤ MAX_INT32)
    (hvalue : n.node.Value.length ≤ MAX_INT32) : n.endTag = n.node.Value := by
  unfold Parsed.mismatched at hmatched
  rw [helement, hopen, Bool.true_and] at hmatched
  split_ifs at hmatched
  · cases hmatched
  · have hequal : StringEqual MAX_INT32 n.endTag n.node.Value = true := by simpa using hmatched
    exact eq_of_StringEqual hend hvalue hequal

theorem readAs_eq (t : Tag) : t.readAs = match closingTypeOf t.closing t.closed with
    | .OPEN => .opening t.name
    | .CLOSED => .neither
    | .CLOSING => .closing t.name := by
  obtain ⟨name, closing, closed⟩ := t
  cases closed <;> cases closing <;> rfl

theorem piece_of_TagRead {name : CStr} (hidentify : Identify p = some (.element, q))
    (h : TagRead fuel q name r closing closed attributes) :
    piece p = some (some { name := name, closing := closing, closed := closed }, r) := by
  unfold piece
  rw [hidentify]
  dsimp only
  rw [readTag_of_TagRead h]
  rfl

/-- A start tag, what is inside up to an end tag with its name, and what follows. -/
theorem Ends.around {r' : CStr} {t : Tag} {inner : Children} (hpiece : piece p = some (some t, r))
    (hopen : t.readAs = .opening t.name) (hinner : Ends r inner) (hp : inner.p = some r')
    (hsame : inner.parentEnd.length ≤ p.length → inner.parentEnd = t.name) (h : Ends r' c) :
    Ends p { c with nodes := nodes } := by
  have hlen := (length_of_piece hpiece).2
  cases hinner with
  | text hnone =>
    rw [hp] at hnone
    cases hnone
  | @tag r₁ ts u hp₁ hend hu hname hr₁ hbalanced htags =>
    obtain rfl : r' = r₁ := Option.some.inj (hp.symm.trans hp₁)
    have hmatched : inner.parentEnd = t.name := hsame (by rw [hend]; omega)
    refine h.prepend (t :: (ts ++ [u])) ?_ ?_ (by omega)
    · rw [tagsOf_some hpiece, htags]
      show _ :: (ts ++ u :: tagsOf r') = _ :: ((ts ++ [u]) ++ tagsOf r')
      rw [append_assoc, singleton_append]
    · rw [map_cons, map_append, map_singleton, hopen, hu, ← hend, hmatched]
      exact .pair t.name hbalanced .nil

/-- **WHAT WAS READ** without an error is balanced. -/
theorem ParseDeep_tags (fuel : ℕ) : ∀ {p : CStr} {error : XMLError} {c : Children}, p.length ≤ MAX_INT32 →
    ParseDeep fuel p error = some c → c.error = XML_NO_ERROR → error = XML_NO_ERROR ∧ Ends p c := by
  induction fuel with
  | zero =>
    intro p error c _ h _
    cases h
  | succ fuel ih =>
    intro p error c hshort h herror
    obtain ⟨hend, rfl⟩ | ⟨kind, q, n, hidentify, hnode, hcases⟩ := ParseDeep_cases h
    · -- the end of the text
      refine ⟨herror, .text rfl ?_⟩
      have hpiece : piece p = none := by rw [piece, hend]
      rw [tagsOf_none hpiece]
      exact .nil
    by_cases hkind : kind = .element
    · subst hkind
      rcases ParseElement_cases hnode with
        ⟨hnone, -⟩ | ⟨name, r, closing, closed, attributes, htag, ⟨-, rfl⟩ | ⟨htype, c₀, hinside, rfl⟩⟩
      · -- no tag
        rcases hcases with ⟨-, hbad, -⟩ | ⟨r, hr, -⟩ | ⟨hbad, -⟩ | ⟨r, c', hr, -⟩
        · exact absurd herror hbad
        · rw [hnone] at hr
          cases hr
        · exact absurd herror hbad
        · rw [hnone] at hr
          cases hr
      · -- a tag alone
        have hpiece := piece_of_TagRead hidentify htag
        obtain ⟨hname, hlen⟩ := length_of_piece hpiece
        have hread := readAs_eq { name := name, closing := closing, closed := closed }
        rcases hcases with ⟨hnone, -⟩ | ⟨_, hr, -, hclosing, rfl⟩ | ⟨hbad, -⟩ | ⟨_, c', hr, hopen, hmatched, hrest, rfl⟩
        · cases hnone
        · cases hr
          dsimp only at hclosing hread
          rw [hclosing] at hread
          exact ⟨herror, .tag [] rfl rfl hread (hname _ rfl) hlen.le .nil (tagsOf_some hpiece)⟩
        · exact absurd herror hbad
        · cases hr
          obtain ⟨hno, hends⟩ := ih (by omega) hrest herror
          have hclosed : closingTypeOf closing closed = .CLOSED := by
            cases htype : closingTypeOf closing closed with
            | OPEN =>
              rw [htype] at hmatched
              cases hmatched
            | CLOSED => rfl
            | CLOSING => exact absurd ⟨rfl, htype⟩ hopen
          rw [hclosed] at hread
          refine ⟨hno, hends.prepend _ (tagsOf_some hpiece) ?_ hlen.le⟩
          show Balanced [Tag.readAs _]
          rw [hread]
          exact .neither .nil
      · -- a start tag, and what is inside
        have hpiece := piece_of_TagRead hidentify htag
        obtain ⟨hname, hlen⟩ := length_of_piece hpiece
        have hread := readAs_eq { name := name, closing := closing, closed := closed }
        rw [htype] at hread
        rcases hcases with ⟨-, hbad, -⟩ | ⟨_, -, -, hclosing, -⟩ | ⟨hbad, -⟩ | ⟨r', c', hr, -, hmatched, hrest, rfl⟩
        · exact absurd herror hbad
        · cases hclosing
        · exact absurd herror hbad
        · dsimp only at hr hrest
          have hshorter : r'.length ≤ r.length := by
            have hweight := weight_le_of_ParseDeep fuel r error c₀ hinside
            rw [hr, Option.getD_some] at hweight
            omega
          obtain ⟨hno₀, hends⟩ := ih (by omega) hrest herror
          obtain ⟨hno, hinner⟩ := ih (by omega) hinside hno₀
          have hshortName : name.length ≤ MAX_INT32 := (hname _ rfl).trans hshort
          refine ⟨hno, .around hpiece hread hinner hr (fun hend => ?_) hends⟩
          exact name_of_matched rfl rfl hmatched (hend.trans hshort) hshortName
    · rcases hcases with ⟨-, hbad, -⟩ | ⟨r, hr, helement, -, -⟩ | ⟨hbad, -⟩ | ⟨r, c', hr, -, -, hrest, rfl⟩
      · exact absurd herror hbad
      · obtain ⟨-, hleaf, -⟩ := piece_of_leaf hidentify hkind hnode hr
        rw [hleaf] at helement
        cases helement
      · exact absurd herror hbad
      · obtain ⟨hpiece, -, hsame⟩ := piece_of_leaf hidentify hkind hnode hr
        have hlen := (length_of_piece hpiece).2
        obtain ⟨hno, hends⟩ := ih (by omega) hrest herror
        exact ⟨hsame ▸ hno, hends.prepend _ (tagsOf_some hpiece) .nil hlen.le⟩

/-! ## §4. The document. -/

theorem ParseText_skip {ws : CStr} (hws : ∀ b ∈ ws, XMLUtil.isspace b = true) (p : CStr) :
    ParseText (cstr "<") (ws ++ p) = (ParseText (cstr "<") p).map fun found => (ws ++ found.1, found.2) := by
  induction ws with
  | nil =>
    rw [nil_append]
    cases ParseText (cstr "<") p with
    | none => rfl
    | some found => rfl
  | cons b ws ih =>
    have hrest := ih fun x hx => hws x (mem_cons_of_mem b hx)
    have hblank : ¬ (cstr "<").isPrefixOf (b :: (ws ++ p)) = true := by
      rw [List.isPrefixOf_iff_prefix]
      intro hbegins
      have hb : (60 : UInt8) = b := (cons_prefix_cons.mp hbegins).1
      have hspace := hws b mem_cons_self
      rw [← hb] at hspace
      exact absurd hspace (by decide)
    rw [cons_append, ParseText, if_neg hblank, hrest]
    cases ParseText (cstr "<") p with
    | none => rfl
    | some found => rfl

theorem Identify_skip (p : CStr) : Identify (SkipWhiteSpace p) = (Identify p).map fun found =>
    if found.1 = .text then (.text, SkipWhiteSpace p) else found := by
  have htwice : SkipWhiteSpace (SkipWhiteSpace p) = SkipWhiteSpace p := dropWhile_idempotent _ _
  unfold Identify
  rw [htwice]
  dsimp only
  split_ifs <;> rfl

/-- Blanks in front of a piece do not belong to it. -/
theorem piece_skip (p : CStr) : piece (SkipWhiteSpace p) = piece p := by
  have hws : ∀ b ∈ p.takeWhile XMLUtil.isspace, XMLUtil.isspace b = true := fun b hb =>
    mem_takeWhile_imp hb
  have hsplit : p.takeWhile XMLUtil.isspace ++ SkipWhiteSpace p = p := takeWhile_append_dropWhile
  have htext := ParseText_skip hws (SkipWhiteSpace p)
  rw [hsplit] at htext
  unfold piece
  rw [Identify_skip]
  cases hp : Identify p with
  | none => rfl
  | some found =>
    obtain ⟨kind, q⟩ := found
    cases kind with
    | text =>
      obtain ⟨rfl, -⟩ := Identify_text_start hp
      rw [Option.map_some, if_pos rfl]
      dsimp only
      rw [htext]
      cases ParseText (cstr "<") (SkipWhiteSpace q) with
      | none => rfl
      | some found =>
        obtain ⟨value, r⟩ := found
        cases r <;> rfl
    | declaration | comment | cdata | unknown | element => rfl

theorem tagsOf_skip (p : CStr) : tagsOf (SkipWhiteSpace p) = tagsOf p := by
  cases hp : piece p with
  | none => rw [tagsOf_none hp, tagsOf_none ((piece_skip p).trans hp)]
  | some found => rw [tagsOf_some hp, tagsOf_some ((piece_skip p).trans hp)]

/-- What `Parse` leaves unread of a text: what is behind its pointer, and what it
    has not copied. -/
def unread (xml : CStr) : CStr :=
  let nBytes := (Int.bmod xml.length (2 ^ 32)).toNat
  let charBuffer := xml.take nBytes
  let delta := xml.length - (SkipWhiteSpace xml).length
  (match ParseDeep (charBuffer.length + 1) (charBuffer.drop delta) XML_NO_ERROR with
    -- the pointer is 0 behind the end of the text
    | some c => c.p.getD []
    | none => []) ++ xml.drop nBytes

/-- The reader never takes a tag for more of an end tag than it is. -/
theorem bracket_delta (t : Tag) : t.bracket.delta ≤ t.readAs.delta ∧
    (t.bracket.delta = t.readAs.delta → t.bracket = t.readAs) := by
  by_cases hboth : t.closing = true ∧ t.closed = true
  · have hbracket : t.bracket = .closing t.name := if_pos hboth.1
    have hread : t.readAs = .neither := if_pos hboth.2
    rw [hbracket, hread]
    exact ⟨(by decide : (-1 : ℤ) ≤ 0), fun h => absurd h (by decide : ¬ (-1 : ℤ) = 0)⟩
  have hsame : t.bracket = t.readAs := by
    obtain ⟨name, closing, closed⟩ := t
    cases closing with
    | false => cases closed <;> rfl
    | true =>
      cases closed with
      | false => rfl
      | true => exact absurd ⟨rfl, rfl⟩ hboth
  exact ⟨hsame ▸ le_rfl, fun _ => hsame⟩

theorem depth_bracket_le (ts : List Tag) : depth (ts.map Tag.bracket) ≤ depth (ts.map Tag.readAs) := by
  induction ts with
  | nil => exact le_rfl
  | cons t ts ih =>
    have hle := (bracket_delta t).1
    rw [map_cons, map_cons, depth_cons, depth_cons]
    omega

theorem bracket_eq_readAs {ts : List Tag} (h : depth (ts.map Tag.readAs) ≤ depth (ts.map Tag.bracket)) :
    ts.map Tag.bracket = ts.map Tag.readAs := by
  induction ts with
  | nil => rfl
  | cons t ts ih =>
    obtain ⟨hle, heq⟩ := bracket_delta t
    have hrest := depth_bracket_le ts
    rw [map_cons, map_cons, depth_cons, depth_cons] at h
    rw [map_cons, map_cons, heq (by omega), ih (by omega)]

/-- A text that the reader left off at the end, or at an end tag: it is nested and
    read to its end unless an end tag comes without a start tag before it. -/
theorem Ends.nested_iff (h : Ends p c) :
    (nestedIn [] ((tagsOf p).map Tag.bracket) = true ∧ c.p.getD [] = []) ↔
      ∀ ts, ts <+: tagsOf p → 0 ≤ depth (ts.map Tag.bracket) := by
  have honly : nestedIn [] ((tagsOf p).map Tag.bracket) = true →
      ∀ ts, ts <+: tagsOf p → 0 ≤ depth (ts.map Tag.bracket) := by
    intro hnested ts hts
    have hfront := (depth_of_nestedIn hnested).2 _ (hts.map Tag.bracket)
    rwa [length_nil, Nat.cast_zero, zero_add] at hfront
  refine ⟨fun hall => honly hall.1, fun hdepth => ?_⟩
  cases h with
  | text hp hbalanced =>
    have hsame : (tagsOf p).map Tag.bracket = (tagsOf p).map Tag.readAs := by
      refine bracket_eq_readAs ?_
      rw [hbalanced.depth]
      exact hdepth _ (prefix_refl _)
    refine ⟨?_, by rw [hp]; rfl⟩
    have hnested := hbalanced.nestedIn [] []
    rw [append_nil] at hnested
    rw [hsame, hnested]
    rfl
  | @tag r ts t hp _ ht _ _ hbalanced htags =>
    -- the end tag that the reader stopped at is one too many
    have hfront : ts ++ [t] <+: tagsOf p := by
      rw [htags]
      exact ⟨tagsOf r, by rw [append_assoc, singleton_append]⟩
    have hnegative : depth ((ts ++ [t]).map Tag.bracket) < 0 := by
      have hle := depth_bracket_le (ts ++ [t])
      rw [map_append (f := Tag.readAs), map_singleton, depth_append, hbalanced.depth, ht] at hle
      have hone : depth [Bracket.closing t.name] = -1 := rfl
      omega
    exact absurd (hdepth _ hfront) (not_le.mpr hnegative)

/-- Of less than 2^32 bytes the reader has the whole text. -/
theorem ParseDeep_of_Parse {xml : CStr} (h : Parse xml (-1) = some (XML_NO_ERROR, nodes))
    (hlen : xml.length < 2 ^ 32) :
    ∃ c, ParseDeep (xml.length + 1) (SkipWhiteSpace xml) XML_NO_ERROR = some c ∧ c.error = XML_NO_ERROR ∧
      (SkipWhiteSpace xml).length ≤ MAX_INT32 ∧ unread xml = c.p.getD [] := by
  obtain ⟨hpos, c, hdeep, herror, -⟩ := Parse_cases h
  obtain ⟨hsmall, hmod⟩ := nBytes_bound xml.length
  have hbytes : (Int.bmod xml.length (2 ^ 32)).toNat = xml.length := by omega
  have hdelta : xml.drop (xml.length - (SkipWhiteSpace xml).length) = SkipWhiteSpace xml := by
    have hsplit : xml.takeWhile XMLUtil.isspace ++ SkipWhiteSpace xml = xml := takeWhile_append_dropWhile
    have hboth := congrArg List.length hsplit
    rw [length_append] at hboth
    have hcount : xml.length - (SkipWhiteSpace xml).length = (xml.takeWhile XMLUtil.isspace).length := by omega
    rw [hcount]
    nth_rewrite 2 [← hsplit]
    exact drop_left
  have hunread : unread xml = c.p.getD [] := by
    unfold unread
    dsimp only
    rw [hdeep]
    rw [hbytes, drop_length, append_nil]
  have hshort : (SkipWhiteSpace xml).length ≤ MAX_INT32 := by
    have hskip := length_SkipWhiteSpace xml
    unfold MAX_INT32
    omega
  rw [hbytes, take_length, hdelta] at hdeep
  exact ⟨c, hdeep, herror, hshort, hunread⟩

/-- **WHICH ACCEPTED TEXTS** are nested and read to their end: those of less than
    2^32 bytes in which no end tag comes without a start tag before it. -/
theorem Parse_balanced_iff {xml : CStr} {nodes : List XMLNode} (h : Parse xml (-1) = some (XML_NO_ERROR, nodes)) :
    (nestedIn [] ((tagsOf xml).map Tag.bracket) = true ∧ unread xml = []) ↔
      xml.length < 2 ^ 32 ∧ ∀ ts, ts <+: tagsOf xml → 0 ≤ depth (ts.map Tag.bracket) := by
  by_cases hlen : xml.length < 2 ^ 32
  · obtain ⟨c, hdeep, herror, hshort, hunread⟩ := ParseDeep_of_Parse h hlen
    obtain ⟨-, hends⟩ := ParseDeep_tags _ hshort hdeep herror
    have hiff := hends.nested_iff
    rw [tagsOf_skip] at hiff
    rw [hunread, hiff]
    exact ⟨fun hdepth => ⟨hlen, hdepth⟩, fun hboth => hboth.2⟩
  · -- the rest was not copied
    obtain ⟨hsmall, -⟩ := nBytes_bound xml.length
    constructor
    · rintro ⟨-, hall⟩
      have hrest := List.drop_eq_nil_iff.mp (List.append_eq_nil_iff.mp hall).2
      omega
    · rintro ⟨hlt, -⟩
      exact absurd hlt hlen

theorem Parse_balanced_iff_small :
    (nestedIn [] ((tagsOf (cstr "<a></a>")).map Tag.bracket) = true ∧ unread (cstr "<a></a>") = []) ↔
      (cstr "<a></a>").length < 2 ^ 32 ∧
        ∀ ts, ts <+: tagsOf (cstr "<a></a>") → 0 ≤ depth (ts.map Tag.bracket) := by
  have hread : Parse (cstr "<a></a>") (-1) = some (XML_NO_ERROR, [.XMLElement (cstr "a") [] []]) := by
    have htext : cstr "<a></a>" = 60 :: cstr "a></a>" := rfl
    rw [Parse_of_lt htext (by decide)]
    rfl
  exact Parse_balanced_iff hread

/-- An end tag alone is accepted. -/
theorem stray_end_tag_accepted :
    ¬ ∀ (xml : CStr) (nodes : List XMLNode), Parse xml (-1) = some (XML_NO_ERROR, nodes) →
      nestedIn [] ((tagsOf xml).map Tag.bracket) = true ∧ unread xml = [] := by
  intro h
  have hread : Parse (cstr "</a>") (-1) = some (XML_NO_ERROR, []) := by
    have htext : cstr "</a>" = 60 :: cstr "/a>" := rfl
    rw [Parse_of_lt htext (by decide)]
    rfl
  obtain ⟨hnested, -⟩ := h _ _ hread
  exact absurd hnested (by decide)

end QXml

end KalavaPir.Common
