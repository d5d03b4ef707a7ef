/-
  KalavaPir.Common.QXmlPrint — what was printed is read back.

  The printer puts each element on a line of its own; the reader skips the ends
  of the lines, but takes a text as it is.  An element that has only elements, or
  one text, or nothing inside, is read back.
-/
import Mathlib.Data.List.TakeWhile
import KalavaPir.Common.QXml

namespace KalavaPir.Common

open List

namespace QXml

open XMLUtil XMLError

/-! ## §1. What can be printed. -/

/-- A text that is read as one text: no `'<'` (60) in a plain one, which is not
    blank; no `]]>` in the other kind. -/
def PrintableText (value : CStr) (isCData : Bool) : Prop :=
  if isCData then ¬ cstr "]]>" <:+: value
  else 60 ∉ value ∧ ∃ b ∈ value, XMLUtil.isspace b = false

/-- Names that are accepted whole, each only once; no `'"'` (34) and no 0 in a
    value. -/
structure PrintableAttributes (attributes : List XMLAttribute) : Prop where
  names : ∀ a ∈ attributes, ParseName a.1 = some (a.1, [])
  values : ∀ a ∈ attributes, 34 ∉ a.2 ∧ 0 ∉ a.2
  distinct : (attributes.map Prod.fst).Nodup

mutual

/-- An element whose name is accepted whole, with elements or one text or nothing
    inside. -/
def Printable : XMLNode → Prop
  | .XMLElement value attributes children =>
    ParseName value = some (value, []) ∧ PrintableAttributes attributes ∧
      (PrintableElements children ∨ ∃ v d, children = [.XMLText v d] ∧ PrintableText v d)
  | .XMLText _ _ => False
  | .XMLComment _ => False
  | .XMLDeclaration _ => False
  | .XMLUnknown _ => False

/-- All of them are printable. -/
def PrintableElements : List XMLNode → Prop
  | [] => True
  | child :: children => Printable child ∧ PrintableElements children

end

/-! ## §2. The parts of a tag. -/

theorem StringEqual_iff (n : ℕ) : ∀ p q : CStr, StringEqual n p q = true ↔ p.take n = q.take n := by
  induction n with
  | zero =>
    intro p q
    exact iff_of_true rfl rfl
  | succ n ih =>
    intro p q
    cases p with
    | nil =>
      cases q with
      | nil => exact iff_of_true rfl rfl
      | cons b q => exact iff_of_false Bool.false_ne_true (by simp)
    | cons a p =>
      cases q with
      | nil => exact iff_of_false Bool.false_ne_true (by simp)
      | cons b q =>
        unfold StringEqual
        rw [Bool.and_eq_true, beq_iff_eq, ih, take_succ_cons, take_succ_cons, List.cons.injEq]

theorem StringEqual_self (n : ℕ) (p : CStr) : StringEqual n p p = true := (StringEqual_iff n p p).mpr rfl

theorem eq_of_StringEqual {n : ℕ} {p q : CStr} (hp : p.length ≤ n) (hq : q.length ≤ n)
    (h : StringEqual n p q = true) : p = q := by
  have htake := (StringEqual_iff n p q).mp h
  rw [take_of_length_le hp, take_of_length_le hq] at htake
  exact htake

theorem ParseName_cons (c : UInt8) (p : CStr) : ParseName (c :: p) =
    if IsNameStartChar c then some (c :: p.takeWhile IsNameChar, p.dropWhile IsNameChar) else none := rfl

/-- A blank does not begin a name. -/
theorem isspace_of_start {c : UInt8} (h : IsNameStartChar c = true) : XMLUtil.isspace c = false := by
  by_contra hspace
  have hsmall : c = 32 ∨ c = 9 ∨ c = 10 ∨ c = 11 ∨ c = 12 ∨ c = 13 := by
    unfold XMLUtil.isspace at hspace
    simp only [Bool.not_eq_false, Bool.or_eq_true, beq_iff_eq, Bool.and_eq_true, decide_eq_true_eq,
      UInt8.le_iff_toNat_le] at hspace
    simp only [← UInt8.toNat_inj] at hspace ⊢
    have hliterals : (9 : UInt8).toNat = 9 ∧ (10 : UInt8).toNat = 10 ∧ (11 : UInt8).toNat = 11 ∧
        (12 : UInt8).toNat = 12 ∧ (13 : UInt8).toNat = 13 := ⟨rfl, rfl, rfl, rfl, rfl⟩
    omega
  obtain hc | hc | hc | hc | hc | hc := hsmall
  all_goals
    rw [hc] at h
    exact absurd h (by decide)

theorem cons_of_ParseName {name : CStr} (h : ParseName name = some (name, [])) :
    ∃ c p, name = c :: p ∧ IsNameStartChar c = true ∧ ∀ x ∈ p, IsNameChar x = true := by
  cases name with
  | nil => exact absurd h (by simp [ParseName])
  | cons c p =>
    rw [ParseName_cons] at h
    split_ifs at h with hstart
    have hrest : p.dropWhile IsNameChar = [] := congrArg Prod.snd (Option.some.inj h)
    exact ⟨c, p, rfl, hstart, dropWhile_eq_nil_iff.mp hrest⟩

/-- The parts of a tag. -/
theorem ParseName_append {name : CStr} (h : ParseName name = some (name, [])) {x : UInt8}
    (hx : IsNameChar x = false) (s : CStr) : ParseName (name ++ x :: s) = some (name, x :: s) := by
  obtain ⟨c, p, hname, hstart, hall⟩ := cons_of_ParseName h
  rw [hname, cons_append, ParseName_cons, if_pos hstart, takeWhile_append_of_pos hall, dropWhile_append_of_pos hall,
    takeWhile_cons_of_neg (by rw [hx]; decide), dropWhile_cons_of_neg (by rw [hx]; decide), append_nil]

/-- The end tag is not earlier than it should be. -/
theorem ParseText_of_apart {endTag s : CStr} (hne : endTag ≠ []) (value : CStr)
    (h : ∀ b, b ≠ [] → b <:+ value → ¬ endTag <+: b ++ endTag ++ s) :
    ParseText endTag (value ++ endTag ++ s) = some (value, s) := by
  induction value with
  | nil =>
    obtain ⟨c, tag, htag⟩ := exists_cons_of_ne_nil hne
    have hbegins : endTag.isPrefixOf (endTag ++ s) = true := isPrefixOf_iff_prefix.mpr (prefix_append _ _)
    rw [nil_append]
    rw [htag] at hbegins ⊢
    rw [cons_append] at hbegins ⊢
    unfold ParseText
    rw [if_pos hbegins, ← cons_append, drop_left]
  | cons c value ih =>
    have hfirst : ¬ endTag.isPrefixOf (c :: (value ++ endTag ++ s)) = true := by
      rw [List.isPrefixOf_iff_prefix]
      exact h (c :: value) (cons_ne_nil c value) (suffix_refl _)
    have hrest := ih (fun b hb hends => h b hb (hends.trans (suffix_cons c value)))
    rw [cons_append, cons_append]
    unfold ParseText
    rw [if_neg hfirst, hrest]

theorem ParseText_char {q : UInt8} {value : CStr} (h : q ∉ value) (s : CStr) :
    ParseText [q] (value ++ q :: s) = some (value, s) := by
  have htext : value ++ q :: s = value ++ [q] ++ s := by
    rw [append_assoc, singleton_append]
  rw [htext]
  refine ParseText_of_apart (cons_ne_nil q []) value ?_
  intro b hb hends hbegins
  obtain ⟨x, b', hcons⟩ := exists_cons_of_ne_nil hb
  rw [hcons, cons_append, cons_append, cons_prefix_cons] at hbegins
  rw [hcons] at hends
  exact h (hbegins.1 ▸ hends.mem mem_cons_self)

/-- `]]>` cannot begin in the value and end behind it. -/
theorem ParseText_cdata {value : CStr} (h : ¬ cstr "]]>" <:+: value) (s : CStr) :
    ParseText (cstr "]]>") (value ++ cstr "]]>" ++ s) = some (value, s) := by
  refine ParseText_of_apart (cons_ne_nil 93 _) value ?_
  intro b hb hends hbegins
  match b, hb with
  | [x], _ =>
    obtain ⟨-, hbegins⟩ := cons_prefix_cons.mp hbegins
    obtain ⟨-, hbegins⟩ := cons_prefix_cons.mp hbegins
    exact absurd (cons_prefix_cons.mp hbegins).1 (by decide)
  | [x, y], _ =>
    obtain ⟨-, hbegins⟩ := cons_prefix_cons.mp hbegins
    obtain ⟨-, hbegins⟩ := cons_prefix_cons.mp hbegins
    exact absurd (cons_prefix_cons.mp hbegins).1 (by decide)
  | x :: y :: z :: b, _ =>
    obtain ⟨hx, hbegins⟩ := cons_prefix_cons.mp hbegins
    obtain ⟨hy, hbegins⟩ := cons_prefix_cons.mp hbegins
    obtain ⟨hz, -⟩ := cons_prefix_cons.mp hbegins
    rw [← hx, ← hy, ← hz] at hends
    have hwithin : [93, 93, 62] <:+: 93 :: 93 :: 62 :: b := ⟨[], b, rfl⟩
    exact h (hwithin.trans hends.isInfix)

/-- **An attribute** is read back. -/
theorem ParseAttribute_print {name value : CStr} (hname : ParseName name = some (name, [])) (hvalue : 34 ∉ value)
    (s : CStr) : ParseAttribute (name ++ 61 :: 34 :: (value ++ 34 :: s)) = some ((name, value), s) := by
  unfold ParseAttribute
  rw [ParseName_append hname (by decide)]
  dsimp only
  rw [show SkipWhiteSpace (61 :: 34 :: (value ++ 34 :: s)) = 61 :: 34 :: (value ++ 34 :: s) from rfl]
  dsimp only
  rw [if_neg (by decide), show SkipWhiteSpace (34 :: (value ++ 34 :: s)) = 34 :: (value ++ 34 :: s) from rfl]
  dsimp only
  rw [if_neg (by decide), ParseText_char hvalue]

theorem printAttributes_cons (a : XMLAttribute) (attributes : List XMLAttribute) (s : CStr) :
    printAttributes (a :: attributes) ++ s = 32 :: (a.1 ++ 61 :: 34 :: (a.2 ++ 34 :: (printAttributes attributes ++ s))) := by
  have hspace : cstr " " = [32] := rfl
  have hequal : cstr "=" = [61] := rfl
  have hquote : cstr "\"" = [34] := rfl
  unfold printAttributes
  rw [flatMap_cons, hspace, hequal, hquote]
  simp only [append_assoc, cons_append, nil_append]

/-- **The attributes of a tag** are read back. -/
theorem ParseAttributes_print (attributes : List XMLAttribute) : ∀ (fuel : ℕ) (acc : List XMLAttribute) (s : CStr),
    attributes.length < fuel → (∀ a ∈ attributes, ParseName a.1 = some (a.1, [])) → (∀ a ∈ attributes, 34 ∉ a.2) →
    ((acc ++ attributes).map Prod.fst).Nodup → (∀ a ∈ acc ++ attributes, a.1.length ≤ MAX_INT32) →
    ParseAttributes fuel (printAttributes attributes ++ 62 :: s) acc = some (.ok (s, false, acc ++ attributes)) := by
  induction attributes with
  | nil =>
    intro fuel acc s hfuel _ _ _ _
    obtain ⟨k, hk⟩ : ∃ k, fuel = k + 1 := ⟨fuel - 1, by omega⟩
    rw [hk, append_nil]
    rfl
  | cons a attributes ih =>
    intro fuel acc s hfuel hnames hvalues hnodup hshort
    rw [length_cons] at hfuel
    obtain ⟨k, hk⟩ : ∃ k, fuel = k + 1 := ⟨fuel - 1, by omega⟩
    have hname := hnames a mem_cons_self
    obtain ⟨c, p, hcons, hstart, -⟩ := cons_of_ParseName hname
    have hsplit : acc ++ a :: attributes = (acc ++ [a]) ++ attributes := by
      rw [append_assoc, singleton_append]
    have hdistinct : acc.any (fun x => StringEqual MAX_INT32 x.1 a.1) = false := by
      rw [any_eq_false]
      intro x hx hequal
      have hx' : x ∈ acc ++ a :: attributes := mem_append_left _ hx
      have ha : a ∈ acc ++ a :: attributes := mem_append_right _ mem_cons_self
      have hsame := eq_of_StringEqual (hshort x hx') (hshort a ha) hequal
      rw [map_append, map_cons] at hnodup
      exact (nodup_append.mp hnodup).2.2 x.1 (mem_map_of_mem hx) a.1 mem_cons_self hsame
    have hskip : SkipWhiteSpace (printAttributes (a :: attributes) ++ 62 :: s) =
        c :: (p ++ 61 :: 34 :: (a.2 ++ 34 :: (printAttributes attributes ++ 62 :: s))) := by
      have hspace := isspace_of_start hstart
      rw [printAttributes_cons, hcons, cons_append]
      unfold SkipWhiteSpace
      rw [dropWhile_cons_of_pos (by decide), dropWhile_cons_of_neg (by rw [hspace]; decide)]
    have hread := ParseAttribute_print hname (hvalues a mem_cons_self) (printAttributes attributes ++ 62 :: s)
    rw [hcons, cons_append] at hread
    rw [hk]
    unfold ParseAttributes
    rw [hskip]
    dsimp only
    rw [if_pos hstart, hread]
    dsimp only
    rw [← hcons, hdistinct, if_neg Bool.false_ne_true, hsplit]
    rw [hsplit] at hnodup hshort
    exact ih k (acc ++ [a]) s (by omega) (fun x hx => hnames x (mem_cons_of_mem a hx))
      (fun x hx => hvalues x (mem_cons_of_mem a hx)) hnodup hshort

/-! ## §3. Tags. -/

theorem SkipWhiteSpace_append {ws : CStr} (hws : ∀ b ∈ ws, XMLUtil.isspace b = true) {c : UInt8}
    (hc : XMLUtil.isspace c = false) (p : CStr) : SkipWhiteSpace (ws ++ c :: p) = c :: p := by
  unfold SkipWhiteSpace
  rw [dropWhile_append_of_pos hws, dropWhile_cons_of_neg (by rw [hc]; decide)]

/-- A tag that is neither `<?` nor `<!`. -/
theorem Identify_element {ws : CStr} (hws : ∀ b ∈ ws, XMLUtil.isspace b = true) {c : UInt8} (hquestion : c ≠ 63)
    (hbang : c ≠ 33) (p : CStr) : Identify (ws ++ 60 :: c :: p) = some (.element, c :: p) := by
  have hother : ∀ n x q, c ≠ x → StringEqual (n + 2) (60 :: c :: p) (60 :: x :: q) = false := by
    intro n x q hne
    unfold StringEqual
    rw [beq_self_eq_true, Bool.true_and]
    unfold StringEqual
    rw [beq_eq_false_iff_ne.mpr hne, Bool.false_and]
  unfold Identify
  rw [SkipWhiteSpace_append hws (by decide), if_neg (cons_ne_nil _ _),
    if_neg (by rw [show cstr "<?" = [60, 63] from rfl, hother 0 63 [] hquestion]; decide),
    if_neg (by rw [show cstr "<!--" = [60, 33, 45, 45] from rfl, hother 2 33 _ hbang]; decide),
    if_neg (by rw [show cstr "<![CDATA[" = 60 :: 33 :: cstr "[CDATA[" from rfl, hother 7 33 _ hbang]; decide),
    if_neg (by rw [show cstr "<!" = [60, 33] from rfl, hother 0 33 [] hbang]; decide),
    if_pos (by rw [show cstr "<" = [60] from rfl]; rfl)]
  rfl

theorem ne_of_start {c : UInt8} (h : IsNameStartChar c = true) : c ≠ 63 ∧ c ≠ 33 ∧ c ≠ 47 := by
  refine ⟨?_, ?_, ?_⟩
  all_goals
    intro hc
    rw [hc] at h
    exact absurd h (by decide)

/-- An end tag. -/
theorem ParseElement_closing {name : CStr} (hname : ParseName name = some (name, [])) (fuel : ℕ)
    (children : CStr → XMLError → Option Children) (s : CStr) (error : XMLError) :
    ParseElement (fuel + 1) children (47 :: (name ++ 62 :: s)) error =
      some ⟨some s, .XMLElement name [] [], .CLOSING, [], error⟩ := by
  have hskip : SkipWhiteSpace (47 :: (name ++ 62 :: s)) = 47 :: (name ++ 62 :: s) := rfl
  have hread : ParseAttributes (fuel + 1) (62 :: s) [] = some (.ok (s, false, [])) := rfl
  have hhead : (47 :: (name ++ 62 :: s)).head? = some 47 := rfl
  unfold ParseElement
  dsimp only
  rw [hskip, if_pos hhead, tail_cons, ParseName_append hname (by decide)]
  dsimp only
  rw [hread]
  dsimp only
  rw [if_neg Bool.false_ne_true, if_pos hhead, if_pos (Or.inr (by decide))]

theorem ParseDeep_closing {ws name : CStr} (hws : ∀ b ∈ ws, XMLUtil.isspace b = true)
    (hname : ParseName name = some (name, [])) (fuel : ℕ) (s : CStr) (error : XMLError) :
    ParseDeep (fuel + 2) (ws ++ 60 :: 47 :: (name ++ 62 :: s)) error = some ⟨some s, [], name, error⟩ := by
  rw [ParseDeep, Identify_element hws (by decide) (by decide)]
  dsimp only [ParseNode]
  rw [ParseElement_closing hname]
  rfl

/-- A start tag, what is inside, and the end tag. -/
theorem ParseElement_of_children {value : CStr} {attributes : List XMLAttribute} {children : List XMLNode} {fuel : ℕ}
    {inside r : CStr} {error : XMLError} (hvalue : ParseName value = some (value, []))
    (hattributes : PrintableAttributes attributes) (hshort : ∀ a ∈ attributes, a.1.length ≤ MAX_INT32)
    (hfuel : attributes.length < fuel) (hne : inside ≠ [])
    (hinside : ParseDeep fuel inside error = some ⟨some r, children, value, error⟩) :
    ParseElement fuel (ParseDeep fuel) (value ++ (printAttributes attributes ++ 62 :: inside)) error =
      some ⟨some r, .XMLElement value attributes children, .OPEN, value, error⟩ := by
  obtain ⟨c, p, hcons, hstart, -⟩ := cons_of_ParseName hvalue
  have hskip : SkipWhiteSpace (value ++ (printAttributes attributes ++ 62 :: inside)) =
      value ++ (printAttributes attributes ++ 62 :: inside) := by
    rw [hcons, cons_append]
    unfold SkipWhiteSpace
    rw [dropWhile_cons_of_neg (by rw [isspace_of_start hstart]; decide)]
  have hopen : ∀ q, ¬ (value ++ q).head? = some 47 := by
    intro q
    rw [hcons, cons_append, head?_cons, Option.some_inj]
    exact (ne_of_start hstart).2.2
  obtain ⟨x, q, hx, hbehind⟩ : ∃ x q, IsNameChar x = false ∧ printAttributes attributes ++ 62 :: inside = x :: q := by
    cases attributes with
    | nil => exact ⟨62, inside, by decide, rfl⟩
    | cons a attributes => exact ⟨32, _, by decide, printAttributes_cons a attributes _⟩
  have hread := ParseAttributes_print attributes fuel [] inside hfuel hattributes.names
    (fun a ha => (hattributes.values a ha).1) hattributes.distinct hshort
  unfold ParseElement
  dsimp only
  rw [hskip, if_neg (hopen _)]
  rw [hbehind] at hread ⊢
  rw [ParseName_append hvalue hx]
  dsimp only
  rw [hread]
  dsimp only
  have hempty : ¬ (inside = [] ∨ ClosingType.OPEN ≠ ClosingType.OPEN) := by
    intro hor
    obtain hnil | hopen' := hor
    · exact hne hnil
    · exact hopen' rfl
  rw [if_neg Bool.false_ne_true, if_neg (hopen _), if_neg hempty, hinside]
  rfl

/-! ## §4. What is inside. -/

theorem not_mismatched_of_leaf {n : Parsed} (h : n.node.isElement = false) : ¬ n.mismatched = true := by
  unfold Parsed.mismatched
  rw [h, Bool.false_and]
  exact Bool.false_ne_true

theorem not_mismatched_of_name {n : Parsed} (hopen : n.closingType = .OPEN) (hname : n.endTag = n.node.Value)
    (hne : n.node.Value ≠ []) : ¬ n.mismatched = true := by
  unfold Parsed.mismatched
  rw [hname, if_neg hne, hopen, StringEqual_self]
  simp

/-- A text without `<` that is not all blank is a text to `Identify`. -/
theorem Identify_text {value : CStr} (hno : (60 : UInt8) ∉ value) {b : UInt8} (hb : b ∈ value)
    (hblank : XMLUtil.isspace b = false) (s : CStr) :
    Identify (value ++ 60 :: s) = some (.text, value ++ 60 :: s) := by
  -- the first character that is not blank
  have hdrop : value.dropWhile XMLUtil.isspace ≠ [] := by
    intro hnil
    have hall := dropWhile_eq_nil_iff.mp hnil b hb
    rw [hblank] at hall
    exact Bool.false_ne_true hall
  obtain ⟨c, q, hcons⟩ := exists_cons_of_ne_nil hdrop
  have hskip : SkipWhiteSpace (value ++ 60 :: s) = c :: (q ++ 60 :: s) := by
    unfold SkipWhiteSpace
    rw [dropWhile_append, hcons]
    rfl
  have hc : c ≠ 60 := by
    intro heq
    have hmem : c ∈ value.dropWhile XMLUtil.isspace := by
      rw [hcons]
      exact mem_cons_self
    exact hno (heq ▸ (dropWhile_suffix _).mem hmem)
  have hother : ∀ n p q, StringEqual (n + 1) (c :: p) (60 :: q) = false := by
    intro n p q
    unfold StringEqual
    rw [beq_eq_false_iff_ne.mpr hc, Bool.false_and]
  unfold Identify
  rw [hskip, if_neg (cons_ne_nil _ _),
    if_neg (by rw [show cstr "<?" = 60 :: cstr "?" from rfl, hother 1]; decide),
    if_neg (by rw [show cstr "<!--" = 60 :: cstr "!--" from rfl, hother 3]; decide),
    if_neg (by rw [show cstr "<![CDATA[" = 60 :: cstr "![CDATA[" from rfl, hother 8]; decide),
    if_neg (by rw [show cstr "<!" = 60 :: cstr "!" from rfl, hother 1]; decide),
    if_neg (by rw [show cstr "<" = 60 :: cstr "" from rfl, hother 0]; decide)]

/-- The text of an element, and its end tag. -/
theorem ParseDeep_text {value name : CStr} {isCData : Bool} (htext : PrintableText value isCData)
    (hname : ParseName name = some (name, [])) (fuel : ℕ) (s : CStr) (error : XMLError) :
    ParseDeep (fuel + 3) (printText (some (.XMLText value isCData)) ++ 60 :: 47 :: (name ++ 62 :: s)) error =
      some ⟨some s, [.XMLText value isCData], name, error⟩ := by
  have hblank : ∀ b ∈ ([] : CStr), XMLUtil.isspace b = true := fun b hb => absurd hb not_mem_nil
  have hclosing := ParseDeep_closing hblank hname fuel s error
  rw [nil_append] at hclosing
  cases isCData with
  | true =>
    have hopen : cstr "<![CDATA[" = [60, 33, 91, 67, 68, 65, 84, 65, 91] := rfl
    have hprint : printText (some (.XMLText value true)) ++ 60 :: 47 :: (name ++ 62 :: s) =
        [60, 33, 91, 67, 68, 65, 84, 65, 91] ++ (value ++ cstr "]]>" ++ 60 :: 47 :: (name ++ 62 :: s)) := by
      unfold printText
      dsimp only
      rw [if_pos rfl, if_pos rfl, hopen, append_assoc, append_assoc, append_assoc]
    have hidentify : Identify ([60, 33, 91, 67, 68, 65, 84, 65, 91] ++
        (value ++ cstr "]]>" ++ 60 :: 47 :: (name ++ 62 :: s))) =
          some (.cdata, value ++ cstr "]]>" ++ 60 :: 47 :: (name ++ 62 :: s)) := rfl
    rw [hprint, ParseDeep, hidentify]
    dsimp only [ParseNode]
    unfold ParseLeaf
    rw [ParseText_cdata htext]
    dsimp only
    rw [if_neg (fun h => Bool.false_ne_true h.1), if_neg (not_mismatched_of_leaf rfl), hclosing]
  | false =>
    obtain ⟨hno, b, hb, hblank⟩ := htext
    have hprint : printText (some (.XMLText value false)) = value := by
      unfold printText
      dsimp only
      rw [if_neg Bool.false_ne_true, if_neg Bool.false_ne_true, nil_append, append_nil]
    rw [hprint, ParseDeep, Identify_text hno hb hblank]
    dsimp only [ParseNode]
    unfold ParsePlainText ParseLeaf
    rw [show cstr "<" = [60] from rfl, ParseText_char hno]
    dsimp only
    rw [if_neg (fun h => Bool.false_ne_true h.1), if_neg (not_mismatched_of_leaf rfl), hclosing]

/-- What is printed inside of an element. -/
def printInside (children : List XMLNode) : CStr :=
  if children.any XMLNode.isElement then cstr "\n" ++ printElements children else printText children.head?

theorem print_element (value : CStr) (attributes : List XMLAttribute) (children : List XMLNode) (s : CStr) :
    (XMLNode.XMLElement value attributes children).print ++ s =
      60 :: (value ++ (printAttributes attributes ++ 62 :: (printInside children ++ 60 :: 47 :: (value ++ 62 :: 10 :: s)))) := by
  have hopen : cstr "<" = [60] := rfl
  have hclose : cstr ">" = [62] := rfl
  have hend : cstr "</" = [60, 47] := rfl
  have hline : cstr "\n" = [10] := rfl
  unfold XMLNode.print printInside
  rw [hopen, hclose, hend, hline]
  simp only [append_assoc, cons_append, nil_append]

theorem length_print_element (value : CStr) (attributes : List XMLAttribute) (children : List XMLNode) :
    (XMLNode.XMLElement value attributes children).print.length =
      2 * value.length + (printAttributes attributes).length + (printInside children).length + 6 := by
  have hprint := congrArg List.length (print_element value attributes children [])
  rw [append_nil] at hprint
  rw [hprint]
  simp only [length_cons, length_append, length_nil]
  omega

theorem length_printAttributes (attributes : List XMLAttribute) :
    attributes.length ≤ (printAttributes attributes).length ∧
      ∀ a ∈ attributes, a.1.length ≤ (printAttributes attributes).length := by
  induction attributes with
  | nil => exact ⟨Nat.le_refl 0, fun a ha => absurd ha not_mem_nil⟩
  | cons a attributes ih =>
    have hlen := congrArg List.length (printAttributes_cons a attributes [])
    simp only [length_cons, length_append, append_nil] at hlen
    refine ⟨?_, ?_⟩
    · rw [length_cons]
      omega
    · intro x hx
      obtain hx | hx := mem_cons.mp hx
      · rw [hx]
        omega
      · have hrest := ih.2 x hx
        omega

theorem isElement_of_printable {e : XMLNode} (h : Printable e) : e.isElement = true := by
  cases e with
  | XMLElement _ _ _ => rfl
  | XMLText _ _ | XMLComment _ | XMLDeclaration _ | XMLUnknown _ => exact absurd h id

theorem named_of_printable {e : XMLNode} (h : Printable e) : 6 ≤ e.print.length ∧ e.Value ≠ [] := by
  cases e with
  | XMLElement value attributes children =>
    obtain ⟨c, p, hcons, -, -⟩ := cons_of_ParseName h.1
    have hlen := length_print_element value attributes children
    refine ⟨by omega, ?_⟩
    show value ≠ []
    rw [hcons]
    exact cons_ne_nil c p
  | XMLText _ _ | XMLComment _ | XMLDeclaration _ | XMLUnknown _ => exact absurd h id

theorem isspace_line : ∀ b ∈ ([10] : CStr), XMLUtil.isspace b = true := by
  intro b hb
  rw [mem_singleton.mp hb]
  rfl

mutual

/-- **AN ELEMENT IS READ BACK**, with any text behind it. -/
theorem ParseElement_print (e : XMLNode) (h : Printable e) (fuel : ℕ) (hfuel : e.print.length ≤ fuel)
    (hshort : e.print.length ≤ MAX_INT32) (s : CStr) (error : XMLError) :
    ∃ c q, IsNameStartChar c = true ∧ e.print ++ s = 60 :: c :: q ∧ ParseElement fuel (ParseDeep fuel) (c :: q) error =
      some ⟨some (10 :: s), e, .OPEN, e.Value, error⟩ := by
  match e, h with
  | .XMLElement value attributes children, h =>
    obtain ⟨hvalue, hattributes, hinside⟩ := h
    obtain ⟨c, p, hcons, hstart, -⟩ := cons_of_ParseName hvalue
    have hlen := length_print_element value attributes children
    obtain ⟨hcount, hnames⟩ := length_printAttributes attributes
    have hread : ParseDeep fuel (printInside children ++ 60 :: 47 :: (value ++ 62 :: 10 :: s)) error =
        some ⟨some (10 :: s), children, value, error⟩ := by
      obtain helements | ⟨v, d, hone, htext⟩ := hinside
      · match children, helements with
        | [], _ =>
          have hall := ParseDeep_elements [] trivial fuel [] value (10 :: s) error
            (fun b hb => absurd hb not_mem_nil) hvalue (by
              show 0 + value.length + 3 ≤ fuel
              omega) (Nat.zero_le _)
          exact hall
        | child :: children, helements =>
          have hany : (child :: children).any XMLNode.isElement = true := by
            rw [any_cons, isElement_of_printable helements.1, Bool.true_or]
          have hprint : printInside (child :: children) = [10] ++ printElements (child :: children) := if_pos hany
          rw [hprint, length_append, length_singleton] at hlen
          rw [hprint, append_assoc]
          exact ParseDeep_elements (child :: children) helements fuel [10] value (10 :: s) error
            isspace_line hvalue (by omega) (by omega)
      · have hprint : printInside children = printText (some (.XMLText v d)) := by
          rw [hone]
          rfl
        obtain ⟨k, hk⟩ : ∃ k, fuel = k + 3 := ⟨fuel - 3, by omega⟩
        rw [hprint, hone, hk]
        exact ParseDeep_text htext hvalue k (10 :: s) error
    refine ⟨c, _, hstart, by rw [print_element, hcons]; rfl, ?_⟩
    have helement := ParseElement_of_children hvalue hattributes
      (fun a ha => Nat.le_trans (hnames a ha) (by omega)) (by omega) (by simp) hread
    rw [hcons, cons_append] at helement
    rw [hcons]
    exact helement

/-- The elements inside of another one, and its end tag. -/
theorem ParseDeep_elements (es : List XMLNode) (h : PrintableElements es) (fuel : ℕ) (ws name s : CStr)
    (error : XMLError) (hws : ∀ b ∈ ws, XMLUtil.isspace b = true) (hname : ParseName name = some (name, []))
    (hfuel : (printElements es).length + name.length + 3 ≤ fuel) (hshort : (printElements es).length ≤ MAX_INT32) :
    ParseDeep fuel (ws ++ (printElements es ++ 60 :: 47 :: (name ++ 62 :: s))) error =
      some ⟨some s, es, name, error⟩ := by
  match es, h with
  | [], _ =>
    obtain ⟨k, hk⟩ : ∃ k, fuel = k + 2 := ⟨fuel - 2, by omega⟩
    rw [hk]
    exact ParseDeep_closing hws hname k s error
  | e :: es, h =>
    have hprint : printElements (e :: es) = e.print ++ printElements es := rfl
    rw [hprint, length_append] at hfuel hshort
    obtain ⟨k, hk⟩ : ∃ k, fuel = k + 1 := ⟨fuel - 1, by omega⟩
    obtain ⟨c, q, hstart, htext, hread⟩ := ParseElement_print e h.1 k (by omega) (by omega)
      (printElements es ++ 60 :: 47 :: (name ++ 62 :: s)) error
    have hne := ne_of_start hstart
    obtain ⟨hpos, hvalue⟩ := named_of_printable h.1
    have hrest := ParseDeep_elements es h.2 k [10] name s error isspace_line hname (by omega) (by omega)
    rw [hprint, append_assoc, htext, hk, ParseDeep, Identify_element hws hne.1 hne.2.1]
    dsimp only [ParseNode]
    rw [hread]
    dsimp only
    have hopen : ¬ (e.isElement = true ∧ ClosingType.OPEN = ClosingType.CLOSING) := fun h => absurd h.2 (by decide)
    rw [if_neg hopen, if_neg (not_mismatched_of_name rfl rfl hvalue)]
    rw [singleton_append] at hrest
    rw [hrest]

end

/-! ## §5. What is read is not much longer than the text. -/

mutual

/-- More than what is printed of a node. -/
def XMLNode.weight : XMLNode → ℕ
  | .XMLElement value attributes children =>
    2 * value.length + (printAttributes attributes).length + weights children + 7
  | .XMLText value isCData => value.length + if isCData then 12 else 0
  | .XMLComment _ => 0
  | .XMLDeclaration _ => 0
  | .XMLUnknown _ => 0

/-- The sum over the children. -/
def weights : List XMLNode → ℕ
  | [] => 0
  | child :: children => child.weight + weights children

end

theorem length_printText (children : List XMLNode) : (printText children.head?).length ≤ weights children := by
  cases children with
  | nil => exact Nat.le_refl 0
  | cons child children =>
    have hweights : weights (child :: children) = child.weight + weights children := rfl
    rw [head?_cons, hweights]
    cases child with
    | XMLText value isCData =>
      have hweight : (XMLNode.XMLText value isCData).weight = value.length + if isCData then 12 else 0 := rfl
      have hopen : (cstr "<![CDATA[").length = 9 := rfl
      have hend : (cstr "]]>").length = 3 := rfl
      rw [hweight]
      unfold printText
      cases isCData with
      | true =>
        simp only [if_true, length_append, hopen, hend]
        omega
      | false =>
        simp only [Bool.false_eq_true, if_false, length_append, length_nil]
        omega
    | XMLElement _ _ _ | XMLComment _ | XMLDeclaration _ | XMLUnknown _ => exact Nat.zero_le _

mutual

theorem length_print (e : XMLNode) : e.print.length ≤ e.weight := by
  match e with
  | .XMLElement value attributes children =>
    have hweight : (XMLNode.XMLElement value attributes children).weight =
        2 * value.length + (printAttributes attributes).length + weights children + 7 := rfl
    have helements := length_printElements children
    have htext := length_printText children
    have hline : (cstr "\n").length = 1 := rfl
    rw [length_print_element, hweight]
    unfold printInside
    split_ifs
    · rw [length_append, hline]
      omega
    · omega
  | .XMLText _ _ | .XMLComment _ | .XMLDeclaration _ | .XMLUnknown _ => exact Nat.zero_le _

theorem length_printElements (es : List XMLNode) : (printElements es).length ≤ weights es := by
  match es with
  | [] => exact Nat.le_refl 0
  | e :: es =>
    have hprint : printElements (e :: es) = e.print ++ printElements es := rfl
    have hweights : weights (e :: es) = e.weight + weights es := rfl
    have hone := length_print e
    have hothers := length_printElements es
    rw [hprint, length_append, hweights]
    omega

end

theorem length_SkipWhiteSpace (p : CStr) : (SkipWhiteSpace p).length ≤ p.length := length_dropWhile_le _ p

theorem length_of_ParseName {p name r : CStr} (h : ParseName p = some (name, r)) :
    name.length + r.length = p.length ∧ 0 < name.length := by
  cases p with
  | nil => exact absurd h (by simp [ParseName])
  | cons c p =>
    rw [ParseName_cons] at h
    split_ifs at h
    injection h with hpair
    injection hpair with hname hr
    have hboth := congrArg List.length (takeWhile_append_dropWhile (p := IsNameChar) (l := p))
    rw [length_append] at hboth
    rw [← hname, ← hr, length_cons, length_cons]
    omega

theorem length_of_ParseText {endTag : CStr} : ∀ {p value r : CStr}, ParseText endTag p = some (value, r) →
    value.length + endTag.length + r.length = p.length := by
  intro p
  induction p with
  | nil =>
    intro value r h
    exact absurd h (by simp [ParseText])
  | cons c p ih =>
    intro value r h
    unfold ParseText at h
    split_ifs at h with hbegins
    · injection h with hpair
      injection hpair with hvalue hr
      have hle := (List.isPrefixOf_iff_prefix.mp hbegins).length_le
      rw [← hvalue, ← hr, length_drop, length_nil]
      omega
    cases hrest : ParseText endTag p with
    | none =>
      rw [hrest] at h
      cases h
    | some found =>
      obtain ⟨v, rest⟩ := found
      rw [hrest] at h
      injection h with hpair
      injection hpair with hvalue hr
      have hle := ih hrest
      rw [← hvalue, ← hr, length_cons, length_cons]
      omega

/-- An attribute has a name, `=` and two quotes. -/
theorem length_of_ParseAttribute {p r : CStr} {a : XMLAttribute} (h : ParseAttribute p = some (a, r)) :
    a.1.length + a.2.length + r.length + 3 ≤ p.length ∧ 0 < a.1.length := by
  unfold ParseAttribute at h
  split at h
  · cases h
  rename_i name behind hname
  have hnamed := length_of_ParseName hname
  have hskip := length_SkipWhiteSpace behind
  split at h
  · cases h
  rename_i c p' hequal
  rw [hequal, length_cons] at hskip
  split_ifs at h
  have hskip' := length_SkipWhiteSpace p'
  split at h
  · cases h
  rename_i q p'' hquote
  rw [hquote, length_cons] at hskip'
  split_ifs at h
  split at h
  · cases h
  rename_i value rest htext
  have hvalue := length_of_ParseText htext
  rw [length_singleton] at hvalue
  injection h with hpair
  injection hpair with ha hr
  rw [← ha, ← hr]
  dsimp only
  omega

theorem length_of_ParseAttributes (fuel : ℕ) : ∀ {p r : CStr} {acc attributes : List XMLAttribute} {closed : Bool},
    ParseAttributes fuel p acc = some (.ok (r, closed, attributes)) →
      (printAttributes attributes).length + 3 * r.length + 3 ≤ (printAttributes acc).length + 3 * p.length := by
  induction fuel with
  | zero =>
    intro p r acc attributes closed h
    cases h
  | succ fuel ih =>
    intro p r acc attributes closed h
    have hskip := length_SkipWhiteSpace p
    unfold ParseAttributes at h
    split at h
    · cases h
    rename_i c p' hp
    rw [hp, length_cons] at hskip
    split_ifs at h with hstart hclosed hopen
    · split at h
      · cases h
      rename_i attrib rest hattrib
      split_ifs at h
      · cases h
      have hread := length_of_ParseAttribute hattrib
      have hrest := ih h
      have happend : (printAttributes (acc ++ [attrib])).length =
          (printAttributes acc).length + (attrib.1.length + attrib.2.length + 4) := by
        have hone := congrArg List.length (printAttributes_cons attrib [] [])
        simp only [length_append, length_cons, append_nil] at hone
        have hboth : printAttributes (acc ++ [attrib]) = printAttributes acc ++ printAttributes [attrib] :=
          flatMap_append
        have hnil : (printAttributes []).length = 0 := rfl
        rw [hboth, length_append, hone, hnil]
        omega
      rw [length_cons] at hread
      omega
    · injection h with hok
      injection hok with htriple
      injection htriple with hr hpair
      injection hpair with _ hattributes
      have htail := length_tail (l := p')
      rw [← hr, ← hattributes]
      omega
    · injection h with hok
      injection hok with htriple
      injection htriple with hr hpair
      injection hpair with _ hattributes
      rw [← hr, ← hattributes]
      omega
    · cases h

/-- A loop that stops at `r` has read its nodes in front of it. -/
def Reads (children : CStr → XMLError → Option Children) : Prop :=
  ∀ p error c, children p error = some c → weights c.nodes + 3 * (c.p.getD []).length ≤ 3 * p.length

theorem weight_le_of_ParseElement {fuel : ℕ} {children : CStr → XMLError → Option Children} (hchildren : Reads children)
    {p r : CStr} {error : XMLError} {n : Parsed} (h : ParseElement fuel children p error = some n) (hr : n.p = some r) :
    n.node.weight + 3 * r.length ≤ 3 * p.length + 3 := by
  have hskip := length_SkipWhiteSpace p
  unfold ParseElement at h
  dsimp only at h
  split at h
  · injection h with hn
    rw [← hn] at hr
    cases hr
  rename_i value p' hname
  have hnamed := length_of_ParseName hname
  have hstart : (if (SkipWhiteSpace p).head? = some 47 then (SkipWhiteSpace p).tail else SkipWhiteSpace p).length ≤
      p.length := by
    split_ifs
    · rw [length_tail]
      omega
    · exact hskip
  split at h
  · cases h
  · injection h with hn
    rw [← hn] at hr
    cases hr
  · rename_i behind closed attributes hattributes
    have hread := length_of_ParseAttributes fuel hattributes
    have hnil : (printAttributes []).length = 0 := rfl
    have hweight : ∀ nodes : List XMLNode, (XMLNode.XMLElement value attributes nodes).weight =
        2 * value.length + (printAttributes attributes).length + weights nodes + 7 := fun _ => rfl
    generalize (if closed = true then ClosingType.CLOSED
      else if (SkipWhiteSpace p).head? = some 47 then ClosingType.CLOSING else ClosingType.OPEN) = closingType at h
    split at h
    · injection h with hn
      rw [← hn] at hr ⊢
      injection hr with hr
      have hnone : weights [] = 0 := rfl
      rw [hweight, ← hr, hnone]
      omega
    split at h
    · cases h
    rename_i c hinside
    have hinner := hchildren behind error c hinside
    injection h with hn
    rw [← hn] at hr ⊢
    dsimp only at hr ⊢
    rw [hr, Option.getD_some] at hinner
    rw [hweight]
    omega

/-- What is read of a node that is not an element. -/
theorem weight_le_of_ParseLeaf {endTag : CStr} {node : CStr → XMLNode} {code : XMLError} {p r : CStr} {error : XMLError}
    {k : ℕ} (hnode : ∀ value, (node value).weight ≤ value.length + k)
    (hr : (ParseLeaf endTag node code p error).p = some r) :
    (ParseLeaf endTag node code p error).node.weight + endTag.length + 3 * r.length ≤ 3 * p.length + k := by
  unfold ParseLeaf at hr ⊢
  cases htext : ParseText endTag p with
  | none =>
    rw [htext] at hr
    cases hr
  | some found =>
    obtain ⟨value, rest⟩ := found
    rw [htext] at hr
    injection hr with hr
    have hread := length_of_ParseText htext
    have hvalue := hnode value
    rw [hr] at hread
    dsimp only
    omega

theorem weight_le_of_ParsePlainText {p r : CStr} {error : XMLError} (hr : (ParsePlainText p error).p = some r) :
    (ParsePlainText p error).node.weight + 3 * r.length ≤ 3 * p.length := by
  unfold ParsePlainText ParseLeaf at hr ⊢
  cases htext : ParseText (cstr "<") p with
  | none =>
    rw [htext] at hr
    cases hr
  | some found =>
    obtain ⟨value, rest⟩ := found
    rw [htext] at hr
    have hread := length_of_ParseText htext
    have hone : (cstr "<").length = 1 := rfl
    have hweight : (XMLNode.XMLText value false).weight = value.length := rfl
    cases rest with
    | nil => cases hr
    | cons c rest =>
      injection hr with hr
      rw [hone, length_cons] at hread
      rw [hweight, ← hr, length_cons, length_cons]
      omega

/-- What `Identify` passes over. -/
theorem length_of_Identify {p q : CStr} {kind : NodeKind} (h : Identify p = some (kind, q)) :
    q.length + (if kind = .element then 1 else if kind = .cdata then 9 else 0) ≤ p.length := by
  have hskip := length_SkipWhiteSpace p
  have hlong : ∀ n (t : CStr), t.length = n → StringEqual n (SkipWhiteSpace p) t = true → n ≤ (SkipWhiteSpace p).length := by
    intro n t ht hequal
    have htake := congrArg List.length ((StringEqual_iff n _ _).mp hequal)
    rw [length_take, length_take, ht] at htake
    omega
  unfold Identify at h
  dsimp only at h
  split_ifs at h with _ _ _ hcdata _ helement
  all_goals
    injection h with hpair
    injection hpair with hkind hq
    rw [← hkind, ← hq]
  · show ((SkipWhiteSpace p).drop 2).length ≤ p.length
    rw [length_drop]
    omega
  · show ((SkipWhiteSpace p).drop 4).length ≤ p.length
    rw [length_drop]
    omega
  · show ((SkipWhiteSpace p).drop 9).length + 9 ≤ p.length
    have hnine := hlong 9 (cstr "<![CDATA[") rfl hcdata
    rw [length_drop]
    omega
  · show ((SkipWhiteSpace p).drop 2).length ≤ p.length
    rw [length_drop]
    omega
  · show ((SkipWhiteSpace p).drop 1).length + 1 ≤ p.length
    have hone := hlong 1 (cstr "<") rfl helement
    rw [length_drop]
    omega
  · exact Nat.le_refl _

theorem weight_le_of_ParseNode {fuel : ℕ} {children : CStr → XMLError → Option Children} (hchildren : Reads children)
    {kind : NodeKind} {q r : CStr} {error : XMLError} {n : Parsed} (h : ParseNode fuel children kind q error = some n)
    (hr : n.p = some r) : n.node.weight + 3 * r.length ≤
      3 * (q.length + (if kind = .element then 1 else if kind = .cdata then 9 else 0)) := by
  cases kind with
  | element =>
    have hread := weight_le_of_ParseElement hchildren h hr
    simp only [if_true]
    omega
  | text =>
    injection h with hn
    rw [← hn] at hr ⊢
    exact weight_le_of_ParsePlainText hr
  | cdata =>
    injection h with hn
    rw [← hn] at hr ⊢
    have hread := weight_le_of_ParseLeaf (k := 12) (fun value => Nat.le_refl _) hr
    simp only [reduceCtorEq, if_false, if_true]
    omega
  | declaration =>
    injection h with hn
    rw [← hn] at hr ⊢
    have hread := weight_le_of_ParseLeaf (k := 0) (fun value => Nat.zero_le _) hr
    omega
  | comment =>
    injection h with hn
    rw [← hn] at hr ⊢
    have hread := weight_le_of_ParseLeaf (k := 0) (fun value => Nat.zero_le _) hr
    omega
  | unknown =>
    injection h with hn
    rw [← hn] at hr ⊢
    have hread := weight_le_of_ParseLeaf (k := 0) (fun value => Nat.zero_le _) hr
    omega

/-- **WHAT IS READ** prints at most three times the bytes it was read from. -/
theorem weight_le_of_ParseDeep (fuel : ℕ) : Reads (ParseDeep fuel) := by
  induction fuel with
  | zero =>
    intro p error c h
    cases h
  | succ fuel ih =>
    intro p error c h
    rw [ParseDeep] at h
    split at h
    · injection h with hc
      rw [← hc]
      exact Nat.zero_le _
    rename_i kind q hidentify
    have hlen := length_of_Identify hidentify
    split at h
    · cases h
    rename_i n hnode
    split at h
    · injection h with hc
      rw [← hc]
      exact Nat.zero_le _
    rename_i rest hrest
    have hone := Nat.le_trans (weight_le_of_ParseNode ih hnode hrest) (Nat.mul_le_mul_left 3 hlen)
    split_ifs at h
    · injection h with hc
      rw [← hc]
      show 0 + 3 * rest.length ≤ 3 * p.length
      omega
    · injection h with hc
      rw [← hc]
      exact Nat.zero_le _
    · split at h
      · cases h
      rename_i c' hothers
      have hread := ih rest n.error c' hothers
      injection h with hc
      rw [← hc]
      show n.node.weight + weights c'.nodes + 3 * (c'.p.getD []).length ≤ 3 * p.length
      omega

/-! ## §6. The document. -/

theorem ToXML_element {e : XMLNode} (h : e.isElement = true) : ToXML [e] = e.print := by
  cases e with
  | XMLElement _ _ _ => rfl
  | XMLText _ _ => cases h
  | XMLComment _ => cases h
  | XMLDeclaration _ => cases h
  | XMLUnknown _ => cases h

/-- The whole string, if its length and the 0 are an `int32_t`. -/
theorem Parse_of_lt {xml q : CStr} (hxml : xml = 60 :: q) (hlen : xml.length < 2 ^ 31 - 1) :
    Parse xml (-1) = (ParseDeep (xml.length + 1) xml XML_NO_ERROR).map (fun c => (c.error, c.nodes)) := by
  have hne : xml ≠ [] := by
    rw [hxml]
    exact cons_ne_nil 60 q
  have hskip : SkipWhiteSpace xml = xml := by
    rw [hxml]
    rfl
  have hbytes : Int.bmod (xml.length : ℤ) (2 ^ 32) = xml.length := Int.bmod_eq_of_le_mul_two (by omega) (by omega)
  have hfits : ¬ ((xml.length : ℤ) < 0 ∨ 2 ^ 31 ≤ (xml.length : ℤ) + 1 ∨ (xml.length : ℤ) + 1 < xml.length) := by
    omega
  unfold Parse
  rw [if_neg hne, if_pos rfl, hbytes, if_neg hfits, Int.toNat_natCast, take_length, hskip, Nat.sub_self,
    if_neg hne, if_neg (Nat.not_lt_zero _), drop_zero]
  cases ParseDeep (xml.length + 1) xml XML_NO_ERROR with
  | none => rfl
  | some c => rfl

/-- One element, and the end of its line. -/
theorem ParseDeep_print {e : XMLNode} (he : Printable e) (hshort : e.print.length ≤ MAX_INT32) {fuel : ℕ}
    (hfuel : e.print.length ≤ fuel) :
    ParseDeep (fuel + 1) e.print XML_NO_ERROR = some ⟨none, [e], [], XML_NO_ERROR⟩ := by
  obtain ⟨hpos, hvalue⟩ := named_of_printable he
  obtain ⟨k, hk⟩ : ∃ k, fuel = k + 1 := ⟨fuel - 1, by omega⟩
  obtain ⟨c, q, hstart, htext, hread⟩ := ParseElement_print e he fuel hfuel hshort [] XML_NO_ERROR
  rw [append_nil] at htext
  have hne := ne_of_start hstart
  have hidentify : Identify e.print = some (.element, c :: q) := by
    rw [htext]
    have hblank : ∀ b ∈ ([] : CStr), XMLUtil.isspace b = true := fun b hb => absurd hb not_mem_nil
    exact Identify_element hblank hne.1 hne.2.1 q
  have hend : ParseDeep fuel [10] XML_NO_ERROR = some ⟨none, [], [], XML_NO_ERROR⟩ := by
    rw [hk]
    rfl
  have hopen : ¬ (e.isElement = true ∧ ClosingType.OPEN = ClosingType.CLOSING) := fun h => absurd h.2 (by decide)
  rw [ParseDeep, hidentify]
  dsimp only [ParseNode]
  rw [hread]
  dsimp only
  rw [if_neg hopen, if_neg (not_mismatched_of_name rfl rfl hvalue), hend]

theorem Parse_print {e : XMLNode} (he : Printable e) (hlen : e.print.length < 2 ^ 31 - 1) :
    Parse e.print (-1) = some (XML_NO_ERROR, [e]) := by
  have hshort : e.print.length ≤ MAX_INT32 := by
    unfold MAX_INT32
    omega
  obtain ⟨c, q, -, htext, -⟩ := ParseElement_print e he e.print.length (Nat.le_refl _) hshort [] XML_NO_ERROR
  rw [append_nil] at htext
  rw [Parse_of_lt htext hlen, ParseDeep_print he hshort (Nat.le_refl _)]
  rfl

theorem nBytes_bound (len : ℕ) :
    Int.bmod (len : ℤ) (2 ^ 32) < 2 ^ 31 ∧ Int.bmod (len : ℤ) (2 ^ 32) % 2 ^ 32 = (len : ℤ) % 2 ^ 32 := by
  have hlt := Int.bmod_lt (x := (len : ℤ)) (m := 2 ^ 32) (by omega)
  exact ⟨by omega, Int.bmod_emod⟩

theorem Parse_of_ge {xml : CStr} (hlong : 2 ^ 31 - 1 ≤ xml.length) (hlen : xml.length < 2 ^ 32) :
    Parse xml (-1) = none := by
  have hne : xml ≠ [] := ne_nil_of_length_pos (by omega)
  obtain ⟨hsmall, hsame⟩ := nBytes_bound xml.length
  have hoverflow : Int.bmod (xml.length : ℤ) (2 ^ 32) < 0 ∨ 2 ^ 31 ≤ Int.bmod (xml.length : ℤ) (2 ^ 32) + 1 ∨
      (xml.length : ℤ) + 1 < Int.bmod (xml.length : ℤ) (2 ^ 32) := by
    omega
  unfold Parse
  rw [if_neg hne, if_pos rfl, if_pos hoverflow]

/-- A longer text is cut to at most `nBytes - 2^32` bytes, or `memcpy` gets a
    negative length. -/
theorem lt_of_Parse {e : XMLNode} {xml : CStr} (h : Parse xml (-1) = some (XML_NO_ERROR, [e]))
    (hlen : xml.length ≤ e.weight) : xml.length < 2 ^ 31 - 1 := by
  by_contra hlong
  obtain ⟨hsmall, hsame⟩ := nBytes_bound xml.length
  unfold Parse at h
  dsimp only at h
  rw [if_pos rfl] at h
  generalize Int.bmod (xml.length : ℤ) (2 ^ 32) = nBytes at h hsmall hsame
  split_ifs at h with hempty hbytes hblank hdelta
  · cases h
  · cases h
  · split at h
    · cases h
    rename_i c hread
    injection h with hpair
    injection hpair with _ hnodes
    have hweight := weight_le_of_ParseDeep _ _ _ _ hread
    have hone : weights c.nodes = e.weight := by
      rw [hnodes]
      rfl
    rw [hone, length_drop, length_take] at hweight
    omega

/-- `<aa…a/>`, with a name of `n` bytes. -/
def emptyTag (n : ℕ) : CStr := 60 :: (List.replicate n 97 ++ [47, 62])

theorem ParseName_replicate (n : ℕ) :
    ParseName (List.replicate (n + 1) 97) = some (List.replicate (n + 1) 97, []) := by
  have hall : ∀ x ∈ List.replicate n (97 : UInt8), IsNameChar x = true := by
    intro x hx
    rw [eq_of_mem_replicate hx]
    decide
  rw [replicate_succ, ParseName_cons, if_pos (by decide), takeWhile_eq_self_iff.mpr hall,
    dropWhile_eq_nil_iff.mpr hall]

theorem Parse_emptyTag {n : ℕ} (hn : (emptyTag (n + 1)).length < 2 ^ 31 - 1) :
    Parse (emptyTag (n + 1)) (-1) = some (XML_NO_ERROR, [.XMLElement (List.replicate (n + 1) 97) [] []]) := by
  have hidentify : Identify (emptyTag (n + 1)) = some (.element, List.replicate (n + 1) 97 ++ [47, 62]) := by
    have htag := Identify_element (fun b hb => absurd hb not_mem_nil) (c := 97) (by decide) (by decide)
      (List.replicate n 97 ++ [47, 62])
    exact htag
  have hskip : SkipWhiteSpace (List.replicate (n + 1) 97 ++ [47, 62]) = List.replicate (n + 1) 97 ++ [47, 62] := rfl
  have hhead : ¬ (List.replicate (n + 1) (97 : UInt8) ++ [47, 62]).head? = some 47 := by
    rw [replicate_succ, cons_append, head?_cons]
    decide
  have hattributes : ∀ k, ParseAttributes (k + 1) [47, 62] [] = some (.ok ([], true, [])) := fun _ => rfl
  obtain ⟨k, hk⟩ : ∃ k, (emptyTag (n + 1)).length = k + 1 := ⟨(List.replicate (n + 1) (97 : UInt8) ++ [47, 62]).length, rfl⟩
  have helement : ParseElement (k + 1) (ParseDeep (k + 1)) (List.replicate (n + 1) 97 ++ [47, 62]) XML_NO_ERROR =
      some ⟨some [], .XMLElement (List.replicate (n + 1) 97) [] [], .CLOSED, [], XML_NO_ERROR⟩ := by
    unfold ParseElement
    dsimp only
    rw [hskip, if_neg hhead, ParseName_append (ParseName_replicate n) (by decide)]
    dsimp only
    rw [hattributes]
    dsimp only
    rw [if_pos rfl, if_pos (Or.inl rfl)]
  have hstart : emptyTag (n + 1) = 60 :: (List.replicate (n + 1) 97 ++ [47, 62]) := rfl
  rw [Parse_of_lt hstart hn, ParseDeep, hidentify, hk]
  dsimp only [ParseNode]
  rw [helement]
  rfl

/-- **THE ROUND TRIP**: an element that can be printed is read back if and only if
    its text is still there, and has fewer than 2^31 - 1 bytes. -/
theorem xml_round_trip_iff (e : XMLNode) (he : Printable e) (buffer : Buffer) :
    ParsePrinted buffer [e] = some (XML_NO_ERROR, [e]) ↔
      buffer = .living ∧ (ToXML [e]).length < 2 ^ 31 - 1 := by
  cases buffer with
  | destroyed =>
    rw [ParsePrinted_destroyed]
    exact iff_of_false nofun (fun h => nomatch h.1)
  | living =>
    rw [ParsePrinted_living, ToXML_element (isElement_of_printable he)]
    constructor
    · intro h
      exact ⟨rfl, lt_of_Parse h (length_print e)⟩
    · intro h
      exact Parse_print he h.2

/-- `<a b="1"><c>x</c></a>`. -/
theorem xml_round_trip_small :
    let e := XMLNode.XMLElement (cstr "a") [(cstr "b", cstr "1")]
      [.XMLElement (cstr "c") [] [.XMLText (cstr "x") false]]
    ParsePrinted .living [e] = some (XML_NO_ERROR, [e]) := by
  intro e
  have hinner : PrintableAttributes [] :=
    ⟨fun a ha => absurd ha List.not_mem_nil, fun a ha => absurd ha List.not_mem_nil, List.nodup_nil⟩
  have houter : PrintableAttributes [(cstr "b", cstr "1")] := ⟨by decide, by decide, by decide⟩
  have htext : PrintableText (cstr "x") false := ⟨by decide, 120, by decide, by decide⟩
  have he : Printable e := ⟨rfl, houter, Or.inl ⟨⟨rfl, hinner, Or.inr ⟨cstr "x", false, rfl, htext⟩⟩, trivial⟩⟩
  exact (xml_round_trip_iff e he .living).mpr ⟨rfl, by decide⟩

/-- `<aa…a/>` with a name of 2^30 bytes is read, but what is printed of it is not:
    its length becomes negative. -/
theorem long_name_not_read :
    let e := XMLNode.XMLElement (List.replicate (2 ^ 30) 97) [] []
    Parse (emptyTag (2 ^ 30)) (-1) = some (XML_NO_ERROR, [e]) ∧ Printable e ∧ ParsePrinted .living [e] = none := by
  obtain ⟨n, hn⟩ : ∃ n, 2 ^ 30 = n + 1 := ⟨2 ^ 30 - 1, by omega⟩
  rw [hn]
  intro e
  have htag : (emptyTag (n + 1)).length < 2 ^ 31 - 1 := by
    unfold emptyTag
    rw [List.length_cons, List.length_append, List.length_replicate, List.length_cons, List.length_singleton]
    omega
  have he : Printable e :=
    ⟨ParseName_replicate n, ⟨fun a ha => absurd ha List.not_mem_nil, fun a ha => absurd ha List.not_mem_nil,
      List.nodup_nil⟩, Or.inl trivial⟩
  have hlen : e.print.length = 2 * (n + 1) + 6 := by
    rw [length_print_element, List.length_replicate]
    rfl
  refine ⟨Parse_emptyTag htag, he, ?_⟩
  rw [ParsePrinted_living, ToXML_element rfl]
  exact Parse_of_ge (by omega) (by omega)

end QXml

end KalavaPir.Common
