/-
  KalavaPir.Common.QShinyXML — the parser of `common/qshinyxml.h`, which keeps what it
  finds as slices of its input.

  A pointer is a place in the input, behind which there is a NUL; `none` is NULL.  A
  node is only used at places below the capacity of the node array, else a round
  fails (`none`).  The texts of the errors are left out.
-/
import KalavaPir.Framework.Loop
import Mathlib.Algebra.Order.Ring.Int
import Mathlib.Data.List.TakeWhile

namespace KalavaPir.Common

open KalavaPir.Framework List

/-! ## §1. An item (qshinyxml.h:147). -/

/-- The fields of a node. -/
structure ShinyNode where
  ptr_item : Option ℕ
  item_len : ℤ
  ptr_label : Option ℕ
  label_len : ℤ
  ptr_text : Option ℕ
  text_len : ℤ
  deriving DecidableEq

namespace ShinyNode

/-- `clear()`. -/
def cleared : ShinyNode := ⟨none, 0, none, 0, none, 0⟩

end ShinyNode

namespace QShinyXML

/-- The byte at a pointer. -/
def charAt (xml : List UInt8) (ptr : ℕ) : UInt8 := xml.getD ptr 0

/-- `while(ptr<ptr_end&&p(*ptr)) ptr++;` -/
def skip (xml : List UInt8) (p : UInt8 → Bool) (ptr : ℕ) : ℕ := ptr + ((xml.drop ptr).takeWhile p).length

/-- `strncmp(.., .., n)==0` on strings that end in a NUL. -/
def strncmp : ℕ → List UInt8 → List UInt8 → Bool
  | 0, _, _ => true
  | n + 1, a, b => a.headD 0 == b.headD 0 && (a.headD 0 == 0 || strncmp n a.tail b.tail)

/-- `"<![CDATA["` -/
def SHINY_CDATA_BEGIN : List UInt8 := [60, 33, 91, 67, 68, 65, 84, 65, 91]

/-- `"]]>"` -/
def SHINY_CDATA_END : List UInt8 := [93, 93, 62]

/-- Blank, tab and the ends of a line. -/
def is_whitespace (ch : UInt8) : Bool := ch == 32 || ch == 9 || ch == 13 || ch == 10

/-- Where the loop that looks for the end tag of a label stops. -/
def isEndTag (xml : List UInt8) (label : ℕ) (label_len : ℤ) (ptr : ℕ) : Bool :=
  charAt xml ptr == 60 && decide ((ptr : ℤ) + 2 + label_len < xml.length) && charAt xml (ptr + 1) == 47 &&
    strncmp label_len.toNat (xml.drop (ptr + 2)) (xml.drop label)

/-- `__parse_xml_item` from where the text begins. -/
def parse_text (xml : List UInt8) (pack : ℕ) (node : ShinyNode) (label ptr : ℕ) : ℤ × ShinyNode :=
  match (List.range' ptr (xml.length - ptr)).find? (isEndTag xml label node.label_len) with
  | none => (-37, { node with ptr_text := some ptr })
  | some close =>
    let text_len : ℤ := close - ptr
    let cdata := strncmp 9 (xml.drop ptr) SHINY_CDATA_BEGIN
    if cdata ∧ ¬ strncmp 3 (xml.drop (close - 3)) SHINY_CDATA_END then
      (-36, { node with ptr_text := some ptr, text_len := text_len })
    else
      -- without the marks of CDATA
      let text := if cdata then (ptr + 9, text_len - (9 + 3)) else (ptr, text_len)
      let node := { node with ptr_text := some text.1, text_len := text.2 }
      let ptr := close + 2 + node.label_len.toNat
      if xml.length ≤ ptr then (-37, node)
      else if charAt xml ptr ≠ 62 then (-38, node)
      else (0, { node with item_len := (ptr : ℤ) + 1 - pack })

/-- `__parse_xml_item`, on the input from `pack` on. -/
def parse_xml_item (xml : List UInt8) (pack : ℕ) : ℤ × ShinyNode :=
  if charAt xml pack ≠ 60 then (-31, .cleared)
  else
    let label := pack + 1
    let node : ShinyNode := { ShinyNode.cleared with ptr_item := some pack, ptr_label := some label }
    let ptr := skip xml (fun c => c != 62 && c != 32) label
    if xml.length ≤ ptr then (-32, node)
    else if charAt xml ptr = 62 ∧ xml.length ≤ skip xml (· != 60) (ptr + 1) then
      -- the last node
      (0, { node with item_len := (ptr : ℤ) + 1 - pack, label_len := (ptr : ℤ) - label })
    else
      let node := { node with label_len := (ptr : ℤ) - label }
      if node.label_len ≤ 0 then (-34, node)
      else
        let ptr := skip xml (· != 62) ptr
        if xml.length ≤ ptr then (-35, node)
        else
          let ptr := ptr + 1
          if charAt xml (ptr - 2) = 47 then (0, { node with item_len := (ptr : ℤ) - pack })
          else
            let ptr := skip xml is_whitespace ptr
            if xml.length ≤ ptr then (0, { node with item_len := (ptr : ℤ) - pack })
            else if ¬ strncmp 9 (xml.drop ptr) SHINY_CDATA_BEGIN ∧ charAt xml ptr = 60 then
              (0, { node with item_len := (ptr : ℤ) - pack })
            else parse_text xml pack node label ptr

/-! ## §2. The parser (qshinyxml.h:93). -/

/-- The pointer into the input, the last code, and the nodes so far. -/
structure State where
  ptr : ℕ
  iret : ℤ
  nodes : List ShinyNode

/-- One round of the loop of `parse`. -/
def round (max_node_size : ℤ) (xml : List UInt8) (s : State) : Option (LoopStep State (ℤ × List ShinyNode)) :=
  if xml.length ≤ s.ptr then some (.done (s.iret, s.nodes))
  else if charAt xml s.ptr ≠ 60 then some (.again { s with ptr := s.ptr + 1 })
  else if max_node_size ≤ s.nodes.length then none
  else
    let r := parse_xml_item xml s.ptr
    if r.1 ≠ 0 then some (.done (r.1, s.nodes))
    else
      let nodes := s.nodes ++ [r.2]
      if (nodes.length : ℤ) + 1 > max_node_size then some (.done (-3, nodes))
      else some (.again ⟨((s.ptr : ℤ) + r.2.item_len).toNat, r.1, nodes⟩)

/-- `parse(ptr_xml, xml_len)` with a node array of this capacity, after an earlier
    parse that left some nodes: the code, and the nodes in use.  The rounds are no
    more than the bytes and one. -/
def parse (max_node_size : ℤ) (earlier : List ShinyNode) (xml : Option (List UInt8)) :
    Option (ℤ × List ShinyNode) :=
  match xml with
  | none => some (-1, earlier)
  | some xml =>
    if xml.length ≤ 0 then some (-2, earlier)
    else loop (round max_node_size xml) (xml.length + 1) ⟨0, 0, []⟩

/-! ## §3. Where the slices lie. -/

/-- A slice of a length lies in an item, unless it is empty. -/
def Slice (node : ShinyNode) (ptr : Option ℕ) (len : ℤ) : Prop :=
  0 ≤ len ∧ (0 < len → ∃ i ∈ node.ptr_item, ∃ p ∈ ptr, i ≤ p ∧ (p : ℤ) + len ≤ i + node.item_len)

/-- **AN ITEM** of the input that begins at `pack`, with its label and its text. -/
structure ItemAt (xml : List UInt8) (pack : ℕ) (node : ShinyNode) : Prop where
  item : node.ptr_item = some pack
  pos : 0 < node.item_len
  inside : (pack : ℤ) + node.item_len ≤ xml.length
  label : Slice node node.ptr_label node.label_len
  text : Slice node node.ptr_text node.text_len

/-- The second item begins behind the first. -/
def Behind (a b : ShinyNode) : Prop := ∀ i ∈ a.ptr_item, ∀ j ∈ b.ptr_item, (i : ℤ) + a.item_len ≤ j

/-- **THE NODES**: items of the input, one behind the other. -/
structure Nodes (xml : List UInt8) (nodes : List ShinyNode) : Prop where
  items : ∀ node ∈ nodes, ∃ pack, ItemAt xml pack node
  order : nodes.Pairwise Behind

section Items

variable {xml : List UInt8} {pack ptr : ℕ} {node : ShinyNode}

theorem le_skip (xml : List UInt8) (p : UInt8 → Bool) (ptr : ℕ) : ptr ≤ skip xml p ptr := Nat.le_add_right _ _

theorem skip_le (p : UInt8 → Bool) (h : ptr ≤ xml.length) : skip xml p ptr ≤ xml.length := by
  have hle := (List.takeWhile_prefix p (l := xml.drop ptr)).length_le
  rw [length_drop] at hle
  unfold skip
  omega

/-- Strings that `strncmp` does not tell apart, one of them without a NUL. -/
theorem getD_of_strncmp {n : ℕ} : ∀ {a b : List UInt8}, strncmp n a b = true → 0 ∉ b →
    n ≤ b.length → ∀ i < n, a.getD i 0 = b.getD i 0 := by
  induction n with
  | zero => exact fun _ _ _ i hi => absurd hi (Nat.not_lt_zero i)
  | succ n ih =>
    intro a b h hno hlen i hi
    unfold strncmp at h
    rw [Bool.and_eq_true, Bool.or_eq_true, beq_iff_eq, beq_iff_eq] at h
    obtain ⟨hhead, hrest⟩ := h
    cases b with
    | nil => exact absurd hlen (by simp)
    | cons d b =>
      have hhead' : a.headD 0 = d := hhead
      have htail : strncmp n a.tail b = true := by
        rcases hrest with hzero | htail
        · rw [hhead'] at hzero
          rw [hzero] at hno
          exact absurd mem_cons_self hno
        · exact htail
      cases i with
      | zero =>
        show a.getD 0 0 = d
        rw [← hhead']
        cases a <;> rfl
      | succ i =>
        have hnext := ih htail (fun hmem => hno (mem_cons_of_mem d hmem)) (by simpa using hlen) i
          (by omega)
        show a.getD (i + 1) 0 = b.getD i 0
        rw [← hnext]
        cases a <;> rfl

theorem charAt_of_strncmp (mark : List UInt8) (h : strncmp mark.length (xml.drop ptr) mark = true)
    (hno : 0 ∉ mark) {i : ℕ} (hi : i < mark.length) : charAt xml (ptr + i) = mark.getD i 0 := by
  rw [← getD_of_strncmp h hno (Nat.le_refl _) i hi]
  unfold charAt
  rw [getD_eq_getElem?_getD, getD_eq_getElem?_getD, getElem?_drop]

/-- **BOTH MARKS OF CDATA FIT** between the begin of the text and the end tag: the
    end tag does not begin inside the first mark, and the second does not overlap it. -/
theorem twelve_le_of_cdata {close : ℕ} (hge : ptr ≤ close)
    (hbegin : strncmp 9 (xml.drop ptr) SHINY_CDATA_BEGIN = true)
    (hend : strncmp 3 (xml.drop (close - 3)) SHINY_CDATA_END = true) (hopen : charAt xml close = 60)
    (hslash : charAt xml (close + 1) = 47) : ptr + 12 ≤ close := by
  have hfirst : ∀ i < 9, charAt xml (ptr + i) = SHINY_CDATA_BEGIN.getD i 0 := fun i hi =>
    charAt_of_strncmp SHINY_CDATA_BEGIN hbegin (by decide) hi
  have hlast : ∀ i < 3, charAt xml (close - 3 + i) = SHINY_CDATA_END.getD i 0 := fun i hi =>
    charAt_of_strncmp SHINY_CDATA_END hend (by decide) hi
  by_contra hlt
  obtain ⟨k, rfl⟩ := Nat.exists_eq_add_of_le hge
  by_cases hnine : k < 9
  · -- the end tag would begin inside the first mark
    have hopening : ∀ k < 9, 60 = SHINY_CDATA_BEGIN.getD k 0 → k = 0 := by decide
    have hzero : k = 0 := hopening k hnine (hopen.symm.trans (hfirst k hnine))
    have hnext := hfirst 1 (by decide)
    rw [hzero] at hslash
    rw [hslash] at hnext
    revert hnext
    decide
  -- the second mark would begin inside the first
  have hplace : ptr + k - 3 + 0 = ptr + (k - 3) := by omega
  have hchar := hlast 0 (by decide)
  rw [hplace, hfirst (k - 3) (by omega)] at hchar
  have hthree : k = 9 ∨ k = 10 ∨ k = 11 := by omega
  rcases hthree with rfl | rfl | rfl
  · exact absurd hchar (by decide)
  · exact absurd hchar (by decide)
  · exact absurd hchar (by decide)

variable {r : ShinyNode}

theorem failed {code : ℤ} (hne : code ≠ 0) (h : (code, node) = (0, r)) : False :=
  hne (Prod.mk.inj h).1

/-- **A TEXT** lies in its item, between the tags and inside the marks of CDATA. -/
theorem parse_text_spec {label : ℕ} (hitem : node.ptr_item = some pack)
    (hlabel : node.ptr_label = some label) (hpos : 0 < node.label_len) (hlt : pack < label)
    (hend : (label : ℤ) + node.label_len ≤ ptr) (h : parse_text xml pack node label ptr = (0, r)) :
    ItemAt xml pack r := by
  unfold parse_text at h
  cases hfind : (List.range' ptr (xml.length - ptr)).find? (isEndTag xml label node.label_len) with
  | none =>
    rw [hfind] at h
    exact (failed (by decide) h).elim
  | some close =>
    rw [hfind] at h
    have htag : isEndTag xml label node.label_len close = true := find?_some hfind
    obtain ⟨hge, -⟩ := mem_range'_1.mp (mem_of_find?_eq_some hfind)
    unfold isEndTag at htag
    rw [Bool.and_eq_true, Bool.and_eq_true, Bool.and_eq_true, beq_iff_eq, beq_iff_eq, decide_eq_true_eq] at htag
    obtain ⟨⟨⟨hopen, hfits⟩, hslash⟩, -⟩ := htag
    dsimp only at h
    split at h
    · exact (failed (by decide) h).elim
    next hmarks =>
    -- the text, with its marks cut off
    have htext : ∃ text len, (if strncmp 9 (xml.drop ptr) SHINY_CDATA_BEGIN = true
          then (ptr + 9, (close : ℤ) - ptr - (9 + 3)) else (ptr, (close : ℤ) - ptr)) = (text, len) ∧
        ptr ≤ text ∧ 0 ≤ len ∧ (text : ℤ) + len ≤ close := by
      by_cases hcdata : strncmp 9 (xml.drop ptr) SHINY_CDATA_BEGIN = true
      · have hmark : strncmp 3 (xml.drop (close - 3)) SHINY_CDATA_END = true :=
          not_not.mp fun hnot => hmarks ⟨hcdata, hnot⟩
        have htwelve := twelve_le_of_cdata hge hcdata hmark hopen hslash
        exact ⟨_, _, if_pos hcdata, by omega, by omega, by omega⟩
      · exact ⟨_, _, if_neg hcdata, by omega, by omega, by omega⟩
    obtain ⟨text, len, heq, hle, hlen, hin⟩ := htext
    rw [heq] at h
    split at h
    · exact (failed (by decide) h).elim
    split at h
    · exact (failed (by decide) h).elim
    next hstop _ =>
    rw [← (Prod.mk.inj h).2]
    generalize hptr : close + 2 + node.label_len.toNat = stop at hstop ⊢
    refine ⟨hitem, ?_, ?_, ⟨Int.le_of_lt hpos, fun _ => ⟨pack, hitem, label, hlabel, Nat.le_of_lt hlt, ?_⟩⟩,
      ⟨hlen, fun _ => ⟨pack, hitem, text, rfl, by omega, ?_⟩⟩⟩
    · show 0 < (stop : ℤ) + 1 - pack
      omega
    · show (pack : ℤ) + ((stop : ℤ) + 1 - pack) ≤ xml.length
      omega
    · show (label : ℤ) + node.label_len ≤ pack + ((stop : ℤ) + 1 - pack)
      omega
    · show (text : ℤ) + len ≤ pack + ((stop : ℤ) + 1 - pack)
      omega

/-- An item without a text, which ends behind its label. -/
theorem itemAt_of_tag (stop : ℕ) {len : ℤ} (hlen : 0 ≤ len) (hend : (pack : ℤ) + 1 + len ≤ stop)
    (hpos : pack < stop) (hstop : stop ≤ xml.length) :
    ItemAt xml pack { ShinyNode.cleared with
      ptr_item := some pack, ptr_label := some (pack + 1), label_len := len, item_len := (stop : ℤ) - pack } := by
  refine ⟨rfl, ?_, ?_, ⟨hlen, fun _ => ⟨pack, rfl, pack + 1, rfl, Nat.le_succ pack, ?_⟩⟩, le_refl 0, fun h => ?_⟩
  · show 0 < (stop : ℤ) - pack
    omega
  · show (pack : ℤ) + ((stop : ℤ) - pack) ≤ xml.length
    omega
  · show ((pack + 1 : ℕ) : ℤ) + len ≤ pack + ((stop : ℤ) - pack)
    omega
  · have hzero : (0 : ℤ) < 0 := h
    omega

/-- **AN ITEM THAT IS PARSED** lies in the input, and its label and its text in it: one
    case per exit of the function. -/
theorem parse_xml_item_spec (h : parse_xml_item xml pack = (0, r)) : ItemAt xml pack r := by
  unfold parse_xml_item at h
  dsimp only at h
  split at h
  · exact (failed (by decide) h).elim
  have hlabel := le_skip xml (fun c => c != 62 && c != 32) (pack + 1)
  generalize skip xml (fun c => c != 62 && c != 32) (pack + 1) = stop at h hlabel
  split at h
  · exact (failed (by decide) h).elim
  next hstop =>
  split at h
  · -- the last node
    rw [← (Prod.mk.inj h).2]
    exact itemAt_of_tag (stop + 1) (by push_cast; omega) (by push_cast; omega) (by omega) (by omega)
  split at h
  · exact (failed (by decide) h).elim
  next hlen =>
  have hclose := le_skip xml (· != 62) stop
  generalize skip xml (· != 62) stop = close at h hclose
  split at h
  · exact (failed (by decide) h).elim
  next hin =>
  split at h
  · -- a tag that is closed at once
    rw [← (Prod.mk.inj h).2]
    exact itemAt_of_tag (close + 1) (by push_cast; omega) (by push_cast; omega) (by omega) (by omega)
  have hbehind := le_skip xml is_whitespace (close + 1)
  have hwithin := skip_le is_whitespace (by omega : close + 1 ≤ xml.length)
  generalize skip xml is_whitespace (close + 1) = text at h hbehind hwithin
  split at h
  · -- nothing but blanks behind the tag
    rw [← (Prod.mk.inj h).2]
    exact itemAt_of_tag text (by push_cast; omega) (by push_cast; omega) (by omega) (by omega)
  split at h
  · -- another tag begins
    rw [← (Prod.mk.inj h).2]
    exact itemAt_of_tag text (by push_cast; omega) (by push_cast; omega) (by omega) (by omega)
  · refine parse_text_spec rfl rfl (not_le.mp hlen) (Nat.lt_succ_self pack) ?_ h
    show ((pack + 1 : ℕ) : ℤ) + ((stop : ℤ) - (pack + 1 : ℕ)) ≤ text
    omega

/-! ## §4. The loop. -/

/-- **THE INVARIANT**: the nodes so far lie in front of the pointer, and there is room
    for one more. -/
structure Kept (max_node_size : ℤ) (xml : List UInt8) (s : State) : Prop where
  nodes : Nodes xml s.nodes
  front : ∀ node ∈ s.nodes, ∀ i ∈ node.ptr_item, (i : ℤ) + node.item_len ≤ s.ptr
  room : (s.nodes.length : ℤ) < max_node_size

/-- One item more. -/
theorem Nodes.append {nodes : List ShinyNode} (h : Nodes xml nodes) (hitem : ItemAt xml ptr node)
    (hfront : ∀ a ∈ nodes, ∀ i ∈ a.ptr_item, (i : ℤ) + a.item_len ≤ ptr) : Nodes xml (nodes ++ [node]) where
  items := by
    intro a ha
    rcases mem_append.mp ha with ha | ha
    · exact h.items a ha
    · rw [mem_singleton.mp ha]
      exact ⟨ptr, hitem⟩
  order := by
    refine pairwise_append.mpr ⟨h.order, pairwise_singleton _ _, fun a ha b hb i hi j hj => ?_⟩
    rw [mem_singleton.mp hb, hitem.item] at hj
    cases hj
    exact hfront a ha i hi

/-- **ONE ROUND** goes on behind the item it found, or ends the loop; it does not use
    a node outside the array. -/
theorem round_spec {max_node_size : ℤ} {s : State} (h : Kept max_node_size xml s) :
    (∃ s', round max_node_size xml s = some (.again s') ∧ Kept max_node_size xml s' ∧
        xml.length - s'.ptr < xml.length - s.ptr) ∨
      ∃ r, round max_node_size xml s = some (.done r) ∧ Nodes xml r.2 := by
  have hroom := h.room
  unfold round
  by_cases hstop : xml.length ≤ s.ptr
  · rw [if_pos hstop]
    exact Or.inr ⟨_, rfl, h.nodes⟩
  rw [if_neg hstop]
  by_cases hopen : charAt xml s.ptr ≠ 60
  · rw [if_pos hopen]
    refine Or.inl ⟨_, rfl, ⟨h.nodes, fun node hnode i hi => ?_, hroom⟩, ?_⟩
    · have hfront := h.front node hnode i hi
      show (i : ℤ) + node.item_len ≤ ((s.ptr + 1 : ℕ) : ℤ)
      omega
    · show xml.length - (s.ptr + 1) < xml.length - s.ptr
      omega
  rw [if_neg hopen, if_neg (not_le.mpr hroom)]
  by_cases hcode : (parse_xml_item xml s.ptr).1 ≠ 0
  · rw [if_pos hcode]
    exact Or.inr ⟨_, rfl, h.nodes⟩
  have hzero : (parse_xml_item xml s.ptr).1 = 0 := not_not.mp hcode
  have hitem : ItemAt xml s.ptr (parse_xml_item xml s.ptr).2 :=
    parse_xml_item_spec (Prod.ext hzero rfl)
  have hnodes := h.nodes.append hitem h.front
  have hpos := hitem.pos
  rw [if_neg hcode]
  by_cases hfull : ((s.nodes ++ [(parse_xml_item xml s.ptr).2]).length : ℤ) + 1 > max_node_size
  · rw [if_pos hfull]
    exact Or.inr ⟨_, rfl, hnodes⟩
  rw [if_neg hfull]
  refine Or.inl ⟨_, rfl, ⟨hnodes, fun node hnode i hi => ?_, ?_⟩, ?_⟩
  · show (i : ℤ) + node.item_len ≤
      (((s.ptr : ℤ) + (parse_xml_item xml s.ptr).2.item_len).toNat : ℤ)
    rcases mem_append.mp hnode with hold | hnew
    · have hfront := h.front node hold i hi
      omega
    rw [mem_singleton.mp hnew, hitem.item] at hi
    cases hi
    rw [mem_singleton.mp hnew]
    omega
  · show ((s.nodes ++ [(parse_xml_item xml s.ptr).2]).length : ℤ) < max_node_size
    omega
  · show xml.length - ((s.ptr : ℤ) + (parse_xml_item xml s.ptr).2.item_len).toNat < xml.length - s.ptr
    omega

/-- **THE PARSER RETURNS**, for every input and every capacity, without a node outside
    the array; its items lie in the input one behind the other, with their labels and
    texts, all of lengths that are not negative. -/
theorem parse_spec (max_node_size : ℤ) (hmax : 1 ≤ max_node_size) (earlier : List ShinyNode) (xml : List UInt8)
    (hlen : 0 < xml.length) : ∃ code nodes, parse max_node_size earlier (some xml) = some (code, nodes) ∧
      Nodes xml nodes := by
  have hstart : Kept max_node_size xml ⟨0, 0, []⟩ :=
    ⟨⟨nofun, List.Pairwise.nil⟩, nofun, by show (0 : ℤ) < max_node_size; omega⟩
  obtain ⟨r, hloop, hnodes⟩ := loop_ends (I := Kept max_node_size xml)
    (Q := fun r : ℤ × List ShinyNode => Nodes xml r.2) (fun s => xml.length - s.ptr) (fun s hs => round_spec hs)
    (xml.length + 1) hstart (Nat.lt_succ_of_le (Nat.sub_le _ _))
  refine ⟨r.1, r.2, ?_, hnodes⟩
  unfold parse
  dsimp only
  rw [if_neg (by omega)]
  exact hloop

/-- `<a><b>c</b>d</a>`. -/
def nested : List UInt8 := [60, 97, 62, 60, 98, 62, 99, 60, 47, 98, 62, 100, 60, 47, 97, 62]

/-- Its three items, with room for eight. -/
theorem parse_nested : 0 < nested.length ∧ ∃ code nodes, parse 8 [] (some nested) = some (code, nodes) ∧
    nodes.length = 3 ∧ Nodes nested nodes := by
  obtain ⟨code, nodes, hparse, hnodes⟩ := parse_spec 8 (by decide) [] nested (by decide)
  have hthree : (parse 8 [] (some nested)).map (fun r => r.2.length) = some 3 := by decide
  rw [hparse] at hthree
  exact ⟨by decide, code, nodes, hparse, Option.some.inj hthree, hnodes⟩

end Items

end QShinyXML

end KalavaPir.Common
