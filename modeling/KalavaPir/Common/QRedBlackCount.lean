/-
  KalavaPir.Common.QRedBlackCount — counting references with `count_flag`.

  With `count_flag` a key should be there as long as it was inserted more often than
  removed.  The references are a multiset of keys, and the tree keeps a counter in
  every node.  Three things go wrong with the counters: a new node's `count` is
  never set, for `RBNode();` in the other constructor makes a node of its own;
  `remove` copies the key and the value of a successor, and leaves its counter
  behind; and a removal can leave a tree that is not balanced.
-/
import KalavaPir.Framework.Histories
import KalavaPir.Common.Int32
import KalavaPir.Common.QRedBlackBalance

namespace KalavaPir.Common

namespace RedBlackTree

open KalavaPir.Framework KalavaPir.Framework.RedBlack List
open RedBlack.Color RedBlack.RBTree

variable {K V : Type} [LinearOrder K]

/-! ## §1. The calls. -/

/-- The calls that count references. -/
inductive CountCall (K V : Type) where
  | insert (key : K) (value : V)
  | remove (key : K)

/-- What `++cur_node->count` or `--node->count` makes of the counter of `key`. -/
def newCount (fuel : ℕ) (t : QRedBlackTree K V) (key : K) (change : ℤ) : Option ℤ :=
  match t.locate key fuel t.m_root m_leaf with
  | none => some 0
  | some (p, _) => if p = m_leaf then some 0 else int32 ((t.heap p).count + change)

/-- The outcome of a call; a loop without end does not return. -/
def outcome : Option (QRedBlackTree K V × ℤ) → Except Stop (ℤ × QRedBlackTree K V)
  | none => .error .waits
  | some (t, r) => .ok (r, t)

/-- A call with `count_flag` true and `cover_flag` false. -/
def CountCall.step (fuel : ℕ) (t : QRedBlackTree K V) : CountCall K V → Except Stop (ℤ × QRedBlackTree K V)
  | .insert key value =>
    checked (if MAX_TREE_SIZE < t.node_num then some 0 else newCount fuel t key 1) fun _ =>
      outcome (t.insert fuel key value false true)
  | .remove key => checked (newCount fuel t key (-1)) fun _ => outcome (t.remove fuel key true)

/-- What the calls should do with the references, and return. -/
def CountCall.references (M : Multiset K) : CountCall K V → Except Stop (ℤ × Multiset K)
  | .insert key _ =>
    .ok (if MAX_TREE_SIZE < M.toFinset.card then (-10, M) else (if key ∈ M then 1 else 0, key ::ₘ M))
  | .remove key => .ok (if key ∈ M then (if 1 < M.count key then 2 else 0, M.erase key) else (1, M))

/-- A key is found exactly when it has a reference. -/
def Present (fuel : ℕ) (t : QRedBlackTree K V) (M : Multiset K) : Prop :=
  ∀ key, (t.search fuel key).map Prod.fst = some (if key ∈ M then 0 else -1)

/-! ## §2. The condition. -/

/-- The node of `key`. -/
def nodeOf (t : QRedBlackTree K V) (key : K) : Option (Label K V) :=
  t.tree.toList.find? (fun x => decide (x.key = key))

/-- The counters stay right: the memory of a new node happens to hold 1 as its count,
    a counter has room, and the node that goes has a child missing and leaves a tree
    that can be repaired. -/
def keepsCount (t : QRedBlackTree K V) : CountCall K V → Bool
  | .insert key _ =>
    decide (MAX_TREE_SIZE < t.node_num) ||
      match nodeOf t key with
      | none => decide ((t.heap t.next).count = 1)
      | some x => decide (x.count < INT32_MAX)
  | .remove key =>
    match nodeOf t key with
    | none => true
    | some x =>
      decide (1 < x.count) ||
        decide (t.left x.addr = m_leaf ∨ t.right x.addr = m_leaf) && RemovalMends t.tree key

/-! ## §3. Counters. -/

/-- What a node counts. -/
def tally (x : Label K V) : K × ℤ := (x.key, x.count)

/-- The counters are those of the references. -/
def Tallies (M : Multiset K) (E : List (K × ℤ)) : Prop := ∀ k n, (k, n) ∈ E ↔ k ∈ M ∧ n = M.count k

variable {M : Multiset K} {T l r : RBTree (Label K V)} {x : Label K V} {t : QRedBlackTree K V} {fuel : ℕ}
  {C : Context (Label K V)} {c : NODE_COLOR}

/-- The counter of one key changes. -/
theorem Tallies.update {A B mid : List (K × ℤ)} (h : Tallies M (A ++ (mid ++ B))) (M' : Multiset K)
    (mid' : List (K × ℤ)) (key : K) (hother : ∀ p ∈ A ++ B, p.1 ≠ key) (hmid : ∀ p ∈ mid, p.1 = key)
    (hmid' : ∀ p ∈ mid', p.1 = key) (hsame : ∀ k, k ≠ key → M'.count k = M.count k)
    (hkey : ∀ n, (key, n) ∈ mid' ↔ key ∈ M' ∧ n = M'.count key) : Tallies M' (A ++ (mid' ++ B)) := by
  intro k n
  by_cases hk : k = key
  · rw [hk, ← hkey]
    have hnone : (key, n) ∉ A ++ B := fun hin => hother _ hin rfl
    rw [mem_append] at hnone
    rw [mem_append, mem_append]
    tauto
  -- another key: neither its references nor its node have changed
  · have hin : k ∈ M' ↔ k ∈ M := by
      rw [← Multiset.count_pos, ← Multiset.count_pos, hsame k hk]
    have hold : (k, n) ∉ mid := fun hin => hk (hmid _ hin)
    have hnew : (k, n) ∉ mid' := fun hin => hk (hmid' _ hin)
    rw [hin, hsame k hk, ← h k n]
    simp only [mem_append]
    tauto

/-- Every count of references is an `int32_t`. -/
def Fitting (M : Multiset K) : Prop := ∀ k, (M.count k : ℤ) ≤ INT32_MAX

/-- The tree is balanced, and its counters are those of the references. -/
def Counted (t : QRedBlackTree K V) (M : Multiset K) : Prop :=
  ∃ T, Balanced t T ∧ Tallies M (T.toList.map tally) ∧ t.node_num ≤ MAX_TREE_SIZE + 1 ∧
    Fitting M

theorem Fitting.cons (h : Fitting M) (key : K) (hkey : (M.count key : ℤ) < INT32_MAX) :
    Fitting (key ::ₘ M) := by
  intro k
  by_cases hk : k = key
  · rw [hk, Multiset.count_cons_self]
    omega
  · rw [Multiset.count_cons_of_ne hk]
    exact h k

theorem Fitting.erase (h : Fitting M) (key : K) : Fitting (M.erase key) := by
  intro k
  refine le_trans ?_ (h k)
  exact_mod_cast Multiset.count_le_of_le k (Multiset.erase_le key M)

section

variable (h : Tallies M (T.toList.map tally))
include h

theorem Tallies.mem_iff {key : K} : key ∈ M ↔ key ∈ T.toList.map Label.key := by
  rw [mem_map]
  constructor
  · intro hin
    obtain ⟨x, hx, htally⟩ := mem_map.mp ((h key (M.count key)).mpr ⟨hin, rfl⟩)
    exact ⟨x, hx, congrArg Prod.fst htally⟩
  · rintro ⟨x, hx, hkey⟩
    exact ((h key x.count).mp (mem_map.mpr ⟨x, hx, by rw [← hkey]; rfl⟩)).1

theorem Tallies.count_eq (hx : x ∈ T.toList) : x.key ∈ M ∧ x.count = M.count x.key :=
  (h x.key x.count).mp (mem_map_of_mem (f := tally) hx)

theorem Tallies.card_eq (hbal : Balanced t T) : (M.toFinset.card : ℤ) = t.node_num := by
  have hkeys : M.toFinset = (T.toList.map Label.key).toFinset := by
    ext key
    rw [Multiset.mem_toFinset, h.mem_iff, mem_toFinset]
  have hnodup : (T.toList.map Label.key).Nodup := by
    unfold List.Nodup
    rw [pairwise_map]
    exact hbal.sorted.imp (fun hlt => ne_of_lt hlt)
  rw [hkeys, toFinset_card_of_nodup hnodup, length_map, hbal.size]

end

theorem Counted.length_lt (h : Balanced t T) (hroom : t.node_num ≤ MAX_TREE_SIZE + 1)
    (hfuel : MAX_TREE_SIZE + 1 < (fuel : ℤ)) : T.toList.length < fuel := by
  have hsize := h.size
  omega

/-- **A SEARCH** tells whether the key has a reference. -/
theorem Counted.present (h : Counted t M) (hfuel : MAX_TREE_SIZE + 1 < (fuel : ℤ)) : Present fuel t M := by
  obtain ⟨T, hbal, htally, hroom, -⟩ := h
  intro key
  unfold QRedBlackTree.search
  obtain ⟨C, hT, hbetween, hlocate⟩ | ⟨C, c, l, x, r, hT, hkey, hne, hlocate⟩ :=
    hbal.locate key (Counted.length_lt hbal hroom hfuel)
  · have hnone : key ∉ M := by
      rw [htally.mem_iff, hT]
      exact key_notMem hbetween
    rw [hlocate, if_neg hnone]
    rfl
  have hsome : key ∈ M := by
    rw [← hkey]
    exact (htally.count_eq (by rw [hT]; exact mem_node)).1
  rw [hlocate, if_pos hsome]
  dsimp only
  rw [if_neg hne]
  rfl

/-! ## §4. The node of a key. -/

section Node

variable {t : QRedBlackTree K V} {T : RBTree (Label K V)}

theorem nodeOf_eq_none (h : Balanced t T) {key : K} (hkey : key ∉ T.toList.map Label.key) : nodeOf t key = none := by
  unfold nodeOf
  rw [h.tree_eq, find?_eq_none]
  intro x hx
  rw [decide_eq_true_iff]
  exact fun heq => hkey (mem_map.mpr ⟨x, hx, heq⟩)

theorem nodeOf_eq_some (h : Balanced t T) {x : Label K V} (hx : x ∈ T.toList) : nodeOf t x.key = some x := by
  unfold nodeOf
  rw [h.tree_eq]
  cases hfind : T.toList.find? (fun y => decide (y.key = x.key)) with
  | none =>
    have hnone := find?_eq_none.mp hfind x hx
    exact absurd (decide_eq_true rfl) hnone
  | some y =>
    have hkey := find?_some hfind
    rw [decide_eq_true_iff] at hkey
    rw [h.sorted.eq_of_key hx (mem_of_find?_eq_some hfind) hkey]

theorem newCount_of_notMem (h : Balanced t T) {key : K} (hkey : key ∉ T.toList.map Label.key) (change : ℤ) {fuel : ℕ}
    (hfuel : T.toList.length < fuel) : newCount fuel t key change = some 0 := by
  unfold newCount
  obtain ⟨C, hT, hbetween, hlocate⟩ | ⟨C, c, l, x, r, hT, hx, hne, hlocate⟩ := h.locate key hfuel
  · rw [hlocate]
    exact if_pos rfl
  -- the way down ends at a node only if the node has the key
  · refine absurd (mem_map.mpr ⟨x, ?_, hx⟩) hkey
    rw [hT]
    exact mem_node

theorem newCount_of_mem (h : Balanced t T) {x : Label K V} (hx : x ∈ T.toList) (change : ℤ) {fuel : ℕ}
    (hfuel : T.toList.length < fuel) : newCount fuel t x.key change = int32 (x.count + change) := by
  unfold newCount
  obtain ⟨C, hT, hbetween, hlocate⟩ | ⟨C, c, l, y, r, hT, hy, hne, hlocate⟩ := h.locate x.key hfuel
  · rw [hT] at hx
    exact absurd (mem_map_of_mem hx) (key_notMem hbetween)
  have hmem : y ∈ T.toList := by
    rw [hT]
    exact mem_node
  have heq := h.sorted.eq_of_key hx hmem hy
  rw [heq] at hT hne hlocate
  rw [hT] at h
  rw [hlocate]
  dsimp only
  rw [if_neg hne, Shape.cell (d := .left) h.shape]
  rfl

end Node

/-! ## §5. One call. -/

omit [LinearOrder K] in
theorem toList_tally (C : Context (Label K V)) (c : NODE_COLOR) (l r : RBTree (Label K V)) (x : Label K V) :
    (plug C (node c l x r)).toList.map tally =
      (pre C ++ l.toList).map tally ++ ([tally x] ++ (r.toList ++ post C).map tally) := by
  rw [toList_plug]
  simp [toList]

theorem other_tallies (h : Sorted (plug C (node c l x r))) :
    ∀ p ∈ (pre C ++ l.toList).map tally ++ (r.toList ++ post C).map tally, p.1 ≠ x.key := by
  intro p hp
  rw [← map_append] at hp
  obtain ⟨y, hy, htally⟩ := mem_map.mp hp
  rw [← htally]
  refine other_keys h (entry y) ?_
  rw [← map_append]
  exact mem_map_of_mem hy

variable {M' : Multiset K} {x' : Label K V} {t' : QRedBlackTree K V}

/-- A node with another counter. -/
theorem Tallies.recount (h : Tallies M ((plug C (node c l x r)).toList.map tally))
    (hsorted : Sorted (plug C (node c l x r))) (hkey : x'.key = x.key)
    (hsame : ∀ k, k ≠ x.key → M'.count k = M.count k) (hmem : x.key ∈ M')
    (hcount : x'.count = M'.count x.key) : Tallies M' ((plug C (node c l x' r)).toList.map tally) := by
  rw [toList_tally] at h ⊢
  refine h.update M' [tally x'] x.key (other_tallies hsorted) ?_ ?_ hsame ?_
  · intro p hp
    rw [mem_singleton.mp hp]
    rfl
  · intro p hp
    rw [mem_singleton.mp hp]
    exact hkey
  · intro n
    rw [mem_singleton, and_iff_right hmem, ← hcount, ← hkey]
    unfold tally
    rw [Prod.mk.injEq, and_iff_right rfl]

/-- A new node with the counter 1. -/
theorem Tallies.extend (h : Tallies M ((plug C leaf).toList.map tally)) (hbetween : Between x.key C)
    (hzero : x.key ∉ M) (hcount : x.count = 1) :
    Tallies (x.key ::ₘ M) ((pre C ++ x :: post C).map tally) := by
  have hold : Tallies M ((pre C).map tally ++ ([] ++ (post C).map tally)) := by
    rw [toList_plug] at h
    rw [nil_append, ← map_append]
    exact h
  rw [map_append, map_cons, ← singleton_append]
  refine hold.update (x.key ::ₘ M) [tally x] x.key ?_ nofun ?_ ?_ ?_
  · intro p hp
    rw [← map_append] at hp
    obtain ⟨y, hy, hpy⟩ := mem_map.mp hp
    rw [← hpy]
    refine new_key hbetween (entry y) ?_
    rw [← map_append]
    exact mem_map_of_mem hy
  · intro p hp
    rw [mem_singleton.mp hp]
    rfl
  · intro k hk
    exact Multiset.count_cons_of_ne hk M
  · intro n
    rw [mem_singleton, Multiset.count_cons_self, Multiset.count_eq_zero_of_notMem hzero]
    unfold tally
    rw [hcount, Prod.mk.injEq, and_iff_right rfl, and_iff_right (Multiset.mem_cons_self x.key M)]
    rfl

/-- A node goes with its last reference. -/
theorem Tallies.drop (h : Tallies M ((plug C (node c l x r)).toList.map tally))
    (hsorted : Sorted (plug C (node c l x r))) (hone : M.count x.key = 1) :
    Tallies (M.erase x.key) ((pre C ++ (l.toList ++ (r.toList ++ post C))).map tally) := by
  have hzero : (M.erase x.key).count x.key = 0 := by
    rw [Multiset.count_erase_self, hone]
  rw [toList_tally] at h
  have hdropped := h.update (M.erase x.key) [] x.key (other_tallies hsorted) ?_ nofun
    (fun k hk => Multiset.count_erase_of_ne hk M) ?_
  · rw [nil_append, ← map_append, append_assoc] at hdropped
    exact hdropped
  · intro p hp
    rw [mem_singleton.mp hp]
    rfl
  · intro n
    exact iff_of_false not_mem_nil (fun hin => Multiset.count_eq_zero.mp hzero hin.1)

/-- A new node with the counter 1 in a balanced tree. -/
theorem Counted.extend {T' : RBTree (Label K V)} (h : Balanced t (plug C leaf))
    (htally : Tallies M ((plug C leaf).toList.map tally)) (hfits : Fitting M)
    (hroom : ¬ MAX_TREE_SIZE < t.node_num) (hbetween : Between x.key C) (hcount : x.count = 1)
    (h' : Balanced t' T') (hlist : T'.toList = pre C ++ x :: post C) : Counted t' (x.key ::ₘ M) := by
  have hzero : x.key ∉ M := fun hin => key_notMem hbetween (htally.mem_iff.mp hin)
  refine ⟨T', h', ?_, ?_, ?_⟩
  · rw [hlist]
    exact htally.extend hbetween hzero hcount
  · have hold := h.size
    rw [h'.size, hlist]
    rw [length_plug_leaf] at hold
    simp only [length_append, length_cons] at hold ⊢
    omega
  · refine hfits.cons x.key ?_
    rw [Multiset.count_eq_zero_of_notMem hzero]
    decide

theorem Counted.recount (h : Balanced t (plug C (node c l x r)))
    (htally : Tallies M ((plug C (node c l x r)).toList.map tally)) (hroom : t.node_num ≤ MAX_TREE_SIZE + 1)
    (h' : Balanced t' (plug C (node c l x' r))) (hfits : Fitting M') (hkey : x'.key = x.key)
    (hsame : ∀ k, k ≠ x.key → M'.count k = M.count k) (hmem : x.key ∈ M')
    (hcount : x'.count = M'.count x.key) : Counted t' M' := by
  refine ⟨_, h', htally.recount h.sorted hkey hsame hmem hcount, ?_, hfits⟩
  have hold := h.size
  rw [h'.size]
  rw [length_plug_node] at hold ⊢
  rw [← hold]
  exact hroom

/-- The node of a last reference has a child missing, and leaves a tree that can be
    repaired. -/
theorem Counted.takeOut (h : Balanced t (plug C (node c l x r)))
    (htally : Tallies M ((plug C (node c l x r)).toList.map tally)) (hroom : t.node_num ≤ MAX_TREE_SIZE + 1)
    (hfits : Fitting M) (hone : M.count x.key = 1)
    (hchild : t.left x.addr = m_leaf ∨ t.right x.addr = m_leaf) (hmends : RemovalMends t.tree x.key = true)
    (hfuel : (plug C (node c l x r)).toList.length < fuel) :
    ∃ t', RedBlackTree.takeOut fuel (released t x.addr true) x.addr = some (t', 0) ∧
      Counted t' (M.erase x.key) := by
  obtain ⟨hleft, hright, -⟩ := left_right_eq h.shape
  rw [hleft, hright] at hchild
  rw [h.tree_eq, removalMends_eq h.sorted] at hmends
  have hsingle : l = leaf ∨ r = leaf :=
    hchild.imp (Shape.ptr_eq_leaf (C := ⟨.left, c, x, r⟩ :: C) h.shape).mp
      (Shape.ptr_eq_leaf (C := ⟨.right, c, x, l⟩ :: C) h.shape).mp
  obtain ⟨hbal, -⟩ := h.released true
  have hfuel' : (plug C (node c l (x.released true) r)).toList.length < fuel := by
    rw [length_plug_node] at hfuel ⊢
    exact hfuel
  obtain ⟨t', T', hrun, hshape, hsorted, hsize, -, hlist, hsound⟩ := takeOut_ends hbal hfuel'
  -- the counter does not matter to the repair
  obtain ⟨hblack, hbalanced⟩ := hsound.mpr ((repairable_relabel c l x _ r C).trans hmends)
  refine ⟨t', hrun, T', ⟨hshape, hbalanced, hblack, hsorted, hsize⟩, ?_, ?_, hfits.erase x.key⟩
  · rw [hlist hsingle]
    exact htally.drop h.sorted hone
  · have hold := h.size
    rw [length_plug_node] at hold
    rw [hsize, hlist hsingle]
    omega

/-- **ONE `insert`.** -/
theorem Counted.insert (h : Counted t M) (key : K) (value : V) (hfuel : MAX_TREE_SIZE + 1 < (fuel : ℤ))
    (hkeeps : keepsCount t (.insert key value) = true) :
    Matched Counted ((CountCall.insert key value).step fuel t) ((CountCall.insert key value).references M) := by
  obtain ⟨T, hbal, htally, hroom, hfits⟩ := h
  have hlen := Counted.length_lt hbal hroom hfuel
  unfold CountCall.step CountCall.references
  dsimp only
  rw [htally.card_eq hbal]
  unfold keepsCount at hkeeps
  dsimp only at hkeeps
  -- as many nodes as keys with references, so both are full at the same time
  by_cases hfull : MAX_TREE_SIZE < t.node_num
  · rw [if_pos hfull, if_pos hfull, checked_some]
    unfold QRedBlackTree.insert
    rw [if_pos hfull]
    exact .answer ⟨T, hbal, htally, hroom, hfits⟩
  rw [if_neg hfull, if_neg hfull]
  rw [decide_eq_false hfull, Bool.false_or] at hkeeps
  obtain ⟨C, t', T', hT, hbetween, hrun, hbal', hlist⟩ | ⟨C, c, l, x, r, t', hT, hkey, hrun, hbal'⟩ :=
    insert_ends hbal key value false true hfull hlen
  · have hnone : key ∉ T.toList.map Label.key := by
      rw [hT]
      exact key_notMem hbetween
    have hzero : key ∉ M := fun hin => hnone (htally.mem_iff.mp hin)
    rw [nodeOf_eq_none hbal hnone] at hkeeps
    -- the count of the new node is whatever the memory held
    have hcount : (t.heap t.next).count = 1 := of_decide_eq_true hkeeps
    rw [newCount_of_notMem hbal hnone 1 hlen, checked_some, hrun, if_neg hzero]
    rw [hT] at hbal htally
    exact .answer (Counted.extend (x := ⟨t.next, key, value, (t.heap t.next).count⟩) hbal htally hfits hfull
      hbetween hcount hbal' hlist)
  have hmem : x ∈ T.toList := by
    rw [hT]
    exact mem_node
  obtain ⟨hsome, hcount⟩ := htally.count_eq hmem
  rw [← hkey] at hkeeps hrun ⊢
  rw [nodeOf_eq_some hbal hmem] at hkeeps
  have hlt : x.count < INT32_MAX := of_decide_eq_true hkeeps
  have hint : int32 (x.count + 1) = some (x.count + 1) := by
    unfold INT32_MAX at hlt
    exact int32_of_range (by omega) (by omega)
  rw [newCount_of_mem hbal hmem 1 hlen, hint, checked_some, hrun, if_pos hsome]
  rw [hT] at hbal htally
  refine .answer (Counted.recount hbal htally hroom hbal' (hfits.cons x.key (hcount ▸ hlt)) rfl
    (fun k hk => Multiset.count_cons_of_ne hk M) (Multiset.mem_cons_self x.key M) ?_)
  show x.count + 1 = _
  rw [Multiset.count_cons_self, hcount]
  rfl

/-- **ONE `remove`.** -/
theorem Counted.remove (h : Counted t M) (key : K) (hfuel : MAX_TREE_SIZE + 1 < (fuel : ℤ))
    (hkeeps : keepsCount t (.remove key) = true) :
    Matched Counted ((CountCall.remove (V := V) key).step fuel t) ((CountCall.remove (V := V) key).references M) := by
  obtain ⟨T, hbal, htally, hroom, hfits⟩ := h
  have hlen := Counted.length_lt hbal hroom hfuel
  unfold CountCall.step CountCall.references
  dsimp only
  unfold keepsCount at hkeeps
  dsimp only at hkeeps
  obtain ⟨C, hT, hbetween, hrun⟩ | ⟨C, c, l, x, r, hT, hkey, hrun⟩ := remove_ends hbal key true hlen
  · have hnone : key ∉ T.toList.map Label.key := by
      rw [hT]
      exact key_notMem hbetween
    have hzero : key ∉ M := fun hin => hnone (htally.mem_iff.mp hin)
    rw [newCount_of_notMem hbal hnone (-1) hlen, checked_some, hrun, if_neg hzero]
    exact .answer ⟨T, hbal, htally, hroom, hfits⟩
  have hmem : x ∈ T.toList := by
    rw [hT]
    exact mem_node
  obtain ⟨hsome, hcount⟩ := htally.count_eq hmem
  have hpos := Multiset.count_pos.mpr hsome
  rw [← hkey] at hkeeps hrun ⊢
  rw [nodeOf_eq_some hbal hmem] at hkeeps
  have hint : int32 (x.count + -1) = some (x.count + -1) := by
    have hle := hfits x.key
    unfold INT32_MAX at hle
    exact int32_of_range (by omega) (by omega)
  have hreleased : (x.released true).count = x.count - 1 := rfl
  rw [newCount_of_mem hbal hmem (-1) hlen, hint, checked_some, hrun, if_pos hsome, hreleased]
  rw [hT] at hbal htally hlen
  dsimp only at hkeeps
  by_cases hmore : 1 < M.count x.key
  · -- a reference less
    have hleft : (true : Bool) = true ∧ 0 < x.count - 1 := ⟨rfl, by omega⟩
    have hone := Multiset.count_erase_self x.key M
    rw [if_pos hleft, if_pos hmore]
    refine .answer (Counted.recount hbal htally hroom (hbal.released true).1 (hfits.erase x.key) rfl
      (fun k hk => Multiset.count_erase_of_ne hk M) (Multiset.count_pos.mp (by omega)) ?_)
    omega
  -- the last reference
  have hone : M.count x.key = 1 := by omega
  have hgone : ¬ ((true : Bool) = true ∧ 0 < x.count - 1) := by
    rintro ⟨-, hpos'⟩
    omega
  rw [decide_eq_false (show ¬ 1 < x.count by omega), Bool.false_or, Bool.and_eq_true,
    decide_eq_true_iff] at hkeeps
  obtain ⟨t', hrun', hcounted⟩ :=
    Counted.takeOut hbal htally hroom hfits hone hkeeps.1 hkeeps.2 hlen
  rw [if_neg hgone, if_neg hmore, hrun']
  exact .answer hcounted

/-! ## §6. Histories. -/

theorem counted_new (memory : ℕ → RBNode K V) : Counted (QRedBlackTree.new memory) (0 : Multiset K) := by
  refine ⟨leaf, balanced_new memory, ?_, show (0 : ℤ) ≤ _ by decide, ?_⟩
  · intro k n
    exact iff_of_false not_mem_nil (fun hin => Multiset.notMem_zero k hin.1)
  · intro k
    rw [Multiset.count_zero]
    decide

/-- **THE COUNTERS ARE THE REFERENCES**: in every history whose calls all meet the
    condition, every call returns what the references say, and every key is found
    exactly as long as it has one. -/
theorem count_of_history (memory : ℕ → RBNode K V) (calls : List (CountCall K V)) {fuel : ℕ}
    (hfuel : MAX_TREE_SIZE + 1 < (fuel : ℤ))
    (hkeeps : Calls (CountCall.step fuel) CountCall.references (fun t _ call => keepsCount t call = true)
      (QRedBlackTree.new memory) 0 calls) (n : ℕ) :
    Matched (Present fuel) (history (CountCall.step fuel) (QRedBlackTree.new memory) (calls.take n))
      (history CountCall.references 0 (calls.take n)) := by
  refine Matched.mono (Calls.matched ?_ (counted_new memory) (hkeeps.take n)) (fun t M h => h.present hfuel)
  intro t M call h hone
  cases call with
  | insert key value => exact h.insert key value hfuel hone
  | remove key => exact h.remove key hfuel hone

/-- Memory that holds 1 in every count. -/
def oneNodes : ℕ → RBNode ℕ ℕ := fun _ => ⟨RED, 0, 0, 1, 0, 0, 0⟩

/-- Two references of one key, and one of a key that comes and goes between them. -/
theorem count_of_history_six :
    Matched (Present 400002)
      (history (CountCall.step 400002) (QRedBlackTree.new oneNodes)
        ([.insert 1 10, .insert 2 20, .insert 1 11, .remove 2, .remove 1, .remove 1].take 6))
      (history CountCall.references 0
        ([.insert 1 10, .insert 2 20, .insert 1 11, .remove 2, .remove 1, .remove 1].take 6)) :=
  count_of_history oneNodes _ (by decide) (by decide) 6

/-- **THE COUNT IS LOST**: in memory full of zeroes the first of two removals takes the
    key out; and in memory full of ones the removal of 2 leaves its own counter to 3,
    which has two references. -/
theorem count_is_lost :
    ¬ Matched (Present 400002)
      (history (CountCall.step 400002) (QRedBlackTree.new blankNodes) [.insert 1 10, .insert 1 10, .remove 1])
      (history CountCall.references 0 [.insert (V := ℕ) 1 10, .insert 1 10, .remove 1]) ∧
    ¬ Matched (Present 400002)
      (history (CountCall.step 400002) (QRedBlackTree.new oneNodes)
        [.insert 1 10, .insert 2 20, .insert 3 30, .insert 3 30, .remove 2, .remove 3])
      (history CountCall.references 0
        [.insert (V := ℕ) 1 10, .insert 2 20, .insert 3 30, .insert 3 30, .remove 2, .remove 3]) := by
  constructor
  · intro h
    exact absurd h.answers_eq (by decide)
  · intro h
    exact absurd h.answers_eq (by decide)

end RedBlackTree

end KalavaPir.Common
