/-
  KalavaPir.Common.QRedBlackMap — histories of calls and the finite map.

  As long as no `remove` finds a red brother of a right child, every call answers
  what the finite map answers.  Such a brother is compared with BLACK where it should
  become BLACK, and the root can become red; a later `insert` then rotates around the
  sentinel, makes it red, and the next one does not end.
-/
import Mathlib.Data.Finmap
import KalavaPir.Common.QRedBlackRemove

namespace KalavaPir.Common

namespace RedBlackTree

open KalavaPir.Framework KalavaPir.Framework.RedBlack List Finmap
open RedBlack.Color RedBlack.RBTree

variable {K V : Type} [LinearOrder K]

/-! ## §1. The finite map. -/

/-- What the map becomes, and what the call returns. -/
def Call.answer (M : Finmap (fun _ : K => V)) : Call K V → Finmap (fun _ : K => V) × ℤ
  | .insert key value cover_flag =>
    if key ∈ M then (if cover_flag then M.insert key value else M, 1) else (M.insert key value, 0)
  | .remove key => if key ∈ M then (M.erase key, 0) else (M, 1)

/-- What `search` returns and writes. -/
def found : Option V → ℤ × Option V
  | none => (-1, none)
  | some v => (0, some v)

/-- Fewer than `MAX_TREE_SIZE` keys at all times. -/
def Within : Finmap (fun _ : K => V) → List (Call K V) → Prop
  | M, [] => (M.keys.card : ℤ) < MAX_TREE_SIZE
  | M, call :: calls => (M.keys.card : ℤ) < MAX_TREE_SIZE ∧ Within (call.answer M).1 calls

/-- Every search finds what the map has, and the size is that of the map. -/
def Agrees (fuel : ℕ) (t : QRedBlackTree K V) (M : Finmap (fun _ : K => V)) : Prop :=
  (∀ key, t.search fuel key = some (found (M.lookup key))) ∧ t.size = M.keys.card

/-- The tree agrees with the map now and after every call, and every call returns
    what the map says. -/
def Follows (fuel : ℕ) : QRedBlackTree K V → Finmap (fun _ : K => V) → List (Call K V) → Prop
  | t, M, [] => Agrees fuel t M
  | t, M, call :: calls =>
    Agrees fuel t M ∧
      ∃ t', call.run fuel t = some (t', (call.answer M).2) ∧ Follows fuel t' (call.answer M).1 calls

/-! ## §2. Entries. -/

/-- The map has these entries. -/
def Lists (M : Finmap (fun _ : K => V)) (E : List (K × V)) : Prop := ∀ k v, M.lookup k = some v ↔ (k, v) ∈ E

variable {M : Finmap (fun _ : K => V)} {A B : List (K × V)} {key : K} {value : V} {t : QRedBlackTree K V}
  {C : Context (Label K V)} {fuel : ℕ}

variable {E : List (K × V)} {k : ℕ} {c : NODE_COLOR} {l r : RBTree (Label K V)} {x : Label K V}
  {count_flag : Bool}

theorem Lists.mem_iff (h : Lists M E) {k : K} : k ∈ M ↔ k ∈ E.map Prod.fst := by
  rw [Finmap.mem_iff, mem_map]
  constructor
  · rintro ⟨v, hv⟩
    exact ⟨(k, v), (h k v).mp hv, rfl⟩
  · rintro ⟨⟨k', v⟩, hin, hk⟩
    have hk' : k' = k := hk
    rw [hk'] at hin
    exact ⟨v, (h k v).mpr hin⟩

theorem Lists.card (h : Lists M E) (hnodup : (E.map Prod.fst).Nodup) :
    M.keys.card = E.length := by
  have hkeys : M.keys = (E.map Prod.fst).toFinset := by
    ext k
    rw [Finmap.mem_keys, h.mem_iff, mem_toFinset]
  rw [hkeys, toFinset_card_of_nodup hnodup, length_map]

/-- A new key. -/
theorem Lists.insert (h : Lists M (A ++ B)) (value : V) (hnew : ∀ p ∈ A ++ B, p.1 ≠ key) :
    Lists (M.insert key value) (A ++ (key, value) :: B) := by
  intro k v
  have hmem : (k, v) ∈ A ++ (key, value) :: B ↔ (k, v) = (key, value) ∨ (k, v) ∈ A ++ B := by
    rw [mem_append, mem_cons, mem_append]
    tauto
  rw [hmem]
  by_cases hk : k = key
  · rw [hk, lookup_insert, Option.some_inj]
    constructor
    · intro hv
      exact Or.inl (by rw [hv])
    · rintro (hv | hin)
      · exact (congrArg Prod.snd hv).symm
      · exact absurd rfl (hnew (key, v) hin)
  · rw [lookup_insert_of_ne _ hk, h k v]
    constructor
    · exact Or.inr
    · rintro (hv | hin)
      · exact absurd (congrArg Prod.fst hv) hk
      · exact hin

/-- A key that is gone. -/
theorem Lists.erase (h : Lists M (A ++ (key, value) :: B)) (hother : ∀ p ∈ A ++ B, p.1 ≠ key) :
    Lists (M.erase key) (A ++ B) := by
  intro k v
  by_cases hk : k = key
  · rw [hk, lookup_erase]
    constructor
    · intro hv
      cases hv
    · intro hin
      exact absurd rfl (hother (key, v) hin)
  rw [lookup_erase_ne hk, h k v]
  have hmem : (k, v) ∈ A ++ (key, value) :: B ↔ (k, v) = (key, value) ∨ (k, v) ∈ A ++ B := by
    rw [mem_append, mem_cons, mem_append]
    tauto
  rw [hmem]
  constructor
  · rintro (hv | hin)
    · exact absurd (congrArg Prod.fst hv) hk
    · exact hin
  · exact Or.inr

theorem Lists.cover (h : Lists M (A ++ (key, value) :: B)) (value' : V) (hother : ∀ p ∈ A ++ B, p.1 ≠ key) :
    Lists (M.insert key value') (A ++ (key, value') :: B) := by
  have hnew := (h.erase hother).insert value' hother
  intro k v
  rw [← hnew k v]
  by_cases hk : k = key
  · rw [hk, lookup_insert, lookup_insert]
  · rw [lookup_insert_of_ne _ hk, lookup_insert_of_ne _ hk, lookup_erase_ne hk]

/-! ## §3. One call. -/

/-- The tree has the entries of the map. -/
def Represents (t : QRedBlackTree K V) (M : Finmap (fun _ : K => V)) : Prop :=
  ∃ T, Balanced t T ∧ Lists M (T.toList.map entry)

theorem card_eq {T : RBTree (Label K V)} (h : Balanced t T) (hlists : Lists M (T.toList.map entry)) :
    M.keys.card = T.toList.length := by
  have hsorted := h.sorted
  rw [hlists.card, length_map]
  rw [map_map]
  show (T.toList.map Label.key).Nodup
  unfold List.Nodup
  rw [pairwise_map]
  exact hsorted.imp (fun hlt => ne_of_lt hlt)

/-- The other keys of a tree are others. -/
theorem other_keys (h : Sorted (plug C (node c l x r))) :
    ∀ p ∈ (pre C ++ l.toList).map entry ++ (r.toList ++ post C).map entry, p.1 ≠ x.key := by
  have hlist : (plug C (node c l x r)).toList = (pre C ++ l.toList) ++ x :: (r.toList ++ post C) := by
    rw [toList_plug]
    simp [toList]
  unfold Sorted at h
  rw [hlist] at h
  obtain ⟨-, hright, hleft⟩ := pairwise_append.mp h
  intro p hp
  obtain hp | hp := mem_append.mp hp
  · obtain ⟨y, hy, hentry⟩ := mem_map.mp hp
    rw [← hentry]
    exact ne_of_lt (hleft y hy x mem_cons_self)
  · obtain ⟨y, hy, hentry⟩ := mem_map.mp hp
    rw [← hentry]
    exact (ne_of_lt ((pairwise_cons.mp hright).1 y hy)).symm

omit [LinearOrder K] in
theorem toList_node (C : Context (Label K V)) (c : NODE_COLOR) (l r : RBTree (Label K V)) (x : Label K V) :
    (plug C (node c l x r)).toList.map entry =
      (pre C ++ l.toList).map entry ++ (x.key, x.value) :: (r.toList ++ post C).map entry := by
  rw [toList_plug]
  simp [toList, entry]

theorem new_key (h : Between key C) : ∀ p ∈ (pre C).map entry ++ (post C).map entry, p.1 ≠ key := by
  intro p hp
  obtain hp | hp := mem_append.mp hp
  · obtain ⟨y, hy, hentry⟩ := mem_map.mp hp
    rw [← hentry]
    exact ne_of_lt (h.1 y hy)
  · obtain ⟨y, hy, hentry⟩ := mem_map.mp hp
    rw [← hentry]
    exact (ne_of_lt (h.2 y hy)).symm

theorem notMem_of_leaf (h : Lists M ((plug C leaf).toList.map entry)) (hbetween : Between key C) :
    Lists M ((pre C).map entry ++ (post C).map entry) ∧ key ∉ M := by
  have hlist : (plug C (leaf : RBTree (Label K V))).toList.map entry = (pre C).map entry ++ (post C).map entry := by
    rw [toList_plug, ← map_append]
    rfl
  rw [hlist] at h
  refine ⟨h, ?_⟩
  rw [h.mem_iff, mem_map]
  rintro ⟨p, hp, hkey⟩
  exact new_key hbetween p hp hkey

theorem mem_of_node (h : Lists M ((plug C (node c l x r)).toList.map entry)) :
    M.lookup x.key = some x.value := by
  rw [h x.key x.value, toList_node]
  exact mem_append_right _ mem_cons_self

/-- **A SEARCH** finds what the map has. -/
theorem search_spec (h : Represents t M) (hfuel : M.keys.card < fuel) : Agrees fuel t M := by
  obtain ⟨T, hbal, hlists⟩ := h
  have hcard := card_eq hbal hlists
  refine ⟨?_, ?_⟩
  · intro key
    unfold QRedBlackTree.search
    have hlen : T.toList.length < fuel := by omega
    obtain ⟨C, hT, hbetween, hlocate⟩ | ⟨C, c, l, x, r, hT, hkey, hne, hlocate⟩ := hbal.locate key hlen
    · rw [hT] at hlists
      have hnone := lookup_eq_none.mpr (notMem_of_leaf hlists hbetween).2
      rw [hlocate, hnone]
      rfl
    rw [hT] at hlists hbal
    have hcell := Shape.cell (d := .left) hbal.shape
    have hsome := mem_of_node hlists
    rw [hkey] at hsome
    rw [hlocate, hsome]
    dsimp only
    rw [if_neg hne, hcell, cell_value]
    rfl
  · unfold QRedBlackTree.size
    rw [hbal.size, hcard]

/-- **ONE CALL**, if it finds no red brother of a right child. -/
theorem Represents.call (h : Represents t M) (call : Call K V) (hroom : (M.keys.card : ℤ) < MAX_TREE_SIZE)
    (hfuel : M.keys.card < fuel) (hclean : ∀ key, call = .remove key → t.removeSlipFree fuel key = true) :
    ∃ t', call.run fuel t = some (t', (call.answer M).2) ∧ Represents t' (call.answer M).1 := by
  obtain ⟨T, hbal, hlists⟩ := h
  have hcard := card_eq hbal hlists
  have hsize := hbal.size
  have hlen : T.toList.length < fuel := by omega
  cases call with
  | insert key value cover_flag =>
    obtain ⟨C, t', T', x, hT, hbetween, hrun, hbal', hkey, hvalue, hlist⟩ |
        ⟨C, c, l, x, r, t', hT, hkey, hrun, hbal'⟩ :=
      insert_spec hbal key value cover_flag (by omega) hlen
    · rw [hT] at hlists
      obtain ⟨hlists', hnew⟩ := notMem_of_leaf hlists hbetween
      have hanswer : (Call.insert key value cover_flag).answer M = (M.insert key value, 0) := if_neg hnew
      rw [hanswer]
      refine ⟨t', hrun, T', hbal', ?_⟩
      have hentries : T'.toList.map entry = (pre C).map entry ++ (key, value) :: (post C).map entry := by
        rw [hlist, map_append, map_cons, ← hkey, ← hvalue]
        rfl
      rw [hentries]
      exact hlists'.insert value (new_key hbetween)
    · rw [hT] at hlists hbal
      have hother := other_keys hbal.sorted
      have hsome := mem_of_node hlists
      rw [hkey] at hsome hother
      have hmem : key ∈ M := mem_of_lookup_eq_some hsome
      have hanswer : (Call.insert key value cover_flag).answer M =
          (if cover_flag then M.insert key value else M, 1) :=
        if_pos hmem
      rw [hanswer]
      refine ⟨t', hrun, _, hbal', ?_⟩
      cases cover_flag with
      | true =>
        rw [if_pos rfl, if_pos rfl, toList_node]
        rw [toList_node, hkey] at hlists
        rw [hkey]
        exact hlists.cover value hother
      | false =>
        exact hlists
  | remove key =>
    obtain ⟨C, hT, hbetween, hrun⟩ | ⟨C, c, l, x, r, t', T', hT, hkey, hrun, hbal', hentries⟩ :=
      remove_spec hbal key hlen (hclean key rfl)
    · rw [hT] at hlists
      have hnew := (notMem_of_leaf hlists hbetween).2
      have hanswer : (Call.remove key).answer M = (M, 1) := if_neg hnew
      rw [hanswer]
      exact ⟨t, hrun, T, hbal, hT ▸ hlists⟩
    rw [hT] at hlists hbal
    have hother := other_keys hbal.sorted
    have hsome := mem_of_node hlists
    rw [toList_node] at hlists
    rw [hkey] at hlists hsome hother
    have hmem : key ∈ M := mem_of_lookup_eq_some hsome
    have hanswer : (Call.remove key).answer M = (M.erase key, 0) := if_pos hmem
    rw [hanswer]
    refine ⟨t', hrun, T', hbal', ?_⟩
    have hlist : T'.toList.map entry = (pre C ++ l.toList).map entry ++ (r.toList ++ post C).map entry := by
      rw [hentries, ← map_append]
      simp only [append_assoc]
    rw [hlist]
    exact hlists.erase hother

/-! ## §4. Histories. -/

theorem represents_new (memory : ℕ → RBNode K V) :
    Represents (QRedBlackTree.new memory) (∅ : Finmap (fun _ : K => V)) := by
  refine ⟨leaf, balanced_new memory, ?_⟩
  intro k v
  exact iff_of_false (by simp) not_mem_nil

theorem card_answer_le (M : Finmap (fun _ : K => V)) (call : Call K V) :
    (call.answer M).1.keys.card ≤ M.keys.card + 1 := by
  have hinsert : ∀ key value, (M.insert key value).keys.card ≤ M.keys.card + 1 := by
    intro key value
    have hkeys : (M.insert key value).keys = insert key M.keys := by
      ext k
      rw [Finmap.mem_keys, Finmap.mem_insert, Finset.mem_insert, Finmap.mem_keys]
    rw [hkeys]
    exact Finset.card_insert_le key M.keys
  cases call with
  | insert key value cover_flag =>
    unfold Call.answer
    dsimp only
    split_ifs
    · exact hinsert key value
    · exact Nat.le_succ _
    · exact hinsert key value
  | remove key =>
    unfold Call.answer
    dsimp only
    split_ifs
    · rw [keys_erase]
      exact Nat.le_succ_of_le (Finset.card_erase_le)
    · exact Nat.le_succ _

/-- The first call of a history. -/
theorem Represents.first {call : Call K V} {calls : List (Call K V)} (h : Represents t M)
    (hwithin : Within M (call :: calls)) (hfuel : M.keys.card + (call :: calls).length < fuel)
    (hclean : Clean fuel t (call :: calls) = true) :
    ∃ t', call.run fuel t = some (t', (call.answer M).2) ∧ Represents t' (call.answer M).1 ∧
      (call.answer M).1.keys.card + calls.length < fuel ∧ Clean fuel t' calls = true := by
  rw [length_cons] at hfuel
  unfold Clean at hclean
  rw [Bool.and_eq_true] at hclean
  obtain ⟨hone, hothers⟩ := hclean
  have hroomy : M.keys.card < fuel := by omega
  obtain ⟨t', hrun, hrep⟩ := h.call call hwithin.1 hroomy (by
    intro key hkey
    rw [hkey] at hone
    exact hone)
  have hcard := card_answer_le M call
  rw [hrun] at hothers
  exact ⟨t', hrun, hrep, by omega, hothers⟩

/-- From any state that agrees with the map. -/
theorem Represents.follows (fuel : ℕ) (calls : List (Call K V)) : ∀ {t : QRedBlackTree K V}
    {M : Finmap (fun _ : K => V)},
    Represents t M → Within M calls → M.keys.card + calls.length < fuel → Clean fuel t calls = true →
      Follows fuel t M calls := by
  induction calls with
  | nil =>
    intro t M h _ hfuel _
    exact search_spec h hfuel
  | cons call calls ih =>
    intro t M h hwithin hfuel hclean
    obtain ⟨t', hrun, hrep, hfuel', hothers⟩ := h.first hwithin hfuel hclean
    exact ⟨search_spec h (by omega), t', hrun, ih hrep hwithin.2 hfuel' hothers⟩

/-- The map after the calls. -/
def mapAfter (M : Finmap (fun _ : K => V)) (calls : List (Call K V)) : Finmap (fun _ : K => V) :=
  calls.foldl (fun M call => (call.answer M).1) M

theorem Represents.after (fuel : ℕ) (calls : List (Call K V)) : ∀ {t : QRedBlackTree K V}
    {M : Finmap (fun _ : K => V)},
    Represents t M → Within M calls → M.keys.card + calls.length < fuel → Clean fuel t calls = true →
      ∃ t' rs, run fuel t calls = some (t', rs) ∧ Represents t' (mapAfter M calls) := by
  induction calls with
  | nil =>
    intro t M h _ _ _
    exact ⟨t, [], rfl, h⟩
  | cons call calls ih =>
    intro t M h hwithin hfuel hclean
    obtain ⟨t₁, hcall, hrep, hfuel', hothers⟩ := h.first hwithin hfuel hclean
    obtain ⟨t', rs, hrun, hlast⟩ := ih hrep hwithin.2 hfuel' hothers
    refine ⟨t', (call.answer M).2 :: rs, ?_, hlast⟩
    unfold run
    rw [hcall]
    dsimp only
    rw [hrun]

theorem within_of_length (calls : List (Call K V)) : ∀ {M : Finmap (fun _ : K => V)},
    ((M.keys.card + calls.length : ℕ) : ℤ) < MAX_TREE_SIZE → Within M calls := by
  induction calls with
  | nil =>
    intro M h
    exact h
  | cons call calls ih =>
    intro M h
    have hcard := card_answer_le M call
    rw [length_cons] at h
    refine ⟨by omega, ih ?_⟩
    omega

/-! ## §5. More fuel changes nothing. -/

omit [LinearOrder K] in
theorem InsertFixup_mono (fuel : ℕ) : ∀ {k : ℕ} {t t' : QRedBlackTree K V} {node : ℕ},
    t.InsertFixup fuel node = some t' → fuel ≤ k → t.InsertFixup k node = some t' := by
  induction fuel with
  | zero =>
    intro k t t' node h _
    cases h
  | succ fuel ih =>
    intro k t t' node h hle
    obtain ⟨k, rfl⟩ : ∃ j, k = j + 1 := ⟨k - 1, by omega⟩
    rw [QRedBlackTree.InsertFixup] at h ⊢
    dsimp only at h ⊢
    generalize (if t.parent node = t.left (t.parent (t.parent node)) then Side.left else Side.right) = d at h ⊢
    split_ifs at h ⊢
    · exact ih h (by omega)
    · exact h
    · exact h

omit [LinearOrder K] in
theorem DeleteFixup_mono (fuel : ℕ) : ∀ {k : ℕ} {t t' : QRedBlackTree K V} {node : ℕ},
    t.DeleteFixup fuel node = some t' → fuel ≤ k → t.DeleteFixup k node = some t' := by
  induction fuel with
  | zero =>
    intro k t t' node h _
    cases h
  | succ fuel ih =>
    intro k t t' node h hle
    obtain ⟨k, rfl⟩ : ∃ j, k = j + 1 := ⟨k - 1, by omega⟩
    rw [QRedBlackTree.DeleteFixup] at h ⊢
    split_ifs at h ⊢
    · exact ih h (by omega)
    · exact h

omit [LinearOrder K] in
theorem leftmost_mono (fuel : ℕ) : ∀ {k : ℕ} {t : QRedBlackTree K V} {p q : ℕ},
    t.leftmost fuel p = some q → fuel ≤ k → t.leftmost k p = some q := by
  induction fuel with
  | zero =>
    intro k t p q h _
    cases h
  | succ fuel ih =>
    intro k t p q h hle
    obtain ⟨k, rfl⟩ : ∃ j, k = j + 1 := ⟨k - 1, by omega⟩
    rw [QRedBlackTree.leftmost] at h ⊢
    split_ifs at h ⊢
    · exact ih h (by omega)
    · exact h

theorem locate_mono (fuel : ℕ) : ∀ {k : ℕ} {t : QRedBlackTree K V} {key : K} {p q : ℕ} {r : ℕ × ℕ},
    t.locate key fuel p q = some r → fuel ≤ k → t.locate key k p q = some r := by
  induction fuel with
  | zero =>
    intro k t key p q r h _
    cases h
  | succ fuel ih =>
    intro k t key p q r h hle
    obtain ⟨k, rfl⟩ : ∃ j, k = j + 1 := ⟨k - 1, by omega⟩
    rw [QRedBlackTree.locate] at h ⊢
    split_ifs at h ⊢
    · exact h
    · exact h
    · exact ih h (by omega)
    · exact ih h (by omega)

theorem insert_mono {cover_flag : Bool} {r : QRedBlackTree K V × ℤ}
    (h : t.insert fuel key value cover_flag count_flag = some r) (hle : fuel ≤ k) :
    t.insert k key value cover_flag count_flag = some r := by
  unfold QRedBlackTree.insert at h ⊢
  by_cases hfull : MAX_TREE_SIZE < t.node_num
  · rw [if_pos hfull] at h ⊢
    exact h
  rw [if_neg hfull] at h ⊢
  cases hlocate : t.locate key fuel t.m_root m_leaf with
  | none =>
    rw [hlocate] at h
    cases h
  | some place =>
    rw [locate_mono fuel hlocate hle]
    rw [hlocate] at h
    dsimp only at h ⊢
    by_cases hcur : place.1 ≠ m_leaf
    · rw [if_pos hcur] at h ⊢
      exact h
    rw [if_neg hcur] at h ⊢
    cases hfix : (t.attach key value place.2).InsertFixup fuel t.next with
    | none =>
      rw [hfix] at h
      cases h
    | some t' =>
      rw [InsertFixup_mono fuel hfix hle]
      rw [hfix] at h
      exact h

theorem remove_mono {r : QRedBlackTree K V × ℤ} (h : t.remove fuel key count_flag = some r) (hle : fuel ≤ k) :
    t.remove k key count_flag = some r := by
  have hdelmono : ∀ {t : QRedBlackTree K V} {node del : ℕ},
      t.delNode fuel node = some del → t.delNode k node = some del := by
    intro t node del hdel
    unfold QRedBlackTree.delNode at hdel ⊢
    split_ifs at hdel ⊢
    · exact hdel
    · exact leftmost_mono fuel hdel hle
  unfold QRedBlackTree.remove at h ⊢
  cases hlocate : t.locate key fuel t.m_root m_leaf with
  | none =>
    rw [hlocate] at h
    cases h
  | some place =>
    rw [locate_mono fuel hlocate hle]
    rw [hlocate] at h
    dsimp only at h ⊢
    generalize (if count_flag = true then
      t.write place.1 (fun n => { n with count := n.count - 1 }) else t) = t1 at h ⊢
    split_ifs at h ⊢
    · exact h
    · exact h
    · cases hdel : t1.delNode fuel place.1 with
      | none =>
        rw [hdel] at h
        cases h
      | some del =>
        rw [hdelmono hdel]
        rw [hdel] at h
        dsimp only at h ⊢
        by_cases hblack : t1.color del = BLACK
        · rw [if_pos hblack] at h ⊢
          cases hfix : (t1.unlink place.1 del).DeleteFixup fuel (t1.curNode del) with
          | none =>
            rw [hfix] at h
            cases h
          | some t' =>
            rw [DeleteFixup_mono fuel hfix hle]
            rw [hfix] at h
            exact h
        · rw [if_neg hblack] at h ⊢
          exact h

/-- **MORE FUEL** gives the same run. -/
theorem run_mono (hle : fuel ≤ k) (calls : List (Call K V)) : ∀ {t : QRedBlackTree K V}
    {r : QRedBlackTree K V × List ℤ}, run fuel t calls = some r → run k t calls = some r := by
  induction calls with
  | nil =>
    intro t r h
    exact h
  | cons call calls ih =>
    intro t r h
    unfold run at h ⊢
    cases hcall : call.run fuel t with
    | none =>
      rw [hcall] at h
      cases h
    | some one =>
      have hcall' : call.run k t = some one := by
        cases call with
        | insert key value cover_flag => exact insert_mono hcall hle
        | remove key => exact remove_mono hcall hle
      rw [hcall']
      rw [hcall] at h
      dsimp only at h ⊢
      cases hrest : run fuel one.1 calls with
      | none =>
        rw [hrest] at h
        cases h
      | some rest =>
        rw [ih hrest]
        rw [hrest] at h
        exact h

/-- A run that gets stuck in its second part. -/
theorem run_append_none {b : List (Call K V)} (a : List (Call K V)) : ∀ {t t' : QRedBlackTree K V}
    {rs : List ℤ}, run fuel t a = some (t', rs) → run fuel t' b = none → run fuel t (a ++ b) = none := by
  induction a with
  | nil =>
    intro t t' rs h hb
    cases h
    exact hb
  | cons call a ih =>
    intro t t' rs h hb
    rw [cons_append]
    unfold run at h ⊢
    cases hcall : call.run fuel t with
    | none => rfl
    | some one =>
      rw [hcall] at h
      dsimp only at h ⊢
      cases hrest : run fuel one.1 a with
      | none =>
        rw [hrest] at h
        cases h
      | some rest =>
        rw [hrest] at h
        have hlast : rest.1 = t' := congrArg Prod.fst (Option.some.inj h)
        rw [← hlast] at hb
        rw [ih hrest hb]

/-- A history that follows the map has a run. -/
theorem run_of_follows (calls : List (Call K V)) : ∀ {t : QRedBlackTree K V} {M : Finmap (fun _ : K => V)},
    Follows fuel t M calls → ∃ r, run fuel t calls = some r := by
  induction calls with
  | nil =>
    intro t M _
    exact ⟨(t, []), rfl⟩
  | cons call calls ih =>
    intro t M h
    obtain ⟨-, t', hcall, hrest⟩ := h
    obtain ⟨r, hrun⟩ := ih hrest
    unfold run
    rw [hcall]
    dsimp only
    rw [hrun]
    exact ⟨_, rfl⟩

/-! ## §6. A red sentinel. -/

/-- The sentinel is red, and its own parent and child. -/
def RedLeaf (t : QRedBlackTree K V) : Prop :=
  t.color m_leaf = RED ∧ t.parent m_leaf = m_leaf ∧ t.left m_leaf = m_leaf ∧ t.right m_leaf = m_leaf

omit [LinearOrder K] in
theorem setColor_links (t : QRedBlackTree K V) (p q : ℕ) (c : NODE_COLOR) : (t.setColor p c).parent q = t.parent q ∧
    (t.setColor p c).left q = t.left q ∧ (t.setColor p c).right q = t.right q := by
  unfold QRedBlackTree.setColor QRedBlackTree.parent QRedBlackTree.left QRedBlackTree.right QRedBlackTree.write
  dsimp only
  split_ifs <;> exact ⟨rfl, rfl, rfl⟩

omit [LinearOrder K] in
theorem RedLeaf.setColor (h : RedLeaf t) (p q : ℕ) (c c' : NODE_COLOR) :
    RedLeaf (((t.setColor p c).setColor q c').setColor m_leaf RED) := by
  obtain ⟨-, hparent, hleft, hright⟩ := h
  obtain ⟨hparent1, hleft1, hright1⟩ := setColor_links t p m_leaf c
  obtain ⟨hparent2, hleft2, hright2⟩ := setColor_links (t.setColor p c) q m_leaf c'
  obtain ⟨hparent3, hleft3, hright3⟩ := setColor_links ((t.setColor p c).setColor q c') m_leaf m_leaf RED
  refine ⟨congrArg RBNode.color (write_self _ _ _), ?_, ?_, ?_⟩
  · rw [hparent3, hparent2, hparent1, hparent]
  · rw [hleft3, hleft2, hleft1, hleft]
  · rw [hright3, hright2, hright1, hright]

omit [LinearOrder K] in
/-- **THE LOOP DOES NOT END**: the uncle is the red sentinel, and so is every node
    after that. -/
theorem InsertFixup_redLeaf (fuel : ℕ) : ∀ {t : QRedBlackTree K V} {node : ℕ},
    RedLeaf t → t.color (t.parent node) = RED →
    (∀ d, (d = if t.parent node = t.left (t.parent (t.parent node)) then Side.left else Side.right) →
      t.child d.other (t.parent (t.parent node)) = m_leaf) → t.InsertFixup fuel node = none := by
  induction fuel with
  | zero =>
    intro t node _ _ _
    rfl
  | succ fuel ih =>
    intro t node hleaf hred huncle
    have hkeep : ((t.setColor (t.parent node) BLACK).setColor m_leaf BLACK).parent m_leaf = m_leaf := by
      rw [(setColor_links _ _ _ _).1, (setColor_links _ _ _ _).1, hleaf.2.1]
    have hnext := hleaf.setColor (t.parent node) m_leaf BLACK BLACK
    rw [QRedBlackTree.InsertFixup, if_pos hred]
    dsimp only
    rw [huncle _ rfl, if_pos hleaf.1, hkeep]
    obtain ⟨hcolor, hparent, hleft, hright⟩ := hnext
    refine ih ⟨hcolor, hparent, hleft, hright⟩ (by rw [hparent]; exact hcolor) ?_
    intro d _
    rw [hparent, hparent]
    cases d with
    | left => exact hright
    | right => exact hleft

/-! ## §7. The length of a search. -/

/-- The way down has no more rounds than the tree is high, whatever its keys are. -/
theorem locate_of_height (key : K) (s : RBTree (Label K V)) : ∀ {p q fuel : ℕ}, Holds t.heap p s →
    s.height < fuel → ∃ place, t.locate key fuel (ptr s) q = some place := by
  induction s with
  | leaf =>
    intro p q fuel _ hfuel
    obtain ⟨k, rfl⟩ : ∃ k, fuel = k + 1 := ⟨fuel - 1, by omega⟩
    exact ⟨_, if_pos rfl⟩
  | node c l x r ihl ihr =>
    intro p q fuel hs hfuel
    obtain ⟨hcell, hl, hr⟩ := hs
    obtain ⟨k, rfl⟩ : ∃ k, fuel = k + 1 := ⟨fuel - 1, by omega⟩
    have hheight : (node c l x r).height = max l.height r.height + 1 := rfl
    have hleft : t.left x.addr = ptr l := congrArg RBNode.left hcell
    have hright : t.right x.addr = ptr r := congrArg RBNode.right hcell
    show ∃ place, t.locate key (k + 1) x.addr q = some place
    rw [QRedBlackTree.locate, hleft, hright]
    split_ifs
    · exact ⟨_, rfl⟩
    · exact ⟨_, rfl⟩
    · exact ihl hl (by omega)
    · exact ihr hr (by omega)

/-- A search needs twice the logarithm of the number of keys, and one round more. -/
theorem search_spec_log (h : Represents t M) (hfuel : 2 * Nat.log 2 (M.keys.card + 1) < fuel) : Agrees fuel t M := by
  have hlong : Agrees (fuel + M.keys.card + 1) t M := search_spec h (by omega)
  obtain ⟨T, hbal, hlists⟩ := h
  obtain ⟨n, hrb⟩ := hbal.balanced
  have hheight := hrb.height_le_log hbal.root_black
  rw [← card_eq hbal hlists] at hheight
  refine ⟨fun key => ?_, hlong.2⟩
  obtain ⟨place, hplace⟩ := locate_of_height key T (q := m_leaf) hbal.shape.holds (hheight.trans_lt hfuel)
  rw [← hbal.shape.root] at hplace
  rw [← hlong.1 key]
  unfold QRedBlackTree.search
  rw [hplace, locate_mono _ hplace (by omega)]

/-- Memory full of zeroes. -/
def blankNodes : ℕ → RBNode ℕ ℕ := fun _ => ⟨RED, 0, 0, 0, 0, 0, 0⟩

/-- **SEARCHES ARE LOGARITHMIC** after every history whose removals find no red brother
    of a right child. -/
theorem search_logarithmic (memory : ℕ → RBNode K V) (calls : List (Call K V)) (hwithin : Within ∅ calls) {fuel : ℕ}
    (hfuel : calls.length < fuel) (hclean : Clean fuel (QRedBlackTree.new memory) calls = true) :
    ∃ t rs, run fuel (QRedBlackTree.new memory) calls = some (t, rs) ∧
      ∀ rounds, 2 * Nat.log 2 ((mapAfter ∅ calls).keys.card + 1) < rounds →
        Agrees rounds t (mapAfter ∅ calls) := by
  obtain ⟨t, rs, hrun, hrep⟩ := (represents_new memory).after fuel calls hwithin (by
    rw [Finmap.keys_empty, Finset.card_empty]
    omega) hclean
  exact ⟨t, rs, hrun, fun rounds hrounds => search_spec_log hrep hrounds⟩

/-- Seven keys in their order. -/
def sevenCalls : List (Call ℕ ℕ) := (List.range 7).map fun key => .insert key key false

theorem search_logarithmic_seven :
    ∃ t rs, run 8 (QRedBlackTree.new blankNodes) sevenCalls = some (t, rs) ∧
      ∀ rounds, 2 * Nat.log 2 ((mapAfter ∅ sevenCalls).keys.card + 1) < rounds → Agrees rounds t (mapAfter ∅ sevenCalls) :=
  search_logarithmic blankNodes sevenCalls
    (within_of_length _ (by rw [Finmap.keys_empty, Finset.card_empty]; decide)) (by decide) (by decide)

/-! ## §8. The results. -/

/-- **THE TREE IS THE MAP** in every state of a history whose removals find no red
    brother of a right child. -/
theorem map_of_history (memory : ℕ → RBNode K V) (calls : List (Call K V)) (hwithin : Within ∅ calls) {fuel : ℕ}
    (hfuel : calls.length < fuel) (hclean : Clean fuel (QRedBlackTree.new memory) calls = true) :
    Follows fuel (QRedBlackTree.new memory) ∅ calls := by
  refine (represents_new memory).follows fuel calls hwithin ?_ hclean
  rw [Finmap.keys_empty, Finset.card_empty]
  omega

/-- A history with a removal that comes to the two harmless comparisons. -/
theorem map_of_history_small :
    Follows 7 (QRedBlackTree.new blankNodes) ∅
      [.insert 10 1 false, .insert 5 2 false, .insert 15 3 false, .insert 7 4 false, .remove 15, .insert 5 21 true] :=
  map_of_history blankNodes _ (within_of_length _ (by rw [Finmap.keys_empty, Finset.card_empty]; decide)) (by decide)
    (by decide)

/-- The removal of 10 finds the red brother 7 and leaves a red root; the
    insertion of 4 rotates around the sentinel and leaves it red. -/
def nineCalls : List (Call ℕ ℕ) :=
  [.insert 9 0 false, .insert 10 0 false, .insert 7 0 false, .insert 8 0 false, .insert 2 0 false, .insert 6 0 false,
    .insert 1 0 false, .remove 10, .insert 4 0 false]

/-- What the nine calls leave: the next insertion goes below node 8, to node 9. -/
theorem nine_calls : ∃ t, run 20 (QRedBlackTree.new blankNodes) nineCalls = some (t, [0, 0, 0, 0, 0, 0, 0, 0, 0]) ∧
    t.node_num ≤ MAX_TREE_SIZE ∧ t.locate 5 20 t.m_root m_leaf = some (m_leaf, 8) ∧ t.next = 9 ∧
      RedLeaf (t.attach 5 0 8) ∧ (t.attach 5 0 8).color ((t.attach 5 0 8).parent 9) = RED ∧
      (t.attach 5 0 8).parent 9 = (t.attach 5 0 8).left ((t.attach 5 0 8).parent ((t.attach 5 0 8).parent 9)) ∧
      (t.attach 5 0 8).right ((t.attach 5 0 8).parent ((t.attach 5 0 8).parent 9)) = m_leaf := by
  have hrun : (match run 20 (QRedBlackTree.new blankNodes) nineCalls with
      | none => false
      | some (t, rs) => decide (rs = [0, 0, 0, 0, 0, 0, 0, 0, 0] ∧ t.node_num ≤ MAX_TREE_SIZE ∧
          t.locate 5 20 t.m_root m_leaf = some (m_leaf, 8) ∧ t.next = 9 ∧
          ((t.attach 5 0 8).color m_leaf = RED ∧ (t.attach 5 0 8).parent m_leaf = m_leaf ∧
            (t.attach 5 0 8).left m_leaf = m_leaf ∧ (t.attach 5 0 8).right m_leaf = m_leaf) ∧
          (t.attach 5 0 8).color ((t.attach 5 0 8).parent 9) = RED ∧
          (t.attach 5 0 8).parent 9 = (t.attach 5 0 8).left ((t.attach 5 0 8).parent ((t.attach 5 0 8).parent 9)) ∧
          (t.attach 5 0 8).right ((t.attach 5 0 8).parent ((t.attach 5 0 8).parent 9)) = m_leaf)) = true := by
    decide
  cases hcalls : run 20 (QRedBlackTree.new blankNodes) nineCalls with
  | none =>
    rw [hcalls] at hrun
    cases hrun
  | some r =>
    rw [hcalls] at hrun
    obtain ⟨hrs, hrest⟩ := of_decide_eq_true hrun
    exact ⟨r.1, by rw [← hrs], hrest⟩

/-- **AN INSERTION DOES NOT RETURN**: nine calls return 0, and the tenth, of a new
    key, has no end. -/
theorem insert_never_ends :
    Within ∅ (nineCalls ++ [.insert 5 0 false]) ∧
      (∃ t, run 20 (QRedBlackTree.new blankNodes) nineCalls = some (t, [0, 0, 0, 0, 0, 0, 0, 0, 0])) ∧
      ∀ fuel, run fuel (QRedBlackTree.new blankNodes) (nineCalls ++ [.insert 5 0 false]) = none ∧
        ¬ Follows fuel (QRedBlackTree.new blankNodes) ∅ (nineCalls ++ [.insert 5 0 false]) := by
  obtain ⟨t, hrun, hnum, hlocate, hnext, hleaf, hred, hside, huncle⟩ := nine_calls
  have hnone : ∀ fuel, run fuel (QRedBlackTree.new blankNodes) (nineCalls ++ [.insert 5 0 false]) = none := by
    intro fuel
    have hten : run (fuel + 20) (QRedBlackTree.new blankNodes) (nineCalls ++ [.insert 5 0 false]) = none := by
      have hinsert : t.insert (fuel + 20) 5 0 false false = none := by
        have hloop : (t.attach 5 0 8).InsertFixup (fuel + 20) t.next = none := by
          rw [hnext]
          refine InsertFixup_redLeaf _ hleaf hred ?_
          intro d hd
          rw [if_pos hside] at hd
          rw [hd]
          exact huncle
        unfold QRedBlackTree.insert
        rw [if_neg (not_lt.mpr hnum), locate_mono 20 hlocate (Nat.le_add_left _ _)]
        dsimp only
        rw [if_neg (not_not_intro rfl), hloop]
      refine run_append_none nineCalls (run_mono (Nat.le_add_left _ _) _ hrun) ?_
      unfold run Call.run
      dsimp only
      rw [hinsert]
    cases hshort : run fuel (QRedBlackTree.new blankNodes) (nineCalls ++ [.insert 5 0 false]) with
    | none => rfl
    | some r =>
      rw [run_mono (Nat.le_add_right fuel 20) _ hshort] at hten
      cases hten
  refine ⟨within_of_length _ (by rw [Finmap.keys_empty, Finset.card_empty]; decide), ⟨t, hrun⟩,
    fun fuel => ⟨hnone fuel, ?_⟩⟩
  intro hfollows
  obtain ⟨r, hsome⟩ := run_of_follows _ hfollows
  rw [hnone fuel] at hsome
  cases hsome

end RedBlackTree

end KalavaPir.Common
