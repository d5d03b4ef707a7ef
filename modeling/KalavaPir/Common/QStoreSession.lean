/-
  KalavaPir.Common.QStoreSession — a session of a store.

  A session opens the store and adds entries, in whatever collision pattern.
  To its user the store is an association list in which the FIRST value of a
  key counts; the functions refine it as long as the overflow buckets that are
  opened are not in use already.  In the session that created the file this is
  so: the overflow counter is the number of buckets opened.
-/
import Mathlib.Algebra.BigOperators.Ring.Finset
import Mathlib.Algebra.Order.BigOperators.Group.Finset
import KalavaPir.Common.QStoreSearch

namespace KalavaPir.Common

open KalavaPir.Framework List

/-! ## §1. The first value counts. -/

section Table

variable {α β : Type} [DecidableEq α]

/-- A known key keeps its value. -/
def insertNew (es : List (α × β)) (e : α × β) : List (α × β) :=
  if e.1 ∈ es.map Prod.fst then es else es ++ [e]

/-- What a session has stored. -/
def table (ads : List (α × β)) : List (α × β) := ads.foldl insertNew []

theorem table_append (ads bds : List (α × β)) : table (ads ++ bds) = bds.foldl insertNew (table ads) :=
  foldl_append

theorem lookup_insertNew (es : List (α × β)) (e : α × β) (key : α) :
    (insertNew es e).lookup key = (es ++ [e]).lookup key := by
  unfold insertNew
  by_cases hmem : e.1 ∈ es.map Prod.fst
  · rw [if_pos hmem, lookup_append]
    cases hold : es.lookup key with
    | some v => rfl
    | none =>
      -- the key of `e` is there, so this is another one
      rw [lookup_eq_none_iff] at hold
      have hne : (key == e.1) = false := by
        obtain ⟨e', he', heq⟩ := mem_map.mp hmem
        have := hold e' he'
        rw [← heq]
        simpa using this
      rw [lookup_cons, hne]
      rfl
  · rw [if_neg hmem]

/-- **The table answers like the list of all adds.** -/
theorem lookup_foldl_insertNew (ads : List (α × β)) : ∀ (es : List (α × β)) (key : α),
    (ads.foldl insertNew es).lookup key = (es ++ ads).lookup key := by
  induction ads with
  | nil =>
    intro es key
    rw [append_nil]
    rfl
  | cons e ads ih =>
    intro es key
    rw [foldl_cons, ih, lookup_append, lookup_insertNew, ← lookup_append,
      append_assoc]
    rfl

theorem lookup_table (ads : List (α × β)) (key : α) : (table ads).lookup key = ads.lookup key :=
  lookup_foldl_insertNew ads [] key

theorem length_insertNew (es : List (α × β)) (e : α × β) : (insertNew es e).length ≤ es.length + 1 := by
  unfold insertNew
  split
  · exact Nat.le_succ _
  · rw [length_append, length_singleton]

theorem length_foldl_insertNew (ads : List (α × β)) : ∀ es : List (α × β),
    (ads.foldl insertNew es).length ≤ es.length + ads.length := by
  induction ads with
  | nil => exact fun es => Nat.le_refl _
  | cons e ads ih =>
    intro es
    have hone := length_insertNew es e
    have hrest := ih (insertNew es e)
    rw [foldl_cons, length_cons]
    omega

theorem mem_of_lookup {es : List (α × β)} {key : α} {v : β} (h : es.lookup key = some v) : (key, v) ∈ es := by
  obtain ⟨as, bs, rfl, _⟩ := lookup_eq_some_iff.mp h
  exact mem_append_right as mem_cons_self

end Table

/-- Adds, one after the other. -/
def QStoreManager.addAll (fuel : ℕ) : QStoreManager → List StoreEntry → Option QStoreManager
  | st, [] => some st
  | st, e :: ads =>
    match st.addKey fuel e with
    | none => none
    | some (_, st) => addAll fuel st ads

namespace Layout

variable {lay : Layout} {st : QStoreManager} {es : List StoreEntry} {chain : ℕ → List ℕ} {used : Set ℕ}

/-! ## §2. Counting buckets. -/

/-- The length of a chain of `n` entries. -/
def chainLen (lay : Layout) (n : ℕ) : ℕ := 1 + (n - 1) / lay.bucketSize

/-- The number of overflow buckets that entries take. -/
def overflow (lay : Layout) (es : List StoreEntry) : ℕ :=
  ∑ j ∈ Finset.range lay.bucketNum, ((lay.entries es j).length - 1) / lay.bucketSize

/-- No chain is longer than it has to be. -/
def Tight (lay : Layout) (es : List StoreEntry) (chain : ℕ → List ℕ) : Prop :=
  ∀ j < lay.bucketNum, (chain j).length = lay.chainLen (lay.entries es j).length

variable {n fuel : ℕ} {cs : List ℕ} {e : StoreEntry}

theorem chainLen_of_lt (h : n < lay.bucketSize * lay.chainLen n) : lay.chainLen (n + 1) = lay.chainLen n := by
  have hpos := lay.bucketSize_pos
  unfold chainLen at h ⊢
  have hdiv : n / lay.bucketSize = (n - 1) / lay.bucketSize := by
    apply Nat.le_antisymm
    · rw [← Nat.lt_succ_iff, Nat.div_lt_iff_lt_mul hpos]
      rw [Nat.mul_comm, Nat.add_comm] at h
      exact h
    · exact Nat.div_le_div_right (Nat.sub_le n 1)
  rw [Nat.add_sub_cancel, hdiv]

theorem chainLen_of_eq (h : n = lay.bucketSize * lay.chainLen n) :
    lay.chainLen (n + 1) = lay.chainLen n + 1 := by
  have hdiv : n / lay.bucketSize = lay.chainLen n := Nat.div_eq_of_eq_mul_right lay.bucketSize_pos h
  rw [chainLen, Nat.add_sub_cancel, hdiv, Nat.add_comm]

theorem chainLen_le (lay : Layout) (n : ℕ) : lay.chainLen n ≤ 1 + n := by
  have := Nat.div_le_self (n - 1) lay.bucketSize
  unfold chainLen
  omega

/-- The chain of a key is exactly full: the number of keys added to it is a
    multiple of the bucket size, not 0. -/
def ChainFull (lay : Layout) (es : List StoreEntry) (key : ℕ) : Prop :=
  0 < (lay.entries es (key % lay.bucketNum)).length ∧
    lay.bucketSize ∣ (lay.entries es (key % lay.bucketNum)).length

instance (lay : Layout) (es : List StoreEntry) (key : ℕ) : Decidable (lay.ChainFull es key) :=
  inferInstanceAs (Decidable (_ ∧ _))

theorem eq_chainLen_iff (lay : Layout) (n : ℕ) :
    n = lay.bucketSize * lay.chainLen n ↔ 0 < n ∧ lay.bucketSize ∣ n := by
  have hpos := lay.bucketSize_pos
  unfold chainLen
  constructor
  · intro heq
    have hle : lay.bucketSize * 1 ≤ lay.bucketSize * (1 + (n - 1) / lay.bucketSize) :=
      Nat.mul_le_mul_left _ (Nat.le_add_right 1 _)
    exact ⟨by omega, Dvd.intro _ heq.symm⟩
  · intro hboth
    obtain ⟨hn, m, rfl⟩ := hboth
    cases m with
    | zero => omega
    | succ m =>
      have hsub : lay.bucketSize * (m + 1) - 1 = lay.bucketSize * m + (lay.bucketSize - 1) := by
        rw [Nat.mul_succ]
        omega
      rw [hsub, Nat.mul_add_div hpos, Nat.div_eq_of_lt (by omega), show 1 + (m + 0) = m + 1 by omega]

/-- An entry changes the number of overflow buckets through its own chain. -/
theorem overflow_snoc (lay : Layout) (es : List StoreEntry) (e : StoreEntry) :
    lay.overflow (es ++ [e]) + lay.chainLen (lay.entries es (e.1 % lay.bucketNum)).length =
      lay.overflow es + lay.chainLen ((lay.entries es (e.1 % lay.bucketNum)).length + 1) := by
  have hmem : e.1 % lay.bucketNum ∈ Finset.range lay.bucketNum :=
    Finset.mem_range.mpr (lay.base_lt _)
  unfold overflow chainLen
  rw [← Finset.add_sum_erase _ _ hmem, ← Finset.add_sum_erase _ _ hmem]
  have hrest : ∀ j ∈ (Finset.range lay.bucketNum).erase (e.1 % lay.bucketNum),
      ((lay.entries (es ++ [e]) j).length - 1) / lay.bucketSize =
        ((lay.entries es j).length - 1) / lay.bucketSize := by
    intro j hj
    rw [entries_append, if_neg (Finset.ne_of_mem_erase hj).symm]
  rw [Finset.sum_congr rfl hrest, entries_append, if_pos rfl, length_append,
    length_singleton]
  omega

theorem overflow_le_snoc (lay : Layout) (es : List StoreEntry) (e : StoreEntry) :
    lay.overflow es ≤ lay.overflow (es ++ [e]) := by
  have hsnoc := lay.overflow_snoc es e
  have hmono : lay.chainLen (lay.entries es (e.1 % lay.bucketNum)).length ≤
      lay.chainLen ((lay.entries es (e.1 % lay.bucketNum)).length + 1) :=
    Nat.add_le_add_left (Nat.div_le_div_right (by omega)) 1
  omega

theorem overflow_le_foldl (lay : Layout) (ads : List StoreEntry) : ∀ es : List StoreEntry,
    lay.overflow es ≤ lay.overflow (ads.foldl insertNew es) := by
  induction ads with
  | nil => exact fun es => Nat.le_refl _
  | cons e ads ih =>
    intro es
    have hone : lay.overflow es ≤ lay.overflow (insertNew es e) := by
      unfold insertNew
      split
      · exact Nat.le_refl _
      · exact lay.overflow_le_snoc es e
    exact Nat.le_trans hone (ih (insertNew es e))

/-- Every entry is in one of the chains. -/
theorem length_eq_sum_entries (lay : Layout) (es : List StoreEntry) :
    es.length = ∑ j ∈ Finset.range lay.bucketNum, (lay.entries es j).length := by
  induction es with
  | nil => simp [entries]
  | cons e es ih =>
    have hmem : e.1 % lay.bucketNum ∈ Finset.range lay.bucketNum :=
      Finset.mem_range.mpr (lay.base_lt _)
    have hone : ∀ j, (lay.entries (e :: es) j).length =
        (if e.1 % lay.bucketNum = j then 1 else 0) + (lay.entries es j).length := by
      intro j
      unfold entries
      by_cases hj : e.1 % lay.bucketNum = j
      · rw [filter_cons_of_pos (by simpa using hj), if_pos hj, length_cons, Nat.add_comm]
      · rw [filter_cons_of_neg (by simpa using hj), if_neg hj, Nat.zero_add]
    rw [Finset.sum_congr rfl (fun j _ => hone j), Finset.sum_add_distrib, ← ih,
      Finset.sum_ite_eq, if_pos hmem, length_cons, Nat.add_comm]

/-- Lists without repetitions and without common elements. -/
theorem card_lists {N : ℕ} {f : ℕ → List ℕ} (hnd : ∀ j < N, (f j).Nodup)
    (hap : ∀ i < N, ∀ j < N, i ≠ j → ∀ b ∈ f i, b ∉ f j) :
    ((Finset.range N).biUnion (fun j => (f j).toFinset)).card = ∑ j ∈ Finset.range N, (f j).length := by
  have hdisj : ((Finset.range N : Finset ℕ) : Set ℕ).PairwiseDisjoint (fun j => (f j).toFinset) := by
    intro i hi j hj hij
    rw [Function.onFun, Finset.disjoint_left]
    intro b hbi hbj
    rw [mem_toFinset] at hbi hbj
    exact hap i (Finset.mem_range.mp hi) j (Finset.mem_range.mp hj) hij b hbi hbj
  rw [Finset.card_biUnion hdisj]
  apply Finset.sum_congr rfl
  intro j hj
  exact toFinset_card_of_nodup (hnd j (Finset.mem_range.mp hj))

/-- Buckets that begin below 2³¹ are few, and chains do not share any. -/
theorem Rep.sum_chains (h : lay.Rep st es chain used) (hr : lay.InRange used) :
    ∑ j ∈ Finset.range lay.bucketNum, (chain j).length ≤ 2 ^ 31 / lay.bucketLen + 1 := by
  have hsub : (Finset.range lay.bucketNum).biUnion (fun j => (chain j).toFinset) ⊆
      Finset.range (2 ^ 31 / lay.bucketLen + 1) := by
    intro b hb
    rw [Finset.mem_biUnion] at hb
    obtain ⟨j, hj, hbj⟩ := hb
    rw [mem_toFinset] at hbj
    have hlt := (h.walkable hr (Finset.mem_range.mp hj)).below b hbj
    have hpos : 0 < lay.bucketLen := Nat.succ_pos _
    rw [Finset.mem_range, Nat.lt_succ_iff, Nat.le_div_iff_mul_le hpos]
    unfold pos at hlt
    omega
  rw [← card_lists h.nodup h.apart]
  exact Nat.le_trans (Finset.card_le_card hsub) (Nat.le_of_eq (Finset.card_range _))

/-- **The data file stays below 2⁶³ bytes.** -/
theorem Rep.room (h : lay.Rep st es chain used) (hr : lay.InRange used) : es.length * maxRecord < 2 ^ 63 := by
  have hchains := h.sum_chains hr
  have hlen : es.length ≤ lay.bucketSize * (2 ^ 31 / lay.bucketLen + 1) := by
    rw [lay.length_eq_sum_entries]
    refine Nat.le_trans (Finset.sum_le_sum (g := fun j => lay.bucketSize * (chain j).length) ?_) ?_
    · intro j hj
      have hle := h.entries_le (Finset.mem_range.mp hj)
      rwa [length_chainSlots] at hle
    · rw [← Finset.mul_sum]
      exact Nat.mul_le_mul_left _ hchains
  have hsize : 9 * lay.bucketSize ≤ lay.bucketLen := by
    have := Nat.mul_le_mul_right lay.bucketSize lay.nine_le_elementLen
    unfold bucketLen
    omega
  have hlt : lay.bucketLen < 2 ^ 31 := lay.bucketLen_lt
  have hdiv : 9 * (lay.bucketSize * (2 ^ 31 / lay.bucketLen)) ≤ 2 ^ 31 := by
    calc 9 * (lay.bucketSize * (2 ^ 31 / lay.bucketLen))
        = 9 * lay.bucketSize * (2 ^ 31 / lay.bucketLen) := by rw [Nat.mul_assoc]
      _ ≤ lay.bucketLen * (2 ^ 31 / lay.bucketLen) := Nat.mul_le_mul_right _ hsize
      _ ≤ 2 ^ 31 := Nat.mul_div_le _ _
  rw [Nat.mul_add, Nat.mul_one] at hlen
  unfold maxRecord
  omega

/-! ## §3. One add. -/

/-- `addKey_FL` on a store with fixed values or none, `addKey_VL` on the
    others: the two differ in their codes and in what they append. -/
theorem addKey_eq (hfit : lay.Fits st) (e : StoreEntry) (hbelow : lay.pos (e.1 % lay.bucketNum) < 2 ^ 31) :
    ∃ codes, ∀ fuel, st.addKey fuel e = QStoreManager.addLoop codes e.1 (lay.record e.2) fuel st
      (lay.pos (e.1 % lay.bucketNum)) := by
  have hpos := hfit.base_position hbelow
  unfold QStoreManager.addKey QStoreManager.addKey_FL QStoreManager.addKey_VL
  rw [hfit.dataLen, hpos]
  by_cases hkind : 0 ≤ lay.dataLen
  · refine ⟨⟨-12, -15⟩, fun fuel => ?_⟩
    have hrec : st.record_FL e.2 = lay.record e.2 := by
      unfold QStoreManager.record_FL record
      rw [hfit.dataLen]
      by_cases hpos : lay.dataLen > 0
      · rw [if_pos hpos, if_pos hpos]
      · rw [if_neg hpos, if_neg hpos, if_pos (by omega)]
    rw [if_pos hkind, hrec]
  · refine ⟨⟨-13, -16⟩, fun fuel => ?_⟩
    have hrec : QStoreManager.record_VL e.2 = lay.record e.2 := by
      unfold record
      rw [if_neg (by omega), if_neg (by omega)]
    rw [if_neg hkind, hrec]

theorem Rep.chain_ne_nil (h : lay.Rep st es chain used) {j : ℕ} (hj : j < lay.bucketNum) : chain j ≠ [] := by
  obtain ⟨os, hos⟩ := h.base j hj
  rw [hos]
  exact cons_ne_nil j os

/-- **An add along the chain of its key.** -/
theorem addKey_walk (hfit : lay.Fits st) (e : StoreEntry) (hc : lay.Chain st.m_fpHash cs)
    (hbase : ∃ os, cs = e.1 % lay.bucketNum :: os) (hne : cs ≠ []) :
    ∃ codes, ∀ fuel, st.addKey (fuel + cs.length) e =
      match probe st.m_fpHash e.1 (lay.chainSlots cs) with
      | .hit _ => some (1, st)
      | .hole p => some (0, st.insertAt p e.1 (lay.record e.2))
      | .full => lay.openLoop codes e.1 (lay.record e.2) fuel st (cs.getLast hne) := by
  obtain ⟨os, rfl⟩ := hbase
  obtain ⟨codes, hadd⟩ := addKey_eq hfit e (hc.below _ mem_cons_self)
  refine ⟨codes, fun fuel => ?_⟩
  rw [hadd, length_cons]
  exact addLoop_walk hfit codes e.1 (lay.record e.2) os _ fuel hc

section

variable (h : lay.Rep st es chain used)
include h

theorem Rep.add_walk (hr : lay.InRange used) (e : StoreEntry) (hne : chain (e.1 % lay.bucketNum) ≠ []) :
    ∃ codes, ∀ fuel, st.addKey (fuel + (chain (e.1 % lay.bucketNum)).length) e =
      match probe st.m_fpHash e.1 (lay.chainSlots (chain (e.1 % lay.bucketNum))) with
      | .hit _ => some (1, st)
      | .hole p => some (0, st.insertAt p e.1 (lay.record e.2))
      | .full =>
        lay.openLoop codes e.1 (lay.record e.2) fuel st
          ((chain (e.1 % lay.bucketNum)).getLast hne) :=
  addKey_walk h.fits e (h.walkable hr (lay.base_lt e.1)) (h.base _ (lay.base_lt e.1)) hne

/-- A key that is there is left alone. -/
theorem Rep.add_present (hr : lay.InRange used) (hmem : e.1 ∈ es.map Prod.fst)
    (hfuel : (chain (e.1 % lay.bucketNum)).length ≤ fuel) : st.addKey fuel e = some (1, st) := by
  have hj := lay.base_lt e.1
  obtain ⟨codes, hadd⟩ := h.add_walk hr e (h.chain_ne_nil hj)
  obtain ⟨extra, rfl⟩ := Nat.exists_eq_add_of_le' hfuel
  obtain ⟨z, hz⟩ := h.keys _ hj
  obtain ⟨hne, hnd⟩ := h.entryKeys (e.1 % lay.bucketNum)
  have hkey : e.1 ∈ (lay.entries es (e.1 % lay.bucketNum)).map Prod.fst := by
    obtain ⟨e', he', heq⟩ := mem_map.mp hmem
    rw [← heq]
    exact mem_map_of_mem (mem_entries.mpr he')
  obtain ⟨i, hi⟩ := mem_iff_getElem?.mp hkey
  obtain ⟨p, _, hhit⟩ := probe_present _ _ z i hz hne hnd hi
  rw [hadd, hhit]

/-- What the probe finds for a new key: the first free place, if the chain is
    not full. -/
theorem Rep.probe_new (hv : lay.Addable e) (hnew : e.1 ∉ es.map Prod.fst) :
    ((lay.entries es (e.1 % lay.bucketNum)).length = (lay.chainSlots (chain (e.1 % lay.bucketNum))).length ∧
      probe st.m_fpHash e.1 (lay.chainSlots (chain (e.1 % lay.bucketNum))) = .full) ∨
    ∃ p, (lay.chainSlots (chain (e.1 % lay.bucketNum)))[
        (lay.entries es (e.1 % lay.bucketNum)).length]? = some p ∧
      probe st.m_fpHash e.1 (lay.chainSlots (chain (e.1 % lay.bucketNum))) = .hole p := by
  have hj := lay.base_lt e.1
  obtain ⟨z, hz⟩ := h.keys _ hj
  obtain ⟨hne, _⟩ := h.entryKeys (e.1 % lay.bucketNum)
  have hnot : e.1 ∉ (lay.entries es (e.1 % lay.bucketNum)).map Prod.fst := by
    intro hmem
    obtain ⟨e', he', heq⟩ := mem_map.mp hmem
    exact hnew (mem_map.mpr ⟨e', mem_of_mem_filter he', heq⟩)
  rcases probe_absent hv.key_ne _ _ z hz hne hnot with ⟨rfl, hfull⟩ | ⟨p, hp, hhole⟩
  · have hlen := congrArg List.length hz
    rw [length_map, length_append, length_map, length_replicate] at hlen
    exact Or.inl ⟨by omega, hfull⟩
  · rw [length_map] at hp
    exact Or.inr ⟨p, hp, hhole⟩

/-- **A new key goes into the first free place of its chain** … -/
theorem Rep.add_hole (hr : lay.InRange used) (hv : lay.Addable e) (hnew : e.1 ∉ es.map Prod.fst) {p : ℕ}
    (hp : (lay.chainSlots (chain (e.1 % lay.bucketNum)))[ (lay.entries es (e.1 % lay.bucketNum)).length]? = some p)
    (hhole : probe st.m_fpHash e.1 (lay.chainSlots (chain (e.1 % lay.bucketNum))) = .hole p)
    (hfuel : (chain (e.1 % lay.bucketNum)).length ≤ fuel) :
    st.addKey fuel e = some (0, st.insertAt p e.1 (lay.record e.2)) ∧
      lay.Rep (st.insertAt p e.1 (lay.record e.2)) (es ++ [e]) chain used := by
  have hj := lay.base_lt e.1
  obtain ⟨codes, hadd⟩ := h.add_walk hr e (h.chain_ne_nil hj)
  obtain ⟨extra, rfl⟩ := Nat.exists_eq_add_of_le' hfuel
  refine ⟨?_, h.insert hv hnew hp (h.room hr)⟩
  rw [hadd, hhole]

end

theorem slots_cons (n : ℕ) :
    lay.slots n = lay.slot n 0 :: (List.range' 1 (lay.bucketSize - 1)).map (lay.slot n) := by
  rw [slots_from, show lay.bucketSize = lay.bucketSize - 1 + 1 from
    (Nat.sub_add_cancel lay.bucketSize_pos).symm, range'_succ]
  rfl

/-- … **or into the first place of a new bucket**, whatever was there.  Key 0
    equals the free place. -/
theorem addKey_opened (hfit : lay.Fits st) (e : StoreEntry) (hc : lay.Chain st.m_fpHash cs)
    (hbase : ∃ os, cs = e.1 % lay.bucketNum :: os) (hne : cs ≠ []) (hn : lay.NextBucket st n)
    (hfull : probe st.m_fpHash e.1 (lay.chainSlots cs) = .full) (hfuel : cs.length + 1 ≤ fuel) :
    st.addKey fuel e = some (if e.1 = 0 then (1, lay.opened st (cs.getLast hne))
      else (0, (lay.opened st (cs.getLast hne)).insertAt (lay.slot n 0) e.1 (lay.record e.2))) := by
  obtain ⟨codes, hadd⟩ := addKey_walk hfit e hc hbase hne
  obtain ⟨extra, rfl⟩ := Nat.exists_eq_add_of_le' hfuel
  have hcov : lay.Covered (lay.opened st (cs.getLast hne)).m_fpHash n := by
    have := opened_size (b := cs.getLast hne) hn hfit
    exact Nat.le_trans (Nat.le_max_right _ _) this
  have hzero : keyAt (lay.opened st (cs.getLast hne)).m_fpHash (lay.slot n 0) = 0 :=
    ((opened_fresh hn hfit).2 _ (by rw [slots_cons]; exact mem_cons_self)).1
  -- one more round, in the new bucket
  rw [show extra + (cs.length + 1) = extra + 1 + cs.length by omega, hadd, hfull]
  simp only [openLoop]
  rw [if_neg (by rw [hn.newPos hfit]; omega), hn.newPos hfit,
    addLoop_bucket (opened_fits hfit) codes e.1 (lay.record e.2) extra hcov]
  by_cases hkey : e.1 = 0
  · have hprobe : probe (lay.opened st (cs.getLast hne)).m_fpHash e.1 (lay.slots n) =
        .hit (lay.slot n 0) := by
      rw [slots_cons]
      exact probe_hit (by rw [hzero, hkey])
    rw [hprobe, if_pos hkey]
  have hprobe : probe (lay.opened st (cs.getLast hne)).m_fpHash e.1 (lay.slots n) =
      .hole (lay.slot n 0) := by
    rw [slots_cons]
    exact probe_hole (by rw [hzero]; exact Ne.symm hkey) hzero
  rw [hprobe, if_neg hkey]

theorem addKey_full (hfit : lay.Fits st) (hkey : e.1 ≠ 0) (hc : lay.Chain st.m_fpHash cs)
    (hbase : ∃ os, cs = e.1 % lay.bucketNum :: os) (hne : cs ≠ []) (hn : lay.NextBucket st n)
    (hfull : probe st.m_fpHash e.1 (lay.chainSlots cs) = .full) (hfuel : cs.length + 1 ≤ fuel) :
    st.addKey fuel e = some (0, (lay.opened st (cs.getLast hne)).insertAt
      (lay.slot n 0) e.1 (lay.record e.2)) := by
  rw [addKey_opened hfit e hc hbase hne hn hfull hfuel, if_neg hkey]

theorem Rep.add_full (h : lay.Rep st es chain used) (hr : lay.InRange used) (hv : lay.Addable e)
    (hn : lay.NextBucket st n) (hne : chain (e.1 % lay.bucketNum) ≠ [])
    (hfull : probe st.m_fpHash e.1 (lay.chainSlots (chain (e.1 % lay.bucketNum))) = .full)
    (hfuel : (chain (e.1 % lay.bucketNum)).length + 1 ≤ fuel) :
    st.addKey fuel e = some (0, (lay.opened st ((chain (e.1 % lay.bucketNum)).getLast hne)).insertAt
      (lay.slot n 0) e.1 (lay.record e.2)) :=
  addKey_full h.fits hv.key_ne (h.walkable hr (lay.base_lt e.1)) (h.base _ (lay.base_lt e.1)) hne hn
    hfull hfuel

theorem Rep.open_insert (h : lay.Rep st es chain used) (hr : lay.InRange used) (hv : lay.Addable e)
    (hnew : e.1 ∉ es.map Prod.fst) (hn : lay.NextBucket st n) (hbase : lay.bucketNum ≤ n) (hfree : n ∉ used)
    (hne : chain (e.1 % lay.bucketNum) ≠ [])
    (hlen : (lay.entries es (e.1 % lay.bucketNum)).length = (lay.chainSlots (chain (e.1 % lay.bucketNum))).length) :
    lay.Rep ((lay.opened st ((chain (e.1 % lay.bucketNum)).getLast hne)).insertAt
        (lay.slot n 0) e.1 (lay.record e.2)) (es ++ [e])
      (extend chain (e.1 % lay.bucketNum) n) (used ∪ {n}) := by
  have hj := lay.base_lt e.1
  refine (h.open_ hn hbase hfree hj hne).insert hv hnew ?_ (h.room hr)
  rw [extend_self, chainSlots_snoc, getElem?_append_right (Nat.le_of_eq hlen.symm), hlen,
    Nat.sub_self, slots_cons, getElem?_cons_zero]

/-! ## §4. What an add leaves alone. -/

/-- The elements of the buckets `B` that hold a key have kept their bytes, and
    a bucket that had an overflow bucket still has it. -/
structure Kept (lay : Layout) (B : Set ℕ) (st st' : QStoreManager) : Prop where
  element : ∀ b ∈ B, ∀ i < lay.bucketSize, keyAt st.m_fpHash (lay.slot b i) ≠ 0 →
    st'.m_fpHash.bytes (lay.slot b i) lay.elementLen = st.m_fpHash.bytes (lay.slot b i) lay.elementLen
  link : ∀ b ∈ B, lay.next st.m_fpHash b ≠ 0 → lay.next st'.m_fpHash b = lay.next st.m_fpHash b

section Kept

variable {B : Set ℕ} {st' st'' : QStoreManager}

theorem Kept.refl (lay : Layout) (B : Set ℕ) (st : QStoreManager) : lay.Kept B st st :=
  ⟨fun _ _ _ _ _ => rfl, fun _ _ _ => rfl⟩

theorem keyAt_congr {h h' : ByteFile} {p : ℕ}
    (heq : h'.bytes p lay.elementLen = h.bytes p lay.elementLen) : keyAt h' p = keyAt h p := by
  have hlen := lay.nine_le_elementLen
  rw [show lay.elementLen = 8 + (lay.elementLen - 8) by omega, ByteFile.bytes_add,
    ByteFile.bytes_add] at heq
  unfold keyAt
  rw [(append_inj heq (by rw [ByteFile.length_bytes, ByteFile.length_bytes])).1]

theorem Kept.trans (h : lay.Kept B st st') (h' : lay.Kept B st' st'') : lay.Kept B st st'' where
  element b hb i hi hkey := by
    have heq := h.element b hb i hi hkey
    exact (h'.element b hb i hi (by rwa [keyAt_congr heq])).trans heq
  link b hb hne := by
    have heq := h.link b hb hne
    exact (h'.link b hb (by rwa [heq])).trans heq

theorem insertAt_keyAt_other {a b p q : ℕ} (hq : q ∈ lay.slots a) (hp : p ∈ lay.slots b) (hne : q ≠ p)
    (key : ℕ) (v : List UInt8) :
    keyAt (st.insertAt p key (lay.record v)).m_fpHash q = keyAt st.m_fpHash q := by
  have hlen := lay.nine_le_elementLen
  obtain ⟨i, hi, rfl⟩ := lay.mem_slots.mp hq
  obtain ⟨j, hj, rfl⟩ := lay.mem_slots.mp hp
  have hdis := lay.slot_disjoint hi hj hne
  unfold keyAt
  rw [insertAt_bytes (by omega)]

/-- An element is written where there was none. -/
theorem kept_insertAt {p key : ℕ} {v : List UInt8} {cs : List ℕ} (hp : p ∈ lay.chainSlots cs)
    (hzero : keyAt st.m_fpHash p = 0) : lay.Kept B st (st.insertAt p key (lay.record v)) := by
  obtain ⟨c, _, k, hk, rfl⟩ := lay.mem_chainSlots.mp hp
  constructor
  · intro b _ i hi hkey
    have hne : lay.slot b i ≠ lay.slot c k := by
      intro heq
      exact hkey (heq ▸ hzero)
    exact insertAt_bytes (lay.slot_disjoint hi hk hne)
  · intro b _ _
    have := lay.slot_link_disjoint (b := c) (c := b) hk
    unfold next
    rw [insertAt_bytes (by omega)]

theorem linked_last {h : ByteFile} (cs : List ℕ) : ∀ x, lay.Linked h (x :: cs) →
    lay.next h ((x :: cs).getLast (cons_ne_nil x cs)) = 0 := by
  induction cs with
  | nil => exact fun x hl => hl
  | cons y cs ih =>
    intro x hl
    exact ih y hl.2

/-- A bucket is opened behind one that had no overflow bucket. -/
theorem kept_opened {n b : ℕ} (hn : lay.NextBucket st n) (hfit : lay.Fits st) (hfree : n ∉ B)
    (hlast : lay.next st.m_fpHash b = 0) : lay.Kept B st (lay.opened st b) := by
  constructor
  · intro x hx i hi _
    have hne : x ≠ n := by
      rintro rfl
      exact hfree hx
    exact opened_slot hn hfit hne hi (Nat.le_refl _) (Nat.le_refl _)
  · intro x hx hnext
    have hne : x ≠ n := by
      rintro rfl
      exact hfree hx
    have hxb : x ≠ b := by
      rintro rfl
      exact hnext hlast
    exact opened_link hn hfit hne hxb

end Kept

/-! ## §5. Sessions. -/

/-- The first `k` buckets that a session opens whose counter was `c`. -/
def opens (lay : Layout) (c : ℤ) (k : ℕ) : Set ℕ :=
  {b | (lay.bucketNum : ℤ) + c < b ∧ (b : ℤ) ≤ lay.bucketNum + c + k}

/-- These buckets can be opened: they are no base buckets, not among those in
    use, and begin below 2³¹. -/
structure Safe (lay : Layout) (used : Set ℕ) (c : ℤ) (k : ℕ) : Prop where
  base : k = 0 ∨ -1 ≤ c
  apart : ∀ b ∈ lay.opens c k, b ∉ used
  range : lay.InRange (used ∪ lay.opens c k)

/-- **The invariant of a session** on a file that had `k₀` overflow buckets,
    those in `used`; `k` buckets have been opened since. -/
structure Session (lay : Layout) (used : Set ℕ) (k₀ : ℕ) (c : ℤ) (k : ℕ) (st : QStoreManager)
    (es : List StoreEntry) : Prop where
  represented : ∃ chain, lay.Rep st es chain (used ∪ lay.opens c k) ∧ lay.Tight es chain
  range : lay.InRange (used ∪ lay.opens c k)
  counter : st.m_iBucketOverflowNum = c + k
  overflow : lay.overflow es = k₀ + k

/-- The same, with the chains named. -/
structure SessionAt (lay : Layout) (used : Set ℕ) (k₀ : ℕ) (c : ℤ) (k : ℕ) (st : QStoreManager)
    (es : List StoreEntry) (chain : ℕ → List ℕ) : Prop where
  rep : lay.Rep st es chain (used ∪ lay.opens c k)
  tight : lay.Tight es chain
  range : lay.InRange (used ∪ lay.opens c k)
  counter : st.m_iBucketOverflowNum = c + k
  overflow : lay.overflow es = k₀ + k

section Session

variable {k₀ k K fuel : ℕ} {c : ℤ}

theorem SessionAt.session (h : lay.SessionAt used k₀ c k st es chain) : lay.Session used k₀ c k st es :=
  ⟨⟨chain, h.rep, h.tight⟩, h.range, h.counter, h.overflow⟩

/-- The next bucket a session opens. -/
theorem Safe.next (hs : lay.Safe used c K) (hk : k < K) :
    ∃ n : ℕ, (n : ℤ) = lay.bucketNum + c + (k + 1 : ℕ) ∧ lay.bucketNum ≤ n ∧
      n ∉ used ∪ lay.opens c k ∧ lay.pos n < 2 ^ 31 := by
  have hc : -1 ≤ c := by
    rcases hs.base with h | h
    · omega
    · exact h
  obtain ⟨n, hn⟩ := Int.eq_ofNat_of_zero_le (a := lay.bucketNum + c + (k + 1 : ℕ)) (by omega)
  have hmem : n ∈ lay.opens c K := by
    show _ < _ ∧ _ ≤ _
    omega
  refine ⟨n, hn.symm, by omega, ?_, hs.range.2 n (Or.inr hmem)⟩
  rintro (hused | hopen)
  · exact hs.apart n hmem hused
  · have hle : (n : ℤ) ≤ lay.bucketNum + c + k := hopen.2
    omega

theorem Safe.range_le (hs : lay.Safe used c K) (hk : k ≤ K) : lay.InRange (used ∪ lay.opens c k) := by
  refine ⟨hs.range.1, ?_⟩
  intro b hb
  refine hs.range.2 b (Or.imp_right ?_ hb)
  intro hopen
  obtain ⟨hlo, hhi⟩ := hopen
  exact ⟨hlo, by omega⟩

theorem opens_succ {n : ℕ} (hn : (n : ℤ) = lay.bucketNum + c + (k + 1 : ℕ)) :
    used ∪ lay.opens c k ∪ {n} = used ∪ lay.opens c (k + 1) := by
  rw [Set.union_assoc]
  congr 1
  ext b
  show (_ < _ ∧ _ ≤ _) ∨ b = n ↔ _ < _ ∧ _ ≤ _
  omega

variable {e : StoreEntry}

theorem tight_snoc (ht : lay.Tight es chain)
    (hlt : (lay.entries es (e.1 % lay.bucketNum)).length < lay.bucketSize * lay.chainLen (lay.entries es (e.1 % lay.bucketNum)).length) :
    lay.Tight (es ++ [e]) chain := by
  intro j hj
  rw [entries_append]
  by_cases hkj : e.1 % lay.bucketNum = j
  · subst hkj
    rw [if_pos rfl, length_append, length_singleton, chainLen_of_lt hlt]
    exact ht _ hj
  · rw [if_neg hkj]
    exact ht j hj

theorem tight_extend (ht : lay.Tight es chain) (n : ℕ)
    (heq : (lay.entries es (e.1 % lay.bucketNum)).length = lay.bucketSize * lay.chainLen (lay.entries es (e.1 % lay.bucketNum)).length) :
    lay.Tight (es ++ [e]) (extend chain (e.1 % lay.bucketNum) n) := by
  intro j hj
  rw [entries_append]
  by_cases hkj : e.1 % lay.bucketNum = j
  · subst hkj
    rw [if_pos rfl, length_append, length_singleton, chainLen_of_eq heq, extend_self,
      length_append, length_singleton, ht _ hj]
  · rw [if_neg hkj, extend_of_ne chain n (Ne.symm hkj)]
    exact ht j hj

theorem Tight.length_le (ht : lay.Tight es chain) (key : ℕ) :
    (chain (key % lay.bucketNum)).length ≤ es.length + 1 := by
  have hlen := ht _ (lay.base_lt key)
  have hle := lay.chainLen_le (lay.entries es (key % lay.bucketNum)).length
  have hsub : (lay.entries es (key % lay.bucketNum)).length ≤ es.length := length_filter_le _ _
  omega

section

variable (h : lay.SessionAt used k₀ c k st es chain)
include h

/-- A new key for which there is a free place. -/
theorem SessionAt.add_place (hv : lay.Addable e) (hnew : e.1 ∉ es.map Prod.fst) {p : ℕ}
    (hp : (lay.chainSlots (chain (e.1 % lay.bucketNum)))[ (lay.entries es (e.1 % lay.bucketNum)).length]? = some p)
    (hhole : probe st.m_fpHash e.1 (lay.chainSlots (chain (e.1 % lay.bucketNum))) = .hole p) :
    lay.SessionAt used k₀ c k (st.insertAt p e.1 (lay.record e.2)) (es ++ [e]) chain ∧
      lay.Kept {b | b < lay.bucketNum ∨ b ∈ used} st (st.insertAt p e.1 (lay.record e.2)) := by
  have hj := lay.base_lt e.1
  have hlt := (List.getElem?_eq_some_iff.mp hp).1
  rw [length_chainSlots, h.tight _ hj] at hlt
  have hcount := lay.overflow_snoc es e
  rw [chainLen_of_lt hlt] at hcount
  have hk := h.overflow
  refine ⟨⟨h.rep.insert hv hnew hp (h.rep.room h.range), tight_snoc h.tight hlt, h.range, ?_, by omega⟩,
    kept_insertAt (List.mem_of_getElem? hp) (probe_hole_zero hhole)⟩
  rw [insertAt_overflowNum]
  exact h.counter

/-- A new key for which a bucket is opened. -/
theorem SessionAt.add_open (hs : lay.Safe used c K) (hk : k < K) (hv : lay.Addable e) (hnew : e.1 ∉ es.map Prod.fst)
    (hlen : (lay.entries es (e.1 % lay.bucketNum)).length = (lay.chainSlots (chain (e.1 % lay.bucketNum))).length)
    (hne : chain (e.1 % lay.bucketNum) ≠ []) :
    ∃ n, lay.NextBucket st n ∧ lay.bucketNum ≤ n ∧ n ∉ used ∪ lay.opens c k ∧
      lay.SessionAt used k₀ c (k + 1)
        ((lay.opened st ((chain (e.1 % lay.bucketNum)).getLast hne)).insertAt (lay.slot n 0) e.1
          (lay.record e.2)) (es ++ [e]) (extend chain (e.1 % lay.bucketNum) n) ∧
      lay.Kept {b | b < lay.bucketNum ∨ b ∈ used} st
        ((lay.opened st ((chain (e.1 % lay.bucketNum)).getLast hne)).insertAt (lay.slot n 0) e.1
          (lay.record e.2)) := by
  have hj := lay.base_lt e.1
  have hrep := h.rep
  have hchain : (lay.entries es (e.1 % lay.bucketNum)).length =
      lay.bucketSize * lay.chainLen (lay.entries es (e.1 % lay.bucketNum)).length := by
    rw [length_chainSlots, h.tight _ hj] at hlen
    exact hlen
  have hcount := lay.overflow_snoc es e
  rw [chainLen_of_eq hchain] at hcount
  have hover := h.overflow
  obtain ⟨n, hn, hbase, hfree, hbelow⟩ := hs.next hk
  have hnext : lay.NextBucket st n := ⟨by rw [h.counter]; omega, hbelow⟩
  have hrep' := hrep.open_insert h.range hv hnew hnext hbase hfree hne hlen
  rw [opens_succ hn] at hrep'
  have hlast : lay.next st.m_fpHash ((chain (e.1 % lay.bucketNum)).getLast hne) = 0 := by
    obtain ⟨os, hos⟩ := hrep.base _ hj
    have hl := hrep.linked _ hj
    simp only [hos] at hl ⊢
    exact linked_last os _ hl
  have hfirst : lay.slot n 0 ∈ lay.slots n := lay.mem_slots.mpr ⟨0, lay.bucketSize_pos, rfl⟩
  have hplace : lay.slot n 0 ∈ lay.chainSlots [n] :=
    lay.mem_chainSlots.mpr ⟨n, mem_singleton_self n, 0, lay.bucketSize_pos, rfl⟩
  refine ⟨n, hnext, hbase, hfree,
    ⟨hrep', tight_extend h.tight n hchain, hs.range_le hk, ?_, by omega⟩, ?_⟩
  · rw [insertAt_overflowNum, opened_counter hnext]
    omega
  · refine (kept_opened hnext hrep.fits ?_ hlast).trans (kept_insertAt hplace ?_)
    · rintro (hb | hb)
      · omega
      · exact hfree (Or.inl hb)
    · exact ((opened_fresh hnext hrep.fits).2 _ hfirst).1

theorem SessionAt.opens_left
    (hlen : (lay.entries es (e.1 % lay.bucketNum)).length = (lay.chainSlots (chain (e.1 % lay.bucketNum))).length)
    (hK : lay.overflow (es ++ [e]) ≤ k₀ + K) : k < K := by
  have hcount := lay.overflow_snoc es e
  rw [length_chainSlots, h.tight _ (lay.base_lt _)] at hlen
  rw [chainLen_of_eq hlen] at hcount
  have hover := h.overflow
  omega

end

/-- **ONE ADD OF A SESSION.** -/
theorem Session.add (h : lay.Session used k₀ c k st es) (hs : lay.Safe used c K) (hv : lay.Addable e)
    (hK : lay.overflow (insertNew es e) ≤ k₀ + K) (hfuel : es.length + 2 ≤ fuel) :
    ∃ k' st', st.addKey fuel e = some (if e.1 ∈ es.map Prod.fst then 1 else 0, st') ∧
      (e.1 ∈ es.map Prod.fst → st' = st) ∧ lay.Session used k₀ c k' st' (insertNew es e) ∧
      lay.Kept {b | b < lay.bucketNum ∨ b ∈ used} st st' := by
  obtain ⟨chain, hrep, ht⟩ := h.represented
  have hat : lay.SessionAt used k₀ c k st es chain := ⟨hrep, ht, h.range, h.counter, h.overflow⟩
  have hlength := ht.length_le e.1
  by_cases hmem : e.1 ∈ es.map Prod.fst
  · have hsame : insertNew es e = es := if_pos hmem
    rw [if_pos hmem, hsame]
    exact ⟨k, st, hrep.add_present h.range hmem (by omega), fun _ => rfl, h, Kept.refl _ _ _⟩
  have hins : insertNew es e = es ++ [e] := if_neg hmem
  rw [if_neg hmem, hins]
  rw [hins] at hK
  rcases hrep.probe_new hv hmem with ⟨hlen, hfull⟩ | ⟨p, hp, hhole⟩
  · have hne := hrep.chain_ne_nil (lay.base_lt e.1)
    obtain ⟨n, hn, _, _, hses, hkept⟩ :=
      hat.add_open hs (hat.opens_left hlen hK) hv hmem hlen hne
    have hadd := hrep.add_full h.range hv hn hne hfull
      (Nat.le_trans (Nat.succ_le_succ hlength) hfuel)
    exact ⟨k + 1, _, hadd, fun hm => absurd hm hmem, hses.session, hkept⟩
  · obtain ⟨hses, hkept⟩ := hat.add_place hv hmem hp hhole
    have hadd := (hrep.add_hole h.range hv hmem hp hhole (by omega : _ ≤ fuel)).1
    exact ⟨k, _, hadd, fun hm => absurd hm hmem, hses.session, hkept⟩

theorem opens_zero : lay.opens c 0 = ∅ := by
  apply Set.eq_empty_of_forall_notMem
  rintro b ⟨hlo, hhi⟩
  omega

/-- **A SEQUENCE OF ADDS.** -/
theorem Session.addAll (hs : lay.Safe used c K) (ads : List StoreEntry) :
    ∀ k st es, lay.Session used k₀ c k st es → (∀ e ∈ ads, lay.Addable e) →
    lay.overflow (ads.foldl insertNew es) ≤ k₀ + K → es.length + ads.length + 1 ≤ fuel →
    ∃ k' st', st.addAll fuel ads = some st' ∧
      lay.Session used k₀ c k' st' (ads.foldl insertNew es) ∧
      lay.Kept {b | b < lay.bucketNum ∨ b ∈ used} st st' := by
  induction ads with
  | nil =>
    intro k st es h _ _ _
    exact ⟨k, st, rfl, h, Kept.refl _ _ _⟩
  | cons e ads ih =>
    intro k st es h hv hK hfuel
    rw [length_cons] at hfuel
    have hone := length_insertNew es e
    have hle := lay.overflow_le_foldl ads (insertNew es e)
    have hfirst : es.length + 2 ≤ fuel := by omega
    obtain ⟨k', st', hadd, _, hses, hkept⟩ := h.add hs (hv e mem_cons_self)
      (Nat.le_trans hle hK) hfirst
    obtain ⟨k'', st'', hrest, hses', hkept'⟩ := ih k' st' (insertNew es e) hses
      (fun x hx => hv x (mem_cons_of_mem e hx)) hK (by omega)
    refine ⟨k'', st'', ?_, hses', hkept.trans hkept'⟩
    rw [QStoreManager.addAll, hadd]
    exact hrest

end Session

/-! ## §6. A new store. -/

section Create

open QStoreManager

theorem writeBuckets_eq (m : ℕ) (n : ℕ) : ∀ (p : ℕ) (f : ByteFile),
    writeBuckets (List.replicate m 0) (n + 1) p f = f.fwrite p (List.replicate ((n + 1) * m) 0) := by
  induction n with
  | zero =>
    intro p f
    rw [Nat.zero_add, Nat.one_mul]
    rfl
  | succ n ih =>
    intro p f
    have htwo := f.fwrite_append p (List.replicate m 0) (List.replicate ((n + 1) * m) 0)
    rw [replicate_append_replicate] at htwo
    rw [writeBuckets, ih, htwo, Nat.succ_mul (n + 1), Nat.add_comm]

theorem length_head (lay : Layout) : lay.head.length = m_iHeadLen := by
  rfl

/-- The file of a new store: the head, and zeros. -/
theorem create_hash (lay : Layout) (c : ℤ) : (create lay.bucketNum lay.bucketSize lay.dataLen c).m_fpHash =
      (ByteFile.empty.fwrite 0 lay.head).fwrite m_iHeadLen
        (List.replicate (lay.bucketNum * lay.bucketLen) 0) := by
  let st : QStoreManager :=
    { m_iDataLen := lay.dataLen, m_iBucketNum := lay.bucketNum, m_iBucketOverflowNum := c,
      m_iBucketSize := lay.bucketSize, m_fpHash := .empty, m_fpData := .empty }
  have hfit : lay.Fits st := ⟨rfl, rfl, rfl⟩
  have hhead : st.writeHead = ByteFile.empty.fwrite 0 lay.head := by
    have h₁ := ByteFile.empty.fwrite_append 0 (encode 8 I_STORE_FILE_MARK)
      (encodeInt 4 lay.bucketNum)
    have h₂ := ByteFile.empty.fwrite_append 0 (encode 8 I_STORE_FILE_MARK ++
      encodeInt 4 lay.bucketNum) (encodeInt 4 lay.bucketSize)
    have h₃ := ByteFile.empty.fwrite_append 0 (encode 8 I_STORE_FILE_MARK ++
      encodeInt 4 lay.bucketNum ++ encodeInt 4 lay.bucketSize) (encodeInt 4 lay.dataLen)
    unfold Layout.head
    rw [← h₃, ← h₂, ← h₁]
    rfl
  show writeBuckets st.m_pBucket (lay.bucketNum : ℤ).toNat m_iHeadLen st.writeHead = _
  obtain ⟨n, hn⟩ := Nat.exists_eq_succ_of_ne_zero (Nat.ne_of_gt lay.bucketNum_pos)
  rw [hfit.pBucket, hhead, Int.toNat_natCast, hn]
  exact writeBuckets_eq lay.bucketLen n m_iHeadLen _

theorem create_zeros (lay : Layout) (c : ℤ) {j q m : ℕ} (hj : j < lay.bucketNum) (hlo : lay.pos j ≤ q)
    (hhi : q + m ≤ lay.pos j + lay.bucketLen) :
    (create lay.bucketNum lay.bucketSize lay.dataLen c).m_fpHash.bytes q m = List.replicate m 0 := by
  have hend := lay.bucket_le_base hj
  have hpos := lay.head_le_pos j
  rw [create_hash]
  exact ByteFile.bytes_fwrite_zeros (by omega) (by omega)

/-- **A NEW STORE IS EMPTY.** -/
theorem Rep.create (lay : Layout) (c : ℤ) :
    lay.Rep (create lay.bucketNum lay.bucketSize lay.dataLen c) [] (fun j => [j]) ∅ := by
  have hlen := lay.nine_le_elementLen
  have hslot : ∀ j, ∀ p ∈ lay.chainSlots [j], lay.pos j ≤ p ∧
      p + lay.elementLen ≤ lay.pos j + lay.bucketLen := by
    intro j p hp
    obtain ⟨b, hb, i, hi, rfl⟩ := lay.mem_chainSlots.mp hp
    rw [mem_singleton.mp hb]
    have := lay.slot_add_le (b := j) hi
    have := lay.link_add j
    exact ⟨lay.pos_le_slot j i, by omega⟩
  constructor
  · exact ⟨rfl, rfl, rfl⟩
  · rw [create_hash, ByteFile.bytes_fwrite_of_disjoint (Or.inl (by omega)), ← lay.length_head]
    exact ByteFile.bytes_fwrite_self _ 0 lay.head
  · exact fun j _ => ⟨[], rfl⟩
  · exact fun j _ b hb => absurd hb (by simp)
  · exact fun j _ => nodup_singleton j
  · intro i _ j _ hij b hbi hbj
    exact hij ((mem_singleton.mp hbi).symm.trans (mem_singleton.mp hbj))
  · intro j hj
    have := lay.link_add j
    show lay.next _ j = 0
    unfold Layout.next
    rw [create_zeros lay c hj (lay.pos_le_link j) (by omega)]
    decide
  · intro j hj b hb
    rw [mem_singleton.mp hb]
    have := lay.bucket_le_base hj
    unfold Covered
    rw [create_hash, ByteFile.size_fwrite, length_replicate]
    omega
  · intro j hj
    refine ⟨lay.bucketSize, ?_⟩
    have hzero : ∀ p ∈ lay.chainSlots [j],
        keyAt (QStoreManager.create lay.bucketNum lay.bucketSize lay.dataLen c).m_fpHash p = 0 := by
      intro p hp
      have := hslot j p hp
      unfold keyAt
      rw [create_zeros lay c hj (by omega) (by omega)]
      exact decode_zeros 8
    unfold Holds
    rw [map_congr_left (g := fun _ => 0) hzero, map_const', length_chainSlots]
    simp [entries]
  · intro j hj p hp
    have := hslot j p hp
    rw [create_zeros lay c hj (by omega) (by omega)]
    rfl
  · intro j _ i p e _ he
    exact absurd he (by simp [entries])
  · exact nodup_nil
  · exact fun e he => absurd he (by simp)
  · exact Nat.zero_le _

theorem init_new (lay : Layout) (c : ℤ) : init none none lay.bucketNum lay.bucketSize lay.dataLen c =
      .ok (create lay.bucketNum lay.bucketSize lay.dataLen c) := by
  have hnum := lay.bucketNum_pos
  have hsize := lay.bucketSize_pos
  unfold QStoreManager.init
  rw [if_neg (by omega)]

theorem Session.create (lay : Layout) (c : ℤ) (hbase : lay.pos (lay.bucketNum - 1) < 2 ^ 31) :
    lay.Session ∅ 0 c 0 (create lay.bucketNum lay.bucketSize lay.dataLen c) [] := by
  refine ⟨⟨fun j => [j], ?_, ?_⟩, ⟨hbase, ?_⟩, ?_, ?_⟩
  · rw [opens_zero, Set.union_empty]
    exact Rep.create lay c
  · intro j _
    simp [chainLen, entries]
  · rw [opens_zero, Set.union_empty]
    exact fun b hb => absurd hb (Set.notMem_empty b)
  · exact (Int.add_zero c).symm
  · simp [Layout.overflow, entries]

end Create

/-! ## §7. What the user sees. -/

/-- **The store answers like the list of the adds so far**: a key that was
    added is found with the bytes of its first add, another one is missing.
    The chains have no cycle, and the loops that delete end too. -/
structure Answers (lay : Layout) (fuel : ℕ) (st : QStoreManager) (ads : List StoreEntry) : Prop where
  found : ∀ (key : ℕ) (v : List UInt8) (maxDataSize : ℤ), ads.lookup key = some v →
    v.length ≤ maxDataSize → st.searchKey fuel key maxDataSize = some (lay.answer v)
  missing : ∀ (key : ℕ) (maxDataSize : ℤ), key ≠ 0 → ads.lookup key = none →
    ∃ code < 0, st.searchKey fuel key maxDataSize = some (code, none)
  acyclic : ∀ j < lay.bucketNum, ∃ cs, lay.Linked st.m_fpHash (j :: cs) ∧ (j :: cs).Nodup
  deletes : ∀ key, (st.deleteKey_FL fuel key).isSome ∧ (st.deleteKey_VL fuel key).isSome

theorem Session.answers {k₀ k : ℕ} {c : ℤ} {ads : List StoreEntry}
    (h : lay.Session used k₀ c k st (table ads)) (hfuel : ads.length + 1 ≤ fuel) :
    lay.Answers fuel st ads := by
  obtain ⟨chain, hrep, ht⟩ := h.represented
  have hlen : (table ads).length ≤ ads.length := by
    have := length_foldl_insertNew ads ([] : List StoreEntry)
    rwa [length_nil, Nat.zero_add] at this
  have hchain : ∀ key, (chain (key % lay.bucketNum)).length ≤ fuel := by
    intro key
    have := ht.length_le key
    omega
  constructor
  · intro key v maxDataSize hlook hmax
    rw [← lookup_table] at hlook
    exact hrep.search_stored h.range (mem_of_lookup hlook) hmax (hchain key)
  · intro key maxDataSize hkey hlook
    rw [← lookup_table, lookup_eq_none_iff] at hlook
    refine hrep.search_absent h.range maxDataSize hkey ?_ (hchain key)
    intro hmem
    obtain ⟨e, he, rfl⟩ := mem_map.mp hmem
    exact absurd (hlook e he) (by simp)
  · intro j hj
    obtain ⟨os, hos⟩ := hrep.base j hj
    exact ⟨os, hos ▸ hrep.linked j hj, hos ▸ hrep.nodup j hj⟩
  · intro key
    have hends : (st.deleteKey_FL fuel key).isSome := by
      rw [hrep.delete h.range (hchain key)]
      split <;> rfl
    exact ⟨hends, hends⟩

theorem keys_table (ads : List StoreEntry) (key : ℕ) :
    key ∈ (table ads).map Prod.fst ↔ key ∈ ads.map Prod.fst := by
  have hiff : ∀ es : List StoreEntry, es.lookup key = none ↔ key ∉ es.map Prod.fst := by
    intro es
    rw [lookup_eq_none_iff, mem_map]
    simp only [bne_iff_ne, ne_eq, not_exists, not_and]
    exact ⟨fun h e he heq => h e he heq.symm, fun h e he heq => h e he heq.symm⟩
  have htable := hiff (table ads)
  rw [lookup_table, hiff ads] at htable
  exact (not_iff_not.mp htable).symm

/-- **ONE SESSION.**  The first add of a key returns 0, a later one 1 and
    changes nothing, and after each of them the store answers like the list of
    the adds so far.  The loops end within as many rounds as there were adds. -/
theorem store_session (lay : Layout) (ads : List StoreEntry) (hv : ∀ e ∈ ads, lay.Addable e)
    (hrange : lay.InRange (lay.opens 0 (lay.overflow (table ads)))) {fuel : ℕ}
    (hfuel : ads.length + 2 ≤ fuel) :
    ∃ st₀, QStoreManager.init none none lay.bucketNum lay.bucketSize lay.dataLen 0 = .ok st₀ ∧
      ∀ pre post, ads = pre ++ post → ∃ st, st₀.addAll fuel pre = some st ∧
        lay.Answers fuel st pre ∧
        ∀ e, post.head? = some e → ∃ st',
          st.addKey fuel e = some (if e.1 ∈ pre.map Prod.fst then 1 else 0, st') ∧
            (e.1 ∈ pre.map Prod.fst → st' = st) := by
  refine ⟨_, init_new lay 0, ?_⟩
  intro pre post hads
  have hs : lay.Safe ∅ 0 (lay.overflow (table ads)) := by
    refine ⟨Or.inr (by decide), fun b _ hb => absurd hb (Set.notMem_empty b), ?_⟩
    rwa [Set.empty_union]
  subst hads
  rw [List.length_append] at hfuel
  have hle := lay.overflow_le_foldl post (table pre)
  rw [← table_append] at hle
  have hpre : ([] : List StoreEntry).length + pre.length + 1 ≤ fuel := by
    rw [List.length_nil]
    omega
  obtain ⟨k, st, hall, hses, _⟩ := Session.addAll hs pre 0 _ [] (Session.create lay 0 hrange.1)
    (fun e he => hv e (List.mem_append_left post he)) (by rw [Nat.zero_add]; exact hle) hpre
  refine ⟨st, hall, hses.answers (by omega), ?_⟩
  intro e he
  obtain ⟨post', rfl⟩ : ∃ post', post = e :: post' := by
    cases post with
    | nil => exact absurd he (by simp)
    | cons e' post' => exact ⟨post', by rw [Option.some.inj he]⟩
  have hmem : e ∈ pre ++ e :: post' := List.mem_append_right pre List.mem_cons_self
  have hlen := length_foldl_insertNew pre ([] : List StoreEntry)
  have hnext := lay.overflow_le_foldl post' (insertNew (table pre) e)
  rw [← List.foldl_cons, ← table_append] at hnext
  rw [List.length_nil, Nat.zero_add] at hlen
  rw [List.length_cons] at hfuel
  have hroom : (table pre).length + 2 ≤ fuel := by
    unfold table
    omega
  obtain ⟨k', st', hadd, hsame, _⟩ := hses.add hs (hv e hmem) (by rw [Nat.zero_add]; exact hnext) hroom
  have hiff := keys_table pre e.1
  refine ⟨st', ?_, fun hm => hsame (hiff.mpr hm)⟩
  rw [hadd]
  exact congrArg (fun z => some (z, st')) (if_congr hiff rfl rfl)

/-- Two bytes for each key, one base bucket, one element in a bucket: every
    new key but the first opens a bucket. -/
def oneBucket : Layout where
  bucketNum := 1
  bucketSize := 1
  dataLen := 2
  bucketNum_pos := by decide
  bucketSize_pos := by decide
  bucketNum_lt := by decide
  dataLen_ge := by decide
  dataLen_lt := by decide
  bucketLen_lt := by decide

theorem oneBucket_addable {key : ℕ} {a b : UInt8} (hkey : key ≠ 0) (hlt : key < 2 ^ 64) :
    oneBucket.Addable (key, [a, b]) :=
  ⟨hkey, hlt, fun _ => rfl, fun h => absurd h (by decide)⟩

theorem oneBucket_safe {K : ℕ} (hK : K ≤ 1) : oneBucket.Safe ∅ 0 K := by
  refine ⟨Or.inr (by decide), fun b _ hb => absurd hb (Set.notMem_empty b), by decide, ?_⟩
  rw [Set.empty_union]
  intro b hb
  obtain ⟨hlo, hhi⟩ := hb
  have hnum : oneBucket.bucketNum = 1 := rfl
  have hb2 : b = 2 := by omega
  rw [hb2]
  decide

theorem store_session_oneBucket :
    ∃ st₀, QStoreManager.init none none 1 1 2 0 = .ok st₀ ∧
      ∀ pre post, [(1, [7, 8]), (2, [9, 9]), (1, [0, 0])] = pre ++ post →
        ∃ st, st₀.addAll 5 pre = some st ∧ oneBucket.Answers 5 st pre ∧
        ∀ e, post.head? = some e → ∃ st',
          st.addKey 5 e = some (if e.1 ∈ pre.map Prod.fst then 1 else 0, st') ∧
            (e.1 ∈ pre.map Prod.fst → st' = st) := by
  refine store_session oneBucket [(1, [7, 8]), (2, [9, 9]), (1, [0, 0])] ?_ ?_ (by decide)
  · intro e he
    simp only [List.mem_cons, List.not_mem_nil, or_false] at he
    rcases he with rfl | rfl | rfl
    · exact oneBucket_addable (by decide) (by decide)
    · exact oneBucket_addable (by decide) (by decide)
    · exact oneBucket_addable (by decide) (by decide)
  · have hrange := (oneBucket_safe (K := 1) (Nat.le_refl 1)).range
    rw [Set.empty_union] at hrange
    exact hrange

end Layout

end KalavaPir.Common
