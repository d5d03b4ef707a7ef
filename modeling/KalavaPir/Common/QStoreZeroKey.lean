/-
  KalavaPir.Common.QStoreZeroKey — key 0 in a store.

  A free place of a bucket holds the key 0.  `addKey_FL` and `searchKey_FL`
  compare the key of a place with theirs before they ask whether the place is
  free: key 0 is "there" at every free place.  An add of 0 stores nothing and
  returns 1, after it has opened a bucket if the chain was full; a search for 0
  stops at the first free place, and the value behind it is the one at position
  0 of the data file.
-/
import KalavaPir.Common.QStoreSession

namespace KalavaPir.Common

open KalavaPir.Framework List

namespace Layout

variable {lay : Layout} {st : QStoreManager} {es : List StoreEntry} {chain : ℕ → List ℕ} {c : ℤ}
  {K fuel : ℕ}

/-! ## §1. Counting buckets. -/

variable {e : StoreEntry}

theorem chainFull_snoc_of_ne {key : ℕ} (hne : e.1 % lay.bucketNum ≠ key % lay.bucketNum) :
    lay.ChainFull (es ++ [e]) key ↔ lay.ChainFull es key := by
  unfold ChainFull
  rw [entries_append, if_neg hne]

/-- What the adds have left: the entries, and whether the chain of bucket 0
    ends in an empty bucket that an add of 0 has opened. -/
@[ext] structure Filled (lay : Layout) where
  es : List StoreEntry
  spare : Bool
  full : spare = true → lay.ChainFull es 0

/-- One more add. -/
def fill (f : lay.Filled) (e : StoreEntry) : lay.Filled :=
  if _hzero : e.1 = 0 then
    { es := f.es
      spare := f.spare || decide (lay.ChainFull f.es 0)
      full := by
        intro h
        obtain h | h := Bool.or_eq_true_iff.mp h
        · exact f.full h
        · exact of_decide_eq_true h }
  else if _hmem : e.1 ∈ f.es.map Prod.fst then f
  else
    { es := f.es ++ [e]
      spare := f.spare && decide (e.1 % lay.bucketNum ≠ 0)
      full := by
        intro h
        obtain ⟨hspare, hne⟩ := Bool.and_eq_true_iff.mp h
        have hne' := of_decide_eq_true hne
        rw [chainFull_snoc_of_ne (by rw [Nat.zero_mod]; exact hne')]
        exact f.full hspare }

theorem fill_zero (f : lay.Filled) (hzero : e.1 = 0) :
    (fill f e).es = f.es ∧ (fill f e).spare = (f.spare || decide (lay.ChainFull f.es 0)) := by
  unfold fill
  rw [dif_pos hzero]
  exact ⟨rfl, rfl⟩

theorem fill_known (f : lay.Filled) (hzero : e.1 ≠ 0) (hmem : e.1 ∈ f.es.map Prod.fst) : fill f e = f := by
  unfold fill
  rw [dif_neg hzero, dif_pos hmem]

theorem fill_fresh (f : lay.Filled) (hzero : e.1 ≠ 0) (hnew : e.1 ∉ f.es.map Prod.fst) :
    (fill f e).es = f.es ++ [e] ∧
      (fill f e).spare = (f.spare && decide (e.1 % lay.bucketNum ≠ 0)) := by
  unfold fill
  rw [dif_neg hzero, dif_neg hnew]
  exact ⟨rfl, rfl⟩

/-- After all adds of a session. -/
def filled (lay : Layout) (ads : List StoreEntry) : lay.Filled :=
  ads.foldl fill ⟨[], false, fun h => absurd h (by decide)⟩

/-- The empty bucket, as part of chain `j`, and the overflow buckets in all. -/
def Filled.extra (f : lay.Filled) (j : ℕ) : ℕ := if j = 0 then f.spare.toNat else 0
/-- The overflow buckets that are open. -/
def Filled.buckets (f : lay.Filled) : ℕ := lay.overflow f.es + f.spare.toNat

theorem Filled.extra_eq_one (f : lay.Filled) {j : ℕ} (h : f.extra j ≠ 0) :
    f.extra j = 1 ∧ (lay.entries f.es j).length = lay.bucketSize * lay.chainLen (lay.entries f.es j).length := by
  unfold Filled.extra at h ⊢
  by_cases hj : j = 0
  · rw [if_pos hj] at h ⊢
    cases hspare : f.spare with
    | false =>
      rw [hspare] at h
      exact absurd rfl h
    | true =>
      have hfull := (lay.eq_chainLen_iff _).mpr (f.full hspare)
      rw [hj]
      exact ⟨rfl, hfull⟩
  · rw [if_neg hj] at h
    exact absurd rfl h

/-- The length of the chain of a new key, and the overflow buckets: they grow
    by one if the chain is full. -/
theorem fill_new (f : lay.Filled) (hzero : e.1 ≠ 0) (hnew : e.1 ∉ f.es.map Prod.fst) {n L : ℕ}
    (hn : n = (lay.entries f.es (e.1 % lay.bucketNum)).length)
    (hL : L = lay.chainLen n + f.extra (e.1 % lay.bucketNum)) (hle : n ≤ lay.bucketSize * L) :
    lay.chainLen (n + 1) + (fill f e).extra (e.1 % lay.bucketNum) =
        L + (if n = lay.bucketSize * L then 1 else 0) ∧
      (fill f e).buckets = f.buckets + (if n = lay.bucketSize * L then 1 else 0) := by
  have hpos := lay.bucketSize_pos
  obtain ⟨hes, hspare⟩ := fill_fresh f hzero hnew
  have hcount := lay.overflow_snoc f.es e
  rw [← hn] at hcount
  have hafter : (fill f e).extra (e.1 % lay.bucketNum) = 0 ∧
      (fill f e).spare.toNat + f.extra (e.1 % lay.bucketNum) = f.spare.toNat := by
    unfold Filled.extra
    rw [hspare]
    by_cases hj : e.1 % lay.bucketNum = 0
    · rw [if_pos hj, if_pos hj, hj]
      simp
    · rw [if_neg hj, if_neg hj]
      simp [hj]
  obtain ⟨hextra, hsum⟩ := hafter
  unfold Filled.buckets
  rw [hes, hextra]
  by_cases hspareless : f.extra (e.1 % lay.bucketNum) = 0
  · rw [hspareless, Nat.add_zero] at hL
    rw [hL] at hle ⊢
    by_cases heq : n = lay.bucketSize * lay.chainLen n
    · have hgrow := chainLen_of_eq heq
      rw [if_pos heq]
      omega
    · have hsame := chainLen_of_lt (Nat.lt_of_le_of_ne hle heq)
      rw [if_neg heq]
      omega
  -- the empty bucket takes the key
  obtain ⟨hone, heq⟩ := f.extra_eq_one hspareless
  rw [← hn] at heq
  have hgrow := chainLen_of_eq heq
  have hroom : n ≠ lay.bucketSize * L := by
    rw [hL, hone, Nat.mul_add, ← heq]
    omega
  rw [if_neg hroom]
  omega

theorem le_chainLen (lay : Layout) (n : ℕ) : n ≤ lay.bucketSize * lay.chainLen n := by
  have hlt := Nat.lt_mul_div_succ (n - 1) lay.bucketSize_pos
  unfold chainLen
  rw [Nat.add_comm 1]
  omega

/-- No add takes a bucket back. -/
theorem buckets_le_fill (f : lay.Filled) (e : StoreEntry) : f.buckets ≤ (fill f e).buckets := by
  by_cases hzero : e.1 = 0
  · obtain ⟨hes, hspare⟩ := fill_zero f hzero
    unfold Filled.buckets
    rw [hes, hspare]
    cases f.spare with
    | false => exact Nat.add_le_add_left (Nat.zero_le _) _
    | true => exact Nat.le_refl _
  by_cases hmem : e.1 ∈ f.es.map Prod.fst
  · rw [fill_known f hzero hmem]
  have hle := lay.le_chainLen (lay.entries f.es (e.1 % lay.bucketNum)).length
  rw [(fill_new f hzero hmem rfl rfl
    (Nat.le_trans hle (Nat.mul_le_mul_left _ (Nat.le_add_right _ _)))).2]
  exact Nat.le_add_right _ _

theorem buckets_le_foldl (ads : List StoreEntry) : ∀ f : lay.Filled,
    f.buckets ≤ (ads.foldl fill f).buckets := by
  induction ads with
  | nil => exact fun f => Nat.le_refl _
  | cons e ads ih => exact fun f => Nat.le_trans (buckets_le_fill f e) (ih (fill f e))

/-- The keys other than 0. -/
theorem keys_foldl_fill (ads : List StoreEntry) : ∀ (f : lay.Filled) (key : ℕ), key ≠ 0 →
    (key ∈ (ads.foldl fill f).es.map Prod.fst ↔ key ∈ f.es.map Prod.fst ∨ key ∈ ads.map Prod.fst) := by
  induction ads with
  | nil =>
    intro f key _
    rw [foldl_nil, map_nil, or_iff_left not_mem_nil]
  | cons e ads ih =>
    intro f key hkey
    have hone : key ∈ (fill f e).es.map Prod.fst ↔ key ∈ f.es.map Prod.fst ∨ key = e.1 := by
      by_cases hzero : e.1 = 0
      · rw [(fill_zero f hzero).1, hzero, or_iff_left hkey]
      by_cases hmem : e.1 ∈ f.es.map Prod.fst
      · rw [fill_known f hzero hmem]
        refine ⟨Or.inl, fun h => h.elim id ?_⟩
        intro heq
        rw [heq]
        exact hmem
      · rw [(fill_fresh f hzero hmem).1, map_append, mem_append, map_singleton,
          mem_singleton]
    rw [foldl_cons, ih (fill f e) key hkey, hone, map_cons, mem_cons, or_assoc]

/-- Without an add of 0 nothing is new. -/
theorem foldl_fill_of_ne (ads : List StoreEntry) : ∀ f : lay.Filled, f.spare = false → 0 ∉ ads.map Prod.fst →
    (ads.foldl fill f).es = ads.foldl insertNew f.es ∧ (ads.foldl fill f).spare = false := by
  induction ads with
  | nil => exact fun f hspare _ => ⟨rfl, hspare⟩
  | cons e ads ih =>
    intro f hspare hne
    rw [map_cons, mem_cons, not_or] at hne
    have hone : (fill f e).es = insertNew f.es e ∧ (fill f e).spare = false := by
      unfold insertNew
      by_cases hmem : e.1 ∈ f.es.map Prod.fst
      · rw [fill_known f (Ne.symm hne.1) hmem, if_pos hmem]
        exact ⟨rfl, hspare⟩
      · obtain ⟨hes, hspare'⟩ := fill_fresh f (Ne.symm hne.1) hmem
        rw [hes, hspare', hspare, if_neg hmem]
        exact ⟨rfl, Bool.false_and _⟩
    rw [foldl_cons, foldl_cons, ← hone.1]
    exact ih (fill f e) hone.2 hne.2

/-! ## §2. What a free place looks like. -/

/-- **The search of 0 in a list of keys** stops at the first free place. -/
theorem probe_zero {h : ByteFile} {key : ℕ} (hkey : key = 0) (ks : List ℕ) :
    ∀ (ps : List ℕ) (z : ℕ), Holds h ps ks z → (∀ k ∈ ks, k ≠ 0) →
    (z = 0 ∧ probe h key ps = .full) ∨ 0 < z ∧ ∃ p ∈ ps, keyAt h p = 0 ∧ probe h key ps = .hit p := by
  induction ks with
  | nil =>
    intro ps z hps _
    unfold Holds at hps
    cases ps with
    | nil =>
      have hz := congrArg List.length hps
      rw [map_nil, nil_append, length_replicate] at hz
      exact Or.inl ⟨hz.symm, rfl⟩
    | cons p ps =>
      cases z with
      | zero => exact absurd hps (by simp)
      | succ z =>
        rw [map_cons, nil_append, replicate_succ, List.cons.injEq] at hps
        exact Or.inr ⟨Nat.succ_pos z, p, mem_cons_self, hps.1, probe_hit (hps.1.trans hkey.symm)⟩
  | cons k ks ih =>
    intro ps z hps hne
    obtain ⟨p, ps, rfl, hk, hrest⟩ := hps.uncons
    have hzero : keyAt h p ≠ 0 := by
      rw [hk]
      exact hne k mem_cons_self
    rw [probe_skip (by rw [hkey]; exact hzero) hzero]
    rcases ih ps z hrest (fun x hx => hne x (mem_cons_of_mem k hx)) with hfull | ⟨hz, q, hq, hhit⟩
    · exact Or.inl hfull
    · exact Or.inr ⟨hz, q, mem_cons_of_mem p hq, hhit⟩

/-- A free place points to position 0 of the data file, and the first entry is
    there. -/
structure Blank (lay : Layout) (st : QStoreManager) (es : List StoreEntry) (chain : ℕ → List ℕ) :
    Prop where
  offset : ∀ j < lay.bucketNum, ∀ p ∈ lay.chainSlots (chain j), keyAt st.m_fpHash p = 0 →
    lay.elementLen = 17 → st.m_fpHash.bytes (p + 9) 8 = encode 8 0
  first : ∀ e, es.head? = some e → ∀ r, lay.record e.2 = some r →
    r.length ≤ st.m_fpData.size ∧ st.m_fpData.bytes 0 r.length = r

theorem Blank.stored (h : lay.Blank st es chain) {j p : ℕ} (hj : j < lay.bucketNum)
    (hp : p ∈ lay.chainSlots (chain j)) (hzero : keyAt st.m_fpHash p = 0) (he : es.head? = some e) :
    lay.Stored st p e.2 := by
  intro r hr
  obtain ⟨hsize, hbytes⟩ := h.first e he r hr
  exact ⟨0, by decide, h.offset j hj p hp hzero (elementLen_of_record hr), by omega, hbytes⟩

variable {used : Set ℕ}

theorem Blank.insert (h : lay.Blank st es chain) (hrep : lay.Rep st es chain used) (hv : lay.Addable e)
    {p : ℕ} (hp : p ∈ lay.chainSlots (chain (e.1 % lay.bucketNum))) :
    lay.Blank (st.insertAt p e.1 (lay.record e.2)) (es ++ [e]) chain := by
  obtain ⟨b, _, i, hi, rfl⟩ := lay.mem_chainSlots.mp hp
  constructor
  · intro j hj q hq hzero helem
    have hne : q ≠ lay.slot b i := by
      intro heq
      rw [heq, insertAt_keyAt hv.key_lt] at hzero
      exact hv.key_ne hzero
    have hold := h.offset j hj q hq
    obtain ⟨x, _, k, hk, rfl⟩ := lay.mem_chainSlots.mp hq
    have hdis := lay.slot_disjoint hk hi hne
    rw [insertAt_keyAt_other (lay.mem_slots.mpr ⟨k, hk, rfl⟩) (lay.mem_slots.mpr ⟨i, hi, rfl⟩) hne]
      at hzero
    rw [insertAt_bytes (by omega)]
    exact hold hzero helem
  · intro x hx r hr
    cases es with
    | nil =>
      -- the first record
      have hsize := hrep.data
      rw [length_nil, Nat.zero_mul, Nat.le_zero] at hsize
      rw [nil_append, head?_cons, Option.some.injEq] at hx
      rw [hx, hr]
      show r.length ≤ max _ _ ∧ (st.m_fpData.fwrite st.m_fpData.size r).bytes 0 r.length = r
      rw [hsize]
      exact ⟨by omega, ByteFile.bytes_fwrite_self _ 0 r⟩
    | cons e' es =>
      obtain ⟨hsize, hbytes⟩ := h.first x hx r hr
      have hin : 0 + r.length ≤ st.m_fpData.size := by omega
      obtain ⟨hdata, hgrow⟩ := insertAt_data (lay.slot b i) e.1 hin (lay.record e.2)
      exact ⟨by omega, hdata.trans hbytes⟩

theorem Blank.opened (h : lay.Blank st es chain) (hrep : lay.Rep st es chain used) {j₀ n : ℕ}
    (hn : lay.NextBucket st n) (hbase : lay.bucketNum ≤ n) (hfree : n ∉ used) (b : ℕ) :
    lay.Blank (lay.opened st b) es (extend chain j₀ n) := by
  refine ⟨?_, h.first⟩
  intro j hj p hp hzero helem
  have hold : ∀ x ∈ chain j, x ≠ n := hrep.not_in_use hbase hfree hj
  obtain ⟨x, hx, i, hi, rfl⟩ := lay.mem_chainSlots.mp hp
  rcases mem_extend hx with hx | ⟨_, rfl⟩
  · have hplace : lay.slot x i ∈ lay.chainSlots (chain j) := lay.mem_chainSlots.mpr ⟨x, hx, i, hi, rfl⟩
    rw [opened_keyAt hn hrep.fits hold hplace] at hzero
    rw [opened_slot hn hrep.fits (hold x hx) hi (by omega) (by omega)]
    exact h.offset j hj _ hplace hzero helem
  have hslot := lay.slot_add_le (b := x) hi
  have hlink := lay.link_add x
  have hle := lay.pos_le_slot x i
  rw [opened_zeros hn hrep.fits (by omega) (by omega)]
  decide

/-! ## §3. One session. -/

/-- What a caller may try to add: any key, a value of the length the store
    has. -/
structure Triable (lay : Layout) (e : StoreEntry) : Prop where
  key_lt : e.1 < 2 ^ 64
  fixed : 0 < lay.dataLen → (e.2.length : ℤ) = lay.dataLen

theorem Triable.addable (h : lay.Triable e) (hkind : 0 ≤ lay.dataLen) (hne : e.1 ≠ 0) : lay.Addable e :=
  ⟨hne, h.key_lt, h.fixed, fun hbad => absurd hbad (by omega)⟩

/-- **The invariant of a session** in which 0 may be added. -/
structure ZeroAt (lay : Layout) (c : ℤ) (st : QStoreManager) (f : lay.Filled) (chain : ℕ → List ℕ) :
    Prop where
  rep : lay.Rep st f.es chain (∅ ∪ lay.opens c f.buckets)
  lengths : ∀ j < lay.bucketNum,
    (chain j).length = lay.chainLen (lay.entries f.es j).length + f.extra j
  counter : st.m_iBucketOverflowNum = c + f.buckets
  blank : lay.Blank st f.es chain

section Session

variable {f : lay.Filled}

theorem Filled.extra_le (f : lay.Filled) (j : ℕ) : f.extra j ≤ 1 := by
  unfold Filled.extra
  split
  · exact Bool.toNat_le f.spare
  · exact Nat.zero_le 1

theorem ZeroAt.length_le (h : lay.ZeroAt c st f chain) (key : ℕ) :
    (chain (key % lay.bucketNum)).length ≤ f.es.length + 2 := by
  have hlen := h.lengths _ (lay.base_lt key)
  have hle := lay.chainLen_le (lay.entries f.es (key % lay.bucketNum)).length
  have hsub : (lay.entries f.es (key % lay.bucketNum)).length ≤ f.es.length :=
    length_filter_le _ _
  have hextra := f.extra_le (key % lay.bucketNum)
  omega

theorem ZeroAt.full_iff (h : lay.ZeroAt c st f chain) {j : ℕ} (hj : j < lay.bucketNum)
    (hlen : (lay.entries f.es j).length = lay.bucketSize * (chain j).length) :
    f.extra j = 0 ∧ (lay.entries f.es j).length =
      lay.bucketSize * lay.chainLen (lay.entries f.es j).length := by
  have hpos := lay.bucketSize_pos
  rw [h.lengths j hj] at hlen
  by_cases hextra : f.extra j = 0
  · rw [hextra, Nat.add_zero] at hlen
    exact ⟨hextra, hlen⟩
  · obtain ⟨hone, heq⟩ := f.extra_eq_one hextra
    rw [hone, Nat.mul_add, ← heq] at hlen
    omega

variable {e : StoreEntry}

/-- The key 0 is looked for in the zeroed places: it is found in a chain with a
    free place, and is new to a chain without one. -/
theorem ZeroAt.probe_zeroed (h : lay.ZeroAt c st f chain) (hzero : e.1 = 0) :
    (f.spare = false ∧ (fill f e).spare = true ∧
      probe st.m_fpHash e.1 (lay.chainSlots (chain (e.1 % lay.bucketNum))) = .full) ∨
    (fill f e = f ∧ ∃ p, probe st.m_fpHash e.1 (lay.chainSlots (chain (e.1 % lay.bucketNum))) = .hit p) := by
  have hj := lay.base_lt e.1
  have hbase : e.1 % lay.bucketNum = 0 := by rw [hzero, Nat.zero_mod]
  obtain ⟨hes, hspare⟩ := fill_zero f hzero
  have hchainFull := lay.eq_chainLen_iff (lay.entries f.es 0).length
  obtain ⟨z, hz⟩ := h.rep.keys _ hj
  have hcount := congrArg List.length hz
  rw [length_map, length_append, length_map, length_replicate, length_chainSlots]
    at hcount
  rcases probe_zero hzero _ _ z hz (h.rep.entryKeys _).1 with ⟨hz, hfull⟩ | ⟨hz, p, _, _, hhit⟩
  · obtain ⟨hextra, hlen⟩ := h.full_iff hj (by omega)
    refine Or.inl ⟨?_, ?_, hfull⟩
    · unfold Filled.extra at hextra
      rw [if_pos hbase] at hextra
      exact Bool.toNat_eq_zero.mp hextra
    · rw [hspare, Bool.or_eq_true, decide_eq_true_iff]
      unfold ChainFull
      rw [Nat.zero_mod, ← hchainFull]
      rw [hbase] at hlen
      exact Or.inr hlen
  refine Or.inr ⟨Filled.ext hes ?_, p, hhit⟩
  rw [hspare]
  cases hold : f.spare with
  | true => rfl
  | false =>
    rw [Bool.false_or, decide_eq_false_iff_not]
    unfold ChainFull
    rw [Nat.zero_mod, ← hchainFull]
    have hlen := h.lengths _ hj
    unfold Filled.extra at hlen
    rw [hbase, if_pos rfl, hold, Bool.toNat_false, Nat.add_zero] at hlen
    rw [hbase, hlen] at hcount
    omega

/-- **An add of 0** does nothing on a chain with a free place, and opens a
    bucket behind another one. -/
theorem ZeroAt.add_zero (h : lay.ZeroAt c st f chain) (hs : lay.Safe ∅ c K) (hzero : e.1 = 0)
    (hK : (fill f e).buckets ≤ K) (hfuel : f.es.length + 3 ≤ fuel) :
    ∃ st' chain', st.addKey fuel e = some (1, st') ∧ lay.ZeroAt c st' (fill f e) chain' := by
  have hrange := hs.range_le (Nat.le_trans (buckets_le_fill f e) hK)
  have hj := lay.base_lt e.1
  have hbase : e.1 % lay.bucketNum = 0 := by rw [hzero, Nat.zero_mod]
  have hlength := h.length_le e.1
  have hwalkable := h.rep.walkable hrange hj
  have hne := h.rep.chain_ne_nil hj
  rcases h.probe_zeroed hzero with ⟨hold, hnew, hfull⟩ | ⟨hsame, p, hhit⟩
  · have hes := (fill_zero f hzero).1
    have hbuckets : (fill f e).buckets = f.buckets + 1 := by
      unfold Filled.buckets
      rw [hes, hnew, hold]
      rfl
    obtain ⟨n, hn, hout, hfree, hbelow⟩ := hs.next (by omega : f.buckets < K)
    have hnext : lay.NextBucket st n := ⟨by rw [h.counter]; omega, hbelow⟩
    have hadd := addKey_opened h.rep.fits e hwalkable (h.rep.base _ hj) hne hnext hfull
      (by omega : _ ≤ fuel)
    rw [if_pos hzero] at hadd
    refine ⟨_, extend chain (e.1 % lay.bucketNum) n, hadd, ?_, ?_, ?_, ?_⟩
    · have hrep := h.rep.open_ hnext hout hfree hj hne
      rw [opens_succ hn] at hrep
      rw [hes, hbuckets]
      exact hrep
    · intro j hj'
      have hold' := h.lengths j hj'
      unfold Filled.extra at hold' ⊢
      rw [hes, hnew]
      rw [hold] at hold'
      by_cases hjj : j = e.1 % lay.bucketNum
      · rw [hjj, extend_self, length_append, length_singleton, ← hjj, hold', hjj,
          if_pos hbase, if_pos hbase]
        rfl
      · rw [extend_of_ne chain n hjj, hold']
        rw [hbase] at hjj
        rw [if_neg hjj, if_neg hjj]
    · rw [opened_counter hnext, hbuckets]
      omega
    · rw [hes]
      exact h.blank.opened h.rep hnext hout hfree _
  · obtain ⟨codes, hadd⟩ := addKey_walk h.rep.fits e hwalkable (h.rep.base _ hj) hne
    obtain ⟨extra, rfl⟩ := Nat.exists_eq_add_of_le' (by omega : (chain (e.1 % lay.bucketNum)).length ≤ fuel)
    refine ⟨st, chain, ?_, ?_⟩
    · rw [hadd, hhit]
    · rw [hsame]
      exact h

theorem fill_other (f : lay.Filled) (hzero : e.1 ≠ 0) (hnew : e.1 ∉ f.es.map Prod.fst) {j : ℕ}
    (hne : j ≠ e.1 % lay.bucketNum) :
    lay.entries (fill f e).es j = lay.entries f.es j ∧ (fill f e).extra j = f.extra j := by
  obtain ⟨hes, hspare⟩ := fill_fresh f hzero hnew
  rw [hes, entries_append, if_neg (Ne.symm hne)]
  refine ⟨rfl, ?_⟩
  unfold Filled.extra
  by_cases hj : j = 0
  · rw [hj] at hne
    rw [if_pos hj, if_pos hj, hspare, decide_eq_true (Ne.symm hne), Bool.and_true]
  · rw [if_neg hj, if_neg hj]

/-- **An add of a new key.** -/
theorem ZeroAt.add_fresh (h : lay.ZeroAt c st f chain) (hs : lay.Safe ∅ c K) (hv : lay.Addable e)
    (hnew : e.1 ∉ f.es.map Prod.fst) (hK : (fill f e).buckets ≤ K) (hfuel : f.es.length + 3 ≤ fuel) :
    ∃ st' chain', st.addKey fuel e = some (0, st') ∧ lay.ZeroAt c st' (fill f e) chain' := by
  have hrange := hs.range_le (Nat.le_trans (buckets_le_fill f e) hK)
  have hj := lay.base_lt e.1
  have hlength := h.length_le e.1
  have hne := h.rep.chain_ne_nil hj
  have hes := (fill_fresh f hv.key_ne hnew).1
  have hlen := h.lengths _ hj
  have hsnoc : (lay.entries (fill f e).es (e.1 % lay.bucketNum)).length
      = (lay.entries f.es (e.1 % lay.bucketNum)).length + 1 := by
    rw [hes, entries_append, if_pos rfl, length_append, length_singleton]
  rcases h.rep.probe_new hv hnew with ⟨hcount, hfull⟩ | ⟨p, hp, hhole⟩
  · have hcount' := hcount
    rw [length_chainSlots] at hcount'
    obtain ⟨hgrow, hbuckets⟩ := fill_new f hv.key_ne hnew rfl hlen (Nat.le_of_eq hcount')
    rw [if_pos hcount'] at hgrow hbuckets
    obtain ⟨n, hn, hout, hfree, hbelow⟩ := hs.next (by omega : f.buckets < K)
    have hnext : lay.NextBucket st n := ⟨by rw [h.counter]; omega, hbelow⟩
    have hadd := h.rep.add_full hrange hv hnext hne hfull (by omega : _ ≤ fuel)
    have hrep := h.rep.open_insert hrange hv hnew hnext hout hfree hne hcount
    refine ⟨_, extend chain (e.1 % lay.bucketNum) n, hadd, ?_, ?_, ?_, ?_⟩
    · rw [opens_succ hn] at hrep
      rw [hes, hbuckets]
      exact hrep
    · intro j hj'
      by_cases hjj : j = e.1 % lay.bucketNum
      · rw [hjj, extend_self, length_append, length_singleton, hsnoc]
        omega
      · obtain ⟨hsame, hextra⟩ := fill_other f hv.key_ne hnew hjj
        rw [extend_of_ne chain n hjj, hsame, hextra]
        exact h.lengths j hj'
    · rw [insertAt_overflowNum, opened_counter hnext, hbuckets]
      omega
    · have hplace : lay.slot n 0 ∈ lay.chainSlots
          (extend chain (e.1 % lay.bucketNum) n (e.1 % lay.bucketNum)) := by
        rw [extend_self, chainSlots_snoc]
        exact mem_append_right _ (lay.mem_slots.mpr ⟨0, lay.bucketSize_pos, rfl⟩)
      rw [hes]
      exact (h.blank.opened h.rep hnext hout hfree _).insert
        (h.rep.open_ hnext hout hfree hj hne) hv hplace
  · have hlt := (List.getElem?_eq_some_iff.mp hp).1
    rw [length_chainSlots] at hlt
    obtain ⟨hgrow, hbuckets⟩ := fill_new f hv.key_ne hnew rfl hlen (Nat.le_of_lt hlt)
    rw [if_neg (Nat.ne_of_lt hlt), Nat.add_zero] at hgrow hbuckets
    obtain ⟨hadd, hrep⟩ := h.rep.add_hole hrange hv hnew hp hhole (by omega : _ ≤ fuel)
    refine ⟨_, chain, hadd, ?_, ?_, ?_, ?_⟩
    · rw [hes, hbuckets]
      exact hrep
    · intro j hj'
      by_cases hjj : j = e.1 % lay.bucketNum
      · rw [hjj, hsnoc]
        exact hgrow.symm
      · obtain ⟨hsame, hextra⟩ := fill_other f hv.key_ne hnew hjj
        rw [hsame, hextra]
        exact h.lengths j hj'
    · rw [insertAt_overflowNum, hbuckets]
      exact h.counter
    · rw [hes]
      exact h.blank.insert h.rep hv (mem_of_getElem? hp)

/-- **One add** of any key. -/
theorem ZeroAt.add (h : lay.ZeroAt c st f chain) (hs : lay.Safe ∅ c K) (hkind : 0 ≤ lay.dataLen)
    (he : lay.Triable e) (hK : (fill f e).buckets ≤ K) (hfuel : f.es.length + 3 ≤ fuel) :
    ∃ code st' chain', st.addKey fuel e = some (code, st') ∧ lay.ZeroAt c st' (fill f e) chain' := by
  by_cases hzero : e.1 = 0
  · exact ⟨1, h.add_zero hs hzero hK hfuel⟩
  by_cases hmem : e.1 ∈ f.es.map Prod.fst
  · have hlength := h.length_le e.1
    have hrange := hs.range_le (Nat.le_trans (buckets_le_fill f e) hK)
    rw [fill_known f hzero hmem]
    exact ⟨1, st, chain, h.rep.add_present hrange hmem (by omega), h⟩
  · exact ⟨0, h.add_fresh hs (he.addable hkind hzero) hmem hK hfuel⟩

theorem length_fill (f : lay.Filled) (e : StoreEntry) : (fill f e).es.length ≤ f.es.length + 1 := by
  by_cases hzero : e.1 = 0
  · rw [(fill_zero f hzero).1]
    exact Nat.le_succ _
  by_cases hmem : e.1 ∈ f.es.map Prod.fst
  · rw [fill_known f hzero hmem]
    exact Nat.le_succ _
  · rw [(fill_fresh f hzero hmem).1, length_append, length_singleton]

/-- **A sequence of adds.** -/
theorem ZeroAt.addAll (hs : lay.Safe ∅ c K) (hkind : 0 ≤ lay.dataLen) (ads : List StoreEntry) :
    ∀ (st : QStoreManager) (f : lay.Filled) (chain : ℕ → List ℕ), lay.ZeroAt c st f chain →
      (∀ e ∈ ads, lay.Triable e) → (ads.foldl fill f).buckets ≤ K → f.es.length + ads.length + 2 ≤ fuel →
      ∃ st' chain', st.addAll fuel ads = some st' ∧ lay.ZeroAt c st' (ads.foldl fill f) chain' ∧
        (ads.foldl fill f).es.length ≤ f.es.length + ads.length := by
  induction ads with
  | nil =>
    intro st f chain h _ _ _
    exact ⟨st, chain, rfl, h, Nat.le_refl _⟩
  | cons e ads ih =>
    intro st f chain h hall hK hfuel
    rw [foldl_cons] at hK ⊢
    rw [length_cons] at hfuel ⊢
    have hone := length_fill f e
    obtain ⟨code, st', chain', hadd, h'⟩ := h.add hs hkind (hall e mem_cons_self)
      (Nat.le_trans (buckets_le_foldl ads (fill f e)) hK) (by omega : _ ≤ fuel)
    obtain ⟨st'', chain'', hrest, h'', hlen⟩ := ih st' (fill f e) chain' h'
      (fun x hx => hall x (mem_cons_of_mem e hx)) hK (by omega)
    refine ⟨st'', chain'', ?_, h'', by omega⟩
    rw [QStoreManager.addAll, hadd]
    exact hrest

/-- A new store. -/
theorem ZeroAt.create (lay : Layout) (c : ℤ) :
    lay.ZeroAt c (QStoreManager.create lay.bucketNum lay.bucketSize lay.dataLen c)
      ⟨[], false, fun h => absurd h (by decide)⟩ (fun j => [j]) := by
  have hzero : (⟨[], false, fun h => absurd h (by decide)⟩ : lay.Filled).buckets = 0 := by
    simp [Filled.buckets, overflow, entries]
  refine ⟨?_, ?_, ?_, ?_, ?_⟩
  · rw [hzero, opens_zero, Set.empty_union]
    exact Rep.create lay c
  · intro j _
    simp [chainLen, entries, Filled.extra]
  · rw [hzero]
    exact (Int.add_zero c).symm
  · intro j hj p hp _ helem
    obtain ⟨b, hb, i, hi, rfl⟩ := lay.mem_chainSlots.mp hp
    rw [mem_singleton.mp hb]
    have hslot := lay.slot_add_le (b := j) hi
    have hlink := lay.link_add j
    have hle := lay.pos_le_slot j i
    rw [create_zeros lay c hj (by omega) (by omega)]
    decide
  · intro e he
    exact absurd he (by simp)

end Session

/-! ## §4. Searching. -/

section Searching

variable {f : lay.Filled}

/-- What `searchKey_FL` returns: no element is deleted. -/
theorem ZeroAt.search_walk (h : lay.ZeroAt c st f chain) (hs : lay.Safe ∅ c K) (hK : f.buckets ≤ K)
    (key : ℕ) (maxDataSize : Option ℤ) (hfuel : f.es.length + 2 ≤ fuel) :
    st.searchKey_FL fuel key maxDataSize =
      match probe st.m_fpHash key (lay.chainSlots (chain (key % lay.bucketNum))) with
      | .hit p => some (st.hit_FL maxDataSize p)
      | .hole _ => some (-10, none)
      | .full => some (-13, none) := by
  have hj := lay.base_lt key
  have hc := h.rep.walkable (hs.range_le hK) hj
  have hlength := h.length_le key
  have hflags := h.rep.flags _ hj
  obtain ⟨os, hos⟩ := h.rep.base _ hj
  rw [hos] at hc hlength hflags ⊢
  refine searchKey_FL_probe h.rep.fits key maxDataSize hc ?_ (Nat.le_trans hlength hfuel)
  intro p hp
  refine ⟨fun hboth => hboth.1, fun hkey => ⟨hkey, ?_⟩⟩
  rw [hflags p hp]
  rfl

theorem ZeroAt.search_ends (h : lay.ZeroAt c st f chain) (hs : lay.Safe ∅ c K) (hK : f.buckets ≤ K)
    (key : ℕ) (maxDataSize : Option ℤ) (hfuel : f.es.length + 2 ≤ fuel) :
    ∃ code v, st.searchKey_FL fuel key maxDataSize = some (code, v) := by
  rw [h.search_walk hs hK key maxDataSize hfuel]
  cases probe st.m_fpHash key (lay.chainSlots (chain (key % lay.bucketNum))) with
  | hit p | hole p | full => exact ⟨_, _, rfl⟩

/-- **A key other than 0 that was not added** is not found. -/
theorem ZeroAt.search_absent (h : lay.ZeroAt c st f chain) (hs : lay.Safe ∅ c K) (hK : f.buckets ≤ K)
    {key : ℕ} (hkey : key ≠ 0) (hnot : key ∉ f.es.map Prod.fst) (maxDataSize : Option ℤ)
    (hfuel : f.es.length + 2 ≤ fuel) :
    ∃ code < 0, st.searchKey_FL fuel key maxDataSize = some (code, none) := by
  obtain ⟨z, hz⟩ := h.rep.keys _ (lay.base_lt key)
  have hnot' : key ∉ (lay.entries f.es (key % lay.bucketNum)).map Prod.fst := by
    intro hmem
    obtain ⟨e, he, heq⟩ := mem_map.mp hmem
    exact hnot (mem_map.mpr ⟨e, mem_of_mem_filter he, heq⟩)
  rw [h.search_walk hs hK key maxDataSize hfuel]
  rcases probe_absent hkey _ _ z hz (h.rep.entryKeys _).1 hnot' with ⟨_, hfull⟩ | ⟨p, _, hhole⟩
  · rw [hfull]
    exact ⟨-13, by decide, rfl⟩
  · rw [hhole]
    exact ⟨-10, by decide, rfl⟩

/-- A search asks for a value and there is none, or no room for it. -/
def NoValue (lay : Layout) (es : List StoreEntry) (maxDataSize : Option ℤ) : Prop :=
  0 < lay.dataLen ∧ ∃ size, maxDataSize = some size ∧ (size < lay.dataLen ∨ es = [])

/-- **What a search returns at a free place.** -/
theorem ZeroAt.hit_free (h : lay.ZeroAt c st f chain) (hs : lay.Safe ∅ c K) (hK : f.buckets ≤ K)
    (hkind : 0 ≤ lay.dataLen) {j p : ℕ} (hj : j < lay.bucketNum) (hp : p ∈ lay.chainSlots (chain j))
    (hfree : keyAt st.m_fpHash p = 0) (maxDataSize : Option ℤ) :
    (st.hit_FL maxDataSize p).1 = 0 ↔ ¬lay.NoValue f.es maxDataSize := by
  have hlen := h.rep.fits.dataLen
  unfold NoValue
  cases maxDataSize with
  | none =>
    refine iff_of_true rfl ?_
    intro hbad
    obtain ⟨_, size, heq, _⟩ := hbad
    exact absurd heq (by simp)
  | some size =>
    by_cases hzero : lay.dataLen = 0
    · unfold QStoreManager.hit_FL
      rw [hlen]
      simp [hzero]
    have hread : st.m_fpHash.fread (p + 9) 8 = some (st.m_fpHash.bytes (p + 9) 8) := by
      have hc := h.rep.walkable (hs.range_le hK) hj
      have helem : lay.elementLen = 17 := if_neg hzero
      obtain ⟨b, hb, i, hi, rfl⟩ := lay.mem_chainSlots.mp hp
      exact fread_slot (hc.covered b hb) hi (by omega)
    by_cases hsize : size < lay.dataLen
    · unfold QStoreManager.hit_FL
      simp only
      rw [if_neg (by omega), if_pos (by omega)]
      exact iff_of_false (by decide) (not_not.mpr ⟨by omega, size, rfl, Or.inl hsize⟩)
    cases hes : f.es with
    | nil =>
      -- the data file is empty
      have hdata := h.rep.data
      rw [hes, length_nil, Nat.zero_mul, Nat.le_zero] at hdata
      have hmark : ∀ q, QStoreManager.readMark st.m_fpData q I_STORE_BEGIN_MARK = false := by
        intro q
        have hend : ¬q + 8 ≤ st.m_fpData.size := by omega
        unfold QStoreManager.readMark ByteFile.fread
        rw [if_neg hend]
      refine iff_of_false ?_ (not_not.mpr ⟨by omega, size, rfl, Or.inr rfl⟩)
      unfold QStoreManager.hit_FL
      simp only
      rw [if_neg (by omega), if_neg (by omega), hread]
      simp only [hmark, Bool.not_false, if_true]
      split <;> simp
    | cons e es =>
      have hv : lay.Addable e := h.rep.addable e (by rw [hes]; exact mem_cons_self)
      have hvlen := hv.fixed (by omega)
      have hhit := hit_FL_stored h.rep.fits (fun _ => hread) hkind hv.fixed
        (by omega : (e.2.length : ℤ) ≤ size) (h.blank.stored hj hp hfree (by rw [hes]; rfl))
      rw [hhit]
      unfold answer
      rw [if_pos (by omega)]
      refine iff_of_true rfl ?_
      intro hbad
      obtain ⟨_, size', heq, hor⟩ := hbad
      rw [Option.some.injEq] at heq
      rw [← heq] at hor
      exact hor.elim hsize (cons_ne_nil e es)

/-- A search for 0 fails. -/
def ZeroMissed (lay : Layout) (es : List StoreEntry) (maxDataSize : Option ℤ) : Prop :=
  lay.ChainFull es 0 ∨ lay.NoValue es maxDataSize

/-- **The search for 0**, if no add of 0 has opened a bucket. -/
theorem ZeroAt.search_zero (h : lay.ZeroAt c st f chain) (hs : lay.Safe ∅ c K) (hK : f.buckets ≤ K)
    (hkind : 0 ≤ lay.dataLen) (hspare : f.spare = false) (maxDataSize : Option ℤ)
    (hfuel : f.es.length + 2 ≤ fuel) : ∃ code v, st.searchKey_FL fuel 0 maxDataSize = some (code, v) ∧
      (code = 0 ↔ ¬lay.ZeroMissed f.es maxDataSize) := by
  have hj := lay.base_lt 0
  obtain ⟨z, hz⟩ := h.rep.keys _ hj
  have hcount := congrArg List.length hz
  rw [length_map, length_append, length_map, length_replicate, length_chainSlots]
    at hcount
  have hlen := h.lengths _ hj
  have hextra : f.extra (0 % lay.bucketNum) = 0 := by
    unfold Filled.extra
    rw [hspare]
    exact ite_self 0
  rw [hextra, Nat.add_zero] at hlen
  rw [hlen] at hcount
  have hfull : lay.ChainFull f.es 0 ↔ z = 0 := by
    unfold ChainFull
    rw [← eq_chainLen_iff]
    omega
  unfold ZeroMissed
  rw [h.search_walk hs hK 0 maxDataSize hfuel, hfull]
  rcases probe_zero rfl _ _ z hz (h.rep.entryKeys _).1 with ⟨hzero, hprobe⟩ | ⟨hpos, p, hp, hfree, hprobe⟩
  · rw [hprobe]
    exact ⟨-13, none, rfl, iff_of_false (by decide) (not_not.mpr (Or.inl hzero))⟩
  have hhit := h.hit_free hs hK hkind hj hp hfree maxDataSize
  rw [hprobe]
  refine ⟨_, _, rfl, hhit.trans (not_congr ?_)⟩
  rw [or_iff_right (by omega)]

/-- **SOUNDNESS OF SEARCHING.**  After any adds of any keys in the session that
    creates the store, every search ends, and it returns 0 only for a key that
    was added if and only if the key is not 0, or 0 was added, or the search
    for 0 meets no free place or no value. -/
theorem search_sound_iff (lay : Layout) (hkind : 0 ≤ lay.dataLen) (c : ℤ) (ads : List StoreEntry)
    (hads : ∀ e ∈ ads, lay.Triable e) (hs : lay.Safe ∅ c (lay.filled ads).buckets) {fuel : ℕ}
    (hfuel : ads.length + 2 ≤ fuel) :
    ∃ st₀ st, QStoreManager.init none none lay.bucketNum lay.bucketSize lay.dataLen c = .ok st₀ ∧
      st₀.addAll fuel ads = some st ∧ ∀ (key : ℕ) (maxDataSize : Option ℤ),
        ∃ code v, st.searchKey_FL fuel key maxDataSize = some (code, v) ∧
          ((code = 0 → key ∈ ads.map Prod.fst) ↔
            key ≠ 0 ∨ 0 ∈ ads.map Prod.fst ∨ lay.ZeroMissed (table ads) maxDataSize) := by
  have hle : (lay.filled ads).buckets ≤ (lay.filled ads).buckets := Nat.le_refl _
  have hroom : ([] : List StoreEntry).length + ads.length + 2 ≤ fuel := by
    rw [List.length_nil]
    omega
  obtain ⟨st, chain, hall, h, hlen⟩ := ZeroAt.addAll hs hkind ads _ _ _ (ZeroAt.create lay c) hads hle
    hroom
  change lay.ZeroAt c st (lay.filled ads) chain at h
  rw [List.length_nil, Nat.zero_add] at hlen
  have hfuel' : (lay.filled ads).es.length + 2 ≤ fuel :=
    Nat.le_trans (Nat.add_le_add_right hlen 2) hfuel
  refine ⟨_, st, init_new lay c, hall, ?_⟩
  intro key maxDataSize
  by_cases hadded : key ∈ ads.map Prod.fst
  · obtain ⟨code, v, hsearch⟩ := h.search_ends hs hle key maxDataSize hfuel'
    refine ⟨code, v, hsearch, iff_of_true (fun _ => hadded) ?_⟩
    by_cases hkey : key = 0
    · rw [hkey] at hadded
      exact Or.inr (Or.inl hadded)
    · exact Or.inl hkey
  · by_cases hkey : key = 0
    · rw [hkey] at hadded ⊢
      obtain ⟨hes, hspare⟩ := foldl_fill_of_ne ads ⟨[], false, fun h => absurd h (by decide)⟩ rfl hadded
      obtain ⟨code, v, hsearch, hiff⟩ := h.search_zero hs hle hkind hspare maxDataSize hfuel'
      have hmissed : lay.ZeroMissed (lay.filled ads).es maxDataSize
          ↔ lay.ZeroMissed (table ads) maxDataSize := by
        unfold filled table
        rw [hes]
      refine ⟨code, v, hsearch, ?_⟩
      rw [imp_iff_not hadded, hiff, not_not, hmissed, or_iff_right (fun hbad => hbad rfl),
        or_iff_right hadded]
    · have hnot : key ∉ (lay.filled ads).es.map Prod.fst := by
        unfold filled
        rw [keys_foldl_fill ads _ key hkey]
        exact not_or.mpr ⟨List.not_mem_nil, hadded⟩
      obtain ⟨code, hneg, hsearch⟩ := h.search_absent hs hle hkey hnot maxDataSize hfuel'
      exact ⟨code, none, hsearch, iff_of_true (fun hbad => absurd hbad (by omega)) (Or.inl hkey)⟩

end Searching

/-- The chain of key 1 is full when 0 is added; the bucket that this opens
    takes key 2. -/
theorem search_sound_iff_oneBucket :
    ∃ st₀ st, QStoreManager.init none none 1 1 2 0 = .ok st₀ ∧
      st₀.addAll 5 [(1, [7, 8]), (0, [0, 0]), (2, [9, 9])] = some st ∧
      ∀ (key : ℕ) (maxDataSize : Option ℤ),
        ∃ code v, st.searchKey_FL 5 key maxDataSize = some (code, v) ∧
          ((code = 0 → key ∈ [1, 0, 2]) ↔
            key ≠ 0 ∨ 0 ∈ [1, 0, 2] ∨
              oneBucket.ZeroMissed (table [(1, [7, 8]), (0, [0, 0]), (2, [9, 9])]) maxDataSize) := by
  refine search_sound_iff oneBucket (by decide) 0 [(1, [7, 8]), (0, [0, 0]), (2, [9, 9])] ?_
    (oneBucket_safe (by decide)) (by decide)
  intro e he
  simp only [List.mem_cons, List.not_mem_nil, or_false] at he
  rcases he with rfl | rfl | rfl
  · exact ⟨by decide, fun _ => rfl⟩
  · exact ⟨by decide, fun _ => rfl⟩
  · exact ⟨by decide, fun _ => rfl⟩

/-- Key 1 is added, and the search for key 0 returns its value. -/
theorem zero_is_found :
    ∃ st₀ st, QStoreManager.init none none 1 2 2 0 = .ok st₀ ∧
      st₀.addAll 3 [(1, [7, 8])] = some st ∧
      st.searchKey_FL 3 0 (some 2) = some (0, some [7, 8]) ∧ 0 ∉ [1] := by
  refine ⟨_, _, rfl, rfl, ?_, by decide⟩
  decide

end Layout

end KalavaPir.Common
