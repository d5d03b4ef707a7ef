/-
  KalavaPir.Common.QStoreDelete — deleting from a store.

  `deleteKey_FL` sets the tag of an element and leaves its key where it is.
  `searchKey_FL` skips an element with a tag; `addKey_FL` and `deleteKey_FL` do
  not look at the tag.  A store with deletions is therefore the store of the
  same adds without them, plus some tags (`setTags`), and every function walks
  along the same chains as there.
-/
import KalavaPir.Common.QStoreSession

namespace KalavaPir.Common

open KalavaPir.Framework List Function

/-! ## §1. Tags. -/

/-- The tags of some elements set. -/
def QStoreManager.setTags (st : QStoreManager) (ps : List ℕ) : QStoreManager :=
  ps.foldl QStoreManager.setDeleted st

namespace Layout

variable {lay : Layout} {st : QStoreManager} {ps : List ℕ}

/-- The positions are positions of elements. -/
def Slots (lay : Layout) (ps : List ℕ) : Prop := ∀ p ∈ ps, ∃ b, p ∈ lay.slots b

theorem setTags_fits (hfit : lay.Fits st) : lay.Fits (st.setTags ps) := by
  induction ps generalizing st with
  | nil => exact hfit
  | cons p ps ih => exact ih ⟨hfit.bucketNum, hfit.bucketSize, hfit.dataLen⟩

theorem setTags_eq (st : QStoreManager) (ps : List ℕ) :
    st.setTags ps = { st with
      m_fpHash := ps.foldl (fun f p => f.fwrite (p + 8) [1]) st.m_fpHash } := by
  unfold QStoreManager.setTags
  induction ps generalizing st with
  | nil => rfl
  | cons p ps ih =>
    rw [foldl_cons, foldl_cons, ih]
    rfl

theorem setTags_size (st : QStoreManager) (ps : List ℕ) :
    st.m_fpHash.size ≤ (st.setTags ps).m_fpHash.size := by
  induction ps generalizing st with
  | nil => exact Nat.le_refl _
  | cons p ps ih => exact Nat.le_trans (Nat.le_max_left _ _) (ih (st.setDeleted p))

variable {q n b p key : ℕ} {e : StoreEntry}

theorem setTags_bytes (h : ∀ p ∈ ps, q + n ≤ p + 8 ∨ p + 9 ≤ q) :
    (st.setTags ps).m_fpHash.bytes q n = st.m_fpHash.bytes q n := by
  unfold QStoreManager.setTags
  induction ps generalizing st with
  | nil => rfl
  | cons p ps ih =>
    rw [foldl_cons, ih (fun x hx => h x (mem_cons_of_mem p hx))]
    exact ByteFile.bytes_fwrite_of_disjoint (h p mem_cons_self)

/-- An element keeps all bytes but its tag. -/
theorem setTags_element (hps : lay.Slots ps) {m : ℕ} (hq : q ∈ lay.slots b)
    (h : n + m ≤ 8 ∨ 9 ≤ n ∧ n + m ≤ lay.elementLen) :
    (st.setTags ps).m_fpHash.bytes (q + n) m = st.m_fpHash.bytes (q + n) m := by
  have hlen := lay.nine_le_elementLen
  refine setTags_bytes ?_
  intro p hp
  obtain ⟨c, hc⟩ := hps p hp
  obtain ⟨i, hi, rfl⟩ := lay.mem_slots.mp hq
  obtain ⟨k, hk, rfl⟩ := lay.mem_slots.mp hc
  by_cases heq : lay.slot b i = lay.slot c k
  · rw [heq]
    omega
  · have := lay.slot_disjoint hi hk heq
    omega

theorem setTags_keyAt (hps : lay.Slots ps) (hq : q ∈ lay.slots b) :
    keyAt (st.setTags ps).m_fpHash q = keyAt st.m_fpHash q := by
  have h : (st.setTags ps).m_fpHash.bytes (q + 0) 8 = st.m_fpHash.bytes (q + 0) 8 :=
    setTags_element hps hq (Or.inl (Nat.le_refl 8))
  exact congrArg decode h

theorem setTags_next (hps : lay.Slots ps) (b : ℕ) :
    lay.next (st.setTags ps).m_fpHash b = lay.next st.m_fpHash b := by
  have hlen := lay.nine_le_elementLen
  unfold next
  rw [setTags_bytes]
  intro p hp
  obtain ⟨c, hc⟩ := hps p hp
  obtain ⟨k, hk, rfl⟩ := lay.mem_slots.mp hc
  have := lay.slot_link_disjoint (b := c) (c := b) hk
  omega

/-- The tag of an element is set if it is among them. -/
theorem setTags_flag_self (hp : p ∈ ps) : (st.setTags ps).m_fpHash.bytes (p + 8) 1 = [1] := by
  unfold QStoreManager.setTags
  induction ps using List.reverseRecOn with
  | nil => exact absurd hp not_mem_nil
  | append_singleton ps q ih =>
    rw [foldl_append]
    show ((ps.foldl QStoreManager.setDeleted st).m_fpHash.fwrite (q + 8) [1]).bytes (p + 8) 1 = [1]
    by_cases heq : p = q
    · rw [heq]
      exact ByteFile.bytes_fwrite_self _ (q + 8) [1]
    have hmem : p ∈ ps := by
      rw [mem_append, mem_singleton] at hp
      exact hp.resolve_right heq
    rw [ByteFile.bytes_fwrite_of_disjoint]
    · exact ih hmem
    · rw [length_singleton]
      omega

theorem setTags_flag_other (hp : p ∉ ps) :
    (st.setTags ps).m_fpHash.bytes (p + 8) 1 = st.m_fpHash.bytes (p + 8) 1 := by
  refine setTags_bytes ?_
  intro q hq
  have hne : p ≠ q := by
    intro heq
    rw [heq] at hp
    exact hp hq
  omega

theorem setTags_snoc (st : QStoreManager) (ps : List ℕ) (p : ℕ) :
    st.setTags (ps ++ [p]) = (st.setTags ps).setDeleted p := by
  unfold QStoreManager.setTags
  rw [foldl_append]
  rfl

/-! ## §2. The same walks. -/

theorem setTags_chain (hps : lay.Slots ps) {cs : List ℕ} (hc : lay.Chain st.m_fpHash cs) :
    lay.Chain (st.setTags ps).m_fpHash cs where
  linked := linked_congr (fun b _ => setTags_next hps b) hc.linked
  covered b hb := Nat.le_trans (hc.covered b hb) (setTags_size st ps)
  below := hc.below
  nonzero := hc.nonzero

theorem probe_congr {h h' : ByteFile} {qs : List ℕ} (hsame : ∀ q ∈ qs, keyAt h' q = keyAt h q) :
    probe h' key qs = probe h key qs := by
  induction qs with
  | nil => rfl
  | cons q qs ih =>
    rw [probe, probe, hsame q mem_cons_self,
      ih (fun x hx => hsame x (mem_cons_of_mem q hx))]

theorem setTags_probe (hps : lay.Slots ps) (key : ℕ) (cs : List ℕ) :
    probe (st.setTags ps).m_fpHash key (lay.chainSlots cs) = probe st.m_fpHash key (lay.chainSlots cs) := by
  refine probe_congr ?_
  intro q hq
  obtain ⟨b, _, i, hi, rfl⟩ := lay.mem_chainSlots.mp hq
  exact setTags_keyAt hps (lay.mem_slots.mpr ⟨i, hi, rfl⟩)

/-- A new element and the tag of another. -/
theorem setDeleted_insertAt (h : q + 9 ≤ p ∨ p + lay.elementLen ≤ q + 8) (key : ℕ) (v : List UInt8) :
    (st.setDeleted q).insertAt p key (lay.record v) = (st.insertAt p key (lay.record v)).setDeleted q := by
  have hhash : ((st.setDeleted q).insertAt p key (lay.record v)).m_fpHash
      = ((st.insertAt p key (lay.record v)).setDeleted q).m_fpHash := by
    show _ = (st.insertAt p key (lay.record v)).m_fpHash.fwrite (q + 8) [1]
    rw [insertAt_hash, insertAt_hash]
    refine ByteFile.fwrite_comm _ ?_
    rw [length_element, length_singleton]
    omega
  cases hr : lay.record v with
  | none =>
    rw [hr] at hhash
    exact congrArg (fun f => { st with m_fpHash := f }) hhash
  | some r =>
    rw [hr] at hhash
    exact congrArg (fun f => { st with
      m_fpData := st.m_fpData.fwrite st.m_fpData.size r, m_fpHash := f }) hhash

theorem setTags_insertAt (hps : lay.Slots ps) (hp : p ∈ lay.slots b) (hnot : p ∉ ps) (key : ℕ)
    (v : List UInt8) : (st.setTags ps).insertAt p key (lay.record v)
      = (st.insertAt p key (lay.record v)).setTags ps := by
  unfold QStoreManager.setTags
  induction ps generalizing st with
  | nil => rfl
  | cons q ps ih =>
    obtain ⟨c, hc⟩ := hps q mem_cons_self
    obtain ⟨i, hi, rfl⟩ := lay.mem_slots.mp hp
    obtain ⟨k, hk, rfl⟩ := lay.mem_slots.mp hc
    have hlen := lay.nine_le_elementLen
    have hne : lay.slot b i ≠ lay.slot c k :=
      fun heq => hnot (by rw [heq]; exact mem_cons_self)
    have hdis := lay.slot_disjoint hi hk hne
    rw [foldl_cons, foldl_cons,
      ih (fun x hx => hps x (mem_cons_of_mem _ hx))
        (fun hmem => hnot (mem_cons_of_mem _ hmem)),
      setDeleted_insertAt (by omega)]

/-- A new bucket and the tag of an element of another. -/
theorem setDeleted_opened (hfit : lay.Fits st) (hn : lay.NextBucket st n)
    (hlink : q + 9 ≤ lay.link b ∨ lay.link b + 4 ≤ q + 8)
    (hnew : q + 9 ≤ lay.pos n ∨ lay.pos n + lay.bucketLen ≤ q + 8) :
    lay.opened (st.setDeleted q) b = (lay.opened st b).setDeleted q := by
  have hfit' : lay.Fits (st.setDeleted q) := ⟨hfit.bucketNum, hfit.bucketSize, hfit.dataLen⟩
  have hn' : lay.NextBucket (st.setDeleted q) n := ⟨hn.counter, hn.below⟩
  have hhash : (lay.opened (st.setDeleted q) b).m_fpHash
      = ((lay.opened st b).setDeleted q).m_fpHash := by
    show _ = (lay.opened st b).m_fpHash.fwrite (q + 8) [1]
    rw [opened_hash hn' hfit', opened_hash hn hfit]
    show ((st.m_fpHash.fwrite (q + 8) [1]).fwrite _ _).fwrite _ _ = _
    rw [ByteFile.fwrite_comm st.m_fpHash, ByteFile.fwrite_comm (st.m_fpHash.fwrite _ _)]
    · rw [length_replicate, length_singleton]
      omega
    · rw [length_encode, length_singleton]
      omega
  exact congrArg (fun f => { st with
    m_iBucketOverflowNum := wrap32 (st.m_iBucketOverflowNum + 1), m_fpHash := f }) hhash

theorem setTags_opened (hps : lay.Slots ps) (hfit : lay.Fits st) (hn : lay.NextBucket st n)
    (hnot : ∀ p ∈ ps, p ∉ lay.slots n) (b : ℕ) :
    lay.opened (st.setTags ps) b = (lay.opened st b).setTags ps := by
  unfold QStoreManager.setTags
  induction ps generalizing st with
  | nil => rfl
  | cons q ps ih =>
    have hlen := lay.nine_le_elementLen
    obtain ⟨c, hc⟩ := hps q mem_cons_self
    have hother := hnot q mem_cons_self
    obtain ⟨k, hk, rfl⟩ := lay.mem_slots.mp hc
    have hcn : c ≠ n := by
      intro heq
      rw [heq] at hc hother
      exact hother hc
    have hslot := lay.slot_add_le (b := c) hk
    have hlinkc := lay.link_add c
    have hpos := lay.pos_disjoint hcn
    have hle := lay.pos_le_slot c k
    have hdis := lay.slot_link_disjoint (b := c) (c := b) hk
    have hfit' : lay.Fits (st.setDeleted (lay.slot c k)) :=
      ⟨hfit.bucketNum, hfit.bucketSize, hfit.dataLen⟩
    have hn' : lay.NextBucket (st.setDeleted (lay.slot c k)) n := ⟨hn.counter, hn.below⟩
    rw [foldl_cons, foldl_cons,
      ih (fun x hx => hps x (mem_cons_of_mem _ hx)) hfit' hn'
        (fun x hx => hnot x (mem_cons_of_mem _ hx)),
      setDeleted_opened hfit hn (by omega) (by omega)]

/-! ## §3. A store with deletions. -/

/-- The place of a key is the only one. -/
theorem probe_of_keyAt {h : ByteFile} (hkey : key ≠ 0) (ks : List ℕ) :
    ∀ (qs : List ℕ) (z : ℕ), Holds h qs ks z → (∀ k ∈ ks, k ≠ 0) → ks.Nodup → ∀ p ∈ qs, keyAt h p = key →
      key ∈ ks ∧ probe h key qs = .hit p := by
  induction ks with
  | nil =>
    intro qs z hqs _ _ p hp hpkey
    -- there are only free places
    have hmem : keyAt h p ∈ qs.map (keyAt h) := mem_map_of_mem hp
    rw [hqs, nil_append] at hmem
    rw [← hpkey, eq_of_mem_replicate hmem] at hkey
    exact absurd rfl hkey
  | cons k ks ih =>
    intro qs z hqs hne hnd p hp hpkey
    cases qs with
    | nil => exact absurd hp not_mem_nil
    | cons q qs =>
      unfold Holds at hqs
      rw [map_cons, cons_append, List.cons.injEq] at hqs
      obtain ⟨hq, hrest⟩ := hqs
      rw [nodup_cons] at hnd
      obtain heq | hp' := mem_cons.mp hp
      · rw [heq] at hpkey ⊢
        rw [hq] at hpkey
        exact ⟨by rw [← hpkey]; exact mem_cons_self, probe_hit (hq.trans hpkey)⟩
      obtain ⟨hmem, hprobe⟩ := ih qs z hrest
        (fun x hx => hne x (mem_cons_of_mem k hx)) hnd.2 p hp' hpkey
      have hother : keyAt h q ≠ key := by
        intro heq
        rw [hq] at heq
        rw [heq] at hnd
        exact hnd.1 hmem
      have hzero : keyAt h q ≠ 0 := by
        rw [hq]
        exact hne k mem_cons_self
      rw [probe_skip hother hzero]
      exact ⟨mem_cons_of_mem k hmem, hprobe⟩

variable {plain : QStoreManager} {es : List StoreEntry} {del : List ℕ} {chain : ℕ → List ℕ}
  {used : Set ℕ} {c : ℤ} {k K fuel : ℕ}

theorem Rep.place (h : lay.Rep plain es chain used) {j : ℕ} (hj : j < lay.bucketNum)
    (hp : p ∈ lay.chainSlots (chain j)) (hkey : keyAt plain.m_fpHash p = key) (hne : key ≠ 0) :
    key % lay.bucketNum = j ∧ key ∈ es.map Prod.fst ∧
      probe plain.m_fpHash key (lay.chainSlots (chain j)) = .hit p := by
  obtain ⟨z, hz⟩ := h.keys j hj
  obtain ⟨hnonzero, hnd⟩ := h.entryKeys j
  obtain ⟨hmem, hprobe⟩ := probe_of_keyAt hne _ _ z hz hnonzero hnd p hp hkey
  obtain ⟨e, he, heq⟩ := mem_map.mp hmem
  have hmod := (mem_filter.mp he).2
  rw [beq_iff_eq, heq] at hmod
  exact ⟨hmod, by rw [← heq]; exact mem_map_of_mem (mem_of_mem_filter he), hprobe⟩

/-- The place of a key that was added. -/
theorem Rep.probe_stored (h : lay.Rep plain es chain used) (hmem : key ∈ es.map Prod.fst) :
    ∃ p, p ∈ lay.chainSlots (chain (key % lay.bucketNum)) ∧ keyAt plain.m_fpHash p = key ∧
      probe plain.m_fpHash key (lay.chainSlots (chain (key % lay.bucketNum))) = .hit p := by
  have hj := lay.base_lt key
  obtain ⟨z, hz⟩ := h.keys _ hj
  obtain ⟨hne, hnd⟩ := h.entryKeys (key % lay.bucketNum)
  have hkey : key ∈ (lay.entries es (key % lay.bucketNum)).map Prod.fst := by
    obtain ⟨e, he, heq⟩ := mem_map.mp hmem
    rw [← heq]
    exact mem_map_of_mem (mem_entries.mpr he)
  obtain ⟨i, hi⟩ := mem_iff_getElem?.mp hkey
  obtain ⟨p, hp, hhit⟩ := probe_present _ _ z i hz hne hnd hi
  exact ⟨p, mem_of_getElem? hp, probe_hit_key hhit, hhit⟩

/-- **The invariant**: `st` is the store `plain` of the adds `es` with the tags
    `ps` of the elements whose keys are in `del`. -/
structure TaggedAt (lay : Layout) (c : ℤ) (k : ℕ) (st : QStoreManager) (es : List StoreEntry)
    (del : List ℕ) (plain : QStoreManager) (chain : ℕ → List ℕ) (ps : List ℕ) : Prop where
  session : lay.SessionAt ∅ 0 c k plain es chain
  tags : st = plain.setTags ps
  places : ∀ p ∈ ps, ∃ j < lay.bucketNum, p ∈ lay.chainSlots (chain j)
  iff : ∀ j < lay.bucketNum, ∀ p ∈ lay.chainSlots (chain j),
    p ∈ ps ↔ keyAt plain.m_fpHash p ∈ del
  deleted : ∀ key ∈ del, key ∈ es.map Prod.fst

/-- The same, as it looks from outside. -/
def Tagged (lay : Layout) (c : ℤ) (st : QStoreManager) (es : List StoreEntry) (del : List ℕ) : Prop :=
  ∃ k plain chain ps, lay.TaggedAt c k st es del plain chain ps

section Walks

variable (h : lay.TaggedAt c k st es del plain chain ps)
include h

theorem TaggedAt.slots : lay.Slots ps := by
  intro p hp
  obtain ⟨j, _, hpj⟩ := h.places p hp
  obtain ⟨b, _, i, hi, rfl⟩ := lay.mem_chainSlots.mp hpj
  exact ⟨b, lay.mem_slots.mpr ⟨i, hi, rfl⟩⟩

theorem TaggedAt.fits : lay.Fits st := by
  rw [h.tags]
  exact setTags_fits h.session.rep.fits

theorem TaggedAt.walkable (key : ℕ) : lay.Chain st.m_fpHash (chain (key % lay.bucketNum)) := by
  rw [h.tags]
  exact setTags_chain h.slots (h.session.rep.walkable h.session.range (lay.base_lt key))

theorem TaggedAt.probe (key : ℕ) (cs : List ℕ) : Common.probe st.m_fpHash key (lay.chainSlots cs)
      = Common.probe plain.m_fpHash key (lay.chainSlots cs) := by
  rw [h.tags]
  exact setTags_probe h.slots key cs

theorem TaggedAt.keyAt {cs : List ℕ} {p : ℕ} (hp : p ∈ lay.chainSlots cs) :
    Common.keyAt st.m_fpHash p = Common.keyAt plain.m_fpHash p := by
  obtain ⟨b, _, i, hi, rfl⟩ := lay.mem_chainSlots.mp hp
  rw [h.tags]
  exact setTags_keyAt h.slots (lay.mem_slots.mpr ⟨i, hi, rfl⟩)

theorem TaggedAt.zero_notMem : 0 ∉ del := by
  intro hzero
  obtain ⟨e, he, heq⟩ := mem_map.mp (h.deleted 0 hzero)
  exact (h.session.rep.addable e he).key_ne heq

theorem TaggedAt.chain_length (key : ℕ) : (chain (key % lay.bucketNum)).length ≤ es.length + 1 :=
  h.session.tight.length_le key

end Walks

/-! ## §4. Searching. -/

/-- A key that is not there, or deleted, is not found. -/
theorem Tagged.search_missing (h : lay.Tagged c st es del) (hkey : key ≠ 0)
    (hgone : key ∈ del ∨ key ∉ es.map Prod.fst) (maxDataSize : Option ℤ) (hfuel : es.length + 1 ≤ fuel) :
    ∃ code < 0, st.searchKey_FL fuel key maxDataSize = some (code, none) := by
  obtain ⟨k, plain, chain, ps, h⟩ := h
  have hj := lay.base_lt key
  obtain ⟨os, hos⟩ := h.session.rep.base _ hj
  have hc := h.walkable key
  have hlen := h.chain_length key
  have hflags : ∀ p ∈ lay.chainSlots (chain (key % lay.bucketNum)), keyAt st.m_fpHash p = key →
      st.m_fpHash.bytes (p + 8) 1 = [1] := by
    intro p hp hpkey
    rw [h.keyAt hp] at hpkey
    obtain ⟨_, hmem, _⟩ := h.session.rep.place hj hp hpkey hkey
    obtain hdel | hnot := hgone
    · rw [h.tags]
      refine setTags_flag_self ((h.iff _ hj p hp).mpr ?_)
      rw [hpkey]
      exact hdel
    · exact absurd hmem hnot
  rw [hos] at hc hflags hlen
  exact searchKey_FL_skip h.fits maxDataSize hc hflags (Nat.le_trans hlen hfuel)

/-- A search sees the same value behind an element. -/
theorem TaggedAt.found_eq (h : lay.TaggedAt c k st es del plain chain ps)
    (hp : p ∈ lay.chainSlots (chain (key % lay.bucketNum))) (maxDataSize : ℤ) :
    lay.found st maxDataSize p = lay.found plain maxDataSize p := by
  have hcst := h.walkable key
  have hcplain := h.session.rep.walkable h.session.range (lay.base_lt key)
  obtain ⟨b, hb, i, hi, rfl⟩ := lay.mem_chainSlots.mp hp
  have hslot : lay.slot b i ∈ lay.slots b := lay.mem_slots.mpr ⟨i, hi, rfl⟩
  have hdata : st.m_fpData = plain.m_fpData := by
    rw [h.tags, setTags_eq]
  have hlen : st.m_iDataLen = plain.m_iDataLen := by
    rw [h.tags, setTags_eq]
  have hbytes : lay.elementLen = 17 →
      st.m_fpHash.bytes (lay.slot b i + 9) 8 = plain.m_fpHash.bytes (lay.slot b i + 9) 8 := by
    intro helem
    rw [h.tags]
    exact setTags_element h.slots hslot (Or.inr ⟨Nat.le_refl 9, by omega⟩)
  unfold found
  rcases lay.elementLen_cases with ⟨_, hzero⟩ | ⟨helem, _⟩
  · have hz : plain.m_iDataLen ≤ 0 := by
      rw [h.session.rep.fits.dataLen, hzero]
    rw [if_pos (by omega), if_pos (by omega)]
    unfold QStoreManager.hit_FL
    rw [hlen]
    simp only [if_pos hz]
  rw [hbytes helem]
  by_cases hkind : 0 ≤ lay.dataLen
  · rw [if_pos hkind, if_pos hkind]
    unfold QStoreManager.hit_FL
    rw [fread_slot (hcst.covered b hb) hi (by omega), fread_slot (hcplain.covered b hb) hi (by omega),
      hbytes helem, hlen, hdata]
  · rw [if_neg hkind, if_neg hkind]
    unfold QStoreManager.hit_VL
    rw [hdata]

/-- **A key that was added and not deleted is found.** -/
theorem Tagged.search_found (h : lay.Tagged c st es del) {v : List UInt8} (hmem : (key, v) ∈ es)
    (hlive : key ∉ del) {maxDataSize : ℤ} (hmax : (v.length : ℤ) ≤ maxDataSize)
    (hfuel : es.length + 1 ≤ fuel) : st.searchKey fuel key maxDataSize = some (lay.answer v) := by
  obtain ⟨k, plain, chain, ps, h⟩ := h
  have hj := lay.base_lt key
  have hrep := h.session.rep
  have hlen := h.chain_length key
  have hplain := hrep.search_stored h.session.range hmem hmax (Nat.le_trans hlen hfuel)
  obtain ⟨p, hp, hpkey, hhit⟩ := hrep.probe_stored (mem_map_of_mem hmem)
  have hflags : ∀ q ∈ lay.chainSlots (chain (key % lay.bucketNum)), keyAt st.m_fpHash q = key →
      st.m_fpHash.bytes (q + 8) 1 = [0] := by
    intro q hq hqkey
    rw [h.keyAt hq] at hqkey
    have hnot : q ∉ ps := by
      intro hbad
      have hdel := (h.iff _ hj q hq).mp hbad
      rw [hqkey] at hdel
      exact hlive hdel
    rw [h.tags, setTags_flag_other hnot]
    exact hrep.flags _ hj q hq
  have hfound := h.found_eq hp maxDataSize
  have hprobe := h.probe key (chain (key % lay.bucketNum))
  have hcst := h.walkable key
  have hcplain := hrep.walkable h.session.range hj
  have hplainflags := hrep.flags _ hj
  obtain ⟨os, hos⟩ := hrep.base _ hj
  rw [hos] at hcst hcplain hflags hplainflags hlen hhit hprobe
  rw [searchKey_walk hrep.fits hcplain (fun q hq _ => hplainflags q hq)
    (Nat.le_trans hlen hfuel), hhit] at hplain
  rw [searchKey_walk h.fits hcst hflags (Nat.le_trans hlen hfuel), hprobe, hhit]
  dsimp only at hplain ⊢
  rw [hfound]
  exact hplain

/-! ## §5. One call. -/

/-- What a walk finds for a key that was never added. -/
theorem TaggedAt.probe_unknown (h : lay.TaggedAt c k st es del plain chain ps) (hkey : key ≠ 0)
    (hnot : key ∉ es.map Prod.fst) : (lay.ChainFull es key ∧
        Common.probe st.m_fpHash key (lay.chainSlots (chain (key % lay.bucketNum))) = .full) ∨
      ¬lay.ChainFull es key ∧ ∃ p,
        Common.probe st.m_fpHash key (lay.chainSlots (chain (key % lay.bucketNum))) = .hole p := by
  have hj := lay.base_lt key
  obtain ⟨z, hz⟩ := h.session.rep.keys _ hj
  obtain ⟨hne, _⟩ := h.session.rep.entryKeys (key % lay.bucketNum)
  have hnot' : key ∉ (lay.entries es (key % lay.bucketNum)).map Prod.fst := by
    intro hmem
    obtain ⟨e, he, heq⟩ := mem_map.mp hmem
    exact hnot (mem_map.mpr ⟨e, mem_of_mem_filter he, heq⟩)
  have hlen := congrArg List.length hz
  rw [length_map, length_append, length_map, length_replicate, length_chainSlots,
    h.session.tight _ hj] at hlen
  have hiff := lay.eq_chainLen_iff (lay.entries es (key % lay.bucketNum)).length
  rw [h.probe]
  rcases probe_absent hkey _ _ z hz hne hnot' with ⟨hzero, hfull⟩ | ⟨p, hp, hhole⟩
  · exact Or.inl ⟨hiff.mp (by omega), hfull⟩
  have hlt := (List.getElem?_eq_some_iff.mp hp).1
  rw [length_map, length_chainSlots, h.session.tight _ hj] at hlt
  refine Or.inr ⟨fun hbad => ?_, p, hhole⟩
  have heq := hiff.mpr hbad
  omega

/-- **Deleting a key that was added** returns 0 and sets its tag, again if it
    was set already. -/
theorem Tagged.delete_known (h : lay.Tagged c st es del) (hmem : key ∈ es.map Prod.fst)
    (hfuel : es.length + 1 ≤ fuel) :
    ∃ st', st.deleteKey_FL fuel key = some (0, st') ∧ lay.Tagged c st' es (key :: del) := by
  obtain ⟨k, plain, chain, ps, h⟩ := h
  have hj := lay.base_lt key
  have hrep := h.session.rep
  obtain ⟨p, hp, hpkey, hhit⟩ := hrep.probe_stored hmem
  have hwalk := deleteKey_walk h.fits (h.walkable key) (hrep.base _ hj)
    (Nat.le_trans (h.chain_length key) hfuel)
  rw [h.probe, hhit] at hwalk
  have hne : key ≠ 0 := by
    obtain ⟨e, he, heq⟩ := mem_map.mp hmem
    rw [← heq]
    exact (hrep.addable e he).key_ne
  refine ⟨st.setDeleted p, hwalk, k, plain, chain, ps ++ [p], h.session, ?_, ?_, ?_, ?_⟩
  · rw [setTags_snoc, h.tags]
  · intro q hq
    obtain hq' | hq' := mem_append.mp hq
    · exact h.places q hq'
    · rw [mem_singleton.mp hq']
      exact ⟨_, hj, hp⟩
  · intro j hj' q hq
    rw [mem_append, mem_singleton, h.iff j hj' q hq, mem_cons]
    constructor
    · intro hor
      obtain hdel | heq := hor
      · exact Or.inr hdel
      · rw [heq]
        exact Or.inl hpkey
    · intro hor
      obtain heq | hdel := hor
      · -- the key has one place only
        obtain ⟨hmod, _, hprobe⟩ := hrep.place hj' hq heq hne
        rw [← hmod, hhit, Probe.hit.injEq] at hprobe
        exact Or.inr hprobe.symm
      · exact Or.inl hdel
  · exact forall_mem_cons.mpr ⟨hmem, h.deleted⟩

/-- **Deleting a key that was never added** returns 1, or −6 from a chain that
    is exactly full. -/
theorem Tagged.delete_unknown (h : lay.Tagged c st es del) (hkey : key ≠ 0) (hnot : key ∉ es.map Prod.fst)
    (hfuel : es.length + 1 ≤ fuel) :
    st.deleteKey_FL fuel key = some (if lay.ChainFull es key then -6 else 1, st) := by
  obtain ⟨k, plain, chain, ps, h⟩ := h
  have hwalk := deleteKey_walk h.fits (h.walkable key) (h.session.rep.base _ (lay.base_lt key))
    (Nat.le_trans (h.chain_length key) hfuel)
  rw [hwalk]
  obtain ⟨hfull, hprobe⟩ | ⟨hroom, p, hprobe⟩ := h.probe_unknown hkey hnot
  · rw [hprobe, if_pos hfull]
  · rw [hprobe, if_neg hroom]

/-- **Adding a key that was added before** returns 1, also if it is deleted. -/
theorem Tagged.add_known (h : lay.Tagged c st es del) (hmem : e.1 ∈ es.map Prod.fst)
    (hfuel : es.length + 1 ≤ fuel) : st.addKey fuel e = some (1, st) := by
  obtain ⟨k, plain, chain, ps, h⟩ := h
  have hj := lay.base_lt e.1
  have hrep := h.session.rep
  obtain ⟨p, _, _, hhit⟩ := hrep.probe_stored hmem
  obtain ⟨codes, hadd⟩ := addKey_walk h.fits e (h.walkable e.1) (hrep.base _ hj) (hrep.chain_ne_nil hj)
  obtain ⟨extra, rfl⟩ := Nat.exists_eq_add_of_le' (Nat.le_trans (h.chain_length e.1) hfuel)
  rw [hadd, h.probe, hhit]

/-- The tags after an add: the elements that hold a key keep it. -/
theorem TaggedAt.carry (h : lay.TaggedAt c k st es del plain chain ps) {k' : ℕ} {plain' : QStoreManager}
    {chain' : ℕ → List ℕ} (hses : lay.SessionAt ∅ 0 c k' plain' (es ++ [e]) chain')
    (hkeep : ∀ j < lay.bucketNum, ∀ p ∈ lay.chainSlots (chain j), Common.keyAt plain.m_fpHash p ≠ 0 → p ∈ lay.chainSlots (chain' j) ∧ Common.keyAt plain'.m_fpHash p = Common.keyAt plain.m_fpHash p) :
    lay.TaggedAt c k' (plain'.setTags ps) (es ++ [e]) del plain' chain' ps := by
  have hzero := h.zero_notMem
  have hplace : ∀ p ∈ ps, ∃ j < lay.bucketNum, p ∈ lay.chainSlots (chain' j) ∧
      Common.keyAt plain'.m_fpHash p = Common.keyAt plain.m_fpHash p ∧
        Common.keyAt plain.m_fpHash p ∈ del := by
    intro p hp
    obtain ⟨j, hj, hpj⟩ := h.places p hp
    have hdel := (h.iff j hj p hpj).mp hp
    have hne : Common.keyAt plain.m_fpHash p ≠ 0 := by
      intro heq
      rw [heq] at hdel
      exact hzero hdel
    obtain ⟨hnew, hkey⟩ := hkeep j hj p hpj hne
    exact ⟨j, hj, hnew, hkey, hdel⟩
  refine ⟨hses, rfl, ?_, ?_, ?_⟩
  · intro p hp
    obtain ⟨j, hj, hpj, _⟩ := hplace p hp
    exact ⟨j, hj, hpj⟩
  · intro j hj q hq
    constructor
    · intro hqs
      obtain ⟨_, _, _, hkey, hdel⟩ := hplace q hqs
      rw [hkey]
      exact hdel
    · intro hdel
      -- the old place of the key is the new one
      have hmem := h.deleted _ hdel
      have hne : Common.keyAt plain'.m_fpHash q ≠ 0 := by
        intro heq
        rw [heq] at hdel
        exact hzero hdel
      obtain ⟨p, hp, hpkey, _⟩ := h.session.rep.probe_stored hmem
      have hps : p ∈ ps := (h.iff _ (lay.base_lt _) p hp).mpr (by rw [hpkey]; exact hdel)
      obtain ⟨hnew, hkey⟩ := hkeep _ (lay.base_lt _) p hp (by rw [hpkey]; exact hne)
      obtain ⟨hmod, _, hprobe⟩ := hses.rep.place hj hq rfl hne
      obtain ⟨_, _, hprobe'⟩ := hses.rep.place (lay.base_lt _) hnew (hkey.trans hpkey) hne
      rw [hmod, hprobe, Probe.hit.injEq] at hprobe'
      rw [hprobe']
      exact hps
  · intro key hkey
    rw [map_append]
    exact mem_append_left _ (h.deleted key hkey)

/-- **Adding a new key** returns 0. -/
theorem Tagged.add_new (h : lay.Tagged c st es del) (hs : lay.Safe ∅ c K) (hv : lay.Addable e)
    (hnew : e.1 ∉ es.map Prod.fst) (hK : lay.overflow (es ++ [e]) ≤ K) (hfuel : es.length + 2 ≤ fuel) :
    ∃ st', st.addKey fuel e = some (0, st') ∧ lay.Tagged c st' (es ++ [e]) del := by
  obtain ⟨k, plain, chain, ps, h⟩ := h
  have hj := lay.base_lt e.1
  have hrep := h.session.rep
  have hlen := h.chain_length e.1
  have hne := hrep.chain_ne_nil hj
  have hbase := hrep.base _ hj
  have hzero := h.zero_notMem
  rcases hrep.probe_new hv hnew with ⟨hcount, hfull⟩ | ⟨p, hp, hhole⟩
  · obtain ⟨n, hn, hout, hfree, hses, _⟩ := h.session.add_open hs
      (h.session.opens_left hcount (by omega)) hv hnew hcount hne
    have hold : ∀ j < lay.bucketNum, ∀ x ∈ chain j, x ≠ n :=
      fun j hj => hrep.not_in_use hout hfree hj
    have hn' : lay.NextBucket st n := by
      refine ⟨?_, hn.below⟩
      rw [h.tags, setTags_eq]
      exact hn.counter
    have hfirst : lay.slot n 0 ∈ lay.slots n := lay.mem_slots.mpr ⟨0, lay.bucketSize_pos, rfl⟩
    have houtside : ∀ p ∈ ps, p ∉ lay.slots n := by
      intro p hp hbad
      obtain ⟨j, hj, hpj⟩ := h.places p hp
      obtain ⟨b, hb, i, hi, rfl⟩ := lay.mem_chainSlots.mp hpj
      exact hold j hj b hb (slots_apart (lay.mem_slots.mpr ⟨i, hi, rfl⟩) hbad)
    have hadd := addKey_full h.fits hv.key_ne (h.walkable e.1) hbase hne hn' (by rw [h.probe]; exact hfull)
      (by omega : _ ≤ fuel)
    have hsame : (lay.opened st ((chain (e.1 % lay.bucketNum)).getLast hne)).insertAt (lay.slot n 0)
        e.1 (lay.record e.2)
        = ((lay.opened plain ((chain (e.1 % lay.bucketNum)).getLast hne)).insertAt (lay.slot n 0)
          e.1 (lay.record e.2)).setTags ps := by
      rw [h.tags, setTags_opened h.slots hrep.fits hn houtside,
        setTags_insertAt h.slots hfirst (fun hbad => houtside _ hbad hfirst)]
    refine ⟨_, hadd, ?_⟩
    rw [hsame]
    refine ⟨k + 1, _, _, ps, h.carry hses ?_⟩
    intro j hj' q hq _
    have hkeep := opened_keyAt hn hrep.fits (hold j hj') hq (b := (chain (e.1 % lay.bucketNum)).getLast hne)
    have hother : q ≠ lay.slot n 0 := by
      intro heq
      obtain ⟨b, hb, i, hi, rfl⟩ := lay.mem_chainSlots.mp hq
      rw [← heq] at hfirst
      exact hold j hj' b hb (slots_apart (lay.mem_slots.mpr ⟨i, hi, rfl⟩) hfirst)
    constructor
    · by_cases hjj : j = e.1 % lay.bucketNum
      · rw [hjj, extend_self, chainSlots_snoc]
        rw [hjj] at hq
        exact mem_append_left _ hq
      · rw [extend_of_ne chain n hjj]
        exact hq
    · rw [← hkeep]
      obtain ⟨b, hb, i, hi, rfl⟩ := lay.mem_chainSlots.mp hq
      exact insertAt_keyAt_other (lay.mem_slots.mpr ⟨i, hi, rfl⟩) hfirst hother e.1 e.2
  · have hps : p ∉ ps := by
      intro hbad
      have hdel := (h.iff _ hj p (mem_of_getElem? hp)).mp hbad
      rw [probe_hole_zero hhole] at hdel
      exact hzero hdel
    obtain ⟨hses, _⟩ := h.session.add_place hv hnew hp hhole
    obtain ⟨codes, hadd⟩ := addKey_walk h.fits e (h.walkable e.1) hbase hne
    obtain ⟨extra, rfl⟩ := Nat.exists_eq_add_of_le' (by omega : (chain (e.1 % lay.bucketNum)).length ≤ fuel)
    have hwalk := hadd extra
    rw [h.probe, hhole] at hwalk
    obtain ⟨b, _, i, hi, heq⟩ := lay.mem_chainSlots.mp (mem_of_getElem? hp)
    have hsame : st.insertAt p e.1 (lay.record e.2)
        = (plain.insertAt p e.1 (lay.record e.2)).setTags ps := by
      rw [h.tags]
      exact setTags_insertAt h.slots (lay.mem_slots.mpr ⟨i, hi, heq⟩) hps e.1 e.2
    refine ⟨_, hwalk, ?_⟩
    rw [hsame]
    refine ⟨k, _, _, ps, h.carry hses ?_⟩
    intro j _ q hq hne'
    refine ⟨hq, place_keyAt hp hq ?_⟩
    intro hqp
    rw [hqp, probe_hole_zero hhole] at hne'
    exact hne' rfl

end Layout

/-! ## §6. Histories of calls. -/

/-- A call of a user of a store with values of fixed length, or none. -/
inductive StoreCall where
  | addKey_FL (e : StoreEntry)
  | deleteKey_FL (key : ℕ)

/-- One call. -/
def QStoreManager.call (fuel : ℕ) (st : QStoreManager) : StoreCall → Option (ℤ × QStoreManager)
  | .addKey_FL e => st.addKey_FL fuel e.1 e.2
  | .deleteKey_FL key => st.deleteKey_FL fuel key

/-- What a store is for: the values of the keys that are present. -/
abbrev Contents := ℕ → Option (List UInt8)

namespace StoreCall

/-- What a call returns to a user who knows the contents … -/
def expected (m : Contents) : StoreCall → ℤ
  | .addKey_FL e => if (m e.1).isSome then 1 else 0
  | .deleteKey_FL key => if (m key).isSome then 0 else 1

/-- … and the contents after it. -/
def after (m : Contents) : StoreCall → Contents
  | .addKey_FL e => if (m e.1).isSome then m else update m e.1 (some e.2)
  | .deleteKey_FL key => update m key none

/-- The entry a call adds. -/
def added : StoreCall → Option StoreEntry
  | .addKey_FL e => some e
  | .deleteKey_FL _ => none

end StoreCall

namespace Layout

variable {lay : Layout} {st : QStoreManager} {es : List StoreEntry} {del : List ℕ} {c : ℤ}
  {K fuel : ℕ}

/-- A call a user may make: the keys are not 0. -/
def Allowed (lay : Layout) : StoreCall → Prop
  | .addKey_FL e => lay.Addable e
  | .deleteKey_FL key => key ≠ 0

/-- **The store shows its contents**: a key that is present is found with its
    value, another one is not found. -/
def Shows (lay : Layout) (fuel : ℕ) (st : QStoreManager) (m : Contents) : Prop :=
  ∀ key ≠ 0,
    (∀ v, m key = some v → ∀ maxDataSize : ℤ, v.length ≤ maxDataSize →
      st.searchKey_FL fuel key (some maxDataSize) = some (lay.answer v)) ∧
    (m key = none → ∀ maxDataSize, ∃ code < 0, st.searchKey_FL fuel key maxDataSize = some (code, none))

/-- **The contract**: through the calls, the store shows its contents and each
    call returns what is expected. -/
def Obeys (lay : Layout) (fuel : ℕ) : QStoreManager → Contents → List StoreCall → Prop
  | st, m, [] => lay.Shows fuel st m
  | st, m, call :: calls =>
    lay.Shows fuel st m ∧ ∃ st', st.call fuel call = some (call.expected m, st') ∧
      lay.Obeys fuel st' (call.after m) calls

/-- **The condition** on one call to a store to which `es` has been added and
    from which the keys `del` have been deleted: it is not about a deleted key,
    and does not delete an unknown key from a chain that is exactly full. -/
def CleanCall (lay : Layout) (es : List StoreEntry) (del : List ℕ) : StoreCall → Prop
  | .addKey_FL e => e.1 ∉ del
  | .deleteKey_FL key => key ∉ del ∧ (key ∈ es.map Prod.fst ∨ ¬lay.ChainFull es key)

/-- The adds and the deletions after a call. -/
def track (es : List StoreEntry) (del : List ℕ) : StoreCall → List StoreEntry × List ℕ
  | .addKey_FL e => (insertNew es e, del)
  | .deleteKey_FL key => (es, if key ∈ es.map Prod.fst then key :: del else del)

/-- All calls meet the condition. -/
def Clean (lay : Layout) : List StoreEntry → List ℕ → List StoreCall → Prop
  | _, _, [] => True
  | es, del, call :: calls =>
    lay.CleanCall es del call ∧ lay.Clean (track es del call).1 (track es del call).2 calls

instance CleanCall.decidable (lay : Layout) (es : List StoreEntry) (del : List ℕ) :
    ∀ call, Decidable (lay.CleanCall es del call)
  | .addKey_FL e => inferInstanceAs (Decidable (e.1 ∉ del))
  | .deleteKey_FL key =>
    inferInstanceAs (Decidable (key ∉ del ∧ (key ∈ es.map Prod.fst ∨ ¬lay.ChainFull es key)))

instance Clean.decidable (lay : Layout) :
    ∀ (calls : List StoreCall) (es : List StoreEntry) (del : List ℕ), Decidable (lay.Clean es del calls)
  | [], _, _ => inferInstanceAs (Decidable True)
  | call :: calls, es, del =>
    @instDecidableAnd _ _ (CleanCall.decidable lay es del call)
      (Clean.decidable lay calls (track es del call).1 (track es del call).2)

/-- The contents of such a store. -/
def contents (es : List StoreEntry) (del : List ℕ) : Contents :=
  fun key => if key ∈ del then none else es.lookup key

theorem lookup_isSome_iff (es : List StoreEntry) (key : ℕ) :
    (es.lookup key).isSome ↔ key ∈ es.map Prod.fst := by
  rw [List.lookup_isSome_iff, List.mem_map]
  constructor
  · intro h
    obtain ⟨e, he, heq⟩ := h
    exact ⟨e, he, (beq_iff_eq.mp heq).symm⟩
  · intro h
    obtain ⟨e, he, heq⟩ := h
    exact ⟨e, he, beq_iff_eq.mpr heq.symm⟩

theorem contents_deleted {key : ℕ} (h : key ∈ del) : contents es del key = none := if_pos h

theorem contents_live {key : ℕ} (h : key ∉ del) : contents es del key = es.lookup key := if_neg h

theorem contents_snoc {e : StoreEntry} (hlive : e.1 ∉ del) (hnew : e.1 ∉ es.map Prod.fst) :
    contents (es ++ [e]) del = update (contents es del) e.1 (some e.2) := by
  funext key
  unfold contents
  rw [lookup_append]
  by_cases heq : key = e.1
  · have hnone : es.lookup e.1 = none := by
      rw [← Option.not_isSome_iff_eq_none, lookup_isSome_iff]
      exact hnew
    rw [heq, update_self, if_neg hlive, hnone, lookup_cons, beq_self_eq_true]
    rfl
  · have hbeq : (key == e.1) = false := beq_false_of_ne heq
    rw [update_of_ne heq, lookup_cons, hbeq, lookup_nil, Option.or_none]

theorem contents_cons (es : List StoreEntry) (del : List ℕ) (key : ℕ) :
    contents es (key :: del) = update (contents es del) key none := by
  funext x
  unfold contents
  by_cases heq : x = key
  · rw [heq, update_self, if_pos mem_cons_self]
  · rw [update_of_ne heq]
    exact if_congr (by rw [mem_cons, or_iff_right heq]) rfl rfl

/-- A store with deletions shows its contents. -/
theorem Tagged.shows (h : lay.Tagged c st es del) (hkind : 0 ≤ lay.dataLen)
    (hfuel : es.length + 1 ≤ fuel) : lay.Shows fuel st (contents es del) := by
  intro key hkey
  constructor
  · intro v hv maxDataSize hmax
    have hlive : key ∉ del := by
      intro hbad
      rw [contents_deleted hbad] at hv
      exact absurd hv (by simp)
    rw [contents_live hlive] at hv
    have hfound := h.search_found (mem_of_lookup hv) hlive hmax hfuel
    obtain ⟨k, plain, chain, ps, hat⟩ := h
    unfold QStoreManager.searchKey at hfound
    rw [hat.fits.dataLen, if_pos hkind] at hfound
    exact hfound
  · intro hnone maxDataSize
    refine h.search_missing hkey ?_ maxDataSize hfuel
    by_cases hdel : key ∈ del
    · exact Or.inl hdel
    · rw [contents_live hdel, ← Option.not_isSome_iff_eq_none, lookup_isSome_iff] at hnone
      exact Or.inr hnone

theorem Tagged.addKey_FL (h : lay.Tagged c st es del) (hkind : 0 ≤ lay.dataLen) (e : StoreEntry) :
    st.call fuel (.addKey_FL e) = st.addKey fuel e := by
  obtain ⟨k, plain, chain, ps, hat⟩ := h
  unfold QStoreManager.addKey
  rw [hat.fits.dataLen, if_pos hkind]
  rfl

variable {call : StoreCall}

/-- **A call that meets the condition** returns what is expected. -/
theorem Tagged.step_clean (h : lay.Tagged c st es del) (hs : lay.Safe ∅ c K) (hkind : 0 ≤ lay.dataLen)
    (hcall : lay.Allowed call) (hclean : lay.CleanCall es del call)
    (hK : lay.overflow (track es del call).1 ≤ K) (hfuel : es.length + 2 ≤ fuel) :
    ∃ st', st.call fuel call = some (call.expected (contents es del), st') ∧
      lay.Tagged c st' (track es del call).1 (track es del call).2 ∧
      call.after (contents es del) = contents (track es del call).1 (track es del call).2 := by
  cases call with
  | addKey_FL e =>
    have hsome : (contents es del e.1).isSome ↔ e.1 ∈ es.map Prod.fst := by
      rw [contents_live hclean, lookup_isSome_iff]
    rw [h.addKey_FL hkind]
    dsimp only [StoreCall.expected, StoreCall.after, track] at hK ⊢
    unfold insertNew at hK ⊢
    by_cases hmem : e.1 ∈ es.map Prod.fst
    · rw [if_pos (hsome.mpr hmem), if_pos (hsome.mpr hmem), if_pos hmem]
      exact ⟨st, h.add_known hmem (by omega), h, rfl⟩
    have hnone : ¬(contents es del e.1).isSome := fun hbad => hmem (hsome.mp hbad)
    rw [if_neg hmem] at hK
    rw [if_neg hnone, if_neg hnone, if_neg hmem]
    obtain ⟨st', hadd, h'⟩ := h.add_new hs hcall hmem hK hfuel
    exact ⟨st', hadd, h', (contents_snoc hclean hmem).symm⟩
  | deleteKey_FL key =>
    obtain ⟨hlive, hplace⟩ := hclean
    have hsome : (contents es del key).isSome ↔ key ∈ es.map Prod.fst := by
      rw [contents_live hlive, lookup_isSome_iff]
    dsimp only [StoreCall.expected, StoreCall.after, track]
    by_cases hmem : key ∈ es.map Prod.fst
    · rw [if_pos (hsome.mpr hmem), if_pos hmem]
      obtain ⟨st', hdelete, h'⟩ := h.delete_known hmem (by omega : _ ≤ fuel)
      exact ⟨st', hdelete, h', (contents_cons es del key).symm⟩
    have hnone : ¬(contents es del key).isSome := fun hbad => hmem (hsome.mp hbad)
    have hdelete := h.delete_unknown hcall hmem (by omega : _ ≤ fuel)
    rw [if_neg (hplace.resolve_left hmem)] at hdelete
    rw [if_neg hnone, if_neg hmem]
    refine ⟨st, hdelete, h, ?_⟩
    rw [Option.not_isSome_iff_eq_none] at hnone
    rw [← hnone, update_eq_self]

/-- **A call that does not** returns something else. -/
theorem Tagged.step_dirty (h : lay.Tagged c st es del) (hkind : 0 ≤ lay.dataLen) (hcall : lay.Allowed call)
    (hdirty : ¬lay.CleanCall es del call) (hfuel : es.length + 2 ≤ fuel) :
    ∃ code st', st.call fuel call = some (code, st') ∧ code ≠ call.expected (contents es del) := by
  have hknown : ∀ key ∈ del, key ∈ es.map Prod.fst := by
    obtain ⟨_, _, _, _, hat⟩ := h
    exact hat.deleted
  cases call with
  | addKey_FL e =>
    -- a deleted key is still there for `addKey_FL`
    have hdel : e.1 ∈ del := not_not.mp hdirty
    rw [h.addKey_FL hkind]
    refine ⟨1, st, h.add_known (hknown _ hdel) (by omega), ?_⟩
    dsimp only [StoreCall.expected]
    rw [contents_deleted hdel]
    decide
  | deleteKey_FL key =>
    by_cases hdel : key ∈ del
    · -- … and for `deleteKey_FL`
      obtain ⟨st', hdelete, _⟩ := h.delete_known (hknown _ hdel) (by omega : _ ≤ fuel)
      refine ⟨0, st', hdelete, ?_⟩
      dsimp only [StoreCall.expected]
      rw [contents_deleted hdel]
      decide
    have hboth : ¬(key ∈ es.map Prod.fst ∨ ¬lay.ChainFull es key) :=
      fun hplace => hdirty ⟨hdel, hplace⟩
    rw [not_or, not_not] at hboth
    have hdelete := h.delete_unknown hcall hboth.1 (by omega : _ ≤ fuel)
    rw [if_pos hboth.2] at hdelete
    refine ⟨-6, st, hdelete, ?_⟩
    dsimp only [StoreCall.expected]
    split <;> decide

/-- **EXACTLY THE CLEAN HISTORIES OBEY THE CONTRACT.** -/
theorem Tagged.obeys_iff (hs : lay.Safe ∅ c K) (hkind : 0 ≤ lay.dataLen) (calls : List StoreCall) :
    ∀ (st : QStoreManager) (es : List StoreEntry) (del : List ℕ), lay.Tagged c st es del →
      (∀ call ∈ calls, lay.Allowed call) →
      lay.overflow ((calls.filterMap StoreCall.added).foldl insertNew es) ≤ K →
      es.length + calls.length + 1 ≤ fuel →
      (lay.Obeys fuel st (contents es del) calls ↔ lay.Clean es del calls) := by
  induction calls with
  | nil =>
    intro st es del h _ _ hfuel
    exact iff_of_true (h.shows hkind hfuel) trivial
  | cons call calls ih =>
    intro st es del h hall hK hfuel
    rw [length_cons] at hfuel
    have hshows : lay.Shows fuel st (contents es del) := h.shows hkind (by omega)
    have hthis := hall call mem_cons_self
    have htrack : (track es del call).1.length ≤ es.length + 1 ∧
        ((call :: calls).filterMap StoreCall.added).foldl insertNew es
          = (calls.filterMap StoreCall.added).foldl insertNew (track es del call).1 := by
      cases call with
      | addKey_FL e => exact ⟨length_insertNew es e, rfl⟩
      | deleteKey_FL key => exact ⟨Nat.le_succ _, rfl⟩
    have hlater := lay.overflow_le_foldl (calls.filterMap StoreCall.added) (track es del call).1
    rw [htrack.2] at hK
    unfold Obeys Clean
    rw [and_iff_right hshows]
    by_cases hclean : lay.CleanCall es del call
    · obtain ⟨st', hstep, h', hafter⟩ := h.step_clean hs hkind hthis hclean
        (Nat.le_trans hlater hK) (by omega : _ ≤ fuel)
      rw [and_iff_right hclean, hstep, hafter,
        ← ih st' _ _ h' (fun x hx => hall x (mem_cons_of_mem call hx)) hK (by omega)]
      constructor
      · intro hobeys
        obtain ⟨st'', heq, hobeys⟩ := hobeys
        rw [Option.some.injEq, Prod.mk.injEq] at heq
        rw [heq.2]
        exact hobeys
      · intro hobeys
        exact ⟨st', rfl, hobeys⟩
    · refine iff_of_false ?_ (fun hbad => hclean hbad.1)
      intro hobeys
      obtain ⟨st'', hstep, _⟩ := hobeys
      obtain ⟨code, st', hstep', hne⟩ := h.step_dirty hkind hthis hclean (by omega : _ ≤ fuel)
      rw [hstep', Option.some.injEq, Prod.mk.injEq] at hstep
      exact hne hstep.1

theorem Tagged.create (lay : Layout) (c : ℤ) (hbase : lay.pos (lay.bucketNum - 1) < 2 ^ 31) :
    lay.Tagged c (QStoreManager.create lay.bucketNum lay.bucketSize lay.dataLen c) [] [] := by
  obtain ⟨⟨chain, hrep, htight⟩, hrange, hcounter, hoverflow⟩ := Session.create lay c hbase
  refine ⟨0, _, chain, [], ⟨hrep, htight, hrange, hcounter, hoverflow⟩, rfl, ?_, ?_, ?_⟩
  · exact fun p hp => absurd hp not_mem_nil
  · intro j _ p _
    exact iff_of_false not_mem_nil not_mem_nil
  · exact fun key hkey => absurd hkey not_mem_nil

/-- **THE CONTRACT OF DELETION.**  One session of a new store, any calls of
    `addKey_FL` and `deleteKey_FL`: the store obeys the contract if and only if
    no deleted key is added or deleted again, and no key that was never added
    is deleted from a chain that is exactly full. -/
theorem deletion_contract (lay : Layout) (hkind : 0 ≤ lay.dataLen) (c : ℤ) (calls : List StoreCall)
    (hcalls : ∀ call ∈ calls, lay.Allowed call)
    (hs : lay.Safe ∅ c (lay.overflow (table (calls.filterMap StoreCall.added)))) {fuel : ℕ}
    (hfuel : calls.length + 1 ≤ fuel) :
    ∃ st₀, QStoreManager.init none none lay.bucketNum lay.bucketSize lay.dataLen c = .ok st₀ ∧
      (lay.Obeys fuel st₀ (fun _ => none) calls ↔ lay.Clean [] [] calls) := by
  refine ⟨_, init_new lay c, ?_⟩
  exact (Tagged.create lay c hs.range.1).obeys_iff hs hkind calls _ [] [] hcalls (Nat.le_refl _)
    (by rw [List.length_nil]; omega)

theorem deletion_contract_oneBucket :
    ∃ st₀, QStoreManager.init none none 1 1 2 0 = .ok st₀ ∧
      oneBucket.Obeys 4 st₀ (fun _ => none)
        [.addKey_FL (1, [7, 8]), .addKey_FL (2, [9, 9]), .deleteKey_FL 1] := by
  obtain ⟨st₀, hinit, hiff⟩ := deletion_contract oneBucket (by decide) 0
    [.addKey_FL (1, [7, 8]), .addKey_FL (2, [9, 9]), .deleteKey_FL 1]
    (by
      intro call hcall
      simp only [List.mem_cons, List.not_mem_nil, or_false] at hcall
      rcases hcall with rfl | rfl | rfl
      · exact oneBucket_addable (by decide) (by decide)
      · exact oneBucket_addable (by decide) (by decide)
      · exact Nat.one_ne_zero)
    (oneBucket_safe (by decide)) (by decide : _ ≤ 4)
  exact ⟨st₀, hinit, hiff.mpr (by decide)⟩

/-- Key 1 is added, deleted and added again: the second add returns 1, and the
    key is not found. -/
theorem deleted_key_stays_lost :
    ∃ st₀ st₁ st₂, QStoreManager.init none none 1 1 2 0 = .ok st₀ ∧
      st₀.call 4 (.addKey_FL (1, [7, 8])) = some (0, st₁) ∧
      st₁.call 4 (.deleteKey_FL 1) = some (0, st₂) ∧
      st₂.call 4 (.addKey_FL (1, [9, 9])) = some (1, st₂) ∧
      (∃ code < 0, st₂.searchKey_FL 4 1 (some 2) = some (code, none)) ∧
      ¬oneBucket.Obeys 4 st₀ (fun _ => none)
        [.addKey_FL (1, [7, 8]), .deleteKey_FL 1, .addKey_FL (1, [9, 9])] := by
  have hs : oneBucket.Safe ∅ 0 0 := oneBucket_safe (by decide)
  have hkind : 0 ≤ oneBucket.dataLen := by decide
  have hone : ∀ a b : UInt8, oneBucket.Addable (1, [a, b]) :=
    fun a b => oneBucket_addable (by decide) (by decide)
  have hdirty : ¬oneBucket.Clean [] []
      [.addKey_FL (1, [7, 8]), .deleteKey_FL 1, .addKey_FL (1, [9, 9])] := by decide
  have h₀ := Tagged.create oneBucket 0 (by decide)
  obtain ⟨st₁, hadd, h₁⟩ := h₀.add_new hs (hone 7 8) List.not_mem_nil (by decide) (by decide : _ ≤ 4)
  obtain ⟨st₂, hdelete, h₂⟩ := h₁.delete_known (by decide : 1 ∈ _) (by decide : _ ≤ 4)
  refine ⟨_, st₁, st₂, init_new oneBucket 0, ?_, hdelete, ?_, ?_, ?_⟩
  · rw [h₀.addKey_FL hkind]
    exact hadd
  · rw [h₂.addKey_FL hkind]
    exact h₂.add_known (by decide) (by decide)
  · exact h₂.search_missing (by decide) (Or.inl (by decide)) (some 2) (by decide)
  · intro hobeys
    refine hdirty ((h₀.obeys_iff hs hkind _ _ [] [] ?_ (by decide) (by decide : _ ≤ 4)).mp hobeys)
    intro call hcall
    simp only [List.mem_cons, List.not_mem_nil, or_false] at hcall
    rcases hcall with rfl | rfl | rfl
    · exact hone 7 8
    · exact Nat.one_ne_zero
    · exact hone 9 9

end Layout

end KalavaPir.Common
