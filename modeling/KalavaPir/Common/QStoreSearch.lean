/-
  KalavaPir.Common.QStoreSearch — searching a store.

  The search functions walk along the chain of the key's base bucket.  On a
  store that represents a list of entries they return the value of the entry
  with that key, or a code that says there is none.
-/
import KalavaPir.Common.QStoreInvariant

namespace KalavaPir.Common

open KalavaPir.Framework List

/-! ## §1. Both kinds of stores. -/

/-- `addKey_FL` on a store with fixed values or none, `addKey_VL` on the
    others. -/
def QStoreManager.addKey (fuel : ℕ) (st : QStoreManager) (e : StoreEntry) :
    Option (ℤ × QStoreManager) :=
  if 0 ≤ st.m_iDataLen then st.addKey_FL fuel e.1 e.2 else st.addKey_VL fuel e.1 e.2

/-- The same for searching, into a buffer of `maxDataSize` bytes. -/
def QStoreManager.searchKey (fuel : ℕ) (st : QStoreManager) (key : ℕ) (maxDataSize : ℤ) :
    Option QStoreManager.Found :=
  if 0 ≤ st.m_iDataLen then st.searchKey_FL fuel key (some maxDataSize)
  else st.searchKey_VL fuel key maxDataSize

namespace Layout

variable {lay : Layout} {st : QStoreManager} {es : List StoreEntry} {chain : ℕ → List ℕ} {used : Set ℕ}

/-- What a search returns for a value. -/
def answer (lay : Layout) (v : List UInt8) : QStoreManager.Found :=
  if lay.dataLen > 0 then (0, some v)
  else if lay.dataLen = 0 then (0, none)
  else (v.length, some v)

/-- The positions of all buckets in use are below 2³¹. -/
def InRange (lay : Layout) (used : Set ℕ) : Prop :=
  lay.pos (lay.bucketNum - 1) < 2 ^ 31 ∧ ∀ b ∈ used, lay.pos b < 2 ^ 31

variable {b key fuel : ℕ} {v : List UInt8} {maxDataSize : ℤ} {cs : List ℕ}

theorem pos_mono {c : ℕ} (h : b ≤ c) : lay.pos b ≤ lay.pos c :=
  Nat.add_le_add_left (Nat.mul_le_mul_right _ h) _

/-- The loops can walk along the chains. -/
theorem Rep.walkable (h : lay.Rep st es chain used) (hr : lay.InRange used) {j : ℕ}
    (hj : j < lay.bucketNum) : lay.Chain st.m_fpHash (chain j) where
  linked := h.linked j hj
  covered := h.covered j hj
  below := by
    intro b hb
    obtain ⟨os, hos⟩ := h.base j hj
    have htail := h.overflow j hj
    rw [hos] at hb htail
    rcases mem_cons.mp hb with rfl | hb
    · exact Nat.lt_of_le_of_lt (pos_mono (by omega)) hr.1
    · exact hr.2 b (htail b hb).2
  nonzero := by
    intro b hb
    have := (h.overflow j hj b hb).1
    omega

/-! ## §2. Searching. -/

theorem readMark_of {f : ByteFile} {q mark : ℕ} (hmark : mark < 256 ^ 8) (hend : q + 8 ≤ f.size)
    (h : f.bytes q 8 = encode 8 mark) : QStoreManager.readMark f q mark = true := by
  unfold QStoreManager.readMark
  rw [ByteFile.fread_of_le hend]
  simp only [h, decode_encode_of_lt hmark, beq_self_eq_true]

variable {i : ℕ}

theorem fread_slot {h : ByteFile} (hcov : lay.Covered h b) (hi : i < lay.bucketSize) {q n : ℕ}
    (hq : q + n ≤ lay.slot b i + lay.elementLen) : h.fread q n = some (h.bytes q n) := by
  have hslot := lay.slot_add_le (b := b) hi
  have hlink := lay.link_add b
  unfold Covered at hcov
  exact ByteFile.fread_of_le (by omega)

/-- **A stored value is found**, by `searchKey_FL` … -/
theorem hit_FL_stored (hfit : lay.Fits st) {p : ℕ}
    (hread : lay.dataLen ≠ 0 → st.m_fpHash.fread (p + 9) 8 = some (st.m_fpHash.bytes (p + 9) 8))
    (hlen : 0 ≤ lay.dataLen) (hv : 0 < lay.dataLen → (v.length : ℤ) = lay.dataLen)
    (hmax : (v.length : ℤ) ≤ maxDataSize) (hs : lay.Stored st p v) :
    st.hit_FL (some maxDataSize) p = lay.answer v := by
  unfold QStoreManager.hit_FL answer
  simp only [hfit.dataLen]
  by_cases hzero : lay.dataLen = 0
  · rw [if_pos (by omega), if_neg (by omega), if_pos hzero]
  have hpos : 0 < lay.dataLen := by omega
  have hrec : lay.record v =
      some (encode 8 I_STORE_BEGIN_MARK ++ v ++ encode 8 I_STORE_END_MARK) := if_pos hpos
  obtain ⟨q, hq, hofs, hend, hbytes⟩ := hs _ hrec
  obtain ⟨hfirst, hlast⟩ := ByteFile.bytes_eq_append hbytes
  obtain ⟨hbegin, hvalue⟩ := ByteFile.bytes_eq_append hfirst
  simp only [length_append, length_encode, ← Nat.add_assoc] at hbegin hvalue hlast hend
  rw [if_neg (by omega), if_neg (by omega), hread hzero, if_pos hpos]
  simp only [hofs, decodeInt_encode_of_lt (n := 8) (x := q) (by omega)]
  have htoNat : lay.dataLen.toNat = v.length := by omega
  rw [if_neg (by omega), Int.toNat_natCast, readMark_of (by decide) (by omega) hbegin, htoNat,
    ByteFile.fread_of_le (by omega), hvalue, readMark_of (by decide) (by omega) hlast]
  rfl

/-- … and by `searchKey_VL`. -/
theorem hit_VL_stored {p : ℕ} (hlen : lay.dataLen < 0) (hv : 0 < v.length ∧ v.length < 2 ^ 31)
    (hmax : (v.length : ℤ) ≤ maxDataSize) (hs : lay.Stored st p v) :
    st.hit_VL maxDataSize (decodeInt (st.m_fpHash.bytes (p + 9) 8)) = lay.answer v := by
  have hrec : lay.record v = QStoreManager.record_VL v := by
    unfold record
    rw [if_neg (by omega), if_neg (by omega)]
  obtain ⟨q, hq, hofs, hend, hbytes⟩ := hs _ hrec
  obtain ⟨hfirst, hlast⟩ := ByteFile.bytes_eq_append hbytes
  obtain ⟨hfirst, hvalue⟩ := ByteFile.bytes_eq_append hfirst
  obtain ⟨hbegin, hlength⟩ := ByteFile.bytes_eq_append hfirst
  simp only [length_append, length_encode, length_encodeInt, ← Nat.add_assoc]
    at hbegin hlength hvalue hlast hend
  have hdec : decodeInt (st.m_fpData.bytes (q + 8) 4) = (v.length : ℤ) := by
    rw [hlength, encodeInt_natCast (by omega)]
    exact decodeInt_encode_of_lt (by omega)
  have hanswer : lay.answer v = ((v.length : ℤ), some v) := by
    unfold answer
    rw [if_neg (by omega), if_neg (by omega)]
  rw [hanswer, hofs, decodeInt_encode_of_lt (n := 8) (x := q) (by omega)]
  unfold QStoreManager.hit_VL
  simp only [Int.toNat_natCast]
  rw [readMark_of (by decide) (by omega) hbegin, ByteFile.fread_of_le (by omega)]
  simp only [hdec, Int.toNat_natCast]
  rw [if_neg (by omega : ¬ ((v.length : ℤ) > maxDataSize ∨ (v.length : ℤ) ≤ 0)),
    ByteFile.fread_of_le (by omega), hvalue, readMark_of (by decide) (by omega) hlast]
  rfl

/-- What both functions do with the element they find, and without one. -/
def found (lay : Layout) (st : QStoreManager) (maxDataSize : ℤ) (p : ℕ) : QStoreManager.Found :=
  if 0 ≤ lay.dataLen then st.hit_FL (some maxDataSize) p
  else st.hit_VL maxDataSize (decodeInt (st.m_fpHash.bytes (p + 9) 8))

/-- The answer for a key that is not there. -/
def missing (lay : Layout) : QStoreManager.Found := (if 0 ≤ lay.dataLen then -10 else -11, none)

theorem slot_FL_round (hfit : lay.Fits st) (hcov : lay.Covered st.m_fpHash b) (hi : i < lay.bucketSize)
    (maxDataSize : Option ℤ) (key : ℕ) : st.slot_FL maxDataSize key (lay.slot b i) =
      if keyAt st.m_fpHash (lay.slot b i) = key ∧ decode (st.m_fpHash.bytes (lay.slot b i + 8) 1) = 0
      then .inl (st.hit_FL maxDataSize (lay.slot b i))
      else if keyAt st.m_fpHash (lay.slot b i) = 0 then .inl (-10, none)
      else .inr (lay.slot b i + lay.elementLen) := by
  have hlen := lay.nine_le_elementLen
  unfold QStoreManager.slot_FL
  rw [fread_slot hcov hi (by omega), fread_slot hcov hi (by omega), hfit.elementLen]
  rfl

theorem slot_VL_round (hcov : lay.Covered st.m_fpHash b) (hi : i < lay.bucketSize)
    (helem : lay.elementLen = 17) (maxDataSize : ℤ) (key : ℕ) : st.slot_VL maxDataSize key (lay.slot b i) =
      if keyAt st.m_fpHash (lay.slot b i) = key ∧ decode (st.m_fpHash.bytes (lay.slot b i + 8) 1) = 0
      then .inl (st.hit_VL maxDataSize (decodeInt (st.m_fpHash.bytes (lay.slot b i + 9) 8)))
      else if keyAt st.m_fpHash (lay.slot b i) = 0 then .inl (-11, none)
      else .inr (lay.slot b i + lay.elementLen) := by
  unfold QStoreManager.slot_VL
  rw [fread_slot hcov hi (by omega), fread_slot hcov hi (by omega), fread_slot hcov hi (by omega), helem]
  rfl

/-- **A search along a chain**, where `sought` stands for the elements with the
    key that are not deleted: `searchKey_FL` … -/
theorem searchKey_FL_probe (hfit : lay.Fits st) (sought : ℕ) (maxDataSize : Option ℤ)
    (hc : lay.Chain st.m_fpHash (key % lay.bucketNum :: cs))
    (hsought : ∀ p ∈ lay.chainSlots (key % lay.bucketNum :: cs), keyAt st.m_fpHash p = key ∧ decode (st.m_fpHash.bytes (p + 8) 1) = 0 ↔ keyAt st.m_fpHash p = sought)
    (hfuel : cs.length + 1 ≤ fuel) :
    st.searchKey_FL fuel key maxDataSize =
      match probe st.m_fpHash sought (lay.chainSlots (key % lay.bucketNum :: cs)) with
      | .hit p => some (st.hit_FL maxDataSize p)
      | .hole _ => some (-10, none)
      | .full => some (-13, none) := by
  have hpos := hfit.base_position (hc.below _ mem_cons_self)
  obtain ⟨extra, rfl⟩ := Nat.exists_eq_add_of_le' hfuel
  unfold QStoreManager.searchKey_FL
  rw [hpos]
  refine searchLoop_walk hfit _ _ cs _ _ hc ?_
  intro p hp
  have hiff := hsought p hp
  obtain ⟨b, hb, i, hi, rfl⟩ := lay.mem_chainSlots.mp hp
  unfold RoundAt
  rw [slot_FL_round hfit (hc.covered b hb) hi]
  exact if_congr hiff rfl rfl

/-- … and both of them. -/
theorem searchKey_probe (hfit : lay.Fits st) (sought : ℕ) (maxDataSize : ℤ)
    (hc : lay.Chain st.m_fpHash (key % lay.bucketNum :: cs))
    (hsought : ∀ p ∈ lay.chainSlots (key % lay.bucketNum :: cs), keyAt st.m_fpHash p = key ∧ decode (st.m_fpHash.bytes (p + 8) 1) = 0 ↔ keyAt st.m_fpHash p = sought)
    (hfuel : cs.length + 1 ≤ fuel) :
    st.searchKey fuel key maxDataSize =
      match probe st.m_fpHash sought (lay.chainSlots (key % lay.bucketNum :: cs)) with
      | .hit p => some (lay.found st maxDataSize p)
      | .hole _ => some lay.missing
      | .full => some (-13, none) := by
  have hpos := hfit.base_position (hc.below _ mem_cons_self)
  unfold QStoreManager.searchKey found missing
  rw [hfit.dataLen]
  by_cases hkind : 0 ≤ lay.dataLen
  · simp only [if_pos hkind]
    exact searchKey_FL_probe hfit sought (some maxDataSize) hc hsought hfuel
  obtain ⟨extra, rfl⟩ := Nat.exists_eq_add_of_le' hfuel
  have helem : lay.elementLen = 17 := by
    rcases lay.elementLen_cases with h | h <;> omega
  simp only [if_neg hkind, QStoreManager.searchKey_VL, hpos]
  refine searchLoop_walk hfit _ _ cs _ _ hc ?_
  intro p hp
  have hiff := hsought p hp
  obtain ⟨b, hb, i, hi, rfl⟩ := lay.mem_chainSlots.mp hp
  unfold RoundAt
  rw [slot_VL_round (hc.covered b hb) hi helem]
  exact if_congr hiff rfl rfl

/-- **The elements with the key** are not deleted. -/
theorem searchKey_walk (hfit : lay.Fits st) (hc : lay.Chain st.m_fpHash (key % lay.bucketNum :: cs))
    (hflags : ∀ p ∈ lay.chainSlots (key % lay.bucketNum :: cs), keyAt st.m_fpHash p = key → st.m_fpHash.bytes (p + 8) 1 = [0])
    (hfuel : cs.length + 1 ≤ fuel) :
    st.searchKey fuel key maxDataSize =
      match probe st.m_fpHash key (lay.chainSlots (key % lay.bucketNum :: cs)) with
      | .hit p => some (lay.found st maxDataSize p)
      | .hole _ => some lay.missing
      | .full => some (-13, none) := by
  refine searchKey_probe hfit key maxDataSize hc ?_ hfuel
  intro p hp
  refine ⟨fun h => h.1, fun h => ⟨h, ?_⟩⟩
  rw [hflags p hp h]
  rfl

theorem keyAt_lt (h : ByteFile) (p : ℕ) : keyAt h p < 2 ^ 64 := by
  have h8 := decode_lt (h.bytes p 8)
  rw [ByteFile.length_bytes] at h8
  exact h8

/-- **All of them are deleted**: `searchKey_FL` goes past them. -/
theorem searchKey_FL_skip (hfit : lay.Fits st) (maxDataSize : Option ℤ)
    (hc : lay.Chain st.m_fpHash (key % lay.bucketNum :: cs))
    (hflags : ∀ p ∈ lay.chainSlots (key % lay.bucketNum :: cs), keyAt st.m_fpHash p = key → st.m_fpHash.bytes (p + 8) 1 = [1])
    (hfuel : cs.length + 1 ≤ fuel) :
    ∃ code < 0, st.searchKey_FL fuel key maxDataSize = some (code, none) := by
  -- no element has the key 2⁶⁴
  have hnone : ∀ p, keyAt st.m_fpHash p ≠ 2 ^ 64 := fun p => Nat.ne_of_lt (keyAt_lt st.m_fpHash p)
  have hwalk := searchKey_FL_probe hfit (2 ^ 64) maxDataSize hc ?_ hfuel
  · rw [hwalk]
    cases hp : probe st.m_fpHash (2 ^ 64) (lay.chainSlots (key % lay.bucketNum :: cs)) with
    | hit p => exact absurd (probe_hit_key hp) (hnone p)
    | hole p => exact ⟨-10, by decide, rfl⟩
    | full => exact ⟨-13, by decide, rfl⟩
  · intro p hp
    constructor
    · intro hboth
      obtain ⟨hkey, hzero⟩ := hboth
      rw [hflags p hp hkey] at hzero
      exact absurd hzero (by decide)
    · intro hbad
      exact absurd hbad (hnone p)

/-- A chain without the key. -/
theorem searchKey_absent (hfit : lay.Fits st) (maxDataSize : ℤ)
    (hc : lay.Chain st.m_fpHash (key % lay.bucketNum :: cs))
    (hflags : ∀ p ∈ lay.chainSlots (key % lay.bucketNum :: cs), st.m_fpHash.bytes (p + 8) 1 = [0])
    (hfuel : cs.length + 1 ≤ fuel)
    (hnot : ∀ p, probe st.m_fpHash key (lay.chainSlots (key % lay.bucketNum :: cs)) ≠ .hit p) :
    ∃ code < 0, st.searchKey fuel key maxDataSize = some (code, none) := by
  rw [searchKey_walk hfit hc (fun p hp _ => hflags p hp) hfuel]
  cases hp : probe st.m_fpHash key (lay.chainSlots (key % lay.bucketNum :: cs)) with
  | hit p => exact absurd hp (hnot p)
  | hole p =>
    refine ⟨_, ?_, rfl⟩
    split <;> decide
  | full => exact ⟨-13, by decide, rfl⟩

theorem mem_entries {e : StoreEntry} : e ∈ lay.entries es (e.1 % lay.bucketNum) ↔ e ∈ es := by
  unfold entries
  simp

theorem Rep.entryKeys (h : lay.Rep st es chain used) (j : ℕ) :
    (∀ k ∈ (lay.entries es j).map Prod.fst, k ≠ 0) ∧ ((lay.entries es j).map Prod.fst).Nodup := by
  constructor
  · intro k hk
    obtain ⟨e, he, rfl⟩ := mem_map.mp hk
    exact (h.addable e (mem_of_mem_filter he)).key_ne
  · have hsub : ((lay.entries es j).map Prod.fst).Sublist (es.map Prod.fst) :=
      List.Sublist.map _ filter_sublist
    exact h.distinct.sublist hsub

/-- **A SEARCH FINDS WHAT IS STORED.** -/
theorem Rep.search_stored (h : lay.Rep st es chain used) (hr : lay.InRange used) (hmem : (key, v) ∈ es)
    (hmax : (v.length : ℤ) ≤ maxDataSize) (hfuel : (chain (key % lay.bucketNum)).length ≤ fuel) :
    st.searchKey fuel key maxDataSize = some (lay.answer v) := by
  have hj := lay.base_lt key
  obtain ⟨os, hos⟩ := h.base _ hj
  have hc := h.walkable hr hj
  have hflags := h.flags _ hj
  obtain ⟨z, hz⟩ := h.keys _ hj
  obtain ⟨hne, hnd⟩ := h.entryKeys (key % lay.bucketNum)
  obtain ⟨i, hi, hget⟩ := getElem_of_mem (mem_entries.mpr hmem)
  have he : (lay.entries es (key % lay.bucketNum))[i]? = some (key, v) := by
    rw [getElem?_eq_getElem hi, hget]
  have hkey : ((lay.entries es (key % lay.bucketNum)).map Prod.fst)[i]? = some key := by
    rw [getElem?_map, he]
    rfl
  obtain ⟨p, hp, hhit⟩ := probe_present _ _ z i hz hne hnd hkey
  have hstored := h.values _ hj i p _ hp he
  have hv := h.addable _ hmem
  have hmemp := mem_of_getElem? hp
  rw [hos] at hc hflags hhit hfuel hmemp
  rw [searchKey_walk h.fits hc (fun p hp _ => hflags p hp) hfuel, hhit]
  simp only [found]
  by_cases hkind : 0 ≤ lay.dataLen
  · rw [if_pos hkind]
    congr 1
    refine hit_FL_stored h.fits (fun hne => ?_) hkind hv.fixed hmax hstored
    obtain ⟨b, hb, k, hk, rfl⟩ := lay.mem_chainSlots.mp hmemp
    have helem : lay.elementLen = 17 := if_neg hne
    exact fread_slot (hc.covered b hb) hk (by omega)
  · rw [if_neg hkind]
    congr 1
    exact hit_VL_stored (by omega) (hv.variable_ (by omega)) hmax hstored

/-- **AND NOTHING ELSE.** -/
theorem Rep.search_absent (h : lay.Rep st es chain used) (hr : lay.InRange used) (maxDataSize : ℤ)
    (hkey : key ≠ 0) (hnot : key ∉ es.map Prod.fst) (hfuel : (chain (key % lay.bucketNum)).length ≤ fuel) :
    ∃ code < 0, st.searchKey fuel key maxDataSize = some (code, none) := by
  have hj := lay.base_lt key
  obtain ⟨os, hos⟩ := h.base _ hj
  have hc := h.walkable hr hj
  have hflags := h.flags _ hj
  obtain ⟨z, hz⟩ := h.keys _ hj
  obtain ⟨hne, _⟩ := h.entryKeys (key % lay.bucketNum)
  have hnot' : key ∉ (lay.entries es (key % lay.bucketNum)).map Prod.fst := by
    intro hmem
    obtain ⟨e, he, heq⟩ := mem_map.mp hmem
    exact hnot (mem_map.mpr ⟨e, mem_of_mem_filter he, heq⟩)
  have hprobe := probe_absent hkey _ _ z hz hne hnot'
  rw [hos] at hc hflags hprobe hfuel
  refine searchKey_absent h.fits maxDataSize hc hflags hfuel ?_
  intro p hp
  rcases hprobe with ⟨_, hfull⟩ | ⟨q, _, hhole⟩
  · rw [hp] at hfull
    exact absurd hfull (by simp)
  · rw [hp] at hhole
    exact absurd hhole (by simp)

/-- What both deletion functions return: the tag is set, or there is nothing
    to delete. -/
theorem deleteKey_walk (hfit : lay.Fits st) (hc : lay.Chain st.m_fpHash cs)
    (hbase : ∃ os, cs = key % lay.bucketNum :: os) (hfuel : cs.length ≤ fuel) :
    st.deleteKey_FL fuel key =
      match probe st.m_fpHash key (lay.chainSlots cs) with
      | .hit p => some (0, st.setDeleted p)
      | .hole _ => some (1, st)
      | .full => some (-6, st) := by
  obtain ⟨os, rfl⟩ := hbase
  have hpos := hfit.base_position (hc.below _ mem_cons_self)
  obtain ⟨extra, rfl⟩ := Nat.exists_eq_add_of_le' hfuel
  have hlen := lay.nine_le_elementLen
  unfold QStoreManager.deleteKey_FL
  rw [hpos]
  refine searchLoop_walk hfit _ _ os _ _ hc ?_
  intro p hp
  obtain ⟨b, hb, i, hi, rfl⟩ := lay.mem_chainSlots.mp hp
  unfold RoundAt QStoreManager.slot_delete
  rw [fread_slot (hc.covered b hb) hi (by omega), hfit.elementLen]
  rfl

/-- The loops that delete end as well. -/
theorem Rep.delete (h : lay.Rep st es chain used) (hr : lay.InRange used)
    (hfuel : (chain (key % lay.bucketNum)).length ≤ fuel) :
    st.deleteKey_FL fuel key =
      match probe st.m_fpHash key (lay.chainSlots (chain (key % lay.bucketNum))) with
      | .hit p => some (0, st.setDeleted p)
      | .hole _ => some (1, st)
      | .full => some (-6, st) :=
  deleteKey_walk h.fits (h.walkable hr (lay.base_lt key)) (h.base _ (lay.base_lt key)) hfuel

end Layout

end KalavaPir.Common
