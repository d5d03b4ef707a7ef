/-
  KalavaPir.Common.QStoreInvariant — what the hash file stands for.

  To its user a store is an association list in which the FIRST value of a key
  counts.  `Rep` says how the bytes represent it: one chain of buckets for each
  base bucket, no two of them sharing a bucket, whose elements are the entries
  of that residue class, in the order of their insertion, and then nothing.
-/
import Mathlib.Data.List.Nodup
import Mathlib.Data.Set.Insert
import KalavaPir.Common.QStoreChains

namespace KalavaPir.Common

open KalavaPir.Framework List

/-- A key and its value. -/
abbrev StoreEntry := ℕ × List UInt8

/-! ## §1. Probing a list of keys. -/

section Probing

variable {h : ByteFile} {key : ℕ}

/-- The keys `ks`, and `z` free places behind them. -/
def Holds (h : ByteFile) (ps ks : List ℕ) (z : ℕ) : Prop :=
  ps.map (keyAt h) = ks ++ List.replicate z 0

variable {ps ks : List ℕ}

/-- The first place has the first key. -/
theorem Holds.uncons {k z : ℕ} (hps : Holds h ps (k :: ks) z) :
    ∃ p qs, ps = p :: qs ∧ keyAt h p = k ∧ Holds h qs ks z := by
  cases ps with
  | nil => exact absurd hps (by simp [Holds])
  | cons p qs =>
    unfold Holds at hps
    rw [map_cons, cons_append, List.cons.injEq] at hps
    exact ⟨p, qs, rfl, hps⟩

/-- A key that is there is found at its place. -/
theorem probe_present (ks : List ℕ) : ∀ (ps : List ℕ) (z i : ℕ), Holds h ps ks z → (∀ k ∈ ks, k ≠ 0) →
    ks.Nodup → ks[i]? = some key → ∃ p, ps[i]? = some p ∧ probe h key ps = .hit p := by
  induction ks with
  | nil =>
    intro ps z i _ _ _ hi
    exact absurd hi (by simp)
  | cons k ks ih =>
    intro ps z i hps hne hnd hi
    obtain ⟨p, ps, rfl, hk, hrest⟩ := hps.uncons
    rw [nodup_cons] at hnd
    cases i with
    | zero =>
      rw [getElem?_cons_zero, Option.some.injEq] at hi
      exact ⟨p, rfl, probe_hit (hk.trans hi)⟩
    | succ i =>
      -- the key comes later, so it is not this one
      have hother : keyAt h p ≠ key := by
        intro heq
        rw [hk] at heq
        exact hnd.1 (heq ▸ mem_of_getElem? hi)
      have hzero : keyAt h p ≠ 0 := hk ▸ hne k mem_cons_self
      rw [getElem?_cons_succ, probe_skip hother hzero]
      exact ih ps z i hrest (fun x hx => hne x (mem_cons_of_mem k hx)) hnd.2 hi

/-- Without the key the search gets to the first free place. -/
theorem probe_absent (hkey : key ≠ 0) (ks : List ℕ) : ∀ (ps : List ℕ) (z : ℕ), Holds h ps ks z →
    (∀ k ∈ ks, k ≠ 0) → key ∉ ks →
    (z = 0 ∧ probe h key ps = .full) ∨ ∃ p, ps[ks.length]? = some p ∧ probe h key ps = .hole p := by
  induction ks with
  | nil =>
    intro ps z hps _ _
    cases ps with
    | nil =>
      have hz : z = 0 := by
        have := congrArg List.length hps
        simpa using this.symm
      exact Or.inl ⟨hz, rfl⟩
    | cons p ps =>
      unfold Holds at hps
      cases z with
      | zero => exact absurd hps (by simp)
      | succ z =>
        rw [map_cons, nil_append, replicate_succ, List.cons.injEq] at hps
        refine Or.inr ⟨p, rfl, probe_hole ?_ hps.1⟩
        rw [hps.1]
        exact hkey.symm
  | cons k ks ih =>
    intro ps z hps hne hnot
    obtain ⟨p, ps, rfl, hk, hrest⟩ := hps.uncons
    rw [mem_cons, not_or] at hnot
    have hother : keyAt h p ≠ key := by
      rw [hk]
      exact fun heq => hnot.1 heq.symm
    have hzero : keyAt h p ≠ 0 := hk ▸ hne k mem_cons_self
    rw [probe_skip hother hzero, length_cons, getElem?_cons_succ]
    exact ih ps z hrest (fun x hx => hne x (mem_cons_of_mem k hx)) hnot.2

/-- The first free place is taken. -/
theorem Holds.insert {h' : ByteFile} {z p : ℕ} (hh : Holds h ps ks z) (hnd : ps.Nodup)
    (hp : ps[ks.length]? = some p) (hkey : keyAt h' p = key)
    (hsame : ∀ q ∈ ps, q ≠ p → keyAt h' q = keyAt h q) : ∃ z', Holds h' ps (ks ++ [key]) z' := by
  have hlt : ks.length < ps.length := (List.getElem?_eq_some_iff.mp hp).1
  obtain ⟨z, rfl⟩ : ∃ z', z = z' + 1 := by
    have hlen := congrArg List.length hh
    rw [length_map, length_append, length_replicate] at hlen
    exact ⟨z - 1, by omega⟩
  refine ⟨z, ?_⟩
  have hset : ps.map (keyAt h') = (ps.map (keyAt h)).set ks.length key := by
    apply ext_getElem?
    intro i
    rw [getElem?_set, getElem?_map, length_map]
    by_cases hi : ks.length = i
    · subst hi
      rw [if_pos rfl, if_pos hlt, hp, Option.map_some, hkey]
    rw [if_neg hi, getElem?_map]
    cases hq : ps[i]? with
    | none => rw [Option.map_none, Option.map_none]
    | some q =>
      have hqp : q ≠ p := by
        rintro rfl
        exact hi ((getElem?_inj hlt hnd).mp (hp.trans hq.symm))
      rw [Option.map_some, Option.map_some, hsame q (mem_of_getElem? hq) hqp]
  unfold Holds
  rw [hset, hh, set_append_right _ _ (Nat.le_refl _), Nat.sub_self, replicate_succ,
    set_cons_zero, append_assoc, singleton_append]

end Probing

/-! ## §2. Representation. -/

namespace Layout

variable (lay : Layout)

/-- The entries whose chain starts at base bucket `j`. -/
def entries (es : List StoreEntry) (j : ℕ) : List StoreEntry :=
  es.filter (fun e => e.1 % lay.bucketNum == j)

/-- What an add appends to the data file. -/
def record (v : List UInt8) : Option (List UInt8) :=
  if lay.dataLen > 0 then
    some (encode 8 I_STORE_BEGIN_MARK ++ v ++ encode 8 I_STORE_END_MARK)
  else if lay.dataLen = 0 then none
  else QStoreManager.record_VL v

/-- An entry a caller may add: a key other than 0, a value of the length the
    store has (of any length that is an `int32_t`, if that is negative). -/
structure Addable (e : StoreEntry) : Prop where
  key_ne : e.1 ≠ 0
  key_lt : e.1 < 2 ^ 64
  fixed : 0 < lay.dataLen → (e.2.length : ℤ) = lay.dataLen
  variable_ : lay.dataLen < 0 → 0 < e.2.length ∧ e.2.length < 2 ^ 31

/-- The value of the element at `p` is in the data file. -/
def Stored (st : QStoreManager) (p : ℕ) (v : List UInt8) : Prop :=
  ∀ r, lay.record v = some r → ∃ q, q < 2 ^ 63 ∧ st.m_fpHash.bytes (p + 9) 8 = encode 8 q ∧
    q + r.length ≤ st.m_fpData.size ∧ st.m_fpData.bytes q r.length = r

/-- The head of the file. -/
def head : List UInt8 :=
  encode 8 I_STORE_FILE_MARK ++ encodeInt 4 lay.bucketNum ++ encodeInt 4 lay.bucketSize ++
    encodeInt 4 lay.dataLen

/-- A record is at most this long. -/
def maxRecord : ℕ := 2 ^ 31 + 20

/-- **The representation invariant**: the store `st` holds the entries `es` in
    the chains `chain`, with overflow buckets out of `used`. -/
structure Rep (st : QStoreManager) (es : List StoreEntry) (chain : ℕ → List ℕ) (used : Set ℕ) :
    Prop where
  fits : lay.Fits st
  head : st.m_fpHash.bytes 0 m_iHeadLen = lay.head
  base : ∀ j < lay.bucketNum, ∃ os, chain j = j :: os
  overflow : ∀ j < lay.bucketNum, ∀ b ∈ (chain j).tail, lay.bucketNum ≤ b ∧ b ∈ used
  nodup : ∀ j < lay.bucketNum, (chain j).Nodup
  apart : ∀ i < lay.bucketNum, ∀ j < lay.bucketNum, i ≠ j → ∀ b ∈ chain i, b ∉ chain j
  linked : ∀ j < lay.bucketNum, lay.Linked st.m_fpHash (chain j)
  covered : ∀ j < lay.bucketNum, ∀ b ∈ chain j, lay.Covered st.m_fpHash b
  keys : ∀ j < lay.bucketNum, ∃ z,
    Holds st.m_fpHash (lay.chainSlots (chain j)) ((lay.entries es j).map Prod.fst) z
  flags : ∀ j < lay.bucketNum, ∀ p ∈ lay.chainSlots (chain j), st.m_fpHash.bytes (p + 8) 1 = [0]
  values : ∀ j < lay.bucketNum, ∀ (i p : ℕ) (e : StoreEntry), (lay.chainSlots (chain j))[i]? = some p →
    (lay.entries es j)[i]? = some e → lay.Stored st p e.2
  distinct : (es.map Prod.fst).Nodup
  addable : ∀ e ∈ es, lay.Addable e
  data : st.m_fpData.size ≤ es.length * maxRecord

/-! ## §3. Positions. -/

variable {lay}

/-- Places tell the bucket and the index. -/
theorem slot_inj {b c i j : ℕ} (hi : i < lay.bucketSize) (hj : j < lay.bucketSize)
    (h : lay.slot b i = lay.slot c j) : b = c ∧ i = j := by
  have hlen := lay.nine_le_elementLen
  rcases Nat.lt_trichotomy b c with hlt | rfl | hlt
  · have hapart := lay.slot_add_le_slot (j := j) hlt hi
    omega
  · refine ⟨rfl, ?_⟩
    exact Nat.eq_of_mul_eq_mul_right (by omega) (Nat.add_left_cancel h)
  · have hapart := lay.slot_add_le_slot (j := i) hlt hj
    omega

/-- The places of a bucket differ. -/
theorem slots_nodup (b : ℕ) : (lay.slots b).Nodup := by
  refine List.Nodup.map_on ?_ nodup_range
  intro i hi j hj h
  rw [mem_range] at hi hj
  exact (slot_inj hi hj h).2

/-- Buckets share no place. -/
theorem slots_apart {b c p : ℕ} (hb : p ∈ lay.slots b) (hc : p ∈ lay.slots c) : b = c := by
  obtain ⟨i, hi, rfl⟩ := lay.mem_slots.mp hb
  obtain ⟨j, hj, h⟩ := lay.mem_slots.mp hc
  exact (slot_inj hj hi h).1.symm

/-- The places of a chain differ. -/
theorem chainSlots_nodup {cs : List ℕ} (h : cs.Nodup) : (lay.chainSlots cs).Nodup := by
  unfold chainSlots
  rw [nodup_flatMap]
  refine ⟨fun b _ => slots_nodup b, ?_⟩
  refine h.imp ?_
  intro b c hne p hb hc
  exact hne (slots_apart hb hc)

/-- How many places a chain has. -/
theorem length_chainSlots (cs : List ℕ) : (lay.chainSlots cs).length = lay.bucketSize * cs.length := by
  induction cs with
  | nil => rfl
  | cons b cs ih =>
    have hslots : lay.chainSlots (b :: cs) = lay.slots b ++ lay.chainSlots cs := rfl
    rw [hslots, length_append, ih, length_cons, Nat.mul_succ]
    unfold slots
    rw [length_map, length_range]
    omega

/-- The places of two chains in a row. -/
theorem chainSlots_append (cs ds : List ℕ) :
    lay.chainSlots (cs ++ ds) = lay.chainSlots cs ++ lay.chainSlots ds := by
  unfold chainSlots
  rw [flatMap_append]

/-! ## §4. A new element. -/

/-- The bytes of an element whose value is at `q`. -/
def element (lay : Layout) (key q : ℕ) : List UInt8 :=
  encode 8 key ++ [0] ++ (if lay.dataLen = 0 then [] else encodeInt 8 q)

/-- An element fills its place. -/
theorem length_element (key q : ℕ) : (lay.element key q).length = lay.elementLen := by
  unfold element elementLen
  split
  · simp
  · simp

/-- Only a store without values has no records. -/
theorem record_eq_none_iff (v : List UInt8) : lay.record v = none ↔ lay.dataLen = 0 := by
  unfold record QStoreManager.record_VL
  split
  · next hpos => simp only [reduceCtorEq, false_iff]; omega
  · split
    · next hzero => simp [hzero]
    · next hzero => simp [hzero]

/-- With values an element has 17 bytes. -/
theorem elementLen_of_record {v r : List UInt8} (hr : lay.record v = some r) : lay.elementLen = 17 := by
  rcases lay.elementLen_cases with hc | hc
  · rw [(record_eq_none_iff v).mpr hc.2] at hr
    exact absurd hr (by simp)
  · exact hc.1

/-- A chain has room for its entries. -/
theorem Rep.entries_le {st : QStoreManager} {es : List StoreEntry} {chain : ℕ → List ℕ}
    {used : Set ℕ} (h : lay.Rep st es chain used) {j : ℕ} (hj : j < lay.bucketNum) :
    (lay.entries es j).length ≤ (lay.chainSlots (chain j)).length := by
  obtain ⟨z, hz⟩ := h.keys j hj
  have hlen := congrArg List.length hz
  rw [length_map, length_append, length_map] at hlen
  omega

section Insert

variable {st : QStoreManager} {p key : ℕ} {v : List UInt8}

/-- What `insertAt` writes to the hash file. -/
theorem insertAt_hash : (st.insertAt p key (lay.record v)).m_fpHash =
    st.m_fpHash.fwrite p (lay.element key st.m_fpData.size) := by
  have htwo : (st.m_fpHash.fwrite p (encode 8 key)).fwrite (p + 8) [0] =
      st.m_fpHash.fwrite p (encode 8 key ++ [0]) := by
    have h := st.m_fpHash.fwrite_append p (encode 8 key) [0]
    rwa [length_encode] at h
  unfold element QStoreManager.insertAt
  cases hr : lay.record v with
  | none =>
    rw [if_pos ((record_eq_none_iff v).mp hr), append_nil]
    exact htwo
  | some r =>
    have hne : lay.dataLen ≠ 0 := by
      intro hzero
      rw [(record_eq_none_iff v).mpr hzero] at hr
      exact absurd hr (by simp)
    rw [if_neg hne]
    show ((st.m_fpHash.fwrite p (encode 8 key)).fwrite (p + 8) [0]).fwrite (p + 9) _ = _
    rw [htwo]
    have h := st.m_fpHash.fwrite_append p (encode 8 key ++ [0])
      (encodeInt 8 (st.m_fpData.size : ℤ))
    rwa [length_append, length_encode] at h

/-- The layout stays. -/
theorem insertAt_fits (h : lay.Fits st) (r : Option (List UInt8)) : lay.Fits (st.insertAt p key r) := by
  cases r with
  | none | some r => exact ⟨h.bucketNum, h.bucketSize, h.dataLen⟩

/-- The counter stays. -/
theorem insertAt_overflowNum (r : Option (List UInt8)) :
    (st.insertAt p key r).m_iBucketOverflowNum = st.m_iBucketOverflowNum := by
  cases r with
  | none => rfl
  | some r => rfl

variable {q : ℕ}

/-- **The frame of an insertion** in the hash file. -/
theorem insertAt_bytes {n : ℕ} (h : q + n ≤ p ∨ p + lay.elementLen ≤ q) :
    (st.insertAt p key (lay.record v)).m_fpHash.bytes q n = st.m_fpHash.bytes q n := by
  rw [insertAt_hash]
  exact ByteFile.bytes_fwrite_of_disjoint (by rwa [length_element])

/-- The hash file does not shrink. -/
theorem insertAt_size (lay : Layout) (st : QStoreManager) (p key : ℕ) (v : List UInt8) :
    st.m_fpHash.size ≤ (st.insertAt p key (lay.record v)).m_fpHash.size := by
  rw [insertAt_hash, ByteFile.size_fwrite]
  omega

/-- The key is at its place. -/
theorem insertAt_keyAt (hkey : key < 2 ^ 64) : keyAt (st.insertAt p key (lay.record v)).m_fpHash p = key := by
  have h := ByteFile.bytes_fwrite_inside (f := st.m_fpHash) (p := p) [] (encode 8 key)
    ([0] ++ (if lay.dataLen = 0 then [] else encodeInt 8 (st.m_fpData.size : ℤ)))
  rw [length_encode] at h
  unfold keyAt
  rw [insertAt_hash, element, append_assoc]
  rw [nil_append, length_nil, Nat.add_zero] at h
  rw [h]
  exact decode_encode_of_lt hkey

/-- It is not deleted. -/
theorem insertAt_flag : (st.insertAt p key (lay.record v)).m_fpHash.bytes (p + 8) 1 = [0] := by
  have h := ByteFile.bytes_fwrite_inside (f := st.m_fpHash) (p := p) (encode 8 key) [0]
    (if lay.dataLen = 0 then [] else encodeInt 8 (st.m_fpData.size : ℤ))
  rw [insertAt_hash, element]
  exact h

/-- Earlier values stay. -/
theorem insertAt_data (p key : ℕ) {n : ℕ} (h : q + n ≤ st.m_fpData.size) (r : Option (List UInt8)) :
    (st.insertAt p key r).m_fpData.bytes q n = st.m_fpData.bytes q n ∧
      q + n ≤ (st.insertAt p key r).m_fpData.size := by
  cases r with
  | none => exact ⟨rfl, h⟩
  | some r =>
    refine ⟨ByteFile.bytes_fwrite_of_disjoint (Or.inl h), ?_⟩
    show q + n ≤ max _ _
    omega

/-- A record is not too long for a number. -/
theorem length_record {r : List UInt8} (hv : lay.Addable (key, v)) (hr : lay.record v = some r) :
    r.length ≤ maxRecord := by
  unfold record QStoreManager.record_VL at hr
  unfold maxRecord
  have hlt := lay.dataLen_lt
  split at hr
  · next hpos =>
      have hlen : (v.length : ℤ) = lay.dataLen := hv.fixed hpos
      rw [Option.some.injEq] at hr
      subst hr
      simp only [length_append, length_encode]
      omega
  split at hr
  · exact absurd hr (by simp)
  next hpos hzero =>
    have hlen : 0 < v.length ∧ v.length < 2 ^ 31 := hv.variable_ (by omega)
    rw [Option.some.injEq] at hr
    subst hr
    simp only [length_append, length_encode, length_encodeInt]
    omega

/-- The data file grows by a record at most. -/
theorem insertAt_dataSize (st : QStoreManager) (p : ℕ) (hv : lay.Addable (key, v)) :
    (st.insertAt p key (lay.record v)).m_fpData.size ≤ st.m_fpData.size + maxRecord := by
  cases hr : lay.record v with
  | none => exact Nat.le_add_right _ _
  | some r =>
    have hlen := length_record hv hr
    show max st.m_fpData.size (st.m_fpData.size + r.length) ≤ _
    omega

/-- **The value is there**, and the values that were there stay. -/
theorem insertAt_stored (hsize : st.m_fpData.size < 2 ^ 63) :
    lay.Stored (st.insertAt p key (lay.record v)) p v := by
  intro r hr
  have hne : lay.dataLen ≠ 0 := by
    intro hzero
    rw [(record_eq_none_iff v).mpr hzero] at hr
    exact absurd hr (by simp)
  refine ⟨st.m_fpData.size, hsize, ?_, ?_, ?_⟩
  · have h := ByteFile.bytes_fwrite_inside (f := st.m_fpHash) (p := p) (encode 8 key ++ [0])
      (encodeInt 8 (st.m_fpData.size : ℤ)) []
    rw [insertAt_hash, element, if_neg hne]
    exact h.trans (encodeInt_natCast (by omega))
  · rw [hr]
    show _ ≤ max _ _
    omega
  · rw [hr]
    exact ByteFile.bytes_fwrite_self _ _ _

/-- Values that were stored stay stored. -/
theorem Stored.insertAt {w : List UInt8} (hs : lay.Stored st q w)
    (h : q + lay.elementLen ≤ p ∨ p + lay.elementLen ≤ q) :
    lay.Stored (st.insertAt p key (lay.record v)) q w := by
  intro r hr
  have hlen := elementLen_of_record hr
  obtain ⟨o, ho, hbytes, hend, hrec⟩ := hs r hr
  obtain ⟨hdata, hgrow⟩ := insertAt_data p key hend (lay.record v)
  refine ⟨o, ho, ?_, hgrow, hdata.trans hrec⟩
  rw [insertAt_bytes (by omega)]
  exact hbytes

/-- Links that stay keep the chain. -/
theorem linked_congr {h h' : ByteFile} : ∀ {cs : List ℕ},
    (∀ b ∈ cs, lay.next h' b = lay.next h b) → lay.Linked h cs → lay.Linked h' cs
  | [], _, _ => trivial
  | [b], hsame, hl => (hsame b mem_cons_self).trans hl
  | b :: _ :: _, hsame, hl =>
    ⟨(hsame b mem_cons_self).trans hl.1,
      linked_congr (fun x hx => hsame x (mem_cons_of_mem b hx)) hl.2⟩

/-- A new entry belongs to one chain. -/
theorem entries_append (es : List StoreEntry) (e : StoreEntry) (j : ℕ) : lay.entries (es ++ [e]) j =
      if e.1 % lay.bucketNum = j then lay.entries es j ++ [e] else lay.entries es j := by
  unfold entries
  rw [filter_append]
  by_cases hj : e.1 % lay.bucketNum = j
  · rw [if_pos hj, filter_cons_of_pos (by simpa using hj), filter_nil]
  · rw [if_neg hj, filter_cons_of_neg (by simpa using hj), filter_nil, append_nil]

variable {es : List StoreEntry} {chain : ℕ → List ℕ} {used : Set ℕ}

/-- Chains share no place. -/
theorem Rep.slots_apart (h : lay.Rep st es chain used) {i j : ℕ} (hi : i < lay.bucketNum)
    (hj : j < lay.bucketNum) (hne : i ≠ j) (hq : q ∈ lay.chainSlots (chain i)) :
    q ∉ lay.chainSlots (chain j) := by
  intro hq'
  obtain ⟨b, hb, k, hk, rfl⟩ := lay.mem_chainSlots.mp hq
  obtain ⟨c, hc, l, hl, heq⟩ := lay.mem_chainSlots.mp hq'
  obtain ⟨rfl, _⟩ := slot_inj hl hk heq
  exact h.apart i hi j hj hne c hb hc

section Place

variable {es : List StoreEntry} {chain : ℕ → List ℕ} {used : Set ℕ} (h : lay.Rep st es chain used)
  (hp : (lay.chainSlots (chain (key % lay.bucketNum)))[(lay.entries es (key % lay.bucketNum)).length]?
    = some p)
include hp

variable {cs : List ℕ} {q j : ℕ}

/-- Another place is beside the new element. -/
theorem place_disjoint (hq : q ∈ lay.chainSlots cs) (hne : q ≠ p) :
    q + lay.elementLen ≤ p ∨ p + lay.elementLen ≤ q := by
  obtain ⟨b, _, i, hi, rfl⟩ := lay.mem_chainSlots.mp (mem_of_getElem? hp)
  obtain ⟨c, _, k, hk, rfl⟩ := lay.mem_chainSlots.mp hq
  exact lay.slot_disjoint hk hi hne

/-- Other keys stay. -/
theorem place_keyAt (hq : q ∈ lay.chainSlots cs) (hne : q ≠ p) :
    keyAt (st.insertAt p key (lay.record v)).m_fpHash q = keyAt st.m_fpHash q := by
  have hlen := lay.nine_le_elementLen
  have hdis := place_disjoint hp hq hne
  unfold keyAt
  rw [insertAt_bytes (by omega)]

/-- The chains stay linked. -/
theorem place_linked (hl : lay.Linked st.m_fpHash cs) :
    lay.Linked (st.insertAt p key (lay.record v)).m_fpHash cs := by
  obtain ⟨b, _, i, hi, rfl⟩ := lay.mem_chainSlots.mp (mem_of_getElem? hp)
  refine linked_congr (fun c _ => ?_) hl
  have hdis := lay.slot_link_disjoint (b := b) (c := c) hi
  unfold next
  rw [insertAt_bytes (by omega)]

include h

/-- The new element is in no other chain. -/
theorem Rep.place_ne (hj : j < lay.bucketNum) (hne : key % lay.bucketNum ≠ j)
    (hq : q ∈ lay.chainSlots (chain j)) : q ≠ p := by
  rintro rfl
  exact h.slots_apart hj (lay.base_lt key) (Ne.symm hne) hq (mem_of_getElem? hp)

/-- The keys of a chain, with the new one. -/
theorem Rep.insert_keys (hkey : key < 2 ^ 64) (hj : j < lay.bucketNum) :
    ∃ z, Holds (st.insertAt p key (lay.record v)).m_fpHash (lay.chainSlots (chain j))
      ((lay.entries (es ++ [(key, v)]) j).map Prod.fst) z := by
  obtain ⟨z, hz⟩ := h.keys j hj
  rw [entries_append]
  by_cases hkj : key % lay.bucketNum = j
  · subst hkj
    rw [if_pos rfl, map_append]
    refine hz.insert (chainSlots_nodup (h.nodup _ hj)) ?_ (insertAt_keyAt hkey)
      (fun q hq hne => place_keyAt hp hq hne)
    rw [length_map]
    exact hp
  rw [if_neg hkj]
  refine ⟨z, ?_⟩
  unfold Holds at hz ⊢
  rw [← hz]
  apply map_congr_left
  intro q hq
  exact place_keyAt hp hq (h.place_ne hp hj hkj hq)

/-- No element of a chain is deleted. -/
theorem Rep.insert_flags (hj : j < lay.bucketNum) (hq : q ∈ lay.chainSlots (chain j)) :
    (st.insertAt p key (lay.record v)).m_fpHash.bytes (q + 8) 1 = [0] := by
  by_cases hqp : q = p
  · subst hqp
    exact insertAt_flag
  have hlen := lay.nine_le_elementLen
  have hdis := place_disjoint hp hq hqp
  rw [insertAt_bytes (by omega)]
  exact h.flags j hj q hq

/-- The values of a chain, with the new one. -/
theorem Rep.insert_values (hsize : st.m_fpData.size < 2 ^ 63) {k : ℕ} {e : StoreEntry}
    (hj : j < lay.bucketNum) (hq : (lay.chainSlots (chain j))[k]? = some q)
    (he : (lay.entries (es ++ [(key, v)]) j)[k]? = some e) :
    lay.Stored (st.insertAt p key (lay.record v)) q e.2 := by
  have hmemq := mem_of_getElem? hq
  rw [entries_append] at he
  by_cases hkj : key % lay.bucketNum = j
  · subst hkj
    rw [if_pos rfl] at he
    rcases Nat.lt_trichotomy k (lay.entries es (key % lay.bucketNum)).length with hlt | rfl | hgt
    · rw [getElem?_append_left hlt] at he
      have hqp : q ≠ p := by
        rintro rfl
        have hk := (List.getElem?_eq_some_iff.mp hq).1
        have := (getElem?_inj hk (chainSlots_nodup (h.nodup _ hj))).mp (hq.trans hp.symm)
        omega
      exact (h.values _ hj k q e hq he).insertAt (place_disjoint hp hmemq hqp)
    · -- the new one
      rw [getElem?_append_right (Nat.le_refl _), Nat.sub_self, getElem?_cons_zero,
        Option.some.injEq] at he
      rw [hp, Option.some.injEq] at hq
      subst he hq
      exact insertAt_stored hsize
    · rw [getElem?_eq_none (by rw [length_append, length_singleton]; omega)] at he
      exact absurd he (by simp)
  · rw [if_neg hkj] at he
    exact (h.values j hj k q e hq he).insertAt (place_disjoint hp hmemq (h.place_ne hp hj hkj hmemq))

end Place

/-- **INSERTION**: an entry with a new key, in the first free place of its
    chain. -/
theorem Rep.insert (h : lay.Rep st es chain used) (hv : lay.Addable (key, v)) (hnew : key ∉ es.map Prod.fst)
    (hp : (lay.chainSlots (chain (key % lay.bucketNum)))[(lay.entries es (key % lay.bucketNum)).length]? = some p)
    (hroom : es.length * maxRecord < 2 ^ 63) :
    lay.Rep (st.insertAt p key (lay.record v)) (es ++ [(key, v)]) chain used where
  fits := insertAt_fits h.fits _
  head := by
    obtain ⟨b, _, i, hi, rfl⟩ := lay.mem_chainSlots.mp (mem_of_getElem? hp)
    have hpos := lay.head_le_pos b
    have hslot := lay.pos_le_slot b i
    rw [insertAt_bytes (by omega), h.head]
  base := h.base
  overflow := h.overflow
  nodup := h.nodup
  apart := h.apart
  linked j hj := place_linked hp (h.linked j hj)
  covered j hj c hc := by
    have hcov := h.covered j hj c hc
    have hgrow := lay.insertAt_size st p key v
    unfold Covered at hcov ⊢
    omega
  keys j hj := h.insert_keys hp hv.key_lt hj
  flags j hj q hq := h.insert_flags hp hj hq
  values j hj k q e hq he := h.insert_values hp (Nat.lt_of_le_of_lt h.data hroom) hj hq he
  distinct := by
    rw [map_append, nodup_append]
    refine ⟨h.distinct, nodup_singleton _, ?_⟩
    intro a ha c hc heq
    rw [map_cons, map_nil, mem_singleton] at hc
    have hak : a = key := heq.trans hc
    exact hnew (hak ▸ ha)
  addable e he := by
    rcases mem_append.mp he with he | he
    · exact h.addable e he
    · rw [mem_singleton.mp he]
      exact hv
  data := by
    have hgrow := insertAt_dataSize st p hv
    have hdata := h.data
    rw [length_append, length_singleton, Nat.succ_mul]
    omega

end Insert

/-! ## §5. A new bucket. -/

section Open

variable {st : QStoreManager} {n b : ℕ}

/-- The next overflow bucket is `n`, and it begins below 2³¹. -/
structure NextBucket (lay : Layout) (st : QStoreManager) (n : ℕ) : Prop where
  counter : st.m_iBucketOverflowNum = (n : ℤ) - lay.bucketNum - 1
  below : lay.pos n < 2 ^ 31

section

variable (h : lay.NextBucket st n)
include h

/-- The counter goes on by one. -/
theorem NextBucket.wrap32_counter : wrap32 (st.m_iBucketOverflowNum + 1) = (n : ℤ) - lay.bucketNum := by
  have hle := lay.index_le_pos n
  have hlt := h.below
  have hnum := lay.bucketNum_lt
  rw [h.counter, show (n : ℤ) - lay.bucketNum - 1 + 1 = (n : ℤ) - lay.bucketNum by omega]
  exact Int.bmod_eq_of_le_mul_two (by omega) (by omega)

/-- The next bucket has the number `n`. -/
theorem NextBucket.overflowIndex (hfit : lay.Fits st) : st.overflowIndex = (n : ℤ) := by
  have hle := lay.index_le_pos n
  have hlt := h.below
  unfold QStoreManager.overflowIndex
  rw [h.wrap32_counter, hfit.bucketNum,
    show (lay.bucketNum : ℤ) + (n - lay.bucketNum) = n by omega, wrap32_of_lt (by omega)]

/-- Where the next bucket begins. -/
theorem NextBucket.newPos (hfit : lay.Fits st) : st.get_bucket_position st.overflowIndex = (lay.pos n : ℤ) := by
  rw [h.overflowIndex hfit, hfit.get_bucket_position h.below]

/-- What opening a bucket writes. -/
theorem opened_hash (hfit : lay.Fits st) : (lay.opened st b).m_fpHash =
      (st.m_fpHash.fwrite (lay.link b) (encode 4 n)).fwrite (lay.pos n) (List.replicate lay.bucketLen 0) := by
  have hle := lay.index_le_pos n
  have hlt := h.below
  have hlink : lay.Fits (st.linkOverflow (lay.link b)) := ⟨hfit.bucketNum, hfit.bucketSize, hfit.dataLen⟩
  unfold opened
  rw [h.newPos hfit, Int.toNat_natCast]
  show (st.m_fpHash.fwrite _ (encodeInt 4 st.overflowIndex)).fwrite _
    (st.linkOverflow (lay.link b)).m_pBucket = _
  rw [hlink.pBucket, h.overflowIndex hfit, encodeInt_natCast (by omega)]

end

/-- The layout stays. -/
theorem opened_fits (hfit : lay.Fits st) : lay.Fits (lay.opened st b) :=
  ⟨hfit.bucketNum, hfit.bucketSize, hfit.dataLen⟩

/-- The counter behind it. -/
theorem opened_counter (h : lay.NextBucket st n) :
    (lay.opened st b).m_iBucketOverflowNum = (n : ℤ) - lay.bucketNum := h.wrap32_counter

variable {q m x j : ℕ} {es : List StoreEntry} {used : Set ℕ}

section

variable (h : lay.NextBucket st n)
include h

/-- **The frame of a new bucket**: only the overflow index of bucket `b` and
    the new bucket itself are written. -/
theorem opened_bytes (hfit : lay.Fits st) (hlink : q + m ≤ lay.link b ∨ lay.link b + 4 ≤ q)
    (hnew : q + m ≤ lay.pos n ∨ lay.pos n + lay.bucketLen ≤ q) :
    (lay.opened st b).m_fpHash.bytes q m = st.m_fpHash.bytes q m := by
  rw [opened_hash h hfit, ByteFile.bytes_fwrite_of_disjoint (by rwa [length_replicate]),
    ByteFile.bytes_fwrite_of_disjoint (by rwa [length_encode])]

/-- The new bucket is empty. -/
theorem opened_zeros (hfit : lay.Fits st) (hlo : lay.pos n ≤ q) (hhi : q + m ≤ lay.pos n + lay.bucketLen) :
    (lay.opened st b).m_fpHash.bytes q m = List.replicate m 0 := by
  rw [opened_hash h hfit]
  exact ByteFile.bytes_fwrite_zeros hlo hhi

/-- The full bucket points to it (unless it is itself overwritten). -/
theorem opened_next (hfit : lay.Fits st) (hb : b ≠ n) : lay.next (lay.opened st b).m_fpHash b = (n : ℤ) := by
  have hle := lay.index_le_pos n
  have hlt := h.below
  have hpos := lay.pos_disjoint hb
  have hlink := lay.link_add b
  have hpl := lay.pos_le_link b
  have hread := ByteFile.bytes_fwrite_self st.m_fpHash (lay.link b) (encode 4 n)
  rw [length_encode] at hread
  unfold next
  rw [opened_hash h hfit, ByteFile.bytes_fwrite_of_disjoint (by rw [length_replicate]; omega),
    hread, ← encodeInt_natCast (by omega), decodeInt_encodeInt]
  exact Int.bmod_eq_of_le_mul_two (by omega) (by omega)

/-- The file reaches to its end. -/
theorem opened_size (hfit : lay.Fits st) :
    max st.m_fpHash.size (lay.pos n + lay.bucketLen) ≤ (lay.opened st b).m_fpHash.size := by
  rw [opened_hash h hfit, ByteFile.size_fwrite, ByteFile.size_fwrite, length_replicate]
  omega

/-- The new bucket has free elements and no overflow bucket. -/
theorem opened_fresh (hfit : lay.Fits st) : lay.next (lay.opened st b).m_fpHash n = 0 ∧
      ∀ p ∈ lay.slots n, keyAt (lay.opened st b).m_fpHash p = 0 ∧
        (lay.opened st b).m_fpHash.bytes (p + 8) 1 = [0] := by
  have hlink := lay.link_add n
  have hpl := lay.pos_le_link n
  constructor
  · unfold next
    rw [opened_zeros h hfit hpl (by omega)]
    decide
  · intro p hp
    obtain ⟨i, hi, rfl⟩ := lay.mem_slots.mp hp
    have hslot := lay.slot_add_le (b := n) hi
    have hps := lay.pos_le_slot n i
    have hlen := lay.nine_le_elementLen
    constructor
    · unfold keyAt
      rw [opened_zeros h hfit hps (by omega)]
      exact decode_zeros 8
    · exact opened_zeros h hfit (by omega) (by omega)

/-- The elements of other buckets stay. -/
theorem opened_slot (hfit : lay.Fits st) {i : ℕ} (hx : x ≠ n) (hi : i < lay.bucketSize) (hlo : lay.slot x i ≤ q)
    (hhi : q + m ≤ lay.slot x i + lay.elementLen) : (lay.opened st b).m_fpHash.bytes q m = st.m_fpHash.bytes q m := by
  have hslot := lay.slot_add_le (b := x) hi
  have hlink := lay.link_add x
  have hps := lay.pos_le_slot x i
  have hpos := lay.pos_disjoint hx
  have hdis := lay.slot_link_disjoint (b := x) (c := b) hi
  exact opened_bytes h hfit (by omega) (by omega)

/-- So do their links. -/
theorem opened_link (hfit : lay.Fits st) (hx : x ≠ n) (hne : x ≠ b) :
    lay.next (lay.opened st b).m_fpHash x = lay.next st.m_fpHash x := by
  have hlink := lay.link_add x
  have hpl := lay.pos_le_link x
  have hpos := lay.pos_disjoint hx
  have hdis := lay.link_disjoint hne
  unfold next
  rw [opened_bytes h hfit (by omega) (by omega)]

end

section Frame

variable (h : lay.NextBucket st n) (hfit : lay.Fits st) {cs : List ℕ} (hcs : ∀ x ∈ cs, x ≠ n) {p : ℕ}
  (hp : p ∈ lay.chainSlots cs)
include h hfit hcs hp

/-- And their keys. -/
theorem opened_keyAt : keyAt (lay.opened st b).m_fpHash p = keyAt st.m_fpHash p := by
  have hlen := lay.nine_le_elementLen
  obtain ⟨x, hx, i, hi, rfl⟩ := lay.mem_chainSlots.mp hp
  unfold keyAt
  rw [opened_slot h hfit (hcs x hx) hi (Nat.le_refl _) (by omega)]

/-- And their tags. -/
theorem opened_flag : (lay.opened st b).m_fpHash.bytes (p + 8) 1 = st.m_fpHash.bytes (p + 8) 1 := by
  have hlen := lay.nine_le_elementLen
  obtain ⟨x, hx, i, hi, rfl⟩ := lay.mem_chainSlots.mp hp
  exact opened_slot h hfit (hcs x hx) hi (by omega) (by omega)

/-- And their values. -/
theorem Stored.opened {v : List UInt8} (hs : lay.Stored st p v) : lay.Stored (lay.opened st b) p v := by
  intro r hr
  have hlen := elementLen_of_record hr
  obtain ⟨q, hq, hbytes, hdata⟩ := hs r hr
  refine ⟨q, hq, ?_, hdata⟩
  obtain ⟨x, hx, i, hi, rfl⟩ := lay.mem_chainSlots.mp hp
  rw [opened_slot h hfit (hcs x hx) hi (by omega) (by omega)]
  exact hbytes

end Frame

/-- A chain with a new last bucket. -/
theorem linked_snoc {h h' : ByteFile} {n : ℕ} (cs : List ℕ) : ∀ x,
    (∀ y ∈ x :: cs, y ≠ (x :: cs).getLast (cons_ne_nil x cs) → lay.next h' y = lay.next h y) →
    (x :: cs).Nodup → lay.next h' ((x :: cs).getLast (cons_ne_nil x cs)) = (n : ℤ) →
    lay.next h' n = 0 → lay.Linked h (x :: cs) → lay.Linked h' (x :: cs ++ [n]) := by
  induction cs with
  | nil =>
    intro x _ _ hlast hend _
    exact ⟨hlast, hend⟩
  | cons y cs ih =>
    intro x hsame hnd hlast hend hl
    rw [nodup_cons] at hnd
    have hx : x ≠ (y :: cs).getLast (cons_ne_nil y cs) := by
      intro heq
      exact hnd.1 (heq ▸ getLast_mem _)
    exact ⟨(hsame x mem_cons_self hx).trans hl.1,
      ih y (fun z hz => hsame z (mem_cons_of_mem x hz)) hnd.2 hlast hend hl.2⟩

variable {chain : ℕ → List ℕ} {j₀ : ℕ}

/-- A new bucket is in no chain. -/
theorem Rep.not_in_use (h : lay.Rep st es chain used) (hbase : lay.bucketNum ≤ n) (hn : n ∉ used)
    (hj : j < lay.bucketNum) : ∀ x ∈ chain j, x ≠ n := by
  rintro x hx rfl
  obtain ⟨os, hos⟩ := h.base j hj
  have htail := h.overflow j hj
  rw [hos] at hx htail
  rcases mem_cons.mp hx with rfl | hx
  · omega
  · exact hn (htail x hx).2

/-- The chains after bucket `n` was opened behind chain `j₀`. -/
def extend (chain : ℕ → List ℕ) (j₀ n : ℕ) : ℕ → List ℕ :=
  Function.update chain j₀ (chain j₀ ++ [n])

/-- The chain that gets it. -/
theorem extend_self (chain : ℕ → List ℕ) (j₀ n : ℕ) : extend chain j₀ n j₀ = chain j₀ ++ [n] :=
  Function.update_self ..

/-- Another chain. -/
theorem extend_of_ne (chain : ℕ → List ℕ) (n : ℕ) (hj : j ≠ j₀) :
    extend chain j₀ n j = chain j := Function.update_of_ne hj ..

/-- A bucket of a chain is an old one or the new one. -/
theorem mem_extend {n : ℕ} (hx : x ∈ extend chain j₀ n j) : x ∈ chain j ∨ (j = j₀ ∧ x = n) := by
  by_cases hj : j = j₀
  · subst hj
    rw [extend_self] at hx
    rcases mem_append.mp hx with hx | hx
    · exact Or.inl hx
    · exact Or.inr ⟨rfl, mem_singleton.mp hx⟩
  · rw [extend_of_ne chain n hj] at hx
    exact Or.inl hx

/-- The places of a longer chain. -/
theorem chainSlots_snoc (cs : List ℕ) (n : ℕ) :
    lay.chainSlots (cs ++ [n]) = lay.chainSlots cs ++ lay.slots n := by
  simp [chainSlots]

section Behind

variable {es : List StoreEntry} {chain : ℕ → List ℕ} {used : Set ℕ} {j₀ : ℕ}
  (h : lay.Rep st es chain used) (hn : lay.NextBucket st n)
  (hold : ∀ j < lay.bucketNum, ∀ x ∈ chain j, x ≠ n) (hne : chain j₀ ≠ [])
include h hold

variable {j : ℕ}

/-- No bucket is twice in a chain. -/
theorem Rep.extend_nodup (hj : j < lay.bucketNum) : (extend chain j₀ n j).Nodup := by
  by_cases hjj : j = j₀
  · subst hjj
    rw [extend_self, nodup_append]
    refine ⟨h.nodup j hj, nodup_singleton _, ?_⟩
    intro x hx y hy
    rw [mem_singleton.mp hy]
    exact hold j hj x hx
  · rw [extend_of_ne chain n hjj]
    exact h.nodup j hj

/-- Chains share no bucket. -/
theorem Rep.extend_apart {i : ℕ} (hi : i < lay.bucketNum) (hj : j < lay.bucketNum) (hij : i ≠ j) :
    ∀ x ∈ extend chain j₀ n i, x ∉ extend chain j₀ n j := by
  intro x hxi hxj
  rcases mem_extend hxi with hci | ⟨hii, hx⟩
  · rcases mem_extend hxj with hcj | ⟨_, hx⟩
    · exact h.apart i hi j hj hij x hci hcj
    · exact hold i hi x hci hx
  · rcases mem_extend hxj with hcj | ⟨hjj, _⟩
    · exact hold j hj x hcj hx
    · exact hij (hii.trans hjj.symm)

include hn

/-- All chains are linked again. -/
theorem Rep.open_linked (hj₀ : j₀ < lay.bucketNum) (hj : j < lay.bucketNum) :
    lay.Linked (lay.opened st ((chain j₀).getLast hne)).m_fpHash (extend chain j₀ n j) := by
  have hlast : (chain j₀).getLast hne ∈ chain j₀ := getLast_mem hne
  by_cases hjj : j = j₀
  · subst hjj
    have hnext := opened_next hn h.fits (hold j hj _ hlast)
    have hend := (opened_fresh (b := (chain j).getLast hne) hn h.fits).1
    have hlinks : ∀ x ∈ chain j, x ≠ (chain j).getLast hne →
        lay.next (lay.opened st ((chain j).getLast hne)).m_fpHash x = lay.next st.m_fpHash x :=
      fun x hx hxl => opened_link hn h.fits (hold j hj x hx) hxl
    rw [extend_self]
    obtain ⟨os, hos⟩ := h.base j hj
    simp only [hos] at hnext hlinks hend ⊢
    exact linked_snoc os j hlinks (hos ▸ h.nodup j hj) hnext hend (hos ▸ h.linked j hj)
  · rw [extend_of_ne chain n hjj]
    refine linked_congr (fun x hx => opened_link hn h.fits (hold j hj x hx) ?_) (h.linked j hj)
    rintro rfl
    exact h.apart j hj j₀ hj₀ hjj _ hx hlast

/-- Their keys, behind them new free places. -/
theorem Rep.open_keys (hj : j < lay.bucketNum) : ∃ z, Holds (lay.opened st ((chain j₀).getLast hne)).m_fpHash
      (lay.chainSlots (extend chain j₀ n j)) ((lay.entries es j).map Prod.fst) z := by
  obtain ⟨z, hz⟩ := h.keys j hj
  have hkeep : (lay.chainSlots (chain j)).map
      (keyAt (lay.opened st ((chain j₀).getLast hne)).m_fpHash) =
      (lay.entries es j).map Prod.fst ++ List.replicate z 0 := by
    rw [← hz]
    exact map_congr_left (fun p hp => opened_keyAt hn h.fits (hold j hj) hp)
  by_cases hjj : j = j₀
  · subst hjj
    refine ⟨z + lay.bucketSize, ?_⟩
    have hzeros : (lay.slots n).map (keyAt (lay.opened st ((chain j).getLast hne)).m_fpHash) =
        List.replicate lay.bucketSize 0 := by
      rw [map_congr_left (g := fun _ => 0) (fun p hp => ((opened_fresh hn h.fits).2 p hp).1),
        map_const']
      unfold slots
      rw [length_map, length_range]
    unfold Holds
    rw [extend_self, chainSlots_snoc, map_append, hkeep, hzeros, append_assoc,
      replicate_append_replicate]
  · rw [extend_of_ne chain n hjj]
    exact ⟨z, hkeep⟩

/-- No element is deleted. -/
theorem Rep.open_flags {p : ℕ} (hj : j < lay.bucketNum) (hp : p ∈ lay.chainSlots (extend chain j₀ n j)) :
    (lay.opened st ((chain j₀).getLast hne)).m_fpHash.bytes (p + 8) 1 = [0] := by
  have hkeep : ∀ p ∈ lay.chainSlots (chain j),
      (lay.opened st ((chain j₀).getLast hne)).m_fpHash.bytes (p + 8) 1 = [0] := by
    intro p hp
    rw [opened_flag hn h.fits (hold j hj) hp]
    exact h.flags j hj p hp
  by_cases hjj : j = j₀
  · subst hjj
    rw [extend_self, chainSlots_snoc] at hp
    rcases mem_append.mp hp with hp | hp
    · exact hkeep p hp
    · exact ((opened_fresh hn h.fits).2 p hp).2
  · rw [extend_of_ne chain n hjj] at hp
    exact hkeep p hp

/-- Their values. -/
theorem Rep.open_values {i p : ℕ} {e : StoreEntry} (hj : j < lay.bucketNum)
    (hp : (lay.chainSlots (extend chain j₀ n j))[i]? = some p) (he : (lay.entries es j)[i]? = some e) :
    lay.Stored (lay.opened st ((chain j₀).getLast hne)) p e.2 := by
  have hthere : (lay.chainSlots (chain j))[i]? = some p := by
    by_cases hjj : j = j₀
    · subst hjj
      -- an entry has its place in the old buckets
      have hi := (List.getElem?_eq_some_iff.mp he).1
      have hroom := h.entries_le hj
      rw [extend_self, chainSlots_snoc, getElem?_append_left (by omega)] at hp
      exact hp
    · rw [extend_of_ne chain n hjj] at hp
      exact hp
  exact (h.values j hj i p e hthere he).opened hn h.fits (hold j hj) (mem_of_getElem? hthere)

end Behind

/-- **A NEW BUCKET** behind a chain, one that is not in use. -/
theorem Rep.open_ (h : lay.Rep st es chain used) (hn : lay.NextBucket st n) (hbase : lay.bucketNum ≤ n)
    (hfree : n ∉ used) (hj₀ : j₀ < lay.bucketNum) (hne : chain j₀ ≠ []) :
    lay.Rep (lay.opened st ((chain j₀).getLast hne)) es (extend chain j₀ n) (used ∪ {n}) := by
  have hold : ∀ j < lay.bucketNum, ∀ x ∈ chain j, x ≠ n := fun j hj => h.not_in_use hbase hfree hj
  constructor
  · exact opened_fits h.fits
  · have hpos := lay.head_le_pos n
    have hpl := lay.pos_le_link ((chain j₀).getLast hne)
    have hpos' := lay.head_le_pos ((chain j₀).getLast hne)
    rw [opened_bytes hn h.fits (by omega) (by omega), h.head]
  · intro j hj
    obtain ⟨os, hos⟩ := h.base j hj
    by_cases hjj : j = j₀
    · subst hjj
      rw [extend_self, hos]
      exact ⟨os ++ [n], rfl⟩
    · rw [extend_of_ne chain n hjj]
      exact ⟨os, hos⟩
  · intro j hj x hx
    have hkeep : ∀ x ∈ (chain j).tail, lay.bucketNum ≤ x ∧ x ∈ used ∪ {n} :=
      fun x hx => ⟨(h.overflow j hj x hx).1, Or.inl (h.overflow j hj x hx).2⟩
    by_cases hjj : j = j₀
    · subst hjj
      rw [extend_self, tail_append_of_ne_nil hne] at hx
      rcases mem_append.mp hx with hx | hx
      · exact hkeep x hx
      · rw [mem_singleton.mp hx]
        exact ⟨hbase, Or.inr rfl⟩
    · rw [extend_of_ne chain n hjj] at hx
      exact hkeep x hx
  · exact fun j hj => h.extend_nodup hold hj
  · exact fun i hi j hj hij => h.extend_apart hold hi hj hij
  · exact fun j hj => h.open_linked hn hold hne hj₀ hj
  · intro j hj x hx
    have hsize := opened_size (b := (chain j₀).getLast hne) hn h.fits
    unfold Covered
    rcases mem_extend hx with hx | ⟨_, rfl⟩
    · have hcov := h.covered j hj x hx
      unfold Covered at hcov
      omega
    · omega
  · exact fun j hj => h.open_keys hn hold hne hj
  · exact fun j hj p hp => h.open_flags hn hold hne hj hp
  · exact fun j hj i p e hp he => h.open_values hn hold hne hj hp he
  · exact h.distinct
  · exact h.addable
  · exact h.data

end Open

end Layout

end KalavaPir.Common
