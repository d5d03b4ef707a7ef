/-
  KalavaPir.Common.QStoreChains — the loops of `QStoreManager`, along a chain
  of buckets.

  Where the elements and the overflow index of a bucket lie is arithmetic
  (`Layout`).  A chain is a list of bucket indices, each storing the next one;
  its elements, one bucket after the other, are a list of positions, and both
  loops do nothing but look for the first of these positions that holds the
  key or nothing (`probe`).
-/
import KalavaPir.Common.QStoreManager

namespace KalavaPir.Common

open KalavaPir.Framework List

/-! ## §1. The layout of a store. -/

/-- The arguments of `init`, within the range of their types. -/
structure Layout where
  bucketNum : ℕ
  bucketSize : ℕ
  dataLen : ℤ
  bucketNum_pos : 0 < bucketNum
  bucketSize_pos : 0 < bucketSize
  bucketNum_lt : bucketNum < 2 ^ 31
  dataLen_ge : -2 ^ 31 ≤ dataLen
  dataLen_lt : dataLen < 2 ^ 31
  /-- `m_iBucketLen` is an `int32_t` -/
  bucketLen_lt : (if dataLen = 0 then 9 else 17) * bucketSize + 4 < 2 ^ 31

namespace Layout

variable (lay : Layout)

/-- The sizes of an element and of a bucket. -/
def elementLen : ℕ := if lay.dataLen = 0 then 9 else 17
def bucketLen : ℕ := lay.elementLen * lay.bucketSize + 4

/-- Where bucket `b`, its element `i` and its overflow index lie. -/
def pos (b : ℕ) : ℕ := m_iHeadLen + b * lay.bucketLen
/-- Where an element stands. -/
def slot (b i : ℕ) : ℕ := lay.pos b + i * lay.elementLen
/-- Where the link of a bucket stands. -/
def link (b : ℕ) : ℕ := lay.pos b + lay.bucketSize * lay.elementLen

/-- An element has 9 or 17 bytes. -/
theorem elementLen_cases : lay.elementLen = 9 ∧ lay.dataLen = 0 ∨
    lay.elementLen = 17 ∧ lay.dataLen ≠ 0 := by
  by_cases h : lay.dataLen = 0
  · exact Or.inl ⟨if_pos h, h⟩
  · exact Or.inr ⟨if_neg h, h⟩

/-- A key and a tag at least. -/
theorem nine_le_elementLen : 9 ≤ lay.elementLen := by
  rcases lay.elementLen_cases with h | h <;> omega

/-- A bucket has fewer than 2³¹ elements. -/
theorem bucketSize_lt : lay.bucketSize < 2 ^ 31 := by
  have h := lay.bucketLen_lt
  have hmul : lay.bucketSize ≤ (if lay.dataLen = 0 then 9 else 17) * lay.bucketSize :=
    Nat.le_mul_of_pos_left _ (by split <;> omega)
  omega

/-- The link ends the bucket. -/
theorem link_add (b : ℕ) : lay.link b + 4 = lay.pos b + lay.bucketLen := by
  unfold link bucketLen
  rw [Nat.mul_comm lay.elementLen]
  omega

/-- One place behind the other. -/
theorem slot_succ (b i : ℕ) : lay.slot b i + lay.elementLen = lay.slot b (i + 1) := by
  unfold slot
  rw [Nat.succ_mul]
  omega

/-- The first one begins the bucket. -/
theorem slot_zero (b : ℕ) : lay.slot b 0 = lay.pos b := by
  unfold slot
  omega

/-- The link is behind the last one. -/
theorem slot_size (b : ℕ) : lay.slot b lay.bucketSize = lay.link b := rfl

variable {b i c : ℕ} {st : QStoreManager}

variable {j : ℕ}

/-- Places are in the order of their indices. -/
theorem slot_le_slot (h : i ≤ j) : lay.slot b i ≤ lay.slot b j :=
  Nat.add_le_add_left (Nat.mul_le_mul_right _ h) _

/-- An element ends before the link. -/
theorem slot_add_le (h : i < lay.bucketSize) : lay.slot b i + lay.elementLen ≤ lay.link b := by
  rw [slot_succ, ← slot_size]
  exact lay.slot_le_slot h

/-- It begins in its bucket. -/
theorem pos_le_slot (b i : ℕ) : lay.pos b ≤ lay.slot b i := Nat.le_add_right _ _

/-- A bucket ends before the next one. -/
theorem pos_add_le (h : b < c) : lay.pos b + lay.bucketLen ≤ lay.pos c := by
  have hmul : (b + 1) * lay.bucketLen ≤ c * lay.bucketLen := Nat.mul_le_mul_right _ h
  unfold pos
  rw [Nat.succ_mul] at hmul
  omega

/-- A base bucket is in front of the overflow buckets. -/
theorem bucket_le_base (hj : j < lay.bucketNum) :
    lay.pos j + lay.bucketLen ≤ m_iHeadLen + lay.bucketNum * lay.bucketLen := lay.pos_add_le hj

/-- Buckets do not overlap. -/
theorem pos_disjoint (h : b ≠ c) :
    lay.pos b + lay.bucketLen ≤ lay.pos c ∨ lay.pos c + lay.bucketLen ≤ lay.pos b := by
  rcases Nat.lt_or_gt_of_ne h with h | h
  · exact Or.inl (lay.pos_add_le h)
  · exact Or.inr (lay.pos_add_le h)

/-- All are behind the head. -/
theorem head_le_pos (b : ℕ) : m_iHeadLen ≤ lay.pos b := Nat.le_add_right _ _

/-- A link is in its bucket. -/
theorem pos_le_link (b : ℕ) : lay.pos b ≤ lay.link b := Nat.le_add_right _ _

/-- A position is not below the number. -/
theorem index_le_pos (b : ℕ) : b ≤ lay.pos b := by
  have hmul : b ≤ b * lay.bucketLen := Nat.le_mul_of_pos_right _ (by unfold bucketLen; omega)
  unfold pos
  omega

/-- The elements of a bucket are in front of the next one's. -/
theorem slot_add_le_slot (h : b < c) (hi : i < lay.bucketSize) : lay.slot b i + lay.elementLen ≤ lay.slot c j := by
  have hslot := lay.slot_add_le (b := b) hi
  have hlink := lay.link_add b
  have hpos := lay.pos_add_le h
  have hle := lay.pos_le_slot c j
  omega

/-- **Two elements do not overlap.** -/
theorem slot_disjoint (hi : i < lay.bucketSize) (hj : j < lay.bucketSize)
    (hne : lay.slot b i ≠ lay.slot c j) :
    lay.slot b i + lay.elementLen ≤ lay.slot c j ∨ lay.slot c j + lay.elementLen ≤ lay.slot b i := by
  rcases Nat.lt_trichotomy b c with h | rfl | h
  · exact Or.inl (lay.slot_add_le_slot h hi)
  · rcases Nat.lt_trichotomy i j with h | rfl | h
    · exact Or.inl (by rw [slot_succ]; exact lay.slot_le_slot h)
    · exact absurd rfl hne
    · exact Or.inr (by rw [slot_succ]; exact lay.slot_le_slot h)
  · exact Or.inr (lay.slot_add_le_slot h hj)

/-- **An element and an overflow index do not overlap.** -/
theorem slot_link_disjoint (hi : i < lay.bucketSize) :
    lay.slot b i + lay.elementLen ≤ lay.link c ∨ lay.link c + 4 ≤ lay.slot b i := by
  have hbi := lay.slot_add_le (b := b) hi
  have hlb := lay.link_add b
  have hlc := lay.link_add c
  have hpb := lay.pos_le_slot b i
  rcases Nat.lt_trichotomy b c with h | rfl | h
  · have := lay.pos_add_le h
    omega
  · exact Or.inl hbi
  · have := lay.pos_add_le h
    omega

/-- Links do not overlap. -/
theorem link_disjoint (h : b ≠ c) : lay.link b + 4 ≤ lay.link c ∨ lay.link c + 4 ≤ lay.link b := by
  have hlb := lay.link_add b
  have hlc := lay.link_add c
  have hpc : lay.pos c ≤ lay.link c := Nat.le_add_right _ _
  rcases Nat.lt_or_gt_of_ne h with h | h
  · have := lay.pos_add_le h
    omega
  · have := lay.pos_add_le h
    omega

/-- A key has a base bucket. -/
theorem base_lt (key : ℕ) : key % lay.bucketNum < lay.bucketNum := Nat.mod_lt key lay.bucketNum_pos

/-! ## §2. A store of that layout. -/

/-- The object has the numbers of the layout. -/
structure Fits (st : QStoreManager) : Prop where
  bucketNum : st.m_iBucketNum = lay.bucketNum
  bucketSize : st.m_iBucketSize = lay.bucketSize
  dataLen : st.m_iDataLen = lay.dataLen

variable {lay}

/-- Nothing is cut off. -/
theorem wrap32_of_lt {n : ℕ} (h : n < 2 ^ 31) : wrap32 (n : ℤ) = n :=
  Int.bmod_eq_of_le_mul_two (by omega) (by omega)

section

variable (h : lay.Fits st)
include h

/-- The size of an element, in the object. -/
theorem Fits.elementLen : st.m_iElementLen = lay.elementLen := by
  unfold QStoreManager.m_iElementLen Layout.elementLen
  rw [h.dataLen]

/-- The size of a bucket, in the object. -/
theorem Fits.bucketLen : st.m_iBucketLen = (lay.bucketLen : ℤ) := by
  have hlt : lay.bucketLen < 2 ^ 31 := lay.bucketLen_lt
  unfold QStoreManager.m_iBucketLen
  rw [h.elementLen, h.bucketSize, ← wrap32_of_lt hlt]
  rfl

/-- The position, if it is an `int32_t`. -/
theorem Fits.get_bucket_position (hb : lay.pos b < 2 ^ 31) : st.get_bucket_position b = (lay.pos b : ℤ) := by
  unfold QStoreManager.get_bucket_position
  rw [h.bucketLen, ← wrap32_of_lt hb]
  rfl

/-- The base bucket of a key. -/
theorem Fits.bucketIndex (key : ℕ) : st.bucketIndex key = ((key % lay.bucketNum : ℕ) : ℤ) := by
  have hlt := lay.bucketNum_lt
  have hnum : ((lay.bucketNum : ℤ) % 2 ^ 64).toNat = lay.bucketNum := by omega
  have hmod := lay.base_lt key
  unfold QStoreManager.bucketIndex
  rw [h.bucketNum, hnum, wrap32_of_lt (by omega)]

/-- Where that one begins. -/
theorem Fits.base_position {key : ℕ} (hbelow : lay.pos (key % lay.bucketNum) < 2 ^ 31) :
    st.get_bucket_position (st.bucketIndex key) = (lay.pos (key % lay.bucketNum) : ℤ) := by
  rw [h.bucketIndex, h.get_bucket_position hbelow]

/-- The empty bucket of the object. -/
theorem Fits.pBucket : st.m_pBucket = List.replicate lay.bucketLen 0 := by
  unfold QStoreManager.m_pBucket
  rw [h.bucketLen, Int.toNat_natCast]

end

end Layout

/-! ## §3. Probing. -/

/-- The key at a position, and the overflow index of a bucket. -/
def keyAt (h : ByteFile) (p : ℕ) : ℕ := decode (h.bytes p 8)
/-- The link of a bucket. -/
def Layout.next (lay : Layout) (h : ByteFile) (b : ℕ) : ℤ := decodeInt (h.bytes (lay.link b) 4)

/-- How a search in a list of places ends. -/
inductive Probe where
  | hit (p : ℕ)
  | hole (p : ℕ)
  | full
  deriving DecidableEq, Repr

/-- The first position that holds the key, or nothing. -/
def probe (h : ByteFile) (key : ℕ) : List ℕ → Probe
  | [] => .full
  | p :: ps =>
    if keyAt h p = key then .hit p
    else if keyAt h p = 0 then .hole p
    else probe h key ps

attribute [local simp] probe

variable {h : ByteFile} {key p : ℕ} {ps : List ℕ}

/-- The key is at this place. -/
theorem probe_hit (hkey : keyAt h p = key) : probe h key (p :: ps) = .hit p := if_pos hkey

/-- The place is free. -/
theorem probe_hole (hkey : keyAt h p ≠ key) (hzero : keyAt h p = 0) : probe h key (p :: ps) = .hole p := by
  rw [probe, if_neg hkey, if_pos hzero]

/-- It is neither. -/
theorem probe_skip (hkey : keyAt h p ≠ key) (hzero : keyAt h p ≠ 0) :
    probe h key (p :: ps) = probe h key ps := by
  rw [probe, if_neg hkey, if_neg hzero]

/-- A hole is one. -/
theorem probe_hole_zero (hp : probe h key ps = .hole p) : keyAt h p = 0 := by
  induction ps with
  | nil => exact absurd hp (by simp [probe])
  | cons q ps ih =>
    by_cases hkey : keyAt h q = key
    · rw [probe_hit hkey] at hp
      exact absurd hp (by simp)
    by_cases hzero : keyAt h q = 0
    · rw [probe_hole hkey hzero, Probe.hole.injEq] at hp
      rw [← hp]
      exact hzero
    · rw [probe_skip hkey hzero] at hp
      exact ih hp

/-- A hit is one. -/
theorem probe_hit_key (hp : probe h key ps = .hit p) : keyAt h p = key := by
  induction ps with
  | nil => exact absurd hp (by simp [probe])
  | cons q ps ih =>
    by_cases hkey : keyAt h q = key
    · rw [probe_hit hkey, Probe.hit.injEq] at hp
      rw [← hp]
      exact hkey
    by_cases hzero : keyAt h q = 0
    · rw [probe_hole hkey hzero] at hp
      exact absurd hp (by simp)
    · rw [probe_skip hkey hzero] at hp
      exact ih hp

variable {qs : List ℕ}

/-- A bucket that has neither is passed. -/
theorem probe_append_full (hp : probe h key ps = .full) :
    probe h key (ps ++ qs) = probe h key qs := by
  induction ps with
  | nil => rfl
  | cons p ps ih =>
    by_cases hkey : keyAt h p = key
    · rw [probe_hit hkey] at hp
      exact absurd hp (by simp)
    by_cases hzero : keyAt h p = 0
    · rw [probe_hole hkey hzero] at hp
      exact absurd hp (by simp)
    · rw [probe_skip hkey hzero] at hp
      rw [cons_append, probe_skip hkey hzero]
      exact ih hp

/-- What follows an end does not matter. -/
theorem probe_append_stop (hp : probe h key ps ≠ .full) :
    probe h key (ps ++ qs) = probe h key ps := by
  induction ps with
  | nil => exact absurd rfl hp
  | cons p ps ih =>
    by_cases hkey : keyAt h p = key
    · rw [cons_append, probe_hit hkey, probe_hit hkey]
    by_cases hzero : keyAt h p = 0
    · rw [cons_append, probe_hole hkey hzero, probe_hole hkey hzero]
    · rw [probe_skip hkey hzero] at hp
      rw [cons_append, probe_skip hkey hzero, probe_skip hkey hzero]
      exact ih hp

namespace Layout

variable (lay : Layout)

/-- The elements of a bucket, and of a chain. -/
def slots (b : ℕ) : List ℕ := (List.range lay.bucketSize).map (lay.slot b)
/-- The places of a chain, in their order. -/
def chainSlots (cs : List ℕ) : List ℕ := cs.flatMap lay.slots

/-- All of the bucket is in the file. -/
def Covered (h : ByteFile) (b : ℕ) : Prop := lay.pos b + lay.bucketLen ≤ h.size

/-- Each bucket stores the next one, the last one nothing. -/
def Linked (h : ByteFile) : List ℕ → Prop
  | [] => True
  | [b] => lay.next h b = 0
  | b :: c :: cs => lay.next h b = c ∧ Linked h (c :: cs)

/-- What a loop can walk along. -/
structure Chain (h : ByteFile) (cs : List ℕ) : Prop where
  linked : lay.Linked h cs
  covered : ∀ b ∈ cs, lay.Covered h b
  below : ∀ b ∈ cs, lay.pos b < 2 ^ 31
  nonzero : ∀ b ∈ cs.tail, b ≠ 0

variable {b : ℕ} {cs : List ℕ}

/-- The rest of a chain is one. -/
theorem Chain.tail {lay : Layout} {h : ByteFile} {c : ℕ} (hc : lay.Chain h (b :: c :: cs)) :
    lay.Chain h (c :: cs) where
  linked := hc.linked.2
  covered x hx := hc.covered x (mem_cons_of_mem b hx)
  below x hx := hc.below x (mem_cons_of_mem b hx)
  nonzero x hx := hc.nonzero x (mem_cons_of_mem c hx)

/-- The places of a bucket. -/
theorem mem_slots {p : ℕ} : p ∈ lay.slots b ↔ ∃ i < lay.bucketSize, lay.slot b i = p := by
  unfold slots
  simp only [mem_map, mem_range]

/-- The places of a chain. -/
theorem mem_chainSlots {p : ℕ} :
    p ∈ lay.chainSlots cs ↔ ∃ b ∈ cs, ∃ i < lay.bucketSize, lay.slot b i = p := by
  unfold chainSlots
  simp only [mem_flatMap, mem_slots]

/-- They are in their order. -/
theorem slots_from (b : ℕ) : lay.slots b = (List.range' 0 lay.bucketSize).map (lay.slot b) := by
  unfold slots
  rw [range_eq_range']

/-! ## §4. The loops. -/

section Walk

variable {lay} {st : QStoreManager} (hfit : lay.Fits st)
include hfit

/-- **`addKey` in one bucket.** -/
theorem addScan_probe (key : ℕ) (record : Option (List UInt8)) {b : ℕ}
    (hcov : lay.Covered st.m_fpHash b) (n : ℕ) : ∀ i, i + n = lay.bucketSize →
    QStoreManager.addScan st key record n (lay.slot b i) =
      match probe st.m_fpHash key ((List.range' i n).map (lay.slot b)) with
      | .hit _ => .inl (1, st)
      | .hole p => .inl (0, st.insertAt p key record)
      | .full => .inr (lay.link b) := by
  induction n with
  | zero =>
    intro i hi
    subst hi
    rfl
  | succ n ih =>
    intro i hi
    have hslot := lay.slot_add_le (b := b) (i := i) (by omega)
    have hlink := lay.link_add b
    have hlen := lay.nine_le_elementLen
    have hread : st.m_fpHash.fread (lay.slot b i) 8 = some (st.m_fpHash.bytes (lay.slot b i) 8) :=
      ByteFile.fread_of_le (by unfold Covered at hcov; omega)
    have hround : QStoreManager.addScan st key record (n + 1) (lay.slot b i) =
        if keyAt st.m_fpHash (lay.slot b i) = key then .inl (1, st)
        else if keyAt st.m_fpHash (lay.slot b i) = 0 then
          .inl (0, st.insertAt (lay.slot b i) key record)
        else QStoreManager.addScan st key record n (lay.slot b (i + 1)) := by
      rw [QStoreManager.addScan, hread, hfit.elementLen, lay.slot_succ]
      rfl
    rw [range'_succ, map_cons, hround]
    by_cases hkey : keyAt st.m_fpHash (lay.slot b i) = key
    · rw [if_pos hkey, probe_hit hkey]
    by_cases hzero : keyAt st.m_fpHash (lay.slot b i) = 0
    · rw [if_neg hkey, if_pos hzero, probe_hole hkey hzero]
    · rw [if_neg hkey, if_neg hzero, probe_skip hkey hzero]
      exact ih (i + 1) (by omega)

end Walk

/-- The link can be read. -/
theorem fread_link {lay : Layout} {h : ByteFile} (hcov : lay.Covered h b) :
    h.fread (lay.link b) 4 = some (h.bytes (lay.link b) 4) := by
  have hlink := lay.link_add b
  exact ByteFile.fread_of_le (by unfold Covered at hcov; omega)

/-- The store with a new overflow bucket behind bucket `b`. -/
def opened (lay : Layout) (st : QStoreManager) (b : ℕ) : QStoreManager :=
  (st.linkOverflow (lay.link b)).clearBucket (st.get_bucket_position st.overflowIndex).toNat

/-- How `addKey` goes on when the last bucket is full. -/
def openLoop (lay : Layout) (codes : QStoreManager.AddCodes) (key : ℕ)
    (record : Option (List UInt8)) (fuel : ℕ) (st : QStoreManager) (b : ℕ) :
    Option (ℤ × QStoreManager) :=
  if st.get_bucket_position st.overflowIndex < 0 then
    some (codes.seekOverflow, st.linkOverflow (lay.link b))
  else
    QStoreManager.addLoop codes key record fuel (lay.opened st b)
      (st.get_bucket_position st.overflowIndex)

section Walk

variable {lay} {st : QStoreManager} (hfit : lay.Fits st)
include hfit

/-- One bucket of the `Q_FOREVER` of `addKey`. -/
theorem addLoop_bucket (codes : QStoreManager.AddCodes) (key : ℕ) (record : Option (List UInt8))
    (fuel : ℕ) {b : ℕ} (hcov : lay.Covered st.m_fpHash b) :
    QStoreManager.addLoop codes key record (fuel + 1) st (lay.pos b) =
      match probe st.m_fpHash key (lay.slots b) with
      | .hit _ => some (1, st)
      | .hole p => some (0, st.insertAt p key record)
      | .full =>
        if lay.next st.m_fpHash b = 0 then lay.openLoop codes key record fuel st b
        else
          QStoreManager.addLoop codes key record fuel st
            (st.get_bucket_position (lay.next st.m_fpHash b)) := by
  have hscan := addScan_probe hfit key record hcov lay.bucketSize 0 (Nat.zero_add _)
  rw [lay.slot_zero, ← lay.slots_from] at hscan
  rw [QStoreManager.addLoop, if_neg (by omega), hfit.bucketSize, Int.toNat_natCast,
    Int.toNat_natCast, hscan]
  cases probe st.m_fpHash key (lay.slots b) with
  | hit p => rfl
  | hole p => rfl
  | full =>
    simp only [fread_link hcov]
    rfl

/-- **`addKey` ALONG A CHAIN.**  The key is there, or there is a free element
    for it, or a bucket is opened behind the last one. -/
theorem addLoop_walk (codes : QStoreManager.AddCodes) (key : ℕ) (record : Option (List UInt8))
    (cs : List ℕ) : ∀ b fuel, lay.Chain st.m_fpHash (b :: cs) →
    QStoreManager.addLoop codes key record (fuel + (cs.length + 1)) st (lay.pos b) =
      match probe st.m_fpHash key (lay.chainSlots (b :: cs)) with
      | .hit _ => some (1, st)
      | .hole p => some (0, st.insertAt p key record)
      | .full =>
        lay.openLoop codes key record fuel st ((b :: cs).getLast (cons_ne_nil b cs)) := by
  induction cs with
  | nil =>
    intro b fuel hc
    have hlast : lay.next st.m_fpHash b = 0 := hc.linked
    have hslots : lay.chainSlots [b] = lay.slots b := by simp [chainSlots]
    rw [hslots, length_nil, addLoop_bucket hfit codes key record fuel
      (hc.covered b mem_cons_self), if_pos hlast]
    rfl
  | cons c cs ih =>
    intro b fuel hc
    have hnext : lay.next st.m_fpHash b = (c : ℤ) := hc.linked.1
    have hne : (c : ℤ) ≠ 0 := by
      have := hc.nonzero c mem_cons_self
      omega
    have hrest := ih c fuel hc.tail
    have hslots : lay.chainSlots (b :: c :: cs) = lay.slots b ++ lay.chainSlots (c :: cs) := rfl
    rw [length_cons, show fuel + (cs.length + 1 + 1) = fuel + (cs.length + 1) + 1 by omega,
      addLoop_bucket hfit codes key record _ (hc.covered b mem_cons_self), hnext,
      if_neg hne, hfit.get_bucket_position (hc.below c (by simp)), hrest, hslots]
    cases hp : probe st.m_fpHash key (lay.slots b) with
    | hit p | hole p => rw [probe_append_stop (by rw [hp]; simp), hp]
    | full =>
      rw [probe_append_full hp]
      rfl

end Walk

/-- A round of the `for` loop of a search at position `p`. -/
def RoundAt {α : Type} (lay : Layout) (h : ByteFile) (key : ℕ) (found : ℕ → α) (missing : α)
    (round : ℕ → α ⊕ ℕ) (p : ℕ) : Prop :=
  round p = if keyAt h p = key then .inl (found p)
    else if keyAt h p = 0 then .inl missing
    else .inr (p + lay.elementLen)

section Search

variable {lay} {α : Type} {h : ByteFile} {key : ℕ} {found : ℕ → α} {missing : α}
  {round : ℕ → α ⊕ ℕ}

/-- The scan of a bucket is a `probe`. -/
theorem searchScan_probe (b n : ℕ) : ∀ i, i + n = lay.bucketSize →
    (∀ k, i ≤ k → k < lay.bucketSize → lay.RoundAt h key found missing round (lay.slot b k)) →
    QStoreManager.searchScan round n (lay.slot b i) =
      match probe h key ((List.range' i n).map (lay.slot b)) with
      | .hit p => .inl (found p)
      | .hole _ => .inl missing
      | .full => .inr (lay.link b) := by
  induction n with
  | zero =>
    intro i hi _
    subst hi
    rfl
  | succ n ih =>
    intro i hi hround
    have hhere := hround i (Nat.le_refl i) (by omega)
    rw [range'_succ, map_cons, QStoreManager.searchScan, hhere]
    by_cases hkey : keyAt h (lay.slot b i) = key
    · rw [if_pos hkey, probe_hit hkey]
    by_cases hzero : keyAt h (lay.slot b i) = 0
    · rw [if_neg hkey, if_pos hzero, probe_hole hkey hzero]
    · rw [if_neg hkey, if_neg hzero, probe_skip hkey hzero, lay.slot_succ]
      exact ih (i + 1) (by omega) (fun k hk hlt => hround k (by omega) hlt)

variable {st : QStoreManager}

/-- One bucket of the `Q_FOREVER` of a search. -/
theorem searchLoop_bucket (hfit : lay.Fits st) (codes : QStoreManager.SearchCodes) (fail : ℤ → α) (fuel : ℕ)
    {b : ℕ} (hcov : lay.Covered st.m_fpHash b)
    (hround : ∀ p ∈ lay.slots b, lay.RoundAt st.m_fpHash key found missing round p) :
    QStoreManager.searchLoop st codes fail round (fuel + 1) (lay.pos b) =
      match probe st.m_fpHash key (lay.slots b) with
      | .hit p => some (found p)
      | .hole _ => some missing
      | .full =>
        if lay.next st.m_fpHash b = 0 then some (fail codes.noOverflow)
        else
          QStoreManager.searchLoop st codes fail round fuel
            (st.get_bucket_position (lay.next st.m_fpHash b)) := by
  have hrounds : ∀ k, 0 ≤ k → k < lay.bucketSize →
      lay.RoundAt st.m_fpHash key found missing round (lay.slot b k) :=
    fun k _ hk => hround _ (lay.mem_slots.mpr ⟨k, hk, rfl⟩)
  have hscan := searchScan_probe b lay.bucketSize 0 (Nat.zero_add _) hrounds
  rw [lay.slot_zero, ← lay.slots_from] at hscan
  rw [QStoreManager.searchLoop, if_neg (by omega), hfit.bucketSize, Int.toNat_natCast,
    Int.toNat_natCast, hscan]
  cases probe st.m_fpHash key (lay.slots b) with
  | hit p => rfl
  | hole p => rfl
  | full =>
    simp only [fread_link hcov]
    rfl

/-- **A SEARCH ALONG A CHAIN.** -/
theorem searchLoop_walk (hfit : lay.Fits st) (codes : QStoreManager.SearchCodes) (fail : ℤ → α)
    (cs : List ℕ) : ∀ b fuel,
    lay.Chain st.m_fpHash (b :: cs) →
    (∀ p ∈ lay.chainSlots (b :: cs), lay.RoundAt st.m_fpHash key found missing round p) →
    QStoreManager.searchLoop st codes fail round (fuel + (cs.length + 1)) (lay.pos b) =
      match probe st.m_fpHash key (lay.chainSlots (b :: cs)) with
      | .hit p => some (found p)
      | .hole _ => some missing
      | .full => some (fail codes.noOverflow) := by
  induction cs with
  | nil =>
    intro b fuel hc hround
    have hlast : lay.next st.m_fpHash b = 0 := hc.linked
    have hslots : lay.chainSlots [b] = lay.slots b := by simp [chainSlots]
    rw [hslots] at hround ⊢
    rw [length_nil, searchLoop_bucket hfit codes fail fuel (hc.covered b mem_cons_self) hround,
      if_pos hlast]
  | cons c cs ih =>
    intro b fuel hc hround
    have hnext : lay.next st.m_fpHash b = (c : ℤ) := hc.linked.1
    have hne : (c : ℤ) ≠ 0 := by
      have := hc.nonzero c mem_cons_self
      omega
    have hslots : lay.chainSlots (b :: c :: cs) = lay.slots b ++ lay.chainSlots (c :: cs) := rfl
    rw [hslots] at hround ⊢
    have hrest := ih c fuel hc.tail (fun p hp => hround p (mem_append_right _ hp))
    rw [length_cons, show fuel + (cs.length + 1 + 1) = fuel + (cs.length + 1) + 1 by omega,
      searchLoop_bucket hfit codes fail _ (hc.covered b mem_cons_self)
        (fun p hp => hround p (mem_append_left _ hp)),
      hnext, if_neg hne, hfit.get_bucket_position (hc.below c (by simp)), hrest]
    cases hp : probe st.m_fpHash key (lay.slots b) with
    | hit p | hole p => rw [probe_append_stop (by rw [hp]; simp), hp]
    | full => rw [probe_append_full hp]

end Search

end Layout

end KalavaPir.Common
