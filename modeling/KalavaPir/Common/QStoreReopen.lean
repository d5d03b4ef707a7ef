/-
  KalavaPir.Common.QStoreReopen — a second session on the same file.

  `init` reads the layout of an existing file back from its head, but nothing
  tells it how many overflow buckets the file has: `m_iBucketOverflowNum` keeps
  what was in the memory of the object.  A second session therefore opens the
  buckets behind THAT number, and may open, and clear, one that is in use.
-/
import Mathlib.Order.Interval.Finset.Nat
import KalavaPir.Common.QStoreSession

namespace KalavaPir.Common

open KalavaPir.Framework List

/-! ## §1. Two sessions. -/

/-- The data file that a store leaves behind. -/
def QStoreManager.dataFile (st : QStoreManager) : Option ByteFile :=
  if st.m_iDataLen = 0 then none else some st.m_fpData

/-- The arguments of an `init` on an existing file, which are checked and then
    ignored. -/
structure ReopenArgs where
  iBucketNum : ℤ
  iBucketSize : ℤ
  iDataLen : ℤ
  bucketNum_pos : 0 < iBucketNum
  bucketSize_pos : 0 < iBucketSize

/-- A session with the adds `ads₁` that creates the file, and one with the adds
    `ads₂` that opens it again; `c₁` and `c₂` are what `m_iBucketOverflowNum`
    was before `init`.  The store at the end of either session. -/
def twoSessions (lay : Layout) (args : ReopenArgs) (fuel : ℕ) (c₁ c₂ : ℤ)
    (ads₁ ads₂ : List StoreEntry) : Option (QStoreManager × QStoreManager) :=
  match QStoreManager.init none none lay.bucketNum lay.bucketSize lay.dataLen c₁ with
  | .error _ => none
  | .ok st₀ =>
    match st₀.addAll fuel ads₁ with
    | none => none
    | some st₁ =>
      match QStoreManager.init (some st₁.m_fpHash) st₁.dataFile args.iBucketNum
          args.iBucketSize args.iDataLen c₂ with
      | .error _ => none
      | .ok st₂ =>
        match st₂.addAll fuel ads₂ with
        | none => none
        | some st₃ => some (st₁, st₃)

namespace Layout

variable {lay : Layout} {st : QStoreManager} {es : List StoreEntry} {chain : ℕ → List ℕ} {used : Set ℕ}

/-! ## §2. Opening an existing file. -/

theorem decodeInt_encodeInt_four {z : ℤ} (hlo : -2 ^ 31 ≤ z) (hhi : z < 2 ^ 31) :
    decodeInt (encodeInt 4 z) = z := by
  rw [decodeInt_encodeInt]
  exact Int.bmod_eq_of_le_mul_two (by omega) (by omega)

/-- Nothing but the counter has changed. -/
theorem Rep.congr {st' : QStoreManager} (h : lay.Rep st es chain used) (hfit : lay.Fits st')
    (hhash : st'.m_fpHash = st.m_fpHash)
    (hdata : st'.m_fpData = if lay.dataLen = 0 then .empty else st.m_fpData) : lay.Rep st' es chain used where
  fits := hfit
  head := hhash ▸ h.head
  base := h.base
  overflow := h.overflow
  nodup := h.nodup
  apart := h.apart
  linked := hhash ▸ h.linked
  covered := hhash ▸ h.covered
  keys := hhash ▸ h.keys
  flags := hhash ▸ h.flags
  values := by
    intro j hj i p e hp he r hr
    have hne : lay.dataLen ≠ 0 := by
      intro hzero
      rw [(record_eq_none_iff e.2).mpr hzero] at hr
      exact absurd hr (by simp)
    rw [if_neg hne] at hdata
    obtain ⟨q, hq, hofs, hend⟩ := h.values j hj i p e hp he r hr
    refine ⟨q, hq, ?_, ?_⟩
    · rw [hhash]
      exact hofs
    · rw [hdata]
      exact hend
  distinct := h.distinct
  addable := h.addable
  data := by
    rw [hdata]
    split
    · exact Nat.zero_le _
    · exact h.data

/-- **`init` FINDS THE ENTRIES OF THE FILE**, whatever it is called with, but
    not the counter. -/
theorem Rep.reopen (h : lay.Rep st es chain used) (args : ReopenArgs) (c : ℤ) :
    ∃ st', QStoreManager.init (some st.m_fpHash) st.dataFile args.iBucketNum args.iBucketSize
        args.iDataLen c = .ok st' ∧
      st'.m_fpHash = st.m_fpHash ∧ st'.m_iBucketOverflowNum = c ∧ lay.Rep st' es chain used := by
  have hnum := lay.bucketNum_lt
  have hsize := lay.bucketSize_lt
  -- the head, field by field
  have hhead := h.head
  rw [← lay.length_head] at hhead
  obtain ⟨hfirst, hlen⟩ := ByteFile.bytes_eq_append hhead
  obtain ⟨hfirst, hcap⟩ := ByteFile.bytes_eq_append hfirst
  obtain ⟨hmark, hbuckets⟩ := ByteFile.bytes_eq_append hfirst
  simp only [length_append, length_encode, length_encodeInt, Nat.zero_add]
    at hmark hbuckets hcap hlen
  have hend : 20 ≤ st.m_fpHash.size := by
    obtain ⟨os, hos⟩ := h.base 0 lay.bucketNum_pos
    have hcov := h.covered 0 lay.bucketNum_pos 0 (hos ▸ mem_cons_self)
    have hpos := lay.head_le_pos 0
    unfold Covered at hcov
    unfold m_iHeadLen at hpos
    omega
  have hdec : decode (encode 8 I_STORE_FILE_MARK) = I_STORE_FILE_MARK :=
    decode_encode_of_lt (by decide)
  have hdataFile : st.dataFile = if lay.dataLen = 0 then none else some st.m_fpData := by
    unfold QStoreManager.dataFile
    rw [h.fits.dataLen]
  have hargs := args.bucketNum_pos
  have hargs' := args.bucketSize_pos
  unfold QStoreManager.init
  rw [if_neg (by omega)]
  show ∃ st', QStoreManager.reopen st.m_fpHash st.dataFile c = .ok st' ∧ _
  unfold QStoreManager.reopen
  rw [ByteFile.fread_of_le (by omega), ByteFile.fread_of_le (by omega),
    ByteFile.fread_of_le (by omega), ByteFile.fread_of_le (by omega), hmark, hbuckets, hcap, hlen,
    hdataFile]
  simp only [hdec, ne_eq, not_true_eq_false, if_false,
    decodeInt_encodeInt_four (z := lay.bucketNum) (by omega) (by omega),
    decodeInt_encodeInt_four (z := lay.bucketSize) (by omega) (by omega),
    decodeInt_encodeInt_four lay.dataLen_ge lay.dataLen_lt]
  by_cases hzero : lay.dataLen = 0
  · rw [if_pos hzero]
    refine ⟨_, rfl, rfl, rfl, h.congr ⟨rfl, rfl, rfl⟩ rfl ?_⟩
    rw [if_pos hzero]
  · rw [if_neg hzero, if_neg hzero]
    refine ⟨_, rfl, rfl, rfl, h.congr ⟨rfl, rfl, rfl⟩ rfl ?_⟩
    rw [if_neg hzero]

/-! ## §3. Nothing is lost. -/

/-- How many buckets the second session opens. -/
def secondOpens (lay : Layout) (ads₁ ads₂ : List StoreEntry) : ℕ :=
  lay.overflow (table (ads₁ ++ ads₂)) - lay.overflow (table ads₁)

/-- **Persistence**: every key of either session is found with its bytes, and
    no bucket of the first one has been overwritten. -/
def Persists (lay : Layout) (args : ReopenArgs) (fuel : ℕ) (c₁ c₂ : ℤ)
    (ads₁ ads₂ : List StoreEntry) : Prop :=
  ∃ st₁ st, twoSessions lay args fuel c₁ c₂ ads₁ ads₂ = some (st₁, st) ∧
    (∀ (key : ℕ) (v : List UInt8) (maxDataSize : ℤ), (ads₁ ++ ads₂).lookup key = some v →
      v.length ≤ maxDataSize → st.searchKey fuel key maxDataSize = some (lay.answer v)) ∧
    lay.Kept {b | b < lay.bucketNum ∨ b ∈ lay.opens c₁ (lay.overflow (table ads₁))} st₁ st

/-- The buckets that the two sessions open are no base buckets, and not the
    same ones. -/
structure CountersApart (lay : Layout) (c₁ c₂ : ℤ) (ads₁ ads₂ : List StoreEntry) : Prop where
  first : lay.overflow (table ads₁) = 0 ∨ -1 ≤ c₁
  second : lay.secondOpens ads₁ ads₂ = 0 ∨ -1 ≤ c₂
  apart : ∀ b ∈ lay.opens c₂ (lay.secondOpens ads₁ ads₂), b ∉ lay.opens c₁ (lay.overflow (table ads₁))

section Persist

variable {c₁ c₂ : ℤ} {ads₁ ads₂ : List StoreEntry} {fuel : ℕ}

/-- **The first session**, with any counter. -/
theorem Session.first (hv : ∀ e ∈ ads₁, lay.Addable e) (hcount : lay.overflow (table ads₁) = 0 ∨ -1 ≤ c₁)
    (hrange : lay.InRange (lay.opens c₁ (lay.overflow (table ads₁)))) (hfuel : ads₁.length + 1 ≤ fuel) :
    ∃ st₀ st₁, QStoreManager.init none none lay.bucketNum lay.bucketSize lay.dataLen c₁ = .ok st₀ ∧
      st₀.addAll fuel ads₁ = some st₁ ∧
      lay.Session ∅ 0 c₁ (lay.overflow (table ads₁)) st₁ (table ads₁) := by
  have hs : lay.Safe ∅ c₁ (lay.overflow (table ads₁)) := by
    refine ⟨hcount, fun b _ hb => absurd hb (Set.notMem_empty b), ?_⟩
    rwa [Set.empty_union]
  have hroom : ([] : List StoreEntry).length + ads₁.length + 1 ≤ fuel := by
    rw [length_nil]
    omega
  obtain ⟨k, st₁, hall, hses, _⟩ := Session.addAll hs ads₁ 0 _ [] (Session.create lay c₁ hrange.1) hv
    (Nat.le_of_eq (Nat.zero_add _).symm) hroom
  have hk : k = lay.overflow (table ads₁) := by
    have := hses.overflow
    rw [Nat.zero_add] at this
    exact this.symm
  exact ⟨_, st₁, init_new lay c₁, hall, hk ▸ hses⟩

/-- **The second one starts** with the entries of the first one and another
    counter. -/
theorem Session.reopen {k : ℕ} (h : lay.Session ∅ 0 c₁ k st es) (args : ReopenArgs) (c₂ : ℤ) :
    ∃ st₂, QStoreManager.init (some st.m_fpHash) st.dataFile args.iBucketNum args.iBucketSize
        args.iDataLen c₂ = .ok st₂ ∧
      st₂.m_fpHash = st.m_fpHash ∧ lay.Session (lay.opens c₁ k) k c₂ 0 st₂ es := by
  obtain ⟨chain, hrep, ht⟩ := h.represented
  have hrange := h.range
  have hover := h.overflow
  rw [Set.empty_union] at hrep hrange
  rw [Nat.zero_add] at hover
  obtain ⟨st₂, hinit, hhash, hcount, hrep₂⟩ := hrep.reopen args c₂
  refine ⟨st₂, hinit, hhash, ⟨⟨chain, ?_, ht⟩, ?_, ?_, hover⟩⟩
  · rw [opens_zero, Set.union_empty]
    exact hrep₂
  · rw [opens_zero, Set.union_empty]
    exact hrange
  · rw [hcount]
    exact (Int.add_zero c₂).symm

theorem Kept.of_hash {B : Set ℕ} {st st' st'' : QStoreManager} (h : lay.Kept B st' st'')
    (hhash : st'.m_fpHash = st.m_fpHash) : lay.Kept B st st'' :=
  ⟨hhash ▸ h.element, hhash ▸ h.link⟩

/-- **NOTHING IS LOST** as long as the buckets are different ones. -/
theorem persists_of_apart (args : ReopenArgs) (hv : ∀ e ∈ ads₁ ++ ads₂, lay.Addable e)
    (hcount : lay.CountersApart c₁ c₂ ads₁ ads₂)
    (hrange : lay.InRange (lay.opens c₁ (lay.overflow (table ads₁)) ∪
      lay.opens c₂ (lay.secondOpens ads₁ ads₂)))
    (hfuel : ads₁.length + ads₂.length + 1 ≤ fuel) : lay.Persists args fuel c₁ c₂ ads₁ ads₂ := by
  have hfuel₁ : ads₁.length + 1 ≤ fuel := by omega
  obtain ⟨st₀, st₁, hinit, hall, hses⟩ := Session.first (fun e he => hv e (mem_append_left _ he))
    hcount.first ⟨hrange.1, fun b hb => hrange.2 b (Or.inl hb)⟩ hfuel₁
  obtain ⟨st₂, hinit₂, hhash, hses₂⟩ := hses.reopen args c₂
  have hs : lay.Safe (lay.opens c₁ (lay.overflow (table ads₁))) c₂ (lay.secondOpens ads₁ ads₂) :=
    ⟨hcount.second, hcount.apart, hrange⟩
  have hlen := length_foldl_insertNew ads₁ ([] : List StoreEntry)
  rw [length_nil, Nat.zero_add] at hlen
  have hroom : (table ads₁).length + ads₂.length + 1 ≤ fuel := by
    unfold table
    omega
  obtain ⟨k, st, hall₂, hsesf, hkept⟩ := Session.addAll hs ads₂ 0 st₂ (table ads₁) hses₂
    (fun e he => hv e (mem_append_right _ he))
    (by rw [← table_append]; unfold secondOpens; omega) hroom
  rw [← table_append] at hsesf
  have hsearch : (ads₁ ++ ads₂).length + 1 ≤ fuel := by
    rw [length_append]
    omega
  refine ⟨st₁, st, ?_, (hsesf.answers hsearch).found, hkept.of_hash hhash⟩
  unfold twoSessions
  simp only [hinit, hall, hinit₂, hall₂]

end Persist

/-! ## §4. A bucket in use is opened again. -/

section Overwrite

variable {n b : ℕ} {e : StoreEntry}

/-- The store after a bucket was opened behind bucket `b` and the first element
    written into it. -/
def overwritten (lay : Layout) (st : QStoreManager) (b n : ℕ) (e : StoreEntry) : QStoreManager :=
  (lay.opened st b).insertAt (lay.slot n 0) e.1 (lay.record e.2)

theorem overwritten_slot (hn : lay.NextBucket st n) (hfit : lay.Fits st) {x i q m : ℕ} (hx : x ≠ n)
    (hi : i < lay.bucketSize) (hlo : lay.slot x i ≤ q) (hhi : q + m ≤ lay.slot x i + lay.elementLen) :
    (lay.overwritten st b n e).m_fpHash.bytes q m = st.m_fpHash.bytes q m := by
  have hne : lay.slot x i ≠ lay.slot n 0 := fun heq => hx (slot_inj hi lay.bucketSize_pos heq).1
  have hdis := lay.slot_disjoint hi lay.bucketSize_pos hne
  unfold overwritten
  rw [insertAt_bytes (by omega), opened_slot hn hfit hx hi hlo hhi]

theorem insertAt_next {key i : ℕ} {v : List UInt8} (hi : i < lay.bucketSize) (x : ℕ) :
    lay.next (st.insertAt (lay.slot n i) key (lay.record v)).m_fpHash x = lay.next st.m_fpHash x := by
  have := lay.slot_link_disjoint (b := n) (c := x) hi
  unfold next
  rw [insertAt_bytes (by omega)]

/-- In the new bucket there is the new key and nothing else. -/
theorem overwritten_fresh (hn : lay.NextBucket st n) (hfit : lay.Fits st) (hv : lay.Addable e) :
    ∀ p ∈ lay.slots n, (keyAt (lay.overwritten st b n e).m_fpHash p = e.1 ∨
        keyAt (lay.overwritten st b n e).m_fpHash p = 0) ∧
      (lay.overwritten st b n e).m_fpHash.bytes (p + 8) 1 = [0] := by
  intro p hp
  obtain ⟨hkey, hflag⟩ := (opened_fresh (b := b) hn hfit).2 p hp
  obtain ⟨i, hi, rfl⟩ := lay.mem_slots.mp hp
  have hlen := lay.nine_le_elementLen
  by_cases hp0 : lay.slot n i = lay.slot n 0
  · rw [hp0]
    exact ⟨Or.inl (insertAt_keyAt hv.key_lt), insertAt_flag⟩
  have hdis := lay.slot_disjoint hi lay.bucketSize_pos hp0
  unfold overwritten
  constructor
  · refine Or.inr ?_
    unfold keyAt at hkey ⊢
    rw [insertAt_bytes (by omega)]
    exact hkey
  · rw [insertAt_bytes (by omega)]
    exact hflag

theorem linked_cut {h h' : ByteFile} (as ys : List ℕ) : ∀ x,
    lay.Linked h (x :: as ++ n :: ys) → (∀ y ∈ x :: as, lay.next h' y = lay.next h y) →
    lay.next h' n = 0 → lay.Linked h' (x :: as ++ [n]) := by
  induction as with
  | nil =>
    intro x hl hsame hend
    exact ⟨(hsame x mem_cons_self).trans hl.1, hend⟩
  | cons y as ih =>
    intro x hl hsame hend
    exact ⟨(hsame x mem_cons_self).trans hl.1,
      ih y hl.2 (fun z hz => hsame z (mem_cons_of_mem x hz)) hend⟩

theorem probe_ne_hit {h : ByteFile} {key : ℕ} {ps : List ℕ} (hps : ∀ p ∈ ps, keyAt h p ≠ key) (p : ℕ) :
    probe h key ps ≠ .hit p := by
  induction ps with
  | nil => simp [probe]
  | cons q ps ih =>
    have hkey := hps q mem_cons_self
    have hrest := ih (fun x hx => hps x (mem_cons_of_mem q hx))
    by_cases hzero : keyAt h q = 0
    · rw [probe_hole hkey hzero]
      simp
    · rw [probe_skip hkey hzero]
      exact hrest

/-- **A bucket in use has an entry**, in its first place. -/
theorem Rep.first_entry (h : lay.Rep st es chain used) (ht : lay.Tight es chain) {j : ℕ}
    (hj : j < lay.bucketNum) {as ys : List ℕ} (hchain : chain j = j :: as ++ n :: ys) :
    ∃ e₀ ∈ lay.entries es j, ∀ p ∈ lay.chainSlots (j :: as), keyAt st.m_fpHash p ≠ e₀.1 := by
  have hlen := ht j hj
  rw [hchain, List.length_append, List.length_cons, List.length_cons] at hlen
  have hlt : lay.bucketSize * (as.length + 1) < (lay.entries es j).length := by
    have hdiv : as.length + 1 ≤ ((lay.entries es j).length - 1) / lay.bucketSize := by
      unfold chainLen at hlen
      omega
    rw [Nat.le_div_iff_mul_le lay.bucketSize_pos, Nat.mul_comm] at hdiv
    have hpos : 0 < lay.bucketSize * (as.length + 1) :=
      Nat.mul_pos lay.bucketSize_pos (Nat.succ_pos as.length)
    omega
  refine ⟨(lay.entries es j)[lay.bucketSize * (as.length + 1)], List.getElem_mem hlt, ?_⟩
  intro p hp heq
  obtain ⟨z, hz⟩ := h.keys j hj
  obtain ⟨i, hi⟩ := List.mem_iff_getElem?.mp hp
  have hilt := (List.getElem?_eq_some_iff.mp hi).1
  rw [length_chainSlots, List.length_cons] at hilt
  -- the key of an earlier place
  have hkey : ((lay.entries es j).map Prod.fst)[i]? = some (keyAt st.m_fpHash p) := by
    have hget := congrArg (fun l => l[i]?) hz
    simp only [hchain, chainSlots_append, List.map_append] at hget
    rw [List.getElem?_append_left (by rw [List.length_map, length_chainSlots, List.length_cons]; omega),
      List.getElem?_append_left (by rw [List.length_map]; omega), List.getElem?_map, hi] at hget
    exact hget.symm
  have hother : ((lay.entries es j).map Prod.fst)[lay.bucketSize * (as.length + 1)]? =
      some (keyAt st.m_fpHash p) := by
    rw [List.getElem?_map, List.getElem?_eq_getElem hlt, Option.map_some, heq]
  have hsame := (List.getElem?_inj (by rw [List.length_map]; omega) (h.entryKeys j).2).mp
    (hkey.trans hother.symm)
  omega

section Cut

variable (h : lay.Rep st es chain used) (hn : lay.NextBucket st n) {j j₀ : ℕ} (hj : j < lay.bucketNum)
  {as ys : List ℕ} (hchain : chain j = j :: as ++ n :: ys) (hj₀ : j₀ < lay.bucketNum)
  (hne : chain j₀ ≠ [])
include h hj hchain

theorem Rep.before_ne : ∀ x ∈ j :: as, x ≠ n := by
  intro x hx
  have hnd := h.nodup j hj
  rw [hchain] at hnd
  exact (nodup_append.mp hnd).2.2 x hx n mem_cons_self

include hj₀

theorem Rep.before_ne_last : ∀ x ∈ j :: as, x ≠ (chain j₀).getLast hne := by
  rintro x hx rfl
  have hnd := h.nodup j hj
  rw [hchain] at hnd
  by_cases hjj : j = j₀
  · subst hjj
    simp only [hchain] at hx
    rw [getLast_append_of_ne_nil _ (cons_ne_nil n ys)] at hx
    exact (nodup_append.mp hnd).2.2 _ hx _ (getLast_mem (cons_ne_nil n ys)) rfl
  · exact h.apart j hj j₀ hj₀ hjj _ (hchain ▸ mem_append_left _ hx) (getLast_mem hne)

include hn

/-- **The chain is cut**: it ends with the new bucket. -/
theorem Rep.cut_chain (hr : lay.InRange used) :
    lay.Chain (lay.overwritten st ((chain j₀).getLast hne) n e).m_fpHash (j :: as ++ [n]) := by
  have hc := h.walkable hr hj
  rw [hchain] at hc
  have hsub : ∀ x ∈ j :: as ++ [n], x ∈ j :: as ++ n :: ys := by
    intro x hx
    rcases mem_append.mp hx with hx | hx
    · exact mem_append_left _ hx
    · rw [mem_singleton.mp hx]
      exact mem_append_right _ mem_cons_self
  refine ⟨linked_cut as ys j hc.linked ?_ ?_, ?_, fun x hx => hc.below x (hsub x hx), ?_⟩
  · intro y hy
    unfold overwritten
    rw [insertAt_next lay.bucketSize_pos, opened_link hn h.fits (h.before_ne hj hchain y hy)
      (h.before_ne_last hj hchain hj₀ hne y hy)]
  · unfold overwritten
    rw [insertAt_next lay.bucketSize_pos]
    exact (opened_fresh hn h.fits).1
  · intro x hx
    have hcov := hc.covered x (hsub x hx)
    have hsize := opened_size (b := (chain j₀).getLast hne) hn h.fits
    have hgrow := lay.insertAt_size (lay.opened st ((chain j₀).getLast hne)) (lay.slot n 0) e.1 e.2
    unfold Covered at hcov ⊢
    unfold overwritten
    omega
  · intro x hx
    refine hc.nonzero x ?_
    rcases mem_append.mp hx with hx | hx
    · exact mem_append_left _ hx
    · rw [mem_singleton.mp hx]
      exact mem_append_right _ mem_cons_self

omit hj₀

theorem Rep.cut_flags (hv : lay.Addable e) :
    ∀ p ∈ lay.chainSlots (j :: as ++ [n]), (lay.overwritten st b n e).m_fpHash.bytes (p + 8) 1 = [0] := by
  intro p hp
  rw [chainSlots_snoc] at hp
  rcases mem_append.mp hp with hp | hp
  · have hold := h.flags j hj p (by rw [hchain, chainSlots_append]; exact mem_append_left _ hp)
    obtain ⟨x, hx, i, hi, rfl⟩ := lay.mem_chainSlots.mp hp
    have hlen := lay.nine_le_elementLen
    rw [overwritten_slot hn h.fits (h.before_ne hj hchain x hx) hi (by omega) (by omega)]
    exact hold
  · exact (overwritten_fresh hn h.fits hv p hp).2

/-- A key that was not before that bucket is nowhere now. -/
theorem Rep.cut_keys (hv : lay.Addable e) {key : ℕ} (hzero : key ≠ 0) (hother : key ≠ e.1)
    (hbefore : ∀ p ∈ lay.chainSlots (j :: as), keyAt st.m_fpHash p ≠ key) :
    ∀ p ∈ lay.chainSlots (j :: as ++ [n]), keyAt (lay.overwritten st b n e).m_fpHash p ≠ key := by
  intro p hp
  rw [chainSlots_snoc] at hp
  rcases mem_append.mp hp with hp | hp
  · have hold := hbefore p hp
    obtain ⟨x, hx, i, hi, rfl⟩ := lay.mem_chainSlots.mp hp
    have hlen := lay.nine_le_elementLen
    unfold keyAt at hold ⊢
    rw [overwritten_slot hn h.fits (h.before_ne hj hchain x hx) hi (Nat.le_refl _) (by omega)]
    exact hold
  · rcases (overwritten_fresh (b := b) hn h.fits hv p hp).1 with hkey | hkey
    · rw [hkey]
      exact hother.symm
    · rw [hkey]
      exact hzero.symm

end Cut

/-- **ITS KEY IS LOST.** -/
theorem Rep.overwrite (h : lay.Rep st es chain used) (hr : lay.InRange used) (ht : lay.Tight es chain)
    (hv : lay.Addable e) (hnew : e.1 ∉ es.map Prod.fst) (hn : lay.NextBucket st n) {j j₀ fuel : ℕ}
    (hj : j < lay.bucketNum) (hmem : n ∈ (chain j).tail) (hj₀ : j₀ < lay.bucketNum)
    (hne : chain j₀ ≠ []) (hfuel : es.length + 1 ≤ fuel) : ∃ e₀ ∈ es, ∀ maxDataSize, ∃ code < 0,
      (lay.overwritten st ((chain j₀).getLast hne) n e).searchKey fuel e₀.1 maxDataSize =
        some (code, none) := by
  obtain ⟨os, hos⟩ := h.base j hj
  obtain ⟨as, ys, hsplit⟩ := append_of_mem hmem
  have hchain : chain j = j :: as ++ n :: ys := by
    rw [hos, tail_cons] at hsplit
    rw [hos, hsplit]
    rfl
  obtain ⟨e₀, he₀, hbefore⟩ := h.first_entry ht hj hchain
  have hmod : e₀.1 % lay.bucketNum = j := by simpa using (mem_filter.mp he₀).2
  have hes : e₀ ∈ es := mem_of_mem_filter he₀
  have hother : e₀.1 ≠ e.1 := by
    intro heq
    exact hnew (heq ▸ mem_map_of_mem hes)
  have hlen := ht.length_le e₀.1
  rw [hmod, hchain, length_append, length_cons, length_cons] at hlen
  have hcut := h.cut_chain (e := e) hn hj hchain hj₀ hne hr
  have hflags := h.cut_flags (b := (chain j₀).getLast hne) hn hj hchain hv
  have hkeys := h.cut_keys (b := (chain j₀).getLast hne) hn hj hchain hv (h.addable e₀ hes).key_ne
    hother hbefore
  refine ⟨e₀, hes, fun maxDataSize => ?_⟩
  subst hmod
  refine searchKey_absent (insertAt_fits (opened_fits h.fits) _) maxDataSize hcut hflags ?_
    (probe_ne_hit hkeys)
  show (as ++ [n]).length + 1 ≤ fuel
  rw [length_append, length_singleton]
  omega

end Overwrite

/-! ## §5. Something is lost otherwise. -/

variable {e : StoreEntry}

theorem addAll_snoc {fuel : ℕ} {code : ℤ} {st' st'' : QStoreManager} (pre : List StoreEntry) :
    ∀ st, QStoreManager.addAll fuel st pre = some st' →
    st'.addKey fuel e = some (code, st'') → QStoreManager.addAll fuel st (pre ++ [e]) = some st'' := by
  induction pre with
  | nil =>
    intro st hpre hadd
    rw [QStoreManager.addAll, Option.some.injEq] at hpre
    subst hpre
    rw [nil_append, QStoreManager.addAll, hadd]
    rfl
  | cons a pre ih =>
    intro st hpre hadd
    rw [cons_append, QStoreManager.addAll]
    rw [QStoreManager.addAll] at hpre
    cases hfirst : st.addKey fuel a with
    | none =>
      rw [hfirst] at hpre
      exact absurd hpre (by simp)
    | some r =>
      rw [hfirst] at hpre
      exact ih r.2 hpre hadd

theorem lookup_of_mem {es : List StoreEntry} (hnd : (es.map Prod.fst).Nodup) (hmem : e ∈ es) :
    es.lookup e.1 = some e.2 := by
  induction es with
  | nil => exact absurd hmem (by simp)
  | cons a es ih =>
    rw [map_cons, nodup_cons] at hnd
    rcases mem_cons.mp hmem with rfl | hmem
    · rw [lookup_cons, beq_self_eq_true]
    have hne : e.1 ≠ a.1 := by
      intro heq
      exact hnd.1 (heq ▸ mem_map_of_mem hmem)
    rw [lookup_cons, beq_eq_false_iff_ne.mpr hne]
    exact ih hnd.2 hmem

/-- An add opens one bucket at most. -/
theorem overflow_insertNew_le (lay : Layout) (es : List StoreEntry) (e : StoreEntry) :
    lay.overflow (insertNew es e) ≤ lay.overflow es + 1 := by
  unfold insertNew
  split
  · exact Nat.le_succ _
  have hsnoc := lay.overflow_snoc es e
  have hle : (lay.entries es (e.1 % lay.bucketNum)).length ≤
      lay.bucketSize * lay.chainLen (lay.entries es (e.1 % lay.bucketNum)).length := by
    have := Nat.lt_mul_div_succ ((lay.entries es (e.1 % lay.bucketNum)).length - 1)
      lay.bucketSize_pos
    unfold chainLen
    rw [Nat.add_comm 1]
    omega
  rcases Nat.lt_or_eq_of_le hle with hlt | heq
  · rw [chainLen_of_lt hlt] at hsnoc
    omega
  · rw [chainLen_of_eq heq] at hsnoc
    omega

/-- The add that opens bucket number `m + 1`. -/
theorem exists_opening (lay : Layout) (ads : List StoreEntry) : ∀ (es : List StoreEntry) (m : ℕ),
    lay.overflow es ≤ m → m < lay.overflow (ads.foldl insertNew es) →
    ∃ pre e post, ads = pre ++ e :: post ∧ lay.overflow (pre.foldl insertNew es) = m ∧
      lay.overflow (insertNew (pre.foldl insertNew es) e) = m + 1 := by
  induction ads with
  | nil =>
    intro es m hle hlt
    rw [foldl_nil] at hlt
    omega
  | cons a ads ih =>
    intro es m hle hlt
    have hone := lay.overflow_insertNew_le es a
    by_cases hnext : lay.overflow (insertNew es a) ≤ m
    · obtain ⟨pre, e, post, hads, hpre, he⟩ := ih (insertNew es a) m hnext hlt
      exact ⟨a :: pre, e, post, by rw [hads]; rfl, hpre, he⟩
    refine ⟨[], a, ads, rfl, ?_, ?_⟩
    · rw [foldl_nil]
      omega
    · rw [foldl_nil]
      omega

/-- An add that opens a bucket is one of a new key, and its chain is full. -/
theorem Rep.full_of_overflow (h : lay.Rep st es chain used) (ht : lay.Tight es chain) (hv : lay.Addable e)
    (hopen : lay.overflow (insertNew es e) = lay.overflow es + 1) : e.1 ∉ es.map Prod.fst ∧
      probe st.m_fpHash e.1 (lay.chainSlots (chain (e.1 % lay.bucketNum))) = .full := by
  have hnew : e.1 ∉ es.map Prod.fst := by
    intro hmem
    rw [show insertNew es e = es from if_pos hmem] at hopen
    omega
  refine ⟨hnew, ?_⟩
  rcases h.probe_new hv hnew with ⟨_, hfull⟩ | ⟨p, hp, _⟩
  · exact hfull
  have hlt := (List.getElem?_eq_some_iff.mp hp).1
  rw [length_chainSlots, ht _ (lay.base_lt _)] at hlt
  have hsnoc := lay.overflow_snoc es e
  rw [chainLen_of_lt hlt] at hsnoc
  rw [show insertNew es e = es ++ [e] from if_neg hnew] at hopen
  omega

theorem mem_opens_iff {c : ℤ} (hc : -1 ≤ c) {k b : ℕ} : b ∈ lay.opens c k ↔
      b ∈ Finset.Ioc ((lay.bucketNum : ℤ) + c).toNat (((lay.bucketNum : ℤ) + c).toNat + k) := by
  have hpos := lay.bucketNum_pos
  rw [Finset.mem_Ioc]
  show _ < _ ∧ _ ≤ _ ↔ _
  omega

/-- **Every bucket that was opened is in a chain**: there are as many as the
    entries take. -/
theorem Session.dense {c₁ c₂ : ℤ} {k₁ k : ℕ} (h : lay.Session (lay.opens c₁ k₁) k₁ c₂ k st es)
    (hrep : lay.Rep st es chain (lay.opens c₁ k₁ ∪ lay.opens c₂ k)) (ht : lay.Tight es chain)
    (hc₁ : -1 ≤ c₁) (hc₂ : -1 ≤ c₂) {n : ℕ} (hn : n ∈ lay.opens c₁ k₁) :
    ∃ j < lay.bucketNum, n ∈ (chain j).tail := by
  let F : Finset ℕ := Finset.Ioc ((lay.bucketNum : ℤ) + c₁).toNat (((lay.bucketNum : ℤ) + c₁).toNat + k₁) ∪
    Finset.Ioc ((lay.bucketNum : ℤ) + c₂).toNat (((lay.bucketNum : ℤ) + c₂).toNat + k)
  have hF : F.card ≤ k₁ + k := by
    refine Nat.le_trans (Finset.card_union_le _ _) ?_
    rw [Nat.card_Ioc, Nat.card_Ioc]
    omega
  have hsub : (Finset.range lay.bucketNum).biUnion (fun j => (chain j).tail.toFinset) ⊆ F := by
    intro b hb
    obtain ⟨j, hj, hbj⟩ := Finset.mem_biUnion.mp hb
    rw [mem_toFinset] at hbj
    rcases (hrep.overflow j (Finset.mem_range.mp hj) b hbj).2 with hb | hb
    · exact Finset.mem_union_left _ ((mem_opens_iff hc₁).mp hb)
    · exact Finset.mem_union_right _ ((mem_opens_iff hc₂).mp hb)
  have hcard : ((Finset.range lay.bucketNum).biUnion (fun j => (chain j).tail.toFinset)).card =
      k₁ + k := by
    rw [card_lists (fun j hj => (hrep.nodup j hj).tail), ← h.overflow]
    · apply Finset.sum_congr rfl
      intro j hj
      rw [length_tail, ht j (Finset.mem_range.mp hj), chainLen, Nat.add_sub_cancel_left]
    · intro i hi j hj hij b hbi hbj
      exact hrep.apart i hi j hj hij b (mem_of_mem_tail hbi) (mem_of_mem_tail hbj)
  have hall := Finset.eq_of_subset_of_card_le hsub (by rw [hcard]; exact hF)
  have hmem : n ∈ F := Finset.mem_union_left _ ((mem_opens_iff hc₁).mp hn)
  rw [← hall] at hmem
  obtain ⟨j, hj, hnj⟩ := Finset.mem_biUnion.mp hmem
  exact ⟨j, Finset.mem_range.mp hj, mem_toFinset.mp hnj⟩

section Lost

variable {c₁ c₂ : ℤ} {ads₁ ads₂ : List StoreEntry} {fuel : ℕ}

theorem answer_nonneg (lay : Layout) (v : List UInt8) : 0 ≤ (lay.answer v).1 := by
  unfold answer
  split
  · exact Int.le_refl 0
  · split
    · exact Int.le_refl 0
    · exact Int.natCast_nonneg _

/-- The first bucket of the second session that is one of the first. -/
theorem first_common (lay : Layout) {c₁ c₂ : ℤ} {k₁ k₂ b : ℕ} (hb₂ : b ∈ lay.opens c₂ k₂)
    (hb₁ : b ∈ lay.opens c₁ k₁) : ∃ i < k₂, (c₁ < c₂ + 1 + i ∧ c₂ + 1 + i ≤ c₁ + k₁) ∧
      ∀ x ∈ lay.opens c₂ i, x ∉ lay.opens c₁ k₁ := by
  classical
  have hlo₁ : (lay.bucketNum : ℤ) + c₁ < b := hb₁.1
  have hhi₁ : (b : ℤ) ≤ lay.bucketNum + c₁ + k₁ := hb₁.2
  have hlo₂ : (lay.bucketNum : ℤ) + c₂ < b := hb₂.1
  have hhi₂ : (b : ℤ) ≤ lay.bucketNum + c₂ + k₂ := hb₂.2
  have hex : ∃ i : ℕ, i < k₂ ∧ c₁ < c₂ + 1 + i ∧ c₂ + 1 + i ≤ c₁ + k₁ :=
    ⟨((b : ℤ) - lay.bucketNum - c₂ - 1).toNat, by omega, by omega, by omega⟩
  refine ⟨Nat.find hex, (Nat.find_spec hex).1, (Nat.find_spec hex).2, ?_⟩
  rintro x ⟨hxlo, hxhi⟩ ⟨hxlo₁, hxhi₁⟩
  have hlt := (Nat.find_spec hex).1
  have hsmall : ((x : ℤ) - lay.bucketNum - c₂ - 1).toNat < Nat.find hex := by omega
  exact Nat.find_min hex hsmall ⟨by omega, by omega, by omega⟩

/-- A run that ends with an entry missing. -/
theorem not_persists {args : ReopenArgs} {pre : List StoreEntry} {e e₀ : StoreEntry}
    {st₀ st₁ st₂ st' : QStoreManager}
    (hinit : QStoreManager.init none none lay.bucketNum lay.bucketSize lay.dataLen c₁ = .ok st₀)
    (hall : st₀.addAll fuel ads₁ = some st₁)
    (hinit₂ : QStoreManager.init (some st₁.m_fpHash) st₁.dataFile args.iBucketNum args.iBucketSize
      args.iDataLen c₂ = .ok st₂) (hall₂ : st₂.addAll fuel (pre ++ [e]) = some st')
    (hnd : ((table (ads₁ ++ pre)).map Prod.fst).Nodup) (he₀ : e₀ ∈ table (ads₁ ++ pre))
    (hlost : ∀ maxDataSize, ∃ code < 0, st'.searchKey fuel e₀.1 maxDataSize = some (code, none)) :
    ¬ lay.Persists args fuel c₁ c₂ ads₁ (pre ++ [e]) := by
  rintro ⟨st₁', st'', hrun, hfound, _⟩
  unfold twoSessions at hrun
  simp only [hinit, hall, hinit₂, hall₂, Option.some.injEq, Prod.mk.injEq] at hrun
  rw [← hrun.2] at hfound
  have hlook : (ads₁ ++ (pre ++ [e])).lookup e₀.1 = some e₀.2 := by
    have hmem := lookup_of_mem hnd he₀
    rw [lookup_table] at hmem
    rw [← append_assoc, lookup_append, hmem]
    rfl
  obtain ⟨code, hcode, hmiss⟩ := hlost e₀.2.length
  have hhit := hfound e₀.1 e₀.2 e₀.2.length hlook (Int.le_refl _)
  have heq : (code, (none : Option (List UInt8))) = lay.answer e₀.2 :=
    Option.some.inj (hmiss.symm.trans hhit)
  have hnonneg := lay.answer_nonneg e₀.2
  rw [← heq] at hnonneg
  omega

/-- **A KEY IS LOST** once the second session opens a bucket of the first. -/
theorem lost_of_common (args : ReopenArgs) (hv : ∀ e ∈ ads₁ ++ ads₂, lay.Addable e) (hc₁ : -1 ≤ c₁)
    (hc₂ : -1 ≤ c₂) (hrange : lay.InRange (lay.opens c₁ (lay.overflow (table ads₁)) ∪
      lay.opens c₂ (lay.secondOpens ads₁ ads₂))) (hfuel : ads₁.length + ads₂.length + 2 ≤ fuel) {b : ℕ}
    (hb₂ : b ∈ lay.opens c₂ (lay.secondOpens ads₁ ads₂))
    (hb₁ : b ∈ lay.opens c₁ (lay.overflow (table ads₁))) :
    ∃ pre post, ads₂ = pre ++ post ∧ ¬ lay.Persists args fuel c₁ c₂ ads₁ pre := by
  obtain ⟨i, hi, ⟨hlo, hhi⟩, hapart⟩ := first_common lay hb₂ hb₁
  have hfuel₁ : ads₁.length + 1 ≤ fuel := by omega
  obtain ⟨st₀, st₁, hinit, hall, hses⟩ := Session.first (fun e he => hv e (mem_append_left _ he))
    (Or.inr hc₁) ⟨hrange.1, fun b hb => hrange.2 b (Or.inl hb)⟩ hfuel₁
  obtain ⟨st₂, hinit₂, _, hses₂⟩ := hses.reopen args c₂
  -- up to that bucket nothing goes wrong
  have hs : lay.Safe (lay.opens c₁ (lay.overflow (table ads₁))) c₂ i := by
    refine ⟨Or.inr hc₂, hapart, ⟨hrange.1, ?_⟩⟩
    rintro x (hx | ⟨hxlo, hxhi⟩)
    · exact hrange.2 x (Or.inl hx)
    · exact hrange.2 x (Or.inr ⟨hxlo, by omega⟩)
  obtain ⟨pre, e, post, rfl, hpre, hopen⟩ := lay.exists_opening ads₂ (table ads₁)
    (lay.overflow (table ads₁) + i) (Nat.le_add_right _ _)
    (by rw [← table_append]; unfold secondOpens at hi; omega)
  have hlen := length_foldl_insertNew ads₁ ([] : List StoreEntry)
  rw [length_nil, Nat.zero_add] at hlen
  rw [length_append, length_cons] at hfuel
  have hroom : (table ads₁).length + pre.length + 1 ≤ fuel := by
    unfold table
    omega
  obtain ⟨k, st, hall₂, hsesp, _⟩ := Session.addAll hs pre 0 st₂ (table ads₁) hses₂
    (fun x hx => hv x (mem_append_right _ (mem_append_left _ hx))) (Nat.le_of_eq hpre) hroom
  have hk : k = i := by
    have := hsesp.overflow
    omega
  subst hk
  obtain ⟨chain, hrep, ht⟩ := hsesp.represented
  have hve : lay.Addable e :=
    hv e (mem_append_right _ (mem_append_right _ mem_cons_self))
  obtain ⟨hnew, hfull⟩ := hrep.full_of_overflow ht hve (hopen.trans (by rw [hpre]))
  -- the next one is in use
  obtain ⟨n, hn⟩ := Int.eq_ofNat_of_zero_le (a := lay.bucketNum + c₂ + 1 + k)
    (by have := lay.bucketNum_pos; omega)
  have hn₁ : n ∈ lay.opens c₁ (lay.overflow (table ads₁)) := by
    show _ < _ ∧ _ ≤ _
    omega
  have hnext : lay.NextBucket st n := by
    refine ⟨?_, hrange.2 n (Or.inl hn₁)⟩
    rw [hsesp.counter]
    omega
  obtain ⟨j, hj, hnj⟩ := hsesp.dense hrep ht hc₁ hc₂ hn₁
  have hj₀ := lay.base_lt e.1
  have hne := hrep.chain_ne_nil hj₀
  have hlenp := length_foldl_insertNew pre (table ads₁)
  have hlent : (table ads₁).length ≤ ads₁.length := hlen
  have hwalk := ht.length_le e.1
  have hfuel₂ : (pre.foldl insertNew (table ads₁)).length + 2 ≤ fuel := by omega
  have hadd := hrep.add_full hsesp.range hve hnext hne hfull
    (Nat.le_trans (Nat.succ_le_succ hwalk) hfuel₂)
  obtain ⟨e₀, he₀, hlost⟩ := hrep.overwrite hsesp.range ht hve hnew hnext hj hnj hj₀ hne
    (Nat.le_of_succ_le hfuel₂)
  rw [← table_append] at hrep he₀
  refine ⟨pre ++ [e], post, by rw [append_assoc]; rfl, ?_⟩
  exact not_persists hinit hall hinit₂ (addAll_snoc pre st₂ hall₂ hadd) hrep.distinct he₀ hlost

/-- **TWO SESSIONS.**  At every point of the second session every key is found
    and no bucket overwritten, if the buckets that the two open are no base
    buckets and not the same ones.  If some are the same (and no base buckets),
    there is a point at which a key is lost. -/
theorem store_reopened (lay : Layout) (args : ReopenArgs) (c₁ c₂ : ℤ) (ads₁ ads₂ : List StoreEntry)
    (hv : ∀ e ∈ ads₁ ++ ads₂, lay.Addable e)
    (hrange : lay.InRange (lay.opens c₁ (lay.overflow (table ads₁)) ∪
      lay.opens c₂ (lay.secondOpens ads₁ ads₂)))
    {fuel : ℕ} (hfuel : ads₁.length + ads₂.length + 2 ≤ fuel) :
    (lay.CountersApart c₁ c₂ ads₁ ads₂ →
      ∀ pre post, ads₂ = pre ++ post → lay.Persists args fuel c₁ c₂ ads₁ pre) ∧
    (-1 ≤ c₁ → -1 ≤ c₂ →
      (∀ pre post, ads₂ = pre ++ post → lay.Persists args fuel c₁ c₂ ads₁ pre) →
      lay.CountersApart c₁ c₂ ads₁ ads₂) := by
  constructor
  · rintro hcount pre post rfl
    have hle := lay.overflow_le_foldl post (table (ads₁ ++ pre))
    rw [← table_append, List.append_assoc] at hle
    have hsub : lay.secondOpens ads₁ pre ≤ lay.secondOpens ads₁ (pre ++ post) := by
      unfold secondOpens
      omega
    have hmono : ∀ b ∈ lay.opens c₂ (lay.secondOpens ads₁ pre),
        b ∈ lay.opens c₂ (lay.secondOpens ads₁ (pre ++ post)) := by
      rintro b ⟨hlo, hhi⟩
      exact ⟨hlo, by omega⟩
    rw [List.length_append] at hfuel
    refine persists_of_apart args ?_ ⟨hcount.first, ?_, ?_⟩ ⟨hrange.1, ?_⟩ (by omega)
    · intro e he
      refine hv e ?_
      rw [← List.append_assoc]
      exact List.mem_append_left _ he
    · rcases hcount.second with h | h
      · exact Or.inl (by omega)
      · exact Or.inr h
    · exact fun b hb => hcount.apart b (hmono b hb)
    · rintro b (hb | hb)
      · exact hrange.2 b (Or.inl hb)
      · exact hrange.2 b (Or.inr (hmono b hb))
  · intro hc₁ hc₂ hall
    refine ⟨Or.inr hc₁, Or.inr hc₂, ?_⟩
    intro b hb₂ hb₁
    obtain ⟨pre, post, hads, hlost⟩ := lost_of_common args hv hc₁ hc₂ hrange hfuel hb₂ hb₁
    exact hlost (hall pre post hads)

end Lost

/-- `init` with the same arguments again. -/
def oneBucketArgs : ReopenArgs := ⟨1, 1, 2, by decide, by decide⟩

/-- An object that remembers the one bucket its file has. -/
theorem store_reopened_counted :
    oneBucket.CountersApart 0 1 [(1, [7, 8]), (2, [9, 9])] [(3, [4, 4])] ∧
      ∀ pre post, [(3, [4, 4])] = pre ++ post →
        oneBucket.Persists oneBucketArgs 5 0 1 [(1, [7, 8]), (2, [9, 9])] pre := by
  have hfirst : oneBucket.overflow (table [(1, [7, 8]), (2, [9, 9])]) = 1 := by decide
  have hsecond : oneBucket.secondOpens [(1, [7, 8]), (2, [9, 9])] [(3, [4, 4])] = 1 := by decide
  have hnum : oneBucket.bucketNum = 1 := rfl
  have hcount : oneBucket.CountersApart 0 1 [(1, [7, 8]), (2, [9, 9])] [(3, [4, 4])] := by
    refine ⟨Or.inr (by decide), Or.inr (by decide), ?_⟩
    rw [hfirst, hsecond]
    rintro b ⟨hlo₂, _⟩ ⟨_, hhi₁⟩
    omega
  refine ⟨hcount, ?_⟩
  refine (store_reopened oneBucket oneBucketArgs 0 1 [(1, [7, 8]), (2, [9, 9])] [(3, [4, 4])] ?_ ?_
    (by decide)).1 hcount
  · intro e he
    simp only [List.cons_append, List.nil_append, List.mem_cons, List.not_mem_nil, or_false] at he
    rcases he with rfl | rfl | rfl
    · exact oneBucket_addable (by decide) (by decide)
    · exact oneBucket_addable (by decide) (by decide)
    · exact oneBucket_addable (by decide) (by decide)
  · rw [hfirst, hsecond]
    refine ⟨by decide, ?_⟩
    intro b hb
    have hle : b ≤ 3 := by
      rcases hb with ⟨_, hhi⟩ | ⟨_, hhi⟩
      · omega
      · omega
    exact Nat.lt_of_le_of_lt (pos_mono hle) (by decide)

/-- **AN OBJECT IN ZEROED MEMORY**, in both sessions: the second one opens the
    bucket of key 2 again, for key 3. -/
theorem reopened_loses_key :
    ¬ oneBucket.Persists oneBucketArgs 5 0 0 [(1, [7, 8]), (2, [9, 9])] [(3, [4, 4])] := by
  rintro ⟨st₁, st, hrun, hfound, _⟩
  have hlost : (twoSessions oneBucket oneBucketArgs 5 0 0 [(1, [7, 8]), (2, [9, 9])]
      [(3, [4, 4])]).map (fun p => p.2.searchKey 5 2 2) = some (some (-13, none)) := by decide
  rw [hrun, Option.map_some, Option.some.injEq] at hlost
  have hhit := hfound 2 [9, 9] 2 rfl (by decide)
  rw [hlost] at hhit
  exact absurd hhit (by decide)

end Layout

end KalavaPir.Common
