/-
  KalavaPir.Common.QDenseIndexRounds — rounds of a dense index.

  A user adds entries with new keys and calls `rearrangeIndex`, any number of
  times; between these rounds keys are searched and deleted, and the index may
  be closed and opened again, which brings back the flags of the last round.
-/
import KalavaPir.Common.QDenseIndexManager

namespace KalavaPir.Common

open KalavaPir.Framework List Function

namespace QDenseIndexManager

/-! ## §1. The entries in the arrays. -/

/-- An entry a caller may add. -/
structure Indexable (e : StoreEntry) : Prop where
  key_lt : e.1 < 2 ^ 64
  pos : 0 < e.2.length
  lt : e.2.length < 2 ^ 31

/-- **The invariant**: the arrays hold the entries `es`, in some order, and the
    flags of the keys `del` are set. -/
structure Listed (m : QDenseIndexManager) (es : List StoreEntry) (del : List ℕ) : Prop where
  num : m.m_iNowIndexNum = es.length
  valid : ∀ e ∈ es, Indexable e
  deleted : ∀ key ∈ del, key ∈ es.map Prod.fst
  places : ∀ key ∈ es.map Prod.fst, ∃ i, 0 ≤ i ∧ i < m.m_iNowIndexNum ∧ m.m_pszKey i = key
  items : ∀ i, 0 ≤ i → i < m.m_iNowIndexNum → ∃ v, (m.m_pszKey i, v) ∈ es ∧
    RecordAt m.m_fpData (m.m_pszOffset i) v ∧
      m.m_pszFlag i = if m.m_pszKey i ∈ del then 1 else 0
  distinct : (es.map Prod.fst).Nodup
  injective : ∀ i j, 0 ≤ i → i < m.m_iNowIndexNum → 0 ≤ j → j < m.m_iNowIndexNum →
    m.m_pszKey i = m.m_pszKey j → i = j
  data : m.m_fpData.size ≤ es.length * (2 ^ 31 + 20)

section Listed

variable {m w : QDenseIndexManager} {es : List StoreEntry} {del : List ℕ}

/-- The first part of an array is all that counts. -/
theorem Listed.congr (h : Listed w es del) (hsame : SameItems m w) (hdata : m.m_fpData = w.m_fpData) :
    Listed m es del where
  num := hsame.num.trans h.num
  valid := h.valid
  deleted := h.deleted
  places key hkey := by
    obtain ⟨i, hi, hi', heq⟩ := h.places key hkey
    exact ⟨i, hi, by rw [hsame.num]; exact hi', (hsame.key i hi hi').trans heq⟩
  items i hi hi' := by
    rw [hsame.num] at hi'
    rw [hsame.key i hi hi', hsame.offset i hi hi', hsame.flag i hi hi', hdata]
    exact h.items i hi hi'
  distinct := h.distinct
  injective i j hi hi' hj hj' heq := by
    rw [hsame.num] at hi' hj'
    rw [hsame.key i hi hi', hsame.key j hj hj'] at heq
    exact h.injective i j hi hi' hj hj' heq
  data := by
    rw [hdata]
    exact h.data

/-- The order of the entries does not count. -/
theorem Listed.permute (h : Listed m es del) {π : Equiv.Perm ℤ}
    (hπ : Moves 0 (m.m_iNowIndexNum - 1) π) (f : ByteFile) :
    Listed { m with
      m_pszKey := m.m_pszKey ∘ π
      m_pszOffset := m.m_pszOffset ∘ π
      m_pszFlag := m.m_pszFlag ∘ π
      m_fpIndex := f } es del where
  num := h.num
  valid := h.valid
  deleted := h.deleted
  places key hkey := by
    obtain ⟨i, hi, hi', heq⟩ := h.places key hkey
    obtain ⟨hlo, hhi⟩ := hπ.symm.inside (i := i) ⟨hi, by omega⟩
    refine ⟨π.symm i, hlo, ?_, ?_⟩
    · show π.symm i < m.m_iNowIndexNum
      omega
    · show m.m_pszKey (π (π.symm i)) = key
      rw [Equiv.apply_symm_apply]
      exact heq
  items i hi hi' := by
    have hi'' : i < m.m_iNowIndexNum := hi'
    obtain ⟨hlo, hhi⟩ := hπ.inside (i := i) ⟨hi, by omega⟩
    exact h.items (π i) hlo (by omega)
  distinct := h.distinct
  injective i j hi hi' hj hj' heq := by
    have hi'' : i < m.m_iNowIndexNum := hi'
    have hj'' : j < m.m_iNowIndexNum := hj'
    obtain ⟨hilo, hihi⟩ := hπ.inside (i := i) ⟨hi, by omega⟩
    obtain ⟨hjlo, hjhi⟩ := hπ.inside (i := j) ⟨hj, by omega⟩
    exact π.injective (h.injective (π i) (π j) hilo (by omega) hjlo (by omega) heq)
  data := h.data

/-! ## §2. Adding. -/

theorem addKey_of (key : ℕ) {v : List UInt8} (hv : 0 < v.length)
    (hroom : m.m_iNowIndexNum + 1 < m.m_iMaxIndexSize) :
    m.addKey key v = (0, { m with
      m_fpData := m.m_fpData.fwrite m.m_fpData.size (record v)
      m_pszKey := update m.m_pszKey m.m_iNowIndexNum key
      m_pszOffset := update m.m_pszOffset m.m_iNowIndexNum m.m_fpData.size
      m_pszFlag := update m.m_pszFlag m.m_iNowIndexNum 0
      m_iNowIndexNum := m.m_iNowIndexNum + 1 }) := by
  unfold addKey
  rw [if_neg (by omega), if_neg (by omega)]

variable {e : StoreEntry} {maxDataSize : ℤ}

/-- **One more entry.** -/
theorem Listed.add (h : Listed m es del) (he : Indexable e) (hnew : e.1 ∉ es.map Prod.fst)
    (hroom : m.m_iNowIndexNum + 1 < m.m_iMaxIndexSize) :
    ∃ m', m.addKey e.1 e.2 = (0, m') ∧ Listed m' (es ++ [e]) del ∧
      m'.m_iMaxIndexSize = m.m_iMaxIndexSize := by
  refine ⟨_, addKey_of e.1 he.pos hroom, ?_, rfl⟩
  have hnum := h.num
  have hkeys : (es ++ [e]).map Prod.fst = es.map Prod.fst ++ [e.1] := map_append
  have hinside : ∀ i, 0 ≤ i → i < m.m_iNowIndexNum → m.m_pszKey i ∈ es.map Prod.fst := by
    intro i hi hi'
    obtain ⟨v, hmem, -⟩ := h.items i hi hi'
    exact mem_map_of_mem hmem
  -- a position is an old one or the one `addKey` writes
  have hcases : ∀ i, i < m.m_iNowIndexNum + 1 → i < m.m_iNowIndexNum ∨ i = m.m_iNowIndexNum := by
    intro i hi
    omega
  have hfresh : ∀ i, 0 ≤ i → i < m.m_iNowIndexNum → m.m_pszKey i ≠ e.1 := by
    intro i hi hi' heq
    exact hnew (heq ▸ hinside i hi hi')
  constructor
  · show m.m_iNowIndexNum + 1 = _
    rw [length_append, length_singleton, hnum]
    rfl
  · intro x hx
    obtain hx | hx := mem_append.mp hx
    · exact h.valid x hx
    · rw [mem_singleton.mp hx]
      exact he
  · intro key hkey
    rw [hkeys]
    exact mem_append_left _ (h.deleted key hkey)
  · intro key hkey
    rw [hkeys] at hkey
    obtain hkey | hkey := mem_append.mp hkey
    · obtain ⟨i, hi, hi', heq⟩ := h.places key hkey
      refine ⟨i, hi, by show i < m.m_iNowIndexNum + 1; omega, ?_⟩
      show update m.m_pszKey m.m_iNowIndexNum e.1 i = key
      rw [update_of_ne (by omega)]
      exact heq
    · refine ⟨m.m_iNowIndexNum, by omega, by show _ < m.m_iNowIndexNum + 1; omega, ?_⟩
      show update m.m_pszKey m.m_iNowIndexNum e.1 m.m_iNowIndexNum = key
      rw [update_self]
      exact (mem_singleton.mp hkey).symm
  · intro i hi hi'
    dsimp only at hi' ⊢
    obtain hold | hlast := hcases i hi'
    · have hne : i ≠ m.m_iNowIndexNum := by omega
      obtain ⟨v, hmem, hrecord, hflag⟩ := h.items i hi hold
      refine ⟨v, ?_, ?_, ?_⟩
      · rw [update_of_ne hne]
        exact mem_append_left _ hmem
      · rw [update_of_ne hne]
        exact hrecord.append (record e.2)
      · show update m.m_pszFlag m.m_iNowIndexNum 0 i =
          if update m.m_pszKey m.m_iNowIndexNum e.1 i ∈ del then 1 else 0
        rw [update_of_ne hne, update_of_ne hne]
        exact hflag
    · refine ⟨e.2, ?_, ?_, ?_⟩
      · rw [hlast, update_self]
        exact mem_append_right _ (mem_singleton.mpr rfl)
      · rw [hlast, update_self]
        exact recordAt_append m.m_fpData e.2
      · show update m.m_pszFlag m.m_iNowIndexNum 0 i =
          if update m.m_pszKey m.m_iNowIndexNum e.1 i ∈ del then 1 else 0
        rw [hlast, update_self, update_self,
          if_neg (fun hdel => hnew (h.deleted e.1 hdel))]
  · rw [hkeys]
    exact nodup_append.mpr ⟨h.distinct, nodup_singleton e.1, fun a ha b hb hab =>
      hnew (by rw [← mem_singleton.mp hb, ← hab]; exact ha)⟩
  · intro i j hi hi' hj hj' heq
    dsimp only at hi' hj' heq
    obtain hiold | hilast := hcases i hi'
    · rw [update_of_ne (by omega)] at heq
      obtain hjold | hjlast := hcases j hj'
      · rw [update_of_ne (by omega)] at heq
        exact h.injective i j hi hiold hj hjold heq
      · rw [hjlast, update_self] at heq
        exact absurd heq (hfresh i hi hiold)
    · rw [hilast, update_self] at heq
      obtain hjold | hjlast := hcases j hj'
      · rw [update_of_ne (by omega)] at heq
        exact absurd heq.symm (hfresh j hj hjold)
      · rw [hilast, hjlast]
  · dsimp only
    have hdata := h.data
    have hlt := he.lt
    rw [ByteFile.size_fwrite, length_record, length_append, length_singleton]
    omega

/-- `addKey` for one entry after the other, until one fails. -/
def addAll (m : QDenseIndexManager) : List StoreEntry → Option QDenseIndexManager
  | [] => some m
  | e :: ads => if (m.addKey e.1 e.2).1 = 0 then (m.addKey e.1 e.2).2.addAll ads else none

/-- **The entries are added** while there is room for them. -/
theorem Listed.addAll (ads : List StoreEntry) : ∀ {m : QDenseIndexManager} {es : List StoreEntry},
    Listed m es del → (∀ e ∈ ads, Indexable e) → ((es ++ ads).map Prod.fst).Nodup →
    (ads ≠ [] → (es.length + ads.length : ℤ) < m.m_iMaxIndexSize) →
    ∃ m', m.addAll ads = some m' ∧ Listed m' (es ++ ads) del ∧ m'.m_iMaxIndexSize = m.m_iMaxIndexSize := by
  induction ads with
  | nil =>
    intro m es h _ _ _
    refine ⟨m, rfl, ?_, rfl⟩
    rw [append_nil]
    exact h
  | cons e ads ih =>
    intro m es h hvalid hnodup hroom
    have hcap := hroom (cons_ne_nil e ads)
    rw [length_cons] at hcap
    have hsplit : es ++ e :: ads = (es ++ [e]) ++ ads := by
      rw [append_assoc, singleton_append]
    rw [hsplit] at hnodup ⊢
    have hnew : e.1 ∉ es.map Prod.fst := by
      intro hmem
      rw [map_append, map_append] at hnodup
      exact (nodup_append.mp (nodup_append.mp hnodup).1).2.2 e.1 hmem e.1
        (mem_singleton.mpr rfl) rfl
    obtain ⟨m₁, hadd, hlisted, hmax⟩ := h.add (hvalid e mem_cons_self) hnew (by rw [h.num]; omega)
    obtain ⟨m', hrest, hlisted', hmax'⟩ := ih hlisted
      (fun x hx => hvalid x (mem_cons_of_mem e hx)) hnodup
      (fun _ => by rw [hmax, length_append, length_singleton]; omega)
    refine ⟨m', ?_, hlisted', hmax'.trans hmax⟩
    show (if (m.addKey e.1 e.2).1 = 0 then (m.addKey e.1 e.2).2.addAll ads else none) = some m'
    rw [hadd]
    exact hrest

/-! ## §3. Sorting. -/

/-- Sorted by the key. -/
def Sorted (m : QDenseIndexManager) : Prop := SortedOn m.m_pszKey 0 (m.m_iNowIndexNum - 1)

/-- **The arrays are sorted and written**, when `rearrangeIndex` returns. -/
theorem Listed.rearrange (h : Listed m es del) (hlt : m.m_iNowIndexNum < 2 ^ 31) {fuel : ℕ} {code : ℤ}
    {m' : QDenseIndexManager} (hrun : m.rearrangeIndex fuel = some (code, m')) :
    Listed m' es del ∧ m'.Sorted ∧ m'.m_iMaxIndexSize = m.m_iMaxIndexSize ∧
      (es ≠ [] → code = 0 ∧ Written m'.m_fpIndex m') := by
  unfold rearrangeIndex at hrun
  generalize hsort : Q_Recursion_1K_2P fuel 0 (m.m_iNowIndexNum - 1) m.items = r at hrun
  cases r with
  | none => exact absurd hrun (by simp)
  | some s =>
    obtain ⟨π, hπ, hs, hsorted⟩ := Q_Recursion_1K_2P_sorts fuel (Int.le_refl 0) (by omega) hsort
    injection hrun with hrun
    rw [hs] at hrun hsorted
    have hcode := congrArg Prod.fst hrun
    have hstate := congrArg Prod.snd hrun
    dsimp only at hcode hstate
    rw [← hstate, ← hcode]
    refine ⟨h.permute hπ _, hsorted, rfl, ?_⟩
    intro hne
    have hpos : 0 < m.m_iNowIndexNum := by
      have := length_pos_iff.mpr hne
      rw [h.num]
      omega
    let sorted : QDenseIndexManager := { m with
      m_pszKey := m.m_pszKey ∘ π, m_pszOffset := m.m_pszOffset ∘ π, m_pszFlag := m.m_pszFlag ∘ π }
    exact ⟨congrArg Prod.fst (writeIndex_eq sorted hpos), written_writeIndex sorted hpos⟩

theorem Listed.rearrange_returns (h : Listed m es del) (hle : m.m_iNowIndexNum ≤ 2 ^ 30 + 1) {fuel : ℕ}
    (hfuel : es.length < fuel) : ∃ code m', m.rearrangeIndex fuel = some (code, m') := by
  obtain ⟨k, hk⟩ : ∃ k, fuel = k + 1 := ⟨fuel - 1, by omega⟩
  have hnum := h.num
  obtain ⟨s, hs⟩ := Q_Recursion_1K_2P_returns k m.items (Int.le_refl 0)
    (by omega : m.m_iNowIndexNum - 1 ≤ 2 ^ 30) (by omega)
  unfold rearrangeIndex
  rw [hk, hs]
  exact ⟨_, _, rfl⟩

/-! ## §4. Searching. -/

section

variable (h : Listed m es del)
include h

theorem Listed.find (hsorted : m.Sorted) (hle : m.m_iNowIndexNum ≤ 2 ^ 30) (key : ℕ) :
    (∃ i, 0 ≤ i ∧ i < m.m_iNowIndexNum ∧ m.m_pszKey i = key ∧
      Q_Binary_Search_Default 0 (m.m_iNowIndexNum - 1) m.m_pszKey key = some i) ∨
    key ∉ es.map Prod.fst ∧ Q_Binary_Search_Default 0 (m.m_iNowIndexNum - 1) m.m_pszKey key = some (-1) := by
  obtain ⟨i, hi, hi', heq, hsearch⟩ | ⟨hnone, hsearch⟩ :=
    Q_Binary_Search_Default_spec key (Int.le_refl 0) (by omega) hsorted
  · exact Or.inl ⟨i, hi, by omega, heq, hsearch⟩
  refine Or.inr ⟨?_, hsearch⟩
  intro hmem
  obtain ⟨i, hi, hi', heq⟩ := h.places key hmem
  exact hnone i hi (by omega) heq

/-- **A key that is there is found**, with its value. -/
theorem Listed.search_found (hsorted : m.Sorted) (hle : m.m_iNowIndexNum ≤ 2 ^ 30) (he : e ∈ es) (hlive : e.1 ∉ del)
    (hmax : (e.2.length : ℤ) ≤ maxDataSize) : m.searchKey e.1 maxDataSize = some ((e.2.length : ℤ), some e.2) := by
  have hpos := (h.valid e he).pos
  obtain ⟨i, hi, hi', heq, hsearch⟩ | ⟨hnone, -⟩ := h.find hsorted hle e.1
  · obtain ⟨v, hmem, hrecord, hflag⟩ := h.items i hi hi'
    have hv : (m.m_pszKey i, v) = e := inj_on_of_nodup_map h.distinct hmem he heq
    rw [heq, if_neg hlive] at hflag
    rw [← congrArg Prod.snd hv] at hmax hpos ⊢
    unfold searchKey
    rw [if_neg (by omega), hsearch]
    dsimp only
    rw [if_neg (by omega), hflag, if_neg (by decide)]
    congr 1
    refine readRecord_of hrecord hpos ?_ hmax
    exact (h.valid _ hmem).lt
  · exact absurd (mem_map_of_mem he) hnone

/-- **Any other key is not.** -/
theorem Listed.search_missing (hsorted : m.Sorted) (hle : m.m_iNowIndexNum ≤ 2 ^ 30) {key : ℕ}
    (hkey : key ∉ es.map Prod.fst ∨ key ∈ del) (maxDataSize : ℤ) :
    ∃ code, m.searchKey key maxDataSize = some (code, none) ∧ code < 0 := by
  unfold searchKey
  by_cases hsize : maxDataSize ≤ 0
  · rw [if_pos hsize]
    exact ⟨-1, rfl, by decide⟩
  rw [if_neg hsize]
  obtain ⟨i, hi, hi', heq, hsearch⟩ | ⟨-, hsearch⟩ := h.find hsorted hle key
  · obtain ⟨v, hmem, -, hflag⟩ := h.items i hi hi'
    have hdel : key ∈ del := by
      obtain hkey | hkey := hkey
      · rw [← heq] at hkey
        exact absurd (mem_map_of_mem hmem) hkey
      · exact hkey
    rw [heq, if_pos hdel] at hflag
    rw [hsearch]
    dsimp only
    rw [if_neg (by omega), if_pos hflag]
    exact ⟨-3, rfl, by decide⟩
  · rw [hsearch]
    exact ⟨-2, rfl, by decide⟩

/-- **`deleteKey`** sets the flag of the key, if it is there. -/
theorem Listed.delete (hsorted : m.Sorted) (hle : m.m_iNowIndexNum ≤ 2 ^ 30) (key : ℕ) :
    ∃ m', m.deleteKey key = some (if key ∈ es.map Prod.fst then 0 else -2, m') ∧
      Listed m' es (if key ∈ es.map Prod.fst then key :: del else del) ∧ m'.Sorted ∧
      m'.m_iMaxIndexSize = m.m_iMaxIndexSize ∧ m'.m_fpIndex = m.m_fpIndex ∧ m'.m_fpData = m.m_fpData := by
  unfold deleteKey
  obtain ⟨i, hi, hi', heq, hsearch⟩ | ⟨hnone, hsearch⟩ := h.find hsorted hle key
  · have hmem : key ∈ es.map Prod.fst := by
      obtain ⟨v, hv, -⟩ := h.items i hi hi'
      rw [← heq]
      exact mem_map_of_mem hv
    rw [hsearch, if_pos hmem, if_pos hmem]
    dsimp only
    rw [if_neg (by omega)]
    refine ⟨_, rfl, ?_, hsorted, rfl, rfl, rfl⟩
    refine { h with deleted := ?_, items := ?_ }
    · intro k hk
      obtain hk | hk := mem_cons.mp hk
      · rw [hk]
        exact hmem
      · exact h.deleted k hk
    · intro j hj hj'
      obtain ⟨v, hv, hrecord, hflag⟩ := h.items j hj hj'
      refine ⟨v, hv, hrecord, ?_⟩
      show update m.m_pszFlag i 1 j = if m.m_pszKey j ∈ key :: del then 1 else 0
      by_cases hij : j = i
      · rw [hij, update_self, heq, if_pos mem_cons_self]
      have hne : m.m_pszKey j ≠ key := by
        intro hkj
        exact hij (h.injective j i hj hj' hi hi' (hkj.trans heq.symm))
      rw [update_of_ne hij, hflag]
      congr 1
      rw [mem_cons]
      exact propext ⟨Or.inr, fun hor => hor.resolve_left hne⟩
  · rw [hsearch, if_neg hnone, if_neg hnone]
    exact ⟨m, rfl, h, hsorted, rfl, rfl, rfl⟩

theorem Listed.search_outside (hsorted : m.Sorted) (hgt : 2 ^ 30 < m.m_iNowIndexNum) (hlt : m.m_iNowIndexNum < 2 ^ 31)
    (hsize : 0 < maxDataSize) : m.searchKey (m.m_pszKey (m.m_iNowIndexNum - 1)) maxDataSize = none := by
  have hless : ∀ i, 0 ≤ i → i < m.m_iNowIndexNum - 1 →
      m.m_pszKey i < m.m_pszKey (m.m_iNowIndexNum - 1) := by
    intro i hi hi'
    refine lt_of_le_of_ne (hsorted i _ hi (by omega) (Int.le_refl _)) ?_
    intro heq
    have := h.injective i _ hi (by omega) (by omega) (by omega) heq
    omega
  unfold searchKey
  rw [if_neg (by omega), Q_Binary_Search_Default_overflow (by omega) (by omega) hless]

end

end Listed

/-! ## §5. Histories. -/

/-- What a user does with the index. -/
inductive IndexStep where
  /-- New entries, and `rearrangeIndex`. -/
  | round (ads : List StoreEntry)
  | deleteKey (key : ℕ)
  /-- The index is closed, and `init` runs on its files. -/
  | reopen (maxIndexSize : ℤ) (memory : Parallel ℕ ℤ UInt8)

/-- What the index should hold: the entries that were added, the keys that are
    deleted, and those that were at the last `rearrangeIndex`. -/
structure IndexView where
  entries : List StoreEntry
  deleted : List ℕ
  saved : List ℕ

namespace IndexView

/-- An index without files. -/
def new : IndexView := ⟨[], [], []⟩

/-- The keys, in the order of the arrays. -/
def keys (v : IndexView) : List ℕ := v.entries.map Prod.fst

/-- A step, as its purpose is. -/
def after (v : IndexView) : IndexStep → IndexView
  | .round ads => { v with entries := v.entries ++ ads, saved := v.deleted }
  | .deleteKey key => { v with deleted := if key ∈ v.keys then key :: v.deleted else v.deleted }
  | .reopen _ _ => { v with deleted := v.saved }

/-- New keys, values that are not empty, capacity left; and some key has been
    added when the index is closed. -/
def Allows (v : IndexView) (maxIndexSize : ℤ) : IndexStep → Prop
  | .round ads => (∀ e ∈ ads, Indexable e) ∧ ((v.entries ++ ads).map Prod.fst).Nodup ∧
      (ads ≠ [] → (v.entries.length + ads.length : ℤ) < maxIndexSize)
  | .deleteKey _ => True
  | .reopen _ _ => v.entries ≠ []

end IndexView

/-- All steps of a history are allowed. -/
def Allowed (maxIndexSize : ℤ) : IndexView → List IndexStep → Prop
  | _, [] => True
  | v, s :: steps => v.Allows maxIndexSize s ∧ Allowed maxIndexSize (v.after s) steps

/-- How many entries a history adds. -/
def added : List IndexStep → ℕ
  | [] => 0
  | .round ads :: steps => ads.length + added steps
  | _ :: steps => added steps

/-- **What `searchKey` should say**: the length and the bytes of the value, or a
    negative code if the key was not added or is deleted. -/
structure Shows (m : QDenseIndexManager) (v : IndexView) : Prop where
  found : ∀ e ∈ v.entries, e.1 ∉ v.deleted → ∀ maxDataSize : ℤ, (e.2.length : ℤ) ≤ maxDataSize →
    m.searchKey e.1 maxDataSize = some ((e.2.length : ℤ), some e.2)
  missing : ∀ key, key ∉ v.keys ∨ key ∈ v.deleted → ∀ maxDataSize : ℤ,
    ∃ code, m.searchKey key maxDataSize = some (code, none) ∧ code < 0

/-- The step takes `m` to `m'` and returns what it should; `w` and `w'` are the
    managers that `rearrangeIndex` left last. -/
def Performs (fuel : ℕ) (m w : QDenseIndexManager) (v : IndexView) :
    IndexStep → QDenseIndexManager → QDenseIndexManager → Prop
  | .round ads, m', w' => ∃ m₁ code, m.addAll ads = some m₁ ∧
      m₁.rearrangeIndex fuel = some (code, m') ∧ (v.entries ++ ads ≠ [] → code = 0) ∧ w' = m'
  | .deleteKey key, m', w' =>
    m.deleteKey key = some (if key ∈ v.keys then 0 else -2, m') ∧ w' = w
  | .reopen maxIndexSize memory, m', w' =>
    init (some m.m_fpIndex) (some m.m_fpData) maxIndexSize memory = .ok m' ∧ SameItems m' w ∧ w' = w

/-- **The contract**, at every point of a history. -/
def Obeys (fuel : ℕ) : QDenseIndexManager → QDenseIndexManager → IndexView → List IndexStep → Prop
  | m, _, v, [] => Shows m v
  | m, w, v, s :: steps => Shows m v ∧
      ∃ m' w', Performs fuel m w v s m' w' ∧ Obeys fuel m' w' (v.after s) steps

section Histories

variable {maxIndexSize : ℤ} {m w : QDenseIndexManager} {v : IndexView} {fuel : ℕ}

variable {steps : List IndexStep} {s : IndexStep}

theorem Obeys.shows (h : Obeys fuel m w v steps) : Shows m v := by
  cases steps with
  | nil => exact h
  | cons s steps => exact h.1

/-- The index at a point of a history, and its files. -/
structure IndexAt (maxIndexSize : ℤ) (m w : QDenseIndexManager) (v : IndexView) : Prop where
  listed : Listed m v.entries v.deleted
  sorted : m.Sorted
  max : m.m_iMaxIndexSize = maxIndexSize
  saved : v.entries ≠ [] → Listed w v.entries v.saved ∧ w.Sorted ∧ w.m_iMaxIndexSize = maxIndexSize ∧
    Written m.m_fpIndex w ∧ w.m_fpData = m.m_fpData

theorem IndexAt.shows (h : IndexAt maxIndexSize m w v) (hle : v.entries.length ≤ 2 ^ 30) : Shows m v := by
  have hnum : m.m_iNowIndexNum ≤ 2 ^ 30 := by
    rw [h.listed.num]
    omega
  constructor
  · intro e he hlive maxDataSize hmax
    exact h.listed.search_found h.sorted hnum he hlive hmax
  · intro key hkey maxDataSize
    exact h.listed.search_missing h.sorted hnum hkey maxDataSize

/-- With more, one of them is not. -/
theorem not_shows (h : Listed m v.entries v.deleted) (hsorted : m.Sorted)
    (hgt : 2 ^ 30 < v.entries.length) (hlt : v.entries.length < 2 ^ 31) : ¬ Shows m v := by
  intro hshows
  have hnum := h.num
  obtain ⟨x, hmem, -⟩ := h.items (m.m_iNowIndexNum - 1) (by omega) (by omega)
  have hpos := (h.valid _ hmem).pos
  dsimp only at hpos
  by_cases hdel : m.m_pszKey (m.m_iNowIndexNum - 1) ∈ v.deleted
  · obtain ⟨code, hsearch, -⟩ := hshows.missing _ (Or.inr hdel) 1
    rw [h.search_outside hsorted (by omega) (by omega) (by decide)] at hsearch
    exact absurd hsearch (by simp)
  · have hsearch := hshows.found _ hmem hdel x.length (Int.le_refl _)
    rw [h.search_outside hsorted (by omega) (by omega) (by omega)] at hsearch
    exact absurd hsearch (by simp)

/-! ## §6. One step. -/

/-- A round, when the sort returns. -/
theorem IndexAt.round (h : IndexAt maxIndexSize m w v) {ads : List StoreEntry}
    (hads : v.Allows maxIndexSize (.round ads)) (hlt : v.entries.length + ads.length < 2 ^ 31) :
    ∃ m₁, m.addAll ads = some m₁ ∧ Listed m₁ (v.entries ++ ads) v.deleted ∧
      ∀ code m', m₁.rearrangeIndex fuel = some (code, m') →
        (v.entries ++ ads ≠ [] → code = 0) ∧ IndexAt maxIndexSize m' m' (v.after (.round ads)) := by
  obtain ⟨hvalid, hnodup, hroom⟩ := hads
  rw [← h.max] at hroom
  obtain ⟨m₁, hadd, hlisted, hmax₁⟩ := h.listed.addAll ads hvalid hnodup hroom
  refine ⟨m₁, hadd, hlisted, ?_⟩
  intro code m' hrun
  have hnum : m₁.m_iNowIndexNum < 2 ^ 31 := by
    rw [hlisted.num, length_append]
    omega
  obtain ⟨hlisted', hsorted, hmax', hwritten⟩ := hlisted.rearrange hnum hrun
  have hmaxAll : m'.m_iMaxIndexSize = maxIndexSize := (hmax'.trans hmax₁).trans h.max
  exact ⟨fun hne => (hwritten hne).1, hlisted', hsorted, hmaxAll,
    fun hne => ⟨hlisted', hsorted, hmaxAll, (hwritten hne).2, rfl⟩⟩

theorem IndexAt.delete (h : IndexAt maxIndexSize m w v) (hle : v.entries.length ≤ 2 ^ 30) (key : ℕ) :
    ∃ m', m.deleteKey key = some (if key ∈ v.keys then 0 else -2, m') ∧
      IndexAt maxIndexSize m' w (v.after (.deleteKey key)) := by
  have hnum : m.m_iNowIndexNum ≤ 2 ^ 30 := by
    rw [h.listed.num]
    omega
  obtain ⟨m', hrun, hlisted, hsorted, hmax, hindex, hdata⟩ := h.listed.delete h.sorted hnum key
  refine ⟨m', hrun, hlisted, hsorted, hmax.trans h.max, ?_⟩
  intro hne
  obtain ⟨hw, hwsorted, hwmax, hwritten, hwdata⟩ := h.saved hne
  refine ⟨hw, hwsorted, hwmax, ?_, ?_⟩
  · rw [hindex]
    exact hwritten
  · rw [hdata]
    exact hwdata

/-- The arrays fit into the file. -/
theorem Listed.storable {es : List StoreEntry} {del : List ℕ} (h : Listed w es del) (hne : es ≠ [])
    (hlt : es.length < 2 ^ 31) (hmax : -2 ^ 31 ≤ w.m_iMaxIndexSize ∧ w.m_iMaxIndexSize < 2 ^ 31) :
    w.Storable where
  max := hmax
  num := by
    have := length_pos_iff.mpr hne
    rw [h.num]
    omega
  key i hi hi' := by
    obtain ⟨v, hmem, -⟩ := h.items i hi hi'
    exact (h.valid _ hmem).key_lt
  offset i hi hi' := by
    obtain ⟨v, hmem, ⟨q, hq, hend, -⟩, -⟩ := h.items i hi hi'
    have hsize := h.data
    omega

theorem IndexAt.reopen (h : IndexAt maxIndexSize m w v)
    (hmax : -2 ^ 31 ≤ maxIndexSize ∧ maxIndexSize < 2 ^ 31) (hne : v.entries ≠ [])
    (hlt : v.entries.length < 2 ^ 31) (maxIndexSize' : ℤ) (memory : Parallel ℕ ℤ UInt8) :
    ∃ m', init (some m.m_fpIndex) (some m.m_fpData) maxIndexSize' memory = .ok m' ∧ SameItems m' w ∧
      IndexAt maxIndexSize m' w (v.after (.reopen maxIndexSize' memory)) := by
  obtain ⟨hw, hwsorted, hwmax, hwritten, hwdata⟩ := h.saved hne
  have hstorable := hw.storable hne hlt (by rw [hwmax]; exact hmax)
  have hopen : ∃ m', QDenseIndexManager.reopen m.m_fpIndex (some m.m_fpData) memory = .ok m' ∧
      SameItems m' w ∧ m'.m_iMaxIndexSize = w.m_iMaxIndexSize ∧ m'.m_fpIndex = m.m_fpIndex ∧
      m'.m_fpData = m.m_fpData := reopen_of hstorable hwritten memory
  obtain ⟨m', hinit, hsame, hmax', hindex, hdata⟩ := hopen
  have hdata' : m'.m_fpData = w.m_fpData := by rw [hdata, hwdata]
  refine ⟨m', hinit, hsame, hw.congr hsame hdata', ?_, hmax'.trans hwmax, ?_⟩
  · intro i j hi hij hj
    rw [hsame.num] at hj
    rw [hsame.key i hi (by omega), hsame.key j (by omega) (by omega)]
    exact hwsorted i j hi hij hj
  · intro _
    refine ⟨hw, hwsorted, hwmax, ?_, hdata'.symm⟩
    rw [hindex]
    exact hwritten

/-! ## §7. Every history. -/

/-- A step has one outcome. -/
theorem Performs.unique {m₁ w₁ m₂ w₂ : QDenseIndexManager} (h₁ : Performs fuel m w v s m₁ w₁)
    (h₂ : Performs fuel m w v s m₂ w₂) : m₁ = m₂ ∧ w₁ = w₂ := by
  cases s with
  | round ads =>
    obtain ⟨a, c, hadd, hrun, -, hw⟩ := h₁
    obtain ⟨a', c', hadd', hrun', -, hw'⟩ := h₂
    rw [hadd] at hadd'
    injection hadd' with ha
    rw [← ha, hrun] at hrun'
    injection hrun' with hpair
    have hm := congrArg Prod.snd hpair
    exact ⟨hm, by rw [hw, hw']; exact hm⟩
  | deleteKey key =>
    obtain ⟨hrun, hw⟩ := h₁
    obtain ⟨hrun', hw'⟩ := h₂
    rw [hrun] at hrun'
    injection hrun' with hpair
    exact ⟨congrArg Prod.snd hpair, hw.trans hw'.symm⟩
  | reopen maxIndexSize memory =>
    obtain ⟨hrun, -, hw⟩ := h₁
    obtain ⟨hrun', -, hw'⟩ := h₂
    rw [hrun] at hrun'
    injection hrun' with hm
    exact ⟨hm, hw.trans hw'.symm⟩

theorem obeys_cons_iff {m' w' : QDenseIndexManager} (hshows : Shows m v)
    (hstep : Performs fuel m w v s m' w') :
    Obeys fuel m w v (s :: steps) ↔ Obeys fuel m' w' (v.after s) steps := by
  constructor
  · intro h
    obtain ⟨-, m'', w'', hstep', hrest⟩ := h
    obtain ⟨hm, hw⟩ := hstep'.unique hstep
    rw [← hm, ← hw]
    exact hrest
  · intro h
    exact ⟨hshows, m', w', hstep, h⟩

/-- **From any point on**, as long as there have been no more than 2³⁰ entries. -/
theorem obeys_iff (hmax : -2 ^ 31 ≤ maxIndexSize ∧ maxIndexSize < 2 ^ 31) (steps : List IndexStep) :
    ∀ {m w : QDenseIndexManager} {v : IndexView}, IndexAt maxIndexSize m w v →
    v.entries.length ≤ 2 ^ 30 → Allowed maxIndexSize v steps → v.entries.length + added steps < fuel →
    (Obeys fuel m w v steps ↔ v.entries.length + added steps ≤ 2 ^ 30) := by
  induction steps with
  | nil =>
    intro m w v h hle _ _
    exact ⟨fun _ => hle, fun _ => h.shows hle⟩
  | cons s steps ih =>
    intro m w v h hle hok hfuel
    obtain ⟨hallow, hok⟩ := hok
    have hshows := h.shows hle
    cases s with
    | round ads =>
      have hlen : (v.after (.round ads)).entries.length = v.entries.length + ads.length :=
        length_append
      have hcount : added (.round ads :: steps) = ads.length + added steps := rfl
      have hlt : v.entries.length + ads.length < 2 ^ 31 := by
        by_cases hnil : ads = []
        · rw [hnil, length_nil]
          omega
        · have hroom := hallow.2.2 hnil
          omega
      obtain ⟨m₁, hadd, hlisted, hdone⟩ := h.round hallow hlt
      by_cases hfew : v.entries.length + ads.length ≤ 2 ^ 30
      · have hnum : m₁.m_iNowIndexNum ≤ 2 ^ 30 + 1 := by
          rw [hlisted.num, length_append]
          omega
        obtain ⟨code, m', hrun⟩ := hlisted.rearrange_returns hnum
          (by rw [length_append]; omega : _ < fuel)
        obtain ⟨hcode, hat⟩ := hdone code m' hrun
        have hstep : Performs fuel m w v (.round ads) m' m' := ⟨m₁, code, hadd, hrun, hcode, rfl⟩
        rw [obeys_cons_iff hshows hstep, ih hat (by omega) hok (by omega)]
        omega
      -- the sort reads outside of the arrays, or a search does after it
      refine iff_of_false ?_ (by omega)
      intro hobeys
      obtain ⟨-, m', w', ⟨m₂, code, hadd', hrun, -, -⟩, hrest⟩ := hobeys
      rw [hadd] at hadd'
      injection hadd' with hm
      rw [← hm] at hrun
      obtain ⟨-, hat⟩ := hdone code m' hrun
      exact not_shows hat.listed hat.sorted (by omega) (by omega) hrest.shows
    | deleteKey key =>
      obtain ⟨m', hrun, hat⟩ := h.delete hle key
      have hstep : Performs fuel m w v (.deleteKey key) m' w := ⟨hrun, rfl⟩
      rw [obeys_cons_iff hshows hstep]
      exact ih hat hle hok hfuel
    | reopen maxIndexSize' memory =>
      obtain ⟨m', hinit, hsame, hat⟩ := h.reopen hmax hallow (by omega) maxIndexSize' memory
      have hstep : Performs fuel m w v (.reopen maxIndexSize' memory) m' w := ⟨hinit, hsame, rfl⟩
      rw [obeys_cons_iff hshows hstep]
      exact ih hat hle hok hfuel

/-- A new index. -/
theorem indexAt_new (data : Option ByteFile) (maxIndexSize : ℤ) (memory : Parallel ℕ ℤ UInt8) :
    ∃ m, init none data maxIndexSize memory = .ok m ∧ IndexAt maxIndexSize m m .new := by
  refine ⟨_, rfl, ?_, ?_, rfl, ?_⟩
  · constructor
    · rfl
    · exact fun e he => absurd he not_mem_nil
    · exact fun key hkey => absurd hkey not_mem_nil
    · exact fun key hkey => absurd hkey not_mem_nil
    · intro i hi hi'
      exact absurd hi' (Int.not_lt.mpr hi)
    · exact nodup_nil
    · intro i j hi hi'
      exact absurd hi' (Int.not_lt.mpr hi)
    · exact Nat.zero_le _
  · exact SortedOn.of_le (by decide : (0 : ℤ) - 1 ≤ 0)
  · intro hne
    exact absurd rfl hne

/-- **THE INDEX KEEPS ITS CONTRACT**, whatever rounds, deletions and reopenings
    there are, if and only if no more than 2³⁰ entries are added. -/
theorem dense_index_iff (data : Option ByteFile) {maxIndexSize : ℤ}
    (hmax : -2 ^ 31 ≤ maxIndexSize ∧ maxIndexSize < 2 ^ 31) (memory : Parallel ℕ ℤ UInt8)
    (steps : List IndexStep) (hok : Allowed maxIndexSize .new steps) {fuel : ℕ} (hfuel : added steps < fuel) :
    ∃ m, init none data maxIndexSize memory = .ok m ∧
      (Obeys fuel m m .new steps ↔ added steps ≤ 2 ^ 30) := by
  obtain ⟨m, hinit, hat⟩ := indexAt_new data maxIndexSize memory
  have hzero : IndexView.new.entries.length = 0 := rfl
  refine ⟨m, hinit, ?_⟩
  rw [obeys_iff hmax steps hat (by rw [hzero]; decide) hok (by rw [hzero]; omega), hzero, Nat.zero_add]

end Histories

/-- Two rounds, with a deletion between them, and the index opened again. -/
def shortHistory : List IndexStep :=
  [.round [(3, [1, 2]), (1, [7])], .deleteKey 3, .round [(2, [5])], .reopen 0 ⟨fun _ => 0, fun _ => 0, fun _ => 0⟩,
    .deleteKey 1]

theorem indexable_of {key : ℕ} {v : List UInt8} (hkey : key < 2 ^ 64) (hpos : 0 < v.length)
    (hlt : v.length < 2 ^ 31) : Indexable (key, v) := ⟨hkey, hpos, hlt⟩

theorem allowed_shortHistory : Allowed 4 .new shortHistory := by
  refine ⟨⟨?_, by decide, by decide⟩, trivial, ⟨?_, by decide, by decide⟩, cons_ne_nil _ _, trivial, trivial⟩
  · intro e he
    simp only [mem_cons, not_mem_nil, or_false] at he
    obtain he | he := he
    · rw [he]
      exact indexable_of (by decide) (by decide) (by decide)
    · rw [he]
      exact indexable_of (by decide) (by decide) (by decide)
  · intro e he
    rw [mem_singleton.mp he]
    exact indexable_of (by decide) (by decide) (by decide)

theorem dense_index_iff_shortHistory :
    Allowed 4 .new shortHistory ∧ ∃ m, init none none 4 ⟨fun _ => 0, fun _ => 0, fun _ => 0⟩ = .ok m ∧
      Obeys 4 m m .new shortHistory := by
  refine ⟨allowed_shortHistory, ?_⟩
  obtain ⟨m, hinit, hiff⟩ := dense_index_iff none (by decide : -2 ^ 31 ≤ (4 : ℤ) ∧ (4 : ℤ) < 2 ^ 31)
    ⟨fun _ => 0, fun _ => 0, fun _ => 0⟩ shortHistory allowed_shortHistory (by decide : added shortHistory < 4)
  exact ⟨m, hinit, hiff.mpr (by decide)⟩

/-! ## §8. One entry too many. -/

/-- Keys 0, …, `n - 1`, each with a value of one byte. -/
def manyEntries (n : ℕ) : List StoreEntry := (List.range n).map (fun key => (key, [1]))

theorem length_manyEntries (n : ℕ) : (manyEntries n).length = n := by
  unfold manyEntries
  rw [length_map, length_range]

theorem keys_manyEntries (n : ℕ) : (manyEntries n).map Prod.fst = List.range n := by
  unfold manyEntries
  rw [map_map]
  exact map_id _

theorem allows_manyEntries {n : ℕ} {maxIndexSize : ℤ} (hn : n < 2 ^ 64) (hroom : (n : ℤ) < maxIndexSize) :
    IndexView.new.Allows maxIndexSize (.round (manyEntries n)) := by
  refine ⟨?_, ?_, ?_⟩
  · intro e he
    obtain ⟨key, hkey, heq⟩ := mem_map.mp he
    have hlt := mem_range.mp hkey
    rw [← heq]
    exact indexable_of (by omega) (by decide) (by decide)
  · show ((manyEntries n).map Prod.fst).Nodup
    rw [keys_manyEntries]
    exact nodup_range
  · intro _
    rw [length_manyEntries]
    show ((0 : ℕ) : ℤ) + (n : ℤ) < maxIndexSize
    omega

theorem Listed.last_of_manyEntries {m : QDenseIndexManager} {n : ℕ} {del : List ℕ}
    (h : Listed m (manyEntries (n + 1)) del) (hsorted : m.Sorted) :
    m.m_pszKey (m.m_iNowIndexNum - 1) = n := by
  obtain ⟨i, hi, hi', heq⟩ := h.places n (by
    rw [keys_manyEntries]
    exact mem_range.mpr (by omega))
  obtain ⟨v, hmem, -⟩ := h.items (m.m_iNowIndexNum - 1) (by omega) (by omega)
  have hkey := mem_map_of_mem (f := Prod.fst) hmem
  rw [keys_manyEntries, mem_range] at hkey
  have hle := hsorted i (m.m_iNowIndexNum - 1) hi (by omega) (Int.le_refl _)
  omega

/-- 2³⁰ + 1 entries are added and sorted, and the search for the largest key
    reads outside of the array. -/
theorem last_key_is_lost :
    Allowed (2 ^ 31 - 1) .new [.round (manyEntries (2 ^ 30 + 1))] ∧
      ∃ m m₁ m', init none none (2 ^ 31 - 1) ⟨fun _ => 0, fun _ => 0, fun _ => 0⟩ = .ok m ∧
        m.addAll (manyEntries (2 ^ 30 + 1)) = some m₁ ∧
        m₁.rearrangeIndex (2 ^ 30 + 2) = some (0, m') ∧
        ((2 ^ 30, [1]) : StoreEntry) ∈ manyEntries (2 ^ 30 + 1) ∧ m'.searchKey (2 ^ 30) 1 = none ∧
        ¬ Obeys (2 ^ 30 + 2) m m .new [.round (manyEntries (2 ^ 30 + 1))] := by
  obtain ⟨n, hn⟩ : ∃ n : ℕ, n = 2 ^ 30 := ⟨2 ^ 30, rfl⟩
  rw [← hn]
  have hallow : IndexView.new.Allows (2 ^ 31 - 1) (.round (manyEntries (n + 1))) :=
    allows_manyEntries (by omega) (by omega)
  have hmem : ((n, [1]) : StoreEntry) ∈ manyEntries (n + 1) :=
    List.mem_map.mpr ⟨n, List.mem_range.mpr (by omega), rfl⟩
  have hlen := length_manyEntries (n + 1)
  obtain ⟨m, hinit, hat⟩ := indexAt_new none (2 ^ 31 - 1) ⟨fun _ => 0, fun _ => 0, fun _ => 0⟩
  have hzero : IndexView.new.entries.length = 0 := rfl
  obtain ⟨m₁, hadd, hlisted, hdone⟩ := hat.round hallow (by omega)
  have hentries : IndexView.new.entries ++ manyEntries (n + 1) = manyEntries (n + 1) := List.nil_append _
  rw [hentries] at hlisted hdone
  have hne : manyEntries (n + 1) ≠ [] := List.ne_nil_of_mem hmem
  obtain ⟨code, m', hrun⟩ := hlisted.rearrange_returns (by rw [hlisted.num]; omega) (by omega : _ < n + 2)
  obtain ⟨hcode, hat'⟩ := hdone code m' hrun
  have hlisted' : Listed m' (manyEntries (n + 1)) [] := hat'.listed
  have hnum := hlisted'.num
  have hsearch : m'.searchKey n 1 = none := by
    rw [← hlisted'.last_of_manyEntries hat'.sorted]
    exact hlisted'.search_outside hat'.sorted (by omega) (by omega) (by decide)
  rw [hcode hne] at hrun
  refine ⟨⟨hallow, trivial⟩, m, m₁, m', hinit, hadd, hrun, hmem, hsearch, ?_⟩
  intro hobeys
  have htotal := (obeys_iff (by decide) [.round (manyEntries (n + 1))] hat (by rw [hzero]; decide)
    ⟨hallow, trivial⟩ (by rw [hzero]; show 0 + ((manyEntries (n + 1)).length + 0) < n + 2; omega)).mp hobeys
  have hcount : added [.round (manyEntries (n + 1))] = (manyEntries (n + 1)).length := rfl
  rw [hzero, hcount] at htotal
  omega

end QDenseIndexManager

end KalavaPir.Common
