/-
  KalavaPir.Common.QDenseIndexKeys — the dense index as a map.

  The comment of `addKey` says that a repeated key returns 1, but the function
  never looks at the keys it has: a repeated key takes another place of the
  arrays, and after the sort the search finds any one of the places.  A deleted
  key keeps its place too, so it must not be added again either.
-/
import KalavaPir.Common.QDenseIndexRounds

namespace KalavaPir.Common

open KalavaPir.Framework List Function

namespace QDenseIndexManager

/-! ## §1. Histories. -/

/-- A call of one of the functions. -/
inductive KeyStep where
  | addKey (key : ℕ) (vpData : List UInt8)
  | deleteKey (key : ℕ)
  | rearrangeIndex

/-- What the types of the arguments allow. -/
def KeyStep.Passable : KeyStep → Prop
  | .addKey key vpData => key < 2 ^ 64 ∧ vpData.length < 2 ^ 31
  | .deleteKey _ => True
  | .rearrangeIndex => True

/-- Keys are deleted only while the arrays are sorted. -/
def Orderly : Bool → List KeyStep → Prop
  | _, [] => True
  | _, .addKey _ _ :: steps => Orderly false steps
  | rearranged, .deleteKey _ :: steps => rearranged = true ∧ Orderly true steps
  | _, .rearrangeIndex :: steps => Orderly true steps

/-! ## §2. What the index is for. -/

/-- The value of each key that is present; and how many places are taken. -/
structure KeyMap where
  value : ℕ → Option (List UInt8)
  taken : ℕ

namespace KeyMap

/-- No key. -/
def new : KeyMap := ⟨fun _ => none, 0⟩

/-- What `addKey` should return. -/
def answer (p : KeyMap) (maxIndexSize : ℤ) (key : ℕ) (vpData : List UInt8) : ℤ :=
  if (p.value key).isSome then 1
  else if vpData.length = 0 then -1
  else if (p.taken : ℤ) + 1 ≥ maxIndexSize then -2
  else 0

/-- A call, as its purpose is. -/
def after (p : KeyMap) (maxIndexSize : ℤ) : KeyStep → KeyMap
  | .addKey key vpData =>
    if p.answer maxIndexSize key vpData = 0 then ⟨update p.value key (some vpData), p.taken + 1⟩ else p
  | .deleteKey key => { p with value := update p.value key none }
  | .rearrangeIndex => p

end KeyMap

/-- What the searches should say. -/
structure Maps (m : QDenseIndexManager) (p : KeyMap) : Prop where
  found : ∀ key v, p.value key = some v → ∀ maxDataSize : ℤ, (v.length : ℤ) ≤ maxDataSize →
    m.searchKey key maxDataSize = some ((v.length : ℤ), some v)
  missing : ∀ key, p.value key = none → ∀ maxDataSize : ℤ,
    ∃ code, m.searchKey key maxDataSize = some (code, none) ∧ code < 0

/-- **The contract**: each `addKey` returns what it should, one that does not
    return 0 changes nothing, and after a last `rearrangeIndex` the searches are
    right. -/
def Keeps (fuel : ℕ) (maxIndexSize : ℤ) : QDenseIndexManager → KeyMap → List KeyStep → Prop
  | m, p, [] => ∃ code m', m.rearrangeIndex fuel = some (code, m') ∧ Maps m' p
  | m, p, .addKey key vpData :: steps =>
    (m.addKey key vpData).1 = p.answer maxIndexSize key vpData ∧
      ((m.addKey key vpData).1 ≠ 0 → (m.addKey key vpData).2 = m) ∧
      Keeps fuel maxIndexSize (m.addKey key vpData).2 (p.after maxIndexSize (.addKey key vpData)) steps
  | m, p, .deleteKey key :: steps =>
    ∃ code m', m.deleteKey key = some (code, m') ∧
      Keeps fuel maxIndexSize m' (p.after maxIndexSize (.deleteKey key)) steps
  | m, p, .rearrangeIndex :: steps =>
    ∃ code m', m.rearrangeIndex fuel = some (code, m') ∧
      Keeps fuel maxIndexSize m' (p.after maxIndexSize .rearrangeIndex) steps

/-! ## §3. New keys. -/

/-- The entries of the arrays after a call: those that were added. -/
def entriesAfter (maxIndexSize : ℤ) (es : List StoreEntry) : KeyStep → List StoreEntry
  | .addKey key vpData =>
    if vpData.length = 0 ∨ (es.length : ℤ) + 1 ≥ maxIndexSize then es else es ++ [(key, vpData)]
  | .deleteKey _ => es
  | .rearrangeIndex => es

/-- No key is added that was added before. -/
def NewKeys (maxIndexSize : ℤ) : List StoreEntry → List KeyStep → Prop
  | _, [] => True
  | es, .addKey key vpData :: steps =>
    key ∉ es.map Prod.fst ∧ NewKeys maxIndexSize (entriesAfter maxIndexSize es (.addKey key vpData)) steps
  | es, .deleteKey _ :: steps => NewKeys maxIndexSize es steps
  | es, .rearrangeIndex :: steps => NewKeys maxIndexSize es steps

theorem length_le_entriesAfter (maxIndexSize : ℤ) (es : List StoreEntry) (s : KeyStep) :
    es.length ≤ (entriesAfter maxIndexSize es s).length := by
  cases s with
  | addKey key vpData =>
    show es.length ≤ (if vpData.length = 0 ∨ (es.length : ℤ) + 1 ≥ maxIndexSize then es
      else es ++ [(key, vpData)]).length
    split_ifs
    · exact Nat.le_refl _
    · rw [length_append]
      omega
  | deleteKey key | rearrangeIndex => exact Nat.le_refl _

theorem length_le_foldl_entriesAfter (maxIndexSize : ℤ) (steps : List KeyStep) :
    ∀ es : List StoreEntry, es.length ≤ (steps.foldl (entriesAfter maxIndexSize) es).length := by
  induction steps with
  | nil => exact fun es => Nat.le_refl _
  | cons s steps ih =>
    intro es
    exact Nat.le_trans (length_le_entriesAfter maxIndexSize es s) (ih _)

/-! ## §4. One call. -/

/-- **The invariant**: the arrays hold the entries `es`, the flags of the keys
    `del` are set, and the map has the others. -/
structure MapAt (maxIndexSize : ℤ) (m : QDenseIndexManager) (es : List StoreEntry) (del : List ℕ)
    (p : KeyMap) : Prop where
  listed : Listed m es del
  max : m.m_iMaxIndexSize = maxIndexSize
  value : ∀ key v, p.value key = some v ↔ (key, v) ∈ es ∧ key ∉ del
  taken : p.taken = es.length

section Calls

variable {maxIndexSize : ℤ} {m : QDenseIndexManager} {es : List StoreEntry} {del : List ℕ} {p : KeyMap}

/-- The searches are right. -/
theorem MapAt.maps (h : MapAt maxIndexSize m es del p) (hsorted : m.Sorted) (hle : es.length ≤ 2 ^ 30) :
    Maps m p := by
  have hnum : m.m_iNowIndexNum ≤ 2 ^ 30 := by
    rw [h.listed.num]
    omega
  constructor
  · intro key v hvalue maxDataSize hsize
    obtain ⟨hmem, hlive⟩ := (h.value key v).mp hvalue
    exact h.listed.search_found hsorted hnum hmem hlive hsize
  · intro key hnone maxDataSize
    refine h.listed.search_missing hsorted hnum ?_ maxDataSize
    by_cases hdel : key ∈ del
    · exact Or.inr hdel
    refine Or.inl ?_
    intro hmem
    obtain ⟨e, he, hkey⟩ := mem_map.mp hmem
    rw [← hkey] at hdel hnone
    have hsome := (h.value e.1 e.2).mpr ⟨he, hdel⟩
    rw [hnone] at hsome
    exact absurd hsome (by simp)

variable {key : ℕ}

theorem MapAt.absent (h : MapAt maxIndexSize m es del p) (hnew : key ∉ es.map Prod.fst) :
    p.value key = none := by
  rw [Option.eq_none_iff_forall_ne_some]
  intro v hvalue
  exact hnew (mem_map_of_mem (f := Prod.fst) ((h.value key v).mp hvalue).1)

variable {vpData : List UInt8}

section

variable (h : MapAt maxIndexSize m es del p)
include h

theorem MapAt.refused {code : ℤ} (hcode : code ≠ 0) (hadd : m.addKey key vpData = (code, m))
    (hanswer : p.answer maxIndexSize key vpData = code)
    (hwhy : vpData.length = 0 ∨ (es.length : ℤ) + 1 ≥ maxIndexSize) :
    (m.addKey key vpData).1 = p.answer maxIndexSize key vpData ∧
      ((m.addKey key vpData).1 ≠ 0 → (m.addKey key vpData).2 = m) ∧
      MapAt maxIndexSize (m.addKey key vpData).2 (entriesAfter maxIndexSize es (.addKey key vpData)) del
        (p.after maxIndexSize (.addKey key vpData)) := by
  unfold KeyMap.after entriesAfter
  dsimp only
  rw [hadd, hanswer, if_pos hwhy, if_neg hcode]
  exact ⟨rfl, fun _ => rfl, h⟩

/-- **A new key is added**, or refused if there is no value or no room for it. -/
theorem MapAt.addKey (hpass : (KeyStep.addKey key vpData).Passable) (hnew : key ∉ es.map Prod.fst) :
    (m.addKey key vpData).1 = p.answer maxIndexSize key vpData ∧
      ((m.addKey key vpData).1 ≠ 0 → (m.addKey key vpData).2 = m) ∧
      MapAt maxIndexSize (m.addKey key vpData).2 (entriesAfter maxIndexSize es (.addKey key vpData)) del
        (p.after maxIndexSize (.addKey key vpData)) := by
  have habsent := h.absent hnew
  have hnum := h.listed.num
  have hanswer : p.answer maxIndexSize key vpData =
      if vpData.length = 0 then -1 else if (es.length : ℤ) + 1 ≥ maxIndexSize then -2 else 0 := by
    unfold KeyMap.answer
    rw [habsent, h.taken]
    rfl
  by_cases hempty : vpData.length = 0
  · have hadd : m.addKey key vpData = (-1, m) := by
      unfold QDenseIndexManager.addKey
      rw [if_pos hempty]
    rw [if_pos hempty] at hanswer
    exact h.refused (by decide) hadd hanswer (Or.inl hempty)
  by_cases hfull : (es.length : ℤ) + 1 ≥ maxIndexSize
  · have hadd : m.addKey key vpData = (-2, m) := by
      unfold QDenseIndexManager.addKey
      rw [if_neg hempty, hnum, h.max, if_pos hfull]
    rw [if_neg hempty, if_pos hfull] at hanswer
    exact h.refused (by decide) hadd hanswer (Or.inr hfull)
  have hvalid : Indexable (key, vpData) := ⟨hpass.1, Nat.pos_of_ne_zero hempty, hpass.2⟩
  obtain ⟨m', hadd, hlisted, hmax⟩ := h.listed.add hvalid hnew (by rw [hnum, h.max]; omega)
  rw [if_neg hempty, if_neg hfull] at hanswer
  unfold KeyMap.after entriesAfter
  dsimp only
  rw [hadd, hanswer, if_pos rfl, if_neg (by omega)]
  refine ⟨rfl, fun hne => absurd rfl hne, hlisted, hmax.trans h.max, ?_, ?_⟩
  · intro k v
    show update p.value key (some vpData) k = some v ↔ _
    rw [mem_append, mem_singleton]
    by_cases hk : k = key
    · have hlive : key ∉ del := fun hdel => hnew (h.listed.deleted key hdel)
      have hother : (key, v) ∉ es := fun hmem => hnew (mem_map_of_mem (f := Prod.fst) hmem)
      rw [hk, update_self, Option.some_inj, Prod.mk.injEq]
      exact ⟨fun heq => ⟨Or.inr ⟨rfl, heq.symm⟩, hlive⟩,
        fun hmem => (hmem.1.resolve_left hother).2.symm⟩
    · rw [update_of_ne hk, h.value k v, Prod.mk.injEq]
      exact ⟨fun hmem => ⟨Or.inl hmem.1, hmem.2⟩,
        fun hmem => ⟨hmem.1.resolve_right (fun heq => hk heq.1), hmem.2⟩⟩
  · show p.taken + 1 = (es ++ [(key, vpData)]).length
    rw [length_append, length_singleton, h.taken]

/-- **A key is deleted**, whether it was present or not. -/
theorem MapAt.deleteKey (hsorted : m.Sorted) (hle : es.length ≤ 2 ^ 30) (key : ℕ) :
    ∃ code m' del', m.deleteKey key = some (code, m') ∧ m'.Sorted ∧
      MapAt maxIndexSize m' es del' (p.after maxIndexSize (.deleteKey key)) := by
  obtain ⟨m', hrun, hlisted, hsorted', hmax, -, -⟩ := h.listed.delete hsorted (by rw [h.listed.num]; omega) key
  refine ⟨_, m', _, hrun, hsorted', hlisted, hmax.trans h.max, ?_, h.taken⟩
  intro k v
  show update p.value key none k = some v ↔ _
  by_cases hk : k = key
  · rw [hk, update_self]
    refine iff_of_false (by simp) ?_
    intro hmem
    have hkey := mem_map_of_mem (f := Prod.fst) hmem.1
    rw [if_pos hkey] at hmem
    exact hmem.2 mem_cons_self
  rw [update_of_ne hk, h.value k v]
  have hdel : k ∈ (if key ∈ es.map Prod.fst then key :: del else del) ↔ k ∈ del := by
    split_ifs
    · rw [mem_cons]
      exact ⟨fun hor => hor.resolve_left hk, Or.inr⟩
    · rfl
  rw [hdel]

/-- **The arrays are sorted**, which the map does not show. -/
theorem MapAt.rearrangeIndex (hle : es.length ≤ 2 ^ 30) {fuel : ℕ} (hfuel : 2 ^ 30 < fuel) :
    ∃ code m', m.rearrangeIndex fuel = some (code, m') ∧ m'.Sorted ∧
      MapAt maxIndexSize m' es del p := by
  have hnum := h.listed.num
  obtain ⟨code, m', hrun⟩ := h.listed.rearrange_returns (by omega) (by omega : es.length < fuel)
  obtain ⟨hlisted, hsorted, hmax, -⟩ := h.listed.rearrange (by omega) hrun
  exact ⟨code, m', hrun, hsorted, hlisted, hmax.trans h.max, h.value, h.taken⟩

end

end Calls

/-! ## §5. Every history. -/

/-- **From any point on.** -/
theorem MapAt.keeps {maxIndexSize : ℤ} {fuel : ℕ} (hfuel : 2 ^ 30 < fuel) (steps : List KeyStep) :
    ∀ {m : QDenseIndexManager} {es : List StoreEntry} {del : List ℕ} {p : KeyMap} {rearranged : Bool},
    MapAt maxIndexSize m es del p → (rearranged = true → m.Sorted) → (∀ s ∈ steps, s.Passable) →
    Orderly rearranged steps → NewKeys maxIndexSize es steps →
    (steps.foldl (entriesAfter maxIndexSize) es).length ≤ 2 ^ 30 → Keeps fuel maxIndexSize m p steps := by
  induction steps with
  | nil =>
    intro m es del p rearranged h _ _ _ _ hle
    obtain ⟨code, m', hrun, hsorted, hat⟩ := h.rearrangeIndex hle hfuel
    exact ⟨code, m', hrun, hat.maps hsorted hle⟩
  | cons s steps ih =>
    intro m es del p rearranged h hsorted hpass horder hnew hle
    have hes : es.length ≤ 2 ^ 30 := Nat.le_trans (length_le_foldl_entriesAfter maxIndexSize (s :: steps) es) hle
    have hpass' : ∀ s ∈ steps, s.Passable := fun x hx => hpass x (mem_cons_of_mem s hx)
    cases s with
    | addKey key vpData =>
      obtain ⟨hcode, hsame, hat⟩ := h.addKey (hpass _ mem_cons_self) hnew.1
      exact ⟨hcode, hsame, ih hat (fun hfalse => absurd hfalse (by decide)) hpass' horder hnew.2 hle⟩
    | deleteKey key =>
      obtain ⟨code, m', del', hrun, hsorted', hat⟩ := h.deleteKey (hsorted horder.1) hes key
      exact ⟨code, m', hrun, ih hat (fun _ => hsorted') hpass' horder.2 hnew hle⟩
    | rearrangeIndex =>
      obtain ⟨code, m', hrun, hsorted', hat⟩ := h.rearrangeIndex hes hfuel
      exact ⟨code, m', hrun, ih hat (fun _ => hsorted') hpass' horder hnew hle⟩

/-- **THE INDEX IS A MAP** in every history that adds no key twice, and no more
    than 2³⁰ of them. -/
theorem map_of_newKeys (data : Option ByteFile) (maxIndexSize : ℤ) (memory : Parallel ℕ ℤ UInt8)
    (steps : List KeyStep) (hpass : ∀ s ∈ steps, s.Passable) (horder : Orderly false steps)
    (hnew : NewKeys maxIndexSize [] steps) (hfew : (steps.foldl (entriesAfter maxIndexSize) []).length ≤ 2 ^ 30)
    {fuel : ℕ} (hfuel : 2 ^ 30 < fuel) :
    ∃ m, init none data maxIndexSize memory = .ok m ∧ Keeps fuel maxIndexSize m .new steps := by
  obtain ⟨m, hinit, hat⟩ := indexAt_new data maxIndexSize memory
  have hmap : MapAt maxIndexSize m [] [] .new := by
    refine ⟨hat.listed, hat.max, ?_, rfl⟩
    intro key v
    exact ⟨fun hsome => absurd hsome (by simp [KeyMap.new]), fun hmem => absurd hmem.1 List.not_mem_nil⟩
  exact ⟨m, hinit, hmap.keeps hfuel steps (fun hfalse => absurd hfalse (by decide)) hpass horder hnew hfew⟩

/-- A key is added, and another one between two sorts, with a deletion. -/
def newKeysHistory : List KeyStep :=
  [.addKey 3 [1, 2], .rearrangeIndex, .deleteKey 3, .addKey 1 [7], .addKey 2 []]

theorem passable_newKeysHistory : ∀ s ∈ newKeysHistory, s.Passable := by
  intro s hs
  simp only [newKeysHistory, mem_cons, not_mem_nil, or_false] at hs
  obtain hs | hs | hs | hs | hs := hs
  all_goals rw [hs]
  · exact ⟨by decide, by decide⟩
  · trivial
  · trivial
  · exact ⟨by decide, by decide⟩
  · exact ⟨by decide, by decide⟩

theorem map_of_newKeys_newKeysHistory :
    Orderly false newKeysHistory ∧ NewKeys 4 [] newKeysHistory ∧
      (newKeysHistory.foldl (entriesAfter 4) []).length = 2 ∧
      ∃ m, init none none 4 ⟨fun _ => 0, fun _ => 0, fun _ => 0⟩ = .ok m ∧
        Keeps (2 ^ 30 + 1) 4 m .new newKeysHistory := by
  have horder : Orderly false newKeysHistory := ⟨rfl, trivial⟩
  have hnew : NewKeys 4 [] newKeysHistory := ⟨by decide, by decide, by decide, trivial⟩
  have hlength : (newKeysHistory.foldl (entriesAfter 4) []).length = 2 := by decide
  exact ⟨horder, hnew, hlength, map_of_newKeys none 4 ⟨fun _ => 0, fun _ => 0, fun _ => 0⟩ newKeysHistory
    passable_newKeysHistory horder hnew (by rw [hlength]; decide) (Nat.lt_succ_self _)⟩

/-! ## §6. Repeated keys. -/

/-- The second `addKey` of a key returns 0; and a key that was deleted and added
    again is not found. -/
theorem repeated_key_is_added :
    ∃ m m₁ m₂ m₃ m₄ m₅ : QDenseIndexManager,
      init none none 4 ⟨fun _ => 0, fun _ => 0, fun _ => 0⟩ = .ok m ∧
      m.addKey 1 [7] = (0, m₁) ∧ (m₁.addKey 1 [8]).1 = 0 ∧
      m₁.rearrangeIndex 3 = some (0, m₂) ∧ m₂.deleteKey 1 = some (0, m₃) ∧ m₃.addKey 1 [8] = (0, m₄) ∧
      m₄.rearrangeIndex 3 = some (0, m₅) ∧ m₅.searchKey 1 8 = some (-3, none) ∧
      ∀ fuel, ¬ Keeps fuel 4 m .new [.addKey 1 [7], .addKey 1 [8]] := by
  refine ⟨_, _, _, _, _, _, rfl, rfl, rfl, rfl, rfl, rfl, rfl, ?_, ?_⟩
  · decide
  · intro fuel hkeeps
    exact absurd hkeeps.2.2.1 (by decide)

end QDenseIndexManager

end KalavaPir.Common
