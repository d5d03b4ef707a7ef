/-
  KalavaPir.Framework.Assignments — the ordered map that a list of assignments leaves.

  A key is given a value or taken out, again and again.  What is left is told from
  the list of these edits alone: the keys in the order in which they came in, each
  with its last value.
-/
import Mathlib.Data.List.Induction
import Mathlib.Data.List.Nodup

namespace KalavaPir.Framework

open List

/-- A key is given a value, or taken out. -/
inductive Edit (K V : Type)
  | put (k : K) (v : V)
  | drop (k : K)
  deriving DecidableEq

variable {K V : Type} [DecidableEq K] {k j : K} {v : V} {es : List (Edit K V)}

/-- The keys after an edit; a new one comes last. -/
def editKeys (ks : List K) : Edit K V → List K
  | .put k _ => if k ∈ ks then ks else ks ++ [k]
  | .drop k => ks.erase k

/-- The value of `k` after an edit. -/
def editValue (k : K) (old : Option V) : Edit K V → Option V
  | .put j v => if j = k then some v else old
  | .drop j => if j = k then none else old

/-- The keys that are in, in the order in which they came. -/
def keysLeft (es : List (Edit K V)) : List K := es.foldl editKeys []

/-- **THE LAST VALUE** given to `k` and not followed by its being taken out. -/
def lastValue (k : K) (es : List (Edit K V)) : Option V := es.foldl (editValue k) none

/-- The keys, each with its last value. -/
def entries (es : List (Edit K V)) : List (K × V) :=
  (keysLeft es).filterMap fun k => (lastValue k es).map (Prod.mk k)

@[simp] theorem keysLeft_concat (es : List (Edit K V)) (e : Edit K V) :
    keysLeft (es ++ [e]) = editKeys (keysLeft es) e := by
  unfold keysLeft
  rw [foldl_append]
  rfl

@[simp] theorem lastValue_concat (k : K) (es : List (Edit K V)) (e : Edit K V) :
    lastValue k (es ++ [e]) = editValue k (lastValue k es) e := by
  unfold lastValue
  rw [foldl_append]
  rfl

theorem nodup_keysLeft (es : List (Edit K V)) : (keysLeft es).Nodup := by
  induction es using List.reverseRecOn with
  | nil => exact nodup_nil
  | append_singleton es e ih =>
    rw [keysLeft_concat]
    cases e with
    | put k v =>
      show (if k ∈ keysLeft es then keysLeft es else keysLeft es ++ [k]).Nodup
      by_cases hin : k ∈ keysLeft es
      · rw [if_pos hin]
        exact ih
      rw [if_neg hin]
      apply nodup_append.mpr
      refine ⟨ih, nodup_singleton k, fun a ha b hb hab => ?_⟩
      rw [mem_singleton.mp hb] at hab
      exact hin (hab ▸ ha)
    | drop k => exact ih.erase k

/-- **A KEY IS IN** when it has a last value. -/
theorem mem_keysLeft_iff (k : K) (es : List (Edit K V)) : k ∈ keysLeft es ↔ (lastValue k es).isSome = true := by
  induction es using List.reverseRecOn with
  | nil => exact iff_of_false not_mem_nil Bool.false_ne_true
  | append_singleton es e ih =>
    rw [keysLeft_concat, lastValue_concat]
    cases e with
    | put j v =>
      show k ∈ (if j ∈ keysLeft es then keysLeft es else keysLeft es ++ [j]) ↔
        (if j = k then some v else lastValue k es).isSome = true
      by_cases hjk : j = k
      · rw [if_pos hjk, hjk]
        by_cases hin : k ∈ keysLeft es
        · rw [if_pos hin]
          exact iff_of_true hin rfl
        · rw [if_neg hin]
          exact iff_of_true (mem_append_right _ (mem_singleton_self k)) rfl
      · rw [if_neg hjk, ← ih]
        by_cases hin : j ∈ keysLeft es
        · rw [if_pos hin]
        · rw [if_neg hin, mem_append, mem_singleton]
          exact or_iff_left fun h => hjk h.symm
    | drop j =>
      show k ∈ (keysLeft es).erase j ↔ (if j = k then none else lastValue k es).isSome = true
      rw [(nodup_keysLeft es).mem_erase_iff]
      by_cases hjk : j = k
      · rw [if_pos hjk]
        exact iff_of_false (fun h => h.1 hjk.symm) Bool.false_ne_true
      · rw [if_neg hjk, ih]
        exact and_iff_right fun h => hjk h.symm

theorem mem_entries_iff : (k, v) ∈ entries es ↔ lastValue k es = some v := by
  unfold entries
  rw [mem_filterMap]
  constructor
  · rintro ⟨j, -, hj⟩
    obtain ⟨w, hw, heq⟩ := Option.map_eq_some_iff.mp hj
    cases heq
    exact hw
  · intro h
    have hin : k ∈ keysLeft es := (mem_keysLeft_iff k es).mpr (by rw [h]; rfl)
    exact ⟨k, hin, by rw [h]; rfl⟩

theorem map_fst_entries (es : List (Edit K V)) : (entries es).map Prod.fst = keysLeft es := by
  unfold entries
  have hall : ∀ k ∈ keysLeft es, (lastValue k es).isSome = true := fun k hk => (mem_keysLeft_iff k es).mp hk
  generalize keysLeft es = ks at hall
  induction ks with
  | nil => rfl
  | cons k ks ih =>
    obtain ⟨w, hw⟩ := Option.isSome_iff_exists.mp (hall k mem_cons_self)
    rw [filterMap_cons, hw, Option.map_some, map_cons, ih fun j hj => hall j (mem_cons_of_mem k hj)]

/-- **AN ENTRY** has the last value of its key. -/
theorem find?_entries (k : K) (es : List (Edit K V)) :
    (entries es).find? (fun p => p.1 = k) = (lastValue k es).map (Prod.mk k) := by
  cases hfind : (entries es).find? fun p => decide (p.1 = k) with
  | none =>
    cases hv : lastValue k es with
    | none => rfl
    | some v =>
      have hall := find?_eq_none.mp hfind (k, v) (mem_entries_iff.mpr hv)
      exact absurd (decide_eq_true rfl) hall
  | some p =>
    have hkey : p.1 = k := by
      have hdec := find?_some hfind
      exact of_decide_eq_true hdec
    have hin : (p.1, p.2) ∈ entries es := mem_of_find?_eq_some hfind
    rw [mem_entries_iff, hkey] at hin
    rw [hin, Option.map_some, ← hkey]

/-- One key given a value: an entry of its own is changed, or comes last. -/
theorem entries_put (k : K) (v : V) (es : List (Edit K V)) : entries (es ++ [.put k v]) =
      if k ∈ keysLeft es then (entries es).map fun p => if p.1 = k then (k, v) else p
      else entries es ++ [(k, v)] := by
  have hvalue : ∀ j, lastValue j (es ++ [.put k v]) = if k = j then some v else lastValue j es := fun j =>
    lastValue_concat j es _
  unfold entries
  rw [keysLeft_concat]
  show (if k ∈ keysLeft es then keysLeft es else keysLeft es ++ [k]).filterMap _ = _
  by_cases hin : k ∈ keysLeft es
  · rw [if_pos hin, if_pos hin, map_filterMap]
    apply filterMap_congr
    intro j hj
    rw [hvalue]
    obtain ⟨w, hw⟩ := Option.isSome_iff_exists.mp ((mem_keysLeft_iff j es).mp hj)
    rw [hw, Option.map_some, Option.map_some]
    by_cases hkj : k = j
    · rw [if_pos hkj, if_pos hkj.symm, hkj]
      rfl
    · rw [if_neg hkj, if_neg fun h => hkj h.symm]
      rfl
  · rw [if_neg hin, if_neg hin, filterMap_append]
    congr 1
    · apply filterMap_congr
      intro j hj
      have hkj : k ≠ j := fun h => hin (h ▸ hj)
      rw [hvalue, if_neg hkj]
    · rw [filterMap_cons, hvalue, if_pos rfl]
      rfl

/-- One key taken out: the other entries stay in their order. -/
theorem entries_drop (k : K) (es : List (Edit K V)) :
    entries (es ++ [.drop k]) = (entries es).filter fun p => p.1 ≠ k := by
  have hvalue : ∀ j, lastValue j (es ++ [.drop k]) = if k = j then none else lastValue j es := fun j =>
    lastValue_concat j es _
  unfold entries
  rw [keysLeft_concat]
  show ((keysLeft es).erase k).filterMap _ = _
  rw [(nodup_keysLeft es).erase_eq_filter, filterMap_filter, filter_filterMap]
  apply filterMap_congr
  intro j _
  rw [hvalue]
  by_cases hkj : k = j
  · subst hkj
    rw [if_pos rfl, bne_self_eq_false, if_neg Bool.false_ne_true]
    cases lastValue k es with
    | none => rfl
    | some w => simp [Option.filter]
  have hjk : j ≠ k := fun h => hkj h.symm
  rw [if_neg hkj, if_pos (bne_iff_ne.mpr hjk)]
  cases lastValue j es with
  | none => rfl
  | some w => simp [Option.filter, hjk]

end KalavaPir.Framework
