/-
  KalavaPir.Framework.Histories — objects that answer calls, and refinement.

  An object is a function `S → L → Except Stop (A × S)`: in the state `s` the
  call `l` returns an answer and leaves a state, or it does not return, because
  it waits for another caller or because its behaviour is undefined.  A history
  is a list of calls made one after another.
-/
import Mathlib.Data.List.Basic

namespace KalavaPir.Framework

variable {S T L A : Type}

/-! ## §1. Outcomes and histories. -/

/-- Why a call does not return. -/
inductive Stop
  | waits
  | undefined
  deriving DecidableEq, Repr

/-- Go on with a result, if the computation of it is defined. -/
def checked {B C : Type} (x : Option B) (f : B → Except Stop C) : Except Stop C :=
  match x with
  | none => .error .undefined
  | some b => f b

@[simp] theorem checked_some {B C : Type} (b : B) (f : B → Except Stop C) : checked (some b) f = f b := rfl

@[simp] theorem checked_none {B C : Type} (f : B → Except Stop C) : checked none f = .error .undefined := rfl

/-- One more answer in front of those of a history. -/
def consAnswer (a : A) : Except Stop (List A × S) → Except Stop (List A × S)
  | .error e => .error e
  | .ok (as, s) => .ok (a :: as, s)

/-- The answers of the calls made one after another, and the state they leave. -/
def history (step : S → L → Except Stop (A × S)) : S → List L → Except Stop (List A × S)
  | s, [] => .ok ([], s)
  | s, l :: ls =>
    match step s l with
    | .error e => .error e
    | .ok (a, s') => consAnswer a (history step s' ls)

/-- Two outcomes no caller can tell apart, in related states. -/
inductive Matched (R : S → T → Prop) : Except Stop (A × S) → Except Stop (A × T) → Prop
  | answer {a : A} {s : S} {t : T} (h : R s t) : Matched R (.ok (a, s)) (.ok (a, t))
  | stop (e : Stop) : Matched R (.error e) (.error e)

/-- The answers of a history that ends. -/
def answers : Except Stop (List A × S) → Option (List A)
  | .error _ => none
  | .ok (as, _) => some as

variable {R : S → T → Prop} {s : S} {step : S → L → Except Stop (A × S)} {ls : List L} {as : List A}

variable {x : Except Stop (List A × S)} {y : Except Stop (List A × T)} {a : A} {e : Stop} {s' : S}

theorem Matched.answers_eq (h : Matched R x y) :
    answers x = answers y := by
  cases h with
  | answer _ => rfl
  | stop _ => rfl

theorem matched_ok_iff {b : A} {t : T} : Matched R (.ok (a, s)) (.ok (b, t)) ↔ a = b ∧ R s t := by
  constructor
  · intro h
    cases h with
    | answer h => exact ⟨rfl, h⟩
  · rintro ⟨rfl, h⟩
    exact .answer h

theorem matched_error_iff {f : Stop} :
    Matched R (.error e : Except Stop (A × S)) (.error f : Except Stop (A × T)) ↔ e = f := by
  constructor
  · intro h
    cases h with
    | stop e => rfl
  · intro h
    rw [h]
    exact .stop f

theorem Matched.mono {R' : S → T → Prop} {x : Except Stop (A × S)} {y : Except Stop (A × T)}
    (h : Matched R x y) (hR : ∀ s t, R s t → R' s t) : Matched R' x y := by
  cases h with
  | answer h => exact .answer (hR _ _ h)
  | stop e => exact .stop e

theorem not_matched_error_ok {b : A × T} :
    ¬ Matched R (.error e : Except Stop (A × S)) (.ok b) := nofun

theorem not_matched_ok_error {a : A × S} :
    ¬ Matched R (.ok a) (.error e : Except Stop (A × T)) := nofun

theorem matched_consAnswer_iff :
    Matched R (consAnswer a x) (consAnswer a y) ↔ Matched R x y := by
  cases x with
  | error e =>
    cases y with
    | error f => exact matched_error_iff.trans matched_error_iff.symm
    | ok y => exact iff_of_false not_matched_error_ok not_matched_error_ok
  | ok x =>
    cases y with
    | error f => exact iff_of_false not_matched_ok_error not_matched_ok_error
    | ok y =>
      refine matched_ok_iff.trans (Iff.trans ?_ matched_ok_iff.symm)
      rw [List.cons.injEq, and_assoc]
      exact and_iff_right rfl

/-- What is left after the first calls. -/
theorem history_append (h : history step s ls = .ok (as, s')) (ls' : List L) :
    history step s (ls ++ ls') = as.foldr consAnswer (history step s' ls') := by
  induction ls generalizing s as with
  | nil =>
    cases h
    rfl
  | cons l ls ih =>
    rw [history] at h
    rw [List.cons_append, history]
    cases hs : step s l with
    | error e =>
      rw [hs] at h
      cases h
    | ok x =>
      obtain ⟨b, s₁⟩ := x
      rw [hs] at h
      dsimp only at h ⊢
      cases hrest : history step s₁ ls with
      | error e =>
        rw [hrest] at h
        cases h
      | ok y =>
        obtain ⟨bs, s₂⟩ := y
        rw [hrest] at h
        cases h
        rw [ih hrest, List.foldr_cons]

theorem history_concat {l : L} {s'' : S} (h : history step s ls = .ok (as, s'))
    (hl : step s' l = .ok (a, s'')) : history step s (ls ++ [l]) = .ok (as ++ [a], s'') := by
  have hone : history step s' [l] = .ok ([a], s'') := by
    rw [history, hl]
    rfl
  rw [history_append h, hone]
  clear h
  induction as with
  | nil => rfl
  | cons b as ih => rw [List.foldr_cons, ih, List.cons_append]; rfl

theorem matched_append_iff {spec : T → L → Except Stop (A × T)} {t t' : T}
    (hs : history step s ls = .ok (as, s')) (ht : history spec t ls = .ok (as, t')) (ls' : List L) :
    Matched R (history step s (ls ++ ls')) (history spec t (ls ++ ls')) ↔
      Matched R (history step s' ls') (history spec t' ls') := by
  rw [history_append hs, history_append ht]
  clear hs ht
  induction as with
  | nil => rfl
  | cons a as ih => rw [List.foldr_cons, List.foldr_cons, matched_consAnswer_iff, ih]

/-! ## §2. Refinement, call by call. -/

section Refinement

variable (step : S → L → Except Stop (A × S)) (spec : T → L → Except Stop (A × T))

/-- Every call of the list meets `Q` in the states it finds, up to the first
    one that gets different answers or none. -/
def Calls (Q : S → T → L → Prop) : S → T → List L → Prop
  | _, _, [] => True
  | s, t, l :: ls =>
    Q s t l ∧ ∀ a s' t', step s l = .ok (a, s') → spec t l = .ok (a, t') → Calls Q s' t' ls

variable {step spec}

variable {Q G : S → T → L → Prop} {R : S → T → Prop} {s : S} {t : T}

theorem Calls.of_invariant (Inv : T → Prop) (hkeep : ∀ t l a t', Inv t → spec t l = .ok (a, t') → Inv t')
    (hQ : ∀ s t l, Inv t → Q s t l) :
    ∀ (ls : List L) (s : S) (t : T), Inv t → Calls step spec Q s t ls
  | [], _, _, _ => trivial
  | l :: ls, s, t, hI =>
    ⟨hQ s t l hI, fun a s' t' _ ht => Calls.of_invariant Inv hkeep hQ ls s' t' (hkeep t l a t' hI ht)⟩

theorem Calls.of_forall {P : L → Prop} :
    ∀ {ls : List L} {s : S} {t : T}, (∀ l ∈ ls, P l) → Calls step spec (fun _ _ l => P l) s t ls
  | [], _, _, _ => trivial
  | l :: _, _, _, h =>
    ⟨h l List.mem_cons_self, fun _ _ _ _ _ => Calls.of_forall fun l' hl' => h l' (List.mem_cons_of_mem _ hl')⟩

/-- The calls of a list, replayed. -/
def replayCalls [DecidableEq A] (step : S → L → Except Stop (A × S))
    (spec : T → L → Except Stop (A × T)) (Q : S → T → L → Prop) [∀ s t l, Decidable (Q s t l)] :
    S → T → List L → Bool
  | _, _, [] => true
  | s, t, l :: ls =>
    decide (Q s t l) &&
      match step s l, spec t l with
      | .ok (a, s'), .ok (b, t') => if a = b then replayCalls step spec Q s' t' ls else true
      | _, _ => true

theorem calls_iff_replayCalls [DecidableEq A] [∀ s t l, Decidable (Q s t l)] :
    ∀ (ls : List L) (s : S) (t : T),
      Calls step spec Q s t ls ↔ replayCalls step spec Q s t ls = true
  | [], _, _ => iff_of_true trivial rfl
  | l :: ls, s, t => by
    rw [Calls, replayCalls, Bool.and_eq_true, decide_eq_true_iff]
    refine and_congr_right fun _ => ?_
    cases hs : step s l with
    | error e => simp
    | ok x =>
      cases ht : spec t l with
      | error f => simp
      | ok y =>
        obtain ⟨a, s'⟩ := x
        obtain ⟨b, t'⟩ := y
        dsimp only
        by_cases hab : a = b
        · subst hab
          rw [if_pos rfl, ← calls_iff_replayCalls ls s' t']
          constructor
          · intro h
            exact h a s' t' rfl rfl
          · intro h a' s₁ t₁ hs₁ ht₁
            cases hs₁
            cases ht₁
            exact h
        · rw [if_neg hab]
          refine iff_of_true (fun c s₁ t₁ hs₁ ht₁ => ?_) rfl
          cases hs₁
          cases ht₁
          exact absurd rfl hab

instance [DecidableEq A] {Q : S → T → L → Prop} [∀ s t l, Decidable (Q s t l)] (s : S) (t : T)
    (ls : List L) : Decidable (Calls step spec Q s t ls) :=
  decidable_of_iff _ (calls_iff_replayCalls ls s t).symm

variable {Q' : S → T → L → Prop}

theorem Calls.refine (Inv : S → T → Prop)
    (hkeep : ∀ s t l a s' t', Inv s t → G s t l → Q s t l → step s l = .ok (a, s') → spec t l = .ok (a, t') → Inv s' t')
    (hQ : ∀ s t l, Inv s t → G s t l → Q s t l → Q' s t l) :
    ∀ (ls : List L) (s : S) (t : T), Inv s t → Calls step spec G s t ls →
      Calls step spec Q s t ls → Calls step spec Q' s t ls
  | [], _, _, _, _, _ => trivial
  | l :: ls, s, t, hI, hG, h =>
    ⟨hQ s t l hI hG.1 h.1, fun a s' t' hs ht =>
      Calls.refine Inv hkeep hQ ls s' t' (hkeep s t l a s' t' hI hG.1 h.1 hs ht)
        (hG.2 a s' t' hs ht) (h.2 a s' t' hs ht)⟩

theorem calls_iff_calls (Inv : S → T → Prop)
    (hkeep : ∀ s t l a s' t', Inv s t → G s t l → Q' s t l → step s l = .ok (a, s') → spec t l = .ok (a, t') → Inv s' t')
    (hiff : ∀ s t l, Inv s t → G s t l → (Q s t l ↔ Q' s t l)) (ls : List L) (s : S) (t : T) (hI : Inv s t)
    (hG : Calls step spec G s t ls) : Calls step spec Q s t ls ↔ Calls step spec Q' s t ls := by
  constructor
  · refine Calls.refine Inv (fun s t l a s' t' hI hG hQ => ?_) (fun s t l hI hG => (hiff s t l hI hG).mp)
      ls s t hI hG
    exact hkeep s t l a s' t' hI hG ((hiff s t l hI hG).mp hQ)
  · exact Calls.refine Inv hkeep (fun s t l hI hG => (hiff s t l hI hG).mpr) ls s t hI hG

/-- Calls that match one after another have matching histories. -/
theorem Calls.history :
    ∀ {ls : List L} {s : S} {t : T}, R s t →
      Calls step spec (fun s t l => Matched R (step s l) (spec t l)) s t ls →
      Matched R (Framework.history step s ls) (Framework.history spec t ls)
  | [], _, _, hR, _ => .answer hR
  | l :: ls, s, t, _, h => by
    obtain ⟨hhead, hrest⟩ := h
    unfold Framework.history
    generalize step s l = x at hhead hrest
    generalize spec t l = y at hhead hrest
    cases hhead with
    | stop e => exact .stop e
    | answer hR' => exact matched_consAnswer_iff.mpr (Calls.history hR' (hrest _ _ _ rfl rfl))

/-- **CALLS THAT MEET `Q`** have matching histories, if `Q` is enough for one. -/
theorem Calls.matched (hstep : ∀ s t l, R s t → Q s t l → Matched R (step s l) (spec t l)) {ls : List L}
    (hR : R s t) (h : Calls step spec Q s t ls) :
    Matched R (Framework.history step s ls) (Framework.history spec t ls) := by
  refine Calls.history hR (Calls.refine (G := Q) R ?_ (fun s t l hR _ => hstep s t l hR) ls s t hR h h)
  intro s t l a s' t' hR _ hQ hs ht
  have hone := hstep s t l hR hQ
  rw [hs, ht] at hone
  exact (matched_ok_iff.mp hone).2

/-- A call matches if the history of that call alone does. -/
theorem matched_of_history_one {l : L} (h : Matched R (history step s [l]) (history spec t [l])) :
    Matched R (step s l) (spec t l) := by
  unfold history at h
  cases hs : step s l with
  | error e =>
    rw [hs] at h
    cases ht : spec t l with
    | error f =>
      rw [ht] at h
      exact matched_error_iff.mpr (matched_error_iff.mp h)
    | ok b =>
      rw [ht] at h
      exact absurd h not_matched_error_ok
  | ok a =>
    rw [hs] at h
    cases ht : spec t l with
    | error f =>
      rw [ht] at h
      exact absurd h not_matched_ok_error
    | ok b =>
      rw [ht] at h
      obtain ⟨hanswers, hR⟩ := matched_ok_iff.mp h
      exact matched_ok_iff.mpr ⟨(List.cons.inj hanswers).1, hR⟩

theorem calls_of_matched :
    ∀ {ls : List L} {s : S} {t : T},
      (∀ n, Matched R (history step s (ls.take n)) (history spec t (ls.take n))) →
      Calls step spec (fun s t l => Matched R (step s l) (spec t l)) s t ls
  | [], _, _, _ => trivial
  | l :: ls, s, t, h => by
    refine ⟨matched_of_history_one (h 1), fun a s' t' hs ht => calls_of_matched fun n => ?_⟩
    have hn := h (n + 1)
    rw [List.take_succ_cons] at hn
    simp only [history, hs, ht] at hn
    exact matched_consAnswer_iff.mp hn

theorem Calls.take :
    ∀ {ls : List L} {s : S} {t : T} (n : ℕ), Calls step spec Q s t ls →
      Calls step spec Q s t (ls.take n)
  | _, _, _, 0, _ => trivial
  | [], _, _, _ + 1, _ => trivial
  | _ :: _, _, _, n + 1, h => ⟨h.1, fun a s' t' hs ht => (h.2 a s' t' hs ht).take n⟩

/-- **Objects whose calls match have matching histories.** -/
theorem Matched.history (hstep : ∀ s t l, R s t → Matched R (step s l) (spec t l)) (hR : R s t)
    (ls : List L) : Matched R (Framework.history step s ls) (Framework.history spec t ls) := by
  refine Calls.matched (Q := fun _ _ _ => True) (fun s t l hR _ => hstep s t l hR) hR ?_
  exact Calls.of_invariant (fun _ => True) (fun _ _ _ _ _ _ => trivial) (fun _ _ _ _ => trivial) ls s t trivial

/-- **EXACTNESS.**  If, between related states inside the invariant, a call that
    meets `Q` matches and keeps the invariant while any other call shows, then a
    history of calls that meet `G` matches at all its beginnings exactly when every
    call meets `Q`. -/
theorem matched_iff_calls (Inv : S → T → Prop)
    (hgood : ∀ s t l, R s t → Inv s t → G s t l → Q s t l → Matched (fun s t => R s t ∧ Inv s t) (step s l) (spec t l))
    (hbad : ∀ s t l, R s t → Inv s t → G s t l → ¬ Q s t l → ¬ Matched R (step s l) (spec t l))
    {ls : List L} (hR : R s t) (hI : Inv s t) (hG : Calls step spec G s t ls) :
    (∀ n, Matched R (history step s (ls.take n)) (history spec t (ls.take n))) ↔
      Calls step spec Q s t ls := by
  have hcalls : Calls step spec (fun s t l => Matched R (step s l) (spec t l)) s t ls ↔
      Calls step spec Q s t ls := by
    refine calls_iff_calls (fun s t => R s t ∧ Inv s t) ?_ ?_ ls s t ⟨hR, hI⟩ hG
    · intro s t l a s' t' h hG hQ hs ht
      have hm := hgood s t l h.1 h.2 hG hQ
      rw [hs, ht] at hm
      exact (matched_ok_iff.mp hm).2
    · intro s t l h hG
      constructor
      · intro hm
        by_contra hQ
        exact hbad s t l h.1 h.2 hG hQ hm
      · intro hQ
        exact (hgood s t l h.1 h.2 hG hQ).mono fun _ _ hRI => hRI.1
  rw [← hcalls]
  exact ⟨calls_of_matched, fun h n => Calls.history hR (h.take n)⟩

end Refinement

end KalavaPir.Framework
