/-
  KalavaPir.Framework.CallTree — the calls that a recursion makes.

  `ComesTo work t s t' s' w`: the recursion for the task `t` in the state `s` comes
  to a call for `t'` in the state `s'`, while the calls around it have `w` tasks
  left to do.  Those are the tasks that the loop with a stack keeps below `t'`.
-/
import KalavaPir.Framework.TaskStack

namespace KalavaPir.Framework

variable {σ τ : Type}

/-! ## §1. Calls, and rounds of the loop. -/

section Source

variable (work : τ → σ → Option (σ × List τ))

/-- The calls of the recursion for a task. -/
inductive ComesTo : τ → σ → τ → σ → ℕ → Prop
  | here (t : τ) (s : σ) : ComesTo t s t s 0
  | inside {t u t' : τ} {s s₁ s' : σ} {r : σ × List τ} {pre post : List τ} {fuel w : ℕ}
      (hwork : work t s = some r) (hsub : r.2 = pre ++ u :: post)
      (hpre : inTurn (recur work fuel) pre r.1 = some s₁) (hcall : ComesTo u s₁ t' s' w) :
      ComesTo t s t' s' (w + post.length)

/-- `k` rounds of the loop: the stack and the state that they leave, unless the
    loop has come to its end. -/
def roundsOf : ℕ → List τ → σ → Option (List τ × σ)
  | 0, ts, s => some (ts, s)
  | _ + 1, [], _ => none
  | k + 1, t :: ts, s => (work t s).bind fun r => roundsOf k (r.2 ++ ts) r.1

/-- Every task does `P`, one after the other. -/
def InTurn (P : τ → σ → σ → Prop) : List τ → σ → σ → Prop
  | [], s, s' => s = s'
  | t :: ts, s, s' => ∃ s₁, P t s s₁ ∧ InTurn P ts s₁ s'

end Source

variable {work : τ → σ → Option (σ × List τ)} {s s' s₁ s₂ : σ} {t t' : τ} {ts ts' : List τ}

/-! ## §2. The stack of the loop. -/

theorem roundsOf_add {k : ℕ} (k' : ℕ) : ∀ {ts s}, roundsOf work k ts s = some (ts', s') →
    roundsOf work (k + k') ts s = roundsOf work k' ts' s' := by
  induction k with
  | zero =>
    intro ts s h
    cases h
    rw [Nat.zero_add]
  | succ k ih =>
    intro ts s h
    rw [Nat.succ_add]
    cases ts with
    | nil => cases h
    | cons t ts =>
      obtain ⟨r, hwork, hrest⟩ := Option.bind_eq_some_iff.mp h
      show (work t s).bind _ = _
      rw [hwork, Option.bind_some]
      exact ih hrest

/-- The rounds for the tasks on top leave the rest of the stack. -/
theorem rounds_of_recur (fuel : ℕ) : ∀ (ts rest : List τ) {s s₁ : σ},
    inTurn (recur work fuel) ts s = some s₁ → ∃ k, roundsOf work k (ts ++ rest) s = some (rest, s₁) := by
  induction fuel with
  | zero =>
    intro ts rest s s₁ h
    cases ts with
    | nil =>
      cases h
      exact ⟨0, rfl⟩
    | cons t ts => cases h
  | succ fuel ih =>
    intro ts
    induction ts with
    | nil =>
      intro rest s s₁ h
      cases h
      exact ⟨0, rfl⟩
    | cons t ts iht =>
      intro rest s s₁ h
      -- the subtasks of `t`, then the tasks behind it
      obtain ⟨s₂, ht, hts⟩ := Option.bind_eq_some_iff.mp h
      obtain ⟨r, hwork, hsub⟩ := Option.bind_eq_some_iff.mp ht
      obtain ⟨k₁, hk₁⟩ := ih r.2 (ts ++ rest) hsub
      obtain ⟨k₂, hk₂⟩ := iht rest hts
      refine ⟨k₁ + k₂ + 1, Option.bind_eq_some_iff.mpr ⟨r, hwork, ?_⟩⟩
      exact (roundsOf_add k₂ hk₁).trans hk₂

variable {w : ℕ}

/-- **From a call to the loop**: the loop comes to it, with what waits below. -/
theorem rounds_of_calls (h : ComesTo work t s t' s' w) : ∀ rest : List τ, ∃ k rest',
    roundsOf work k (t :: rest) s = some (t' :: rest', s') ∧ rest'.length = w + rest.length := by
  induction h with
  | here t s => exact fun rest => ⟨0, rest, rfl, (Nat.zero_add _).symm⟩
  | inside hwork hsub hpre hcall ih =>
    rename_i t u t' s s₁ s' r pre post fuel w
    intro rest
    obtain ⟨k₁, hk₁⟩ := rounds_of_recur fuel pre (u :: post ++ rest) hpre
    obtain ⟨k₂, rest', hk₂, hlen⟩ := ih (post ++ rest)
    refine ⟨k₁ + k₂ + 1, rest', Option.bind_eq_some_iff.mpr ⟨r, hwork, ?_⟩, ?_⟩
    · rw [hsub, List.append_assoc, roundsOf_add k₂ hk₁]
      exact hk₂
    · rw [List.length_append] at hlen
      omega

/-- **From the loop to a call**: the rounds have done the tasks on top, or they
    are inside of one of them. -/
theorem calls_of_rounds (k : ℕ) : ∀ (ts rest : List τ) {s : σ} {c : List τ},
    roundsOf work k (ts ++ rest) s = some (c, s') →
      (∃ fuel s₁ k', inTurn (recur work fuel) ts s = some s₁ ∧ k' ≤ k ∧
        roundsOf work k' rest s₁ = some (c, s')) ∨
      ∃ pre u post fuel s₁ t' rest', ts = pre ++ u :: post ∧
        inTurn (recur work fuel) pre s = some s₁ ∧ ComesTo work u s₁ t' s' rest'.length ∧
        c = t' :: (rest' ++ (post ++ rest)) := by
  induction k using Nat.strongRecOn with
  | ind k ih =>
    intro ts rest s c h
    cases ts with
    | nil => exact Or.inl ⟨0, s, k, rfl, Nat.le_refl k, h⟩
    | cons t ts =>
      cases k with
      | zero =>
        cases h
        exact Or.inr ⟨[], t, ts, 0, _, t, [], rfl, rfl, ComesTo.here t _, rfl⟩
      | succ k =>
        obtain ⟨r, hwork, hrounds⟩ := Option.bind_eq_some_iff.mp h
        obtain ⟨fuel₁, s₁, k₁, hsub, hle₁, hrest₁⟩ |
          ⟨pre, u, post, fuel, s₁, t', rest', hsub, hpre, hcall, hc⟩ :=
            ih k (by omega) r.2 (ts ++ rest) hrounds
        · -- the call for `t` has returned, and the rounds go on with the rest
          have ht : recur work (fuel₁ + 1) t s = some s₁ :=
            Option.bind_eq_some_iff.mpr ⟨r, hwork, hsub⟩
          have hcons : ∀ {fuel : ℕ} {us : List τ} {s₂ : σ}, inTurn (recur work fuel) us s₁ = some s₂ →
              inTurn (recur work (max (fuel₁ + 1) fuel)) (t :: us) s = some s₂ := fun hus =>
            Option.bind_eq_some_iff.mpr ⟨s₁, recur_mono (Nat.le_max_left _ _) t s s₁ ht,
              inTurn_mono (recur_mono (Nat.le_max_right _ _)) _ hus⟩
          obtain ⟨fuel₂, s₂, k₂, hts, hle₂, hrest₂⟩ |
            ⟨pre, u, post, fuel, s₂, t', rest', hts, hpre, hcall, hc⟩ :=
              ih k₁ (by omega) ts rest hrest₁
          · exact Or.inl ⟨_, s₂, k₂, hcons hts, by omega, hrest₂⟩
          · exact Or.inr ⟨t :: pre, u, post, _, s₂, t', rest', congrArg (t :: ·) hts, hcons hpre,
              hcall, hc⟩
        · -- the rounds are inside of it
          refine Or.inr ⟨[], t, ts, 0, s, t', rest' ++ post, rfl, rfl, ?_, ?_⟩
          · rw [List.length_append]
            exact ComesTo.inside hwork hsub hpre hcall
          · rw [hc, List.append_assoc]

/-- **THE STACK OF THE LOOP**: below the task on top are as many as wait when the
    recursion comes to its call. -/
theorem rounds_iff_calls : (∃ k rest, roundsOf work k [t] s = some (t' :: rest, s') ∧ rest.length = w) ↔
      ComesTo work t s t' s' w := by
  constructor
  · intro h
    obtain ⟨k, rest, hrounds, hlen⟩ := h
    obtain ⟨fuel, s₁, k', -, -, hend⟩ | ⟨pre, u, post, fuel, s₁, t'', rest', hsplit, hpre, hcall, hc⟩ :=
      calls_of_rounds k [t] [] hrounds
    · -- nothing is left on the stack behind the task
      cases k' with
      | zero => cases hend
      | succ k' => cases hend
    obtain ⟨rfl, hnil⟩ | ⟨a, -, hnil⟩ := List.cons_eq_append_iff.mp hsplit
    · cases hnil
      cases hpre
      cases hc
      rw [← hlen, List.append_nil, List.append_nil]
      exact hcall
    · cases a with
      | nil => cases hnil
      | cons a as => cases hnil
  · intro h
    obtain ⟨k, rest, hrounds, hlen⟩ := rounds_of_calls h []
    exact ⟨k, rest, hrounds, hlen⟩

/-! ## §3. Returning. -/

theorem recur_unique {fuel fuel' : ℕ} (h : recur work fuel t s = some s₁)
    (h' : recur work fuel' t s = some s₂) : s₁ = s₂ := by
  have hmax := recur_mono (Nat.le_max_left fuel fuel') t s s₁ h
  rw [recur_mono (Nat.le_max_right fuel fuel') t s s₂ h'] at hmax
  exact (Option.some.inj hmax).symm

theorem inTurn_unique {fuel fuel' : ℕ} (h : inTurn (recur work fuel) ts s = some s₁)
    (h' : inTurn (recur work fuel') ts s = some s₂) : s₁ = s₂ := by
  have hmax := inTurn_mono (recur_mono (Nat.le_max_left fuel fuel')) ts h
  rw [inTurn_mono (recur_mono (Nat.le_max_right fuel fuel')) ts h'] at hmax
  exact (Option.some.inj hmax).symm

/-- In a recursion that returns, every call does. -/
theorem ComesTo.returns (h : ComesTo work t s t' s' w) :
    ∀ {fuel s₁}, recur work fuel t s = some s₁ → ∃ fuel' s₂, recur work fuel' t' s' = some s₂ := by
  induction h with
  | here t s => exact fun hrun => ⟨_, _, hrun⟩
  | inside hwork hsub hpre hcall ih =>
    rename_i t u t' s s₁ s' r pre post fuel₀ w
    intro fuel s₂ hrun
    cases fuel with
    | zero => cases hrun
    | succ fuel =>
      obtain ⟨r', hwork', hrun⟩ := Option.bind_eq_some_iff.mp hrun
      obtain rfl : r = r' := Option.some.inj (hwork.symm.trans hwork')
      rw [hsub, inTurn_append] at hrun
      obtain ⟨s₃, hpre', hrun⟩ := Option.bind_eq_some_iff.mp hrun
      obtain rfl : s₁ = s₃ := inTurn_unique hpre hpre'
      obtain ⟨s₄, hu, -⟩ := Option.bind_eq_some_iff.mp hrun
      exact ih hu

/-- Calls for the tasks that are left, when each of them returns. -/
theorem inTurn_returns {s₀ : σ} (hreturn : ∀ pre u post fuel s₁, ts = pre ++ u :: post →
      inTurn (recur work fuel) pre s₀ = some s₁ → ∃ fuel' s₂, recur work fuel' u s₁ = some s₂) :
    ∀ (post pre : List τ) {fuel : ℕ} {s₁ : σ}, ts = pre ++ post →
      inTurn (recur work fuel) pre s₀ = some s₁ → ∃ fuel' s₂, inTurn (recur work fuel') ts s₀ = some s₂ := by
  intro post
  induction post with
  | nil =>
    intro pre fuel s₁ hsplit hpre
    rw [hsplit, List.append_nil]
    exact ⟨fuel, s₁, hpre⟩
  | cons u post ih =>
    intro pre fuel s₁ hsplit hpre
    obtain ⟨fuel', s₂, hu⟩ := hreturn pre u post fuel s₁ hsplit hpre
    have hsplit' : ts = (pre ++ [u]) ++ post := by
      rw [hsplit, List.append_assoc]
      rfl
    have hrun : inTurn (recur work (max fuel fuel')) (pre ++ [u]) s₀ = some s₂ := by
      rw [inTurn_append, inTurn_mono (recur_mono (Nat.le_max_left _ _)) pre hpre, Option.bind_some]
      exact Option.bind_eq_some_iff.mpr
        ⟨s₂, recur_mono (Nat.le_max_right _ _) u s₁ s₂ hu, rfl⟩
    exact ih (pre ++ [u]) hsplit' hrun

variable {I : τ → Prop} {P : τ → σ → σ → Prop}

theorem ComesTo.holds (hI : ∀ t s r, I t → work t s = some r → ∀ u ∈ r.2, I u)
    (h : ComesTo work t s t' s' w) : I t → I t' := by
  induction h with
  | here t s => exact id
  | inside hwork hsub _ _ ih =>
    exact fun ht => ih (hI _ _ _ ht hwork _ (by rw [hsub]; simp))

/-- **THE RECURSION RETURNS IF AND ONLY IF THE WORK OF EVERY CALL DOES**, where
    the subtasks are smaller than their task. -/
theorem recur_returns_iff (size : τ → ℕ)
    (hI : ∀ t s r, I t → work t s = some r → ∀ u ∈ r.2, I u ∧ size u < size t) (ht : I t) (s : σ) :
    (∃ fuel s', recur work fuel t s = some s') ↔ ∀ t' s' w, ComesTo work t s t' s' w → work t' s' ≠ none := by
  constructor
  · intro h t' s' w hcall hnone
    obtain ⟨fuel, s₁, hrun⟩ := h
    obtain ⟨fuel', s₂, hrun'⟩ := hcall.returns hrun
    cases fuel' with
    | zero => cases hrun'
    | succ fuel' =>
      rw [recur, hnone] at hrun'
      cases hrun'
  · intro h
    induction hn : size t using Nat.strongRecOn generalizing t s with
    | ind n ih =>
      obtain ⟨r, hwork⟩ := Option.ne_none_iff_exists'.mp (h t s 0 (ComesTo.here t s))
      -- the calls for the subtasks are calls of `t`
      have hreturn : ∀ pre u post fuel s₁, r.2 = pre ++ u :: post →
          inTurn (recur work fuel) pre r.1 = some s₁ →
            ∃ fuel' s₂, recur work fuel' u s₁ = some s₂ := by
        intro pre u post fuel s₁ hsub hpre
        obtain ⟨hu, hless⟩ := hI t s r ht hwork u (by rw [hsub]; simp)
        exact ih (size u) (by omega) hu s₁
          (fun t' s' w hcall => h t' s' _ (ComesTo.inside hwork hsub hpre hcall)) rfl
      have hnone : inTurn (recur work 0) [] r.1 = some r.1 := rfl
      obtain ⟨fuel, s₁, hsub⟩ := inTurn_returns hreturn r.2 [] rfl hnone
      exact ⟨fuel + 1, s₁, Option.bind_eq_some_iff.mpr ⟨r, hwork, hsub⟩⟩

/-! ## §4. Calls with a property. -/

/-- The recursion comes to a call that has the property. -/
def SomeCall (work : τ → σ → Option (σ × List τ)) (Q : τ → σ → Prop) (t : τ) (s : σ) : Prop :=
  ∃ t' s' w, ComesTo work t s t' s' w ∧ Q t' s'

/-- It does so for one of the tasks, after those in front of it. -/
def SomeCallIn (work : τ → σ → Option (σ × List τ)) (Q : τ → σ → Prop) (ts : List τ) (s : σ) : Prop :=
  ∃ pre u post fuel s₁, ts = pre ++ u :: post ∧ inTurn (recur work fuel) pre s = some s₁ ∧
    SomeCall work Q u s₁

section SomeCall

variable {Q : τ → σ → Prop} {u₁ u₂ : τ} {fuel : ℕ}

/-- **A call**, and the calls inside of it. -/
theorem someCall_iff {r : σ × List τ} (hwork : work t s = some r) :
    SomeCall work Q t s ↔ Q t s ∨ SomeCallIn work Q r.2 r.1 := by
  constructor
  · intro h
    obtain ⟨t', s', w, hcall, hq⟩ := h
    cases hcall with
    | here => exact Or.inl hq
    | inside hwork' hsub hpre hinner =>
      obtain rfl := Option.some.inj (hwork.symm.trans hwork')
      exact Or.inr ⟨_, _, _, _, _, hsub, hpre, t', s', _, hinner, hq⟩
  · intro h
    obtain hq | ⟨pre, u, post, fuel, s₁, hsub, hpre, t', s', w, hcall, hq⟩ := h
    · exact ⟨t, s, 0, ComesTo.here t s, hq⟩
    · exact ⟨t', s', _, ComesTo.inside hwork hsub hpre hcall, hq⟩

theorem someCallIn_nil : ¬ SomeCallIn work Q [] s := by
  intro h
  obtain ⟨pre, u, post, fuel, s₁, hsub, -⟩ := h
  exact absurd hsub.symm (List.append_ne_nil_of_right_ne_nil _ (List.cons_ne_nil _ _))

theorem SomeCall.first (h : SomeCall work Q t s) (ts : List τ) : SomeCallIn work Q (t :: ts) s :=
  ⟨[], t, ts, 0, s, rfl, rfl, h⟩

theorem someCallIn_cons (h : recur work fuel t s = some s₁) :
    SomeCallIn work Q (t :: ts) s ↔ SomeCall work Q t s ∨ SomeCallIn work Q ts s₁ := by
  constructor
  · intro hsome
    obtain ⟨pre, u, post, fuel', s₂, hsub, hpre, hcall⟩ := hsome
    cases pre with
    | nil =>
      cases hsub
      cases hpre
      exact Or.inl hcall
    | cons t' pre =>
      cases hsub
      obtain ⟨s₃, ht, hrest⟩ := Option.bind_eq_some_iff.mp hpre
      obtain rfl := recur_unique h ht
      exact Or.inr ⟨pre, u, post, fuel', s₂, rfl, hrest, hcall⟩
  · intro hsome
    obtain hcall | ⟨pre, u, post, fuel', s₂, hsub, hpre, hcall⟩ := hsome
    · exact hcall.first ts
    · refine ⟨t :: pre, u, post, max fuel fuel', s₂, congrArg (t :: ·) hsub, ?_, hcall⟩
      exact Option.bind_eq_some_iff.mpr ⟨s₁, recur_mono (Nat.le_max_left _ _) t s s₁ h,
        inTurn_mono (recur_mono (Nat.le_max_right _ _)) _ hpre⟩

theorem someCallIn_singleton : SomeCallIn work Q [t] s ↔ SomeCall work Q t s := by
  constructor
  · intro h
    obtain ⟨pre, u, post, fuel, s₁, hsub, hpre, hcall⟩ := h
    cases pre with
    | nil =>
      cases hsub
      cases hpre
      exact hcall
    | cons t' pre =>
      have hnil : [] = pre ++ u :: post := (List.cons.inj hsub).2
      exact absurd hnil.symm (List.append_ne_nil_of_right_ne_nil pre (List.cons_ne_nil u post))
  · exact fun h => h.first []

theorem someCallIn_ite {c : Prop} [Decidable c] (h : ¬ c → ¬ SomeCall work Q t s) :
    SomeCallIn work Q (if c then [t] else []) s ↔ SomeCall work Q t s := by
  by_cases hc : c
  · rw [if_pos hc]
    exact someCallIn_singleton
  · rw [if_neg hc]
    exact iff_of_false someCallIn_nil (h hc)

theorem someCallIn_append (ts : List τ) : ∀ {s : σ}, inTurn (recur work fuel) ts s = some s₁ →
    (SomeCallIn work Q (ts ++ ts') s ↔ SomeCallIn work Q ts s ∨ SomeCallIn work Q ts' s₁) := by
  induction ts with
  | nil =>
    intro s h
    cases h
    exact (or_iff_right someCallIn_nil).symm
  | cons t ts ih =>
    intro s h
    obtain ⟨s₂, ht, hts⟩ := Option.bind_eq_some_iff.mp h
    rw [List.cons_append, someCallIn_cons ht, someCallIn_cons ht, ih hts, or_assoc]

theorem someCall_nil (hwork : work t s = some (s₁, [])) : SomeCall work Q t s ↔ Q t s := by
  rw [someCall_iff hwork]
  exact or_iff_left someCallIn_nil

/-- **Two calls**, one after the other. -/
theorem someCall_two (hwork : work t s = some (s₁, [u₁, u₂])) (h₁ : recur work fuel u₁ s₁ = some s₂) :
    SomeCall work Q t s ↔ Q t s ∨ SomeCall work Q u₁ s₁ ∨ SomeCall work Q u₂ s₂ := by
  rw [someCall_iff hwork, someCallIn_cons h₁, someCallIn_singleton]

/-- **A RESULT THAT ONLY BAD CALLS SPOIL**: the recursion returns it if and only if
    the work of every call returns, and no call is bad. -/
theorem recur_meets_iff {I : τ → Prop} (size : τ → ℕ)
    (hI : ∀ t s r, I t → work t s = some r → ∀ u ∈ r.2, I u ∧ size u < size t) (ht : I t) (s : σ)
    {G : σ → Prop} (hcontract : ∀ fuel s', recur work fuel t s = some s' → (G s' ↔ ¬ SomeCall work Q t s)) :
    (∃ fuel s', recur work fuel t s = some s' ∧ G s') ↔
      ∀ t' s' w, ComesTo work t s t' s' w → work t' s' ≠ none ∧ ¬ Q t' s' := by
  have hreturns := recur_returns_iff size hI ht s
  constructor
  · intro h t' s' w hcall
    obtain ⟨fuel, s₁, hrun, hgood⟩ := h
    refine ⟨hreturns.mp ⟨fuel, s₁, hrun⟩ t' s' w hcall, fun hbad => ?_⟩
    exact (hcontract fuel s₁ hrun).mp hgood ⟨t', s', w, hcall, hbad⟩
  · intro h
    obtain ⟨fuel, s₁, hrun⟩ := hreturns.mpr fun t' s' w hcall => (h t' s' w hcall).1
    refine ⟨fuel, s₁, hrun, (hcontract fuel s₁ hrun).mpr fun hbad => ?_⟩
    obtain ⟨t', s', w, hcall, hq⟩ := hbad
    exact (h t' s' w hcall).2 hq

end SomeCall

/-! ## §5. What every call does. -/

theorem inTurn_holds {run : τ → σ → Option σ} (hrun : ∀ t s s', run t s = some s' → P t s s') (ts : List τ) :
    ∀ {s s'}, inTurn run ts s = some s' → InTurn P ts s s' := by
  induction ts with
  | nil => exact fun h => Option.some.inj h
  | cons t ts ih =>
    intro s s' h
    obtain ⟨s₁, ht, hts⟩ := Option.bind_eq_some_iff.mp h
    exact ⟨s₁, hrun t s s₁ ht, ih hts⟩

/-- **A CONTRACT OF THE RECURSION**: it holds of a task when it holds of the
    subtasks, one after the other. -/
theorem recur_holds (hP : ∀ t s r s', work t s = some r → InTurn P r.2 r.1 s' → P t s s') (fuel : ℕ) :
    ∀ t s s', recur work fuel t s = some s' → P t s s' := by
  induction fuel with
  | zero =>
    intro t s s' h
    cases h
  | succ fuel ih =>
    intro t s s' h
    obtain ⟨r, hwork, hsub⟩ := Option.bind_eq_some_iff.mp h
    exact hP t s r s' hwork (inTurn_holds ih r.2 hsub)

/-! ## §6. Running through the calls. -/

/-- The work, where `p` holds. -/
def tested (p : τ → σ → Bool) (work : τ → σ → Option (σ × List τ)) (t : τ) (s : σ) : Option (σ × List τ) :=
  if p t s then work t s else none

variable {p : τ → σ → Bool}

theorem tested_eq_some {r : σ × List τ} (h : tested p work t s = some r) : p t s = true ∧ work t s = some r := by
  unfold tested at h
  split at h
  case isTrue hp => exact ⟨hp, h⟩
  case isFalse => cases h

theorem recur_of_tested (fuel : ℕ) : ∀ t s s', recur (tested p work) fuel t s = some s' →
    recur work fuel t s = some s' := by
  induction fuel with
  | zero =>
    intro t s s' h
    cases h
  | succ fuel ih =>
    intro t s s' h
    obtain ⟨r, hwork, hsub⟩ := Option.bind_eq_some_iff.mp h
    exact Option.bind_eq_some_iff.mpr ⟨r, (tested_eq_some hwork).2, inTurn_mono ih r.2 hsub⟩

/-- **A RUN WITH TESTS THAT RETURNS** has found `p` at every call. -/
theorem ComesTo.of_tested (h : ComesTo work t s t' s' w) :
    ∀ {fuel s₁}, recur (tested p work) fuel t s = some s₁ → p t' s' = true := by
  induction h with
  | here t s =>
    intro fuel s₁ hrun
    cases fuel with
    | zero => cases hrun
    | succ fuel =>
      obtain ⟨r, hwork, -⟩ := Option.bind_eq_some_iff.mp hrun
      exact (tested_eq_some hwork).1
  | inside hwork hsub hpre hcall ih =>
    rename_i t u t' s s₁ s' r pre post fuel₀ w
    intro fuel s₂ hrun
    cases fuel with
    | zero => cases hrun
    | succ fuel =>
      obtain ⟨r', hwork', hrun⟩ := Option.bind_eq_some_iff.mp hrun
      obtain rfl : r = r' := Option.some.inj (hwork.symm.trans (tested_eq_some hwork').2)
      rw [hsub, inTurn_append] at hrun
      obtain ⟨s₃, hpre', hrun⟩ := Option.bind_eq_some_iff.mp hrun
      obtain rfl : s₁ = s₃ := inTurn_unique hpre (inTurn_mono (recur_of_tested fuel) pre hpre')
      obtain ⟨s₄, hu, -⟩ := Option.bind_eq_some_iff.mp hrun
      exact ih hu

end KalavaPir.Framework
