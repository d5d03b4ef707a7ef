/-
  KalavaPir.Framework.TaskStack — recursion, and the stack that replaces it.

  Work on a task changes a state and leaves subtasks, to be done in their order
  before anything else.  A recursive function calls itself for each of them; a
  loop puts them on a stack, the first one on top.
-/
import Mathlib.Algebra.BigOperators.Group.List.Basic
import Mathlib.Algebra.Ring.Nat

namespace KalavaPir.Framework

open List Option

variable {σ τ : Type}

/-! ## §1. The recursion and the loop. -/

section Source

/-- Tasks one after the other. -/
def inTurn (run : τ → σ → Option σ) : List τ → σ → Option σ
  | [], s => some s
  | t :: ts, s => (run t s).bind (inTurn run ts)

variable (work : τ → σ → Option (σ × List τ))

/-- The recursive function, with fuel for its depth. -/
def recur : ℕ → τ → σ → Option σ
  | 0, _, _ => none
  | fuel + 1, t, s => (work t s).bind fun r => inTurn (recur fuel) r.2 r.1

/-- The loop, with fuel for its rounds. -/
def drain : ℕ → List τ → σ → Option σ
  | 0, _, _ => none
  | _ + 1, [], s => some s
  | fuel + 1, t :: ts, s => (work t s).bind fun r => drain fuel (r.2 ++ ts) r.1

end Source

variable {work : τ → σ → Option (σ × List τ)} {s s' s₁ : σ} {t : τ} {ts rest : List τ}

theorem inTurn_append (run : τ → σ → Option σ) (ts rest : List τ) (s : σ) :
    inTurn run (ts ++ rest) s = (inTurn run ts s).bind (inTurn run rest) := by
  induction ts generalizing s with
  | nil => rfl
  | cons t ts ih =>
    show (run t s).bind (inTurn run (ts ++ rest)) = ((run t s).bind (inTurn run ts)).bind _
    cases run t s with
    | none => rfl
    | some s₁ => exact ih s₁

theorem inTurn_ite (run : τ → σ → Option σ) (c : Prop) [Decidable c] (t : τ) (s : σ) :
    inTurn run (if c then [t] else []) s = if c then run t s else some s := by
  split
  · show (run t s).bind some = run t s
    cases run t s with
    | none => rfl
    | some s₁ => rfl
  · rfl

theorem inTurn_mono {run run' : τ → σ → Option σ}
    (hrun : ∀ t s s', run t s = some s' → run' t s = some s') (ts : List τ) :
    ∀ {s s'}, inTurn run ts s = some s' → inTurn run' ts s = some s' := by
  induction ts with
  | nil => exact fun h => h
  | cons t ts ih =>
    intro s s' h
    obtain ⟨s₁, ht, hts⟩ := bind_eq_some_iff.mp h
    exact bind_eq_some_iff.mpr ⟨s₁, hrun t s s₁ ht, ih hts⟩

theorem recur_mono {fuel fuel' : ℕ} (hle : fuel ≤ fuel') :
    ∀ t s s', recur work fuel t s = some s' → recur work fuel' t s = some s' := by
  induction fuel generalizing fuel' with
  | zero =>
    intro t s s' h
    cases h
  | succ fuel ih =>
    obtain ⟨k, rfl⟩ : ∃ k, fuel' = k + 1 := ⟨fuel' - 1, by omega⟩
    intro t s s' h
    obtain ⟨r, hwork, hsub⟩ := bind_eq_some_iff.mp h
    exact bind_eq_some_iff.mpr ⟨r, hwork, inTurn_mono (ih (by omega)) r.2 hsub⟩

/-- The loop is a function of the stack and the state. -/
theorem drain_unique {k k' : ℕ} (h : drain work k ts s = some s₁)
    (h' : drain work k' ts s = some s') : s₁ = s' := by
  induction k generalizing k' ts s with
  | zero => cases h
  | succ k ih =>
    cases k' with
    | zero => cases h'
    | succ k' =>
      cases ts with
      | nil => exact Option.some.inj (h.symm.trans h')
      | cons t ts =>
        obtain ⟨r, hwork, hrest⟩ := bind_eq_some_iff.mp h
        obtain ⟨r', hwork', hrest'⟩ := bind_eq_some_iff.mp h'
        obtain rfl : r = r' := Option.some.inj (hwork.symm.trans hwork')
        exact ih hrest hrest'

/-- **From the recursion to the loop**: what the calls for the tasks on top
    return is the state in which the loop comes to the rest. -/
theorem drain_of_recur (fuel : ℕ) : ∀ (ts rest : List τ) {s s₁ : σ} {k : ℕ},
    inTurn (recur work fuel) ts s = some s₁ → drain work k rest s₁ = some s' →
      ∃ k', drain work k' (ts ++ rest) s = some s' := by
  induction fuel with
  | zero =>
    intro ts rest s s₁ k hts hrest
    cases ts with
    | nil =>
      cases hts
      exact ⟨k, hrest⟩
    | cons t ts => cases hts
  | succ fuel ih =>
    intro ts
    induction ts with
    | nil =>
      intro rest s s₁ k hts hrest
      cases hts
      exact ⟨k, hrest⟩
    | cons t ts iht =>
      intro rest s s₁ k hts hrest
      -- the tasks behind `t` first, then the subtasks of `t` on top of them
      obtain ⟨s₂, ht, hts⟩ := bind_eq_some_iff.mp hts
      obtain ⟨k₁, hk₁⟩ := iht rest hts hrest
      obtain ⟨r, hwork, hsub⟩ := bind_eq_some_iff.mp ht
      obtain ⟨k₂, hk₂⟩ := ih r.2 (ts ++ rest) hsub hk₁
      exact ⟨k₂ + 1, bind_eq_some_iff.mpr ⟨r, hwork, hk₂⟩⟩

/-- **From the loop to the recursion**: the loop comes to the rest of the stack
    in the state that the calls for the tasks on top return. -/
theorem recur_of_drain (k : ℕ) : ∀ (ts rest : List τ) {s : σ}, drain work k (ts ++ rest) s = some s' →
      ∃ fuel s₁ k', inTurn (recur work fuel) ts s = some s₁ ∧ k' ≤ k ∧
        drain work k' rest s₁ = some s' := by
  induction k using Nat.strongRecOn with
  | ind k ih =>
    intro ts rest s h
    cases ts with
    | nil => exact ⟨0, s, k, rfl, Nat.le_refl k, h⟩
    | cons t ts =>
      cases k with
      | zero => cases h
      | succ k =>
        obtain ⟨r, hwork, hdrain⟩ := bind_eq_some_iff.mp h
        -- the subtasks of `t`, then the tasks that were below it
        obtain ⟨fuel₁, s₁, k₁, hsub, hle₁, hdrain₁⟩ := ih k (by omega) r.2 (ts ++ rest) hdrain
        obtain ⟨fuel₂, s₂, k₂, hts, hle₂, hdrain₂⟩ := ih k₁ (by omega) ts rest hdrain₁
        refine ⟨max (fuel₁ + 1) fuel₂, s₂, k₂, ?_, by omega, hdrain₂⟩
        have ht : recur work (fuel₁ + 1) t s = some s₁ :=
          bind_eq_some_iff.mpr ⟨r, hwork, hsub⟩
        exact bind_eq_some_iff.mpr ⟨s₁, recur_mono (Nat.le_max_left _ _) t s s₁ ht,
          inTurn_mono (recur_mono (Nat.le_max_right _ _)) ts hts⟩

/-- **THE LOOP RETURNS WHAT THE RECURSION RETURNS**, and only then. -/
theorem drain_iff_recur : (∃ k, drain work k [t] s = some s') ↔ ∃ fuel, recur work fuel t s = some s' := by
  constructor
  · rintro ⟨k, h⟩
    obtain ⟨fuel, s₁, k', hcall, -, hend⟩ := recur_of_drain k [t] [] h
    -- nothing is left on the stack behind the task
    obtain ⟨s₂, ht, hnone⟩ := bind_eq_some_iff.mp hcall
    cases hnone
    cases k' with
    | zero => cases hend
    | succ k' =>
      cases hend
      exact ⟨fuel, ht⟩
  · rintro ⟨fuel, h⟩
    have hcall : inTurn (recur work fuel) [t] s = some s' :=
      bind_eq_some_iff.mpr ⟨s', h, rfl⟩
    exact drain_of_recur (k := 1) fuel [t] [] hcall rfl

/-! ## §2. A guard on the tasks. -/

section Guard

variable (ok : τ → Prop) [DecidablePred ok] (step : τ → σ → σ × List τ)

/-- Work that fails on a task that does not pass. -/
def guarded (t : τ) (s : σ) : Option (σ × List τ) := if ok t then some (step t s) else none

/-- The tasks that the loop meets without a guard. -/
def visits : ℕ → List τ → σ → List τ
  | 0, _, _ => []
  | _ + 1, [], _ => []
  | k + 1, t :: ts, s => t :: visits k ((step t s).2 ++ ts) (step t s).1

end Guard

section Guard

variable {ok : τ → Prop} [DecidablePred ok] {step : τ → σ → σ × List τ}

theorem guarded_eq_some {r : σ × List τ} : guarded ok step t s = some r ↔ ok t ∧ step t s = r := by
  unfold guarded
  by_cases h : ok t
  · rw [if_pos h, Option.some.injEq]
    exact ⟨fun hr => ⟨h, hr⟩, fun hr => hr.2⟩
  · rw [if_neg h]
    exact ⟨nofun, fun hr => absurd hr.1 h⟩

/-- A loop that returns has met no bad task. -/
theorem ok_of_drain {k : ℕ} (h : drain (guarded ok step) k ts s = some s') (K : ℕ) :
    ∀ t ∈ visits step K ts s, ok t := by
  induction k generalizing K ts s with
  | zero => cases h
  | succ k ih =>
    cases K with
    | zero => exact fun t ht => absurd ht not_mem_nil
    | succ K =>
      cases ts with
      | nil => exact fun t ht => absurd ht not_mem_nil
      | cons t ts =>
        obtain ⟨r, hwork, hrest⟩ := bind_eq_some_iff.mp h
        obtain ⟨hok, rfl⟩ := guarded_eq_some.mp hwork
        intro t' ht'
        rcases mem_cons.mp ht' with rfl | ht'
        · exact hok
        · exact ih hrest K t' ht'

/-- **A loop that meets no bad task returns**, where the subtasks cost less than
    their task. -/
theorem drain_of_ok {cost : τ → ℕ} (hcost : ∀ t s, ((step t s).2.map cost).sum < cost t) (K : ℕ) :
    ∀ {ts : List τ} {s : σ}, (ts.map cost).sum < K → (∀ t ∈ visits step K ts s, ok t) →
      ∃ s', drain (guarded ok step) K ts s = some s' := by
  induction K with
  | zero =>
    intro ts s hfuel
    omega
  | succ K ih =>
    intro ts s hfuel hok
    cases ts with
    | nil => exact ⟨s, rfl⟩
    | cons t ts =>
      have hless := hcost t s
      -- a round costs the task more than its subtasks put back
      have hfuel' : (((step t s).2 ++ ts).map cost).sum < K := by
        rw [map_cons, sum_cons] at hfuel
        rw [map_append, sum_append]
        omega
      obtain ⟨s', hs'⟩ := ih hfuel' fun t' ht' => hok t' (mem_cons_of_mem t ht')
      have hwork : guarded ok step t s = some (step t s) :=
        guarded_eq_some.mpr ⟨hok t mem_cons_self, rfl⟩
      exact ⟨s', bind_eq_some_iff.mpr ⟨_, hwork, hs'⟩⟩

end Guard

/-- The tasks that the loop meets depend only on what the steps look at. -/
theorem visits_map {σ' : Type} {step : τ → σ → σ × List τ} {step' : τ → σ' → σ' × List τ}
    (f : σ → σ') (h : ∀ t s, step' t (f s) = (f (step t s).1, (step t s).2)) (k : ℕ) :
    ∀ (ts : List τ) (s : σ), visits step' k ts (f s) = visits step k ts s := by
  induction k with
  | zero => exact fun _ _ => rfl
  | succ k ih =>
    intro ts s
    cases ts with
    | nil => rfl
    | cons t ts =>
      show t :: visits step' k ((step' t (f s)).2 ++ ts) (step' t (f s)).1 = t :: _
      rw [h t s]
      exact congrArg (t :: ·) (ih _ _)

end KalavaPir.Framework
