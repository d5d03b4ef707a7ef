/-
  KalavaPir.Framework.Loop — loops that may go on forever, or fail.

  A round of a loop goes on with a new state, ends it with a result, or fails
  (`none`).  The loop gets fuel for its rounds, and what it returns with some
  fuel it returns with more.
-/
import Mathlib.Order.Basic
import Mathlib.Tactic.Common

namespace KalavaPir.Framework

/-- What a round does. -/
inductive LoopStep (σ ρ : Type)
  | again (s : σ)
  | done (r : ρ)

section Source

variable {σ ρ : Type} (body : σ → Option (LoopStep σ ρ))

/-- The loop, with fuel for its rounds. -/
def loop : ℕ → σ → Option ρ
  | 0, _ => none
  | fuel + 1, s =>
    match body s with
    | none => none
    | some (.again s') => loop fuel s'
    | some (.done r) => some r

end Source

variable {σ ρ : Type} {body : σ → Option (LoopStep σ ρ)} {s s' : σ} {r : ρ}

/-! ## §1. Rounds. -/

theorem loop_again (h : body s = some (.again s')) (fuel : ℕ) :
    loop body (fuel + 1) s = loop body fuel s' := by
  rw [loop, h]

theorem loop_done (h : body s = some (.done r)) (fuel : ℕ) : loop body (fuel + 1) s = some r := by
  rw [loop, h]

theorem loop_fails (h : body s = none) (fuel : ℕ) : loop body fuel s = none := by
  cases fuel with
  | zero => rfl
  | succ fuel => rw [loop, h]

/-- More fuel changes nothing. -/
theorem loop_mono {fuel fuel' : ℕ} (hle : fuel ≤ fuel') :
    ∀ {s}, loop body fuel s = some r → loop body fuel' s = some r := by
  induction fuel generalizing fuel' with
  | zero =>
    intro s h
    cases h
  | succ fuel ih =>
    obtain ⟨k, rfl⟩ : ∃ k, fuel' = k + 1 := ⟨fuel' - 1, by omega⟩
    intro s h
    cases hbody : body s with
    | none =>
      rw [loop_fails hbody] at h
      cases h
    | some round =>
      cases round with
      | again s' =>
        rw [loop_again hbody] at h ⊢
        exact ih (by omega) h
      | done r =>
        rw [loop_done hbody] at h ⊢
        exact h

/-! ## §2. Rules. -/

section Rules

variable {I : σ → Prop} {Q : ρ → Prop}

/-- **A LOOP WITH AN INVARIANT AND A RANK** returns, and its result is that of
    the last round. -/
theorem loop_ends (rank : σ → ℕ)
    (hround : ∀ s, I s → (∃ s', body s = some (.again s') ∧ I s' ∧ rank s' < rank s) ∨
      ∃ r, body s = some (.done r) ∧ Q r) (fuel : ℕ) :
    ∀ {s}, I s → rank s < fuel → ∃ r, loop body fuel s = some r ∧ Q r := by
  induction fuel with
  | zero =>
    intro s _ hfuel
    omega
  | succ fuel ih =>
    intro s hs hfuel
    obtain ⟨s', hbody, hs', hless⟩ | ⟨r, hbody, hr⟩ := hround s hs
    · rw [loop_again hbody]
      exact ih hs' (by omega)
    · exact ⟨r, loop_done hbody fuel, hr⟩

/-- **A LOOP THAT HAS RETURNED**: its result is that of a round that found the invariant. -/
theorem loop_result (hagain : ∀ s s', I s → body s = some (.again s') → I s')
    (hdone : ∀ s r, I s → body s = some (.done r) → Q r) (fuel : ℕ) :
    ∀ {s r}, I s → loop body fuel s = some r → Q r := by
  induction fuel with
  | zero =>
    intro s r _ h
    cases h
  | succ fuel ih =>
    intro s r hs h
    cases hbody : body s with
    | none =>
      rw [loop_fails hbody] at h
      cases h
    | some round =>
      cases round with
      | again s' =>
        rw [loop_again hbody] at h
        exact ih (hagain s s' hs hbody) h
      | done r' =>
        rw [loop_done hbody] at h
        cases h
        exact hdone s r hs hbody

/-- **A LOOP THAT ONLY FAILS OR GOES ON** returns nothing. -/
theorem loop_fails_or_goes (hround : ∀ s, I s → body s = none ∨ ∃ s', body s = some (.again s') ∧ I s')
    (fuel : ℕ) : ∀ {s}, I s → loop body fuel s = none := by
  induction fuel with
  | zero => exact fun _ => rfl
  | succ fuel ih =>
    intro s hs
    obtain hnone | ⟨s', hbody, hs'⟩ := hround s hs
    · exact loop_fails hnone (fuel + 1)
    · rw [loop_again hbody]
      exact ih hs'

/-- **A LOOP THAT ALWAYS GOES ON** returns nothing. -/
theorem loop_never (hround : ∀ s, I s → ∃ s', body s = some (.again s') ∧ I s') (fuel : ℕ) {s : σ}
    (hs : I s) : loop body fuel s = none :=
  loop_fails_or_goes (fun s hs => Or.inr (hround s hs)) fuel hs

end Rules

/-! ## §3. Loops that count down. -/

section Countdown

variable {σ : Type} {step : ℕ → σ → Option σ} {ok : ℕ → σ → Prop} {next : ℕ → σ → σ}

/-- `for(i=n-1; i>=0; i--) { … }` -/
def countdown (step : ℕ → σ → Option σ) : ℕ → σ → Option σ
  | 0, s => some s
  | n + 1, s => (step n s).bind (countdown step n)

/-- The state after it, when no round fails. -/
def lastState (next : ℕ → σ → σ) : ℕ → σ → σ
  | 0, s => s
  | n + 1, s => lastState next n (next n s)

/-- All rounds find a state that is as it has to be. -/
def AllRounds (ok : ℕ → σ → Prop) (next : ℕ → σ → σ) : ℕ → σ → Prop
  | 0, _ => True
  | n + 1, s => ok n s ∧ AllRounds ok next n (next n s)

theorem AllRounds.of_forall (n : ℕ) : ∀ {s : σ}, (∀ k s, k < n → ok k s) → AllRounds ok next n s := by
  induction n with
  | zero => exact fun _ => trivial
  | succ n ih =>
    intro s h
    exact ⟨h n s (Nat.lt_succ_self n), ih fun k s hk => h k s (by omega)⟩

theorem countdown_of_allRounds (n : ℕ) : ∀ {s},
    (∀ k s, k < n → ok k s → step k s = some (next k s)) → AllRounds ok next n s →
    countdown step n s = some (lastState next n s) := by
  induction n with
  | zero => exact fun _ _ => rfl
  | succ n ih =>
    intro s hok h
    rw [countdown, hok n s (Nat.lt_succ_self n) h.1]
    exact ih (fun k s hk => hok k s (by omega)) h.2

theorem countdown_of_not (n : ℕ) : ∀ {s}, (∀ k s, k < n → ok k s → step k s = some (next k s)) →
    (∀ k s, k < n → ¬ ok k s → step k s = none) → ¬ AllRounds ok next n s → countdown step n s = none := by
  induction n with
  | zero => exact fun _ _ h => absurd trivial h
  | succ n ih =>
    intro s hok hbad h
    rw [countdown]
    by_cases hround : ok n s
    · rw [hok n s (Nat.lt_succ_self n) hround]
      exact ih (fun k s hk => hok k s (by omega)) (fun k s hk => hbad k s (by omega))
        fun hrest => h ⟨hround, hrest⟩
    · rw [hbad n s (Nat.lt_succ_self n) hround]
      rfl

/-- **A LOOP THAT COUNTS DOWN** returns if and only if all rounds find what they
    need, and then the last state. -/
theorem countdown_eq_some {n : ℕ} (hok : ∀ k s, k < n → ok k s → step k s = some (next k s))
    (hbad : ∀ k s, k < n → ¬ ok k s → step k s = none) {s s' : σ} :
    countdown step n s = some s' ↔ AllRounds ok next n s ∧ s' = lastState next n s := by
  by_cases h : AllRounds ok next n s
  · rw [countdown_of_allRounds n hok h, Option.some.injEq]
    exact ⟨fun heq => ⟨h, heq.symm⟩, fun h => h.2.symm⟩
  · rw [countdown_of_not n hok hbad h]
    exact iff_of_false nofun fun h' => h h'.1

/-- **What every round preserves** holds in the end. -/
theorem lastState_holds {I : ℕ → σ → Prop} (n : ℕ) :
    ∀ {s}, (∀ k s, k < n → I (k + 1) s → I k (next k s)) → I n s → I 0 (lastState next n s) := by
  induction n with
  | zero => exact fun _ h => h
  | succ n ih =>
    intro s hround h
    exact ih (fun k s hk => hround k s (by omega)) (hround n s (Nat.lt_succ_self n) h)

end Countdown

end KalavaPir.Framework
