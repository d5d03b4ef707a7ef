/-
  KalavaPir.Framework.Runs — guarded runs of a labelled transition system.

  A system is a step function `step : S → L → Option S`: the label says which
  actor moves and how the outside world answers it, `none` says that the move
  is not enabled.  Every property of this development that speaks about "every
  interleaving" is a statement about the runs defined here.
-/
import Mathlib.Order.Nat
import Mathlib.Tactic.Common

namespace KalavaPir.Framework

variable {S L : Type}

/-! ## §1. Reachability through guarded steps. -/

/-- The states a run starting in `s₀` can reach when every one of its steps
    meets the guard `ok`. -/
inductive Reach (step : S → L → Option S) (ok : S → L → Prop) (s₀ : S) : S → Prop
  | start : Reach step ok s₀ s₀
  | next {s s' : S} {l : L} (h : Reach step ok s₀ s) (hok : ok s l)
      (hstep : step s l = some s') : Reach step ok s₀ s'

/-- No guard at all: every interleaving counts. -/
def anyStep (_ : S) (_ : L) : Prop := True

instance (s : S) (l : L) : Decidable (anyStep s l) := inferInstanceAs (Decidable True)

variable {step : S → L → Option S} {ok Q : S → L → Prop} {s₀ : S} {P : S → Prop} {sched : ℕ → L}

/-- **The invariant rule.** -/
theorem Reach.invariant (Inv : S → Prop) (hstart : Inv s₀)
    (hstep : ∀ s l s', Inv s → ok s l → step s l = some s' → Inv s') {s : S} (h : Reach step ok s₀ s) :
    Inv s := by
  induction h with
  | start => exact hstart
  | next _ hok hs ih => exact hstep _ _ _ ih hok hs

theorem Reach.trans {s₁ s₂ : S} (h₁ : Reach step ok s₀ s₁) (h₂ : Reach step ok s₁ s₂) :
    Reach step ok s₀ s₂ := by
  induction h₂ with
  | start => exact h₁
  | next _ hok hs ih => exact Reach.next ih hok hs

theorem Reach.head {s₁ s₂ : S} {l : L} (hok : ok s₀ l) (hs : step s₀ l = some s₁) (h : Reach step ok s₁ s₂) :
    Reach step ok s₀ s₂ :=
  (Reach.next Reach.start hok hs).trans h

/-! ## §2. Replaying a finite run. -/

/-- Replay `ls` from `s`, refusing a label that is disabled or breaks the
    guard. -/
def guardedExec (step : S → L → Option S) (ok : S → L → Prop)
    [∀ s l, Decidable (ok s l)] : S → List L → Option S
  | s, [] => some s
  | s, l :: ls =>
    if ok s l then
      match step s l with
      | some s' => guardedExec step ok s' ls
      | none => none
    else none

/-- A replay that goes through ends in a reachable state. -/
theorem reach_of_guardedExec [∀ s l, Decidable (ok s l)] :
    ∀ (ls : List L) (s s' : S), guardedExec step ok s ls = some s' → Reach step ok s s'
  | [], s, s', h => by
    simp only [guardedExec, Option.some.injEq] at h
    subst h
    exact Reach.start
  | l :: ls, s, s', h => by
    simp only [guardedExec] at h
    split at h
    next hok =>
      cases hs : step s l with
      | none => simp [hs] at h
      | some s₁ =>
        simp only [hs] at h
        exact (Reach.next Reach.start hok hs).trans (reach_of_guardedExec ls s₁ s' h)
    next => exact absurd h (by simp)

/-- **A concrete run refutes "always"**: if the state a replay ends in fails
    the decidable test `p`, some reachable state does. -/
theorem exists_reach_of_guardedExec (step : S → L → Option S) (ok : S → L → Prop)
    [∀ s l, Decidable (ok s l)] (s : S) (ls : List L) (p : S → Bool)
    (h : (guardedExec step ok s ls).any p = true) : ∃ s', Reach step ok s s' ∧ p s' = true := by
  cases he : guardedExec step ok s ls with
  | none => simp [he] at h
  | some s' =>
    rw [he] at h
    exact ⟨s', reach_of_guardedExec ls s s' he, h⟩

/-! ## §3. Properties of the states and of the steps of one run. -/

/-- `P` holds in every state the run `ls` from `s` goes through (the run is cut
    at the first disabled label). -/
def Along (step : S → L → Option S) (P : S → Prop) : S → List L → Prop
  | s, [] => P s
  | s, l :: ls => P s ∧ ∀ s', step s l = some s' → Along step P s' ls

/-- Every step the run `ls` from `s` takes meets `Q`. -/
def Steps (step : S → L → Option S) (Q : S → L → Prop) : S → List L → Prop
  | _, [] => True
  | s, l :: ls => ∀ s', step s l = some s' → Q s l ∧ Steps step Q s' ls

theorem Along.last :
    ∀ {ls : List L} {s s' : S}, Along step P s ls → guardedExec step anyStep s ls = some s' → P s'
  | [], s, s', h, he => by
    simp only [guardedExec, Option.some.injEq] at he
    exact he ▸ h
  | l :: ls, s, s', h, he => by
    simp only [guardedExec, anyStep] at he
    cases hs : step s l with
    | none => simp [hs] at he
    | some s₁ =>
      simp only [hs] at he
      exact Along.last (h.2 s₁ hs) he

theorem Along.steps (himp : ∀ s l, P s → Q s l) :
    ∀ {ls : List L} {s : S}, Along step P s ls → Steps step Q s ls
  | [], _, _ => trivial
  | l :: _, s, h => fun s' hs => ⟨himp s l h.1, Along.steps himp (h.2 s' hs)⟩

/-- **Exactness of a step condition.**  If, inside the side condition `Inv`, a
    step from a `P`-state leads to a `P`-state exactly when it meets `Q`, and
    `Inv` survives between `P`-states, then a run from a `P`-state stays in `P`
    exactly when all its steps meet `Q`. -/
theorem along_iff_steps (Inv : S → Prop) (hinv : ∀ s l s', Inv s → P s → step s l = some s' → P s' → Inv s')
    (hiff : ∀ s l s', Inv s → P s → step s l = some s' → (P s' ↔ Q s l)) :
    ∀ (ls : List L) (s : S), Inv s → P s → (Along step P s ls ↔ Steps step Q s ls)
  | [], s, _, hP => by simp [Along, Steps, hP]
  | l :: ls, s, hI, hP => by
    simp only [Along, Steps, hP, true_and]
    constructor
    · intro h s' hs
      have htail := h s' hs
      have hP' : P s' := by
        cases ls with
        | nil => exact htail
        | cons _ _ => exact htail.1
      exact ⟨(hiff s l s' hI hP hs).mp hP',
        (along_iff_steps Inv hinv hiff ls s' (hinv s l s' hI hP hs hP') hP').mp htail⟩
    · intro h s' hs
      obtain ⟨hQ, htail⟩ := h s' hs
      have hP' : P s' := (hiff s l s' hI hP hs).mpr hQ
      exact (along_iff_steps Inv hinv hiff ls s' (hinv s l s' hI hP hs hP') hP').mpr htail

/-- **Two step conditions that say the same.**  If they agree inside the side
    condition `Inv`, which the steps that meet them keep, they agree on runs. -/
theorem steps_iff_steps {R : S → L → Prop} (Inv : S → Prop)
    (hinv : ∀ s l s', Inv s → R s l → step s l = some s' → Inv s') (hiff : ∀ s l, Inv s → (Q s l ↔ R s l)) :
    ∀ (ls : List L) (s : S), Inv s → (Steps step Q s ls ↔ Steps step R s ls)
  | [], _, _ => Iff.rfl
  | l :: ls, s, hI => by
    constructor
    · intro h s' hs
      obtain ⟨hQ, htail⟩ := h s' hs
      have hR : R s l := (hiff s l hI).mp hQ
      exact ⟨hR, (steps_iff_steps Inv hinv hiff ls s' (hinv s l s' hI hR hs)).mp htail⟩
    · intro h s' hs
      obtain ⟨hR, htail⟩ := h s' hs
      exact ⟨(hiff s l hI).mpr hR,
        (steps_iff_steps Inv hinv hiff ls s' (hinv s l s' hI hR hs)).mpr htail⟩

/-! ## §4. Fair infinite runs. -/

/-- The state after `n` scheduled labels; a disabled label leaves the state
    alone. -/
def stateAt (step : S → L → Option S) (s₀ : S) (sched : ℕ → L) : ℕ → S
  | 0 => s₀
  | n + 1 => (step (stateAt step s₀ sched n) (sched n)).getD (stateAt step s₀ sched n)

theorem stateAt_tick (step : S → L → Option S) (s₀ : S) (sched : ℕ → L) (n : ℕ) :
    step (stateAt step s₀ sched n) (sched n) = some (stateAt step s₀ sched (n + 1)) ∨
      stateAt step s₀ sched (n + 1) = stateAt step s₀ sched n := by
  show _ ∨ (step (stateAt step s₀ sched n) (sched n)).getD (stateAt step s₀ sched n) = _
  rw [stateAt]
  cases step (stateAt step s₀ sched n) (sched n) with
  | none => exact Or.inr rfl
  | some s' => exact Or.inl rfl

/-- Every label of `F` is scheduled again and again. -/
def FairFor (F : L → Prop) (sched : ℕ → L) : Prop :=
  ∀ l, F l → ∀ n, ∃ m, n ≤ m ∧ sched m = l

/-- Every label that is scheduled meets the guard in the state it meets. -/
def GuardedSched (step : S → L → Option S) (ok : S → L → Prop) (s₀ : S)
    (sched : ℕ → L) : Prop :=
  ∀ n, ok (stateAt step s₀ sched n) (sched n)

theorem stateAt_reach (hg : GuardedSched step ok s₀ sched) :
    ∀ n, Reach step ok s₀ (stateAt step s₀ sched n)
  | 0 => Reach.start
  | n + 1 => by
    have ih := stateAt_reach hg n
    rcases stateAt_tick step s₀ sched n with hs | hs
    · exact Reach.next ih (hg n) hs
    · rw [hs]
      exact ih

theorem stateAt_keeps (step : S → L → Option S) (sched : ℕ → L) (hstart : P s₀)
    (hstep : ∀ s l s', P s → step s l = some s' → P s') :
    ∀ n, P (stateAt step s₀ sched n)
  | 0 => hstart
  | n + 1 => by
    have ih := stateAt_keeps step sched hstart hstep n
    rcases stateAt_tick step s₀ sched n with hs | hs
    · exact hstep _ _ _ ih hs
    · rw [hs]
      exact ih

/-- The schedule that starts with `ls` and goes on as `sched`. -/
def prepend : List L → (ℕ → L) → ℕ → L
  | [], sched => sched
  | l :: ls, sched => fun n =>
    match n with
    | 0 => l
    | n + 1 => prepend ls sched n

theorem stateAt_shift (step : S → L → Option S) (s₀ : S) (sched : ℕ → L) :
    ∀ n, stateAt step s₀ sched (n + 1) =
      stateAt step ((step s₀ (sched 0)).getD s₀) (fun k => sched (k + 1)) n
  | 0 => rfl
  | n + 1 => by
    show (step (stateAt step s₀ sched (n + 1)) (sched (n + 1))).getD _ = _
    rw [stateAt_shift step s₀ sched n]
    rfl

/-- A replay that meets the guard can stand in front of a guarded schedule. -/
theorem guardedSched_prepend [∀ s l, Decidable (ok s l)] :
    ∀ (ls : List L) (s₀ s₁ : S), guardedExec step ok s₀ ls = some s₁ →
      GuardedSched step ok s₁ sched → GuardedSched step ok s₀ (prepend ls sched)
  | [], s₀, s₁, h, hg => by
    simp only [guardedExec, Option.some.injEq] at h
    exact h ▸ hg
  | l :: ls, s₀, s₁, h, hg => by
    simp only [guardedExec] at h
    split at h
    next hok =>
      cases hs : step s₀ l with
      | none => simp [hs] at h
      | some s₂ =>
        simp only [hs] at h
        have ih := guardedSched_prepend ls s₂ s₁ h hg
        intro n
        cases n with
        | zero => exact hok
        | succ n =>
          rw [stateAt_shift]
          simp only [prepend, hs, Option.getD_some]
          exact ih n
    next => exact absurd h (by simp)

variable {F : L → Prop}

theorem fairFor_prepend (hfair : FairFor F sched) :
    ∀ ls : List L, FairFor F (prepend ls sched)
  | [] => hfair
  | _ :: ls => by
    intro l hl n
    obtain ⟨m, hm, heq⟩ := fairFor_prepend hfair ls l hl n
    exact ⟨m + 1, by omega, heq⟩

/-- The labels `l, ls` over and over again. -/
def cycle (l : L) (ls : List L) (n : ℕ) : L := ((l :: ls)[n % (ls.length + 1)]?).getD l

theorem cycle_mem (l : L) (ls : List L) (n : ℕ) : cycle l ls n ∈ l :: ls := by
  unfold cycle
  cases h : (l :: ls)[n % (ls.length + 1)]? with
  | none => exact List.mem_cons_self
  | some l' => exact List.mem_of_getElem? h

theorem cycle_fair (l : L) (ls : List L) : FairFor (· ∈ l :: ls) (cycle l ls) := by
  intro l' hl' n
  obtain ⟨k, hk, rfl⟩ := List.getElem_of_mem hl'
  have hk' : k < ls.length + 1 := by simpa using hk
  refine ⟨k + (ls.length + 1) * n, ?_, ?_⟩
  · have : n ≤ (ls.length + 1) * n := Nat.le_mul_of_pos_left n (by omega)
    omega
  · unfold cycle
    rw [Nat.add_mul_mod_self_left, Nat.mod_eq_of_lt hk', List.getElem?_eq_getElem hk]
    rfl

/-- **THE NEXT TURN.**  Whatever is kept by all labels that are not `mine` still
    holds when it is my turn again. -/
theorem fair_turn (mine : L → Prop) (P : S → Prop) (hfair : ∀ n, ∃ m, n ≤ m ∧ mine (sched m)) {k : ℕ}
    (hk : P (stateAt step s₀ sched k))
    (hkeep : ∀ n, k ≤ n → ¬ mine (sched n) → P (stateAt step s₀ sched n) → P (stateAt step s₀ sched (n + 1))) :
    ∃ m, k ≤ m ∧ mine (sched m) ∧ P (stateAt step s₀ sched m) := by
  classical
  have hex := hfair k
  -- nobody has had a turn before the first one
  have hbefore : ∀ n, k ≤ n → n ≤ Nat.find hex → P (stateAt step s₀ sched n) := by
    intro n hkn
    induction n, hkn using Nat.le_induction with
    | base => exact fun _ => hk
    | succ n hkn ih =>
      intro hle
      refine hkeep n hkn (fun hmine => ?_) (ih (by omega))
      exact Nat.find_min hex (by omega) ⟨hkn, hmine⟩
  obtain ⟨hle, hmine⟩ := Nat.find_spec hex
  exact ⟨Nat.find hex, hle, hmine, hbefore _ hle le_rfl⟩

/-- A natural-valued quantity that never grows is constant from some time on. -/
theorem eventually_constant (f : ℕ → ℕ) (h : ∀ n, f (n + 1) ≤ f n) : ∃ N, ∀ n, N ≤ n → f n = f N := by
  -- strong induction on the value at the time we look from
  suffices key : ∀ v k, f k ≤ v → ∃ N, ∀ n, N ≤ n → f n = f N from key (f 0) 0 le_rfl
  have hanti : ∀ k n, k ≤ n → f n ≤ f k := by
    intro k n hkn
    induction n, hkn using Nat.le_induction with
    | base => exact le_rfl
    | succ n _ ih => exact le_trans (h n) ih
  intro v
  induction v with
  | zero =>
    intro k hk
    refine ⟨k, fun n hn => ?_⟩
    have := hanti k n hn
    omega
  | succ v ih =>
    intro k hk
    by_cases hlow : ∃ m, k ≤ m ∧ f m ≤ v
    · obtain ⟨m, _, hm⟩ := hlow
      exact ih m hm
    refine ⟨k, fun n hn => ?_⟩
    have hle := hanti k n hn
    have hge : ¬ f n ≤ v := fun hv => hlow ⟨n, hn, hv⟩
    omega

/-- **FAIR RUNS SETTLE.**  If every enabled step either changes nothing or
    lowers `rank`, a guarded run comes to rest; and if the schedule is fair for
    `F`, no label of `F` can move the state it rests in. -/
theorem fairRun_settles (rank : S → ℕ) (hg : GuardedSched step ok s₀ sched) (hfair : FairFor F sched)
    (hrank : ∀ s l s', Reach step ok s₀ s → ok s l → step s l = some s' → s' = s ∨ rank s' < rank s) :
    ∃ N, ∀ l, F l → ∀ s', step (stateAt step s₀ sched N) l = some s' → s' = stateAt step s₀ sched N := by
  -- one tick either keeps the state or lowers the rank
  have htick : ∀ n, stateAt step s₀ sched (n + 1) = stateAt step s₀ sched n ∨
      rank (stateAt step s₀ sched (n + 1)) < rank (stateAt step s₀ sched n) := by
    intro n
    rcases stateAt_tick step s₀ sched n with hs | hs
    · exact hrank _ _ _ (stateAt_reach hg n) (hg n) hs
    · exact Or.inl hs
  obtain ⟨N, hN⟩ := eventually_constant (fun n => rank (stateAt step s₀ sched n)) (by
    intro n
    rcases htick n with h | h
    · exact le_of_eq (congrArg rank h)
    · exact le_of_lt h)
  -- from `N` on the rank no longer moves, hence neither does the state
  have hconst : ∀ n, N ≤ n → stateAt step s₀ sched n = stateAt step s₀ sched N := by
    intro n hn
    induction n, hn using Nat.le_induction with
    | base => rfl
    | succ n hle ih =>
      rcases htick n with h | h
      · rw [h, ih]
      · have h₁ := hN n hle
        have h₂ := hN (n + 1) (Nat.le_succ_of_le hle)
        omega
  refine ⟨N, fun l hl s' hs => ?_⟩
  obtain ⟨m, hm, hlm⟩ := hfair l hl N
  have hsm : stateAt step s₀ sched m = stateAt step s₀ sched N := hconst m hm
  have hnext : stateAt step s₀ sched (m + 1) = s' := by
    show (step (stateAt step s₀ sched m) (sched m)).getD (stateAt step s₀ sched m) = s'
    rw [hsm, hlm, hs]
    rfl
  rw [← hnext]
  exact hconst (m + 1) (Nat.le_succ_of_le hm)

end KalavaPir.Framework
