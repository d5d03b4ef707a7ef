/-
  KalavaPir.Worker.TrainingDelta — what `delta_for_training` counts.

  worker.conf introduces `delta-peak` as the number of NEWLY ADDED images that
  triggers a re-training.  The code keeps that number in a `uint32_t` which
  `ns_trainAdd` increments and `ns_trainDelete` decrements; it is set to zero
  once, by `initServerConfig`, and never again.

  The observer's notes say what the number should be: the successful adds minus
  the successful deletes since the last completed training.
-/
import KalavaPir.Worker.Service

namespace KalavaPir.Worker

open KalavaPir.Framework
open KalavaPir.Common

/-! ## §1. The number of newly added images. -/

/-- The notes since the last completed training (notes are newest first). -/
def sinceTrained (h : List Event) : List Event := h.takeWhile (· != .trained)

/-- Successful adds and successful deletes since the last completed
    training. -/
def adds (h : List Event) : ℕ := (sinceTrained h).count .added
/-- The deletions since the last training. -/
def deletes (h : List Event) : ℕ := (sinceTrained h).count .deleted

/-- Their difference, floored at 0. -/
def newlyAdded (h : List Event) : ℕ := adds h - deletes h

section Notes

variable (h : List Event)

@[simp] theorem adds_added : adds (.added :: h) = adds h + 1 := by
  simp [adds, sinceTrained]

@[simp] theorem deletes_added : deletes (.added :: h) = deletes h := by
  simp [deletes, sinceTrained]

@[simp] theorem adds_deleted : adds (.deleted :: h) = adds h := by
  simp [adds, sinceTrained]

@[simp] theorem deletes_deleted : deletes (.deleted :: h) = deletes h + 1 := by
  simp [deletes, sinceTrained]

@[simp] theorem adds_lib (c : LibCall) : adds (.lib c :: h) = adds h := by
  simp [adds, sinceTrained]

@[simp] theorem deletes_lib (c : LibCall) : deletes (.lib c :: h) = deletes h := by
  simp [deletes, sinceTrained]

@[simp] theorem adds_trained : adds (.trained :: h) = 0 := by
  simp [adds, sinceTrained]

@[simp] theorem deletes_trained : deletes (.trained :: h) = 0 := by
  simp [deletes, sinceTrained]

end Notes

/-! ## §2. The property and the condition. -/

/-- The counter is the number of newly added images. -/
def DeltaIsNet (c : Conf Server Thread) : Prop :=
  c.shared.delta_for_training.toNat = newlyAdded c.shared.history

instance (c : Conf Server Thread) : Decidable (DeltaIsNet c) :=
  inferInstanceAs (Decidable (_ = _))

/-- The retraining condition, asked of a number of images. -/
def netDue {F : Type} [CFloat F] (cfg : Config F) (n : ℕ) (unixtime lastinteraction : ℤ) : Bool :=
  (CFloat.ge (CFloat.ofUInt32 (BitVec.ofNat 32 n) : F)
        (CFloat.mul (CFloat.ofUInt32 cfg.delta_peak) cfg.delta_ratio)
      && decide ((unixtime - lastinteraction) * 1000 > cfg.idletime_for_training))
    || decide (cfg.delta_peak.toNat ≤ n)

/-- A step that decides for a retraining thread (the threshold test of
    `ns_trainAdd` comes out true) finds the retraining condition met by the
    number of newly added images. -/
def RetrainsWhenDue {F : Type} [CFloat F] (cfg : Config F) (c : Conf Server Thread) :
    Move Request Outcome → Prop
  | .arrive _ => True
  | .run i o => ∀ t yes no, c.pool[i]? = some t → t.code = .branch .threshold yes no →
      holds cfg c.shared o .threshold = true →
      netDue cfg (newlyAdded c.shared.history) c.shared.unixtime c.shared.lastinteraction = true

/-- What an action must find in the notes. -/
def Action.countable (h : List Event) : Action → Prop
  | .incDelta => newlyAdded h + 1 < 2 ^ 32
  | .decDelta => 0 < newlyAdded h
  | .logTrained => newlyAdded h = 0
  | _ => True

/-- **The condition**: a delete only goes through on a surplus of adds, a
    training only completes when there is none, and the surplus fits into 32
    bits. -/
def Countable (c : Conf Server Thread) : Move Request Outcome → Prop
  | .arrive _ => True
  | .run i _ => ∀ t ∈ c.pool[i]?, ∀ a ∈ t.next, a.countable c.shared.history

/-! ## §3. One step. -/

/-- Adds are never outnumbered: the side condition under which a floored
    difference can be counted up and down. -/
def Surplus (c : Conf Server Thread) : Prop :=
  deletes c.shared.history ≤ adds c.shared.history

variable {d : BitVec 32} {h : List Event}

/-- **One action**: the new counter is the new number of images exactly when
    the action found what it must find. -/
theorem deltaAfter_net_iff {a : Action} (hle : deletes h ≤ adds h) (hd : d.toNat = newlyAdded h) :
    (a.deltaAfter d).toNat = newlyAdded (a.historyAfter h) ↔ a.countable h := by
  have hlt : newlyAdded h < 2 ^ 32 := hd ▸ d.isLt
  have hone : (1 : BitVec 32).toNat = 1 := rfl
  cases a with
  | incDelta =>
    -- `delta++` is right unless it wraps to 0
    simp only [Action.deltaAfter, Action.historyAfter, Action.countable, newlyAdded, adds_added,
      deletes_added, BitVec.toNat_add, hone] at hd hlt ⊢
    omega
  | decDelta =>
    -- `delta--` is right unless it wraps to 2³² − 1
    simp only [Action.deltaAfter, Action.historyAfter, Action.countable, newlyAdded,
      adds_deleted, deletes_deleted, BitVec.toNat_sub, hone] at hd hlt ⊢
    omega
  | logTrained =>
    -- a training starts the count afresh, the code does not
    simp only [Action.deltaAfter, Action.historyAfter, Action.countable, newlyAdded,
      adds_trained, deletes_trained] at hd ⊢
    omega
  | lib c =>
    simp only [Action.deltaAfter, Action.historyAfter, Action.countable, newlyAdded, adds_lib,
      deletes_lib, iff_true] at hd ⊢
    exact hd
  | _ => simpa only [Action.deltaAfter, Action.historyAfter, Action.countable, iff_true] using hd

/-- A countable action leaves a surplus. -/
theorem surplus_after {a : Action} (hle : deletes h ≤ adds h) (hcount : a.countable h) :
    deletes (a.historyAfter h) ≤ adds (a.historyAfter h) := by
  cases a with
  | decDelta =>
    simp only [Action.countable, newlyAdded] at hcount
    simp only [Action.historyAfter, adds_deleted, deletes_deleted]
    omega
  | incDelta =>
    simp only [Action.historyAfter, adds_added, deletes_added]
    omega
  | logTrained => simp [Action.historyAfter]
  | lib c => simpa [Action.historyAfter] using hle
  | _ => exact hle

/-- **One step of the worker.** -/
theorem deltaIsNet_step_iff {F : Type} [CFloat F] {cfg : Config F} {c c' : Conf Server Thread}
    {m : Move Request Outcome} (hle : Surplus c) (hd : DeltaIsNet c) (hstep : step cfg c m = some c') :
    (DeltaIsNet c' ↔ Countable c m) ∧ (Countable c m → Surplus c') := by
  rcases (machine cfg).step_cases hstep with
    ⟨r, rfl, rfl⟩ | ⟨i, o, t, s', t', new, rfl, ht, hx, rfl⟩
  · exact ⟨⟨fun _ => trivial, fun _ => hd⟩, fun _ => hle⟩
  simp only [Countable, ht, Option.mem_def, Option.some.injEq, forall_eq']
  cases exec_inv hx with
  | act a k hcode hperf =>
    obtain ⟨_, hhist, hdelta, _⟩ := perform_spec hperf
    have hnext : t.next = some a := by simp [Thread.next, hcode]
    simp only [hnext, Option.some.injEq, forall_eq', DeltaIsNet, Surplus, hhist, hdelta]
    exact ⟨deltaAfter_net_iff hle hd, surplus_after hle⟩
  | retry a k hcode hcreate _ =>
    -- a failed thread creation counts nothing
    have hnext : t.next = some a := by simp [Thread.next, hcode]
    have hcount : a.countable c.shared.history := by
      cases a <;> simp_all [Action.isCreate, Action.countable]
    simp only [hnext, Option.some.injEq, forall_eq', hcount, iff_true, true_imp_iff]
    exact ⟨hd, hle⟩
  | branch b yes no hcode =>
    have hnext : t.next = none := by simp [Thread.next, hcode]
    simp only [hnext, reduceCtorEq, false_imp_iff, implies_true, iff_true, true_imp_iff]
    exact ⟨hd, hle⟩

theorem retrainDue_eq_netDue {F : Type} [CFloat F] (cfg : Config F) {n : ℕ} (hd : d.toNat = n)
    (unixtime lastinteraction : ℤ) :
    retrainDue cfg d unixtime lastinteraction = netDue cfg n unixtime lastinteraction := by
  subst hd
  simp [retrainDue, netDue, BitVec.le_def]

/-! ## §4. Main results. -/

/-- What the counter is for, along one run: it is the number of newly added
    images in every state, and every retraining is decided on that number. -/
def CountsNet {F : Type} [CFloat F] (cfg : Config F) (c : Conf Server Thread)
    (ls : List (Move Request Outcome)) : Prop :=
  Along (step cfg) DeltaIsNet c ls ∧ Steps (step cfg) (RetrainsWhenDue cfg) c ls

/-- **THE COUNTER COUNTS, EXACTLY ON COUNTABLE RUNS.** -/
theorem delta_counts_net {F : Type} [CFloat F] (cfg : Config F) (u : Startup) (pool : QQueue ℕ)
    (ls : List (Move Request Outcome)) :
    CountsNet cfg (boot u pool) ls ↔ Steps (step cfg) Countable (boot u pool) ls := by
  have hexact : Along (step cfg) DeltaIsNet (boot u pool) ls ↔
      Steps (step cfg) Countable (boot u pool) ls := by
    refine along_iff_steps Surplus ?_ ?_ ls (boot u pool) ?_ ?_
    · intro c m c' hle hd hs hd'
      obtain ⟨hiff, hsur⟩ := deltaIsNet_step_iff hle hd hs
      exact hsur (hiff.mp hd')
    · intro c m c' hle hd hs
      exact (deltaIsNet_step_iff hle hd hs).1
    · simp [Surplus, boot, Server.boot, adds, deletes, sinceTrained]
    · simp [DeltaIsNet, boot, Server.boot, newlyAdded, adds, deletes, sinceTrained]
  rw [← hexact]
  refine ⟨fun h => h.1, fun h => ⟨h, Along.steps ?_ h⟩⟩
  -- the decision of a step reads the counter of the state before it
  intro c m hd
  cases m with
  | arrive r => trivial
  | run i o =>
    intro t yes no _ _ hdue
    rw [← retrainDue_eq_netDue cfg hd]
    exact hdue

/-- A delete on a worker that has been started and never trained. -/
def deleteFirst : List (Move Request Outcome) :=
  runs 0 17 ++ .arrive (.trainDelete ['a']) :: runs 1 5

/-- The counter is not the number of newly added images. -/
theorem delta_wraps :
    ¬ ∀ (cfg : Config ℚ) (u : Startup) (pool : QQueue ℕ) (ls : List (Move Request Outcome)),
      CountsNet cfg (boot u pool) ls := by
  intro hall
  have hrun := (hall defaultConfig .recovery onePool deleteFirst).1
  obtain ⟨c, hc, hbad⟩ : ∃ c, guardedExec (step defaultConfig) anyStep (boot .recovery onePool)
      deleteFirst = some c ∧ (!decide (DeltaIsNet c)) = true := by
    rw [← Option.any_eq_true]
    decide
  simp only [Bool.not_eq_true', decide_eq_false_iff_not] at hbad
  exact hbad (hrun.last hc)

end KalavaPir.Worker
