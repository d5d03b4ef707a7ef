/-
  KalavaPir.Worker.TrainRun — one worker, one `train(0)` request, no other
  client.

  This is what the master's sequential training loop relies on.  The request
  goes through two phases: `Opening`, while its handler is alone and has not
  yet created the training thread, and `Training`, from the creation on.  In
  the second phase two look-aheads on the code of the training thread say what
  a client can read from the record:

    * `progressPCT` is below 1  ↔  the assignment of 7/7 is still ahead,
    * `serverstate` is TRAINED  ↔  no assignment of TRAINED is ahead.

  The two assignments are DIFFERENT statements, and 7/7 comes first.
-/
import Mathlib.Algebra.Order.Field.Rat
import Mathlib.Algebra.Order.Field.Basic
import KalavaPir.Worker.Service

namespace KalavaPir.Worker

open KalavaPir.Framework List
open KalavaPir.Common

/-! ## §1. Every statement of a worker lowers its rank. -/

/-- What an action may put into the pool counts for the action. -/
def Action.rank : Action → ℕ
  | .create b => Code.weight (fun _ => 0) b.code + 2
  | _ => 0

/-- The statements still ahead of a thread. -/
def Thread.rank (t : Thread) : ℕ :=
  Code.weight Action.rank t.code + (if t.started then 0 else 1)

/-- The statements still ahead of a worker. -/
def confRank (c : Conf Server Thread) : ℕ := (c.pool.map Thread.rank).sum

theorem spawned_rank (a : Action) : (a.spawned.map Thread.rank).sum ≤ a.rank := by
  cases a with
  | create b => cases b <;> decide
  | _ => simp [Action.spawned]

variable {F : Type} {s s' : Server} {i : ℕ} {o : Outcome} {new : List Thread} {b : Thread}
  {w w' : Conf Server Thread} {cfg : Config F}

theorem exec_rank [CFloat F] {t t' : Thread} (h : exec cfg s i t o = some (s', t', new)) :
    (s' = s ∧ t' = t ∧ new = [] ∧ o.ok = false) ∨
      t'.rank + (new.map Thread.rank).sum < t.rank := by
  cases exec_inv h with
  | act a k hcode hperf =>
    right
    obtain ⟨_, _, _, _, hcode', _, hst⟩ := perform_spec hperf
    have hnew := spawned_rank a
    simp only [Thread.rank, hcode', hst, hcode, Code.weight, if_true]
    omega
  | retry a k hcode _ hok =>
    cases hst : t.started with
    | true =>
      left
      refine ⟨rfl, ?_, rfl, hok⟩
      rw [← hst]
    | false =>
      right
      simp [Thread.rank, hst]
  | branch b yes no hcode =>
    right
    simp only [Thread.rank, hcode, Code.weight, if_true, map_nil, sum_nil]
    split <;> omega

/-- A scheduled thread either found its thread creation refused and changed
    nothing, or has lowered the rank. -/
theorem step_rank [CFloat F] {c c' : Conf Server Thread} (h : step cfg c (.run i o) = some c') :
    (c' = c ∧ o.ok = false) ∨ confRank c' < confRank c := by
  rcases (machine cfg).step_cases h with ⟨r, hr, _⟩ | ⟨j, o', t, s', t', new, hm, ht, hx, rfl⟩
  · exact absurd hr (by simp)
  simp only [Move.run.injEq] at hm
  obtain ⟨rfl, rfl⟩ := hm
  rcases exec_rank hx with ⟨hs, htt, hn, hok⟩ | hlt
  · left
    subst hs htt hn
    obtain ⟨hi, rfl⟩ := List.getElem?_eq_some_iff.mp ht
    exact ⟨by rw [append_nil, set_getElem_self], hok⟩
  right
  have hsum := pool_sum_set Thread.rank t' ht
  simp only [confRank, map_append, sum_append]
  omega

/-! ## §2. The training thread. -/

/-- `server.progressPCT=7.0/steps` is still ahead. -/
def finishAhead : WCode → Bool := Code.reaches (· == .setProgress 7 7) (fun _ => false)

/-- `server.serverstate=PIR_STATE_TRAINED` is still ahead. -/
def trainedAhead : WCode → Bool :=
  Code.reaches (· == .setState PIR_STATE_TRAINED) (fun _ => false)

/-- The control points of a `train_thread` that does not go on to start the
    service. -/
def trainPoints : List WCode := Code.noPath train_thread

/-- How the two look-aheads move with each kind of statement. -/
def trainPoint : WCode → Bool
  | .halt => true
  | .act (.setProgress x y) k =>
    decide (0 < y) && (finishAhead k == decide (x < y)) &&
      (trainedAhead k == trainedAhead (.act (.setProgress x y) k))
  | .act (.setState v) k =>
    (trainedAhead k == (v != PIR_STATE_TRAINED)) &&
      (finishAhead k == finishAhead (.act (.setState v) k))
  | .act (.lib c) k =>
    (finishAhead k == finishAhead (.act (.lib c) k)) &&
      (trainedAhead k == trainedAhead (.act (.lib c) k))
  | .act .logTrained k =>
    (finishAhead k == finishAhead (.act .logTrained k)) &&
      (trainedAhead k == trainedAhead (.act .logTrained k))
  | .act .ret k =>
    (finishAhead k == finishAhead (.act .ret k)) &&
      (trainedAhead k == trainedAhead (.act .ret k))
  | .branch .autostart yes no =>
    (finishAhead no == finishAhead (.branch .autostart yes no)) &&
      (trainedAhead no == trainedAhead (.branch .autostart yes no))
  | _ => false

theorem trainPoints_spec : ∀ c ∈ trainPoints, trainPoint c = true := by decide

/-- The training thread at one of its control points, and what the record
    shows there. -/
structure InTraining (s : Server) (b : Thread) : Prop where
  point : b.code ∈ trainPoints
  autostart : s.autostart = false
  progress : s.progressPCT < 1 ↔ finishAhead b.code = true
  state : s.serverstate = PIR_STATE_TRAINED ↔ trainedAhead b.code = false

theorem InTraining.congr (h : InTraining s b) (hauto : s'.autostart = s.autostart)
    (hprog : s'.progressPCT = s.progressPCT) (hstate : s'.serverstate = s.serverstate) : InTraining s' b :=
  ⟨h.point, hauto ▸ h.autostart, hprog ▸ h.progress, hstate ▸ h.state⟩

theorem progress_lt_one_iff {x y : ℕ} (hy : 0 < y) : (x : ℚ) / (y : ℚ) < 1 ↔ x < y := by
  rw [div_lt_one (by exact_mod_cast hy)]
  exact_mod_cast Iff.rfl

/-- **One statement of the training thread.** -/
theorem InTraining.exec [CFloat F] {b' : Thread} (h : InTraining s b)
    (hx : Worker.exec cfg s i b o = some (s', b', new)) : new = [] ∧ InTraining s' b' := by
  cases exec_inv hx with
  | act a k hcode hperf =>
    obtain ⟨hst, _, _, _, hcode', _, _⟩ := perform_spec hperf
    obtain ⟨hprog, hauto⟩ := perform_progress hperf
    have hk : b'.code = k := hcode'
    have hpoint : .act a k ∈ trainPoints := hcode ▸ h.point
    have hspec := trainPoints_spec _ hpoint
    have hp := h.progress
    have hs := h.state
    rw [hcode] at hp hs
    cases a <;> simp only [trainPoint, Bool.and_eq_true, beq_iff_eq, decide_eq_true_eq,
      Bool.false_eq_true] at hspec
    case setState v =>
      -- the state stored is TRAINED exactly when no store of it is left
      refine ⟨rfl, hk ▸ Code.noPath_act hpoint, hauto ▸ h.autostart, ?_, ?_⟩
      · rw [hprog, hk, hspec.2]
        exact hp
      · rw [hst, hk, hspec.1]
        simp [Action.stateAfter]
    case setProgress x y =>
      -- `x/y` is below 1 exactly while the 7/7 is still ahead
      refine ⟨rfl, hk ▸ Code.noPath_act hpoint, hauto ▸ h.autostart, ?_, ?_⟩
      · rw [hprog, hk, hspec.1.2, decide_eq_true_eq]
        exact progress_lt_one_iff hspec.1.1
      · rw [hst, hk, hspec.2]
        exact hs
    -- every other statement touches neither the state nor the progress
    all_goals
      refine ⟨rfl, hk ▸ Code.noPath_act hpoint, hauto ▸ h.autostart, ?_, ?_⟩
      · rw [hprog, hk, hspec.1]
        exact hp
      · rw [hst, hk, hspec.2]
        exact hs
  | retry a k hcode hcreate _ =>
    -- no `pthread_create` on this path
    have hspec := trainPoints_spec _ h.point
    rw [hcode] at hspec
    cases a <;> simp [trainPoint, Action.isCreate] at hspec hcreate
  | branch t yes no hcode =>
    have hpoint : .branch t yes no ∈ trainPoints := hcode ▸ h.point
    have hspec := trainPoints_spec _ hpoint
    have hp := h.progress
    have hs := h.state
    rw [hcode] at hp hs
    cases t <;> simp only [trainPoint, Bool.and_eq_true, beq_iff_eq, Bool.false_eq_true] at hspec
    -- `autostart` is off: the thread does not go on to start the service
    have hoff : holds cfg s o .autostart = false := h.autostart
    refine ⟨rfl, ?_⟩
    simp only [hoff, Bool.false_eq_true, if_false]
    exact ⟨Code.noPath_no hpoint, h.autostart, by rw [hspec.1]; exact hp,
      by rw [hspec.2]; exact hs⟩

/-- What is behind the thread stays behind it. -/
theorem trainedAhead_exec [CFloat F] {b' : Thread} (hx : exec cfg s i b o = some (s', b', new))
    (hno : trainedAhead b.code = false) : trainedAhead b'.code = false := by
  cases exec_inv hx with
  | act a k hcode hperf =>
    rw [(perform_spec hperf).2.2.2.2.1]
    rw [hcode] at hno
    simp only [trainedAhead, Code.reaches, Bool.or_eq_false_iff, Bool.not_false,
      Bool.true_and] at hno
    exact hno.2
  | retry => exact hno
  | branch t yes no hcode =>
    rw [hcode] at hno
    simp only [trainedAhead, Code.reaches, Bool.or_eq_false_iff] at hno
    show trainedAhead (if _ then _ else _) = false
    split
    · exact hno.1
    · exact hno.2

theorem InTraining.enabled [CFloat F] (cfg : Config F) (h : InTraining s b) (i : ℕ) (hlive : b.code ≠ .halt) :
    (Worker.exec cfg s i b {}).isSome = true := by
  have hspec := trainPoints_spec _ h.point
  unfold Worker.exec
  cases hcode : b.code with
  | halt => exact absurd hcode hlive
  | act a k =>
    cases a <;> simp_all [trainPoint, perform]
  | branch t yes no => simp

/-! ## §3. The two phases of the request. -/

/-- The handler of `train(0)` before it creates the thread. -/
inductive OpeningAt (s : Server) : WCode → Prop
  | arrived : OpeningAt s (ns_train 0)
  | marked (hs : s.serverstate ≠ PIR_STATE_TRAINED) :
      OpeningAt s (.block [.setProgress 0 1, .setAutostart false, .create .train_thread] respond)
  | zeroed (hs : s.serverstate ≠ PIR_STATE_TRAINED) (hp : s.progressPCT < 1) :
      OpeningAt s (.block [.setAutostart false, .create .train_thread] respond)
  | armed (hs : s.serverstate ≠ PIR_STATE_TRAINED) (hp : s.progressPCT < 1)
      (ha : s.autostart = false) : OpeningAt s (.block [.create .train_thread] respond)

/-- The handler after it has created the thread. -/
inductive Answering : Thread → Prop
  | replying {h : Thread} (hcode : h.code = respond) (htag : h.tag = none) : Answering h
  | replied {h : Thread} (hcode : h.code = .act .interacted .halt) (htag : h.tag.isSome = true) :
      Answering h
  | finished {h : Thread} (hcode : h.code = .halt) (htag : h.tag.isSome = true) : Answering h

/-- First phase: the handler is alone. -/
def Opening (w : Conf Server Thread) : Prop :=
  ∃ h, w.pool = [h] ∧ h.tag = none ∧ OpeningAt w.shared h.code

/-- Second phase: the handler answers, the training thread works. -/
def Training (w : Conf Server Thread) : Prop :=
  ∃ h b, w.pool = [h, b] ∧ Answering h ∧ InTraining w.shared b

/-- The training thread has published TRAINED. -/
def Trained (w : Conf Server Thread) : Prop :=
  Training w ∧ w.shared.serverstate = PIR_STATE_TRAINED

theorem opening_arrive (hidle : w.pool = []) :
    Opening { w with pool := w.pool ++ [(Request.train 0).thread] } := by
  refine ⟨(Request.train 0).thread, by simp [hidle], rfl, ?_⟩
  exact OpeningAt.arrived

theorem training_thread_start (hs : s.serverstate ≠ PIR_STATE_TRAINED) (hp : s.progressPCT < 1)
    (ha : s.autostart = false) : InTraining s Background.train_thread.thread := by
  refine ⟨Code.mem_noPath_self _, ha, ?_, ?_⟩
  · simp only [hp, true_iff]
    decide
  · simp only [hs, false_iff, Bool.not_eq_false]
    decide

variable {j : ℕ}

/-- **One step of the first phase.** -/
theorem opening_step [CFloat F] (hw : Opening w) (h : step cfg w (.run j o) = some w') :
    Opening w' ∨ Training w' := by
  obtain ⟨hd, hpool, htag, hat⟩ := hw
  rcases (machine cfg).step_cases h with ⟨r, hr, _⟩ | ⟨i, o', t, s', t', new, hm, ht, hx, rfl⟩
  · exact absurd hr (by simp)
  rw [hpool] at ht
  have hi : i = 0 := by
    have := (List.getElem?_eq_some_iff.mp ht).1
    simpa using this
  subst hi
  simp only [getElem?_cons_zero, Option.some.injEq] at ht
  subst ht
  rw [hpool]
  -- as long as the thread is not created the pool is the handler alone
  have hmid : ∀ {s₁ : Server} {k : WCode} {st : Bool}, OpeningAt s₁ k →
      Opening { shared := s₁, pool := [{ hd with code := k, started := st }] } :=
    fun hk => ⟨_, rfl, htag, hk⟩
  generalize hcode : hd.code = code at hat
  change exec cfg w.shared 0 hd o' = some (s', t', new) at hx
  rw [exec, hcode] at hx
  cases hat with
  | arrived =>
    simp only [ns_train, Code.block, Action.isCreate, perform, Bool.false_and,
      Bool.false_eq_true, if_false, Option.some.injEq, Prod.mk.injEq] at hx
    obtain ⟨rfl, rfl, rfl⟩ := hx
    exact Or.inl (hmid (OpeningAt.marked (by simp [PIR_STATE_TRAINING, PIR_STATE_TRAINED])))
  | marked hs =>
    simp only [Code.block, Action.isCreate, perform, Bool.false_and,
      Bool.false_eq_true, if_false, Option.some.injEq, Prod.mk.injEq] at hx
    obtain ⟨rfl, rfl, rfl⟩ := hx
    exact Or.inl (hmid (OpeningAt.zeroed hs (by simp)))
  | zeroed hs hp =>
    simp only [Code.block, Action.isCreate, perform, Bool.false_and,
      Bool.false_eq_true, if_false, Option.some.injEq, Prod.mk.injEq] at hx
    obtain ⟨rfl, rfl, rfl⟩ := hx
    exact Or.inl (hmid (OpeningAt.armed hs hp rfl))
  | armed hs hp ha =>
    simp only [Code.block, Action.isCreate, perform, Bool.true_and] at hx
    split at hx
    · -- the creation failed and will be tried again
      obtain ⟨rfl, rfl, rfl⟩ := hx
      left
      exact ⟨_, rfl, htag, OpeningAt.armed hs hp ha⟩
    simp only [Option.some.injEq, Prod.mk.injEq] at hx
    obtain ⟨rfl, rfl, rfl⟩ := hx
    right
    exact ⟨_, _, rfl, Answering.replying rfl htag, training_thread_start hs hp ha⟩

/-- **One step of the second phase.**  It stays in the phase, and TRAINED,
    once published, stays published. -/
theorem training_step [CFloat F] (hw : Training w) (h : step cfg w (.run j o) = some w') :
    Training w' ∧
      (w.shared.serverstate = PIR_STATE_TRAINED → w'.shared.serverstate = PIR_STATE_TRAINED) := by
  obtain ⟨hd, b, hpool, hans, hb⟩ := hw
  rcases (machine cfg).step_cases h with ⟨r, hr, _⟩ | ⟨i, o', t, s', t', new, hm, ht, hx, rfl⟩
  · exact absurd hr (by simp)
  change exec cfg w.shared i t o' = some (s', t', new) at hx
  rw [hpool] at ht ⊢
  rcases i with _ | _ | i
  · -- the handler: `*tag=ret`, then the time stamp
    simp only [getElem?_cons_zero, Option.some.injEq] at ht
    subst ht
    rw [exec] at hx
    cases hans with
    | replying hcode htag =>
      simp only [hcode, respond, Code.block, Action.isCreate, perform, Bool.false_and,
        Bool.false_eq_true, if_false, Option.some.injEq, Prod.mk.injEq] at hx
      obtain ⟨rfl, rfl, rfl⟩ := hx
      exact ⟨⟨_, b, rfl, Answering.replied rfl rfl, hb⟩, id⟩
    | replied hcode htag =>
      simp only [hcode, Action.isCreate, perform, Bool.false_and,
        Bool.false_eq_true, if_false, Option.some.injEq, Prod.mk.injEq] at hx
      obtain ⟨rfl, rfl, rfl⟩ := hx
      exact ⟨⟨_, b, rfl, Answering.finished rfl htag, hb.congr rfl rfl rfl⟩, id⟩
    | finished hcode _ => simp [hcode] at hx
  · -- the training thread: one more point of its path
    simp only [Nat.zero_add, getElem?_cons_succ, getElem?_cons_zero,
      Option.some.injEq] at ht
    subst ht
    obtain ⟨rfl, hb'⟩ := hb.exec hx
    refine ⟨⟨hd, t', rfl, hans, hb'⟩, fun htr => ?_⟩
    exact hb'.state.mpr (trainedAhead_exec hx (hb.state.mp htr))
  · simp at ht

theorem trained_step [CFloat F] (hw : Trained w) (h : step cfg w (.run j o) = some w') :
    Trained w' := by
  obtain ⟨hT, hs⟩ := hw
  obtain ⟨hT', hkeep⟩ := training_step hT h
  exact ⟨hT', hkeep hs⟩

/-! ## §4. The request gets on. -/

theorem run_moves [CFloat F] (cfg : Config F) {t : Thread} (ht : w.pool[i]? = some t)
    (hsome : (exec cfg w.shared i t {}).isSome = true) : ∃ w', step cfg w (.run i {}) = some w' ∧ w' ≠ w := by
  obtain ⟨⟨s', t', new⟩, hx⟩ := Option.isSome_iff_exists.mp hsome
  have hstep := (machine cfg).step_run ht hx
  -- only a failed creation leaves the rank as it is, and `{}` fails nothing
  refine ⟨_, hstep, fun heq => ?_⟩
  rcases step_rank hstep with ⟨_, hok⟩ | hlt
  · exact absurd hok (by simp)
  · rw [heq] at hlt
    exact lt_irrefl _ hlt

theorem opening_moves [CFloat F] (cfg : Config F) (hw : Opening w) :
    ∃ w', step cfg w (.run 0 {}) = some w' ∧ w' ≠ w := by
  obtain ⟨hd, hpool, _, hat⟩ := hw
  refine run_moves cfg (t := hd) (by simp [hpool]) ?_
  unfold exec
  generalize hd.code = code at hat ⊢
  cases hat <;> simp [ns_train, Code.block, perform]

theorem training_replies [CFloat F] (cfg : Config F) (hw : Training w) :
    (∃ h, w.pool[0]? = some h ∧ h.tag.isSome = true) ∨
      ∃ w', step cfg w (.run 0 {}) = some w' ∧ w' ≠ w := by
  obtain ⟨hd, b, hpool, hans, _⟩ := hw
  cases hans with
  | replying hcode _ =>
    right
    refine run_moves cfg (t := hd) (by simp [hpool]) ?_
    simp [exec, hcode, respond, Code.block, perform]
  | replied _ htag | finished _ htag => exact Or.inl ⟨hd, by simp [hpool], htag⟩

theorem training_progresses [CFloat F] (cfg : Config F) (hw : Training w) (hp : w.shared.progressPCT < 1) :
    ∃ w', step cfg w (.run 1 {}) = some w' ∧ w' ≠ w := by
  obtain ⟨hd, b, hpool, _, hb⟩ := hw
  refine run_moves cfg (t := b) (by simp [hpool]) (hb.enabled cfg 1 fun hhalt => ?_)
  have hahead := hb.progress.mp hp
  rw [hhalt] at hahead
  exact absurd hahead (by decide)

theorem training_state_iff (hw : Training w) :
    w.shared.serverstate = PIR_STATE_TRAINED ↔ ∀ t ∈ w.pool, trainedAhead t.code = false := by
  obtain ⟨hd, b, hpool, hans, hb⟩ := hw
  have hhandler : trainedAhead hd.code = false := by
    cases hans with
    | replying hcode _ | replied hcode _ | finished hcode _ => rw [hcode]; rfl
  rw [hb.state, hpool]
  simp [hhandler]

end KalavaPir.Worker
