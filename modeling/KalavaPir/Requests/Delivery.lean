/-
  KalavaPir.Requests.Delivery — every accepted connection is handed to one
  thread.

  In every fair run the socket accepted as number `k` is, sooner or later, the
  one handed over as number `k`.  The argument is by contradiction: a queue that
  is never empty again and from which nothing is taken any more (`Stuck`) would
  need a set trigger, hence a thread that leaves `wait()`, hence a pop.
-/
import KalavaPir.Requests.HandOff

namespace KalavaPir.Requests

open KalavaPir.Common
open KalavaPir.Framework List

/-! ## §1. What only grows. -/

/-- How many sockets have been pushed. -/
def Server.pushed (sv : Server) : ℕ := sv.handed.length + sv.client_queue.toList.length

/-- Nothing that was recorded is taken back. -/
structure Grows (sv sv' : Server) : Prop where
  handed : sv.handed <+: sv'.handed
  accepted : sv.accepted <+: sv'.accepted
  pushed : sv.pushed ≤ sv'.pushed
  max_size : sv'.client_queue.max_size_ = sv.client_queue.max_size_

theorem Grows.refl (sv : Server) : Grows sv sv :=
  ⟨prefix_refl _, prefix_refl _, le_rfl, rfl⟩

theorem Grows.trans {sv₁ sv₂ sv₃ : Server} (h : Grows sv₁ sv₂) (h' : Grows sv₂ sv₃) : Grows sv₁ sv₃ :=
  ⟨h.handed.trans h'.handed, h.accepted.trans h'.accepted, h.pushed.trans h'.pushed,
    h'.max_size.trans h.max_size⟩

theorem ActorStep.grows {sv sv' : Server} {i : ℕ} {a a' : Actor} (h : ActorStep sv i a sv' a') :
    Grows sv sv' := by
  cases h with
  | accept sock => exact ⟨prefix_refl _, prefix_append _ _, le_rfl, rfl⟩
  | push sock q hq =>
    refine ⟨prefix_refl _, prefix_refl _, ?_, QQueue.push_max_size hq⟩
    simp only [Server.pushed, QQueue.push_toList hq, length_append]
    omega
  | pop t sock q hpc hq =>
    refine ⟨prefix_append _ _, prefix_refl _, ?_, QQueue.pop_max_size hq⟩
    simp only [Server.pushed, QQueue.pop_toList hq, length_append, length_cons,
      length_nil]
    omega
  | _ => exact ⟨prefix_refl _, prefix_refl _, le_rfl, rfl⟩

/-! ## §2. What a thread does when it is its turn. -/

/-- The statements until the next pop, and until the next test in `wait()`. -/
def ThreadPc.toPop : ThreadPc → ℕ
  | .check => 2
  | .serve => 1
  | .busy => 1
  | _ => 0

/-- The steps up to the wait. -/
def ThreadPc.toWait : ThreadPc → ℕ
  | .begin => 3
  | .test => 2
  | .idle => 1
  | _ => 0

section Turn

variable {sv : Server} {i : ℕ} {t : Thread}

theorem Actor.exec_thread {sv' : Server} {t' : Thread} {o : Outcome} (h : t.exec sv i o = some (sv', t')) :
    (Actor.thread t).exec sv i o = some (sv', .thread t') := by
  simp [Actor.exec, h]

theorem Actor.exec_push {sock : ℤ} {q : QQueue ℤ} (o : Outcome) (h : sv.client_queue.push sock = some q) :
    (Actor.acceptor (.push sock)).exec sv i o = some ({ sv with client_queue := q }, .acceptor .signal) := by
  simp [Actor.exec, AcceptPc.exec, h]

/-- Past `wait()`, with something in the queue: it pops, or comes closer to
    it. -/
theorem Thread.exec_pastWait (o : Outcome) (hp : t.pc.pastWait = true) (hne : sv.client_queue.toList ≠ []) :
    ∃ sv' t', t.exec sv i o = some (sv', t') ∧ (sv'.handed.length = sv.handed.length + 1 ∨
      (t'.pc.pastWait = true ∧ t'.pc.toPop < t.pc.toPop)) := by
  cases hpc : t.pc <;> simp only [hpc, ThreadPc.pastWait, Bool.false_eq_true] at hp
  case busy =>
    simp only [Thread.exec, hpc]
    exact ⟨_, _, rfl, Or.inr ⟨rfl, by simp [ThreadPc.toPop]⟩⟩
  case serve =>
    simp only [Thread.exec, hpc]
    exact ⟨_, _, rfl, Or.inr ⟨rfl, by simp [ThreadPc.toPop]⟩⟩
  case check =>
    simp only [Thread.exec, hpc]
    split
    · exact ⟨_, _, rfl, Or.inr ⟨rfl, by simp [ThreadPc.toPop]⟩⟩
    · exact ⟨_, _, rfl, Or.inr ⟨rfl, by simp [ThreadPc.toPop]⟩⟩
  case pop =>
    simp only [Thread.exec, hpc, QQueue.pop_non_blocking]
    cases hq : sv.client_queue.pop with
    | none => exact absurd ((QQueue.pop_eq_none_iff _).mp hq) hne
    | some r => exact ⟨_, _, rfl, Or.inl (by simp)⟩

/-- Before `wait()` or woken inside it, with the trigger set: it leaves `wait()`,
    or comes closer to it. -/
theorem Thread.exec_toWait (o : Outcome) (hp : t.pc.pastWait = false)
    (hend : ¬ (t.pc = .leave ∨ t.pc = .finished)) (hrun : sv.shutdown_asap = false)
    (hset : sv.client_queue_trigger.m_state = 1) (hcond : i ∉ sv.client_queue_trigger.cond) :
    ∃ sv' t', t.exec sv i o = some (sv', t') ∧ (t'.pc.pastWait = true ∨
      (sv'.client_queue_trigger = sv.client_queue_trigger ∧ t'.pc.toWait < t.pc.toWait)) := by
  have hleave : (sv.client_queue_trigger.wait i).1 = true := by
    simp [QTrigger.wait, hset]
  cases hpc : t.pc <;> simp only [hpc, ThreadPc.pastWait, Bool.true_eq_false] at hp
  case begin =>
    simp only [Thread.exec, hpc]
    exact ⟨_, _, rfl, Or.inr ⟨rfl, by simp [ThreadPc.toWait]⟩⟩
  case test =>
    simp only [Thread.exec, hpc, hrun]
    exact ⟨_, _, rfl, Or.inr ⟨rfl, by simp [ThreadPc.toWait]⟩⟩
  case idle =>
    simp only [Thread.exec, hpc]
    exact ⟨_, _, rfl, Or.inr ⟨rfl, by simp [ThreadPc.toWait]⟩⟩
  case wait =>
    simp only [Thread.exec, hpc]
    exact ⟨_, _, rfl, Or.inl (by simp [hleave, ThreadPc.pastWait])⟩
  case blocked =>
    simp only [Thread.exec, hpc, QTrigger.awake, if_neg hcond]
    exact ⟨_, _, rfl, Or.inl (by simp [hleave, ThreadPc.pastWait])⟩
  case leave => exact absurd (Or.inl hpc) hend
  case finished => exact absurd (Or.inr hpc) hend

end Turn

/-! ## §3. Fair runs before the shutdown. -/

/-- Nobody has asked for a shutdown yet. -/
def BeforeShutdown (c : Conf Server Actor) (_ : Move Unit Outcome) : Prop :=
  c.shared.shutdown_asap = false

/-- A turn for the acceptor and for each of the `n` threads. -/
def serverTurns (n : ℕ) : List (Move Unit Outcome) :=
  (List.range (n + 1)).map (fun i => .run i {})

/-- A fair run of a server with `n` threads, from its start on, before the
    shutdown. -/
structure FairServer (q : QQueue ℤ) (n : ℕ) (sched : ℕ → Move Unit Outcome) : Prop where
  empty : q.toList = []
  threads : 0 < n
  running : GuardedSched step BeforeShutdown (boot q n) sched
  fair : FairFor (· ∈ serverTurns n) sched

/-- The state at time `j`. -/
abbrev stateOf (q : QQueue ℤ) (n : ℕ) (sched : ℕ → Move Unit Outcome) (j : ℕ) :
    Conf Server Actor :=
  stateAt step (boot q n) sched j

section Fair

variable {q : QQueue ℤ} {n : ℕ} {sched : ℕ → Move Unit Outcome}

theorem FairServer.inv (h : FairServer q n sched) (j : ℕ) : HandOff n (stateOf q n sched j) :=
  handOff_reach h.empty (stateAt_reach h.running j)

variable {i j : ℕ} {a : Actor}

theorem FairServer.turn (h : FairServer q n sched) (hi : i ≤ n) (k : ℕ) :
    ∃ m, k ≤ m ∧ ∃ o, sched m = .run i o := by
  obtain ⟨m, hm, heq⟩ := h.fair (.run i {})
    (mem_map.mpr ⟨i, mem_range.mpr (by omega), rfl⟩) k
  exact ⟨m, hm, _, heq⟩

theorem stateOf_tick (q : QQueue ℤ) (n : ℕ) (sched : ℕ → Move Unit Outcome) (j : ℕ) :
    step (stateOf q n sched j) (sched j) = some (stateOf q n sched (j + 1)) ∨
      stateOf q n sched (j + 1) = stateOf q n sched j :=
  stateAt_tick step (boot q n) sched j

theorem grows_succ (q : QQueue ℤ) (n : ℕ) (sched : ℕ → Move Unit Outcome) (j : ℕ) :
    Grows (stateOf q n sched j).shared (stateOf q n sched (j + 1)).shared := by
  rcases stateOf_tick q n sched j with hs | hs
  · rcases step_inv hs with ⟨_, hc⟩ | ⟨i, o, a, sv', a', _, _, hact, hc⟩
    · rw [hc]
      exact Grows.refl _
    · rw [hc]
      exact hact.grows
  · rw [hs]
    exact Grows.refl _

theorem grows_of_le (q : QQueue ℤ) (n : ℕ) (sched : ℕ → Move Unit Outcome) {k : ℕ} (hjk : j ≤ k) :
    Grows (stateOf q n sched j).shared (stateOf q n sched k).shared := by
  induction k, hjk using Nat.le_induction with
  | base => exact Grows.refl _
  | succ k _ ih => exact ih.trans (grows_succ q n sched k)

/-- Somebody else's tick: actor `i` stays where it is, and does not get onto the
    condition variable. -/
theorem tick_other (hinv : HandOff n (stateOf q n sched j)) (hm : ¬ ∃ o, sched j = .run i o)
    (ha : (stateOf q n sched j).pool[i]? = some a) : (stateOf q n sched (j + 1)).pool[i]? = some a ∧
      (i ∉ (stateOf q n sched j).shared.client_queue_trigger.cond →
        i ∉ (stateOf q n sched (j + 1)).shared.client_queue_trigger.cond) := by
  rcases stateOf_tick q n sched j with hs | hs
  · rcases step_inv hs with ⟨_, hc⟩ | ⟨k, o, b, sv', b', hk, hb, hact, hc⟩
    · rw [hc]
      exact ⟨lookup_arrive ha, id⟩
    have hne : i ≠ k := by
      rintro rfl
      exact hm ⟨o, hk⟩
    rw [hc]
    refine ⟨lookup_set_ne hne ha, fun hnot hmem => ?_⟩
    rcases hact.cond (hinv.own_cond hb) hmem with ⟨_, hold⟩ | ⟨heq, _⟩
    · exact hnot hold
    · exact hne heq
  · rw [hs]
    exact ⟨ha, id⟩

/-- The next turn of actor `i` finds it where it is now. -/
theorem FairServer.next_turn (h : FairServer q n sched) (hi : i ≤ n)
    (ha : (stateOf q n sched j).pool[i]? = some a) :
    ∃ m, j ≤ m ∧ (∃ o, sched m = .run i o) ∧ (stateOf q n sched m).pool[i]? = some a ∧
      (i ∉ (stateOf q n sched j).shared.client_queue_trigger.cond →
        i ∉ (stateOf q n sched m).shared.client_queue_trigger.cond) :=
  fair_turn (fun l : Move Unit Outcome => ∃ o, l = .run i o)
    (fun c : Conf Server Actor => c.pool[i]? = some a ∧
      (i ∉ (stateOf q n sched j).shared.client_queue_trigger.cond →
        i ∉ c.shared.client_queue_trigger.cond))
    (h.turn hi) ⟨ha, id⟩
    (fun k _ hother hk => by
      obtain ⟨hpool, hcond⟩ := tick_other (h.inv k) hother hk.1
      exact ⟨hpool, fun hj => hcond (hk.2 hj)⟩)

/-- Its own tick. -/
theorem tick_own {o : Outcome} {a' : Actor} {sv' : Server} (hm : sched j = .run i o)
    (ha : (stateOf q n sched j).pool[i]? = some a)
    (hx : a.exec (stateOf q n sched j).shared i o = some (sv', a')) :
    (stateOf q n sched (j + 1)).shared = sv' ∧
      (stateOf q n sched (j + 1)).pool[i]? = some a' := by
  have hexec : machine.exec (stateOf q n sched j).shared i a o = some (sv', a', []) := by
    simp [machine, hx]
  have hstep : step (stateOf q n sched j) (sched j) =
      some { shared := sv', pool := (stateOf q n sched j).pool.set i a' } := by
    rw [hm]
    simpa using machine.step_run ha hexec
  have hnext : stateOf q n sched (j + 1) =
      { shared := sv', pool := (stateOf q n sched j).pool.set i a' } := by
    rw [stateOf, stateAt, hstep]
    rfl
  rw [hnext]
  exact ⟨rfl, lookup_set_self ha⟩

end Fair

/-! ## §4. A queue does not get stuck. -/

/-- From time `N` on the queue is never empty and nothing is taken from it. -/
def Stuck (q : QQueue ℤ) (n : ℕ) (sched : ℕ → Move Unit Outcome) (N : ℕ) : Prop :=
  ∀ j, N ≤ j → (stateOf q n sched j).shared.client_queue.toList ≠ [] ∧
    (stateOf q n sched (j + 1)).shared.handed.length =
      (stateOf q n sched j).shared.handed.length

section Stuck

variable {q : QQueue ℤ} {n : ℕ} {sched : ℕ → Move Unit Outcome} {N : ℕ}

section

variable (h : FairServer q n sched)
include h

/-- A thread past `wait()` would pop. -/
theorem Stuck.nobody_pastWait (hstuck : Stuck q n sched N) {j : ℕ} (hj : N ≤ j) {i : ℕ} {t : Thread}
    (ht : (stateOf q n sched j).pool[i]? = some (.thread t)) : t.pc.pastWait = false := by
  -- induction on the number of statements until the pop
  suffices key : ∀ (r j : ℕ) (t : Thread), N ≤ j →
      (stateOf q n sched j).pool[i]? = some (.thread t) → t.pc.pastWait = true →
      t.pc.toPop < r → False by
    by_contra hp
    exact key _ j t hj ht (by simpa using hp) (Nat.lt_succ_self _)
  intro r
  induction r with
  | zero => exact fun j t _ _ _ hr => absurd hr (by omega)
  | succ r ih =>
    intro j t hj ht hp hr
    obtain ⟨m, hm, ⟨o, ho⟩, ht, _⟩ := h.next_turn ((h.inv j).layout.of_thread ht).2 ht
    obtain ⟨hne, hsame⟩ := hstuck m (by omega)
    obtain ⟨sv', t', hx, hcase⟩ := Thread.exec_pastWait (i := i) o hp hne
    obtain ⟨hsv, ht'⟩ := tick_own ho ht (Actor.exec_thread hx)
    rcases hcase with hpop | ⟨hp', hlt⟩
    · rw [hsv] at hsame
      omega
    · exact ih (m + 1) t' (by omega) ht' hp' (by omega)

/-- The trigger gets set. -/
theorem Stuck.gets_set (hstuck : Stuck q n sched N) :
    ∃ j, N ≤ j ∧ (stateOf q n sched j).shared.client_queue_trigger.m_state = 1 := by
  rcases (h.inv N).covered (hstuck N le_rfl).1 with hset | ⟨i, a, ha, hd⟩
  · exact ⟨N, le_rfl, hset⟩
  cases a with
  | thread t =>
    have hp : t.pc.pastWait = true := hd
    rw [hstuck.nobody_pastWait h le_rfl ha] at hp
    exact absurd hp (by simp)
  | shutdown b => exact absurd hd (by simp [Actor.onDuty])
  | acceptor pc =>
    have hi := (h.inv N).layout.of_acceptor ha
    subst hi
    have hpc : pc = .signal := by cases pc <;> simp_all [Actor.onDuty]
    subst hpc
    -- nothing holds the acceptor up
    obtain ⟨m, hm, ⟨o, ho⟩, hs, _⟩ := h.next_turn (Nat.zero_le n) ha
    obtain ⟨hsv, _⟩ := tick_own ho hs rfl
    exact ⟨m + 1, by omega, by rw [hsv]; simp⟩

/-- And it stays set: whoever took it would be past `wait()`. -/
theorem Stuck.stays_set (hstuck : Stuck q n sched N) {j k : ℕ} (hj : N ≤ j) (hjk : j ≤ k)
    (hset : (stateOf q n sched j).shared.client_queue_trigger.m_state = 1) :
    (stateOf q n sched k).shared.client_queue_trigger.m_state = 1 := by
  induction k, hjk using Nat.le_induction with
  | base => exact hset
  | succ k hjk ih =>
    rcases stateOf_tick q n sched k with hs | hs
    · rcases step_inv hs with ⟨_, hc⟩ | ⟨i, o, a, sv', a', _, ha, hact, hc⟩
      · rw [hc]
        exact ih
      rcases hact.duty.2.2 ih with hset' | ⟨t', rfl, hp⟩
      · rw [hc]
        exact hset'
      have ht' : (stateOf q n sched (k + 1)).pool[i]? = some (.thread t') := by
        rw [hc]
        exact lookup_set_self ha
      rw [hstuck.nobody_pastWait h (by omega) ht'] at hp
      exact absurd hp (by simp)
    · rw [hs]
      exact ih

/-- **A QUEUE DOES NOT GET STUCK**: with the trigger set, a thread that is not
    blocked leaves `wait()`. -/
theorem not_stuck : ¬ Stuck q n sched N := by
  intro hstuck
  obtain ⟨j, hj, hset⟩ := hstuck.gets_set h
  obtain ⟨i, t, ht, hnot⟩ := (h.inv j).unblocked h.threads hset
  -- induction on the number of statements until the test in `wait()`
  suffices key : ∀ (r k : ℕ) (t : Thread), j ≤ k →
      (stateOf q n sched k).pool[i]? = some (.thread t) →
      i ∉ (stateOf q n sched k).shared.client_queue_trigger.cond → t.pc.toWait < r → False from
    key _ j t le_rfl ht hnot (Nat.lt_succ_self _)
  intro r
  induction r with
  | zero => exact fun k t _ _ _ hr => absurd hr (by omega)
  | succ r ih =>
    intro k t hk ht hnot hr
    obtain ⟨m, hm, ⟨o, ho⟩, ht, hkeep⟩ := h.next_turn ((h.inv k).layout.of_thread ht).2 ht
    have hnot := hkeep hnot
    have hrun : (stateOf q n sched m).shared.shutdown_asap = false := h.running m
    have hend : ¬ (t.pc = .leave ∨ t.pc = .finished) := by
      intro hend
      rw [(h.inv m).ended i t ht hend] at hrun
      exact absurd hrun (by simp)
    obtain ⟨sv', t', hx, hcase⟩ := Thread.exec_toWait o
      (hstuck.nobody_pastWait h (by omega) ht) hend hrun
      (hstuck.stays_set h hj (by omega) hset) hnot
    obtain ⟨hsv, ht'⟩ := tick_own ho ht (Actor.exec_thread hx)
    rcases hcase with hp | ⟨hsame, hlt⟩
    · rw [hstuck.nobody_pastWait h (by omega) ht'] at hp
      exact absurd hp (by simp)
    · exact ih (m + 1) t' (by omega) ht' (by rw [hsv, hsame]; exact hnot) (by omega)

end

end Stuck

/-! ## §5. Delivery. -/

section Delivery

variable {q : QQueue ℤ} {n : ℕ} {sched : ℕ → Move Unit Outcome}

variable {j : ℕ} {sock : ℤ}

/-- **What is in the queue is handed over.** -/
theorem queued_handed (h : FairServer q n sched) {k : ℕ} (hk : k < (stateOf q n sched j).shared.pushed) :
    ∃ m, j ≤ m ∧ k < (stateOf q n sched m).shared.handed.length := by
  by_contra hnever
  have hle : ∀ m, j ≤ m → (stateOf q n sched m).shared.handed.length ≤ k := by
    intro m hm
    by_contra hlt
    exact hnever ⟨m, hm, by omega⟩
  have hmono : ∀ m, (stateOf q n sched m).shared.handed.length ≤
      (stateOf q n sched (m + 1)).shared.handed.length :=
    fun m => (grows_succ q n sched m).handed.length_le
  -- the number of sockets handed over settles
  obtain ⟨N, hN⟩ := eventually_constant
    (fun m => k - (stateOf q n sched (j + m)).shared.handed.length) (fun m => by
      have := hmono (j + m)
      have heq : j + (m + 1) = j + m + 1 := by omega
      rw [heq]
      omega)
  refine not_stuck h (N := j + N) fun m hm => ⟨fun hempty => ?_, ?_⟩
  · have hpushed := (grows_of_le q n sched (show j ≤ m by omega)).pushed
    have hmle := hle m (by omega)
    simp only [Server.pushed, hempty, length_nil] at hpushed hk
    omega
  · obtain ⟨d, rfl⟩ : ∃ d, m = j + d := ⟨m - j, by omega⟩
    have h₁ := hN d (by omega)
    have h₂ := hN (d + 1) (by omega)
    have h₃ := hle (j + d) (by omega)
    have h₄ := hle (j + d + 1) (by omega)
    have heq : j + (d + 1) = j + d + 1 := by omega
    simp only [heq] at h₁ h₂
    omega

/-- As long as nothing is pushed the acceptor stays at its push. -/
theorem stays_at_push {m : ℕ} (hm : j ≤ m)
    (heq : ∀ m, j ≤ m → (stateOf q n sched m).shared.pushed = (stateOf q n sched j).shared.pushed)
    (ha : (stateOf q n sched j).pool[0]? = some (.acceptor (.push sock))) :
    (stateOf q n sched m).pool[0]? = some (.acceptor (.push sock)) := by
  induction m, hm using Nat.le_induction with
  | base => exact ha
  | succ m hm ih =>
    rcases stateOf_tick q n sched m with hs | hs
    · rcases step_inv hs with ⟨_, hc⟩ | ⟨i, o, a, sv', a', _, hia, hact, hc⟩
      · rw [hc]
        exact lookup_arrive ih
      by_cases hi : i = 0
      · -- its only statement is the push
        subst hi
        have haa : a = .acceptor (.push sock) := Option.some.inj (hia.symm.trans ih)
        subst haa
        have hsame : sv'.pushed = (stateOf q n sched m).shared.pushed := by
          rw [heq m hm, ← heq (m + 1) (by omega), hc]
        cases hact with
        | push _ q' hq =>
          simp only [Server.pushed, QQueue.push_toList hq, length_append,
            length_cons, length_nil] at hsame
          omega
        | loop _ _ hpc _ _ => simp at hpc
      · rw [hc]
        exact lookup_set_ne (fun h => hi h.symm) ih
    · rw [hs]
      exact ih

/-- **What has been accepted is pushed**, if the queue has room for anything at
    all. -/
theorem accepted_pushed (h : FairServer q n sched) (hmax : 2 ≤ q.max_size_)
    (ha : (stateOf q n sched j).pool[0]? = some (.acceptor (.push sock))) :
    ∃ m, j ≤ m ∧ (stateOf q n sched j).shared.pushed < (stateOf q n sched m).shared.pushed := by
  by_contra hnever
  have heq : ∀ m, j ≤ m →
      (stateOf q n sched m).shared.pushed = (stateOf q n sched j).shared.pushed := by
    intro m hm
    have hle := (grows_of_le q n sched hm).pushed
    by_contra hne
    exact hnever ⟨m, hm, by omega⟩
  -- the queue is drained in the meantime
  obtain ⟨m₁, hm₁, hdrained⟩ : ∃ m, j ≤ m ∧ (stateOf q n sched j).shared.pushed ≤
      (stateOf q n sched m).shared.handed.length := by
    by_cases hzero : (stateOf q n sched j).shared.pushed = 0
    · exact ⟨j, le_rfl, by omega⟩
    obtain ⟨m, hm, hlt⟩ := queued_handed h
      (show (stateOf q n sched j).shared.pushed - 1 < (stateOf q n sched j).shared.pushed by
        omega)
    exact ⟨m, hm, by omega⟩
  have hempty : ∀ m, m₁ ≤ m → (stateOf q n sched m).shared.client_queue.toList = [] := by
    intro m hm
    have hlen := (grows_of_le q n sched hm).handed.length_le
    have hsum := heq m (by omega)
    rw [← length_eq_zero_iff]
    simp only [Server.pushed] at hsum hdrained
    omega
  -- and the acceptor still stands at its push when its turn comes after that
  obtain ⟨m, hm, o, ho⟩ := h.turn (Nat.zero_le n) m₁
  have hpush := stays_at_push (show j ≤ m by omega) heq ha
  cases hq : (stateOf q n sched m).shared.client_queue.push sock with
  | none =>
    have hfull := (QQueue.push_eq_none_iff _ _).mp hq
    have hsize : (stateOf q n sched m).shared.client_queue.max_size_ = q.max_size_ :=
      (grows_of_le q n sched (Nat.zero_le m)).max_size
    rw [hempty m hm, length_nil] at hfull
    omega
  | some q' =>
    obtain ⟨hsv, _⟩ := tick_own ho hpush (Actor.exec_push o hq)
    have h₁ := hempty (m + 1) (by omega)
    rw [hsv] at h₁
    have h₁ : q'.toList = [] := h₁
    rw [QQueue.push_toList hq] at h₁
    exact absurd h₁ (by simp)

/-- **Delivery.**  The socket accepted as number `k` is handed over as number
    `k`. -/
theorem accepted_handed (h : FairServer q n sched) {k : ℕ}
    (hroom : 2 ≤ q.max_size_ ∨ k < (stateOf q n sched j).shared.pushed)
    (hk : (stateOf q n sched j).shared.accepted[k]? = some sock) :
    ∃ m i, (stateOf q n sched m).shared.handed[k]? = some (i, sock) := by
  -- it has been pushed, or it is the one about to be pushed
  obtain ⟨j', hj', hpushed⟩ : ∃ j', j ≤ j' ∧ k < (stateOf q n sched j').shared.pushed := by
    by_cases hin : k < (stateOf q n sched j).shared.pushed
    · exact ⟨j, le_rfl, hin⟩
    obtain ⟨pc, hpc⟩ := (h.inv j).layout.acceptor
    have hcons := congrArg List.length ((h.inv j).conserved pc hpc)
    have hlt : k < (stateOf q n sched j).shared.accepted.length :=
      (List.getElem?_eq_some_iff.mp hk).1
    simp only [length_append, length_map] at hcons
    have hone : pc.pending.length ≤ 1 := by cases pc <;> simp [AcceptPc.pending]
    obtain ⟨s, rfl⟩ : ∃ s, pc = .push s := by
      cases pc <;> simp_all [AcceptPc.pending, Server.pushed] <;> omega
    obtain ⟨m, hm, hgt⟩ := accepted_pushed h (by omega) hpc
    refine ⟨m, hm, ?_⟩
    simp only [Server.pushed] at hin hgt ⊢
    omega
  obtain ⟨m, hm, hlt⟩ := queued_handed h hpushed
  have hget := getElem?_eq_getElem hlt
  obtain ⟨pc, hpc⟩ := (h.inv m).layout.acceptor
  have hacc : (stateOf q n sched m).shared.accepted[k]? = some sock := by
    obtain ⟨l, hl⟩ := (grows_of_le q n sched (show j ≤ m by omega)).accepted
    rw [← hl, List.getElem?_append_left (List.getElem?_eq_some_iff.mp hk).1]
    exact hk
  rw [(h.inv m).conserved pc hpc, append_assoc,
    getElem?_append_left (by simpa using hlt), getElem?_map, hget,
    Option.map_some, Option.some.injEq] at hacc
  exact ⟨m, _, by rw [hget, ← hacc]⟩

end Delivery

/-! ## §6. Main result. -/

/-- **THE HAND-OFF.**  For a queue of any size and any number of threads.  In
    every reachable state (before the shutdown and after it):
    a non-empty queue finds the trigger set, or the acceptor between its push
    and its signal, or a thread past `wait()` that has not seen an empty pop;
    hence with all threads asleep it finds the acceptor about to signal; and the
    sockets accepted are, in order, those handed over (each to the one thread on
    record), those in the queue, and the one about to be pushed.
    In every fair run before the shutdown the `k`-th socket accepted becomes the
    `k`-th handed over, provided it gets into the queue, which it does if the
    queue has room for anything at all. -/
theorem hand_off (mem : ℕ → ℤ) (maxclients : ℤ) (q : QQueue ℤ) (n : ℕ)
    (hq : QQueue.init mem maxclients = some q) :
    (∀ c, Reach step anyStep (boot q n) c →
      (c.shared.client_queue.toList ≠ [] →
        c.shared.client_queue_trigger.m_state = 1 ∨
        c.pool[0]? = some (.acceptor .signal) ∨
        ∃ (i : ℕ) (t : Thread), c.pool[i]? = some (.thread t) ∧ t.pc.pastWait = true) ∧
      (0 < n → c.shared.client_queue.toList ≠ [] →
        (∀ (i : ℕ) (t : Thread), c.pool[i]? = some (.thread t) →
          t.pc = .blocked ∧ i ∈ c.shared.client_queue_trigger.cond) →
        c.pool[0]? = some (.acceptor .signal)) ∧
      (∃ pc, c.pool[0]? = some (.acceptor pc) ∧
        c.shared.accepted =
          c.shared.handed.map (fun p => p.2) ++ c.shared.client_queue.toList ++ pc.pending)) ∧
    (∀ sched : ℕ → Move Unit Outcome, 0 < n →
      GuardedSched step BeforeShutdown (boot q n) sched → FairFor (· ∈ serverTurns n) sched →
      ∀ (j k : ℕ) (sock : ℤ), (stateOf q n sched j).shared.accepted[k]? = some sock →
        2 ≤ maxclients ∨ k < (stateOf q n sched j).shared.pushed →
        ∃ (m i : ℕ), (stateOf q n sched m).shared.handed[k]? = some (i, sock)) := by
  obtain ⟨hempty, hsize⟩ := QQueue.init_toList hq
  refine ⟨fun c hc => ?_, fun sched hn hg hfair j k sock hk hroom => ?_⟩
  · have h := handOff_reach hempty hc
    have hthree : c.shared.client_queue.toList ≠ [] →
        c.shared.client_queue_trigger.m_state = 1 ∨ c.pool[0]? = some (.acceptor .signal) ∨
          ∃ (i : ℕ) (t : Thread), c.pool[i]? = some (.thread t) ∧ t.pc.pastWait = true := by
      intro hne
      rcases h.covered hne with hset | ⟨i, a, ha, hd⟩
      · exact Or.inl hset
      · cases a with
        | thread t => exact Or.inr (Or.inr ⟨i, t, ha, hd⟩)
        | shutdown b => exact absurd hd (by simp [Actor.onDuty])
        | acceptor pc =>
          have hi := h.layout.of_acceptor ha
          subst hi
          have hpc : pc = .signal := by cases pc <;> simp_all [Actor.onDuty]
          exact Or.inr (Or.inl (hpc ▸ ha))
    refine ⟨hthree, fun hn hne hasleep => ?_, ?_⟩
    · rcases hthree hne with hset | hsignal | ⟨i, t, ht, hp⟩
      · -- a set trigger leaves one thread unblocked
        obtain ⟨i, t, ht, hnot⟩ := h.unblocked hn hset
        exact absurd (hasleep i t ht).2 hnot
      · exact hsignal
      · rw [(hasleep i t ht).1] at hp
        exact absurd hp (by simp [ThreadPc.pastWait])
    · obtain ⟨pc, hpc⟩ := h.layout.acceptor
      exact ⟨pc, hpc, h.conserved pc hpc⟩
  · refine accepted_handed ⟨hempty, hn, hg, hfair⟩ ?_ hk
    rcases hroom with hroom | hroom
    · exact Or.inl (by omega)
    · exact Or.inr hroom

/-- A schedule without requests to shut down runs before the shutdown. -/
theorem running_of_turns {q : QQueue ℤ} {n : ℕ} {sched : ℕ → Move Unit Outcome}
    (hq : q.toList = []) (hs : ∀ j, ∃ i o, i ≤ n ∧ sched j = .run i o) :
    GuardedSched step BeforeShutdown (boot q n) sched := by
  intro j
  induction j with
  | zero => rfl
  | succ j ih =>
    have hany : GuardedSched step anyStep (boot q n) sched := fun _ => trivial
    have hinv : HandOff n (stateOf q n sched j) := handOff_reach hq (stateAt_reach hany j)
    obtain ⟨i, o, hi, hm⟩ := hs j
    show (stateOf q n sched (j + 1)).shared.shutdown_asap = false
    rcases stateOf_tick q n sched j with hstep | hsame
    · rcases step_inv hstep with ⟨harr, _⟩ | ⟨k, o', a, sv', a', hk, ha, hact, hc⟩
      · rw [hm] at harr
        exact absurd harr (by simp)
      have hki : k = i := by
        rw [hm, Move.run.injEq] at hk
        exact hk.1.symm
      rw [hc]
      cases hact with
      | shutdown =>
        -- the first `n + 1` actors are the acceptor and the threads
        rcases Nat.eq_zero_or_pos k with rfl | hpos
        · obtain ⟨pc, hpc⟩ := hinv.layout.acceptor
          exact absurd (ha.symm.trans hpc) (by simp)
        · obtain ⟨t, ht⟩ := hinv.layout.threads k hpos (by omega)
          exact absurd (ha.symm.trans ht) (by simp)
      | _ => exact ih
    · rw [hsame]
      exact ih

/-- A queue with room for two sockets. -/
def threeCells : QQueue ℤ := ⟨fun _ => 0, 3, 0, 0, by decide, by decide⟩

/-- The acceptor gets socket 7; then everybody gets turns. -/
def connectOnce : ℕ → Move Unit Outcome :=
  prepend [.run 0 {}, .run 0 { sock := 7 }] (cycle (.run 0 {}) [.run 1 {}, .run 2 {}])

theorem connectOnce_turns (j : ℕ) : ∃ i o, i ≤ 2 ∧ connectOnce j = .run i o := by
  match j with
  | 0 | 1 => exact ⟨0, _, by omega, rfl⟩
  | j + 2 =>
    have hmem : connectOnce (j + 2) ∈ serverTurns 2 := cycle_mem _ _ j
    obtain ⟨i, hi, heq⟩ := mem_map.mp hmem
    have := mem_range.mp hi
    exact ⟨i, _, by omega, heq.symm⟩

/-- Socket 7 is handed to one of two threads. -/
theorem hand_off_once :
    QQueue.init (fun _ => 0) 3 = some threeCells ∧
      ∃ (m i : ℕ), (stateOf threeCells 2 connectOnce m).shared.handed[0]? = some (i, 7) := by
  have hq : QQueue.init (fun _ => (0 : ℤ)) 3 = some threeCells := rfl
  exact ⟨hq, (hand_off _ 3 threeCells 2 hq).2 connectOnce (by decide)
    (running_of_turns rfl connectOnce_turns)
    (fairFor_prepend (cycle_fair _ _) _) 2 0 7 rfl (Or.inl (by decide))⟩

end KalavaPir.Requests
