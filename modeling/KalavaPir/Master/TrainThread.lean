/-
  KalavaPir.Master.TrainThread — the master trains its workers one after the
  other.

  `train_thread` (master/src/recgservice.cpp:424) sends `train` to worker `i`,
  polls `progressPCT` until it is no longer below 1, asks for the state and
  goes on to worker `i+1` if that is TRAINED; otherwise it RETURNS, and the
  remaining workers are never trained.  The worker publishes the progress 7/7
  and the state TRAINED in two separate assignments, in that order, so the
  master's two reads can fall between them.

  A cluster is the control point of the master and one worker process per
  bucket; every RPC and every statement of every worker is one step.
-/
import KalavaPir.Worker.TrainRun

namespace KalavaPir.Master

open KalavaPir.Framework List
open KalavaPir.Worker (Thread Config CFloat PIR_STATE_TRAINED ns_progressPCT ns_state Opening
  Training Trained trainedAhead confRank)

/-! ## §1. The cluster. -/

/-- The control points of `train_thread`. -/
inductive Pc where
  /-- `i<server.bucketSize` -/
  | loop
  /-- `soap_call_ns__train`: sending the request, and waiting for the reply of
      the handler at position `j` -/
  | call
  | await (j : ℕ)
  /-- `while(getMYprogressPCT(i)<1.0)` -/
  | poll
  /-- `soap_call_ns__state` and the test of its result -/
  | askState
  /-- `return NULL` after the loop, and inside it -/
  | returned
  | early
  deriving DecidableEq, Repr

/-- The master's training thread and the worker processes. -/
structure Cluster where
  /-- `workerInfoVec`, by the process behind each entry; its length is
      `bucketSize` -/
  workers : List (Conf Worker.Server Thread)
  pc : Pc
  i : ℕ
  completeTrainNum : ℕ
  /-- the indices `train` was sent to, oldest first (not in the source) -/
  sent : List ℕ

/-- The master executes an RPC, which succeeds or fails, or thread `j` of
    worker `k` executes a statement. -/
inductive Label where
  | master (ok : Bool)
  | worker (k j : ℕ) (o : Worker.Outcome)
  deriving DecidableEq, Repr

/-- `getMYprogressPCT` (recgservice.cpp:406): a failed call counts as 1. -/
def getMYprogressPCT (w : Conf Worker.Server Thread) (ok : Bool) : ℚ :=
  if ok then ns_progressPCT w.shared else 1

/-- One step of `train_thread`, talking to worker `w` (the one at index `i`). -/
def Cluster.talk (c : Cluster) (w : Conf Worker.Server Thread) (ok : Bool) : Option Cluster :=
  match c.pc with
  | .call =>
    if ok then
      some { c with
        workers := c.workers.set c.i { w with pool := w.pool ++ [(Worker.Request.train 0).thread] }
        pc := .await w.pool.length
        sent := c.sent ++ [c.i] }
    else
      -- the request was lost: the fault is printed and ignored
      some { c with pc := .poll, sent := c.sent ++ [c.i] }
  | .await j =>
    if ok then
      if (w.pool[j]?).any (fun t => t.tag.isSome) then some { c with pc := .poll } else none
    else some { c with pc := .poll }
  | .poll =>
    if getMYprogressPCT w ok < 1 then some c else some { c with pc := .askState }
  | .askState =>
    if ok && ns_state w.shared == PIR_STATE_TRAINED then
      some { c with pc := .loop, i := c.i + 1, completeTrainNum := c.completeTrainNum + 1 }
    else some { c with pc := .early }
  | _ => none

/-- One step of `train_thread` (recgservice.cpp:424). -/
def train_thread (c : Cluster) (ok : Bool) : Option Cluster :=
  match c.pc with
  | .loop =>
    if c.i < c.workers.length then some { c with pc := .call }
    else some { c with pc := .returned }
  | .returned => none
  | .early => none
  | _ =>
    match c.workers[c.i]? with
    | none => none
    | some w => c.talk w ok

section Step

variable {F : Type} [CFloat F]

/-- One step of the cluster.  Nobody else sends requests. -/
def Cluster.step (cfg : Config F) (c : Cluster) : Label → Option Cluster
  | .master ok => train_thread c ok
  | .worker k j o =>
    match c.workers[k]? with
    | none => none
    | some w =>
      match Worker.step cfg w (.run j o) with
      | none => none
      | some w' => some { c with workers := c.workers.set k w' }

end Step

/-- The thread has just been created. -/
def Cluster.start (ws : List (Conf Worker.Server Thread)) : Cluster :=
  { workers := ws, pc := .loop, i := 0, completeTrainNum := 0, sent := [] }

/-- The workers are doing nothing. -/
def Idle (ws : List (Conf Worker.Server Thread)) : Prop := ∀ w ∈ ws, w.pool = []

/-- No SOAP call fails. -/
def NoFault (_ : Cluster) : Label → Prop
  | .master ok => ok = true
  | .worker _ _ _ => True

instance (c : Cluster) (l : Label) : Decidable (NoFault c l) :=
  match l with
  | .master ok => inferInstanceAs (Decidable (ok = true))
  | .worker _ _ _ => inferInstanceAs (Decidable True)

/-- **The condition**: moreover the state request is not served while a thread
    of the worker it goes to still has its TRAINED assignment ahead. -/
def Published (c : Cluster) (l : Label) : Prop :=
  NoFault c l ∧
    ∀ ok, l = .master ok → c.pc = .askState →
      ∀ w ∈ c.workers[c.i]?, ∀ t ∈ w.pool, trainedAhead t.code = false

instance (c : Cluster) (l : Label) : Decidable (Published c l) :=
  match l with
  | .master ok => decidable_of_iff
      (NoFault c (.master ok) ∧ (c.pc = .askState →
        ∀ w ∈ c.workers[c.i]?, ∀ t ∈ w.pool, trainedAhead t.code = false))
      ⟨fun h => ⟨h.1, fun _ _ => h.2⟩, fun h => ⟨h.1, h.2 ok rfl⟩⟩
  | .worker k j o => decidable_of_iff (NoFault c (.worker k j o))
      ⟨fun h => ⟨h, fun _ hl => absurd hl (by simp)⟩, fun h => h.1⟩

/-! ## §2. What sequential training means. -/

/-- `train` has gone to workers 0, 1, 2, … in order, each worker but the last
    one asked is TRAINED, the thread has not given up, and when it returns it
    has counted all of the `n` workers. -/
structure InOrder (n : ℕ) (c : Cluster) : Prop where
  order : c.sent = List.range c.sent.length
  within : c.sent.length ≤ n
  trained : ∀ k w, k + 1 < c.sent.length → c.workers[k]? = some w →
    w.shared.serverstate = PIR_STATE_TRAINED
  never_early : c.pc ≠ .early
  complete : c.pc = .returned → c.completeTrainNum = n ∧ c.sent.length = n

/-! ## §3. The invariant. -/

/-- Where the worker the master is talking to is. -/
def Current : Pc → Conf Worker.Server Thread → Prop
  | .loop, w => w.pool = []
  | .call, w => w.pool = []
  | .await j, w => j = 0 ∧ (Opening w ∨ Training w)
  | .poll, w => Training w
  | .askState, w => Training w
  | .returned, _ => True
  | .early, _ => True

/-- `train` has been sent to worker `i`. -/
def Pc.asked : Pc → Bool
  | .await _ => true
  | .poll => true
  | .askState => true
  | _ => false

/-- What is true in every state of the training. -/
structure Inv (n : ℕ) (c : Cluster) : Prop where
  size : c.workers.length = n
  done : ∀ k w, c.workers[k]? = some w → k < c.i → Trained w
  current : ∀ w, c.workers[c.i]? = some w → Current c.pc w
  todo : ∀ k w, c.workers[k]? = some w → c.i < k → w.pool = []
  bound : c.i ≤ n
  inside : c.pc = .call ∨ c.pc.asked = true → c.i < n
  finished : c.pc = .returned → c.i = n
  count : c.completeTrainNum = c.i
  sent : c.sent = List.range (if c.pc.asked then c.i + 1 else c.i)
  alive : c.pc ≠ .early

theorem Inv.start {ws : List (Conf Worker.Server Thread)} (hidle : Idle ws) :
    Inv ws.length (Cluster.start ws) where
  size := rfl
  done k w _ hk := absurd hk (by simp [Cluster.start])
  current w hw := hidle w (mem_of_getElem? hw)
  todo k w hw _ := hidle w (mem_of_getElem? hw)
  bound := Nat.zero_le _
  inside h := by simp [Cluster.start, Pc.asked] at h
  finished h := by simp [Cluster.start] at h
  count := rfl
  sent := rfl
  alive := by simp [Cluster.start]

variable {n j : ℕ} {c c' : Cluster} {w : Conf Worker.Server Thread} {F : Type} {o : Worker.Outcome}
  {cfg : Config F}

/-- Sequential training is what the invariant says. -/
theorem Inv.inOrder (h : Inv n c) : InOrder n c where
  order := by
    rw [h.sent, length_range]
  within := by
    rw [h.sent, length_range]
    split
    · next hasked => exact h.inside (Or.inr hasked)
    · exact h.bound
  trained k w hk hw := by
    rw [h.sent, length_range] at hk
    refine (h.done k w hw ?_).2
    split at hk <;> omega
  never_early := h.alive
  complete hret := by
    have hi := h.finished hret
    refine ⟨h.count.trans hi, ?_⟩
    rw [h.sent, length_range, hret]
    exact hi

/-! ## §4. One step. -/

/-- Everything an RPC of the master can do when it does not fail. -/
inductive MasterStep (c : Cluster) : Cluster → Prop
  | enter (hpc : c.pc = .loop) (hlt : c.i < c.workers.length) :
      MasterStep c { c with pc := .call }
  | leave (hpc : c.pc = .loop) (hge : ¬ c.i < c.workers.length) :
      MasterStep c { c with pc := .returned }
  | send (hpc : c.pc = .call) (w : Conf Worker.Server Thread) (hw : c.workers[c.i]? = some w) :
      MasterStep c { c with
        workers := c.workers.set c.i { w with pool := w.pool ++ [(Worker.Request.train 0).thread] }
        pc := .await w.pool.length
        sent := c.sent ++ [c.i] }
  | replied (j : ℕ) (hpc : c.pc = .await j) (w : Conf Worker.Server Thread)
      (hw : c.workers[c.i]? = some w) (htag : (w.pool[j]?).any (fun t => t.tag.isSome) = true) :
      MasterStep c { c with pc := .poll }
  /-- the `while` goes round once more -/
  | again (hpc : c.pc = .poll) : MasterStep c c
  | polled (hpc : c.pc = .poll) : MasterStep c { c with pc := .askState }
  | trained (hpc : c.pc = .askState) (w : Conf Worker.Server Thread)
      (hw : c.workers[c.i]? = some w) (hstate : w.shared.serverstate = PIR_STATE_TRAINED) :
      MasterStep c { c with
        pc := .loop, i := c.i + 1, completeTrainNum := c.completeTrainNum + 1 }
  | giveUp (hpc : c.pc = .askState) (w : Conf Worker.Server Thread)
      (hw : c.workers[c.i]? = some w) (hstate : w.shared.serverstate ≠ PIR_STATE_TRAINED) :
      MasterStep c { c with pc := .early }

theorem talk_inv (hw : c.workers[c.i]? = some w) (hs : c.talk w true = some c') : MasterStep c c' := by
  cases hpc : c.pc <;> simp only [Cluster.talk, hpc, if_true, Bool.true_and] at hs
  case call =>
    injection hs with hs
    exact hs ▸ MasterStep.send hpc w hw
  case await j =>
    split at hs
    · next htag =>
        injection hs with hs
        exact hs ▸ MasterStep.replied j hpc w hw htag
    · exact absurd hs (by simp)
  case poll =>
    split at hs
    · injection hs with hs
      exact hs ▸ MasterStep.again hpc
    · injection hs with hs
      exact hs ▸ MasterStep.polled hpc
  case askState =>
    split at hs
    · next hstate =>
        injection hs with hs
        exact hs ▸ MasterStep.trained hpc w hw (by simpa [ns_state] using hstate)
    · next hstate =>
        injection hs with hs
        exact hs ▸ MasterStep.giveUp hpc w hw (by simpa [ns_state] using hstate)
  all_goals exact absurd hs (by simp)

/-- **Inversion of an RPC that does not fail.** -/
theorem master_inv (hs : train_thread c true = some c') : MasterStep c c' := by
  unfold train_thread at hs
  split at hs
  · next hpc =>
      split at hs
      · next hlt =>
          injection hs with hs
          exact hs ▸ MasterStep.enter hpc hlt
      · next hge =>
          injection hs with hs
          exact hs ▸ MasterStep.leave hpc hge
  · exact absurd hs (by simp)
  · exact absurd hs (by simp)
  · split at hs
    · exact absurd hs (by simp)
    · next w hw => exact talk_inv hw hs

/-- **Inversion of a statement of a worker.** -/
theorem worker_inv [CFloat F] {k : ℕ} (hs : c.step cfg (.worker k j o) = some c') :
    ∃ w w', c.workers[k]? = some w ∧ Worker.step cfg w (.run j o) = some w' ∧
      c' = { c with workers := c.workers.set k w' } := by
  simp only [Cluster.step] at hs
  split at hs
  · exact absurd hs (by simp)
  next w hw =>
    split at hs
    · exact absurd hs (by simp)
    · next w' hstep =>
        injection hs with hs
        exact ⟨w, w', hw, hstep, hs.symm⟩

variable {w' : Conf Worker.Server Thread}

theorem idle_blocks [CFloat F] (hidle : w.pool = []) (h : Worker.step cfg w (.run j o) = some w') :
    False := by
  simp [Worker.step, Machine.step, hidle] at h

theorem current_step [CFloat F] {pc : Pc} (hcur : Current pc w) (h : Worker.step cfg w (.run j o) = some w') :
    Current pc w' := by
  cases pc with
  | loop | call => exact (idle_blocks hcur h).elim
  | await p =>
    refine ⟨hcur.1, ?_⟩
    rcases hcur.2 with hopen | htrain
    · exact Worker.opening_step hopen h
    · exact Or.inr (Worker.training_step htrain h).1
  | poll | askState => exact (Worker.training_step hcur h).1
  | returned => trivial
  | early => trivial

section

variable (h : Inv n c)
include h

/-- **A statement of a worker.** -/
theorem Inv.worker [CFloat F] {k : ℕ} (hs : c.step cfg (.worker k j o) = some c') : Inv n c' := by
  obtain ⟨w, w', hw, hstep, rfl⟩ := worker_inv hs
  refine { h with size := ?_, done := ?_, current := ?_, todo := ?_ }
  · simpa using h.size
  · intro m u hu hm
    rcases lookup_set hu with ⟨rfl, rfl⟩ | ⟨_, hold⟩
    · exact Worker.trained_step (h.done m w hw hm) hstep
    · exact h.done m u hold hm
  · intro u hu
    rcases lookup_set hu with ⟨heq, rfl⟩ | ⟨_, hold⟩
    · exact current_step (h.current w (heq ▸ hw)) hstep
    · exact h.current u hold
  · -- nobody has sent anything to the workers that come later
    intro m u hu hm
    rcases lookup_set hu with ⟨rfl, rfl⟩ | ⟨_, hold⟩
    · exact (idle_blocks (h.todo m w hw hm) hstep).elim
    · exact h.todo m u hold hm

theorem Inv.lookup (hin : c.pc = .call ∨ c.pc.asked = true) : ∃ w, c.workers[c.i]? = some w := by
  have hi : c.i < c.workers.length := h.size.symm ▸ h.inside hin
  exact ⟨_, getElem?_eq_getElem hi⟩

theorem Inv.currentAt {p : Pc} (hpc : c.pc = p) (hw : c.workers[c.i]? = some w) : Current p w :=
  hpc ▸ h.current w hw

/-- **An RPC of the master that does not fail.**  Only the state request can
    leave the invariant, and only by reading something else than TRAINED. -/
theorem Inv.master (hs : train_thread c true = some c') : Inv n c' ∨ (c'.pc = .early ∧ c.pc = .askState ∧
      ∀ w, c.workers[c.i]? = some w → w.shared.serverstate ≠ PIR_STATE_TRAINED) := by
  have hin := h.inside
  have hsent := h.sent
  have hsize := h.size
  have hbound := h.bound
  cases master_inv hs with
  | enter hpc hlt =>
    left
    simp only [hpc, Pc.asked] at hsent
    exact { h with
      current := fun w hw => show Current .loop w from h.currentAt hpc hw
      inside := fun _ => hsize ▸ hlt
      finished := fun hr => absurd hr (by simp)
      sent := by simpa [Pc.asked] using hsent
      alive := by simp }
  | leave hpc hge =>
    left
    simp only [hpc, Pc.asked] at hsent
    exact { h with
      current := fun _ _ => trivial
      inside := fun hr => absurd hr (by simp [Pc.asked])
      finished := fun _ => by
        show c.i = n
        omega
      sent := by simpa [Pc.asked] using hsent
      alive := by simp }
  | send hpc w hw =>
    left
    have hlt := hin (Or.inl hpc)
    have hidle : w.pool = [] := h.currentAt hpc hw
    simp only [hpc, Pc.asked] at hsent
    refine { h with
      size := by simpa using hsize
      done := ?_
      current := ?_
      todo := ?_
      inside := fun _ => hlt
      finished := fun hr => absurd hr (by simp)
      sent := ?_
      alive := by simp }
    · intro m u hu hm
      rcases lookup_set hu with ⟨rfl, _⟩ | ⟨_, hold⟩
      · exact absurd hm (lt_irrefl _)
      · exact h.done m u hold hm
    · -- the handler is the first thread of an idle worker
      intro u hu
      rcases lookup_set hu with ⟨_, rfl⟩ | ⟨hne, _⟩
      · exact ⟨by simp [hidle], Or.inl (Worker.opening_arrive hidle)⟩
      · exact absurd rfl hne
    · intro m u hu hm
      rcases lookup_set hu with ⟨rfl, _⟩ | ⟨_, hold⟩
      · exact absurd hm (lt_irrefl _)
      · exact h.todo m u hold hm
    · simp only [Pc.asked, if_true]
      rw [hsent]
      simp [range_succ]
  | replied j hpc w hw htag =>
    left
    have hlt := hin (Or.inr (by simp [hpc, Pc.asked]))
    obtain ⟨rfl, hphase⟩ := h.currentAt hpc hw
    simp only [hpc, Pc.asked] at hsent
    refine { h with
      current := fun u hu => ?_
      inside := fun _ => hlt
      finished := fun hr => absurd hr (by simp)
      sent := by simpa [Pc.asked] using hsent
      alive := by simp }
    have heq : u = w := Option.some.inj (hu.symm.trans hw)
    subst heq
    -- a handler that has replied is past its thread creation
    rcases hphase with ⟨hd, hpool, hnone, _⟩ | htrain
    · simp [hpool, hnone] at htag
    · exact htrain
  | again hpc => exact Or.inl h
  | polled hpc =>
    left
    have hlt := hin (Or.inr (by simp [hpc, Pc.asked]))
    simp only [hpc, Pc.asked] at hsent
    exact { h with
      current := fun u hu => show Current .poll u from h.currentAt hpc hu
      inside := fun _ => hlt
      finished := fun hr => absurd hr (by simp)
      sent := by simpa [Pc.asked] using hsent
      alive := by simp }
  | trained hpc w hw hstate =>
    left
    have hlt := hin (Or.inr (by simp [hpc, Pc.asked]))
    have hcur : Training w := h.currentAt hpc hw
    simp only [hpc, Pc.asked] at hsent
    refine { h with
      done := ?_
      current := fun u hu => h.todo _ u hu (Nat.lt_succ_self _)
      todo := fun m u hu hm => h.todo m u hu (by simp at hm; omega)
      bound := hlt
      inside := fun hr => absurd hr (by simp [Pc.asked])
      finished := fun hr => absurd hr (by simp)
      count := by simp [h.count]
      sent := by simpa [Pc.asked] using hsent
      alive := by simp }
    intro m u hu hm
    rcases Nat.lt_succ_iff_lt_or_eq.mp hm with hm | rfl
    · exact h.done m u hu hm
    · have heq : u = w := Option.some.inj (hu.symm.trans hw)
      subst heq
      exact ⟨hcur, hstate⟩
  | giveUp hpc w hw hstate =>
    refine Or.inr ⟨rfl, hpc, fun u hu => ?_⟩
    have heq : u = w := Option.some.inj (hu.symm.trans hw)
    exact heq ▸ hstate

theorem Inv.published_iff (hpc : c.pc = .askState) (hw : c.workers[c.i]? = some w) :
    Published c (.master true) ↔ w.shared.serverstate = PIR_STATE_TRAINED := by
  have hiff := Worker.training_state_iff (h.currentAt hpc hw)
  rw [hiff]
  constructor
  · intro hpub
    exact hpub.2 true rfl hpc w hw
  · intro hall
    refine ⟨rfl, fun _ _ _ u hu => ?_⟩
    rw [hw, Option.mem_def] at hu
    injection hu with hu
    exact hu ▸ hall

/-- **One step without faults**: the invariant survives, or the master gives
    up because its state request came too early. -/
theorem Inv.step [CFloat F] {l : Label} (hok : NoFault c l) (hs : c.step cfg l = some c') :
    Inv n c' ∨ (c'.pc = .early ∧ ¬ Published c l) := by
  cases l with
  | worker k j o => exact Or.inl (h.worker hs)
  | master ok =>
    have hok : ok = true := hok
    subst hok
    rcases h.master hs with hinv | ⟨hearly, hpc, hstate⟩
    · exact Or.inl hinv
    · obtain ⟨w, hw⟩ := h.lookup (Or.inr (by simp [hpc, Pc.asked]))
      exact Or.inr ⟨hearly, fun hpub => hstate w hw ((h.published_iff hpc hw).mp hpub)⟩

end

/-! ## §5. Every run. -/

section Runs

variable {F : Type} [CFloat F] {cfg : Config F} {ws : List (Conf Worker.Server Thread)} {c : Cluster}

theorem inv_of_published (hidle : Idle ws)
    (hc : Reach (Cluster.step cfg) Published (Cluster.start ws) c) : Inv ws.length c := by
  refine Reach.invariant (Inv ws.length) (Inv.start hidle) (fun c l c' h hok hs => ?_) hc
  rcases h.step hok.1 hs with hinv | ⟨_, hbad⟩
  · exact hinv
  · exact absurd hok hbad

theorem stopped_step {c' : Cluster} {l : Label} (hstop : c.pc = .returned ∨ c.pc = .early)
    (hs : c.step cfg l = some c') : c'.pc = c.pc := by
  cases l with
  | master ok =>
    rcases hstop with hpc | hpc <;> simp [Cluster.step, train_thread, hpc] at hs
  | worker k j o =>
    obtain ⟨w, w', _, _, rfl⟩ := worker_inv hs
    rfl

theorem inv_of_noFault (hidle : Idle ws) (hc : Reach (Cluster.step cfg) NoFault (Cluster.start ws) c) :
    c.pc = .early ∨ Inv ws.length c := by
  refine Reach.invariant (fun c => c.pc = .early ∨ Inv ws.length c) (Or.inr (Inv.start hidle))
    (fun c l c' h hok hs => ?_) hc
  rcases h with hearly | hinv
  · exact Or.inl ((stopped_step (Or.inr hearly) hs).trans hearly)
  · rcases hinv.step hok hs with hinv' | ⟨hearly, _⟩
    · exact Or.inr hinv'
    · exact Or.inl hearly

/-! ## §6. The thread comes to its end. -/

/-- The statements a `train` request puts into a worker. -/
def requestRank : ℕ := (Worker.Request.train 0).thread.rank

/-- The steps the master still takes for worker `i`. -/
def Pc.rank : Pc → ℕ
  | .loop => requestRank + 6
  | .call => requestRank + 5
  | .await _ => 4
  | .poll => 3
  | .askState => 2
  | .returned => 0
  | .early => 0

/-- The steps that are left at most. -/
def Cluster.rank (c : Cluster) : ℕ :=
  (c.workers.length - c.i) * (requestRank + 7) + c.pc.rank + (c.workers.map confRank).sum

/-- Every step but an unsuccessful poll or a refused thread creation lowers the
    rank. -/
theorem rank_step {c' : Cluster} {l : Label} (hok : NoFault c l)
    (hs : c.step cfg l = some c') : c' = c ∨ c'.rank < c.rank := by
  cases l with
  | worker k j o =>
    obtain ⟨w, w', hw, hstep, rfl⟩ := worker_inv hs
    rcases Worker.step_rank hstep with ⟨rfl, _⟩ | hlt
    · left
      obtain ⟨hi, rfl⟩ := List.getElem?_eq_some_iff.mp hw
      rw [set_getElem_self]
    right
    have hsum := pool_sum_set confRank w' hw
    simp only [Cluster.rank, length_set]
    omega
  | master ok =>
    have hok : ok = true := hok
    subst hok
    cases master_inv hs with
    | enter hpc _ =>
      right
      simp only [Cluster.rank, Pc.rank, hpc]
      omega
    | leave hpc _ =>
      right
      simp only [Cluster.rank, Pc.rank, hpc]
      omega
    | send hpc w hw =>
      -- the request adds its statements to the worker; `call` paid for them
      right
      have hsum := pool_sum_set confRank
        { w with pool := w.pool ++ [(Worker.Request.train 0).thread] } hw
      have hnew : confRank { w with pool := w.pool ++ [(Worker.Request.train 0).thread] } =
          confRank w + requestRank := by
        simp [confRank, requestRank]
      simp only [Cluster.rank, Pc.rank, hpc, length_set]
      omega
    | replied j hpc w hw _ =>
      right
      simp only [Cluster.rank, Pc.rank, hpc]
      omega
    | again hpc => exact Or.inl rfl
    | polled hpc =>
      right
      simp only [Cluster.rank, Pc.rank, hpc]
      omega
    | trained hpc w hw _ =>
      -- back to the loop test, with one worker less to go
      right
      have hlt : c.i < c.workers.length := (List.getElem?_eq_some_iff.mp hw).1
      have hleft : c.workers.length - c.i = (c.workers.length - (c.i + 1)) + 1 := by omega
      simp only [Cluster.rank, Pc.rank, hpc]
      rw [hleft, Nat.add_mul]
      omega
    | giveUp hpc w hw _ =>
      right
      simp only [Cluster.rank, Pc.rank, hpc]
      omega

/-- The actors a fair scheduler serves: the master, and the two threads of
    each worker. -/
def actors (n : ℕ) : Label → Prop
  | .master ok => ok = true
  | .worker k j o => k < n ∧ j < 2 ∧ o = {}

/-- Where no actor can change the cluster, the thread has returned. -/
theorem settled_returned {n : ℕ} (hinv : Inv n c)
    (hstuck : ∀ l, actors n l → ∀ c', c.step cfg l = some c' → c' = c) : c.pc = .returned := by
  -- a step of the master that changes its control point is excluded
  have hmaster : ∀ c', train_thread c true = some c' → c'.pc = c.pc :=
    fun c' hs => congrArg Cluster.pc (hstuck (.master true) rfl c' hs)
  have hworker : ∀ w j w', c.workers[c.i]? = some w → j < 2 →
      Worker.step cfg w (.run j {}) = some w' → w' = w := by
    intro w j w' hw hj hs
    have hi : c.i < c.workers.length := (List.getElem?_eq_some_iff.mp hw).1
    have hset := hstuck (.worker c.i j {}) ⟨hinv.size ▸ hi, hj, rfl⟩
      { c with workers := c.workers.set c.i w' } (by simp [Cluster.step, hw, hs])
    have hget := congrArg (fun d => d.workers[c.i]?) hset
    simp only [getElem?_set_self hi, hw, Option.some.injEq] at hget
    exact hget
  cases hpc : c.pc with
  | loop =>
    simp only [train_thread, hpc] at hmaster
    split at hmaster
    · exact absurd (hmaster _ rfl) (by simp)
    · exact absurd (hmaster _ rfl) (by simp)
  | call =>
    obtain ⟨w, hw⟩ := hinv.lookup (Or.inl hpc)
    simp only [train_thread, hpc, hw, Cluster.talk, if_true] at hmaster
    exact absurd (hmaster _ rfl) (by simp)
  | await p =>
    obtain ⟨w, hw⟩ := hinv.lookup (Or.inr (by simp [hpc, Pc.asked]))
    obtain ⟨rfl, hphase⟩ := hinv.currentAt hpc hw
    rcases hphase with hopen | htrain
    · obtain ⟨w', hs, hne⟩ := Worker.opening_moves cfg hopen
      exact absurd (hworker w 0 w' hw (by decide) hs) hne
    rcases Worker.training_replies cfg htrain with ⟨hd, hhd, htag⟩ | ⟨w', hs, hne⟩
    · simp only [train_thread, hpc, hw, Cluster.talk, if_true, hhd, Option.any_some,
        htag] at hmaster
      exact absurd (hmaster _ rfl) (by simp)
    · exact absurd (hworker w 0 w' hw (by decide) hs) hne
  | poll =>
    obtain ⟨w, hw⟩ := hinv.lookup (Or.inr (by simp [hpc, Pc.asked]))
    by_cases hp : w.shared.progressPCT < 1
    · obtain ⟨w', hs, hne⟩ := Worker.training_progresses cfg (hinv.currentAt hpc hw) hp
      exact absurd (hworker w 1 w' hw (by decide) hs) hne
    · simp only [train_thread, hpc, hw, Cluster.talk, getMYprogressPCT, if_true,
        ns_progressPCT, hp, if_false] at hmaster
      exact absurd (hmaster _ rfl) (by simp)
  | askState =>
    obtain ⟨w, hw⟩ := hinv.lookup (Or.inr (by simp [hpc, Pc.asked]))
    simp only [train_thread, hpc, hw, Cluster.talk, Bool.true_and] at hmaster
    split at hmaster
    · exact absurd (hmaster _ rfl) (by simp)
    · exact absurd (hmaster _ rfl) (by simp)
  | returned => rfl
  | early => exact absurd hpc hinv.alive

end Runs

/-! ## §7. Main results. -/

/-- **THE WORKERS ARE TRAINED ONE AFTER THE OTHER, EXACTLY WHEN NO STATE
    REQUEST COMES TOO EARLY.**  In every run that meets `Published` training is
    in order; a fair such run ends with all workers counted; and every state
    request that does not meet `Published` makes the thread give up. -/
theorem train_in_order {F : Type} [CFloat F] (cfg : Config F) (ws : List (Conf Worker.Server Thread))
    (hidle : Idle ws) :
    (∀ c, Reach (Cluster.step cfg) Published (Cluster.start ws) c → InOrder ws.length c) ∧
    (∀ sched, GuardedSched (Cluster.step cfg) Published (Cluster.start ws) sched →
      FairFor (actors ws.length) sched →
      ∃ N, (stateAt (Cluster.step cfg) (Cluster.start ws) sched N).pc = .returned ∧
        (stateAt (Cluster.step cfg) (Cluster.start ws) sched N).completeTrainNum = ws.length) ∧
    (∀ c l c', Reach (Cluster.step cfg) NoFault (Cluster.start ws) c → NoFault c l →
      c.step cfg l = some c' → ¬ Published c l → c'.pc = .early) := by
  refine ⟨fun c hc => (inv_of_published hidle hc).inOrder, fun sched hg hfair => ?_,
    fun c l c' hc hok hs hbad => ?_⟩
  · have hinv : ∀ n, Inv ws.length (stateAt (Cluster.step cfg) (Cluster.start ws) sched n) :=
      fun n => inv_of_published hidle (stateAt_reach hg n)
    obtain ⟨N, hN⟩ := fairRun_settles Cluster.rank hg hfair
      (fun c l c' hc hok hs => rank_step hok.1 hs)
    have hret := settled_returned (hinv N) hN
    exact ⟨N, hret, ((hinv N).inOrder.complete hret).1⟩
  · rcases inv_of_noFault hidle hc with hearly | hinv
    · exact (stopped_step (Or.inr hearly) hs).trans hearly
    · cases l with
      | worker k j o => exact absurd ⟨hok, fun _ hl => absurd hl (by simp)⟩ hbad
      | master ok =>
        have hok : ok = true := hok
        subst hok
        have hpc : c.pc = .askState := by
          by_contra hpc
          exact hbad ⟨rfl, fun _ _ h => absurd h hpc⟩
        obtain ⟨w, hw⟩ := hinv.lookup (Or.inr (by simp [hpc, Pc.asked]))
        rw [hinv.published_iff hpc hw] at hbad
        have hs : train_thread c true = some c' := hs
        simp only [train_thread, hpc, hw, Cluster.talk, ns_state, Bool.true_and, beq_iff_eq,
          hbad, if_false, Option.some.injEq] at hs
        rw [← hs]

/-- One fresh worker. -/
def oneWorker : List (Conf Worker.Server Thread) := [Worker.boot .fresh Worker.onePool]

/-- `n` RPCs of the master; `n` statements of thread `j` of worker 0. -/
def asks (n : ℕ) : List Label := List.replicate n (.master true)
def works (j n : ℕ) : List Label := List.replicate n (.worker 0 j {})

/-- The master asks for the state after the worker's thread has ended. -/
def patientRun : List Label := asks 2 ++ works 0 6 ++ asks 1 ++ works 1 21 ++ asks 3

/-- Round robin over the three actors. -/
def roundRobin : ℕ → Label := cycle (.master true) [.worker 0 0 {}, .worker 0 1 {}]

theorem roundRobin_fair : FairFor (actors 1) roundRobin := by
  intro l hl n
  refine cycle_fair _ _ l ?_ n
  cases l with
  | master ok =>
    have hok : ok = true := hl
    simp [hok]
  | worker k j o =>
    obtain ⟨hk, hj, rfl⟩ := hl
    have hk : k = 0 := by omega
    subst hk
    rcases (by omega : j = 0 ∨ j = 1) with rfl | rfl
    · simp
    · simp

theorem roundRobin_noFault (c : Cluster) (n : ℕ) : NoFault c (roundRobin n) := by
  have hmem : roundRobin n ∈ _ := cycle_mem _ _ n
  simp only [mem_cons, not_mem_nil, or_false] at hmem
  rcases hmem with h | h | h
  · rw [h]; rfl
  · rw [h]; trivial
  · rw [h]; trivial

/-- A patient master trains its only worker, under a fair scheduler. -/
theorem train_in_order_patient :
    ∃ sched, GuardedSched (Cluster.step Worker.defaultConfig) Published
        (Cluster.start oneWorker) sched ∧
      FairFor (actors 1) sched ∧
      (∃ N, (stateAt (Cluster.step Worker.defaultConfig) (Cluster.start oneWorker) sched N).pc =
          .returned ∧
        (stateAt (Cluster.step Worker.defaultConfig) (Cluster.start oneWorker) sched
          N).completeTrainNum = 1) ∧
      ∃ c, Reach (Cluster.step Worker.defaultConfig) Published (Cluster.start oneWorker) c ∧
        c.pc = .returned ∧ InOrder 1 c := by
  have hidle : Idle oneWorker := by
    intro w hw
    simp only [oneWorker, List.mem_singleton] at hw
    subst hw
    rfl
  obtain ⟨hsafe, hlive, _⟩ := train_in_order Worker.defaultConfig oneWorker hidle
  obtain ⟨c, hc, hret⟩ : ∃ c, guardedExec (Cluster.step Worker.defaultConfig) Published
      (Cluster.start oneWorker) patientRun = some c ∧ (c.pc == .returned) = true := by
    rw [← Option.any_eq_true]
    decide +kernel
  rw [beq_iff_eq] at hret
  have hguard : GuardedSched (Cluster.step Worker.defaultConfig) Published
      (Cluster.start oneWorker) (prepend patientRun roundRobin) := by
    refine guardedSched_prepend patientRun _ c hc fun n => ⟨roundRobin_noFault _ n, ?_⟩
    intro _ _ hask
    have hstay := stateAt_keeps (Cluster.step Worker.defaultConfig) (P := fun d => d.pc = .returned)
      roundRobin hret
      (fun d l d' hd hs => (stopped_step (Or.inl hd) hs).trans hd) n
    rw [hstay] at hask
    exact absurd hask (by simp)
  have hfair := fairFor_prepend roundRobin_fair patientRun
  have hreach := reach_of_guardedExec patientRun _ c hc
  exact ⟨_, hguard, hfair, hlive _ hguard hfair, c, hreach, hret, hsafe c hreach⟩

/-- The worker has stored the progress 7/7 and not yet the state TRAINED when
    the master polls and asks. -/
def hastyRun : List Label := asks 2 ++ works 0 5 ++ asks 1 ++ works 1 17 ++ asks 2

/-- The master gives up although nothing has failed. -/
theorem train_gives_up :
    ¬ ∀ (cfg : Config ℚ) (ws : List (Conf Worker.Server Thread)), Idle ws →
      ∀ c, Reach (Cluster.step cfg) NoFault (Cluster.start ws) c → InOrder ws.length c := by
  intro hall
  obtain ⟨c, hreach, hbad⟩ := exists_reach_of_guardedExec (Cluster.step Worker.defaultConfig)
    NoFault (Cluster.start oneWorker) hastyRun (fun c => c.pc == .early)
    (by decide +kernel)
  rw [beq_iff_eq] at hbad
  refine (hall Worker.defaultConfig oneWorker ?_ c hreach).never_early hbad
  intro w hw
  simp only [oneWorker, List.mem_singleton] at hw
  subst hw
  rfl

end KalavaPir.Master
