/-
  KalavaPir.Requests.ProcessQueue — how a connection gets to a thread.

  The accept loop of `serverMain` and the threads that run `process_queue`, as
  both the master and the worker have them (master/src/pir.cpp:446 and 766,
  worker/src/pir.cpp:414 and 756): one thread accepts a socket, pushes it and
  signals; any number of others wait for the signal and pop until nothing is
  left.

  `shutdown_asap` can be set at any time (by `sigShutdownHandler`, or by the
  worker's `ns_quit` inside a `soap_serve`).  What `soap_serve` does with the
  connection is the subject of the other modules.
-/
import KalavaPir.Common.QQueue
import KalavaPir.Common.QTrigger
import KalavaPir.Framework.ThreadPool

namespace KalavaPir.Requests

open KalavaPir.Common
open KalavaPir.Framework

/-! ## §1. The shared record. -/

/-- What `accept` returns when it fails. -/
def SOAP_INVALID_SOCKET : ℤ := -1

/-- `soap_valid_socket`. -/
def soap_valid_socket (n : ℤ) : Bool := n != SOAP_INVALID_SOCKET

/-- The marks of a thread. -/
def PIR_THREAD_STATUS_IDLE : BitVec 1 := 0x00#1
def PIR_THREAD_STATUS_BUSY : BitVec 1 := 0x01#1
def PIR_THREAD_NOTSTARTED : BitVec 8 := 0x00#8
def PIR_THREAD_RUNNING : BitVec 8 := 0x01#8
def PIR_THREAD_STOPPED : BitVec 8 := 0x02#8

/-- `struct pirServer`, as far as accepting connections uses it. -/
structure Server where
  shutdown_asap : Bool
  client_queue : QQueue ℤ
  client_queue_trigger : QTrigger
  stat_numconnections : BitVec 64
  stat_failed_conn : BitVec 64
  /-- the sockets `soap_accept` has returned, oldest first (not in the
      source) -/
  accepted : List ℤ
  /-- the sockets popped from the queue and the threads that got them, oldest
      first (not in the source) -/
  handed : List (ℕ × ℤ)

/-! ## §2. The accept loop. -/

/-- Where the acceptor is. -/
inductive AcceptPc where
  /-- `while(!server->shutdown_asap)` -/
  | test
  | accept
  /-- `client_queue->push(sock)` -/
  | push (sock : ℤ)
  /-- `client_queue_trigger->signal()` -/
  | signal
  /-- the `q_thread_join`s after the loop -/
  | join
  deriving DecidableEq, Repr

/-- How the outside world answers a statement. -/
structure Outcome where
  /-- what `soap_accept` returns, and `soap.errnum` after it -/
  sock : ℤ := SOAP_INVALID_SOCKET
  errnum : ℤ := 4
  /-- which thread `pthread_cond_signal` wakes -/
  wake : ℕ := 0
  /-- `pthread_cond_wait` returns without a signal -/
  spurious : Bool := false

/-- One step of the acceptor. -/
def AcceptPc.exec (sv : Server) (pc : AcceptPc) (o : Outcome) : Option (Server × AcceptPc) :=
  match pc with
  | .test => some (sv, if sv.shutdown_asap then .join else .accept)
  | .accept =>
    if !soap_valid_socket o.sock then some (sv, if o.errnum ≠ 0 then .test else .join)
    else
      some ({ sv with
        stat_numconnections := sv.stat_numconnections + 1
        accepted := sv.accepted ++ [o.sock] }, .push o.sock)
  | .push sock =>
    match sv.client_queue.push sock with
    | none => none
    | some q => some ({ sv with client_queue := q }, .signal)
  | .signal =>
    some ({ sv with client_queue_trigger := sv.client_queue_trigger.signal o.wake }, .test)
  | .join => none

/-! ## §3. `process_queue`. -/

/-- Where a processing thread is. -/
inductive ThreadPc where
  /-- `flag|=PIR_THREAD_RUNNING` -/
  | begin
  /-- `while(!server->shutdown_asap)` -/
  | test
  /-- `status&=~PIR_THREAD_STATUS_BUSY` -/
  | idle
  /-- `client_queue_trigger->wait()` -/
  | wait
  /-- inside `pthread_cond_wait` -/
  | blocked
  /-- `status|=PIR_THREAD_STATUS_BUSY` -/
  | busy
  /-- `client_queue->pop_non_blocking(…)` -/
  | pop
  /-- `soap_valid_socket(thread_info->psoap->socket)` -/
  | check
  /-- `soap_serve` and the two clean-ups after it -/
  | serve
  /-- the two assignments to `flag` after the loop -/
  | leave
  | finished
  deriving DecidableEq, Repr

/-- `struct threadInfo`, and where the thread is. -/
structure Thread where
  pc : ThreadPc
  status : BitVec 1
  flag : BitVec 8
  /-- `psoap->socket` -/
  socket : ℤ
  deriving DecidableEq, Repr

/-- A thread that has just been made. -/
def Thread.start : Thread :=
  { pc := .begin, status := PIR_THREAD_STATUS_IDLE, flag := PIR_THREAD_NOTSTARTED,
    socket := SOAP_INVALID_SOCKET }

/-- The loop test inside `wait()`. -/
def Thread.waitTest (sv : Server) (i : ℕ) (t : Thread) (trigger : QTrigger) : Server × Thread :=
  ({ sv with client_queue_trigger := (trigger.wait i).2 },
    { t with pc := if (trigger.wait i).1 then .busy else .blocked })

/-- One step of a processing thread. -/
def Thread.exec (sv : Server) (i : ℕ) (t : Thread) (o : Outcome) : Option (Server × Thread) :=
  match t.pc with
  | .begin => some (sv, { t with pc := .test, flag := t.flag ||| PIR_THREAD_RUNNING })
  | .test => some (sv, { t with pc := if sv.shutdown_asap then .leave else .idle })
  | .idle => some (sv, { t with pc := .wait, status := t.status &&& ~~~PIR_THREAD_STATUS_BUSY })
  | .wait => some (t.waitTest sv i sv.client_queue_trigger)
  | .blocked =>
    match sv.client_queue_trigger.awake i o.spurious with
    | none => none
    | some trigger => some (t.waitTest sv i trigger)
  | .busy => some (sv, { t with pc := .pop, status := t.status ||| PIR_THREAD_STATUS_BUSY })
  | .pop =>
    match sv.client_queue.pop_non_blocking with
    | none => some (sv, { t with pc := .test })
    | some (sock, q) =>
      some ({ sv with client_queue := q, handed := sv.handed ++ [(i, sock)] },
        { t with pc := .check, socket := sock })
  | .check =>
    if !soap_valid_socket t.socket then
      some ({ sv with stat_failed_conn := sv.stat_failed_conn + 1 }, { t with pc := .pop })
    else some (sv, { t with pc := .serve })
  | .serve => some (sv, { t with pc := .pop })
  | .leave =>
    some (sv, { t with
      pc := .finished, flag := (t.flag &&& ~~~PIR_THREAD_RUNNING) ||| PIR_THREAD_STOPPED })
  | .finished => none

/-! ## §4. The machine. -/

/-- The acceptor or a processing thread. -/
inductive Actor where
  | acceptor (pc : AcceptPc)
  | thread (t : Thread)
  /-- whoever sets `shutdown_asap`; `true` once it has -/
  | shutdown (set : Bool)
  deriving DecidableEq, Repr

/-- One step of either. -/
def Actor.exec (sv : Server) (i : ℕ) (o : Outcome) : Actor → Option (Server × Actor)
  | .acceptor pc => (pc.exec sv o).map (fun r => (r.1, .acceptor r.2))
  | .thread t => (t.exec sv i o).map (fun r => (r.1, .thread r.2))
  | .shutdown false => some ({ sv with shutdown_asap := true }, .shutdown true)
  | .shutdown true => none

/-- Only requests to shut down arrive from outside; connections arrive at the
    accept loop. -/
def machine : Machine Server Actor Unit Outcome where
  exec sv i a o := (a.exec sv i o).map (fun r => (r.1, r.2, []))
  entry _ := .shutdown false

/-- One step of anybody. -/
abbrev step := machine.step

/-- The server when it enters the accept loop with `n` threads: the queue is
    the one `init` has made, the trigger resets itself and is clear. -/
def boot (q : QQueue ℤ) (n : ℕ) : Conf Server Actor :=
  { shared :=
      { shutdown_asap := false, client_queue := q, client_queue_trigger := QTrigger.new true false,
        stat_numconnections := 0, stat_failed_conn := 0, accepted := [], handed := [] }
    pool := .acceptor .test :: List.replicate n (.thread Thread.start) }

/-! ## §5. Inversion. -/

/-- `wait()` has returned, and `pop_non_blocking` has not failed since. -/
def ThreadPc.pastWait : ThreadPc → Bool
  | .busy => true
  | .pop => true
  | .check => true
  | .serve => true
  | _ => false

/-- The socket that has been accepted and not yet pushed. -/
def AcceptPc.pending : AcceptPc → List ℤ
  | .push sock => [sock]
  | _ => []

/-- What a statement can do to the queue, the trigger and the two records. -/
inductive ActorStep (sv : Server) (i : ℕ) : Actor → Server → Actor → Prop
  | accept (sock : ℤ) :
      ActorStep sv i (.acceptor .accept)
        { sv with
          stat_numconnections := sv.stat_numconnections + 1
          accepted := sv.accepted ++ [sock] } (.acceptor (.push sock))
  | push (sock : ℤ) (q : QQueue ℤ) (hq : sv.client_queue.push sock = some q) :
      ActorStep sv i (.acceptor (.push sock)) { sv with client_queue := q } (.acceptor .signal)
  | signal (k : ℕ) :
      ActorStep sv i (.acceptor .signal)
        { sv with client_queue_trigger := sv.client_queue_trigger.signal k } (.acceptor .test)
  /-- the loop test, and an `accept` that fails -/
  | loop (pc pc' : AcceptPc) (h : pc = .test ∨ pc = .accept) (h' : pc'.pending = [])
      (hs : pc' ≠ .signal) : ActorStep sv i (.acceptor pc) sv (.acceptor pc')
  /-- the loop test of `wait()` -/
  | wait (t : Thread) (trigger : QTrigger) (hpc : t.pc = .wait ∨ t.pc = .blocked)
      (hstate : trigger.m_state = sv.client_queue_trigger.m_state)
      (hauto : trigger.m_autoreset = sv.client_queue_trigger.m_autoreset)
      (hcond : ∀ j, j ∈ trigger.cond → j ∈ sv.client_queue_trigger.cond)
      (hout : t.pc = .blocked → i ∉ trigger.cond) :
      ActorStep sv i (.thread t) (t.waitTest sv i trigger).1 (.thread (t.waitTest sv i trigger).2)
  | pop (t : Thread) (sock : ℤ) (q : QQueue ℤ) (hpc : t.pc = .pop)
      (hq : sv.client_queue.pop = some (sock, q)) :
      ActorStep sv i (.thread t) { sv with client_queue := q, handed := sv.handed ++ [(i, sock)] }
        (.thread { t with pc := .check, socket := sock })
  | popEmpty (t : Thread) (hpc : t.pc = .pop) (hq : sv.client_queue.pop = none) :
      ActorStep sv i (.thread t) sv (.thread { t with pc := .test })
  /-- everything else a thread does -/
  | local_ (t t' : Thread) (stat : BitVec 64) (hpast : t'.pc.pastWait = t.pc.pastWait)
      (hb : t.pc ≠ .blocked) (hb' : t'.pc ≠ .blocked)
      (hend : t'.pc = .leave ∨ t'.pc = .finished →
        sv.shutdown_asap = true ∨ t.pc = .leave ∨ t.pc = .finished) :
      ActorStep sv i (.thread t) { sv with stat_failed_conn := stat } (.thread t')
  | shutdown :
      ActorStep sv i (.shutdown false) { sv with shutdown_asap := true } (.shutdown true)

section Inversion

variable {sv sv' : Server} {i : ℕ} {o : Outcome}

theorem acceptPc_inv {pc pc' : AcceptPc} (h : pc.exec sv o = some (sv', pc')) :
    ActorStep sv i (.acceptor pc) sv' (.acceptor pc') := by
  cases pc with
  | test =>
    obtain ⟨rfl, rfl⟩ := h
    refine ActorStep.loop _ _ (Or.inl rfl) ?_ ?_ <;> split <;> simp [AcceptPc.pending]
  | accept =>
    simp only [AcceptPc.exec] at h
    split at h
    · simp only [Option.some.injEq, Prod.mk.injEq] at h
      obtain ⟨rfl, rfl⟩ := h
      refine ActorStep.loop _ _ (Or.inr rfl) ?_ ?_ <;> split <;> simp [AcceptPc.pending]
    · simp only [Option.some.injEq, Prod.mk.injEq] at h
      obtain ⟨rfl, rfl⟩ := h
      exact ActorStep.accept o.sock
  | push sock =>
    simp only [AcceptPc.exec] at h
    split at h
    · exact absurd h (by simp)
    · next q hq =>
        obtain ⟨rfl, rfl⟩ := h
        exact ActorStep.push sock q hq
  | signal =>
    obtain ⟨rfl, rfl⟩ := h
    exact ActorStep.signal o.wake
  | join => exact absurd h (by simp [AcceptPc.exec])

theorem thread_inv {t t' : Thread} (h : t.exec sv i o = some (sv', t')) :
    ActorStep sv i (.thread t) sv' (.thread t') := by
  cases hpc : t.pc <;> simp only [Thread.exec, hpc] at h
  case wait =>
    simp only [Option.some.injEq] at h
    have h₁ := congrArg Prod.fst h
    have h₂ := congrArg Prod.snd h
    subst h₁ h₂
    exact ActorStep.wait t _ (Or.inl hpc) rfl rfl (fun _ hj => hj) (by simp [hpc])
  case blocked =>
    split at h
    · exact absurd h (by simp)
    next trigger haw =>
      obtain ⟨hstate, hauto, hcond⟩ := QTrigger.awake_some haw
      simp only [Option.some.injEq] at h
      have h₁ := congrArg Prod.fst h
      have h₂ := congrArg Prod.snd h
      subst h₁ h₂
      exact ActorStep.wait t trigger (Or.inr hpc) hstate hauto (fun j hj => ((hcond j).mp hj).2)
        (fun _ hi => ((hcond i).mp hi).1 rfl)
  case pop =>
    split at h
    · next hq =>
        obtain ⟨rfl, rfl⟩ := h
        exact ActorStep.popEmpty t hpc hq
    · next sock q hq =>
        obtain ⟨rfl, rfl⟩ := h
        exact ActorStep.pop t sock q hpc hq
  case check =>
    split at h <;>
    · simp only [Option.some.injEq, Prod.mk.injEq] at h
      obtain ⟨rfl, rfl⟩ := h
      exact ActorStep.local_ t _ _ (by rw [hpc]; rfl) (by simp [hpc]) (by simp) (by simp)
  case test =>
    obtain ⟨rfl, rfl⟩ := h
    refine ActorStep.local_ t _ sv.stat_failed_conn ?_ (by simp [hpc]) ?_ ?_ <;>
      cases hs : sv.shutdown_asap <;> simp [hpc, ThreadPc.pastWait]
  case finished => exact absurd h (by simp)
  all_goals
    obtain ⟨rfl, rfl⟩ := h
    exact ActorStep.local_ t _ sv.stat_failed_conn (by rw [hpc]; rfl) (by simp [hpc]) (by simp)
      (by simp [hpc])

/-- **Inversion of a statement.** -/
theorem actor_inv {a a' : Actor} (h : a.exec sv i o = some (sv', a')) : ActorStep sv i a sv' a' := by
  cases a with
  | acceptor pc =>
    simp only [Actor.exec, Option.map_eq_some_iff, Prod.mk.injEq] at h
    obtain ⟨⟨sv₁, pc₁⟩, hx, rfl, rfl⟩ := h
    exact acceptPc_inv hx
  | thread t =>
    simp only [Actor.exec, Option.map_eq_some_iff, Prod.mk.injEq] at h
    obtain ⟨⟨sv₁, t₁⟩, hx, rfl, rfl⟩ := h
    exact thread_inv hx
  | shutdown b =>
    cases b with
    | false =>
      obtain ⟨rfl, rfl⟩ := h
      exact ActorStep.shutdown
    | true => exact absurd h (by simp [Actor.exec])

/-- **Inversion of a move**: somebody asks for a shutdown, or an actor executes
    one statement. -/
theorem step_inv {c c' : Conf Server Actor} {m : Move Unit Outcome} (h : step c m = some c') :
    (m = .arrive () ∧ c' = { c with pool := c.pool ++ [.shutdown false] }) ∨
    (∃ i o a sv' a', m = .run i o ∧ c.pool[i]? = some a ∧ ActorStep c.shared i a sv' a' ∧
      c' = { shared := sv', pool := c.pool.set i a' }) := by
  rcases machine.step_cases h with ⟨r, rfl, rfl⟩ | ⟨i, o, a, sv', a', new, rfl, ha, hx, rfl⟩
  · exact Or.inl ⟨rfl, rfl⟩
  · simp only [machine, Option.map_eq_some_iff, Prod.mk.injEq] at hx
    obtain ⟨⟨sv₁, a₁⟩, hx, rfl, rfl, rfl⟩ := hx
    exact Or.inr ⟨i, o, a, sv₁, a₁, rfl, ha, actor_inv hx, by simp⟩

end Inversion

end KalavaPir.Requests
