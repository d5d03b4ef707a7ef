/-
  KalavaPir.Master.Service — the two actors that change the worker table, and
  the machine that interleaves any number of them with any number of searches.

  `ns_serviceInit` appends the workers of a request and then stores their
  number; `updateServerStatus` (one run per watchdog tick) stores 0, clears the
  vector, appends the workers of the snapshot file one by one and stores their
  number, under the comment "a mutex lock is necessary" and without one.
-/
import KalavaPir.Master.SearchInvariant

namespace KalavaPir.Master

open KalavaPir.Common
open KalavaPir.Framework

/-! ## §1. The outside world. -/

/-- How the outside world answers a statement. -/
structure Outcome where
  /-- which thread of a search runs; `none` is the request's own -/
  thread : Option ℕ := none
  /-- a call or a system function succeeds -/
  ok : Bool := true
  /-- what an RPC stores through its result pointer -/
  tag : ℤ := 1
  /-- what `textDetect_thread` gets back -/
  text : Option (List Char) := none
  /-- `buf.st_mtime`, and the snapshot file -/
  mtime : ℤ := 0
  file : Option Snapshot := none

/-! ## §2. `ns_serviceInit` (recgservice.cpp:354). -/

/-- Where a `serviceInit` is. -/
inductive InitPc where
  | begin
  | parse
  /-- `workerInfoVec.push_back(wi)` for the rest of the request's workers -/
  | push (rest : List WorkerInfo)
  /-- `server.bucketSize=server.workerInfoVec.size()` -/
  | setSize
  /-- `soap_call_ns__serviceInit` to worker `i` -/
  | call (i : ℕ)
  | setInited
  | write
  | done
  deriving DecidableEq, Repr

/-- A request and where it is. -/
structure ServiceInit where
  pc : InitPc
  workspace : List Char
  tpldir : List Char
  method : List Char
  option : List Char
  ret : ℤ
  tag : Option ℤ
  deriving DecidableEq, Repr

/-- The label `end:`. -/
def ServiceInit.finish (u : ServiceInit) : ServiceInit := { u with pc := .done, tag := some u.ret }

variable {S : Type}

/-- One step of a `serviceInit`. -/
def ServiceInit.exec (sv : Server S) (u : ServiceInit) (o : Outcome) :
    Option (Server S × ServiceInit) :=
  match u.pc with
  | .begin => some ({ sv with serverstate := PIR_STATE_INITING }, { u with pc := .parse })
  | .parse =>
    match initWorkerInfo u.workspace u.tpldir u.method u.option with
    | none => some (sv, u.finish)
    | some ws => some (sv, { u with pc := .push ws })
  | .push [] => some (sv, { u with pc := .setSize })
  -- the vector grows while `bucketSize` still has the old number
  | .push (w :: ws) =>
    some ({ sv with workerInfoVec := sv.workerInfoVec ++ [w] }, { u with pc := .push ws })
  | .setSize =>
    some ({ sv with bucketSize := sv.workerInfoVec.length }, { u with pc := .call 0 })
  | .call i =>
    if i < sv.bucketSize then
      let ret := if o.ok then o.tag else PIR_SOAP_TAG_ERR
      if ret = PIR_SOAP_TAG_ERR then some (sv, { u with ret := ret }.finish)
      else some (sv, { u with pc := .call (i + 1), ret := ret })
    else some (sv, { u with pc := .setInited })
  | .setInited => some ({ sv with serverstate := PIR_STATE_INITED }, { u with pc := .write })
  | .write => some (sv, u.finish)
  | .done => none

/-! ## §3. `updateServerStatus` (recgservice.cpp:748). -/

/-- Where a tick of the watchdog is. -/
inductive WatchPc where
  | stat
  /-- `server.bucketSize=0` -/
  | zero
  /-- `server.workerInfoVec.clear()` -/
  | clear
  | load
  /-- the `push_back`s of `loadWorkerInfo`, and what it returns after them -/
  | push (rest : List WorkerInfo) (ok : Bool)
  | setSize
  /-- `soap_call_ns__state` to worker `i`, with the least state so far -/
  | poll (i : ℕ) (state : ℤ)
  | done
  deriving DecidableEq, Repr

/-- One step of a tick. -/
def WatchPc.exec (sv : Server S) (pc : WatchPc) (o : Outcome) : Option (Server S × WatchPc) :=
  match pc with
  | .stat =>
    if !o.ok then some (sv, .done)
    else if o.mtime > sv.watchdog_mtime then
      some ({ sv with watchdog_mtime := o.mtime }, .zero)
    else some (sv, .poll 0 0x7fffffff)
  -- "a mutex lock is necessary", says the source here, and takes none
  | .zero => some ({ sv with bucketSize := 0 }, .clear)
  | .clear => some ({ sv with workerInfoVec := [] }, .load)
  | .load => some (sv, .push (loadWorkerInfo o.file).1 (loadWorkerInfo o.file).2)
  | .push (w :: ws) ok => some ({ sv with workerInfoVec := sv.workerInfoVec ++ [w] }, .push ws ok)
  | .push [] true => some (sv, .setSize)
  -- a bad snapshot ends the process, with what was appended so far in place
  | .push [] false => some ({ sv with exited := true }, .done)
  | .setSize => some ({ sv with bucketSize := sv.workerInfoVec.length }, .poll 0 0x7fffffff)
  | .poll i state =>
    if i < sv.bucketSize then
      if o.ok then
        some ({ sv with
          workerInfoVec := sv.workerInfoVec.modify i (fun w => { w with state := o.tag }) },
          .poll (i + 1) (if o.tag < state then o.tag else state))
      else some ({ sv with serverstate := PIR_STATE_ERROR }, .done)
    else
      some ({ sv with
        serverstate := if state = 0x7fffffff then PIR_STATE_ERROR else BitVec.ofInt 8 state },
        .done)
  | .done => none

/-! ## §4. The machine. -/

/-- Whoever works on the shared record. -/
inductive Actor (S : Type) where
  | search (s : Search S)
  | init (u : ServiceInit)
  | watchdog (pc : WatchPc)

/-- What arrives from outside. -/
inductive Request where
  | imSearch (imgPath : List Char)
  | serviceInit (workspace tpldir method option : List Char)
  | tick
  deriving DecidableEq, Repr

/-- Who works for a request. -/
def Request.actor (S : Type) : Request → Actor S
  | .imSearch imgPath => .search (Search.start S imgPath)
  | .serviceInit workspace tpldir method option =>
    .init { pc := .begin, workspace, tpldir, method, option, ret := PIR_SOAP_TAG_OK, tag := none }
  | .tick => .watchdog .stat

section Machine

variable [LinearOrder S]

/-- One statement of an actor. -/
def Actor.exec (env : Env S) (sv : Server S) (o : Outcome) : Actor S → Option (Server S × Actor S)
  | .search s =>
    match o.thread with
    | none => (s.main env sv o.ok).map (fun r => (r.1, .search r.2))
    | some j => (s.child env j o.text).map (fun s' => (sv, .search s'))
  | .init u => (u.exec sv o).map (fun r => (r.1, .init r.2))
  | .watchdog pc => (pc.exec sv o).map (fun r => (r.1, .watchdog r.2))

/-- Whose statement it was. -/
inductive ActorStep (env : Env S) (sv : Server S) (o : Outcome) :
    Actor S → Server S → Actor S → Prop
  | main {sv' : Server S} {s s' : Search S} (h : s.main env sv o.ok = some (sv', s')) :
      ActorStep env sv o (.search s) sv' (.search s')
  | child {s s' : Search S} (j : ℕ) (h : s.child env j o.text = some s') :
      ActorStep env sv o (.search s) sv (.search s')
  | init {sv' : Server S} {u u' : ServiceInit} (h : u.exec sv o = some (sv', u')) :
      ActorStep env sv o (.init u) sv' (.init u')
  | watchdog {sv' : Server S} {pc pc' : WatchPc} (h : pc.exec sv o = some (sv', pc')) :
      ActorStep env sv o (.watchdog pc) sv' (.watchdog pc')

variable {sv sv' : Server S}

/-- **Inversion of a statement.** -/
theorem actor_inv {env : Env S} {o : Outcome} {a a' : Actor S} (h : a.exec env sv o = some (sv', a')) :
    ActorStep env sv o a sv' a' := by
  cases a with
  | search s =>
    simp only [Actor.exec] at h
    split at h
    · simp only [Option.map_eq_some_iff, Prod.mk.injEq] at h
      obtain ⟨⟨sv₁, s₁⟩, hmain, rfl, rfl⟩ := h
      exact ActorStep.main hmain
    next j _ =>
      simp only [Option.map_eq_some_iff, Prod.mk.injEq] at h
      obtain ⟨s₁, hchild, rfl, rfl⟩ := h
      exact ActorStep.child j hchild
  | init u =>
    simp only [Actor.exec, Option.map_eq_some_iff, Prod.mk.injEq] at h
    obtain ⟨⟨sv₁, u₁⟩, hx, rfl, rfl⟩ := h
    exact ActorStep.init hx
  | watchdog pc =>
    simp only [Actor.exec, Option.map_eq_some_iff, Prod.mk.injEq] at h
    obtain ⟨⟨sv₁, pc₁⟩, hx, rfl, rfl⟩ := h
    exact ActorStep.watchdog hx

/-- The master: nobody runs after `exit(0)`. -/
def machine (env : Env S) : Machine (Server S) (Actor S) Request Outcome where
  exec sv _ a o :=
    if sv.exited then none else (a.exec env sv o).map (fun r => (r.1, r.2, []))
  entry := Request.actor S

/-- One step of anybody. -/
abbrev step (env : Env S) := (machine env).step

theorem machine_exec {env : Env S} {i : ℕ} {a a' : Actor S} {o : Outcome} {new : List (Actor S)}
    (h : (machine env).exec sv i a o = some (sv', a', new)) :
    sv.exited = false ∧ a.exec env sv o = some (sv', a') ∧ new = [] := by
  simp only [machine] at h
  split at h
  · exact absurd h (by simp)
  next hex =>
    simp only [Option.map_eq_some_iff, Prod.mk.injEq] at h
    obtain ⟨⟨sv₁, a₁⟩, hx, rfl, rfl, rfl⟩ := h
    exact ⟨by simpa using hex, hx, rfl⟩

end Machine

/-- The master when it enters its event loop with the table `vec`. -/
def Server.boot (state : BitVec 8) (vec : List WorkerInfo) (pool : QQueue (SearchObj S)) :
    Server S :=
  { serverstate := state, bucketSize := vec.length, workerInfoVec := vec,
    client_search_queue := pool, stat_search_conn := 0, stat_failed_conn := 0,
    watchdog_mtime := 0, exited := false }

/-- Nobody has come yet. -/
def boot (state : BitVec 8) (vec : List WorkerInfo) (pool : QQueue (SearchObj S)) :
    Conf (Server S) (Actor S) :=
  { shared := Server.boot state vec pool, pool := [] }

end KalavaPir.Master
