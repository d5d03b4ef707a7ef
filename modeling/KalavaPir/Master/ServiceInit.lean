/-
  KalavaPir.Master.ServiceInit — a whole `serviceInit` request: the table it
  leaves, the file it writes and the tag it returns.

  The request runs alone, against a world that answers its worker calls and
  its `fopen`; `ns_serviceInit_runs` ties the whole function to the statements
  of `KalavaPir.Master.Service`.

  The handler APPENDS the workers of the request to the table (the watchdog
  clears it first), has three ways to its label `end:`, and sets `ret` on one
  of them only.
-/
import KalavaPir.Master.TableChange
import KalavaPir.Master.Snapshot

namespace KalavaPir.Master

open KalavaPir.Common
open KalavaPir.Framework List

variable {S : Type}

/-! ## §1. The request and its world. -/

/-- The four lists of a request. -/
structure InitRequest where
  workspace : List Char
  tpldir : List Char
  method : List Char
  option : List Char
  deriving DecidableEq, Repr

/-- The workers it describes; `none` is PIR_ERR. -/
def InitRequest.workers (r : InitRequest) : Option (List WorkerInfo) :=
  initWorkerInfo r.workspace r.tpldir r.method r.option

/-- The answers of the workers and of `fopen`. -/
structure InitWorld where
  /-- what `ns__serviceInit` of worker `i` returns; `none` is a SOAP fault -/
  reply : ℕ → Option ℤ
  /-- the snapshot file can be opened for writing -/
  fopen : Bool

/-- The outcome of each step. -/
def InitWorld.outcome (w : InitWorld) : InitPc → Outcome
  | .call i =>
    match w.reply i with
    | none => { ok := false }
    | some v => { tag := v }
  | _ => {}

/-- The handler at its first statement. -/
def InitRequest.start (r : InitRequest) : ServiceInit :=
  { pc := .begin, workspace := r.workspace, tpldir := r.tpldir, method := r.method,
    option := r.option, ret := PIR_SOAP_TAG_OK, tag := none }

/-- One statement of the handler, nobody else running. -/
def initStep (w : InitWorld) (p : Server S × ServiceInit) (_ : Unit) :
    Option (Server S × ServiceInit) :=
  p.2.exec p.1 (w.outcome p.2.pc)

/-! ## §2. The whole function (recgservice.cpp:354). -/

/-- `n` more calls, from worker `i` on: whether they all went through, and
    `ret` after them. -/
def initCalls (reply : ℕ → Option ℤ) : ℕ → ℕ → ℤ → Bool × ℤ
  | 0, _, ret => (true, ret)
  | n + 1, i, _ =>
    let ret := (reply i).getD PIR_SOAP_TAG_ERR
    if ret = PIR_SOAP_TAG_ERR then (false, ret) else initCalls reply n (i + 1) ret

/-- What a request leaves: the record, the snapshot it wrote, and `*tag`. -/
structure InitResult (S : Type) where
  server : Server S
  file : Option (List Char)
  tag : ℤ

/-- `ns_serviceInit`. -/
def ns_serviceInit (sv : Server S) (r : InitRequest) (w : InitWorld) : InitResult S :=
  let sv := { sv with serverstate := PIR_STATE_INITING }
  match r.workers with
  -- `goto end`, with `ret` as it was initialised
  | none => ⟨sv, none, PIR_SOAP_TAG_OK⟩
  | some ws =>
    let sv := { sv with workerInfoVec := sv.workerInfoVec ++ ws }
    let sv := { sv with bucketSize := sv.workerInfoVec.length }
    match initCalls w.reply sv.bucketSize 0 PIR_SOAP_TAG_OK with
    | (false, ret) => ⟨sv, none, ret⟩
    | (true, ret) =>
      let sv := { sv with serverstate := PIR_STATE_INITED }
      -- a failed write is a `goto end` as well
      ⟨sv, if w.fopen then some (writeWorkerInfo sv.workerInfoVec) else none, ret⟩

/-! ## §3. The statements produce it. -/

theorem init_push_runs (w : InitWorld) (ws : List WorkerInfo) : ∀ (sv : Server S) (u : ServiceInit),
    Reach (initStep w) anyStep (sv, { u with pc := .push ws })
      ({ sv with workerInfoVec := sv.workerInfoVec ++ ws }, { u with pc := .setSize }) := by
  induction ws with
  | nil =>
    intro sv u
    rw [append_nil]
    exact Reach.head (l := ()) trivial rfl Reach.start
  | cons wi ws ih =>
    intro sv u
    have hrest := ih { sv with workerInfoVec := sv.workerInfoVec ++ [wi] } u
    rw [append_assoc, singleton_append] at hrest
    exact Reach.head (l := ()) trivial rfl hrest

theorem outcome_ret (w : InitWorld) (i : ℕ) :
    (if (w.outcome (.call i)).ok then (w.outcome (.call i)).tag else PIR_SOAP_TAG_ERR) =
      (w.reply i).getD PIR_SOAP_TAG_ERR := by
  cases hr : w.reply i with
  | none | some v => simp [InitWorld.outcome, hr]

/-- The loop of calls, to the state store or to `end:`. -/
theorem init_call_runs (w : InitWorld) (n : ℕ) : ∀ (i : ℕ) (sv : Server S) (u : ServiceInit),
    sv.bucketSize = i + n → Reach (initStep w) anyStep (sv, { u with pc := .call i })
      (sv, if (initCalls w.reply n i u.ret).1 then
          { u with pc := .setInited, ret := (initCalls w.reply n i u.ret).2 }
        else { u with ret := (initCalls w.reply n i u.ret).2 }.finish) := by
  induction n with
  | zero =>
    intro i sv u hn
    refine Reach.head (l := ()) trivial ?_ Reach.start
    simp only [initStep, ServiceInit.exec]
    rw [if_neg (by omega)]
    rfl
  | succ n ih =>
    intro i sv u hn
    have hstep : initStep w (sv, { u with pc := .call i }) () =
        if (w.reply i).getD PIR_SOAP_TAG_ERR = PIR_SOAP_TAG_ERR then
          some (sv, { u with ret := (w.reply i).getD PIR_SOAP_TAG_ERR }.finish)
        else some (sv, { u with pc := .call (i + 1), ret := (w.reply i).getD PIR_SOAP_TAG_ERR }) := by
      simp only [initStep, ServiceInit.exec, outcome_ret]
      rw [if_pos (by omega)]
      rfl
    by_cases herr : (w.reply i).getD PIR_SOAP_TAG_ERR = PIR_SOAP_TAG_ERR
    · rw [if_pos herr] at hstep
      simp only [initCalls, if_pos herr, Bool.false_eq_true, if_false]
      exact Reach.head (l := ()) trivial hstep Reach.start
    rw [if_neg herr] at hstep
    simp only [initCalls, if_neg herr]
    exact Reach.head (l := ()) trivial hstep
      (ih (i + 1) sv { u with ret := (w.reply i).getD PIR_SOAP_TAG_ERR } (by omega))

/-- **The statements of a request end in `ns_serviceInit`.** -/
theorem ns_serviceInit_runs (sv : Server S) (r : InitRequest) (w : InitWorld) :
    ∃ u : ServiceInit, Reach (initStep w) anyStep (sv, r.start) ((ns_serviceInit sv r w).server, u) ∧
      u.pc = .done ∧ u.tag = some (ns_serviceInit sv r w).tag := by
  have hbegin : initStep w (sv, r.start) () =
      some ({ sv with serverstate := PIR_STATE_INITING }, { r.start with pc := .parse }) := rfl
  cases hws : r.workers with
  | none =>
    have hparse : initStep w
        (({ sv with serverstate := PIR_STATE_INITING } : Server S), { r.start with pc := .parse }) () =
        some ({ sv with serverstate := PIR_STATE_INITING }, { r.start with pc := .parse }.finish) := by
      simp only [initStep, ServiceInit.exec]
      rw [show initWorkerInfo r.start.workspace r.start.tpldir r.start.method r.start.option =
        none from hws]
    simp only [ns_serviceInit, hws]
    exact ⟨_, Reach.head (l := ()) trivial hbegin (Reach.head (l := ()) trivial hparse Reach.start),
      rfl, rfl⟩
  | some ws =>
    have hparse : initStep w
        (({ sv with serverstate := PIR_STATE_INITING } : Server S), { r.start with pc := .parse }) () =
        some ({ sv with serverstate := PIR_STATE_INITING }, { r.start with pc := .push ws }) := by
      simp only [initStep, ServiceInit.exec]
      rw [show initWorkerInfo r.start.workspace r.start.tpldir r.start.method r.start.option =
        some ws from hws]
    have hpush := init_push_runs w ws ({ sv with serverstate := PIR_STATE_INITING } : Server S) r.start
    have hcalls := init_call_runs w (sv.workerInfoVec ++ ws).length 0
      ({ sv with serverstate := PIR_STATE_INITING, workerInfoVec := sv.workerInfoVec ++ ws,
                 bucketSize := (sv.workerInfoVec ++ ws).length } : Server S) r.start
      (Nat.zero_add _).symm
    have hprefix := Reach.head (l := ()) trivial hbegin (Reach.head (l := ()) trivial hparse
      (hpush.trans (Reach.head (l := ()) trivial rfl hcalls)))
    simp only [ns_serviceInit, hws]
    rw [show r.start.ret = PIR_SOAP_TAG_OK from rfl] at hprefix
    rcases hres : initCalls w.reply (sv.workerInfoVec ++ ws).length 0 PIR_SOAP_TAG_OK with ⟨ok, ret⟩
    rw [hres] at hprefix
    cases ok with
    | false => exact ⟨_, hprefix, rfl, rfl⟩
    | true =>
      exact ⟨_, hprefix.trans (Reach.head (l := ()) trivial rfl
        (Reach.head (l := ()) trivial rfl Reach.start)), rfl, rfl⟩

/-! ## §4. Spec lemmas. -/

variable {r : InitRequest} {ws : List WorkerInfo} {sv : Server S} {w : InitWorld} {ret : ℤ}

/-- An accepted request describes at least one worker. -/
theorem workers_ne_nil (h : r.workers = some ws) : ws ≠ [] := by
  unfold InitRequest.workers initWorkerInfo at h
  simp only [Option.bind_eq_bind, Option.bind_eq_some_iff] at h
  obtain ⟨⟨n₁, v₁⟩, _, ⟨n₂, v₂⟩, _, ⟨n₃, v₃⟩, _, ⟨n, v⟩, hdata, h⟩ := h
  obtain ⟨hpos, hlen⟩ := getData_length hdata
  split at h
  · exact absurd h (by simp)
  next hsame =>
    rw [not_or, not_or, not_or, not_ne_iff, not_ne_iff, not_ne_iff, not_ne_iff] at hsame
    obtain ⟨h₁, h₂, h₃, h₄⟩ := hsame
    injection h with h
    subst h
    intro hnil
    have hlen := congrArg List.length hnil
    simp only [length_map, length_zip, length_nil] at hlen h₁ h₂ h₃ h₄
    omega

/-- **What a request does to the table**: it appends, whatever happens
    afterwards. -/
theorem ns_serviceInit_vec (sv : Server S) (r : InitRequest) (w : InitWorld) :
    (ns_serviceInit sv r w).server.workerInfoVec = sv.workerInfoVec ++ r.workers.getD [] := by
  unfold ns_serviceInit
  cases r.workers with
  | none => simp
  | some ws =>
    simp only [Option.getD_some]
    split <;> rfl

theorem ns_serviceInit_size (sv : Server S) (w : InitWorld) (h : r.workers = some ws) :
    (ns_serviceInit sv r w).server.bucketSize = (sv.workerInfoVec ++ ws).length := by
  simp only [ns_serviceInit, h]
  split <;> rfl

/-! ## §5. Histories of requests. -/

/-- Every worker in the table (the old ones too: the loop runs over all of
    them) answers without an error. -/
def AllAnswer (sv : Server S) (ws : List WorkerInfo) (w : InitWorld) : Prop :=
  ∀ i < (sv.workerInfoVec ++ ws).length, ∃ v, w.reply i = some v ∧ v ≠ PIR_SOAP_TAG_ERR

/-- The request succeeds: it is well formed and the calls go through. -/
def Succeeds (sv : Server S) (l : InitRequest × InitWorld) : Prop :=
  ∃ ws, l.1.workers = some ws ∧ AllAnswer sv ws l.2

/-- The table is the one the request describes. -/
def TableOf (sv : Server S) (r : InitRequest) : Prop :=
  ∃ ws, r.workers = some ws ∧ sv.workerInfoVec = ws ∧ sv.bucketSize = ws.length

/-- The server behind a request. -/
def afterInit (sv : Server S) (l : InitRequest × InitWorld) : Server S :=
  (ns_serviceInit sv l.1 l.2).server

theorem afterInit_vec (ls : List (InitRequest × InitWorld)) : ∀ sv : Server S,
    (ls.foldl afterInit sv).workerInfoVec =
      sv.workerInfoVec ++ ls.flatMap (fun l => l.1.workers.getD []) := by
  induction ls with
  | nil =>
    intro sv
    simp
  | cons l ls ih =>
    intro sv
    rw [foldl_cons, ih, afterInit, ns_serviceInit_vec, flatMap_cons, append_assoc]

/-- Only refused requests add nothing. -/
theorem flatMap_workers_nil (ls : List (InitRequest × InitWorld)) :
    ls.flatMap (fun l => l.1.workers.getD []) = [] ↔ ∀ l ∈ ls, l.1.workers = none := by
  rw [flatMap_eq_nil_iff]
  constructor
  · intro h l hl
    have hnil := h l hl
    cases hws : l.1.workers with
    | none => rfl
    | some ws =>
      rw [hws] at hnil
      exact absurd hnil (workers_ne_nil hws)
  · intro h l hl
    rw [h l hl]
    rfl

/-- One accepted request, at the end of a history that began with the empty
    table. -/
theorem tableOf_iff {sv₀ : Server S} (hempty : sv₀.workerInfoVec = [])
    {pre : List (InitRequest × InitWorld)} {l : InitRequest × InitWorld} (hws : l.1.workers = some ws) :
    TableOf (afterInit (pre.foldl afterInit sv₀) l) l.1 ↔ ∀ k ∈ pre, k.1.workers = none := by
  have hbefore := afterInit_vec pre sv₀
  rw [hempty, nil_append] at hbefore
  have hvec := ns_serviceInit_vec (pre.foldl afterInit sv₀) l.1 l.2
  have hsize := ns_serviceInit_size (pre.foldl afterInit sv₀) l.2 hws
  rw [hbefore, hws, Option.getD_some] at hvec
  rw [hbefore] at hsize
  rw [← flatMap_workers_nil]
  constructor
  · rintro ⟨ws', hws', htable, _⟩
    rw [hws, Option.some.injEq] at hws'
    subst hws'
    rw [afterInit, hvec] at htable
    exact append_left_eq_self.mp htable
  · intro hnil
    rw [hnil, nil_append] at hvec hsize
    exact ⟨ws, hws, hvec, hsize⟩

/-- **THE TABLE AFTER A HISTORY OF REQUESTS.**  Every successful request leaves
    exactly its own workers if and only if no successful request comes after
    another one that was accepted: the workers of that one, successful or not,
    are still in the table. -/
theorem init_history (sv₀ : Server S) (hempty : sv₀.workerInfoVec = [])
    (ls : List (InitRequest × InitWorld)) :
    (∀ pre l post, ls = pre ++ l :: post → Succeeds (pre.foldl afterInit sv₀) l →
      TableOf (afterInit (pre.foldl afterInit sv₀) l) l.1) ↔
    (∀ pre l post, ls = pre ++ l :: post → Succeeds (pre.foldl afterInit sv₀) l →
      ∀ k ∈ pre, k.1.workers = none) := by
  constructor
  · intro h pre l post hls hsucc
    have ⟨ws, hws, _⟩ := hsucc
    exact (tableOf_iff hempty hws).mp (h pre l post hls hsucc)
  · intro h pre l post hls hsucc
    have ⟨ws, hws, _⟩ := hsucc
    exact (tableOf_iff hempty hws).mpr (h pre l post hls hsucc)

/-- A request for one worker, given by a letter, and a world in which all goes
    well. -/
def oneWorkerRequest (c : Char) : InitRequest :=
  { workspace := ['1', '|', c], tpldir := ['1', '|', 't'], method := ['1', '|', 'm'],
    option := ['1', '|', 'o'] }

/-- Nothing fails. -/
def allWell : InitWorld := { reply := fun _ => some PIR_SOAP_TAG_OK, fopen := true }

/-- The master before any request. -/
def emptyMaster : Server ℕ := Server.boot 0#8 [] oneObject

theorem init_history_once :
    TableOf (afterInit emptyMaster (oneWorkerRequest 'a', allWell)) (oneWorkerRequest 'a') :=
  (init_history emptyMaster rfl [(oneWorkerRequest 'a', allWell)]).mpr (by
    intro pre l post hls _ k hk
    -- nothing comes before the only request
    cases pre with
    | nil => exact absurd hk (by simp)
    | cons _ pre =>
      have := congrArg List.length hls
      simp at this) [] _ [] rfl
    ⟨_, rfl, fun _ _ => ⟨PIR_SOAP_TAG_OK, rfl, by decide⟩⟩

/-- Two successful requests: the workers of the first remain. -/
theorem init_history_twice :
    Succeeds emptyMaster (oneWorkerRequest 'a', allWell) ∧
    Succeeds (afterInit emptyMaster (oneWorkerRequest 'a', allWell)) (oneWorkerRequest 'b', allWell) ∧
    ¬ TableOf (afterInit (afterInit emptyMaster (oneWorkerRequest 'a', allWell))
      (oneWorkerRequest 'b', allWell)) (oneWorkerRequest 'b') := by
  refine ⟨⟨_, rfl, fun _ _ => ⟨PIR_SOAP_TAG_OK, rfl, by decide⟩⟩,
    ⟨_, rfl, fun _ _ => ⟨PIR_SOAP_TAG_OK, rfl, by decide⟩⟩, ?_⟩
  rintro ⟨ws, hws, _, hsize⟩
  have hlen : (oneWorkerRequest 'b').workers.map List.length = some 1 := by decide
  rw [hws, Option.map_some, Option.some.injEq] at hlen
  rw [hlen] at hsize
  revert hsize
  decide

/-! ## §6. The error contract. -/

/-- Nothing fails: the strings are accepted, every worker answers without an
    error, the last one (whose answer is returned) with PIR_SOAP_TAG_OK, and
    the file can be opened. -/
def NothingFails (sv : Server S) (r : InitRequest) (w : InitWorld) : Prop :=
  ∃ ws, r.workers = some ws ∧ AllAnswer sv ws w ∧
    w.reply ((sv.workerInfoVec ++ ws).length - 1) = some PIR_SOAP_TAG_OK ∧ w.fopen = true

end KalavaPir.Master
