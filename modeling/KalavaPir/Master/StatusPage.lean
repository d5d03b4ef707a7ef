/-
  KalavaPir.Master.StatusPage — the index into `server_state[]`.

  `getServerInfo` prints `server_state[server->serverstate].summary`, once for
  the master and once for each worker, and the table has SEVEN rows.  The
  handlers store INITING, INITED and TRAINED, which have rows; the watchdog
  stores PIR_STATE_ERROR (0x7f), which has none, or the least of the workers'
  own states.  A worker can be in state 7: `ns_serviceRestart` ORs STARTING
  into whatever the state has become since it looked.
-/
import KalavaPir.Worker.Service
import KalavaPir.Master.Watchdog
import KalavaPir.Master.ServiceInit

namespace KalavaPir.Worker

open KalavaPir.Framework
open KalavaPir.Common

/-! ## §1. The states of a worker. -/

/-- A state the worker program can take, as `ns_state` reports it. -/
def CanReport (v : ℤ) : Prop :=
  ∃ (u : Startup) (pool : QQueue ℕ) (c : Conf Server Thread),
    Reach (step defaultConfig) anyStep (boot u pool) c ∧ ((ns_state c.shared).toNat : ℤ) = v

/-- The programs store states up to READY, and OR nothing but STARTING in. -/
def storesSmall : WCode → Bool
  | .act (.setState v) _ => decide (v.toNat ≤ 6)
  | .act (.orState v) _ => v == PIR_STATE_STARTING
  | _ => true

theorem or_starting_le {v : BitVec 8} (h : v.toNat ≤ 7) : (v ||| PIR_STATE_STARTING).toNat ≤ 7 := by
  exact Nat.le_of_lt_succ (Nat.or_lt_two_pow (n := 3) (by omega) (by decide))

theorem stateAfter_le {a : Action} {k : WCode} {v : BitVec 8} (hcode : storesSmall (.act a k) = true)
    (hv : v.toNat ≤ 7) : (a.stateAfter v).toNat ≤ 7 := by
  cases a with
  | setState w =>
    have hw : w.toNat ≤ 6 := by simpa [storesSmall] using hcode
    show w.toNat ≤ 7
    omega
  | orState w =>
    have hw : w = PIR_STATE_STARTING := by simpa [storesSmall] using hcode
    subst hw
    exact or_starting_le hv
  | _ => exact hv

/-- **No interleaving gets beyond 7.** -/
theorem serverstate_le {F : Type} [CFloat F] {cfg : Config F} {u : Startup} {pool : QQueue ℕ}
    {c : Conf Server Thread} (hc : Reach (step cfg) anyStep (boot u pool) c) :
    c.shared.serverstate.toNat ≤ 7 := by
  induction hc with
  | start =>
    cases u with
    | fresh => exact Nat.zero_le 7
    | recovery => exact (by decide : (5#8).toNat ≤ 7)
    | recovery2 => exact (by decide : (3#8).toNat ≤ 7)
  | next hc _ hs ih =>
    rcases (machine cfg).step_cases hs with ⟨r, rfl, rfl⟩ | ⟨i, o, t, s', t', new, rfl, ht, hx, rfl⟩
    · exact ih
    have hall := code_all (p := fun _ => storesSmall) (by rintro (_ | _) <;> rfl)
      (by rintro (_ | _) <;> rfl) hc ht
    cases exec_inv hx with
    | act a k hcode hperf =>
      rw [hcode] at hall
      show s'.serverstate.toNat ≤ 7
      rw [(perform_spec hperf).1]
      exact stateAfter_le (Code.All.here hall) ih
    | retry => exact ih
    | branch => exact ih

/-- Restart and clear, one inside the other: the first request has tested the
    state when the second one changes it. -/
def restartDuringClear : List (Move Request Outcome) :=
  [.arrive .serviceRestart] ++ runs 0 3 ++ [.arrive .clear] ++ runs 1 1 ++ runs 0 1

/-- A run that ends in each of the states. -/
def runTo : ℕ → List (Move Request Outcome)
  | 0 => []
  | 1 => [.arrive .serviceInit] ++ runs 0 1
  | 2 => [.arrive .clear] ++ runs 0 1
  | 3 => [.arrive (.train 0)] ++ runs 0 1
  | 4 => [.arrive .serviceStop] ++ runs 0 1
  | 5 => [.arrive .serviceRestart] ++ runs 0 4
  | 6 => [.arrive .clear] ++ runs 0 1 ++ [.arrive .serviceStart] ++ runs 1 4 ++ runs 2 16
  | _ => restartDuringClear

/-- **What a worker can report.** -/
theorem canReport_iff (v : ℤ) : CanReport v ↔ 0 ≤ v ∧ v ≤ 7 := by
  constructor
  · rintro ⟨u, pool, c, hc, rfl⟩
    have hle := serverstate_le hc
    unfold ns_state
    omega
  · rintro ⟨hlo, hhi⟩
    have hruns : ∀ n < 8, (guardedExec (step defaultConfig) anyStep (boot .fresh onePool)
        (runTo n)).any (fun c => c.shared.serverstate.toNat == n) = true := by
      decide
    obtain ⟨n, rfl⟩ := Int.eq_ofNat_of_zero_le hlo
    obtain ⟨c, hc, hstate⟩ := exists_reach_of_guardedExec _ _ _ _ _ (hruns n (by omega))
    exact ⟨.fresh, onePool, c, hc, by rw [beq_iff_eq] at hstate; unfold ns_state; omega⟩

end KalavaPir.Worker

namespace KalavaPir.Master

open KalavaPir.Framework
-- both processes have the same constants
open KalavaPir.Worker (PIR_STATE_NONE PIR_STATE_TRAINED)

variable {S : Type}

/-! ## §2. The page (master/src/pir.cpp:546). -/

/-- `struct serverState`, as far as the page uses it. -/
structure ServerState where
  state : BitVec 8
  summary : String

/-- `server_state[]` (pir.cpp:11). -/
def server_state : List ServerState :=
  [ ⟨0x00#8, "pir_state_none"⟩,
    ⟨0x01#8, "pir_state_initing"⟩,
    ⟨0x02#8, "pir_state_inited"⟩,
    ⟨0x03#8, "pir_state_training"⟩,
    ⟨0x04#8, "pir_state_trained"⟩,
    ⟨0x05#8, "pir_state_starting"⟩,
    ⟨0x06#8, "pir_state_ready"⟩ ]

/-- What the page says about states. -/
inductive PageLine where
  /-- `server_state: %d(%s)` -/
  | server (state : BitVec 8) (summary : String)
  /-- `state: %d(%s)` of a worker -/
  | worker (w : WorkerInfo) (summary : String)

/-- `getServerInfo`: `none` if `server_state[]` is read outside its rows.  A
    worker's number is printed beside the summary of the SERVER's state. -/
def getServerInfo (sv : Server S) : Option (List PageLine) := do
  let row ← server_state[sv.serverstate.toNat]?
  let workers ← (sv.workerInfoVec.take sv.bucketSize).mapM fun w => do
    let row ← server_state[sv.serverstate.toNat]?
    pure (PageLine.worker w row.summary)
  pure (.server sv.serverstate row.summary :: workers)

/-- The page reads the table inside its rows. -/
def PageInTable (sv : Server S) : Prop := sv.serverstate.toNat < server_state.length

theorem getServerInfo_isSome_iff (sv : Server S) : (getServerInfo sv).isSome = true ↔ PageInTable sv := by
  unfold getServerInfo PageInTable
  by_cases h : sv.serverstate.toNat < server_state.length
  · simp only [List.getElem?_eq_getElem h, Option.bind_eq_bind, Option.bind_some, List.mapM_pure]
    simp [h]
  · simp [h]

/-! ## §3. The requests and the ticks. -/

/-- What changes the state word of the master.  The answers to a tick are
    states a worker can be in. -/
inductive Operation where
  | serviceInit (r : InitRequest) (w : InitWorld)
  | serviceStop
  | serviceRestart
  | clear
  | tick (t : TickWorld) (answers : ∀ i v, t.state i = some v → Worker.CanReport v)

/-- The `clear()` in three of the handlers calls the workers' `serviceStop` and
    looks at no result. -/
def opStep (sv : Server S) (op : Operation) : Option (Server S) :=
  if sv.exited then none
  else
    match op with
    | .serviceInit r w => some (ns_serviceInit sv r w).server
    | .serviceStop => some { sv with serverstate := PIR_STATE_TRAINED }
    | .serviceRestart => some { sv with serverstate := PIR_STATE_TRAINED }
    | .clear => some { sv with serverstate := PIR_STATE_INITED }
    | .tick t _ => some (updateServerStatus sv t)

/-- **The condition** on a tick that gets to its loop: the table it works with
    has a worker, all of them answer, and one of them with a state that has a
    row. -/
def TickAnswered (sv : Server S) : Operation → Prop
  | .tick t _ => ∀ m, t.mtime = some m → (afterReload sv t m).exited = false →
      0 < (afterReload sv t m).bucketSize ∧
      (∀ i < (afterReload sv t m).bucketSize, t.state i ≠ none) ∧
      ∃ i < (afterReload sv t m).bucketSize, ∃ v, t.state i = some v ∧ v ≤ 6
  | _ => True

theorem ns_serviceInit_state (sv : Server S) (r : InitRequest) (w : InitWorld) :
    PageInTable (ns_serviceInit sv r w).server := by
  unfold PageInTable ns_serviceInit
  cases r.workers with
  | none => exact (by decide : (1#8).toNat < 7)
  | some ws =>
    simp only
    split
    · exact (by decide : (1#8).toNat < 7)
    · exact (by decide : (2#8).toNat < 7)

variable {t : TickWorld} {sv : Server S}

/-- What the loop publishes has a row exactly under the condition. -/
theorem poll_in_table (hans : ∀ i v, t.state i = some v → Worker.CanReport v) (sv : Server S) :
    PageInTable (poll t.state sv.bucketSize 0 noState sv) ↔
      0 < sv.bucketSize ∧ (∀ i < sv.bucketSize, t.state i ≠ none) ∧
        ∃ i < sv.bucketSize, ∃ v, t.state i = some v ∧ v ≤ 6 := by
  have hbyte : ∀ i v, t.state i = some v → 0 ≤ v ∧ v ≤ 255 := by
    intro i v hv
    have := (Worker.canReport_iff v).mp (hans i v hv)
    omega
  have hagg := poll_aggregated t sv hbyte
  have hsize := poll_bucketSize t.state sv.bucketSize 0 noState sv
  have hrows : PageInTable (poll t.state sv.bucketSize 0 noState sv) ↔
      ((poll t.state sv.bucketSize 0 noState sv).serverstate.toNat : ℤ) ≤ 6 := by
    show _ < 7 ↔ _
    omega
  by_cases hbad : sv.bucketSize = 0 ∨ ∃ i < sv.bucketSize, t.state i = none
  · have herr := hagg.error (by rw [hsize]; exact hbad)
    constructor
    · intro hin
      rw [PageInTable, herr] at hin
      exact absurd hin (by decide)
    · rintro ⟨hpos, hall, _⟩
      rcases hbad with hzero | ⟨i, hi, hnone⟩
      · omega
      · exact absurd hnone (hall i hi)
  rw [not_or, not_exists] at hbad
  have hpos : 0 < sv.bucketSize := Nat.pos_of_ne_zero hbad.1
  have hall : ∀ i < sv.bucketSize, t.state i ≠ none := fun i hi hnone => hbad.2 i ⟨hi, hnone⟩
  obtain ⟨⟨k, hk, hst⟩, hle⟩ := hagg.least (by rw [hsize]; exact hpos) (by rw [hsize]; exact hall)
  rw [hsize] at hk hle
  rw [hrows]
  constructor
  · intro hsix
    exact ⟨hpos, hall, k, hk, _, hst, hsix⟩
  · rintro ⟨_, _, i, hi, v, hv, hsix⟩
    have := hle i hi v hv
    omega

theorem afterReload_state (sv : Server S) (t : TickWorld) (m : ℤ) :
    (afterReload sv t m).serverstate = sv.serverstate := by
  unfold afterReload reload
  split
  · split <;> rfl
  · rfl

/-- **One tick.** -/
theorem page_tick (hin : PageInTable sv) (hans : ∀ i v, t.state i = some v → Worker.CanReport v) :
    PageInTable (updateServerStatus sv t) ↔ TickAnswered sv (.tick t hans) := by
  cases hm : t.mtime with
  | none =>
    -- no file: the tick returns at once
    have hsame : updateServerStatus sv t = sv := by simp only [updateServerStatus, hm]
    rw [hsame]
    refine iff_of_true hin ?_
    intro m hm'
    rw [hm] at hm'
    exact absurd hm' (by simp)
  | some m =>
    by_cases hex : (afterReload sv t m).exited = true
    · -- `exit(0)` leaves the state word alone
      have hdead : updateServerStatus sv t = afterReload sv t m := by
        simp only [updateServerStatus, hm, hex, if_true]
      rw [PageInTable, hdead, afterReload_state]
      refine iff_of_true hin ?_
      intro m' hm' hrun
      rw [hm, Option.some.injEq] at hm'
      subst hm'
      rw [hex] at hrun
      exact absurd hrun (by simp)
    have hpoll : updateServerStatus sv t =
        poll t.state (afterReload sv t m).bucketSize 0 noState (afterReload sv t m) := by
      simp only [updateServerStatus, hm, hex, Bool.false_eq_true, if_false]
    rw [hpoll, poll_in_table hans]
    constructor
    · intro hq m' hm' _
      rw [hm, Option.some.injEq] at hm'
      subst hm'
      exact hq
    · intro hq
      exact hq m hm (by simpa using hex)

/-- **One operation.** -/
theorem page_step {sv' : Server S} {op : Operation} (hin : PageInTable sv) (h : opStep sv op = some sv') :
    PageInTable sv' ↔ TickAnswered sv op := by
  unfold opStep at h
  split at h
  · exact absurd h (by simp)
  cases op with
  | serviceInit r w =>
    injection h with h
    subst h
    exact iff_of_true (ns_serviceInit_state sv r w) trivial
  | serviceStop =>
    injection h with h
    subst h
    exact iff_of_true (by decide : (4#8).toNat < 7) trivial
  | serviceRestart =>
    injection h with h
    subst h
    exact iff_of_true (by decide : (4#8).toNat < 7) trivial
  | clear =>
    injection h with h
    subst h
    exact iff_of_true (by decide : (2#8).toNat < 7) trivial
  | tick t hans =>
    injection h with h
    subst h
    exact page_tick hin hans

/-! ## §4. Main result. -/

/-- **THE STATUS PAGE.**  In every history of requests and ticks that starts
    with PIR_STATE_NONE, the page reads `server_state[]` inside its rows in
    every state if and only if every tick that gets to its loop finds a table
    that answers, with some state that has a row. -/
theorem page_in_table (sv₀ : Server S) (hstart : sv₀.serverstate = PIR_STATE_NONE)
    (ops : List Operation) :
    Along opStep (fun sv => (getServerInfo sv).isSome = true) sv₀ ops ↔
      Steps opStep TickAnswered sv₀ ops := by
  refine along_iff_steps (fun _ => True) (fun _ _ _ _ _ _ _ => trivial) ?_ ops sv₀ trivial ?_
  · intro sv op sv' _ hin h
    simp only [getServerInfo_isSome_iff] at hin ⊢
    exact page_step hin h
  · simp only [getServerInfo_isSome_iff]
    rw [PageInTable, hstart]
    decide

/-- A tick at which every worker there is reports READY. -/
def readyTick : Operation :=
  .tick { mtime := some 0, file := none, state := fun _ => some 6 } (by
    intro i v hv
    injection hv with hv
    subst hv
    exact (Worker.canReport_iff 6).mpr (by decide))

theorem page_in_table_ready :
    Along opStep (fun sv => (getServerInfo sv).isSome = true) emptyMaster
      [.serviceInit (oneWorkerRequest 'a') allWell, readyTick] := by
  refine (page_in_table emptyMaster rfl _).mpr ?_
  intro sv hinit
  refine ⟨trivial, fun sv' _ => ⟨?_, trivial⟩⟩
  injection hinit with hinit
  subst hinit
  intro m hm _
  injection hm with hm
  subst hm
  exact ⟨by decide, fun _ _ => by simp, 0, by decide, 6, rfl, by decide⟩

/-- The first tick of a master that has no worker yet. -/
theorem page_reads_outside :
    ¬ Along opStep (fun sv => (getServerInfo sv).isSome = true) emptyMaster [readyTick] := by
  intro h
  have hpage : (getServerInfo (updateServerStatus emptyMaster
      { mtime := some 0, file := none, state := fun _ => some 6 })).isSome = true := h.2 _ rfl
  rw [getServerInfo_isSome_iff] at hpage
  exact absurd hpage (by unfold PageInTable; decide)

end KalavaPir.Master
