/-
  KalavaPir.Worker.Service — the request handlers and the background threads
  of worker/src/recgservice.cpp, statement by statement, and the machine that
  interleaves any number of them.

  Each `ns_…` function below lists the statements of the source function in
  source order (`goto end` is a branch into the shared tail).  Logging and the
  SOAP plumbing are not statements here; neither is `q_sleep`.
-/
import KalavaPir.Worker.Server

namespace KalavaPir.Worker

open KalavaPir.Framework
open KalavaPir.Common

/-! ## §1. Background threads. -/

/-- `serviceStart_thread` (recgservice.cpp:336). -/
def serviceStart_thread : WCode :=
  .block
    [ .setState PIR_STATE_STARTING,
      .lib .clear, .setProgress 0 6,
      .lib .init_lib, .setProgress 1 6,
      .lib .cast_feature_byLoad, .setProgress 2 6,
      .lib .compute_word_byLoad, .setProgress 3 6,
      .lib .build_index_byLoad, .setProgress 4 6,
      .lib .cluster_feature2word_byLoad, .setProgress 5 6,
      .lib .search_image_init, .setProgress 6 6,
      .setState PIR_STATE_READY,
      .ret ] .halt

/-- `train_thread` (recgservice.cpp:186); with `autostart` it ends by CALLING
    `serviceStart_thread`. -/
def train_thread : WCode :=
  .block
    [ .setState PIR_STATE_TRAINING,
      .lib .clear, .setProgress 0 7,
      .lib .init_lib, .setProgress 1 7,
      .lib .import_image, .setProgress 2 7,
      .lib .cast_feature_bySave, .setProgress 3 7,
      .lib .compute_word_byLoad, .setProgress 4 7,
      .lib .build_index_bySave, .setProgress 5 7,
      .lib .cluster_feature2word_bySave, .setProgress 6 7,
      -- progress 1.0 is published BEFORE the state that goes with it
      .lib .clear, .setProgress 7 7,
      .setState PIR_STATE_TRAINED,
      .logTrained ]
    -- the bit is read again here, whoever may have stored it in the meantime
    (.branch .autostart serviceStart_thread (.act .ret .halt))

/-- The code of a background thread. -/
def Background.code : Background → WCode
  | .train_thread => Worker.train_thread
  | .serviceStart_thread => Worker.serviceStart_thread

/-! ## §2. Request handlers. -/

/-- `*tag=ret; return SOAP_OK;`, then `process_queue` notes the time. -/
def respond : WCode := .block [.reply, .interacted] .halt

/-- `ns_imSearch` (recgservice.cpp:11). -/
def ns_imSearch : WCode :=
  .act .countSearch <|
    -- the only test of the state; nothing holds it from here on
    .branch .ready
      (.block [.popObj, .searchStart, .searchEnd, .setRet PIR_SOAP_TAG_OK, .pushObj] respond)
      (.block [.setRet (PIR_STATE_ERROR.toNat : ℤ), .countFailed] respond)

/-- `ns_serviceInit` (recgservice.cpp:136). -/
def ns_serviceInit : WCode :=
  .act (.setState PIR_STATE_INITING) <|
    .branch (.succeeds .switchLoggingDirectory)
      (.branch (.succeeds .copysetting)
        -- the state stays INITED even if the snapshot cannot be written
        (.act (.setState PIR_STATE_INITED) <|
          .branch (.succeeds .writeWorkerInfo) respond (.act (.setRet PIR_SOAP_TAG_ERR) respond))
        (.act (.setRet PIR_SOAP_TAG_ERR) respond))
      (.act (.setRet PIR_SOAP_TAG_ERR) respond)

/-- `ns_train` (recgservice.cpp:247); the `int` argument lands in a one-bit
    field. -/
def ns_train (autostart : ℤ) : WCode :=
  .block
    [ .setState PIR_STATE_TRAINING, .setProgress 0 1, .setAutostart (autostart % 2 == 1),
      .create .train_thread ] respond

/-- The label `end:` of the two incremental-training handlers. -/
def trainEnd : WCode := .act .unlock respond

/-- `ns_trainAdd` (recgservice.cpp:267). -/
def ns_trainAdd (imgPath : List Char) : WCode :=
  .branch (.trainable imgPath)
    (.act .lock <|
      .branch (.succeeds .add_train_image)
        (.branch (.succeeds .update_train_file)
          (.block [.incDelta, .updateCachedTime] <|
            -- the counter is compared, never reset
            .branch .threshold
              (.block [.setAutostart true, .create .train_thread] trainEnd)
              trainEnd)
          (.act (.setRet PIR_SOAP_TAG_ERR) trainEnd))
        (.act (.setRet PIR_SOAP_TAG_ERR) trainEnd))
    -- a rejected request jumps to `end:` all the same, past the lock
    (.act (.setRet PIR_SOAP_TAG_ERR) trainEnd)

/-- `ns_trainDelete` (recgservice.cpp:308). -/
def ns_trainDelete (imgPath : List Char) : WCode :=
  .branch (.trainable imgPath)
    (.act .lock <|
      .branch (.succeeds .delete_train_image)
        (.branch (.succeeds .update_train_file)
          -- no test for 0, and no retraining on this side
          (.act .decDelta trainEnd)
          (.act (.setRet PIR_SOAP_TAG_ERR) trainEnd))
        (.act (.setRet PIR_SOAP_TAG_ERR) trainEnd))
    (.act (.setRet PIR_SOAP_TAG_ERR) trainEnd)

/-- `ns_serviceStart` (recgservice.cpp:389). -/
def ns_serviceStart : WCode :=
  .branch .startable
    (.block
      [ .setState PIR_STATE_STARTING, .setProgress 0 1, .create .serviceStart_thread ] respond)
    respond

/-- `ns_serviceStop` (recgservice.cpp:410). -/
def ns_serviceStop : WCode :=
  .block [.setState PIR_STATE_TRAINED, .lib .clear] respond

/-- `ns_serviceRestart` (recgservice.cpp:421): the state it tests is the one
    it has just stored, and STARTING is or-ed into it. -/
def ns_serviceRestart : WCode :=
  .block [.setState PIR_STATE_TRAINED, .lib .clear] <|
    .branch .startable
      (.block
        [ .orState PIR_STATE_STARTING, .setProgress 0 1, .create .serviceStart_thread ] respond)
      respond

/-- `ns_clear` (recgservice.cpp:461). -/
def ns_clear : WCode :=
  .block [.setState PIR_STATE_INITED, .lib .clear] respond

/-- `ns_state` and `ns_progressPCT` (recgservice.cpp:444, 455): a single
    read each. -/
def ns_state (s : Server) : BitVec 8 := s.serverstate
def ns_progressPCT (s : Server) : ℚ := s.progressPCT

/-- The requests that do more than read. -/
inductive Request where
  | imSearch
  | serviceInit
  | train (autostart : ℤ)
  | trainAdd (imgPath : List Char)
  | trainDelete (imgPath : List Char)
  | serviceStart
  | serviceStop
  | serviceRestart
  | clear
  deriving DecidableEq, Repr

/-- The handler of a request. -/
def Request.code : Request → WCode
  | .imSearch => ns_imSearch
  | .serviceInit => ns_serviceInit
  | .train autostart => ns_train autostart
  | .trainAdd imgPath => ns_trainAdd imgPath
  | .trainDelete imgPath => ns_trainDelete imgPath
  | .serviceStart => ns_serviceStart
  | .serviceStop => ns_serviceStop
  | .serviceRestart => ns_serviceRestart
  | .clear => ns_clear

/-! ## §3. The machine. -/

/-- A handler at its first statement. -/
def Request.thread (r : Request) : Thread :=
  { background := false, started := false, code := r.code, obj := none,
    ret := PIR_SOAP_TAG_OK, tag := none }

/-- A background thread at its first statement. -/
def Background.thread (b : Background) : Thread :=
  { background := true, started := false, code := b.code, obj := none, ret := 0, tag := none }

/-- The threads an action starts. -/
def Action.spawned : Action → List Thread
  | .create b => [b.thread]
  | _ => []

/-- A thread is started. -/
def Action.isCreate : Action → Bool
  | .create _ => true
  | _ => false

section Machine

variable {F : Type} [CFloat F]

/-- Run the next statement of thread `t`, which stands at position `i`. -/
def exec (cfg : Config F) (s : Server) (i : ℕ) (t : Thread) (o : Outcome) :
    Option (Server × Thread × List Thread) :=
  match t.code with
  | .halt => none
  | .act a k =>
    if a.isCreate && !o.ok then
      -- `q_create_thread` failed: sleep and try again
      some (s, { t with started := true }, [])
    else
      match perform s i { t with code := k, started := true } o a with
      | none => none
      | some (s', t') => some (s', t', a.spawned)
  | .branch b yes no =>
    some (s, { t with code := if holds cfg s o b then yes else no, started := true }, [])

/-- The worker: any number of requests and background threads. -/
def machine (cfg : Config F) : Machine Server Thread Request Outcome where
  exec := exec cfg
  entry := Request.thread

/-- One step of the worker. -/
abbrev step (cfg : Config F) := (machine cfg).step

end Machine

/-- The three ways `main` enters its event loop: fresh, `-r` (which calls
    `serviceStart()`) and `-r2` (`serviceTrain()`). -/
inductive Startup where
  | fresh
  | recovery
  | recovery2
  deriving DecidableEq, Repr

/-- The record `initServerConfig` and `initServer` leave behind; `pool` is the
    filled queue of search objects. -/
def Server.boot (u : Startup) (pool : QQueue ℕ) : Server :=
  { serverstate := match u with
      | .fresh => PIR_STATE_NONE
      | .recovery => PIR_STATE_STARTING
      | .recovery2 => PIR_STATE_TRAINING
    autostart := match u with
      | .fresh => false
      | _ => true
    progressPCT := 0, unixtime := 0, lastinteraction := 0, delta_for_training := 0,
    mutex_for_training := none, client_search_queue := pool,
    stat_search_conn := 0, stat_failed_conn := 0, history := [] }

/-- The worker at the start of its event loop. -/
def boot (u : Startup) (pool : QQueue ℕ) : Conf Server Thread :=
  { shared := Server.boot u pool
    pool := match u with
      | .fresh => []
      | .recovery => [Background.serviceStart_thread.thread]
      | .recovery2 => [Background.train_thread.thread] }

/-- `n` statements of thread `i`, every call answered with success. -/
def runs (i n : ℕ) : List (Move Request Outcome) := List.replicate n (.run i {})

/-- A pool with the single search object 0 (`max-clients = 2`), for concrete
    runs. -/
def onePool : QQueue ℕ := QQueue.single 0

/-- The default thresholds of worker/src/pir.h. -/
def defaultConfig : Config ℚ := ⟨1000#32, 3 / 4, 60000⟩

/-! ## §4. What a statement does, field by field. -/

/-- The state word after an action. -/
def Action.stateAfter (v : BitVec 8) : Action → BitVec 8
  | .setState w => w
  | .orState w => v ||| w
  | _ => v

/-- The observer's notes after an action. -/
def Action.historyAfter (h : List Event) : Action → List Event
  | .lib c => .lib c :: h
  | .incDelta => .added :: h
  | .decDelta => .deleted :: h
  | .logTrained => .trained :: h
  | _ => h

/-- The counter after an action. -/
def Action.deltaAfter (d : BitVec 32) : Action → BitVec 32
  | .incDelta => d + 1
  | .decDelta => d - 1
  | _ => d

/-- The mutex after an action of thread `i`. -/
def Action.mutexAfter (i : ℕ) (m : Option ℕ) : Action → Option ℕ
  | .lock => some i
  | .unlock => none
  | _ => m

/-- The published progress after an action. -/
def Action.progressAfter (p : ℚ) : Action → ℚ
  | .setProgress k steps => (k : ℚ) / (steps : ℚ)
  | _ => p

/-- The autostart bit after an action. -/
def Action.autostartAfter (b : Bool) : Action → Bool
  | .setAutostart v => v
  | _ => b

section Spec

variable {s s' : Server} {i : ℕ} {t t' : Thread} {o : Outcome} {a : Action}

/-- **The spec of one action.**  What it leaves of the record and of its
    thread. -/
theorem perform_spec (h : perform s i t o a = some (s', t')) : s'.serverstate = a.stateAfter s.serverstate ∧
    s'.history = a.historyAfter s.history ∧
    s'.delta_for_training = a.deltaAfter s.delta_for_training ∧
    s'.mutex_for_training = a.mutexAfter i s.mutex_for_training ∧
    t'.code = t.code ∧ t'.background = t.background ∧ t'.started = t.started := by
  -- one case per action; only the pool and the mutex can make one wait
  cases a <;>
    simp only [perform, Option.some.injEq, Prod.mk.injEq] at h <;>
    (try (split at h <;> (try split at h))) <;>
    simp_all [Action.stateAfter, Action.historyAfter, Action.deltaAfter, Action.mutexAfter] <;>
    (obtain ⟨rfl, rfl⟩ := h; simp_all)

/-- What an action does to the progress and the autostart. -/
theorem perform_progress (h : perform s i t o a = some (s', t')) :
    s'.progressPCT = a.progressAfter s.progressPCT ∧
    s'.autostart = a.autostartAfter s.autostart := by
  cases a <;>
    simp only [perform, Option.some.injEq, Prod.mk.injEq] at h <;>
    (try (split at h <;> (try split at h))) <;>
    simp_all [Action.progressAfter, Action.autostartAfter] <;>
    (obtain ⟨rfl, rfl⟩ := h; simp_all)

/-- The mutex was free. -/
theorem perform_lock (h : perform s i t o .lock = some (s', t')) : s.mutex_for_training = none := by
  simp only [perform] at h
  cases hm : s.mutex_for_training with
  | none => rfl
  | some _ => simp [hm] at h

end Spec

/-! ## §5. Inversion of one statement of a thread. -/

/-- The next action of a thread, if its next statement is one. -/
def Thread.next (t : Thread) : Option Action :=
  match t.code with
  | .act a _ => some a
  | _ => none

variable {t t' : Thread} {a : Action} {F : Type} {s s' : Server} {i : ℕ} {o : Outcome} {cfg : Config F}

/-- The next action is the head of the code. -/
theorem code_of_next (h : t.next = some a) : ∃ k, t.code = .act a k := by
  unfold Thread.next at h
  split at h
  · next a' k hcode =>
      rw [← Option.some.inj h]
      exact ⟨k, hcode⟩
  · exact absurd h (by simp)

/-- Everything a statement can be: an action that goes through, a thread
    creation that failed and will be retried, or a test. -/
inductive ExecStep {F : Type} [CFloat F] (cfg : Config F) (s : Server) (i : ℕ) (t : Thread)
    (o : Outcome) : Server → Thread → List Thread → Prop
  | act {s' : Server} {t' : Thread} (a : Action) (k : WCode) (hcode : t.code = .act a k)
      (hperf : perform s i { t with code := k, started := true } o a = some (s', t')) :
      ExecStep cfg s i t o s' t' a.spawned
  | retry (a : Action) (k : WCode) (hcode : t.code = .act a k) (hcreate : a.isCreate = true)
      (hok : o.ok = false) :
      ExecStep cfg s i t o s { t with started := true } []
  | branch (b : Test) (yes no : WCode) (hcode : t.code = .branch b yes no) :
      ExecStep cfg s i t o s
        { t with code := if holds cfg s o b then yes else no, started := true } []

variable {new : List Thread} {c : Conf Server Thread} {pool : QQueue ℕ}

/-- What a turn of a thread did. -/
theorem exec_inv [CFloat F] (h : exec cfg s i t o = some (s', t', new)) :
    ExecStep cfg s i t o s' t' new := by
  unfold exec at h
  split at h
  · exact absurd h (by simp)
  · next a k hcode =>
      split at h
      · next hretry =>
          rw [Bool.and_eq_true, Bool.not_eq_true'] at hretry
          injection h with h
          injection h with hs h
          injection h with ht hn
          subst hs ht hn
          exact ExecStep.retry a k hcode hretry.1 hretry.2
      split at h
      · exact absurd h (by simp)
      next s₁ t₁ hperf =>
        injection h with h
        injection h with hs h
        injection h with ht hn
        subst hs ht hn
        exact ExecStep.act a k hcode hperf
  · next b yes no hcode =>
      injection h with h
      injection h with hs h
      injection h with ht hn
      subst hs ht hn
      exact ExecStep.branch b yes no hcode

/-- The turn of an action that can be performed … -/
theorem exec_act [CFloat F] {k : WCode} (hcode : t.code = .act a k) (hok : o.ok = true)
    (hperf : perform s i { t with code := k, started := true } o a = some (s', t')) :
    exec cfg s i t o = some (s', t', a.spawned) := by
  unfold exec
  rw [hcode]
  simp only [hok, Bool.not_true, Bool.and_false, Bool.false_eq_true, if_false, hperf]

/-- … as a step of the worker. -/
theorem step_act [CFloat F] (cfg : Config F) {k : WCode} (ht : c.pool[i]? = some t)
    (hcode : t.code = .act a k)
    (hperf : perform c.shared i { t with code := k, started := true } {} a = some (s', t')) :
    step cfg c (.run i {}) = some { shared := s', pool := c.pool.set i t' ++ a.spawned } :=
  (machine cfg).step_run ht (exec_act hcode rfl hperf)

/-- The threads at the start are background threads … -/
theorem boot_thread {u : Startup} (ht : (boot u pool).pool[i]? = some t) :
    ∃ b : Background, t = b.thread := by
  have hmem := List.mem_of_getElem? ht
  cases u with
  | fresh => simp [boot] at hmem
  | recovery => exact ⟨.serviceStart_thread, by simpa [boot] using hmem⟩
  | recovery2 => exact ⟨.train_thread, by simpa [boot] using hmem⟩

/-- … and so are those created later. -/
theorem spawned_thread {u : Thread} (hu : u ∈ a.spawned) :
    ∃ b : Background, a = .create b ∧ u = b.thread := by
  cases a <;> simp only [Action.spawned, List.not_mem_nil, List.mem_singleton] at hu
  exact ⟨_, rfl, hu⟩

/-- A thread that takes a turn is not at its end, and keeps its task. -/
theorem exec_thread [CFloat F] (h : exec cfg s i t o = some (s', t', new)) :
    t'.background = t.background ∧ t'.started = true ∧ t.code ≠ .halt := by
  cases exec_inv h with
  | act a k hcode hperf =>
    obtain ⟨_, _, _, _, _, hbg, hst⟩ := perform_spec hperf
    exact ⟨hbg, hst, by simp [hcode]⟩
  | retry a k hcode _ _ | branch b yes no hcode => exact ⟨rfl, rfl, by simp [hcode]⟩

/-- **Syntactic facts are invariants**: what holds of every program (of the
    handlers `p false`, of the background threads `p true`), here and below,
    holds of whatever code is left in any thread of any run. -/
theorem code_all [CFloat F] {p : Bool → WCode → Bool}
    (hreq : ∀ r : Request, Code.All (p false) r.code = true)
    (hbg : ∀ b : Background, Code.All (p true) b.code = true) {u : Startup}
    (hc : Reach (step cfg) anyStep (boot u pool) c) (ht : c.pool[i]? = some t) :
    Code.All (p t.background) t.code = true := by
  have hinv : Annotated (fun _ => True) (fun _ _ t => Code.All (p t.background) t.code = true) c := by
    refine Reach.invariant
      (Annotated (fun _ => True) (fun _ _ t => Code.All (p t.background) t.code = true))
      ⟨trivial, fun i t ht => ?_⟩ (fun c m c' hc hok hs => ?_) hc
    · obtain ⟨b, rfl⟩ := boot_thread ht
      exact hbg b
    · refine Annotated.step (machine cfg) anyStep ?_ ?_ ?_ hc hok hs
      · intro c i o t s' t' new hc _ ht hx
        have hP := hc.local_ i t ht
        refine ⟨trivial, ?_, fun j u hu => ?_⟩
        · rw [(exec_thread hx).1]
          cases exec_inv hx with
          | act a k hcode hperf =>
            -- the code left is the continuation
            rw [hcode] at hP
            rw [(perform_spec hperf).2.2.2.2.1]
            exact Code.All.act hP
          | retry => exact hP
          | branch b yes no hcode =>
            rw [hcode] at hP
            -- whichever way the test goes
            show Code.All _ (if _ then _ else _) = true
            split
            · exact Code.All.yes hP
            · exact Code.All.no hP
        · cases exec_inv hx with
          | act a k hcode hperf =>
            obtain ⟨b, _, rfl⟩ := spawned_thread hu
            exact hbg b
          | retry => simp at hu
          | branch => simp at hu
      · -- the code of a thread is its own, nobody else touches it
        intro c i o t s' t' new hc _ ht hx j u _ hu
        exact hc.local_ j u hu
      · intro c r j _
        exact hreq r
  exact hinv.local_ i t ht

end KalavaPir.Worker
