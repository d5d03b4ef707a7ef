/-
  KalavaPir.Worker.Server — the worker process: its shared record, and the
  atomic statements its handlers and background threads are made of.

  `struct pirServer server` (worker/src/pir.h) is one global record that every
  request handler and every background thread reads and writes WITHOUT a lock
  around it; only the two incremental-training handlers take
  `mutex_for_training`.  The unit of interleaving is therefore the single
  assignment, the single test, and the single call into the image library
  (`libImageMatchLib.so`, a binary: its calls are opaque events that succeed or
  fail as the outside world decides).

  Left out of the record: the configuration strings, the logger, the sockets
  and the thread bookkeeping, which none of the modelled code looks at.
-/
import Mathlib.Data.Rat.Defs
import KalavaPir.Framework.Code
import KalavaPir.Framework.ThreadPool
import KalavaPir.Common.QQueue

namespace KalavaPir.Worker

open KalavaPir.Framework
open KalavaPir.Common

/-! ## §1. Constants of worker/src/pir.h. -/

/-- The states of the service. -/
def PIR_STATE_NONE : BitVec 8 := 0x00#8
def PIR_STATE_INITING : BitVec 8 := 0x01#8
def PIR_STATE_INITED : BitVec 8 := 0x02#8
def PIR_STATE_TRAINING : BitVec 8 := 0x03#8
def PIR_STATE_TRAINED : BitVec 8 := 0x04#8
def PIR_STATE_STARTING : BitVec 8 := 0x05#8
def PIR_STATE_READY : BitVec 8 := 0x06#8
def PIR_STATE_ERROR : BitVec 8 := 0x7f#8

/-- The tags of an answer. -/
def PIR_SOAP_TAG_OK : ℤ := 1
def PIR_SOAP_TAG_ERR : ℤ := -1

/-! ## §2. The shared record. -/

/-- What the code uses of the machine's `float`: conversion from `uint32_t`,
    multiplication and `>=`. -/
class CFloat (F : Type) where
  ofUInt32 : BitVec 32 → F
  mul : F → F → F
  ge : F → F → Bool

/-- Exact arithmetic is one such `float` (and agrees with the machine's on the
    small values the configuration uses). -/
instance : CFloat ℚ where
  ofUInt32 n := (n.toNat : ℚ)
  mul := (· * ·)
  ge a b := decide (b ≤ a)

/-- The fields loaded once from worker.conf. -/
structure Config (F : Type) where
  delta_peak : BitVec 32
  delta_ratio : F
  idletime_for_training : ℤ

/-- The calls into the image library that carry no result. -/
inductive LibCall where
  | clear
  | init_lib
  | import_image
  | cast_feature_bySave
  | cast_feature_byLoad
  | compute_word_byLoad
  | build_index_bySave
  | build_index_byLoad
  | cluster_feature2word_bySave
  | cluster_feature2word_byLoad
  | search_image_init
  deriving DecidableEq, Repr

/-- The calls whose result the code looks at. -/
inductive Fallible where
  | add_train_image
  | delete_train_image
  | update_train_file
  | switchLoggingDirectory
  | copysetting
  | writeWorkerInfo
  deriving DecidableEq, Repr

/-- What an observer of the process writes down: the library calls, the
    incremental images that went in or out, and each "serviceTrain okay". -/
inductive Event where
  | lib (c : LibCall)
  | added
  | deleted
  | trained
  deriving DecidableEq, Repr

/-- `struct pirServer`, as far as the service logic uses it. -/
structure Server where
  /-- `uint32_t serverstate:8` -/
  serverstate : BitVec 8
  /-- `uint32_t autostart:1` -/
  autostart : Bool
  /-- `float progressPCT`; a quotient `k/steps`, below 1 exactly when its
      rounding is. -/
  progressPCT : ℚ
  unixtime : ℤ
  lastinteraction : ℤ
  delta_for_training : BitVec 32
  /-- the thread that locked `mutex_for_training` last, if it is locked -/
  mutex_for_training : Option ℕ
  /-- the pooled search objects, by `objId` -/
  client_search_queue : QQueue ℕ
  stat_search_conn : BitVec 64
  stat_failed_conn : BitVec 64
  /-- the observer's notes, newest first (not a field of the source) -/
  history : List Event

/-! ## §3. Atomic statements and tests. -/

/-- The functions that run as background threads. -/
inductive Background where
  | train_thread
  | serviceStart_thread
  deriving DecidableEq, Repr

/-- What a step of the code does. -/
inductive Action where
  /-- `server.serverstate=v` -/
  | setState (v : BitVec 8)
  /-- `server.serverstate|=v` -/
  | orState (v : BitVec 8)
  /-- `server.progressPCT=k/steps` -/
  | setProgress (k steps : ℕ)
  /-- `server.autostart=b` -/
  | setAutostart (b : Bool)
  | lib (c : LibCall)
  /-- `search_image(...)` is entered, and has returned -/
  | searchStart
  | searchEnd
  /-- `client_search_queue->pop()` and `push(search_object)` -/
  | popObj
  | pushObj
  /-- `q_lock_inc(&server.stat_search_conn)`, `q_lock_inc(&server.stat_failed_conn)` -/
  | countSearch
  | countFailed
  /-- `server.mutex_for_training.lock()`, `unlock()` -/
  | lock
  | unlock
  /-- `++server.delta_for_training`, `--server.delta_for_training` -/
  | incDelta
  | decDelta
  /-- `updateCachedTime(&server)` -/
  | updateCachedTime
  /-- `while(q_create_thread(b, NULL)) q_sleep(1000)` -/
  | create (b : Background)
  /-- `ret=v`, and the final `*tag=ret` -/
  | setRet (v : ℤ)
  | reply
  /-- `server->lastinteraction=time(NULL)` in `process_queue`, after the
      request has been served -/
  | interacted
  /-- the log line "serviceTrain okay......" -/
  | logTrained
  /-- `return NULL` of a background thread -/
  | ret
  deriving DecidableEq, Repr

/-- What a branch of the code asks. -/
inductive Test where
  /-- `server.serverstate==PIR_STATE_READY` -/
  | ready
  /-- `serverstate` is one of INITED, TRAINED, READY -/
  | startable
  /-- `imgPath.length() && server.serverstate==PIR_STATE_READY` -/
  | trainable (imgPath : List Char)
  /-- `server.autostart==1` -/
  | autostart
  /-- the retraining condition of `ns_trainAdd` -/
  | threshold
  /-- the call returned success -/
  | succeeds (f : Fallible)
  deriving DecidableEq, Repr

/-- Code of the worker. -/
abbrev WCode := Code Action Test

/-- How the outside world answers a statement: whether a call succeeds, and
    what `time(NULL)` returns. -/
structure Outcome where
  ok : Bool := true
  now : ℤ := 0
  deriving DecidableEq, Repr

/-- A thread of the worker: a request handler (run by one of the
    `process_queue` threads) or a background thread. -/
structure Thread where
  /-- started by `q_create_thread`, not by a request -/
  background : Bool
  /-- the first statement has been executed -/
  started : Bool
  code : WCode
  /-- the search object it holds -/
  obj : Option ℕ
  /-- the local `ret` and what was stored through `tag` -/
  ret : ℤ
  tag : Option ℤ

/-! ## §4. One statement. -/

section Semantics

variable {F : Type} [CFloat F]

/-- The retraining condition:
    `(delta>=delta_peak*delta_ratio && (unixtime-lastinteraction)*1000>idletime)
     || delta>=delta_peak`. -/
def retrainDue (cfg : Config F) (delta : BitVec 32) (unixtime lastinteraction : ℤ) : Bool :=
  (CFloat.ge (CFloat.ofUInt32 delta : F) (CFloat.mul (CFloat.ofUInt32 cfg.delta_peak) cfg.delta_ratio)
      && decide ((unixtime - lastinteraction) * 1000 > cfg.idletime_for_training))
    || decide (cfg.delta_peak ≤ delta)

/-- The value of a test. -/
def holds (cfg : Config F) (s : Server) (o : Outcome) : Test → Bool
  | .ready => s.serverstate == PIR_STATE_READY
  | .startable => s.serverstate == PIR_STATE_INITED || s.serverstate == PIR_STATE_TRAINED
      || s.serverstate == PIR_STATE_READY
  | .trainable imgPath => !imgPath.isEmpty && s.serverstate == PIR_STATE_READY
  | .autostart => s.autostart
  | .threshold => retrainDue cfg s.delta_for_training s.unixtime s.lastinteraction
  | .succeeds _ => o.ok

/-- The effect of an action on the record and on the thread `t` (already
    moved past it); `none` means that the thread has to wait. -/
def perform (s : Server) (i : ℕ) (t : Thread) (o : Outcome) :
    Action → Option (Server × Thread)
  | .setState v => some ({ s with serverstate := v }, t)
  | .orState v => some ({ s with serverstate := s.serverstate ||| v }, t)
  | .setProgress k steps => some ({ s with progressPCT := (k : ℚ) / (steps : ℚ) }, t)
  | .setAutostart b => some ({ s with autostart := b }, t)
  | .lib c => some ({ s with history := .lib c :: s.history }, t)
  -- the library is searched BETWEEN these two; they leave no trace in the record
  | .searchStart => some (s, t)
  | .searchEnd => some (s, t)
  | .popObj =>
    match s.client_search_queue.pop with
    | none => none
    | some (x, q) => some ({ s with client_search_queue := q }, { t with obj := some x })
  | .pushObj =>
    match t.obj with
    | none => some (s, t)
    | some x =>
      match s.client_search_queue.push x with
      | none => none
      | some q => some ({ s with client_search_queue := q }, { t with obj := none })
  | .countSearch => some ({ s with stat_search_conn := s.stat_search_conn + 1 }, t)
  | .countFailed => some ({ s with stat_failed_conn := s.stat_failed_conn + 1 }, t)
  | .lock =>
    match s.mutex_for_training with
    | none => some ({ s with mutex_for_training := some i }, t)
    | some _ => none
  -- `pthread_mutex_unlock` does not ask who holds the mutex
  | .unlock => some ({ s with mutex_for_training := none }, t)
  -- both wrap around, like the `uint32_t`
  | .incDelta => some ({ s with delta_for_training := s.delta_for_training + 1,
                                history := .added :: s.history }, t)
  | .decDelta => some ({ s with delta_for_training := s.delta_for_training - 1,
                                history := .deleted :: s.history }, t)
  | .updateCachedTime => some ({ s with unixtime := o.now }, t)
  -- the new thread joins the pool, see `Action.spawned`
  | .create _ => some (s, t)
  | .setRet v => some (s, { t with ret := v })
  | .reply => some (s, { t with tag := some t.ret })
  | .interacted => some ({ s with lastinteraction := o.now }, t)
  | .logTrained => some ({ s with history := .trained :: s.history }, t)
  | .ret => some (s, t)

end Semantics

end KalavaPir.Worker
