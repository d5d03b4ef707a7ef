/-
  KalavaPir.Master.Search — `ns_imSearch` of the master, statement by
  statement, with the threads it creates.

  A search allocates two arrays by the number of workers, creates one
  `search_thread` per worker (and one `textDetect_thread` if OCR is enabled),
  joins them, frees the arrays, ranks the collected results and answers.
  `server.bucketSize` is read AFRESH at every allocation and at every loop
  test; a thread gets its worker index through `search_info[i].index`, a
  `uint8_t`.

  The two arrays are modelled as functions of the index together with the size
  they were allocated with; whether an index is inside is a property, not an
  assumption.
-/
import KalavaPir.Framework.ThreadPool
import KalavaPir.Master.Server

namespace KalavaPir.Master

open KalavaPir.Common
open KalavaPir.Framework

variable {S : Type}

/-! ## §1. The threads a search creates. -/

/-- `search_thread` or `textDetect_thread`. -/
inductive Kind where
  | search
  | ocr
  deriving DecidableEq, Repr

/-- Where a child thread is. -/
inductive ChildPc where
  /-- the RPC to the worker (or the whole of `textDetect_thread`) -/
  | call
  /-- the log line about a failed call, which looks the worker up again -/
  | report
  /-- `search_mutex->lock()` -/
  | lock
  /-- `search_res->push_back(…)`, once per result -/
  | append
  /-- `search_mutex->unlock()` -/
  | unlock
  /-- the log line about the answer (`__VERBOSE_MODE`), which looks it up once more -/
  | logFound
  | finished
  deriving DecidableEq, Repr

/-- A thread created by a search. -/
structure Child (S : Type) where
  /-- it was given `&search_info[slot]` -/
  slot : ℕ
  kind : Kind
  pc : ChildPc
  /-- the index it used in `workerInfoVec` (not in the source) -/
  called : Option ℕ
  /-- `resp.match`, and the part of it not yet pushed -/
  resp : List (Scored S)
  rest : List (Scored S)

/-! ## §2. The search itself. -/

/-- Where a search is. -/
inductive SearchPc where
  /-- `server.serverstate==PIR_STATE_READY` -/
  | check
  /-- the two `q_new_array(server.bucketSize+1)` -/
  | allocTid
  | allocInfo
  | popObj
  /-- `image_path=imgPath; search_res.clear();` -/
  | prepare
  /-- the creating loops: test, fill `search_info[i]`, `q_create_thread` -/
  | createTest (k : Kind) (i : ℕ)
  | setInfo (k : Kind) (i : ℕ)
  | createThread (k : Kind) (i : ℕ)
  /-- `if(server.ocr_enabled)` and `i=server.bucketSize` -/
  | ocrInit
  /-- the joining loops -/
  | joinTest (k : Kind) (i : ℕ)
  | join (k : Kind) (i : ℕ)
  | joinOcrInit
  /-- the two `q_delete_array` -/
  | free
  | sort
  | respond
  | pushObj
  | done
  /-- answered by the `else` branch: the master is not READY -/
  | refused
  deriving DecidableEq, Repr

/-- The local state of `ns_imSearch`. -/
structure Search (S : Type) where
  pc : SearchPc
  imgPath : List Char
  /-- the sizes `ptr_tid` and `search_info` were allocated with -/
  tidSize : ℕ
  infoSize : ℕ
  /-- `ptr_tid[i]`: which of the threads below; `search_info[i].index` -/
  tid : ℕ → Option ℕ
  info : ℕ → ℕ
  search_object : SearchObj S
  /-- the holder of `search_object->search_mutex` -/
  search_mutex : Option ℕ
  children : List (Child S)
  /-- the threads joined so far, oldest first (not in the source) -/
  joined : List ℕ
  resp : Option (SearchResponse S)

/-- The request has just been taken up. -/
def Search.start (S : Type) (imgPath : List Char) : Search S :=
  { pc := .check, imgPath, tidSize := 0, infoSize := 0, tid := fun _ => none, info := fun _ => 0,
    search_object := { image_path := [], search_res := [], ocr := [] }, search_mutex := none,
    children := [], joined := [], resp := none }

/-- The bound of a loop, read at each test. -/
def Kind.bound (bucketSize : ℕ) : Kind → ℕ
  | .search => bucketSize
  | .ocr => bucketSize + 1

/-- Where a creating and a joining loop lead to. -/
def Kind.afterCreate : Kind → SearchPc
  | .search => .ocrInit
  | .ocr => .joinTest .search 0

/-- Where a search goes behind the join. -/
def Kind.afterJoin : Kind → SearchPc
  | .search => .joinOcrInit
  | .ocr => .free

/-- A thread at its first statement. -/
def Child.start (S : Type) (k : Kind) (i : ℕ) : Child S :=
  { slot := i, kind := k, pc := .call, called := none, resp := [], rest := [] }

/-- `q_thread_join(ptr_tid[i])`: wait for the thread (a slot that was never
    filled is nothing to wait for). -/
def Search.joinable (s : Search S) (i : ℕ) : Bool :=
  match s.tid i with
  | none => true
  | some j => (s.children[j]?).all (fun c => c.pc == .finished)

/-- One statement of `ns_imSearch`; `ok` says whether `q_create_thread`
    succeeds. -/
def Search.main [LinearOrder S] (env : Env S) (sv : Server S) (s : Search S) (ok : Bool) :
    Option (Server S × Search S) :=
  match s.pc with
  | .check =>
    if sv.serverstate = PIR_STATE_READY then some (sv, { s with pc := .allocTid })
    else some ({ sv with stat_failed_conn := sv.stat_failed_conn + 1 },
      { s with
        pc := .refused
        resp := some { tag := (PIR_STATE_ERROR.toNat : ℤ), matches_ := [], ocr := [] } })
  | .allocTid => some (sv, { s with pc := .allocInfo, tidSize := sv.bucketSize + 1 })
  | .allocInfo => some (sv, { s with pc := .popObj, infoSize := sv.bucketSize + 1 })
  | .popObj =>
    match sv.client_search_queue.pop with
    | none => none
    | some (obj, q) =>
      some ({ sv with client_search_queue := q }, { s with pc := .prepare, search_object := obj })
  | .prepare =>
    some ({ sv with stat_search_conn := sv.stat_search_conn + 1 },
      { s with
        pc := .createTest .search 0
        search_object := { s.search_object with image_path := s.imgPath, search_res := [] } })
  | .createTest k i =>
    if i < k.bound sv.bucketSize then some (sv, { s with pc := .setInfo k i })
    else some (sv, { s with pc := k.afterCreate })
  | .setInfo k i =>
    some (sv, { s with pc := .createThread k i, info := Function.update s.info i (i % 256) })
  | .createThread k i =>
    if ok then
      some (sv, { s with
        pc := .createTest k (i + 1)
        tid := Function.update s.tid i (some s.children.length)
        children := s.children ++ [Child.start S k i] })
    else some (sv, s)
  | .ocrInit =>
    some (sv, { s with
      pc := if env.ocr_enabled then .createTest .ocr sv.bucketSize else .joinTest .search 0 })
  | .joinTest k i =>
    if i < k.bound sv.bucketSize then some (sv, { s with pc := .join k i })
    else some (sv, { s with pc := k.afterJoin })
  | .join k i =>
    if s.joinable i then
      some (sv, { s with pc := .joinTest k (i + 1), joined := s.joined ++ (s.tid i).toList })
    else none
  | .joinOcrInit =>
    some (sv, { s with
      pc := if env.ocr_enabled then .joinTest .ocr sv.bucketSize else .free })
  | .free => some (sv, { s with pc := .sort })
  | .sort =>
    some (sv, { s with
      pc := .respond
      search_object := { s.search_object with
        search_res := rankResults env.sort env.ranking s.search_object.search_res } })
  | .respond =>
    some (sv, { s with
      pc := .pushObj
      resp := some
        { tag := PIR_SOAP_TAG_OK
          matches_ := cutResults env.query_num s.search_object.search_res
          ocr := if env.ocr_enabled then s.search_object.ocr else [] } })
  | .pushObj =>
    match sv.client_search_queue.push s.search_object.reset with
    | none => none
    | some q => some ({ sv with client_search_queue := q },
        { s with pc := .done, search_object := s.search_object.reset })
  | .done => none
  | .refused => none

/-- One statement of thread `j` of the search, which is at `c`; `text` is what
    `textDetect_thread` gets back, if anything. -/
def Search.childAt (env : Env S) (s : Search S) (j : ℕ) (c : Child S)
    (text : Option (List Char)) : Option (Search S) :=
  match c.pc with
  | .call =>
    match c.kind with
    | .ocr => some { s with
        children := s.children.set j { c with pc := .finished }
        search_object := { s.search_object with ocr := text.getD s.search_object.ocr } }
    | .search =>
      -- `search_info->index` is read now
      match env.net s.search_object.image_path (s.info c.slot) with
      | none => some { s with
          children := s.children.set j
            { c with pc := .report, called := some (s.info c.slot) } }
      | some ms => some { s with
          children := s.children.set j
            { c with pc := .lock, called := some (s.info c.slot), resp := ms, rest := ms } }
  | .report => some { s with children := s.children.set j { c with pc := .finished } }
  | .lock =>
    match s.search_mutex with
    | some _ => none
    | none => some { s with
        search_mutex := some j
        children := s.children.set j { c with pc := .append } }
  | .append =>
    match c.rest with
    | [] => some { s with children := s.children.set j { c with pc := .unlock } }
    | m :: rest => some { s with
        children := s.children.set j { c with rest := rest }
        search_object := { s.search_object with search_res := s.search_object.search_res ++ [m] } }
  | .unlock => some { s with
      search_mutex := none
      children := s.children.set j { c with pc := .logFound } }
  | .logFound => some { s with children := s.children.set j { c with pc := .finished } }
  | .finished => none

/-- One step of a child thread. -/
def Search.child (env : Env S) (s : Search S) (j : ℕ) (text : Option (List Char)) :
    Option (Search S) :=
  match s.children[j]? with
  | none => none
  | some c => s.childAt env j c text

/-! ## §3. Inversion: everything a statement can be. -/

/-- Everything a statement of `ns_imSearch` can do. -/
inductive MainStep [LinearOrder S] (env : Env S) (sv : Server S) (s : Search S) (ok : Bool) :
    Server S → Search S → Prop
  | ready (hpc : s.pc = .check) (hr : sv.serverstate = PIR_STATE_READY) :
      MainStep env sv s ok sv { s with pc := .allocTid }
  | refuse (hpc : s.pc = .check) (hr : sv.serverstate ≠ PIR_STATE_READY) :
      MainStep env sv s ok { sv with stat_failed_conn := sv.stat_failed_conn + 1 }
        { s with
          pc := .refused
          resp := some { tag := (PIR_STATE_ERROR.toNat : ℤ), matches_ := [], ocr := [] } }
  | allocTid (hpc : s.pc = .allocTid) :
      MainStep env sv s ok sv { s with pc := .allocInfo, tidSize := sv.bucketSize + 1 }
  | allocInfo (hpc : s.pc = .allocInfo) :
      MainStep env sv s ok sv { s with pc := .popObj, infoSize := sv.bucketSize + 1 }
  | popObj (hpc : s.pc = .popObj) (obj : SearchObj S) (q : QQueue (SearchObj S))
      (hpop : sv.client_search_queue.pop = some (obj, q)) :
      MainStep env sv s ok { sv with client_search_queue := q }
        { s with pc := .prepare, search_object := obj }
  | prepare (hpc : s.pc = .prepare) :
      MainStep env sv s ok { sv with stat_search_conn := sv.stat_search_conn + 1 }
        { s with
          pc := .createTest .search 0
          search_object := { s.search_object with image_path := s.imgPath, search_res := [] } }
  | createMore (k : Kind) (i : ℕ) (hpc : s.pc = .createTest k i)
      (hlt : i < k.bound sv.bucketSize) : MainStep env sv s ok sv { s with pc := .setInfo k i }
  | createEnd (k : Kind) (i : ℕ) (hpc : s.pc = .createTest k i)
      (hge : ¬ i < k.bound sv.bucketSize) : MainStep env sv s ok sv { s with pc := k.afterCreate }
  | setInfo (k : Kind) (i : ℕ) (hpc : s.pc = .setInfo k i) :
      MainStep env sv s ok sv
        { s with pc := .createThread k i, info := Function.update s.info i (i % 256) }
  | createThread (k : Kind) (i : ℕ) (hpc : s.pc = .createThread k i) (hok : ok = true) :
      MainStep env sv s ok sv { s with
        pc := .createTest k (i + 1)
        tid := Function.update s.tid i (some s.children.length)
        children := s.children ++ [Child.start S k i] }
  | createRetry (k : Kind) (i : ℕ) (hpc : s.pc = .createThread k i) (hok : ok = false) :
      MainStep env sv s ok sv s
  | ocrOn (hpc : s.pc = .ocrInit) (ho : env.ocr_enabled = true) :
      MainStep env sv s ok sv { s with pc := .createTest .ocr sv.bucketSize }
  | ocrOff (hpc : s.pc = .ocrInit) (ho : env.ocr_enabled = false) :
      MainStep env sv s ok sv { s with pc := .joinTest .search 0 }
  | joinMore (k : Kind) (i : ℕ) (hpc : s.pc = .joinTest k i)
      (hlt : i < k.bound sv.bucketSize) : MainStep env sv s ok sv { s with pc := .join k i }
  | joinEnd (k : Kind) (i : ℕ) (hpc : s.pc = .joinTest k i)
      (hge : ¬ i < k.bound sv.bucketSize) : MainStep env sv s ok sv { s with pc := k.afterJoin }
  | join (k : Kind) (i : ℕ) (hpc : s.pc = .join k i) (hjoin : s.joinable i = true) :
      MainStep env sv s ok sv
        { s with pc := .joinTest k (i + 1), joined := s.joined ++ (s.tid i).toList }
  | joinOcrOn (hpc : s.pc = .joinOcrInit) (ho : env.ocr_enabled = true) :
      MainStep env sv s ok sv { s with pc := .joinTest .ocr sv.bucketSize }
  | joinOcrOff (hpc : s.pc = .joinOcrInit) (ho : env.ocr_enabled = false) :
      MainStep env sv s ok sv { s with pc := .free }
  | free (hpc : s.pc = .free) : MainStep env sv s ok sv { s with pc := .sort }
  | sort (hpc : s.pc = .sort) :
      MainStep env sv s ok sv { s with
        pc := .respond
        search_object := { s.search_object with
          search_res := rankResults env.sort env.ranking s.search_object.search_res } }
  | respond (hpc : s.pc = .respond) :
      MainStep env sv s ok sv { s with
        pc := .pushObj
        resp := some
          { tag := PIR_SOAP_TAG_OK
            matches_ := cutResults env.query_num s.search_object.search_res
            ocr := if env.ocr_enabled then s.search_object.ocr else [] } }
  | pushObj (hpc : s.pc = .pushObj) (q : QQueue (SearchObj S))
      (hpush : sv.client_search_queue.push s.search_object.reset = some q) :
      MainStep env sv s ok { sv with client_search_queue := q }
        { s with pc := .done, search_object := s.search_object.reset }

/-- What a step of `imSearch` did. -/
theorem main_inv [LinearOrder S] {env : Env S} {sv sv' : Server S} {s s' : Search S} {ok : Bool}
    (h : s.main env sv ok = some (sv', s')) : MainStep env sv s ok sv' s' := by
  cases hpc : s.pc <;> simp only [Search.main, hpc] at h
  case check =>
    split at h
    · next hr =>
        cases h
        exact .ready hpc hr
    · next hr =>
        cases h
        exact .refuse hpc hr
  case allocTid =>
    cases h
    exact .allocTid hpc
  case allocInfo =>
    cases h
    exact .allocInfo hpc
  case popObj =>
    split at h
    · cases h
    · next obj q hpop =>
        cases h
        exact .popObj hpc obj q hpop
  case prepare =>
    cases h
    exact .prepare hpc
  case createTest k i =>
    split at h
    · next hlt =>
        cases h
        exact .createMore k i hpc hlt
    · next hge =>
        cases h
        exact .createEnd k i hpc hge
  case setInfo k i =>
    cases h
    exact .setInfo k i hpc
  case createThread k i =>
    split at h
    · next hok =>
        cases h
        exact .createThread k i hpc hok
    · next hok =>
        cases h
        exact .createRetry k i hpc (by simpa using hok)
  case ocrInit =>
    cases h
    cases ho : env.ocr_enabled with
    | true => exact .ocrOn hpc ho
    | false => exact .ocrOff hpc ho
  case joinTest k i =>
    split at h
    · next hlt =>
        cases h
        exact .joinMore k i hpc hlt
    · next hge =>
        cases h
        exact .joinEnd k i hpc hge
  case join k i =>
    split at h
    · next hjoin =>
        cases h
        exact .join k i hpc hjoin
    · cases h
  case joinOcrInit =>
    cases h
    cases ho : env.ocr_enabled with
    | true => exact .joinOcrOn hpc ho
    | false => exact .joinOcrOff hpc ho
  case free =>
    cases h
    exact .free hpc
  case sort =>
    cases h
    exact .sort hpc
  case respond =>
    cases h
    exact .respond hpc
  case pushObj =>
    split at h
    · cases h
    · next q hpush =>
        cases h
        exact .pushObj hpc q hpush
  case done => cases h
  case refused => cases h

/-- Everything a statement of thread `j` can do; the thread is at `c`. -/
inductive ChildStep (env : Env S) (s : Search S) (j : ℕ) (c : Child S) : Search S → Prop
  | detect (hpc : c.pc = .call) (hk : c.kind = .ocr) (ocr : List Char) :
      ChildStep env s j c { s with
        children := s.children.set j { c with pc := .finished }
        search_object := { s.search_object with ocr := ocr } }
  | fault (hpc : c.pc = .call) (hk : c.kind = .search)
      (hnet : env.net s.search_object.image_path (s.info c.slot) = none) :
      ChildStep env s j c { s with
        children := s.children.set j { c with pc := .report, called := some (s.info c.slot) } }
  | report (hpc : c.pc = .report) :
      ChildStep env s j c { s with children := s.children.set j { c with pc := .finished } }
  | answer (hpc : c.pc = .call) (hk : c.kind = .search) (ms : List (Scored S))
      (hnet : env.net s.search_object.image_path (s.info c.slot) = some ms) :
      ChildStep env s j c { s with
        children := s.children.set j
          { c with pc := .lock, called := some (s.info c.slot), resp := ms, rest := ms } }
  | lock (hpc : c.pc = .lock) (hfree : s.search_mutex = none) :
      ChildStep env s j c { s with
        search_mutex := some j
        children := s.children.set j { c with pc := .append } }
  | appended (hpc : c.pc = .append) (hrest : c.rest = []) :
      ChildStep env s j c { s with children := s.children.set j { c with pc := .unlock } }
  | append (hpc : c.pc = .append) (m : Scored S) (rest : List (Scored S))
      (hrest : c.rest = m :: rest) :
      ChildStep env s j c { s with
        children := s.children.set j { c with rest := rest }
        search_object := { s.search_object with search_res := s.search_object.search_res ++ [m] } }
  | unlock (hpc : c.pc = .unlock) :
      ChildStep env s j c { s with
        search_mutex := none
        children := s.children.set j { c with pc := .logFound } }
  | logFound (hpc : c.pc = .logFound) :
      ChildStep env s j c { s with children := s.children.set j { c with pc := .finished } }

/-- What a step of a `search_thread` did. -/
theorem child_inv {env : Env S} {s s' : Search S} {j : ℕ} {text : Option (List Char)}
    (h : s.child env j text = some s') : ∃ c, s.children[j]? = some c ∧ ChildStep env s j c s' := by
  unfold Search.child at h
  split at h
  · cases h
  next c hc =>
    refine ⟨c, hc, ?_⟩
    unfold Search.childAt at h
    split at h
    · next hpc =>
        split at h
        · next hk =>
            cases h
            exact .detect hpc hk _
        next hk =>
          split at h
          · next hnet =>
              cases h
              exact .fault hpc hk hnet
          · next ms hnet =>
              cases h
              exact .answer hpc hk ms hnet
    · next hpc =>
        cases h
        exact .report hpc
    · next hpc =>
        split at h
        · cases h
        · next hfree =>
            cases h
            exact .lock hpc hfree
    · next hpc =>
        split at h
        · next hrest =>
            cases h
            exact .appended hpc hrest
        · next m rest hrest =>
            cases h
            exact .append hpc m rest hrest
    · next hpc =>
        cases h
        exact .unlock hpc
    · next hpc =>
        cases h
        exact .logFound hpc
    · cases h

end KalavaPir.Master
