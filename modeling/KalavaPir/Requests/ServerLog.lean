/-
  KalavaPir.Requests.ServerLog — a `?log=` request for the log of a day
  (`getServerLog` of `master/src/pir.cpp` and `worker/src/pir.cpp`).

  The name of the file is printed into `log_file[256]` with `sprintf`, however
  long the day of the request and the configured directory are.  The file is
  read into `log_buf` when it is shorter than `log_size`, and a NUL is stored at
  `log_buf[*log_len+1]`, one byte behind the one that follows the file.
-/
import KalavaPir.Framework.Stores
import KalavaPir.Common.CString

namespace KalavaPir.Requests

open KalavaPir.Framework KalavaPir.Common List

/-! ## §1. The functions. -/

/-- The codes that are returned. -/
def PIR_OK : ℤ := 0
def PIR_ERR : ℤ := -1

/-- What `fopen(name, "rb")` finds under a name: nothing, or a file. -/
abbrev Disk : Type := List Char → Option (List UInt8)

/-- What a call returns and stores: in `log_file`, through `log_buf`, and through
    `log_len`. -/
structure LogAnswer where
  ret : ℤ
  log_file : Stores Char
  log_buf : Stores UInt8
  log_len : Option ℕ

/-- `sprintf`: the characters and the NUL. -/
def sprintf (s : List Char) : Stores Char := Stores.fill 0 (s ++ ['\x00'])

/-- From `fopen` on, with `log_file` printed; a file can be sought through and
    read. -/
def readLog (disk : Disk) (log_file : List Char) (log_size : ℤ) : LogAnswer :=
  match disk log_file with
  | none => ⟨PIR_ERR, sprintf log_file, [], none⟩
  | some file =>
    if file.length ≥ log_size then ⟨PIR_ERR, sprintf log_file, [], some file.length⟩
    -- `fread(log_buf, *log_len, 1, logfp)!=1`: there is no item of no bytes
    else if file.length = 0 then ⟨PIR_ERR, sprintf log_file, [], some file.length⟩
    else ⟨PIR_OK, sprintf log_file, Stores.fill 0 file ++ [(file.length + 1, 0)], some file.length⟩

/-- The part that both have: the checks, with `log_buf` and `log_len` NULL or not,
    and what follows the name. -/
def getServerLogAs (name : List Char → List Char) (disk : Disk) (day_str : Option (List Char))
    (log_buf : Bool) (log_size : ℤ) (log_len : Bool) : LogAnswer :=
  match day_str with
  | none => ⟨PIR_ERR, [], [], none⟩
  | some day =>
    if log_buf = false ∨ log_size ≤ 0 ∨ log_len = false then ⟨PIR_ERR, [], [], none⟩
    else readLog disk (name day) log_size

/-- `"%s/%s.log"` and `"%s%s.log"`. -/
def slashName (dir day : List Char) : List Char := c_str dir ++ '/' :: c_str day ++ ['.', 'l', 'o', 'g']
/-- The name of the log of a day. -/
def plainName (dir day : List Char) : List Char := c_str dir ++ c_str day ++ ['.', 'l', 'o', 'g']

/-- The worker's name of the log, of its workspace when it has one. -/
def workerName (workspace main_log_path day : List Char) : List Char :=
  if workspace = [] then slashName main_log_path day
  else if workspace.getLast? = some '/' then plainName workspace day
  else slashName workspace day

/-- `getServerLog(server, day_str, log_buf, log_size, log_len)` of the master. -/
def Master.getServerLog (log_path : List Char) : Disk → Option (List Char) → Bool → ℤ → Bool → LogAnswer :=
  getServerLogAs (slashName log_path)

/-- `getServerLog(server, day_str, log_buf, log_size, log_len)` of the worker. -/
def Worker.getServerLog (workspace main_log_path : List Char) :
    Disk → Option (List Char) → Bool → ℤ → Bool → LogAnswer :=
  getServerLogAs (workerName workspace main_log_path)

/-- Either of them, with what is configured. -/
inductive LogServer where
  | master (log_path : List Char)
  | worker (workspace main_log_path : List Char)

namespace LogServer

/-- `getServerLog` of either server. -/
def getServerLog : LogServer → Disk → Option (List Char) → Bool → ℤ → Bool → LogAnswer
  | .master log_path => Master.getServerLog log_path
  | .worker workspace main_log_path => Worker.getServerLog workspace main_log_path

/-- `http_get`, `?log=` (recgservice.cpp:681): the day is what follows, and the
    client is sent `len` bytes of a buffer that is fresh from `new`. -/
def http_get_log (server : LogServer) (disk : Disk) (ptr : List Char) (log_query_cache_size : ℤ)
    (logQueryBuf : ℕ → UInt8) : Option (List UInt8) :=
  if ptr.take 5 = ['?', 'l', 'o', 'g', '='] then
    let r := server.getServerLog disk (some (ptr.drop 5)) true log_query_cache_size true
    if r.ret < 0 then none
    else some (Stores.contents (r.log_buf.after logQueryBuf) (r.log_len.getD 0))
  else none

/-! ## §2. What is asked of an answer. -/

/-- The name of the file that the request is about. -/
def name : LogServer → List Char → List Char
  | .master log_path => slashName log_path
  | .worker workspace main_log_path => workerName workspace main_log_path

/-- The length of the directory, with a slash behind it. -/
def dirLength : LogServer → ℕ
  | .master log_path => (c_str log_path).length + 1
  | .worker workspace main_log_path =>
    if workspace = [] then (c_str main_log_path).length + 1
    else if workspace.getLast? = some '/' then (c_str workspace).length
    else (c_str workspace).length + 1

/-- The call stores inside `log_file[256]` and `log_buf[log_size]`, and a file
    that is shorter than that is delivered, with a NUL behind it. -/
structure AnswersLog (server : LogServer) (disk : Disk) (day : List Char) (log_size : ℤ)
    (buf : ℕ → UInt8) : Prop where
  name_inside : Stores.Inside 256 (server.getServerLog disk (some day) true log_size true).log_file
  buf_inside : Stores.Inside log_size.toNat (server.getServerLog disk (some day) true log_size true).log_buf
  delivers : ∀ file, disk (server.name day) = some file → file.length < log_size →
    (server.getServerLog disk (some day) true log_size true).ret = PIR_OK ∧
      Stores.contents ((server.getServerLog disk (some day) true log_size true).log_buf.after buf)
        (file.length + 1) = file ++ [0]

/-- The name fits into `log_file`, and a file that is read is not empty, leaves
    room for two bytes, and has a NUL behind it in the buffer. -/
structure LogFits (server : LogServer) (disk : Disk) (day : List Char) (log_size : ℤ)
    (buf : ℕ → UInt8) : Prop where
  name_short : server.dirLength + (c_str day).length + 4 < 256
  file_fits : ∀ file, disk (server.name day) = some file → file.length < log_size →
    0 < file.length ∧ file.length + 1 < log_size ∧ buf file.length = 0

/-! ## §3. The name. -/

theorem length_slashName (dir day : List Char) :
    (slashName dir day).length = (c_str dir).length + 1 + (c_str day).length + 4 := by
  unfold slashName
  simp only [length_append, length_cons, length_nil]
  omega

theorem length_plainName (dir day : List Char) :
    (plainName dir day).length = (c_str dir).length + (c_str day).length + 4 := by
  unfold plainName
  simp only [length_append, length_cons, length_nil]

theorem length_name (server : LogServer) (day : List Char) :
    (server.name day).length = server.dirLength + (c_str day).length + 4 := by
  cases server with
  | master log_path => exact length_slashName log_path day
  | worker workspace main_log_path =>
    show (workerName workspace main_log_path day).length = _
    unfold workerName dirLength
    by_cases hempty : workspace = []
    · simp only [if_pos hempty, length_slashName]
    · by_cases hslash : workspace.getLast? = some '/'
      · simp only [if_neg hempty, if_pos hslash, length_plainName]
      · simp only [if_neg hempty, if_neg hslash, length_slashName]

theorem inside_sprintf {s : List Char} {n : ℕ} : Stores.Inside n (sprintf s) ↔ s.length < n := by
  unfold sprintf
  rw [Stores.inside_fill, length_append, length_singleton]
  simp only [append_eq_nil_iff, cons_ne_nil, and_false, false_or]
  omega

variable {log_size : ℤ} {file : List UInt8}

theorem getServerLog_eq (server : LogServer) (disk : Disk) (day : List Char) (hsize : 0 < log_size) :
    server.getServerLog disk (some day) true log_size true = readLog disk (server.name day) log_size := by
  have hchecks : ¬ (true = false ∨ log_size ≤ 0 ∨ true = false) := by
    simp
    omega
  cases server with
  | master log_path | worker workspace main_log_path => exact if_neg hchecks

/-! ## §4. The file. -/

section ReadLog

variable {disk : Disk} {log_file : List Char} {log_size : ℤ}

theorem readLog_log_file (disk : Disk) (log_file : List Char) (log_size : ℤ) :
    (readLog disk log_file log_size).log_file = sprintf log_file := by
  unfold readLog
  split
  · rfl
  · split
    · rfl
    · split <;> rfl

variable {file : List UInt8}

theorem readLog_of_short (hfile : disk log_file = some file) (hpos : 0 < file.length)
    (hlen : file.length < log_size) : readLog disk log_file log_size =
      ⟨PIR_OK, sprintf log_file, Stores.fill 0 file ++ [(file.length + 1, 0)], some file.length⟩ := by
  unfold readLog
  rw [hfile]
  simp only
  rw [if_neg (by omega), if_neg (by omega)]

theorem readLog_of_empty (hfile : disk log_file = some file) (hnil : file.length = 0) :
    (readLog disk log_file log_size).ret = PIR_ERR := by
  unfold readLog
  rw [hfile]
  simp only
  by_cases hlen : file.length ≥ log_size
  · rw [if_pos hlen]
  · rw [if_neg hlen, if_pos hnil]

theorem readLog_log_buf (h : ∀ file, disk log_file = some file → file.length < log_size → file.length = 0) :
    (readLog disk log_file log_size).log_buf = [] := by
  unfold readLog
  split
  · rfl
  next file hfile =>
    split
    · rfl
    next hlen => rw [if_pos (h file hfile (by omega))]

/-- The buffer behind the file is what it was. -/
theorem contents_readLog (file : List UInt8) (buf : ℕ → UInt8) :
    Stores.contents (Stores.after (Stores.fill 0 file ++ [(file.length + 1, 0)]) buf) (file.length + 1)
      = file ++ [buf file.length] := by
  have hbehind : ∀ i < file.length + 1, Stores.after (Stores.fill 0 file ++ [(file.length + 1, 0)]) buf i
      = (Stores.fill 0 file).after buf i := by
    intro i hi
    rw [Stores.after_append, Stores.after_cons]
    show Function.update _ (file.length + 1) 0 i = _
    rw [Function.update_of_ne (by omega)]
  have hlast : (Stores.fill 0 file).after buf file.length = buf file.length := by
    apply Stores.after_of_notMem
    intro w hw
    have hin := Stores.fst_of_mem_fill hw
    omega
  rw [Stores.contents_congr hbehind, Stores.contents_succ, Stores.contents_fill, hlast]

end ReadLog

theorem inside_log_buf :
    Stores.Inside log_size.toNat (Stores.fill 0 file ++ [(file.length + 1, 0)])
      ↔ file.length + 1 < log_size := by
  rw [Stores.inside_append, Stores.inside_fill, Stores.inside_cons]
  simp only [Stores.inside_nil, and_true]
  constructor
  · intro h
    omega
  · intro h
    exact ⟨Or.inr (by omega), by omega⟩

/-! ## §5. A request. -/

/-- **A REQUEST IS ANSWERED** inside both buffers, with the file and a NUL, exactly
    when the name fits and the file does. -/
theorem answersLog_iff (server : LogServer) (disk : Disk) (day : List Char) (log_size : ℤ)
    (hsize : 0 < log_size) (buf : ℕ → UInt8) :
    server.AnswersLog disk day log_size buf ↔ server.LogFits disk day log_size buf := by
  have heq := getServerLog_eq server disk day hsize
  have hname : Stores.Inside 256 (server.getServerLog disk (some day) true log_size true).log_file
      ↔ server.dirLength + (c_str day).length + 4 < 256 := by
    rw [heq, readLog_log_file, inside_sprintf, length_name]
  constructor
  · intro h
    refine ⟨hname.mp h.name_inside, fun file hfile hlen => ?_⟩
    have hdelivers := h.delivers file hfile hlen
    have hinside := h.buf_inside
    have hpos : 0 < file.length := by
      by_contra hzero
      have herr : (readLog disk (server.name day) log_size).ret = PIR_ERR := readLog_of_empty hfile (by omega)
      rw [← heq, hdelivers.1] at herr
      exact absurd herr (by decide)
    rw [heq, readLog_of_short hfile hpos hlen] at hdelivers hinside
    refine ⟨hpos, inside_log_buf.mp hinside, ?_⟩
    -- the byte behind the file has not been stored to
    have hlast := hdelivers.2
    rw [contents_readLog] at hlast
    have hsingle := List.append_cancel_left hlast
    injection hsingle
  · intro h
    refine ⟨hname.mpr h.name_short, ?_, fun file hfile hlen => ?_⟩
    · rw [heq]
      by_cases hread : ∃ file, disk (server.name day) = some file ∧ file.length < log_size
      · obtain ⟨file, hfile, hlen⟩ := hread
        obtain ⟨hpos, hroom, -⟩ := h.file_fits file hfile hlen
        rw [readLog_of_short hfile hpos hlen]
        exact inside_log_buf.mpr hroom
      · rw [readLog_log_buf fun file hfile hlen => absurd ⟨file, hfile, hlen⟩ hread]
        exact Stores.inside_nil _
    · obtain ⟨hpos, -, hnul⟩ := h.file_fits file hfile hlen
      rw [heq, readLog_of_short hfile hpos hlen]
      refine ⟨rfl, ?_⟩
      rw [contents_readLog, hnul]

/-- Two bytes of a log, in a buffer of ten NULs. -/
theorem answersLog_hi : (LogServer.master ['l']).AnswersLog (fun _ => some [72, 105]) ['d'] 10 (fun _ => 0) :=
  (answersLog_iff (.master ['l']) (fun _ => some [72, 105]) ['d'] 10 (by decide) (fun _ => 0)).mpr
    ⟨by decide, fun file hfile _ => by
      injection hfile with hfile
      rw [← hfile]
      decide⟩

/-- A log of one byte and a buffer of two: the NUL is stored behind it. -/
theorem log_one_below :
    ¬ ∀ (server : LogServer) (disk : Disk) (day : List Char) (log_size : ℤ), 0 < log_size →
      ∀ buf, server.AnswersLog disk day log_size buf := by
  intro h
  have hinside := (h (.master ['l']) (fun _ => some [72]) ['d'] 2 (by decide) (fun _ => 0)).buf_inside
  exact absurd hinside (by decide)

/-- **THE CLIENT IS SENT THE LOG**, whatever was in the buffer: neither of the two
    bytes behind it. -/
theorem http_get_log_sends (server : LogServer) {disk : Disk} {day : List Char} {log_query_cache_size : ℤ}
    (hfile : disk (server.name day) = some file) (hpos : 0 < file.length)
    (hlen : file.length < log_query_cache_size) (logQueryBuf : ℕ → UInt8) :
    server.http_get_log disk (['?', 'l', 'o', 'g', '='] ++ day) log_query_cache_size logQueryBuf
      = some file := by
  have hr := (getServerLog_eq server disk day (by omega)).trans (readLog_of_short hfile hpos hlen)
  show (if (server.getServerLog disk (some day) true log_query_cache_size true).ret < 0 then none
    else some (Stores.contents
      ((server.getServerLog disk (some day) true log_query_cache_size true).log_buf.after logQueryBuf)
      ((server.getServerLog disk (some day) true log_query_cache_size true).log_len.getD 0))) = some file
  rw [hr, if_neg (show ¬ PIR_OK < 0 by decide)]
  show some (Stores.contents (Stores.after (Stores.fill 0 file ++ [(file.length + 1, 0)]) logQueryBuf)
    file.length) = some file
  have hall := contents_readLog file logQueryBuf
  rw [Stores.contents_succ] at hall
  rw [(append_inj' hall rfl).1]

/-- **A LOG WITH ROOM BEHIND IT REACHES THE CLIENT**, and no byte is stored beside
    the two buffers. -/
theorem http_get_log_inside (server : LogServer) {disk : Disk} {day : List Char} {log_query_cache_size : ℤ}
    (hname : server.dirLength + (c_str day).length + 4 < 256) (hfile : disk (server.name day) = some file)
    (hpos : 0 < file.length) (hroom : file.length + 1 < log_query_cache_size) (logQueryBuf : ℕ → UInt8) :
    Stores.Inside 256 (server.getServerLog disk (some day) true log_query_cache_size true).log_file ∧
      Stores.Inside log_query_cache_size.toNat
        (server.getServerLog disk (some day) true log_query_cache_size true).log_buf ∧
      server.http_get_log disk (['?', 'l', 'o', 'g', '='] ++ day) log_query_cache_size logQueryBuf = some file := by
  have heq := getServerLog_eq server disk day (by omega : 0 < log_query_cache_size)
  refine ⟨?_, ?_, http_get_log_sends server hfile hpos (by omega) logQueryBuf⟩
  · rw [heq, readLog_log_file, inside_sprintf, length_name]
    exact hname
  · rw [heq, readLog_of_short hfile hpos (by omega)]
    exact inside_log_buf.mpr hroom

/-- A log of two bytes, in a buffer that is not clean. -/
theorem http_get_log_inside_hi :
    Stores.Inside 256 ((LogServer.master ['l']).getServerLog (fun _ => some [72, 105]) (some ['d']) true 10 true).log_file ∧
      Stores.Inside 10
        ((LogServer.master ['l']).getServerLog (fun _ => some [72, 105]) (some ['d']) true 10 true).log_buf ∧
      (LogServer.master ['l']).http_get_log (fun _ => some [72, 105]) ['?', 'l', 'o', 'g', '=', 'd'] 10 (fun _ => 7)
        = some [72, 105] :=
  http_get_log_inside (.master ['l']) (by decide) rfl (by decide) (by decide) fun _ => 7

end LogServer

end KalavaPir.Requests
