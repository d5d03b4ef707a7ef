/-
  KalavaPir.Master.WorkerTable — where the master's table of workers comes
  from.

  Two functions of master/src/pir.cpp install workers: `initWorkerInfo` parses
  the four `n|x₀|x₁|…` strings of a `serviceInit` request, `loadWorkerInfo`
  reads the snapshot file.  Both APPEND to the vector they are given, and
  neither looks at `bucketMax`.

  Strings are lists of characters; a position fits into the `int32_t` it is
  stored in, and `std::string::npos` becomes −1 there (`none` below).
-/
import KalavaPir.Common.CString

namespace KalavaPir.Master

open KalavaPir.Common

/-- `struct workerInfo`. -/
structure WorkerInfo where
  workspace : List Char
  tpldir : List Char
  method : List Char
  option : List Char
  state : ℤ
  deriving DecidableEq, Repr

/-! ## §1. The request strings. -/

/-- `s.find(c, beg)`. -/
def find (s : List Char) (c : Char) (beg : ℕ) : Option ℕ :=
  ((s.drop beg).findIdx? (· == c)).map (· + beg)

/-- `s.substr(beg, end-beg)`; with `end` = −1 the length wraps to a huge one. -/
def substr (s : List Char) (beg : ℕ) (stop : Option ℕ) : List Char :=
  match stop with
  | none => s.drop beg
  | some e => (s.drop beg).take (e - beg)

/-- `beg=end+1`; −1 starts over at 0. -/
def after (stop : Option ℕ) : ℕ :=
  match stop with
  | none => 0
  | some e => e + 1

/-- The loop of `getData`. -/
def getFields (s : List Char) : ℕ → ℕ → List (List Char)
  | 0, _ => []
  | n + 1, beg =>
    let stop := find s '|' beg
    substr s beg stop :: getFields s n (after stop)

/-- `getData` (pir.cpp:814): the number in front and that many fields. -/
def getData (s : List Char) : Option (ℤ × List (List Char)) :=
  let stop := find s '|' 0
  let bucketSize := atoi (substr s 0 stop)
  -- past the last `|` the loop starts over at the head
  if bucketSize ≤ 0 then none
  else some (bucketSize, getFields s bucketSize.toNat (after stop))

/-- `initWorkerInfo` (pir.cpp:834): the workers it appends, or `none` for
    PIR_ERR (nothing is appended then).  Each `getData` overwrites
    `bucketSize`; the last one counts. -/
def initWorkerInfo (workspace tpldir method option : List Char) : Option (List WorkerInfo) := do
  let (_, workspaceVec) ← getData workspace
  let (_, tpldirVec) ← getData tpldir
  let (_, methodVec) ← getData method
  let (bucketSize, optionVec) ← getData option
  if (workspaceVec.length : ℤ) ≠ bucketSize ∨ (tpldirVec.length : ℤ) ≠ bucketSize ∨
      (methodVec.length : ℤ) ≠ bucketSize ∨ (optionVec.length : ℤ) ≠ bucketSize then
    none
  else
    some <| (workspaceVec.zip (tpldirVec.zip (methodVec.zip optionVec))).map fun r =>
      { workspace := r.1, tpldir := r.2.1, method := r.2.2.1, option := r.2.2.2, state := 0 }

/-! ## §2. The snapshot file. -/

/-- What `QConfigReader` finds in the file, by field and worker number. -/
structure Snapshot where
  worker_num : Option ℤ
  workspace : ℕ → Option (List Char)
  tpldir : ℕ → Option (List Char)
  method : ℕ → Option (List Char)
  option : ℕ → Option (List Char)
  /-- `getFieldYesNo` -/
  enable : ℕ → Option Bool

/-- One round of the loop: the worker and whether it is enabled. -/
def Snapshot.worker (f : Snapshot) (i : ℕ) : Option (WorkerInfo × Bool) := do
  let workspace ← f.workspace i
  let tpldir ← f.tpldir i
  let method ← f.method i
  let option ← f.option i
  let flag ← f.enable i
  pure ({ workspace, tpldir, method, option, state := 0 }, flag)

/-- The loop, from worker `i` on: what it appends, and whether it ends
    well. -/
def Snapshot.workers (f : Snapshot) : ℕ → ℕ → List WorkerInfo × Bool
  | 0, _ => ([], true)
  | n + 1, i =>
    match f.worker i with
    | none => ([], false)
    | some (wi, flag) =>
      let (rest, ok) := f.workers n (i + 1)
      -- a disabled worker is skipped, not stored
      (if flag then wi :: rest else rest, ok)

/-- `loadWorkerInfo` (pir.cpp:872): `none` is a file that cannot be read.  On
    an error in the middle the workers before it HAVE been appended. -/
def loadWorkerInfo (file : Option Snapshot) : List WorkerInfo × Bool :=
  match file with
  | none => ([], false)
  | some f =>
    match f.worker_num with
    | none => ([], false)
    | some n => f.workers n.toNat 0

/-! ## §3. How many workers a request installs. -/

/-- `n` fields are read. -/
theorem length_getFields (s : List Char) : ∀ n beg, (getFields s n beg).length = n
  | 0, _ => rfl
  | n + 1, beg => by simp [getFields, length_getFields s n]

/-- As many fields as the number in front says. -/
theorem getData_length {s : List Char} {n : ℤ} {vec : List (List Char)}
    (h : getData s = some (n, vec)) : 0 < n ∧ (vec.length : ℤ) = n := by
  simp only [getData] at h
  split at h
  · exact absurd h (by simp)
  next hpos =>
    obtain ⟨rfl, rfl⟩ := h
    -- the loop runs `bucketSize` times whatever it finds
    rw [length_getFields]
    omega

theorem initWorkerInfo_length {workspace tpldir method option : List Char} {n : ℤ}
    {v₁ v₂ v₃ v₄ : List (List Char)} (h₁ : getData workspace = some (n, v₁))
    (h₂ : getData tpldir = some (n, v₂)) (h₃ : getData method = some (n, v₃))
    (h₄ : getData option = some (n, v₄)) :
    ∃ vec, initWorkerInfo workspace tpldir method option = some vec ∧ (vec.length : ℤ) = n := by
  have hl₁ := (getData_length h₁).2
  have hl₂ := (getData_length h₂).2
  have hl₃ := (getData_length h₃).2
  have hl₄ := (getData_length h₄).2
  refine ⟨_, by simp [initWorkerInfo, h₁, h₂, h₃, h₄, hl₁, hl₂, hl₃, hl₄]; rfl, ?_⟩
  simp only [List.length_map, List.length_zip]
  omega

end KalavaPir.Master
