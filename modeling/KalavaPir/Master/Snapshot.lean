/-
  KalavaPir.Master.Snapshot — the worker file `__vb.bss`.

  `writeWorkerInfo` prints the table with `fprintf`, one `key = value` line
  per string and worker; `loadWorkerInfo` looks every key up again with
  `QConfigReader`.  The file is a list of entries, so reading it is lookup
  (`KalavaPir.Common.findField_render`), and the keys of different workers and
  columns are different: `workspace-10` is a prefix of `workspace-100`, but
  not the same key.
-/
import KalavaPir.Common.QConfigReader
import KalavaPir.Master.WorkerTable

namespace KalavaPir.Master

open KalavaPir.Common

/-! ## §1. Keys. -/

/-- What the file says about a worker. -/
inductive Column where
  | workspace
  | tpldir
  | method
  | option
  | enable
  deriving DecidableEq, Repr

/-- The name of a field in the file. -/
def Column.name : Column → List Char
  | .workspace => ['w', 'o', 'r', 'k', 's', 'p', 'a', 'c', 'e']
  | .tpldir => ['t', 'p', 'l', 'd', 'i', 'r']
  | .method => ['m', 'e', 't', 'h', 'o', 'd']
  | .option => ['o', 'p', 't', 'i', 'o', 'n']
  | .enable => ['e', 'n', 'a', 'b', 'l', 'e']

/-- `sprintf(buf, "workspace-%02d", i)` and its like. -/
def Column.key (c : Column) (i : ℕ) : List Char := c.name ++ '-' :: decimal2 i

/-- The name of the number of workers. -/
def workerNumKey : List Char := ['w', 'o', 'r', 'k', 'e', 'r', '-', 'n', 'u', 'm']

/-! ## §2. Writing (pir.cpp:926). -/

/-- `fprintf(fp, "key = %s\n", value)`. -/
def fprintfField (key value : List Char) : List Char := key ++ [' ', '=', ' '] ++ value ++ ['\n']

/-- One round of the loop of `writeWorkerInfo`. -/
def writeWorker (i : ℕ) (w : WorkerInfo) : List Char :=
  ['#', ' ', 'W', 'o', 'r', 'k', 'e', 'r', ':', ' '] ++ decimal2 i ++ ['\n'] ++
  fprintfField (Column.workspace.key i) (c_str w.workspace) ++
  fprintfField (Column.tpldir.key i) (c_str w.tpldir) ++
  fprintfField (Column.method.key i) (c_str w.method) ++
  fprintfField (Column.option.key i) (c_str w.option) ++
  fprintfField (Column.enable.key i) ['y', 'e', 's'] ++
  ['\n']

/-- The workers from number `i` on. -/
def writeWorkers : ℕ → List WorkerInfo → List Char
  | _, [] => []
  | i, w :: ws => writeWorker i w ++ writeWorkers (i + 1) ws

/-- `writeWorkerInfo`: the content of the file. -/
def writeWorkerInfo (vec : List WorkerInfo) : List Char :=
  ['#', ' ', 'S', 'e', 'r', 'v', 'e', 'r', ':', '\n'] ++
  fprintfField workerNumKey (decimal vec.length) ++
  ['\n'] ++
  writeWorkers 0 vec

/-! ## §3. Reading (pir.cpp:872). -/

/-- What `QConfigReader` finds in a file. -/
def Snapshot.read (file : List Char) : Snapshot where
  worker_num := getFieldInt32 workerNumKey file
  workspace i := getFieldString (Column.workspace.key i) file
  tpldir i := getFieldString (Column.tpldir.key i) file
  method i := getFieldString (Column.method.key i) file
  option i := getFieldString (Column.option.key i) file
  enable i := getFieldYesNo (Column.enable.key i) file

/-- `loadWorkerInfo` of the bytes of a file. -/
def loadFile (file : List Char) : List WorkerInfo × Bool := loadWorkerInfo (some (Snapshot.read file))

/-! ## §4. The file as a list of entries. -/

/-- The value in a column. -/
def Column.value (w : WorkerInfo) : Column → List Char
  | .workspace => c_str w.workspace
  | .tpldir => c_str w.tpldir
  | .method => c_str w.method
  | .option => c_str w.option
  | .enable => ['y', 'e', 's']

/-- The lines of a worker. -/
def workerEntries (i : ℕ) (w : WorkerInfo) : List Entry :=
  [ .note (['#', ' ', 'W', 'o', 'r', 'k', 'e', 'r', ':', ' '] ++ decimal2 i),
    .field (Column.workspace.key i) (Column.workspace.value w),
    .field (Column.tpldir.key i) (Column.tpldir.value w),
    .field (Column.method.key i) (Column.method.value w),
    .field (Column.option.key i) (Column.option.value w),
    .field (Column.enable.key i) (Column.enable.value w),
    .note [] ]

/-- The lines of all workers. -/
def tableEntries : ℕ → List WorkerInfo → List Entry
  | _, [] => []
  | i, w :: ws => workerEntries i w ++ tableEntries (i + 1) ws

/-- The lines of the file. -/
def snapshotEntries (vec : List WorkerInfo) : List Entry :=
  [ .note ['#', ' ', 'S', 'e', 'r', 'v', 'e', 'r', ':'],
    .field workerNumKey (decimal vec.length),
    .note [] ] ++ tableEntries 0 vec

theorem render_append (es es' : List Entry) : render (es ++ es') = render es ++ render es' := by
  unfold render
  rw [List.flatMap_append]

theorem writeWorker_eq (i : ℕ) (w : WorkerInfo) : writeWorker i w = render (workerEntries i w) := by
  simp [writeWorker, render, workerEntries, fprintfField, Entry.text, Column.value]

theorem writeWorkers_eq (ws : List WorkerInfo) : ∀ i, writeWorkers i ws = render (tableEntries i ws) := by
  induction ws with
  | nil =>
    intro i
    rfl
  | cons w ws ih =>
    intro i
    rw [writeWorkers, tableEntries, render_append, writeWorker_eq, ih]

theorem writeWorkerInfo_eq (vec : List WorkerInfo) : writeWorkerInfo vec = render (snapshotEntries vec) := by
  rw [writeWorkerInfo, snapshotEntries, render_append, writeWorkers_eq]
  simp [render, fprintfField, Entry.text]

/-! ## §5. The entries are readable. -/

theorem isKey_workerNum : IsKey workerNumKey := ⟨by decide, List.all_eq_true.mp rfl⟩

theorem name_words (c : Column) : ∀ d ∈ c.name, isWord d = true := by
  apply List.all_eq_true.mp
  cases c <;> rfl

theorem isKey_key (c : Column) (i : ℕ) : IsKey (c.key i) := by
  refine ⟨by simp [Column.key], ?_⟩
  intro d hd
  rcases List.mem_append.mp hd with hd | hd
  · exact name_words c d hd
  · rcases List.mem_cons.mp hd with rfl | hd
    · decide
    · simp [isWord, isDigit_of_mem_decimal2 hd]

/-- **Keys of different columns or workers are different.** -/
theorem key_inj {c c' : Column} {i j : ℕ} : c.key i = c'.key j ↔ c = c' ∧ i = j := by
  constructor
  · intro h
    have hc : c = c' := by
      -- the names already differ in their first letter
      cases c <;> cases c' <;> simp [Column.key, Column.name] at h ⊢
    subst hc
    have htail := List.append_cancel_left h
    injection htail with _ htail
    exact ⟨rfl, decimal2_inj htail⟩
  · rintro ⟨rfl, rfl⟩
    rfl

theorem workerNum_ne_key (c : Column) (i : ℕ) : workerNumKey ≠ c.key i := by
  cases c <;> simp [workerNumKey, Column.key, Column.name]

theorem plain_digits {s : List Char} (h : ∀ c ∈ s, c.isDigit = true) : Plain s := by
  have hno : ∀ d : Char, d.isDigit = false → d ∉ s := by
    intro d hd hmem
    rw [h d hmem] at hd
    exact absurd hd (by decide)
  refine ⟨hno _ (by decide), hno _ (by decide), hno _ (by decide), fun hhead => ?_, fun hlast => ?_⟩
  · exact hno ' ' (by decide) (List.mem_of_head? hhead)
  · exact hno ' ' (by decide) (List.mem_of_getLast? hlast)

/-- The four strings of a worker. -/
def WorkerInfo.strings (w : WorkerInfo) : List (List Char) :=
  [w.workspace, w.tpldir, w.method, w.option]

variable {v : List Char} {w : WorkerInfo}

theorem c_str_plain (h : Plain v) : c_str v = v := by
  unfold c_str
  rw [List.takeWhile_eq_self_iff]
  intro c hc
  rw [bne_iff_ne]
  rintro rfl
  exact h.no_nul hc

theorem plain_value (h : ∀ v ∈ w.strings, Plain v) (c : Column) : Plain (c.value w) := by
  cases c with
  | enable =>
    show Plain ['y', 'e', 's']
    exact ⟨by decide, by decide, by decide, by decide, by decide⟩
  | _ =>
    rw [Column.value, c_str_plain (h _ (by simp [WorkerInfo.strings]))]
    exact h _ (by simp [WorkerInfo.strings])

theorem readable_worker {i : ℕ} (h : ∀ v ∈ w.strings, Plain v) :
    ∀ e ∈ workerEntries i w, e.Readable := by
  have hnote : '\n' ∉ (['#', ' ', 'W', 'o', 'r', 'k', 'e', 'r', ':', ' '] ++ decimal2 i) := by
    intro hmem
    rcases List.mem_append.mp hmem with hmem | hmem
    · revert hmem
      decide
    · exact absurd (isDigit_of_mem_decimal2 hmem) (by decide)
  intro e he
  simp only [workerEntries, List.mem_cons, List.not_mem_nil, or_false] at he
  rcases he with rfl | rfl | rfl | rfl | rfl | rfl | rfl
  · exact ⟨Or.inr rfl, hnote⟩
  · exact ⟨isKey_key _ i, plain_value h _⟩
  · exact ⟨isKey_key _ i, plain_value h _⟩
  · exact ⟨isKey_key _ i, plain_value h _⟩
  · exact ⟨isKey_key _ i, plain_value h _⟩
  · exact ⟨isKey_key _ i, plain_value h _⟩
  · exact ⟨Or.inl rfl, by simp⟩

theorem readable_table {ws : List WorkerInfo} (h : ∀ w ∈ ws, ∀ v ∈ w.strings, Plain v) :
    ∀ i, ∀ e ∈ tableEntries i ws, e.Readable := by
  induction ws with
  | nil =>
    intro i e he
    simp [tableEntries] at he
  | cons w ws ih =>
    intro i e he
    rcases List.mem_append.mp he with he | he
    · exact readable_worker (h w List.mem_cons_self) e he
    · exact ih (fun x hx => h x (List.mem_cons_of_mem w hx)) (i + 1) e he

variable {vec : List WorkerInfo}

/-- **A table of plain strings is written readably.** -/
theorem readable_snapshot (h : ∀ w ∈ vec, ∀ v ∈ w.strings, Plain v) :
    ∀ e ∈ snapshotEntries vec, e.Readable := by
  intro e he
  rcases List.mem_append.mp he with he | he
  · simp only [List.mem_cons, List.not_mem_nil, or_false] at he
    rcases he with rfl | rfl | rfl
    · exact ⟨Or.inr rfl, by decide⟩
    · exact ⟨isKey_workerNum, plain_digits (fun c hc => isDigit_of_mem_decimal hc)⟩
    · exact ⟨Or.inl rfl, by simp⟩
  · exact readable_table h 0 e he

theorem splitOn_render {es : List Entry} (h : ∀ e ∈ es, e.Readable) :
    (render es).splitOn '\n' = es.map Entry.text ++ [[]] := by
  induction es with
  | nil => rfl
  | cons e es ih =>
    have hline : render (e :: es) = e.text ++ '\n' :: render es := by
      simp [render]
    rw [hline, List.splitOn_append_cons_self_of_not_mem (h e List.mem_cons_self).no_lf,
      ih (fun x hx => h x (List.mem_cons_of_mem e hx))]
    rfl

/-- Every written line fits into the reader's buffer. -/
def LinesFit (vec : List WorkerInfo) : Prop :=
  ∀ l ∈ (writeWorkerInfo vec).splitOn '\n', l.length ≤ 1022

theorem LinesFit.fits (h : ∀ w ∈ vec, ∀ v ∈ w.strings, Plain v) (hfit : LinesFit vec) :
    ∀ e ∈ snapshotEntries vec, e.Fits := by
  intro e he
  unfold LinesFit at hfit
  rw [writeWorkerInfo_eq, splitOn_render (readable_snapshot h)] at hfit
  have hlen := hfit e.text (List.mem_append_left _ (List.mem_map_of_mem he))
  unfold Entry.Fits BUFSIZ_1K
  omega

/-! ## §6. Looking a worker up. -/

theorem lookup_worker (c : Column) (i j : ℕ) (w : WorkerInfo) (rest : List Entry) :
    lookup (c.key i) (workerEntries j w ++ rest) =
      if j = i then some (c.value w) else lookup (c.key i) rest := by
  by_cases hji : j = i
  · subst hji
    cases c <;> simp [workerEntries, lookup, key_inj]
  · rw [if_neg hji]
    simp [workerEntries, lookup, key_inj, hji]

theorem lookup_table (c : Column) (i : ℕ) (ws : List WorkerInfo) : ∀ j, lookup (c.key i) (tableEntries j ws) =
      if j ≤ i then (ws[i - j]?).map (fun w => c.value w) else none := by
  induction ws with
  | nil =>
    intro j
    simp [tableEntries, lookup]
  | cons w ws ih =>
    intro j
    rw [tableEntries, lookup_worker]
    by_cases hji : j = i
    · subst hji
      simp
    rw [if_neg hji, ih]
    by_cases hlt : j < i
    · rw [if_pos (by omega), if_pos (by omega), show i - j = i - (j + 1) + 1 by omega,
        List.getElem?_cons_succ]
    · rw [if_neg (by omega), if_neg (by omega)]

/-- **A written file, looked up.** -/
theorem lookup_snapshot (c : Column) (i : ℕ) (vec : List WorkerInfo) :
    lookup (c.key i) (snapshotEntries vec) = (vec[i]?).map (fun w => c.value w) := by
  have hhead : lookup (c.key i) (snapshotEntries vec) = lookup (c.key i) (tableEntries 0 vec) := by
    simp [snapshotEntries, lookup, workerNum_ne_key]
  rw [hhead, lookup_table, if_pos (Nat.zero_le i), Nat.sub_zero]

theorem lookup_workerNum (vec : List WorkerInfo) :
    lookup workerNumKey (snapshotEntries vec) = some (decimal vec.length) := by
  simp [snapshotEntries, lookup]

/-- A worker as `loadWorkerInfo` stores it. -/
def WorkerInfo.fresh (w : WorkerInfo) : WorkerInfo := { w with state := 0 }

/-- A value that the reader reports. -/
def present (v : List Char) : Option (List Char) := if v = [] then none else some v

theorem present_nil : present [] = none := rfl

theorem present_of_ne (h : v ≠ []) : present v = some v := if_neg h

section Written

variable {vec : List WorkerInfo} (hplain : ∀ w ∈ vec, ∀ v ∈ w.strings, Plain v)
  (hfit : ∀ e ∈ snapshotEntries vec, e.Fits)
include hplain hfit

variable {w : WorkerInfo}

theorem read_column (c : Column) {i : ℕ} (hw : vec[i]? = some w) :
    getFieldString (c.key i) (writeWorkerInfo vec) = present (c.value w) := by
  rw [writeWorkerInfo_eq, getFieldString_render (isKey_key c i) (readable_snapshot hplain) hfit,
    lookup_snapshot, hw, Option.map_some]
  by_cases hc : c.value w = []
  · simp [Option.filter, hc, present_nil]
  · simp [Option.filter, hc, present_of_ne]

theorem read_workerNum : (Snapshot.read (writeWorkerInfo vec)).worker_num = some (vec.length : ℤ) := by
  have hstr : getFieldString workerNumKey (writeWorkerInfo vec) = some (decimal vec.length) := by
    rw [writeWorkerInfo_eq, getFieldString_render isKey_workerNum (readable_snapshot hplain) hfit,
      lookup_workerNum]
    simp [Option.filter, decimal, Nat.toDigits_ne_nil]
  show (getFieldString workerNumKey (writeWorkerInfo vec)).map atoi = _
  rw [hstr, Option.map_some, atoi_decimal]

/-- **What the reader finds for worker `i`**: the worker, enabled, unless one
    of its strings is empty. -/
theorem read_worker {i : ℕ} (hw : vec[i]? = some w) :
    (Snapshot.read (writeWorkerInfo vec)).worker i =
      if [] ∈ w.strings then none else some (w.fresh, true) := by
  have hstr : ∀ v ∈ w.strings, c_str v = v :=
    fun v hv => c_str_plain (hplain w (List.mem_of_getElem? hw) v hv)
  have h₁ := read_column hplain hfit .workspace hw
  have h₂ := read_column hplain hfit .tpldir hw
  have h₃ := read_column hplain hfit .method hw
  have h₄ := read_column hplain hfit .option hw
  have h₅ : getFieldYesNo (Column.enable.key i) (writeWorkerInfo vec) = some true := by
    unfold getFieldYesNo
    rw [read_column hplain hfit .enable hw]
    rfl
  simp only [Column.value] at h₁ h₂ h₃ h₄
  rw [hstr _ (by simp [WorkerInfo.strings])] at h₁ h₂ h₃ h₄
  unfold Snapshot.worker Snapshot.read
  simp only [h₁, h₂, h₃, h₄, h₅]
  -- the first empty string ends the round
  by_cases e₁ : w.workspace = []
  · simp [e₁, present_nil, WorkerInfo.strings]
  by_cases e₂ : w.tpldir = []
  · simp [e₂, present_nil, present_of_ne e₁, WorkerInfo.strings]
  by_cases e₃ : w.method = []
  · simp [e₃, present_nil, present_of_ne e₁, present_of_ne e₂, WorkerInfo.strings]
  by_cases e₄ : w.option = []
  · simp [e₄, present_nil, present_of_ne e₁, present_of_ne e₂, present_of_ne e₃, WorkerInfo.strings]
  have hno : [] ∉ w.strings := by
    simp [WorkerInfo.strings, Ne.symm e₁, Ne.symm e₂, Ne.symm e₃, Ne.symm e₄]
  rw [if_neg hno, present_of_ne e₁, present_of_ne e₂, present_of_ne e₃, present_of_ne e₄]
  rfl

end Written

/-! ## §7. The loop of `loadWorkerInfo`. -/

/-- The loop ends well exactly when every round does. -/
theorem workers_ok_iff (f : Snapshot) (n : ℕ) : ∀ i,
    (f.workers n i).2 = true ↔ ∀ k < n, f.worker (i + k) ≠ none := by
  induction n with
  | zero =>
    intro i
    simp [Snapshot.workers]
  | succ n ih =>
    intro i
    cases hw : f.worker i with
    | none =>
      simp only [Snapshot.workers, hw, Bool.false_eq_true, false_iff, not_forall]
      exact ⟨0, by omega, by simp [hw]⟩
    | some r =>
      obtain ⟨wi, flag⟩ := r
      simp only [Snapshot.workers, hw]
      rw [ih]
      constructor
      · intro h k hk
        cases k with
        | zero => simp [hw]
        | succ k =>
          rw [show i + (k + 1) = i + 1 + k by omega]
          exact h k (by omega)
      · intro h k hk
        rw [show i + 1 + k = i + (k + 1) by omega]
        exact h (k + 1) (by omega)

/-- Rounds that all find an enabled worker collect them in order. -/
theorem workers_eq_map (f : Snapshot) (ws : List WorkerInfo) : ∀ i,
    (∀ k w, ws[k]? = some w → f.worker (i + k) = some (w.fresh, true)) →
    f.workers ws.length i = (ws.map WorkerInfo.fresh, true) := by
  induction ws with
  | nil =>
    intro i _
    rfl
  | cons w ws ih =>
    intro i h
    have hw := h 0 w rfl
    rw [Nat.add_zero] at hw
    have hrest := ih (i + 1) (fun k v hv => by
      rw [show i + 1 + k = i + (k + 1) by omega]
      exact h (k + 1) v hv)
    simp only [List.length_cons, Snapshot.workers, hw, hrest, if_true, List.map_cons]

/-- **A written file is accepted exactly when no string in it is empty.** -/
theorem loadWorkerInfo_ok_iff (hplain : ∀ w ∈ vec, ∀ v ∈ w.strings, Plain v)
    (hfit : ∀ e ∈ snapshotEntries vec, e.Fits) :
    (loadFile (writeWorkerInfo vec)).2 = true ↔ ∀ w ∈ vec, [] ∉ w.strings := by
  unfold loadFile loadWorkerInfo
  simp only [read_workerNum hplain hfit, Int.toNat_natCast]
  rw [workers_ok_iff]
  constructor
  · intro h w hw
    obtain ⟨k, hk, rfl⟩ := List.getElem_of_mem hw
    have hround := h k hk
    rw [Nat.zero_add, read_worker hplain hfit (List.getElem?_eq_getElem hk)] at hround
    intro hmem
    exact hround (if_pos hmem)
  · intro h k hk
    rw [Nat.zero_add, read_worker hplain hfit (List.getElem?_eq_getElem hk),
      if_neg (h _ (List.getElem_mem hk))]
    simp

/-! ## §8. Main result. -/

/-- **THE SNAPSHOT ROUND TRIP.**  A table whose strings are plain and not
    empty, and whose lines fit the reader's buffer, is read back as it was. -/
theorem snapshot_round_trip (vec : List WorkerInfo)
    (hplain : ∀ w ∈ vec, ∀ v ∈ w.strings, v ≠ [] ∧ Plain v) (hfit : LinesFit vec) :
    (loadFile (writeWorkerInfo vec)).2 = true ∧
      (loadFile (writeWorkerInfo vec)).1.map WorkerInfo.strings = vec.map WorkerInfo.strings := by
  have hplain' : ∀ w ∈ vec, ∀ v ∈ w.strings, Plain v := fun w hw v hv => (hplain w hw v hv).2
  have hfit' := hfit.fits hplain'
  have hload : loadFile (writeWorkerInfo vec) = (vec.map WorkerInfo.fresh, true) := by
    unfold loadFile loadWorkerInfo
    simp only [read_workerNum hplain' hfit', Int.toNat_natCast]
    apply workers_eq_map
    intro k w hk
    rw [Nat.zero_add, read_worker hplain' hfit' hk, if_neg]
    intro hmem
    exact (hplain w (List.mem_of_getElem? hk) [] hmem).1 rfl
  rw [hload, List.map_map]
  exact ⟨rfl, rfl⟩

/-- A worker whose workspace looks like a key. -/
def lookalike : WorkerInfo :=
  { workspace := ['t', 'p', 'l', 'd', 'i', 'r', '-', '0', '0', ' ', '=', ' ', 'x'], tpldir := ['t'],
    method := ['#', 'm'], option := ['o', ' ', 'p'], state := 6 }

theorem snapshot_round_trip_lookalike :
    (loadFile (writeWorkerInfo [lookalike])).2 = true ∧
      (loadFile (writeWorkerInfo [lookalike])).1.map WorkerInfo.strings = [lookalike.strings] := by
  refine snapshot_round_trip [lookalike] ?_ ?_
  · intro w hw v hv
    rw [List.mem_singleton] at hw
    subst hw
    simp only [WorkerInfo.strings, lookalike, List.mem_cons, List.not_mem_nil, or_false] at hv
    rcases hv with rfl | rfl | rfl | rfl <;>
      exact ⟨by decide, by decide, by decide, by decide, by decide, by decide⟩
  · unfold LinesFit
    decide

end KalavaPir.Master
