/-
  KalavaPir.Master.Reload — the worker file between its writers and the
  watchdog.

  `ns_serviceInit` writes the file, the watchdog reads it again as soon as its
  modification time is newer than the one it remembers.  Two grammars have to
  agree on the way (the `|` splitter accepts an EMPTY segment, the config
  reader does not), and a comparison of whole seconds has to notice every
  rewrite (it does not notice a second one within the second it remembers).
-/
import KalavaPir.Master.Watchdog
import KalavaPir.Master.ServiceInit

namespace KalavaPir.Master

open KalavaPir.Common
open KalavaPir.Framework List

variable {S : Type}

/-! ## §1. The fields of a request string are its segments. -/

/-- What stands between the bars. -/
def segments (s : List Char) : List (List Char) := s.splitOn '|'

/-- Segment `k`, counted in a circle. -/
def segmentAt (s : List Char) (k : ℕ) : List Char :=
  (segments s).getD (k % (segments s).length) []

theorem segments_pos (s : List Char) : 0 < (segments s).length :=
  length_pos_iff.mpr (splitOn_ne_nil '|' s)

variable {s file : List Char} {sv₀ sv : Server S} {state : ℕ → Option ℤ}

/-- One round of the loop of `getData` at the head of segment `k`: it takes
    the segment and stops at the head of the next one, or at the head of the
    string after the last one. -/
theorem take_segment {beg k : ℕ} (hk : k < (segments s).length)
    (h : (s.drop beg).splitOn '|' = (segments s).drop k) : substr s beg (find s '|' beg) = segmentAt s k ∧
      (s.drop (after (find s '|' beg))).splitOn '|' = (segments s).drop ((k + 1) % (segments s).length) := by
  have hat : segmentAt s k = ((segments s).drop k).headD [] := by
    rw [segmentAt, Nat.mod_eq_of_lt hk, getD_eq_getElem?_getD, headD_eq_head?_getD,
      head?_drop]
  by_cases hbar : '|' ∈ s.drop beg
  · obtain ⟨a, b, hab, hno⟩ := eq_append_cons_of_mem hbar
    have hfind : find s '|' beg = some (a.length + beg) := by
      unfold find
      have hidx : a.findIdx? (· == '|') = none := by
        rw [findIdx?_eq_none_iff]
        intro c hc
        rw [beq_eq_false_iff_ne]
        rintro rfl
        exact hno hc
      rw [hab, findIdx?_append, hidx]
      simp [findIdx?_cons]
    have hrest : s.drop (a.length + beg + 1) = b := by
      rw [show a.length + beg + 1 = beg + (a.length + 1) by omega, ← drop_drop, hab]
      simp
    rw [hab, splitOn_append_cons_self_of_not_mem hno] at h
    have hnext : (segments s).drop (k + 1) = b.splitOn '|' := by
      rw [← drop_drop, ← h]
      rfl
    -- there is a segment behind the bar, so `k + 1` does not wrap
    have hlt : k + 1 < (segments s).length := by
      by_contra hge
      rw [drop_eq_nil_of_le (by omega)] at hnext
      exact splitOn_ne_nil '|' b hnext.symm
    rw [hfind, hat, ← h, Nat.mod_eq_of_lt hlt, hnext]
    refine ⟨?_, ?_⟩
    · show ((s.drop beg).take (a.length + beg - beg)) = a
      rw [hab, Nat.add_sub_cancel, take_left]
    · show (s.drop (a.length + beg + 1)).splitOn '|' = _
      rw [hrest]
  · have hfind : find s '|' beg = none := by
      unfold find
      rw [Option.map_eq_none_iff, findIdx?_eq_none_iff]
      intro c hc
      rw [beq_eq_false_iff_ne]
      rintro rfl
      exact hbar hc
    rw [splitOn_eq_singleton hbar] at h
    have hlast : k + 1 = (segments s).length := by
      have hlen := congrArg List.length h
      rw [length_singleton, length_drop] at hlen
      omega
    rw [hfind, hat, ← h, hlast, Nat.mod_self]
    exact ⟨rfl, rfl⟩

theorem segmentAt_mod (s : List Char) (k : ℕ) : segmentAt s (k % (segments s).length) = segmentAt s k := by
  unfold segmentAt
  rw [Nat.mod_mod]

theorem getFields_eq (s : List Char) (n : ℕ) : ∀ beg k, k < (segments s).length →
    (s.drop beg).splitOn '|' = (segments s).drop k →
    getFields s n beg = (List.range n).map (fun i => segmentAt s (k + i)) := by
  induction n with
  | zero =>
    intro beg k _ _
    rfl
  | succ n ih =>
    intro beg k hk h
    obtain ⟨hseg, hnext⟩ := take_segment hk h
    have hrest := ih _ _ (Nat.mod_lt (k + 1) (segments_pos s)) hnext
    rw [getFields, hseg, hrest, range_succ_eq_map, map_cons, map_map]
    congr 1
    apply map_congr_left
    intro i _
    show segmentAt s ((k + 1) % (segments s).length + i) = segmentAt s (k + (i + 1))
    rw [← segmentAt_mod, Nat.mod_add_mod, segmentAt_mod, show k + 1 + i = k + (i + 1) by omega]

/-- The segments `getData` takes: as many as the first one says, from the
    second one on. -/
def taken (s : List Char) : List (List Char) :=
  (List.range (atoi (segmentAt s 0)).toNat).map (fun i => segmentAt s (i + 1))

/-- **`getData` in terms of segments.** -/
theorem getData_eq (s : List Char) :
    getData s = if atoi (segmentAt s 0) ≤ 0 then none else some (atoi (segmentAt s 0), taken s) := by
  have hstart : (s.drop 0).splitOn '|' = (segments s).drop 0 := rfl
  obtain ⟨hseg, hnext⟩ := take_segment (segments_pos s) hstart
  have hfields := getFields_eq s (atoi (segmentAt s 0)).toNat _ _
    (Nat.mod_lt (0 + 1) (segments_pos s)) hnext
  have htaken : taken s = (List.range (atoi (segmentAt s 0)).toNat).map
      (fun i => segmentAt s ((0 + 1) % (segments s).length + i)) := by
    apply map_congr_left
    intro i _
    rw [← segmentAt_mod s (_ + i), Nat.mod_add_mod, segmentAt_mod, Nat.zero_add, Nat.add_comm]
  simp only [getData, hseg, hfields, htaken]

theorem mem_segments_of_taken {v : List Char} (h : v ∈ taken s) : v ∈ segments s := by
  unfold taken at h
  rw [mem_map] at h
  obtain ⟨i, _, rfl⟩ := h
  unfold segmentAt
  rw [getD_eq_getElem?_getD, getElem?_eq_getElem (Nat.mod_lt _ (segments_pos s))]
  exact getElem_mem _

/-! ## §2. The workers of a request. -/

/-- The four lists of a request. -/
def InitRequest.strings (r : InitRequest) : List (List Char) :=
  [r.workspace, r.tpldir, r.method, r.option]

/-- The segments are plain and short. -/
def InitRequest.Clean (r : InitRequest) : Prop :=
  ∀ s ∈ r.strings, ∀ v ∈ segments s, Plain v ∧ v.length < 1000

/-- No segment the request takes is empty. -/
def InitRequest.NoneEmpty (r : InitRequest) : Prop := ∀ s ∈ r.strings, [] ∉ taken s

variable {r : InitRequest} {ws : List WorkerInfo} {p p' : Server S × WorkerFile}

/-- The four columns of an accepted request. -/
theorem workers_columns (h : r.workers = some ws) :
    ws.map WorkerInfo.workspace = taken r.workspace ∧ ws.map WorkerInfo.tpldir = taken r.tpldir ∧
      ws.map WorkerInfo.method = taken r.method ∧ ws.map WorkerInfo.option = taken r.option := by
  have htaken : ∀ {s n v}, getData s = some (n, v) → v = taken s := by
    intro s n v hs
    rw [getData_eq] at hs
    split at hs
    · exact absurd hs (by simp)
    · rw [Option.some.injEq, Prod.mk.injEq] at hs
      exact hs.2.symm
  unfold InitRequest.workers initWorkerInfo at h
  simp only [Option.bind_eq_bind, Option.bind_eq_some_iff] at h
  obtain ⟨⟨n₁, v₁⟩, h₁, ⟨n₂, v₂⟩, h₂, ⟨n₃, v₃⟩, h₃, ⟨n, v₄⟩, h₄, h⟩ := h
  rw [← htaken h₁, ← htaken h₂, ← htaken h₃, ← htaken h₄]
  split at h
  · exact absurd h (by simp)
  next hsame =>
    rw [not_or, not_or, not_or, not_ne_iff, not_ne_iff, not_ne_iff, not_ne_iff] at hsame
    obtain ⟨l₁, l₂, l₃, l₄⟩ := hsame
    simp only at l₁ l₂ l₃ l₄
    injection h with h
    subst h
    simp only [map_map]
    -- the columns have one length, so `zip` loses nothing
    refine ⟨?_, ?_, ?_, ?_⟩
    · exact map_fst_zip (by rw [length_zip, length_zip]; omega)
    · show List.map (Prod.fst ∘ Prod.snd) _ = v₂
      rw [← map_map, map_snd_zip (by rw [length_zip, length_zip]; omega)]
      exact map_fst_zip (by rw [length_zip]; omega)
    · show List.map (Prod.fst ∘ Prod.snd ∘ Prod.snd) _ = v₃
      rw [← map_map, ← map_map,
        map_snd_zip (by rw [length_zip, length_zip]; omega),
        map_snd_zip (by rw [length_zip]; omega)]
      exact map_fst_zip (by omega)
    · show List.map (Prod.snd ∘ Prod.snd ∘ Prod.snd) _ = v₄
      rw [← map_map, ← map_map,
        map_snd_zip (by rw [length_zip, length_zip]; omega),
        map_snd_zip (by rw [length_zip]; omega)]
      exact map_snd_zip (by omega)

/-- **The strings of the workers are the segments taken.** -/
theorem mem_workers_strings (h : r.workers = some ws) (v : List Char) :
    (∃ w ∈ ws, v ∈ w.strings) ↔ ∃ s ∈ r.strings, v ∈ taken s := by
  obtain ⟨h₁, h₂, h₃, h₄⟩ := workers_columns h
  simp only [InitRequest.strings, WorkerInfo.strings, mem_cons, not_mem_nil, or_false,
    exists_eq_or_imp, exists_eq_left, ← h₁, ← h₂, ← h₃, ← h₄, mem_map]
  constructor
  · rintro ⟨w, hw, rfl | rfl | rfl | rfl⟩
    · exact Or.inl ⟨w, hw, rfl⟩
    · exact Or.inr (Or.inl ⟨w, hw, rfl⟩)
    · exact Or.inr (Or.inr (Or.inl ⟨w, hw, rfl⟩))
    · exact Or.inr (Or.inr (Or.inr ⟨w, hw, rfl⟩))
  · rintro (⟨w, hw, rfl⟩ | ⟨w, hw, rfl⟩ | ⟨w, hw, rfl⟩ | ⟨w, hw, rfl⟩)
    · exact ⟨w, hw, Or.inl rfl⟩
    · exact ⟨w, hw, Or.inr (Or.inl rfl)⟩
    · exact ⟨w, hw, Or.inr (Or.inr (Or.inl rfl))⟩
    · exact ⟨w, hw, Or.inr (Or.inr (Or.inr rfl))⟩

theorem Clean.strings (hr : r.Clean) (h : r.workers = some ws) :
    ∀ w ∈ ws, ∀ v ∈ w.strings, Plain v ∧ v.length < 1000 := by
  intro w hw v hv
  obtain ⟨s, hs, hmem⟩ := (mem_workers_strings h v).mp ⟨w, hw, hv⟩
  exact hr s hs v (mem_segments_of_taken hmem)

theorem noneEmpty_iff (h : r.workers = some ws) : r.NoneEmpty ↔ ∀ w ∈ ws, [] ∉ w.strings := by
  have hmem := mem_workers_strings h []
  constructor
  · intro hr w hw hv
    obtain ⟨s, hs, ht⟩ := hmem.mp ⟨w, hw, hv⟩
    exact hr s hs ht
  · intro hws s hs ht
    obtain ⟨w, hw, hv⟩ := hmem.mpr ⟨s, hs, ht⟩
    exact hws w hw hv

/-! ## §3. The file the master writes. -/

/-- The strings of a table are plain and short. -/
def ShortTable (vec : List WorkerInfo) : Prop :=
  ∀ w ∈ vec, ∀ v ∈ w.strings, Plain v ∧ v.length < 1000

theorem fits_worker {i : ℕ} {w : WorkerInfo} (hi : i < 10 ^ 10)
    (hw : ∀ v ∈ w.strings, Plain v ∧ v.length < 1000) : ∀ e ∈ workerEntries i w, e.Fits := by
  have hdec : (decimal2 i).length ≤ 10 := length_decimal2_le (by omega) hi
  have hkey : ∀ c : Column, (c.key i).length ≤ 20 := by
    intro c
    have hname : c.name.length ≤ 9 := by
      cases c <;> decide
    rw [Column.key, length_append, length_cons]
    omega
  have hvalue : ∀ c : Column, (c.value w).length < 1000 := by
    intro c
    cases c with
    | enable =>
      show (['y', 'e', 's'] : List Char).length < 1000
      decide
    | _ =>
      rw [Column.value, c_str_plain (hw _ (by simp [WorkerInfo.strings])).1]
      exact (hw _ (by simp [WorkerInfo.strings])).2
  have hfield : ∀ c : Column, (Entry.field (c.key i) (c.value w)).Fits := by
    intro c
    have hk := hkey c
    have hv := hvalue c
    unfold Entry.Fits Entry.text BUFSIZ_1K
    simp only [length_append, length_cons, length_nil]
    omega
  intro e he
  simp only [workerEntries, mem_cons, not_mem_nil, or_false] at he
  rcases he with rfl | rfl | rfl | rfl | rfl | rfl | rfl
  · unfold Entry.Fits Entry.text BUFSIZ_1K
    simp only [length_append, length_cons, length_nil]
    omega
  · exact hfield _
  · exact hfield _
  · exact hfield _
  · exact hfield _
  · exact hfield _
  · show 0 + 1 ≤ BUFSIZ_1K - 1
    decide

theorem fits_table (h : ShortTable ws) : ∀ i, i + ws.length ≤ 10 ^ 10 → ∀ e ∈ tableEntries i ws, e.Fits := by
  induction ws with
  | nil =>
    intro i _ e he
    simp [tableEntries] at he
  | cons w ws ih =>
    intro i hi e he
    rw [length_cons] at hi
    rcases mem_append.mp he with he | he
    · exact fits_worker (by omega) (h w mem_cons_self) e he
    · exact ih (fun x hx => h x (mem_cons_of_mem w hx)) (i + 1) (by omega) e he

/-- Short strings and `int32_t` numbers make lines that fit. -/
theorem fits_snapshot {vec : List WorkerInfo} (h : ShortTable vec) (hint : vec.length < 2 ^ 31) :
    ∀ e ∈ snapshotEntries vec, e.Fits := by
  intro e he
  rcases mem_append.mp he with he | he
  · have hdec : (decimal vec.length).length ≤ 10 :=
      (Nat.length_toDigits_le_iff (by omega) (by omega)).mpr (by omega)
    simp only [mem_cons, not_mem_nil, or_false] at he
    rcases he with rfl | rfl | rfl
    · unfold Entry.Fits
      decide
    · unfold Entry.Fits Entry.text BUFSIZ_1K workerNumKey
      simp only [length_append, length_cons, length_nil]
      omega
    · show 0 + 1 ≤ BUFSIZ_1K - 1
      decide
  · exact fits_table h 0 (by omega) e he

/-- A history of clean requests leaves a short table. -/
theorem shortTable_history (hempty : sv₀.workerInfoVec = []) {ls : List (InitRequest × InitWorld)}
    (hclean : ∀ l ∈ ls, l.1.Clean) :
    ShortTable (ls.foldl afterInit sv₀).workerInfoVec := by
  rw [afterInit_vec, hempty, nil_append]
  intro w hw
  obtain ⟨l, hl, hmem⟩ := mem_flatMap.mp hw
  cases hws : l.1.workers with
  | none =>
    rw [hws] at hmem
    exact absurd hmem (by simp)
  | some ws =>
    rw [hws] at hmem
    exact Clean.strings (hclean l hl) hws w hmem

/-- It has an empty string exactly when an accepted request took one. -/
theorem noneEmpty_history (hempty : sv₀.workerInfoVec = []) (ls : List (InitRequest × InitWorld)) :
    (∀ w ∈ (ls.foldl afterInit sv₀).workerInfoVec, [] ∉ w.strings) ↔
      ∀ l ∈ ls, l.1.workers ≠ none → l.1.NoneEmpty := by
  rw [afterInit_vec, hempty, nil_append]
  constructor
  · intro h l hl hacc
    obtain ⟨ws, hws⟩ := Option.ne_none_iff_exists'.mp hacc
    rw [noneEmpty_iff hws]
    intro w hw
    exact h w (mem_flatMap.mpr ⟨l, hl, by rw [hws]; exact hw⟩)
  · intro h w hw
    obtain ⟨l, hl, hmem⟩ := mem_flatMap.mp hw
    cases hws : l.1.workers with
    | none =>
      rw [hws] at hmem
      exact absurd hmem (by simp)
    | some ws =>
      rw [hws] at hmem
      exact (noneEmpty_iff hws).mp (h l hl (by rw [hws]; simp)) w hmem

/-- What is written is the table. -/
theorem ns_serviceInit_file {w : InitWorld} (h : (ns_serviceInit sv r w).file = some file) :
    file = writeWorkerInfo (ns_serviceInit sv r w).server.workerInfoVec := by
  unfold ns_serviceInit at h ⊢
  cases hws : r.workers with
  | none => simp [hws] at h
  | some ws =>
    simp only [hws] at h ⊢
    split at h
    · exact absurd h (by simp)
    split at h
    · injection h with h
      exact h.symm
    · exact absurd h (by simp)

/-- A tick that finds the file newer dies of it exactly when it cannot be
    read. -/
theorem updateServerStatus_exited {t : TickWorld} {m : ℤ} (hrun : sv.exited = false)
    (hstat : t.mtime = some m) (hfile : t.file = some file) (hnew : m > sv.watchdog_mtime) :
    (updateServerStatus sv t).exited = false ↔ (loadFile file).2 = true := by
  have hloaded : t.loaded = loadFile file := by
    unfold TickWorld.loaded loadFile
    rw [hfile, Option.map_some]
  by_cases hok : (loadFile file).2 = true
  · have hload : m > sv.watchdog_mtime → t.loaded.2 = true := fun _ => by rw [hloaded, hok]
    rw [updateServerStatus_eq hrun hstat hload, (poll_frame _ _ _ _ _).1,
      afterReload_exited hrun hload]
    simp [hok]
  · simp only [updateServerStatus, hstat, afterReload, if_pos hnew, reload, hloaded, hok]
    simp

/-- **THE FILE THE MASTER WRITES.**  After a history of clean requests from the
    empty table, the file of the last one can be read again, and a tick that
    does so does not end the process, if and only if none of the requests
    accepted so far took an empty segment. -/
theorem written_file_loads (sv₀ : Server S) (hempty : sv₀.workerInfoVec = [])
    (pre : List (InitRequest × InitWorld)) (l : InitRequest × InitWorld)
    (hclean : ∀ k ∈ pre ++ [l], k.1.Clean)
    (hint : ((pre ++ [l]).foldl afterInit sv₀).workerInfoVec.length < 2 ^ 31) (file : List Char)
    (hfile : (ns_serviceInit (pre.foldl afterInit sv₀) l.1 l.2).file = some file) :
    ((loadFile file).2 = true ↔ ∀ k ∈ pre ++ [l], k.1.workers ≠ none → k.1.NoneEmpty) ∧
    ∀ (sv : Server S) (t : TickWorld) (m : ℤ), sv.exited = false → t.mtime = some m →
      t.file = some file → m > sv.watchdog_mtime →
      ((updateServerStatus sv t).exited = false ↔
        ∀ k ∈ pre ++ [l], k.1.workers ≠ none → k.1.NoneEmpty) := by
  have htable : (ns_serviceInit (pre.foldl afterInit sv₀) l.1 l.2).server =
      (pre ++ [l]).foldl afterInit sv₀ := by
    rw [List.foldl_append]
    rfl
  have hshort := shortTable_history hempty hclean
  have hplain : ∀ w ∈ ((pre ++ [l]).foldl afterInit sv₀).workerInfoVec, ∀ v ∈ w.strings, Plain v :=
    fun w hw v hv => (hshort w hw v hv).1
  have hload : (loadFile file).2 = true ↔
      ∀ k ∈ pre ++ [l], k.1.workers ≠ none → k.1.NoneEmpty := by
    rw [ns_serviceInit_file hfile, htable, loadWorkerInfo_ok_iff hplain (fits_snapshot hshort hint),
      noneEmpty_history hempty]
  refine ⟨hload, fun sv t m hrun hstat ht hnew => ?_⟩
  rw [updateServerStatus_exited hrun hstat ht hnew, hload]

theorem written_file_loads_one :
    (loadFile (writeWorkerInfo (afterInit emptyMaster (oneWorkerRequest 'a', allWell)).workerInfoVec)).2
      = true := by
  refine (written_file_loads emptyMaster rfl [] (oneWorkerRequest 'a', allWell) ?_ (by decide) _
    rfl).1.mpr ?_
  · intro k hk s hs v hv
    rw [List.nil_append, List.mem_singleton] at hk
    subst hk
    simp only [InitRequest.strings, oneWorkerRequest, List.mem_cons, List.not_mem_nil, or_false] at hs
    have hseg : v ∈ [['1'], ['a'], ['t'], ['m'], ['o']] := by
      rcases hs with rfl | rfl | rfl | rfl <;>
        · revert v
          decide
    simp only [List.mem_cons, List.not_mem_nil, or_false] at hseg
    rcases hseg with rfl | rfl | rfl | rfl | rfl <;>
      exact ⟨⟨by decide, by decide, by decide, by decide, by decide⟩, by decide⟩
  · intro k hk _
    rw [List.nil_append, List.mem_singleton] at hk
    subst hk
    unfold InitRequest.NoneEmpty
    decide

/-- A request without an option: `1|` gives one worker with an empty one. -/
def noOption : InitRequest := { oneWorkerRequest 'a' with option := ['1', '|'] }

/-- The file it writes ends the master at the next tick. -/
theorem written_file_kills :
    ∃ file, (ns_serviceInit emptyMaster noOption allWell).file = some file ∧
      (loadFile file).2 = false ∧
      (updateServerStatus (afterInit emptyMaster (noOption, allWell))
        { mtime := some 1, file := some file, state := fun _ => none }).exited = true :=
  ⟨_, rfl, by decide, by decide⟩

/-! ## §4. Rewrites and ticks. -/

/-- The worker file and its time. -/
structure WorkerFile where
  content : List Char
  /-- `st_mtime`, in whole seconds -/
  mtime : ℤ

/-- What can happen to the file. -/
inductive FileEvent where
  | rewrite (content : List Char) (mtime : ℤ)
  /-- a tick of the watchdog, and the answers of the workers to it -/
  | tick (state : ℕ → Option ℤ)

/-- Someone rewrites the file, with a content that can be read and a time that
    does not go back, or the watchdog ticks. -/
def fileStep (p : Server S × WorkerFile) : FileEvent → Option (Server S × WorkerFile)
  | .rewrite content mtime =>
    if (loadFile content).2 = true ∧ p.2.mtime ≤ mtime then some (p.1, ⟨content, mtime⟩) else none
  | .tick state =>
    if p.1.exited then none
    else
      some (updateServerStatus p.1
        { mtime := some p.2.mtime, file := some p.2.content, state }, p.2)

/-- The table is the one in the file (the states of the workers are not in
    it). -/
def UpToDate (p : Server S × WorkerFile) : Prop :=
  p.1.workerInfoVec.map WorkerInfo.strings = (loadFile p.2.content).1.map WorkerInfo.strings

instance (p : Server S × WorkerFile) : Decidable (UpToDate p) :=
  inferInstanceAs (Decidable (_ = _))

/-- **The condition**: a rewrite is stamped later than the time the watchdog
    remembers. -/
def StampedLater (p : Server S × WorkerFile) : FileEvent → Prop
  | .rewrite _ mtime => mtime > p.1.watchdog_mtime
  | .tick _ => True

instance (p : Server S × WorkerFile) (e : FileEvent) : Decidable (StampedLater p e) :=
  match e with
  | .rewrite _ mtime => inferInstanceAs (Decidable (mtime > p.1.watchdog_mtime))
  | .tick _ => inferInstanceAs (Decidable True)

/-- The table is that of the file, or the next tick will notice. -/
structure Noticed (p : Server S × WorkerFile) : Prop where
  running : p.1.exited = false
  valid : (loadFile p.2.content).2 = true
  newer : p.2.mtime > p.1.watchdog_mtime ∨ UpToDate p

/-- What a tick does to the table: the file's if it is newer, else nothing. -/
theorem tick_strings (p : Server S × WorkerFile) (state : ℕ → Option ℤ)
    (hrun : p.1.exited = false) (hvalid : (loadFile p.2.content).2 = true) :
    (updateServerStatus p.1 { mtime := some p.2.mtime, file := some p.2.content, state }).exited
        = false ∧
    (updateServerStatus p.1
        { mtime := some p.2.mtime, file := some p.2.content, state }).workerInfoVec.map
        WorkerInfo.strings =
      (if p.2.mtime > p.1.watchdog_mtime then (loadFile p.2.content).1
        else p.1.workerInfoVec).map WorkerInfo.strings := by
  have hload : p.2.mtime > p.1.watchdog_mtime →
      (TickWorld.loaded { mtime := some p.2.mtime, file := some p.2.content, state }).2 = true :=
    fun _ => hvalid
  rw [updateServerStatus_eq hrun rfl hload]
  obtain ⟨hex, _, hstr⟩ := poll_frame state
    (afterReload p.1 { mtime := some p.2.mtime, file := some p.2.content, state } p.2.mtime).bucketSize
    0 noState (afterReload p.1 { mtime := some p.2.mtime, file := some p.2.content, state } p.2.mtime)
  refine ⟨hex.trans (afterReload_exited hrun hload), hstr.trans ?_⟩
  unfold afterReload
  split
  · next hnew =>
      simp only [reload, hload hnew, if_true]
      rfl
  · rfl

/-- **A tick brings the table up to date.** -/
theorem noticed_tick (hp : Noticed p) (h : fileStep p (.tick state) = some p') :
    Noticed p' ∧ UpToDate p' := by
  unfold fileStep at h
  simp only [hp.running, Bool.false_eq_true, if_false, Option.some.injEq] at h
  subst h
  obtain ⟨hex, hstr⟩ := tick_strings p state hp.running hp.valid
  have hfresh : UpToDate (updateServerStatus p.1
      { mtime := some p.2.mtime, file := some p.2.content, state }, p.2) := by
    unfold UpToDate
    rw [hstr]
    split
    · rfl
    · next hold => exact hp.newer.resolve_left hold
  exact ⟨⟨hex, hp.valid, Or.inr hfresh⟩, hfresh⟩

theorem noticed_step {e : FileEvent} (hp : Noticed p) (hok : StampedLater p e) (h : fileStep p e = some p') :
    Noticed p' := by
  cases e with
  | rewrite content mtime =>
    unfold fileStep at h
    simp only at h
    split at h
    · next hvalid =>
        injection h with h
        subst h
        exact ⟨hp.running, hvalid.1, Or.inl hok⟩
    · exact absurd h (by simp)
  | tick state => exact (noticed_tick hp h).1

/-- A rewrite that is not stamped later is not seen by the next tick. -/
theorem rewrite_missed {p'' : Server S × WorkerFile} {content : List Char} {mtime : ℤ}
    (hold : ¬ StampedLater p (.rewrite content mtime))
    (hnew : p.1.workerInfoVec.map WorkerInfo.strings ≠ (loadFile content).1.map WorkerInfo.strings)
    (h : fileStep p (.rewrite content mtime) = some p') (htick : fileStep p' (.tick state) = some p'') :
    ¬ UpToDate p'' := by
  unfold fileStep at h
  simp only at h
  split at h
  · next hvalid =>
      injection h with h
      subst h
      unfold fileStep at htick
      simp only at htick
      split at htick
      · exact absurd htick (by simp)
      next hrun =>
        rw [Option.some.injEq] at htick
        subst htick
        have hrun : p.1.exited = false := by simpa using hrun
        have hstr := (tick_strings (p.1, ⟨content, mtime⟩) state hrun hvalid.1).2
        have hsame : ¬ mtime > p.1.watchdog_mtime := hold
        rw [if_neg hsame] at hstr
        intro hfresh
        exact hnew (hstr.symm.trans hfresh)
  · exact absurd h (by simp)

/-- **TICKS AND REWRITES.**  The watchdog starts with a table that is the
    file's or older than it.  In every run whose rewrites are all stamped later
    than the time it remembers, every tick leaves the table of the current
    file; and in any run at all, a rewrite that changes the table and is not
    stamped later is missed by a tick right behind it. -/
theorem tick_reads_rewrites (p₀ : Server S × WorkerFile) (hrun : p₀.1.exited = false)
    (hvalid : (loadFile p₀.2.content).2 = true)
    (hstart : p₀.2.mtime > p₀.1.watchdog_mtime ∨ UpToDate p₀) :
    (∀ p, Reach fileStep StampedLater p₀ p →
      ∀ state p', fileStep p (.tick state) = some p' → UpToDate p') ∧
    (∀ p, Reach fileStep anyStep p₀ p → ∀ content mtime p',
      fileStep p (.rewrite content mtime) = some p' →
      ¬ StampedLater p (.rewrite content mtime) →
      p.1.workerInfoVec.map WorkerInfo.strings ≠ (loadFile content).1.map WorkerInfo.strings →
      ∀ state p'', fileStep p' (.tick state) = some p'' → ¬ UpToDate p'') := by
  constructor
  · intro p hp state p' htick
    have hinv : Noticed p := Reach.invariant Noticed ⟨hrun, hvalid, hstart⟩
      (fun _ _ _ h hok hs => noticed_step h hok hs) hp
    exact (noticed_tick hinv htick).2
  · intro p _ content mtime p' hwrite hold hnew state p'' htick
    exact rewrite_missed hold hnew hwrite htick

/-- A file with one worker, and the master that has not looked at it yet. -/
def oneWorkerFile (c : Char) (mtime : ℤ) : WorkerFile :=
  ⟨writeWorkerInfo [{ workspace := [c], tpldir := ['t'], method := ['m'], option := ['o'], state := 0 }],
    mtime⟩

/-- Every worker is READY. -/
def allReady (_ : ℕ) : Option ℤ := some 6

/-- The rewrite is one second younger than what was read last. -/
theorem tick_reads_rewrites_timely :
    ∃ p, Reach fileStep StampedLater (emptyMaster, oneWorkerFile 'a' 5) p ∧
      decide (UpToDate p) = false ∧ ∀ state p', fileStep p (.tick state) = some p' → UpToDate p' := by
  obtain ⟨p, hp, hold⟩ := exists_reach_of_guardedExec fileStep StampedLater
    (emptyMaster, oneWorkerFile 'a' 5) [.tick allReady, .rewrite (oneWorkerFile 'b' 6).content 6]
    (fun p => !decide (UpToDate p)) (by decide)
  refine ⟨p, hp, by simpa using hold, ?_⟩
  exact (tick_reads_rewrites (emptyMaster, oneWorkerFile 'a' 5) rfl (by decide) (by decide)).1 p hp

/-- Two versions of the file within one second, and a tick after each. -/
theorem rewrite_in_the_same_second :
    ∃ p, Reach fileStep anyStep (emptyMaster, oneWorkerFile 'a' 5) p ∧
      ∃ p', fileStep p (.tick allReady) = some p' ∧ ¬ UpToDate p' := by
  obtain ⟨p, hp, hmiss⟩ := exists_reach_of_guardedExec fileStep anyStep
    (emptyMaster, oneWorkerFile 'a' 5) [.tick allReady, .rewrite (oneWorkerFile 'b' 5).content 5]
    (fun p => (fileStep p (.tick allReady)).any (fun p' => !decide (UpToDate p'))) (by decide)
  rw [Option.any_eq_true] at hmiss
  obtain ⟨p', htick, hold⟩ := hmiss
  exact ⟨p, hp, p', htick, by simpa using hold⟩

end KalavaPir.Master
