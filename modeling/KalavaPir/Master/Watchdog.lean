/-
  KalavaPir.Master.Watchdog — one tick of the watchdog, from `stat` to the
  state it publishes.

  Here a tick runs ALONE, against a world that answers it: the modification time
  and the bytes of the worker file, and one `ns__state` answer per worker.
  `updateServerStatus_runs` says that the statements of `KalavaPir.Master.Service`,
  executed one after the other, have the effect of `updateServerStatus` below.
-/
import KalavaPir.Master.TableChange
import KalavaPir.Master.Snapshot

namespace KalavaPir.Master

open KalavaPir.Common
open KalavaPir.Framework List Option

variable {S : Type}

/-! ## §1. The world of a tick. -/

/-- The answers of the workers during a tick. -/
structure TickWorld where
  /-- `buf.st_mtime`; `none` if `stat` fails -/
  mtime : Option ℤ
  /-- the bytes of the worker file; `none` if it cannot be opened -/
  file : Option (List Char)
  /-- the answer of worker `i`; `none` is a SOAP fault -/
  state : ℕ → Option ℤ

/-- What `loadWorkerInfo` makes of the file. -/
def TickWorld.loaded (t : TickWorld) : List WorkerInfo × Bool :=
  loadWorkerInfo (t.file.map Snapshot.read)

/-- How the world answers the statement at `pc`. -/
def TickWorld.outcome (t : TickWorld) : WatchPc → Outcome
  | .stat =>
    match t.mtime with
    | none => { ok := false }
    | some m => { mtime := m }
  | .load => { file := t.file.map Snapshot.read }
  | .poll i _ =>
    match t.state i with
    | none => { ok := false }
    | some v => { tag := v }
  | _ => {}

/-- One statement of the tick, nobody else running. -/
def tickStep (t : TickWorld) (p : Server S × WatchPc) (_ : Unit) : Option (Server S × WatchPc) :=
  p.2.exec p.1 (t.outcome p.2)

/-! ## §2. The whole function (recgservice.cpp:748). -/

/-- The initial value of the local `state`. -/
def noState : ℤ := 0x7fffffff

/-- The reload: recorded time first, then the table in its three steps. -/
def reload (sv : Server S) (t : TickWorld) (m : ℤ) : Server S :=
  let sv := { sv with watchdog_mtime := m }
  let sv := { sv with bucketSize := 0 }
  let sv := { sv with workerInfoVec := t.loaded.1 }
  if t.loaded.2 then { sv with bucketSize := sv.workerInfoVec.length }
  else { sv with exited := true }

/-- `n` more rounds of the loop, from worker `i` on. -/
def poll (state : ℕ → Option ℤ) : ℕ → ℕ → ℤ → Server S → Server S
  | 0, _, least, sv =>
    { sv with
      serverstate := if least = noState then PIR_STATE_ERROR else BitVec.ofInt 8 least }
  | n + 1, i, least, sv =>
    match state i with
    | none => { sv with serverstate := PIR_STATE_ERROR }
    | some v =>
      poll state n (i + 1) (if v < least then v else least)
        { sv with workerInfoVec := sv.workerInfoVec.modify i (fun w => { w with state := v }) }

/-- The table a tick works with. -/
def afterReload (sv : Server S) (t : TickWorld) (m : ℤ) : Server S :=
  if m > sv.watchdog_mtime then reload sv t m else sv

/-- `updateServerStatus`. -/
def updateServerStatus (sv : Server S) (t : TickWorld) : Server S :=
  match t.mtime with
  | none => sv
  | some m =>
    let sv := afterReload sv t m
    if sv.exited then sv else poll t.state sv.bucketSize 0 noState sv

variable {t : TickWorld}

variable {sv : Server S}

theorem afterReload_exited {m : ℤ} (hrun : sv.exited = false)
    (hload : m > sv.watchdog_mtime → t.loaded.2 = true) : (afterReload sv t m).exited = false := by
  unfold afterReload
  split
  · next hnew => simp only [reload, hload hnew, if_true, hrun]
  · exact hrun

theorem updateServerStatus_eq {m : ℤ} (hrun : sv.exited = false) (hstat : t.mtime = some m)
    (hload : m > sv.watchdog_mtime → t.loaded.2 = true) : updateServerStatus sv t =
      poll t.state (afterReload sv t m).bucketSize 0 noState (afterReload sv t m) := by
  simp only [updateServerStatus, hstat, afterReload_exited hrun hload, Bool.false_eq_true, if_false]

/-! ## §3. The statements produce it. -/

theorem push_runs (t : TickWorld) (ok : Bool) (ws : List WorkerInfo) : ∀ sv : Server S,
    Reach (tickStep t) anyStep (sv, .push ws ok)
      ({ sv with workerInfoVec := sv.workerInfoVec ++ ws }, .push [] ok) := by
  induction ws with
  | nil =>
    intro sv
    rw [append_nil]
    exact Reach.start
  | cons w ws ih =>
    intro sv
    have hrest := ih { sv with workerInfoVec := sv.workerInfoVec ++ [w] }
    rw [append_assoc, singleton_append] at hrest
    exact Reach.head (l := ()) trivial rfl hrest

theorem poll_runs (t : TickWorld) (n : ℕ) : ∀ (i : ℕ) (least : ℤ) (sv : Server S), sv.bucketSize = i + n →
    Reach (tickStep t) anyStep (sv, .poll i least) (poll t.state n i least sv, .done) := by
  induction n with
  | zero =>
    intro i least sv hn
    refine Reach.head (l := ()) trivial ?_ Reach.start
    simp only [tickStep, WatchPc.exec]
    rw [if_neg (by omega)]
    rfl
  | succ n ih =>
    intro i least sv hn
    cases hs : t.state i with
    | none =>
      refine Reach.head (l := ()) trivial ?_ Reach.start
      simp only [tickStep, WatchPc.exec, TickWorld.outcome, hs]
      rw [if_pos (by omega)]
      simp [poll, hs]
    | some v =>
      refine Reach.head (l := ()) trivial ?_ (ih (i + 1) (if v < least then v else least)
        { sv with workerInfoVec := sv.workerInfoVec.modify i (fun w => { w with state := v }) }
        (by show sv.bucketSize = _; omega) |> fun h => by simpa [poll, hs] using h)
      simp only [tickStep, WatchPc.exec, TickWorld.outcome, hs]
      rw [if_pos (by omega)]
      rfl

/-- **The statements of a tick end in `updateServerStatus`.** -/
theorem updateServerStatus_runs (sv : Server S) (t : TickWorld) (hrun : sv.exited = false) :
    Reach (tickStep t) anyStep (sv, .stat) (updateServerStatus sv t, .done) := by
  unfold updateServerStatus
  cases hm : t.mtime with
  | none =>
    refine Reach.head (l := ()) trivial ?_ Reach.start
    simp [tickStep, WatchPc.exec, TickWorld.outcome, hm]
  | some m =>
    by_cases hnew : m > sv.watchdog_mtime
    · have hstat : tickStep t (sv, .stat) () = some ({ sv with watchdog_mtime := m }, .zero) := by
        simp [tickStep, WatchPc.exec, TickWorld.outcome, hm, hnew]
      refine Reach.head (l := ()) trivial hstat (Reach.head (l := ()) trivial rfl
        (Reach.head (l := ()) trivial rfl (Reach.head (l := ()) trivial rfl ?_)))
      refine Reach.trans (push_runs t _ _ _) ?_
      simp only [afterReload, if_pos hnew, reload, nil_append]
      show Reach _ _ (_, WatchPc.push [] t.loaded.2) _
      cases hok : t.loaded.2 with
      | false =>
        -- `exit(0)`
        exact Reach.head (l := ()) trivial rfl Reach.start
      | true =>
        refine Reach.head (l := ()) trivial rfl (Reach.head (l := ()) trivial rfl ?_)
        have hpoll := poll_runs t t.loaded.1.length 0 noState
          ({ sv with watchdog_mtime := m, bucketSize := t.loaded.1.length,
                     workerInfoVec := t.loaded.1 } : Server S) (Nat.zero_add _).symm
        rw [hrun] at hpoll
        simp only [if_true, hrun, Bool.false_eq_true, if_false]
        exact hpoll
    · have hstat : tickStep t (sv, .stat) () = some (sv, .poll 0 noState) := by
        simp [tickStep, WatchPc.exec, TickWorld.outcome, hm, hnew, noState]
      refine Reach.head (l := ()) trivial hstat ?_
      simp only [afterReload, if_neg hnew, hrun, Bool.false_eq_true, if_false]
      exact poll_runs t sv.bucketSize 0 noState sv (by omega)

/-! ## §4. On the way: `bucketSize` never exceeds the table. -/

/-- The number covers the table, and is 0 while the table is cleared. -/
def TickCovers (p : Server S × WatchPc) : Prop :=
  TableCovers p.1 ∧ (p.2 = .clear → p.1.bucketSize = 0)

theorem tickCovers_step {p p' : Server S × WatchPc} {l : Unit} (hp : TickCovers p)
    (h : tickStep t p l = some p') : TickCovers p' := by
  obtain ⟨sv, pc⟩ := p
  obtain ⟨sv', pc'⟩ := p'
  obtain ⟨hcov, hclear⟩ := hp
  have h : pc.exec sv (t.outcome pc) = some (sv', pc') := h
  obtain ⟨hsize, hlen⟩ := watchdog_table h
  unfold TickCovers TableCovers at *
  simp only at hcov hclear ⊢
  constructor
  · cases hst : (Actor.watchdog (S := S) pc).stores sv with
    | some n =>
      -- what is stored is 0 or the length of the vector
      have hle := stores_le hst
      have hne : pc ≠ .clear := by
        rintro rfl
        simp [Actor.stores] at hst
      have hgrow := hlen hne
      rw [hst, getD_some] at hsize
      omega
    | none =>
      rw [hst, getD_none] at hsize
      by_cases hc : pc = .clear
      · rw [hsize, hclear hc]
        exact Nat.zero_le _
      · have hgrow := hlen hc
        omega
  · -- only `bucketSize=0` leads to the `clear()`
    rintro rfl
    cases pc with
    | zero =>
      rw [hsize]
      simp [Actor.stores]
    | stat =>
      simp only [WatchPc.exec] at h
      (repeat' split at h) <;> cases h
    | push rest ok =>
      cases rest <;> cases ok <;> simp only [WatchPc.exec] at h <;> cases h
    | poll i state =>
      simp only [WatchPc.exec] at h
      (repeat' split at h) <;> cases h
    | _ =>
      cases h

/-! ## §5. What the fold computes. -/

section Fold

variable {state : ℕ → Option ℤ}

theorem poll_bucketSize (state : ℕ → Option ℤ) (n : ℕ) : ∀ (i : ℕ) (least : ℤ) (sv : Server S),
    (poll state n i least sv).bucketSize = sv.bucketSize := by
  induction n with
  | zero =>
    intro i least sv
    rfl
  | succ n ih =>
    intro i least sv
    cases hs : state i with
    | none => simp [poll, hs]
    | some v => simp only [poll, hs, ih]

theorem poll_length (n : ℕ) : ∀ (i : ℕ) (least : ℤ) (sv : Server S),
    (poll state n i least sv).workerInfoVec.length = sv.workerInfoVec.length := by
  induction n with
  | zero =>
    intro i least sv
    rfl
  | succ n ih =>
    intro i least sv
    cases hs : state i with
    | none => simp [poll, hs]
    | some v => simp only [poll, hs, ih, length_modify]

theorem strings_modify (vec : List WorkerInfo) (i : ℕ) (v : ℤ) :
    (vec.modify i (fun w => { w with state := v })).map WorkerInfo.strings =
      vec.map WorkerInfo.strings := by
  apply List.ext_getElem?
  intro j
  simp only [List.getElem?_map, List.getElem?_modify, Option.map_eq_map, Option.map_map]
  congr 1
  funext w
  show WorkerInfo.strings (if i = j then _ else w) = _
  split <;> rfl

/-- **The frame of the fold**: it touches the states only. -/
theorem poll_frame (state : ℕ → Option ℤ) (n : ℕ) : ∀ (i : ℕ) (least : ℤ) (sv : Server S),
    (poll state n i least sv).exited = sv.exited ∧
    (poll state n i least sv).watchdog_mtime = sv.watchdog_mtime ∧
    (poll state n i least sv).workerInfoVec.map WorkerInfo.strings =
      sv.workerInfoVec.map WorkerInfo.strings := by
  induction n with
  | zero =>
    intro i least sv
    exact ⟨rfl, rfl, rfl⟩
  | succ n ih =>
    intro i least sv
    cases hs : state i with
    | none => simp [poll, hs]
    | some v =>
      obtain ⟨hex, hmt, hstr⟩ := ih (i + 1) (if v < least then v else least)
        { sv with workerInfoVec := sv.workerInfoVec.modify i (fun w => { w with state := v }) }
      simp only [poll, hs, hex, hmt, hstr, strings_modify, and_self]

/-- A worker that does not answer decides. -/
theorem poll_unreachable (n : ℕ) : ∀ (i : ℕ) (least : ℤ) (sv : Server S), (∃ k < n, state (i + k) = none) →
    (poll state n i least sv).serverstate = PIR_STATE_ERROR := by
  induction n with
  | zero =>
    intro i least sv h
    obtain ⟨k, hk, _⟩ := h
    omega
  | succ n ih =>
    intro i least sv h
    cases hs : state i with
    | none => simp only [poll, hs]
    | some v =>
      simp only [poll, hs]
      apply ih
      obtain ⟨k, hk, hnone⟩ := h
      -- it is not this one, so it is further on
      cases k with
      | zero => rw [Nat.add_zero, hs] at hnone; exact absurd hnone (by simp)
      | succ k => exact ⟨k, by omega, by rw [show i + 1 + k = i + (k + 1) by omega]; exact hnone⟩

/-- The least of the answers and of what came before them. -/
def leastOf (state : ℕ → Option ℤ) : ℕ → ℕ → ℤ → ℤ
  | 0, _, least => least
  | n + 1, i, least => leastOf state n (i + 1) (min least ((state i).getD least))

/-- If all answer, the fold publishes the least state. -/
theorem poll_answered (n : ℕ) : ∀ (i : ℕ) (least : ℤ) (sv : Server S), (∀ k < n, state (i + k) ≠ none) →
    (poll state n i least sv).serverstate =
      if leastOf state n i least = noState then PIR_STATE_ERROR
      else BitVec.ofInt 8 (leastOf state n i least) := by
  induction n with
  | zero =>
    intro i least sv _
    rfl
  | succ n ih =>
    intro i least sv h
    cases hs : state i with
    | none => exact absurd hs (h 0 (by omega))
    | some v =>
      have hmin : (if v < least then v else least) = min least v := by
        rw [min_def]
        split <;> split <;> omega
      simp only [poll, hs, leastOf, getD_some, hmin]
      apply ih
      intro k hk
      rw [show i + 1 + k = i + (k + 1) by omega]
      exact h (k + 1) (by omega)

/-- `leastOf` is below everything it looked at, and one of these. -/
theorem leastOf_spec (n : ℕ) : ∀ (i : ℕ) (least : ℤ), (∀ k < n, state (i + k) ≠ none) →
    leastOf state n i least ≤ least ∧
    (∀ k < n, ∀ v, state (i + k) = some v → leastOf state n i least ≤ v) ∧
    (leastOf state n i least = least ∨ ∃ k < n, state (i + k) = some (leastOf state n i least)) := by
  induction n with
  | zero =>
    intro i least _
    exact ⟨le_rfl, fun k hk => absurd hk (by omega), Or.inl rfl⟩
  | succ n ih =>
    intro i least h
    obtain ⟨v, hv⟩ := ne_none_iff_exists'.mp (h 0 (by omega))
    rw [Nat.add_zero] at hv
    have hshift : ∀ k, i + 1 + k = i + (k + 1) := fun k => by omega
    obtain ⟨hle, hall, hone⟩ := ih (i + 1) (min least v) (fun k hk => by
      rw [hshift]
      exact h (k + 1) (by omega))
    simp only [leastOf, hv, getD_some]
    refine ⟨hle.trans (min_le_left _ _), ?_, ?_⟩
    · intro k hk u hu
      cases k with
      | zero =>
        rw [Nat.add_zero, hv, Option.some.injEq] at hu
        subst hu
        exact hle.trans (min_le_right _ _)
      | succ k => exact hall k (by omega) u (by rw [hshift]; exact hu)
    · rcases hone with heq | ⟨k, hk, hst⟩
      · rcases min_choice least v with hm | hm
        · exact Or.inl (heq.trans hm)
        · exact Or.inr ⟨0, by omega, by rw [Nat.add_zero, hv, heq, hm]⟩
      · exact Or.inr ⟨k + 1, by omega, by rw [← hshift]; exact hst⟩

/-- **The published state of a table that answers**, for answers an 8-bit
    field can hold: the least of them. -/
theorem poll_least {n : ℕ} (sv : Server S) (hpos : 0 < n) (hall : ∀ k < n, state k ≠ none)
    (hbyte : ∀ k v, state k = some v → 0 ≤ v ∧ v ≤ 255) :
    (∃ k < n, state k = some ((poll state n 0 noState sv).serverstate.toNat : ℤ)) ∧
      ∀ k < n, ∀ v, state k = some v → ((poll state n 0 noState sv).serverstate.toNat : ℤ) ≤ v := by
  have hall' : ∀ k < n, state (0 + k) ≠ none := fun k hk => by rw [Nat.zero_add]; exact hall k hk
  obtain ⟨_, hle, hone⟩ := leastOf_spec n 0 noState hall'
  have hfirst : leastOf state n 0 noState ≤ 255 := by
    obtain ⟨v, hv⟩ := ne_none_iff_exists'.mp (hall 0 hpos)
    have := hle 0 hpos v (by rw [Nat.add_zero]; exact hv)
    have := (hbyte 0 v hv).2
    omega
  have hne : leastOf state n 0 noState ≠ noState := by
    unfold noState at hfirst ⊢
    omega
  obtain ⟨k, hk, hst⟩ := hone.resolve_left hne
  rw [Nat.zero_add] at hst
  have hnonneg := (hbyte k _ hst).1
  -- eight bits are enough for it
  have hval : ((poll state n 0 noState sv).serverstate.toNat : ℤ) = leastOf state n 0 noState := by
    rw [poll_answered n 0 noState sv hall', if_neg hne, BitVec.toNat_ofInt]
    omega
  rw [hval]
  refine ⟨⟨k, hk, hst⟩, fun j hj v hv => hle j hj v (by rw [Nat.zero_add]; exact hv)⟩

end Fold

/-! ## §6. Main result. -/

/-- What a tick against the world `t` has to publish: the workers of the table
    are those counted by `bucketSize`. -/
structure Aggregated (t : TickWorld) (sv : Server S) : Prop where
  error : (sv.bucketSize = 0 ∨ ∃ i < sv.bucketSize, t.state i = none) →
    sv.serverstate = PIR_STATE_ERROR
  least : 0 < sv.bucketSize → (∀ i < sv.bucketSize, t.state i ≠ none) →
    (∃ i < sv.bucketSize, t.state i = some (sv.serverstate.toNat : ℤ)) ∧
      ∀ i < sv.bucketSize, ∀ v, t.state i = some v → (sv.serverstate.toNat : ℤ) ≤ v
  ready : sv.serverstate = PIR_STATE_READY → 0 < sv.bucketSize ∧
    ∀ i < sv.bucketSize, ∃ v, t.state i = some v ∧ (PIR_STATE_READY.toNat : ℤ) ≤ v

theorem poll_aggregated (t : TickWorld) (sv : Server S)
    (hbyte : ∀ i v, t.state i = some v → 0 ≤ v ∧ v ≤ 255) :
    Aggregated t (poll t.state sv.bucketSize 0 noState sv) := by
  have hsize := poll_bucketSize t.state sv.bucketSize 0 noState sv
  have herror : (sv.bucketSize = 0 ∨ ∃ i < sv.bucketSize, t.state i = none) →
      (poll t.state sv.bucketSize 0 noState sv).serverstate = PIR_STATE_ERROR := by
    rintro (hzero | ⟨i, hi, hnone⟩)
    · -- nobody was asked: the sentinel is still there
      rw [hzero]
      rfl
    · exact poll_unreachable _ 0 noState sv ⟨i, hi, by rw [Nat.zero_add]; exact hnone⟩
  constructor
  · rw [hsize]
    exact herror
  · rw [hsize]
    intro hpos hall
    exact poll_least sv hpos hall hbyte
  · rw [hsize]
    intro hready
    have hnot : ¬ (sv.bucketSize = 0 ∨ ∃ i < sv.bucketSize, t.state i = none) := by
      intro hbad
      rw [herror hbad] at hready
      exact absurd hready (by decide)
    rw [not_or, not_exists] at hnot
    have hpos : 0 < sv.bucketSize := Nat.pos_of_ne_zero hnot.1
    have hall : ∀ i < sv.bucketSize, t.state i ≠ none := fun i hi hnone => hnot.2 i ⟨hi, hnone⟩
    refine ⟨hpos, fun i hi => ?_⟩
    obtain ⟨v, hv⟩ := ne_none_iff_exists'.mp (hall i hi)
    have hle := (poll_least sv hpos hall hbyte).2 i hi v hv
    rw [hready] at hle
    exact ⟨v, hv, hle⟩

/-- **WHAT A TICK PUBLISHES.**  The file is there and, if it has to be read
    again, can be read; the answers fit the 8-bit field.  Then the statements
    of the tick, one after the other, end in a server whose state aggregates
    the answers, over the whole table if the number counted it (or the file
    was read again), and after every one of them `bucketSize` is at most the
    size of the table. -/
theorem status_aggregated (sv : Server S) (t : TickWorld) (m : ℤ) (hrun : sv.exited = false)
    (hstat : t.mtime = some m) (hload : m > sv.watchdog_mtime → t.loaded.2 = true)
    (hcover : sv.bucketSize ≤ sv.workerInfoVec.length)
    (hbyte : ∀ i v, t.state i = some v → 0 ≤ v ∧ v ≤ 255) :
    Reach (tickStep t) anyStep (sv, .stat) (updateServerStatus sv t, .done) ∧
    Aggregated t (updateServerStatus sv t) ∧
    (m > sv.watchdog_mtime ∨ sv.bucketSize = sv.workerInfoVec.length →
      (updateServerStatus sv t).bucketSize = (updateServerStatus sv t).workerInfoVec.length) ∧
    ∀ p, Reach (tickStep t) anyStep (sv, .stat) p → p.1.bucketSize ≤ p.1.workerInfoVec.length := by
  have heq := updateServerStatus_eq hrun hstat hload
  refine ⟨updateServerStatus_runs sv t hrun, ?_, ?_, ?_⟩
  · rw [heq]
    exact poll_aggregated t _ hbyte
  · intro hwhole
    rw [heq, poll_bucketSize, poll_length]
    unfold afterReload
    split
    · next hnew => simp only [reload, hload hnew, if_true]
    · next hold => exact hwhole.resolve_left hold
  · intro p hp
    have hstart : TickCovers (sv, WatchPc.stat) := ⟨hcover, by simp⟩
    have hinv := Reach.invariant TickCovers hstart (fun _ _ _ h _ hs => tickCovers_step h hs) hp
    exact hinv.1

/-- The master of the concrete runs: two workers, both READY when last
    asked. -/
def twoWorkers : Server ℕ :=
  Server.boot PIR_STATE_READY
    [ { workspace := ['w'], tpldir := ['t'], method := ['m'], option := ['o'], state := 6 },
      { workspace := ['x'], tpldir := ['t'], method := ['n'], option := ['o'], state := 6 } ]
    oneObject

/-- Nothing new in the file, the first worker READY, the second TRAINED. -/
def oneTrained : TickWorld :=
  { mtime := some 0, file := none, state := fun i => if i = 0 then some 6 else some 4 }

theorem status_aggregated_trained :
    (updateServerStatus twoWorkers oneTrained).serverstate = 4#8 ∧
      Aggregated oneTrained (updateServerStatus twoWorkers oneTrained) :=
  ⟨by decide, (status_aggregated twoWorkers oneTrained 0 rfl rfl (by decide) (by decide) (by
    intro i v hv
    unfold oneTrained at hv
    simp only at hv
    split at hv <;> cases hv <;> decide)).2.1⟩

end KalavaPir.Master
