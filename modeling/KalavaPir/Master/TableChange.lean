/-
  KalavaPir.Master.TableChange — searches while the worker table changes.

  `ns_imSearch` sizes its arrays by one read of `server.bucketSize` and runs
  its loops by others, and `ns_serviceInit` and the watchdog store into
  `bucketSize` and `workerInfoVec` whenever they like.  A store in the middle
  of a search makes the loops run past the arrays, or leaves threads unjoined
  whose arrays are then freed under them.
-/
import KalavaPir.Master.Service

namespace KalavaPir.Master

open KalavaPir.Common
open KalavaPir.Framework

variable {S : Type}

/-! ## §1. Safety of a search. -/

/-- The index the next statement uses is inside the array it uses it on. -/
def Search.InArrays (s : Search S) : Prop :=
  match s.pc with
  | .setInfo _ i => i < s.infoSize
  | .createThread _ i => i < s.infoSize ∧ i < s.tidSize
  | .join _ i => i < s.tidSize
  | _ => True

/-- The thread's next statement looks its worker up. -/
def Child.looksUp (c : Child S) : Bool :=
  c.kind == .search && (c.pc == .call || c.pc == .report || c.pc == .logFound)

/-- What keeps the indices of a search inside. -/
structure Search.Safe (sv : Server S) (s : Search S) : Prop where
  arrays : s.InArrays
  /-- `search_info[slot]` and then `workerInfoVec[search_info[slot].index]` -/
  lookups : ∀ c ∈ s.children, c.looksUp = true →
    c.slot < s.infoSize ∧ s.info c.slot < sv.workerInfoVec.length
  joins : s.pc.freed = true → ∀ j < s.children.length, s.joined.count j = 1

/-- Every search is safe. -/
def SearchesSafe (c : Conf (Server S) (Actor S)) : Prop :=
  ∀ s, .search s ∈ c.pool → s.Safe c.shared

/-! ## §2. The condition. -/

/-- The value the next statement stores into `bucketSize`, if it stores one. -/
def Actor.stores (sv : Server S) : Actor S → Option ℕ
  | .init u => if u.pc = .setSize then some sv.workerInfoVec.length else none
  | .watchdog pc =>
    if pc = .zero then some 0
    else if pc = .setSize then some sv.workerInfoVec.length else none
  | .search _ => none

/-- The next statement clears the vector. -/
def Actor.clears : Actor S → Bool
  | .watchdog pc => pc == .clear
  | _ => false

/-- A search between its first and its last read of `bucketSize`. -/
def Actor.reading : Actor S → Bool
  | .search s => s.pc.active
  | _ => false

/-- **The condition**: `bucketSize` does not change while a search is reading
    it, and the vector is only cleared while `bucketSize` is 0. -/
def Undisturbed (c : Conf (Server S) (Actor S)) : Move Request Outcome → Prop
  | .arrive _ => True
  | .run i _ => ∀ a ∈ c.pool[i]?,
      (∀ n ∈ a.stores c.shared, n ≠ c.shared.bucketSize → ∀ b ∈ c.pool, b.reading = false) ∧
      (a.clears = true → c.shared.bucketSize = 0)

instance (c : Conf (Server S) (Actor S)) (m : Move Request Outcome) :
    Decidable (Undisturbed c m) :=
  match m with
  | .arrive _ => inferInstanceAs (Decidable True)
  | .run i _ => inferInstanceAs (Decidable (∀ a ∈ c.pool[i]?,
      (∀ n ∈ a.stores c.shared, n ≠ c.shared.bucketSize → ∀ b ∈ c.pool, b.reading = false) ∧
      (a.clears = true → c.shared.bucketSize = 0)))

/-! ## §3. What a statement does to the table. -/

variable {sv sv' : Server S}

theorem serviceInit_table {u u' : ServiceInit} {o : Outcome} (h : u.exec sv o = some (sv', u')) :
    sv'.bucketSize = ((Actor.init (S := S) u).stores sv).getD sv.bucketSize ∧
      sv.workerInfoVec.length ≤ sv'.workerInfoVec.length := by
  cases hpc : u.pc with
  | push rest =>
    cases rest <;> simp only [ServiceInit.exec, hpc] at h <;> cases h <;>
      simp [Actor.stores, hpc]
  | call i =>
    simp only [ServiceInit.exec, hpc] at h
    (repeat' split at h) <;> cases h <;> simp [Actor.stores, hpc]
  | parse =>
    simp only [ServiceInit.exec, hpc] at h
    split at h <;> cases h <;> simp [Actor.stores, hpc]
  | done => simp [ServiceInit.exec, hpc] at h
  | _ =>
    simp only [ServiceInit.exec, hpc] at h
    cases h
    simp [Actor.stores, hpc]

theorem watchdog_table {pc pc' : WatchPc} {o : Outcome} (h : pc.exec sv o = some (sv', pc')) :
    sv'.bucketSize = ((Actor.watchdog (S := S) pc).stores sv).getD sv.bucketSize ∧
      (pc ≠ .clear → sv.workerInfoVec.length ≤ sv'.workerInfoVec.length) := by
  cases pc with
  | stat =>
    simp only [WatchPc.exec] at h
    split at h
    · cases h
      simp [Actor.stores]
    · split at h <;> cases h <;> simp [Actor.stores]
  | push rest ok =>
    cases rest with
    | nil => cases ok <;> simp only [WatchPc.exec] at h <;> cases h <;> simp [Actor.stores]
    | cons w ws =>
      cases h
      simp [Actor.stores]
  | poll i state =>
    simp only [WatchPc.exec] at h
    split at h
    · split at h <;> cases h <;> simp [Actor.stores]
    · cases h
      simp [Actor.stores]
  | done => simp [WatchPc.exec] at h
  | _ =>
    cases h
    simp [Actor.stores]

section Steps

variable {env : Env S} {sv sv' : Server S} {a a' : Actor S} {o : Outcome}

/-- **What a statement does to the table**: it stores what it is about to
    store, and only a `clear()` makes the vector shorter. -/
theorem exec_table [LinearOrder S] (h : a.exec env sv o = some (sv', a')) :
    sv'.bucketSize = (a.stores sv).getD sv.bucketSize ∧
      (a.clears = false → sv.workerInfoVec.length ≤ sv'.workerInfoVec.length) := by
  cases actor_inv h with
  | main hmain =>
    obtain ⟨hb, hv, _⟩ := main_table hmain
    exact ⟨hb, fun _ => le_of_eq (by rw [hv])⟩
  | child j hchild => exact ⟨rfl, fun _ => le_rfl⟩
  | init hx =>
    obtain ⟨hb, hv⟩ := serviceInit_table hx
    exact ⟨hb, fun _ => hv⟩
  | watchdog hx =>
    obtain ⟨hb, hv⟩ := watchdog_table hx
    exact ⟨hb, fun hc => hv (by simpa [Actor.clears] using hc)⟩

/-- What is stored never exceeds the length of the vector. -/
theorem stores_le {n : ℕ} (h : a.stores sv = some n) : n ≤ sv.workerInfoVec.length := by
  unfold Actor.stores at h
  cases a <;> simp only at h
  case search => cases h
  case init u =>
    split at h <;> cases h
    exact le_rfl
  case watchdog pc =>
    split at h
    · cases h
      exact Nat.zero_le _
    · split at h <;> cases h
      exact le_rfl

theorem not_clears_of_stores {n : ℕ} (h : a.stores sv = some n) : a.clears = false := by
  cases a with
  | search s => rfl
  | init u => rfl
  | watchdog pc => cases pc <;> simp_all [Actor.stores, Actor.clears]

/-! ## §4. The invariant. -/

/-- The local assertion: a search has its shape. -/
def ActorShape (env : Env S) (sv : Server S) (_ : ℕ) : Actor S → Prop
  | .search s => Shape env sv s
  | _ => True

/-- The global assertion: the number never exceeds the vector. -/
def TableCovers (sv : Server S) : Prop := sv.bucketSize ≤ sv.workerInfoVec.length

theorem actorShape_exec [LinearOrder S] {i : ℕ} (h : ActorShape env sv i a)
    (hx : a.exec env sv o = some (sv', a')) : ActorShape env sv' i a' := by
  cases actor_inv hx with
  | main hmain => exact Shape.main h hmain
  | child j hchild => exact Shape.child h hchild
  | init _ => trivial
  | watchdog _ => trivial

/-- Nobody changes the number under a reading search. -/
theorem actorShape_other [LinearOrder S] {i : ℕ} {b : Actor S} (h : ActorShape env sv i b)
    (hx : a.exec env sv o = some (sv', a'))
    (hquiet : ∀ n ∈ a.stores sv, n ≠ sv.bucketSize → b.reading = false) : ActorShape env sv' i b := by
  cases b with
  | init u => trivial
  | watchdog pc => trivial
  | search s =>
    refine Shape.congr h fun hactive => ?_
    rw [(exec_table hx).1]
    cases hst : a.stores sv with
    | none => rfl
    | some n =>
      -- storing the number that is already there does no harm
      show n = sv.bucketSize
      by_contra hne
      have hfalse := hquiet n hst hne
      simp [Actor.reading, hactive] at hfalse

theorem tableCovers_exec [LinearOrder S] (hG : TableCovers sv) (hx : a.exec env sv o = some (sv', a'))
    (hclear : a.clears = true → sv.bucketSize = 0) : TableCovers sv' := by
  obtain ⟨hb, hv⟩ := exec_table hx
  unfold TableCovers at *
  cases hst : a.stores sv with
  | some n =>
    have hle := stores_le hst
    have hlen := hv (not_clears_of_stores hst)
    rw [hst] at hb
    simp only [Option.getD_some] at hb
    omega
  | none =>
    rw [hst] at hb
    simp only [Option.getD_none] at hb
    cases hcl : a.clears with
    | true =>
      -- the vector may be anything below a number that is 0
      have := hclear hcl
      omega
    | false =>
      have := hv hcl
      omega

/-- **One step of the master.** -/
theorem annotated_step [LinearOrder S] {c c' : Conf (Server S) (Actor S)} {m : Move Request Outcome}
    (hc : Annotated TableCovers (ActorShape env) c) (hok : Undisturbed c m)
    (hstep : step env c m = some c') : Annotated TableCovers (ActorShape env) c' := by
  refine Annotated.step (machine env) Undisturbed ?_ ?_ ?_ hc hok hstep
  · intro c i o a sv' a' new hc hok ha hx
    obtain ⟨_, hexec, rfl⟩ := machine_exec hx
    refine ⟨tableCovers_exec hc.global hexec (hok a ha).2,
      actorShape_exec (hc.local_ i a ha) hexec, by simp⟩
  · intro c i o a sv' a' new hc hok ha hx j b _ hb
    obtain ⟨_, hexec, rfl⟩ := machine_exec hx
    exact actorShape_other (hc.local_ j b hb) hexec
      (fun n hn hne => (hok a ha).1 n hn hne b (List.mem_of_getElem? hb))
  · intro c r j _
    cases r with
    | imSearch imgPath => exact Shape.start env c.shared imgPath
    | serviceInit _ _ _ _ => trivial
    | tick => trivial

theorem annotated_boot (state : BitVec 8) (vec : List WorkerInfo) (pool : QQueue (SearchObj S)) :
    Annotated TableCovers (ActorShape env) (boot state vec pool) :=
  ⟨le_rfl, fun i a ha => by simp [boot] at ha⟩

/-! ## §5. Shape and table together are safety. -/

/-- **Safety of one search.** -/
theorem Shape.safe {s : Search S} (h : Shape env sv s) (hG : TableCovers sv) : s.Safe sv := by
  have hw := h.within
  constructor
  · unfold Search.InArrays
    cases hpc : s.pc with
    | setInfo k i =>
      have hi := h.infos (by rw [hpc]; rfl)
      have ht := h.table (by rw [hpc]; rfl)
      rw [hpc] at hw
      have hlt := hw.index_lt
      simp only [Search.workers] at hlt
      show i < s.infoSize
      omega
    | createThread k i =>
      have hi := h.infos (by rw [hpc]; rfl)
      have ht := h.table (by rw [hpc]; rfl)
      rw [hpc] at hw
      have hlt := SearchPc.Within.index_lt (k := k) (by cases k <;> exact hw)
      simp only [Search.workers] at hlt
      exact ⟨by omega, by omega⟩
    | join k i =>
      have ht := h.table (by rw [hpc]; rfl)
      rw [hpc] at hw
      have hlt := SearchPc.Within.index_lt (k := k) (by cases k <;> exact hw)
      simp only [Search.workers] at hlt
      show i < s.tidSize
      omega
    | _ => trivial
  · intro c hc hlook
    obtain ⟨j, hj, rfl⟩ := List.getElem_of_mem hc
    have hget := List.getElem?_eq_getElem hj
    simp only [Child.looksUp, Bool.and_eq_true, Bool.or_eq_true, beq_iff_eq] at hlook
    obtain ⟨hkind, hpc⟩ := hlook
    obtain ⟨hslot, hk, _, hinfo⟩ := h.slots j _ hget
    have hlive : s.children[j].pc ≠ .finished := by
      rcases hpc with (hpc | hpc) | hpc <;> simp [hpc]
    -- a live thread has not been joined, so the arrays are still there
    obtain ⟨hin, hlt⟩ := h.live_child hget hlive
    have hact : s.pc.active = true := SearchPc.active_of_inArrays hin
    have htab := h.table hact
    have hsearch : j < s.workers := by
      by_contra hge
      rw [hk] at hkind
      simp [kindOf, hge] at hkind
    rw [hslot, hinfo, h.infos hin]
    -- cut down to eight bits the index only gets smaller
    unfold TableCovers at hG
    simp only [Search.workers] at hsearch
    exact ⟨hlt, by omega⟩
  · intro hfreed j hj
    have hcount : s.pc.joinedCount s.workers env.ocr_enabled =
        SearchPc.total s.workers env.ocr_enabled := by
      cases hpc : s.pc <;> simp_all [SearchPc.freed, SearchPc.joinedCount]
    rw [(h.finished hfreed).1, ← hcount] at hj
    rw [h.joined]
    exact List.count_eq_one_of_mem List.nodup_range (List.mem_range.mpr hj)

end Steps

/-! ## §6. Main results. -/

/-- **SEARCHES STAY IN BOUNDS WHILE THE TABLE STANDS STILL UNDER THEM.** -/
theorem search_in_bounds [LinearOrder S] (env : Env S) (state : BitVec 8) (vec : List WorkerInfo)
    (pool : QQueue (SearchObj S)) (c : Conf (Server S) (Actor S))
    (hc : Reach (step env) Undisturbed (boot state vec pool) c) : SearchesSafe c := by
  have hinv := Reach.invariant (Annotated TableCovers (ActorShape env))
    (annotated_boot state vec pool) (fun _ _ _ h hok hs => annotated_step h hok hs) hc
  intro s hs
  obtain ⟨i, hi, heq⟩ := List.getElem_of_mem hs
  have hshape : ActorShape env c.shared i (.search s) :=
    hinv.local_ i (.search s) (by rw [List.getElem?_eq_getElem hi, heq])
  exact Shape.safe hshape hinv.global

/-- A master whose workers do not answer, for concrete runs. -/
def silentEnv : Env ℕ :=
  { ranking := .DescendingSort, query_num := 10#32, ocr_enabled := false, net := fun _ _ => none,
    sort := StdSort.merge _ }

/-- A pool of one search object. -/
def oneObject : QQueue (SearchObj ℕ) :=
  QQueue.single { image_path := [], search_res := [], ocr := [] }

/-- `n` statements of actor `i`; `n` statements of thread `j` of search `i`. -/
def runs (i n : ℕ) (tag : ℤ) : List (Move Request Outcome) :=
  List.replicate n (.run i { tag := tag })
/-- A thread runs `n` steps. -/
def threadRuns (i j n : ℕ) : List (Move Request Outcome) :=
  List.replicate n (.run i { thread := some j })

/-- The search stands before its `q_delete_array` with one thread joined. -/
def Actor.aboutToFree : Actor ℕ → Bool
  | .search s => s.pc == .free && s.children.length == 1
  | _ => false

/-- `serviceInit` installs one worker, a watchdog tick makes the master READY,
    and a search runs through its loops: nobody disturbs anybody. -/
theorem search_in_bounds_sequential :
    ∃ c, Reach (step silentEnv) Undisturbed (boot PIR_STATE_INITED [] oneObject) c ∧
      c.pool.any Actor.aboutToFree = true ∧ SearchesSafe c := by
  obtain ⟨c, hreach, hfree⟩ := exists_reach_of_guardedExec (step silentEnv) Undisturbed
    (boot PIR_STATE_INITED [] oneObject)
    (.arrive (.serviceInit ['1', '|', 'w'] ['1', '|', 't'] ['1', '|', 'm'] ['1', '|', 'o']) ::
      runs 0 9 1 ++ .arrive .tick :: runs 1 3 6 ++ .arrive (.imSearch ['x']) :: runs 2 11 1 ++
      threadRuns 2 0 2 ++ runs 2 3 1)
    (fun c => c.pool.any Actor.aboutToFree) (by decide)
  exact ⟨c, hreach, hfree, search_in_bounds silentEnv _ _ _ c hreach⟩

/-- One worker. -/
def oneWorkerTable : List WorkerInfo :=
  [{ workspace := ['w'], tpldir := ['t'], method := ['m'], option := ['o'], state := 0 }]

/-- A search over one worker allocates its arrays (two cells each); a
    `serviceInit` request appends two workers and stores 3; the search creates
    two threads and fills cell 2. -/
def initDuringSearch : List (Move Request Outcome) :=
  .arrive (.imSearch ['x']) :: runs 0 3 1 ++
    .arrive (.serviceInit ['2', '|', 'w', '|', 'w'] ['2', '|', 't', '|', 't']
      ['2', '|', 'm', '|', 'm'] ['2', '|', 'o', '|', 'o']) ::
    runs 1 6 1 ++ runs 0 9 1

/-- The next statement writes past `search_info`. -/
def Actor.overruns : Actor ℕ → Bool
  | .search s =>
    match s.pc with
    | .setInfo _ i => decide (s.infoSize ≤ i)
    | _ => false
  | _ => false

/-- A search is not safe from the table. -/
theorem search_out_of_bounds :
    ¬ ∀ (env : Env ℕ) (state : BitVec 8) (vec : List WorkerInfo) (pool : QQueue (SearchObj ℕ))
        (c : Conf (Server ℕ) (Actor ℕ)),
      Reach (step env) anyStep (boot state vec pool) c → SearchesSafe c := by
  intro hall
  obtain ⟨c, hreach, hbad⟩ := exists_reach_of_guardedExec (step silentEnv) anyStep
    (boot PIR_STATE_READY oneWorkerTable oneObject) initDuringSearch
    (fun c => c.pool.any Actor.overruns) (by decide)
  obtain ⟨a, ha, hover⟩ := List.any_eq_true.mp hbad
  cases a with
  | init u => simp [Actor.overruns] at hover
  | watchdog pc => simp [Actor.overruns] at hover
  | search s =>
    have hsafe := (hall silentEnv _ _ _ c hreach s ha).arrays
    unfold Search.InArrays at hsafe
    cases hpc : s.pc with
    | setInfo k i =>
      simp only [Actor.overruns, hpc, decide_eq_true_eq] at hover
      rw [hpc] at hsafe
      omega
    | _ => simp [Actor.overruns, hpc] at hover

end KalavaPir.Master
