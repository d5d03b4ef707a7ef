/-
  KalavaPir.Worker.ReadyInvariant — what PIR_STATE_READY promises.

  `ns_imSearch` searches whenever it reads READY, so READY has to mean that the
  library is loaded: `search_image_init()` has completed and no `clear()` has
  been executed since.  Each function on its own keeps that promise — every
  `clear()` is preceded by a state assignment that leaves READY, and READY is
  only stored after `search_image_init()` — but nothing keeps two of them from
  overlapping.

  The two overlaps that break it are the two clauses of `NoRace`:
    * a `clear()` while another thread has loaded the library and is about to
      store READY, and
    * a READY stored while another thread, past its own state assignment,
      still has its `clear()` ahead.
-/
import KalavaPir.Worker.Service

namespace KalavaPir.Worker

open KalavaPir.Framework List
open KalavaPir.Common

/-! ## §1. The library, as the observer sees it. -/

/-- `search_image_init()` has completed and no `clear()` came after it. -/
def Loaded (h : List Event) : Prop :=
  ∃ newer older, h = newer ++ .lib .search_image_init :: older ∧ .lib .clear ∉ newer

/-- `Loaded`, by looking for the newest of the two calls. -/
def loaded : List Event → Bool
  | [] => false
  | e :: h =>
    if e = .lib .search_image_init then true
    else if e = .lib .clear then false
    else loaded h

theorem loaded_iff (h : List Event) : loaded h = true ↔ Loaded h := by
  induction h with
  | nil => simp [loaded, Loaded]
  | cons e h ih =>
    unfold loaded
    by_cases hi : e = .lib .search_image_init
    · subst hi
      simp only [if_true, true_iff]
      exact ⟨[], h, rfl, by simp⟩
    by_cases hc : e = .lib .clear
    · subst hc
      simp only [reduceCtorEq, Event.lib.injEq, if_true, if_false, Bool.false_eq_true, false_iff]
      rintro ⟨newer, older, heq, hnot⟩
      cases newer with
      | nil => simp at heq
      | cons x xs =>
        simp only [cons_append, List.cons.injEq] at heq
        exact hnot (by rw [← heq.1]; exact mem_cons_self)
    simp only [hi, hc, if_false]
    rw [ih]
    constructor
    · rintro ⟨newer, older, heq, hnot⟩
      refine ⟨e :: newer, older, by rw [heq]; rfl, ?_⟩
      rw [mem_cons, not_or]
      exact ⟨fun h => hc h.symm, hnot⟩
    · rintro ⟨newer, older, heq, hnot⟩
      cases newer with
      | nil =>
        simp only [nil_append, List.cons.injEq] at heq
        exact absurd heq.1 hi
      | cons x xs =>
        simp only [cons_append, List.cons.injEq] at heq
        exact ⟨xs, older, heq.2, fun h => hnot (mem_cons_of_mem _ h)⟩

/-! ## §2. Looking ahead in the code. -/

/-- The action stores into `serverstate`. -/
def Action.writesState : Action → Bool
  | .setState _ => true
  | .orState _ => true
  | _ => false

/-- The thread executes a `clear()` before it next stores into
    `serverstate`. -/
def clearAhead : WCode → Bool := Code.reaches (· == .lib .clear) Action.writesState

/-- The thread stores READY before it next initialises or clears the library. -/
def readyAhead : WCode → Bool :=
  Code.reaches (· == .setState PIR_STATE_READY)
    (fun a => a == .lib .search_image_init || a == .lib .clear)

/-- **The condition.**  `clear()` is not executed while another thread is about
    to store READY, and READY is not stored while another thread is about to
    `clear()`. -/
def NoRace (c : Conf Server Thread) : Move Request Outcome → Prop
  | .arrive _ => True
  | .run i _ =>
    ∀ t ∈ c.pool[i]?,
      (t.next = some (.lib .clear) → c.Others i (fun u => readyAhead u.code = false)) ∧
      (t.next = some (.setState PIR_STATE_READY) →
        c.Others i (fun u => clearAhead u.code = false))

instance (c : Conf Server Thread) (m : Move Request Outcome) : Decidable (NoRace c m) :=
  match m with
  | .arrive _ => inferInstanceAs (Decidable True)
  | .run i _ => inferInstanceAs (Decidable (∀ t ∈ c.pool[i]?,
        (t.next = some (.lib .clear) → c.Others i (fun u => readyAhead u.code = false)) ∧
        (t.next = some (.setState PIR_STATE_READY) →
          c.Others i (fun u => clearAhead u.code = false))))

/-- What the programs themselves respect: no `clear()` follows a READY without
    another state assignment, no READY follows a `clear()` without a fresh
    initialisation, and only STARTING is ever or-ed in. -/
def disciplined : WCode → Bool :=
  Code.All fun
    | .act (.setState v) k => v != PIR_STATE_READY || !clearAhead k
    | .act (.orState v) _ => v == PIR_STATE_STARTING
    | .act (.lib .clear) k => !readyAhead k
    | _ => true

/-- Code that a thread may be started with. -/
def Clean (code : WCode) : Prop :=
  disciplined code = true ∧ clearAhead code = false ∧ readyAhead code = false

theorem request_clean (r : Request) : Clean r.code := by
  cases r <;> exact ⟨rfl, rfl, rfl⟩

theorem background_clean (b : Background) : Clean b.code := by
  cases b <;> exact ⟨rfl, rfl, rfl⟩

/-! ## §3. The invariant. -/

theorem or_starting_ne_ready (v : BitVec 8) : v ||| PIR_STATE_STARTING ≠ PIR_STATE_READY := by
  intro h
  have hbit := congrArg (fun w => w.getLsbD 0) h
  simp [PIR_STATE_STARTING, PIR_STATE_READY] at hbit

/-- The global assertion. -/
def ReadyLoaded (s : Server) : Prop :=
  s.serverstate = PIR_STATE_READY → loaded s.history = true

/-- The local assertion: a thread about to `clear()` has left READY behind, a
    thread about to store READY has the library loaded. -/
def ThreadReady (s : Server) (_ : ℕ) (t : Thread) : Prop :=
  disciplined t.code = true ∧
  (clearAhead t.code = true → s.serverstate ≠ PIR_STATE_READY) ∧
  (readyAhead t.code = true → loaded s.history = true)

variable {s : Server} {t : Thread} {a : Action}

variable {i : ℕ} {h : List Event}

theorem threadReady_of_clean (h : Clean t.code) : ThreadReady s i t :=
  ⟨h.1, fun hc => absurd hc (by simp [h.2.1]), fun hr => absurd hr (by simp [h.2.2])⟩

theorem loaded_historyAfter_eq (hc : a ≠ .lib .clear) (hi : a ≠ .lib .search_image_init) :
    loaded (a.historyAfter h) = loaded h := by
  cases a <;> simp_all [Action.historyAfter, loaded]

theorem loaded_historyAfter (hc : a ≠ .lib .clear) (hl : loaded h = true) :
    loaded (a.historyAfter h) = true := by
  by_cases hi : a = .lib .search_image_init
  · subst hi
    simp [Action.historyAfter, loaded]
  · rw [loaded_historyAfter_eq hc hi, hl]

/-- How the state word can become (or stay) READY. -/
theorem stateAfter_ready {v : BitVec 8} {k : WCode} (hd : disciplined (.act a k) = true)
    (h : a.stateAfter v = PIR_STATE_READY) :
    a = .setState PIR_STATE_READY ∨ (a.writesState = false ∧ v = PIR_STATE_READY) := by
  cases a with
  | setState w =>
    left
    simp only [Action.stateAfter] at h
    rw [h]
  | orState w =>
    have hw := Code.All.here hd
    simp only [beq_iff_eq] at hw
    subst hw
    exact absurd h (or_starting_ne_ready v)
  | _ => exact Or.inr ⟨rfl, h⟩

/-- The moving thread, action by action. -/
theorem readyLoaded_act {s' : Server} {t' : Thread} {o : Outcome} {k : WCode} (hG : ReadyLoaded s)
    (hP : ThreadReady s i t) (hcode : t.code = .act a k)
    (hperf : perform s i { t with code := k, started := true } o a = some (s', t')) :
    ReadyLoaded s' ∧ ThreadReady s' i t' := by
  obtain ⟨hst, hhist, _, _, hcode', _, _⟩ := perform_spec hperf
  obtain ⟨hdisc, hclear, hready⟩ := hP
  rw [hcode] at hdisc hclear hready
  have hk : t'.code = k := hcode'
  -- a `clear()` finds the state already off READY
  have hoff : a = .lib .clear → s'.serverstate ≠ PIR_STATE_READY := by
    rintro rfl
    rw [hst]
    exact hclear (Code.reaches_of_hit (by simp))
  have hkeep : a ≠ .lib .clear → loaded s.history = true → loaded s'.history = true := by
    intro hne hl
    rw [hhist]
    exact loaded_historyAfter hne hl
  have hG' : ReadyLoaded s' := by
    intro hr
    by_cases hc : a = .lib .clear
    · exact absurd hr (hoff hc)
    rw [hst] at hr
    rcases stateAfter_ready hdisc hr with rfl | ⟨_, hv⟩
    · exact hkeep hc (hready (Code.reaches_of_hit (by simp)))
    · exact hkeep hc (hG hv)
  refine ⟨hG', ?_, ?_, ?_⟩
  · rw [hk]
    exact Code.All.act hdisc
  · rw [hk]
    intro hahead hr
    rw [hst] at hr
    rcases stateAfter_ready hdisc hr with rfl | ⟨hw, hv⟩
    · have hlocal := Code.All.here hdisc
      simp [hahead] at hlocal
    · exact hclear (Code.reaches_of_act hw hahead) hv
  · rw [hk]
    intro hahead
    by_cases hc : a = .lib .clear
    · subst hc
      have hlocal := Code.All.here hdisc
      simp [hahead] at hlocal
    by_cases hi : a = .lib .search_image_init
    · subst hi
      rw [hhist]
      simp [Action.historyAfter, loaded]
    · exact hkeep hc (hready (Code.reaches_of_act (by simp [hc, hi]) hahead))

/-- **One step.** -/
theorem annotated_step {F : Type} [CFloat F] {cfg : Config F} {c c' : Conf Server Thread}
    {m : Move Request Outcome} (hc : Annotated ReadyLoaded ThreadReady c) (hok : NoRace c m)
    (hstep : step cfg c m = some c') : Annotated ReadyLoaded ThreadReady c' := by
  refine Annotated.step (machine cfg) NoRace ?_ ?_ ?_ hc hok hstep
  · -- the moving thread
    intro c i o t s' t' new hc _ ht hx
    have hP := hc.local_ i t ht
    cases exec_inv hx with
    | act a k hcode hperf =>
      obtain ⟨hG', hP'⟩ := readyLoaded_act hc.global hP hcode hperf
      refine ⟨hG', hP', fun j u hu => ?_⟩
      cases a <;> simp only [Action.spawned, not_mem_nil, mem_singleton] at hu
      subst hu
      exact threadReady_of_clean (background_clean _)
    | retry a k hcode _ _ =>
      refine ⟨hc.global, ?_, by simp⟩
      exact hP
    | branch b yes no hcode =>
      obtain ⟨hdisc, hclear, hready⟩ := hP
      rw [hcode] at hdisc hclear hready
      refine ⟨hc.global, ?_, by simp⟩
      cases holds cfg c.shared o b with
      | true =>
        exact ⟨Code.All.yes hdisc, fun h => hclear (Code.reaches_of_yes h),
          fun h => hready (Code.reaches_of_yes h)⟩
      | false =>
        exact ⟨Code.All.no hdisc, fun h => hclear (Code.reaches_of_no h),
          fun h => hready (Code.reaches_of_no h)⟩
  · -- every other thread: this is where `NoRace` is used
    intro c i o t s' t' new hc hok ht hx j u hne hu
    obtain ⟨hdisc, hclear, hready⟩ := hc.local_ j u hu
    cases exec_inv hx with
    | act a k hcode hperf =>
      obtain ⟨hst, hhist, _⟩ := perform_spec hperf
      have hnext : t.next = some a := by simp [Thread.next, hcode]
      have hd := (hc.local_ i t ht).1
      rw [hcode] at hd
      refine ⟨hdisc, fun hahead hr => ?_, fun hahead => ?_⟩
      · rw [hst] at hr
        rcases stateAfter_ready hd hr with rfl | ⟨_, hv⟩
        · have hfree := ((hok t ht).2 hnext).at hne hu
          rw [hahead] at hfree
          exact absurd hfree (by simp)
        · exact hclear hahead hv
      · rw [hhist]
        by_cases hcl : a = .lib .clear
        · subst hcl
          have hfree := ((hok t ht).1 hnext).at hne hu
          rw [hahead] at hfree
          exact absurd hfree (by simp)
        · exact loaded_historyAfter hcl (hready hahead)
    | retry | branch => exact ⟨hdisc, hclear, hready⟩
  · intro c r j _
    exact threadReady_of_clean (request_clean r)

theorem annotated_boot (u : Startup) (pool : QQueue ℕ) : Annotated ReadyLoaded ThreadReady (boot u pool) := by
  refine ⟨?_, fun i t ht => ?_⟩
  · cases u <;> simp [ReadyLoaded, boot, Server.boot, PIR_STATE_NONE, PIR_STATE_STARTING,
      PIR_STATE_TRAINING, PIR_STATE_READY]
  · obtain ⟨b, rfl⟩ := boot_thread ht
    exact threadReady_of_clean (background_clean b)

/-! ## §4. The condition is exact: every race can be driven home. -/

/-- Actions that are never blocked and leave the state word alone. -/
def Action.quiet : Action → Bool
  | .setProgress _ _ => true
  | .lib _ => true
  | _ => false

/-- Between `search_image_init()` and READY, and between a state assignment and
    the `clear()` it announces, the programs only do quiet things. -/
def uneventfulHere : WCode → Bool
  | .act a k =>
    (a.quiet || a == .setState PIR_STATE_READY || !readyAhead (.act a k)) &&
    (a.quiet || !clearAhead (.act a k))
  | .branch b t e => !readyAhead (.branch b t e) && !clearAhead (.branch b t e)
  | .halt => true

/-- `uneventfulHere` at every place. -/
def uneventful : WCode → Bool := Code.All uneventfulHere

theorem request_uneventful (r : Request) : uneventful r.code = true := by
  cases r <;> rfl

theorem background_uneventful (b : Background) : uneventful b.code = true := by
  cases b <;> rfl

theorem perform_quiet {o : Outcome} (hq : a.quiet = true) :
    ∃ s', perform s i t o a = some (s', t) ∧ a.spawned = [] ∧
      s'.serverstate = s.serverstate ∧ s'.history = a.historyAfter s.history := by
  cases a <;> simp_all [Action.quiet, perform, Action.spawned, Action.historyAfter]

section Exactness

variable {F : Type} [CFloat F] {cfg : Config F}

/-- A thread about to store READY, left alone, stores it — whatever has become
    of the library. -/
theorem drive_ready : ∀ (code : WCode) (c : Conf Server Thread) (i : ℕ) (t : Thread),
    c.pool[i]? = some t → t.code = code → uneventful code = true → readyAhead code = true →
    loaded c.shared.history = false →
    ∃ c', Reach (step cfg) anyStep c c' ∧ c'.shared.serverstate = PIR_STATE_READY ∧
      loaded c'.shared.history = false
  | .halt, _, _, _, _, _, _, hr, _ => absurd hr (by simp [readyAhead, Code.reaches])
  | .branch b yes no, _, _, _, _, _, hu, hr, _ => by
    have := Code.All.here hu
    simp [uneventfulHere, hr] at this
  | .act a k, c, i, t, ht, hcode, hu, hr, hl => by
    by_cases ha : a = .setState PIR_STATE_READY
    · -- the store itself
      subst ha
      exact ⟨_, Reach.next Reach.start trivial (step_act cfg ht hcode rfl), rfl, hl⟩
    have hhere := Code.All.here hu
    simp only [uneventfulHere, hr, Bool.not_true, Bool.or_false, Bool.and_eq_true,
      Bool.or_eq_true, beq_iff_eq, ha, or_false] at hhere
    have hq : a.quiet = true := hhere.1
    obtain ⟨⟨hi, hc⟩, hk⟩ : (a ≠ .lib .search_image_init ∧ a ≠ .lib .clear) ∧
        readyAhead k = true := by
      simpa [readyAhead, Code.reaches, ha] using hr
    obtain ⟨s', hperf, hsp, hst, hhist⟩ := perform_quiet (s := c.shared) (i := i)
      (t := { t with code := k, started := true }) (o := {}) hq
    have hstep := step_act cfg ht hcode hperf
    have hl' : loaded s'.history = false := by
      rw [hhist, loaded_historyAfter_eq hc hi, hl]
    obtain ⟨c', hreach, hend⟩ := drive_ready k
      { shared := s', pool := c.pool.set i { t with code := k, started := true } ++ a.spawned }
      i { t with code := k, started := true } (pool_lookup_self ht) rfl (Code.All.act hu) hk hl'
    exact ⟨c', (Reach.next Reach.start trivial hstep).trans hreach, hend⟩

/-- A thread about to `clear()`, left alone, clears — even if the state word
    has become READY meanwhile. -/
theorem drive_clear : ∀ (code : WCode) (c : Conf Server Thread) (i : ℕ) (t : Thread),
    c.pool[i]? = some t → t.code = code → uneventful code = true → clearAhead code = true →
    c.shared.serverstate = PIR_STATE_READY →
    ∃ c', Reach (step cfg) anyStep c c' ∧ c'.shared.serverstate = PIR_STATE_READY ∧
      loaded c'.shared.history = false
  | .halt, _, _, _, _, _, _, hr, _ => absurd hr (by simp [clearAhead, Code.reaches])
  | .branch b yes no, _, _, _, _, _, hu, hr, _ => by
    have := Code.All.here hu
    simp [uneventfulHere, hr] at this
  | .act a k, c, i, t, ht, hcode, hu, hr, hst => by
    have hhere := Code.All.here hu
    simp only [uneventfulHere, hr, Bool.not_true, Bool.or_false, Bool.and_eq_true] at hhere
    obtain ⟨s', hperf, hsp, hst', hhist⟩ := perform_quiet (s := c.shared) (i := i)
      (t := { t with code := k, started := true }) (o := {}) hhere.2
    have hstep := step_act cfg ht hcode hperf
    by_cases ha : a = .lib .clear
    · -- the `clear()` itself
      subst ha
      refine ⟨_, Reach.next Reach.start trivial hstep, by rw [← hst, ← hst'], ?_⟩
      show loaded s'.history = false
      rw [hhist]
      simp [Action.historyAfter, loaded]
    have hk : clearAhead k = true := by
      simp only [clearAhead, Code.reaches, Bool.or_eq_true, beq_iff_eq, ha, false_or,
        Bool.and_eq_true] at hr
      exact hr.2
    obtain ⟨c', hreach, hend⟩ := drive_clear k
      { shared := s', pool := c.pool.set i { t with code := k, started := true } ++ a.spawned }
      i { t with code := k, started := true } (pool_lookup_self ht) rfl (Code.All.act hu) hk
      (hst'.trans hst)
    exact ⟨c', (Reach.next Reach.start trivial hstep).trans hreach, hend⟩

/-- Every step that breaks `NoRace` leads, by some continuation, to a READY
    worker without its library. -/
theorem race_breaks_ready {u : Startup} {pool : QQueue ℕ} {c c' : Conf Server Thread}
    {m : Move Request Outcome} (hc : Reach (step cfg) anyStep (boot u pool) c)
    (hstep : step cfg c m = some c') (hrace : ¬ NoRace c m) :
    ∃ c'', Reach (step cfg) anyStep c' c'' ∧ c''.shared.serverstate = PIR_STATE_READY ∧
      loaded c''.shared.history = false := by
  have huneventful : ∀ (j : ℕ) (v : Thread), c.pool[j]? = some v → uneventful v.code = true :=
    fun _ _ hv => code_all (p := fun _ => uneventfulHere) request_uneventful
      background_uneventful hc hv
  rcases (machine cfg).step_cases hstep with ⟨r, rfl, rfl⟩ | ⟨i, o, t, s', t', new, rfl, ht, hx, rfl⟩
  · exact absurd trivial hrace
  simp only [NoRace, ht, Option.mem_def, Option.some.injEq, forall_eq'] at hrace
  -- the raced-against thread `v`, at position `j ≠ i`
  rw [not_and_or, Classical.not_imp, Classical.not_imp] at hrace
  simp only [Conf.Others, not_forall] at hrace
  rcases hrace with ⟨hnext, ⟨v, j⟩, hv, hne, hahead⟩ | ⟨hnext, ⟨v, j⟩, hv, hne, hahead⟩
  · have hv' := mk_mem_zipIdx_iff_getElem?.mp hv
    rw [Bool.not_eq_false] at hahead
    cases exec_inv hx with
    | act a k hcode hperf =>
      simp only [Thread.next, hcode, Option.some.injEq] at hnext
      subst hnext
      refine drive_ready v.code _ j v (pool_lookup_ne hne hv') rfl (huneventful j v hv') hahead ?_
      rw [(perform_spec hperf).2.1]
      simp [Action.historyAfter, loaded]
    | retry a k hcode hcr _ =>
      simp only [Thread.next, hcode, Option.some.injEq] at hnext
      subst hnext
      simp [Action.isCreate] at hcr
    | branch b yes no hcode => simp [Thread.next, hcode] at hnext
  have hv' := mk_mem_zipIdx_iff_getElem?.mp hv
  rw [Bool.not_eq_false] at hahead
  cases exec_inv hx with
  | act a k hcode hperf =>
    simp only [Thread.next, hcode, Option.some.injEq] at hnext
    subst hnext
    refine drive_clear v.code _ j v (pool_lookup_ne hne hv') rfl (huneventful j v hv') hahead ?_
    rw [(perform_spec hperf).1]
    rfl
  | retry a k hcode hcr _ =>
    simp only [Thread.next, hcode, Option.some.injEq] at hnext
    subst hnext
    simp [Action.isCreate] at hcr
  | branch b yes no hcode => simp [Thread.next, hcode] at hnext

end Exactness

/-! ## §5. Main results. -/

/-- **READY MEANS LOADED, EXACTLY WITHOUT RACES.**  In every run whose steps
    all meet `NoRace`, a READY worker has completed `search_image_init()` and
    executed no `clear()` since; and every reachable step that does not meet
    `NoRace` can be continued into a READY worker whose library is cleared. -/
theorem ready_loaded {F : Type} [CFloat F] (cfg : Config F) (u : Startup) (pool : QQueue ℕ) :
    (∀ c, Reach (step cfg) NoRace (boot u pool) c →
      c.shared.serverstate = PIR_STATE_READY → Loaded c.shared.history) ∧
    (∀ c m c', Reach (step cfg) anyStep (boot u pool) c → step cfg c m = some c' →
      ¬ NoRace c m →
      ∃ c'', Reach (step cfg) anyStep c' c'' ∧ c''.shared.serverstate = PIR_STATE_READY ∧
        ¬ Loaded c''.shared.history) := by
  constructor
  · intro c hc hready
    have hinv := Reach.invariant (Annotated ReadyLoaded ThreadReady) (annotated_boot u pool)
      (fun _ _ _ h hok hs => annotated_step h hok hs) hc
    exact (loaded_iff _).mp (hinv.global hready)
  · intro c m c' hc hs hrace
    obtain ⟨c'', hreach, hready, hl⟩ := race_breaks_ready hc hs hrace
    refine ⟨c'', hreach, hready, fun hL => ?_⟩
    rw [(loaded_iff _).mpr hL] at hl
    exact absurd hl (by simp)

/-- A recovering worker (`-r`) that is left alone becomes READY, loaded. -/
theorem ready_loaded_recovery :
    ∃ c, Reach (step defaultConfig) NoRace (boot .recovery onePool) c ∧
      c.shared.serverstate = PIR_STATE_READY ∧ Loaded c.shared.history := by
  obtain ⟨c, hreach, hready⟩ := exists_reach_of_guardedExec (step defaultConfig) NoRace
    (boot .recovery onePool) (runs 0 16)
    (fun c => c.shared.serverstate == PIR_STATE_READY) (by decide)
  rw [beq_iff_eq] at hready
  exact ⟨c, hreach, hready, (ready_loaded defaultConfig .recovery onePool).1 c hreach hready⟩

/-- `serviceInit`, `serviceStart`; the start thread completes
    `search_image_init()`; a `clear` request stores INITED and clears; the
    thread goes on and stores READY. -/
def clearDuringStart : List (Move Request Outcome) :=
  .arrive .serviceInit :: runs 0 7 ++ .arrive .serviceStart :: runs 1 6 ++ runs 2 14 ++
    .arrive .clear :: runs 3 2 ++ runs 2 2

/-- READY does not imply a loaded library. -/
theorem ready_without_library :
    ¬ ∀ (cfg : Config ℚ) (u : Startup) (pool : QQueue ℕ) (c : Conf Server Thread),
      Reach (step cfg) anyStep (boot u pool) c →
      c.shared.serverstate = PIR_STATE_READY → Loaded c.shared.history := by
  intro hall
  obtain ⟨c, hreach, hbad⟩ := exists_reach_of_guardedExec (step defaultConfig) anyStep
    (boot .fresh onePool) clearDuringStart
    (fun c => c.shared.serverstate == PIR_STATE_READY && !loaded c.shared.history) (by decide)
  simp only [Bool.and_eq_true, beq_iff_eq, Bool.not_eq_true'] at hbad
  have hL := hall defaultConfig .fresh onePool c hreach hbad.1
  rw [← loaded_iff, hbad.2] at hL
  exact absurd hL (by simp)

end KalavaPir.Worker
