/-
  KalavaPir.Worker.SearchExclusion — `clear()` against a running search.

  `ns_imSearch` reads `serverstate` once and then works on the library without
  a lock or a reference count, while stop, clear, restart and the two
  background threads may empty it.  What the READY test achieves on its own is
  stated here: it is enough exactly for as long as
    (1) whoever leaves READY in order to `clear()` waits until no search is in
        flight, and
    (2) nobody re-announces READY while such a `clear()` is still to come
  (`NoOverlap`).  The code itself has neither wait: `clear_during_search` runs
  a plain `serviceStop` into a search.
-/
import KalavaPir.Worker.ReadyInvariant

namespace KalavaPir.Worker

open KalavaPir.Framework
open KalavaPir.Common

/-! ## §1. Searches, by their code. -/

/-- The thread is inside `search_image()`. -/
def searching : WCode → Bool := Code.commits (· == .searchEnd) (· == .searchStart)

/-- The thread has passed the READY test of `ns_imSearch` and `search_image()`
    has not returned yet. -/
def inFlight : WCode → Bool := Code.commits (· == .searchEnd) (fun _ => false)

theorem inFlight_of_searching {code : WCode} (h : searching code = true) : inFlight code = true :=
  Code.commits_mono (by simp) code h

/-- The next statement leaves a state behind with which a `clear()` is
    announced. -/
def beginsClear : WCode → Bool
  | .act a k => a.writesState && clearAhead k
  | _ => false

/-- The next statement of thread `i` is a `clear()`. -/
def AtClear (c : Conf Server Thread) (i : ℕ) : Prop :=
  ∃ t ∈ c.pool[i]?, t.next = some (.lib .clear)

instance (c : Conf Server Thread) (i : ℕ) : Decidable (AtClear c i) :=
  inferInstanceAs (Decidable (∃ t ∈ c.pool[i]?, t.next = some (.lib .clear)))

/-- The move executes a `clear()` while some `ns_imSearch` is inside
    `search_image()`. -/
def ClearsDuringSearch (c : Conf Server Thread) : Move Request Outcome → Prop
  | .arrive _ => False
  | .run i _ => AtClear c i ∧ ∃ v ∈ c.pool, searching v.code = true

/-- **The condition.** -/
def NoOverlap (c : Conf Server Thread) : Move Request Outcome → Prop
  | .arrive _ => True
  | .run i _ =>
    ∀ t ∈ c.pool[i]?,
      (beginsClear t.code = true → c.Others i (fun u => inFlight u.code = false)) ∧
      (t.next = some (.setState PIR_STATE_READY) →
        c.Others i (fun u => clearAhead u.code = false))

instance (c : Conf Server Thread) (m : Move Request Outcome) : Decidable (NoOverlap c m) :=
  match m with
  | .arrive _ => inferInstanceAs (Decidable True)
  | .run i _ => inferInstanceAs (Decidable (∀ t ∈ c.pool[i]?,
        (beginsClear t.code = true → c.Others i (fun u => inFlight u.code = false)) ∧
        (t.next = some (.setState PIR_STATE_READY) →
          c.Others i (fun u => clearAhead u.code = false))))

/-! ## §2. What the programs look like. -/

/-- No code both searches and announces a `clear()`, and the READY test is the
    only way into a search. -/
def gated : WCode → Bool :=
  Code.All fun code =>
    !(clearAhead code && inFlight code) &&
      match code with
      | .branch .ready _ no => !inFlight no
      | .branch _ yes no => !inFlight yes && !inFlight no
      | _ => true

theorem request_gated (r : Request) :
    disciplined r.code = true ∧ gated r.code = true ∧ clearAhead r.code = false ∧
      inFlight r.code = false := by
  cases r <;> exact ⟨rfl, rfl, rfl, rfl⟩

theorem background_gated (b : Background) :
    disciplined b.code = true ∧ gated b.code = true ∧ clearAhead b.code = false ∧
      inFlight b.code = false := by
  cases b <;> exact ⟨rfl, rfl, rfl, rfl⟩

theorem not_inFlight_of_clearAhead {code : WCode} (hg : gated code = true)
    (hc : clearAhead code = true) : inFlight code = false := by
  have hhere := Code.All.here hg
  rw [Bool.and_eq_true] at hhere
  simpa [hc] using hhere.1

/-- Off READY no test leads into a search. -/
theorem not_inFlight_of_branch {F : Type} [CFloat F] {cfg : Config F} {s : Server} {o : Outcome}
    {b : Test} {yes no : WCode} (hg : gated (.branch b yes no) = true)
    (hs : s.serverstate ≠ PIR_STATE_READY) : inFlight (if holds cfg s o b then yes else no) = false := by
  have hhere := (Bool.and_eq_true _ _ ▸ Code.All.here hg).2
  cases b with
  | ready =>
    have hno : holds cfg s o .ready = false := by simpa [holds] using hs
    rw [hno]
    simpa using hhere
  | _ =>
    simp only [Bool.and_eq_true, Bool.not_eq_true'] at hhere
    split
    · exact hhere.1
    · exact hhere.2

/-! ## §3. The invariant. -/

/-- Once a `clear()` is announced the state is off READY and no search is in
    flight. -/
structure Excluded (c : Conf Server Thread) : Prop where
  code : ∀ (i : ℕ) (t : Thread), c.pool[i]? = some t → disciplined t.code = true ∧ gated t.code = true
  off : ∀ (i : ℕ) (t : Thread), c.pool[i]? = some t → clearAhead t.code = true →
    c.shared.serverstate ≠ PIR_STATE_READY
  empty : ∀ (i : ℕ) (t : Thread), c.pool[i]? = some t → clearAhead t.code = true →
    ∀ (j : ℕ) (v : Thread), c.pool[j]? = some v → inFlight v.code = false

/-- A thread that joins changes nothing. -/
theorem excluded_join {c : Conf Server Thread} (hc : Excluded c) {u : Thread}
    (hu : disciplined u.code = true ∧ gated u.code = true ∧ clearAhead u.code = false ∧
      inFlight u.code = false) : Excluded { c with pool := c.pool ++ [u] } := by
  refine ⟨fun i t ht => ?_, fun i t ht ha => ?_, fun i t ht ha j v hv => ?_⟩
  · rcases pool_lookup_arrive ht with hold | ⟨_, rfl⟩
    · exact hc.code i t hold
    · exact ⟨hu.1, hu.2.1⟩
  · rcases pool_lookup_arrive ht with hold | ⟨_, rfl⟩
    · exact hc.off i t hold ha
    · exact absurd ha (by simp [hu.2.2.1])
  · rcases pool_lookup_arrive ht with hold | ⟨_, rfl⟩
    · rcases pool_lookup_arrive hv with hold' | ⟨_, rfl⟩
      · exact hc.empty i t hold ha j v hold'
      · exact hu.2.2.2
    · exact absurd ha (by simp [hu.2.2.1])

/-- **One thread moves.**  The obligations left are about the moving thread
    alone: what it announces, and whether it may enter a search. -/
theorem excluded_move {c : Conf Server Thread} (hc : Excluded c) {i : ℕ} {t t' : Thread}
    {s' : Server} {new : List Thread} (ht : c.pool[i]? = some t)
    (hcode : disciplined t'.code = true ∧ gated t'.code = true)
    (hnew : ∀ u ∈ new, disciplined u.code = true ∧ gated u.code = true ∧
      clearAhead u.code = false ∧ inFlight u.code = false)
    -- what it announces
    (hself : clearAhead t'.code = true → s'.serverstate ≠ PIR_STATE_READY ∧
      ∀ (j : ℕ) (v : Thread), j ≠ i → c.pool[j]? = some v → inFlight v.code = false)
    -- what it does under somebody else's announcement
    (hother : ∀ (j : ℕ) (u : Thread), j ≠ i → c.pool[j]? = some u → clearAhead u.code = true →
      s'.serverstate ≠ PIR_STATE_READY ∧ inFlight t'.code = false) :
    Excluded { shared := s', pool := c.pool.set i t' ++ new } := by
  refine ⟨fun j u hu => ?_, fun j u hu ha => ?_, fun j u hu ha k v hv => ?_⟩
  · rcases pool_lookup hu with ⟨_, rfl⟩ | ⟨_, hold⟩ | ⟨_, hmem⟩
    · exact hcode
    · exact hc.code j u hold
    · exact ⟨(hnew u hmem).1, (hnew u hmem).2.1⟩
  · rcases pool_lookup hu with ⟨_, rfl⟩ | ⟨hne, hold⟩ | ⟨_, hmem⟩
    · exact (hself ha).1
    · exact (hother j u hne hold ha).1
    · exact absurd ha (by simp [(hnew u hmem).2.2.1])
  · rcases pool_lookup hv with ⟨rfl, rfl⟩ | ⟨hne', hold'⟩ | ⟨_, hmem⟩
    · rcases pool_lookup hu with ⟨_, rfl⟩ | ⟨hne, hold⟩ | ⟨_, hmem⟩
      · exact not_inFlight_of_clearAhead hcode.2 ha
      · exact (hother j u hne hold ha).2
      · exact absurd ha (by simp [(hnew u hmem).2.2.1])
    · rcases pool_lookup hu with ⟨_, rfl⟩ | ⟨hne, hold⟩ | ⟨_, hmem⟩
      · exact (hself ha).2 k v hne' hold'
      · exact hc.empty j u hold ha k v hold'
      · exact absurd ha (by simp [(hnew u hmem).2.2.1])
    · exact (hnew v hmem).2.2.2

/-- **One step.** -/
theorem excluded_step {F : Type} [CFloat F] {cfg : Config F} {c c' : Conf Server Thread}
    {m : Move Request Outcome} (hc : Excluded c) (hok : NoOverlap c m)
    (hstep : step cfg c m = some c') : Excluded c' := by
  rcases (machine cfg).step_cases hstep with ⟨r, rfl, rfl⟩ | ⟨i, o, t, s', t', new, rfl, ht, hx, rfl⟩
  · exact excluded_join hc (request_gated r)
  obtain ⟨hdisc, hgate⟩ := hc.code i t ht
  cases exec_inv hx with
  | act a k hcode hperf =>
    obtain ⟨hst, _, _, _, hcode', _, _⟩ := perform_spec hperf
    have hk : t'.code = k := hcode'
    rw [hcode] at hdisc hgate
    have hnew : ∀ u ∈ a.spawned, disciplined u.code = true ∧ gated u.code = true ∧
        clearAhead u.code = false ∧ inFlight u.code = false := by
      intro u hu
      obtain ⟨b, _, rfl⟩ := spawned_thread hu
      exact background_gated b
    refine excluded_move hc ht ?_ hnew ?_ ?_
    · rw [hk]
      exact ⟨Code.All.act hdisc, Code.All.act hgate⟩
    · rw [hk]
      intro ha
      constructor
      · rw [hst]
        intro hr
        rcases stateAfter_ready hdisc hr with rfl | ⟨hw, hv⟩
        · have hlocal := Code.All.here hdisc
          simp [ha] at hlocal
        · exact hc.off i t ht (by rw [hcode]; exact Code.reaches_of_act hw ha) hv
      · intro j v hne hv
        cases hw : a.writesState with
        | true =>
          -- the announcement itself: clause (1) of the condition
          have hb : beginsClear t.code = true := by simp [beginsClear, hcode, hw, ha]
          exact ((hok t ht).1 hb).at hne hv
        | false =>
          exact hc.empty i t ht (by rw [hcode]; exact Code.reaches_of_act hw ha) j v hv
    · intro j u hne hu ha
      constructor
      · rw [hst]
        intro hr
        rcases stateAfter_ready hdisc hr with rfl | ⟨_, hv⟩
        · -- clause (2) of the condition
          have hnext : t.next = some (.setState PIR_STATE_READY) := by
            simp [Thread.next, hcode]
          have hfree := ((hok t ht).2 hnext).at hne hu
          rw [ha] at hfree
          exact absurd hfree (by simp)
        · exact hc.off j u hu ha hv
      · rw [hk]
        have hquiet := hc.empty j u hu ha i t ht
        cases hf : inFlight k with
        | false => rfl
        | true =>
          rw [hcode] at hquiet
          have : inFlight (.act a k) = true := Code.commits_of_act rfl hf
          rw [this] at hquiet
          exact absurd hquiet (by simp)
  | retry a k hcode _ _ =>
    refine excluded_move hc ht ⟨hdisc, hgate⟩ (by simp) (fun ha => ?_) (fun j u hne hu ha => ?_)
    · exact ⟨hc.off i t ht ha, fun j v _ hv => hc.empty i t ht ha j v hv⟩
    · exact ⟨hc.off j u hu ha, hc.empty j u hu ha i t ht⟩
  | branch b yes no hcode =>
    rw [hcode] at hdisc hgate
    refine excluded_move hc ht ?_ (by simp) (fun ha => ?_) (fun j u hne hu ha => ?_)
    · show disciplined (if _ then _ else _) = true ∧ gated (if _ then _ else _) = true
      split
      · exact ⟨Code.All.yes hdisc, Code.All.yes hgate⟩
      · exact ⟨Code.All.no hdisc, Code.All.no hgate⟩
    · have hbefore : clearAhead t.code = true := by
        rw [hcode]
        revert ha
        show clearAhead (if _ then _ else _) = true → _
        split
        · exact Code.reaches_of_yes
        · exact Code.reaches_of_no
      exact ⟨hc.off i t ht hbefore, fun j v _ hv => hc.empty i t ht hbefore j v hv⟩
    · exact ⟨hc.off j u hu ha, not_inFlight_of_branch hgate (hc.off j u hu ha)⟩

theorem excluded_boot (u : Startup) (pool : QQueue ℕ) : Excluded (boot u pool) := by
  refine ⟨fun i t ht => ?_, fun i t ht ha => ?_, fun i t ht ha j v hv => ?_⟩
  · obtain ⟨b, rfl⟩ := boot_thread ht
    exact ⟨(background_gated b).1, (background_gated b).2.1⟩
  · obtain ⟨b, rfl⟩ := boot_thread ht
    exact absurd ha (by simp [Background.thread, (background_gated b).2.2.1])
  · obtain ⟨b, rfl⟩ := boot_thread hv
    exact (background_gated b).2.2.2

/-! ## §4. Main results. -/

/-- **NO `clear()` INSIDE A SEARCH, AS LONG AS NOTHING OVERLAPS.**  In every
    run whose steps all meet `NoOverlap`, no next step executes a `clear()`
    between the start and the end of a `search_image()` call. -/
theorem search_undisturbed {F : Type} [CFloat F] (cfg : Config F) (u : Startup) (pool : QQueue ℕ)
    (c : Conf Server Thread) (hc : Reach (step cfg) NoOverlap (boot u pool) c)
    (m : Move Request Outcome) : ¬ ClearsDuringSearch c m := by
  have hinv := Reach.invariant Excluded (excluded_boot u pool)
    (fun _ _ _ h hok hs => excluded_step h hok hs) hc
  intro hbad
  cases m with
  | arrive r => exact hbad
  | run i o =>
    obtain ⟨⟨t, ht, hnext⟩, v, hv, hsearch⟩ := hbad
    obtain ⟨j, hj⟩ := List.mem_iff_getElem?.mp hv
    -- a thread AT a `clear()` has one ahead of it, so nobody is in flight
    have ha : clearAhead t.code = true := by
      obtain ⟨k, hcode⟩ := code_of_next hnext
      rw [hcode]
      exact Code.reaches_of_hit (by simp)
    have hfree := hinv.empty i t ht ha j v hj
    rw [inFlight_of_searching hsearch] at hfree
    exact absurd hfree (by simp)

/-- A recovering worker becomes READY; a search is run to its end; then a
    `serviceStop` stores TRAINED: its `clear()` disturbs nobody. -/
def stopAfterSearch : List (Move Request Outcome) :=
  runs 0 17 ++ .arrive .imSearch :: runs 1 9 ++ .arrive .serviceStop :: runs 2 1

theorem search_undisturbed_stop :
    ∃ c, Reach (step defaultConfig) NoOverlap (boot .recovery onePool) c ∧
      AtClear c 2 ∧ ¬ ClearsDuringSearch c (.run 2 {}) := by
  obtain ⟨c, hreach, hp⟩ := exists_reach_of_guardedExec (step defaultConfig) NoOverlap
    (boot .recovery onePool) stopAfterSearch
    (fun c => decide (AtClear c 2)) (by decide)
  rw [decide_eq_true_eq] at hp
  exact ⟨c, hreach, hp, search_undisturbed defaultConfig .recovery onePool c hreach (.run 2 {})⟩

/-- The same with the search still running: it has passed the READY test,
    taken its object and entered `search_image()` when `serviceStop` arrives. -/
def stopDuringSearch : List (Move Request Outcome) :=
  .arrive .serviceInit :: runs 0 7 ++ .arrive .serviceStart :: runs 1 6 ++ runs 2 17 ++
    .arrive .imSearch :: runs 3 4 ++ .arrive .serviceStop :: runs 4 1

/-- The code does execute a `clear()` inside a search. -/
theorem clear_during_search :
    ¬ ∀ (cfg : Config ℚ) (u : Startup) (pool : QQueue ℕ) (c c' : Conf Server Thread)
      (m : Move Request Outcome), Reach (step cfg) anyStep (boot u pool) c →
      step cfg c m = some c' → ¬ ClearsDuringSearch c m := by
  intro hall
  obtain ⟨c, hreach, hp⟩ := exists_reach_of_guardedExec (step defaultConfig) anyStep
    (boot .fresh onePool) stopDuringSearch
    (fun c => decide (AtClear c 4) && c.pool.any (fun v => searching v.code) &&
      (step defaultConfig c (.run 4 {})).isSome) (by decide)
  simp only [Bool.and_eq_true, decide_eq_true_eq, List.any_eq_true, Option.isSome_iff_exists] at hp
  obtain ⟨⟨hat, hsearch⟩, c', hstep⟩ := hp
  exact hall defaultConfig .fresh onePool c c' (.run 4 {}) hreach hstep ⟨hat, hsearch⟩

end KalavaPir.Worker
