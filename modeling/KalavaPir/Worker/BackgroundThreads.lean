/-
  KalavaPir.Worker.BackgroundThreads — at most one background thread.

  Four requests start background threads, each under its own idea of a guard:
  `ns_train` has none, `ns_serviceStart` tests the state word and then sets it,
  `ns_serviceRestart` tests the state word it has just overwritten, and
  `ns_trainAdd` tests READY long before it creates its thread.  None of them
  looks at whether a thread is already there.
-/
import KalavaPir.Worker.Service

namespace KalavaPir.Worker

open KalavaPir.Framework
open KalavaPir.Common

/-! ## §1. Threads that run, threads that will. -/

/-- A background thread that has not returned. -/
def Thread.alive (t : Thread) : Bool := t.background && t.code != .halt

/-- A background thread between its first and its last statement. -/
def Thread.running (t : Thread) : Bool := t.alive && t.started

/-- At most one background thread is running. -/
def OneRunning (c : Conf Server Thread) : Prop :=
  ∀ (i j : ℕ) (t u : Thread), c.pool[i]? = some t → c.pool[j]? = some u →
    t.running = true → u.running = true → i = j

/-- The move creates a background thread. -/
def creates (c : Conf Server Thread) : Move Request Outcome → Bool
  | .arrive _ => false
  | .run i o => o.ok && (c.pool[i]?).any (fun t => t.next.any Action.isCreate)

/-- **The condition**: a background thread is only created when none is
    alive. -/
def LoneCreate (c : Conf Server Thread) (m : Move Request Outcome) : Prop :=
  creates c m = true → ∀ u ∈ c.pool, u.alive = false

instance (c : Conf Server Thread) (m : Move Request Outcome) : Decidable (LoneCreate c m) :=
  inferInstanceAs (Decidable (creates c m = true → ∀ u ∈ c.pool, u.alive = false))

/-! ## §2. The invariant: at most one is alive. -/

/-- At most one background thread is alive. -/
def OneAlive (c : Conf Server Thread) : Prop :=
  ∀ (i j : ℕ) (t u : Thread), c.pool[i]? = some t → c.pool[j]? = some u →
    t.alive = true → u.alive = true → i = j

variable {F : Type} {i : ℕ} {t : Thread} {c : Conf Server Thread} {u : Startup} {pool : QQueue ℕ}
  {cfg : Config F}

variable {new : List Thread} {c' : Conf Server Thread} {m : Move Request Outcome} {b : Background}

theorem alive_of_exec [CFloat F] {s s' : Server} {t' : Thread} {o : Outcome}
    (hx : exec cfg s i t o = some (s', t', new)) (h : t'.alive = true) : t.alive = true := by
  obtain ⟨hbg, _, hne⟩ := exec_thread hx
  simp only [Thread.alive, Bool.and_eq_true, bne_iff_ne] at h ⊢
  exact ⟨hbg ▸ h.1, hne⟩

/-- What a move adds to the pool: nothing, or one thread by a creation. -/
theorem exec_new [CFloat F] {s' : Server} {t' : Thread} {o : Outcome} (ht : c.pool[i]? = some t)
    (hx : exec cfg c.shared i t o = some (s', t', new)) :
    (new = [] ∧ creates c (.run i o) = false) ∨
    (∃ b : Background, new = [b.thread] ∧ creates c (.run i o) = true ∧
      t.next = some (.create b)) := by
  have hcr : creates c (.run i o) = (o.ok && t.next.any Action.isCreate) := by
    simp [creates, ht]
  unfold exec at hx
  split at hx
  · exact absurd hx (by simp)
  · next a k hcode =>
      have hnext : t.next = some a := by simp [Thread.next, hcode]
      rw [hcr, hnext]
      split at hx
      · next hretry =>
          injection hx with hx
          injection hx with _ hx
          injection hx with _ hn
          rw [Bool.and_eq_true, Bool.not_eq_true'] at hretry
          exact Or.inl ⟨hn.symm, by simp [hretry.2]⟩
      next hgo =>
        split at hx
        · exact absurd hx (by simp)
        injection hx with hx
        injection hx with _ hx
        injection hx with _ hn
        cases a with
        | create b =>
          right
          refine ⟨b, hn.symm, ?_, rfl⟩
          simpa [Action.isCreate] using hgo
        | _ => exact Or.inl ⟨hn.symm, by simp [Action.isCreate]⟩
  · next b yes no hcode =>
      injection hx with hx
      injection hx with _ hx
      injection hx with _ hn
      exact Or.inl ⟨hn.symm, by simp [hcr, Thread.next, hcode]⟩

/-- **One step.** -/
theorem oneAlive_step [CFloat F] (hc : OneAlive c) (hok : LoneCreate c m) (hstep : step cfg c m = some c') :
    OneAlive c' := by
  rcases (machine cfg).step_cases hstep with ⟨r, rfl, rfl⟩ | ⟨i, o, t, s', t', new, rfl, ht, hx, rfl⟩
  · -- a handler is no background thread
    have hdead : r.thread.alive = false := rfl
    intro j k u v hu hv hau hav
    rcases pool_lookup_arrive hu with hu | ⟨_, rfl⟩
    · rcases pool_lookup_arrive hv with hv | ⟨_, rfl⟩
      · exact hc j k u v hu hv hau hav
      · exact absurd hav (by simp [machine, hdead])
    · exact absurd hau (by simp [machine, hdead])
  rcases exec_new ht hx with ⟨rfl, _⟩ | ⟨b, rfl, hcr, _⟩
  · -- no new thread: whoever is alive was alive at the same place
    have hback : ∀ (j : ℕ) (u : Thread), (c.pool.set i t' ++ [])[j]? = some u →
        u.alive = true → ∃ u₀, c.pool[j]? = some u₀ ∧ u₀.alive = true := by
      intro j u hu hau
      rcases pool_lookup hu with ⟨rfl, rfl⟩ | ⟨_, hold⟩ | ⟨_, hmem⟩
      · exact ⟨t, ht, alive_of_exec hx hau⟩
      · exact ⟨u, hold, hau⟩
      · simp at hmem
    intro j k u v hu hv hau hav
    obtain ⟨u₀, hu₀, hau₀⟩ := hback j u hu hau
    obtain ⟨v₀, hv₀, hav₀⟩ := hback k v hv hav
    exact hc j k u₀ v₀ hu₀ hv₀ hau₀ hav₀
  -- a creation: everybody else is dead, so both are the new one
  have hdead := hok hcr
  have hlast : ∀ (j : ℕ) (u : Thread), (c.pool.set i t' ++ [b.thread])[j]? = some u →
      u.alive = true → j = c.pool.length := by
    intro j u hu hau
    have hlen := (List.getElem?_eq_some_iff.mp hu).1
    rcases pool_lookup hu with ⟨rfl, rfl⟩ | ⟨_, hold⟩ | ⟨hge, _⟩
    · have := hdead t (List.mem_of_getElem? ht)
      rw [alive_of_exec hx hau] at this
      exact absurd this (by simp)
    · have := hdead u (List.mem_of_getElem? hold)
      rw [hau] at this
      exact absurd this (by simp)
    · simp only [List.length_append, List.length_set, List.length_cons, List.length_nil] at hlen
      omega
  intro j k u v hu hv hau hav
  rw [hlast j u hu hau, hlast k v hv hav]

theorem oneAlive_boot (u : Startup) (pool : QQueue ℕ) : OneAlive (boot u pool) := by
  intro i j t v ht hv _ _
  have hi := (List.getElem?_eq_some_iff.mp ht).1
  have hj := (List.getElem?_eq_some_iff.mp hv).1
  cases u <;> simp [boot] at hi hj
  · omega
  · omega

/-! ## §3. The condition is exact. -/

/-- A created thread that has not moved still has its whole program ahead. -/
theorem unstarted_code [CFloat F] (hc : Reach (step cfg) anyStep (boot u pool) c) (ht : c.pool[i]? = some t)
    (hbg : t.background = true) (hst : t.started = false) : ∃ b : Background, t.code = b.code := by
  have hinv : Annotated (fun _ => True) (fun _ _ (t : Thread) => t.background = true →
      t.started = false → ∃ b : Background, t.code = b.code) c := by
    refine Reach.invariant (Annotated (fun _ => True) (fun _ _ (t : Thread) => t.background = true →
      t.started = false → ∃ b : Background, t.code = b.code))
      ⟨trivial, fun i t ht _ _ => ?_⟩ (fun c m c' hc hok hs => ?_) hc
    · obtain ⟨b, rfl⟩ := boot_thread ht
      exact ⟨b, rfl⟩
    · refine Annotated.step (machine cfg) anyStep ?_ ?_ ?_ hc hok hs
      · intro c i o t s' t' new hc _ ht hx
        refine ⟨trivial, fun _ hst => ?_, fun j v hv _ _ => ?_⟩
        · rw [(exec_thread hx).2.1] at hst
          exact absurd hst (by simp)
        · rcases exec_new ht hx with ⟨rfl, _⟩ | ⟨b, rfl, _, _⟩
          · simp at hv
          · rw [List.mem_singleton] at hv
            exact ⟨b, by rw [hv]; rfl⟩
      · intro c i o t s' t' new hc _ ht hx j v _ hv
        exact hc.local_ j v hv
      · intro c r j _ hbg
        exact absurd hbg (by simp [machine, Request.thread])
  exact hinv.local_ i t ht hbg hst

/-- The next action of a background thread creates no thread. -/
def createsNothing (background : Bool) (code : WCode) : Bool :=
  match background, code with
  | true, .act a _ => !a.isCreate
  | _, _ => true

theorem background_creates_nothing [CFloat F] (hc : Reach (step cfg) anyStep (boot u pool) c)
    (ht : c.pool[i]? = some t) (hnext : t.next = some (.create b)) :
    t.background = false := by
  have hall : Code.All (createsNothing t.background) t.code = true :=
    code_all (by rintro (_ | _) <;> rfl) (by rintro (_ | _) <;> rfl) hc ht
  have hhere := Code.All.here hall
  obtain ⟨k, hcode⟩ := code_of_next hnext
  rw [hcode] at hhere
  cases hbg : t.background with
  | false => rfl
  | true => simp [hbg, createsNothing, Action.isCreate] at hhere

theorem set_running [CFloat F] (cfg : Config F) {j : ℕ} (ht : c.pool[j]? = some t)
    (hbg : t.background = true) (hcode : t.code = b.code) :
    ∃ c' t', step cfg c (.run j {}) = some c' ∧ c'.pool[j]? = some t' ∧ t'.running = true ∧
      ∀ (k : ℕ) (v : Thread), k ≠ j → c.pool[k]? = some v → c'.pool[k]? = some v := by
  obtain ⟨w, k, hfirst, hne⟩ : ∃ w k, b.code = .act (.setState w) k ∧ k ≠ .halt := by
    cases b <;> exact ⟨_, _, rfl, by decide⟩
  rw [hfirst] at hcode
  refine ⟨_, _, step_act cfg ht hcode rfl, pool_lookup_self ht, ?_, fun _ _ hk hv =>
    pool_lookup_ne hk hv⟩
  simp [Thread.running, Thread.alive, hbg, hne]

/-- A live thread can be set running, if it is not yet. -/
theorem make_running [CFloat F] (hc : Reach (step cfg) anyStep (boot u pool) c) {j : ℕ}
    (ht : c.pool[j]? = some t) (ha : t.alive = true) :
    ∃ c' t', Reach (step cfg) anyStep c c' ∧ c'.pool[j]? = some t' ∧ t'.running = true ∧
      ∀ (k : ℕ) (v : Thread), k ≠ j → c.pool[k]? = some v → c'.pool[k]? = some v := by
  cases hst : t.started with
  | true => exact ⟨c, t, Reach.start, ht, by simp [Thread.running, ha, hst], fun _ _ _ hv => hv⟩
  | false =>
    have hbg : t.background = true := by
      simp only [Thread.alive, Bool.and_eq_true] at ha
      exact ha.1
    obtain ⟨b, hcode⟩ := unstarted_code hc ht hbg hst
    obtain ⟨c', t', hs, hrest⟩ := set_running cfg ht hbg hcode
    exact ⟨c', t', Reach.next Reach.start trivial hs, hrest⟩

/-- Every creation next to a live thread leads, by some continuation, to two
    running threads. -/
theorem create_breaks_exclusion [CFloat F] (hc : Reach (step cfg) anyStep (boot u pool) c)
    (hstep : step cfg c m = some c') (hbad : ¬ LoneCreate c m) :
    ∃ c'', Reach (step cfg) anyStep c' c'' ∧ ¬ OneRunning c'' := by
  have hc' := Reach.next hc trivial hstep
  simp only [LoneCreate, Classical.not_imp, not_forall, Bool.not_eq_false] at hbad
  obtain ⟨hcr, v, hvmem, hva⟩ := hbad
  obtain ⟨j, hv⟩ := List.mem_iff_getElem?.mp hvmem
  rcases (machine cfg).step_cases hstep with ⟨r, rfl, rfl⟩ | ⟨i, o, t, s', t', new, rfl, ht, hx, rfl⟩
  · simp [creates] at hcr
  rcases exec_new ht hx with ⟨_, hno⟩ | ⟨b, rfl, _, hnext⟩
  · rw [hcr] at hno
    exact absurd hno (by simp)
  -- the live thread is not the creator, so it is still where it was
  have hji : j ≠ i := by
    rintro rfl
    rw [ht] at hv
    injection hv with hv
    subst hv
    have := background_creates_nothing hc ht hnext
    simp [Thread.alive, this] at hva
  have hj : j < c.pool.length := (List.getElem?_eq_some_iff.mp hv).1
  obtain ⟨c₁, v₁, hr₁, hv₁, hrun₁, hkeep₁⟩ := make_running hc' (pool_lookup_ne hji hv) hva
  -- the new thread stands behind everybody else
  have hnew : (c.pool.set i t' ++ [b.thread])[c.pool.length]? = some b.thread := by
    simp
  have hnew₁ := hkeep₁ c.pool.length b.thread (by omega) hnew
  obtain ⟨c₂, w₂, hs₂, hw₂, hrun₂, hkeep₂⟩ := set_running cfg hnew₁ rfl rfl
  refine ⟨c₂, Reach.next hr₁ trivial hs₂, fun hone => ?_⟩
  have heq := hone j c.pool.length v₁ w₂ (hkeep₂ j v₁ (by omega) hv₁) hw₂ hrun₁ hrun₂
  omega

/-! ## §4. Main results. -/

/-- **ONE BACKGROUND THREAD AT A TIME, EXACTLY WITH LONE CREATIONS.**  In every
    run in which each creation finds no background thread alive, at most one
    is ever between its first and its last statement; and every reachable
    creation that does find one can be continued into two running at once. -/
theorem background_exclusive {F : Type} [CFloat F] (cfg : Config F) (u : Startup)
    (pool : QQueue ℕ) :
    (∀ c, Reach (step cfg) LoneCreate (boot u pool) c → OneRunning c) ∧
    (∀ c m c', Reach (step cfg) anyStep (boot u pool) c → step cfg c m = some c' →
      ¬ LoneCreate c m → ∃ c'', Reach (step cfg) anyStep c' c'' ∧ ¬ OneRunning c'') := by
  constructor
  · intro c hc i j t v ht hv hrt hrv
    have hinv := Reach.invariant OneAlive (oneAlive_boot u pool)
      (fun _ _ _ h hok hs => oneAlive_step h hok hs) hc
    simp only [Thread.running, Bool.and_eq_true] at hrt hrv
    exact hinv i j t v ht hv hrt.1 hrv.1
  · intro c m c' hc hs hbad
    exact create_breaks_exclusion hc hs hbad

/-- Retraining a recovering worker after its start thread has returned: the
    second background thread runs alone. -/
theorem background_exclusive_retrain :
    ∃ c, Reach (step defaultConfig) LoneCreate (boot .recovery onePool) c ∧
      (c.pool.any Thread.running = true) ∧ OneRunning c := by
  obtain ⟨c, hreach, hrun⟩ := exists_reach_of_guardedExec (step defaultConfig) LoneCreate
    (boot .recovery onePool) (runs 0 17 ++ .arrive (.train 0) :: runs 1 6 ++ runs 2 3)
    (fun c => c.pool.any Thread.running) (by decide)
  exact ⟨c, hreach, hrun, (background_exclusive defaultConfig .recovery onePool).1 c hreach⟩

/-- Two `ns_train` requests, each followed by the first statement of its
    thread. -/
def trainTwice : List (Move Request Outcome) :=
  .arrive .serviceInit :: runs 0 7 ++ .arrive (.train 0) :: runs 1 6 ++ runs 2 1 ++
    .arrive (.train 0) :: runs 3 6 ++ runs 4 1

/-- Two background threads can run at once. -/
theorem two_background_threads :
    ¬ ∀ (cfg : Config ℚ) (u : Startup) (pool : QQueue ℕ) (c : Conf Server Thread),
      Reach (step cfg) anyStep (boot u pool) c → OneRunning c := by
  intro hall
  obtain ⟨c, hreach, hbad⟩ := exists_reach_of_guardedExec (step defaultConfig) anyStep
    (boot .fresh onePool) trainTwice
    (fun c => (c.pool[2]?).any Thread.running && (c.pool[4]?).any Thread.running) (by decide)
  have hone := hall defaultConfig .fresh onePool c hreach
  simp only [Bool.and_eq_true, Option.any_eq_true] at hbad
  obtain ⟨⟨t, ht, hrt⟩, v, hv, hrv⟩ := hbad
  exact absurd (hone 2 4 t v ht hv hrt hrv) (by decide)

end KalavaPir.Worker
