/-
  KalavaPir.Worker.TrainingMutex — who unlocks `mutex_for_training`.

  `ns_trainAdd` and `ns_trainDelete` take the mutex around three library calls
  that the source guesses to be non-reentrant, and release it at the label
  `end:`.  Their entry test jumps to the SAME label before the mutex has been
  taken: a request with an empty path, or one that does not find the worker
  READY, unlocks a mutex it does not hold.
-/
import KalavaPir.Worker.Service

namespace KalavaPir.Worker

open KalavaPir.Framework
open KalavaPir.Common

/-! ## §1. The section, by its code. -/

/-- Past `lock()`, before `unlock()`. -/
def inSection : WCode → Bool := Code.commits (· == .unlock) (· == .lock)

/-- The next statement is one of those the mutex is there for: the library
    calls on the training data and the counter updates. -/
def touchesTraining : WCode → Bool
  | .branch (.succeeds .add_train_image) _ _ => true
  | .branch (.succeeds .delete_train_image) _ _ => true
  | .branch (.succeeds .update_train_file) _ _ => true
  | .act .incDelta _ => true
  | .act .decDelta _ => true
  | _ => false

/-- The entry test of the two handlers. -/
def atEntry : WCode → Bool
  | .branch (.trainable _) _ _ => true
  | _ => false

/-- Only the holder unlocks, and at most one request works on the training
    data. -/
def MutexDiscipline (c : Conf Server Thread) : Prop :=
  (∀ (i : ℕ) (t : Thread), c.pool[i]? = some t → t.next = some .unlock →
    c.shared.mutex_for_training = some i) ∧
  (∀ (i j : ℕ) (t v : Thread), c.pool[i]? = some t → c.pool[j]? = some v →
    touchesTraining t.code = true → touchesTraining v.code = true → i = j)

/-- The thread's next statement is not an entry test that fails. -/
def passesEntry (s : Server) : WCode → Bool
  | .branch (.trainable imgPath) _ _ => !imgPath.isEmpty && s.serverstate == PIR_STATE_READY
  | _ => true

/-- **The condition**: no request takes the early exit — whenever an entry
    test is executed, the path is not empty and the worker is READY. -/
def NoEarlyExit (c : Conf Server Thread) : Move Request Outcome → Prop
  | .arrive _ => True
  | .run i _ => ∀ t ∈ c.pool[i]?, passesEntry c.shared t.code = true

instance (c : Conf Server Thread) (m : Move Request Outcome) : Decidable (NoEarlyExit c m) :=
  match m with
  | .arrive _ => inferInstanceAs (Decidable True)
  | .run i _ =>
    inferInstanceAs (Decidable (∀ t ∈ c.pool[i]?, passesEntry c.shared t.code = true))

/-- What the programs respect: the entry test stands first and leads to
    `lock()`, other tests stay on their side of the mutex, nothing follows
    `unlock()`, and the training data is only touched inside. -/
def bracketedHere : WCode → Bool
  | .act .unlock k => !inSection k && !atEntry k
  | .act a k => (!touchesTraining (.act a k) || inSection (.act a k)) && !atEntry k
  | .branch (.trainable _) yes no => !inSection yes && !atEntry yes && !atEntry no
  | .branch b yes no =>
    (inSection yes == inSection no) && !atEntry yes && !atEntry no &&
      (!touchesTraining (.branch b yes no) || inSection (.branch b yes no))
  | .halt => true

/-- `bracketedHere` at every place. -/
def bracketed : WCode → Bool := Code.All bracketedHere

theorem request_bracketed (r : Request) : bracketed r.code = true ∧ inSection r.code = false := by
  cases r <;> exact ⟨rfl, rfl⟩

theorem background_bracketed (b : Background) : bracketed b.code = true ∧ inSection b.code = false := by
  cases b <;> exact ⟨rfl, rfl⟩

theorem inSection_of_touches {code : WCode} (hb : bracketed code = true)
    (h : touchesTraining code = true) : inSection code = true := by
  have hhere := Code.All.here hb
  cases code with
  | halt => simp [touchesTraining] at h
  | act a k => cases a <;> simp_all [touchesTraining, bracketedHere]
  | branch b yes no => cases b <;> simp_all [touchesTraining, bracketedHere]

variable {F : Type} {s : Server} {c c' : Conf Server Thread} {m : Move Request Outcome} {cfg : Config F}

/-- Taking a branch does not enter the section. -/
theorem inSection_of_branch [CFloat F] {o : Outcome} {b : Test} {yes no : WCode}
    (hb : bracketed (.branch b yes no) = true) (hpass : passesEntry s (.branch b yes no) = true)
    (h : inSection (if holds cfg s o b then yes else no) = true) : inSection (.branch b yes no) = true := by
  have hhere := Code.All.here hb
  cases b with
  | trainable p =>
    have hgo : holds cfg s o (.trainable p) = true := hpass
    rw [hgo] at h
    simp [bracketedHere] at hhere
    simp [hhere.1.1] at h
  | _ =>
    simp only [bracketedHere, Bool.and_eq_true, beq_iff_eq] at hhere
    have heq := hhere.1.1.1
    simp only [inSection, Code.commits, Bool.and_eq_true]
    simp only [inSection] at heq h
    split at h
    · exact ⟨h, heq ▸ h⟩
    · exact ⟨heq.symm ▸ h, h⟩

/-! ## §2. The invariant: whoever is inside holds the mutex. -/

/-- The local assertion. -/
def HoldsInside (s : Server) (i : ℕ) (t : Thread) : Prop :=
  bracketed t.code = true ∧ (inSection t.code = true → s.mutex_for_training = some i)

theorem holdsInside_fresh {i : ℕ} {t : Thread} (h : bracketed t.code = true ∧ inSection t.code = false) :
    HoldsInside s i t :=
  ⟨h.1, fun hin => absurd hin (by simp [h.2])⟩

/-- The mutex after an action, seen by a thread that holds it and is not the
    one that moves. -/
theorem mutexAfter_other {s' : Server} {i j : ℕ} {t t' : Thread} {o : Outcome} {a : Action} {k : WCode}
    (hP : HoldsInside s i t) (hcode : t.code = .act a k)
    (hperf : perform s i { t with code := k, started := true } o a = some (s', t')) (hne : j ≠ i)
    (hj : s.mutex_for_training = some j) : s'.mutex_for_training = some j := by
  obtain ⟨_, _, _, hmtx, _⟩ := perform_spec hperf
  rw [hmtx]
  cases a with
  | lock =>
    rw [perform_lock hperf] at hj
    exact absurd hj (by simp)
  | unlock =>
    have hi := hP.2 (by rw [hcode]; exact Code.commits_of_hit (by simp))
    rw [hi] at hj
    injection hj with hj
    exact absurd hj.symm hne
  | _ => exact hj

/-- **One step.** -/
theorem holdsInside_step [CFloat F] (hc : Annotated (fun _ => True) HoldsInside c) (hok : NoEarlyExit c m)
    (hstep : step cfg c m = some c') : Annotated (fun _ => True) HoldsInside c' := by
  refine Annotated.step (machine cfg) NoEarlyExit ?_ ?_ ?_ hc hok hstep
  · -- the moving thread
    intro c i o t s' t' new hc hok ht hx
    obtain ⟨hbr, hin⟩ := hc.local_ i t ht
    cases exec_inv hx with
    | act a k hcode hperf =>
      obtain ⟨_, _, _, hmtx, hcode', _, _⟩ := perform_spec hperf
      have hk : t'.code = k := hcode'
      rw [hcode] at hbr hin
      refine ⟨trivial, ⟨by rw [hk]; exact Code.All.act hbr, ?_⟩, fun j u hu => ?_⟩
      · rw [hk, hmtx]
        intro hsec
        cases a with
        | lock => rfl
        | unlock =>
          have hhere := Code.All.here hbr
          simp [bracketedHere, hsec] at hhere
        | _ => exact hin (Code.commits_of_act (by simp) hsec)
      · obtain ⟨b, _, rfl⟩ := spawned_thread hu
        exact holdsInside_fresh (background_bracketed b)
    | retry => exact ⟨trivial, ⟨hbr, hin⟩, by simp⟩
    | branch b yes no hcode =>
      have hpass := hok t ht
      rw [hcode] at hbr hin hpass
      refine ⟨trivial, ⟨?_, fun hsec => hin (inSection_of_branch hbr hpass hsec)⟩, by simp⟩
      show bracketed (if _ then _ else _) = true
      split
      · exact Code.All.yes hbr
      · exact Code.All.no hbr
  · -- every other thread
    intro c i o t s' t' new hc _ ht hx j u hne hu
    obtain ⟨hbr, hin⟩ := hc.local_ j u hu
    refine ⟨hbr, fun hsec => ?_⟩
    cases exec_inv hx with
    | act a k hcode hperf =>
      exact mutexAfter_other (hc.local_ i t ht) hcode hperf hne (hin hsec)
    | retry => exact hin hsec
    | branch => exact hin hsec
  · intro c r j _
    exact holdsInside_fresh (request_bracketed r)

theorem holdsInside_boot (u : Startup) (pool : QQueue ℕ) :
    Annotated (fun _ => True) HoldsInside (boot u pool) := by
  refine ⟨trivial, fun i t ht => ?_⟩
  obtain ⟨b, rfl⟩ := boot_thread ht
  exact holdsInside_fresh (background_bracketed b)

theorem mutexDiscipline_of_holdsInside (hc : Annotated (fun _ => True) HoldsInside c) :
    MutexDiscipline c := by
  constructor
  · intro i t ht hnext
    refine (hc.local_ i t ht).2 ?_
    obtain ⟨k, hcode⟩ := code_of_next hnext
    rw [hcode]
    exact Code.commits_of_hit (by simp)
  · intro i j t v ht hv htt htv
    have hi := (hc.local_ i t ht).2 (inSection_of_touches (hc.local_ i t ht).1 htt)
    have hj := (hc.local_ j v hv).2 (inSection_of_touches (hc.local_ j v hv).1 htv)
    rw [hi] at hj
    injection hj

/-! ## §3. The condition is exact. -/

/-- A request that has not executed its entry test holds nothing. -/
structure EntryFree (c : Conf Server Thread) : Prop where
  bound : ∀ k, c.shared.mutex_for_training = some k → k < c.pool.length
  free : ∀ (i : ℕ) (t : Thread), c.pool[i]? = some t → atEntry t.code = true →
    c.shared.mutex_for_training ≠ some i

theorem not_atEntry_act {a : Action} {k : WCode} (h : bracketed (.act a k) = true) : atEntry k = false := by
  have hhere := Code.All.here h
  cases a <;> simp_all [bracketedHere]

theorem not_atEntry_branch {b : Test} {yes no : WCode} (h : bracketed (.branch b yes no) = true) :
    atEntry yes = false ∧ atEntry no = false := by
  have hhere := Code.All.here h
  cases b <;> simp_all [bracketedHere]

section Move

variable {F : Type} [CFloat F] {cfg : Config F} {s s' : Server} {i : ℕ} {t t' : Thread} {o : Outcome}
  {new : List Thread} (hx : exec cfg s i t o = some (s', t', new))
include hx

/-- After its move a thread is past its entry test … -/
theorem exec_atEntry (hbr : bracketed t.code = true) (hat : atEntry t'.code = true) : t'.code = t.code := by
  cases exec_inv hx with
  | act a k hcode hperf =>
    rw [hcode] at hbr
    rw [(perform_spec hperf).2.2.2.2.1] at hat
    rw [not_atEntry_act hbr] at hat
    exact absurd hat (by simp)
  | retry => rfl
  | branch b yes no hcode =>
    rw [hcode] at hbr
    revert hat
    show atEntry (if _ then _ else _) = true → _
    split
    · simp [(not_atEntry_branch hbr).1]
    · simp [(not_atEntry_branch hbr).2]

theorem spawned_not_atEntry : ∀ v ∈ new, atEntry v.code = false := by
  intro v hv
  cases exec_inv hx with
  | act a k hcode hperf =>
    obtain ⟨b, _, rfl⟩ := spawned_thread hv
    cases b <;> rfl
  | retry => simp at hv
  | branch => simp at hv

/-- The mutex belongs to the old holder or to the thread that moved. -/
theorem exec_mutex {k : ℕ} (hk : s'.mutex_for_training = some k) :
    s.mutex_for_training = some k ∨ (k = i ∧ t'.code ≠ t.code) := by
  cases exec_inv hx with
  | act a k' hcode hperf =>
    rw [(perform_spec hperf).2.2.2.1] at hk
    cases a with
    | lock =>
      right
      injection hk with hk
      refine ⟨hk.symm, fun heq => ?_⟩
      rw [(perform_spec hperf).2.2.2.2.1, hcode] at heq
      have hsize := congrArg (Code.weight (fun _ => 0)) heq
      simp [Code.weight] at hsize
    | unlock => exact absurd hk (by simp [Action.mutexAfter])
    | _ => exact Or.inl hk
  | retry | branch => exact Or.inl hk

end Move

theorem entryFree_step [CFloat F]
    (hbr : ∀ (i : ℕ) (t : Thread), c.pool[i]? = some t → bracketed t.code = true) (hE : EntryFree c)
    (hstep : step cfg c m = some c') : EntryFree c' := by
  rcases (machine cfg).step_cases hstep with
    ⟨r, rfl, rfl⟩ | ⟨i, o, t, s', t', new, rfl, ht, hx, rfl⟩
  · refine ⟨fun k hk => ?_, fun j v hv hat hm => ?_⟩
    · have := hE.bound k hk
      simp only [List.length_append, List.length_cons, List.length_nil]
      omega
    · rcases pool_lookup_arrive hv with hold | ⟨hj, _⟩
      · exact hE.free j v hold hat hm
      · have := hE.bound j hm
        omega
  have hi : i < c.pool.length := (List.getElem?_eq_some_iff.mp ht).1
  refine ⟨fun k hk => ?_, fun j v hv hat hm => ?_⟩
  · have hlen : k < c.pool.length := by
      rcases exec_mutex hx hk with hold | ⟨rfl, _⟩
      · exact hE.bound k hold
      · exact hi
    simp only [List.length_append, List.length_set]
    omega
  · rcases pool_lookup hv with ⟨rfl, rfl⟩ | ⟨hne, hold⟩ | ⟨_, hmem⟩
    · have hsame := exec_atEntry hx (hbr j t ht) hat
      rcases exec_mutex hx hm with hold | ⟨_, hdiff⟩
      · exact hE.free j t ht (hsame ▸ hat) hold
      · exact hdiff hsame
    · rcases exec_mutex hx hm with hold' | ⟨hji, _⟩
      · exact hE.free j v hold hat hold'
      · exact hne hji
    · rw [spawned_not_atEntry hx v hmem] at hat
      exact absurd hat (by simp)

variable {pool : QQueue ℕ}

theorem entryFree_reach [CFloat F] {u : Startup} (hc : Reach (step cfg) anyStep (boot u pool) c) :
    EntryFree c := by
  have hinv : Reach (step cfg) anyStep (boot u pool) c ∧ EntryFree c := by
    refine Reach.invariant
      (fun c => Reach (step cfg) anyStep (boot u pool) c ∧ EntryFree c)
      ⟨Reach.start, ?_, fun i t ht _ => ?_⟩ (fun c m c' h hok hstep => ?_) hc
    · intro k hk
      exact absurd hk (by simp [boot, Server.boot])
    · simp [boot, Server.boot]
    · obtain ⟨hreach, hE⟩ := h
      have hbr : ∀ (i : ℕ) (t : Thread), c.pool[i]? = some t → bracketed t.code = true :=
        fun i t ht => code_all (p := fun _ => bracketedHere) (fun r => (request_bracketed r).1)
          (fun b => (background_bracketed b).1) hreach ht
      exact ⟨Reach.next hreach hok hstep, entryFree_step hbr hE hstep⟩
  exact hinv.2

/-- The early exit of the two handlers: `ret=PIR_SOAP_TAG_ERR; goto end;`. -/
def exitsThroughUnlock : WCode → Bool
  | .branch (.trainable _) _ no => no == .act (.setRet PIR_SOAP_TAG_ERR) trainEnd
  | _ => true

/-- Every early exit leads, by the handler's own next statement, to an unlock
    by a request that does not hold the mutex. -/
theorem early_exit_breaks_mutex [CFloat F] {u : Startup} (hc : Reach (step cfg) anyStep (boot u pool) c)
    (hstep : step cfg c m = some c') (hbad : ¬ NoEarlyExit c m) :
    ∃ c'', Reach (step cfg) anyStep c' c'' ∧ ¬ MutexDiscipline c'' := by
  rcases (machine cfg).step_cases hstep with ⟨r, rfl, rfl⟩ | ⟨i, o, t, s', t', new, rfl, ht, hx, rfl⟩
  · exact absurd trivial hbad
  simp only [NoEarlyExit, ht, Option.mem_def, Option.some.injEq, forall_eq',
    Bool.not_eq_true] at hbad
  have hexit : Code.All exitsThroughUnlock t.code = true := code_all
    (p := fun _ => exitsThroughUnlock) (by rintro (_ | _) <;> rfl) (by rintro (_ | _) <;> rfl)
    hc ht
  cases exec_inv hx with
  | act a k hcode hperf | retry a k hcode _ _ => simp [hcode, passesEntry] at hbad
  | branch b yes no hcode =>
    rw [hcode] at hbad hexit
    cases b with
    | trainable p =>
      have hno : holds cfg c.shared o (.trainable p) = false := hbad
      have hcode₁ := Code.All.here hexit
      simp only [exitsThroughUnlock, beq_iff_eq] at hcode₁
      subst hcode₁
      have hfree := (entryFree_reach hc).free i t ht (by rw [hcode]; rfl)
      simp only [hno, Bool.false_eq_true, if_false]
      -- `ret=PIR_SOAP_TAG_ERR`, and the request stands before `unlock()`
      refine ⟨_, Reach.next Reach.start trivial
        (step_act cfg (pool_lookup_self ht) rfl rfl), fun hdisc => ?_⟩
      exact hfree (hdisc.1 i _ (pool_lookup_self (pool_lookup_self ht)) rfl)
    | _ => simp [passesEntry] at hbad

/-! ## §4. Main results. -/

/-- **THE MUTEX HOLDS, EXACTLY WITHOUT EARLY EXITS.**  In every run in which no
    request takes the early exit, `mutex_for_training` is unlocked only by its
    holder and at most one request is working on the training data; and every
    reachable early exit can be continued into an unlock by a request that does
    not hold the mutex. -/
theorem mutex_discipline {F : Type} [CFloat F] (cfg : Config F) (u : Startup) (pool : QQueue ℕ) :
    (∀ c, Reach (step cfg) NoEarlyExit (boot u pool) c → MutexDiscipline c) ∧
    (∀ c m c', Reach (step cfg) anyStep (boot u pool) c → step cfg c m = some c' →
      ¬ NoEarlyExit c m → ∃ c'', Reach (step cfg) anyStep c' c'' ∧ ¬ MutexDiscipline c'') := by
  constructor
  · intro c hc
    exact mutexDiscipline_of_holdsInside (Reach.invariant (Annotated (fun _ => True) HoldsInside)
      (holdsInside_boot u pool) (fun _ _ _ h hok hs => holdsInside_step h hok hs) hc)
  · intro c m c' hc hs hbad
    exact early_exit_breaks_mutex hc hs hbad

/-- Two adds on a READY worker: one is inside, the other waits at `lock()`. -/
theorem mutex_discipline_two_adds :
    ∃ c, Reach (step defaultConfig) NoEarlyExit (boot .recovery onePool) c ∧
      c.pool.any (fun t => touchesTraining t.code) = true ∧ MutexDiscipline c := by
  obtain ⟨c, hreach, hin⟩ := exists_reach_of_guardedExec (step defaultConfig) NoEarlyExit
    (boot .recovery onePool)
    (runs 0 17 ++ .arrive (.trainAdd ['a']) :: runs 1 3 ++ .arrive (.trainAdd ['b']) :: runs 2 1)
    (fun c => c.pool.any (fun t => touchesTraining t.code)) (by decide)
  exact ⟨c, hreach, hin, (mutex_discipline defaultConfig .recovery onePool).1 c hreach⟩

/-- On a READY worker: an add enters the section; a second add with an EMPTY
    path is rejected and unlocks; a delete then locks and is let in. -/
def rejectedUnlock : List (Move Request Outcome) :=
  runs 0 17 ++ .arrive (.trainAdd ['a']) :: runs 1 2 ++ .arrive (.trainAdd []) :: runs 2 3 ++
    .arrive (.trainDelete ['a']) :: runs 3 2

/-- The mutex does not exclude. -/
theorem unlock_without_lock :
    ¬ ∀ (cfg : Config ℚ) (u : Startup) (pool : QQueue ℕ) (c : Conf Server Thread),
      Reach (step cfg) anyStep (boot u pool) c → MutexDiscipline c := by
  intro hall
  obtain ⟨c, hreach, hbad⟩ := exists_reach_of_guardedExec (step defaultConfig) anyStep
    (boot .recovery onePool) rejectedUnlock
    (fun c => (c.pool[1]?).any (fun t => touchesTraining t.code) &&
      (c.pool[3]?).any (fun t => touchesTraining t.code)) (by decide)
  simp only [Bool.and_eq_true, Option.any_eq_true] at hbad
  obtain ⟨⟨t, ht, htt⟩, v, hv, htv⟩ := hbad
  have hone := (hall defaultConfig .recovery onePool c hreach).2 1 3 t v ht hv htt htv
  exact absurd hone (by decide)

end KalavaPir.Worker
