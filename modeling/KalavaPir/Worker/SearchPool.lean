/-
  KalavaPir.Worker.SearchPool — the pool of search objects.

  `initServer` fills `client_search_queue`, a ring of `maxclients` cells, with
  `maxclients − 1` objects numbered by `objId`; `ns_imSearch` pops one, works
  with it, and pushes it back.  Nothing writes `objId` afterwards (`reset()`
  leaves it alone), so an object IS its number here.

  What lies in the queue and what the threads hold together are the objects
  `0 … n−1`, each once.  A ring of `n + 1` cells holds `n` elements, hence the
  returning push always finds a cell.
-/
import Mathlib.Data.Multiset.Range
import Mathlib.Data.Multiset.OrderedMonoid
import KalavaPir.Worker.SearchExclusion

namespace KalavaPir.Worker

open KalavaPir.Framework List Option
open KalavaPir.Common

/-! ## §1. Filling the pool (worker/src/pir.cpp:240, `initServer`). -/

/-- `n` more rounds of the loop, the next object being number `i`; `none` is a
    `push` that spins for ever. -/
def fillPool : ℕ → ℕ → QQueue ℕ → Option (QQueue ℕ)
  | 0, _, q => some q
  | n + 1, i, q =>
    match q.push i with
    | none => none
    | some q' => fillPool n (i + 1) q'

/-- The queue `initServer` leaves behind.  `maxclients` is a `uint32_t`:
    `init` sees it as an `int32_t`, the loop bound `maxclients-1` does not. -/
def initPool (mem : ℕ → ℕ) (maxclients : BitVec 32) : Option (QQueue ℕ) :=
  match QQueue.init mem maxclients.toInt with
  | none => none
  | some q => fillPool (maxclients - 1).toNat 0 q

/-- The loop gets through as long as the ring has room, and leaves the objects
    in the order of their numbers. -/
theorem fillPool_toList (n : ℕ) : ∀ (i : ℕ) (q : QQueue ℕ), q.toList.length + n + 1 ≤ q.max_size_ →
    ∃ q', fillPool n i q = some q' ∧ q'.toList = q.toList ++ List.range' i n ∧
      q'.max_size_ = q.max_size_ := by
  induction n with
  | zero =>
    intro i q _
    exact ⟨q, rfl, by simp, rfl⟩
  | succ n ih =>
    intro i q hroom
    cases hp : q.push i with
    | none =>
      -- a full ring holds `max_size_ − 1` objects, and this one does not
      have hfull := (QQueue.push_eq_none_iff q i).mp hp
      omega
    | some q₁ =>
      have hlist := QQueue.push_toList hp
      have hmax := QQueue.push_max_size hp
      obtain ⟨q', hfill, hlist', hmax'⟩ := ih (i + 1) q₁ (by
        rw [hlist, hmax]
        simp only [length_append, length_singleton]
        omega)
      refine ⟨q', by simp only [fillPool, hp, hfill], ?_, by rw [hmax', hmax]⟩
      rw [hlist', hlist, range'_succ, append_assoc, singleton_append]

/-- **`initServer` fills the pool** for every `max-clients` its `init`
    accepts. -/
theorem initPool_toList (mem : ℕ → ℕ) {maxclients : BitVec 32} (hpos : 0 < maxclients.toInt) :
    ∃ pool, initPool mem maxclients = some pool ∧
      pool.toList = List.range (maxclients.toNat - 1) ∧ pool.max_size_ = maxclients.toNat := by
  have hnat : maxclients.toInt = (maxclients.toNat : ℤ) := by
    rw [BitVec.toInt_eq_toNat_cond] at hpos ⊢
    split <;> omega
  have hsub : (maxclients - 1).toNat = maxclients.toNat - 1 := by
    rw [BitVec.toNat_sub_of_le]
    · rfl
    · rw [BitVec.le_def]
      show 1 ≤ maxclients.toNat
      omega
  cases hq : QQueue.init mem maxclients.toInt with
  | none =>
    unfold QQueue.init at hq
    rw [dif_neg (by omega)] at hq
    exact absurd hq (by simp)
  | some q =>
    obtain ⟨hnil, hmax⟩ := QQueue.init_toList hq
    obtain ⟨pool, hfill, hlist, hmax'⟩ := fillPool_toList (maxclients - 1).toNat 0 q (by
      rw [hnil, hsub]
      simp only [length_nil]
      omega)
    refine ⟨pool, by simp only [initPool, hq, hfill], ?_, by omega⟩
    rw [hlist, hnil, hsub, nil_append, range_eq_range']

/-! ## §2. Who holds an object, by the code ahead of it. -/

/-- Past `pop()`, before `push(search_object)`. -/
def holding : WCode → Bool := Code.commits (· == .pushObj) (· == .popObj)

/-- What the programs respect: the library is searched only with an object,
    after a pop the push lies ahead, after a push it does not, and no test
    leads from one side to the other. -/
def pooledHere (code : WCode) : Bool :=
  (!searching code || holding code) &&
    match code with
    | .act .popObj k => holding k
    | .act .pushObj k => !holding k
    | .branch _ yes no => holding yes == holding no
    | _ => true

/-- `pooledHere` at every place. -/
def pooled : WCode → Bool := Code.All pooledHere

theorem request_pooled (r : Request) : pooled r.code = true ∧ holding r.code = false := by
  cases r <;> exact ⟨rfl, rfl⟩

theorem background_pooled (b : Background) : pooled b.code = true ∧ holding b.code = false := by
  cases b <;> exact ⟨rfl, rfl⟩

/-- A thread has its object exactly while its code says so. -/
def HoldsObject (_ : Server) (_ : ℕ) (t : Thread) : Prop :=
  pooled t.code = true ∧ t.obj.isSome = holding t.code

variable {s : Server} {i n : ℕ} {t : Thread} {new : List Thread} {F : Type} {c : Conf Server Thread}
  {cfg : Config F}

theorem holdsObject_fresh (h : pooled t.code = true ∧ holding t.code = false) (hobj : t.obj = none) :
    HoldsObject s i t :=
  ⟨h.1, by rw [h.2, hobj]; rfl⟩

/-! ## §3. One statement. -/

section Statement

variable {s s' : Server} {i : ℕ} {t t' : Thread} {o : Outcome} {a : Action}

/-- What an action does to the queue and to the object of its thread. -/
theorem perform_pool (h : perform s i t o a = some (s', t')) :
    (a = .popObj ∧ ∃ x, s.client_search_queue.pop = some (x, s'.client_search_queue) ∧
      t'.obj = some x) ∨
    (a = .pushObj ∧ ∃ x, t.obj = some x ∧
      s.client_search_queue.push x = some s'.client_search_queue ∧ t'.obj = none) ∨
    (a ≠ .popObj ∧ (a = .pushObj → t.obj = none) ∧
      s'.client_search_queue = s.client_search_queue ∧ t'.obj = t.obj) := by
  cases a with
  | popObj =>
    left
    simp only [perform] at h
    split at h
    · exact absurd h (by simp)
    · next x q hpop =>
        cases h
        exact ⟨rfl, x, hpop, rfl⟩
  | pushObj =>
    right
    simp only [perform] at h
    split at h
    · next hnone =>
        cases h
        exact Or.inr ⟨by simp, fun _ => hnone, rfl, rfl⟩
    next x hobj =>
      split at h
      · exact absurd h (by simp)
      · next q hpush =>
          cases h
          exact Or.inl ⟨rfl, x, hobj, hpush, rfl⟩
  | lock =>
    right; right
    simp only [perform] at h
    split at h
    · cases h
      exact ⟨by simp, by simp, rfl, rfl⟩
    · exact absurd h (by simp)
  | _ =>
    right; right
    obtain ⟨rfl, rfl⟩ := h
    exact ⟨by simp, by simp, rfl, rfl⟩

/-- The objects of a queue and of one thread. -/
def objects (q : QQueue ℕ) : Multiset ℕ := (q.toList : Multiset ℕ)
/-- The object that a thread has. -/
def Thread.objects (t : Thread) : Multiset ℕ := (t.obj.toList : Multiset ℕ)

theorem holding_act {k : WCode} (hpop : a ≠ .popObj) (hpush : a ≠ .pushObj) :
    holding (.act a k) = holding k := by
  have h₁ : (a == Action.pushObj) = false := beq_eq_false_iff_ne.mpr hpush
  have h₂ : (a == Action.popObj) = false := beq_eq_false_iff_ne.mpr hpop
  simp [holding, Code.commits, h₁, h₂]

theorem holding_pop (k : WCode) : holding (.act .popObj k) = false := by
  simp [holding, Code.commits]

theorem holding_push (k : WCode) : holding (.act .pushObj k) = true := by
  simp [holding, Code.commits]

/-- **An action conserves the objects**, and its thread holds one afterwards
    exactly if its code says so. -/
theorem perform_conserves {k : WCode} (hP : HoldsObject s i t) (hcode : t.code = .act a k)
    (h : perform s i { t with code := k, started := true } o a = some (s', t')) :
    objects s'.client_search_queue + t'.objects = objects s.client_search_queue + t.objects ∧
      HoldsObject s' i t' := by
  obtain ⟨hpool, hobj⟩ := hP
  rw [hcode] at hpool hobj
  have hhere := Code.All.here hpool
  obtain ⟨_, _, _, _, hk, _, _⟩ := perform_spec h
  have hk : t'.code = k := hk
  rcases perform_pool h with ⟨rfl, x, hpop, hx⟩ | ⟨rfl, x, ht, hpush, hnone⟩ |
      ⟨hnpop, hpush, hq, ho⟩
  · -- the thread had none, and takes the oldest one
    rw [holding_pop] at hobj
    have hold : t.obj = none := by simpa using hobj
    refine ⟨?_, by rw [hk]; exact Code.All.act hpool, ?_⟩
    · unfold objects Thread.objects
      rw [QQueue.pop_toList hpop, hx, hold, ← Multiset.cons_coe]
      simp only [toList_some, toList_none, Multiset.coe_nil, add_zero,
        Multiset.coe_singleton]
      rw [Multiset.add_comm, Multiset.singleton_add]
    · rw [hk, hx]
      have htrue : holding k = true := by
        simp only [pooledHere, Bool.and_eq_true] at hhere
        exact hhere.2
      exact htrue.symm
  · have ht : t.obj = some x := ht
    refine ⟨?_, by rw [hk]; exact Code.All.act hpool, ?_⟩
    · unfold objects Thread.objects
      rw [QQueue.push_toList hpush, hnone, ht, ← Multiset.coe_add]
      simp only [toList_some, toList_none, Multiset.coe_nil, add_zero]
    · rw [hk, hnone]
      have hfalse : holding k = false := by
        simp only [pooledHere, Bool.and_eq_true, Bool.not_eq_true'] at hhere
        exact hhere.2
      exact hfalse.symm
  · have ho : t'.obj = t.obj := ho
    by_cases hp : a = .pushObj
    · -- a push without an object: the code rules it out
      subst hp
      rw [holding_push] at hobj
      have hnone : t.obj = none := hpush rfl
      rw [hnone] at hobj
      exact absurd hobj (by simp)
    · refine ⟨by unfold objects Thread.objects; rw [hq, ho], by rw [hk]; exact Code.All.act hpool, ?_⟩
      rw [hk, ho, hobj, holding_act hnpop hp]

end Statement

/-! ## §4. The conservation law. -/

/-- The objects in the queue and those held by the threads. -/
def allObjects (c : Conf Server Thread) : Multiset ℕ :=
  objects c.shared.client_search_queue + (c.pool.map Thread.objects).sum

theorem sum_objects_new (h : ∀ t ∈ new, t.obj = none) : (new.map Thread.objects).sum = 0 := by
  induction new with
  | nil => rfl
  | cons t new ih =>
    rw [map_cons, sum_cons, ih (fun u hu => h u (mem_cons_of_mem t hu))]
    unfold Thread.objects
    rw [h t mem_cons_self]
    rfl

/-- **ONE STATEMENT CONSERVES THE POOL.** -/
theorem pool_conserved_step [CFloat F] {s' : Server} {t' : Thread} {o : Outcome} (hP : HoldsObject s i t)
    (hx : exec cfg s i t o = some (s', t', new)) :
    objects s'.client_search_queue + t'.objects = objects s.client_search_queue + t.objects ∧
      HoldsObject s' i t' ∧ ∀ u ∈ new, u.obj = none ∧ ∀ j, HoldsObject s' j u := by
  cases exec_inv hx with
  | act a k hcode hperf =>
    obtain ⟨hsum, hself⟩ := perform_conserves hP hcode hperf
    refine ⟨hsum, hself, fun u hu => ?_⟩
    obtain ⟨b, _, rfl⟩ := spawned_thread hu
    exact ⟨rfl, fun j => holdsObject_fresh (background_pooled b) rfl⟩
  | retry => exact ⟨rfl, hP, by simp⟩
  | branch b yes no hcode =>
    obtain ⟨hpool, hobj⟩ := hP
    rw [hcode] at hpool hobj
    have hsame : holding yes = holding no := by
      have hhere := Code.All.here hpool
      simp only [pooledHere, Bool.and_eq_true, beq_iff_eq] at hhere
      exact hhere.2
    have hboth : holding (.branch b yes no) = holding no := by
      simp only [holding, Code.commits] at hsame ⊢
      rw [hsame, Bool.and_self]
    refine ⟨rfl, ?_, by simp⟩
    show pooled (if _ then _ else _) = true ∧ t.obj.isSome = holding (if _ then _ else _)
    rw [hobj, hboth]
    split
    · exact ⟨Code.All.yes hpool, hsame.symm⟩
    · exact ⟨Code.All.no hpool, rfl⟩

/-- The invariant: every thread holds what its code says, and the objects are
    those the pool was filled with. -/
structure PoolInv (n : ℕ) (c : Conf Server Thread) : Prop where
  threads : Annotated (fun s => s.client_search_queue.max_size_ = n + 1) HoldsObject c
  objects : allObjects c = Multiset.range n

theorem exec_max_size [CFloat F] {s' : Server} {t' : Thread} {o : Outcome}
    (hx : exec cfg s i t o = some (s', t', new)) :
    s'.client_search_queue.max_size_ = s.client_search_queue.max_size_ := by
  cases exec_inv hx with
  | act a k hcode hperf =>
    rcases perform_pool hperf with ⟨_, x, hpop, _⟩ | ⟨_, x, _, hpush, _⟩ | ⟨_, _, hq, _⟩
    · exact QQueue.pop_max_size hpop
    · exact QQueue.push_max_size hpush
    · rw [hq]
  | retry => rfl
  | branch => rfl

variable {c' : Conf Server Thread} {m : Move Request Outcome}

/-- The threads keep to their code. -/
theorem holdsObject_step [CFloat F]
    (hc : Annotated (fun s => s.client_search_queue.max_size_ = n + 1) HoldsObject c)
    (hstep : step cfg c m = some c') :
    Annotated (fun s => s.client_search_queue.max_size_ = n + 1) HoldsObject c' := by
  refine Annotated.step (machine cfg) anyStep ?_ ?_ ?_ hc trivial hstep
  · intro c i o t s' t' new hc _ ht hx
    obtain ⟨_, hself, hnew⟩ := pool_conserved_step (hc.local_ i t ht) hx
    exact ⟨(exec_max_size hx).trans hc.global, hself, fun j u hu => (hnew u hu).2 j⟩
  · -- the code and the object of a thread are its own
    intro c i o t s' t' new hc _ ht hx j u _ hu
    exact hc.local_ j u hu
  · intro c r j _
    exact holdsObject_fresh (request_pooled r) rfl

/-- **One step of the worker.** -/
theorem poolInv_step [CFloat F] (hc : PoolInv n c) (hstep : step cfg c m = some c') : PoolInv n c' := by
  refine ⟨holdsObject_step hc.threads hstep, ?_⟩
  have hold := hc.objects
  rcases (machine cfg).step_cases hstep with ⟨r, rfl, rfl⟩ | ⟨i, o, t, s', t', new, rfl, ht, hx, rfl⟩
  · -- a request joins with empty hands
    show _ + ((c.pool ++ [r.thread]).map Thread.objects).sum = _
    have hempty : ∀ t ∈ [r.thread], t.obj = none := by simp [Request.thread]
    rw [map_append, sum_append, sum_objects_new hempty, add_zero]
    exact hold
  obtain ⟨hsum, _, hnew⟩ := pool_conserved_step (hc.threads.local_ i t ht) hx
  have hset := pool_sum_set Thread.objects t' ht
  show objects s'.client_search_queue + ((c.pool.set i t' ++ new).map Thread.objects).sum = _
  rw [map_append, sum_append, sum_objects_new (fun u hu => (hnew u hu).1), add_zero,
    ← hold]
  -- what the thread gained the queue lost: cancel what the thread had
  refine add_right_cancel (b := t.objects) ?_
  calc objects s'.client_search_queue + ((c.pool.set i t').map Thread.objects).sum + t.objects
      = objects s'.client_search_queue + (((c.pool.set i t').map Thread.objects).sum + t.objects) := by
        rw [add_assoc]
    _ = (objects s'.client_search_queue + t'.objects) + (c.pool.map Thread.objects).sum := by
        rw [hset, add_assoc, add_comm t'.objects]
    _ = objects c.shared.client_search_queue + (c.pool.map Thread.objects).sum + t.objects := by
        rw [hsum, add_right_comm]

theorem poolInv_boot (u : Startup) {pool : QQueue ℕ} (hlist : pool.toList = List.range n)
    (hmax : pool.max_size_ = n + 1) : PoolInv n (boot u pool) := by
  have hqueue : (boot u pool).shared.client_search_queue = pool := rfl
  constructor
  · refine ⟨hmax, fun i t ht => ?_⟩
    obtain ⟨b, rfl⟩ := boot_thread ht
    exact holdsObject_fresh (background_pooled b) rfl
  · unfold allObjects
    rw [hqueue, sum_objects_new, add_zero, objects, hlist]
    · rfl
    · intro t ht
      obtain ⟨i, hi, rfl⟩ := getElem_of_mem ht
      have hget : (boot u pool).pool[i]? = some (boot u pool).pool[i] := getElem?_eq_getElem hi
      obtain ⟨b, hb⟩ := boot_thread hget
      rw [hb]
      rfl

/-! ## §5. What follows from it. -/

/-- The pool is intact. -/
structure PoolIntact (n : ℕ) (c : Conf Server Thread) : Prop where
  /-- queue and threads together have the objects `0 … n−1`, each once -/
  conserved : allObjects c = Multiset.range n
  /-- the returning push has an object to return and finds room for it -/
  push_fits : ∀ t ∈ c.pool, t.next = some .pushObj →
    ∃ x q, t.obj = some x ∧ c.shared.client_search_queue.push x = some q
  /-- whoever is inside `search_image` has an object, and nobody else has it -/
  searching_apart : ∀ (i j : ℕ) (t u : Thread), i ≠ j → c.pool[i]? = some t → c.pool[j]? = some u →
    searching t.code = true → searching u.code = true →
    ∃ x y, t.obj = some x ∧ u.obj = some y ∧ x ≠ y

theorem PoolInv.push_fits (hc : PoolInv n c) (ht : t ∈ c.pool) (hnext : t.next = some .pushObj) :
    ∃ x q, t.obj = some x ∧ c.shared.client_search_queue.push x = some q := by
  obtain ⟨i, hi, rfl⟩ := getElem_of_mem ht
  obtain ⟨_, hobj⟩ := hc.threads.local_ i _ (getElem?_eq_getElem hi)
  obtain ⟨k, hcode⟩ := code_of_next hnext
  rw [hcode, holding_push] at hobj
  obtain ⟨x, hx⟩ := isSome_iff_exists.mp hobj
  cases hpush : c.shared.client_search_queue.push x with
  | some q => exact ⟨x, q, hx, hpush⟩
  | none =>
    -- a full queue holds all `n` objects, and this thread has one of them
    have hfull := (QQueue.push_eq_none_iff _ _).mp hpush
    have hmax := hc.threads.global
    have hcard := congrArg Multiset.card hc.objects
    have hle : Thread.objects c.pool[i] ≤ (c.pool.map Thread.objects).sum :=
      le_sum_of_mem (mem_map_of_mem ht)
    have hone := Multiset.card_le_card hle
    simp only [allObjects, Worker.objects, Thread.objects, hx, Multiset.card_add, Multiset.coe_card,
      Multiset.card_range, toList_some, length_singleton] at hcard hone
    omega

theorem PoolInv.searching_holds (hc : PoolInv n c) (ht : c.pool[i]? = some t) (hs : searching t.code = true) :
    ∃ x, t.obj = some x := by
  obtain ⟨hpool, hobj⟩ := hc.threads.local_ i t ht
  have hhere := Code.All.here hpool
  simp only [pooledHere, hs, Bool.not_true, Bool.false_or, Bool.and_eq_true] at hhere
  exact isSome_iff_exists.mp (hobj.trans hhere.1)

theorem PoolInv.objects_apart (hc : PoolInv n c) {j : ℕ} {u : Thread} (hne : i ≠ j)
    (ht : c.pool[i]? = some t) (hu : c.pool[j]? = some u) {x y : ℕ} (hx : t.obj = some x)
    (hy : u.obj = some y) : x ≠ y := by
  rintro rfl
  have hpair : t.objects + u.objects ≤ (c.pool.map Thread.objects).sum :=
    pool_add_le_sum Thread.objects hne ht hu
  have hle : t.objects + u.objects ≤ Multiset.range n := by
    rw [← hc.objects, allObjects]
    exact hpair.trans (Multiset.le_add_left _ _)
  have hnodup := Multiset.nodup_of_le hle (Multiset.nodup_range n)
  simp only [Thread.objects, hx, hy, toList_some, Multiset.coe_singleton] at hnodup
  exact absurd hnodup (by simp)

theorem PoolInv.intact (hc : PoolInv n c) : PoolIntact n c := by
  refine ⟨hc.objects, fun t ht hnext => hc.push_fits ht hnext, ?_⟩
  intro i j t u hne ht hu hst hsu
  obtain ⟨x, hx⟩ := hc.searching_holds ht hst
  obtain ⟨y, hy⟩ := hc.searching_holds hu hsu
  exact ⟨x, y, hx, hy, hc.objects_apart hne ht hu hx hy⟩

/-! ## §6. Main result. -/

/-- **THE POOL IS CONSERVED.**  For every `max-clients` that `initServer`
    accepts, its loop fills the queue with the objects `0 … max-clients − 2`,
    and in every interleaving of any requests the pool is intact. -/
theorem search_pool {F : Type} [CFloat F] (cfg : Config F) (mem : ℕ → ℕ) (maxclients : BitVec 32)
    (hpos : 0 < maxclients.toInt) :
    ∃ pool, initPool mem maxclients = some pool ∧
      pool.toList = List.range (maxclients.toNat - 1) ∧
      ∀ (u : Startup) (c : Conf Server Thread), Reach (step cfg) anyStep (boot u pool) c →
        PoolIntact (maxclients.toNat - 1) c := by
  obtain ⟨pool, hinit, hlist, hmax⟩ := initPool_toList mem hpos
  refine ⟨pool, hinit, hlist, fun u c hc => ?_⟩
  have hsize : pool.max_size_ = maxclients.toNat - 1 + 1 := by
    have := pool.front_lt
    omega
  have hinv := Reach.invariant (PoolInv (maxclients.toNat - 1)) (poolInv_boot u hlist hsize)
    (fun _ _ _ h _ hs => poolInv_step h hs) hc
  exact hinv.intact

/-- With the default of 64 clients: 63 objects. -/
theorem search_pool_default :
    0 < (64#32).toInt ∧ ∃ pool, initPool (fun _ => 0) 64#32 = some pool ∧
      pool.toList = List.range 63 ∧
      ∀ (u : Startup) (c : Conf Server Thread), Reach (step defaultConfig) anyStep (boot u pool) c →
        PoolIntact 63 c :=
  ⟨by decide, search_pool defaultConfig (fun _ => 0) 64#32 (by decide)⟩

end KalavaPir.Worker
