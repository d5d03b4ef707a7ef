/-
  KalavaPir.Common.QQSParallelSort — when the wait of `quick_sort` ends.

  The flag of a sort is the LOAD of its outstanding work: 2 for a node, queued
  or popped or sorted, and what a thread after its partition has still to add or
  to hand on.  It is 0 only when nothing is outstanding.  The ranges of the
  outstanding work are the tasks of `Framework.RangeTasks`.
-/
import KalavaPir.Common.QQSParallel
import Mathlib.Algebra.Order.Ring.Int
import Mathlib.Tactic.Ring

namespace KalavaPir.Common.QQSParallel

open KalavaPir.Framework List

variable {K : Type}

/-! ## §1. The accounting. -/

/-- What a thread and the busy list have to do for the sort `o`. -/
def pending (f : Thread K → Multiset (ℤ × ℤ)) (cc : Shared K) (t : Thread K) (o : ℕ) :
    Multiset (ℤ × ℤ) :=
  queue cc o + forSort f o t

/-- What they count for in its flag. -/
def dues (cc : Shared K) (t : Thread K) (o : ℕ) : ℤ :=
  2 * (queue cc o).card + forSort Thread.weight o t

variable {M : Type} {t t' : Thread K} {cc cc' : Shared K} {node : SORT_INFO}
  {c : Conf (Shared K) (Thread K)}

variable {f : Thread K → M} {o : ℕ} {rest : List SORT_INFO} {c' : Conf (Shared K) (Thread K)}
  {org : ORG_INFO K} {key : ℤ → K}

theorem forSort_other [AddCommMonoid M] (h : t.worksFor o = false) :
    forSort f o t = 0 := by
  rw [forSort, h]
  rfl

theorem forSort_self [AddCommMonoid M] (h : t.worksFor o = true) :
    forSort f o t = f t :=
  if_pos h

theorem forSort_popped [AddCommMonoid M] (f : Thread K → M) (node : SORT_INFO) :
    forSort f node.org (.popped node) = f (.popped node) :=
  forSort_self (beq_self_eq_true _)

theorem forSort_sorted [AddCommMonoid M] (f : Thread K → M) (node : SORT_INFO) :
    forSort f node.org (.sorted node) = f (.sorted node) :=
  forSort_self (beq_self_eq_true _)

theorem forSort_split [AddCommMonoid M] (f : Thread K → M) (stage : Stage) (node : SORT_INFO)
    (lBegin lEnd : ℤ) :
    forSort f node.org (.split stage node lBegin lEnd) = f (.split stage node lBegin lEnd) :=
  forSort_self (beq_self_eq_true _)

theorem forSort_pop [AddCommMonoid M] (f : Thread K → M) (o : ℕ) : forSort f o .pop = 0 :=
  forSort_other rfl

theorem queue_cons (h : cc.m_busy_list = node :: rest) (o : ℕ) :
    queue cc o = (if node.org = o then {(node.beg, node.end_)} else 0) +
      queue { cc with m_busy_list := rest } o := by
  unfold queue
  rw [h, filter_cons]
  by_cases ho : node.org = o
  · rw [if_pos (by simpa using ho), if_pos ho]
    rfl
  · rw [if_neg (by simpa using ho), if_neg ho, zero_add]

theorem queue_push (cc : Shared K) (node : SORT_INFO) (o : ℕ) : queue (cc.push node) o = queue cc o +
      (if node.org = o then {(node.beg, node.end_)} else 0) := by
  unfold queue Shared.push
  rw [filter_append, map_append, ← Multiset.coe_add]
  by_cases ho : node.org = o
  · rw [if_pos ho, filter_cons_of_pos (by simpa using ho)]
    rfl
  · rw [if_neg ho, filter_cons_of_neg (by simpa using ho)]
    rfl

theorem pending_pop {f : Thread K → Multiset (ℤ × ℤ)} (h : cc.m_busy_list = node :: rest)
    (hf : f (.popped node) = {(node.beg, node.end_)}) (o : ℕ) :
    pending f { cc with m_busy_list := rest } (.popped node) o = pending f cc .pop o := by
  rw [pending, pending, queue_cons h o, forSort_pop, add_zero, add_comm]
  by_cases ho : node.org = o
  · rw [forSort_self (by simpa [Thread.worksFor] using ho), if_pos ho, hf]
  · rw [forSort_other (by simpa [Thread.worksFor] using ho), if_neg ho]

theorem pending_push {f : Thread K → Multiset (ℤ × ℤ)} {part : SORT_INFO} (hpart : part.org = node.org)
    (hself : t.worksFor node.org = true)
    (hout : ∀ {o}, node.org ≠ o → t.worksFor o = false ∧ t'.worksFor o = false)
    (hf : f t = {(part.beg, part.end_)} + forSort f node.org t') (o : ℕ) :
    pending f (cc.push part) t' o = pending f cc t o := by
  rw [pending, pending, queue_push, hpart, add_assoc]
  by_cases ho : node.org = o
  · subst ho
    rw [if_pos rfl, forSort_self hself, hf]
  · rw [if_neg ho, forSort_other (hout ho).1, forSort_other (hout ho).2, zero_add]

section Accounts

variable {c : Conf (Shared K) (Thread K)} {i : ℕ} {t : Thread K}

theorem tasks_run (f : Thread K → Multiset (ℤ × ℤ)) (ht : c.pool[i]? = some t) (o : ℕ) :
    ∃ X, tasks f c o = pending f c.shared t o + X ∧
      ∀ s' t', tasks f { shared := s', pool := c.pool.set i t' ++ [] } o = pending f s' t' o + X := by
  obtain ⟨X, hsum, hset⟩ := pool_sum_split (forSort f o) ht
  refine ⟨X, ?_, fun s' t' => ?_⟩
  · rw [tasks, hsum, pending, add_assoc]
  · rw [tasks, append_nil, hset, pending, add_assoc]

theorem load_run (ht : c.pool[i]? = some t) (o : ℕ) : ∃ n, load c o = dues c.shared t o + n ∧
      ∀ s' t', load { shared := s', pool := c.pool.set i t' ++ [] } o = dues s' t' o + n := by
  obtain ⟨n, hsum, hset⟩ := pool_sum_split (forSort Thread.weight o) ht
  refine ⟨n, ?_, fun s' t' => ?_⟩
  · rw [load, hsum, dues, add_assoc]
  · rw [load, append_nil, hset, dues, add_assoc]

theorem Stage.weight_pos (stage : Stage) : 0 < stage.weight := by
  cases stage <;> decide

variable {o : ℕ}

theorem forSort_weight_pos {t : Thread K} (h : t.worksFor o = true) : 0 < forSort Thread.weight o t := by
  rw [forSort_self h]
  cases t with
  | popped | sorted => exact (by decide : (0 : ℤ) < 2)
  | split stage => exact stage.weight_pos
  | pop | call | wait | done => cases h

theorem forSort_weight_nonneg (o : ℕ) (t : Thread K) : 0 ≤ forSort Thread.weight o t := by
  by_cases h : t.worksFor o = true
  · exact le_of_lt (forSort_weight_pos h)
  · rw [forSort_other (Bool.of_not_eq_true h)]

/-- Nothing is queued for the sort `o`, and nobody works for it. -/
def Idle (c : Conf (Shared K) (Thread K)) (o : ℕ) : Prop :=
  (∀ node ∈ c.shared.m_busy_list, node.org ≠ o) ∧ ∀ t ∈ c.pool, t.worksFor o = false

/-- **What nothing counts for is idle.** -/
theorem idle_of_load (h : load c o ≤ 0) : Idle c o := by
  have hnonneg : ∀ x ∈ c.pool.map (forSort Thread.weight o), (0 : ℤ) ≤ x := by
    intro x hx
    obtain ⟨t, _, rfl⟩ := mem_map.mp hx
    exact forSort_weight_nonneg o t
  have hsum : 0 ≤ (c.pool.map (forSort Thread.weight o)).sum := sum_nonneg hnonneg
  rw [load] at h
  constructor
  · intro node hnode heq
    have hmem : (node.beg, node.end_) ∈ queue c.shared o :=
      Multiset.mem_coe.mpr (mem_map_of_mem (mem_filter.mpr ⟨hnode, by simpa using heq⟩))
    have hpos := Multiset.card_pos_iff_exists_mem.mpr ⟨_, hmem⟩
    omega
  · intro t ht
    by_contra hworks
    have hpos := forSort_weight_pos (Bool.of_not_eq_false hworks)
    have hle := single_le_sum hnonneg _ (mem_map_of_mem ht)
    omega

theorem Idle.queue (h : Idle c o) : queue c.shared o = 0 := by
  rw [QQSParallel.queue, filter_eq_nil_iff.mpr fun node hnode => by simpa using h.1 node hnode]
  rfl

theorem Idle.sum {M : Type} [AddCommMonoid M] {f : Thread K → M} (h : Idle c o) :
    (c.pool.map (forSort f o)).sum = 0 := by
  refine sum_eq_zero fun x hx => ?_
  obtain ⟨t, ht, rfl⟩ := mem_map.mp hx
  exact forSort_other (h.2 t ht)

theorem Idle.tasks (h : Idle c o) (f : Thread K → Multiset (ℤ × ℤ)) : tasks f c o = 0 := by
  rw [QQSParallel.tasks, h.queue, h.sum, add_zero]

theorem Idle.load (h : Idle c o) : load c o = 0 := by
  rw [QQSParallel.load, h.queue, h.sum, add_zero]
  rfl

end Accounts

variable [LinearOrder K]

/-! ## §2. What a step does. -/

/-- The sort of a popped node stays inside of its array and of `stack_buf`. -/
def Fits (cc : Shared K) (node : SORT_INFO) (org : ORG_INFO K) : Prop :=
  if node.end_ - node.beg < cc.m_threshold_normal then
    Q_Unrecursion_1K node.beg node.end_ org.key ≠ .faults
  else 0 ≤ wrap32 (node.beg + node.end_) / 2

/-- The partition of the range of a node. -/
def parted (node : SORT_INFO) (org : ORG_INFO K) : PartState K Unit Unit :=
  partition (keysOf org.key) node.beg node.end_ (wrap32 (node.beg + node.end_) / 2)

/-- Where the extra comparison after the scan leaves `lBegin`. -/
def splitAt (node : SORT_INFO) (org : ORG_INFO K) : ℤ :=
  pastMiddle (parted node org) (org.key (wrap32 (node.beg + node.end_) / 2))

/-- The steps of a thread, one by one. -/
inductive Does (cc : Shared K) : Thread K → Shared K → Thread K → Prop
  | pop {node : SORT_INFO} {rest : List SORT_INFO} (h : cc.m_busy_list = node :: rest) :
      Does cc .pop { cc with m_busy_list := rest } (.popped node)
  | fault {node : SORT_INFO} {org : ORG_INFO K} (horg : cc.orgs[node.org]? = some org)
      (h : ¬ Fits cc node org) :
      Does cc (.popped node) { cc with undefined := true } (.popped node)
  | leaf {node : SORT_INFO} {org : ORG_INFO K} {key : ℤ → K}
      (horg : cc.orgs[node.org]? = some org)
      (hleaf : node.end_ - node.beg < cc.m_threshold_normal)
      (h : Q_Unrecursion_1K node.beg node.end_ org.key = .returns key) :
      Does cc (.popped node) (cc.setKey node.org key) (.sorted node)
  | partition {node : SORT_INFO} {org : ORG_INFO K} (horg : cc.orgs[node.org]? = some org)
      (hleaf : ¬ node.end_ - node.beg < cc.m_threshold_normal)
      (h : 0 ≤ wrap32 (node.beg + node.end_) / 2) :
      Does cc (.popped node) (cc.setKey node.org (parted node org).items.tKey_1)
        (.split .parted node (splitAt node org) (parted node org).lEnd)
  | sorted (node : SORT_INFO) : Does cc (.sorted node) (cc.addFlag node.org (-2)) .pop
  | count (node : SORT_INFO) (lBegin lEnd : ℤ) :
      Does cc (.split .parted node lBegin lEnd) (cc.addFlag node.org 1)
        (.split .counted node lBegin lEnd)
  | pushRight (node : SORT_INFO) (lBegin lEnd : ℤ) :
      Does cc (.split .counted node lBegin lEnd)
        (cc.push { org := node.org, beg := lEnd, end_ := node.end_ })
        (.split .pushed node lBegin lEnd)
  | recount (node : SORT_INFO) (lBegin lEnd : ℤ) :
      Does cc (.split .pushed node lBegin lEnd) (cc.addFlag node.org 1)
        (.split .recounted node lBegin lEnd)
  | pushLeft (node : SORT_INFO) (lBegin lEnd : ℤ) :
      Does cc (.split .recounted node lBegin lEnd)
        (cc.push { org := node.org, beg := node.beg, end_ := lBegin - 1 }) .pop
  | call {beg end_ : ℤ} (key : ℤ → K) (hbeg : 0 ≤ beg) (hend : end_ < 2 ^ 31) :
      Does cc (.call beg end_ key)
        { cc with
          m_busy_list := cc.m_busy_list ++ [{ org := cc.orgs.length, beg := beg, end_ := end_ }]
          orgs := cc.orgs ++ [{ flag := 2, key := key }] }
        (.wait cc.orgs.length beg end_ key)
  | wait {o : ℕ} {org : ORG_INFO K} (b e : ℤ) (key : ℤ → K) (horg : cc.orgs[o]? = some org)
      (hflag : org.flag = 0) : Does cc (.wait o b e key) cc .done

/-- **Inversion of a step**; it starts no threads. -/
theorem exec_cases {i : ℕ} {u : Unit} {new : List (Thread K)} (h : exec cc i t u = some (cc', t', new)) :
    new = [] ∧ Does cc t cc' t' := by
  unfold exec at h
  by_cases hundef : cc.undefined = true
  · rw [if_pos hundef] at h
    cases h
  rw [if_neg hundef] at h
  cases t with
  | pop =>
    dsimp only at h
    split at h
    next => cases h
    next node rest hbusy =>
      cases h
      exact ⟨rfl, .pop hbusy⟩
  | popped node =>
    rw [Option.bind_eq_some_iff] at h
    obtain ⟨org, horg, h⟩ := h
    rw [Option.map_eq_some_iff] at h
    obtain ⟨r, hr, h⟩ := h
    cases h
    refine ⟨rfl, ?_⟩
    unfold process at hr
    by_cases hleaf : node.end_ - node.beg < cc.m_threshold_normal
    · rw [if_pos hleaf] at hr
      split at hr
      next => cases hr
      next hrun =>
        cases hr
        exact .fault horg (by rw [Fits, if_pos hleaf]; exact fun hne => hne hrun)
      next key hrun =>
        cases hr
        exact .leaf horg hleaf hrun
    · rw [if_neg hleaf] at hr
      by_cases hmid : wrap32 (node.beg + node.end_) / 2 < 0
      · rw [if_pos hmid] at hr
        cases hr
        exact .fault horg (by rw [Fits, if_neg hleaf]; exact not_le.mpr hmid)
      · rw [if_neg hmid] at hr
        cases hr
        exact .partition horg hleaf (not_lt.mp hmid)
  | sorted node =>
    cases h
    exact ⟨rfl, .sorted node⟩
  | split stage node lBegin lEnd =>
    cases stage with
    | parted =>
      cases h
      exact ⟨rfl, .count node lBegin lEnd⟩
    | counted =>
      cases h
      exact ⟨rfl, .pushRight node lBegin lEnd⟩
    | pushed =>
      cases h
      exact ⟨rfl, .recount node lBegin lEnd⟩
    | recounted =>
      cases h
      exact ⟨rfl, .pushLeft node lBegin lEnd⟩
  | call beg end_ key =>
    dsimp only at h
    split at h
    next hrange =>
      cases h
      exact ⟨rfl, .call key hrange.1 hrange.2.2⟩
    next => cases h
  | wait o b e key =>
    dsimp only at h
    split at h
    next org horg =>
      split at h
      next hflag =>
        cases h
        exact ⟨rfl, .wait b e key horg hflag⟩
      next => cases h
    next => cases h
  | done => cases h

theorem step_cases {m : Move (Request K) Unit} (h : machine.step c m = some c') :
    (∃ r, m = .arrive r ∧ c' = { c with pool := c.pool ++ [machine.entry r] }) ∨
    (∃ i t s' t', m = .run i () ∧ c.pool[i]? = some t ∧ Does c.shared t s' t' ∧
      c' = { shared := s', pool := c.pool.set i t' ++ [] }) := by
  rcases machine.step_cases h with hr | ⟨i, u, t, s', t', new, rfl, ht, hx, rfl⟩
  · exact Or.inl hr
  · change exec c.shared i t u = some (s', t', new) at hx
    obtain ⟨rfl, hdoes⟩ := exec_cases hx
    exact Or.inr ⟨i, t, s', t', rfl, ht, hdoes, rfl⟩

/-! ## §3. The invariant. -/

/-- The sort `o` of the range from `b` to `e` of the array `key`, so far. -/
structure SortAt (c : Conf (Shared K) (Thread K)) (o : ℕ) (org : ORG_INFO K) (b e : ℤ)
    (key : ℤ → K) : Prop where
  nonneg : 0 ≤ b
  bound : e < 2 ^ 31
  flag : org.flag = load c o
  sorting : Sorting key org.key b e (tasks Thread.unsorted c o)
  waiters : ∀ b' e' key', Thread.wait o b' e' key' ∈ c.pool → b' = b ∧ e' = e ∧ key' = key
  waited : org.flag ≠ 0 → Thread.wait o b e key ∈ c.pool

theorem SortAt.keep {b e : ℤ} (h : SortAt c o org b e key) (hload : load c' o = load c o)
    (htasks : tasks Thread.unsorted c' o = tasks Thread.unsorted c o)
    (hwaiters : ∀ {b e key}, Thread.wait o b e key ∈ c'.pool → Thread.wait o b e key ∈ c.pool)
    (hwaited : org.flag ≠ 0 → Thread.wait o b e key ∈ c.pool → Thread.wait o b e key ∈ c'.pool) :
    SortAt c' o org b e key where
  nonneg := h.nonneg
  bound := h.bound
  flag := h.flag.trans hload.symm
  sorting := htasks ▸ h.sorting
  waiters := fun b' e' key' hu => h.waiters b' e' key' (hwaiters hu)
  waited := fun hne => hwaited hne (h.waited hne)

/-- **The invariant.** -/
structure Inv (c : Conf (Shared K) (Thread K)) : Prop where
  defined : c.shared.undefined = false
  threshold : 2 ≤ c.shared.m_threshold_normal
  queued : ∀ node ∈ c.shared.m_busy_list, node.org < c.shared.orgs.length
  works : ∀ t ∈ c.pool, ∀ o, t.worksFor o = true → o < c.shared.orgs.length
  waits : ∀ o b e key, Thread.wait o b e key ∈ c.pool → o < c.shared.orgs.length
  sorts : ∀ o org, c.shared.orgs[o]? = some org → ∃ b e key, SortAt c o org b e key

theorem Inv.start {threshold_normal : ℤ} (h : 2 ≤ threshold_normal) :
    Inv (start threshold_normal : Conf (Shared K) (Thread K)) where
  defined := rfl
  threshold := h
  queued := fun _ hnode => absurd hnode not_mem_nil
  works := fun _ ht => absurd ht not_mem_nil
  waits := fun _ _ _ _ ht => absurd ht not_mem_nil
  sorts := fun _ _ horg => by cases horg

section Step

variable {c : Conf (Shared K) (Thread K)} {s' : Shared K} {i : ℕ} {t t' : Thread K}

omit [LinearOrder K] in
theorem mem_pool_run {u : Thread K} (hu : u ∈ c.pool.set i t' ++ []) : u ∈ c.pool ∨ u = t' := by
  rw [append_nil] at hu
  exact mem_or_eq_of_mem_set hu

omit [LinearOrder K] in
theorem mem_pool_stay {u : Thread K} (ht : c.pool[i]? = some t) (hu : u ∈ c.pool) (hne : u ≠ t) :
    u ∈ c.pool.set i t' ++ [] := by
  obtain ⟨j, hj⟩ := mem_iff_getElem?.mp hu
  refine mem_of_getElem? (pool_lookup_ne (i := i) (j := j) ?_ hj)
  rintro rfl
  rw [ht] at hj
  exact hne (Option.some.inj hj).symm

/-- **A step of a sorting thread** keeps the invariant, if the accounts of one
    sort `o` are kept and nothing changes for the others. -/
theorem Inv.run (h : Inv c) (ht : c.pool[i]? = some t) (o : ℕ)
    (hdef : s'.undefined = false) (hthr : s'.m_threshold_normal = c.shared.m_threshold_normal)
    (hlen : s'.orgs.length = c.shared.orgs.length)
    (hqueued : ∀ node ∈ s'.m_busy_list, node.org < c.shared.orgs.length)
    (hworks : ∀ o, t'.worksFor o = true → o < c.shared.orgs.length)
    (hnot : ∀ o b e key, t ≠ .wait o b e key) (hnot' : ∀ o b e key, t' ≠ .wait o b e key)
    (hother : ∀ o', o' ≠ o → s'.orgs[o']? = c.shared.orgs[o']? ∧
      pending Thread.unsorted s' t' o' = pending Thread.unsorted c.shared t o' ∧
      dues s' t' o' = dues c.shared t o') (hbusy : ¬ Idle c o) (hself : ∀ org, c.shared.orgs[o]? = some org →
      ∃ org', s'.orgs[o]? = some org' ∧
        org'.flag - dues s' t' o = org.flag - dues c.shared t o ∧
        ∀ key b e X, 0 ≤ b → e < 2 ^ 31 → Sorting key org.key b e (pending Thread.unsorted c.shared t o + X) →
          Sorting key org'.key b e (pending Thread.unsorted s' t' o + X)) :
    Inv { shared := s', pool := c.pool.set i t' ++ [] } where
  defined := hdef
  threshold := hthr ▸ h.threshold
  queued := fun node hnode => hlen ▸ hqueued node hnode
  works := by
    intro u hu o' hu'
    show o' < s'.orgs.length
    rw [hlen]
    rcases mem_pool_run hu with hold | rfl
    · exact h.works u hold o' hu'
    · exact hworks o' hu'
  waits := by
    intro o' b e key hu
    show o' < s'.orgs.length
    rw [hlen]
    rcases mem_pool_run hu with hold | heq
    · exact h.waits o' b e key hold
    · exact absurd heq.symm (hnot' o' b e key)
  sorts := by
    intro o' org' horg'
    change s'.orgs[o']? = some org' at horg'
    obtain ⟨X, htasks, htasks'⟩ := tasks_run Thread.unsorted ht o'
    obtain ⟨n, hload, hload'⟩ := load_run ht o'
    have hwaiters : ∀ {b e key}, Thread.wait o' b e key ∈ c.pool.set i t' ++ [] →
        Thread.wait o' b e key ∈ c.pool := fun hu =>
      (mem_pool_run hu).resolve_right fun heq => hnot' _ _ _ _ heq.symm
    have hwaited : ∀ {b e key}, Thread.wait o' b e key ∈ c.pool →
        Thread.wait o' b e key ∈ c.pool.set i t' ++ [] := fun hu =>
      mem_pool_stay ht hu fun heq => hnot _ _ _ _ heq.symm
    by_cases ho : o' = o
    · subst ho
      have hlt : o' < c.shared.orgs.length := hlen ▸ (List.getElem?_eq_some_iff.mp horg').1
      obtain ⟨org, horg⟩ : ∃ org, c.shared.orgs[o']? = some org :=
        ⟨_, getElem?_eq_getElem hlt⟩
      obtain ⟨org'', horg'', hflag, hkeep⟩ := hself org horg
      obtain rfl : org'' = org' := Option.some.inj (horg''.symm.trans horg')
      obtain ⟨b, e, key, hat⟩ := h.sorts o' org horg
      have hflag_ne : org.flag ≠ 0 := fun hzero =>
        hbusy (idle_of_load (hat.flag.symm.trans hzero).le)
      refine ⟨b, e, key, hat.nonneg, hat.bound, ?_, ?_, ?_, ?_⟩
      · rw [hload', ← sub_eq_iff_eq_add']
        have hold := hat.flag
        omega
      · rw [htasks']
        exact hkeep key b e X hat.nonneg hat.bound (htasks ▸ hat.sorting)
      · exact fun b' e' key' hu => hat.waiters b' e' key' (hwaiters hu)
      · exact fun _ => hwaited (hat.waited hflag_ne)
    · obtain ⟨horg, hpending, hdues⟩ := hother o' ho
      obtain ⟨b, e, key, hat⟩ := h.sorts o' org' (horg.symm.trans horg')
      refine ⟨b, e, key, hat.keep ?_ ?_ hwaiters fun _ => hwaited⟩
      · rw [hload', hdues, ← hload]
      · rw [htasks', hpending, ← htasks]

/-- A step that only changes who has a node. -/
theorem Inv.hand (h : Inv c) (ht : c.pool[i]? = some t) (o : ℕ)
    {busy : List SORT_INFO} (hqueued : ∀ node ∈ busy, node.org < c.shared.orgs.length)
    (hworks : ∀ o, t'.worksFor o = true → o < c.shared.orgs.length)
    (hnot : ∀ o b e key, t ≠ .wait o b e key) (hnot' : ∀ o b e key, t' ≠ .wait o b e key) (hbusy : ¬ Idle c o)
    (hpending : ∀ o, pending Thread.unsorted { c.shared with m_busy_list := busy } t' o =
      pending Thread.unsorted c.shared t o)
    (hdues : ∀ o, dues { c.shared with m_busy_list := busy } t' o = dues c.shared t o) :
    Inv { shared := { c.shared with m_busy_list := busy }, pool := c.pool.set i t' ++ [] } := by
  refine h.run ht o h.defined rfl rfl hqueued hworks hnot hnot'
    (fun o' _ => ⟨rfl, hpending o', hdues o'⟩) hbusy fun org horg => ⟨org, horg, ?_, ?_⟩
  · rw [hdues]
  · intro key b e X _ _ hsort
    rw [hpending]
    exact hsort

variable {o : ℕ} {node : SORT_INFO} {org : ORG_INFO K} {key : ℤ → K}

/-- A step that changes the `org_info` of the sort that the thread works for. -/
theorem Inv.modify (h : Inv c) (ht : c.pool[i]? = some t) {f : ORG_INFO K → ORG_INFO K}
    (hworks : t.worksFor o = true) (hother : ∀ o', o' ≠ o → t.worksFor o' = false ∧ t'.worksFor o' = false)
    (hnot' : ∀ o b e key, t' ≠ .wait o b e key)
    (hself : ∀ org, c.shared.orgs[o]? = some org → (f org).flag - forSort Thread.weight o t' = org.flag - forSort Thread.weight o t ∧ ∀ key b e X, 0 ≤ b → e < 2 ^ 31 → Sorting key org.key b e (forSort Thread.unsorted o t + X) → Sorting key (f org).key b e (forSort Thread.unsorted o t' + X)) :
    Inv { shared := { c.shared with orgs := c.shared.orgs.modify o f },
          pool := c.pool.set i t' ++ [] } := by
  have hmem := mem_of_getElem? ht
  have hlt : o < c.shared.orgs.length := h.works t hmem o hworks
  refine h.run ht o h.defined rfl (length_modify _ _ _) h.queued ?_ ?_ hnot' ?_ ?_ ?_
  · intro o' hw
    by_cases ho : o' = o
    · exact ho ▸ hlt
    · rw [(hother o' ho).2] at hw
      cases hw
  · rintro o' b e key rfl
    cases hworks
  · intro o' ho
    obtain ⟨hout, hout'⟩ := hother o' ho
    refine ⟨getElem?_modify_ne _ _ (fun heq => ho heq.symm), ?_, ?_⟩
    · show queue c.shared o' + _ = queue c.shared o' + _
      rw [forSort_other hout, forSort_other hout']
    · show 2 * ((queue c.shared o').card : ℤ) + _ = 2 * ((queue c.shared o').card : ℤ) + _
      rw [forSort_other hout, forSort_other hout']
  · intro hidle
    have hfree := hidle.2 t hmem
    rw [hworks] at hfree
    cases hfree
  · intro org horg
    obtain ⟨hflag, hkeep⟩ := hself org horg
    refine ⟨f org, ?_, ?_, ?_⟩
    · show (c.shared.orgs.modify o f)[o]? = _
      rw [getElem?_modify_eq, horg]
      rfl
    · show (f org).flag - (2 * ((queue c.shared o).card : ℤ) + _) =
        org.flag - (2 * ((queue c.shared o).card : ℤ) + _)
      omega
    · intro key b e X hb he hsort
      -- the queued ranges are some of the others
      change Sorting key (f org).key b e (queue c.shared o + forSort Thread.unsorted o t' + X)
      change Sorting key org.key b e (queue c.shared o + forSort Thread.unsorted o t + X) at hsort
      rw [add_right_comm, add_comm] at hsort ⊢
      exact hkeep key b e _ hb he hsort

/-! ### The steps of a sorting thread. -/

theorem Inv.pop {rest : List SORT_INFO} (h : Inv c) (ht : c.pool[i]? = some .pop)
    (hbusy : c.shared.m_busy_list = node :: rest) :
    Inv { shared := { c.shared with m_busy_list := rest },
          pool := c.pool.set i (.popped node) ++ [] } := by
  have hnode : node ∈ c.shared.m_busy_list := hbusy ▸ mem_cons_self
  refine h.hand ht node.org (fun node' hnode' => h.queued node' (hbusy ▸ mem_cons_of_mem _ hnode'))
    ?_ (fun _ _ _ _ => nofun) (fun _ _ _ _ => nofun) (fun hidle => hidle.1 node hnode rfl) ?_ ?_
  · intro o ho
    obtain rfl : node.org = o := by simpa [Thread.worksFor] using ho
    exact h.queued node hnode
  · exact pending_pop hbusy rfl
  · intro o
    rw [dues, dues, queue_cons hbusy o, forSort, forSort]
    by_cases ho : node.org = o <;> simp [Thread.worksFor, Thread.weight, ho, mul_add, add_comm]

/-- A part is handed on. -/
theorem Inv.push {stage : Stage} {lBegin lEnd : ℤ} {part : SORT_INFO} (h : Inv c)
    (ht : c.pool[i]? = some (.split stage node lBegin lEnd)) (hpart : part.org = node.org)
    (hworks : ∀ o, t'.worksFor o = true → node.org = o) (hnot : ∀ o b e key, t' ≠ .wait o b e key)
    (hparts : parts node lBegin lEnd stage = {(part.beg, part.end_)} + forSort Thread.unsorted node.org t')
    (hweight : stage.weight = 2 + forSort Thread.weight node.org t') :
    Inv { shared := c.shared.push part, pool := c.pool.set i t' ++ [] } := by
  have hmem := mem_of_getElem? ht
  have hself : (Thread.split stage node lBegin lEnd : Thread K).worksFor node.org = true :=
    beq_self_eq_true _
  have hlt : node.org < c.shared.orgs.length := h.works _ hmem _ hself
  have hout : ∀ {o}, node.org ≠ o → (Thread.split stage node lBegin lEnd : Thread K).worksFor o =
      false ∧ t'.worksFor o = false := fun ho =>
    ⟨by simpa [Thread.worksFor] using ho, Bool.of_not_eq_true fun hw => ho (hworks _ hw)⟩
  refine h.hand ht node.org ?_ ?_ (fun _ _ _ _ => nofun) hnot ?_ ?_ ?_
  · intro node' hnode'
    rcases mem_append.mp hnode' with hold | hnew
    · exact h.queued node' hold
    · rw [mem_singleton.mp hnew, hpart]
      exact hlt
  · exact fun o ho => hworks o ho ▸ hlt
  · intro hidle
    rw [hidle.2 _ hmem] at hself
    cases hself
  · exact pending_push hpart hself hout hparts
  · intro o
    show 2 * ((queue (c.shared.push part) o).card : ℤ) + _ = 2 * ((queue c.shared o).card : ℤ) + _
    rw [queue_push, hpart, Multiset.card_add]
    by_cases ho : node.org = o
    · subst ho
      rw [if_pos rfl, forSort_self hself]
      show _ = _ + stage.weight
      rw [hweight, Multiset.card_singleton]
      push_cast
      ring
    · rw [if_neg ho, forSort_other (hout ho).1, forSort_other (hout ho).2]
      rfl

/-- A locked update of the flag. -/
theorem Inv.flag {d : ℤ} (h : Inv c) (ht : c.pool[i]? = some t) (hself : t.worksFor node.org = true)
    (hworks : ∀ o, t.worksFor o = true → node.org = o) (hworks' : ∀ o, t'.worksFor o = true → node.org = o)
    (hnot : ∀ o b e key, t' ≠ .wait o b e key)
    (htasks : forSort Thread.unsorted node.org t' = forSort Thread.unsorted node.org t)
    (hweight : forSort Thread.weight node.org t' = forSort Thread.weight node.org t + d) :
    Inv { shared := c.shared.addFlag node.org d, pool := c.pool.set i t' ++ [] } := by
  refine h.modify ht hself ?_ hnot fun org _ => ⟨?_, fun key b e X _ _ hsort => ?_⟩
  · intro o ho
    exact ⟨Bool.of_not_eq_true fun hw => ho (hworks o hw).symm,
      Bool.of_not_eq_true fun hw => ho (hworks' o hw).symm⟩
  · show org.flag + d - _ = _
    rw [hweight]
    ring
  · rw [htasks]
    exact hsort

omit [LinearOrder K] in
theorem worksFor_popped : (Thread.popped node : Thread K).worksFor o = true ↔ node.org = o := by
  simp [Thread.worksFor]

/-- A leaf is sorted. -/
theorem Inv.leaf (h : Inv c) (ht : c.pool[i]? = some (.popped node))
    (horg : c.shared.orgs[node.org]? = some org)
    (hrun : Q_Unrecursion_1K node.beg node.end_ org.key = .returns key) :
    Inv { shared := c.shared.setKey node.org key, pool := c.pool.set i (.sorted node) ++ [] } := by
  have hself : (Thread.popped node : Thread K).worksFor node.org = true := worksFor_popped.mpr rfl
  have hother : ∀ {o}, o ≠ node.org → (Thread.popped node : Thread K).worksFor o = false := fun ho =>
    Bool.of_not_eq_true fun hw => ho (worksFor_popped.mp hw).symm
  refine h.modify ht hself (fun o ho => ⟨hother ho, hother ho⟩) (fun _ _ _ _ => nofun) ?_
  intro org' horg'
  obtain rfl : org = org' := Option.some.inj (horg.symm.trans horg')
  rw [forSort_popped, forSort_popped, forSort_sorted, forSort_sorted]
  refine ⟨rfl, fun key₀ b e X hb he hsort => ?_⟩
  change Sorting key₀ org.key b e ((node.beg, node.end_) ::ₘ X) at hsort
  obtain ⟨hlo, hhi⟩ := hsort.range _ (Multiset.mem_cons_self _ _)
  obtain ⟨π, hπ, rfl, hsorted⟩ := Q_Unrecursion_1K_sorts (by omega) (by omega) hrun
  show Sorting key₀ (org.key ∘ π) b e (0 + X)
  rw [zero_add]
  exact hsort.finish (Reworked.of_sorted hπ hsorted) hsorted

theorem parted_spec (hbeg : 0 ≤ node.beg) (hend : node.end_ < 2 ^ 31) (hlong : 2 ≤ node.end_ - node.beg)
    (hmid : 0 ≤ wrap32 (node.beg + node.end_) / 2) :
    Parted (keysOf org.key) node.beg node.end_ (parted node org) (splitAt node org) := by
  obtain ⟨_, heq⟩ | ⟨_, hneg⟩ := middle_cases hbeg (by omega : node.beg ≤ node.end_) hend
  · unfold splitAt parted
    exact partition_parted (keysOf org.key) (by omega) (by omega)
  · omega

theorem Inv.partition (h : Inv c) (ht : c.pool[i]? = some (.popped node))
    (horg : c.shared.orgs[node.org]? = some org)
    (hleaf : ¬ node.end_ - node.beg < c.shared.m_threshold_normal)
    (hmid : 0 ≤ wrap32 (node.beg + node.end_) / 2) :
    Inv { shared := c.shared.setKey node.org (parted node org).items.tKey_1,
          pool := c.pool.set i (.split .parted node (splitAt node org) (parted node org).lEnd) ++
            [] } := by
  have hthr := h.threshold
  have hself : (Thread.popped node : Thread K).worksFor node.org = true := worksFor_popped.mpr rfl
  have hother : ∀ {o}, o ≠ node.org → (Thread.popped node : Thread K).worksFor o = false := fun ho =>
    Bool.of_not_eq_true fun hw => ho (worksFor_popped.mp hw).symm
  refine h.modify ht hself (fun o ho => ⟨hother ho, hother ho⟩) (fun _ _ _ _ => nofun) ?_
  intro org' horg'
  obtain rfl : org = org' := Option.some.inj (horg.symm.trans horg')
  rw [forSort_popped, forSort_popped, forSort_split, forSort_split]
  refine ⟨rfl, fun key₀ b e X hb he hsort => ?_⟩
  change Sorting key₀ org.key b e ((node.beg, node.end_) ::ₘ X) at hsort
  obtain ⟨hlo, hhi⟩ := hsort.range _ (Multiset.mem_cons_self _ _)
  have hp : Parted (keysOf org.key) node.beg node.end_ (parted node org) (splitAt node org) :=
    parted_spec (by omega) (by omega) (by omega) hmid
  show Sorting key₀ (parted node org).items.tKey_1 b e
    ((node.beg, splitAt node org - 1) ::ₘ {((parted node org).lEnd, node.end_)} + X)
  rw [Multiset.cons_add, Multiset.singleton_add]
  refine hsort.split hp.work hp.lower hp.upper ?_ hp.cross
  rcases hp.parts with heq | ⟨heq, hmin⟩
  · exact Or.inl (by omega)
  · exact Or.inr ⟨by omega, hmin⟩

/-! ### The steps of a caller. -/

theorem Inv.fresh (h : Inv c) : Idle c c.shared.orgs.length :=
  ⟨fun node hnode => (h.queued node hnode).ne, fun t ht => Bool.of_not_eq_true fun hw =>
    (h.works t ht _ hw).ne rfl⟩

/-- A new sort: its node is all there is to do for it. -/
theorem Inv.call {b e : ℤ} (h : Inv c) (ht : c.pool[i]? = some (.call b e key)) (hb : 0 ≤ b)
    (he : e < 2 ^ 31) :
    Inv { shared := { c.shared with
            m_busy_list := c.shared.m_busy_list ++
              [{ org := c.shared.orgs.length, beg := b, end_ := e }]
            orgs := c.shared.orgs ++ [{ flag := 2, key := key }] },
          pool := c.pool.set i (.wait c.shared.orgs.length b e key) ++ [] } := by
  have hfresh := h.fresh
  have hqueue : ∀ o, queue { c.shared with
      m_busy_list := c.shared.m_busy_list ++ [{ org := c.shared.orgs.length, beg := b, end_ := e }]
      orgs := c.shared.orgs ++ [{ flag := 2, key := key }] } o =
      queue c.shared o + (if c.shared.orgs.length = o then {(b, e)} else 0) := fun o =>
    queue_push c.shared { org := c.shared.orgs.length, beg := b, end_ := e } o
  have hlen : ∀ {o}, o ≤ c.shared.orgs.length →
      o < (c.shared.orgs ++ [({ flag := 2, key := key } : ORG_INFO K)]).length := by
    intro o ho
    rw [length_append, length_singleton]
    exact Nat.lt_succ_of_le ho
  refine ⟨h.defined, h.threshold, ?_, ?_, ?_, ?_⟩
  · intro node hnode
    rcases mem_append.mp hnode with hold | hnew
    · exact hlen (h.queued node hold).le
    · rw [mem_singleton.mp hnew]
      exact hlen le_rfl
  · intro u hu o hw
    rcases mem_pool_run hu with hold | rfl
    · exact hlen (h.works u hold o hw).le
    · cases hw
  · intro o b' e' key' hu
    rcases mem_pool_run hu with hold | heq
    · exact hlen (h.waits o b' e' key' hold).le
    · cases heq
      exact hlen le_rfl
  · intro o org horg
    change (c.shared.orgs ++ [{ flag := 2, key := key }])[o]? = some org at horg
    obtain ⟨X, htasks, htasks'⟩ := tasks_run Thread.unsorted ht o
    obtain ⟨n, hload, hload'⟩ := load_run ht o
    rcases pool_lookup_arrive horg with hold | ⟨rfl, rfl⟩
    · -- an older sort
      have hne : c.shared.orgs.length ≠ o := (List.getElem?_eq_some_iff.mp hold).1.ne'
      obtain ⟨b', e', key', hat⟩ := h.sorts o org hold
      refine ⟨b', e', key', hat.keep ?_ ?_ ?_ ?_⟩
      · rw [hload', hload, dues, dues, hqueue, if_neg hne, add_zero]
        rfl
      · rw [htasks', htasks, pending, pending, hqueue, if_neg hne, add_zero]
        rfl
      · intro b₁ e₁ key₁ hu
        rcases mem_pool_run hu with hmem | heq
        · exact hmem
        · cases heq
          exact absurd rfl hne
      · exact fun _ hu => mem_pool_stay ht hu nofun
    rw [hfresh.tasks, pending, hfresh.queue, zero_add] at htasks
    rw [hfresh.load, dues, hfresh.queue] at hload
    have hcall : ∀ {M : Type} [AddCommMonoid M] (f : Thread K → M),
        forSort f c.shared.orgs.length (.call b e key) = 0 := fun f => forSort_other rfl
    have hwait : ∀ {M : Type} [AddCommMonoid M] (f : Thread K → M),
        forSort f c.shared.orgs.length (.wait c.shared.orgs.length b e key) = 0 := fun f =>
      forSort_other rfl
    rw [hcall, zero_add] at htasks
    rw [hcall, add_zero, Multiset.card_zero] at hload
    refine ⟨b, e, key, hb, he, ?_, ?_, ?_, ?_⟩
    · rw [hload', dues, hqueue, if_pos rfl, hfresh.queue, hwait, zero_add,
        Multiset.card_singleton]
      show (2 : ℤ) = _
      omega
    · rw [htasks', pending, hqueue, if_pos rfl, hfresh.queue, hwait, zero_add, add_zero, ← htasks]
      exact Sorting.start key b e
    · intro b₁ e₁ key₁ hu
      rcases mem_pool_run hu with hmem | heq
      · exact absurd (h.waits _ _ _ _ hmem) (lt_irrefl _)
      · cases heq
        exact ⟨rfl, rfl, rfl⟩
    · exact fun _ => mem_of_getElem? (pool_lookup_self ht)

omit [LinearOrder K] in
theorem account_keep (ht : c.pool[i]? = some t) (t' : Thread K) (hout : t.worksFor o = false)
    (hout' : t'.worksFor o = false) :
    load { shared := c.shared, pool := c.pool.set i t' ++ [] } o = load c o ∧
      tasks Thread.unsorted { shared := c.shared, pool := c.pool.set i t' ++ [] } o =
        tasks Thread.unsorted c o := by
  obtain ⟨X, htasks, htasks'⟩ := tasks_run Thread.unsorted ht o
  obtain ⟨n, hload, hload'⟩ := load_run ht o
  constructor
  · rw [hload', hload, dues, dues, forSort_other hout, forSort_other hout']
  · rw [htasks', htasks, pending, pending, forSort_other hout, forSort_other hout']

/-- A wait that ends. -/
theorem Inv.wait {b e : ℤ} (h : Inv c) (ht : c.pool[i]? = some (.wait o b e key))
    (horg : c.shared.orgs[o]? = some org) (hflag : org.flag = 0) :
    Inv { shared := c.shared, pool := c.pool.set i .done ++ [] } where
  defined := h.defined
  threshold := h.threshold
  queued := h.queued
  works := by
    intro u hu o' hw
    rcases mem_pool_run hu with hold | rfl
    · exact h.works u hold o' hw
    · cases hw
  waits := by
    intro o' b' e' key' hu
    rcases mem_pool_run hu with hold | heq
    · exact h.waits o' b' e' key' hold
    · cases heq
  sorts := by
    intro o' org' horg'
    obtain ⟨b', e', key', hat⟩ := h.sorts o' org' horg'
    obtain ⟨hload, htasks⟩ := account_keep ht .done (o := o') rfl rfl
    refine ⟨b', e', key', hat.keep hload htasks ?_ ?_⟩
    · intro b₁ e₁ key₁ hu
      exact (mem_pool_run hu).resolve_right nofun
    · intro hne hu
      refine mem_pool_stay ht hu ?_
      intro heq
      cases heq
      rw [horg] at horg'
      exact hne (Option.some.inj horg' ▸ hflag)

/-- A thread that joins has nothing to do yet. -/
theorem Inv.arrive (h : Inv c) (hout : ∀ o, t.worksFor o = false)
    (hnot : ∀ o b e key, t ≠ .wait o b e key) : Inv { c with pool := c.pool ++ [t] } where
  defined := h.defined
  threshold := h.threshold
  queued := h.queued
  works := by
    intro u hu o hw
    rcases mem_append.mp hu with hold | hnew
    · exact h.works u hold o hw
    · rw [mem_singleton.mp hnew, hout] at hw
      cases hw
  waits := by
    intro o b e key hu
    rcases mem_append.mp hu with hold | hnew
    · exact h.waits o b e key hold
    · exact absurd (mem_singleton.mp hnew).symm (hnot o b e key)
  sorts := by
    intro o org horg
    obtain ⟨b, e, key, hat⟩ := h.sorts o org horg
    refine ⟨b, e, key, hat.keep ?_ ?_ ?_ ?_⟩
    · show 2 * ((queue c.shared o).card : ℤ) + ((c.pool ++ [t]).map _).sum = _
      rw [map_append, sum_append, map_singleton, sum_singleton,
        forSort_other (hout o), add_zero]
      rfl
    · show queue c.shared o + ((c.pool ++ [t]).map _).sum = _
      rw [map_append, sum_append, map_singleton, sum_singleton,
        forSort_other (hout o), add_zero]
      rfl
    · intro b' e' key' hu
      rcases mem_append.mp hu with hold | hnew
      · exact hold
      · exact absurd (mem_singleton.mp hnew).symm (hnot o b' e' key')
    · exact fun _ hu => mem_append_left _ hu

end Step

/-- A popped node stays inside of its array and of `stack_buf`. -/
def NoFault (c : Conf (Shared K) (Thread K)) : Move (Request K) Unit → Prop
  | .arrive _ => True
  | .run i _ => ∀ node org, c.pool[i]? = some (.popped node) →
      c.shared.orgs[node.org]? = some org →
        if node.end_ - node.beg < c.shared.m_threshold_normal then
          Q_Unrecursion_1K node.beg node.end_ org.key ≠ .faults
        else node.beg + node.end_ < 2 ^ 31

section Run

variable {c c' : Conf (Shared K) (Thread K)} {i : ℕ}

variable {node : SORT_INFO} {org : ORG_INFO K}

/-- Who pops a node sorts for a caller who waits, inside of its range. -/
theorem Inv.popped_within (h : Inv c) (ht : c.pool[i]? = some (.popped node))
    (horg : c.shared.orgs[node.org]? = some org) :
    ∃ b e key, SortAt c node.org org b e key ∧ Thread.wait node.org b e key ∈ c.pool ∧
      b ≤ node.beg ∧ node.end_ ≤ e := by
  obtain ⟨b, e, key, hat⟩ := h.sorts node.org org horg
  have hflag : org.flag ≠ 0 := by
    intro hzero
    have hfree := (idle_of_load (hat.flag.symm.trans hzero).le).2 _ (mem_of_getElem? ht)
    rw [worksFor_popped.mpr rfl] at hfree
    cases hfree
  obtain ⟨X, htasks, -⟩ := tasks_run Thread.unsorted ht node.org
  have hmem : (node.beg, node.end_) ∈ tasks Thread.unsorted c node.org := by
    rw [htasks, pending, forSort_popped]
    exact Multiset.mem_add.mpr (Or.inl (Multiset.mem_add.mpr
      (Or.inr (Multiset.mem_singleton_self _))))
  obtain ⟨hlo, hhi⟩ := hat.sorting.range _ hmem
  exact ⟨b, e, key, hat, hat.waited hflag, hlo, hhi⟩

theorem Inv.popped_bounds (h : Inv c) (ht : c.pool[i]? = some (.popped node))
    (horg : c.shared.orgs[node.org]? = some org) : 0 ≤ node.beg ∧ node.end_ < 2 ^ 31 := by
  obtain ⟨b, e, key, hat, -, hlo, hhi⟩ := h.popped_within ht horg
  have hb := hat.nonneg
  have he := hat.bound
  omega

theorem Inv.noFault_iff (h : Inv c) (ht : c.pool[i]? = some (.popped node))
    (horg : c.shared.orgs[node.org]? = some org) : NoFault c (.run i ()) ↔ Fits c.shared node org := by
  have hiff : Fits c.shared node org ↔ if node.end_ - node.beg < c.shared.m_threshold_normal then
      Q_Unrecursion_1K node.beg node.end_ org.key ≠ .faults
      else node.beg + node.end_ < 2 ^ 31 := by
    obtain ⟨hb, he⟩ := h.popped_bounds ht horg
    have hthr := h.threshold
    unfold Fits
    by_cases hleaf : node.end_ - node.beg < c.shared.m_threshold_normal
    · rw [if_pos hleaf, if_pos hleaf]
    rw [if_neg hleaf, if_neg hleaf]
    obtain ⟨hsum, heq⟩ | ⟨hsum, hneg⟩ := middle_cases hb (by omega : node.beg ≤ node.end_) he
    · rw [heq]
      omega
    · omega
  constructor
  · exact fun hno => hiff.mpr (hno node org ht horg)
  · intro hfits node' org' ht' horg'
    rw [ht, Option.some.injEq, Thread.popped.injEq] at ht'
    subst ht'
    rw [horg, Option.some.injEq] at horg'
    subst horg'
    exact hiff.mp hfits

/-- **A step inside of the stack** keeps the invariant. -/
theorem Inv.step {m : Move (Request K) Unit} (h : Inv c) (hstep : machine.step c m = some c')
    (hno : NoFault c m) : Inv c' := by
  rcases step_cases hstep with ⟨r, rfl, rfl⟩ | ⟨i, t, s', t', rfl, ht, hdoes, rfl⟩
  · cases r with
    | thread_sort => exact h.arrive (fun _ => rfl) fun _ _ _ _ => nofun
    | quick_sort => exact h.arrive (fun _ => rfl) fun _ _ _ _ => nofun
  cases hdoes with
  | pop hbusy => exact h.pop ht hbusy
  | fault horg hfault => exact absurd ((h.noFault_iff ht horg).mp hno) hfault
  | leaf horg _ hrun => exact h.leaf ht horg hrun
  | partition horg hleaf hmid => exact h.partition ht horg hleaf hmid
  | sorted node =>
    refine h.flag ht (beq_self_eq_true _) ?_ nofun (fun _ _ _ _ => nofun) ?_ ?_
    · exact fun o ho => beq_iff_eq.mp ho
    · rw [forSort_pop, forSort_sorted]
      rfl
    · rw [forSort_pop, forSort_sorted]
      rfl
  | count node lBegin lEnd =>
    refine h.flag ht (beq_self_eq_true _) ?_ ?_ (fun _ _ _ _ => nofun) ?_ ?_
    · exact fun o ho => beq_iff_eq.mp ho
    · exact fun o ho => beq_iff_eq.mp ho
    · rw [forSort_split, forSort_split]
      rfl
    · rw [forSort_split, forSort_split]
      rfl
  | pushRight node lBegin lEnd =>
    refine h.push ht rfl ?_ (fun _ _ _ _ => nofun) ?_ ?_
    · exact fun o ho => beq_iff_eq.mp ho
    · rw [forSort_split]
      exact Multiset.pair_comm _ _
    · rw [forSort_split]
      rfl
  | recount node lBegin lEnd =>
    refine h.flag ht (beq_self_eq_true _) ?_ ?_ (fun _ _ _ _ => nofun) ?_ ?_
    · exact fun o ho => beq_iff_eq.mp ho
    · exact fun o ho => beq_iff_eq.mp ho
    · rw [forSort_split, forSort_split]
      rfl
    · rw [forSort_split, forSort_split]
      rfl
  | pushLeft node lBegin lEnd =>
    refine h.push ht rfl nofun (fun _ _ _ _ => nofun) ?_ ?_
    · rw [forSort_pop]
      rfl
    · rw [forSort_pop]
      rfl
  | call key hbeg hend => exact h.call ht hbeg hend
  | wait b e key horg hflag => exact h.wait ht horg hflag

end Run

/-! ## §4. Completion. -/

/-- The wait for the sort `o` may end: its flag is 0, or nothing is known. -/
def MayEnd (cc : Shared K) (o : ℕ) : Prop :=
  cc.undefined = true ∨ ∃ org, cc.orgs[o]? = some org ∧ org.flag = 0

/-- **Completion**: where the wait of a caller may end, its sort is idle, and
    the range that the caller passed is sorted and permuted. -/
def Complete (c : Conf (Shared K) (Thread K)) : Prop :=
  ∀ o b e key, Thread.wait o b e key ∈ c.pool → MayEnd c.shared o →
    Idle c o ∧ ∃ org, c.shared.orgs[o]? = some org ∧
      (∃ π, Moves b e π ∧ org.key = key ∘ π) ∧ SortedOn org.key b e

section Completion

variable {c c' : Conf (Shared K) (Thread K)} {m : Move (Request K) Unit}

theorem Inv.complete (h : Inv c) : Complete c := by
  intro o b e key hwait hend
  rcases hend with hundef | ⟨org, horg, hflag⟩
  · rw [h.defined] at hundef
    cases hundef
  obtain ⟨b', e', key', hat⟩ := h.sorts o org horg
  obtain ⟨rfl, rfl, rfl⟩ := hat.waiters b e key hwait
  have hidle : Idle c o := idle_of_load (hat.flag.symm.trans hflag).le
  have hsort := hat.sorting
  rw [hidle.tasks] at hsort
  exact ⟨hidle, org, horg, hsort.perm, hsort.sorted⟩

/-- A step that faults leaves everything undefined, while its thread works. -/
theorem Inv.fault (h : Inv c) (hstep : machine.step c m = some c') (hno : ¬ NoFault c m) :
    c'.shared.undefined = true ∧ ¬ Complete c' := by
  rcases step_cases hstep with ⟨r, rfl, rfl⟩ | ⟨i, t, s', t', rfl, ht, hdoes, rfl⟩
  · exact absurd trivial hno
  have hpopped : ∃ node org, t = .popped node ∧ c.shared.orgs[node.org]? = some org := by
    simp only [NoFault, not_forall] at hno
    obtain ⟨node, org, ht', horg, _⟩ := hno
    exact ⟨node, org, Option.some.inj (ht.symm.trans ht'), horg⟩
  obtain ⟨node, org, rfl, horg⟩ := hpopped
  have hfits : ¬ Fits c.shared node org := fun hfits => hno ((h.noFault_iff ht horg).mpr hfits)
  cases hdoes with
  | leaf horg' hleaf hrun =>
    rw [horg, Option.some.injEq] at horg'
    subst horg'
    rw [Fits, if_pos hleaf, hrun] at hfits
    exact absurd nofun hfits
  | partition horg' hleaf hmid =>
    rw [Fits, if_neg hleaf] at hfits
    exact absurd hmid hfits
  | fault =>
    refine ⟨rfl, fun hcomplete => ?_⟩
    obtain ⟨b, e, key, -, hwait, -⟩ := h.popped_within ht horg
    have hstays : Thread.wait node.org b e key ∈ c.pool.set i (.popped node) ++ [] :=
      mem_pool_stay ht hwait nofun
    obtain ⟨hidle, -⟩ := hcomplete node.org b e key hstays (Or.inl rfl)
    have hfree := hidle.2 _ (mem_of_getElem? (pool_lookup_self ht))
    rw [worksFor_popped.mpr rfl] at hfree
    cases hfree

end Completion

/-- **COMPLETION**: a run is complete in all its states exactly if none of its
    steps faults. -/
theorem quick_sort_complete_iff {threshold_normal : ℤ} (h : 2 ≤ threshold_normal)
    (ls : List (Move (Request K) Unit)) :
    Along machine.step Complete (start threshold_normal) ls ↔
      Steps machine.step NoFault (start threshold_normal) ls := by
  have hstart : Inv (start threshold_normal : Conf (Shared K) (Thread K)) := Inv.start h
  refine along_iff_steps Inv ?_ ?_ ls _ hstart hstart.complete
  · intro c m c' hinv _ hstep hcomplete
    by_cases hno : NoFault c m
    · exact hinv.step hstep hno
    · exact absurd hcomplete (hinv.fault hstep hno).2
  · intro c m c' hinv _ hstep
    constructor
    · intro hcomplete
      by_contra hno
      exact (hinv.fault hstep hno).2 hcomplete
    · exact fun hno => (hinv.step hstep hno).complete

/-- A sorting thread and a caller with an array of one element. -/
theorem quick_sort_complete_iff_one :
    Along machine.step Complete (start 2)
        [.arrive .thread_sort, .arrive (.quick_sort 0 0 id), .run 1 (), .run 0 ()] ↔
      Steps machine.step NoFault (start 2)
        [.arrive .thread_sort, .arrive (.quick_sort 0 0 (id : ℤ → ℤ)), .run 1 (), .run 0 ()] :=
  quick_sort_complete_iff (by decide) _

/-- A sorting thread has popped a range of 515 elements, a leaf by the default
    threshold. -/
def popped515 (key : ℤ → K) : Conf (Shared K) (Thread K) where
  shared :=
    { m_threshold_normal := 1000, m_busy_list := [], orgs := [{ flag := 2, key := key }],
      undefined := false }
  pool := [.popped { org := 0, beg := 0, end_ := 514 }, .wait 0 0 514 key]

/-- How it gets there, and its next step. -/
def sort515 (key : ℤ → K) : List (Move (Request K) Unit) :=
  [.arrive .thread_sort, .arrive (.quick_sort 0 514 key), .run 1 (), .run 0 (), .run 0 ()]

theorem process_faults (hleaf : node.end_ - node.beg < cc.m_threshold_normal)
    (h : Q_Unrecursion_1K node.beg node.end_ org.key = .faults) :
    process cc node org = some ({ cc with undefined := true }, .popped node) := by
  rw [process, if_pos hleaf, h]

/-- Where the leaf sort faults, the run is not complete: the thread still works
    when nothing is known any more. -/
theorem sort515_not_complete (h : Q_Unrecursion_1K 0 514 key = .faults) :
    ¬ Along machine.step Complete (start 1000) (sort515 key) := by
  have hlong : (514 : ℤ) - 0 < 1000 := by decide
  have hexec : machine.exec (popped515 key).shared 0 (.popped { org := 0, beg := 0, end_ := 514 }) ()
      = some ({ (popped515 key).shared with undefined := true },
          .popped { org := 0, beg := 0, end_ := 514 }, []) := by
    have hprocess : process (popped515 key).shared { org := 0, beg := 0, end_ := 514 }
        { flag := 2, key := key } = some ({ (popped515 key).shared with undefined := true },
          .popped { org := 0, beg := 0, end_ := 514 }) := process_faults hlong h
    show Option.map _ (process (popped515 key).shared { org := 0, beg := 0, end_ := 514 }
      { flag := 2, key := key }) = _
    rw [hprocess]
    rfl
  intro hall
  have hpopped : Along machine.step Complete (popped515 key) [.run 0 ()] :=
    (((hall.2 _ rfl).2 _ rfl).2 _ rfl).2 _ rfl
  have hend := hpopped.2 _ (machine.step_run rfl hexec)
  obtain ⟨hidle, -⟩ := hend 0 0 514 key (mem_cons_of_mem _ mem_cons_self) (Or.inl rfl)
  have hfree := hidle.2 _ mem_cons_self
  cases hfree

/-- 515 elements in a bad order: the leaf sort writes beyond its stack. -/
theorem quick_sort_overflow :
    ¬ ∀ threshold_normal : ℤ, 2 ≤ threshold_normal → ∀ ls : List (Move (Request ℤ) Unit),
      Along machine.step Complete (start threshold_normal) ls := fun h =>
  sort515_not_complete (Q_Unrecursion_1K_overflow (n := 513) le_rfl (by decide))
    (h 1000 (by decide) (sort515 (ladder (513 + 1))))

/-! ## §5. Short arrays. -/

omit [LinearOrder K] in
/-- The array that a caller sorts ends at `n` or before. -/
def Thread.EndsBy (n : ℤ) : Thread K → Prop
  | .call _ end_ _ => end_ ≤ n
  | .wait _ _ end_ _ => end_ ≤ n
  | _ => True

/-- Only arrays of up to `2 ^ 30` elements are to be sorted. -/
def ShortCall (_ : Conf (Shared K) (Thread K)) : Move (Request K) Unit → Prop
  | .arrive r => (machine.entry r).EndsBy (2 ^ 30)
  | .run _ _ => True

/-- The leaves fit `stack_buf`, and no sum of two positions wraps. -/
structure Short (c : Conf (Shared K) (Thread K)) : Prop where
  inv : Inv c
  leaves : c.shared.m_threshold_normal ≤ 513
  ends : ∀ t ∈ c.pool, t.EndsBy (2 ^ 30)

theorem Does.threshold (h : Does cc t cc' t') : cc'.m_threshold_normal = cc.m_threshold_normal := by
  cases h <;> rfl

theorem Does.endsBy {n : ℤ} (h : Does cc t cc' t') (ht : t.EndsBy n) : t'.EndsBy n := by
  cases h with
  | call => exact ht
  | _ => trivial

section ShortRun

variable {c c' : Conf (Shared K) (Thread K)} {m : Move (Request K) Unit}

theorem Short.noFault (h : Short c) (m : Move (Request K) Unit) : NoFault c m := by
  cases m with
  | arrive => trivial
  | run i _ =>
    intro node org ht horg
    obtain ⟨b, e, key, hat, hwait, hlo, hhi⟩ := h.inv.popped_within ht horg
    have hb := hat.nonneg
    have he : e ≤ 2 ^ 30 := h.ends _ hwait
    have hthr := h.inv.threshold
    have hleaves := h.leaves
    by_cases hleaf : node.end_ - node.beg < c.shared.m_threshold_normal
    · rw [if_pos hleaf]
      obtain ⟨key', hrun⟩ := Q_Unrecursion_1K_returns org.key (by omega : 0 ≤ node.beg)
        (by omega : node.end_ ≤ 2 ^ 30) (by omega)
      rw [hrun]
      exact nofun
    · rw [if_neg hleaf]
      omega

theorem Short.step (h : Short c) (hcall : ShortCall c m) (hstep : machine.step c m = some c') : Short c' := by
  refine ⟨h.inv.step hstep (h.noFault m), ?_, ?_⟩
  · rcases step_cases hstep with ⟨r, -, rfl⟩ | ⟨i, t, s', t', -, -, hdoes, rfl⟩
    · exact h.leaves
    · exact hdoes.threshold.le.trans h.leaves
  · intro u hu
    rcases step_cases hstep with ⟨r, rfl, rfl⟩ | ⟨i, t, s', t', -, ht, hdoes, rfl⟩
    · rcases mem_append.mp hu with hold | hnew
      · exact h.ends u hold
      · exact mem_singleton.mp hnew ▸ hcall
    · rcases mem_pool_run hu with hold | rfl
      · exact h.ends u hold
      · exact hdoes.endsBy (h.ends t (mem_of_getElem? ht))

end ShortRun

/-- **Short arrays are sorted**: with leaves of up to 513 elements every run on
    arrays of up to `2 ^ 30` is complete, and no step leaves an array or the stack. -/
theorem short_sorts_complete {threshold_normal : ℤ} (h : 2 ≤ threshold_normal)
    (hleaves : threshold_normal ≤ 513) (hreach : Reach machine.step ShortCall (start threshold_normal) c) :
    Complete c ∧ ∀ m, NoFault c m := by
  have hstart : Short (start threshold_normal : Conf (Shared K) (Thread K)) :=
    ⟨Inv.start h, hleaves, fun _ ht => absurd ht not_mem_nil⟩
  have hshort : Short c :=
    hreach.invariant Short hstart fun _ _ _ hc hcall hstep => hc.step hcall hstep
  exact ⟨hshort.inv.complete, hshort.noFault⟩

/-- Two elements in the wrong order, which one sorting thread sorts. -/
theorem short_sorts_complete_two : ∃ c : Conf (Shared ℤ) (Thread ℤ),
    c.pool = [.pop, .wait 0 0 1 Neg.neg] ∧ c.shared.orgs.map ORG_INFO.flag = [0] ∧ Complete c ∧
      ∀ m, NoFault c m := by
  have hstart : Reach machine.step ShortCall (start 2 : Conf (Shared ℤ) (Thread ℤ)) (start 2) := Reach.start
  have harrive := hstart.next (show ShortCall _ (.arrive .thread_sort) from trivial) rfl
  have hcall := harrive.next (show ShortCall _ (.arrive (.quick_sort 0 1 Neg.neg)) from
    (by decide : (1 : ℤ) ≤ 2 ^ 30)) rfl
  have hwait := hcall.next (show ShortCall _ (.run 1 ()) from trivial) rfl
  have hpop := hwait.next (show ShortCall _ (.run 0 ()) from trivial) rfl
  have hsort := hpop.next (show ShortCall _ (.run 0 ()) from trivial) rfl
  have hsorted := hsort.next (show ShortCall _ (.run 0 ()) from trivial) rfl
  exact ⟨_, rfl, rfl, short_sorts_complete le_rfl (by decide) hsorted⟩

end KalavaPir.Common.QQSParallel
