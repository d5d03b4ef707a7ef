/-
  KalavaPir.Common.QQSParallelIsolation — which ranges the sorting threads
  share.

  A partition hands on the range up to `lBegin-1` and the range from `lEnd`.
  The scans end with `lBegin=lEnd`; where the extra comparison moves `lBegin` on,
  the element at `lEnd` is in both.
-/
import KalavaPir.Common.QQSParallelSort

namespace KalavaPir.Common.QQSParallel

open KalavaPir.Framework

variable {K : Type} [LinearOrder K]

/-- **Isolation**: the ranges of a sort that are queued or with a thread have no
    position in common, and no thread writes outside of its own. -/
def Isolated (c : Conf (Shared K) (Thread K)) : Prop :=
  c.shared.undefined = false ∧ ∀ o, AllPairs Separate (tasks Thread.ranges c o)

/-- No element is shared: where a range is partitioned, the extra comparison
    after the scans leaves `lBegin` where it is. -/
def NoShare (c : Conf (Shared K) (Thread K)) : Move (Request K) Unit → Prop
  | .arrive _ => True
  | .run i _ => ∀ node org, c.pool[i]? = some (.popped node) →
      c.shared.orgs[node.org]? = some org →
        ¬ node.end_ - node.beg < c.shared.m_threshold_normal →
          ¬ (parted node org).items.tKey_1 (parted node org).lBegin <
            org.key (wrap32 (node.beg + node.end_) / 2)

/-! ## §1. Where the parts of a range meet. -/

/-- The left part ends before the right one exactly if the extra comparison
    fails. -/
theorem splitAt_iff {node : SORT_INFO} {org : ORG_INFO K} (hbeg : 0 ≤ node.beg)
    (hend : node.end_ < 2 ^ 31) (hlong : 2 ≤ node.end_ - node.beg)
    (hmid : 0 ≤ wrap32 (node.beg + node.end_) / 2) : splitAt node org - 1 < (parted node org).lEnd ↔
      ¬ (parted node org).items.tKey_1 (parted node org).lBegin <
        org.key (wrap32 (node.beg + node.end_) / 2) := by
  have hmet : (parted node org).lBegin = (parted node org).lEnd := by
    obtain ⟨_, heq⟩ | ⟨_, hneg⟩ := middle_cases hbeg (by omega : node.beg ≤ node.end_) hend
    · unfold parted
      exact partition_met (keysOf org.key) (by omega) (by omega)
    · omega
  unfold splitAt pastMiddle
  split
  next hlt =>
    constructor
    · omega
    · exact fun hge => absurd hlt hge
  next hge =>
    constructor
    · exact fun _ => hge
    · omega

/-! ## §2. The steps. -/

section Step

variable {c c' : Conf (Shared K) (Thread K)} {i : ℕ}

variable {t : Thread K}

variable {t' : Thread K}

omit [LinearOrder K] in
theorem Isolated.run {s' : Shared K} (h : Isolated c) (ht : c.pool[i]? = some t)
    (hdef : s'.undefined = false)
    (hle : ∀ o, pending Thread.ranges s' t' o ≤ pending Thread.ranges c.shared t o) :
    Isolated { shared := s', pool := c.pool.set i t' ++ [] } := by
  refine ⟨hdef, fun o => ?_⟩
  obtain ⟨X, htasks, htasks'⟩ := tasks_run Thread.ranges ht o
  refine (h.2 o).of_le ?_
  rw [htasks, htasks']
  exact add_le_add_left (hle o) X

/-- A partition keeps the threads isolated exactly if its parts do not meet. -/
theorem Isolated.partition_iff {node : SORT_INFO} {org : ORG_INFO K} (h : Isolated c) (hinv : Inv c)
    (ht : c.pool[i]? = some (.popped node)) (horg : c.shared.orgs[node.org]? = some org)
    (hleaf : ¬ node.end_ - node.beg < c.shared.m_threshold_normal)
    (hmid : 0 ≤ wrap32 (node.beg + node.end_) / 2) :
    Isolated { shared := c.shared.setKey node.org (parted node org).items.tKey_1,
               pool := c.pool.set i (.split .parted node (splitAt node org)
                 (parted node org).lEnd) ++ [] } ↔
      splitAt node org - 1 < (parted node org).lEnd := by
  obtain ⟨hbeg, hend⟩ := hinv.popped_bounds ht horg
  have hthr := hinv.threshold
  have hp : Parted (keysOf org.key) node.beg node.end_ (parted node org) (splitAt node org) :=
    parted_spec hbeg hend (by omega) hmid
  have hlower := hp.lower
  have hupper := hp.upper
  -- the range in hand, and the parts of it
  obtain ⟨X, htasks, htasks'⟩ := tasks_run Thread.ranges ht node.org
  have hwhole : tasks Thread.ranges c node.org =
      (node.beg, node.end_) ::ₘ (queue c.shared node.org + X) := by
    rw [htasks, pending, forSort_popped, add_right_comm, add_comm]
    rfl
  have hparts : ∀ s' : Shared K, queue s' node.org = queue c.shared node.org →
      tasks Thread.ranges { shared := s', pool := c.pool.set i (.split .parted node
        (splitAt node org) (parted node org).lEnd) ++ [] } node.org =
      (node.beg, splitAt node org - 1) ::ₘ ((parted node org).lEnd, node.end_) ::ₘ
        (queue c.shared node.org + X) := by
    intro s' hqueue
    rw [htasks', pending, hqueue, forSort_split, add_right_comm, add_comm]
    show (node.beg, splitAt node org - 1) ::ₘ {((parted node org).lEnd, node.end_)} + _ = _
    rw [Multiset.cons_add, Multiset.singleton_add]
  constructor
  · intro hiso
    by_contra hmeet
    have hpairs := hiso.2 node.org
    rw [hparts (c.shared.setKey node.org _) rfl] at hpairs
    have hsep := hpairs.head _ (Multiset.mem_cons_self _ _)
    exact hsep (parted node org).lEnd hlower.le (not_lt.mp hmeet) ⟨le_rfl, hupper⟩
  · intro hapart
    refine ⟨h.1, fun o => ?_⟩
    by_cases ho : o = node.org
    · subst ho
      rw [hparts (c.shared.setKey node.org _) rfl]
      have hpairs := h.2 node.org
      rw [hwhole] at hpairs
      exact hpairs.split hapart (by omega) hlower.le
    obtain ⟨Y, hold, hnew⟩ := tasks_run Thread.ranges ht o
    have hout : (Thread.popped node : Thread K).worksFor o = false :=
      Bool.of_not_eq_true fun hw => ho (worksFor_popped.mp hw).symm
    have hpairs := h.2 o
    rw [hold, pending, forSort_other hout] at hpairs
    rw [hnew, pending, forSort_other (by exact hout)]
    exact hpairs

/-- A new sort is its own. -/
theorem Isolated.call {b e : ℤ} {key : ℤ → K} (h : Isolated c) (hinv : Inv c)
    (ht : c.pool[i]? = some (.call b e key)) :
    Isolated { shared := { c.shared with
                 m_busy_list := c.shared.m_busy_list ++
                   [{ org := c.shared.orgs.length, beg := b, end_ := e }]
                 orgs := c.shared.orgs ++ [{ flag := 2, key := key }] },
               pool := c.pool.set i (.wait c.shared.orgs.length b e key) ++ [] } := by
  refine ⟨h.1, fun o => ?_⟩
  have hqueue := queue_push c.shared { org := c.shared.orgs.length, beg := b, end_ := e } o
  obtain ⟨X, hold, hnew⟩ := tasks_run Thread.ranges ht o
  have hpairs := h.2 o
  rw [hnew, pending, forSort_other rfl]
  show AllPairs Separate (queue (c.shared.push _) o + 0 + X)
  rw [hqueue]
  by_cases ho : c.shared.orgs.length = o
  · have hfresh : Idle c o := ho ▸ hinv.fresh
    have hnone := hfresh.tasks Thread.ranges
    rw [hold, pending, hfresh.queue, forSort_other rfl, zero_add, zero_add] at hnone
    rw [if_pos ho, hfresh.queue, hnone, zero_add, add_zero, add_zero]
    exact AllPairs.zero.cons Separate.symm fun S hS => absurd hS (Multiset.notMem_zero S)
  · rw [hold, pending, forSort_other rfl] at hpairs
    rw [if_neg ho, add_zero]
    exact hpairs

omit [LinearOrder K] in
theorem Isolated.arrive (h : Isolated c) (hout : ∀ o, t.worksFor o = false) :
    Isolated { c with pool := c.pool ++ [t] } := by
  refine ⟨h.1, fun o => ?_⟩
  rw [tasks, List.map_append, List.sum_append, List.map_singleton, List.sum_singleton,
    forSort_other (hout o), add_zero]
  exact h.2 o

omit [LinearOrder K] in
theorem pending_same {cc cc' : Shared K} (hqueue : ∀ o, queue cc' o = queue cc o)
    (hthread : ∀ o, forSort Thread.ranges o t' = forSort Thread.ranges o t) (o : ℕ) :
    pending Thread.ranges cc' t' o ≤ pending Thread.ranges cc t o := by
  rw [pending, pending, hqueue, hthread]

/-- The thread has no node in hand. -/
def Thread.unpopped : Thread K → Bool
  | .popped _ => false
  | _ => true

theorem lone_step (ht : c.pool[i]? = some t) (hlone : t.unpopped = true) :
    NoFault c (.run i ()) ∧ NoShare c (.run i ()) := by
  have hne : ∀ node, c.pool[i]? ≠ some (.popped node) := by
    intro node ht'
    rw [Option.some.inj (ht.symm.trans ht')] at hlone
    cases hlone
  exact ⟨fun node _ ht' => absurd ht' (hne node), fun node _ ht' => absurd ht' (hne node)⟩

/-- **What a step of an isolated configuration does to it.** -/
theorem Isolated.step_iff {m : Move (Request K) Unit} (h : Isolated c) (hinv : Inv c)
    (hstep : machine.step c m = some c') : Isolated c' ↔ NoFault c m ∧ NoShare c m := by
  have hfault : Isolated c' → NoFault c m := by
    intro hiso
    by_contra hno
    have hundef := (hinv.fault hstep hno).1
    rw [hiso.1] at hundef
    cases hundef
  rcases step_cases hstep with ⟨r, rfl, rfl⟩ | ⟨i, t, s', t', rfl, ht, hdoes, rfl⟩
  · refine ⟨fun _ => ⟨trivial, trivial⟩, fun _ => h.arrive fun o => ?_⟩
    cases r <;> rfl
  cases hdoes with
  | pop hbusy =>
    refine ⟨fun _ => lone_step ht rfl, fun _ => h.run ht h.1 fun o => ?_⟩
    exact (pending_pop hbusy rfl o).le
  | fault horg hfits =>
    refine ⟨fun hiso => ?_, fun hno => ?_⟩
    · cases hiso.1
    · exact absurd ((hinv.noFault_iff ht horg).mp hno.1) hfits
  | leaf horg hleaf _ =>
    refine ⟨fun hiso => ⟨hfault hiso, ?_⟩, fun _ => h.run ht h.1 fun o => ?_⟩
    · intro node org ht' _ hlong
      cases Option.some.inj (ht.symm.trans ht')
      exact absurd hleaf hlong
    · exact pending_same (fun _ => rfl) (fun _ => rfl) o
  | @partition node org horg hleaf hmid =>
    obtain ⟨hbeg, hend⟩ := hinv.popped_bounds ht horg
    have hthr := hinv.threshold
    have hiff : splitAt node org - 1 < (parted node org).lEnd ↔ _ :=
      splitAt_iff hbeg hend (by omega) hmid
    refine (h.partition_iff hinv ht horg hleaf hmid).trans ⟨fun hapart => ⟨?_, ?_⟩, fun hno => ?_⟩
    · exact hfault ((h.partition_iff hinv ht horg hleaf hmid).mpr hapart)
    · intro node org ht' horg' _
      cases Option.some.inj (ht.symm.trans ht')
      cases Option.some.inj (horg.symm.trans horg')
      exact hiff.mp hapart
    · exact hiff.mpr (hno.2 _ _ ht horg hleaf)
  | sorted node =>
    refine ⟨fun _ => lone_step ht rfl, fun _ => h.run ht h.1 fun o => ?_⟩
    exact add_le_add_right (Multiset.zero_le _) _
  | count => exact ⟨fun _ => lone_step ht rfl, fun _ => h.run ht h.1 (pending_same (fun _ => rfl) fun _ => rfl)⟩
  | pushRight node lBegin lEnd =>
    refine ⟨fun _ => lone_step ht rfl, fun _ => h.run ht h.1 fun o => ?_⟩
    refine (pending_push rfl (beq_self_eq_true _) (fun ho => ?_) ?_ o).le
    · exact ⟨beq_eq_false_iff_ne.mpr ho, beq_eq_false_iff_ne.mpr ho⟩
    · show _ = {(lEnd, node.end_)} + forSort Thread.ranges node.org _
      rw [forSort_split]
      exact Multiset.pair_comm _ _
  | recount => exact ⟨fun _ => lone_step ht rfl, fun _ => h.run ht h.1 (pending_same (fun _ => rfl) fun _ => rfl)⟩
  | pushLeft node lBegin lEnd =>
    refine ⟨fun _ => lone_step ht rfl, fun _ => h.run ht h.1 fun o => ?_⟩
    refine (pending_push rfl (beq_self_eq_true _) (fun ho => ?_) ?_ o).le
    · exact ⟨beq_eq_false_iff_ne.mpr ho, rfl⟩
    · rw [forSort_pop]
      rfl
  | call key hbeg hend => exact ⟨fun _ => lone_step ht rfl, fun _ => h.call hinv ht⟩
  | wait => exact ⟨fun _ => lone_step ht rfl, fun _ => h.run ht h.1 (pending_same (fun _ => rfl) fun _ => rfl)⟩

end Step

/-! ## §3. Runs. -/

/-- **ISOLATION**: a run is isolated in all its states exactly if no step of it
    faults, and none shares an element. -/
theorem isolated_iff {threshold_normal : ℤ} (h : 2 ≤ threshold_normal)
    (ls : List (Move (Request K) Unit)) :
    Along machine.step Isolated (start threshold_normal) ls ↔
      Steps machine.step (fun c m => NoFault c m ∧ NoShare c m) (start threshold_normal) ls := by
  have hstart : Isolated (start threshold_normal : Conf (Shared K) (Thread K)) :=
    ⟨rfl, fun o => AllPairs.zero⟩
  refine along_iff_steps Inv ?_ ?_ ls _ (Inv.start h) hstart
  · intro c m c' hinv hiso hstep hiso'
    exact hinv.step hstep ((hiso.step_iff hinv hstep).mp hiso').1
  · exact fun c m c' hinv hiso hstep => hiso.step_iff hinv hstep

theorem isolated_iff_two :
    Along machine.step Isolated (start 2)
        [.arrive .thread_sort, .arrive (.quick_sort 0 1 id), .run 1 (), .run 0 ()] ↔
      Steps machine.step (fun c m => NoFault c m ∧ NoShare c m) (start 2)
        [.arrive .thread_sort, .arrive (.quick_sort 0 1 (id : ℤ → ℤ)), .run 1 (), .run 0 ()] :=
  isolated_iff (by decide) _

/-- The keys 1, 4, 2, 3: the extra comparison finds 2 less than 4, and the
    element is in both parts. -/
def sharing : ℤ → ℤ
  | 0 => 1
  | 1 => 4
  | i => i

theorem sharing_not_isolated :
    ¬ ∀ threshold_normal : ℤ, 2 ≤ threshold_normal → ∀ ls : List (Move (Request ℤ) Unit),
      Along machine.step Isolated (start threshold_normal) ls := by
  intro h
  have hall := h 2 (by decide) [.arrive .thread_sort, .arrive (.quick_sort 0 3 sharing),
    .run 1 (), .run 0 (), .run 0 ()]
  have hend := ((((hall.2 _ rfl).2 _ rfl).2 _ rfl).2 _ rfl).2 _ rfl
  have hparts : AllPairs Separate ({(0, 2), (2, 3)} : Multiset (ℤ × ℤ)) := hend.2 0
  exact hparts.head (2, 3) (Multiset.mem_singleton_self _) 2 (by decide) (by decide) (by decide)

end KalavaPir.Common.QQSParallel
