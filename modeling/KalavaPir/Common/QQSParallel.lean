/-
  KalavaPir.Common.QQSParallel — the parallel quicksort of
  `common/qalgorithm.h` (line 2313).

  `quick_sort` hands a range to the sorting threads as a node of the busy list and
  waits for the flag of its `org_info` to become 0; a sorting thread pops a node,
  and either sorts its range or partitions it and pushes two nodes.

  As a step relation the idle list always has a node (a node is the range that
  is written into it), each pop, push, partition, leaf sort and locked flag
  update is ONE atomic step, and each sort has an array of its own.  A leaf sort
  that overflows its stack, or a sum of positions that is no `int32_t`, leaves
  everything UNDEFINED.
-/
import KalavaPir.Common.QQueue
import KalavaPir.Common.QUnrecursion
import KalavaPir.Framework.ThreadPool
import Mathlib.Algebra.Order.Group.Multiset

namespace KalavaPir.Common.QQSParallel

open KalavaPir.Framework

/-! ## §1. `init`. -/

/-- The members that `init` sets; `none`: the list has not been allocated. -/
structure Object where
  m_threshold_normal : ℤ
  m_list_size : ℤ
  m_thread_num : ℤ
  m_idle_list : Option (QQueue ℕ)
  /-- the threads started -/
  threads : ℕ

/-- Which of the three arrays the heap has room for, and what is in the first. -/
structure Heap where
  idle : Bool
  busy : Bool
  node_list : Bool
  cells : ℕ → ℕ

/-- `m_idle_list.push(node_list+i);` from `i` on; nobody pops meanwhile. -/
def stock : ℕ → ℕ → QQueue ℕ → Option (QQueue ℕ)
  | 0, _, idle => some idle
  | k + 1, i, idle => (idle.push i).bind (stock k (i + 1))

/-- `init(threshold_normal, list_size, thread_num)`: the code it returns; `none`
    if it blocks for ever. -/
def init (heap : Heap) (threshold_normal list_size thread_num : ℤ) : Option (ℤ × Object) :=
  let cc : Object :=
    { m_threshold_normal := threshold_normal, m_list_size := list_size,
      m_thread_num := thread_num, m_idle_list := none, threads := 0 }
  match QQueue.init heap.cells list_size, heap.idle with
  | none, _ => some (-1, cc)
  | some _, false => some (-1, cc)
  | some idle, true =>
    if heap.busy = false then some (-2, { cc with m_idle_list := some idle })
    else if heap.node_list = false then some (-3, { cc with m_idle_list := some idle })
    else
      (stock list_size.toNat 0 idle).map fun idle =>
        (0, { cc with m_idle_list := some idle, threads := thread_num.toNat })

/-- More pushes than the queue has room for block. -/
theorem stock_blocks : ∀ (k i : ℕ) (idle : QQueue ℕ), idle.max_size_ ≤ idle.toList.length + k →
    stock k i idle = none
  | 0, _, idle, h => by
    have hlt := idle.size_lt
    rw [QQueue.length_toList] at h
    omega
  | k + 1, i, idle, h => by
    rw [stock]
    cases hpush : idle.push i with
    | none => rfl
    | some idle' =>
      refine stock_blocks k (i + 1) idle' ?_
      rw [QQueue.push_max_size hpush, QQueue.push_toList hpush, List.length_append,
        List.length_singleton]
      omega

variable {list_size : ℤ}

theorem stock_fresh {cells : ℕ → ℕ} {idle : QQueue ℕ} (h : QQueue.init cells list_size = some idle) :
    stock list_size.toNat 0 idle = none := by
  obtain ⟨hempty, hmax⟩ := QQueue.init_toList h
  refine stock_blocks _ _ _ ?_
  omega

theorem init_eq_none (heap : Heap) (threshold_normal : ℤ) (thread_num : ℤ) (hsize : 0 < list_size)
    (hidle : heap.idle = true) (hbusy : heap.busy = true) (hnodes : heap.node_list = true) :
    init heap threshold_normal list_size thread_num = none := by
  obtain ⟨idle, hinit⟩ : ∃ idle, QQueue.init heap.cells list_size = some idle := by
    rw [QQueue.init, dif_neg (by omega)]
    exact ⟨_, rfl⟩
  unfold init
  rw [hinit, hidle, hbusy, hnodes]
  simp [stock_fresh hinit]

/-- **`init` RETURNS only if an allocation fails.** -/
theorem init_returns_iff (heap : Heap) (threshold_normal : ℤ) {list_size : ℤ} (thread_num : ℤ)
    (hsize : 0 < list_size) :
    (∃ r, init heap threshold_normal list_size thread_num = some r) ↔
      ¬ (heap.idle = true ∧ heap.busy = true ∧ heap.node_list = true) := by
  constructor
  · rintro ⟨r, hr⟩ ⟨hidle, hbusy, hnodes⟩
    rw [init_eq_none heap threshold_normal thread_num hsize hidle hbusy hnodes] at hr
    cases hr
  · intro hfail
    unfold init
    split
    next => exact ⟨_, rfl⟩
    next => exact ⟨_, rfl⟩
    next hidle =>
      split
      next => exact ⟨_, rfl⟩
      next hbusy =>
        split
        next => exact ⟨_, rfl⟩
        next hnodes =>
          exact absurd ⟨hidle, Bool.of_not_eq_false hbusy, Bool.of_not_eq_false hnodes⟩ hfail

theorem init_returns_iff_one :
    (∃ r, init ⟨true, false, true, fun _ => 0⟩ 1000 1 10 = some r) ↔
      ¬ (true = true ∧ false = true ∧ true = true) :=
  init_returns_iff ⟨true, false, true, fun _ => 0⟩ 1000 10 (by decide)

/-- The defaults of `init`, with room for all of it. -/
theorem init_blocks :
    ¬ ∀ (heap : Heap) (threshold_normal list_size thread_num : ℤ), 0 < list_size →
      ∃ r, init heap threshold_normal list_size thread_num = some r := by
  intro h
  obtain ⟨r, hr⟩ := h ⟨true, true, true, fun _ => 0⟩ 1000 100000 10 (by decide)
  rw [init_eq_none _ _ _ (by decide) rfl rfl rfl] at hr
  cases hr

/-! ## §2. `quick_sort` and `thread_sort`. -/

variable {K : Type} [LinearOrder K]

/-- A node: the range from `beg` to `end_` of the sort `org`. -/
structure SORT_INFO where
  org : ℕ
  beg : ℤ
  end_ : ℤ
  deriving DecidableEq, Repr

/-- One sort: its flag and its array. -/
structure ORG_INFO (K : Type) where
  flag : ℤ
  key : ℤ → K

/-- What the threads share.  `orgs` are the `org_info` of the calls so far, in
    their order. -/
structure Shared (K : Type) where
  m_threshold_normal : ℤ
  m_busy_list : List SORT_INFO
  orgs : List (ORG_INFO K)
  undefined : Bool

/-- How far a sorting thread is after a partition: the flag goes up before each
    of the two pushes. -/
inductive Stage
  | parted
  | counted
  | pushed
  | recounted
  deriving DecidableEq, Repr

/-- Where a thread is.  A sorting thread is before its pop, has a node, has
    sorted its range, or has partitioned it; a caller calls `quick_sort`, waits
    for the flag, and is done.  The array it calls with is kept to be compared. -/
inductive Thread (K : Type)
  | pop
  | popped (node : SORT_INFO)
  | sorted (node : SORT_INFO)
  | split (stage : Stage) (node : SORT_INFO) (lBegin lEnd : ℤ)
  | call (beg end_ : ℤ) (key : ℤ → K)
  | wait (org : ℕ) (beg end_ : ℤ) (key : ℤ → K)
  | done

/-- Who arrives. -/
inductive Request (K : Type)
  | thread_sort
  | quick_sort (beg end_ : ℤ) (key : ℤ → K)

namespace Shared

/-- `org->flag+=d`. -/
def addFlag (cc : Shared K) (o : ℕ) (d : ℤ) : Shared K :=
  { cc with orgs := cc.orgs.modify o fun org => { org with flag := org.flag + d } }

/-- The array of one sort. -/
def setKey (cc : Shared K) (o : ℕ) (key : ℤ → K) : Shared K :=
  { cc with orgs := cc.orgs.modify o fun org => { org with key := key } }

/-- `m_busy_list.push(node)`. -/
def push (cc : Shared K) (node : SORT_INFO) : Shared K :=
  { cc with m_busy_list := cc.m_busy_list ++ [node] }

end Shared

/-- A popped node: its range is sorted, or partitioned. -/
def process (cc : Shared K) (node : SORT_INFO) (org : ORG_INFO K) : Option (Shared K × Thread K) :=
  if node.end_ - node.beg < cc.m_threshold_normal then
    match Q_Unrecursion_1K node.beg node.end_ org.key with
    | .running => none
    | .faults => some ({ cc with undefined := true }, .popped node)
    | .returns key => some (cc.setKey node.org key, .sorted node)
  else
    let lMid := wrap32 (node.beg + node.end_) / 2
    if lMid < 0 then some ({ cc with undefined := true }, .popped node)
    else
      let p := partition (keysOf org.key) node.beg node.end_ lMid
      some (cc.setKey node.org p.items.tKey_1,
        .split .parted node (pastMiddle p (org.key lMid)) p.lEnd)

/-- One step of a thread; nothing is said about what follows an undefined one. -/
def exec (cc : Shared K) (_ : ℕ) (t : Thread K) (_ : Unit) :
    Option (Shared K × Thread K × List (Thread K)) :=
  if cc.undefined then none
  else
    match t with
    | .pop =>
      match cc.m_busy_list with
      | [] => none
      | node :: rest => some ({ cc with m_busy_list := rest }, .popped node, [])
    | .popped node =>
      (cc.orgs[node.org]?).bind fun org =>
        (process cc node org).map fun (cc, t) => (cc, t, [])
    | .sorted node => some (cc.addFlag node.org (-2), .pop, [])
    | .split .parted node lBegin lEnd =>
      some (cc.addFlag node.org 1, .split .counted node lBegin lEnd, [])
    | .split .counted node lBegin lEnd =>
      some (cc.push { org := node.org, beg := lEnd, end_ := node.end_ },
        .split .pushed node lBegin lEnd, [])
    | .split .pushed node lBegin lEnd =>
      some (cc.addFlag node.org 1, .split .recounted node lBegin lEnd, [])
    | .split .recounted node lBegin _ =>
      some (cc.push { org := node.org, beg := node.beg, end_ := lBegin - 1 }, .pop, [])
    | .call beg end_ key =>
      if 0 ≤ beg ∧ beg ≤ end_ + 1 ∧ end_ < 2 ^ 31 then
        -- `flag=1`, and 1 more before the push
        some ({ cc with
            m_busy_list := cc.m_busy_list ++ [{ org := cc.orgs.length, beg := beg, end_ := end_ }]
            orgs := cc.orgs ++ [{ flag := 2, key := key }] },
          .wait cc.orgs.length beg end_ key, [])
      else none
    | .wait o _ _ _ =>
      match cc.orgs[o]? with
      | some org => if org.flag = 0 then some (cc, .done, []) else none
      | none => none
    | .done => none

/-- Any number of sorting threads and of callers. -/
def machine : Machine (Shared K) (Thread K) (Request K) Unit where
  exec := exec
  entry
    | .thread_sort => .pop
    | .quick_sort beg end_ key => .call beg end_ key

/-- No thread and no sort yet. -/
def start (threshold_normal : ℤ) : Conf (Shared K) (Thread K) where
  shared :=
    { m_threshold_normal := threshold_normal, m_busy_list := [], orgs := [], undefined := false }
  pool := []

/-! ## §3. What is left to do for a sort. -/

/-- The ranges of the sort `o` in the busy list. -/
def queue (cc : Shared K) (o : ℕ) : Multiset (ℤ × ℤ) :=
  ((cc.m_busy_list.filter (·.org = o)).map fun node => (node.beg, node.end_) : List (ℤ × ℤ))

/-- The thread works for the sort `o`. -/
def Thread.worksFor (o : ℕ) : Thread K → Bool
  | .popped node | .sorted node | .split _ node _ _ => node.org == o
  | .pop | .call .. | .wait .. | .done => false

/-- The parts a thread has not pushed yet. -/
def parts (node : SORT_INFO) (lBegin lEnd : ℤ) : Stage → Multiset (ℤ × ℤ)
  | .parted | .counted => {(node.beg, lBegin - 1), (lEnd, node.end_)}
  | .pushed | .recounted => {(node.beg, lBegin - 1)}

/-- The ranges that a thread still has to sort or to hand on. -/
def Thread.unsorted : Thread K → Multiset (ℤ × ℤ)
  | .popped node => {(node.beg, node.end_)}
  | .split stage node lBegin lEnd => parts node lBegin lEnd stage
  | .pop | .sorted _ | .call .. | .wait .. | .done => 0

/-- The ranges of a thread: the ones that it has still to sort or to hand on,
    and the one that it has sorted. -/
def Thread.ranges : Thread K → Multiset (ℤ × ℤ)
  | .popped node | .sorted node => {(node.beg, node.end_)}
  | .split stage node lBegin lEnd => parts node lBegin lEnd stage
  | .pop | .call .. | .wait .. | .done => 0

/-- What a stage counts for in the flag. -/
def Stage.weight : Stage → ℤ
  | .parted => 2
  | .counted => 3
  | .pushed => 1
  | .recounted => 2

/-- What a thread adds to the flag of its sort. -/
def Thread.weight : Thread K → ℤ
  | .popped _ | .sorted _ => 2
  | .split stage _ _ _ => stage.weight
  | .pop | .call .. | .wait .. | .done => 0

/-- What `f` says of the threads that work for the sort `o`. -/
def forSort {M : Type} [AddCommMonoid M] (f : Thread K → M) (o : ℕ) (t : Thread K) : M :=
  if t.worksFor o then f t else 0

/-- The ranges of the sort `o`, queued or with a thread. -/
def tasks (f : Thread K → Multiset (ℤ × ℤ)) (c : Conf (Shared K) (Thread K)) (o : ℕ) :
    Multiset (ℤ × ℤ) :=
  queue c.shared o + (c.pool.map (forSort f o)).sum

/-- What the flag of the sort `o` counts: 2 for a queued node. -/
def load (c : Conf (Shared K) (Thread K)) (o : ℕ) : ℤ :=
  2 * (queue c.shared o).card + (c.pool.map (forSort Thread.weight o)).sum

end KalavaPir.Common.QQSParallel
