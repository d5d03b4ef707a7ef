/-
  KalavaPir.Common.QListQueue — the linked queue of `common/qqueue.h`.

  The nodes live in a memory that knows which addresses are allocated; a read or
  a write at any other address is undefined, and so is an overflow of `now_size_`.
  `new` succeeds, at an address that was free.

  In `push` the assignment `rear_=rear_->link` stands between `#ifdef __multi_thread`
  and `#endif`, where only the mutex belongs: without that macro `rear_` stays at
  the node that was pushed into the empty queue.
-/
import KalavaPir.Common.Container
import KalavaPir.Framework.LinkedChain
import Mathlib.Data.List.AList

namespace KalavaPir.Common

open KalavaPir.Framework List Option AList

/-! ## §1. The queue and its calls. -/

/-- A node of the list. -/
structure ListNode (T : Type) where
  data : T
  link : Option ℕ := none
  deriving DecidableEq, Repr

/-- The allocated nodes. -/
abbrev NodeHeap (T : Type) : Type := AList fun _ : ℕ => ListNode T

/-- The queue; its nodes are linked. -/
structure QListQueue (T : Type) where
  heap : NodeHeap T := ∅
  front_ : Option ℕ := none
  rear_ : Option ℕ := none
  now_size_ : ℤ := 0
  max_size_ : ℤ := 1024

namespace QListQueue

variable {T : Type}

/-- The calls; `addr` is what `new` returns. -/
inductive Call (T : Type)
  | push (item : T) (addr : ℕ)
  | push_urgent (item : T) (addr : ℕ)
  | pop
  | clear

/-- What a call answers. -/
abbrev Answer (T : Type) : Type := Container.Answer T

/-- No element waits. -/
def empty (q : QListQueue T) : Bool := q.now_size_ == 0

/-- No place is left. -/
def full (q : QListQueue T) : Bool := q.now_size_ == q.max_size_

/-- `++now_size_; return 0;` -/
def counted (q : QListQueue T) : Except Stop (Answer T × QListQueue T) :=
  checked (int32 (q.now_size_ + 1)) fun now_size => .ok ({}, { q with now_size_ := now_size })

/-- `front_=rear_=new ListNode(item)` -/
def pushFirst (q : QListQueue T) (item : T) (addr : ℕ) : QListQueue T :=
  { q with
    heap := q.heap.insert addr { data := item }
    front_ := some addr
    rear_ := some addr }

/-- `rear_->link=new ListNode(item)`, and `rear_=rear_->link` where the
    preprocessor leaves it in. -/
def pushBehind (multi_thread : Bool) (q : QListQueue T) (item : T) (addr : ℕ) :
    Option (QListQueue T) :=
  let heap := q.heap.insert addr { data := item }
  q.rear_.bind fun r =>
    (heap.lookup r).map fun node =>
      { q with
        heap := heap.insert r { node with link := some addr }
        rear_ := if multi_thread then some addr else q.rear_ }

/-- `push(item)`. -/
def push (multi_thread : Bool) (q : QListQueue T) (item : T) (addr : ℕ) :
    Except Stop (Answer T × QListQueue T) :=
  if q.full then .error .waits
  else
    match q.front_ with
    | none => (q.pushFirst item addr).counted
    | some _ => checked (q.pushBehind multi_thread item addr) counted

/-- `push_urgent(item)`: `front_=new ListNode(item, p)` with the old front `p`. -/
def push_urgent (q : QListQueue T) (item : T) (addr : ℕ) : Except Stop (Answer T × QListQueue T) :=
  if q.full then .error .waits
  else
    match q.front_ with
    | none => (q.pushFirst item addr).counted
    | some p =>
      counted
        { q with
          heap := q.heap.insert addr { data := item, link := some p }
          front_ := some addr }

/-- `p=front_; front_=front_->link; q_delete(p); --now_size_;`, and the data of the
    node. -/
def dropFront (q : QListQueue T) : Option (T × QListQueue T) :=
  q.front_.bind fun p =>
    (q.heap.lookup p).bind fun node =>
      (int32 (q.now_size_ - 1)).map fun now_size =>
        (node.data, { q with heap := q.heap.erase p, front_ := node.link, now_size_ := now_size })

/-- `pop()`. -/
def pop (q : QListQueue T) : Except Stop (Answer T × QListQueue T) :=
  if q.empty then .error .waits
  else checked q.dropFront fun taken => .ok ({ item := some taken.1 }, taken.2)

/-- The loop of `clear()`; each round frees a node, so there are no more rounds
    than nodes. -/
def clearLoop : ℕ → QListQueue T → Option (QListQueue T)
  | fuel, q =>
    match q.front_ with
    | none => some q
    | some _ =>
      match fuel with
      | 0 => none
      | fuel + 1 => q.dropFront.bind fun taken => clearLoop fuel taken.2

/-- `clear()`. -/
def clear (q : QListQueue T) : Except Stop (Answer T × QListQueue T) :=
  checked (clearLoop q.heap.entries.length q) fun q' => .ok ({}, q')

/-- One call. -/
def step (multi_thread : Bool) (q : QListQueue T) : Call T → Except Stop (Answer T × QListQueue T)
  | .push item addr => q.push multi_thread item addr
  | .push_urgent item addr => q.push_urgent item addr
  | .pop => q.pop
  | .clear => q.clear

/-! ## §2. The line. -/

/-- The elements, the next one first. -/
structure Line (T : Type) where
  elements : List T := []
  /-- a `push` has found the line non-empty since it was last empty -/
  appended : Bool := false

/-- `t'` instead of a line with room. -/
def Line.grow (max : ℤ) (t t' : Line T) : Except Stop (Answer T × Line T) :=
  if (t.elements.length : ℤ) = max then .error .waits else .ok ({}, t')

/-- An element at the end. -/
def Line.push (t : Line T) (item : T) : Line T where
  elements := t.elements ++ [item]
  appended := !t.elements.isEmpty

/-- An element at the front. -/
def Line.push_urgent (t : Line T) (item : T) : Line T where
  elements := item :: t.elements
  appended := !t.elements.isEmpty && t.appended

/-- The first element goes. -/
def Line.pop (t : Line T) : Except Stop (Answer T × Line T) :=
  match t.elements with
  | [] => .error .waits
  | x :: xs => .ok ({ item := some x }, { t with elements := xs })

/-- At most `max` elements in a line: `push` goes to the end, `push_urgent` to the
    front. -/
def line (max : ℤ) (t : Line T) : Call T → Except Stop (Answer T × Line T)
  | .push item _ => t.grow max (t.push item)
  | .push_urgent item _ => t.grow max (t.push_urgent item)
  | .pop => t.pop
  | .clear => .ok ({}, {})

/-- `p->link` of an allocated node. -/
def linkOf (heap : NodeHeap T) (p : ℕ) : Option ℕ := (heap.lookup p).bind ListNode.link

/-- `p->data` of an allocated node. -/
def dataOf (heap : NodeHeap T) (p : ℕ) : Option T := (heap.lookup p).map ListNode.data

/-- The allocated nodes, from `front` along the links, hold `xs`. -/
structure Chain (heap : NodeHeap T) (front : Option ℕ) (chain : List ℕ) (xs : List T) : Prop where
  linked : Linked (linkOf heap) front chain
  nodup : chain.Nodup
  allocated : ∀ p, p ∈ heap ↔ p ∈ chain
  elements : chain.map (dataOf heap) = xs.map some

/-- Every node is linked, the chain holds the line, and it is counted. -/
structure Holds (max : ℤ) (q : QListQueue T) (t : Line T) : Prop where
  chain : ∃ chain, Chain q.heap q.front_ chain t.elements
  now_size : q.now_size_ = t.elements.length
  now_size_le : q.now_size_ ≤ INT32_MAX
  max_size : q.max_size_ = max

/-- `new` returns an address that is free. -/
def Allocates (q : QListQueue T) (_ : Line T) : Call T → Prop
  | .push _ addr => addr ∉ q.heap
  | .push_urgent _ addr => addr ∉ q.heap
  | .pop => True
  | .clear => True

/-! ## §3. Writing and freeing a node. -/

section Heap

variable {heap : NodeHeap T} {p r : ℕ} {node : ListNode T}

@[simp] theorem linkOf_insert_self : linkOf (heap.insert p node) p = node.link := by
  rw [linkOf, lookup_insert]
  rfl

theorem linkOf_insert_ne (h : r ≠ p) : linkOf (heap.insert p node) r = linkOf heap r := by
  rw [linkOf, lookup_insert_ne h, linkOf]

@[simp] theorem dataOf_insert_self : dataOf (heap.insert p node) p = some node.data := by
  rw [dataOf, lookup_insert]
  rfl

theorem dataOf_insert_ne (h : r ≠ p) : dataOf (heap.insert p node) r = dataOf heap r := by
  rw [dataOf, lookup_insert_ne h, dataOf]

theorem linkOf_erase_ne (h : r ≠ p) : linkOf (heap.erase p) r = linkOf heap r := by
  rw [linkOf, lookup_erase_ne h, linkOf]

theorem dataOf_erase_ne (h : r ≠ p) : dataOf (heap.erase p) r = dataOf heap r := by
  rw [dataOf, lookup_erase_ne h, dataOf]

variable {front : Option ℕ} {chain l : List ℕ} {x : T} {xs : List T}

section

variable (h : Chain heap front chain xs)
include h

theorem Chain.length_eq : chain.length = xs.length := by
  have := congrArg List.length h.elements
  rwa [length_map, length_map] at this

theorem Chain.front_eq_none_iff : front = none ↔ xs = [] := by
  rw [← length_eq_zero_iff, ← h.length_eq]
  cases chain with
  | nil => exact iff_of_true h.linked rfl
  | cons p l =>
    rw [h.linked.1]
    simp

theorem Chain.length_le : chain.length ≤ heap.entries.length := by
  have hsub : chain ⊆ heap.keys := fun p hp => mem_keys.mp ((h.allocated p).mpr hp)
  have hle := (subperm_of_subset h.nodup hsub).length_le
  rwa [AList.keys, List.keys, length_map] at hle

theorem Chain.cons (x : T) (hp : p ∉ heap) :
    Chain (heap.insert p { data := x, link := front }) (some p) (p :: chain) (x :: xs) := by
  have hout : p ∉ chain := fun hin => hp ((h.allocated p).mpr hin)
  have hne : ∀ r ∈ chain, r ≠ p := fun r hr heq => hout (heq ▸ hr)
  refine ⟨⟨rfl, ?_⟩, nodup_cons.mpr ⟨hout, h.nodup⟩, ?_, ?_⟩
  · rw [linkOf_insert_self]
    exact h.linked.congr fun r hr => linkOf_insert_ne (hne r hr)
  · intro r
    rw [mem_insert, h.allocated, mem_cons]
  · rw [map_cons, map_cons, dataOf_insert_self, ← h.elements]
    congr 1
    exact map_congr_left fun r hr => dataOf_insert_ne (hne r hr)

end

/-- The first node freed. -/
theorem Chain.tail (h : Chain heap front (p :: chain) (x :: xs)) :
    Chain (heap.erase p) (linkOf heap p) chain xs := by
  obtain ⟨hp, hnodup⟩ := nodup_cons.mp h.nodup
  have hne : ∀ r ∈ chain, r ≠ p := fun r hr heq => hp (heq ▸ hr)
  refine ⟨h.linked.2.congr fun r hr => linkOf_erase_ne (hne r hr), hnodup, ?_, ?_⟩
  · intro r
    rw [mem_erase, h.allocated, mem_cons]
    constructor
    · rintro ⟨hrp, heq | hr⟩
      · exact absurd heq hrp
      · exact hr
    · intro hr
      exact ⟨hne r hr, Or.inr hr⟩
  · have helements := h.elements
    rw [← (List.cons.inj helements).2]
    exact map_congr_left fun r hr => dataOf_erase_ne (hne r hr)

/-- The chain behind `r` is cut off, and the new node put there. -/
theorem Chain.linked_behind {l₂ : List ℕ} (h : Chain heap front (l ++ r :: l₂) xs) (x : T) (hp : p ∉ heap) :
    Linked (linkOf ((heap.insert p { data := x }).insert r { node with link := some p })) front
      (l ++ [r, p]) := by
  have hout : ∀ y ∈ l ++ r :: l₂, y ≠ p := fun y hy heq => hp ((h.allocated p).mpr (heq ▸ hy))
  have hrp : r ≠ p := hout r (mem_append_right l mem_cons_self)
  have hl : ∀ y ∈ l, y ≠ r := by
    intro y hy
    exact (nodup_append.mp h.nodup).2.2 y hy r mem_cons_self
  refine h.linked.splice (fun y hy => ?_) ?_
  · rw [linkOf_insert_ne (hl y hy), linkOf_insert_ne (hout y (mem_append_left _ hy))]
  -- the link of `r` leads to the new node, whose own link is null
  · rw [linkOf_insert_self]
    refine ⟨rfl, ?_⟩
    rw [linkOf_insert_ne hrp.symm, linkOf_insert_self]
    rfl

/-- A new node behind the last one. -/
theorem Chain.concat (h : Chain heap front (l ++ [r]) xs) (x : T) (hp : p ∉ heap) :
    ∃ node, (heap.insert p { data := x }).lookup r = some node ∧
      Chain ((heap.insert p { data := x }).insert r { node with link := some p }) front
        (l ++ [r, p]) (xs ++ [x]) := by
  have hout : ∀ y ∈ l ++ [r], y ≠ p := fun y hy heq => hp ((h.allocated p).mpr (heq ▸ hy))
  have hr : r ∈ l ++ [r] := mem_append_right l (mem_singleton_self r)
  have hrp : r ≠ p := hout r hr
  obtain ⟨node, hnode⟩ : ∃ node, heap.lookup r = some node :=
    isSome_iff_exists.mp (lookup_isSome.mpr ((h.allocated r).mpr hr))
  have hlookup : (heap.insert p { data := x }).lookup r = some node := by
    rw [lookup_insert_ne hrp, hnode]
  refine ⟨node, hlookup, h.linked_behind x hp, ?_, ?_, ?_⟩
  · rw [show l ++ [r, p] = (l ++ [r]) ++ [p] by simp, nodup_append]
    refine ⟨h.nodup, nodup_singleton p, fun y hy z hz => ?_⟩
    rw [mem_singleton.mp hz]
    exact hout y hy
  · intro y
    rw [mem_insert, mem_insert, h.allocated]
    simp only [mem_append, mem_cons, not_mem_nil, or_false]
    tauto
  -- only links of the old nodes have changed, not their data
  · have hsame : ∀ y ∈ l ++ [r], dataOf ((heap.insert p { data := x }).insert r
        { node with link := some p }) y = dataOf heap y := by
      intro y hy
      by_cases hyr : y = r
      · rw [hyr, dataOf_insert_self, dataOf, hnode]
        rfl
      · rw [dataOf_insert_ne hyr, dataOf_insert_ne (hout y hy)]
    rw [show l ++ [r, p] = (l ++ [r]) ++ [p] by simp, map_append, map_congr_left hsame,
      h.elements, map_singleton, dataOf_insert_ne hrp.symm, dataOf_insert_self, map_append,
      map_singleton]

/-- **A node behind one that is not the last leaves the chain too short**, whether
    the pointer leads into the chain or to the new node itself. -/
theorem Chain.not_concat (h : Chain heap front chain xs) (hp : p ∉ heap) (hlast : some r ≠ chain.getLast?)
    {chain' : List ℕ} {xs' : List T}
    (h' : Chain ((heap.insert p { data := x }).insert r { node with link := some p }) front
      chain' xs') : xs'.length ≤ xs.length := by
  have hout : ∀ y ∈ chain, y ≠ p := fun y hy heq => hp ((h.allocated p).mpr (heq ▸ hy))
  rw [← h.length_eq, ← h'.length_eq]
  by_cases hr : r ∈ chain
  · -- everything behind `r` is lost
    obtain ⟨l₁, l₂, rfl⟩ := append_of_mem hr
    rw [h'.linked.unique (h.linked_behind x hp)]
    cases l₂ with
    | nil => exact absurd (by rw [getLast?_concat]) hlast
    | cons y l₂ =>
      rw [length_append, length_append, length_cons, length_cons,
        length_cons, length_cons]
      simp
  · -- the chain is as it was
    have hsame : Linked (linkOf ((heap.insert p { data := x }).insert r { node with link := some p }))
        front chain := by
      refine h.linked.congr fun y hy => ?_
      have hyr : y ≠ r := fun heq => hr (heq ▸ hy)
      rw [linkOf_insert_ne hyr, linkOf_insert_ne (hout y hy)]
    rw [h'.linked.unique hsame]

end Heap

/-! ## §4. Which calls keep the line. -/

variable {multi_thread : Bool} {max : ℤ} {q : QListQueue T} {t : Line T}

/-- `rear_` is the last node exactly if the build keeps it up or nothing was
    appended yet. -/
def RearKept (multi_thread : Bool) (q : QListQueue T) (t : Line T) : Prop :=
  ∀ chain, Chain q.heap q.front_ chain t.elements → chain ≠ [] →
    (q.rear_ = chain.getLast? ↔ multi_thread = true ∨ t.appended = false)

/-- `now_size_` can count one more. -/
def Counts (max : ℤ) (t : Line T) : Prop :=
  (t.elements.length : ℤ) ≠ max → (t.elements.length : ℤ) < INT32_MAX

/-- A push finds room in `now_size_`, and one that appends to a non-empty line is the
    first or in the build that keeps `rear_` up. -/
def Keeps (multi_thread : Bool) (max : ℤ) (_ : QListQueue T) (t : Line T) : Call T → Prop
  | .push _ _ =>
    Counts max t ∧ ((t.elements.length : ℤ) ≠ max →
      multi_thread = true ∨ t.elements = [] ∨ t.appended = false)
  | .push_urgent _ _ => Counts max t
  | .pop => True
  | .clear => True

theorem Holds.full_iff (h : Holds max q t) : q.full = true ↔ (t.elements.length : ℤ) = max := by
  rw [full, beq_iff_eq, h.now_size, h.max_size]

theorem Holds.empty_iff (h : Holds max q t) : q.empty = true ↔ t.elements = [] := by
  rw [empty, beq_iff_eq, h.now_size, Nat.cast_eq_zero, length_eq_zero_iff]

variable {q' : QListQueue T} {chain : List ℕ} {addr : ℕ} {t' : Line T} {xs : List T} {item : T}

theorem Holds.counted (h : Holds max q t) (hroom : (t.elements.length : ℤ) < INT32_MAX)
    (hq : q'.now_size_ = q.now_size_) :
    q'.counted = .ok ({}, { q' with now_size_ := t.elements.length + 1 }) := by
  have hint : int32 ((t.elements.length : ℤ) + 1) = some ((t.elements.length : ℤ) + 1) := by
    unfold INT32_MAX at hroom
    exact int32_of_range (by omega) (by omega)
  unfold QListQueue.counted
  rw [hq, h.now_size, hint, checked_some]

theorem Holds.counted_undefined (h : Holds max q t) (hroom : ¬ (t.elements.length : ℤ) < INT32_MAX)
    (hq : q'.now_size_ = q.now_size_) : q'.counted = .error .undefined := by
  have hint : int32 ((t.elements.length : ℤ) + 1) = none := by
    rw [int32_eq_none]
    intro hin
    have := hin.2
    omega
  unfold QListQueue.counted
  rw [hq, h.now_size, hint, checked_none]

theorem good_of_chain (hchain : Chain q.heap q.front_ chain t.elements)
    (hnow : q.now_size_ = t.elements.length) (hle : (t.elements.length : ℤ) ≤ INT32_MAX)
    (hmax : q.max_size_ = max)
    (hrear : chain ≠ [] → (q.rear_ = chain.getLast? ↔ multi_thread = true ∨ t.appended = false)) :
    Holds max q t ∧ RearKept multi_thread q t := by
  refine ⟨⟨⟨chain, hchain⟩, hnow, hnow.trans_le hle, hmax⟩, fun chain' hchain' hne => ?_⟩
  -- there is only one chain from the front
  rw [hchain'.linked.unique hchain.linked] at hne ⊢
  exact hrear hne

/-- What both pushes do to the empty queue. -/
theorem pushFirst_matched (h : Holds max q t) (hnil : t.elements = []) (item : T) (haddr : addr ∉ q.heap) :
    Matched (fun q t => Holds max q t ∧ RearKept multi_thread q t) (q.pushFirst item addr).counted
      (.ok ({}, { elements := [item], appended := false })) := by
  obtain ⟨chain, hchain⟩ := h.chain
  rw [hnil] at hchain
  have hfront : q.front_ = none := hchain.front_eq_none_iff.mpr rfl
  have hempty : chain = [] := length_eq_zero_iff.mp hchain.length_eq
  have hcons := hchain.cons item haddr
  rw [hfront, hempty] at hcons
  have hroom : (t.elements.length : ℤ) < INT32_MAX := by
    rw [hnil, length_nil]
    decide
  have hcounted : (q.pushFirst item addr).counted = .ok ({}, { q.pushFirst item addr with
      now_size_ := t.elements.length + 1 }) := h.counted hroom rfl
  rw [hcounted]
  refine .answer (good_of_chain hcons ?_ ?_ h.max_size ?_)
  · rw [hnil]
    rfl
  · rw [length_singleton]
    decide
  · intro _
    exact iff_of_true rfl (Or.inr rfl)

theorem matched_of_room (h : Holds max q t) {x : Except Stop (Answer T × QListQueue T)}
    (hx : (t.elements.length : ℤ) ≠ max → Matched (fun q t => Holds max q t ∧ RearKept multi_thread q t) x (.ok ({}, t'))) :
    Matched (fun q t => Holds max q t ∧ RearKept multi_thread q t)
      (if q.full then .error .waits else x) (t.grow max t') := by
  unfold Line.grow
  by_cases hfull : (t.elements.length : ℤ) = max
  · rw [if_pos (h.full_iff.mpr hfull), if_pos hfull]
    exact .stop .waits
  · rw [if_neg (mt h.full_iff.mp hfull), if_neg hfull]
    exact hx hfull

theorem Chain.exists_last {heap : NodeHeap T} {front : Option ℕ} (h : Chain heap front chain xs)
    (hne : xs ≠ []) : (∃ l r, chain = l ++ [r]) ∧ ∃ p, front = some p := by
  refine ⟨?_, ne_none_iff_exists'.mp (mt h.front_eq_none_iff.mp hne)⟩
  refine ⟨_, _, (dropLast_concat_getLast ?_).symm⟩
  intro hempty
  have hlength := h.length_eq
  rw [hempty] at hlength
  exact hne (length_eq_zero_iff.mp hlength.symm)

theorem push_matched (h : Holds max q t) (hrear : RearKept multi_thread q t) (haddr : addr ∉ q.heap)
    (hkeeps : Keeps multi_thread max q t (.push item addr)) :
    Matched (fun q t => Holds max q t ∧ RearKept multi_thread q t) (q.push multi_thread item addr)
      (t.grow max (t.push item)) := by
  refine matched_of_room h fun hfull => ?_
  have hroom := hkeeps.1 hfull
  obtain ⟨chain, hchain⟩ := h.chain
  by_cases hnil : t.elements = []
  · rw [hchain.front_eq_none_iff.mpr hnil, Line.push, hnil]
    exact pushFirst_matched h hnil item haddr
  obtain ⟨⟨l, r, rfl⟩, p, hp⟩ := hchain.exists_last hnil
  have hlast : multi_thread = true ∨ t.appended = false :=
    (hkeeps.2 hfull).imp_right fun hor => hor.resolve_left hnil
  -- as long as the condition holds, `rear_` is the last node
  have hr : q.rear_ = some r := by
    rw [(hrear _ hchain (by simp)).mpr hlast, getLast?_concat]
  obtain ⟨node, hnode, hchain'⟩ := hchain.concat item haddr
  have hbehind : q.pushBehind multi_thread item addr = some
      { q with
        heap := (q.heap.insert addr { data := item }).insert r { node with link := some addr }
        rear_ := if multi_thread then some addr else q.rear_ } := by
    unfold pushBehind
    rw [hr, bind_some, hnode, map_some]
  rw [hp]
  dsimp only
  rw [hbehind, checked_some, h.counted hroom]
  swap
  · rfl
  refine .answer (good_of_chain hchain' ?_ ?_ h.max_size ?_)
  · simp [Line.push]
  · have hlength : (t.push item).elements.length = t.elements.length + 1 := by simp [Line.push]
    omega
  · intro _
    have happended : (t.push item).appended = true := by
      simpa [Line.push] using hnil
    have hra : r ≠ addr := by
      intro heq
      exact haddr ((hchain.allocated addr).mpr (by rw [← heq]; simp))
    rw [show l ++ [r, addr] = (l ++ [r]) ++ [addr] by simp, getLast?_concat, happended]
    -- `rear_` moves on to the new node, or stays at the last but one
    rw [hr]
    cases multi_thread with
    | true => simp
    | false => simp [hra]

theorem push_urgent_matched (h : Holds max q t) (hrear : RearKept multi_thread q t) (haddr : addr ∉ q.heap)
    (hkeeps : Counts max t) :
    Matched (fun q t => Holds max q t ∧ RearKept multi_thread q t) (q.push_urgent item addr)
      (t.grow max (t.push_urgent item)) := by
  refine matched_of_room h fun hfull => ?_
  obtain ⟨chain, hchain⟩ := h.chain
  by_cases hnil : t.elements = []
  · rw [hchain.front_eq_none_iff.mpr hnil, Line.push_urgent, hnil]
    exact pushFirst_matched h hnil item haddr
  obtain ⟨⟨l, r, rfl⟩, p, hp⟩ := hchain.exists_last hnil
  have hcons := hchain.cons item haddr
  rw [hp] at hcons ⊢
  dsimp only
  have hroom := hkeeps hfull
  rw [h.counted hroom]
  swap
  · rfl
  refine .answer (good_of_chain hcons ?_ ?_ h.max_size ?_)
  · simp [Line.push_urgent]
  · have hlength : (t.push_urgent item).elements.length = t.elements.length + 1 := by
      simp [Line.push_urgent]
    omega
  · intro _
    have happended : (t.push_urgent item).appended = t.appended := by
      simp [Line.push_urgent, hnil]
    -- the last node is the same one as before
    rw [happended, ← hrear _ hchain (by simp)]
    rw [← cons_append, getLast?_concat, getLast?_concat]

/-- The front node taken off. -/
theorem dropFront_of_chain {x : T} {p : ℕ} {l : List ℕ} {n : ℕ}
    (hchain : Chain q.heap q.front_ (p :: l) (x :: xs)) (hnow : q.now_size_ = (n + 1 : ℕ))
    (hle : q.now_size_ ≤ INT32_MAX) :
    q.dropFront = some (x, { q with
      heap := q.heap.erase p
      front_ := linkOf q.heap p
      now_size_ := n }) := by
  have hint : int32 (((n + 1 : ℕ) : ℤ) - 1) = some (n : ℤ) := by
    unfold INT32_MAX at hle
    rw [Nat.cast_succ, add_sub_cancel_right]
    exact int32_of_range (by omega) (by omega)
  have hdata : dataOf q.heap p = some x := (List.cons.inj hchain.elements).1
  obtain ⟨node, hnode, hx⟩ := map_eq_some_iff.mp hdata
  have hlink : linkOf q.heap p = node.link := by
    rw [linkOf, hnode]
    rfl
  unfold dropFront
  rw [hchain.linked.1, bind_some, hnode, bind_some, hnow, hint, map_some, hx,
    hlink]

theorem pop_matched (h : Holds max q t) (hrear : RearKept multi_thread q t) :
    Matched (fun q t => Holds max q t ∧ RearKept multi_thread q t) q.pop t.pop := by
  unfold pop Line.pop
  obtain ⟨chain, hchain⟩ := h.chain
  obtain ⟨xs, appended⟩ := t
  cases xs with
  | nil =>
    rw [if_pos (h.empty_iff.mpr rfl)]
    exact .stop .waits
  | cons x xs =>
    rw [if_neg (fun he => absurd (h.empty_iff.mp he) (by simp))]
    cases chain with
    | nil => exact absurd hchain.length_eq (by simp)
    | cons p l =>
      have hnow : q.now_size_ = (xs.length + 1 : ℕ) := h.now_size
      rw [dropFront_of_chain hchain hnow h.now_size_le, checked_some]
      refine .answer (good_of_chain hchain.tail rfl ?_ h.max_size ?_)
      · have hle := h.now_size_le
        show (xs.length : ℤ) ≤ INT32_MAX
        omega
      -- `rear_` can only be wrong about a chain that is not empty
      · intro hne
        have hkept := hrear _ hchain (by simp)
        rw [getLast?_cons_of_ne_nil hne] at hkept
        exact hkept

/-- The loop of `clear()` frees the whole chain. -/
theorem clearLoop_of_chain {fuel : ℕ} (hchain : Chain q.heap q.front_ chain xs)
    (hnow : q.now_size_ = xs.length) (hle : q.now_size_ ≤ INT32_MAX) (hfuel : chain.length ≤ fuel) :
    ∃ q', clearLoop fuel q = some q' ∧ Chain q'.heap q'.front_ [] [] ∧ q'.now_size_ = 0 ∧
      q'.max_size_ = q.max_size_ := by
  induction chain generalizing fuel q xs with
  | nil =>
    have hnil : xs = [] := length_eq_zero_iff.mp hchain.length_eq.symm
    subst hnil
    refine ⟨q, ?_, hchain, hnow, rfl⟩
    unfold clearLoop
    rw [hchain.front_eq_none_iff.mpr rfl]
  | cons p l ih =>
    cases xs with
    | nil => exact absurd hchain.length_eq (by simp)
    | cons x xs =>
      cases fuel with
      | zero => exact absurd hfuel (by simp)
      | succ fuel =>
        have hdrop := dropFront_of_chain hchain hnow hle
        have hle' : (xs.length : ℤ) ≤ INT32_MAX := by
          rw [hnow, length_cons] at hle
          omega
        obtain ⟨q', hq', hrest⟩ := ih (q := { q with
            heap := q.heap.erase p
            front_ := linkOf q.heap p
            now_size_ := xs.length })
          hchain.tail rfl hle' (by simpa using hfuel)
        refine ⟨q', ?_, hrest⟩
        rw [clearLoop, hchain.linked.1]
        rw [hdrop, bind_some, hq']

theorem clear_matched (h : Holds max q t) :
    Matched (fun q t => Holds max q t ∧ RearKept multi_thread q t) q.clear (.ok ({}, {})) := by
  obtain ⟨chain, hchain⟩ := h.chain
  obtain ⟨q', hq', hchain', hnow', hmax'⟩ :=
    clearLoop_of_chain hchain h.now_size h.now_size_le hchain.length_le
  unfold clear
  rw [hq', checked_some]
  refine .answer (good_of_chain hchain' hnow' ?_ (hmax'.trans h.max_size) ?_)
  · rw [length_nil]
    decide
  · exact fun hne => absurd rfl hne

/-- **THE CALLS THAT KEEP THE LINE.** -/
theorem step_matched (h : Holds max q t) (hrear : RearKept multi_thread q t) {c : Call T}
    (halloc : Allocates q t c) (hkeeps : Keeps multi_thread max q t c) :
    Matched (fun q t => Holds max q t ∧ RearKept multi_thread q t) (step multi_thread q c)
      (line max t c) := by
  cases c with
  | push item addr => exact push_matched h hrear halloc hkeeps
  | push_urgent item addr => exact push_urgent_matched h hrear halloc hkeeps
  | pop => exact pop_matched h hrear
  | clear => exact clear_matched h

/-! ## §5. The others show. -/

theorem pushBehind_eq_some (hbehind : q.pushBehind multi_thread item addr = some q') :
    ∃ (r : ℕ) (node : ListNode T), q.rear_ = some r ∧
      q' = ({ q with
        heap := (q.heap.insert addr { data := item }).insert r { node with link := some addr }
        rear_ := if multi_thread then some addr else q.rear_ } : QListQueue T) := by
  obtain ⟨r, hr, hmap⟩ := bind_eq_some_iff.mp hbehind
  obtain ⟨node, -, hq'⟩ := map_eq_some_iff.mp hmap
  exact ⟨r, node, hr, hq'.symm⟩

theorem not_push_matched_of_count (h : Holds max q t) (hroom : ¬ (t.elements.length : ℤ) < INT32_MAX)
    (hfull : (t.elements.length : ℤ) ≠ max) :
    ¬ Matched (Holds max) (q.push multi_thread item addr) (t.grow max t') := by
  have hpush : q.push multi_thread item addr = .error .undefined := by
    unfold push
    rw [if_neg (mt h.full_iff.mp hfull)]
    cases q.front_ with
    | none => exact h.counted_undefined hroom rfl
    | some p =>
      cases hbehind : q.pushBehind multi_thread item addr with
      | none => rfl
      | some q' =>
        obtain ⟨r, node, -, rfl⟩ := pushBehind_eq_some hbehind
        exact h.counted_undefined hroom rfl
  rw [hpush, Line.grow, if_neg hfull]
  exact not_matched_error_ok

theorem not_push_urgent_matched (h : Holds max q t) (hroom : ¬ (t.elements.length : ℤ) < INT32_MAX)
    (hfull : (t.elements.length : ℤ) ≠ max) :
    ¬ Matched (Holds max) (q.push_urgent item addr) (t.grow max t') := by
  have hpush : q.push_urgent item addr = .error .undefined := by
    unfold push_urgent
    rw [if_neg (mt h.full_iff.mp hfull)]
    cases q.front_ with
    | none | some p => exact h.counted_undefined hroom rfl
  rw [hpush, Line.grow, if_neg hfull]
  exact not_matched_error_ok

/-- A second appending push without `__multi_thread` loses a node or writes to a
    freed one. -/
theorem not_push_matched_of_rear (h : Holds max q t) (hrear : RearKept false q t)
    (hroom : (t.elements.length : ℤ) < INT32_MAX) (hfull : (t.elements.length : ℤ) ≠ max)
    (hne : t.elements ≠ []) (happended : t.appended = true) (haddr : addr ∉ q.heap) :
    ¬ Matched (Holds max) (q.push false item addr) (t.grow max (t.push item)) := by
  obtain ⟨chain, hchain⟩ := h.chain
  obtain ⟨⟨l, r₀, rfl⟩, p, hp⟩ := hchain.exists_last hne
  -- a push was appended before: `rear_` is no longer the last node
  have hstale : q.rear_ ≠ (l ++ [r₀]).getLast? := by
    intro heq
    have hkept := (hrear _ hchain (by simp)).mp heq
    rw [happended] at hkept
    exact absurd hkept (by simp)
  unfold push
  rw [if_neg (mt h.full_iff.mp hfull), Line.grow, if_neg hfull, hp]
  dsimp only
  cases hbehind : q.pushBehind false item addr with
  | none => exact not_matched_error_ok
  | some q' =>
    obtain ⟨r, node, hr, rfl⟩ := pushBehind_eq_some hbehind
    rw [checked_some, h.counted hroom]
    swap
    · rfl
    rw [hr] at hstale
    intro hmatched
    obtain ⟨chain', hchain'⟩ := (matched_ok_iff.mp hmatched).2.chain
    -- the chain has not become longer, but the line has
    have hshort := hchain.not_concat haddr hstale hchain'
    rw [Line.push, length_append, length_singleton] at hshort
    omega

/-- **THE CALLS THAT DO NOT KEEP THE LINE.** -/
theorem not_step_matched (h : Holds max q t) (hrear : RearKept multi_thread q t) {c : Call T}
    (halloc : Allocates q t c) (hbad : ¬ Keeps multi_thread max q t c) :
    ¬ Matched (Holds max) (step multi_thread q c) (line max t c) := by
  cases c with
  | push item addr =>
    -- the count overflows, or the new node is put behind a wrong one
    by_cases hcounts : Counts max t
    · have hlast : ¬ ((t.elements.length : ℤ) ≠ max →
          multi_thread = true ∨ t.elements = [] ∨ t.appended = false) :=
        fun hlast => hbad ⟨hcounts, hlast⟩
      push Not at hlast
      obtain ⟨hfull, hbuild, hne, happended⟩ := hlast
      have hsingle : multi_thread = false := by simpa using hbuild
      subst hsingle
      exact not_push_matched_of_rear h hrear (hcounts hfull) hfull hne (by simpa using happended)
        halloc
    · unfold Counts at hcounts
      push Not at hcounts
      exact not_push_matched_of_count h (not_lt.mpr hcounts.2) hcounts.1
  | push_urgent item addr =>
    unfold Keeps Counts at hbad
    push Not at hbad
    exact not_push_urgent_matched h (not_lt.mpr hbad.2) hbad.1
  | pop | clear => exact absurd trivial hbad

/-! ## §6. Histories. -/

/-- The constructor. -/
def new (size : ℤ) : QListQueue T := { max_size_ := size }

theorem new_good (multi_thread : Bool) (size : ℤ) :
    Holds size (new size : QListQueue T) {} ∧ RearKept multi_thread (new size : QListQueue T) {} := by
  have hchain : Chain (new size : QListQueue T).heap (new size : QListQueue T).front_ [] [] :=
    ⟨rfl, nodup_nil, fun p => iff_of_false (notMem_empty p) not_mem_nil, rfl⟩
  refine good_of_chain hchain rfl ?_ rfl fun hne => absurd rfl hne
  rw [length_nil]
  decide

/-- **EVERY HISTORY IS THE LINE'S AS LONG AS EVERY CALL KEEPS IT.** -/
theorem history_line_iff (multi_thread : Bool) (size : ℤ) (cs : List (Call T))
    (halloc : Calls (step multi_thread) (line size) Allocates (new size) {} cs) :
    (∀ n, Matched (Holds size) (history (step multi_thread) (new size) (cs.take n))
        (history (line size) {} (cs.take n))) ↔
      Calls (step multi_thread) (line size) (Keeps multi_thread size) (new size) {} cs :=
  matched_iff_calls (RearKept multi_thread)
    (fun _ _ _ h hrear halloc hkeeps => step_matched h hrear halloc hkeeps)
    (fun _ _ _ h hrear halloc hbad => not_step_matched h hrear halloc hbad)
    (new_good multi_thread size).1 (new_good multi_thread size).2 halloc

instance (q : QListQueue T) (t : Line T) : ∀ c, Decidable (Allocates q t c)
  | .push _ addr => inferInstanceAs (Decidable (addr ∉ q.heap))
  | .push_urgent _ addr => inferInstanceAs (Decidable (addr ∉ q.heap))
  | .pop => inferInstanceAs (Decidable True)
  | .clear => inferInstanceAs (Decidable True)

/-- Two pushes into an empty queue, an urgent one, and a new start. -/
theorem history_line_iff_five :
    (∀ n, Matched (Holds 4)
        (history (step false) (new 4)
          (([.push 1 10, .push 2 11, .push_urgent 3 12, .pop, .clear] : List (Call ℕ)).take n))
        (history (line 4) {}
          (([.push 1 10, .push 2 11, .push_urgent 3 12, .pop, .clear] : List (Call ℕ)).take n))) ↔
      Calls (step false) (line 4) (Keeps false 4) (new 4) {}
        ([.push 1 10, .push 2 11, .push_urgent 3 12, .pop, .clear] : List (Call ℕ)) :=
  history_line_iff false 4 _ (by decide)

/-- Three pushes, and the second element is lost: the pops return 1 and 3. -/
theorem not_fifo_without_multi_thread :
    ¬ ∀ (multi_thread : Bool) (size : ℤ) (cs : List (Call ℕ)),
      Calls (step multi_thread) (line size) Allocates (new size) {} cs →
        Matched (Holds size) (history (step multi_thread) (new size) cs)
          (history (line size) {} cs) := by
  intro h
  have hmatched := h false 1024 [.push 1 10, .push 2 11, .push 3 12, .pop, .pop] (by decide)
  exact absurd hmatched.answers_eq (by decide)

/-- **The build with `__multi_thread`** keeps the line in every history, if the size
    is not negative. -/
theorem keeps_of_multi_thread {size : ℤ} (h0 : 0 ≤ size) (hsize : size ≤ INT32_MAX) (cs : List (Call T)) :
    Calls (step true) (line size) (Keeps true size) (new size) {} cs := by
  refine Calls.of_invariant (fun t => (t.elements.length : ℤ) ≤ size) ?_ ?_ cs _ _ h0
  -- the line is never longer than `size`
  · intro t c a t' hle hline
    have hgrow : ∀ x : Line T, x.elements.length = t.elements.length + 1 → t.grow size x = .ok (a, t') →
        (t'.elements.length : ℤ) ≤ size := by
      intro x hx hgrow
      unfold Line.grow at hgrow
      split at hgrow
      · cases hgrow
      next hne =>
        cases hgrow
        omega
    cases c with
    | push item addr => exact hgrow _ (by simp [Line.push]) hline
    | push_urgent item addr => exact hgrow _ (by simp [Line.push_urgent]) hline
    | pop =>
      obtain ⟨xs, appended⟩ := t
      cases xs with
      | nil => cases hline
      | cons x xs =>
        cases hline
        rw [length_cons] at hle
        dsimp only
        omega
    | clear =>
      cases hline
      exact h0
  · intro _ t c hle
    have hcounts : Counts size t := fun hne => lt_of_lt_of_le (lt_of_le_of_ne hle hne) hsize
    cases c with
    | push item addr => exact ⟨hcounts, fun _ => Or.inl rfl⟩
    | push_urgent item addr => exact hcounts
    | pop => trivial
    | clear => trivial

/-- **WITH `__multi_thread` THE QUEUE IS FIRST IN, FIRST OUT** in every history. -/
theorem history_line_of_multi_thread {size : ℤ} (h0 : 0 ≤ size) (hsize : size ≤ INT32_MAX)
    (cs : List (Call T)) (halloc : Calls (step true) (line size) Allocates (new size) {} cs) :
    Matched (Holds size) (history (step true) (new size) cs) (history (line size) {} cs) := by
  have hprefix := (matched_iff_calls (RearKept true)
    (fun _ _ _ h hrear halloc hkeeps => step_matched h hrear halloc hkeeps)
    (fun _ _ _ h hrear halloc hbad => not_step_matched h hrear halloc hbad)
    (new_good true size).1 (new_good true size).2 halloc).mpr (keeps_of_multi_thread h0 hsize cs)
  have hall := hprefix cs.length
  rwa [take_length] at hall

/-- The three pushes again: the pops return 1 and 2. -/
theorem history_line_of_multi_thread_three : Matched (Holds 1024)
    (history (step true) (new 1024) ([.push 1 10, .push 2 11, .push 3 12, .pop, .pop] : List (Call ℕ)))
    (history (line 1024) {} ([.push 1 10, .push 2 11, .push 3 12, .pop, .pop] : List (Call ℕ))) :=
  history_line_of_multi_thread (by decide) (by decide) _ (by decide)

end QListQueue

end KalavaPir.Common
