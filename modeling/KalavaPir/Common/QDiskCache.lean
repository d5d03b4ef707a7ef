/-
  KalavaPir.Common.QDiskCache — the operations of `common/qdiskcache.h` and
  their lock.

  `QDiskCache` is the table of `QHashSearch` with a mutex: every operation
  takes it at its head and gives it back before each of its `return`s, while
  `thread_save` takes it for a whole save cycle.  The mutex is not recursive,
  so a second `lock` by the thread that holds it waits for ever (`blocked`); an
  operation that leaves memory never returns (`fault`).

  One `return` is missed: `addKey_VL` checks `data_len<0` AFTER it has taken
  the lock and returns without giving it back.
-/
import KalavaPir.Common.QHashReload

namespace KalavaPir.Common

open KalavaPir.Framework

variable {T : KeyType}

/-! ## §1. The operations. -/

/-- The fields of `QDiskCache`; `mutex_` is true while it is held. -/
structure QDiskCache (T : KeyType) extends HashTable T where
  mutex_ : Bool

/-- How a call comes out. -/
inductive Answer (α : Type) where
  | blocked
  | fault
  | returned (a : α)

namespace QDiskCache

open HashTable (value_VL)

/-- `mutex_.lock()`; `none` while it waits. -/
def lock (c : QDiskCache T) : Option (QDiskCache T) :=
  if c.mutex_ then none else some { c with mutex_ := true }

/-- `mutex_.unlock()`. -/
def unlock (c : QDiskCache T) : QDiskCache T := { c with mutex_ := false }

/-- `addKey_FL(key, vpData, vppRetBuf, iIndex)`. -/
def addKey_FL (heap : Heap) (c : QDiskCache T) (key : Key T) (vpData : Option (ℕ → UInt8))
    (junk : ℕ → UInt8) (iIndex : ℤ) : Answer ((ℤ × Option (List UInt8)) × QDiskCache T) :=
  match c.lock with
  | none => .blocked
  | some c =>
    match c.hash_table_[c.index key iIndex]? with
    | none => .fault
    | some chain =>
      match findKey key chain with
      | some e => .returned ((1, c.value_FL e), c.unlock)
      | none =>
        match c.allocator_FL_ with
        | none => .fault
        | some a =>
          match a.alloc heap with
          | (none, a) => .returned ((-1, none), unlock { c with allocator_FL_ := some a })
          | (some false, _) => .fault
          | (some true, a) =>
            let e : HashEntry T := ⟨key, memcpy (vpData.getD junk) c.data_len_⟩
            .returned ((0, c.value_FL e), unlock { c with
              allocator_FL_ := some a
              hash_table_ := c.hash_table_.set (c.index key iIndex) (e :: chain)
              data_num_ := c.data_num_ + 1 })

/-- `searchKey_FL(key, vppRetBuf, iIndex)`. -/
def searchKey_FL (c : QDiskCache T) (key : Key T) (iIndex : ℤ) :
    Answer ((ℤ × Option (List UInt8)) × QDiskCache T) :=
  match c.lock with
  | none => .blocked
  | some c =>
    match c.hash_table_[c.index key iIndex]? with
    | none => .fault
    | some chain =>
      match findKey key chain with
      | some e => .returned ((0, c.value_FL e), c.unlock)
      | none => .returned ((-1, none), c.unlock)

/-- `updateKey_FL(key, vpData, vppRetBuf, iIndex)`. -/
def updateKey_FL (c : QDiskCache T) (key : Key T) (vpData : Option (ℕ → UInt8)) (iIndex : ℤ) :
    Answer ((ℤ × Option (List UInt8)) × QDiskCache T) :=
  match c.lock with
  | none => .blocked
  | some c =>
    match c.hash_table_[c.index key iIndex]? with
    | none => .fault
    | some chain =>
      match findKey key chain with
      | some e =>
        match vpData with
        | some p =>
          if 0 < c.data_len_ then
            .returned ((0, c.value_FL ⟨key, memcpy p c.data_len_⟩), unlock { c with
              hash_table_ := c.hash_table_.set (c.index key iIndex)
                (updateChain key (memcpy p c.data_len_) chain) })
          else .returned ((0, c.value_FL e), c.unlock)
        | none => .returned ((0, c.value_FL e), c.unlock)
      | none => .returned ((-1, none), c.unlock)

/-- `deleteKey_FL(key, iIndex)`. -/
def deleteKey_FL (c : QDiskCache T) (key : Key T) (iIndex : ℤ) : Answer (ℤ × QDiskCache T) :=
  match c.lock with
  | none => .blocked
  | some c =>
    match c.hash_table_[c.index key iIndex]? with
    | none => .fault
    | some chain =>
      match findKey key chain with
      | some _ =>
        match c.allocator_FL_ with
        | none => .fault
        | some a => .returned (0, unlock { c with
            allocator_FL_ := some a.free
            hash_table_ := c.hash_table_.set (c.index key iIndex) (deleteChain key chain)
            data_num_ := c.data_num_ - 1 })
      | none => .returned (-1, c.unlock)

/-- `addKey_VL(key, vpData, data_len, vppRetBuf, lpRetDataLen)`; its first
    `return` leaves the mutex locked. -/
def addKey_VL (heap : Heap) (c : QDiskCache T) (key : Key T) (vpData : ℕ → UInt8) (data_len : ℤ) :
    Answer ((ℤ × ℤ × Option (List UInt8)) × QDiskCache T) :=
  match c.lock with
  | none => .blocked
  | some c =>
    if data_len < 0 then .returned ((-1, 0, none), c)
    else
      match c.hash_table_[c.index key (-1)]? with
      | none => .fault
      | some chain =>
        match findKey key chain with
        | some e => .returned ((1, value_VL e), c.unlock)
        | none =>
          match c.allocator_VL_ with
          | none => .fault
          | some a =>
            match a.alloc heap (8 + T.size + 4 + data_len) with
            | (none, a) => .returned ((-1, 0, none), unlock { c with allocator_VL_ := some a })
            | (some _, a) =>
              let e : HashEntry T := ⟨key, encodeInt 4 data_len ++ memcpy vpData data_len⟩
              .returned ((0, value_VL e), unlock { c with
                allocator_VL_ := some a
                hash_table_ := c.hash_table_.set (c.index key (-1)) (e :: chain)
                data_num_ := c.data_num_ + 1 })

/-- `searchKey_VL(key, vppRetBuf, lpRetDataLen)`. -/
def searchKey_VL (c : QDiskCache T) (key : Key T) :
    Answer ((ℤ × ℤ × Option (List UInt8)) × QDiskCache T) :=
  match c.lock with
  | none => .blocked
  | some c =>
    match c.hash_table_[c.index key (-1)]? with
    | none => .fault
    | some chain =>
      match findKey key chain with
      | some e => .returned ((0, value_VL e), c.unlock)
      | none => .returned ((-1, 0, none), c.unlock)

/-- `clear()`. -/
def clear (c : QDiskCache T) : Answer (ℤ × QDiskCache T) :=
  match c.lock with
  | none => .blocked
  | some c =>
    match c.hash_table_ with
    | [] => .fault
    | _ :: _ => .returned (0, unlock { c with
        data_num_ := 0
        allocator_VL_ := c.allocator_VL_.map QAllocator.resetAllocator
        allocator_FL_ := c.allocator_FL_.map QAllocatorRecycle.resetAllocator
        hash_table_ := c.hash_table_.map (fun _ => []) })

/-! ## §2. Sequences of calls. -/

end QDiskCache

/-- What a call leaves, without what it reports. -/
def Answer.state {α β : Type} : Answer (α × β) → Answer β
  | .blocked => .blocked
  | .fault => .fault
  | .returned (_, b) => .returned b

namespace QDiskCache

/-- One call, with any arguments and any outcome of its memory requests. -/
def call (c : QDiskCache T) : HashTable.Call T → Answer (QDiskCache T)
  | .addKey_FL heap key vpData junk iIndex => (c.addKey_FL heap key vpData junk iIndex).state
  | .searchKey_FL key iIndex => (c.searchKey_FL key iIndex).state
  | .updateKey_FL key vpData iIndex => (c.updateKey_FL key vpData iIndex).state
  | .deleteKey_FL key iIndex => (c.deleteKey_FL key iIndex).state
  | .addKey_VL heap key vpData data_len => (c.addKey_VL heap key vpData data_len).state
  | .searchKey_VL key => (c.searchKey_VL key).state
  | .clear => c.clear.state

/-- A sequence of calls by one thread, up to one that does not return. -/
def run (c : QDiskCache T) : List (HashTable.Call T) → Answer (QDiskCache T)
  | [] => .returned c
  | x :: xs =>
    match c.call x with
    | .returned c => run c xs
    | .blocked => .blocked
    | .fault => .fault

/-- `addKey_VL` with a negative length. -/
def Negative : HashTable.Call T → Prop
  | .addKey_VL _ _ _ data_len => data_len < 0
  | _ => False

/-! ## §3. The lock around the table. -/

/-- What an operation of the table answers, given back with the mutex free. -/
def underLock {α : Type} : Option (α × HashTable T) → Answer (α × QDiskCache T)
  | none => .fault
  | some (a, t) => .returned (a, { t with mutex_ := false })

/-- Only the table of the answer. -/
def unlocked : Option (HashTable T) → Answer (QDiskCache T)
  | none => .fault
  | some t => .returned { t with mutex_ := false }

theorem underLock_state {α : Type} (r : Option (α × HashTable T)) : (underLock r).state = unlocked (r.map Prod.snd) := by
  cases r <;> rfl

variable {c : QDiskCache T}

theorem lock_of_free (hfree : c.mutex_ = false) : c.lock = some { c with mutex_ := true } := by
  unfold lock
  rw [hfree]
  rfl

section Free

variable {c : QDiskCache T} (hfree : c.mutex_ = false)
include hfree

theorem addKey_FL_underLock (heap : Heap) (key : Key T) (vpData : Option (ℕ → UInt8)) (junk : ℕ → UInt8) (iIndex : ℤ) :
    c.addKey_FL heap key vpData junk iIndex = underLock (c.toHashTable.addKey_FL heap key vpData junk iIndex) := by
  unfold addKey_FL HashTable.addKey_FL
  rw [lock_of_free hfree]
  dsimp only
  cases c.hash_table_[c.index key iIndex]? with
  | none => rfl
  | some chain =>
    dsimp only
    cases findKey key chain with
    | some e => rfl
    | none =>
      cases c.allocator_FL_ with
      | none => rfl
      | some a =>
        dsimp only
        obtain ⟨_ | _ | _, a'⟩ := a.alloc heap
        · rfl
        · rfl
        · rfl

theorem searchKey_FL_underLock (key : Key T) (iIndex : ℤ) :
    c.searchKey_FL key iIndex = underLock ((c.toHashTable.searchKey_FL key iIndex).map (fun a => (a, c.toHashTable))) := by
  unfold searchKey_FL HashTable.searchKey_FL
  rw [lock_of_free hfree]
  dsimp only
  cases c.hash_table_[c.index key iIndex]? with
  | none => rfl
  | some chain =>
    dsimp only
    cases findKey key chain with
    | some e => rfl
    | none => rfl

theorem updateKey_FL_underLock (key : Key T) (vpData : Option (ℕ → UInt8)) (iIndex : ℤ) :
    c.updateKey_FL key vpData iIndex = underLock (c.toHashTable.updateKey_FL key vpData iIndex) := by
  unfold updateKey_FL HashTable.updateKey_FL
  rw [lock_of_free hfree]
  dsimp only
  cases c.hash_table_[c.index key iIndex]? with
  | none => rfl
  | some chain =>
    dsimp only
    cases findKey key chain with
    | none => rfl
    | some e =>
      cases vpData with
      | none => rfl
      | some p =>
        dsimp only
        by_cases hlen : 0 < c.data_len_
        · rw [if_pos hlen, if_pos hlen]
          rfl
        · rw [if_neg hlen, if_neg hlen]
          rfl

theorem deleteKey_FL_underLock (key : Key T) (iIndex : ℤ) :
    c.deleteKey_FL key iIndex = underLock (c.toHashTable.deleteKey_FL key iIndex) := by
  unfold deleteKey_FL HashTable.deleteKey_FL
  rw [lock_of_free hfree]
  dsimp only
  cases c.hash_table_[c.index key iIndex]? with
  | none => rfl
  | some chain =>
    dsimp only
    cases findKey key chain with
    | none => rfl
    | some e =>
      cases c.allocator_FL_ with
      | none => rfl
      | some a => rfl

/-- The first `return` of `addKey_VL` keeps the mutex; the others do not. -/
theorem addKey_VL_underLock (heap : Heap) (key : Key T) (vpData : ℕ → UInt8) {data_len : ℤ} (hlen : ¬ data_len < 0) :
    c.addKey_VL heap key vpData data_len = underLock (c.toHashTable.addKey_VL heap key vpData data_len) := by
  unfold addKey_VL HashTable.addKey_VL
  rw [lock_of_free hfree, if_neg hlen]
  dsimp only
  rw [if_neg hlen]
  cases c.hash_table_[c.index key (-1)]? with
  | none => rfl
  | some chain =>
    dsimp only
    cases findKey key chain with
    | some e => rfl
    | none =>
      cases c.allocator_VL_ with
      | none => rfl
      | some a =>
        dsimp only
        obtain ⟨_ | _, a'⟩ := a.alloc heap (8 + T.size + 4 + data_len)
        · rfl
        · rfl

theorem searchKey_VL_underLock (key : Key T) :
    c.searchKey_VL key = underLock ((c.toHashTable.searchKey_VL key).map (fun a => (a, c.toHashTable))) := by
  unfold searchKey_VL HashTable.searchKey_VL
  rw [lock_of_free hfree]
  dsimp only
  cases c.hash_table_[c.index key (-1)]? with
  | none => rfl
  | some chain =>
    dsimp only
    cases findKey key chain with
    | some e => rfl
    | none => rfl

theorem clear_underLock : c.clear = underLock c.toHashTable.clear := by
  unfold clear HashTable.clear
  rw [lock_of_free hfree]
  dsimp only
  cases c.hash_table_ with
  | nil => rfl
  | cons b bs => rfl

variable {x : HashTable.Call T}

/-- **A call is the call of the table** under the lock, unless it keeps the mutex. -/
theorem call_underLock (hx : ¬ Negative x) : c.call x = unlocked (c.toHashTable.call x) := by
  cases x with
  | addKey_FL heap key vpData junk iIndex =>
    show (c.addKey_FL heap key vpData junk iIndex).state = _
    rw [addKey_FL_underLock hfree, underLock_state]
    rfl
  | searchKey_FL key iIndex =>
    show (c.searchKey_FL key iIndex).state = _
    rw [searchKey_FL_underLock hfree, underLock_state, Option.map_map]
    rfl
  | updateKey_FL key vpData iIndex =>
    show (c.updateKey_FL key vpData iIndex).state = _
    rw [updateKey_FL_underLock hfree, underLock_state]
    rfl
  | deleteKey_FL key iIndex =>
    show (c.deleteKey_FL key iIndex).state = _
    rw [deleteKey_FL_underLock hfree, underLock_state]
    rfl
  | addKey_VL heap key vpData data_len =>
    show (c.addKey_VL heap key vpData data_len).state = _
    rw [addKey_VL_underLock hfree heap key vpData hx, underLock_state]
    rfl
  | searchKey_VL key =>
    show (c.searchKey_VL key).state = _
    rw [searchKey_VL_underLock hfree, underLock_state, Option.map_map]
    rfl
  | clear =>
    show c.clear.state = _
    rw [clear_underLock hfree, underLock_state]
    rfl

/-- **A call of any other kind** gives the mutex back, if it returns. -/
theorem call_free (hx : ¬ Negative x) :
    c.call x = .fault ∨ ∃ c', c.call x = .returned c' ∧ c'.mutex_ = false := by
  rw [call_underLock hfree hx]
  cases c.toHashTable.call x with
  | none => exact Or.inl rfl
  | some t => exact Or.inr ⟨_, rfl, rfl⟩

/-- The call that keeps the mutex, and leaves the table as it is. -/
theorem call_negative (hx : Negative x) :
    c.call x = .returned { c with mutex_ := true } ∧ c.toHashTable.call x = some c.toHashTable := by
  cases x with
  | addKey_VL heap key vpData data_len =>
    have hneg : data_len < 0 := hx
    constructor
    · unfold call addKey_VL
      rw [lock_of_free hfree]
      dsimp only
      rw [if_pos hneg]
      rfl
    · unfold HashTable.call HashTable.addKey_VL
      dsimp only
      rw [if_pos hneg]
      rfl
  | _ => exact absurd hx id

end Free

theorem call_blocked (hheld : c.mutex_ = true) (x : HashTable.Call T) : c.call x = .blocked := by
  have hlock : c.lock = none := by
    unfold lock
    rw [hheld]
    rfl
  cases x <;>
    simp only [call, addKey_FL, searchKey_FL, updateKey_FL, deleteKey_FL, addKey_VL, searchKey_VL, clear, hlock,
      Answer.state]

variable {c' : QDiskCache T} {calls : List (HashTable.Call T)}

/-- Under the lock a call does to the table what `QHashSearch` does. -/
theorem call_table {x : HashTable.Call T} (h : c.call x = .returned c') :
    c.toHashTable.call x = some c'.toHashTable := by
  cases hm : c.mutex_ with
  | true =>
    rw [call_blocked hm] at h
    cases h
  | false =>
    by_cases hneg : Negative x
    · obtain ⟨hcall, htable⟩ := call_negative hm hneg
      rw [hcall] at h
      cases h
      exact htable
    rw [call_underLock hm hneg] at h
    cases ht : c.toHashTable.call x with
    | none =>
      rw [ht] at h
      cases h
    | some t =>
      rw [ht] at h
      cases h
      rfl

/-! ## §4. Whole sequences. -/

/-- The table of a cache stays valid through any calls. -/
theorem run_valid (h : c.toHashTable.Valid) (hrun : c.run calls = .returned c') : c'.toHashTable.Valid := by
  induction calls generalizing c with
  | nil =>
    cases hrun
    exact h
  | cons x xs ih =>
    unfold run at hrun
    cases hx : c.call x with
    | blocked =>
      rw [hx] at hrun
      contradiction
    | fault =>
      rw [hx] at hrun
      contradiction
    | returned c₁ =>
      rw [hx] at hrun
      exact ih (h.call (call_table hx)) hrun

/-- What is asked: no call of the sequence waits for ever, and after each one
    that returns the mutex is free, for the save thread too. -/
def LockFree (c : QDiskCache T) (calls : List (HashTable.Call T)) : Prop :=
  ∀ before after, calls = before ++ after →
    c.run before ≠ .blocked ∧ ∀ c', c.run before = .returned c' → c'.mutex_ = false

theorem run_append (c : QDiskCache T) (xs : List (HashTable.Call T)) (x : HashTable.Call T) :
    ∀ c', c.run xs = .returned c' → c.run (xs ++ [x]) = c'.call x := by
  induction xs generalizing c with
  | nil =>
    intro c' h
    have hc : c = c' := Answer.returned.inj h
    rw [← hc]
    show (match c.call x with
      | .returned c => run c []
      | .blocked => .blocked
      | .fault => .fault) = c.call x
    cases c.call x <;> rfl
  | cons y ys ih =>
    intro c' h
    rw [List.cons_append]
    unfold run at h ⊢
    cases hy : c.call y with
    | blocked =>
      rw [hy] at h
      contradiction
    | fault =>
      rw [hy] at h
      contradiction
    | returned c₁ =>
      rw [hy] at h
      exact ih c₁ c' h

/-- A sequence in which no negative length is reached. -/
theorem run_free (hfree : c.mutex_ = false)
    (h : ∀ before x after, calls = before ++ x :: after → Negative x → c.run before = .fault) :
    c.run calls = .fault ∨ ∃ c', c.run calls = .returned c' ∧ c'.mutex_ = false := by
  induction calls generalizing c with
  | nil => exact Or.inr ⟨c, rfl, hfree⟩
  | cons x xs ih =>
    have hx : ¬ Negative x := by
      intro hneg
      have hbad := h [] x xs rfl hneg
      exact absurd hbad (by simp [run])
    obtain hfault | ⟨c₁, hcall, hfree₁⟩ := call_free hfree hx
    · refine Or.inl ?_
      unfold run
      rw [hfault]
    have hrest : ∀ ys, c.run (x :: ys) = c₁.run ys := by
      intro ys
      show (match c.call x with
        | .returned c => run c ys
        | .blocked => .blocked
        | .fault => .fault) = _
      rw [hcall]
    rw [hrest]
    apply ih hfree₁
    intro before y after hsplit hneg
    rw [← hrest before]
    exact h (x :: before) y after (by rw [hsplit]; rfl) hneg

/-- **THE LOCK DISCIPLINE HOLDS EXACTLY** for the sequences that make no
    `addKey_VL` of a negative length while the process still runs. -/
theorem lock_discipline {c : QDiskCache T} (hfree : c.mutex_ = false)
    (calls : List (HashTable.Call T)) :
    c.LockFree calls ↔
      ∀ before x after, calls = before ++ x :: after → Negative x → c.run before = .fault := by
  constructor
  · intro h before x after hsplit hneg
    obtain ⟨hblocked, hkept⟩ := h before (x :: after) hsplit
    cases hrun : c.run before with
    | blocked => exact absurd hrun hblocked
    | fault => rfl
    | returned c' =>
      obtain ⟨hheld, -⟩ := call_negative (hkept c' hrun) hneg
      have hnext := run_append c before x c' hrun
      rw [hheld] at hnext
      have hbad := (h (before ++ [x]) after (by rw [hsplit, List.append_assoc]; rfl)).2 _ hnext
      contradiction
  · intro h before after hsplit
    have hbefore : ∀ pre x post, before = pre ++ x :: post → Negative x → c.run pre = .fault := by
      intro pre x post hpre hneg
      apply h pre x (post ++ after) _ hneg
      rw [hsplit, hpre, List.append_assoc]
      rfl
    obtain hfault | ⟨c', hrun, hfree'⟩ := run_free hfree hbefore
    · refine ⟨by rw [hfault]; simp, ?_⟩
      intro c' hrun
      rw [hfault] at hrun
      contradiction
    · refine ⟨by rw [hrun]; simp, ?_⟩
      intro c'' hrun'
      rw [hrun] at hrun'
      cases hrun'
      exact hfree'

/-- A cache of variable length that was just set up. -/
def newCache : QDiskCache uint64 := { ((HashTable.new uint64).init 1 (-1)).2 with mutex_ := false }

/-- A sequence within the condition: an empty value is added and searched. -/
theorem lock_discipline_emptyValue :
    newCache.LockFree [.addKey_VL .ample 1 (fun _ => 0) 0, .searchKey_VL 1] := by
  refine (lock_discipline rfl _).mpr ?_
  intro before x after hsplit hneg
  have hx : x ∈ ([.addKey_VL .ample 1 (fun _ => 0) 0, .searchKey_VL 1] : List (HashTable.Call uint64)) := by
    rw [hsplit]
    exact List.mem_append_right before List.mem_cons_self
  obtain rfl | hx := List.mem_cons.mp hx
  · have hbad : (0 : ℤ) < 0 := hneg
    omega
  · obtain rfl := List.mem_singleton.mp hx
    exact absurd hneg id

/-- **The missed `unlock`**: after `addKey_VL(1, p, -1, ..)` has returned −1 the
    mutex is held, and the next call of the same thread waits for ever. -/
theorem negative_length_locks :
    newCache.run [.addKey_VL .ample 1 (fun _ => 0) (-1), .searchKey_VL 1] = .blocked ∧
      ¬ newCache.LockFree [.addKey_VL .ample 1 (fun _ => 0) (-1), .searchKey_VL 1] := by
  refine ⟨rfl, ?_⟩
  intro h
  exact (h _ [] (List.append_nil _).symm).1 rfl

end QDiskCache

end KalavaPir.Common
