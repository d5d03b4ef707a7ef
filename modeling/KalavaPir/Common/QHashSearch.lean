/-
  KalavaPir.Common.QHashSearch — the hash table of `common/qhashsearch.h`.

  A bucket is a chain of entries, newest first; an entry is a key and the bytes
  behind it: the value in a table of fixed length (`data_len_ ≥ 0`), a length
  and the value in one of variable length (`data_len_ < 0`).  Here a chain
  is the LIST of its entries; `QHashChunks` has the chunks and pointers.

  An operation answers `none` when it leaves memory: a bucket outside the
  table, an allocator that is NULL, a chunk outside its block.  `QDiskCache`
  works on the same table under a lock.
-/
import Mathlib.Algebra.BigOperators.Group.List.Basic
import KalavaPir.Framework.ByteFile
import KalavaPir.Common.QAllocator

namespace KalavaPir.Common

open KalavaPir.Framework List Option

/-! ## §1. Keys, entries, buckets. -/

/-- The integer type `Key` is instantiated with, of `sizeof(Key)` bytes. -/
structure KeyType where
  size : ℕ
  signed : Bool
  size_pos : 0 < size
  size_le : size ≤ 16

/-- Keys of type `uint64_t`. -/
def uint64 : KeyType := ⟨8, false, by decide, by decide⟩

variable {T : KeyType}

/-- The bits of a key. -/
abbrev Key (T : KeyType) : Type := BitVec (8 * T.size)

/-- The number a key stands for. -/
def keyValue (key : Key T) : ℤ := if T.signed then key.toInt else key.toNat

/-- `(int32_t)(key%bucket_size_)`, turned to the positive side. -/
def bucketIndex (bucket_size_ : ℤ) (key : Key T) : ℤ :=
  let iIndex := (keyValue key).tmod bucket_size_
  if iIndex < 0 then iIndex * -1 else iIndex

/-- **The computed bucket is one of the table's**, for negative keys too. -/
theorem bucketIndex_range {bucket_size_ : ℤ} (h : 0 < bucket_size_) (key : Key T) :
    0 ≤ bucketIndex bucket_size_ key ∧ bucketIndex bucket_size_ key < bucket_size_ := by
  have hlt := Int.tmod_lt_of_pos (keyValue key) h
  have hgt : -bucket_size_ < (keyValue key).tmod bucket_size_ := by
    have hneg := Int.tmod_lt_of_pos (-keyValue key) h
    rw [Int.neg_tmod] at hneg
    omega
  unfold bucketIndex
  dsimp only
  split_ifs <;> omega

/-- An entry: its key and the bytes that follow it. -/
structure HashEntry (T : KeyType) where
  key : Key T
  body : List UInt8
  deriving DecidableEq

/-- `memcpy` of the first `n` bytes behind a pointer. -/
def memcpy (p : ℕ → UInt8) (n : ℤ) : List UInt8 := (List.range n.toNat).map p

@[simp] theorem length_memcpy (p : ℕ → UInt8) (n : ℤ) : (memcpy p n).length = n.toNat := by
  rw [memcpy, length_map, length_range]

/-- The walk along a chain that every operation begins with. -/
def findKey (key : Key T) (chain : List (HashEntry T)) : Option (HashEntry T) :=
  chain.find? (fun e => e.key = key)

/-- `memcpy` into the entry of a key. -/
def updateChain (key : Key T) (data : List UInt8) : List (HashEntry T) → List (HashEntry T)
  | [] => []
  | e :: p => if e.key = key then { e with body := data } :: p else e :: updateChain key data p

/-- The entry of a key unlinked. -/
def deleteChain (key : Key T) (chain : List (HashEntry T)) : List (HashEntry T) :=
  chain.eraseP (fun e => e.key = key)

/-! ## §2. The table. -/

/-- `QAllocatorRecycle`, the chunks that came back counted. -/
structure QAllocatorRecycle where
  blocks : ChunkBlocks
  mRecycleNum : ℤ

/-- `alloc()`: `none` for NULL, else whether the chunk lies in its block. -/
def QAllocatorRecycle.alloc (heap : Heap) (a : QAllocatorRecycle) :
    Option Bool × QAllocatorRecycle :=
  if a.mRecycleNum ≠ 0 then (some true, { a with mRecycleNum := a.mRecycleNum - 1 })
  else
    match a.blocks.carve heap with
    | (p, b) => (p.map b.holds, { a with blocks := b })

/-- `free(buffer)`. -/
def QAllocatorRecycle.free (a : QAllocatorRecycle) : QAllocatorRecycle :=
  { a with mRecycleNum := a.mRecycleNum + 1 }

/-- `resetAllocator()`. -/
def QAllocatorRecycle.resetAllocator (a : QAllocatorRecycle) : QAllocatorRecycle :=
  ⟨a.blocks.resetAllocator, 0⟩

/-- The fields of `QHashSearch` and of `QDiskCache`. -/
structure HashTable (T : KeyType) where
  data_len_ : ℤ
  data_num_ : ℤ
  bucket_size_ : ℤ
  hash_table_ : List (List (HashEntry T))
  allocator_FL_ : Option QAllocatorRecycle
  allocator_VL_ : Option QAllocator
  initialized_ : ℤ

namespace HashTable

/-- The constructor `QHashSearch()`. -/
def new (T : KeyType) : HashTable T := ⟨-1, 0, 0, [], none, none, 0⟩

/-- `init(bucket_size, data_len)`, with memory for the buckets and the
    allocator.  The allocator's own `init` only refuses a size that is not
    positive, which `sizeof(void*)+sizeof(Key)+data_len_` never is. -/
def init (t : HashTable T) (bucket_size data_len : ℤ) : ℤ × HashTable T :=
  let t := { t with
    data_len_ := data_len
    data_num_ := 0
    bucket_size_ := bucket_size
    hash_table_ := List.replicate bucket_size.toNat [] }
  if data_len < 0 then (0, { t with allocator_VL_ := some .new, initialized_ := 1 })
  else
    match ChunkBlocks.init (8 + T.size + data_len) with
    | none => (-4, t)
    | some b => (0, { t with allocator_FL_ := some ⟨b, 0⟩, initialized_ := 1 })

/-- `if(iIndex<0)`: the caller's bucket, or the computed one. -/
def index (t : HashTable T) (key : Key T) (iIndex : ℤ) : ℕ :=
  (if iIndex < 0 then bucketIndex t.bucket_size_ key else iIndex).toNat

/-- `*vppRetBuf` in a table of fixed length. -/
def value_FL (t : HashTable T) (e : HashEntry T) : Option (List UInt8) :=
  if t.data_len_ = 0 then none else some e.body

/-- `addKey_FL(key, vpData, vppRetBuf, iIndex)`; `junk` is what the chunk held,
    and still holds when `vpData` is NULL. -/
def addKey_FL (heap : Heap) (t : HashTable T) (key : Key T) (vpData : Option (ℕ → UInt8))
    (junk : ℕ → UInt8) (iIndex : ℤ) : Option ((ℤ × Option (List UInt8)) × HashTable T) :=
  match t.hash_table_[t.index key iIndex]? with
  | none => none
  | some chain =>
    match findKey key chain with
    | some e => some ((1, t.value_FL e), t)
    | none =>
      match t.allocator_FL_ with
      | none => none
      | some a =>
        match a.alloc heap with
        | (none, a) => some ((-1, none), { t with allocator_FL_ := some a })
        | (some false, _) => none
        | (some true, a) =>
          let e : HashEntry T := ⟨key, memcpy (vpData.getD junk) t.data_len_⟩
          some ((0, t.value_FL e), { t with
            allocator_FL_ := some a
            hash_table_ := t.hash_table_.set (t.index key iIndex) (e :: chain)
            data_num_ := t.data_num_ + 1 })

/-- `searchKey_FL(key, vppRetBuf, iIndex)`. -/
def searchKey_FL (t : HashTable T) (key : Key T) (iIndex : ℤ) :
    Option (ℤ × Option (List UInt8)) :=
  match t.hash_table_[t.index key iIndex]? with
  | none => none
  | some chain =>
    match findKey key chain with
    | some e => some (0, t.value_FL e)
    | none => some (-1, none)

/-- `updateKey_FL(key, vpData, vppRetBuf, iIndex)`. -/
def updateKey_FL (t : HashTable T) (key : Key T) (vpData : Option (ℕ → UInt8)) (iIndex : ℤ) :
    Option ((ℤ × Option (List UInt8)) × HashTable T) :=
  match t.hash_table_[t.index key iIndex]? with
  | none => none
  | some chain =>
    match findKey key chain with
    | some e =>
      match vpData with
      | some p =>
        if 0 < t.data_len_ then
          some ((0, t.value_FL ⟨key, memcpy p t.data_len_⟩), { t with
            hash_table_ := t.hash_table_.set (t.index key iIndex)
              (updateChain key (memcpy p t.data_len_) chain) })
        else some ((0, t.value_FL e), t)
      | none => some ((0, t.value_FL e), t)
    | none => some ((-1, none), t)

/-- `deleteKey_FL(key, iIndex)`. -/
def deleteKey_FL (t : HashTable T) (key : Key T) (iIndex : ℤ) : Option (ℤ × HashTable T) :=
  match t.hash_table_[t.index key iIndex]? with
  | none => none
  | some chain =>
    match findKey key chain with
    | some _ =>
      match t.allocator_FL_ with
      | none => none
      | some a => some (0, { t with
          allocator_FL_ := some a.free
          hash_table_ := t.hash_table_.set (t.index key iIndex) (deleteChain key chain)
          data_num_ := t.data_num_ - 1 })
    | none => some (-1, t)

/-- `*(int32_t*)(p+sizeof(void*)+sizeof(Key))`. -/
def length_VL (e : HashEntry T) : ℤ := decodeInt (e.body.take 4)

/-- `*lpRetDataLen` and `*vppRetBuf` in a table of variable length. -/
def value_VL (e : HashEntry T) : ℤ × Option (List UInt8) :=
  (length_VL e, if length_VL e = 0 then none else some ((e.body.drop 4).take (length_VL e).toNat))

/-- `addKey_VL(key, vpData, data_len, vppRetBuf, lpRetDataLen)`. -/
def addKey_VL (heap : Heap) (t : HashTable T) (key : Key T) (vpData : ℕ → UInt8) (data_len : ℤ) :
    Option ((ℤ × ℤ × Option (List UInt8)) × HashTable T) :=
  if data_len < 0 then some ((-1, 0, none), t)
  else
    match t.hash_table_[t.index key (-1)]? with
    | none => none
    | some chain =>
      match findKey key chain with
      | some e => some ((1, value_VL e), t)
      | none =>
        match t.allocator_VL_ with
        | none => none
        | some a =>
          match a.alloc heap (8 + T.size + 4 + data_len) with
          | (none, a) => some ((-1, 0, none), { t with allocator_VL_ := some a })
          | (some _, a) =>
            let e : HashEntry T := ⟨key, encodeInt 4 data_len ++ memcpy vpData data_len⟩
            some ((0, value_VL e), { t with
              allocator_VL_ := some a
              hash_table_ := t.hash_table_.set (t.index key (-1)) (e :: chain)
              data_num_ := t.data_num_ + 1 })

/-- `searchKey_VL(key, vppRetBuf, lpRetDataLen)`. -/
def searchKey_VL (t : HashTable T) (key : Key T) : Option (ℤ × ℤ × Option (List UInt8)) :=
  match t.hash_table_[t.index key (-1)]? with
  | none => none
  | some chain =>
    match findKey key chain with
    | some e => some (0, value_VL e)
    | none => some (-1, 0, none)

/-- `clear()`; it reads `hash_table_[0]` at its end. -/
def clear (t : HashTable T) : Option (ℤ × HashTable T) :=
  match t.hash_table_ with
  | [] => none
  | _ :: _ => some (0, { t with
      data_num_ := 0
      allocator_VL_ := t.allocator_VL_.map QAllocator.resetAllocator
      allocator_FL_ := t.allocator_FL_.map QAllocatorRecycle.resetAllocator
      hash_table_ := t.hash_table_.map (fun _ => []) })

/-- `getKeyNum()`. -/
def getKeyNum (t : HashTable T) : ℤ := t.data_num_

/-- The entries in the order of a walk over all buckets. -/
def entries (t : HashTable T) : List (HashEntry T) := t.hash_table_.flatten

/-! ## §3. The invariant. -/

end HashTable

theorem flatten_set {α : Type} {l : List (List α)} {i : ℕ} {c : List α} (h : l[i]? = some c)
    (c' : List α) : (l.set i c').flatten.Perm (c' ++ (l.eraseIdx i).flatten) := by
  induction l generalizing i with
  | nil => contradiction
  | cons b l ih =>
    cases i with
    | zero => exact List.Perm.refl _
    | succ i =>
      have hmid := (ih (i := i) h).append_left b
      show (b ++ (l.set i c').flatten).Perm (c' ++ (b ++ (l.eraseIdx i).flatten))
      exact hmid.trans (perm_append_comm_assoc b c' _)

theorem flatten_split {α : Type} {l : List (List α)} {i : ℕ} {c : List α} (h : l[i]? = some c) :
    l.flatten.Perm (c ++ (l.eraseIdx i).flatten) := by
  have hset : l.set i c = l := by
    obtain ⟨hi, hc⟩ := List.getElem?_eq_some_iff.mp h
    rw [← hc]
    exact set_getElem_self hi
  have hperm := flatten_set h c
  rw [hset] at hperm
  exact hperm

variable {key : Key T} {chain : List (HashEntry T)} {e : HashEntry T}

theorem findKey_mem (h : findKey key chain = some e) : e ∈ chain ∧ e.key = key :=
  ⟨mem_of_find?_eq_some h, by simpa using find?_some h⟩

theorem findKey_none (h : findKey key chain = none) : ∀ e ∈ chain, e.key ≠ key := by
  intro e he hkey
  exact (find?_eq_none.mp h e he) (decide_eq_true hkey)

/-- Deleting takes out exactly the entry the walk finds. -/
theorem deleteChain_perm (h : findKey key chain = some e) : chain.Perm (e :: deleteChain key chain) := by
  induction chain with
  | nil => contradiction
  | cons x chain ih =>
    unfold findKey at h
    unfold deleteChain
    by_cases hx : x.key = key
    · rw [find?_cons_of_pos (by simpa using hx)] at h
      rw [eraseP_cons_of_pos (by simpa using hx)]
      cases h
      exact List.Perm.refl _
    · rw [find?_cons_of_neg (by simpa using hx)] at h
      rw [eraseP_cons_of_neg (by simpa using hx)]
      exact ((ih h).cons x).trans (List.Perm.swap e x _)

theorem updateChain_perm (data : List UInt8) (h : findKey key chain = some e) :
    (updateChain key data chain).Perm (⟨key, data⟩ :: deleteChain key chain) := by
  induction chain with
  | nil => contradiction
  | cons x chain ih =>
    unfold findKey at h
    unfold deleteChain updateChain
    by_cases hx : x.key = key
    · rw [if_pos hx, eraseP_cons_of_pos (by simpa using hx), hx]
    · rw [find?_cons_of_neg (by simpa using hx)] at h
      rw [if_neg hx, eraseP_cons_of_neg (by simpa using hx)]
      exact ((ih h).cons x).trans (List.Perm.swap _ x _)

namespace QAllocatorRecycle

/-- The chunks carved, of `size` bytes each, are the `n` live ones and those
    that came back. -/
structure Sound (a : QAllocatorRecycle) (size n : ℤ) : Prop where
  blocks : a.blocks.Sound
  chunk : a.blocks.mChunkSize = size
  recycled : 0 ≤ a.mRecycleNum
  account : n + a.mRecycleNum = a.blocks.handed

variable {a : QAllocatorRecycle} {size n : ℤ}

theorem Sound.le_capacity (h : a.Sound size n) : n ≤ ChunkBlocks.capacity := by
  have hle := h.blocks.handed_bounds.2
  have haccount := h.account
  have hrec := h.recycled
  omega

/-- `alloc` makes one more chunk live, or none. -/
theorem Sound.alloc (h : a.Sound size n) (heap : Heap) :
    (∃ b, (a.alloc heap).1 = some b ∧ (a.alloc heap).2.Sound size (n + 1)) ∨
      ((a.alloc heap).1 = none ∧ (a.alloc heap).2.Sound size n) := by
  have hrec := h.recycled
  have haccount := h.account
  unfold QAllocatorRecycle.alloc
  split_ifs with hzero
  · refine Or.inl ⟨true, rfl, ⟨h.blocks, h.chunk, ?_, ?_⟩⟩
    · show 0 ≤ a.mRecycleNum - 1
      omega
    · show n + 1 + (a.mRecycleNum - 1) = a.blocks.handed
      omega
  obtain ⟨hs, hz, ⟨hp, hc⟩ | ⟨hp, hc, _⟩⟩ := h.blocks.carve heap
  · refine Or.inl ⟨(a.blocks.carve heap).2.holds (a.blocks.chunkAt a.blocks.handed), ?_,
      ⟨hs, hz.trans h.chunk, h.recycled, ?_⟩⟩
    · show Option.map _ (a.blocks.carve heap).1 = _
      rw [hp, map_some]
    · show n + 1 + a.mRecycleNum = (a.blocks.carve heap).2.handed
      omega
  · refine Or.inr ⟨?_, ⟨hs, hz.trans h.chunk, h.recycled, ?_⟩⟩
    · show Option.map _ (a.blocks.carve heap).1 = none
      rw [hp, map_none]
    · show n + a.mRecycleNum = (a.blocks.carve heap).2.handed
      omega

theorem Sound.free (h : a.Sound size n) : a.free.Sound size (n - 1) where
  blocks := h.blocks
  chunk := h.chunk
  recycled := by
    have hrec := h.recycled
    show 0 ≤ a.mRecycleNum + 1
    omega
  account := by
    have haccount := h.account
    show n - 1 + (a.mRecycleNum + 1) = a.blocks.handed
    omega

theorem Sound.reset (h : a.Sound size n) : a.resetAllocator.Sound size 0 where
  blocks := h.blocks.reset.1
  chunk := h.chunk
  recycled := Int.le_refl 0
  account := h.blocks.reset.2.symm

end QAllocatorRecycle

namespace HashTable

/-- The bytes an entry of variable length takes from its allocator. -/
def recordLen (e : HashEntry T) : ℤ := 8 + T.size + e.body.length

/-- An entry of variable length: its body is a length and that many bytes, and
    all of it fits in one block. -/
def Varying (e : HashEntry T) : Prop :=
  ∃ data : List UInt8, e.body = encodeInt 4 data.length ++ data ∧ recordLen e ≤ 1048576

/-- What every operation keeps: the count, and for each format its allocator's
    account and the shape of the entries. -/
structure Valid (t : HashTable T) : Prop where
  buckets : (t.hash_table_.length : ℤ) = t.bucket_size_
  bucket_pos : 0 < t.bucket_size_
  num : t.data_num_ = t.entries.length
  fixed : 0 ≤ t.data_len_ → t.allocator_VL_ = none ∧
    ∃ a, t.allocator_FL_ = some a ∧ a.Sound (16 + T.size + t.data_len_) t.entries.length ∧
      ∀ e ∈ t.entries, (e.body.length : ℤ) = t.data_len_
  varying : t.data_len_ < 0 → t.allocator_FL_ = none ∧
    ∃ a, t.allocator_VL_ = some a ∧ a.Sound ∧ (t.entries.map recordLen).sum ≤ a.mTotalLen ∧
      ∀ e ∈ t.entries, Varying e

variable {e : HashEntry T} {t t' : HashTable T} {data_len iIndex : ℤ} {i : ℕ} {chain : List (HashEntry T)}
  {key : Key T} {heap : Heap} {vpData : Option (ℕ → UInt8)} {r : ℤ × Option (List UInt8)}

theorem Varying.le_recordLen (h : Varying e) : 13 ≤ recordLen e := by
  obtain ⟨data, hbody, _⟩ := h
  have hsize := T.size_pos
  unfold recordLen
  rw [hbody, length_append, length_encodeInt]
  omega

theorem thirteen_mul_length_le {es : List (HashEntry T)} (h : ∀ e ∈ es, Varying e) :
    13 * (es.length : ℤ) ≤ (es.map recordLen).sum := by
  induction es with
  | nil => exact Int.le_refl 0
  | cons e es ih =>
    have hhead := (h e mem_cons_self).le_recordLen
    have htail := ih (fun x hx => h x (mem_cons_of_mem e hx))
    rw [map_cons, sum_cons, length_cons]
    omega

/-- **`data_num_` fits its 32 bits.** -/
theorem Valid.card_lt (h : t.Valid) : (t.entries.length : ℤ) ≤ 1000000000 := by
  by_cases hlen : 0 ≤ t.data_len_
  · obtain ⟨_, a, _, hsound, _⟩ := h.fixed hlen
    exact hsound.le_capacity
  obtain ⟨_, a, _, hsound, hsum, hshape⟩ := h.varying (by omega)
  have htotal := hsound.total_le
  have hcount := thirteen_mul_length_le hshape
  omega

/-! ## §4. Every operation keeps it. -/

/-- A table that was just set up is valid. -/
theorem valid_init (t : HashTable T) {bucket_size : ℤ} (hb : 0 < bucket_size)
    (hfresh : t.allocator_FL_ = none ∧ t.allocator_VL_ = none) :
    (t.init bucket_size data_len).1 = 0 ∧ (t.init bucket_size data_len).2.Valid
      ∧ (t.init bucket_size data_len).2.entries = []
      ∧ (t.init bucket_size data_len).2.data_len_ = data_len
      ∧ (t.init bucket_size data_len).2.bucket_size_ = bucket_size
      ∧ (t.init bucket_size data_len).2.initialized_ = 1 := by
  have hlen : ((List.replicate bucket_size.toNat ([] : List (HashEntry T))).length : ℤ) = bucket_size := by
    rw [length_replicate]
    omega
  have hnone : (List.replicate bucket_size.toNat ([] : List (HashEntry T))).flatten = [] :=
    flatten_replicate_nil
  by_cases hd : data_len < 0
  · have hinit : t.init bucket_size data_len = (0, { t with
        data_len_ := data_len, data_num_ := 0, bucket_size_ := bucket_size
        hash_table_ := List.replicate bucket_size.toNat []
        allocator_VL_ := some .new, initialized_ := 1 }) := if_pos hd
    rw [hinit]
    refine ⟨rfl, ⟨hlen, hb, ?_, ?_, ?_⟩, hnone, rfl, rfl, rfl⟩
    · show (0 : ℤ) = ((List.replicate _ _).flatten.length : ℕ)
      rw [hnone]
      rfl
    · intro hbad
      exact absurd hd (Int.not_lt.mpr hbad)
    · intro _
      refine ⟨hfresh.1, .new, rfl, QAllocator.sound_new, ?_, ?_⟩
      · show ((List.replicate _ _).flatten.map _).sum ≤ (0 : ℤ)
        rw [hnone]
        exact Int.le_refl 0
      · show ∀ e ∈ (List.replicate _ _).flatten, Varying e
        rw [hnone]
        exact fun e he => absurd he not_mem_nil
  have hsize : ¬ (8 + T.size + data_len : ℤ) ≤ 0 := by omega
  obtain ⟨b, hinit⟩ : ∃ b, ChunkBlocks.init (8 + T.size + data_len) = some b :=
    ⟨_, if_neg hsize⟩
  obtain ⟨hsound, hhanded, hchunk, _⟩ := ChunkBlocks.sound_init hinit
  have htable : t.init bucket_size data_len = (0, { t with
      data_len_ := data_len, data_num_ := 0, bucket_size_ := bucket_size
      hash_table_ := List.replicate bucket_size.toNat []
      allocator_FL_ := some ⟨b, 0⟩, initialized_ := 1 }) := by
    unfold init
    rw [if_neg hd, hinit]
  rw [htable]
  refine ⟨rfl, ⟨hlen, hb, ?_, ?_, ?_⟩, hnone, rfl, rfl, rfl⟩
  · show (0 : ℤ) = ((List.replicate _ _).flatten.length : ℕ)
    rw [hnone]
    rfl
  · intro _
    refine ⟨hfresh.2, ⟨b, 0⟩, rfl, ⟨hsound, ?_, Int.le_refl 0, ?_⟩, ?_⟩
    · show b.mChunkSize = 16 + T.size + data_len
      omega
    · show ((List.replicate _ _).flatten.length : ℤ) + 0 = b.handed
      rw [hnone, hhanded]
      rfl
    · show ∀ e ∈ (List.replicate _ _).flatten, _
      rw [hnone]
      exact fun e he => absurd he not_mem_nil
  · intro hbad
    exact absurd hbad hd

/-- Carrying the invariant to a table whose entries changed: `es` are the new
    ones in any order. -/
theorem Valid.rebuild (h : t.Valid) (es : List (HashEntry T))
    (hbuckets : t'.hash_table_.length = t.hash_table_.length) (hsize : t'.bucket_size_ = t.bucket_size_)
    (hlen : t'.data_len_ = t.data_len_) (hperm : t'.entries.Perm es) (hnum : t'.data_num_ = es.length)
    (hfixed : 0 ≤ t.data_len_ → t'.allocator_VL_ = none ∧ ∃ a, t'.allocator_FL_ = some a ∧ a.Sound (16 + T.size + t.data_len_) es.length ∧ ∀ e ∈ es, (e.body.length : ℤ) = t.data_len_)
    (hvarying : t.data_len_ < 0 → t'.allocator_FL_ = none ∧ ∃ a, t'.allocator_VL_ = some a ∧ a.Sound ∧ (es.map recordLen).sum ≤ a.mTotalLen ∧ ∀ e ∈ es, Varying e) :
    t'.Valid where
  buckets := by rw [hbuckets, hsize, h.buckets]
  bucket_pos := by
    rw [hsize]
    exact h.bucket_pos
  num := by rw [hnum, hperm.length_eq]
  fixed := by
    intro hpos
    rw [hlen] at hpos ⊢
    obtain ⟨hVL, a, hFL, hsound, hshape⟩ := hfixed hpos
    refine ⟨hVL, a, hFL, ?_, fun e he => hshape e (hperm.mem_iff.mp he)⟩
    rw [hperm.length_eq]
    exact hsound
  varying := by
    intro hneg
    rw [hlen] at hneg
    obtain ⟨hFL, a, hVL, hsound, hsum, hshape⟩ := hvarying hneg
    refine ⟨hFL, a, hVL, hsound, ?_, fun e he => hshape e (hperm.mem_iff.mp he)⟩
    rw [(hperm.map recordLen).sum_eq]
    exact hsum

theorem entries_cons (h : t.hash_table_[i]? = some chain) (e : HashEntry T) :
    (t.hash_table_.set i (e :: chain)).flatten.Perm (e :: t.entries) :=
  (flatten_set h (e :: chain)).trans ((flatten_split h).symm.cons e)

theorem entries_delete (h : t.hash_table_[i]? = some chain) (hfind : findKey key chain = some e) :
    t.entries.Perm (e :: (t.hash_table_.set i (deleteChain key chain)).flatten) := by
  have hold := (flatten_split h).trans ((deleteChain_perm hfind).append_right _)
  have hnew := (flatten_set h (deleteChain key chain)).symm.cons e
  exact hold.trans hnew

theorem entries_update (data : List UInt8) (h : t.hash_table_[i]? = some chain)
    (hfind : findKey key chain = some e) : (t.hash_table_.set i (updateChain key data chain)).flatten.Perm
      (⟨key, data⟩ :: (t.hash_table_.set i (deleteChain key chain)).flatten) := by
  have hnew := (flatten_set h _).trans ((updateChain_perm data hfind).append_right _)
  exact hnew.trans ((flatten_set h (deleteChain key chain)).symm.cons _)

variable {junk : ℕ → UInt8}

/-- What `addKey_FL` does when it comes back: it finds the key, has no chunk
    for it, or puts it at the head of its chain. -/
theorem addKey_FL_cases (h : t.addKey_FL heap key vpData junk iIndex = some (r, t')) :
    ∃ chain, t.hash_table_[t.index key iIndex]? = some chain ∧
      ((r.1 = 1 ∧ t' = t ∧ ∃ e, findKey key chain = some e) ∨
        (findKey key chain = none ∧ ∃ a, t.allocator_FL_ = some a ∧
          ((r.1 = -1 ∧ (a.alloc heap).1 = none
              ∧ t' = { t with allocator_FL_ := some (a.alloc heap).2 }) ∨
            (r.1 = 0 ∧ (a.alloc heap).1 = some true ∧ t' = { t with
              allocator_FL_ := some (a.alloc heap).2
              hash_table_ := t.hash_table_.set (t.index key iIndex)
                (⟨key, memcpy (vpData.getD junk) t.data_len_⟩ :: chain)
              data_num_ := t.data_num_ + 1 })))) := by
  unfold addKey_FL at h
  cases hchain : t.hash_table_[t.index key iIndex]? with
  | none =>
    rw [hchain] at h
    contradiction
  | some chain =>
    refine ⟨chain, rfl, ?_⟩
    rw [hchain] at h
    dsimp only at h
    cases hfind : findKey key chain with
    | some e =>
      rw [hfind] at h
      cases h
      exact Or.inl ⟨rfl, rfl, e, rfl⟩
    | none =>
      rw [hfind] at h
      cases ha : t.allocator_FL_ with
      | none =>
        rw [ha] at h
        contradiction
      | some a =>
        rw [ha] at h
        dsimp only at h
        refine Or.inr ⟨rfl, a, rfl, ?_⟩
        rcases hp : a.alloc heap with ⟨_ | _ | _, a'⟩
        · rw [hp] at h
          cases h
          exact Or.inl ⟨rfl, rfl, rfl⟩
        · rw [hp] at h
          contradiction
        · rw [hp] at h
          cases h
          exact Or.inr ⟨rfl, rfl, rfl⟩

/-- A new entry at the head of a chain, paid for by the allocator. -/
theorem Valid.insert_FL (h : t.Valid) (hchain : t.hash_table_[i]? = some chain) (e : HashEntry T)
    (hbody : 0 ≤ t.data_len_ → (e.body.length : ℤ) = t.data_len_) {a a' : QAllocatorRecycle}
    (ha : t.allocator_FL_ = some a)
    (hsound : a.Sound (16 + T.size + t.data_len_) t.entries.length → a'.Sound (16 + T.size + t.data_len_) (t.entries.length + 1)) :
    Valid { t with
      allocator_FL_ := some a'
      hash_table_ := t.hash_table_.set i (e :: chain)
      data_num_ := t.data_num_ + 1 } := by
  refine h.rebuild (e :: t.entries) (length_set ..) rfl rfl (entries_cons hchain e) ?_ ?_ ?_
  · show t.data_num_ + 1 = ((t.entries.length + 1 : ℕ) : ℤ)
    rw [h.num]
    omega
  · intro hpos
    obtain ⟨hVL, b, hb, hs, hshape⟩ := h.fixed hpos
    rw [ha] at hb
    cases hb
    refine ⟨hVL, a', rfl, ?_, ?_⟩
    · rw [length_cons, Int.natCast_succ]
      exact hsound hs
    · exact forall_mem_cons.mpr ⟨hbody hpos, hshape⟩
  · intro hneg
    rw [(h.varying hneg).1] at ha
    contradiction

/-- `addKey_FL` keeps the invariant. -/
theorem Valid.addKey_FL (h : t.Valid) (hr : t.addKey_FL heap key vpData junk iIndex = some (r, t')) :
    t'.Valid := by
  obtain ⟨chain, hchain, ⟨_, rfl, _⟩ | ⟨_, a, ha, ⟨_, hnull, rfl⟩ | ⟨_, hgot, rfl⟩⟩⟩ := addKey_FL_cases hr
  · exact h
  · refine h.rebuild t.entries rfl rfl rfl (List.Perm.refl _) h.num ?_ ?_
    · intro hpos
      obtain ⟨hVL, b, hb, hs, hshape⟩ := h.fixed hpos
      rw [ha] at hb
      cases hb
      obtain ⟨_, hsome, _⟩ | ⟨_, hs'⟩ := hs.alloc heap
      · rw [hnull] at hsome
        contradiction
      · exact ⟨hVL, _, rfl, hs', hshape⟩
    · intro hneg
      rw [(h.varying hneg).1] at ha
      contradiction
  · refine h.insert_FL hchain _ ?_ ha ?_
    · intro hpos
      show ((memcpy _ t.data_len_).length : ℤ) = t.data_len_
      rw [length_memcpy]
      omega
    · intro hs
      obtain ⟨_, _, hs'⟩ | ⟨hnone, _⟩ := hs.alloc heap
      · exact hs'
      · rw [hnone] at hgot
        contradiction

/-- `updateKey_FL` keeps it. -/
theorem Valid.updateKey_FL (h : t.Valid) (hr : t.updateKey_FL key vpData iIndex = some (r, t')) :
    t'.Valid := by
  unfold HashTable.updateKey_FL at hr
  split at hr
  · contradiction
  rename_i chain hchain
  split at hr
  · rename_i e hfind
    split at hr
    · rename_i p
      split_ifs at hr with hpos
      · cases hr
        have hold := entries_delete hchain hfind
        have hcount : t.entries.length
            = (t.hash_table_.set (t.index key iIndex) (deleteChain key chain)).flatten.length + 1 :=
          hold.length_eq
        refine h.rebuild (⟨key, memcpy p t.data_len_⟩
            :: (t.hash_table_.set (t.index key iIndex) (deleteChain key chain)).flatten)
          (length_set ..) rfl rfl (entries_update _ hchain hfind) ?_ ?_ ?_
        · show t.data_num_ = _
          rw [h.num, hcount, length_cons]
        · intro hlen
          obtain ⟨hVL, a, ha, hs, hshape⟩ := h.fixed hlen
          refine ⟨hVL, a, ha, ?_, ?_⟩
          · rw [length_cons, ← hcount]
            exact hs
          · refine forall_mem_cons.mpr ⟨?_, ?_⟩
            · show ((memcpy p t.data_len_).length : ℤ) = t.data_len_
              rw [length_memcpy]
              omega
            · intro x hx
              exact hshape x (hold.mem_iff.mpr (mem_cons_of_mem e hx))
        · intro hneg
          omega
      · cases hr
        exact h
    · cases hr
      exact h
  · cases hr
    exact h

/-- `deleteKey_FL` keeps it. -/
theorem Valid.deleteKey_FL (h : t.Valid) {r : ℤ} (hr : t.deleteKey_FL key iIndex = some (r, t')) :
    t'.Valid := by
  unfold HashTable.deleteKey_FL at hr
  split at hr
  · contradiction
  rename_i chain hchain
  split at hr
  · rename_i e hfind
    split at hr
    · contradiction
    rename_i a ha
    cases hr
    have hold := entries_delete hchain hfind
    have hcount : t.entries.length
        = (t.hash_table_.set (t.index key iIndex) (deleteChain key chain)).flatten.length + 1 :=
      hold.length_eq
    refine h.rebuild (t.hash_table_.set (t.index key iIndex) (deleteChain key chain)).flatten
      (length_set ..) rfl rfl (List.Perm.refl _) ?_ ?_ ?_
    · show t.data_num_ - 1 = _
      rw [h.num]
      omega
    · intro hlen
      obtain ⟨hVL, b, hb, hs, hshape⟩ := h.fixed hlen
      rw [ha] at hb
      cases hb
      refine ⟨hVL, a.free, rfl, ?_, ?_⟩
      · have hfree := hs.free
        rw [hcount, Int.natCast_succ, Int.add_sub_cancel] at hfree
        exact hfree
      · exact fun x hx => hshape x (hold.mem_iff.mpr (mem_cons_of_mem e hx))
    · intro hneg
      rw [(h.varying hneg).1] at ha
      contradiction
  · cases hr
    exact h

/-- What `addKey_VL` does when it comes back. -/
theorem addKey_VL_cases {vpData : ℕ → UInt8} {r : ℤ × ℤ × Option (List UInt8)}
    (h : t.addKey_VL heap key vpData data_len = some (r, t')) : (data_len < 0 ∧ r.1 = -1 ∧ t' = t) ∨
      (0 ≤ data_len ∧ ∃ chain, t.hash_table_[t.index key (-1)]? = some chain ∧
        ((r.1 = 1 ∧ t' = t ∧ ∃ e, findKey key chain = some e) ∨
          (findKey key chain = none ∧ ∃ a, t.allocator_VL_ = some a ∧
            ((r.1 = -1 ∧ (a.alloc heap (8 + T.size + 4 + data_len)).1 = none
                ∧ t' = { t with allocator_VL_ := some (a.alloc heap (8 + T.size + 4 + data_len)).2 }) ∨
              (r.1 = 0 ∧ (a.alloc heap (8 + T.size + 4 + data_len)).1.isSome ∧ t' = { t with
                allocator_VL_ := some (a.alloc heap (8 + T.size + 4 + data_len)).2
                hash_table_ := t.hash_table_.set (t.index key (-1))
                  (⟨key, encodeInt 4 data_len ++ memcpy vpData data_len⟩ :: chain)
                data_num_ := t.data_num_ + 1 }))))) := by
  unfold addKey_VL at h
  split_ifs at h with hneg
  · cases h
    exact Or.inl ⟨hneg, rfl, rfl⟩
  refine Or.inr ⟨by omega, ?_⟩
  cases hchain : t.hash_table_[t.index key (-1)]? with
  | none =>
    rw [hchain] at h
    contradiction
  | some chain =>
    refine ⟨chain, rfl, ?_⟩
    rw [hchain] at h
    dsimp only at h
    cases hfind : findKey key chain with
    | some e =>
      rw [hfind] at h
      cases h
      exact Or.inl ⟨rfl, rfl, e, rfl⟩
    | none =>
      rw [hfind] at h
      cases ha : t.allocator_VL_ with
      | none =>
        rw [ha] at h
        contradiction
      | some a =>
        rw [ha] at h
        dsimp only at h
        refine Or.inr ⟨rfl, a, rfl, ?_⟩
        rcases hp : a.alloc heap (8 + T.size + 4 + data_len) with ⟨_ | _, a'⟩
        · rw [hp] at h
          cases h
          exact Or.inl ⟨rfl, rfl, rfl⟩
        · rw [hp] at h
          cases h
          exact Or.inr ⟨rfl, rfl, rfl⟩

theorem recordLen_new (key : Key T) (p : ℕ → UInt8) {n : ℤ} (hn : 0 ≤ n) :
    recordLen (⟨key, encodeInt 4 n ++ memcpy p n⟩ : HashEntry T) = 8 + T.size + 4 + n := by
  unfold recordLen
  rw [length_append, length_encodeInt, length_memcpy]
  omega

theorem varying_new (key : Key T) (p : ℕ → UInt8) {n : ℤ} (hn : 0 ≤ n) (hfit : 8 + T.size + 4 + n ≤ 1048576) :
    Varying (⟨key, encodeInt 4 n ++ memcpy p n⟩ : HashEntry T) := by
  refine ⟨memcpy p n, ?_, ?_⟩
  · show encodeInt 4 n ++ memcpy p n = encodeInt 4 ((memcpy p n).length : ℤ) ++ memcpy p n
    rw [length_memcpy, Int.toNat_of_nonneg hn]
  · rw [recordLen_new key p hn]
    exact hfit

/-- `addKey_VL` keeps it. -/
theorem Valid.addKey_VL (h : t.Valid) {vpData : ℕ → UInt8} {r : ℤ × ℤ × Option (List UInt8)}
    (hr : t.addKey_VL heap key vpData data_len = some (r, t')) : t'.Valid := by
  obtain ⟨_, _, rfl⟩ | ⟨hn, chain, hchain, ⟨_, rfl, _⟩ | ⟨_, a, ha, hgot⟩⟩ := addKey_VL_cases hr
  · exact h
  · exact h
  · have hneg : t.data_len_ < 0 := by
      by_contra hpos
      rw [(h.fixed (by omega)).1] at ha
      contradiction
    obtain ⟨hFL, b, hb, hs, hsum, hshape⟩ := h.varying hneg
    rw [ha] at hb
    cases hb
    obtain ⟨hs', halloc⟩ := hs.alloc heap (by omega : 0 < (8 + T.size + 4 + data_len : ℤ))
    obtain ⟨_, hnull, rfl⟩ | ⟨_, hsome, rfl⟩ := hgot
    · obtain ⟨hbad, _⟩ | ⟨_, htotal⟩ := halloc
      · rw [hnull] at hbad
        contradiction
      · refine h.rebuild t.entries rfl rfl rfl (List.Perm.refl _) h.num (fun hpos => ?_) (fun _ => ?_)
        · omega
        · exact ⟨hFL, _, rfl, hs', htotal ▸ hsum, hshape⟩
    obtain ⟨_, hfit, htotal⟩ | ⟨hbad, _⟩ := halloc
    · refine h.rebuild (_ :: t.entries) (length_set ..) rfl rfl (entries_cons hchain _) ?_
        (fun hpos => ?_) (fun _ => ?_)
      · show t.data_num_ + 1 = ((t.entries.length + 1 : ℕ) : ℤ)
        rw [h.num]
        omega
      · omega
      · refine ⟨hFL, _, rfl, hs', ?_, forall_mem_cons.mpr ⟨varying_new key vpData hn hfit, hshape⟩⟩
        rw [map_cons, sum_cons, recordLen_new key vpData hn, htotal]
        omega
    · rw [hbad] at hsome
      contradiction

/-- `clear` keeps it. -/
theorem Valid.clear (h : t.Valid) {r : ℤ} (hr : t.clear = some (r, t')) : t'.Valid ∧ t'.entries = [] := by
  unfold HashTable.clear at hr
  split at hr
  · contradiction
  cases hr
  have hnone : (t.hash_table_.map (fun _ => ([] : List (HashEntry T)))).flatten = [] := by
    rw [map_const', flatten_replicate_nil]
  refine ⟨h.rebuild [] (length_map ..) rfl rfl ?_ rfl ?_ ?_, hnone⟩
  · show (t.hash_table_.map (fun _ => ([] : List (HashEntry T)))).flatten.Perm []
    rw [hnone]
  · intro hpos
    obtain ⟨hVL, a, ha, hs, _⟩ := h.fixed hpos
    refine ⟨?_, a.resetAllocator, ?_, hs.reset, fun e he => absurd he not_mem_nil⟩
    · show t.allocator_VL_.map _ = none
      rw [hVL, map_none]
    · show t.allocator_FL_.map _ = _
      rw [ha, map_some]
  · intro hneg
    obtain ⟨hFL, a, ha, hs, _⟩ := h.varying hneg
    refine ⟨?_, a.resetAllocator, ?_, hs.reset, Int.le_refl 0, fun e he => absurd he not_mem_nil⟩
    · show t.allocator_FL_.map _ = none
      rw [hFL, map_none]
    · show t.allocator_VL_.map _ = _
      rw [ha, map_some]

/-! ## §5. Histories of calls. -/

/-- A call of one of the operations, with the memory it finds. -/
inductive Call (T : KeyType) where
  | addKey_FL (heap : Heap) (key : Key T) (vpData : Option (ℕ → UInt8)) (junk : ℕ → UInt8)
      (iIndex : ℤ)
  | searchKey_FL (key : Key T) (iIndex : ℤ)
  | updateKey_FL (key : Key T) (vpData : Option (ℕ → UInt8)) (iIndex : ℤ)
  | deleteKey_FL (key : Key T) (iIndex : ℤ)
  | addKey_VL (heap : Heap) (key : Key T) (vpData : ℕ → UInt8) (data_len : ℤ)
  | searchKey_VL (key : Key T)
  | clear

/-- The table after a call; `none` when the call leaves memory. -/
def call (t : HashTable T) : Call T → Option (HashTable T)
  | .addKey_FL heap key vpData junk iIndex => (t.addKey_FL heap key vpData junk iIndex).map Prod.snd
  | .searchKey_FL key iIndex => (t.searchKey_FL key iIndex).map (fun _ => t)
  | .updateKey_FL key vpData iIndex => (t.updateKey_FL key vpData iIndex).map Prod.snd
  | .deleteKey_FL key iIndex => (t.deleteKey_FL key iIndex).map Prod.snd
  | .addKey_VL heap key vpData data_len => (t.addKey_VL heap key vpData data_len).map Prod.snd
  | .searchKey_VL key => (t.searchKey_VL key).map (fun _ => t)
  | .clear => t.clear.map Prod.snd

/-- The table after a sequence of calls. -/
def run (t : HashTable T) (calls : List (Call T)) : Option (HashTable T) :=
  calls.foldlM HashTable.call t

/-- **Every operation keeps the invariant.** -/
theorem Valid.call (h : t.Valid) {c : Call T} (hc : t.call c = some t') : t'.Valid := by
  cases c with
  | addKey_FL heap key vpData junk iIndex =>
    obtain ⟨⟨r, t₁⟩, hr, rfl⟩ := map_eq_some_iff.mp hc
    exact h.addKey_FL hr
  | searchKey_FL key iIndex =>
    obtain ⟨_, _, rfl⟩ := map_eq_some_iff.mp hc
    exact h
  | updateKey_FL key vpData iIndex =>
    obtain ⟨⟨r, t₁⟩, hr, rfl⟩ := map_eq_some_iff.mp hc
    exact h.updateKey_FL hr
  | deleteKey_FL key iIndex =>
    obtain ⟨⟨r, t₁⟩, hr, rfl⟩ := map_eq_some_iff.mp hc
    exact h.deleteKey_FL hr
  | addKey_VL heap key vpData data_len =>
    obtain ⟨⟨r, t₁⟩, hr, rfl⟩ := map_eq_some_iff.mp hc
    exact h.addKey_VL hr
  | searchKey_VL key =>
    obtain ⟨_, _, rfl⟩ := map_eq_some_iff.mp hc
    exact h
  | clear =>
    obtain ⟨⟨r, t₁⟩, hr, rfl⟩ := map_eq_some_iff.mp hc
    exact (h.clear hr).1

theorem Valid.run (h : t.Valid) {calls : List (Call T)} (hrun : t.run calls = some t') : t'.Valid := by
  induction calls generalizing t with
  | nil =>
    cases hrun
    exact h
  | cons c calls ih =>
    unfold HashTable.run at hrun
    rw [foldlM_cons, bind_eq_bind, bind_eq_some_iff] at hrun
    obtain ⟨t₁, hc, hrest⟩ := hrun
    exact ih (h.call hc) hrest

end HashTable

end KalavaPir.Common
