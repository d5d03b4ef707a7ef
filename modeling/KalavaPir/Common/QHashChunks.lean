/-
  KalavaPir.Common.QHashChunks — the fixed-length operations of
  `common/qhashsearch.h` on the chunks of `QAllocatorRecycle`.

  A chunk holds, one after the other, the allocator's pointer, the table's
  pointer, the key and the data.  A bucket is a chain of chunks along the
  table's pointers, the chunks that came back are a chain along the
  allocator's, and both kinds of chain live in the same memory.
-/
import KalavaPir.Framework.LinkedChain
import KalavaPir.Common.QHashSearch

namespace KalavaPir.Common

open KalavaPir.Framework List Option Function

variable {T : KeyType}

/-! ## §1. Chunks. -/

/-- The base address of a chunk: its block and the offset there. -/
abbrev Address : Type := ℤ × ℤ

/-- A chunk: the allocator's pointer (behind `pRecycleLibrary`), the table's
    pointer, the key and the bytes behind it. -/
structure Chunk (T : KeyType) where
  link : Option Address
  next : Option Address
  key : Key T
  data : ℕ → UInt8

/-- A table of fixed length, its allocator and the memory of the chunks. -/
structure ChunkTable (T : KeyType) where
  data_len_ : ℤ
  data_num_ : ℤ
  bucket_size_ : ℤ
  hash_table_ : List (Option Address)
  blocks : ChunkBlocks
  mRecycleNum : ℤ
  pRecycleLibrary : Option Address
  memory : Address → Chunk T

namespace ChunkTable

/-- `init(bucket_size, data_len)` with `data_len >= 0`, in memory as it is;
    `none` where the allocator's `init` refuses. -/
def init (memory : Address → Chunk T) (bucket_size data_len : ℤ) : Option (ChunkTable T) :=
  match ChunkBlocks.init (8 + T.size + data_len) with
  | none => none
  | some b => some
      { data_len_ := data_len, data_num_ := 0, bucket_size_ := bucket_size
        hash_table_ := List.replicate bucket_size.toNat none
        blocks := b, mRecycleNum := 0, pRecycleLibrary := none, memory := memory }

/-- `*(char**)p`. -/
def next (c : ChunkTable T) (p : Address) : Option Address := (c.memory p).next

/-- `*(char**)(p-sizeof(void*))`. -/
def link (c : ChunkTable T) (p : Address) : Option Address := (c.memory p).link

/-- A chunk as an entry of the table. -/
def entry (c : ChunkTable T) (p : Address) : HashEntry T :=
  ⟨(c.memory p).key, memcpy (c.memory p).data c.data_len_⟩

/-- A chunk rewritten. -/
def write (c : ChunkTable T) (p : Address) (x : Chunk T) : ChunkTable T :=
  { c with memory := update c.memory p x }

/-- The data after `data_len_` bytes were copied over it, none from NULL. -/
def fill (c : ChunkTable T) (vpData : Option (ℕ → UInt8)) (old : ℕ → UInt8) : ℕ → UInt8 :=
  match vpData with
  | some p => fun n => if (n : ℤ) < c.data_len_ then p n else old n
  | none => old

/-- `if(data_len_>0&&vpData) memcpy(..)` into the chunk at `p`. -/
def store (c : ChunkTable T) (vpData : Option (ℕ → UInt8)) (p : Address) : ChunkTable T :=
  c.write p { c.memory p with data := c.fill vpData (c.memory p).data }

/-- `alloc()`; `none` for NULL. -/
def alloc (heap : Heap) (c : ChunkTable T) : Option Address × ChunkTable T :=
  match c.pRecycleLibrary with
  | some p => (some p,
      { c with pRecycleLibrary := c.link p, mRecycleNum := c.mRecycleNum - 1 })
  | none => ((c.blocks.carve heap).1, { c with blocks := (c.blocks.carve heap).2 })

/-- `free(p)`. -/
def free (c : ChunkTable T) (p : Address) : ChunkTable T :=
  { c.write p { c.memory p with link := c.pRecycleLibrary } with
    pRecycleLibrary := some p
    mRecycleNum := c.mRecycleNum + 1 }

/-- `if(iIndex<0)`: the caller's bucket, or the computed one. -/
def index (c : ChunkTable T) (key : Key T) (iIndex : ℤ) : ℕ :=
  (if iIndex < 0 then bucketIndex c.bucket_size_ key else iIndex).toNat

/-- `while(p)`: the chunk of the key in a bucket and the one before it.  A walk
    over more chunks than were handed out goes in a circle: it does not come
    back (`none`), as a bucket outside the table does not. -/
def find (c : ChunkTable T) (key : Key T) (i : ℕ) : Option (Option Address × Option Address) :=
  match c.hash_table_[i]? with
  | none => none
  | some h => walk c.next (fun p => (c.memory p).key = key) (c.blocks.handed.toNat + 1) none h

/-- `*vppRetBuf`, and the bytes behind it. -/
def value (c : ChunkTable T) (p : Address) : Option (List UInt8) :=
  if c.data_len_ = 0 then none else some (memcpy (c.memory p).data c.data_len_)

/-! ## §2. The operations. -/

/-- `addKey_FL(key, vpData, vppRetBuf, iIndex)`; `none` when it leaves memory,
    also into a chunk that is not all in its block. -/
def addKey_FL (heap : Heap) (c : ChunkTable T) (key : Key T) (vpData : Option (ℕ → UInt8))
    (iIndex : ℤ) : Option ((ℤ × Option (List UInt8)) × ChunkTable T) :=
  match c.find key (c.index key iIndex) with
  | none => none
  | some (_, some p) => some ((1, c.value p), c)
  | some (_, none) =>
    match c.alloc heap with
    | (none, c) => some ((-1, none), c)
    | (some p, c) =>
      if c.blocks.holds p then
        let c := c.write p { c.memory p with
          next := (c.hash_table_[c.index key iIndex]?).join
          key := key
          data := c.fill vpData (c.memory p).data }
        some ((0, c.value p), { c with
          hash_table_ := c.hash_table_.set (c.index key iIndex) (some p)
          data_num_ := c.data_num_ + 1 })
      else none

/-- `searchKey_FL(key, vppRetBuf, iIndex)`. -/
def searchKey_FL (c : ChunkTable T) (key : Key T) (iIndex : ℤ) :
    Option (ℤ × Option (List UInt8)) :=
  match c.find key (c.index key iIndex) with
  | none => none
  | some (_, some p) => some (0, c.value p)
  | some (_, none) => some (-1, none)

/-- `updateKey_FL(key, vpData, vppRetBuf, iIndex)`. -/
def updateKey_FL (c : ChunkTable T) (key : Key T) (vpData : Option (ℕ → UInt8)) (iIndex : ℤ) :
    Option ((ℤ × Option (List UInt8)) × ChunkTable T) :=
  match c.find key (c.index key iIndex) with
  | none => none
  | some (_, some p) => some ((0, (c.store vpData p).value p), c.store vpData p)
  | some (_, none) => some ((-1, none), c)

/-- `*(char**)q=*(char**)p`, where `q` is a chunk or the bucket itself. -/
def unlink (c : ChunkTable T) (i : ℕ) (q : Option Address) (p : Address) : ChunkTable T :=
  match q with
  | none => { c with hash_table_ := c.hash_table_.set i (c.next p) }
  | some q => c.write q { c.memory q with next := c.next p }

/-- `deleteKey_FL(key, iIndex)`. -/
def deleteKey_FL (c : ChunkTable T) (key : Key T) (iIndex : ℤ) : Option (ℤ × ChunkTable T) :=
  match c.find key (c.index key iIndex) with
  | none => none
  | some (q, some p) =>
    let c := c.unlink (c.index key iIndex) q p
    let c := c.write p { c.memory p with next := none }
    let c := c.free p
    some (0, { c with data_num_ := c.data_num_ - 1 })
  | some (_, none) => some (-1, c)

/-- `clear()`; it reads `hash_table_[0]` at its end. -/
def clear (c : ChunkTable T) : Option (ℤ × ChunkTable T) :=
  match c.hash_table_ with
  | [] => none
  | _ :: _ => some (0, { c with
      data_num_ := 0
      blocks := c.blocks.resetAllocator
      mRecycleNum := 0
      pRecycleLibrary := none
      hash_table_ := c.hash_table_.map (fun _ => none) })

/-! ## §3. Where the chunks are. -/

end ChunkTable

/-- The chunks handed out since the last reset. -/
def ChunkBlocks.issued (b : ChunkBlocks) : List Address :=
  (List.range b.handed.toNat).map (fun n : ℕ => b.chunkAt n)

variable {b : ChunkBlocks}

theorem ChunkBlocks.Sound.nodup_issued (h : b.Sound) : b.issued.Nodup := by
  refine List.Nodup.map ?_ nodup_range
  intro m n heq
  have hmn := chunkAt_inj h.size heq
  omega

theorem ChunkBlocks.length_issued (b : ChunkBlocks) : b.issued.length = b.handed.toNat := by
  rw [issued, length_map, length_range]

theorem ChunkBlocks.Sound.chunkAt_notMem_issued (h : b.Sound) {n : ℤ} (hn : b.handed ≤ n) :
    b.chunkAt n ∉ b.issued := by
  intro hmem
  obtain ⟨m, hm, heq⟩ := mem_map.mp hmem
  have hlt := mem_range.mp hm
  have hmn := chunkAt_inj h.size heq
  omega

variable {b' : ChunkBlocks}

theorem ChunkBlocks.issued_succ (hpos : 0 ≤ b.handed) (hhanded : b'.handed = b.handed + 1)
    (hsize : b'.mChunkSize = b.mChunkSize) :
    b'.issued = b.issued ++ [b.chunkAt b.handed] := by
  have hnat : b'.handed.toNat = b.handed.toNat + 1 := by omega
  have hsame : ∀ n : ℕ, b'.chunkAt n = b.chunkAt n := by
    intro n
    unfold chunkAt
    rw [hsize]
  unfold issued
  rw [hnat, range_succ, map_append, map_singleton, hsame,
    Int.toNat_of_nonneg hpos]
  exact congrArg (· ++ _) (map_congr_left (fun n _ => hsame n))

theorem ChunkBlocks.Sound.holds_eq (h : b.Sound) (h' : b'.Sound) (hsize : b'.mChunkSize = b.mChunkSize) :
    b'.holds = b.holds := by
  funext p
  unfold holds blockBytes
  rw [h.length, h'.length, hsize]

theorem set_of_getElem? {α : Type} {l : List α} {i : ℕ} {x : α} (h : l[i]? = some x) : l.set i x = l := by
  obtain ⟨hi, hx⟩ := List.getElem?_eq_some_iff.mp h
  rw [← hx]
  exact set_getElem_self hi

namespace ChunkTable

variable {c : ChunkTable T} {chains : List (List Address)} {out free : List Address}

/-- The chains of the buckets, the chain of the chunks that came back, and the
    chunks in the hands of an operation: together they are the chunks handed
    out, EACH ONCE. -/
structure Laid (c : ChunkTable T) (out : List Address) (chains : List (List Address))
    (free : List Address) : Prop where
  blocks : c.blocks.Sound
  length : chains.length = c.hash_table_.length
  linked : ∀ (i : ℕ) l, chains[i]? = some l → ∃ h, c.hash_table_[i]? = some h ∧ Linked c.next h l
  recycled : Linked c.link c.pRecycleLibrary free
  count : c.mRecycleNum = free.length
  issued : (out ++ (chains.flatten ++ free)).Perm c.blocks.issued
  within : ∀ p ∈ chains.flatten ++ free, c.blocks.holds p = true

theorem Laid.nodup (h : Laid c out chains free) : (out ++ (chains.flatten ++ free)).Nodup :=
  h.issued.nodup_iff.mpr h.blocks.nodup_issued

variable {l l₁ l₂ : List Address} {i : ℕ} {p : Address} {f : Address → HashEntry T} {key : Key T}

theorem Laid.chain_length (h : Laid c out chains free) (hl : l ∈ chains) :
    l.length ≤ c.blocks.handed.toNat := by
  have hsub : l.length ≤ chains.flatten.length := (sublist_flatten_of_mem hl).length_le
  have hall := h.issued.length_eq
  rw [ChunkBlocks.length_issued, length_append, length_append] at hall
  omega

/-- One bucket's chain replaced, the cells of the others left alone. -/
theorem linked_set {next next' : Address → Option Address} {ht : List (Option Address)}
    (hlinked : ∀ (i : ℕ) l, chains[i]? = some l → ∃ h, ht[i]? = some h ∧ Linked next h l)
    (hi : chains[i]? = some l) {h' : Option Address} {l' : List Address} (hl' : Linked next' h' l')
    (hsame : ∀ p ∈ (chains.eraseIdx i).flatten, next' p = next p) :
    ∀ (j : ℕ) m, (chains.set i l')[j]? = some m → ∃ h, (ht.set i h')[j]? = some h ∧ Linked next' h m := by
  intro j m hm
  by_cases hj : i = j
  · subst hj
    obtain ⟨h, hh, _⟩ := hlinked i l hi
    have hlt : i < ht.length := (List.getElem?_eq_some_iff.mp hh).1
    have hltc : i < chains.length := (List.getElem?_eq_some_iff.mp hi).1
    rw [getElem?_set_self hltc] at hm
    cases hm
    exact ⟨h', getElem?_set_self hlt, hl'⟩
  rw [getElem?_set_ne hj] at hm
  obtain ⟨h, hh, hlink⟩ := hlinked j m hm
  refine ⟨h, ?_, hlink.congr ?_⟩
  · rw [getElem?_set_ne hj]
    exact hh
  · intro p hp
    refine hsame p (mem_flatten.mpr ⟨m, ?_, hp⟩)
    exact mem_eraseIdx_iff_getElem?.mpr ⟨j, Ne.symm hj, hm⟩

/-! ## §4. The steps of the operations. -/

theorem next_write (c : ChunkTable T) (p : Address) (x : Chunk T) :
    (c.write p x).next = update c.next p x.next := by
  funext q
  show (update c.memory p x q).next = _
  by_cases hq : q = p
  · rw [hq, update_self, update_self]
  · rw [update_of_ne hq, update_of_ne hq]
    rfl

theorem link_write (c : ChunkTable T) (p : Address) (x : Chunk T) :
    (c.write p x).link = update c.link p x.link := by
  funext q
  show (update c.memory p x q).link = _
  by_cases hq : q = p
  · rw [hq, update_self, update_self]
  · rw [update_of_ne hq, update_of_ne hq]
    rfl

theorem entry_write_of_ne (c : ChunkTable T) {q : Address} (x : Chunk T) (hq : q ≠ p) :
    (c.write p x).entry q = c.entry q := by
  unfold entry write
  dsimp only
  rw [update_of_ne hq]

theorem entry_write_self (c : ChunkTable T) (p : Address) (x : Chunk T) :
    (c.write p x).entry p = ⟨x.key, memcpy x.data c.data_len_⟩ := by
  unfold entry write
  dsimp only
  rw [update_self]

theorem value_write_self (c : ChunkTable T) (p : Address) (x : Chunk T) :
    (c.write p x).value p = if c.data_len_ = 0 then none else some (memcpy x.data c.data_len_) := by
  unfold value write
  dsimp only
  rw [update_self]

theorem entry_write_pointers (c : ChunkTable T) (p : Address) (next link : Option Address) :
    (c.write p { c.memory p with next := next, link := link }).entry = c.entry := by
  funext q
  by_cases hq : q = p
  · rw [hq, entry_write_self]
    rfl
  · exact entry_write_of_ne c _ hq

/-- **`alloc`** takes the first chunk that came back, or the next of the blocks. -/
theorem Laid.alloc (h : Laid c [] chains free) (heap : Heap) :
    ((c.alloc heap).1 = none ∧ Laid (c.alloc heap).2 [] chains free) ∨
      ∃ p free', (c.alloc heap).1 = some p ∧ Laid (c.alloc heap).2 [p] chains free' := by
  cases hfree : free with
  | cons p rest =>
    rw [hfree] at h
    obtain ⟨hp, hrest⟩ := h.recycled
    have halloc : c.alloc heap = (some p,
        { c with pRecycleLibrary := c.link p, mRecycleNum := c.mRecycleNum - 1 }) := by
      unfold ChunkTable.alloc
      rw [hp]
    rw [halloc]
    refine Or.inr ⟨p, rest, rfl, ⟨h.blocks, h.length, h.linked, hrest, ?_, ?_, ?_⟩⟩
    · have hcount := h.count
      show c.mRecycleNum - 1 = rest.length
      rw [length_cons] at hcount
      omega
    · show (p :: (chains.flatten ++ rest)).Perm c.blocks.issued
      exact (perm_middle.symm).trans h.issued
    · intro q hq
      refine h.within q ?_
      rw [mem_append] at hq ⊢
      exact hq.imp_right (mem_cons_of_mem p)
  | nil =>
    rw [hfree] at h
    have hp : c.pRecycleLibrary = none := h.recycled
    have halloc : c.alloc heap =
        ((c.blocks.carve heap).1, { c with blocks := (c.blocks.carve heap).2 }) := by
      unfold ChunkTable.alloc
      rw [hp]
    rw [halloc]
    obtain ⟨hs, hsize, ⟨hgot, hhanded⟩ | ⟨hnull, hhanded, _⟩⟩ := h.blocks.carve heap
    · have hissued := ChunkBlocks.issued_succ h.blocks.handed_bounds.1 hhanded hsize
      refine Or.inr ⟨_, [], hgot, ⟨hs, h.length, h.linked, h.recycled, h.count, ?_, ?_⟩⟩
      · show ([_] ++ (chains.flatten ++ [])).Perm (c.blocks.carve heap).2.issued
        rw [hissued]
        exact (perm_append_comm).trans (h.issued.append_right _)
      · show ∀ q ∈ chains.flatten ++ [], (c.blocks.carve heap).2.holds q = true
        rw [h.blocks.holds_eq hs hsize]
        exact h.within
    have hissued : (c.blocks.carve heap).2.issued = c.blocks.issued := by
      unfold ChunkBlocks.issued ChunkBlocks.chunkAt
      rw [hhanded, hsize]
    refine Or.inl ⟨hnull, ⟨hs, h.length, h.linked, h.recycled, h.count, ?_, ?_⟩⟩
    · show ([] ++ (chains.flatten ++ [])).Perm (c.blocks.carve heap).2.issued
      rw [hissued]
      exact h.issued
    · show ∀ q ∈ chains.flatten ++ [], (c.blocks.carve heap).2.holds q = true
      rw [h.blocks.holds_eq hs hsize]
      exact h.within

section

variable (h : Laid c [p] chains free)
include h

theorem Laid.out_ne : ∀ q ∈ chains.flatten ++ free, q ≠ p := by
  intro q hq heq
  rw [heq] at hq
  exact (nodup_cons.mp h.nodup).1 hq

/-- Writing to the chunk in hand. -/
theorem Laid.write_out (x : Chunk T) : Laid (c.write p x) [p] chains free where
  blocks := h.blocks
  length := h.length
  linked := by
    intro i l hl
    obtain ⟨head, hhead, hlink⟩ := h.linked i l hl
    refine ⟨head, hhead, hlink.congr ?_⟩
    intro q hq
    rw [next_write]
    refine update_of_ne (h.out_ne q (mem_append_left free ?_)) _ _
    exact mem_flatten.mpr ⟨l, mem_of_getElem? hl, hq⟩
  recycled := by
    refine h.recycled.congr ?_
    intro q hq
    rw [link_write]
    exact update_of_ne (h.out_ne q (mem_append_right _ hq)) _ _
  count := h.count
  issued := h.issued
  within := h.within

/-- The chunk in hand, with its pointer at the head of a bucket, becomes the
    head. -/
theorem Laid.push {head : Option Address} (hi : chains[i]? = some l) (hhead : c.hash_table_[i]? = some head)
    (hnext : c.next p = head) (hholds : c.blocks.holds p = true) (num : ℤ) :
    Laid { c with hash_table_ := c.hash_table_.set i (some p), data_num_ := num } []
      (chains.set i (p :: l)) free where
  blocks := h.blocks
  length := by
    show (chains.set i (p :: l)).length = (c.hash_table_.set i (some p)).length
    rw [length_set, length_set]
    exact h.length
  linked := by
    refine linked_set h.linked hi ⟨rfl, ?_⟩ (fun _ _ => rfl)
    obtain ⟨head', hhead', hlink⟩ := h.linked i l hi
    rw [hhead] at hhead'
    cases hhead'
    show Linked c.next (c.next p) l
    rw [hnext]
    exact hlink
  recycled := h.recycled
  count := h.count
  issued := by
    have hnew := (flatten_set hi (p :: l)).append_right free
    have hold := ((flatten_split hi).append_right free).cons p
    exact hnew.trans (hold.symm.trans h.issued)
  within := by
    intro q hq
    have hnew := ((flatten_set hi (p :: l)).append_right free).mem_iff.mp hq
    obtain heq | hq' := mem_cons.mp hnew
    · rw [heq]
      exact hholds
    · exact h.within q (((flatten_split hi).append_right free).mem_iff.mpr hq')

/-- The chunk in hand, with the allocator's pointer set, goes back. -/
theorem Laid.free_out (hlink : c.link p = c.pRecycleLibrary) (hholds : c.blocks.holds p = true) :
    Laid { c with pRecycleLibrary := some p, mRecycleNum := c.mRecycleNum + 1 } [] chains
      (p :: free) where
  blocks := h.blocks
  length := h.length
  linked := h.linked
  recycled := by
    refine ⟨rfl, ?_⟩
    show Linked c.link (c.link p) free
    rw [hlink]
    exact h.recycled
  count := by
    have hcount := h.count
    show c.mRecycleNum + 1 = ((free.length + 1 : ℕ) : ℤ)
    omega
  issued := perm_middle.trans h.issued
  within := by
    intro q hq
    obtain heq | hq' := mem_cons.mp (perm_middle.mem_iff.mp hq)
    · rw [heq]
      exact hholds
    · exact h.within q hq'

/-- **`free`** puts the chunk in hand before those that came back. -/
theorem Laid.give_back (hholds : c.blocks.holds p = true) : Laid (c.free p) [] chains (p :: free) := by
  refine (h.write_out { c.memory p with link := c.pRecycleLibrary }).free_out ?_ hholds
  rw [link_write, update_self]
  rfl

end

/-- What `while(p)` leaves in `q`: the bucket itself, or the chunk before. -/
def Before (q : Option Address) (l : List Address) : Prop :=
  (l = [] ∧ q = none) ∨ ∃ l₀ x, l = l₀ ++ [x] ∧ q = some x

/-- A chunk taken out of its bucket. -/
theorem Laid.unlink {q : Option Address} (h : Laid c [] chains free)
    (hi : chains[i]? = some (l₁ ++ p :: l₂)) (hq : Before q l₁) :
    Laid (c.unlink i q p) [p] (chains.set i (l₁ ++ l₂)) free := by
  obtain ⟨head, hhead, hlink⟩ := h.linked i _ hi
  have hnodup : (chains.flatten ++ free).Nodup := h.nodup
  have hsplit := flatten_split hi
  -- the chain and the rest of the buckets have no chunk in common
  have hparts : ((l₁ ++ p :: l₂) ++ (chains.eraseIdx i).flatten).Nodup :=
    hsplit.nodup_iff.mp (List.Nodup.of_append_left hnodup)
  have hissued : ([p] ++ ((chains.set i (l₁ ++ l₂)).flatten ++ free)).Perm c.blocks.issued := by
    have hnew := ((flatten_set hi (l₁ ++ l₂)).append_right free).cons p
    have hold := hsplit.append_right free
    have hmid : (p :: (l₁ ++ l₂ ++ (chains.eraseIdx i).flatten ++ free)).Perm
        (l₁ ++ p :: l₂ ++ (chains.eraseIdx i).flatten ++ free) := by
      have hp : (p :: (l₁ ++ l₂)).Perm (l₁ ++ p :: l₂) := perm_middle.symm
      exact (hp.append_right (chains.eraseIdx i).flatten).append_right free
    exact hnew.trans (hmid.trans (hold.symm.trans h.issued))
  have hwithin : ∀ x ∈ (chains.set i (l₁ ++ l₂)).flatten ++ free, c.blocks.holds x = true := by
    intro x hx
    refine h.within x ?_
    have hmem := hissued.mem_iff.mp (mem_cons_of_mem p hx)
    exact h.issued.mem_iff.mpr hmem
  have hlength : (chains.set i (l₁ ++ l₂)).length = c.hash_table_.length := by
    rw [length_set]
    exact h.length
  obtain ⟨rfl, rfl⟩ | ⟨l₀, x, rfl, rfl⟩ := hq
  · refine ⟨h.blocks, ?_, ?_, h.recycled, h.count, hissued, hwithin⟩
    · show (chains.set i ([] ++ l₂)).length = (c.hash_table_.set i (c.next p)).length
      rw [hlength, length_set]
    · exact linked_set h.linked hi hlink.2 (fun _ _ => rfl)
  have hmem : x ∈ l₀ ++ [x] ++ p :: l₂ := by simp
  have hchain : x ∉ (chains.eraseIdx i).flatten :=
    fun hx => (nodup_append.mp hparts).2.2 x hmem x hx rfl
  have hnext : (c.unlink i (some x) p).next = update c.next x (c.next p) :=
    next_write c x _
  refine ⟨h.blocks, hlength, ?_, ?_, h.count, hissued, hwithin⟩
  · have hset : c.hash_table_.set i head = c.hash_table_ := set_of_getElem? hhead
    have hnew : Linked (c.unlink i (some x) p).next head (l₀ ++ [x] ++ l₂) := by
      rw [hnext, append_assoc]
      have hl : Linked c.next head (l₀ ++ x :: p :: l₂) := by
        rw [append_assoc] at hlink
        exact hlink
      refine hl.unlink ?_
      have hchainNodup := List.Nodup.of_append_left hparts
      rw [append_assoc] at hchainNodup
      exact hchainNodup
    have hall := linked_set h.linked hi hnew ?_
    · rw [hset] at hall
      exact hall
    · intro q hq
      rw [hnext]
      refine update_of_ne ?_ _ _
      intro heq
      rw [heq] at hq
      exact hchain hq
  · have hsame : (c.unlink i (some x) p).link = c.link := by
      show (c.write x { c.memory x with next := c.next p }).link = c.link
      rw [link_write]
      exact update_eq_self x c.link
    rw [hsame]
    exact h.recycled

/-! ## §5. The operations compute what they compute on lists. -/

/-- The chains of chunks, read as lists of entries, are the table's. -/
structure Shows (c : ChunkTable T) (t : HashTable T) (out : List Address)
    (chains : List (List Address)) (free : List Address) : Prop where
  laid : Laid c out chains free
  table : t.hash_table_ = chains.map (List.map c.entry)
  allocator : t.allocator_FL_ = some ⟨c.blocks, c.mRecycleNum⟩
  len : t.data_len_ = c.data_len_
  num : t.data_num_ = c.data_num_
  size : t.bucket_size_ = c.bucket_size_

variable {t : HashTable T}

section

variable (h : Shows c t [] chains free)
include h

theorem Shows.index_eq (key : Key T) (iIndex : ℤ) : t.index key iIndex = c.index key iIndex := by
  unfold HashTable.index ChunkTable.index
  rw [h.size]

theorem Shows.value_eq (p : Address) : t.value_FL (c.entry p) = c.value p := by
  unfold HashTable.value_FL ChunkTable.value
  rw [h.len]
  rfl

theorem Shows.getElem? (i : ℕ) : t.hash_table_[i]? = (chains[i]?).map (List.map c.entry) := by
  rw [h.table, getElem?_map]

/-- **What the walk finds**: nothing, or the first chunk of the key together
    with what is before it. -/
theorem Shows.find_cases (key : Key T) (i : ℕ) : (t.hash_table_[i]? = none ∧ c.find key i = none) ∨
      ∃ l, chains[i]? = some l ∧ t.hash_table_[i]? = some (l.map c.entry) ∧
        ((findKey key (l.map c.entry) = none ∧ ∃ q, c.find key i = some (q, none)) ∨
          ∃ l₁ p l₂ q, l = l₁ ++ p :: l₂ ∧ findKey key (l.map c.entry) = some (c.entry p)
            ∧ c.find key i = some (q, some p) ∧ Before q l₁
            ∧ (∀ x ∈ l₁, (c.memory x).key ≠ key) ∧ (c.memory p).key = key) := by
  cases hi : chains[i]? with
  | none =>
    refine Or.inl ⟨by rw [h.getElem?, hi, map_none], ?_⟩
    have hlen := h.laid.length
    have hout : c.hash_table_[i]? = none := by
      rw [getElem?_eq_none_iff] at hi ⊢
      omega
    unfold ChunkTable.find
    rw [hout]
  | some l =>
    refine Or.inr ⟨l, rfl, by rw [h.getElem?, hi, map_some], ?_⟩
    obtain ⟨head, hhead, hlink⟩ := h.laid.linked i l hi
    have hfuel : l.length < c.blocks.handed.toNat + 1 :=
      Nat.lt_succ_of_le (h.laid.chain_length (mem_of_getElem? hi))
    have hfind : c.find key i = some (seek (fun p => (c.memory p).key = key) none l) := by
      unfold ChunkTable.find
      rw [hhead]
      exact hlink.walk _ hfuel none
    have hlist : findKey key (l.map c.entry)
        = ((seek (fun p => decide ((c.memory p).key = key)) none l).2).map c.entry := by
      rw [seek_snd]
      exact find?_map ..
    cases hseek : seek (fun p => decide ((c.memory p).key = key)) none l with
    | mk q found =>
      rw [hseek] at hfind hlist
      cases found with
      | none => exact Or.inl ⟨hlist, q, hfind⟩
      | some p =>
        obtain ⟨l₁, l₂, hl, hbefore, hp, hq⟩ := seek_eq_some hseek
        refine Or.inr ⟨l₁, p, l₂, q, hl, hlist, hfind, hq, ?_, of_decide_eq_true hp⟩
        exact fun x hx => of_decide_eq_false (hbefore x hx)

end

/-- The table of lists that the memory stands for. -/
def Sim (c : ChunkTable T) (t : HashTable T) : Prop := ∃ chains free, Shows c t [] chains free

/-- Two answers that agree, with tables that agree. -/
def Agree {α : Type} : Option (α × ChunkTable T) → Option (α × HashTable T) → Prop
  | none, none => True
  | some (r, c), some (r', t) => r = r' ∧ Sim c t
  | _, _ => False

/-- **`searchKey_FL` is the search on lists.** -/
theorem Sim.searchKey_FL (h : Sim c t) (key : Key T) (iIndex : ℤ) :
    c.searchKey_FL key iIndex = t.searchKey_FL key iIndex := by
  obtain ⟨chains, free, h⟩ := h
  unfold ChunkTable.searchKey_FL HashTable.searchKey_FL
  rw [h.index_eq]
  obtain ⟨hnone, hfind⟩ | ⟨l, _, hl, ⟨hmiss, q, hfind⟩ | ⟨_, p, _, q, _, hhit, hfind, _⟩⟩ :=
    h.find_cases key (c.index key iIndex)
  · rw [hnone, hfind]
  · rw [hl, hfind]
    dsimp only
    rw [hmiss]
  · rw [hl, hfind]
    dsimp only
    rw [hhit]
    dsimp only
    rw [h.value_eq]

variable {f' : Address → HashEntry T}

/-- One bucket's entries replaced, the entries of the others as they were. -/
theorem table_set (hi : chains[i]? = some l) (l' : List Address)
    (hsame : ∀ p ∈ (chains.eraseIdx i).flatten, f' p = f p) :
    (chains.set i l').map (List.map f') = (chains.map (List.map f)).set i (l'.map f') := by
  refine ext_getElem? ?_
  intro j
  have hlt : i < chains.length := (List.getElem?_eq_some_iff.mp hi).1
  by_cases hj : i = j
  · rw [← hj, getElem?_map, getElem?_set_self hlt,
      getElem?_set_self (by rw [length_map]; exact hlt), map_some]
  rw [getElem?_map, getElem?_set_ne hj, getElem?_set_ne hj, getElem?_map]
  cases hm : chains[j]? with
  | none => rfl
  | some m =>
    have hall : m.map f' = m.map f := by
      refine map_congr_left ?_
      intro p hp
      refine hsame p (mem_flatten.mpr ⟨m, ?_, hp⟩)
      exact mem_eraseIdx_iff_getElem?.mpr ⟨j, Ne.symm hj, hm⟩
    rw [map_some, map_some, hall]

theorem Laid.notMem_others (h : Laid c [] chains free) (hi : chains[i]? = some l) (hp : p ∈ l) :
    ∀ q ∈ (chains.eraseIdx i).flatten, q ≠ p := by
  intro q hq heq
  have hnodup := (flatten_split hi).nodup_iff.mp (List.Nodup.of_append_left h.nodup)
  exact (nodup_append.mp hnodup).2.2 p hp q hq heq.symm

theorem memcpy_fill (c : ChunkTable T) (p old : ℕ → UInt8) :
    memcpy (c.fill (some p) old) c.data_len_ = memcpy p c.data_len_ := by
  refine map_congr_left ?_
  intro n hn
  have hlt := mem_range.mp hn
  show (if (n : ℤ) < c.data_len_ then p n else old n) = p n
  rw [if_pos (by omega)]

/-- Copying data moves no pointer. -/
theorem Laid.store (h : Laid c out chains free) (vpData : Option (ℕ → UInt8)) (p : Address) :
    Laid (c.store vpData p) out chains free := by
  have hnext : (c.store vpData p).next = c.next := by
    unfold ChunkTable.store
    rw [next_write]
    exact update_eq_self p c.next
  have hlink : (c.store vpData p).link = c.link := by
    unfold ChunkTable.store
    rw [link_write]
    exact update_eq_self p c.link
  refine ⟨h.blocks, h.length, ?_, ?_, h.count, h.issued, h.within⟩
  · rw [hnext]
    exact h.linked
  · rw [hlink]
    exact h.recycled

theorem entry_store (c : ChunkTable T) (vpData : Option (ℕ → UInt8)) (p : Address) :
    (c.store vpData p).entry p = ⟨(c.memory p).key, memcpy (c.fill vpData (c.memory p).data) c.data_len_⟩ :=
  entry_write_self c p _

theorem value_store (c : ChunkTable T) (vpData : Option (ℕ → UInt8)) (p : Address) :
    (c.store vpData p).value p = if c.data_len_ = 0 then none
      else some (memcpy (c.fill vpData (c.memory p).data) c.data_len_) :=
  value_write_self c p _

/-- The list of entries after one chunk's data changed. -/
theorem updateChain_entries {data : List UInt8} (hbefore : ∀ x ∈ l₁, (f x).key ≠ key) (hp : (f p).key = key)
    (hnew : f' p = ⟨key, data⟩) (hsame : ∀ x ∈ l₁ ++ l₂, f' x = f x) :
    updateChain key data ((l₁ ++ p :: l₂).map f) = (l₁ ++ p :: l₂).map f' := by
  induction l₁ with
  | nil =>
    have hrest : l₂.map f' = l₂.map f := map_congr_left hsame
    rw [nil_append, map_cons, map_cons, updateChain, if_pos hp, hrest, hnew, ← hp]
  | cons x l₁ ih =>
    rw [cons_append, map_cons, map_cons, updateChain,
      if_neg (hbefore x mem_cons_self), hsame x (by simp)]
    refine congrArg (f x :: ·) (ih ?_ ?_)
    · exact fun y hy => hbefore y (mem_cons_of_mem x hy)
    · exact fun y hy => hsame y (mem_cons_of_mem x hy)

/-- Where nothing is copied, nothing shows. -/
theorem Shows.store_same (h : Shows c t [] chains free) {vpData : Option (ℕ → UInt8)} (p : Address)
    (hkeep : memcpy (c.fill vpData (c.memory p).data) c.data_len_ = memcpy (c.memory p).data c.data_len_) :
    Shows (c.store vpData p) t [] chains free
      ∧ (c.store vpData p).value p = t.value_FL (c.entry p) := by
  have hall : (c.store vpData p).entry = c.entry := by
    funext x
    by_cases hx : x = p
    · rw [hx, entry_store, hkeep]
      rfl
    · exact entry_write_of_ne c _ hx
  refine ⟨⟨h.laid.store vpData p, ?_, h.allocator, h.len, h.num, h.size⟩, ?_⟩
  · rw [hall]
    exact h.table
  · rw [value_store, hkeep, h.value_eq]
    rfl

/-- Where data is copied, one entry changes. -/
theorem Shows.store_new (h : Shows c t [] chains free) (data : ℕ → UInt8)
    (hi : chains[i]? = some (l₁ ++ p :: l₂)) (hbefore : ∀ x ∈ l₁, (c.memory x).key ≠ key)
    (hp : (c.memory p).key = key) :
    Shows (c.store (some data) p) { t with
        hash_table_ := t.hash_table_.set i
          (updateChain key (memcpy data t.data_len_) ((l₁ ++ p :: l₂).map c.entry)) } [] chains free
      ∧ (c.store (some data) p).value p = t.value_FL ⟨key, memcpy data t.data_len_⟩ := by
  have hothers := h.laid.notMem_others hi (mem_append_right l₁ mem_cons_self)
  have hnodup : (l₁ ++ p :: l₂).Nodup :=
    List.Nodup.of_append_left
      ((flatten_split hi).nodup_iff.mp (List.Nodup.of_append_left h.laid.nodup))
  have hself : (c.store (some data) p).entry p = ⟨key, memcpy data t.data_len_⟩ := by
    rw [entry_store, hp, memcpy_fill, h.len]
  have hrest : ∀ x ∈ l₁ ++ l₂, (c.store (some data) p).entry x = c.entry x := by
    intro x hx
    refine entry_write_of_ne c _ ?_
    intro heq
    rw [heq] at hx
    exact (nodup_cons.mp (nodup_middle.mp hnodup)).1 hx
  have hchain := updateChain_entries (f := c.entry) hbefore hp hself hrest
  have hother : ∀ x ∈ (chains.eraseIdx i).flatten, (c.store (some data) p).entry x = c.entry x :=
    fun x hx => entry_write_of_ne c _ (hothers x hx)
  have htable := table_set hi (l₁ ++ p :: l₂) hother
  rw [set_of_getElem? hi] at htable
  refine ⟨⟨h.laid.store (some data) p, ?_, h.allocator, h.len, h.num, h.size⟩, ?_⟩
  · show t.hash_table_.set i _ = _
    rw [hchain, h.table]
    exact htable.symm
  · rw [value_store, memcpy_fill, ← h.len]
    rfl

/-- **`updateKey_FL` is the update on lists.** -/
theorem Sim.updateKey_FL (h : Sim c t) (key : Key T) (vpData : Option (ℕ → UInt8)) (iIndex : ℤ) :
    Agree (c.updateKey_FL key vpData iIndex) (t.updateKey_FL key vpData iIndex) := by
  obtain ⟨chains, free, h⟩ := h
  unfold ChunkTable.updateKey_FL HashTable.updateKey_FL
  rw [h.index_eq]
  obtain ⟨hnone, hfind⟩ | ⟨l, hi, hl, ⟨hmiss, q, hfind⟩ |
      ⟨l₁, p, l₂, q, rfl, hhit, hfind, _, hbefore, hp⟩⟩ := h.find_cases key (c.index key iIndex)
  · rw [hnone, hfind]
    trivial
  · rw [hl, hfind]
    dsimp only
    rw [hmiss]
    exact ⟨rfl, chains, free, h⟩
  · rw [hl, hfind]
    dsimp only
    rw [hhit]
    cases vpData with
    | none =>
      obtain ⟨hshows, hvalue⟩ := h.store_same p (rfl : memcpy (c.fill none (c.memory p).data) c.data_len_ = _)
      exact ⟨by rw [hvalue], chains, free, hshows⟩
    | some data =>
      split_ifs with hpos
      · obtain ⟨hshows, hvalue⟩ := h.store_new data hi hbefore hp
        exact ⟨by rw [hvalue], chains, free, hshows⟩
      have hkeep : memcpy (c.fill (some data) (c.memory p).data) c.data_len_
          = memcpy (c.memory p).data c.data_len_ := by
        rw [h.len] at hpos
        unfold memcpy
        rw [Int.toNat_of_nonpos (by omega)]
        rfl
      obtain ⟨hshows, hvalue⟩ := h.store_same p hkeep
      exact ⟨by rw [hvalue], chains, free, hshows⟩

theorem unlink_frame (c : ChunkTable T) (i : ℕ) (q : Option Address) (p : Address) :
    ∃ ht mem, c.unlink i q p = { c with hash_table_ := ht, memory := mem } := by
  cases q with
  | none | some q => exact ⟨_, _, rfl⟩

theorem entry_unlink (c : ChunkTable T) (i : ℕ) (q : Option Address) (p : Address) :
    (c.unlink i q p).entry = c.entry := by
  cases q with
  | none => rfl
  | some q => exact entry_write_pointers c q (c.next p) (c.memory q).link

theorem entry_free (c : ChunkTable T) (p : Address) : (c.free p).entry = c.entry :=
  entry_write_pointers c p (c.next p) c.pRecycleLibrary

theorem deleteChain_entries (hbefore : ∀ x ∈ l₁, (f x).key ≠ key) (hp : (f p).key = key) :
    deleteChain key ((l₁ ++ p :: l₂).map f) = (l₁ ++ l₂).map f := by
  have hnone : ∀ e ∈ l₁.map f, ¬decide (e.key = key) = true := by
    intro e he
    obtain ⟨x, hx, rfl⟩ := mem_map.mp he
    rw [decide_eq_true_eq]
    exact hbefore x hx
  unfold deleteChain
  rw [map_append, eraseP_append_right _ hnone, map_cons,
    eraseP_cons_of_pos (by simpa using hp), map_append]

/-- **`deleteKey_FL` is the deletion on lists.** -/
theorem Sim.deleteKey_FL (h : Sim c t) (key : Key T) (iIndex : ℤ) :
    Agree (c.deleteKey_FL key iIndex) (t.deleteKey_FL key iIndex) := by
  obtain ⟨chains, free, h⟩ := h
  unfold ChunkTable.deleteKey_FL HashTable.deleteKey_FL
  rw [h.index_eq]
  obtain ⟨hnone, hfind⟩ | ⟨l, hi, hl, ⟨hmiss, q, hfind⟩ |
      ⟨l₁, p, l₂, q, rfl, hhit, hfind, hq, hbefore, hp⟩⟩ := h.find_cases key (c.index key iIndex)
  · rw [hnone, hfind]
    trivial
  · rw [hl, hfind]
    dsimp only
    rw [hmiss]
    exact ⟨rfl, chains, free, h⟩
  · rw [hl, hfind, h.allocator]
    dsimp only
    rw [hhit]
    refine ⟨rfl, chains.set (c.index key iIndex) (l₁ ++ l₂), p :: free, ?_⟩
    have hholds : c.blocks.holds p = true := by
      refine h.laid.within p (mem_append_left free (mem_flatten.mpr ⟨_, mem_of_getElem? hi, ?_⟩))
      exact mem_append_right l₁ mem_cons_self
    have hentry := entry_unlink c (c.index key iIndex) q p
    have hout := h.laid.unlink hi hq
    obtain ⟨ht, mem, hframe⟩ := unlink_frame c (c.index key iIndex) q p
    rw [hframe] at hout hentry ⊢
    have hback := (hout.write_out { mem p with next := none }).give_back hholds
    refine ⟨⟨hback.blocks, hback.length, hback.linked, hback.recycled, hback.count, hback.issued,
      hback.within⟩, ?_, rfl, h.len, ?_, h.size⟩
    · have hlast : ∀ d : ChunkTable T, d.entry = c.entry →
          ((d.write p { d.memory p with next := none }).free p).entry = c.entry := by
        intro d hd
        rw [entry_free, ← hd]
        exact entry_write_pointers d p none (d.memory p).link
      show t.hash_table_.set _ _ = List.map (List.map ((ChunkTable.free _ p).entry)) _
      rw [hlast _ hentry, h.table, deleteChain_entries hbefore hp, map_set]
    · show t.data_num_ - 1 = c.data_num_ - 1
      rw [h.num]

/-- The allocator of chunks counts as the allocator of `QHashSearch` does. -/
theorem Laid.alloc_eq (h : Laid c [] chains free) (heap : Heap) :
    QAllocatorRecycle.alloc heap ⟨c.blocks, c.mRecycleNum⟩
      = ((c.alloc heap).1.map (c.alloc heap).2.blocks.holds,
          ⟨(c.alloc heap).2.blocks, (c.alloc heap).2.mRecycleNum⟩) := by
  unfold QAllocatorRecycle.alloc ChunkTable.alloc
  have hcount := h.count
  cases hfree : free with
  | nil =>
    rw [hfree] at h hcount
    have hp : c.pRecycleLibrary = none := h.recycled
    rw [hp, if_neg (by simpa using hcount)]
  | cons p rest =>
    rw [hfree] at h hcount
    have hp : c.pRecycleLibrary = some p := h.recycled.1
    have hholds := h.within p (mem_append_right _ mem_cons_self)
    rw [hp, if_pos]
    · show _ = (some (c.blocks.holds p), _)
      rw [hholds]
    · show c.mRecycleNum ≠ 0
      rw [length_cons] at hcount
      omega

/-- After `alloc` the tables still agree. -/
theorem Shows.alloc (h : Shows c t [] chains free) {heap : Heap} {free' : List Address}
    (hlaid : Laid (c.alloc heap).2 out chains free') :
    Shows (c.alloc heap).2 { t with
      allocator_FL_ := some ⟨(c.alloc heap).2.blocks, (c.alloc heap).2.mRecycleNum⟩ }
      out chains free' := by
  refine ⟨hlaid, ?_, rfl, ?_, ?_, ?_⟩ <;> unfold ChunkTable.alloc <;> cases c.pRecycleLibrary
  · exact h.table
  · exact h.table
  · exact h.len
  · exact h.len
  · exact h.num
  · exact h.num
  · exact h.size
  · exact h.size

/-- `addKey_FL` writing its new chunk. -/
theorem Shows.push (h : Shows c t out chains free) (hp : out = [p]) (key : Key T)
    (vpData : Option (ℕ → UInt8)) (hi : chains[i]? = some l) (hholds : c.blocks.holds p = true) :
    Shows { c.write p { c.memory p with
          next := (c.hash_table_[i]?).join, key := key, data := c.fill vpData (c.memory p).data } with
        hash_table_ := c.hash_table_.set i (some p), data_num_ := c.data_num_ + 1 }
      { t with
        hash_table_ := t.hash_table_.set i
          (⟨key, memcpy (vpData.getD (c.memory p).data) t.data_len_⟩ :: l.map c.entry)
        data_num_ := t.data_num_ + 1 } [] (chains.set i (p :: l)) free
      ∧ (c.write p { c.memory p with
          next := (c.hash_table_[i]?).join, key := key, data := c.fill vpData (c.memory p).data }).value p
        = t.value_FL ⟨key, memcpy (vpData.getD (c.memory p).data) t.data_len_⟩ := by
  have hlaid := h.laid
  rw [hp] at hlaid
  obtain ⟨head, hhead, _⟩ := hlaid.linked i l hi
  have hfresh : ∀ q ∈ chains.flatten, q ≠ p :=
    fun q hq => hlaid.out_ne q (mem_append_left _ hq)
  have hwritten := hlaid.write_out { c.memory p with
    next := (c.hash_table_[i]?).join, key := key, data := c.fill vpData (c.memory p).data }
  have hdata : memcpy (c.fill vpData (c.memory p).data) c.data_len_
      = memcpy (vpData.getD (c.memory p).data) t.data_len_ := by
    rw [h.len]
    cases vpData with
    | none => rfl
    | some data => exact memcpy_fill c data _
  refine ⟨⟨hwritten.push hi hhead ?_ hholds _, ?_, h.allocator, h.len, ?_, h.size⟩, ?_⟩
  · rw [next_write, update_self, hhead]
    rfl
  · have hsplit : ∀ q, q ∈ chains.flatten ↔ q ∈ l ++ (chains.eraseIdx i).flatten :=
      fun q => (flatten_split hi).mem_iff
    have hchain : ∀ x : Chunk T, l.map (c.write p x).entry = l.map c.entry := by
      intro x
      refine map_congr_left (fun q hq => entry_write_of_ne c x (hfresh q ?_))
      exact (hsplit q).mpr (mem_append_left _ hq)
    have hothers : ∀ x : Chunk T, ∀ q ∈ (chains.eraseIdx i).flatten,
        (c.write p x).entry q = c.entry q := by
      intro x q hq
      exact entry_write_of_ne c x (hfresh q ((hsplit q).mpr (mem_append_right l hq)))
    show t.hash_table_.set i _ = List.map (List.map (c.write p _).entry) (chains.set i (p :: l))
    rw [table_set hi (p :: l) (hothers _), map_cons, entry_write_self, hchain, h.table, hdata]
  · show t.data_num_ + 1 = c.data_num_ + 1
    rw [h.num]
  · rw [value_write_self, hdata, ← h.len]
    rfl

/-- **`addKey_FL` is the insertion on lists**; `junk` is what the new chunk
    held before. -/
theorem Sim.addKey_FL (h : Sim c t) (heap : Heap) (key : Key T) (vpData : Option (ℕ → UInt8)) (iIndex : ℤ) :
    ∃ junk, Agree (c.addKey_FL heap key vpData iIndex) (t.addKey_FL heap key vpData junk iIndex) := by
  obtain ⟨chains, free, h⟩ := h
  unfold ChunkTable.addKey_FL HashTable.addKey_FL
  rw [h.index_eq]
  obtain ⟨hnone, hfind⟩ | ⟨l, hi, hl, ⟨hmiss, q, hfind⟩ |
      ⟨l₁, p, l₂, q, rfl, hhit, hfind, _, _, _⟩⟩ := h.find_cases key (c.index key iIndex)
  · refine ⟨fun _ => 0, ?_⟩
    rw [hnone, hfind]
    trivial
  · rw [hl, hfind, h.allocator]
    dsimp only
    rw [hmiss]
    rw [h.laid.alloc_eq heap]
    obtain ⟨hnull, hlaid⟩ | ⟨p, free', hgot, hlaid⟩ := h.laid.alloc heap
    · have hshows := h.alloc hlaid
      refine ⟨fun _ => 0, ?_⟩
      generalize c.alloc heap = result at hnull hshows ⊢
      obtain ⟨found, d⟩ := result
      cases hnull
      exact ⟨rfl, chains, free, hshows⟩
    have hshows := h.alloc hlaid
    have hindex : (c.alloc heap).2.index key iIndex = c.index key iIndex := by
      unfold ChunkTable.index ChunkTable.alloc
      cases c.pRecycleLibrary <;> rfl
    have hentry : (c.alloc heap).2.entry = c.entry := by
      unfold ChunkTable.alloc
      cases c.pRecycleLibrary <;> rfl
    refine ⟨((c.alloc heap).2.memory p).data, ?_⟩
    generalize c.alloc heap = result at hgot hshows hindex hentry ⊢
    obtain ⟨found, d⟩ := result
    cases hgot
    dsimp only [map_some] at hshows hindex hentry ⊢
    cases hholds : d.blocks.holds p with
    | false => trivial
    | true =>
      obtain ⟨hpush, hvalue⟩ := hshows.push rfl key vpData hi hholds
      have hwritten : ∀ x : Chunk T, (d.write p x).index key iIndex = c.index key iIndex :=
        fun _ => hindex
      rw [hentry] at hpush
      rw [hindex, hwritten]
      exact ⟨by rw [hvalue]; rfl, _, _, hpush⟩
  · refine ⟨fun _ => 0, ?_⟩
    rw [hl, hfind]
    dsimp only
    rw [hhit]
    exact ⟨by rw [h.value_eq], chains, free, h⟩

/-- Empty buckets over blocks of which nothing is handed out. -/
theorem laid_empty (hblocks : c.blocks.Sound) (hhanded : c.blocks.handed = 0)
    (hbuckets : ∀ h ∈ c.hash_table_, h = none) (hrecycle : c.pRecycleLibrary = none)
    (hnum : c.mRecycleNum = 0) : Laid c [] (c.hash_table_.map (fun _ => [])) [] := by
  have hflat : (c.hash_table_.map (fun _ => ([] : List Address))).flatten = [] := by
    rw [map_const', flatten_replicate_nil]
  refine ⟨hblocks, length_map .., ?_, hrecycle, hnum, ?_, ?_⟩
  · intro i l hl
    rw [getElem?_map, map_eq_some_iff] at hl
    obtain ⟨h, hh, rfl⟩ := hl
    exact ⟨h, hh, hbuckets h (mem_of_getElem? hh)⟩
  · rw [hflat]
    unfold ChunkBlocks.issued
    rw [hhanded]
    exact List.Perm.refl _
  · rw [hflat]
    intro p hp
    exact absurd hp not_mem_nil

/-- **`clear` empties both.** -/
theorem Sim.clear (h : Sim c t) : Agree c.clear t.clear := by
  obtain ⟨chains, free, h⟩ := h
  have hlen := h.laid.length
  have htable := h.table
  unfold ChunkTable.clear HashTable.clear
  cases hc : c.hash_table_ with
  | nil =>
    rw [hc] at hlen
    have hnil : chains = [] := length_eq_zero_iff.mp hlen
    rw [hnil] at htable
    rw [htable]
    trivial
  | cons b bs =>
    rw [hc] at hlen
    obtain ⟨l, ls, rfl⟩ : ∃ l ls, chains = l :: ls := exists_cons_of_length_eq_add_one hlen
    rw [htable, h.allocator]
    obtain ⟨hreset, hzero⟩ := h.laid.blocks.reset
    refine ⟨rfl, _, _, laid_empty hreset hzero ?_ rfl rfl, ?_, rfl, h.len, rfl, h.size⟩
    · intro x hx
      obtain ⟨_, _, rfl⟩ := mem_map.mp hx
      rfl
    · show List.map (fun _ => []) (List.map (List.map c.entry) (l :: ls))
        = List.map (List.map _) (List.map (fun _ => []) (List.map (fun _ => none) (b :: bs)))
      rw [List.map_map, List.map_map, List.map_map]
      have hleft : List.map ((fun _ => []) ∘ List.map c.entry) (l :: ls)
          = List.replicate (l :: ls).length ([] : List (HashEntry T)) := map_const' ..
      rw [hleft, hlen]
      exact (map_const' ..).symm

/-- A table just set up. -/
theorem sim_init {memory : Address → Chunk T} {bucket_size data_len : ℤ} (hlen : 0 ≤ data_len)
    (hinit : ChunkTable.init memory bucket_size data_len = some c) :
    Sim c ((HashTable.new T).init bucket_size data_len).2 := by
  unfold ChunkTable.init at hinit
  unfold HashTable.init
  rw [if_neg (by omega)]
  cases hb : ChunkBlocks.init (8 + T.size + data_len) with
  | none =>
    rw [hb] at hinit
    contradiction
  | some b =>
    rw [hb] at hinit
    cases hinit
    obtain ⟨hsound, hhanded, _⟩ := ChunkBlocks.sound_init hb
    refine ⟨_, [], laid_empty hsound hhanded ?_ rfl rfl, ?_, rfl, rfl, rfl, rfl⟩
    · exact fun h hh => eq_of_mem_replicate hh
    · show List.replicate bucket_size.toNat []
        = List.map (List.map _) (List.map (fun _ => []) (List.replicate bucket_size.toNat none))
      rw [map_replicate, map_replicate]
      rfl

/-! ## §6. No chunk is in two places. -/

/-- The chunks of the chain that begins at a pointer. -/
def chain (c : ChunkTable T) (h : Option Address) : List Address :=
  collect c.next (c.blocks.handed.toNat + 1) h

/-- The chunks of all buckets. -/
def live (c : ChunkTable T) : List Address := c.hash_table_.flatMap c.chain

/-- The chunks that came back. -/
def recycled (c : ChunkTable T) : List Address :=
  collect c.link (c.blocks.handed.toNat + 1) c.pRecycleLibrary

/-- Every bucket is a chain that ends, so is the list of the chunks that came
    back, no chunk is twice in them, and those the blocks have yet to hand out
    (after `clear`: all) are in none of them. -/
structure Separate (c : ChunkTable T) : Prop where
  buckets : ∀ h ∈ c.hash_table_, Linked c.next h (c.chain h)
  back : Linked c.link c.pRecycleLibrary c.recycled
  once : (c.live ++ c.recycled).Nodup
  fresh : ∀ n, c.blocks.handed ≤ n → c.blocks.chunkAt n ∉ c.live ++ c.recycled

/-- The chains read back from the pointers. -/
theorem Laid.collect_eq (h : Laid c [] chains free) : c.live = chains.flatten ∧ c.recycled = free
      ∧ ∀ b ∈ c.hash_table_, Linked c.next b (c.chain b) := by
  have hall := h.issued.length_eq
  rw [ChunkBlocks.length_issued, length_append, length_append, length_nil] at hall
  have hchain : ∀ (i : ℕ) l b, chains[i]? = some l → c.hash_table_[i]? = some b →
      c.chain b = l ∧ Linked c.next b l := by
    intro i l b hl hb
    obtain ⟨b', hb', hlink⟩ := h.linked i l hl
    rw [hb] at hb'
    cases hb'
    have hle := h.chain_length (mem_of_getElem? hl)
    exact ⟨hlink.collect_eq (by omega), hlink⟩
  have hmap : c.hash_table_.map c.chain = chains := by
    refine ext_getElem? ?_
    intro i
    rw [getElem?_map]
    cases hb : c.hash_table_[i]? with
    | none =>
      have hlen := h.length
      rw [getElem?_eq_none_iff] at hb
      rw [map_none, eq_comm, getElem?_eq_none_iff]
      omega
    | some b =>
      have hlt := (List.getElem?_eq_some_iff.mp hb).1
      rw [← h.length] at hlt
      have hl := getElem?_eq_getElem hlt
      rw [map_some, hl, (hchain i _ b hl hb).1]
  refine ⟨?_, h.recycled.collect_eq (by omega), ?_⟩
  · unfold live
    rw [flatMap_def, hmap]
  · intro b hb
    obtain ⟨i, hi⟩ := mem_iff_getElem?.mp hb
    have hlt := (List.getElem?_eq_some_iff.mp hi).1
    rw [← h.length] at hlt
    have hl := hchain i _ b (getElem?_eq_getElem hlt) hi
    rw [hl.1]
    exact hl.2

/-- **The chains are disjoint.** -/
theorem Laid.separate (h : Laid c [] chains free) : Separate c := by
  obtain ⟨hlive, hback, hbuckets⟩ := h.collect_eq
  refine ⟨hbuckets, ?_, ?_, ?_⟩
  · rw [hback]
    exact h.recycled
  · rw [hlive, hback]
    exact h.nodup
  · intro n hn
    rw [hlive, hback]
    intro hmem
    exact h.blocks.chunkAt_notMem_issued hn (h.issued.mem_iff.mp hmem)

theorem Sim.separate (h : Sim c t) : Separate c := by
  obtain ⟨chains, free, h⟩ := h
  exact h.laid.separate

end ChunkTable

end KalavaPir.Common
