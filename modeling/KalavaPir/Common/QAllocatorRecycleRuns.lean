/-
  KalavaPir.Common.QAllocatorRecycleRuns — what `QAllocatorRecycle` of
  `common/qallocator.h` hands out, over whole runs, and both allocators together.

  A chunk begins with a pointer, behind which the caller's bytes are; the chunks
  that came back are linked through that pointer.  A run is any order of `alloc`,
  `free` of a chunk that is still out, and `resetAllocator` after an `init` that
  gave 0.  The owner of a chunk writes the bytes it was given, so the pointers
  change in `free` only; `mAllocNum` counts chunks and does not overflow.
-/
import KalavaPir.Common.Int64
import KalavaPir.Common.QAllocatorRuns
import KalavaPir.Common.QHashChunks

namespace KalavaPir.Common

open KalavaPir.Framework List Int

/-- `QAllocatorRecycle`: its blocks, the chunks that came back, and the pointers in
    front of the chunks. -/
structure ChunkRecycler where
  blocks : ChunkBlocks
  mRecycleNum : ℤ
  pRecycleLibrary : Option Address
  link : Address → Option Address

namespace ChunkRecycler

/-! ## §1. The operations. -/

/-- The constructor. -/
def new (link : Address → Option Address) : ChunkRecycler where
  blocks :=
    { mNowChunkNum := 0, mMaxChunkNum := 0, mNowBlockLen := 0, mMaxBlockLen := 0, mChunkSize := 0
      mNowBlockNum := 0, mMaxBlockNum := 0, mAllocNum := 0, pBlockLibrary := none }
  mRecycleNum := 0
  pRecycleLibrary := none
  link := link

/-- `init(lChunkSize, lMaxBlockNum, lPerAllocChunkNum)`: the size of a chunk is a
    `size_t` that becomes an `int64_t`; `none` where the product overflows. -/
def init (r : ChunkRecycler) (lChunkSize lMaxBlockNum lPerAllocChunkNum : ℤ) :
    Option (ℤ × ChunkRecycler) :=
  if lChunkSize ≤ 0 ∨ lMaxBlockNum ≤ 0 ∨ lPerAllocChunkNum ≤ 0 then some (-1, r)
  else
    let mChunkSize := Int.bmod (lChunkSize + 8) (2 ^ 64)
    (int64 (lPerAllocChunkNum * mChunkSize)).map fun mMaxBlockLen =>
      (0, { r with
        blocks :=
          { mNowChunkNum := lPerAllocChunkNum, mMaxChunkNum := lPerAllocChunkNum, mNowBlockLen := 0
            mMaxBlockLen := mMaxBlockLen, mChunkSize := mChunkSize, mNowBlockNum := -1
            mMaxBlockNum := lMaxBlockNum, mAllocNum := 0, pBlockLibrary := none }
        mRecycleNum := 0
        pRecycleLibrary := none })

/-- `alloc()`: the address of the pointer in front of the caller's bytes, `none`
    inside for NULL; `none` where it touches memory outside the index. -/
def alloc (heap : Heap) (r : ChunkRecycler) : Option (Option Address × ChunkRecycler) :=
  match r.pRecycleLibrary with
  | some p => some (some p, { r with pRecycleLibrary := r.link p, mRecycleNum := r.mRecycleNum - 1 })
  | none =>
    if Strays heap r.blocks.mMaxBlockNum r.blocks.mNowBlockNum r.blocks.pBlockLibrary
        (r.blocks.mNowChunkNum = r.blocks.mMaxChunkNum) then none
    else some ((r.blocks.carve heap).1, { r with blocks := (r.blocks.carve heap).2 })

/-- `free(buffer)`, of the chunk with its pointer at `p`. -/
def free (r : ChunkRecycler) (p : Address) : ChunkRecycler :=
  { r with
    link := Function.update r.link p r.pRecycleLibrary
    pRecycleLibrary := some p
    mRecycleNum := r.mRecycleNum + 1 }

/-- `resetAllocator()`: the blocks stay. -/
def resetAllocator (r : ChunkRecycler) : ChunkRecycler :=
  { r with blocks := r.blocks.resetAllocator, mRecycleNum := 0, pRecycleLibrary := none }

/-- The caller's bytes of a chunk. -/
def region (lChunkSize : ℤ) (p : Address) : Piece := ⟨p.1, p.2 + 8, lChunkSize⟩

/-- An allocator, and the chunks that are out, the last one first. -/
structure Lent where
  allocator : ChunkRecycler
  live : List Address

/-- `alloc()`: the chunk, if any, and what is out then. -/
def Lent.lend (heap : Heap) (s : Lent) : Option (Option Address × Lent) :=
  (s.allocator.alloc heap).map fun r =>
    match r.1 with
    | none => (none, { s with allocator := r.2 })
    | some p => (some p, ⟨r.2, p :: s.live⟩)

/-- The calls, with the address of a chunk that comes back. -/
inductive Call
  | alloc (heap : Heap)
  | free (p : Address)
  | resetAllocator

/-- A call; after a reset nothing is out. -/
def Lent.step (s : Lent) : Call → Option Lent
  | .alloc heap => (s.lend heap).map Prod.snd
  | .free p => some ⟨s.allocator.free p, s.live.erase p⟩
  | .resetAllocator => some ⟨s.allocator.resetAllocator, []⟩

/-- The calls of a run: a chunk that is given back is out. -/
def Lent.asked (s : Lent) : Call → Prop
  | .free p => p ∈ s.live
  | _ => True

/-- **WHAT AN `alloc` HAS TO DO**: it hands out a chunk whose bytes lie in its block
    and apart from all that is out, or nothing and all stays as it is; and nothing
    only if all chunks are out or a request for memory was refused. -/
structure Serves (lChunkSize lMaxBlockNum lPerAllocChunkNum : ℤ) (heap : Heap) (s : Lent)
    (r : Option Address) (s' : Lent) : Prop where
  piece : ∀ p ∈ r, HasBlock s'.allocator.blocks.pBlockLibrary p.1 ∧
    (region lChunkSize p).Inside (newSize s.allocator.blocks.mMaxBlockLen) ∧
    (∀ q ∈ s.live, (region lChunkSize p).Apart (region lChunkSize q)) ∧ s'.live = p :: s.live
  nothing : r = none → s'.live = s.live ∧
    s'.allocator.blocks.mNowBlockNum = s.allocator.blocks.mNowBlockNum ∧
    s'.allocator.blocks.mNowChunkNum = s.allocator.blocks.mNowChunkNum ∧
    s'.allocator.mRecycleNum = s.allocator.mRecycleNum
  space : r = none → (s.live.length : ℤ) < lMaxBlockNum * lPerAllocChunkNum →
    Refused heap s.allocator.blocks.pBlockLibrary (s.live.length / lPerAllocChunkNum)

/-- `mRecycleNum` is the length of the list of the chunks that came back. -/
def Counts (r : ChunkRecycler) : Prop :=
  ∃ free, Linked r.link r.pRecycleLibrary free ∧ r.mRecycleNum = free.length

/-- `init` gives 0, and in every run from there `mRecycleNum` is the length of the
    free list and every `alloc` is served. -/
def AllServed (lChunkSize lMaxBlockNum lPerAllocChunkNum : ℤ) : Prop :=
  ∀ link, ∃ r, (new link).init lChunkSize lMaxBlockNum lPerAllocChunkNum = some (0, r) ∧
    ∀ s, Reach Lent.step Lent.asked ⟨r, []⟩ s → s.allocator.Counts ∧ ∀ heap, ∃ p s',
      s.lend heap = some (p, s') ∧ Serves lChunkSize lMaxBlockNum lPerAllocChunkNum heap s p s'

/-- The index and the blocks have less than 2³² places. -/
def Sizes (lChunkSize lMaxBlockNum lPerAllocChunkNum : ℤ) : Prop :=
  lPerAllocChunkNum * (lChunkSize + 8) < 2 ^ 32 ∧ lMaxBlockNum < 2 ^ 32

instance (lChunkSize lMaxBlockNum lPerAllocChunkNum : ℤ) :
    Decidable (Sizes lChunkSize lMaxBlockNum lPerAllocChunkNum) := inferInstanceAs (Decidable (_ ∧ _))

/-! ## §2. Where the chunks are. -/

/-- How many chunks of the blocks were taken since the last reset. -/
def handed (p : ℤ) (b : ChunkBlocks) : ℤ := b.mNowBlockNum * p + b.mNowChunkNum

/-- The address of chunk number `n`, where a block has `p` chunks for `c` bytes. -/
def chunkAt (c p n : ℤ) : Address := (n / p, n % p * (c + 8))

/-- The blocks as `init` set them up, and their place in them: every block up to the
    current one is there, and the current one is begun. -/
structure Placed (c m p : ℤ) (b : ChunkBlocks) : Prop where
  chunks : b.mMaxChunkNum = p
  blocks : b.mMaxBlockNum = m
  size : b.mChunkSize = c + 8
  length : b.mMaxBlockLen = p * (c + 8)
  now : -1 ≤ b.mNowBlockNum ∧ b.mNowBlockNum < m
  used : 1 ≤ b.mNowChunkNum ∧ b.mNowChunkNum ≤ p
  unopened : b.mNowBlockNum = -1 → b.mNowChunkNum = p
  opened : ∀ k, 0 ≤ k → k ≤ b.mNowBlockNum → HasBlock b.pBlockLibrary k
  offset : b.mNowChunkNum < p → b.mNowBlockLen = b.mNowChunkNum * (c + 8)

section Chunks

variable {c m p j k n : ℤ} {b : ChunkBlocks}

theorem ediv_emod_of_lt (h0 : 0 ≤ k) (hlt : k < p) (j : ℤ) : (j * p + k) / p = j ∧ (j * p + k) % p = k := by
  rw [add_comm, add_mul_ediv_right k j (by omega), add_mul_emod_self_right,
    ediv_eq_zero_of_lt h0 hlt, emod_eq_of_lt h0 hlt]
  exact ⟨zero_add j, rfl⟩

theorem chunkAt_place (h0 : 0 ≤ k) (hlt : k < p) (j : ℤ) : chunkAt c p (j * p + k) = (j, k * (c + 8)) := by
  obtain ⟨hdiv, hmod⟩ := ediv_emod_of_lt h0 hlt j
  unfold chunkAt
  rw [hdiv, hmod]

theorem region_inside (hc : 0 < c) (hp : 0 < p) (n : ℤ) : (region c (chunkAt c p n)).Inside (p * (c + 8)) := by
  have hmod := emod_nonneg n (by omega : p ≠ 0)
  have hlt := emod_lt_of_pos n hp
  have hoff : 0 ≤ n % p * (c + 8) := mul_nonneg hmod (by omega)
  have hend : (n % p + 1) * (c + 8) ≤ p * (c + 8) := mul_le_mul_of_nonneg_right (by omega) (by omega)
  rw [add_mul, one_mul] at hend
  constructor
  · show 0 ≤ n % p * (c + 8) + 8
    omega
  · show n % p * (c + 8) + 8 + c ≤ p * (c + 8)
    omega

/-- **Different chunks are apart.** -/
theorem region_apart (hc : 0 < c) (hjk : j ≠ k) : (region c (chunkAt c p j)).Apart (region c (chunkAt c p k)) := by
  intro hblock
  have hdiv : j / p = k / p := hblock
  have hj := emod_add_mul_ediv j p
  have hk := emod_add_mul_ediv k p
  have hmod : j % p ≠ k % p := by
    intro hmod
    rw [hdiv, hmod] at hj
    exact hjk (hj.symm.trans hk)
  show j % p * (c + 8) + 8 + c ≤ k % p * (c + 8) + 8 ∨ k % p * (c + 8) + 8 + c ≤ j % p * (c + 8) + 8
  rcases lt_or_gt_of_ne hmod with hlt | hlt
  · left
    have hend : (j % p + 1) * (c + 8) ≤ k % p * (c + 8) := mul_le_mul_of_nonneg_right (by omega) (by omega)
    rw [add_mul, one_mul] at hend
    omega
  right
  have hend : (k % p + 1) * (c + 8) ≤ j % p * (c + 8) := mul_le_mul_of_nonneg_right (by omega) (by omega)
  rw [add_mul, one_mul] at hend
  omega

theorem chunkAt_inj (hc : 0 < c) (h : chunkAt c p j = chunkAt c p k) : j = k := by
  by_contra hne
  have hapart := region_apart (p := p) hc hne
  rw [h] at hapart
  rcases hapart rfl with hend | hend
  · have hend' : k % p * (c + 8) + 8 + c ≤ k % p * (c + 8) + 8 := hend
    omega
  · have hend' : k % p * (c + 8) + 8 + c ≤ k % p * (c + 8) + 8 := hend
    omega

theorem Placed.hasBlock (h : Placed c m p b) (hp : 0 < p) (h0 : 0 ≤ n) (hn : n < handed p b) :
    HasBlock b.pBlockLibrary (chunkAt c p n).1 := by
  have hused := h.used
  refine h.opened (n / p) (Int.ediv_nonneg h0 (by omega)) ?_
  have hlt : n / p < b.mNowBlockNum + 1 := by
    apply Int.ediv_lt_of_lt_mul hp
    unfold handed at hn
    rw [Int.add_mul, Int.one_mul]
    omega
  omega

/-- **WHAT `carve` DOES**: the next chunk is taken; or none, and the blocks are as
    they were, since all chunks were taken or a request was refused. -/
theorem Placed.carve (h : Placed c m p b) (hp : 0 < p) (heap : Heap) : Placed c m p (b.carve heap).2 ∧
      (((b.carve heap).1 = some (chunkAt c p (handed p b)) ∧ handed p (b.carve heap).2 = handed p b + 1) ∨
        ((b.carve heap).1 = none ∧ (b.carve heap).2.mNowBlockNum = b.mNowBlockNum ∧
          (b.carve heap).2.mNowChunkNum = b.mNowChunkNum ∧
          (handed p b = m * p ∨ Refused heap b.pBlockLibrary (handed p b / p)))) := by
  have hnow := h.now
  have hused := h.used
  have hun := h.unopened
  have hchunks := h.chunks
  have hblocks := h.blocks
  unfold ChunkBlocks.carve
  cases hlib : blockLibrary heap b.pBlockLibrary with
  | none => exact ⟨h, Or.inr ⟨rfl, rfl, rfl, Or.inr (Or.inl (blockLibrary_eq_none hlib))⟩⟩
  | some blocks =>
    have hkeep : ∀ k, HasBlock b.pBlockLibrary k ↔ blocks k = true := hasBlock_of_blockLibrary hlib
    have hopened : Placed c m p { b with pBlockLibrary := some blocks } :=
      ⟨h.chunks, h.blocks, h.size, h.length, h.now, h.used, h.unopened,
        fun k h0 hle => ⟨blocks, rfl, (hkeep k).mp (h.opened k h0 hle)⟩, h.offset⟩
    dsimp only
    by_cases hfull : b.mNowChunkNum = b.mMaxChunkNum
    · have hhanded : handed p b = (b.mNowBlockNum + 1) * p := by
        unfold handed
        rw [add_mul, one_mul, hfull, hchunks]
      rw [if_pos hfull]
      by_cases hlast : b.mMaxBlockNum ≤ b.mNowBlockNum + 1
      · rw [if_pos hlast]
        refine ⟨hopened, Or.inr ⟨rfl, rfl, rfl, Or.inl ?_⟩⟩
        rw [hhanded, show b.mNowBlockNum + 1 = m by omega]
      rw [if_neg hlast]
      by_cases hmem : (!blocks (b.mNowBlockNum + 1) && !heap.block) = true
      · rw [if_pos hmem]
        rw [Bool.and_eq_true, Bool.not_eq_true', Bool.not_eq_true'] at hmem
        refine ⟨hopened, Or.inr ⟨rfl, rfl, rfl, Or.inr (Or.inr ⟨fun hin => ?_, hmem.2⟩)⟩⟩
        rw [hhanded, mul_ediv_cancel _ (by omega), hkeep, hmem.1] at hin
        cases hin
      -- the block is full: the next one begins
      rw [if_neg hmem]
      refine ⟨⟨h.chunks, h.blocks, h.size, h.length, ?_, ?_, ?_, ?_, ?_⟩, Or.inl ⟨?_, ?_⟩⟩
      · show -1 ≤ b.mNowBlockNum + 1 ∧ b.mNowBlockNum + 1 < m
        omega
      · show 1 ≤ (0 : ℤ) + 1 ∧ (0 : ℤ) + 1 ≤ p
        omega
      · intro hbad
        have hbad' : b.mNowBlockNum + 1 = -1 := hbad
        omega
      · intro k h0 hle
        refine ⟨_, rfl, ?_⟩
        have hle' : k ≤ b.mNowBlockNum + 1 := hle
        show (k == b.mNowBlockNum + 1 || blocks k) = true
        by_cases hnext : k = b.mNowBlockNum + 1
        · rw [hnext, beq_self_eq_true, Bool.true_or]
        · rw [(hkeep k).mp (h.opened k h0 (by omega)), Bool.or_true]
      · intro _
        show 0 + b.mChunkSize = (0 + 1) * (c + 8)
        rw [h.size]
        omega
      · have hplace := chunkAt_place (c := c) (le_refl 0) hp (b.mNowBlockNum + 1)
        rw [add_zero, zero_mul] at hplace
        rw [hhanded, hplace]
        rfl
      · rw [hhanded]
        rfl
    · have hlt : b.mNowChunkNum < p := by omega
      rw [if_neg hfull]
      refine ⟨⟨h.chunks, h.blocks, h.size, h.length, h.now, ?_, ?_, hopened.opened, ?_⟩, Or.inl ⟨?_, ?_⟩⟩
      · show 1 ≤ b.mNowChunkNum + 1 ∧ b.mNowChunkNum + 1 ≤ p
        omega
      · intro hbad
        have hbad' : b.mNowBlockNum = -1 := hbad
        omega
      · intro _
        show b.mNowBlockLen + b.mChunkSize = (b.mNowChunkNum + 1) * (c + 8)
        rw [h.offset hlt, h.size, add_mul, one_mul]
      · unfold handed
        rw [chunkAt_place (by omega) hlt, ← h.offset hlt]
        rfl
      · show b.mNowBlockNum * p + (b.mNowChunkNum + 1) = b.mNowBlockNum * p + b.mNowChunkNum + 1
        omega

theorem Placed.reset (h : Placed c m p b) (hm : 0 < m) (hp : 0 < p) :
    Placed c m p b.resetAllocator ∧ handed p b.resetAllocator = 0 := by
  have hchunks := h.chunks
  refine ⟨⟨h.chunks, h.blocks, h.size, h.length, ?_, ?_, fun _ => h.chunks, ?_, ?_⟩, ?_⟩
  · show -1 ≤ (-1 : ℤ) ∧ (-1 : ℤ) < m
    omega
  · show 1 ≤ b.mMaxChunkNum ∧ b.mMaxChunkNum ≤ p
    omega
  · intro k h0 hle
    have hle' : k ≤ -1 := hle
    omega
  · intro hlt
    have hlt' : b.mMaxChunkNum < p := hlt
    omega
  · show -1 * p + b.mMaxChunkNum = 0
    omega

end Chunks

/-! ## §3. The runs. -/

section Lending

variable {c m p : ℤ} {heap : Heap} {s : Lent} {freed : List Address}

/-- **THE INVARIANT**: the chunks that are out and those on the free list are the
    chunks that were taken, each once. -/
structure Kept (c m p : ℤ) (s : Lent) (freed : List Address) : Prop where
  placed : Placed c m p s.allocator.blocks
  linked : Linked s.allocator.link s.allocator.pRecycleLibrary freed
  count : s.allocator.mRecycleNum = freed.length
  nodup : (s.live ++ freed).Nodup
  chunks : ∀ q ∈ s.live ++ freed, ∃ k, 0 ≤ k ∧ k < handed p s.allocator.blocks ∧ q = chunkAt c p k
  total : handed p s.allocator.blocks = s.live.length + freed.length

theorem init_spec (link : Address → Option Address) (hc : 0 < c) (hm : 0 < m) (hp : 0 < p)
    (hsize : c + 8 < 2 ^ 32) :
    (new link).init c m p = (int64 (p * (c + 8))).map fun mMaxBlockLen =>
      (0, { new link with
        blocks :=
          { mNowChunkNum := p, mMaxChunkNum := p, mNowBlockLen := 0, mMaxBlockLen := mMaxBlockLen
            mChunkSize := c + 8, mNowBlockNum := -1, mMaxBlockNum := m, mAllocNum := 0
            pBlockLibrary := none } }) := by
  have hwrap : Int.bmod (c + 8) (2 ^ 64) = c + 8 := bmod_eq_of_le_mul_two (by omega) (by omega)
  unfold init
  rw [if_neg (by omega), hwrap]
  rfl

variable {link : Address → Option Address} {r : ChunkRecycler}

theorem kept_init (hc : 0 < c) (hm : 0 < m) (hp : 0 < p) (hsize : c + 8 < 2 ^ 32)
    (h : (new link).init c m p = some (0, r)) : Kept c m p ⟨r, []⟩ [] := by
  rw [init_spec link hc hm hp hsize] at h
  obtain ⟨mMaxBlockLen, hlen, hr⟩ := Option.map_eq_some_iff.mp h
  obtain ⟨-, hlen⟩ := int64_eq_some hlen
  cases hr
  refine ⟨⟨rfl, rfl, rfl, hlen, ?_, ?_, fun _ => rfl, ?_, ?_⟩, rfl, rfl, nodup_nil, nofun, ?_⟩
  · show -1 ≤ (-1 : ℤ) ∧ (-1 : ℤ) < m
    omega
  · show 1 ≤ p ∧ p ≤ p
    omega
  · intro k h0 hle
    have hle' : k ≤ -1 := hle
    omega
  · intro hlt
    have hlt' : p < p := hlt
    omega
  · show -1 * p + p = ((0 : ℕ) : ℤ) + ((0 : ℕ) : ℤ)
    omega

variable {q : Address}

/-- A chunk that is given back is the first of the free list. -/
theorem Kept.free (h : Kept c m p s freed) (hq : q ∈ s.live) :
    Kept c m p ⟨s.allocator.free q, s.live.erase q⟩ (q :: freed) := by
  have hperm : (s.live.erase q ++ q :: freed).Perm (s.live ++ freed) :=
    perm_middle.trans ((perm_cons_erase hq).symm.append_right freed)
  refine ⟨h.placed, ⟨rfl, ?_⟩, ?_, hperm.nodup_iff.mpr h.nodup, fun x hx => h.chunks x (hperm.mem_iff.mp hx), ?_⟩
  · show Linked (Function.update s.allocator.link q s.allocator.pRecycleLibrary)
      (Function.update s.allocator.link q s.allocator.pRecycleLibrary q) freed
    rw [Function.update_self]
    refine h.linked.congr fun x hx => Function.update_of_ne ?_ _ _
    intro hxq
    rw [hxq] at hx
    exact (nodup_append.mp h.nodup).2.2 q hq q hx rfl
  · show s.allocator.mRecycleNum + 1 = ((freed.length + 1 : ℕ) : ℤ)
    rw [h.count, Nat.cast_succ]
  · have hlen := hperm.length_eq
    rw [length_append, length_append] at hlen
    have htotal := h.total
    show handed p s.allocator.blocks = ((s.live.erase q).length : ℤ) + ((q :: freed).length : ℤ)
    omega

theorem Kept.reset (h : Kept c m p s freed) (hm : 0 < m) (hp : 0 < p) :
    Kept c m p ⟨s.allocator.resetAllocator, []⟩ [] := by
  obtain ⟨hplaced, hhanded⟩ := h.placed.reset hm hp
  exact ⟨hplaced, rfl, rfl, nodup_nil, nofun, hhanded⟩

/-- A chunk of the free list is handed out again. -/
theorem lend_recycled {rest : List Address} (h : Kept c m p s (q :: rest)) (heap : Heap) :
    ∃ s', s.lend heap = some (some q, s') ∧ s'.live = q :: s.live ∧ Kept c m p s' rest := by
  obtain ⟨hhead, hrest⟩ := h.linked
  have hperm : (q :: s.live ++ rest).Perm (s.live ++ q :: rest) := perm_middle.symm
  unfold Lent.lend alloc
  rw [hhead]
  refine ⟨_, rfl, rfl, h.placed, hrest, ?_, hperm.nodup_iff.mpr h.nodup,
    fun x hx => h.chunks x (hperm.mem_iff.mp hx), ?_⟩
  · show s.allocator.mRecycleNum - 1 = rest.length
    rw [h.count, length_cons, Nat.cast_succ, Int.add_sub_cancel]
  · have htotal := h.total
    rw [length_cons] at htotal
    show handed p s.allocator.blocks = ((s.live.length + 1 : ℕ) : ℤ) + rest.length
    omega

/-- Where nothing came back, the next chunk is handed out, or none. -/
theorem lend_carved (hc : 0 < c) (hp : 0 < p) (h : Kept c m p s []) (heap : Heap)
    (hin : ¬ Strays heap s.allocator.blocks.mMaxBlockNum s.allocator.blocks.mNowBlockNum
      s.allocator.blocks.pBlockLibrary (s.allocator.blocks.mNowChunkNum = s.allocator.blocks.mMaxChunkNum)) :
    ∃ r s', s.lend heap = some (r, s') ∧ Kept c m p s' [] ∧
      ((r = some (chunkAt c p s.live.length) ∧ s'.live = chunkAt c p s.live.length :: s.live) ∨
        (r = none ∧ s'.live = s.live ∧
          s'.allocator.blocks.mNowBlockNum = s.allocator.blocks.mNowBlockNum ∧
          s'.allocator.blocks.mNowChunkNum = s.allocator.blocks.mNowChunkNum ∧
          s'.allocator.mRecycleNum = s.allocator.mRecycleNum ∧
          ((s.live.length : ℤ) = m * p ∨
            Refused heap s.allocator.blocks.pBlockLibrary (s.live.length / p)))) := by
  have hhead : s.allocator.pRecycleLibrary = none := h.linked
  have htotal : handed p s.allocator.blocks = s.live.length := h.total.trans (add_zero _)
  obtain ⟨hplaced, hcase⟩ := h.placed.carve hp heap
  rw [htotal] at hcase
  have hmem : ∀ q ∈ s.live, ∃ k, 0 ≤ k ∧ k < handed p s.allocator.blocks ∧ q = chunkAt c p k :=
    fun q hq => h.chunks q (mem_append_left _ hq)
  have hnodup : s.live.Nodup := (nodup_append.mp h.nodup).1
  unfold Lent.lend alloc
  rw [hhead]
  rw [if_neg hin, Option.map_some]
  rcases hcase with ⟨hgiven, hnext⟩ | ⟨hnone, hblock, hchunk, hwhy⟩
  · rw [hgiven]
    refine ⟨_, _, rfl, ⟨hplaced, rfl, h.count, ?_, ?_, ?_⟩, Or.inl ⟨rfl, rfl⟩⟩
    · show (chunkAt c p s.live.length :: s.live ++ []).Nodup
      rw [append_nil, nodup_cons]
      refine ⟨fun hold => ?_, hnodup⟩
      obtain ⟨k, -, hlt, heq⟩ := hmem _ hold
      have hk := chunkAt_inj hc heq
      omega
    · intro q hq
      show ∃ k, 0 ≤ k ∧ k < handed p (s.allocator.blocks.carve heap).2 ∧ q = chunkAt c p k
      rw [hnext]
      rcases mem_cons.mp hq with rfl | hq
      · exact ⟨s.live.length, Int.natCast_nonneg _, Int.lt_succ _, rfl⟩
      · obtain ⟨k, h0, hlt, heq⟩ := h.chunks q hq
        exact ⟨k, h0, by omega, heq⟩
    · show handed p (s.allocator.blocks.carve heap).2 = ((s.live.length + 1 : ℕ) : ℤ) + ((0 : ℕ) : ℤ)
      omega
  · rw [hnone]
    have hsame : handed p (s.allocator.blocks.carve heap).2 = handed p s.allocator.blocks := by
      unfold handed
      rw [hblock, hchunk]
    refine ⟨_, _, rfl, ⟨hplaced, rfl, h.count, h.nodup, ?_, hsame.trans h.total⟩,
      Or.inr ⟨rfl, rfl, hblock, hchunk, rfl, hwhy⟩⟩
    intro q hq
    show ∃ k, 0 ≤ k ∧ k < handed p (s.allocator.blocks.carve heap).2 ∧ q = chunkAt c p k
    rw [hsame]
    exact h.chunks q hq

theorem not_strays (hm : 0 < m) (hindex : m < 2 ^ 32) (h : Kept c m p s freed) :
    ¬ Strays heap s.allocator.blocks.mMaxBlockNum s.allocator.blocks.mNowBlockNum
      s.allocator.blocks.pBlockLibrary
      (s.allocator.blocks.mNowChunkNum = s.allocator.blocks.mMaxChunkNum) := by
  have hnum := h.placed.blocks
  rintro (⟨-, -, hout⟩ | ⟨-, -, hlt, hout⟩)
  · rw [hnum] at hout
    exact hout (memsetFits_of_lt (by omega) hindex)
  · rw [hnum] at hlt hout
    rw [newSize_of_lt (by omega) hindex] at hout
    omega

/-- A chunk that is handed out is apart from all that were out before it. -/
theorem Kept.apart {s' : Lent} (hc : 0 < c) (h : Kept c m p s' freed) (hlive : s'.live = q :: s.live) :
    ∀ x ∈ s.live, (region c q).Apart (region c x) := by
  intro x hx
  have hnodup := h.nodup
  rw [hlive, cons_append, nodup_cons] at hnodup
  obtain ⟨j, -, -, hj⟩ := h.chunks q (by rw [hlive]; exact mem_append_left _ mem_cons_self)
  obtain ⟨k, -, -, hk⟩ := h.chunks x (by
    rw [hlive]
    exact mem_append_left _ (mem_cons_of_mem q hx))
  rw [hj, hk]
  apply region_apart hc
  intro hjk
  apply hnodup.1
  rw [hj, hjk, ← hk]
  exact mem_append_left _ hx

/-- **AN `alloc`** inside the sizes does what it has to do and keeps the invariant. -/
theorem lend_spec (hc : 0 < c) (hm : 0 < m) (hp : 0 < p) (hsizes : Sizes c m p) (h : Kept c m p s freed)
    (heap : Heap) :
    ∃ r s' freed', s.lend heap = some (r, s') ∧ Serves c m p heap s r s' ∧ Kept c m p s' freed' := by
  have hroom : newSize s.allocator.blocks.mMaxBlockLen = p * (c + 8) := by
    have hpos : 0 ≤ p * (c + 8) := mul_nonneg (by omega) (by omega)
    rw [h.placed.length]
    exact newSize_of_lt hpos hsizes.1
  have hgiven : ∀ q s' freed', s'.live = q :: s.live → Kept c m p s' freed' → Serves c m p heap s (some q) s' := by
    intro q s' freed' hlive hkept
    obtain ⟨k, h0, hlt, hk⟩ := hkept.chunks q (by rw [hlive]; exact mem_append_left _ mem_cons_self)
    refine ⟨fun x hx => ?_, nofun, nofun⟩
    cases hx
    refine ⟨?_, ?_, hkept.apart hc hlive, hlive⟩
    · rw [hk]
      exact hkept.placed.hasBlock hp h0 hlt
    · rw [hroom, hk]
      exact region_inside hc hp k
  cases freed with
  | cons q rest =>
    obtain ⟨s', hlend, hlive, hkept⟩ := lend_recycled h heap
    exact ⟨some q, s', rest, hlend, hgiven q s' rest hlive hkept, hkept⟩
  | nil =>
    obtain ⟨r, s', hlend, hkept, hcase⟩ := lend_carved hc hp h heap (not_strays hm hsizes.2 h)
    rcases hcase with ⟨rfl, hlive⟩ | ⟨rfl, hlive, hblock, hchunk, hcount, hwhy⟩
    · exact ⟨_, s', [], hlend, hgiven _ s' [] hlive hkept, hkept⟩
    refine ⟨none, s', [], hlend, ⟨nofun, fun _ => ⟨hlive, hblock, hchunk, hcount⟩, fun _ hspace => ?_⟩, hkept⟩
    rcases hwhy with hall | hwhy
    · omega
    · exact hwhy

/-- Every run keeps the invariant. -/
theorem kept_of_reach {s₀ : Lent} (hc : 0 < c) (hm : 0 < m) (hp : 0 < p) (hsizes : Sizes c m p)
    (hstart : Kept c m p s₀ []) (h : Reach Lent.step Lent.asked s₀ s) : ∃ freed, Kept c m p s freed := by
  refine Reach.invariant (fun s => ∃ freed, Kept c m p s freed) ⟨[], hstart⟩ ?_ h
  rintro s l s' ⟨freed, hkept⟩ hok hstep
  cases l with
  | alloc heap =>
    obtain ⟨r, s₁, freed', hlend, -, hkept'⟩ := lend_spec hc hm hp hsizes hkept heap
    have hstep' : (s.lend heap).map Prod.snd = some s' := hstep
    rw [hlend] at hstep'
    cases hstep'
    exact ⟨freed', hkept'⟩
  | free q =>
    cases hstep
    exact ⟨q :: freed, hkept.free hok⟩
  | resetAllocator =>
    cases hstep
    exact ⟨[], hkept.reset hm hp⟩

/-- While the chunks that are out fill no more blocks than the index has places, an
    `alloc` stays inside. -/
theorem Kept.not_strays_of_lt (h : Kept c m p s []) (heap : Heap) (hp : 0 < p) (hfits : MemsetFits m)
    (hindex : (s.live.length : ℤ) < newSize m * p) :
    ¬ Strays heap s.allocator.blocks.mMaxBlockNum s.allocator.blocks.mNowBlockNum
      s.allocator.blocks.pBlockLibrary
      (s.allocator.blocks.mNowChunkNum = s.allocator.blocks.mMaxChunkNum) := by
  have hnum := h.placed.blocks
  rintro (⟨-, -, hout⟩ | ⟨-, hfull, -, hout⟩)
  · exact hout (hnum ▸ hfits)
  · have htotal : handed p s.allocator.blocks = s.live.length := h.total.trans (add_zero _)
    unfold handed at htotal
    rw [hfull, h.placed.chunks] at htotal
    rw [hnum] at hout
    have hle : newSize m * p ≤ (s.allocator.blocks.mNowBlockNum + 1) * p :=
      mul_le_mul_of_nonneg_right hout (by omega)
    rw [add_mul, one_mul] at hle
    omega

theorem Kept.next_chunk (hc : 0 < c) (hp : 0 < p) (hfits : MemsetFits m) (h : Kept c m p s [])
    (hn : (s.live.length : ℤ) < m * p) (hindex : (s.live.length : ℤ) < newSize m * p) :
    ∃ s', s.lend .ample = some (some (chunkAt c p s.live.length), s') ∧ Kept c m p s' [] ∧
      s'.live.length = s.live.length + 1 := by
  have hin := h.not_strays_of_lt .ample hp hfits hindex
  obtain ⟨r, s', hlend, hkept, hcase⟩ := lend_carved hc hp h .ample hin
  rcases hcase with ⟨rfl, hlive⟩ | ⟨-, -, -, -, -, hwhy⟩
  · exact ⟨s', hlend, hkept, by rw [hlive, length_cons]⟩
  rcases hwhy with hall | ⟨-, hno⟩ | ⟨-, hno⟩
  · omega
  · cases hno
  · cases hno

/-- As many chunks can be taken as the blocks of the index have. -/
theorem exists_taken {s₀ : Lent} (hc : 0 < c) (hp : 0 < p) (hfits : MemsetFits m) (hstart : Kept c m p s₀ [])
    (hempty : s₀.live = []) (n : ℕ) (hn : (n : ℤ) ≤ m * p) (hindex : (n : ℤ) ≤ newSize m * p) :
    ∃ s, Reach Lent.step Lent.asked s₀ s ∧ Kept c m p s [] ∧ s.live.length = n := by
  induction n with
  | zero => exact ⟨s₀, Reach.start, hstart, by rw [hempty]; rfl⟩
  | succ n ih =>
    obtain ⟨s, hreach, hkept, hlen⟩ := ih (by omega) (by omega)
    obtain ⟨s', hlend, hkept', hlen'⟩ := hkept.next_chunk hc hp hfits (by omega) (by omega)
    have hstep : s.step (.alloc .ample) = some s' := by
      show (s.lend .ample).map Prod.snd = some s'
      rw [hlend]
      rfl
    exact ⟨s', hreach.next (l := .alloc .ample) trivial hstep, hkept', by rw [hlen', hlen]⟩

theorem lend_of_strays (hhead : s.allocator.pRecycleLibrary = none)
    (h : Strays heap s.allocator.blocks.mMaxBlockNum s.allocator.blocks.mNowBlockNum
      s.allocator.blocks.pBlockLibrary
      (s.allocator.blocks.mNowChunkNum = s.allocator.blocks.mMaxChunkNum)) : s.lend heap = none := by
  unfold Lent.lend alloc
  rw [hhead]
  rw [if_pos h]
  rfl

/-- Where an `init` that gave 0 leaves the allocator: in front of all blocks. -/
theorem recycler_init_blocks {link : Address → Option Address} {r : ChunkRecycler} (hc : 0 < c) (hm : 0 < m) (hp : 0 < p)
    (h : (new link).init c m p = some (0, r)) :
    r.pRecycleLibrary = none ∧ r.blocks.pBlockLibrary = none ∧ r.blocks.mMaxBlockNum = m ∧
      r.blocks.mNowBlockNum = -1 ∧ r.blocks.mNowChunkNum = r.blocks.mMaxChunkNum := by
  unfold init at h
  rw [if_neg (by omega)] at h
  obtain ⟨mMaxBlockLen, -, hr⟩ := Option.map_eq_some_iff.mp h
  cases hr
  exact ⟨rfl, rfl, rfl, rfl, rfl⟩

/-- The first chunk begins the first block, whatever its size. -/
theorem first_chunk {q : Option Address} {s' : Lent} (hc : 0 < c) (hm : 0 < m) (hp : 0 < p)
    (hinit : (new link).init c m p = some (0, r)) (h : Lent.lend .ample ⟨r, []⟩ = some (q, s')) :
    q = some (0, 0) ∧ MemsetFits m ∧ 1 ≤ newSize m := by
  obtain ⟨hhead, hlib, hnum, hnow, hfull⟩ := recycler_init_blocks hc hm hp hinit
  have hin : ¬ Strays .ample r.blocks.mMaxBlockNum r.blocks.mNowBlockNum r.blocks.pBlockLibrary
      (r.blocks.mNowChunkNum = r.blocks.mMaxChunkNum) := by
    intro hstrays
    rw [lend_of_strays hhead hstrays] at h
    cases h
  refine ⟨?_, ?_, ?_⟩
  · have hcarve : (r.blocks.carve .ample).1 = some (0, 0) := by
      have hmem : ¬ (!(fun _ : ℤ => false) (r.blocks.mNowBlockNum + 1) && !Heap.ample.block) = true := by
        show ¬ (!false && !true) = true
        decide
      unfold ChunkBlocks.carve
      rw [show blockLibrary .ample r.blocks.pBlockLibrary = some fun _ => false by rw [hlib]; rfl]
      dsimp only
      rw [if_pos hfull, if_neg (by omega), if_neg hmem, hnow]
      rfl
    unfold Lent.lend alloc at h
    rw [hhead] at h
    rw [if_neg hin, Option.map_some, hcarve] at h
    cases h
    rfl
  · by_contra hout
    exact hin (Or.inl ⟨hlib, rfl, by rw [hnum]; exact hout⟩)
  · by_contra hout
    refine hin (Or.inr ⟨?_, hfull, ?_, ?_⟩)
    · rw [hlib]
      rfl
    · omega
    · rw [hnum]
      omega

/-- Where all chunks of the blocks in the index are out, an `alloc` strays, if there
    should be more blocks. -/
theorem Kept.strays_of_full (hp : 0 < p) (h : Kept c m p s []) (hmore : newSize m < m)
    (hall : (s.live.length : ℤ) = newSize m * p) : s.lend .ample = none := by
  have htotal : handed p s.allocator.blocks = newSize m * p := by
    rw [← hall]
    exact h.total.trans (add_zero _)
  have hused := h.placed.used
  have hnum := h.placed.blocks
  have hchunks := h.placed.chunks
  -- the current block is the last one of the index, and it is full
  have hrest : s.allocator.blocks.mNowChunkNum = (newSize m - s.allocator.blocks.mNowBlockNum) * p := by
    unfold handed at htotal
    rw [sub_mul]
    omega
  have hlast : newSize m - s.allocator.blocks.mNowBlockNum = 1 := by
    by_contra hne
    rcases lt_or_gt_of_ne hne with hlt | hgt
    · have hle : (newSize m - s.allocator.blocks.mNowBlockNum) * p ≤ 0 * p :=
        mul_le_mul_of_nonneg_right (by omega) (by omega)
      omega
    · have hle : 2 * p ≤ (newSize m - s.allocator.blocks.mNowBlockNum) * p :=
        mul_le_mul_of_nonneg_right (by omega) (by omega)
      omega
  rw [hlast, one_mul] at hrest
  refine lend_of_strays h.linked (Or.inr ⟨?_, by omega, by omega, by rw [hnum]; omega⟩)
  cases s.allocator.blocks.pBlockLibrary with
  | none => rfl
  | some blocks => rfl

/-- Every run of a `QAllocatorRecycle` is served exactly for the sizes that
    `q_new_array` takes whole. -/
theorem served_iff (hc : 0 < c) (hm : 0 < m) (hp : 0 < p) : AllServed c m p ↔ Sizes c m p := by
  constructor
  · intro hall
    obtain ⟨r, hinit, hserved⟩ := hall fun _ => none
    obtain ⟨q, s', hlend, hserves⟩ := (hserved _ Reach.start).2 .ample
    obtain ⟨rfl, hfits, hone⟩ := first_chunk hc hm hp hinit hlend
    -- the first chunk lies in its block
    have hsize : c + 8 < 2 ^ 32 := by
      obtain ⟨-, ⟨-, hin⟩, -, -⟩ := hserves.piece _ rfl
      have hin' : 0 + 8 + c ≤ newSize r.blocks.mMaxBlockLen := hin
      have hbound := (newSize_bounds r.blocks.mMaxBlockLen).2
      omega
    have hkept := kept_init hc hm hp hsize hinit
    have hp_le : p ≤ m * p := by
      have hle : 1 * p ≤ m * p := mul_le_mul_of_nonneg_right hm (by omega)
      omega
    have hp_le' : p ≤ newSize m * p := by
      have hle : 1 * p ≤ newSize m * p := mul_le_mul_of_nonneg_right hone (by omega)
      omega
    constructor
    · by_contra hlong
      -- the first chunk of the first block that does not lie in it
      have hroom := newSize_bounds (p * (c + 8))
      have hpos : 0 ≤ newSize (p * (c + 8)) / (c + 8) := ediv_nonneg hroom.1 (by omega)
      have hlt : newSize (p * (c + 8)) / (c + 8) < p := Int.ediv_lt_of_lt_mul (by omega) (by omega)
      have hend := lt_ediv_add_one_mul_self (newSize (p * (c + 8))) (by omega : 0 < c + 8)
      obtain ⟨s, hreach, hkept', hlen⟩ := exists_taken hc hp hfits hkept rfl
        (newSize (p * (c + 8)) / (c + 8)).toNat (by omega) (by omega)
      have hnum : (s.live.length : ℤ) = newSize (p * (c + 8)) / (c + 8) := by omega
      obtain ⟨s₁, hlend₁, -, -⟩ := hkept'.next_chunk hc hp hfits (by omega) (by omega)
      obtain ⟨q, s₂, hlend₂, hserves₂⟩ := (hserved s hreach).2 .ample
      rw [hlend₁] at hlend₂
      cases hlend₂
      obtain ⟨-, ⟨-, hin⟩, -, -⟩ := hserves₂.piece _ rfl
      rw [hkept'.placed.length] at hin
      have hin' : (s.live.length : ℤ) % p * (c + 8) + 8 + c ≤ newSize (p * (c + 8)) := hin
      rw [hnum, emod_eq_of_lt hpos hlt] at hin'
      rw [add_mul, one_mul] at hend
      omega
    · by_contra hlong
      -- the index has fewer places than there should be blocks
      have hindex := newSize_bounds m
      have hle : newSize m * p ≤ m * p := mul_le_mul_of_nonneg_right (by omega) (by omega)
      have hpos : 0 ≤ newSize m * p := mul_nonneg hindex.1 (by omega)
      obtain ⟨s, hreach, hkept', hlen⟩ := exists_taken hc hp hfits hkept rfl (newSize m * p).toNat
        (by omega) (by omega)
      obtain ⟨q, s₂, hlend₂, -⟩ := (hserved s hreach).2 .ample
      rw [hkept'.strays_of_full hp (by omega) (by omega)] at hlend₂
      cases hlend₂
  · intro hsizes link
    have hpos : 1 * (c + 8) ≤ p * (c + 8) := mul_le_mul_of_nonneg_right hp (by omega)
    have hsize : c + 8 < 2 ^ 32 := by
      have hroom := hsizes.1
      omega
    have hint : IsInt64 (p * (c + 8)) := by
      have hroom := hsizes.1
      exact isInt64_iff.mpr (by omega)
    have hinit := init_spec link hc hm hp hsize
    rw [int64_of_isInt64 hint, Option.map_some] at hinit
    refine ⟨_, hinit, fun s hreach => ?_⟩
    obtain ⟨freed, hkept⟩ := kept_of_reach hc hm hp hsizes (kept_init hc hm hp hsize hinit) hreach
    refine ⟨⟨freed, hkept.linked, hkept.count⟩, fun heap => ?_⟩
    obtain ⟨r, s', freed', hlend, hserves, -⟩ := lend_spec hc hm hp hsizes hkept heap
    exact ⟨r, s', hlend, hserves⟩

end Lending

end ChunkRecycler

/-! ## §4. Both allocators. -/

/-- **THE MEMORY HANDED OUT IS DISJOINT**: every run of a `QAllocator` is served
    exactly for the sizes of `QAllocator.Sizes`, and every run of a
    `QAllocatorRecycle` exactly for those of `ChunkRecycler.Sizes`; else an `alloc`
    touches memory outside the index, or a piece is not inside its block. -/
theorem allocators_disjoint_iff (maxBlockNum maxBlockLen lChunkSize lMaxBlockNum lPerAllocChunkNum : ℤ) :
    (QAllocator.AllServed maxBlockNum maxBlockLen ↔ QAllocator.Sizes maxBlockNum maxBlockLen) ∧
      (0 < lChunkSize → 0 < lMaxBlockNum → 0 < lPerAllocChunkNum →
        (ChunkRecycler.AllServed lChunkSize lMaxBlockNum lPerAllocChunkNum ↔
          ChunkRecycler.Sizes lChunkSize lMaxBlockNum lPerAllocChunkNum)) :=
  ⟨QAllocator.served_iff maxBlockNum maxBlockLen, fun hc hm hp => ChunkRecycler.served_iff hc hm hp⟩

/-- With the sizes the constructor and `init` take by default every run is served. -/
theorem allocators_disjoint_default :
    QAllocator.AllServed 2000 1048576 ∧ ChunkRecycler.AllServed 1048576 1000000 1000 :=
  ⟨(allocators_disjoint_iff 2000 1048576 1048576 1000000 1000).1.mpr (by decide),
    ((allocators_disjoint_iff 2000 1048576 1048576 1000000 1000).2 (by decide) (by decide) (by decide)).mpr
      (by decide)⟩

/-- The first piece of `QAllocator(1, 1LL<<32)` for its whole block is not inside it,
    since the block has no bytes. -/
theorem whole_block_outside : ¬ QAllocator.AllServed 1 4294967296 := by
  intro hall
  obtain ⟨r, s', hlend, hserves⟩ := hall _ Reach.start .ample 4294967296 (by decide)
  have hgiven : (QAllocator.Lent.lend .ample ⟨QAllocator.make 1 4294967296, []⟩ 4294967296).map Prod.fst =
      some (some ⟨0, 0, 4294967296⟩) := rfl
  rw [hlend] at hgiven
  obtain ⟨-, -, hin, -, -⟩ := hserves.piece _ (Option.some.inj hgiven)
  exact absurd hin (by decide)

end KalavaPir.Common
