/-
  KalavaPir.Common.QAllocator — the two allocators of `common/qallocator.h`.

  `QAllocator` hands out pieces of any length from blocks of `mMaxBlockLen`
  bytes, one block after the other; a piece that no longer fits begins the next
  block.  `QAllocatorRecycle` hands out chunks of one size from blocks of
  `mMaxChunkNum` chunks and takes chunks back.  An address is a block number
  and an offset in the block.  Every block and the index of the blocks come
  from `q_new_array`, whose outcome is an argument here; its parameter is a
  `uint32_t`, so a block of 2³² bytes or more is cut to its low 32 bits.

  The chunks that came back are only COUNTED here; `QHashChunks` has their list.
-/
import Mathlib.Tactic.Ring

namespace KalavaPir.Common

/-! ## §1. Memory for the blocks. -/

/-- How `q_new_array` answers the two requests an `alloc` can make. -/
structure Heap where
  library : Bool
  block : Bool
  deriving DecidableEq, Repr

/-- Both requests are met. -/
def Heap.ample : Heap := ⟨true, true⟩

/-- `pBlockLibrary`: `none` for NULL, else which blocks are there. -/
abbrev BlockLibrary : Type := Option (ℤ → Bool)

/-- `if(pBlockLibrary==NULL)`: the index of the blocks, all NULL at first;
    `none` when there is no memory for it. -/
def blockLibrary (heap : Heap) : BlockLibrary → BlockLibrary
  | some lib => some lib
  | none => if heap.library then some (fun _ => false) else none

/-! ## §2. `QAllocator`. -/

/-- `QAllocator<char>`. -/
structure QAllocator where
  mMaxBlockNum : ℤ
  mMaxBlockLen : ℤ
  mNowBlockNum : ℤ
  mNowBlockLen : ℤ
  mTotalLen : ℤ
  pBlockLibrary : BlockLibrary

namespace QAllocator

/-- `QAllocator(maxBlockNum=2000, maxBlockLen=1<<20)`. -/
def new : QAllocator := ⟨2000, 1048576, -1, 1048576, 0, none⟩

/-- The piece at the end of the used part of the current block. -/
def place (a : QAllocator) (allocLen : ℤ) : Option (ℤ × ℤ) × QAllocator :=
  (some (a.mNowBlockNum, a.mNowBlockLen),
    { a with mNowBlockLen := a.mNowBlockLen + allocLen, mTotalLen := a.mTotalLen + allocLen })

/-- `alloc(allocLen)`; `none` for NULL. -/
def alloc (heap : Heap) (a : QAllocator) (allocLen : ℤ) : Option (ℤ × ℤ) × QAllocator :=
  match blockLibrary heap a.pBlockLibrary with
  | none => (none, a)
  | some lib =>
    let a := { a with pBlockLibrary := some lib }
    if a.mMaxBlockLen - a.mNowBlockLen < allocLen then
      if a.mMaxBlockLen < allocLen then (none, a)
      else if a.mMaxBlockNum ≤ a.mNowBlockNum + 1 then (none, a)
      else if !lib (a.mNowBlockNum + 1) && !heap.block then (none, a)
      else
        place { a with
          mNowBlockNum := a.mNowBlockNum + 1
          mNowBlockLen := 0
          pBlockLibrary := some (fun n => n == a.mNowBlockNum + 1 || lib n) } allocLen
    else place a allocLen

/-- `resetAllocator()`: the blocks stay. -/
def resetAllocator (a : QAllocator) : QAllocator :=
  { a with mNowBlockNum := -1, mNowBlockLen := a.mMaxBlockLen, mTotalLen := 0 }

/-- Pieces of these lengths, asked for in this order, are all handed out. -/
def packs (a : QAllocator) : List ℤ → Bool
  | [] => true
  | n :: ns =>
    match a.alloc .ample n with
    | (some _, a) => packs a ns
    | (none, _) => false

variable {a : QAllocator} {n : ℤ}

theorem packs_of_none (h : (a.alloc .ample n).1 = none) (ns : List ℤ) : a.packs (n :: ns) = false := by
  unfold packs
  cases hp : a.alloc .ample n with
  | mk p a' =>
    rw [hp] at h
    have hnone : p = none := h
    rw [hnone]

theorem packs_of_some (h : (a.alloc .ample n).1.isSome = true) (ns : List ℤ) :
    a.packs (n :: ns) = (a.alloc .ample n).2.packs ns := by
  rw [packs]
  cases hp : a.alloc .ample n with
  | mk p a' =>
    rw [hp] at h
    cases p with
    | none => contradiction
    | some q => rfl

/-- The allocator as its constructor set it up, and every piece handed out
    paid for by the blocks in use. -/
structure Sound (a : QAllocator) : Prop where
  blocks : a.mMaxBlockNum = 2000
  length : a.mMaxBlockLen = 1048576
  now : -1 ≤ a.mNowBlockNum ∧ a.mNowBlockNum < 2000
  used : 0 ≤ a.mNowBlockLen ∧ a.mNowBlockLen ≤ 1048576
  unopened : a.mNowBlockNum = -1 → a.mNowBlockLen = 1048576
  paid : a.mTotalLen ≤ a.mNowBlockNum * 1048576 + a.mNowBlockLen

theorem sound_new : Sound new := ⟨rfl, rfl, by decide, by decide, fun _ => rfl, by decide⟩

theorem Sound.reset (h : Sound a) : Sound a.resetAllocator where
  blocks := h.blocks
  length := h.length
  now := by
    show (-1 : ℤ) ≤ -1 ∧ (-1 : ℤ) < 2000
    decide
  used := by
    show 0 ≤ a.mMaxBlockLen ∧ a.mMaxBlockLen ≤ 1048576
    rw [h.length]
    decide
  unopened := fun _ => h.length
  paid := by
    show (0 : ℤ) ≤ -1 * 1048576 + a.mMaxBlockLen
    rw [h.length]
    decide

theorem Sound.total_le (h : Sound a) : a.mTotalLen ≤ 2000 * 1048576 := by
  have hpaid := h.paid
  have hnow := h.now
  have hused := h.used
  omega

theorem Sound.place (h : Sound a) (hn : 0 ≤ n) (hfit : n ≤ 1048576 - a.mNowBlockLen) :
    Sound (a.place n).2 where
  blocks := h.blocks
  length := h.length
  now := h.now
  used := by
    have hused := h.used
    show 0 ≤ a.mNowBlockLen + n ∧ a.mNowBlockLen + n ≤ 1048576
    omega
  unopened := by
    intro hnow
    have hnow' : a.mNowBlockNum = -1 := hnow
    have hlen := h.unopened hnow'
    show a.mNowBlockLen + n = 1048576
    omega
  paid := by
    have hpaid := h.paid
    show a.mTotalLen + n ≤ a.mNowBlockNum * 1048576 + (a.mNowBlockLen + n)
    omega

/-- What `alloc` can do to a sound allocator: it hands out the piece and counts
    it, or it hands out nothing and counts nothing. -/
theorem Sound.alloc (h : Sound a) (heap : Heap) (hn : 0 < n) : Sound (a.alloc heap n).2 ∧
      (((a.alloc heap n).1.isSome ∧ n ≤ 1048576 ∧ (a.alloc heap n).2.mTotalLen = a.mTotalLen + n) ∨
        ((a.alloc heap n).1 = none ∧ (a.alloc heap n).2.mTotalLen = a.mTotalLen)) := by
  have hnow := h.now
  have hused := h.used
  have hlen := h.length
  have hnum := h.blocks
  unfold QAllocator.alloc
  cases blockLibrary heap a.pBlockLibrary with
  | none => exact ⟨h, Or.inr ⟨rfl, rfl⟩⟩
  | some lib =>
    have hopened : Sound { a with pBlockLibrary := some lib } :=
      ⟨h.blocks, h.length, h.now, h.used, h.unopened, h.paid⟩
    dsimp only
    split_ifs with hroom hlong hfull hmem
    · exact ⟨hopened, Or.inr ⟨rfl, rfl⟩⟩
    · exact ⟨hopened, Or.inr ⟨rfl, rfl⟩⟩
    · exact ⟨hopened, Or.inr ⟨rfl, rfl⟩⟩
    · -- a new block: what is left of the old one is given up
      have hnext : Sound { a with
          mNowBlockNum := a.mNowBlockNum + 1
          mNowBlockLen := 0
          pBlockLibrary := some (fun m => m == a.mNowBlockNum + 1 || lib m) } := by
        have hpaid := h.paid
        refine ⟨h.blocks, h.length, ?_, ?_, ?_, ?_⟩
        · show -1 ≤ a.mNowBlockNum + 1 ∧ a.mNowBlockNum + 1 < 2000
          omega
        · show (0 : ℤ) ≤ 0 ∧ (0 : ℤ) ≤ 1048576
          decide
        · intro hbad
          have hbad' : a.mNowBlockNum + 1 = -1 := hbad
          omega
        · show a.mTotalLen ≤ (a.mNowBlockNum + 1) * 1048576 + 0
          omega
      refine ⟨hnext.place (Int.le_of_lt hn) ?_, Or.inl ⟨rfl, ?_, rfl⟩⟩
      · show n ≤ 1048576 - 0
        omega
      · omega
    · refine ⟨hopened.place (Int.le_of_lt hn) ?_, Or.inl ⟨rfl, ?_, rfl⟩⟩
      · show n ≤ 1048576 - a.mNowBlockLen
        omega
      · omega

/-- Where the used part of the current block ends. -/
def cursor (a : QAllocator) : ℤ × ℤ := (a.mNowBlockNum, a.mNowBlockLen)

/-- Where a piece goes from a cursor; `none` if there is no room for it. -/
def spot (c : ℤ × ℤ) (n : ℤ) : Option (ℤ × ℤ) :=
  if n ≤ 1048576 - c.2 then some c
  else if n ≤ 1048576 ∧ c.1 + 1 < 2000 then some (c.1 + 1, 0)
  else none

/-- **With memory at hand only the cursor counts.** -/
theorem Sound.alloc_spot (h : Sound a) (n : ℤ) : (a.alloc .ample n).1 = spot a.cursor n ∧
      (a.alloc .ample n).2.cursor = ((spot a.cursor n).map (fun p => (p.1, p.2 + n))).getD a.cursor := by
  have hlen := h.length
  have hnum := h.blocks
  have hlib : ∃ lib, blockLibrary .ample a.pBlockLibrary = some lib := by
    cases a.pBlockLibrary with
    | none => exact ⟨_, rfl⟩
    | some lib => exact ⟨_, rfl⟩
  obtain ⟨lib, hlib⟩ := hlib
  have hspot : spot a.cursor n = if n ≤ 1048576 - a.mNowBlockLen then some a.cursor
      else if n ≤ 1048576 ∧ a.mNowBlockNum + 1 < 2000 then some (a.mNowBlockNum + 1, 0) else none := rfl
  rw [hspot]
  unfold QAllocator.alloc
  rw [hlib]
  dsimp only
  by_cases hroom : n ≤ 1048576 - a.mNowBlockLen
  · rw [if_neg (by omega : ¬ a.mMaxBlockLen - a.mNowBlockLen < n), if_pos hroom]
    exact ⟨rfl, rfl⟩
  rw [if_pos (by omega : a.mMaxBlockLen - a.mNowBlockLen < n), if_neg hroom]
  by_cases hlong : n ≤ 1048576
  · rw [if_neg (by omega : ¬ a.mMaxBlockLen < n)]
    by_cases hfull : a.mNowBlockNum + 1 < 2000
    · have hmem : ¬ (!lib (a.mNowBlockNum + 1) && !Heap.ample.block) = true := by
        rw [show Heap.ample.block = true from rfl, Bool.not_true, Bool.and_false]
        decide
      rw [if_neg (by omega : ¬ a.mMaxBlockNum ≤ a.mNowBlockNum + 1), if_neg hmem, if_pos ⟨hlong, hfull⟩]
      exact ⟨rfl, rfl⟩
    · rw [if_pos (by omega : a.mMaxBlockNum ≤ a.mNowBlockNum + 1), if_neg (fun hand => hfull hand.2)]
      exact ⟨rfl, rfl⟩
  · rw [if_pos (by omega : a.mMaxBlockLen < n), if_neg (fun hand => hlong hand.1)]
    exact ⟨rfl, rfl⟩

/-- Where the cursor is after pieces of these lengths. -/
def cursorAfter (c : ℤ × ℤ) : List ℤ → Option (ℤ × ℤ)
  | [] => some c
  | n :: ns =>
    match spot c n with
    | none => none
    | some p => cursorAfter (p.1, p.2 + n) ns

theorem cursorAfter_append (ns ns' : List ℤ) :
    ∀ c : ℤ × ℤ, cursorAfter c (ns ++ ns') = (cursorAfter c ns).bind (fun c' => cursorAfter c' ns') := by
  induction ns with
  | nil => exact fun _ => rfl
  | cons n ns ih =>
    intro c
    have hcons : ∀ ls, cursorAfter c (n :: ls) =
        match spot c n with
        | none => none
        | some p => cursorAfter (p.1, p.2 + n) ls := fun _ => rfl
    rw [List.cons_append, hcons, hcons]
    cases spot c n with
    | none => rfl
    | some p => exact ih _

end QAllocator

/-! ## §3. `QAllocatorRecycle`. -/

/-- The blocks of a `QAllocatorRecycle` and its place in them. -/
structure ChunkBlocks where
  mNowChunkNum : ℤ
  mMaxChunkNum : ℤ
  mNowBlockLen : ℤ
  mMaxBlockLen : ℤ
  mChunkSize : ℤ
  mNowBlockNum : ℤ
  mMaxBlockNum : ℤ
  mAllocNum : ℤ
  pBlockLibrary : BlockLibrary

namespace ChunkBlocks

/-- `init(lChunkSize, lMaxBlockNum=1000000, lPerAllocChunkNum=1000)`, which
    refuses (−1, `none`) a chunk size that is not positive; a chunk has a
    pointer in front of the caller's bytes. -/
def init (lChunkSize : ℤ) : Option ChunkBlocks :=
  if lChunkSize ≤ 0 then none
  else some
    { mNowChunkNum := 1000, mMaxChunkNum := 1000, mNowBlockLen := 0
      mMaxBlockLen := 1000 * (lChunkSize + 8), mChunkSize := lChunkSize + 8
      mNowBlockNum := -1, mMaxBlockNum := 1000000, mAllocNum := 0, pBlockLibrary := none }

/-- The chunk at the end of the used part of the current block. -/
def place (b : ChunkBlocks) : Option (ℤ × ℤ) × ChunkBlocks :=
  (some (b.mNowBlockNum, b.mNowBlockLen),
    { b with
      mNowBlockLen := b.mNowBlockLen + b.mChunkSize
      mNowChunkNum := b.mNowChunkNum + 1
      mAllocNum := b.mAllocNum + 1 })

/-- `alloc()` from where nothing is left to recycle: the base address of a
    chunk never handed out before, `none` for NULL. -/
def carve (heap : Heap) (b : ChunkBlocks) : Option (ℤ × ℤ) × ChunkBlocks :=
  match blockLibrary heap b.pBlockLibrary with
  | none => (none, b)
  | some lib =>
    let b := { b with pBlockLibrary := some lib }
    if b.mNowChunkNum = b.mMaxChunkNum then
      if b.mMaxBlockNum ≤ b.mNowBlockNum + 1 then (none, b)
      else if !lib (b.mNowBlockNum + 1) && !heap.block then (none, b)
      else
        place { b with
          mNowBlockNum := b.mNowBlockNum + 1
          mNowBlockLen := 0
          mNowChunkNum := 0
          pBlockLibrary := some (fun n => n == b.mNowBlockNum + 1 || lib n) }
    else place b

/-- `resetAllocator()`: the blocks stay. -/
def resetAllocator (b : ChunkBlocks) : ChunkBlocks :=
  { b with mNowChunkNum := b.mMaxChunkNum, mNowBlockLen := 0, mNowBlockNum := -1, mAllocNum := 0 }

/-- The bytes `q_new_array` really gives a block. -/
def blockBytes (b : ChunkBlocks) : ℤ := b.mMaxBlockLen % 4294967296

/-- The chunk at `p` lies in its block. -/
def holds (b : ChunkBlocks) (p : ℤ × ℤ) : Bool := p.2 + b.mChunkSize ≤ b.blockBytes

/-- How many chunks have been carved since the last reset. -/
def handed (b : ChunkBlocks) : ℤ := b.mNowBlockNum * 1000 + b.mNowChunkNum

/-- The address of chunk number `n`. -/
def chunkAt (b : ChunkBlocks) (n : ℤ) : ℤ × ℤ := (n / 1000, n % 1000 * b.mChunkSize)

/-- The most chunks there can be. -/
def capacity : ℤ := 1000000000

/-- The allocator as `init` set it up, with its place in the blocks. -/
structure Sound (b : ChunkBlocks) : Prop where
  chunks : b.mMaxChunkNum = 1000
  blocks : b.mMaxBlockNum = 1000000
  size : 0 < b.mChunkSize
  length : b.mMaxBlockLen = 1000 * b.mChunkSize
  now : -1 ≤ b.mNowBlockNum ∧ b.mNowBlockNum < 1000000
  used : 0 ≤ b.mNowChunkNum ∧ b.mNowChunkNum ≤ 1000
  unopened : b.mNowBlockNum = -1 → b.mNowChunkNum = 1000
  offset : b.mNowChunkNum < 1000 → b.mNowBlockLen = b.mNowChunkNum * b.mChunkSize

variable {b : ChunkBlocks}

theorem sound_init {n : ℤ} (h : init n = some b) : Sound b ∧ b.handed = 0 ∧ b.mChunkSize = n + 8 ∧ 0 < n := by
  unfold init at h
  split_ifs at h with hn
  cases h
  refine ⟨⟨rfl, rfl, ?_, rfl, ?_, ?_, fun _ => rfl, ?_⟩, rfl, rfl, by omega⟩
  · show 0 < n + 8
    omega
  · show (-1 : ℤ) ≤ -1 ∧ (-1 : ℤ) < 1000000
    decide
  · show (0 : ℤ) ≤ 1000 ∧ (1000 : ℤ) ≤ 1000
    decide
  · intro hbad
    have hbad' : (1000 : ℤ) < 1000 := hbad
    omega

theorem Sound.reset (h : Sound b) : Sound b.resetAllocator ∧ b.resetAllocator.handed = 0 := by
  refine ⟨⟨h.chunks, h.blocks, h.size, h.length, ?_, ?_, fun _ => h.chunks, ?_⟩, ?_⟩
  · show (-1 : ℤ) ≤ -1 ∧ (-1 : ℤ) < 1000000
    decide
  · show 0 ≤ b.mMaxChunkNum ∧ b.mMaxChunkNum ≤ 1000
    rw [h.chunks]
    decide
  · intro hlt
    have hlt' : b.mMaxChunkNum < 1000 := hlt
    rw [h.chunks] at hlt'
    omega
  · show -1 * 1000 + b.mMaxChunkNum = 0
    rw [h.chunks]
    rfl

theorem Sound.handed_bounds (h : Sound b) : 0 ≤ b.handed ∧ b.handed ≤ capacity := by
  have hnow := h.now
  have hused := h.used
  have hun := h.unopened
  unfold handed capacity
  omega

/-- What `place` does in a block that is open. -/
theorem Sound.place (h : Sound b) (hnow : 0 ≤ b.mNowBlockNum) (hlt : b.mNowChunkNum < 1000) :
    (b.place).1 = some (b.chunkAt b.handed) ∧ Sound (b.place).2
      ∧ (b.place).2.handed = b.handed + 1 ∧ (b.place).2.mChunkSize = b.mChunkSize := by
  have hused := h.used
  have hoff := h.offset hlt
  refine ⟨?_, ⟨h.chunks, h.blocks, h.size, h.length, h.now, ?_, ?_, ?_⟩, ?_, rfl⟩
  · have hdiv : b.handed / 1000 = b.mNowBlockNum := by unfold handed; omega
    have hmod : b.handed % 1000 = b.mNowChunkNum := by unfold handed; omega
    unfold ChunkBlocks.place chunkAt
    rw [hdiv, hmod, hoff]
  · show 0 ≤ b.mNowChunkNum + 1 ∧ b.mNowChunkNum + 1 ≤ 1000
    omega
  · intro hbad
    have hbad' : b.mNowBlockNum = -1 := hbad
    omega
  · intro _
    show b.mNowBlockLen + b.mChunkSize = (b.mNowChunkNum + 1) * b.mChunkSize
    rw [hoff]
    ring
  · show b.mNowBlockNum * 1000 + (b.mNowChunkNum + 1) = b.mNowBlockNum * 1000 + b.mNowChunkNum + 1
    omega

/-- What `carve` can do: the next chunk, or none and the blocks as they were. -/
theorem Sound.carve (h : Sound b) (heap : Heap) :
    Sound (b.carve heap).2 ∧ (b.carve heap).2.mChunkSize = b.mChunkSize ∧
      (((b.carve heap).1 = some (b.chunkAt b.handed) ∧ (b.carve heap).2.handed = b.handed + 1) ∨
        ((b.carve heap).1 = none ∧ (b.carve heap).2.handed = b.handed
          ∧ (b.handed = capacity ∨ heap ≠ .ample))) := by
  have hnow := h.now
  have hused := h.used
  have hun := h.unopened
  unfold ChunkBlocks.carve
  cases hlib : blockLibrary heap b.pBlockLibrary with
  | none =>
    refine ⟨h, rfl, Or.inr ⟨rfl, rfl, Or.inr ?_⟩⟩
    intro hample
    rw [hample] at hlib
    cases hb : b.pBlockLibrary with
    | none =>
      rw [hb] at hlib
      contradiction
    | some lib =>
      rw [hb] at hlib
      contradiction
  | some lib =>
    have hopened : Sound { b with pBlockLibrary := some lib } :=
      ⟨h.chunks, h.blocks, h.size, h.length, h.now, h.used, h.unopened, h.offset⟩
    have hchunks := h.chunks
    have hblocks := h.blocks
    dsimp only
    split_ifs with hblock hfull hmem
    · refine ⟨hopened, rfl, Or.inr ⟨rfl, rfl, Or.inl ?_⟩⟩
      unfold handed capacity
      omega
    · refine ⟨hopened, rfl, Or.inr ⟨rfl, rfl, Or.inr ?_⟩⟩
      intro hample
      rw [hample, Heap.ample] at hmem
      simp at hmem
    · -- the block is full: the next one begins
      have hnext : Sound { b with
          mNowBlockNum := b.mNowBlockNum + 1
          mNowBlockLen := 0
          mNowChunkNum := 0
          pBlockLibrary := some (fun n => n == b.mNowBlockNum + 1 || lib n) } := by
        refine ⟨h.chunks, h.blocks, h.size, h.length, ?_, ?_, ?_, ?_⟩
        · show -1 ≤ b.mNowBlockNum + 1 ∧ b.mNowBlockNum + 1 < 1000000
          omega
        · show (0 : ℤ) ≤ 0 ∧ (0 : ℤ) ≤ 1000
          decide
        · intro hbad
          have hbad' : b.mNowBlockNum + 1 = -1 := hbad
          omega
        · intro _
          exact (Int.zero_mul _).symm
      have hhanded : b.handed = (b.mNowBlockNum + 1) * 1000 + 0 := by
        unfold handed
        omega
      obtain ⟨hp, hs, hc, hz⟩ := hnext.place (by show 0 ≤ b.mNowBlockNum + 1; omega)
        (by show (0 : ℤ) < 1000; decide)
      refine ⟨hs, hz, Or.inl ⟨?_, ?_⟩⟩
      · rw [hp, hhanded]
        rfl
      · rw [hc, hhanded]
        rfl
    · obtain ⟨hp, hs, hc, hz⟩ := hopened.place (by show 0 ≤ b.mNowBlockNum; omega)
        (by show b.mNowChunkNum < 1000; omega)
      exact ⟨hs, hz, Or.inl ⟨hp, hc⟩⟩

/-- **Different chunks, different addresses.** -/
theorem chunkAt_inj (h : 0 < b.mChunkSize) {m n : ℤ} (heq : b.chunkAt m = b.chunkAt n) : m = n := by
  obtain ⟨hdiv, hmod⟩ := Prod.ext_iff.mp heq
  have hmod' : m % 1000 = n % 1000 := Int.eq_of_mul_eq_mul_right (by omega) hmod
  have hdiv' : m / 1000 = n / 1000 := hdiv
  omega

/-- A chunk lies in its block when the block has less than 2³² bytes. -/
theorem Sound.holds_chunkAt (h : Sound b) (hbytes : b.mMaxBlockLen < 4294967296) (n : ℤ) :
    b.holds (b.chunkAt n) = true := by
  have hsize := h.size
  have hlen := h.length
  have hbound : n % 1000 * b.mChunkSize ≤ 999 * b.mChunkSize :=
    Int.mul_le_mul_of_nonneg_right (by omega) (Int.le_of_lt hsize)
  unfold holds blockBytes chunkAt
  rw [decide_eq_true_eq, Int.emod_eq_of_lt (by omega) hbytes]
  show n % 1000 * b.mChunkSize + b.mChunkSize ≤ b.mMaxBlockLen
  omega

end ChunkBlocks

end KalavaPir.Common
