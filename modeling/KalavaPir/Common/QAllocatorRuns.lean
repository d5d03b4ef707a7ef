/-
  KalavaPir.Common.QAllocatorRuns — what `QAllocator` of `common/qallocator.h`
  hands out, over whole runs.

  A run is any order of `alloc` and `resetAllocator`, where every `q_new_array` is
  answered in any way.  Beside the allocator a state lists the pieces that are out
  since the last reset.  The index of the blocks, too, comes from `q_new_array`,
  whose parameter is a `uint32_t`, while the `memset` behind it takes the full
  size.  `mTotalLen` counts what memory holds and does not overflow.
-/
import KalavaPir.Common.QAllocator
import KalavaPir.Framework.Runs

namespace KalavaPir.Common

open KalavaPir.Framework

/-! ## §1. Pieces of blocks, and the index of the blocks. -/

/-- A piece of a block: where it begins, and how long it is. -/
structure Piece where
  block : ℤ
  off : ℤ
  len : ℤ
  deriving DecidableEq

namespace Piece

/-- The piece lies in a block of this length. -/
def Inside (room : ℤ) (p : Piece) : Prop := 0 ≤ p.off ∧ p.off + p.len ≤ room

instance (room : ℤ) (p : Piece) : Decidable (p.Inside room) := inferInstanceAs (Decidable (_ ∧ _))

/-- The pieces have no place in common. -/
def Apart (p q : Piece) : Prop := p.block = q.block → p.off + p.len ≤ q.off ∨ q.off + q.len ≤ p.off

end Piece

/-- What `q_new_array` gives that is asked for `size` elements: its parameter is a
    `uint32_t`. -/
def newSize (size : ℤ) : ℤ := size % 2 ^ 32

/-- The bytes that `memset(pBlockLibrary, 0, mMaxBlockNum*sizeof(void*))` sets are
    in the index. -/
def MemsetFits (mMaxBlockNum : ℤ) : Prop := mMaxBlockNum * 8 % 2 ^ 64 ≤ newSize mMaxBlockNum * 8

instance (mMaxBlockNum : ℤ) : Decidable (MemsetFits mMaxBlockNum) := inferInstanceAs (Decidable (_ ≤ _))

/-- An `alloc` touches memory outside the index: when a new one is set to 0, or at
    `pBlockLibrary[mNowBlockNum+1]`, if the next block is `entered`. -/
def Strays (heap : Heap) (mMaxBlockNum mNowBlockNum : ℤ) (lib : BlockLibrary) (entered : Prop) : Prop :=
  (lib = none ∧ heap.library = true ∧ ¬ MemsetFits mMaxBlockNum) ∨
    ((blockLibrary heap lib).isSome = true ∧ entered ∧ mNowBlockNum + 1 < mMaxBlockNum ∧
      newSize mMaxBlockNum ≤ mNowBlockNum + 1)

instance (heap : Heap) (mMaxBlockNum mNowBlockNum : ℤ) (lib : BlockLibrary) (entered : Prop)
    [Decidable entered] : Decidable (Strays heap mMaxBlockNum mNowBlockNum lib entered) := by
  unfold Strays
  infer_instance

/-- Block `k` is there. -/
def HasBlock (lib : BlockLibrary) (k : ℤ) : Prop := ∃ blocks, lib = some blocks ∧ blocks k = true

/-- A request that an `alloc` makes is refused. -/
def Refused (heap : Heap) (lib : BlockLibrary) (next : ℤ) : Prop :=
  (lib = none ∧ heap.library = false) ∨ (¬ HasBlock lib next ∧ heap.block = false)

section Index

variable {num : ℤ} {heap : Heap} {lib : BlockLibrary}

theorem newSize_of_lt (h0 : 0 ≤ num) (hlt : num < 2 ^ 32) : newSize num = num := by
  unfold newSize
  omega

theorem memsetFits_of_lt (h0 : 0 ≤ num) (hlt : num < 2 ^ 32) : MemsetFits num := by
  unfold MemsetFits
  rw [newSize_of_lt h0 hlt]
  omega

theorem newSize_bounds (num : ℤ) : 0 ≤ newSize num ∧ newSize num < 2 ^ 32 := by
  unfold newSize
  omega

theorem blockLibrary_eq_none (h : blockLibrary heap lib = none) : lib = none ∧ heap.library = false := by
  cases lib with
  | some blocks => cases h
  | none =>
    refine ⟨rfl, ?_⟩
    cases hlib : heap.library with
    | false => rfl
    | true =>
      rw [blockLibrary, hlib] at h
      cases h

/-- The blocks of an index that was there, or of a new one. -/
theorem hasBlock_of_blockLibrary {blocks : ℤ → Bool} (h : blockLibrary heap lib = some blocks) (k : ℤ) :
    HasBlock lib k ↔ blocks k = true := by
  cases lib with
  | some old =>
    cases h
    exact ⟨fun ⟨_, hold, hk⟩ => by cases hold; exact hk, fun hk => ⟨_, rfl, hk⟩⟩
  | none =>
    cases hlib : heap.library with
    | false =>
      rw [blockLibrary, hlib] at h
      cases h
    | true =>
      rw [blockLibrary, hlib, if_pos rfl] at h
      cases h
      exact iff_of_false (fun ⟨_, hold, _⟩ => by cases hold) Bool.false_ne_true

end Index

/-! ## §2. `QAllocator`. -/

namespace QAllocator

/-- `QAllocator(maxBlockNum, maxBlockLen)`. -/
def make (maxBlockNum maxBlockLen : ℤ) : QAllocator := ⟨maxBlockNum, maxBlockLen, -1, maxBlockLen, 0, none⟩

/-- The next block is entered. -/
def Enters (a : QAllocator) (allocLen : ℤ) : Prop :=
  a.mMaxBlockLen - a.mNowBlockLen < allocLen ∧ allocLen ≤ a.mMaxBlockLen

instance (a : QAllocator) (allocLen : ℤ) : Decidable (a.Enters allocLen) := inferInstanceAs (Decidable (_ ∧ _))

/-- `alloc(allocLen)`, inside the index of the blocks. -/
def allocAt (heap : Heap) (a : QAllocator) (allocLen : ℤ) : Option (Option (ℤ × ℤ) × QAllocator) :=
  if Strays heap a.mMaxBlockNum a.mNowBlockNum a.pBlockLibrary (a.Enters allocLen) then none
  else some (a.alloc heap allocLen)

/-- An allocator, and the pieces that are out, the last one first. -/
structure Lent where
  allocator : QAllocator
  live : List Piece

/-- `alloc(allocLen)`: the piece, if any, and what is out then. -/
def Lent.lend (heap : Heap) (s : Lent) (allocLen : ℤ) : Option (Option Piece × Lent) :=
  (s.allocator.allocAt heap allocLen).map fun r =>
    match r.1 with
    | none => (none, { s with allocator := r.2 })
    | some p => (some ⟨p.1, p.2, allocLen⟩, ⟨r.2, ⟨p.1, p.2, allocLen⟩ :: s.live⟩)

/-- The calls, and what the heap gives to them. -/
inductive Call
  | alloc (heap : Heap) (allocLen : ℤ)
  | resetAllocator

/-- A call; after a reset nothing is out. -/
def Lent.step (s : Lent) : Call → Option Lent
  | .alloc heap allocLen => (s.lend heap allocLen).map Prod.snd
  | .resetAllocator => some ⟨s.allocator.resetAllocator, []⟩

/-- The calls of a run: a length is at least 1. -/
def Lent.asked (_ : Lent) : Call → Prop
  | .alloc _ allocLen => 1 ≤ allocLen
  | .resetAllocator => True

/-- The states of the runs of an allocator. -/
def Runs (maxBlockNum maxBlockLen : ℤ) (s : Lent) : Prop :=
  Reach Lent.step Lent.asked ⟨make maxBlockNum maxBlockLen, []⟩ s

/-- Where the last piece ends; without one, as if a block -1 were full. -/
def endOf (maxBlockLen : ℤ) (live : List Piece) : ℤ × ℤ :=
  match live with
  | [] => (-1, maxBlockLen)
  | p :: _ => (p.block, p.off + p.len)

/-- There is room behind the last piece, or in another block. -/
def HasSpace (maxBlockNum maxBlockLen : ℤ) (live : List Piece) (allocLen : ℤ) : Prop :=
  allocLen ≤ maxBlockLen - (endOf maxBlockLen live).2 ∨
    (allocLen ≤ maxBlockLen ∧ (endOf maxBlockLen live).1 + 1 < maxBlockNum)

/-- **WHAT AN `alloc` HAS TO DO**: it hands out a piece that lies in its block and
    apart from all that is out, or nothing and all stays as it is; and nothing only
    if there is no space or a request for memory was refused. -/
structure Serves (maxBlockNum maxBlockLen : ℤ) (heap : Heap) (s : Lent) (allocLen : ℤ) (r : Option Piece)
    (s' : Lent) : Prop where
  piece : ∀ p ∈ r, p.len = allocLen ∧ HasBlock s'.allocator.pBlockLibrary p.block ∧
    p.Inside (newSize maxBlockLen) ∧ (∀ q ∈ s.live, p.Apart q) ∧ s'.live = p :: s.live
  nothing : r = none → s'.live = s.live ∧ s'.allocator.cursor = s.allocator.cursor
  space : r = none → HasSpace maxBlockNum maxBlockLen s.live allocLen →
    Refused heap s.allocator.pBlockLibrary ((endOf maxBlockLen s.live).1 + 1)

/-- Every `alloc` of every run is served. -/
def AllServed (maxBlockNum maxBlockLen : ℤ) : Prop :=
  ∀ s, Runs maxBlockNum maxBlockLen s → ∀ heap allocLen, 1 ≤ allocLen →
    ∃ r s', s.lend heap allocLen = some (r, s') ∧ Serves maxBlockNum maxBlockLen heap s allocLen r s'

/-- The sizes of an allocator whose index and blocks are as large as they should
    be, or that never enters a block. -/
def Sizes (maxBlockNum maxBlockLen : ℤ) : Prop :=
  MemsetFits maxBlockNum ∧
    (maxBlockNum ≤ 0 ∨ maxBlockLen ≤ 0 ∨ (maxBlockNum < 2 ^ 32 ∧ maxBlockLen < 2 ^ 32))

instance (maxBlockNum maxBlockLen : ℤ) : Decidable (Sizes maxBlockNum maxBlockLen) :=
  inferInstanceAs (Decidable (_ ∧ _))

section Lending

variable {num len allocLen : ℤ} {heap : Heap} {s s' : Lent} {r : Option Piece}

/-- **THE INVARIANT**: the allocator stands behind the last piece, all pieces lie in
    blocks that are there, and none behind it. -/
structure Kept (num len : ℤ) (s : Lent) : Prop where
  blocks : s.allocator.mMaxBlockNum = num
  length : s.allocator.mMaxBlockLen = len
  cursor : s.allocator.cursor = endOf len s.live
  pieces : ∀ p ∈ s.live, HasBlock s.allocator.pBlockLibrary p.block ∧ 0 ≤ p.block ∧ p.block < num ∧
    0 ≤ p.off ∧ 1 ≤ p.len ∧ p.off + p.len ≤ len ∧ p.block ≤ s.allocator.mNowBlockNum ∧
    (p.block = s.allocator.mNowBlockNum → p.off + p.len ≤ s.allocator.mNowBlockLen)

theorem kept_make (num len : ℤ) : Kept num len ⟨make num len, []⟩ where
  blocks := rfl
  length := rfl
  cursor := rfl
  pieces := fun _ hp => absurd hp List.not_mem_nil

theorem Kept.reset (h : Kept num len s) : Kept num len ⟨s.allocator.resetAllocator, []⟩ where
  blocks := h.blocks
  length := h.length
  cursor := by
    show (-1, s.allocator.mMaxBlockLen) = (-1, len)
    rw [h.length]
  pieces := fun _ hp => absurd hp List.not_mem_nil

/-- Where the allocator stands: in front of all blocks, or behind a piece. -/
theorem Kept.now (h : Kept num len s) :
    (s.live = [] ∧ s.allocator.mNowBlockNum = -1 ∧ s.allocator.mNowBlockLen = len) ∨
      (HasBlock s.allocator.pBlockLibrary s.allocator.mNowBlockNum ∧ 0 ≤ s.allocator.mNowBlockNum ∧
        s.allocator.mNowBlockNum < num ∧ 0 ≤ s.allocator.mNowBlockLen) := by
  have hcursor := h.cursor
  cases hlive : s.live with
  | nil =>
    rw [hlive] at hcursor
    obtain ⟨hnum, hlen⟩ := Prod.mk.inj hcursor
    exact Or.inl ⟨rfl, hnum, hlen⟩
  | cons p live =>
    rw [hlive] at hcursor
    obtain ⟨hnum, hlen⟩ := Prod.mk.inj hcursor
    have hp : p ∈ s.live := by
      rw [hlive]
      exact List.mem_cons_self
    obtain ⟨hblock, hpos, hlt, hoff, hone, -⟩ := h.pieces p hp
    rw [hnum, hlen]
    exact Or.inr ⟨hblock, hpos, hlt, by omega⟩

/-- **WHAT `alloc` CAN DO**: nothing, for want of an index, of room or of a block; or
    a piece of the next block, or of the current one. -/
theorem alloc_cases (heap : Heap) (a : QAllocator) (n : ℤ) :
    (blockLibrary heap a.pBlockLibrary = none ∧ a.alloc heap n = (none, a)) ∨
      ∃ blocks, blockLibrary heap a.pBlockLibrary = some blocks ∧
        ((a.mMaxBlockLen - a.mNowBlockLen < n ∧
            (a.mMaxBlockLen < n ∨ a.mMaxBlockNum ≤ a.mNowBlockNum + 1 ∨
              (blocks (a.mNowBlockNum + 1) = false ∧ heap.block = false)) ∧
            a.alloc heap n = (none, { a with pBlockLibrary := some blocks })) ∨
          (a.Enters n ∧ a.mNowBlockNum + 1 < a.mMaxBlockNum ∧
            a.alloc heap n = place { a with
              mNowBlockNum := a.mNowBlockNum + 1
              mNowBlockLen := 0
              pBlockLibrary := some fun k => k == a.mNowBlockNum + 1 || blocks k } n) ∨
          (n ≤ a.mMaxBlockLen - a.mNowBlockLen ∧
            a.alloc heap n = place { a with pBlockLibrary := some blocks } n)) := by
  unfold QAllocator.alloc Enters
  cases hlib : blockLibrary heap a.pBlockLibrary with
  | none => exact Or.inl ⟨rfl, rfl⟩
  | some blocks =>
    refine Or.inr ⟨blocks, rfl, ?_⟩
    dsimp only
    by_cases hroom : a.mMaxBlockLen - a.mNowBlockLen < n
    · rw [if_pos hroom]
      by_cases hlong : a.mMaxBlockLen < n
      · rw [if_pos hlong]
        exact Or.inl ⟨hroom, Or.inl hlong, rfl⟩
      rw [if_neg hlong]
      by_cases hfull : a.mMaxBlockNum ≤ a.mNowBlockNum + 1
      · rw [if_pos hfull]
        exact Or.inl ⟨hroom, Or.inr (Or.inl hfull), rfl⟩
      rw [if_neg hfull]
      by_cases hmem : (!blocks (a.mNowBlockNum + 1) && !heap.block) = true
      · rw [if_pos hmem]
        rw [Bool.and_eq_true, Bool.not_eq_true', Bool.not_eq_true'] at hmem
        exact Or.inl ⟨hroom, Or.inr (Or.inr hmem), rfl⟩
      · rw [if_neg hmem]
        exact Or.inr (Or.inl ⟨⟨hroom, not_lt.mp hlong⟩, not_le.mp hfull, rfl⟩)
    · rw [if_neg hroom]
      exact Or.inr (Or.inr ⟨not_lt.mp hroom, rfl⟩)

/-- Inside the sizes nothing outside the index is touched. -/
theorem not_strays (hsizes : Sizes num len) (h : Kept num len s) (hn : 1 ≤ allocLen) :
    ¬ Strays heap s.allocator.mMaxBlockNum s.allocator.mNowBlockNum s.allocator.pBlockLibrary
      (s.allocator.Enters allocLen) := by
  obtain ⟨hfits, hcase⟩ := hsizes
  have hnum := h.blocks
  have hlen := h.length
  have hnow : -1 ≤ s.allocator.mNowBlockNum := by
    rcases h.now with ⟨-, hnow, -⟩ | ⟨-, hnow, -, -⟩
    · omega
    · omega
  rintro (⟨-, -, hout⟩ | ⟨-, ⟨-, hfit⟩, hlt, hindex⟩)
  · rw [hnum] at hout
    exact hout hfits
  · rw [hnum] at hlt hindex
    rw [newSize_of_lt (by omega) (by omega)] at hindex
    omega

theorem Kept.apart_cursor (h : Kept num len s) {p q : Piece} (hq : q ∈ s.live)
    (hp : s.allocator.mNowBlockNum < p.block ∨
      (p.block = s.allocator.mNowBlockNum ∧ p.off = s.allocator.mNowBlockLen)) : p.Apart q := by
  obtain ⟨-, -, -, -, -, -, hle, hbehind⟩ := h.pieces q hq
  intro hblock
  right
  rcases hp with hlt | ⟨hsame, hoff⟩
  · omega
  · have hend := hbehind (by omega)
    omega

/-- **AN `alloc`** inside the sizes does what it has to do and keeps the invariant. -/
theorem lend_spec (hsizes : Sizes num len) (h : Kept num len s) (heap : Heap) (hn : 1 ≤ allocLen) :
    ∃ r s', s.lend heap allocLen = some (r, s') ∧ Serves num len heap s allocLen r s' ∧ Kept num len s' := by
  have hnum := h.blocks
  have hlen := h.length
  have hcursor := h.cursor
  have hend : endOf len s.live = (s.allocator.mNowBlockNum, s.allocator.mNowBlockLen) := hcursor.symm
  unfold Lent.lend allocAt
  rw [if_neg (not_strays hsizes h hn), Option.map_some]
  rcases alloc_cases heap s.allocator allocLen with ⟨hlib, halloc⟩ | ⟨blocks, hlib, hrest⟩
  · -- no index
    rw [halloc]
    refine ⟨none, s, rfl, ⟨nofun, fun _ => ⟨rfl, rfl⟩, fun _ _ => ?_⟩, h⟩
    exact Or.inl (blockLibrary_eq_none hlib)
  have hkeep : ∀ k, HasBlock s.allocator.pBlockLibrary k ↔ blocks k = true := hasBlock_of_blockLibrary hlib
  rcases hrest with ⟨hroom, hwhy, halloc⟩ | ⟨⟨hroom, hfit⟩, hnext, halloc⟩ | ⟨hroom, halloc⟩
  · -- nothing is handed out
    rw [halloc]
    refine ⟨none, ⟨{ s.allocator with pBlockLibrary := some blocks }, s.live⟩, rfl,
      ⟨nofun, fun _ => ⟨rfl, rfl⟩, fun _ hspace => ?_⟩, ?_⟩
    · unfold HasSpace at hspace
      rw [hend] at hspace ⊢
      rcases hwhy with hlong | hfull | ⟨hblock, hheap⟩
      · omega
      · omega
      · refine Or.inr ⟨fun hin => ?_, hheap⟩
        rw [hkeep, hblock] at hin
        cases hin
    · refine ⟨hnum, hlen, hcursor, fun p hp => ?_⟩
      obtain ⟨hblock, hrest⟩ := h.pieces p hp
      exact ⟨⟨blocks, rfl, (hkeep p.block).mp hblock⟩, hrest⟩
  · -- the next block
    have hstart : -1 ≤ s.allocator.mNowBlockNum := by
      rcases h.now with ⟨-, hnow, -⟩ | ⟨-, hnow, -, -⟩
      · omega
      · omega
    have hroomy : newSize len = len := by
      obtain ⟨-, hcase⟩ := hsizes
      exact newSize_of_lt (by omega) (by omega)
    rw [halloc]
    refine ⟨some ⟨s.allocator.mNowBlockNum + 1, 0, allocLen⟩, _, rfl, ⟨?_, nofun, nofun⟩, ?_⟩
    · intro p hp
      cases hp
      refine ⟨rfl, ⟨_, rfl, ?_⟩, ⟨le_refl 0, ?_⟩, fun q hq => ?_, rfl⟩
      · show (s.allocator.mNowBlockNum + 1 == s.allocator.mNowBlockNum + 1 || _) = true
        rw [beq_self_eq_true, Bool.true_or]
      · rw [hroomy]
        show 0 + allocLen ≤ len
        omega
      · exact h.apart_cursor hq (Or.inl (Int.lt_succ _))
    · refine ⟨hnum, hlen, rfl, fun p hp => ?_⟩
      rcases List.mem_cons.mp hp with rfl | hp
      · refine ⟨⟨_, rfl, ?_⟩, ?_, ?_, le_refl 0, hn, ?_, le_refl _, fun _ => le_refl _⟩
        · show (s.allocator.mNowBlockNum + 1 == s.allocator.mNowBlockNum + 1 || _) = true
          rw [beq_self_eq_true, Bool.true_or]
        · show 0 ≤ s.allocator.mNowBlockNum + 1
          omega
        · show s.allocator.mNowBlockNum + 1 < num
          omega
        · show 0 + allocLen ≤ len
          omega
      obtain ⟨hblock, hpos, hlt, hoff, hone, hin, hle, -⟩ := h.pieces p hp
      refine ⟨⟨_, rfl, ?_⟩, hpos, hlt, hoff, hone, hin, ?_, ?_⟩
      · show (p.block == s.allocator.mNowBlockNum + 1 || blocks p.block) = true
        rw [(hkeep p.block).mp hblock, Bool.or_true]
      · show p.block ≤ s.allocator.mNowBlockNum + 1
        omega
      · intro hsame
        have hsame' : p.block = s.allocator.mNowBlockNum + 1 := hsame
        omega
  · -- the current block
    rcases h.now with ⟨-, -, hfull⟩ | ⟨hblock, hpos, hlt, hoff⟩
    · omega
    have hroomy : newSize len = len := by
      obtain ⟨-, hcase⟩ := hsizes
      exact newSize_of_lt (by omega) (by omega)
    rw [halloc]
    refine ⟨some ⟨s.allocator.mNowBlockNum, s.allocator.mNowBlockLen, allocLen⟩, _, rfl,
      ⟨?_, nofun, nofun⟩, ?_⟩
    · intro p hp
      cases hp
      refine ⟨rfl, ⟨blocks, rfl, (hkeep _).mp hblock⟩, ⟨hoff, ?_⟩, fun q hq => ?_, rfl⟩
      · rw [hroomy]
        show s.allocator.mNowBlockLen + allocLen ≤ len
        omega
      · exact h.apart_cursor hq (Or.inr ⟨rfl, rfl⟩)
    · refine ⟨hnum, hlen, rfl, fun p hp => ?_⟩
      rcases List.mem_cons.mp hp with rfl | hp
      · refine ⟨⟨blocks, rfl, (hkeep _).mp hblock⟩, hpos, hlt, hoff, hn, ?_, le_refl _, fun _ => le_refl _⟩
        show s.allocator.mNowBlockLen + allocLen ≤ len
        omega
      obtain ⟨hblock, hpos, hlt, hoff, hone, hin, hle, hbehind⟩ := h.pieces p hp
      refine ⟨⟨blocks, rfl, (hkeep _).mp hblock⟩, hpos, hlt, hoff, hone, hin, hle, fun hsame => ?_⟩
      have hend' := hbehind hsame
      show p.off + p.len ≤ s.allocator.mNowBlockLen + allocLen
      omega

/-- Every run keeps the invariant. -/
theorem kept_of_runs (hsizes : Sizes num len) (h : Runs num len s) : Kept num len s := by
  refine Reach.invariant (Kept num len) (kept_make num len) ?_ h
  intro s l s' hkept hok hstep
  cases l with
  | alloc heap allocLen =>
    obtain ⟨r, s₁, hlend, -, hkept'⟩ := lend_spec hsizes hkept heap hok
    have hstep' : (s.lend heap allocLen).map Prod.snd = some s' := hstep
    rw [hlend] at hstep'
    cases hstep'
    exact hkept'
  | resetAllocator =>
    cases hstep
    exact hkept.reset

theorem lend_of_strays (h : Strays heap s.allocator.mMaxBlockNum s.allocator.mNowBlockNum
    s.allocator.pBlockLibrary (s.allocator.Enters allocLen)) : s.lend heap allocLen = none := by
  unfold Lent.lend allocAt
  rw [if_pos h]
  rfl

/-- `k` blocks are full, none behind them is entered. -/
structure Full (num len k : ℤ) (s : Lent) : Prop where
  blocks : s.allocator.mMaxBlockNum = num
  length : s.allocator.mMaxBlockLen = len
  cursor : s.allocator.cursor = (k - 1, len)

/-- Where the index of the blocks is too short for the next one, or for the `memset`
    of a new one, an `alloc` that enters a block strays. -/
theorem Full.strays {k : ℤ} (h : Full num len k s) (hk : k < num) (hlen : 1 ≤ len)
    (hbad : (s.allocator.pBlockLibrary = none ∧ ¬ MemsetFits num) ∨ newSize num ≤ k) :
    s.lend .ample len = none := by
  obtain ⟨hnow, hused⟩ := Prod.mk.inj h.cursor
  have hlib : (blockLibrary .ample s.allocator.pBlockLibrary).isSome = true := by
    cases s.allocator.pBlockLibrary with
    | none => rfl
    | some blocks => rfl
  apply lend_of_strays
  unfold Strays Enters
  rw [h.blocks, h.length, hnow, hused]
  rcases hbad with ⟨hnone, hfits⟩ | hshort
  · exact Or.inl ⟨hnone, rfl, hfits⟩
  · exact Or.inr ⟨hlib, by omega, by omega, by omega⟩

/-- With memory at hand the next block is filled by one piece. -/
theorem Full.lend {k : ℤ} (h : Full num len k s) (hk : k < num) (hlen : 1 ≤ len) (hfits : MemsetFits num)
    (hindex : k < newSize num) :
    ∃ s', s.lend .ample len = some (some ⟨k, 0, len⟩, s') ∧ Full num len (k + 1) s' := by
  obtain ⟨hnow, hused⟩ := Prod.mk.inj h.cursor
  have hnum := h.blocks
  have hmax := h.length
  have hstrays : ¬ Strays .ample s.allocator.mMaxBlockNum s.allocator.mNowBlockNum s.allocator.pBlockLibrary
      (s.allocator.Enters len) := by
    rintro (⟨-, -, hout⟩ | ⟨-, -, -, hout⟩)
    · exact hout (hnum ▸ hfits)
    · rw [hnum] at hout
      omega
  unfold Lent.lend allocAt
  rw [if_neg hstrays, Option.map_some]
  rcases alloc_cases .ample s.allocator len with ⟨hlib, -⟩ | ⟨blocks, -, ⟨-, hwhy, -⟩ | ⟨-, -, halloc⟩ | ⟨hroom, -⟩⟩
  · cases (blockLibrary_eq_none hlib).2
  · rcases hwhy with hlong | hfull | ⟨-, hheap⟩
    · omega
    · omega
    · cases hheap
  · rw [halloc]
    have hblock : s.allocator.mNowBlockNum + 1 = k := by omega
    rw [hblock]
    refine ⟨_, rfl, hnum, hmax, ?_⟩
    show (k, 0 + len) = (k + 1 - 1, len)
    rw [Int.zero_add, Int.add_sub_cancel]
  · omega

/-- As many blocks can be filled as the index has places. -/
theorem exists_full (hlen : 1 ≤ len) (hfits : MemsetFits num) (k : ℕ) (hk : (k : ℤ) ≤ num)
    (hindex : (k : ℤ) ≤ newSize num) : ∃ s, Runs num len s ∧ Full num len k s := by
  induction k with
  | zero => exact ⟨_, Reach.start, rfl, rfl, rfl⟩
  | succ k ih =>
    obtain ⟨s, hruns, hfull⟩ := ih (by omega) (by omega)
    obtain ⟨s', hlend, hfull'⟩ := hfull.lend (by omega) hlen hfits (by omega)
    have hstep : s.step (.alloc .ample len) = some s' := by
      show (s.lend .ample len).map Prod.snd = some s'
      rw [hlend]
      rfl
    refine ⟨s', hruns.next (l := .alloc .ample len) hlen hstep, ?_⟩
    exact hfull'

/-- Every run of a `QAllocator` is served exactly for the sizes that `q_new_array`
    takes whole, and where no block can be entered. -/
theorem served_iff (num len : ℤ) : AllServed num len ↔ Sizes num len := by
  constructor
  · intro hall
    have hserved : ∀ k : ℤ, ∀ s, Runs num len s → Full num len k s → 1 ≤ len →
        ∃ r s', s.lend .ample len = some (r, s') ∧ Serves num len .ample s len r s' :=
      fun _ s hruns _ hlen => hall s hruns .ample len hlen
    have hfits : MemsetFits num := by
      by_contra hout
      -- the first `alloc` sets the index to 0
      obtain ⟨r, s', hlend, -⟩ := hall _ Reach.start .ample 1 (le_refl 1)
      rw [lend_of_strays (Or.inl ⟨rfl, rfl, hout⟩)] at hlend
      cases hlend
    refine ⟨hfits, ?_⟩
    by_cases hnum : num ≤ 0
    · exact Or.inl hnum
    by_cases hlen : len ≤ 0
    · exact Or.inr (Or.inl hlen)
    refine Or.inr (Or.inr ?_)
    have hlen' : 1 ≤ len := by omega
    obtain ⟨hsize, hsize'⟩ := newSize_bounds num
    have hindex : num < 2 ^ 32 := by
      by_contra hlong
      -- the index has fewer places than there are blocks
      obtain ⟨s, hruns, hfull⟩ := exists_full hlen' hfits (newSize num).toNat (by omega) (by omega)
      rw [Int.toNat_of_nonneg hsize] at hfull
      obtain ⟨r, s', hlend, -⟩ := hserved _ s hruns hfull hlen'
      rw [hfull.strays (by omega) hlen' (Or.inr (le_refl _))] at hlend
      cases hlend
    refine ⟨hindex, ?_⟩
    -- a piece as long as a block
    have hstart : Full num len 0 ⟨make num len, []⟩ := ⟨rfl, rfl, rfl⟩
    obtain ⟨s', hlend, -⟩ := hstart.lend (by omega) hlen' hfits
      (by rw [newSize_of_lt (by omega) hindex]; omega)
    obtain ⟨r, s₁, hlend', hserves⟩ := hserved 0 _ Reach.start hstart hlen'
    rw [hlend] at hlend'
    cases hlend'
    obtain ⟨-, -, ⟨-, hin⟩, -, -⟩ := hserves.piece _ rfl
    have hin' : 0 + len ≤ newSize len := hin
    have hsmall := (newSize_bounds len).2
    omega
  · intro hsizes s hruns heap allocLen hn
    obtain ⟨r, s', hlend, hserves, -⟩ := lend_spec hsizes (kept_of_runs hsizes hruns) heap hn
    exact ⟨r, s', hlend, hserves⟩

end Lending

end QAllocator

end KalavaPir.Common
