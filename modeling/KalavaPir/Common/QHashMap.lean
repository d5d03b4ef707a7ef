/-
  KalavaPir.Common.QHashMap — the fixed-length operations as a finite map.

  `QHashChunks` carries the operations from chunks and pointers to lists; here
  they go on to Mathlib's `Finmap`.  Two things end the agreement with the map:
  the allocator has no more than 10⁹ chunks, and a block of 2³² bytes or more
  is cut by `q_new_array` to its low 32 bits, so that its later chunks (of a
  large `data_len` all of them) lie outside.
-/
import Mathlib.Data.Finmap
import KalavaPir.Common.QHashChunks

namespace KalavaPir.Common

open KalavaPir.Framework List Finmap

variable {T : KeyType}

/-! ## §1. How many chunks there are. -/

/-- The chunks of `size` bytes that can be handed out before one is missing or
    lies outside its block. -/
def chunkCapacity (size : ℤ) : ℤ :=
  if 1000 * size < 4294967296 then ChunkBlocks.capacity else 1000 * size % 4294967296 / size

variable {size : ℤ}

theorem chunkCapacity_cut (hpos : 0 < size) (hcut : ¬1000 * size < 4294967296) :
    chunkCapacity size = 1000 * size % 4294967296 / size ∧ chunkCapacity size < 1000 := by
  have heq : chunkCapacity size = 1000 * size % 4294967296 / size := if_neg hcut
  refine ⟨heq, ?_⟩
  rw [heq]
  refine Int.ediv_lt_of_lt_mul hpos ?_
  omega

theorem chunkCapacity_le (hpos : 0 < size) : chunkCapacity size ≤ ChunkBlocks.capacity := by
  by_cases hcut : 1000 * size < 4294967296
  · exact Int.le_of_eq (if_pos hcut)
  · have hlt := (chunkCapacity_cut hpos hcut).2
    unfold ChunkBlocks.capacity
    omega

theorem chunkCapacity_nonneg (hpos : 0 < size) : 0 ≤ chunkCapacity size := by
  unfold chunkCapacity
  split_ifs
  · decide
  · exact Int.ediv_nonneg (by omega) (Int.le_of_lt hpos)

/-- The next chunk comes and lies in its block. -/
theorem ChunkBlocks.Sound.carve_capacity {b : ChunkBlocks} (h : b.Sound)
    (hle : b.handed ≤ chunkCapacity b.mChunkSize) :
    (b.carve .ample).1.map (b.carve .ample).2.holds = some true ↔ b.handed < chunkCapacity b.mChunkSize := by
  have hpos := h.size
  have hbounds := h.handed_bounds
  obtain ⟨hs, hsize, ⟨hgot, hhanded⟩ | ⟨hnull, _, hwhy⟩⟩ := h.carve .ample
  · rw [hgot, Option.map_some, h.holds_eq hs hsize, Option.some_inj]
    by_cases hcut : 1000 * b.mChunkSize < 4294967296
    · have hroom := hs.handed_bounds.2
      have hcap : chunkCapacity b.mChunkSize = capacity := if_pos hcut
      have hholds := h.holds_chunkAt (by rw [h.length]; exact hcut) b.handed
      rw [hholds, hcap]
      exact ⟨fun _ => by omega, fun _ => rfl⟩
    -- all chunks so far are in the first block
    obtain ⟨hcap, hfew⟩ := chunkCapacity_cut hpos hcut
    have hmod : b.handed % 1000 = b.handed := Int.emod_eq_of_lt hbounds.1 (by omega)
    have hsum : b.handed * b.mChunkSize + b.mChunkSize = (b.handed + 1) * b.mChunkSize := by ring
    unfold holds blockBytes chunkAt
    rw [decide_eq_true_eq, hmod, h.length, hsum, ← Int.le_ediv_iff_mul_le hpos, ← hcap]
    omega
  · have hfull : b.handed = capacity := hwhy.resolve_right (fun hne => hne rfl)
    have hcap := chunkCapacity_le hpos
    rw [hnull, Option.map_none]
    constructor
    · intro hbad
      contradiction
    · intro hlt
      omega

/-- **Which `alloc` gives a chunk in its block**, with `n` chunks live. -/
theorem QAllocatorRecycle.alloc_capacity {a : QAllocatorRecycle} {n : ℤ} (h : a.Sound size n)
    (hle : a.blocks.handed ≤ chunkCapacity size) : ((a.alloc .ample).1 = some true ↔ n < chunkCapacity size) ∧
      ((a.alloc .ample).1 = some true → (a.alloc .ample).2.blocks.handed ≤ chunkCapacity size) := by
  have haccount := h.account
  have hrec := h.recycled
  have hsize := h.chunk
  unfold QAllocatorRecycle.alloc
  split_ifs with hzero
  · refine ⟨⟨fun _ => by omega, fun _ => rfl⟩, fun _ => hle⟩
  have hn : n = a.blocks.handed := by omega
  have hcarve := h.blocks.carve_capacity (by rw [hsize]; exact hle)
  rw [hsize] at hcarve
  refine ⟨?_, ?_⟩
  · rw [hn]
    exact hcarve
  · intro hgot
    have hlt := hcarve.mp hgot
    show (a.blocks.carve .ample).2.handed ≤ chunkCapacity size
    obtain ⟨_, _, ⟨_, hhanded⟩ | ⟨_, hhanded, _⟩⟩ := h.blocks.carve .ample
    · omega
    · omega

/-! ## §2. The map. -/

/-- What a table of fixed length stands for. -/
abbrev FixedMap (T : KeyType) : Type := Finmap (fun _ : Key T => List UInt8)

/-- A call with the default bucket index and data that is not NULL. -/
inductive FixedCall (T : KeyType) where
  | addKey_FL (key : Key T) (vpData : ℕ → UInt8)
  | searchKey_FL (key : Key T)
  | updateKey_FL (key : Key T) (vpData : ℕ → UInt8)
  | deleteKey_FL (key : Key T)
  | clear

/-- The bytes a caller reaches: none behind NULL, which a table without data
    answers. -/
def shown (data_len : ℤ) (value : List UInt8) : Option (List UInt8) :=
  if data_len = 0 then none else some value

/-- What a finite map answers, and the map after the call. -/
def FixedMap.answer (data_len : ℤ) (m : FixedMap T) :
    FixedCall T → (ℤ × Option (List UInt8)) × FixedMap T
  | .addKey_FL key vpData =>
    match m.lookup key with
    | some value => ((1, shown data_len value), m)
    | none => ((0, shown data_len (memcpy vpData data_len)), m.insert key (memcpy vpData data_len))
  | .searchKey_FL key =>
    match m.lookup key with
    | some value => ((0, shown data_len value), m)
    | none => ((-1, none), m)
  | .updateKey_FL key vpData =>
    match m.lookup key with
    | some _ => ((0, shown data_len (memcpy vpData data_len)), m.insert key (memcpy vpData data_len))
    | none => ((-1, none), m)
  | .deleteKey_FL key =>
    match m.lookup key with
    | some _ => ((0, none), m.erase key)
    | none => ((-1, none), m)
  | .clear => ((0, none), ∅)

/-- The map after a sequence of calls. -/
def FixedMap.run (data_len : ℤ) (m : FixedMap T) (calls : List (FixedCall T)) : FixedMap T :=
  calls.foldl (fun m call => (m.answer data_len call).2) m

/-- The call on a table of lists. -/
def HashTable.fixedCall (t : HashTable T) :
    FixedCall T → Option ((ℤ × Option (List UInt8)) × HashTable T)
  | .addKey_FL key vpData => t.addKey_FL .ample key (some vpData) (fun _ => 0) (-1)
  | .searchKey_FL key => (t.searchKey_FL key (-1)).map (fun r => (r, t))
  | .updateKey_FL key vpData => t.updateKey_FL key (some vpData) (-1)
  | .deleteKey_FL key => (t.deleteKey_FL key (-1)).map (fun r => ((r.1, none), r.2))
  | .clear => t.clear.map (fun r => ((r.1, none), r.2))

/-- The call on the chunks. -/
def ChunkTable.fixedCall (c : ChunkTable T) :
    FixedCall T → Option ((ℤ × Option (List UInt8)) × ChunkTable T)
  | .addKey_FL key vpData => c.addKey_FL .ample key (some vpData) (-1)
  | .searchKey_FL key => (c.searchKey_FL key (-1)).map (fun r => (r, c))
  | .updateKey_FL key vpData => c.updateKey_FL key (some vpData) (-1)
  | .deleteKey_FL key => (c.deleteKey_FL key (-1)).map (fun r => ((r.1, none), r.2))
  | .clear => c.clear.map (fun r => ((r.1, none), r.2))

/-! ## §3. A table of lists stands for a map. -/

namespace HashTable

variable {t t' : HashTable T} {m m' : FixedMap T}

/-- The entries of the table are the pairs of the map, each once and in the
    bucket its key is looked for in. -/
structure Represents (t : HashTable T) (m : FixedMap T) : Prop where
  valid : t.Valid
  fixed : 0 ≤ t.data_len_
  placed : ∀ (i : ℕ) chain, t.hash_table_[i]? = some chain → ∀ e ∈ chain, t.index e.key (-1) = i
  nodup : (t.entries.map HashEntry.key).Nodup
  lookup : ∀ key body, m.lookup key = some body ↔ (⟨key, body⟩ : HashEntry T) ∈ t.entries
  room : ∀ a, t.allocator_FL_ = some a →
    a.blocks.handed ≤ chunkCapacity (16 + T.size + t.data_len_)

/-- The map has as many keys as the table has entries. -/
theorem Represents.card (h : t.Represents m) : m.keys.card = t.entries.length := by
  have hkeys : m.keys = (t.entries.map HashEntry.key).toFinset := by
    ext key
    rw [Finmap.mem_keys, Finmap.mem_iff, mem_toFinset, mem_map]
    constructor
    · intro hex
      obtain ⟨body, hbody⟩ := hex
      exact ⟨_, (h.lookup key body).mp hbody, rfl⟩
    · intro hex
      obtain ⟨e, he, hkey⟩ := hex
      refine ⟨e.body, (h.lookup key e.body).mpr ?_⟩
      rw [← hkey]
      exact he
  rw [hkeys, toFinset_card_of_nodup h.nodup, length_map]

/-- The bucket of a key, and what the walk along it finds. -/
theorem Represents.find (h : t.Represents m) (key : Key T) :
    ∃ chain, t.hash_table_[t.index key (-1)]? = some chain ∧
      ((∃ e, findKey key chain = some e ∧ e.key = key ∧ e ∈ t.entries
          ∧ m.lookup key = some e.body) ∨
        (findKey key chain = none ∧ m.lookup key = none)) := by
  have hrange := bucketIndex_range h.valid.bucket_pos key
  have hlen := h.valid.buckets
  have hindex : t.index key (-1) = (bucketIndex t.bucket_size_ key).toNat := by
    unfold HashTable.index
    rw [if_pos (by decide)]
  have hlt : t.index key (-1) < t.hash_table_.length := by
    omega
  refine ⟨_, getElem?_eq_getElem hlt, ?_⟩
  cases hfind : findKey key t.hash_table_[t.index key (-1)] with
  | some e =>
    obtain ⟨he, hkey⟩ := findKey_mem hfind
    have hmem : e ∈ t.entries := mem_flatten.mpr ⟨_, getElem_mem hlt, he⟩
    refine Or.inl ⟨e, rfl, hkey, hmem, (h.lookup key e.body).mpr ?_⟩
    rw [← hkey]
    exact hmem
  | none =>
    refine Or.inr ⟨rfl, ?_⟩
    cases hlook : m.lookup key with
    | none => rfl
    | some body =>
      -- an entry of the key would be in this bucket
      obtain ⟨chain, hchain, he⟩ := mem_flatten.mp ((h.lookup key body).mp hlook)
      obtain ⟨i, hi⟩ := mem_iff_getElem?.mp hchain
      have hsame : t.index key (-1) = i := h.placed i chain hi ⟨key, body⟩ he
      rw [← hsame, getElem?_eq_getElem hlt] at hi
      cases hi
      exact absurd rfl (findKey_none hfind _ he)

variable {es : List (HashEntry T)}

/-- The table after one bucket changed: `es` are its entries in any order. -/
theorem Represents.rebuild (h : t.Represents m) (hvalid : t'.Valid) (hlen : t'.data_len_ = t.data_len_)
    (hsize : t'.bucket_size_ = t.bucket_size_) {i : ℕ} {chain : List (HashEntry T)}
    (hset : t'.hash_table_ = t.hash_table_.set i chain) (hplaced : ∀ e ∈ chain, t.index e.key (-1) = i)
    (hperm : t'.entries.Perm es) (hnodup : (es.map HashEntry.key).Nodup)
    (hlookup : ∀ key body, m'.lookup key = some body ↔ (⟨key, body⟩ : HashEntry T) ∈ es)
    (hroom : ∀ a, t'.allocator_FL_ = some a → a.blocks.handed ≤ chunkCapacity (16 + T.size + t.data_len_)) :
    t'.Represents m' where
  valid := hvalid
  fixed := by
    rw [hlen]
    exact h.fixed
  placed := by
    intro j chain' hj e he
    have hindex : t'.index e.key (-1) = t.index e.key (-1) := by
      unfold HashTable.index
      rw [hsize]
    rw [hindex]
    rw [hset] at hj
    by_cases hij : i = j
    · rw [← hij] at hj ⊢
      have hlt : i < (t.hash_table_.set i chain).length := (List.getElem?_eq_some_iff.mp hj).1
      rw [length_set] at hlt
      rw [getElem?_set_self hlt] at hj
      cases hj
      exact hplaced e he
    · rw [getElem?_set_ne hij] at hj
      exact h.placed j chain' hj e he
  nodup := (hperm.map HashEntry.key).nodup_iff.mpr hnodup
  lookup := by
    intro key body
    rw [hlookup, hperm.mem_iff]
  room := by
    rw [hlen]
    exact hroom

theorem notMem_rest {e : HashEntry T} {rest : List (HashEntry T)}
    (hnodup : ((e :: rest).map HashEntry.key).Nodup) : ∀ x ∈ rest, x.key ≠ e.key := by
  intro x hx heq
  rw [map_cons, nodup_cons] at hnodup
  exact hnodup.1 (mem_map.mpr ⟨x, hx, heq⟩)

variable {key : Key T}

/-- The map with one more pair, over a list with one more entry. -/
theorem lookup_insert_iff {data : List UInt8}
    (hother : ∀ k body, k ≠ key → (m.lookup k = some body ↔ (⟨k, body⟩ : HashEntry T) ∈ es))
    (hfresh : ∀ x ∈ es, x.key ≠ key) (k : Key T) (body : List UInt8) :
    (m.insert key data).lookup k = some body
      ↔ (⟨k, body⟩ : HashEntry T) ∈ (⟨key, data⟩ : HashEntry T) :: es := by
  rw [mem_cons, HashEntry.mk.injEq]
  by_cases hk : k = key
  · rw [hk, lookup_insert, Option.some_inj]
    constructor
    · exact fun heq => Or.inl ⟨rfl, heq.symm⟩
    · intro hor
      obtain ⟨_, heq⟩ | hbad := hor
      · exact heq.symm
      · exact absurd rfl (hfresh _ hbad)
  · rw [lookup_insert_of_ne _ hk, hother k body hk]
    exact ⟨Or.inr, fun hor => hor.resolve_left (fun heq => hk heq.1)⟩

/-! ## §4. One call. -/

/-- The call does what the map does, with a table that goes on to stand for the
    map. -/
def Follows (t : HashTable T) (m : FixedMap T) (call : FixedCall T) : Prop :=
  ∃ t', t.fixedCall call = some ((m.answer t.data_len_ call).1, t')
    ∧ t'.Represents (m.answer t.data_len_ call).2 ∧ t'.data_len_ = t.data_len_

section

variable (h : t.Represents m)
include h

theorem Represents.follows_search (key : Key T) : t.Follows m (.searchKey_FL key) := by
  obtain ⟨chain, hchain, ⟨e, hfind, _, _, hlook⟩ | ⟨hfind, hlook⟩⟩ := h.find key
  · unfold Follows fixedCall HashTable.searchKey_FL FixedMap.answer
    dsimp only
    rw [hchain, hlook]
    dsimp only
    rw [hfind]
    exact ⟨t, rfl, h, rfl⟩
  unfold Follows fixedCall HashTable.searchKey_FL FixedMap.answer
  dsimp only
  rw [hchain, hlook]
  dsimp only
  rw [hfind]
  exact ⟨t, rfl, h, rfl⟩

theorem Represents.follows_delete (key : Key T) : t.Follows m (.deleteKey_FL key) := by
  obtain ⟨chain, hchain, ⟨e, hfind, hkey, _, hlook⟩ | ⟨hfind, hlook⟩⟩ := h.find key
  · obtain ⟨_, a, ha, _⟩ := h.valid.fixed h.fixed
    have hcall : t.deleteKey_FL key (-1) = some (0, { t with
        allocator_FL_ := some a.free
        hash_table_ := t.hash_table_.set (t.index key (-1)) (deleteChain key chain)
        data_num_ := t.data_num_ - 1 }) := by
      unfold HashTable.deleteKey_FL
      rw [hchain]
      dsimp only
      rw [hfind, ha]
    have hvalid := h.valid.deleteKey_FL hcall
    have hold := entries_delete hchain hfind
    have hkeys : ((e :: (t.hash_table_.set (t.index key (-1)) (deleteChain key chain)).flatten).map
        HashEntry.key).Nodup := (hold.map HashEntry.key).nodup_iff.mp h.nodup
    have hrest := notMem_rest hkeys
    unfold Follows fixedCall FixedMap.answer
    dsimp only
    rw [hcall, hlook]
    refine ⟨_, rfl, h.rebuild hvalid rfl rfl rfl ?_ (List.Perm.refl _) ?_ ?_ ?_, rfl⟩
    · intro x hx
      exact h.placed _ chain hchain x (mem_of_mem_eraseP hx)
    · exact (nodup_cons.mp hkeys).2
    · intro k body
      by_cases hk : k = key
      · rw [hk, lookup_erase]
        constructor
        · intro hbad
          contradiction
        · intro hbad
          exact absurd hkey.symm (hrest _ hbad)
      · rw [lookup_erase_ne hk, h.lookup k body, hold.mem_iff, mem_cons]
        refine ⟨fun hor => hor.resolve_left ?_, Or.inr⟩
        intro heq
        rw [← heq] at hkey
        exact hk hkey
    · intro a' ha'
      cases ha'
      exact h.room a ha
  · unfold Follows fixedCall HashTable.deleteKey_FL FixedMap.answer
    dsimp only
    rw [hchain, hlook]
    dsimp only
    rw [hfind]
    exact ⟨t, rfl, h, rfl⟩

theorem Represents.follows_update (key : Key T) (vpData : ℕ → UInt8) : t.Follows m (.updateKey_FL key vpData) := by
  obtain ⟨chain, hchain, ⟨e, hfind, hkey, hmem, hlook⟩ | ⟨hfind, hlook⟩⟩ := h.find key
  · by_cases hpos : 0 < t.data_len_
    · have hcall : t.updateKey_FL key (some vpData) (-1)
          = some ((0, t.value_FL ⟨key, memcpy vpData t.data_len_⟩), { t with
            hash_table_ := t.hash_table_.set (t.index key (-1))
              (updateChain key (memcpy vpData t.data_len_) chain) }) := by
        unfold HashTable.updateKey_FL
        rw [hchain]
        dsimp only
        rw [hfind]
        dsimp only
        rw [if_pos hpos]
      have hvalid := h.valid.updateKey_FL hcall
      have hold := entries_delete hchain hfind
      have hnew := entries_update (memcpy vpData t.data_len_) hchain hfind
      have hkeys : ((e :: (t.hash_table_.set (t.index key (-1)) (deleteChain key chain)).flatten).map
          HashEntry.key).Nodup := (hold.map HashEntry.key).nodup_iff.mp h.nodup
      have hrest := notMem_rest hkeys
      rw [hkey] at hrest
      unfold Follows fixedCall FixedMap.answer
      dsimp only
      rw [hcall, hlook]
      refine ⟨_, rfl, h.rebuild hvalid rfl rfl rfl ?_ hnew ?_ (lookup_insert_iff ?_ hrest) h.room, rfl⟩
      · intro x hx
        obtain heq | hx' := mem_cons.mp ((updateChain_perm _ hfind).mem_iff.mp hx)
        · rw [heq]
        · exact h.placed _ chain hchain x (mem_of_mem_eraseP hx')
      · rw [map_cons, hkey] at hkeys
        exact hkeys
      · intro k body hk
        rw [h.lookup k body, hold.mem_iff, mem_cons]
        refine ⟨fun hor => hor.resolve_left ?_, Or.inr⟩
        intro heq
        rw [← heq] at hkey
        exact hk hkey
    · -- no data: the entry has nothing to rewrite
      have hzero : t.data_len_ = 0 := by
        have hfixed := h.fixed
        omega
      have hsame : m.insert key (memcpy vpData t.data_len_) = m := by
        obtain ⟨_, _, _, _, hshape⟩ := h.valid.fixed h.fixed
        have hbody : e.body = memcpy vpData t.data_len_ := by
          have hlen := hshape e hmem
          rw [hzero] at hlen ⊢
          exact length_eq_zero_iff.mp (by exact_mod_cast hlen)
        refine ext_lookup ?_
        intro k
        by_cases hk : k = key
        · rw [hk, lookup_insert, hlook, hbody]
        · rw [lookup_insert_of_ne _ hk]
      have hcall : t.updateKey_FL key (some vpData) (-1) = some ((0, t.value_FL e), t) := by
        unfold HashTable.updateKey_FL
        rw [hchain]
        dsimp only
        rw [hfind]
        dsimp only
        rw [if_neg hpos]
      unfold Follows fixedCall FixedMap.answer
      dsimp only
      rw [hcall, hlook]
      rw [hsame]
      refine ⟨t, ?_, h, rfl⟩
      unfold value_FL shown
      rw [if_pos hzero, if_pos hzero]
  · unfold Follows fixedCall HashTable.updateKey_FL FixedMap.answer
    dsimp only
    rw [hchain, hlook]
    dsimp only
    rw [hfind]
    exact ⟨t, rfl, h, rfl⟩

theorem Represents.follows_clear : t.Follows m .clear := by
  obtain ⟨_, a, ha, _⟩ := h.valid.fixed h.fixed
  have hpos := h.valid.bucket_pos
  have hlen := h.valid.buckets
  have hcall : t.clear = some (0, { t with
      data_num_ := 0
      allocator_VL_ := t.allocator_VL_.map QAllocator.resetAllocator
      allocator_FL_ := t.allocator_FL_.map QAllocatorRecycle.resetAllocator
      hash_table_ := t.hash_table_.map (fun _ => []) }) := by
    unfold HashTable.clear
    cases htable : t.hash_table_ with
    | nil =>
      rw [htable, length_nil] at hlen
      omega
    | cons b bs => rfl
  obtain ⟨hvalid, hnone⟩ := h.valid.clear hcall
  unfold Follows fixedCall FixedMap.answer
  rw [hcall]
  refine ⟨_, rfl, ⟨hvalid, h.fixed, ?_, ?_, ?_, ?_⟩, rfl⟩
  · intro i chain hi e he
    have hi' : (t.hash_table_.map (fun _ => ([] : List (HashEntry T))))[i]? = some chain := hi
    rw [getElem?_map, Option.map_eq_some_iff] at hi'
    obtain ⟨_, _, hnil⟩ := hi'
    rw [← hnil] at he
    exact absurd he not_mem_nil
  · rw [hnone]
    exact nodup_nil
  · intro key body
    rw [hnone, lookup_empty]
    exact ⟨fun hbad => absurd hbad (by simp), fun hbad => absurd hbad not_mem_nil⟩
  · intro a' ha'
    have ha'' : t.allocator_FL_.map QAllocatorRecycle.resetAllocator = some a' := ha'
    rw [ha] at ha''
    cases ha''
    obtain ⟨_, b, hb, hsound, _⟩ := h.valid.fixed h.fixed
    rw [ha] at hb
    cases hb
    have hzero := hsound.blocks.reset.2
    have hsize : (0 : ℤ) < 16 + T.size + t.data_len_ := by
      have hfixed := h.fixed
      omega
    show a.blocks.resetAllocator.handed ≤ _
    rw [hzero]
    exact chunkCapacity_nonneg hsize

theorem Represents.card_le : (m.keys.card : ℤ) ≤ chunkCapacity (16 + T.size + t.data_len_) := by
  obtain ⟨_, a, ha, hsound, _⟩ := h.valid.fixed h.fixed
  have hroom := h.room a ha
  have haccount := hsound.account
  have hrec := hsound.recycled
  rw [h.card]
  omega

/-- A key that is there. -/
theorem Represents.follows_add_present (vpData : ℕ → UInt8) {body : List UInt8} (hlook : m.lookup key = some body) :
    t.Follows m (.addKey_FL key vpData) := by
  obtain ⟨chain, hchain, ⟨e, hfind, _, _, hlook'⟩ | ⟨_, hlook'⟩⟩ := h.find key
  · rw [hlook] at hlook'
    cases hlook'
    unfold Follows fixedCall HashTable.addKey_FL FixedMap.answer
    dsimp only
    rw [hchain, hlook]
    dsimp only
    rw [hfind]
    exact ⟨t, rfl, h, rfl⟩
  · rw [hlook] at hlook'
    contradiction

/-- **A new key** goes in exactly while there is room for it. -/
theorem Represents.add_new (vpData : ℕ → UInt8) (hlook : m.lookup key = none) :
    ((m.keys.card : ℤ) < chunkCapacity (16 + T.size + t.data_len_) → t.Follows m (.addKey_FL key vpData)) ∧
      (¬(m.keys.card : ℤ) < chunkCapacity (16 + T.size + t.data_len_) →
        ∀ r t', t.fixedCall (.addKey_FL key vpData) = some (r, t') → r.1 = -1) := by
  obtain ⟨chain, hchain, ⟨e, _, _, _, hlook'⟩ | ⟨hfind, _⟩⟩ := h.find key
  · rw [hlook] at hlook'
    contradiction
  obtain ⟨_, a, ha, hsound, _⟩ := h.valid.fixed h.fixed
  obtain ⟨halloc, hroom⟩ := QAllocatorRecycle.alloc_capacity hsound (h.room a ha)
  rw [h.card, ← halloc]
  constructor
  · intro hgot
    have hcall : t.addKey_FL .ample key (some vpData) (fun _ => 0) (-1)
        = some ((0, t.value_FL ⟨key, memcpy vpData t.data_len_⟩), { t with
          allocator_FL_ := some (a.alloc .ample).2
          hash_table_ := t.hash_table_.set (t.index key (-1))
            (⟨key, memcpy vpData t.data_len_⟩ :: chain)
          data_num_ := t.data_num_ + 1 }) := by
      unfold HashTable.addKey_FL
      rw [hchain]
      dsimp only
      rw [hfind, ha]
      dsimp only
      generalize a.alloc .ample = result at hgot ⊢
      obtain ⟨found, a'⟩ := result
      cases hgot
      rfl
    have hvalid := h.valid.addKey_FL hcall
    have hfresh : ∀ x ∈ t.entries, x.key ≠ key := by
      intro x hx heq
      have hbad := (h.lookup x.key x.body).mpr hx
      rw [heq, hlook] at hbad
      contradiction
    unfold Follows fixedCall FixedMap.answer
    dsimp only
    rw [hcall, hlook]
    refine ⟨_, rfl, h.rebuild hvalid rfl rfl rfl ?_ (entries_cons hchain _) ?_
      (lookup_insert_iff (fun k body _ => h.lookup k body) hfresh) ?_, rfl⟩
    · intro x hx
      obtain heq | hx' := mem_cons.mp hx
      · rw [heq]
      · exact h.placed _ chain hchain x hx'
    · rw [map_cons, nodup_cons]
      refine ⟨?_, h.nodup⟩
      intro hbad
      obtain ⟨x, hx, heq⟩ := mem_map.mp hbad
      exact hfresh x hx heq
    · intro a' ha'
      cases ha'
      exact hroom hgot
  · intro hmiss r t' hcall
    obtain ⟨chain', hchain', ⟨_, _, e, hbad⟩ | ⟨_, b, hb, ⟨hneg, _⟩ | ⟨_, hgot, _⟩⟩⟩ :=
      addKey_FL_cases hcall
    · rw [hchain] at hchain'
      cases hchain'
      rw [hfind] at hbad
      contradiction
    · exact hneg
    · rw [ha] at hb
      cases hb
      exact absurd hgot hmiss

end

theorem card_insert (data : List UInt8) (hlook : m.lookup key = none) :
    (m.insert key data).keys.card = m.keys.card + 1 := by
  have hkeys : (m.insert key data).keys = insert key m.keys := by
    ext k
    rw [Finmap.mem_keys, Finmap.mem_insert, Finset.mem_insert, Finmap.mem_keys]
  have hnew : key ∉ m.keys := by
    exact lookup_eq_none.mp hlook
  rw [hkeys, Finset.card_insert_of_notMem hnew]

/-- **One call against the map**: it follows the map when the map has room
    afterwards, and answers something else (or leaves memory) when not. -/
theorem Represents.call (h : t.Represents m) (call : FixedCall T) :
    (((m.answer t.data_len_ call).2.keys.card : ℤ) ≤ chunkCapacity (16 + T.size + t.data_len_) →
        t.Follows m call) ∧
      (¬((m.answer t.data_len_ call).2.keys.card : ℤ) ≤ chunkCapacity (16 + T.size + t.data_len_) →
        ∀ t', t.fixedCall call ≠ some ((m.answer t.data_len_ call).1, t')) := by
  -- a call that follows the map always leaves it within the chunks
  have hall : t.Follows m call →
      (((m.answer t.data_len_ call).2.keys.card : ℤ) ≤ chunkCapacity (16 + T.size + t.data_len_) →
        t.Follows m call) ∧
      (¬((m.answer t.data_len_ call).2.keys.card : ℤ) ≤ chunkCapacity (16 + T.size + t.data_len_) →
        ∀ t', t.fixedCall call ≠ some ((m.answer t.data_len_ call).1, t')) := by
    intro hfollows
    refine ⟨fun _ => hfollows, fun hmore => ?_⟩
    obtain ⟨t', _, hrep, hlen⟩ := hfollows
    have hle := hrep.card_le
    rw [hlen] at hle
    exact absurd hle hmore
  cases call with
  | addKey_FL key vpData =>
    cases hlook : m.lookup key with
    | some body => exact hall (h.follows_add_present vpData hlook)
    | none =>
      obtain ⟨hroom, hfull⟩ := h.add_new vpData hlook
      have hanswer : m.answer t.data_len_ (.addKey_FL key vpData)
          = ((0, shown t.data_len_ (memcpy vpData t.data_len_)),
            m.insert key (memcpy vpData t.data_len_)) := by
        unfold FixedMap.answer
        dsimp only
        rw [hlook]
      have hcard := card_insert (memcpy vpData t.data_len_) hlook
      rw [hanswer]
      rw [hcard]
      refine ⟨fun hle => hroom (by omega), ?_⟩
      intro hmore t' hcall
      have hneg := hfull (by omega) _ t' hcall
      contradiction
  | searchKey_FL key => exact hall (h.follows_search key)
  | updateKey_FL key vpData => exact hall (h.follows_update key vpData)
  | deleteKey_FL key => exact hall (h.follows_delete key)
  | clear => exact hall h.follows_clear

end HashTable

/-! ## §5. The chunks against the map, over any history. -/

namespace ChunkTable

variable {c : ChunkTable T} {t : HashTable T} {m : FixedMap T}

variable {α : Type}

variable {x : Option (α × ChunkTable T)} {y : Option (α × HashTable T)} {data_len : ℤ}

theorem Agree.map {β : Type} (h : Agree x y) (f : α → β) :
    Agree (x.map (fun r => (f r.1, r.2))) (y.map (fun r => (f r.1, r.2))) := by
  cases x with
  | none =>
    cases y with
    | none => trivial
    | some s => exact h
  | some r =>
    cases y with
    | none => exact h
    | some s => exact ⟨congrArg f h.1, h.2⟩

theorem Agree.of_left {r : α} (h : Agree (some (r, c)) y) :
    ∃ t, y = some (r, t) ∧ Sim c t := by
  cases y with
  | none => exact absurd h id
  | some s =>
    obtain ⟨r', t⟩ := s
    obtain ⟨rfl, hsim⟩ := h
    exact ⟨t, rfl, hsim⟩

theorem Agree.of_right {r : α} (h : Agree x (some (r, t))) :
    ∃ c, x = some (r, c) ∧ Sim c t := by
  cases x with
  | none => exact absurd h id
  | some s =>
    obtain ⟨r', c⟩ := s
    obtain ⟨rfl, hsim⟩ := h
    exact ⟨c, rfl, hsim⟩

/-- One call on the chunks is the call on the lists. -/
theorem Sim.fixedCall (h : Sim c t) (call : FixedCall T) : Agree (c.fixedCall call) (t.fixedCall call) := by
  cases call with
  | addKey_FL key vpData =>
    obtain ⟨junk, hagree⟩ := h.addKey_FL .ample key (some vpData) (-1)
    exact hagree
  | searchKey_FL key =>
    unfold ChunkTable.fixedCall HashTable.fixedCall
    dsimp only
    rw [h.searchKey_FL]
    cases t.searchKey_FL key (-1) with
    | none => trivial
    | some r => exact ⟨rfl, h⟩
  | updateKey_FL key vpData => exact h.updateKey_FL key (some vpData) (-1)
  | deleteKey_FL key => exact (h.deleteKey_FL key (-1)).map (fun r => (r, none))
  | clear => exact h.clear.map (fun r => (r, none))

/-- The table has the map's count, every key has its bucket in it, and no chunk
    is in two places. -/
structure Matches (c : ChunkTable T) (m : FixedMap T) : Prop where
  num : c.data_num_ = m.keys.card
  bucket : ∀ key : Key T, 0 ≤ bucketIndex c.bucket_size_ key
    ∧ bucketIndex c.bucket_size_ key < c.bucket_size_
  buckets : c.bucket_size_ = c.hash_table_.length
  separate : Separate c

/-- Every call answers what the map answers, and table and map match before and
    after it. -/
def Refines (data_len : ℤ) : ChunkTable T → FixedMap T → List (FixedCall T) → Prop
  | c, m, [] => Matches c m
  | c, m, call :: calls =>
    Matches c m ∧ ∃ c', c.fixedCall call = some ((m.answer data_len call).1, c')
      ∧ Refines data_len c' (m.answer data_len call).2 calls

/-- The map stays within so many keys, whatever part of the calls was made. -/
def Within (limit data_len : ℤ) (m : FixedMap T) (calls : List (FixedCall T)) : Prop :=
  ∀ n, ((m.run data_len (calls.take n)).keys.card : ℤ) ≤ limit

theorem within_cons {limit : ℤ} {call : FixedCall T} {calls : List (FixedCall T)} :
    Within limit data_len m (call :: calls) ↔
      (m.keys.card : ℤ) ≤ limit ∧ Within limit data_len (m.answer data_len call).2 calls := by
  constructor
  · intro h
    exact ⟨h 0, fun n => h (n + 1)⟩
  · intro h n
    cases n with
    | zero => exact h.1
    | succ n => exact h.2 n

theorem Sim.matches (h : Sim c t) (hm : t.Represents m) : Matches c m := by
  have hseparate := h.separate
  obtain ⟨chains, free, hs⟩ := h
  refine ⟨?_, ?_, ?_, hseparate⟩
  · rw [← hs.num, hm.valid.num, hm.card]
  · intro key
    rw [← hs.size]
    exact bucketIndex_range hm.valid.bucket_pos key
  · have hlen := hm.valid.buckets
    rw [hs.table, length_map, hs.laid.length] at hlen
    rw [← hs.size]
    exact hlen.symm

/-- **A whole history**, from a table that stands for a map. -/
theorem Sim.refines (h : Sim c t) (hm : t.Represents m) (calls : List (FixedCall T)) :
    Refines t.data_len_ c m calls
      ↔ Within (chunkCapacity (16 + T.size + t.data_len_)) t.data_len_ m calls := by
  induction calls generalizing c t m with
  | nil =>
    refine ⟨fun _ n => ?_, fun _ => h.matches hm⟩
    rw [take_nil]
    exact hm.card_le
  | cons call calls ih =>
    obtain ⟨hfollows, hrefused⟩ := hm.call call
    have hagree := h.fixedCall call
    rw [within_cons]
    constructor
    · intro href
      obtain ⟨_, c', hc, hrest⟩ := href
      rw [hc] at hagree
      obtain ⟨t₁, ht₁, _⟩ := hagree.of_left
      have hle : ((m.answer t.data_len_ call).2.keys.card : ℤ)
          ≤ chunkCapacity (16 + T.size + t.data_len_) := by
        by_contra hmore
        exact hrefused hmore t₁ ht₁
      obtain ⟨t', ht', hm', hlen⟩ := hfollows hle
      rw [ht'] at hagree
      refine ⟨hm.card_le, ?_⟩
      have hlater := ih hagree.2 hm'
      rw [hlen] at hlater
      exact hlater.mp hrest
    · intro hwithin
      obtain ⟨_, hrest⟩ := hwithin
      obtain ⟨t', ht', hm', hlen⟩ := hfollows (hrest 0)
      rw [ht'] at hagree
      obtain ⟨c', hc', hsim⟩ := hagree.of_right
      refine ⟨h.matches hm, c', hc', ?_⟩
      have hlater := ih hsim hm'
      rw [hlen] at hlater
      exact hlater.mpr hrest

/-- A table just set up stands for the empty map. -/
theorem represents_init {bucket_size : ℤ} (hb : 0 < bucket_size) (hd : 0 ≤ data_len) :
    ((HashTable.new T).init bucket_size data_len).2.Represents ∅
      ∧ ((HashTable.new T).init bucket_size data_len).2.data_len_ = data_len := by
  obtain ⟨_, hvalid, hnone, hlen, _⟩ : ((HashTable.new T).init bucket_size data_len).1 = 0 ∧ _ :=
    HashTable.valid_init (HashTable.new T) hb ⟨rfl, rfl⟩
  refine ⟨⟨hvalid, by rw [hlen]; exact hd, ?_, ?_, ?_, ?_⟩, hlen⟩
  · intro i chain hi e he
    have hmem : e ∈ ((HashTable.new T).init bucket_size data_len).2.entries :=
      mem_flatten.mpr ⟨chain, mem_of_getElem? hi, he⟩
    rw [hnone] at hmem
    exact absurd hmem not_mem_nil
  · rw [hnone]
    exact nodup_nil
  · intro key body
    rw [hnone, lookup_empty]
    exact ⟨fun hbad => absurd hbad (by simp), fun hbad => absurd hbad not_mem_nil⟩
  · intro a ha
    unfold HashTable.init at ha
    rw [if_neg (by omega)] at ha
    cases hblocks : ChunkBlocks.init (8 + T.size + data_len) with
    | none =>
      rw [hblocks] at ha
      contradiction
    | some b =>
      rw [hblocks] at ha
      cases ha
      rw [(ChunkBlocks.sound_init hblocks).2.1]
      exact chunkCapacity_nonneg (by omega)

/-- **THE TABLE IS THE MAP**: from `init` on, every call answers what the finite
    map answers, with the map's count, a bucket for every key and the chunks
    each in one place, exactly as long as the map stays within the chunks that
    lie in their blocks. -/
theorem fixed_length_refines_map (memory : Address → Chunk T) {bucket_size data_len : ℤ}
    (hb : 1 ≤ bucket_size) (hd : 0 ≤ data_len) (calls : List (FixedCall T)) :
    (∃ c, ChunkTable.init memory bucket_size data_len = some c ∧ Refines data_len c ∅ calls)
      ↔ Within (chunkCapacity (16 + T.size + data_len)) data_len ∅ calls := by
  obtain ⟨c, hc⟩ : ∃ c, ChunkTable.init memory bucket_size data_len = some c := by
    have hsize : ¬(8 + T.size + data_len : ℤ) ≤ 0 := by omega
    unfold ChunkTable.init ChunkBlocks.init
    rw [if_neg hsize]
    exact ⟨_, rfl⟩
  obtain ⟨hrep, hlen⟩ := represents_init (T := T) (by omega : 0 < bucket_size) hd
  have hrun := (sim_init hd hc).refines hrep calls
  rw [hlen] at hrun
  rw [← hrun]
  constructor
  · intro hex
    obtain ⟨c', hc', href⟩ := hex
    rw [hc] at hc'
    cases hc'
    exact href
  · exact fun href => ⟨c, hc, href⟩

/-- Memory full of zeroes. -/
def blankMemory : Address → Chunk uint64 := fun _ => ⟨none, none, 0, fun _ => 0⟩

/-- One key goes in and is found. -/
theorem fixed_length_refines_map_oneKey :
    (1 : ℤ) ≤ 4 ∧ (0 : ℤ) ≤ 8 ∧
      ∃ c, ChunkTable.init blankMemory 4 8 = some c ∧
        Refines 8 c ∅ [.addKey_FL 7 (fun _ => 1), .searchKey_FL 7] := by
  refine ⟨by decide, by decide,
    (fixed_length_refines_map blankMemory (by decide) (by decide) _).mpr ?_⟩
  refine within_cons.mpr ⟨by decide, within_cons.mpr ⟨by decide, ?_⟩⟩
  intro n
  rw [List.take_nil]
  decide

/-- **A value of 4294944 bytes**: a block would have 4294968000 bytes and gets
    704, so that the first chunk is not all in it. -/
theorem large_value_overruns :
    ¬∃ c, ChunkTable.init blankMemory 1 4294944 = some c ∧
      Refines 4294944 c ∅ [.addKey_FL 7 (fun _ => 1)] := by
  intro hex
  obtain ⟨c, hc, _, c', hcall, _⟩ := hex
  have hfault : ((ChunkTable.init blankMemory 1 4294944).bind
      (fun c => c.fixedCall (.addKey_FL 7 (fun _ => 1)))).isSome = false := by decide
  rw [hc, Option.bind_some, hcall] at hfault
  contradiction

end ChunkTable

end KalavaPir.Common
