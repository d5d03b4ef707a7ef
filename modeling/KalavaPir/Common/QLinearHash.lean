/-
  KalavaPir.Common.QLinearHash — the chained hash table of `common/qhashmap.h`.

  The nodes of the buckets are made with `new` and freed with `delete`; to read
  a node that was freed is undefined, and so is an overflow of `mNowSize`.
  `clear()` frees the nodes and leaves the heads of the buckets as they are.
-/
import Mathlib.Data.Finmap
import KalavaPir.Framework.Histories
import KalavaPir.Framework.NodeStore
import KalavaPir.Common.QHashDivisor

namespace KalavaPir.Common

open KalavaPir.Framework List Option Function Finmap AList

/-! ## §1. The table and its calls (qhashmap.h:257). -/

/-- A node of the chain of a bucket. -/
structure ChainNode (K V : Type) where
  mKey : K
  mValue : V
  link : Option ℕ := none

/-- The fields of the class but the two of its traversal, and the nodes. -/
structure QLinearHash (K V : Type) where
  heap : NodeStore (ChainNode K V) := ∅
  mDivisor : ℤ
  mBuckets : ℤ
  mNowSize : ℤ := 0
  pHashTable : List (Option ℕ)

namespace QLinearHash

variable {K V : Type} [DecidableEq K]

/-- What a call gives back. -/
inductive Answer (V : Type)
  | flag (b : Bool)
  | value (v : Option V)
  | count (n : ℤ)
  | unit
  deriving DecidableEq

/-- The calls, with the key that the hash value of a call belongs to; `addr` is
    what `new` returns. -/
inductive Call (K V : Type)
  | push (key : K) (value : V) (addr : ℕ)
  | pop (key : K)
  | search (key : K)
  | size
  | empty
  | clear

/-- The constructor `QLinearHash(size)`, with memory for the buckets; it asserts
    that there are any. -/
def new (size : ℤ) : Option (QLinearHash K V) :=
  if size > 0 then
    (getDivisor size).map fun divisor =>
      { mDivisor := divisor, mBuckets := size, pHashTable := List.replicate size.toNat none }
  else none

/-- `hash(hashKey)`. -/
def hash (q : QLinearHash K V) (hashKey : UInt64) : ℕ := hashKey.toNat % q.mDivisor.toNat

/-- `while(current&&current->mKey!=key) { prev=current; current=current->link; }`
    from the head of the bucket. -/
def find (q : QLinearHash K V) (hashKey : UInt64) (key : K) : Option (Option ℕ × Option ℕ) :=
  q.pHashTable[q.hash hashKey]?.bind fun head =>
    walkNodes ChainNode.link q.heap (fun x => decide (x.mKey = key)) (q.heap.entries.length + 1) none head

/-- `search(hashKey, key, value)`. -/
def search (q : QLinearHash K V) (hashKey : UInt64) (key : K) : Except Stop (Answer V × QLinearHash K V) :=
  checked (q.find hashKey key) fun found =>
    match found.2 with
    | some p => .ok (.value ((q.heap.lookup p).map ChainNode.mValue), q)
    | none => .ok (.value none, q)

/-- `push(hashKey, key, value)`. -/
def push (q : QLinearHash K V) (hashKey : UInt64) (key : K) (value : V) (addr : ℕ) :
    Except Stop (Answer V × QLinearHash K V) :=
  checked (q.find hashKey key) fun found =>
    match found.2 with
    | some _ => .ok (.flag false, q)
    | none =>
      checked (int32 (q.mNowSize + 1)) fun mNowSize =>
        .ok (.flag true, { q with
          heap := q.heap.insert addr ⟨key, value, (q.pHashTable[q.hash hashKey]?).join⟩
          pHashTable := q.pHashTable.set (q.hash hashKey) (some addr)
          mNowSize := mNowSize })

/-- `if(!prev) pHashTable[hashVal]=current->link; else prev->link=current->link;` -/
def unlink (q : QLinearHash K V) (hashVal : ℕ) (prev : Option ℕ) (current : ℕ) : Option (QLinearHash K V) :=
  match prev with
  | none => some { q with pHashTable := q.pHashTable.set hashVal (follow ChainNode.link q.heap current) }
  | some r => (q.heap.lookup r).map fun x =>
    { q with heap := q.heap.insert r { x with link := follow ChainNode.link q.heap current } }

/-- `pop(hashKey, key)`. -/
def pop (q : QLinearHash K V) (hashKey : UInt64) (key : K) : Except Stop (Answer V × QLinearHash K V) :=
  checked (q.find hashKey key) fun found =>
    match found.2 with
    | none => .ok (.flag false, q)
    | some p =>
      checked (q.unlink (q.hash hashKey) found.1 p) fun q =>
        checked (int32 (q.mNowSize - 1)) fun mNowSize =>
          .ok (.flag true, { q with heap := q.heap.erase p, mNowSize := mNowSize })

/-- The loop of `clear()` over the buckets: the nodes that are left, and how many
    were deleted. -/
def clearBuckets : List (Option ℕ) → NodeStore (ChainNode K V) → Option (NodeStore (ChainNode K V) × ℕ)
  | [], heap => some (heap, 0)
  | head :: heads, heap =>
    (deleteNodes ChainNode.link (heap.entries.length + 1) heap head).bind fun r =>
      (clearBuckets heads r.1).map fun s => (s.1, r.2 + s.2)

/-- `clear()`; `mNowSize--` with every node. -/
def clear (q : QLinearHash K V) : Except Stop (Answer V × QLinearHash K V) :=
  checked (clearBuckets q.pHashTable q.heap) fun r =>
    checked (int32 (q.mNowSize - r.2)) fun mNowSize =>
      .ok (.unit, { q with heap := r.1, mNowSize := mNowSize })

/-- A call; `hashOf` is the hash value that always comes with a key. -/
def step (hashOf : K → UInt64) (q : QLinearHash K V) : Call K V → Except Stop (Answer V × QLinearHash K V)
  | .push key value addr => q.push (hashOf key) key value addr
  | .pop key => q.pop (hashOf key) key
  | .search key => q.search (hashOf key) key
  | .size => .ok (.count q.mNowSize, q)
  | .empty => .ok (.flag (q.mNowSize == 0), q)
  | .clear => q.clear

/-! ## §2. The finite map. -/

/-- The same calls on a finite map. -/
def finiteMap (m : Finmap fun _ : K => V) : Call K V → Except Stop (Answer V × Finmap fun _ : K => V)
  | .push key value _ => if key ∈ m then .ok (.flag false, m) else .ok (.flag true, m.insert key value)
  | .pop key => .ok (.flag (decide (key ∈ m)), m.erase key)
  | .search key => .ok (.value (m.lookup key), m)
  | .size => .ok (.count m.keys.card, m)
  | .empty => .ok (.flag (m.keys.card == 0), m)
  | .clear => .ok (.unit, ∅)

/-- The pair in a node that is allocated. -/
def pairAt (heap : NodeStore (ChainNode K V)) (p : ℕ) : Option (K × V) :=
  (heap.lookup p).map fun x => (x.mKey, x.mValue)

variable {hashOf : K → UInt64} {q q' : QLinearHash K V} {m : Finmap fun _ : K => V} {chain : ℕ → List ℕ}

/-- The chain of a bucket: the allocated nodes of that hash value, each once. -/
structure Chained (hashOf : K → UInt64) (q : QLinearHash K V) (chain : ℕ → List ℕ) : Prop where
  linked : ∀ i head, q.pHashTable[i]? = some head → Linked (follow ChainNode.link q.heap) head (chain i)
  nodup : ∀ i, (chain i).Nodup
  mem : ∀ i p, p ∈ chain i ↔ ∃ k v, pairAt q.heap p = some (k, v) ∧ q.hash (hashOf k) = i

/-- The pairs of a map, each in a place of its own. -/
structure InPlaces (place : ℕ → Option (K × V)) (m : Finmap fun _ : K => V) : Prop where
  once : ∀ p r k v w, place p = some (k, v) → place r = some (k, w) → p = r
  pairs : ∀ k v, m.lookup k = some v ↔ ∃ p, place p = some (k, v)

/-- The allocated nodes hold the pairs of the map, and all of them are in the chain
    of their bucket. -/
structure Holds (hashOf : K → UInt64) (q : QLinearHash K V) (m : Finmap fun _ : K => V) : Prop where
  divisor : 1 ≤ q.mDivisor ∧ q.mDivisor ≤ q.mBuckets
  length : (q.pHashTable.length : ℤ) = q.mBuckets
  chained : ∃ chain, Chained hashOf q chain
  places : InPlaces (pairAt q.heap) m
  size : q.mNowSize = m.keys.card
  size_le : q.mNowSize ≤ INT32_MAX

/-- `new` returns an address that is free. -/
def Allocates (q : QLinearHash K V) (_ : Finmap fun _ : K => V) : Call K V → Prop
  | .push _ _ addr => addr ∉ q.heap
  | _ => True

/-- A push of another key finds room in `mNowSize`, and `clear()` an empty table. -/
def Keeps (_ : QLinearHash K V) (m : Finmap fun _ : K => V) : Call K V → Prop
  | .push key _ _ => key ∈ m ∨ (m.keys.card : ℤ) < INT32_MAX
  | .clear => m = ∅
  | _ => True

/-! ## §3. The nodes. -/

section Places

variable {place place' : ℕ → Option (K × V)} {p : ℕ} {key : K} {value : V}

section

variable (h : InPlaces place m)
include h

theorem InPlaces.ne_of_notMem (hout : key ∉ m) (p : ℕ) (v : V) : place p ≠ some (key, v) :=
  fun hp => hout (mem_of_lookup_eq_some ((h.pairs key v).mpr ⟨p, hp⟩))

/-- A new pair in a new place. -/
theorem InPlaces.insert (hout : key ∉ m) (hnone : place p = none) (hnew : place' p = some (key, value))
    (hsame : ∀ r, r ≠ p → place' r = place r) : InPlaces place' (m.insert key value) := by
  have hnot := h.ne_of_notMem hout
  have hcases : ∀ r k v, place' r = some (k, v) → (r = p ∧ k = key ∧ v = value) ∨ (r ≠ p ∧ place r = some (k, v)) := by
    intro r k v hr
    by_cases hrp : r = p
    · rw [hrp, hnew] at hr
      injection hr with hr
      injection hr with hk hv
      exact Or.inl ⟨hrp, hk.symm, hv.symm⟩
    · rw [hsame r hrp] at hr
      exact Or.inr ⟨hrp, hr⟩
  refine ⟨?_, ?_⟩
  · intro r s k v w hr hs
    rcases hcases r k v hr with ⟨hrp, hk, -⟩ | ⟨-, hr⟩
    · rcases hcases s k w hs with ⟨hsp, -, -⟩ | ⟨-, hs⟩
      · rw [hrp, hsp]
      · exact absurd hs (hk ▸ hnot s w)
    · rcases hcases s k w hs with ⟨-, hk, -⟩ | ⟨-, hs⟩
      · exact absurd hr (hk ▸ hnot r v)
      · exact h.once r s k v w hr hs
  · intro k v
    by_cases hk : k = key
    · rw [hk, Finmap.lookup_insert]
      constructor
      · intro hv
        injection hv with hv
        exact ⟨p, by rw [hnew, hv]⟩
      · intro hex
        obtain ⟨r, hr⟩ := hex
        rcases hcases r key v hr with ⟨-, -, hv⟩ | ⟨-, hr⟩
        · rw [hv]
        · exact absurd hr (hnot r v)
    rw [lookup_insert_of_ne m hk, h.pairs k v]
    apply exists_congr
    intro r
    by_cases hrp : r = p
    · rw [hrp, hnone]
      refine iff_of_false nofun fun heq => ?_
      rcases hcases p k v heq with ⟨-, hk', -⟩ | ⟨hne, -⟩
      · exact hk hk'
      · exact hne rfl
    · rw [hsame r hrp]

/-- A place emptied. -/
theorem InPlaces.erase (hold : place p = some (key, value)) (hgone : place' p = none)
    (hsame : ∀ r, r ≠ p → place' r = place r) : InPlaces place' (m.erase key) := by
  have hcases : ∀ r k v, place' r = some (k, v) ↔ k ≠ key ∧ place r = some (k, v) := by
    intro r k v
    by_cases hrp : r = p
    · rw [hrp, hgone]
      refine iff_of_false nofun fun hr => ?_
      rw [hold] at hr
      obtain ⟨hk, hr⟩ := hr
      injection hr with hr
      injection hr with hk' _
      exact hk hk'.symm
    · rw [hsame r hrp]
      refine (and_iff_right_of_imp fun hr hk => ?_).symm
      rw [hk] at hr
      exact hrp (h.once r p key v value hr hold)
  refine ⟨?_, ?_⟩
  · intro r s k v w hr hs
    exact h.once r s k v w ((hcases r k v).mp hr).2 ((hcases s k w).mp hs).2
  · intro k v
    by_cases hk : k = key
    · rw [hk, Finmap.lookup_erase]
      refine iff_of_false nofun fun hex => ?_
      obtain ⟨r, hr⟩ := hex
      exact ((hcases r key v).mp hr).1 rfl
    rw [Finmap.lookup_erase_ne hk, h.pairs k v]
    apply exists_congr
    intro r
    rw [hcases r k v]
    exact (and_iff_right hk).symm

/-- **THE PLACES LISTED**: the pairs in them are those of the map. -/
theorem InPlaces.listed {l : List ℕ} (hnodup : l.Nodup) (hall : ∀ p, p ∈ l ↔ ∃ k v, place p = some (k, v)) :
    ∃ es : List (K × V), l.map place = es.map some ∧ (es.map Prod.fst).Nodup ∧
      (∀ k v, (k, v) ∈ es ↔ m.lookup k = some v) ∧ es.length = m.keys.card := by
  have hsome : ∀ e ∈ l.map place, e.isSome = true := by
    intro e he
    obtain ⟨p, hp, heq⟩ := mem_map.mp he
    obtain ⟨k, v, hkv⟩ := (hall p).mp hp
    rw [← heq, hkv]
    rfl
  have hmem : ∀ k v, (k, v) ∈ l.filterMap place ↔ m.lookup k = some v := by
    intro k v
    rw [mem_filterMap, h.pairs k v]
    apply exists_congr
    intro p
    exact and_iff_right_of_imp fun hp => (hall p).mpr ⟨k, v, hp⟩
  have hkeys : ((l.filterMap place).map Prod.fst).Nodup := by
    rw [map_filterMap]
    refine hnodup.filterMap ?_
    intro p r k hp hr
    obtain ⟨⟨k₁, v⟩, hp, hk₁⟩ := map_eq_some_iff.mp hp
    obtain ⟨⟨k₂, w⟩, hr, hk₂⟩ := map_eq_some_iff.mp hr
    rw [show k₁ = k from hk₁] at hp
    rw [show k₂ = k from hk₂] at hr
    exact h.once p r k v w hp hr
  refine ⟨l.filterMap place, ?_, hkeys, hmem, ?_⟩
  · rw [map_filterMap_some_eq_filter_map_isSome, filter_eq_self.mpr hsome]
  · have hset : m.keys = ((l.filterMap place).map Prod.fst).toFinset := by
      ext k
      rw [Finmap.mem_keys, Finmap.mem_iff, List.mem_toFinset, List.mem_map]
      constructor
      · intro hex
        obtain ⟨v, hv⟩ := hex
        exact ⟨(k, v), (hmem k v).mpr hv, rfl⟩
      · intro hex
        obtain ⟨⟨k', v⟩, hin, hk⟩ := hex
        exact ⟨v, (hmem k v).mp (hk ▸ hin)⟩
    rw [hset, toFinset_card_of_nodup hkeys, length_map]

end

end Places

section Nodes

variable {heap : NodeStore (ChainNode K V)} {p r : ℕ} {k : K} {v : V}

omit [DecidableEq K] in
theorem pairAt_eq_some : pairAt heap p = some (k, v) ↔
    ∃ x, heap.lookup p = some x ∧ x.mKey = k ∧ x.mValue = v := by
  unfold pairAt
  rw [map_eq_some_iff]
  simp only [Prod.mk.injEq]

variable {x : ChainNode K V}

omit [DecidableEq K] in
theorem pairAt_insert_ne (hr : r ≠ p) : pairAt (heap.insert p x) r = pairAt heap r := by
  rw [pairAt, lookup_insert_ne hr, pairAt]

omit [DecidableEq K] in
@[simp] theorem pairAt_insert_self :
    pairAt (heap.insert p x) p = some (x.mKey, x.mValue) := by
  rw [pairAt, AList.lookup_insert, map_some]

omit [DecidableEq K] in
theorem pairAt_erase_ne (hr : r ≠ p) : pairAt (heap.erase p) r = pairAt heap r := by
  rw [pairAt, AList.lookup_erase_ne hr, pairAt]

omit [DecidableEq K] in
@[simp] theorem pairAt_erase_self : pairAt (heap.erase p) p = none := by
  rw [pairAt, AList.lookup_erase, map_none]

omit [DecidableEq K] in
theorem pairAt_isSome : (∃ k v, pairAt heap p = some (k, v)) ↔ p ∈ heap := by
  constructor
  · intro h
    obtain ⟨k, v, hp⟩ := h
    obtain ⟨x, hx, -⟩ := pairAt_eq_some.mp hp
    exact live_of_lookup hx
  · intro hp
    obtain ⟨x, hx⟩ := lookup_of_live hp
    exact ⟨x.mKey, x.mValue, pairAt_eq_some.mpr ⟨x, hx, rfl, rfl⟩⟩

omit [DecidableEq K] in
theorem Chained.live (h : Chained hashOf q chain) {i : ℕ} (hp : p ∈ chain i) : p ∈ q.heap := by
  obtain ⟨k, v, hpair, -⟩ := (h.mem i p).mp hp
  exact pairAt_isSome.mp ⟨k, v, hpair⟩

omit [DecidableEq K] in
theorem Chained.bucket_eq (h : Chained hashOf q chain) {i j : ℕ} (hi : p ∈ chain i) (hj : p ∈ chain j) :
    i = j := by
  obtain ⟨k, v, hpair, hhash⟩ := (h.mem i p).mp hi
  obtain ⟨k', v', hpair', hhash'⟩ := (h.mem j p).mp hj
  rw [hpair] at hpair'
  injection hpair' with heq
  injection heq with hk _
  rw [← hhash, ← hhash', hk]

end Nodes

/-! ## §4. Finding a key. -/

section

variable (h : Holds hashOf q m)
include h

theorem Holds.hash_lt (hashKey : UInt64) : q.hash hashKey < q.pHashTable.length := by
  have hdiv := h.divisor
  have hlen := h.length
  have hmod : hashKey.toNat % q.mDivisor.toNat < q.mDivisor.toNat := Nat.mod_lt _ (by omega)
  unfold hash
  omega

theorem Holds.head (hashKey : UInt64) : ∃ head, q.pHashTable[q.hash hashKey]? = some head :=
  ⟨_, getElem?_eq_getElem (h.hash_lt hashKey)⟩

/-- **WHAT THE WALK FINDS**: the node of the key and the one before it, if the map
    has the key. -/
theorem Holds.find_cases (hchain : Chained hashOf q chain) (key : K) :
    (key ∉ m ∧ ∃ prev, q.find (hashOf key) key = some (prev, none)) ∨
      ∃ l₁ p l₂ prev v, chain (q.hash (hashOf key)) = l₁ ++ p :: l₂ ∧
        q.find (hashOf key) key = some (prev, some p) ∧ pairAt q.heap p = some (key, v) ∧
        m.lookup key = some v ∧
        ((l₁ = [] ∧ prev = none) ∨ ∃ l₀ r, l₁ = l₀ ++ [r] ∧ prev = some r) := by
  obtain ⟨head, hhead⟩ := h.head (hashOf key)
  have hlive : ∀ p ∈ chain (q.hash (hashOf key)), p ∈ q.heap := fun p hp => hchain.live hp
  have hwalk := (hchain.linked _ head hhead).walkNodes hlive (fun x => decide (x.mKey = key))
    (Nat.lt_succ_of_le (length_le_entries (hchain.nodup _) hlive)) none
  have hfind : q.find (hashOf key) key = some (seek (fun p =>
      (q.heap.lookup p).any fun x => decide (x.mKey = key)) none (chain (q.hash (hashOf key)))) := by
    unfold find
    rw [hhead, bind_some, hwalk]
  cases hseek : seek (fun p => (q.heap.lookup p).any fun x => decide (x.mKey = key)) none
      (chain (q.hash (hashOf key))) with
  | mk prev found =>
    rw [hseek] at hfind
    cases found with
    | none =>
      refine Or.inl ⟨?_, prev, hfind⟩
      -- a node of the key would be in this chain
      intro hmem
      obtain ⟨v, hv⟩ := mem_iff.mp hmem
      obtain ⟨p, hp⟩ := (h.places.pairs key v).mp hv
      have hin := (hchain.mem _ p).mpr ⟨key, v, hp, rfl⟩
      obtain ⟨x, hx, hkey, -⟩ := pairAt_eq_some.mp hp
      have hnone := seek_snd (fun p => (q.heap.lookup p).any fun x => decide (x.mKey = key))
        (chain (q.hash (hashOf key))) none
      rw [hseek] at hnone
      have hfalse := find?_eq_none.mp hnone.symm p hin
      rw [hx, any_some, decide_eq_true hkey] at hfalse
      exact hfalse rfl
    | some p =>
      obtain ⟨l₁, l₂, hsplit, -, htest, hprev⟩ := seek_eq_some hseek
      obtain ⟨x, hx, hkey⟩ : ∃ x, q.heap.lookup p = some x ∧ x.mKey = key := by
        simpa [Option.any_eq_true] using htest
      have hpair : pairAt q.heap p = some (key, x.mValue) := pairAt_eq_some.mpr ⟨x, hx, hkey, rfl⟩
      refine Or.inr ⟨l₁, p, l₂, prev, x.mValue, hsplit, hfind, hpair, ?_, hprev⟩
      exact (h.places.pairs key x.mValue).mpr ⟨p, hpair⟩

theorem search_matched (key : K) :
    Matched (Holds hashOf) (q.search (hashOf key) key) (.ok (.value (m.lookup key), m)) := by
  obtain ⟨chain, hchain⟩ := h.chained
  unfold search
  rcases h.find_cases hchain key with ⟨hout, prev, hfind⟩ | ⟨l₁, p, l₂, prev, v, -, hfind, hpair, hv, -⟩
  · rw [hfind, checked_some, lookup_eq_none.mpr hout]
    exact .answer h
  obtain ⟨x, hx, -, hval⟩ := pairAt_eq_some.mp hpair
  rw [hfind, checked_some, hv]
  dsimp only
  rw [hx, map_some, hval]
  exact .answer h

end

/-! ## §5. A new pair. -/

variable {key : K}

omit [DecidableEq K] in
/-- A node in front of the chain of its bucket. -/
theorem Chained.push (h : Chained hashOf q chain) {addr : ℕ} (haddr : addr ∉ q.heap) (value : V)
    {head : Option ℕ} (hhead : q.pHashTable[q.hash (hashOf key)]? = some head) (n : ℤ) :
    Chained hashOf { q with
        heap := q.heap.insert addr ⟨key, value, head⟩
        pHashTable := q.pHashTable.set (q.hash (hashOf key)) (some addr)
        mNowSize := n }
      (update chain (q.hash (hashOf key)) (addr :: chain (q.hash (hashOf key)))) := by
  have hne : ∀ {i p}, p ∈ chain i → p ≠ addr := fun hp heq => haddr (heq ▸ h.live hp)
  have hlinked : ∀ i head', q.pHashTable[i]? = some head' →
      Linked (follow ChainNode.link (q.heap.insert addr ⟨key, value, head⟩)) head' (chain i) := by
    intro i head' hi
    exact (h.linked i head' hi).congr fun p hp => follow_insert_ne (hne hp)
  refine ⟨?_, ?_, ?_⟩
  · intro i head' hi
    by_cases hbucket : i = q.hash (hashOf key)
    · rw [hbucket] at hi ⊢
      rw [List.getElem?_set_self (List.getElem?_eq_some_iff.mp hhead).1] at hi
      rw [update_self]
      refine ⟨by injection hi with hi; exact hi.symm, ?_⟩
      rw [follow_insert_self]
      exact hlinked _ head hhead
    · rw [getElem?_set_ne (Ne.symm hbucket)] at hi
      rw [update_of_ne hbucket]
      exact hlinked i head' hi
  · intro i
    by_cases hbucket : i = q.hash (hashOf key)
    · rw [hbucket, update_self, nodup_cons]
      exact ⟨fun hin => hne hin rfl, h.nodup _⟩
    · rw [update_of_ne hbucket]
      exact h.nodup i
  · intro i p
    show p ∈ update chain _ _ i ↔ ∃ k v, pairAt (q.heap.insert addr _) p = some (k, v) ∧ q.hash (hashOf k) = i
    by_cases hp : p = addr
    · rw [hp, pairAt_insert_self]
      by_cases hbucket : i = q.hash (hashOf key)
      · rw [hbucket, update_self]
        exact iff_of_true mem_cons_self ⟨key, value, rfl, rfl⟩
      rw [update_of_ne hbucket]
      refine iff_of_false (fun hin => hne hin rfl) ?_
      intro hpair
      obtain ⟨k, v, heq, hhash⟩ := hpair
      injection heq with heq
      injection heq with hk _
      have hk : key = k := hk
      exact hbucket (by rw [← hhash, hk])
    · rw [pairAt_insert_ne hp, ← h.mem]
      by_cases hbucket : i = q.hash (hashOf key)
      · rw [hbucket, update_self, mem_cons]
        exact or_iff_right hp
      · rw [update_of_ne hbucket]

theorem card_insert (hout : key ∉ m) (value : V) : (m.insert key value).keys.card = m.keys.card + 1 := by
  have hkeys : (m.insert key value).keys = insert key m.keys := by
    ext k
    rw [Finmap.mem_keys, Finmap.mem_insert, Finset.mem_insert, Finmap.mem_keys]
  rw [hkeys, Finset.card_insert_of_notMem (fun hin => hout (mem_keys.mp hin))]

theorem push_matched (h : Holds hashOf q m) {value : V} {addr : ℕ} (haddr : addr ∉ q.heap)
    (hkeeps : Keeps q m (.push key value addr)) : Matched (Holds hashOf) (q.push (hashOf key) key value addr)
      (if key ∈ m then .ok (.flag false, m) else .ok (.flag true, m.insert key value)) := by
  obtain ⟨chain, hchain⟩ := h.chained
  unfold push
  rcases h.find_cases hchain key with ⟨hout, prev, hfind⟩ | ⟨l₁, p, l₂, prev, v, -, hfind, -, hv, -⟩
  · have hroom : (m.keys.card : ℤ) < INT32_MAX := hkeeps.resolve_left hout
    have hint : int32 (q.mNowSize + 1) = some ((m.keys.card : ℤ) + 1) := by
      rw [h.size]
      exact int32_of_le (by omega) (by omega)
    obtain ⟨head, hhead⟩ := h.head (hashOf key)
    rw [hfind, checked_some, if_neg hout]
    rw [hint, checked_some, hhead, join_some]
    have hfresh : pairAt q.heap addr = none := by
      rw [pairAt, lookup_eq_none.mpr haddr, map_none]
    refine .answer ⟨h.divisor, ?_, ⟨_, hchain.push haddr value hhead _⟩, ?_, ?_, ?_⟩
    · rw [length_set]
      exact h.length
    · exact h.places.insert hout hfresh pairAt_insert_self fun r hr => pairAt_insert_ne hr
    · rw [card_insert hout]
      rfl
    · show (m.keys.card : ℤ) + 1 ≤ INT32_MAX
      omega
  · rw [hfind, checked_some, if_pos (mem_of_lookup_eq_some hv)]
    exact .answer h

/-! ## §6. A pair taken out. -/

/-- The links lead past a node: the chain of its bucket has another rest, and
    nothing else has changed. -/
structure Unlinked (q q' : QLinearHash K V) (chain : ℕ → List ℕ) (i : ℕ) (rest : List ℕ) : Prop where
  divisor : q'.mDivisor = q.mDivisor
  buckets : q'.mBuckets = q.mBuckets
  size : q'.mNowSize = q.mNowSize
  length : q'.pHashTable.length = q.pHashTable.length
  pairs : ∀ r, pairAt q'.heap r = pairAt q.heap r
  bucket : ∀ head, q'.pHashTable[i]? = some head → Linked (follow ChainNode.link q'.heap) head rest
  others : ∀ j head, j ≠ i → q'.pHashTable[j]? = some head → q.pHashTable[j]? = some head ∧
    ∀ r ∈ chain j, follow ChainNode.link q'.heap r = follow ChainNode.link q.heap r

section Unlinking

variable {i p : ℕ} {l₁ l₂ : List ℕ} {prev : Option ℕ}

omit [DecidableEq K]

/-- **A NODE UNLINKED**, from the bucket or from the node before it. -/
theorem Chained.unlink (h : Chained hashOf q chain) {head : Option ℕ} (hhead : q.pHashTable[i]? = some head)
    (hsplit : chain i = l₁ ++ p :: l₂)
    (hprev : (l₁ = [] ∧ prev = none) ∨ ∃ l₀ r, l₁ = l₀ ++ [r] ∧ prev = some r) :
    ∃ q', q.unlink i prev p = some q' ∧ Unlinked q q' chain i (l₁ ++ l₂) := by
  have hlinked := h.linked i head hhead
  rw [hsplit] at hlinked
  rcases hprev with ⟨hnil, hprev⟩ | ⟨l₀, r, hl₁, hprev⟩
  · rw [hprev]
    refine ⟨_, rfl, rfl, rfl, rfl, length_set, fun _ => rfl, ?_, ?_⟩
    · intro head' hhead'
      rw [List.getElem?_set_self (List.getElem?_eq_some_iff.mp hhead).1] at hhead'
      injection hhead' with hhead'
      rw [← hhead', hnil]
      exact hlinked.suffix
    · intro j head' hj hhead'
      rw [getElem?_set_ne (Ne.symm hj)] at hhead'
      exact ⟨hhead', fun _ _ => rfl⟩
  have hr : r ∈ chain i := by
    rw [hsplit, hl₁]
    simp
  obtain ⟨x, hx⟩ := lookup_of_live (h.live hr)
  have hq' : q.unlink i (some r) p = some
      { q with heap := q.heap.insert r { x with link := follow ChainNode.link q.heap p } } := by
    rw [QLinearHash.unlink, hx, map_some]
  rw [hprev, hq']
  refine ⟨_, rfl, rfl, rfl, rfl, rfl, ?_, ?_, ?_⟩
  · intro y
    by_cases hy : y = r
    · rw [hy, pairAt_insert_self, pairAt, hx, map_some]
    · exact pairAt_insert_ne hy
  · intro head' hhead'
    have heq : head' = head := Option.some.inj (hhead'.symm.trans hhead)
    have hnodup := h.nodup i
    rw [hl₁, show l₀ ++ [r] ++ p :: l₂ = l₀ ++ r :: p :: l₂ by simp] at hlinked
    rw [hsplit, hl₁, show l₀ ++ [r] ++ p :: l₂ = l₀ ++ r :: p :: l₂ by simp] at hnodup
    rw [heq, hl₁, show l₀ ++ [r] ++ l₂ = l₀ ++ r :: l₂ by simp]
    refine (hlinked.unlink hnodup).congr fun y _ => ?_
    by_cases hy : y = r
    · rw [hy, follow_insert_self, update_self]
    · rw [follow_insert_ne hy, update_of_ne hy]
  · intro j head' hj hhead'
    refine ⟨hhead', fun y hy => follow_insert_ne ?_⟩
    intro heq
    rw [heq] at hy
    exact hj (h.bucket_eq hy hr)

/-- The unlinked node deleted. -/
theorem Chained.erase (h : Chained hashOf q chain) (hun : Unlinked q q' chain i (l₁ ++ l₂))
    (hsplit : chain i = l₁ ++ p :: l₂) (n : ℤ) :
    Chained hashOf { q' with heap := q'.heap.erase p, mNowSize := n }
      (update chain i (l₁ ++ l₂)) := by
  have hp : p ∈ chain i := by
    rw [hsplit]
    simp
  have hnodup := h.nodup i
  rw [hsplit] at hnodup
  have hout : p ∉ l₁ ++ l₂ := (nodup_cons.mp (nodup_middle.mp hnodup)).1
  refine ⟨?_, ?_, ?_⟩
  · intro j head hj
    by_cases hbucket : j = i
    · rw [hbucket] at hj ⊢
      rw [update_self]
      exact (hun.bucket head hj).congr fun r hr => follow_erase_ne fun heq => hout (heq ▸ hr)
    obtain ⟨hhead, hfollow⟩ := hun.others j head hbucket hj
    rw [update_of_ne hbucket]
    refine (h.linked j head hhead).congr fun r hr => ?_
    rw [← hfollow r hr]
    exact follow_erase_ne fun heq => hbucket (h.bucket_eq (heq ▸ hr) hp)
  · intro j
    by_cases hbucket : j = i
    · rw [hbucket, update_self]
      exact (nodup_cons.mp (nodup_middle.mp hnodup)).2
    · rw [update_of_ne hbucket]
      exact h.nodup j
  · intro j r
    have hhash : ∀ hashKey, QLinearHash.hash { q' with heap := q'.heap.erase p, mNowSize := n } hashKey
        = q.hash hashKey := by
      intro hashKey
      show hashKey.toNat % q'.mDivisor.toNat = hashKey.toNat % q.mDivisor.toNat
      rw [hun.divisor]
    show r ∈ update chain i (l₁ ++ l₂) j ↔ ∃ k v, pairAt (q'.heap.erase p) r = some (k, v) ∧ _
    simp only [hhash]
    by_cases hr : r = p
    · rw [hr, pairAt_erase_self]
      refine iff_of_false ?_ (by simp)
      by_cases hbucket : j = i
      · rw [hbucket, update_self]
        exact hout
      · rw [update_of_ne hbucket]
        exact fun hin => hbucket (h.bucket_eq hin hp)
    · rw [pairAt_erase_ne hr, hun.pairs r, ← h.mem]
      by_cases hbucket : j = i
      · rw [hbucket, update_self, hsplit]
        simp [hr]
      · rw [update_of_ne hbucket]

end Unlinking

theorem pop_matched (h : Holds hashOf q m) (key : K) :
    Matched (Holds hashOf) (q.pop (hashOf key) key) (.ok (.flag (decide (key ∈ m)), m.erase key)) := by
  obtain ⟨chain, hchain⟩ := h.chained
  unfold pop
  rcases h.find_cases hchain key with ⟨hout, prev, hfind⟩ | ⟨l₁, p, l₂, prev, v, hsplit, hfind, hpair, hv, hprev⟩
  · rw [hfind, checked_some, decide_eq_false hout]
    have herase : m.erase key = m := by
      apply ext_lookup
      intro k
      by_cases hk : k = key
      · rw [hk, Finmap.lookup_erase, Finmap.lookup_eq_none.mpr hout]
      · exact lookup_erase_ne hk
    rw [herase]
    exact .answer h
  have hmem := mem_of_lookup_eq_some hv
  obtain ⟨head, hhead⟩ := h.head (hashOf key)
  obtain ⟨q', hq', hun⟩ := hchain.unlink hhead hsplit hprev
  have hcard : (m.erase key).keys.card + 1 = m.keys.card := by
    rw [Finmap.keys_erase]
    exact Finset.card_erase_add_one (mem_keys.mpr hmem)
  have hsize := h.size
  have hle := h.size_le
  have hint : int32 (q'.mNowSize - 1) = some ((m.erase key).keys.card : ℤ) := by
    rw [hun.size, hsize, show (m.keys.card : ℤ) - 1 = (m.erase key).keys.card by omega]
    exact int32_of_le (by omega) (by omega)
  rw [hfind, checked_some, decide_eq_true hmem]
  dsimp only
  rw [hq', checked_some, hint, checked_some]
  refine .answer ⟨?_, ?_, ⟨_, hchain.erase hun hsplit _⟩, ?_, rfl, ?_⟩
  · show 1 ≤ q'.mDivisor ∧ q'.mDivisor ≤ q'.mBuckets
    rw [hun.divisor, hun.buckets]
    exact h.divisor
  · show (q'.pHashTable.length : ℤ) = q'.mBuckets
    rw [hun.length, hun.buckets]
    exact h.length
  · refine h.places.erase hpair pairAt_erase_self fun r hr => ?_
    rw [pairAt_erase_ne hr, hun.pairs r]
  · show ((m.erase key).keys.card : ℤ) ≤ INT32_MAX
    omega

/-! ## §7. Clearing. -/

/-- The chains in the order of the buckets. -/
theorem Holds.rows (h : Holds hashOf q m) : ∃ rows : List (List ℕ),
    List.Forall₂ (Linked (follow ChainNode.link q.heap)) q.pHashTable rows ∧ rows.flatten.Nodup ∧
      ∀ p, p ∈ rows.flatten ↔ p ∈ q.heap := by
  obtain ⟨chain, hchain⟩ := h.chained
  refine ⟨(List.range q.pHashTable.length).map chain, ?_, ?_, ?_⟩
  · rw [forall₂_iff_get]
    refine ⟨by simp, fun i hi hi' => ?_⟩
    simp only [get_eq_getElem, getElem_map, getElem_range]
    exact hchain.linked i _ (getElem?_eq_getElem hi)
  · rw [nodup_flatten]
    refine ⟨?_, ?_⟩
    · intro l hl
      obtain ⟨i, -, hi⟩ := mem_map.mp hl
      rw [← hi]
      exact hchain.nodup i
    · rw [pairwise_map]
      refine List.Pairwise.imp ?_ nodup_range
      intro i j hne p hi hj
      exact hne (hchain.bucket_eq hi hj)
  · intro p
    rw [mem_flatten]
    constructor
    · intro hex
      obtain ⟨l, hl, hp⟩ := hex
      obtain ⟨i, -, hi⟩ := mem_map.mp hl
      exact hchain.live (hi ▸ hp : p ∈ chain i)
    · intro hp
      obtain ⟨k, v, hpair⟩ := pairAt_isSome.mpr hp
      refine ⟨chain (q.hash (hashOf k)), mem_map.mpr ⟨_, mem_range.mpr (h.hash_lt _), rfl⟩, ?_⟩
      exact (hchain.mem _ p).mpr ⟨k, v, hpair, rfl⟩

omit [DecidableEq K] in
/-- **ALL CHAINS DELETED.** -/
theorem clearBuckets_rows {heads : List (Option ℕ)} {rows : List (List ℕ)} {heap : NodeStore (ChainNode K V)}
    (hrows : List.Forall₂ (Linked (follow ChainNode.link heap)) heads rows) (hnodup : rows.flatten.Nodup)
    (hlive : ∀ p ∈ rows.flatten, p ∈ heap) :
    ∃ heap', clearBuckets heads heap = some (heap', rows.flatten.length) ∧
      (∀ p ∈ rows.flatten, p ∉ heap') ∧ ∀ p, p ∉ rows.flatten → heap'.lookup p = heap.lookup p := by
  induction heads generalizing rows heap with
  | nil =>
    cases hrows
    exact ⟨heap, rfl, fun p hp => absurd hp not_mem_nil, fun _ _ => rfl⟩
  | cons head heads ih =>
    cases hrows with
    | cons hl hrest =>
      rename_i l rows
      rw [flatten_cons, nodup_append] at hnodup
      obtain ⟨hnl, hnrows, hdisj⟩ := hnodup
      have hlivel : ∀ p ∈ l, p ∈ heap := fun p hp => hlive p (mem_append_left _ hp)
      obtain ⟨heap₁, hdel, hgone, hkept⟩ := hl.deleteNodes hnl hlivel
        (Nat.lt_succ_of_le (length_le_entries hnl hlivel))
      have hout : ∀ p ∈ rows.flatten, p ∉ l := fun p hp hpl => hdisj p hpl p hp rfl
      -- the other chains are as they were
      have hrest₁ : List.Forall₂ (Linked (follow ChainNode.link heap₁)) heads rows :=
        forall₂_linked_congr hrest fun p hp => follow_congr (hkept p (hout p hp))
      obtain ⟨heap₂, hclear, hgone₂, hkept₂⟩ := ih hrest₁ hnrows (fun p hp => by
        rw [← AList.lookup_isSome, hkept p (hout p hp), AList.lookup_isSome]
        exact hlive p (mem_append_right l hp))
      refine ⟨heap₂, ?_, ?_, ?_⟩
      · rw [clearBuckets, hdel, bind_some, hclear, map_some, flatten_cons,
          length_append]
      · intro p hp
        rw [flatten_cons, mem_append] at hp
        by_cases hpr : p ∈ rows.flatten
        · exact hgone₂ p hpr
        · rw [← AList.lookup_isSome, hkept₂ p hpr, AList.lookup_isSome]
          exact hgone p (hp.resolve_right hpr)
      · intro p hp
        rw [flatten_cons, mem_append, not_or] at hp
        rw [hkept₂ p hp.2, hkept p hp.1]

theorem Holds.listed (h : Holds hashOf q m) : ∃ rows : List (List ℕ), ∃ es : List (K × V),
    List.Forall₂ (Linked (follow ChainNode.link q.heap)) q.pHashTable rows ∧ rows.flatten.Nodup ∧
      (∀ p, p ∈ rows.flatten ↔ p ∈ q.heap) ∧ rows.flatten.map (pairAt q.heap) = es.map some ∧
      (es.map Prod.fst).Nodup ∧ (∀ k v, (k, v) ∈ es ↔ m.lookup k = some v) ∧ es.length = m.keys.card := by
  obtain ⟨rows, hrows, hnodup, hmem⟩ := h.rows
  obtain ⟨es, hes⟩ := h.places.listed hnodup fun p => (hmem p).trans pairAt_isSome.symm
  exact ⟨rows, es, hrows, hnodup, hmem, hes⟩

/-- What `clear()` returns with: no nodes, no pairs counted, and the heads that
    were there. -/
theorem Holds.clear_eq (h : Holds hashOf q m) : ∃ heap, (∀ p, p ∉ heap) ∧
    q.clear = .ok (.unit, { q with heap := heap, mNowSize := 0 }) := by
  obtain ⟨rows, es, hrows, hnodup, hmem, hpairs, -, -, hcard⟩ := h.listed
  obtain ⟨heap, hclear, hgone, hkept⟩ := clearBuckets_rows hrows hnodup fun p hp => (hmem p).mp hp
  have hlen : rows.flatten.length = m.keys.card := by
    have hmap := congrArg List.length hpairs
    rw [length_map, length_map] at hmap
    omega
  refine ⟨heap, fun p hp => ?_, ?_⟩
  · by_cases hin : p ∈ rows.flatten
    · exact hgone p hin hp
    · rw [← AList.lookup_isSome, hkept p hin, AList.lookup_isSome] at hp
      exact hin ((hmem p).mpr hp)
  · unfold clear
    rw [hclear, checked_some, hlen, h.size, sub_self]
    rfl

omit [DecidableEq K] in
/-- A head refers to an allocated node. -/
theorem Chained.head_live (h : Chained hashOf q chain) {p : ℕ} (hp : some p ∈ q.pHashTable) : p ∈ q.heap := by
  obtain ⟨i, hi⟩ := mem_iff_getElem?.mp hp
  have hlinked := h.linked i _ hi
  cases hl : chain i with
  | nil =>
    rw [hl] at hlinked
    exact absurd hlinked (by simp [Linked])
  | cons r l =>
    rw [hl] at hlinked
    have hpr : p = r := Option.some.inj hlinked.1
    refine h.live (i := i) ?_
    rw [hl, hpr]
    exact mem_cons_self

theorem Holds.heads_none (h : Holds hashOf q ∅) : ∀ head ∈ q.pHashTable, head = none := by
  intro head hhead
  obtain ⟨chain, hchain⟩ := h.chained
  cases head with
  | none => rfl
  | some p =>
    obtain ⟨k, v, hp⟩ := pairAt_isSome.mpr (hchain.head_live hhead)
    have hv := (h.places.pairs k v).mpr ⟨p, hp⟩
    cases hv

omit [DecidableEq K] in
/-- No nodes, and no heads. -/
theorem holds_empty [DecidableEq K] (hdiv : 1 ≤ q.mDivisor ∧ q.mDivisor ≤ q.mBuckets)
    (hlen : (q.pHashTable.length : ℤ) = q.mBuckets) (hheads : ∀ head ∈ q.pHashTable, head = none)
    (hnone : ∀ p, p ∉ q.heap) (hsize : q.mNowSize = 0) : Holds hashOf q ∅ := by
  have hpair : ∀ p k v, pairAt q.heap p ≠ some (k, v) :=
    fun p k v hp => hnone p (pairAt_isSome.mp ⟨k, v, hp⟩)
  refine ⟨hdiv, hlen, ⟨fun _ => [], ?_, fun _ => nodup_nil, ?_⟩, ⟨?_, ?_⟩, ?_, ?_⟩
  · exact fun i head hi => hheads head (mem_of_getElem? hi)
  · intro i p
    refine iff_of_false not_mem_nil fun hex => ?_
    obtain ⟨k, v, hp, -⟩ := hex
    exact hpair p k v hp
  · exact fun p r k v w hp => absurd hp (hpair p k v)
  · intro k v
    refine iff_of_false nofun fun hex => ?_
    obtain ⟨p, hp⟩ := hex
    exact hpair p k v hp
  · rw [hsize, Finmap.keys_empty, Finset.card_empty]
    rfl
  · rw [hsize]
    decide

theorem clear_matched (h : Holds hashOf q ∅) : Matched (Holds hashOf) q.clear (.ok (.unit, ∅)) := by
  obtain ⟨heap, hnone, hclear⟩ := h.clear_eq
  rw [hclear]
  exact .answer (holds_empty h.divisor h.length h.heads_none hnone rfl)

/-- **A TABLE THAT IS CLEARED WITH PAIRS IN IT** keeps the heads of its buckets,
    which refer to nodes that were deleted. -/
theorem clear_dangles (h : Holds hashOf q m) (hne : m ≠ ∅) : ∃ q', q.clear = .ok (.unit, q') ∧
    q'.mNowSize = 0 ∧ q'.pHashTable = q.pHashTable ∧ ∃ p, some p ∈ q'.pHashTable ∧ p ∉ q'.heap := by
  obtain ⟨heap, hnone, hclear⟩ := h.clear_eq
  obtain ⟨rows, es, hrows, -, hmem, hpairs, -, hes, -⟩ := h.listed
  refine ⟨_, hclear, rfl, rfl, ?_⟩
  -- otherwise there would be no nodes, and no pairs
  by_contra hno
  have hheads : ∀ head ∈ q.pHashTable, head = none := by
    intro head hhead
    cases head with
    | none => rfl
    | some p => exact absurd ⟨p, hhead, hnone p⟩ hno
  apply hne
  apply Finmap.ext_lookup
  intro k
  rw [Finmap.lookup_empty, eq_none_iff_forall_ne_some]
  intro v hv
  obtain ⟨p, hp⟩ := (h.places.pairs k v).mp hv
  have hin := (hmem p).mpr (pairAt_isSome.mp ⟨k, v, hp⟩)
  obtain ⟨l, hl, hpl⟩ := mem_flatten.mp hin
  obtain ⟨i, hi⟩ := mem_iff_getElem?.mp hl
  obtain ⟨hrow, hrow'⟩ := List.getElem?_eq_some_iff.mp hi
  have hhead : i < q.pHashTable.length := hrows.length_eq ▸ hrow
  have hlinked := forall₂_iff_get.mp hrows |>.2 i hhead hrow
  simp only [get_eq_getElem] at hlinked
  rw [hrow', hheads _ (getElem_mem hhead)] at hlinked
  cases l with
  | nil => exact absurd hpl not_mem_nil
  | cons r l => exact absurd hlinked.1 (by simp)

/-! ## §8. Histories. -/

/-- **THE CALLS OF A FINITE MAP.** -/
theorem step_matched (h : Holds hashOf q m) {c : Call K V} (halloc : Allocates q m c) (hkeeps : Keeps q m c) :
    Matched (Holds hashOf) (step hashOf q c) (finiteMap m c) := by
  cases c with
  | push key value addr => exact push_matched h halloc hkeeps
  | pop key => exact pop_matched h key
  | search key => exact search_matched h key
  | size =>
    show Matched (Holds hashOf) (.ok (Answer.count q.mNowSize, q)) (.ok (Answer.count m.keys.card, m))
    rw [h.size]
    exact .answer h
  | empty =>
    show Matched (Holds hashOf) (.ok (Answer.flag (q.mNowSize == 0), q)) (.ok (Answer.flag (m.keys.card == 0), m))
    have hzero : (q.mNowSize == 0) = (m.keys.card == 0) := by
      rw [h.size, Bool.eq_iff_iff, beq_iff_eq, beq_iff_eq, Nat.cast_eq_zero]
    rw [hzero]
    exact .answer h
  | clear =>
    have hnil : m = ∅ := hkeeps
    rw [hnil] at h ⊢
    exact clear_matched h

theorem push_overflow (h : Holds hashOf q m) (hout : key ∉ m) (hfull : ¬ (m.keys.card : ℤ) < INT32_MAX)
    (value : V) (addr : ℕ) : q.push (hashOf key) key value addr = .error .undefined := by
  obtain ⟨chain, hchain⟩ := h.chained
  rcases h.find_cases hchain key with ⟨-, prev, hfind⟩ | ⟨l₁, p, l₂, prev, v, -, -, -, hv, -⟩
  · unfold push
    rw [hfind, checked_some, h.size]
    rw [int32_of_gt (by omega), checked_none]
  · exact absurd (mem_of_lookup_eq_some hv) hout

/-- **THE CALLS THAT ARE NOT**: the count overflows, or the heads dangle. -/
theorem not_step_matched (h : Holds hashOf q m) {c : Call K V} (hbad : ¬ Keeps q m c) :
    ¬ Matched (Holds hashOf) (step hashOf q c) (finiteMap m c) := by
  cases c with
  | push key value addr =>
    have hnot : key ∉ m ∧ ¬ (m.keys.card : ℤ) < INT32_MAX := not_or.mp hbad
    have hpush : q.push (hashOf key) key value addr = .error .undefined := push_overflow h hnot.1 hnot.2 value addr
    show ¬ Matched (Holds hashOf) (q.push (hashOf key) key value addr)
      (if key ∈ m then .ok (.flag false, m) else .ok (.flag true, m.insert key value))
    rw [hpush, if_neg hnot.1]
    exact not_matched_error_ok
  | clear =>
    obtain ⟨q', hclear, -, -, p, hp, hfreed⟩ := clear_dangles h hbad
    show ¬ Matched (Holds hashOf) q.clear (.ok (.unit, ∅))
    rw [hclear]
    intro hmatched
    obtain ⟨chain, hchain⟩ := (matched_ok_iff.mp hmatched).2.chained
    exact hfreed (hchain.head_live hp)
  | pop key | search key | size | empty => exact absurd trivial hbad

theorem new_holds (hashOf : K → UInt64) {size divisor : ℤ} (hdiv : IsDivisor size divisor)
    (hget : getDivisor size = some divisor) :
    ∃ q : QLinearHash K V, new size = some q ∧ Holds hashOf q ∅ := by
  obtain ⟨h1, hle⟩ := hdiv.range
  refine ⟨_, by unfold new; rw [if_pos (by omega), hget, map_some], ?_⟩
  refine holds_empty ⟨h1, hle⟩ ?_ (fun head hhead => eq_of_mem_replicate hhead)
    (fun p => notMem_empty p) rfl
  rw [length_replicate, Int.toNat_of_nonneg (by omega)]

/-- **A QLinearHash IS A FINITE MAP** over every history, exactly when no prime
    overflows on the way to the divisor, the pairs can be counted, and the table is
    only cleared while it is empty. -/
theorem history_map_iff (hashOf : K → UInt64) {size : ℤ} (h1 : 1 ≤ size) (hmax : size ≤ INT32_MAX)
    (cs : List (Call K V))
    (halloc : ∀ q ∈ (new size : Option (QLinearHash K V)), Calls (step hashOf) finiteMap Allocates q ∅ cs) :
    (∃ q ∈ (new size : Option (QLinearHash K V)), ∀ n, Matched (Holds hashOf)
        (history (step hashOf) q (cs.take n)) (history finiteMap ∅ (cs.take n))) ↔
      (∀ p, p ≤ size → ¬ Overflows p) ∧
        ∀ q ∈ (new size : Option (QLinearHash K V)), Calls (step hashOf) finiteMap Keeps q ∅ cs := by
  rcases getDivisor_eq h1 hmax with ⟨⟨p, hp, hbad⟩, hnone⟩ | ⟨hsmall, divisor, hget, hdiv⟩
  · refine iff_of_false (fun hex => ?_) (fun h => h.1 p hp hbad)
    obtain ⟨q, hq, -⟩ := hex
    have hnew : (new size : Option (QLinearHash K V)) = none := by
      unfold new
      rw [if_pos (by omega), hnone, Option.map_none]
    rw [hnew] at hq
    cases hq
  · obtain ⟨q, hq, hholds⟩ := new_holds (V := V) hashOf hdiv hget
    rw [hq] at halloc ⊢
    have hiff : (∀ n, Matched (Holds hashOf) (history (step hashOf) q (cs.take n))
          (history finiteMap ∅ (cs.take n))) ↔ Calls (step hashOf) finiteMap Keeps q ∅ cs :=
      matched_iff_calls (fun _ _ => True)
        (fun _ _ _ h _ halloc hkeeps => (step_matched h halloc hkeeps).mono fun _ _ h => ⟨h, trivial⟩)
        (fun _ _ _ h _ _ hbad => not_step_matched h hbad) hholds trivial (halloc q rfl)
    constructor
    · intro hex
      obtain ⟨q', hq', hmatched⟩ := hex
      injection hq' with hq'
      rw [← hq'] at hmatched
      refine ⟨hsmall, fun q' hq' => ?_⟩
      injection hq' with hq'
      rw [← hq']
      exact hiff.mp hmatched
    · intro h
      exact ⟨q, rfl, hiff.mpr (h.2 q rfl)⟩

instance (q : QLinearHash K V) (m : Finmap fun _ : K => V) : ∀ c, Decidable (Allocates q m c)
  | .push _ _ addr => inferInstanceAs (Decidable (addr ∉ q.heap))
  | .pop _ => inferInstanceAs (Decidable True)
  | .search _ => inferInstanceAs (Decidable True)
  | .size => inferInstanceAs (Decidable True)
  | .empty => inferInstanceAs (Decidable True)
  | .clear => inferInstanceAs (Decidable True)

/-- Two pairs of one bucket, one of them taken out again. -/
theorem history_map_iff_seven :
    (∃ q ∈ (new 7 : Option (QLinearHash ℕ ℕ)), ∀ n, Matched (Holds UInt64.ofNat)
        (history (step UInt64.ofNat) q
          (([.push 1 10 100, .push 8 80 101, .pop 1, .search 8] : List (Call ℕ ℕ)).take n))
        (history finiteMap ∅
          (([.push 1 10 100, .push 8 80 101, .pop 1, .search 8] : List (Call ℕ ℕ)).take n))) ↔
      (∀ p, p ≤ 7 → ¬ Overflows p) ∧
        ∀ q ∈ (new 7 : Option (QLinearHash ℕ ℕ)), Calls (step UInt64.ofNat) finiteMap Keeps q ∅
          ([.push 1 10 100, .push 8 80 101, .pop 1, .search 8] : List (Call ℕ ℕ)) :=
  history_map_iff UInt64.ofNat (by decide) (by decide) _ (by decide)

/-- A pair is pushed, the table cleared, and the key searched for: the head of its
    bucket refers to a node that was deleted. -/
theorem search_after_clear :
    ¬ ∀ (size : ℤ), 1 ≤ size → size ≤ INT32_MAX → ∀ cs : List (Call ℕ ℕ),
      (∀ q ∈ (new size : Option (QLinearHash ℕ ℕ)), Calls (step UInt64.ofNat) finiteMap Allocates q ∅ cs) →
        ∃ q ∈ (new size : Option (QLinearHash ℕ ℕ)), Matched (Holds UInt64.ofNat)
          (history (step UInt64.ofNat) q cs) (history finiteMap ∅ cs) := by
  intro h
  obtain ⟨q, hq, hmatched⟩ := h 7 (by decide) (by decide) [.push 1 10 100, .clear, .search 1] (by decide)
  have hwrong : ∀ q ∈ (new 7 : Option (QLinearHash ℕ ℕ)),
      answers (history (step UInt64.ofNat) q [.push 1 10 100, .clear, .search 1])
        ≠ answers (history finiteMap ∅ [.push 1 10 100, .clear, .search 1]) := by decide
  exact hwrong q hq hmatched.answers_eq

end QLinearHash

end KalavaPir.Common
