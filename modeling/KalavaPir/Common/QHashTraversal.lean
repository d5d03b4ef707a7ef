/-
  KalavaPir.Common.QHashTraversal — `prepareTraversal` and `traverse` of
  `QHashSearch`, `QDiskCache` and `QLinearHash`.

  The three are one traversal of the chains of a table; what differs is what a
  pointer is.  In the tables of `QHashSearch` a chain is kept as the list of its
  entries, and a pointer into it is what is left of the list; in a `QLinearHash`
  it is the address of a node, which may have been deleted.
-/
import KalavaPir.Framework.BucketWalk
import KalavaPir.Common.QHashChunks
import KalavaPir.Common.QDiskCacheSave
import KalavaPir.Common.QLinearHash

namespace KalavaPir.Common

open KalavaPir.Framework KalavaPir.Framework.BucketWalk List Option

/-! ## §1. The tables of `QHashSearch` and `QDiskCache`. -/

namespace HashTable

variable {T : KeyType} {t : HashTable T}

/-- What `traverse` delivers of an entry: the key, and the bytes that `vprRetBuf`
    and `data_len` refer to, which are left alone in a table without values. -/
def delivered (t : HashTable T) (e : HashEntry T) : Key T × Option (List UInt8) :=
  (e.key,
    if t.data_len_ < 0 then some ((e.body.drop 4).take (length_VL e).toNat)
    else if t.data_len_ > 0 then some (e.body.take t.data_len_.toNat)
    else none)

/-- What an entry stores: its key and its value. -/
def stored (t : HashTable T) (e : HashEntry T) : Key T × Option (List UInt8) :=
  (e.key, if t.data_len_ = 0 then none else some (if t.data_len_ < 0 then e.body.drop 4 else e.body))

/-- The entry that a pointer refers to, and `*(char**)traversal_pos_`. -/
def readEntry (t : HashTable T) : List (HashEntry T) →
    Option ((Key T × Option (List UInt8)) × List (HashEntry T))
  | [] => none
  | e :: rest => some (t.delivered e, rest)

/-- `prepareTraversal()`. -/
def prepareTraversal (t : HashTable T) : Option (Cursor (List (HashEntry T))) := prepare t.hash_table_

/-- `traverse(key, vprRetBuf, data_len)`. -/
def traverse (t : HashTable T) : Cursor (List (HashEntry T)) →
    Option (Option (Key T × Option (List UInt8)) × Cursor (List (HashEntry T))) :=
  BucketWalk.traverse List.isEmpty t.readEntry t.hash_table_

/-- A traversal delivers the pairs that are stored, each once, `data_num_` of
    them. -/
def TraversesExactly (t : HashTable T) : Prop :=
  Exact t.prepareTraversal t.traverse (t.entries.map t.stored) t.data_num_

/-- The value of an entry is delivered as it is stored. -/
theorem Valid.delivered_eq (h : t.Valid) {e : HashEntry T} (he : e ∈ t.entries) :
    t.delivered e = t.stored e := by
  unfold delivered stored
  by_cases hneg : t.data_len_ < 0
  · obtain ⟨-, a, -, -, -, hshape⟩ := h.varying hneg
    obtain ⟨data, hbody, hvalue, -⟩ := (hshape e he).parts
    have hall : (e.body.drop 4).length ≤ (length_VL e).toNat := by
      rw [hvalue, hbody, length_drop, length_append, length_encodeInt]
      omega
    rw [if_pos hneg, if_neg (by omega), if_pos hneg, take_of_length_le hall]
  obtain ⟨-, a, -, -, hbody⟩ := h.fixed (by omega)
  have hlen := hbody e he
  rw [if_neg hneg]
  by_cases hzero : t.data_len_ = 0
  · rw [if_neg (by omega), if_pos hzero]
  · rw [if_pos (by omega), if_neg hzero, if_neg hneg, take_of_length_le (by omega)]

/-- The traversal of one chain. -/
theorem follows_chain (t : HashTable T) (chain : List (HashEntry T)) :
    ReadsOut List.isEmpty t.readEntry chain (chain.map t.delivered) := by
  induction chain with
  | nil => rfl
  | cons e rest ih => exact ⟨rfl, rest, rfl, ih⟩

/-- **A VALID TABLE IS TRAVERSED EXACTLY.** -/
theorem Valid.traversesExactly (h : t.Valid) : t.TraversesExactly := by
  have hlen := h.buckets
  have hpos := h.bucket_pos
  have hrows : List.Forall₂ (ReadsOut List.isEmpty t.readEntry) t.hash_table_
      (t.hash_table_.map (List.map t.delivered)) := by
    rw [forall₂_map_right_iff, forall₂_same]
    exact fun chain _ => follows_chain t chain
  have hflat : (t.hash_table_.map (List.map t.delivered)).flatten = t.entries.map t.stored := by
    rw [← map_flatten]
    exact map_congr_left fun e he => h.delivered_eq he
  refine ⟨t.entries.map t.stored, yields_iff.mpr ⟨?_, _, hrows, hflat.symm⟩, rfl, ?_⟩
  · intro hnil
    rw [hnil] at hlen
    simp only [length_nil] at hlen
    omega
  · rw [length_map, h.num]

theorem run_traversesExactly {bucket_size data_len : ℤ} (hb : 0 < bucket_size) {calls : List (Call T)}
    (hrun : ((HashTable.new T).init bucket_size data_len).2.run calls = some t) : t.TraversesExactly :=
  ((valid_init (HashTable.new T) hb ⟨rfl, rfl⟩).2.1.run hrun).traversesExactly

end HashTable

/-! ## §2. A file that is loaded. -/

section Reader

variable {T : KeyType} {σ : Type} {I : σ → Prop}

theorem loadLoop_FL_keeps {add : σ → Key T → (ℕ → UInt8) → Option (ℤ × σ)}
    (hadd : ∀ s key p r, I s → add s key p = some r → I r.2) (n fuel : ℕ) :
    ∀ {file s s'}, I s → loadLoop_FL add n fuel file s = some s' → I s' := by
  induction fuel with
  | zero =>
    intro file s s' hs h
    cases h
    exact hs
  | succ fuel ih =>
    intro file s s' hs h
    unfold loadLoop_FL at h
    dsimp only at h
    split at h
    · cases h
      exact hs
    split at h
    · cases h
    split at h
    · cases h
      exact hs
    split at h
    next => cases h
    next code s₁ hstep =>
      have hs₁ : I s₁ := hadd _ _ _ _ hs hstep
      split at h
      · cases h
        exact hs₁
      · exact ih hs₁ h

theorem loadLoop_VL_keeps {add : σ → Key T → (ℕ → UInt8) → ℤ → Option (ℤ × σ)}
    (hadd : ∀ s key p n r, I s → add s key p n = some r → I r.2) (fuel : ℕ) :
    ∀ {file s s'}, I s → loadLoop_VL add fuel file s = some s' → I s' := by
  induction fuel with
  | zero =>
    intro file s s' hs h
    cases h
    exact hs
  | succ fuel ih =>
    intro file s s' hs h
    unfold loadLoop_VL at h
    dsimp only at h
    split at h
    · cases h
      exact hs
    split at h
    · cases h
    split at h
    · cases h
      exact hs
    split at h
    next => cases h
    next code s₁ hstep =>
      have hs₁ : I s₁ := hadd _ _ _ _ _ hs hstep
      split at h
      · cases h
        exact hs₁
      · exact ih hs₁ h

theorem loadEnd_snd (getKeyNum : σ → ℤ) (n : ℤ) (s : σ) : (loadEnd getKeyNum n s).2 = s := by
  unfold loadEnd
  split <;> rfl

/-- **WHAT EVERY ADD KEEPS** is kept by a whole file, whatever is in it. -/
theorem loadFile_keeps {add_FL : σ → Key T → (ℕ → UInt8) → Option (ℤ × σ)}
    {add_VL : σ → Key T → (ℕ → UInt8) → ℤ → Option (ℤ × σ)}
    (hFL : ∀ s key p r, I s → add_FL s key p = some r → I r.2)
    (hVL : ∀ s key p n r, I s → add_VL s key p n = some r → I r.2) {getKeyNum : σ → ℤ} {data_len_ : ℤ}
    {buffer : Bool} {file : List UInt8} {s : σ} {r : ℤ × σ} (hs : I s)
    (h : loadFile add_FL add_VL getKeyNum data_len_ buffer file s = some r) : I r.2 := by
  have hend : ∀ n s', I s' → some (loadEnd getKeyNum n s') = some r → I r.2 := by
    intro n s' hs' heq
    injection heq with heq
    rw [← heq, loadEnd_snd]
    exact hs'
  unfold loadFile at h
  dsimp only at h
  split at h
  · cases h
    exact hs
  split at h
  · exact hend _ s hs h
  split at h
  · exact hend _ s hs h
  split at h
  · exact hend _ s hs h
  split at h
  · exact hend _ s hs h
  obtain ⟨s', hloop, heq⟩ := map_eq_some_iff.mp h
  refine hend _ s' ?_ (congrArg some heq)
  split at hloop
  · exact loadLoop_VL_keeps hVL _ hs hloop
  · exact loadLoop_FL_keeps hFL _ _ hs hloop

end Reader

namespace QDiskCache

variable {T : KeyType}

variable {bucket_size data_len : ℤ} {d : Directory String (List UInt8)} {c : QDiskCache T}

/-- `init` leaves a valid table, with or without a file to load. -/
theorem init_valid (hb : 0 < bucket_size) {code : ℤ}
    (hinit : init T bucket_size data_len d = some (code, c)) :
    c.toHashTable.Valid := by
  have hvalid : (initial T bucket_size data_len).Valid := (initial_valid hb data_len).1
  rw [init_eq hb] at hinit
  split at hinit
  · cases hinit
    exact hvalid
  next file hfile =>
    rw [loadDataFromDisk_free] at hinit
    cases hload : loadFile HashTable.loadAdd_FL HashTable.loadAdd_VL HashTable.getKeyNum
        (initial T bucket_size data_len).data_len_ true file (initial T bucket_size data_len) with
    | none =>
      rw [hload] at hinit
      cases hinit
    | some r =>
      have hkept : r.2.Valid := by
        refine loadFile_keeps (I := HashTable.Valid) ?_ ?_ hvalid hload
        · intro t key p r ht hadd
          obtain ⟨x, hx, hr⟩ := map_eq_some_iff.mp hadd
          rw [← hr]
          exact ht.addKey_FL hx
        · intro t key p n r ht hadd
          obtain ⟨x, hx, hr⟩ := map_eq_some_iff.mp hadd
          rw [← hr]
          exact ht.addKey_VL hx
      rw [hload] at hinit
      dsimp only [map_some] at hinit
      split at hinit
      · cases hinit
        exact hkept
      · cases hinit
        exact hkept

theorem run_traversesExactly (hb : 0 < bucket_size) {code : ℤ} {c' : QDiskCache T}
    (hinit : init T bucket_size data_len d = some (code, c)) {calls : List (HashTable.Call T)}
    (hrun : c.run calls = .returned c') : c'.toHashTable.TraversesExactly :=
  (run_valid (init_valid hb hinit) hrun).traversesExactly

end QDiskCache

/-! ## §3. A `QLinearHash`. -/

namespace QLinearHash

variable {K V : Type} [DecidableEq K] {hashOf : K → UInt64} {q q' : QLinearHash K V}
  {m m' : Finmap fun _ : K => V}

/-- The pair that a pointer refers to, and `pTravPos->link`; nothing in a node that
    was deleted. -/
def readNode (q : QLinearHash K V) (pTravPos : Option ℕ) : Option ((K × V) × Option ℕ) :=
  pTravPos.bind fun p => (q.heap.lookup p).map fun x => ((x.mKey, x.mValue), x.link)

/-- `prepareTraversal()`. -/
def prepareTraversal (q : QLinearHash K V) : Option (Cursor (Option ℕ)) := prepare q.pHashTable

/-- `traverse(key, value)`. -/
def traverse (q : QLinearHash K V) :
    Cursor (Option ℕ) → Option (Option (K × V) × Cursor (Option ℕ)) :=
  BucketWalk.traverse Option.isNone q.readNode q.pHashTable

/-- The pairs of a map. -/
def pairsOf (m : Finmap fun _ : K => V) : Multiset (K × V) := m.entries.map fun e => (e.1, e.2)

/-- A traversal delivers the pairs of the map, each once, `mNowSize` of them. -/
def TraversesExactly (q : QLinearHash K V) (m : Finmap fun _ : K => V) : Prop :=
  Exact q.prepareTraversal q.traverse (pairsOf m) q.mNowSize

/-- Only an empty table is cleared. -/
def ClearsEmpty (_ : QLinearHash K V) (m : Finmap fun _ : K => V) : Call K V → Prop
  | .clear => m = ∅
  | _ => True

omit [DecidableEq K] in
/-- The pairs of a map … -/
theorem mem_pairsOf {k : K} {v : V} : (k, v) ∈ pairsOf m ↔ (⟨k, v⟩ : Sigma fun _ : K => V) ∈ m.entries := by
  unfold pairsOf
  rw [Multiset.mem_map]
  constructor
  · intro h
    obtain ⟨⟨k', v'⟩, hin, heq⟩ := h
    injection heq with hk hv
    rw [← hk, ← hv]
    exact hin
  · intro h
    exact ⟨⟨k, v⟩, h, rfl⟩

omit [DecidableEq K] in
/-- … are listed once. -/
theorem nodup_pairsOf (m : Finmap fun _ : K => V) : (pairsOf m).Nodup := by
  refine m.nodup_entries.map ?_
  intro a b hab
  cases a
  cases b
  cases hab
  rfl

/-- **A TABLE THAT HOLDS A MAP IS TRAVERSED EXACTLY.** -/
theorem Holds.traversesExactly (h : Holds hashOf q m) : q.TraversesExactly m := by
  obtain ⟨rows, es, hrows, -, hmem, hpairs, hkeys, hes, hcard⟩ := h.listed
  have hdiv := h.divisor
  have hlen := h.length
  have hreads : List.Forall₂ (ReadsOut Option.isNone q.readNode) q.pHashTable
      (rows.map (List.filterMap (pairAt q.heap))) := by
    rw [forall₂_map_right_iff]
    refine forall₂_iff_get.mpr ⟨hrows.length_eq, fun i hi hi' => ?_⟩
    refine readsOut_of_linked ((forall₂_iff_get.mp hrows).2 i hi hi') fun p hp => ?_
    obtain ⟨x, hx⟩ := lookup_of_live ((hmem p).mp (mem_flatten.mpr ⟨_, get_mem rows ⟨i, hi'⟩, hp⟩))
    exact ⟨(x.mKey, x.mValue), by rw [pairAt, hx, map_some], by rw [hx, map_some, follow_eq hx]⟩
  have hflat : (rows.map (List.filterMap (pairAt q.heap))).flatten = es := by
    have hfilter := congrArg (List.filterMap id) hpairs
    rw [filterMap_map, filterMap_map] at hfilter
    rw [← filterMap_flatten]
    exact hfilter.trans (filterMap_some)
  refine ⟨es, yields_iff.mpr ⟨?_, _, hreads, hflat.symm⟩, ?_, ?_⟩
  · intro hnil
    rw [hnil, length_nil] at hlen
    omega
  · refine (Multiset.Nodup.ext (Multiset.coe_nodup.mpr hkeys.of_map) (nodup_pairsOf m)).mpr ?_
    intro e
    rw [Multiset.mem_coe, mem_pairsOf, ← Finmap.mem_lookup_iff]
    exact hes e.1 e.2
  · rw [hcard, h.size]

omit [DecidableEq K] in
/-- A head that refers to a deleted node. -/
theorem not_yields_of_dangling {p : ℕ} (hhead : some p ∈ q.pHashTable) (hfreed : p ∉ q.heap)
    (vs : List (K × V)) : ¬ Yields q.prepareTraversal q.traverse vs := by
  intro hyields
  obtain ⟨-, rows, hrows, -⟩ := yields_iff.mp hyields
  obtain ⟨i, hi⟩ := mem_iff_getElem?.mp hhead
  obtain ⟨hlt, hp⟩ := List.getElem?_eq_some_iff.mp hi
  have hrow := (forall₂_iff_get.mp hrows).2 i hlt (hrows.length_eq ▸ hlt)
  rw [get_eq_getElem, hp] at hrow
  generalize rows.get ⟨i, hrows.length_eq ▸ hlt⟩ = row at hrow
  cases row with
  | nil => exact absurd hrow (by simp [ReadsOut])
  | cons e l =>
    obtain ⟨-, p', hread, -⟩ := hrow
    rw [readNode, bind_some, AList.lookup_eq_none.mpr hfreed] at hread
    cases hread

/-- **A TABLE CLEARED WITH PAIRS IN IT** cannot be traversed to its end. -/
theorem not_yields_after_clear (h : Holds hashOf q m) (hne : m ≠ ∅) : ∃ q', q.clear = .ok (.unit, q') ∧
    ∀ vs, ¬ Yields q'.prepareTraversal q'.traverse vs := by
  obtain ⟨q', hclear, -, -, p, hhead, hfreed⟩ := clear_dangles h hne
  exact ⟨q', hclear, not_yields_of_dangling hhead hfreed⟩

variable {cs : List (Call K V)} {as : List (Answer V)}

/-- The calls of a history that comes to its end have been those of the map, if
    only an empty table was cleared. -/
theorem holds_of_history (h : Holds hashOf q m) (halloc : Calls (step hashOf) finiteMap Allocates q m cs)
    (hclears : Calls (step hashOf) finiteMap ClearsEmpty q m cs)
    (hrun : history (step hashOf) q cs = .ok (as, q')) :
    ∃ m', history finiteMap m cs = .ok (as, m') ∧ Holds hashOf q' m' := by
  induction cs generalizing q m as with
  | nil =>
    cases hrun
    exact ⟨m, rfl, h⟩
  | cons c cs ih =>
    rw [history] at hrun
    cases hs : step hashOf q c with
    | error e =>
      rw [hs] at hrun
      cases hrun
    | ok x =>
      obtain ⟨a, q₁⟩ := x
      rw [hs] at hrun
      dsimp only at hrun
      cases hrest : history (step hashOf) q₁ cs with
      | error e =>
        rw [hrest] at hrun
        cases hrun
      | ok y =>
        obtain ⟨bs, q₂⟩ := y
        rw [hrest] at hrun
        cases hrun
        -- a push that could not be counted would not have returned
        have hkeeps : Keeps q m c := by
          cases c with
          | push key value addr =>
            by_contra hbad
            have hnot := not_or.mp hbad
            have herror : q.push (hashOf key) key value addr = .ok (a, q₁) := hs
            rw [push_overflow h hnot.1 hnot.2] at herror
            cases herror
          | clear => exact hclears.1
          | pop key => trivial
          | search key => trivial
          | size => trivial
          | empty => trivial
        have hmatched := step_matched h halloc.1 hkeeps
        rw [hs] at hmatched
        cases ht : finiteMap m c with
        | error e =>
          rw [ht] at hmatched
          exact absurd hmatched not_matched_ok_error
        | ok z =>
          obtain ⟨b, m₁⟩ := z
          rw [ht] at hmatched
          obtain ⟨hab, h₁⟩ := matched_ok_iff.mp hmatched
          rw [← hab] at ht
          obtain ⟨m', hm', h'⟩ := ih h₁ (halloc.2 a q₁ m₁ hs ht) (hclears.2 a q₁ m₁ hs ht) hrest
          refine ⟨m', ?_, h'⟩
          rw [history, ht]
          dsimp only
          rw [hm']
          rfl

/-- A table from the constructor, after calls that clear it only while it is
    empty. -/
theorem history_traversesExactly {size : ℤ} (hmax : size ≤ INT32_MAX) (hnew : new size = some q)
    (halloc : Calls (step hashOf) finiteMap Allocates q ∅ cs)
    (hclears : Calls (step hashOf) finiteMap ClearsEmpty q ∅ cs)
    (hrun : history (step hashOf) q cs = .ok (as, q')) :
    ∃ m', history finiteMap ∅ cs = .ok (as, m') ∧ q'.TraversesExactly m' := by
  have hempty : Holds hashOf q ∅ := by
    have hnew' := hnew
    unfold new at hnew'
    split at hnew'
    next hpos =>
      obtain ⟨divisor, hget, -⟩ := map_eq_some_iff.mp hnew'
      rcases getDivisor_eq (by omega) hmax with ⟨-, hnone⟩ | ⟨-, d, hsome, hdiv⟩
      · rw [hnone] at hget
        cases hget
      obtain ⟨q₀, hq₀, h₀⟩ := new_holds (V := V) hashOf hdiv hsome
      rw [hnew] at hq₀
      injection hq₀ with hq₀
      rw [hq₀]
      exact h₀
    next => cases hnew'
  obtain ⟨m', hm', h'⟩ := holds_of_history hempty halloc hclears hrun
  exact ⟨m', hm', h'.traversesExactly⟩

instance (q : QLinearHash K V) (m : Finmap fun _ : K => V) [DecidableEq V] : ∀ c, Decidable (ClearsEmpty q m c)
  | .push _ _ _ => inferInstanceAs (Decidable True)
  | .pop _ => inferInstanceAs (Decidable True)
  | .search _ => inferInstanceAs (Decidable True)
  | .size => inferInstanceAs (Decidable True)
  | .empty => inferInstanceAs (Decidable True)
  | .clear => inferInstanceAs (Decidable (m = ∅))

end QLinearHash

/-! ## §4. The three classes. -/

/-- **A TRAVERSAL IS EXACT**: for a `QHashSearch` and a `QDiskCache` after any calls,
    whatever file the cache was loaded from, and for a `QLinearHash` after calls
    that clear it only while it is empty. -/
theorem traversal_exact (T : KeyType) {K V : Type} [DecidableEq K] (hashOf : K → UInt64) :
    (∀ (bucket_size data_len : ℤ) (calls : List (HashTable.Call T)) (t : HashTable T), 0 < bucket_size →
      ((HashTable.new T).init bucket_size data_len).2.run calls = some t → t.TraversesExactly) ∧
    (∀ (bucket_size data_len : ℤ) (d : Directory String (List UInt8)) (code : ℤ) (c c' : QDiskCache T)
      (calls : List (HashTable.Call T)), 0 < bucket_size →
      QDiskCache.init T bucket_size data_len d = some (code, c) → c.run calls = .returned c' →
      c'.toHashTable.TraversesExactly) ∧
    (∀ (size : ℤ) (cs : List (QLinearHash.Call K V)) (as : List (QLinearHash.Answer V))
      (q q' : QLinearHash K V), size ≤ INT32_MAX → QLinearHash.new size = some q →
      Calls (QLinearHash.step hashOf) QLinearHash.finiteMap QLinearHash.Allocates q ∅ cs →
      Calls (QLinearHash.step hashOf) QLinearHash.finiteMap QLinearHash.ClearsEmpty q ∅ cs →
      history (QLinearHash.step hashOf) q cs = .ok (as, q') →
      ∃ m', history QLinearHash.finiteMap ∅ cs = .ok (as, m') ∧ q'.TraversesExactly m') :=
  ⟨fun _ _ _ _ hb hrun => HashTable.run_traversesExactly hb hrun,
    fun _ _ _ _ _ _ _ hb hinit hrun => QDiskCache.run_traversesExactly hb hinit hrun,
    fun _ _ _ _ _ hmax hnew halloc hclears hrun =>
      QLinearHash.history_traversesExactly hmax hnew halloc hclears hrun⟩

/-- Keys 1 and 8 are in one of seven buckets, 3 and 5 in two others. -/
def fourAdds : List (HashTable.Call uint64) :=
  [.addKey_FL .ample 1 (some fun _ => 10) (fun _ => 0) 0, .addKey_FL .ample 8 (some fun _ => 80) (fun _ => 0) 0,
    .addKey_FL .ample 3 (some fun _ => 30) (fun _ => 0) 0, .addKey_FL .ample 5 (some fun _ => 50) (fun _ => 0) 0]

/-- The same keys for a `QLinearHash`; 3 is popped again. -/
def fourPushes : List (QLinearHash.Call ℕ ℕ) :=
  [.push 1 10 100, .push 8 80 108, .push 3 30 103, .push 5 50 105, .pop 3]

/-- The number of entries behind calls that returned. -/
def QDiskCache.counted {T : KeyType} : Answer (QDiskCache T) → ℤ
  | .returned c => c.toHashTable.data_num_
  | .blocked => 0
  | .fault => 0

/-- Several entries in several buckets, in a table of each class. -/
theorem traversal_exact_four :
    (∃ t, ((HashTable.new uint64).init 7 4).2.run fourAdds = some t ∧ t.data_num_ = 4 ∧ t.TraversesExactly) ∧
    (∃ code c c', QDiskCache.init uint64 7 4 (fun _ => none) = some (code, c) ∧ c.run fourAdds = .returned c' ∧
      c'.toHashTable.data_num_ = 4 ∧ c'.toHashTable.TraversesExactly) ∧
    (∃ q q' as m', QLinearHash.new 7 = some q ∧ history (QLinearHash.step UInt64.ofNat) q fourPushes = .ok (as, q') ∧
      history QLinearHash.finiteMap ∅ fourPushes = .ok (as, m') ∧ q'.mNowSize = 3 ∧ q'.TraversesExactly m') := by
  obtain ⟨hsearch, hcache, hlinear⟩ := traversal_exact uint64 (K := ℕ) (V := ℕ) UInt64.ofNat
  refine ⟨?_, ?_, ?_⟩
  · have hnum : (((HashTable.new uint64).init 7 4).2.run fourAdds).map HashTable.data_num_ = some 4 := by decide
    obtain ⟨t, hrun, hfour⟩ := Option.map_eq_some_iff.mp hnum
    exact ⟨t, hrun, hfour, hsearch 7 4 fourAdds t (by decide) hrun⟩
  · have hnum : (QDiskCache.init uint64 7 4 fun _ => none).map
        (fun r => QDiskCache.counted (r.2.run fourAdds)) = some 4 := by decide
    obtain ⟨⟨code, c⟩, hinit, hfour⟩ := Option.map_eq_some_iff.mp hnum
    cases hrun : c.run fourAdds with
    | returned c' =>
      rw [hrun] at hfour
      exact ⟨code, c, c', hinit, hrun, hfour, hcache 7 4 _ code c c' fourAdds (by decide) hinit hrun⟩
    | blocked | fault =>
      rw [hrun] at hfour
      exact absurd hfour (by decide)
  · have hcalls : ∀ q ∈ (QLinearHash.new 7 : Option (QLinearHash ℕ ℕ)),
        Calls (QLinearHash.step UInt64.ofNat) QLinearHash.finiteMap QLinearHash.Allocates q ∅ fourPushes ∧
          Calls (QLinearHash.step UInt64.ofNat) QLinearHash.finiteMap QLinearHash.ClearsEmpty q ∅ fourPushes := by
      decide
    have hnum : ((QLinearHash.new 7 : Option (QLinearHash ℕ ℕ)).bind fun q =>
        (history (QLinearHash.step UInt64.ofNat) q fourPushes).toOption.map fun r => r.2.mNowSize) = some 3 := by
      decide
    obtain ⟨q, hq, hrest⟩ := Option.bind_eq_some_iff.mp hnum
    obtain ⟨⟨as, q'⟩, hrun, hthree⟩ := Option.map_eq_some_iff.mp hrest
    have hhistory : history (QLinearHash.step UInt64.ofNat) q fourPushes = .ok (as, q') := by
      cases h : history (QLinearHash.step UInt64.ofNat) q fourPushes with
      | error e =>
        rw [h] at hrun
        cases hrun
      | ok r =>
        rw [h] at hrun
        cases hrun
        rfl
    obtain ⟨m', hm', hexact⟩ :=
      hlinear 7 fourPushes as q q' (by decide) hq (hcalls q hq).1 (hcalls q hq).2 hhistory
    exact ⟨q, q', as, m', hq, hhistory, hm', hthree, hexact⟩

/-- A pair is pushed and the table cleared: it is empty, and its traversal runs into
    the deleted node. -/
theorem traversal_after_clear :
    ¬ ∀ (size : ℤ) (cs : List (QLinearHash.Call ℕ ℕ)) (as : List (QLinearHash.Answer ℕ))
      (q q' : QLinearHash ℕ ℕ) (m' : Finmap fun _ : ℕ => ℕ), size ≤ INT32_MAX → QLinearHash.new size = some q →
      Calls (QLinearHash.step UInt64.ofNat) QLinearHash.finiteMap QLinearHash.Allocates q ∅ cs →
      history (QLinearHash.step UInt64.ofNat) q cs = .ok (as, q') →
      history QLinearHash.finiteMap ∅ cs = .ok (as, m') → q'.TraversesExactly m' := by
  intro h
  have halloc : ∀ q ∈ (QLinearHash.new 7 : Option (QLinearHash ℕ ℕ)),
      Calls (QLinearHash.step UInt64.ofNat) QLinearHash.finiteMap QLinearHash.Allocates q ∅
        [.push 1 10 100, .clear] := by decide
  have hleft : ∀ q ∈ (QLinearHash.new 7 : Option (QLinearHash ℕ ℕ)),
      ∀ r ∈ (history (QLinearHash.step UInt64.ofNat) q [.push 1 10 100, .clear]).toOption,
        r.1 = [.flag true, .unit] ∧ some 100 ∈ r.2.pHashTable ∧ 100 ∉ r.2.heap := by decide
  have hreturns : ((QLinearHash.new 7 : Option (QLinearHash ℕ ℕ)).bind fun q =>
      (history (QLinearHash.step UInt64.ofNat) q [.push 1 10 100, .clear]).toOption).isSome = true := by
    decide
  obtain ⟨r, hr⟩ := Option.isSome_iff_exists.mp hreturns
  obtain ⟨q, hq, hrun⟩ := Option.bind_eq_some_iff.mp hr
  obtain ⟨hanswers, hhead, hfreed⟩ := hleft q hq r hrun
  cases hhistory : history (QLinearHash.step UInt64.ofNat) q [.push 1 10 100, .clear] with
  | error e =>
    rw [hhistory] at hrun
    cases hrun
  | ok x =>
    rw [hhistory] at hrun
    have hxr : x = r := Option.some.inj hrun
    have hmap : history QLinearHash.finiteMap (∅ : Finmap fun _ : ℕ => ℕ) [.push 1 10 100, .clear]
        = .ok (r.1, ∅) := by
      rw [hanswers]
      rfl
    rw [hxr] at hhistory
    obtain ⟨vs, hyields, -⟩ := h 7 _ r.1 q r.2 ∅ (by decide) hq (halloc q hq) hhistory hmap
    exact QLinearHash.not_yields_of_dangling hhead hfreed vs hyields

end KalavaPir.Common
