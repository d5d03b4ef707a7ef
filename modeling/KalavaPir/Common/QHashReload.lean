/-
  KalavaPir.Common.QHashReload — a snapshot read back into a new table.

  The reader of `QHashFile` adds the records of a file one by one.  Into a
  table whose entries all stand in their computed buckets (`Placed`) an add
  finds the key or makes room for it; the reader stops at the first add that
  does not return 0, and then the final count is too small.
-/
import KalavaPir.Common.QHashFile

namespace KalavaPir.Common

open KalavaPir.Framework List

variable {T : KeyType}

/-! ## §1. Records as bytes. -/

theorem keyOf_keyBytes (key : Key T) : keyOf T (keyBytes key) = key := by
  have hlt : key.toNat < 256 ^ T.size := by
    have h := key.isLt
    rw [Nat.pow_mul] at h
    exact h
  unfold keyOf keyBytes
  rw [decode_encode_of_lt hlt, BitVec.ofNat_toNat, BitVec.setWidth_eq]

theorem length_keyBytes (key : Key T) : (keyBytes key).length = T.size := length_encode _ _

theorem memcpy_buffered {n : ℕ} {data rest : List UInt8} (h : data.length = n) :
    memcpy (buffered n (data ++ rest)) n = data := by
  unfold memcpy buffered
  rw [take_append_of_le_length (Nat.le_of_eq h.symm), take_of_length_le (Nat.le_of_eq h),
    Int.toNat_natCast]
  apply ext_getElem
  · rw [length_map, length_range, h]
  · intro i hi hi'
    rw [getElem_map, getElem_range, getD_eq_getElem?_getD,
      getElem?_eq_getElem hi', Option.getD_some]

namespace HashTable

/-- The bytes of an entry in the file. -/
def recordBytes (e : HashEntry T) : List UInt8 := keyBytes e.key ++ e.body

variable {t t' t₀ : HashTable T} {e : HashEntry T} {chain es : List (HashEntry T)} {key : Key T} {σ : Type}

theorem Valid.record_flatten (h : t.Valid) (he : e ∈ t.entries) : (t.record e).flatten = recordBytes e := by
  unfold record recordBytes
  split_ifs with hneg hzero
  · obtain ⟨_, _, _, _, _, hshape⟩ := h.varying hneg
    obtain ⟨data, hbody, _, htake, hdata, _⟩ := (hshape e he).parts
    rw [hdata, htake, hbody]
    simp
  · simp
  · obtain ⟨_, _, _, _, hshape⟩ := h.fixed (by omega)
    have hlen := hshape e he
    have hnil : e.body = [] := length_eq_zero_iff.mp (by omega)
    rw [hnil]
    simp

theorem Valid.records_flatten (h : t.Valid) :
    (t.entries.flatMap t.record).flatten = t.entries.flatMap recordBytes := by
  have key : ∀ es : List (HashEntry T), (∀ e ∈ es, e ∈ t.entries) →
      (es.flatMap t.record).flatten = es.flatMap recordBytes := by
    intro es
    induction es with
    | nil => exact fun _ => rfl
    | cons e es ih =>
      intro hes
      rw [flatMap_cons, flatten_append, flatMap_cons,
        h.record_flatten (hes e mem_cons_self),
        ih (fun x hx => hes x (mem_cons_of_mem e hx))]
  exact key t.entries (fun _ he => he)

/-! ## §2. One add of the reader. -/

/-- Every entry stands in the bucket its key computes. -/
def Placed (t : HashTable T) : Prop :=
  ∀ i chain, t.hash_table_[i]? = some chain → ∀ e ∈ chain, t.index e.key (-1) = i

theorem Valid.bucket (h : t.Valid) (key : Key T) :
    ∃ chain, t.hash_table_[t.index key (-1)]? = some chain := by
  have hrange := bucketIndex_range h.bucket_pos key
  have hbuckets := h.buckets
  have hlt : t.index key (-1) < t.hash_table_.length := by
    unfold index
    omega
  exact ⟨t.hash_table_[t.index key (-1)], getElem?_eq_getElem hlt⟩

theorem mem_entries {i : ℕ} (h : t.hash_table_[i]? = some chain) (he : e ∈ chain) : e ∈ t.entries :=
  mem_flatten.mpr ⟨chain, mem_of_getElem? h, he⟩

/-- The walk of a placed table finds a key exactly if it is stored. -/
theorem Placed.findKey_iff (hp : t.Placed) (hchain : t.hash_table_[t.index key (-1)]? = some chain) :
    findKey key chain = none ↔ ∀ e ∈ t.entries, e.key ≠ key := by
  constructor
  · intro hfind e he hkey
    obtain ⟨c, hc, hec⟩ := mem_flatten.mp he
    obtain ⟨i, hi, hget⟩ := getElem_of_mem hc
    have hat : t.hash_table_[i]? = some c := by
      rw [getElem?_eq_getElem hi, hget]
    have hindex := hp i c hat e hec
    rw [hkey] at hindex
    rw [hindex, hat] at hchain
    cases hchain
    exact findKey_none hfind e hec hkey
  · intro hall
    cases hfind : findKey key chain with
    | none => rfl
    | some e =>
      obtain ⟨he, hkey⟩ := findKey_mem hfind
      exact absurd hkey (hall e (mem_entries hchain he))

/-- A placed table with one more entry in its bucket. -/
theorem Placed.insert (hp : t.Placed) (hchain : t.hash_table_[t.index e.key (-1)]? = some chain)
    (hsize : t'.bucket_size_ = t.bucket_size_)
    (htable : t'.hash_table_ = t.hash_table_.set (t.index e.key (-1)) (e :: chain)) : t'.Placed := by
  have hindex : ∀ key : Key T, t'.index key (-1) = t.index key (-1) := by
    intro key
    unfold index
    rw [hsize]
  intro i c hc x hx
  rw [htable] at hc
  rw [hindex]
  by_cases hi : t.index e.key (-1) = i
  · rw [← hi, List.getElem?_set_self (List.getElem?_eq_some_iff.mp hchain).1] at hc
    cases hc
    obtain rfl | hold := mem_cons.mp hx
    · exact hi
    · rw [← hi]
      exact hp _ chain hchain x hold
  · rw [getElem?_set_ne hi] at hc
    exact hp i c hc x hx

/-- What an add of the reader does: 1 for a key that is there, else 0 and the
    entry is in, else −1. -/
structure Added (t t' : HashTable T) (e : HashEntry T) : Prop where
  valid : t'.Valid
  placed : t'.Placed
  data_len : t'.data_len_ = t.data_len_
  bucket_size : t'.bucket_size_ = t.bucket_size_
  entries : t'.entries.Perm (e :: t.entries)

theorem loadAdd_FL_present (h : t.Valid) (hp : t.Placed) (buffer : ℕ → UInt8)
    (hkey : ¬ ∀ e ∈ t.entries, e.key ≠ key) : t.loadAdd_FL key buffer = some (1, t) := by
  obtain ⟨chain, hchain⟩ := h.bucket key
  cases hfind : findKey key chain with
  | none => exact absurd ((hp.findKey_iff hchain).mp hfind) hkey
  | some e =>
    unfold loadAdd_FL addKey_FL
    rw [hchain]
    dsimp only
    rw [hfind]
    rfl

variable {n : ℤ}

/-- With memory at hand a chunk comes while fewer than `capacity` are live, and
    it lies in its block if that has less than 2³² bytes. -/
theorem alloc_ample {a : QAllocatorRecycle} {size : ℤ} (h : a.Sound size n)
    (hroom : n < ChunkBlocks.capacity) (hbytes : 1000 * size < 4294967296) :
    (a.alloc .ample).1 = some true := by
  unfold QAllocatorRecycle.alloc
  split_ifs with hzero
  · rfl
  obtain ⟨hs, hz, ⟨hp, _⟩ | ⟨_, _, hfull | hmem⟩⟩ := h.blocks.carve .ample
  · show Option.map (a.blocks.carve .ample).2.holds (a.blocks.carve .ample).1 = some true
    have hchunk : a.blocks.chunkAt a.blocks.handed
        = (a.blocks.carve .ample).2.chunkAt a.blocks.handed := by
      unfold ChunkBlocks.chunkAt
      rw [hz]
    rw [hp, Option.map_some, hchunk, hs.holds_chunkAt]
    rw [hs.length, hz, h.chunk]
    exact hbytes
  · have haccount := h.account
    omega
  · exact absurd rfl hmem

theorem loadAdd_FL_absent (h : t.Valid) (hp : t.Placed) (key : Key T) (buffer : ℕ → UInt8)
    (hlen : 0 ≤ t.data_len_) (hbuf : t.data_len_ ≤ 1048576) (hroom : (t.entries.length : ℤ) < 1000000000)
    (hkey : ∀ e ∈ t.entries, e.key ≠ key) : ∃ t', t.loadAdd_FL key buffer = some (0, t') ∧
      Added t t' ⟨key, memcpy buffer t.data_len_⟩ := by
  obtain ⟨chain, hchain⟩ := h.bucket key
  have hfind := (hp.findKey_iff hchain).mpr hkey
  obtain ⟨_, a, ha, hsound, _⟩ := h.fixed hlen
  have hsize := T.size_le
  have halloc := alloc_ample hsound hroom (by omega)
  cases hpair : a.alloc .ample with
  | mk b a' =>
    rw [hpair] at halloc
    have hb : b = some true := halloc
    have hadd : t.addKey_FL .ample key (some buffer) (fun _ => 0) (-1)
        = some ((0, t.value_FL ⟨key, memcpy buffer t.data_len_⟩), { t with
          allocator_FL_ := some a'
          hash_table_ := t.hash_table_.set (t.index key (-1))
            (⟨key, memcpy buffer t.data_len_⟩ :: chain)
          data_num_ := t.data_num_ + 1 }) := by
      unfold addKey_FL
      rw [hchain]
      dsimp only
      rw [hfind]
      rw [ha]
      dsimp only
      rw [hpair, hb]
      rfl
    refine ⟨_, ?_, h.addKey_FL hadd, ?_, rfl, rfl, entries_cons hchain _⟩
    · unfold loadAdd_FL
      rw [hadd]
      rfl
    · exact hp.insert (e := ⟨key, memcpy buffer t.data_len_⟩) hchain rfl rfl

theorem loadAdd_VL_present (h : t.Valid) (hp : t.Placed) (buffer : ℕ → UInt8) (hn : 0 ≤ n)
    (hkey : ¬ ∀ e ∈ t.entries, e.key ≠ key) : t.loadAdd_VL key buffer n = some (1, t) := by
  obtain ⟨chain, hchain⟩ := h.bucket key
  cases hfind : findKey key chain with
  | none => exact absurd ((hp.findKey_iff hchain).mp hfind) hkey
  | some e =>
    unfold loadAdd_VL addKey_VL
    rw [if_neg (by omega), hchain]
    dsimp only
    rw [hfind]
    rfl

/-- A new key in the variable format: the allocator decides. -/
theorem loadAdd_VL_absent (h : t.Valid) (hp : t.Placed) (buffer : ℕ → UInt8) (hn : 0 ≤ n) {a : QAllocator}
    (ha : t.allocator_VL_ = some a) (hkey : ∀ e ∈ t.entries, e.key ≠ key) :
    (((a.alloc .ample (8 + T.size + 4 + n)).1 = none ∧ ∃ t', t.loadAdd_VL key buffer n = some (-1, t')
        ∧ t'.Valid ∧ t'.entries = t.entries) ∨
      ((a.alloc .ample (8 + T.size + 4 + n)).1.isSome ∧ ∃ t', t.loadAdd_VL key buffer n = some (0, t')
        ∧ t'.allocator_VL_ = some (a.alloc .ample (8 + T.size + 4 + n)).2
        ∧ Added t t' ⟨key, encodeInt 4 n ++ memcpy buffer n⟩)) := by
  obtain ⟨chain, hchain⟩ := h.bucket key
  have hfind := (hp.findKey_iff hchain).mpr hkey
  cases hpair : a.alloc .ample (8 + T.size + 4 + n) with
  | mk p a' =>
    cases p with
    | none =>
      have hadd : t.addKey_VL .ample key buffer n
          = some ((-1, 0, none), { t with allocator_VL_ := some a' }) := by
        unfold addKey_VL
        rw [if_neg (by omega), hchain]
        dsimp only
        rw [hfind]
        rw [ha]
        dsimp only
        rw [hpair]
      refine Or.inl ⟨rfl, { t with allocator_VL_ := some a' }, ?_, h.addKey_VL hadd, rfl⟩
      unfold loadAdd_VL
      rw [hadd]
      rfl
    | some q =>
      have hadd : t.addKey_VL .ample key buffer n
          = some ((0, value_VL (⟨key, encodeInt 4 n ++ memcpy buffer n⟩ : HashEntry T)), { t with
            allocator_VL_ := some a'
            hash_table_ := t.hash_table_.set (t.index key (-1))
              (⟨key, encodeInt 4 n ++ memcpy buffer n⟩ :: chain)
            data_num_ := t.data_num_ + 1 }) := by
        unfold addKey_VL
        rw [if_neg (by omega), hchain]
        dsimp only
        rw [hfind]
        rw [ha]
        dsimp only
        rw [hpair]
      refine Or.inr ⟨rfl, _, ?_, rfl, h.addKey_VL hadd, ?_, rfl, rfl, entries_cons hchain _⟩
      · unfold loadAdd_VL
        rw [hadd]
        rfl
      · exact hp.insert (e := ⟨key, encodeInt 4 n ++ memcpy buffer n⟩) hchain rfl rfl

/-! ## §3. The loops. -/

/-- The keys of `es` are new to `t` and to each other. -/
def FreshKeys (t : HashTable T) (es : List (HashEntry T)) : Prop :=
  (es.map HashEntry.key).Nodup ∧ ∀ e ∈ es, ∀ x ∈ t.entries, x.key ≠ e.key

theorem freshKeys_cons {e' : HashEntry T} (hkey : ∀ x ∈ t.entries, x.key ≠ e.key)
    (hadd : t'.entries.Perm (e' :: t.entries)) (hsame : e'.key = e.key) :
    FreshKeys t (e :: es) ↔ FreshKeys t' es := by
  unfold FreshKeys
  rw [map_cons, nodup_cons, forall_mem_cons]
  constructor
  · rintro ⟨⟨hnew, hnodup⟩, _, hall⟩
    refine ⟨hnodup, ?_⟩
    intro x hx y hy
    obtain rfl | hold := mem_cons.mp (hadd.mem_iff.mp hy)
    · intro heq
      apply hnew
      rw [← hsame, heq]
      exact mem_map_of_mem hx
    · exact hall x hx y hold
  · rintro ⟨hnodup, hall⟩
    refine ⟨⟨?_, hnodup⟩, hkey, ?_⟩
    · intro hmem
      obtain ⟨x, hx, heq⟩ := mem_map.mp hmem
      exact hall x hx e' (hadd.mem_iff.mpr mem_cons_self) (hsame.trans heq.symm)
    · intro x hx y hy
      exact hall x hx y (hadd.mem_iff.mpr (mem_cons_of_mem e' hy))

/-- What the reader makes of the records `es`: all of them, if `good`, or too
    few of them. -/
structure Loaded (t t' : HashTable T) (es : List (HashEntry T)) (good : Prop) : Prop where
  valid : t'.Valid
  complete : good → t'.entries.Perm (es ++ t.entries)
  short : ¬ good → t'.entries.length < es.length + t.entries.length

theorem Loaded.after {t₁ : HashTable T} {good good' : Prop} (h : Loaded t₁ t' es good')
    (hadd : t₁.entries.Perm (e :: t.entries)) (hiff : good ↔ good') : Loaded t t' (e :: es) good where
  valid := h.valid
  complete := by
    intro hgood
    have hmid := (h.complete (hiff.mp hgood)).trans (hadd.append_left es)
    exact hmid.trans perm_middle
  short := by
    intro hbad
    have hlen := h.short (fun hgood => hbad (hiff.mpr hgood))
    rw [hadd.length_eq, length_cons] at hlen
    rw [length_cons]
    omega

theorem Loaded.congr {good good' : Prop} (h : Loaded t t' es good) (hiff : good ↔ good') :
    Loaded t t' es good' :=
  ⟨h.valid, fun hgood => h.complete (hiff.mpr hgood), fun hbad => h.short (fun hgood => hbad (hiff.mp hgood))⟩

theorem loadLoop_FL_nil (hv : t.Valid) (n fuel : ℕ) :
    ∃ t', loadLoop_FL loadAdd_FL n fuel (([] : List (HashEntry T)).flatMap recordBytes) t = some t' ∧
      Loaded t t' [] (FreshKeys t []) := by
  refine ⟨t, ?_, hv, fun _ => List.Perm.refl _, ?_⟩
  · cases fuel with
    | zero => rfl
    | succ fuel =>
      exact if_pos T.size_pos
  · intro hbad
    exact absurd ⟨nodup_nil, fun e he => absurd he not_mem_nil⟩ hbad

/-- One round of the fixed format. -/
theorem loadLoop_FL_record (add : σ → Key T → (ℕ → UInt8) → Option (ℤ × σ)) {n : ℕ} (hbuf : n ≤ 1048576)
    (hbody : e.body.length = n) (fuel : ℕ) (file : List UInt8) (s : σ) :
    loadLoop_FL add n (fuel + 1) (recordBytes e ++ file) s =
      match add s e.key (buffered n (e.body ++ file)) with
      | none => none
      | some (code, s) => if code ≠ 0 then some s else loadLoop_FL add n fuel file s := by
  have hfile : recordBytes e ++ file = keyBytes e.key ++ (e.body ++ file) := by
    rw [recordBytes, append_assoc]
  have hlong : ¬ (keyBytes e.key ++ (e.body ++ file)).length < T.size := by
    rw [length_append, length_keyBytes]
    omega
  have hrest : n ≤ (e.body ++ file).length := by
    rw [length_append]
    omega
  have hover : ¬ bufferSize < min n (e.body ++ file).length := by
    unfold bufferSize
    omega
  rw [hfile, loadLoop_FL, if_neg hlong]
  rw [take_left' (length_keyBytes _), drop_left' (length_keyBytes _), keyOf_keyBytes, if_neg hover,
    if_neg (by omega)]
  cases add s e.key (buffered n (e.body ++ file)) with
  | none => rfl
  | some r =>
    rw [drop_left' hbody]

/-- One round of the variable format: key, length, value. -/
theorem loadLoop_VL_record (add : σ → Key T → (ℕ → UInt8) → ℤ → Option (ℤ × σ)) {data : List UInt8}
    (hbody : e.body = encodeInt 4 (data.length : ℤ) ++ data) (hpos : data.length ≠ 0)
    (hle : data.length ≤ 1048576) (fuel : ℕ) (file : List UInt8) (s : σ) :
    loadLoop_VL add (fuel + 1) (recordBytes e ++ file) s =
      match add s e.key (buffered data.length (data ++ file)) data.length with
      | none => none
      | some (code, s) => if code ≠ 0 then some s else loadLoop_VL add fuel file s := by
  have hfile : recordBytes e ++ file = keyBytes e.key ++ (encodeInt 4 (data.length : ℤ) ++ (data ++ file)) := by
    rw [recordBytes, hbody, append_assoc, append_assoc]
  have hlong : ¬ (keyBytes e.key ++ (encodeInt 4 (data.length : ℤ) ++ (data ++ file))).length < T.size + 4 := by
    rw [length_append, length_append, length_keyBytes, length_encodeInt]
    omega
  have hrest : (keyBytes e.key ++ (encodeInt 4 (data.length : ℤ) ++ (data ++ file))).drop (T.size + 4) = data ++ file := by
    rw [← drop_drop, drop_left' (length_keyBytes _), drop_left' (length_encodeInt _ _)]
  have hnum : decodeInt (encodeInt 4 (data.length : ℤ)) = data.length := by
    rw [decodeInt_encodeInt]
    exact Int.bmod_eq_of_le_mul_two (by omega) (by omega)
  have hsize : ((data.length : ℤ) % (2 ^ 64 : ℕ)).toNat = data.length := by
    rw [Int.emod_eq_of_lt (Int.natCast_nonneg _) (by omega), Int.toNat_natCast]
  have henough : data.length ≤ (data ++ file).length := by
    rw [length_append]
    omega
  have hover : ¬ bufferSize < min data.length (data ++ file).length := by
    unfold bufferSize
    omega
  rw [hfile, loadLoop_VL, if_neg hlong]
  dsimp only
  rw [hrest, take_left' (length_keyBytes _), drop_left' (length_keyBytes _),
    take_left' (length_encodeInt _ _), keyOf_keyBytes, hnum, hsize, if_neg hover, if_neg (by omega)]
  cases add s e.key (buffered data.length (data ++ file)) data.length with
  | none => rfl
  | some r =>
    rw [drop_left' rfl]

/-- **The loop of the fixed format.** -/
theorem loadLoop_FL_records {n : ℕ} (hbuf : n ≤ 1048576) (es : List (HashEntry T)) :
    ∀ (t : HashTable T) (fuel : ℕ), t.Valid → t.Placed → t.data_len_ = n →
      (∀ e ∈ es, e.body.length = n) → (es.length + t.entries.length : ℤ) ≤ 1000000000 → es.length ≤ fuel →
      ∃ t', loadLoop_FL loadAdd_FL n fuel (es.flatMap recordBytes) t = some t' ∧
        Loaded t t' es (FreshKeys t es) := by
  induction es with
  | nil => exact fun t fuel hv _ _ _ _ _ => loadLoop_FL_nil hv n fuel
  | cons e es ih =>
    intro t fuel hv hp hlen hbody hcap hfuel
    have hbodyLen : e.body.length = n := hbody e mem_cons_self
    have hcap' : (es.length + 1 + t.entries.length : ℤ) ≤ 1000000000 := by
      rw [length_cons] at hcap
      omega
    cases fuel with
    | zero => exact absurd hfuel (by simp)
    | succ fuel =>
      have hmemcpy : memcpy (buffered n (e.body ++ es.flatMap recordBytes)) t.data_len_ = e.body := by
        rw [hlen]
        exact memcpy_buffered hbodyLen
      rw [flatMap_cons, loadLoop_FL_record _ hbuf hbodyLen]
      by_cases hkey : ∀ x ∈ t.entries, x.key ≠ e.key
      · obtain ⟨t₁, hadd, hadded⟩ := loadAdd_FL_absent hv hp e.key
          (buffered n (e.body ++ es.flatMap recordBytes)) (by omega) (by omega) (by omega) hkey
        rw [hmemcpy] at hadded
        obtain ⟨t', hloop, hloaded⟩ := ih t₁ fuel hadded.valid hadded.placed
          (hadded.data_len.trans hlen) (fun x hx => hbody x (mem_cons_of_mem e hx))
          (by rw [hadded.entries.length_eq, length_cons]; omega)
          (by rw [length_cons] at hfuel; omega)
        refine ⟨t', ?_, hloaded.after hadded.entries (freshKeys_cons hkey hadded.entries rfl)⟩
        rw [hadd]
        exact hloop
      · refine ⟨t, ?_, hv, ?_, ?_⟩
        · rw [loadAdd_FL_present hv hp _ hkey]
          rfl
        · intro hgood
          exact absurd (fun x hx => hgood.2 e mem_cons_self x hx) hkey
        · intro _
          rw [length_cons]
          omega

/-- **The loop of the variable format.** -/
theorem loadLoop_VL_records (es : List (HashEntry T)) :
    ∀ (t : HashTable T) (fuel : ℕ) (a : QAllocator), t.Valid → t.Placed → t.allocator_VL_ = some a →
      (∀ e ∈ es, Varying e ∧ length_VL e ≠ 0) → es.length ≤ fuel →
      ∃ t', loadLoop_VL loadAdd_VL fuel (es.flatMap recordBytes) t = some t' ∧
        Loaded t t' es (FreshKeys t es ∧ a.packs (es.map recordLen) = true) := by
  induction es with
  | nil =>
    intro t fuel a hv hp _ _ _
    refine ⟨t, ?_, hv, fun _ => List.Perm.refl _, ?_⟩
    · cases fuel with
      | zero => rfl
      | succ fuel =>
        exact if_pos (Nat.lt_of_lt_of_le T.size_pos (Nat.le_add_right _ _))
    · intro hbad
      exact absurd ⟨⟨nodup_nil, fun e he => absurd he not_mem_nil⟩, rfl⟩ hbad
  | cons e es ih =>
    intro t fuel a hv hp ha hshape hfuel
    obtain ⟨hvar, hne⟩ := hshape e mem_cons_self
    obtain ⟨data, hbody, hvl, _, _, hle⟩ := hvar.parts
    have hpos : data.length ≠ 0 := by
      intro hzero
      apply hne
      rw [hvl, hzero]
      rfl
    cases fuel with
    | zero => exact absurd hfuel (by simp)
    | succ fuel =>
      have hentry : (⟨e.key, encodeInt 4 (data.length : ℤ) ++ memcpy
          (buffered data.length (data ++ es.flatMap recordBytes)) (data.length : ℤ)⟩ : HashEntry T) = e := by
        rw [memcpy_buffered rfl, ← hbody]
      have hrecord : 8 + T.size + 4 + (data.length : ℤ) = recordLen e := by
        unfold recordLen
        rw [hbody, length_append, length_encodeInt]
        omega
      rw [flatMap_cons, loadLoop_VL_record _ hbody hpos hle]
      by_cases hkey : ∀ x ∈ t.entries, x.key ≠ e.key
      · obtain ⟨hnull, t₁, hadd, hv₁, hsame⟩ | ⟨hgot, t₁, hadd, ha₁, hadded⟩ :=
          loadAdd_VL_absent hv hp (buffered data.length (data ++ es.flatMap recordBytes))
            (Int.natCast_nonneg data.length) ha hkey
        · refine ⟨t₁, ?_, hv₁, ?_, ?_⟩
          · rw [hadd]
            rfl
          · rintro ⟨_, hgood⟩
            rw [hrecord] at hnull
            rw [map_cons, QAllocator.packs_of_none hnull] at hgood
            contradiction
          · intro _
            rw [hsame, length_cons]
            omega
        rw [hentry] at hadded
        obtain ⟨t', hloop, hloaded⟩ := ih t₁ fuel _ hadded.valid hadded.placed ha₁
          (fun x hx => hshape x (mem_cons_of_mem e hx))
          (by rw [length_cons] at hfuel; omega)
        refine ⟨t', ?_, hloaded.after hadded.entries ?_⟩
        · rw [hadd]
          exact hloop
        · rw [hrecord] at hgot ⊢
          rw [freshKeys_cons hkey hadded.entries rfl, map_cons, QAllocator.packs_of_some hgot]
      · refine ⟨t, ?_, hv, ?_, ?_⟩
        · rw [loadAdd_VL_present hv hp _ (Int.natCast_nonneg _) hkey]
          rfl
        · intro hgood
          exact absurd (fun x hx => hgood.1.2 e mem_cons_self x hx) hkey
        · intro _
          rw [length_cons]
          omega

/-! ## §4. The whole file. -/

theorem freadInt_encodeInt {z : ℤ} (rest : List UInt8) (h : -2147483648 ≤ z ∧ z < 2147483648) :
    freadInt (encodeInt 4 z ++ rest) = (true, z, rest) := by
  have hlen : (encodeInt 4 z).length = 4 := length_encodeInt 4 z
  unfold freadInt
  rw [take_append_of_le_length (by rw [hlen]), take_of_length_le (by rw [hlen]),
    drop_append_of_le_length (by rw [hlen]), drop_of_length_le (by rw [hlen]),
    nil_append, length_append, hlen, Nat.sub_eq_zero_of_le (by omega),
    replicate_zero, append_nil, decodeInt_encodeInt, decide_eq_true (by omega)]
  rw [Int.bmod_eq_of_le_mul_two (by omega) (by omega)]

/-- What a snapshot needs to come back: no key twice and, in the variable
    format, room for the records in the order of the file. -/
def Reloadable (t : HashTable T) : Prop :=
  (t.entries.map HashEntry.key).Nodup ∧
    (t.data_len_ < 0 → QAllocator.new.packs (t.entries.map recordLen) = true)

/-- The numbers of the header are 32-bit numbers. -/
structure Header32 (t : HashTable T) : Prop where
  bucket_size : t.bucket_size_ < 2147483648
  data_len : -2147483648 ≤ t.data_len_ ∧ t.data_len_ < 2147483648

/-- The header of a snapshot read: what is left are the records. -/
theorem loadFile_header (h₀ : t₀.Valid) (h32 : t₀.Header32)
    (add_FL : σ → Key T → (ℕ → UInt8) → Option (ℤ × σ))
    (add_VL : σ → Key T → (ℕ → UInt8) → ℤ → Option (ℤ × σ)) (num : σ → ℤ) (data_len_ : ℤ) (s : σ) :
    loadFile add_FL add_VL num data_len_ true t₀.snapshot s
      = (if data_len_ < 0 then loadLoop_VL add_VL (t₀.entries.flatMap recordBytes).length
            (t₀.entries.flatMap recordBytes) s
          else loadLoop_FL add_FL data_len_.toNat (t₀.entries.flatMap recordBytes).length
            (t₀.entries.flatMap recordBytes) s).map (loadEnd num t₀.data_num_) := by
  have hcard := h₀.card_lt
  have hnum := h₀.num
  have hbucket := h₀.bucket_pos
  have hbucket32 := h32.bucket_size
  have hfile : t₀.snapshot = encodeInt 4 endFlag ++ (encodeInt 4 t₀.bucket_size_
      ++ (encodeInt 4 t₀.data_num_ ++ (encodeInt 4 t₀.data_len_ ++ t₀.entries.flatMap recordBytes))) := by
    unfold snapshot header
    rw [flatten_append, h₀.records_flatten]
    simp
  unfold loadFile
  rw [hfile, freadInt_encodeInt _ (by unfold endFlag; omega)]
  dsimp only
  rw [freadInt_encodeInt _ (by omega)]
  rw [freadInt_encodeInt _ (by omega)]
  rfl

/-- A value longer than the buffer takes the reader out of memory. -/
theorem loadFile_overflow (h₀ : t₀.Valid) (h32 : t₀.Header32) (hlen : t.data_len_ = t₀.data_len_)
    (hsome : t₀.entries ≠ []) (hbig : 1048576 < t₀.data_len_) :
    loadFile loadAdd_FL loadAdd_VL getKeyNum t.data_len_ true t₀.snapshot t = none := by
  obtain ⟨_, _, _, _, hshape⟩ := h₀.fixed (by omega)
  rw [loadFile_header h₀ h32, if_neg (by omega)]
  cases hes : t₀.entries with
  | nil => exact absurd hes hsome
  | cons e es =>
    have hbody := hshape e (by rw [hes]; exact mem_cons_self)
    have hsize := T.size_pos
    have hfile : (e :: es).flatMap recordBytes
        = keyBytes e.key ++ (e.body ++ es.flatMap recordBytes) := by
      rw [flatMap_cons, recordBytes, append_assoc]
    have hdrop : ((e :: es).flatMap recordBytes).drop T.size = e.body ++ es.flatMap recordBytes := by
      rw [hfile, drop_append_of_le_length (by rw [length_keyBytes]),
        drop_of_length_le (by rw [length_keyBytes]), nil_append]
    cases hn : ((e :: es).flatMap recordBytes).length with
    | zero =>
      rw [hfile, length_append, length_keyBytes] at hn
      omega
    | succ fuel =>
      unfold loadLoop_FL
      rw [if_neg (by rw [hfile, length_append, length_keyBytes]; omega)]
      rw [hdrop, if_pos]
      · rfl
      · unfold bufferSize
        rw [length_append]
        omega

theorem length_le_records (es : List (HashEntry T)) : es.length ≤ (es.flatMap recordBytes).length := by
  induction es with
  | nil => exact Nat.le_refl 0
  | cons e es ih =>
    have hsize := T.size_pos
    rw [flatMap_cons, length_append, length_cons, recordBytes, length_append, length_keyBytes]
    omega

/-- The loop of either format on the records of a table. -/
theorem loadLoop_snapshot (h₀ : t₀.Valid) (hne : t₀.NoEmptyValue) (h : t.Valid) (hempty : t.entries = [])
    (hlen : t.data_len_ = t₀.data_len_) (hbuf : t₀.entries = [] ∨ t₀.data_len_ ≤ 1048576)
    (hVL : t₀.data_len_ < 0 → t.allocator_VL_ = some .new) : ∃ t', ((if t.data_len_ < 0 then
        loadLoop_VL loadAdd_VL (t₀.entries.flatMap recordBytes).length (t₀.entries.flatMap recordBytes) t
      else loadLoop_FL loadAdd_FL t.data_len_.toNat (t₀.entries.flatMap recordBytes).length
        (t₀.entries.flatMap recordBytes) t)) = some t' ∧ Loaded t t' t₀.entries t₀.Reloadable := by
  have hplaced : t.Placed := by
    intro i chain hchain e he
    have hmem := mem_entries hchain he
    rw [hempty] at hmem
    exact absurd hmem not_mem_nil
  have hfresh : FreshKeys t t₀.entries ↔ (t₀.entries.map HashEntry.key).Nodup := by
    unfold FreshKeys
    rw [hempty]
    exact and_iff_left (fun e _ x hx => absurd hx not_mem_nil)
  have hcard := h₀.card_lt
  have hfuel := length_le_records t₀.entries
  by_cases hneg : t₀.data_len_ < 0
  · obtain ⟨_, _, _, _, _, hshape⟩ := h₀.varying hneg
    obtain ⟨t', hrun, hloaded⟩ := loadLoop_VL_records t₀.entries t _ .new h hplaced (hVL hneg)
      (fun e he => ⟨hshape e he, hne hneg e he⟩) hfuel
    refine ⟨t', ?_, hloaded.congr ?_⟩
    · rw [if_pos (by omega)]
      exact hrun
    · rw [hfresh]
      exact and_congr_right (fun _ => ⟨fun hp _ => hp, fun hp => hp hneg⟩)
  obtain ⟨_, _, _, _, hshape⟩ := h₀.fixed (by omega)
  have hrecords : ∃ t', loadLoop_FL loadAdd_FL t.data_len_.toNat (t₀.entries.flatMap recordBytes).length
      (t₀.entries.flatMap recordBytes) t = some t' ∧ Loaded t t' t₀.entries (FreshKeys t t₀.entries) := by
    obtain hnil | hshort := hbuf
    · rw [hnil]
      exact loadLoop_FL_nil h _ _
    · exact loadLoop_FL_records (by omega) t₀.entries t _
        h hplaced (by omega) (fun e he => by have := hshape e he; omega)
        (by rw [hempty, length_nil]; omega) hfuel
  obtain ⟨t', hrun, hloaded⟩ := hrecords
  refine ⟨t', ?_, hloaded.congr ?_⟩
  · rw [if_neg (by omega)]
    exact hrun
  · rw [hfresh]
    exact (and_iff_left (fun hbad => absurd hbad hneg)).symm

/-- **A SNAPSHOT READ BACK** into an empty table of the same format: the code is
    0 exactly if it is `Reloadable`, and then the entries are the same. -/
theorem loadFile_snapshot (h₀ : t₀.Valid) (h32 : t₀.Header32) (hne : t₀.NoEmptyValue) (h : t.Valid)
    (hempty : t.entries = []) (hlen : t.data_len_ = t₀.data_len_)
    (hbuf : t₀.entries = [] ∨ t₀.data_len_ ≤ 1048576) (hVL : t₀.data_len_ < 0 → t.allocator_VL_ = some .new) :
    ∃ code t', loadFile loadAdd_FL loadAdd_VL getKeyNum t.data_len_ true t₀.snapshot t = some (code, t')
      ∧ (code = 0 ↔ t₀.Reloadable) ∧ (t₀.Reloadable → t'.entries.Perm t₀.entries) := by
  obtain ⟨t', hrun, hloaded⟩ := loadLoop_snapshot h₀ hne h hempty hlen hbuf hVL
  have hresult : loadFile loadAdd_FL loadAdd_VL getKeyNum t.data_len_ true t₀.snapshot t
      = some (loadEnd getKeyNum t₀.data_num_ t') := by
    rw [loadFile_header h₀ h32, hrun]
    rfl
  have hcount : (t'.data_num_ = t₀.data_num_) ↔ t₀.Reloadable := by
    rw [hloaded.valid.num, h₀.num]
    constructor
    · intro heq
      by_contra hbad
      have hshort := hloaded.short hbad
      rw [hempty, length_nil] at hshort
      omega
    · intro hgood
      rw [(hloaded.complete hgood).length_eq, hempty, append_nil]
  refine ⟨(loadEnd getKeyNum t₀.data_num_ t').1, (loadEnd getKeyNum t₀.data_num_ t').2, hresult, ?_, ?_⟩
  · unfold loadEnd getKeyNum
    split_ifs with hdiff
    · constructor
      · intro hbad
        omega
      · exact fun hgood => absurd (hcount.mpr hgood) hdiff
    · exact ⟨fun _ => hcount.mp (by simpa using hdiff), fun _ => rfl⟩
  · intro hgood
    have hperm := hloaded.complete hgood
    rw [hempty, append_nil] at hperm
    unfold loadEnd
    split_ifs
    · exact hperm
    · exact hperm

end HashTable

end KalavaPir.Common
