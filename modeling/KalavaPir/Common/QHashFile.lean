/-
  KalavaPir.Common.QHashFile — the snapshot file of a hash table:
  `QHashSearch::save`, `QHashSearch::load`, and the loops that
  `QDiskCache::thread_save` and `QDiskCache::loadDataFromDisk` share with them.

  A snapshot is a flag, the three numbers of the header, and the entries chain
  by chain; the flag is written as 0xEEEEEEEE first and overwritten with
  0xFFFFFFFF at the end.  The writer is a row of `fwrite`s, each of which must
  report one item or the function goes to `err`.  An `fwrite` of a block of NO
  bytes reports none, and one that fails has written a proper part of its block.
-/
import KalavaPir.Common.QHashSearch

namespace KalavaPir.Common

open KalavaPir.Framework List Option

variable {T : KeyType}

/-! ## §1. The writer. -/

/-- The bytes of a key. -/
def keyBytes (key : Key T) : List UInt8 := encode T.size key.toNat

/-- The key in some bytes. -/
def keyOf (T : KeyType) (bs : List UInt8) : Key T := BitVec.ofNat _ (decode bs)

/-- `0xEEEEEEEE` and `0xFFFFFFFF` as `int32_t`. -/
def beginFlag : ℤ := -286331154
/-- The flag of a complete file. -/
def endFlag : ℤ := -1

/-- What one `fwrite(block, size, 1, fp)` meets: no error, or an error after
    some of its bytes. -/
abbrev Outcome : Type := Option ℕ

/-- `fwrite(block, size, 1, fp)==1` at the end of the file, and the file. -/
def put (outcome : Outcome) (block file : List UInt8) : Bool × List UInt8 :=
  match block, outcome with
  | [], _ => (false, file)
  | b :: bs, none => (true, file ++ b :: bs)
  | b :: bs, some k => (false, file ++ (b :: bs).take (min k bs.length))

/-- A row of `fwrite`s, given up (`goto err`) at the first that does not report
    its item; `io` is the outcome of each call, `n` the number of the next. -/
def putAll (io : ℕ → Outcome) : ℕ → List (List UInt8) → List UInt8 → Bool × List UInt8
  | _, [], file => (true, file)
  | n, block :: blocks, file =>
    match put (io n) block file with
    | (true, file) => putAll io (n + 1) blocks file
    | (false, file) => (false, file)

/-- `fseek(fp, 0, SEEK_SET)` and the `fwrite` of the flag. -/
def putFlag (outcome : Outcome) (block file : List UInt8) : List UInt8 :=
  match outcome with
  | none => block ++ file.drop block.length
  | some k => block.take (min k (block.length - 1)) ++ file.drop (min k (block.length - 1))

namespace HashTable

/-- The blocks of an entry: its key, then in a table of variable length its
    length and value, in one of fixed length its value unless `data_len_` is 0. -/
def record (t : HashTable T) (e : HashEntry T) : List (List UInt8) :=
  if t.data_len_ < 0 then
    [keyBytes e.key, e.body.take 4, (e.body.drop 4).take (length_VL e).toNat]
  else if t.data_len_ ≠ 0 then [keyBytes e.key, e.body]
  else [keyBytes e.key]

/-- The three numbers of the header. -/
def header (t : HashTable T) : List (List UInt8) :=
  [encodeInt 4 t.bucket_size_, encodeInt 4 t.data_num_, encodeInt 4 t.data_len_]

/-- Every block before the `fseek`, in order. -/
def fwrites (t : HashTable T) : List (List UInt8) :=
  encodeInt 4 beginFlag :: (t.header ++ t.entries.flatMap t.record)

/-- What a complete file holds. -/
def snapshot (t : HashTable T) : List UInt8 :=
  encodeInt 4 endFlag ++ (t.header ++ t.entries.flatMap t.record).flatten

/-- The file after the writer, with the outcome of each `fwrite`. -/
def writeFile (t : HashTable T) (io : ℕ → Outcome) : List UInt8 :=
  match putAll io 0 t.fwrites [] with
  | (true, file) => putFlag (io t.fwrites.length) (encodeInt 4 endFlag) file
  | (false, file) => file

/-- `save(filename)`: the code, and the file, `old` before; `opened` is whether
    `fopen` succeeds. -/
def save (t : HashTable T) (opened : Bool) (io : ℕ → Outcome) (old : Option (List UInt8)) :
    ℤ × Option (List UInt8) :=
  if t.initialized_ = 0 then (-1, old)
  else if !opened then (-2, old)
  else (0, some (t.writeFile io))

end HashTable

/-! ## §2. What the writer leaves. -/

variable {outcome : Outcome} {block file : List UInt8}

theorem put_true_iff :
    (put outcome block file).1 = true ↔ block ≠ [] ∧ outcome = none := by
  cases block with
  | nil => simp [put]
  | cons b bs =>
    cases outcome with
    | none => simp [put]
    | some k => simp [put]

theorem put_of_true (h : (put outcome block file).1 = true) :
    (put outcome block file).2 = file ++ block := by
  obtain ⟨hblock, rfl⟩ := put_true_iff.mp h
  cases block with
  | nil => exact absurd rfl hblock
  | cons b bs => rfl

theorem put_file (outcome : Outcome) (block file : List UInt8) :
    ∃ part, (put outcome block file).2 = file ++ part ∧ part <+: block := by
  cases block with
  | nil => exact ⟨[], (append_nil file).symm, nil_prefix⟩
  | cons b bs =>
    cases outcome with
    | none => exact ⟨b :: bs, rfl, prefix_refl _⟩
    | some k => exact ⟨_, rfl, take_prefix _ _⟩

/-- **When the writer gets through.** -/
theorem putAll_eq_true_iff (io : ℕ → Outcome) (blocks : List (List UInt8)) :
    ∀ (n : ℕ) (file : List UInt8), (putAll io n blocks file).1 = true ↔
      (∀ block ∈ blocks, block ≠ []) ∧ ∀ i, n ≤ i → i < n + blocks.length → io i = none := by
  induction blocks with
  | nil =>
    intro n file
    constructor
    · intro _
      refine ⟨fun block hb => absurd hb not_mem_nil, ?_⟩
      intro i hn hi
      rw [length_nil] at hi
      omega
    · exact fun _ => rfl
  | cons block blocks ih =>
    intro n file
    have hsplit : (∀ i, n ≤ i → i < n + (block :: blocks).length → io i = none) ↔
        io n = none ∧ ∀ i, n + 1 ≤ i → i < n + 1 + blocks.length → io i = none := by
      rw [length_cons]
      constructor
      · intro h
        exact ⟨h n (Nat.le_refl n) (by omega), fun i hn hi => h i (by omega) (by omega)⟩
      · intro h i hn hi
        obtain rfl | hlt := Nat.eq_or_lt_of_le hn
        · exact h.1
        · exact h.2 i hlt (by omega)
    rw [forall_mem_cons, hsplit]
    unfold putAll
    cases hput : put (io n) block file with
    | mk ok file' =>
      have hiff := @put_true_iff (io n) block file
      rw [hput] at hiff
      cases ok with
      | true =>
        obtain ⟨hblock, hio⟩ := hiff.mp rfl
        rw [ih (n + 1) file']
        constructor
        · intro h
          exact ⟨⟨hblock, h.1⟩, hio, h.2⟩
        · intro h
          exact ⟨h.1.2, h.2.2⟩
      | false =>
        constructor
        · intro h
          contradiction
        · intro h
          exact hiff.mpr ⟨h.1.1, h.2.1⟩

theorem putAll_of_true (io : ℕ → Outcome) (blocks : List (List UInt8)) :
    ∀ (n : ℕ) (file : List UInt8), (putAll io n blocks file).1 = true →
      (putAll io n blocks file).2 = file ++ blocks.flatten := by
  induction blocks with
  | nil => exact fun n file _ => (append_nil file).symm
  | cons block blocks ih =>
    intro n file h
    unfold putAll at h ⊢
    cases hput : put (io n) block file with
    | mk ok file' =>
      rw [hput] at h
      cases ok with
      | true =>
        have hfile := @put_of_true (io n) block file (by rw [hput])
        rw [hput] at hfile
        dsimp only at h hfile ⊢
        rw [ih (n + 1) file' h, hfile, append_assoc]
        rfl
      | false => contradiction

/-- Whatever happens, the file is the beginning of what should be written. -/
theorem putAll_prefix (io : ℕ → Outcome) (blocks : List (List UInt8)) :
    ∀ (n : ℕ) (file : List UInt8), (putAll io n blocks file).2 <+: file ++ blocks.flatten := by
  induction blocks with
  | nil =>
    intro n file
    rw [flatten_nil, append_nil]
    exact prefix_refl _
  | cons block blocks ih =>
    intro n file
    unfold putAll
    cases hput : put (io n) block file with
    | mk ok file' =>
      cases ok with
      | true =>
        have hfile := @put_of_true (io n) block file (by rw [hput])
        rw [hput] at hfile
        have hrest := ih (n + 1) file'
        dsimp only at hfile ⊢
        rw [hfile, append_assoc] at hrest
        rw [hfile, flatten_cons]
        exact hrest
      | false =>
        obtain ⟨part, hpart, hbegin⟩ := put_file (io n) block file
        rw [hput] at hpart
        rw [hpart, flatten_cons]
        exact (prefix_append_right_inj file).mpr (hbegin.trans (prefix_append block _))

namespace HashTable

variable {e : HashEntry T}

/-- The parts of an entry of variable length. -/
theorem Varying.parts (h : Varying e) :
    ∃ data : List UInt8, e.body = encodeInt 4 data.length ++ data ∧ length_VL e = data.length
      ∧ e.body.take 4 = encodeInt 4 data.length
      ∧ (e.body.drop 4).take (length_VL e).toNat = data ∧ data.length ≤ 1048576 := by
  obtain ⟨data, hbody, hfit⟩ := h
  have hlen : data.length ≤ 1048576 := by
    unfold recordLen at hfit
    rw [hbody, length_append] at hfit
    omega
  have htake : e.body.take 4 = encodeInt 4 data.length := by
    rw [hbody, take_append_of_le_length (by rw [length_encodeInt]),
      take_of_length_le (by rw [length_encodeInt])]
  have hdrop : e.body.drop 4 = data := by
    rw [hbody, drop_append_of_le_length (by rw [length_encodeInt]),
      drop_of_length_le (by rw [length_encodeInt]), nil_append]
  have hvl : length_VL e = data.length := by
    unfold length_VL
    rw [htake, decodeInt_encodeInt]
    exact Int.bmod_eq_of_le_mul_two (by omega) (by omega)
  refine ⟨data, hbody, hvl, htake, ?_, hlen⟩
  rw [hdrop, hvl, Int.toNat_natCast, take_length]

/-- No value of a table of variable length is empty. -/
def NoEmptyValue (t : HashTable T) : Prop :=
  t.data_len_ < 0 → ∀ e ∈ t.entries, length_VL e ≠ 0

theorem keyBytes_ne_nil (key : Key T) : keyBytes key ≠ [] := by
  apply ne_nil_of_length_pos
  rw [keyBytes, length_encode]
  exact T.size_pos

theorem encodeInt_ne_nil (z : ℤ) : encodeInt 4 z ≠ [] :=
  ne_nil_of_length_pos (by rw [length_encodeInt]; decide)

variable {t : HashTable T}

/-- The only block that can be empty is a value of variable length. -/
theorem Valid.record_ne_nil (h : t.Valid) (he : e ∈ t.entries) :
    (∀ block ∈ t.record e, block ≠ []) ↔ (t.data_len_ < 0 → length_VL e ≠ 0) := by
  unfold record
  split_ifs with hneg hzero
  · obtain ⟨_, _, _, _, _, hshape⟩ := h.varying hneg
    obtain ⟨data, _, hvl, htake, hdata, _⟩ := (hshape e he).parts
    rw [hdata, htake]
    constructor
    · intro hall _ hbad
      have hempty : data = [] := length_eq_zero_iff.mp (by omega)
      exact hall data (by simp) hempty
    · intro hlen
      have hne : data ≠ [] := by
        intro hempty
        apply hlen hneg
        rw [hvl, hempty]
        rfl
      simp only [forall_mem_cons, not_mem_nil, false_implies, implies_true, and_true]
      exact ⟨keyBytes_ne_nil e.key, encodeInt_ne_nil _, hne⟩
  · have hbody : e.body ≠ [] := by
      obtain ⟨_, _, _, _, hshape⟩ := h.fixed (by omega)
      have hlen := hshape e he
      intro hempty
      rw [hempty] at hlen
      exact hzero hlen.symm
    simp only [forall_mem_cons, not_mem_nil, false_implies, implies_true, and_true]
    constructor
    · exact fun _ hbad => absurd hbad hneg
    · exact fun _ => ⟨keyBytes_ne_nil e.key, hbody⟩
  · simp only [forall_mem_cons, not_mem_nil, false_implies, implies_true, and_true]
    constructor
    · exact fun _ hbad => absurd hbad hneg
    · exact fun _ => keyBytes_ne_nil e.key

theorem Valid.fwrites_ne_nil (h : t.Valid) : (∀ block ∈ t.fwrites, block ≠ []) ↔ t.NoEmptyValue := by
  have hhead : ∀ block ∈ t.header, block ≠ [] := by
    unfold header
    simp only [forall_mem_cons, not_mem_nil, false_implies, implies_true, and_true]
    exact ⟨encodeInt_ne_nil _, encodeInt_ne_nil _, encodeInt_ne_nil _⟩
  unfold fwrites
  rw [forall_mem_cons, forall_mem_append]
  constructor
  · rintro ⟨_, _, hrec⟩ hneg e he
    refine (h.record_ne_nil he).mp ?_ hneg
    intro block hb
    exact hrec block (mem_flatMap.mpr ⟨e, he, hb⟩)
  · intro hall
    refine ⟨encodeInt_ne_nil _, hhead, ?_⟩
    intro block hb
    obtain ⟨e, he, hb⟩ := mem_flatMap.mp hb
    exact (h.record_ne_nil he).mpr (fun hneg => hall hneg e he) block hb

theorem fourth_snapshot (t : HashTable T) : t.snapshot[3]? = some 255 := rfl

theorem fourth_fwrites (t : HashTable T) : t.fwrites.flatten[3]? = some 238 := rfl

/-- **What the writer leaves**: the snapshot if it got through and the last
    `fwrite` met no error, else a file without the flag. -/
theorem writeFile_eq_snapshot_iff (t : HashTable T) (io : ℕ → Outcome) : t.writeFile io = t.snapshot ↔
      (putAll io 0 t.fwrites []).1 = true ∧ io t.fwrites.length = none := by
  have hfour : ∀ file : List UInt8, file <+: t.fwrites.flatten → file[3]? ≠ some 255 := by
    intro file hfile hbad
    obtain ⟨rest, hrest⟩ := hfile
    have hin : 3 < file.length := (List.getElem?_eq_some_iff.mp hbad).1
    have hfwrites := t.fourth_fwrites
    rw [← hrest, getElem?_append_left hin, hbad] at hfwrites
    exact absurd hfwrites (by decide)
  have hbegin := putAll_prefix io t.fwrites 0 []
  rw [nil_append] at hbegin
  unfold writeFile
  cases hput : putAll io 0 t.fwrites [] with
  | mk ok file =>
    rw [hput] at hbegin
    cases ok with
    | false =>
      constructor
      · intro heq
        have hbad := t.fourth_snapshot
        rw [← heq] at hbad
        exact absurd hbad (hfour file hbegin)
      · intro h
        exact absurd h.1 Bool.false_ne_true
    | true =>
      have hfile := putAll_of_true io t.fwrites 0 [] (by rw [hput])
      rw [hput, nil_append] at hfile
      dsimp only at hfile ⊢
      cases hio : io t.fwrites.length with
      | none =>
        refine ⟨fun _ => ⟨rfl, rfl⟩, fun _ => ?_⟩
        rw [hfile]
        rfl
      | some k =>
        constructor
        · intro heq
          have hbad := t.fourth_snapshot
          have hshort : ((encodeInt 4 endFlag).take (min k 3)).length ≤ 3 := by
            rw [length_take]
            omega
          rw [← heq, hfile] at hbad
          -- the fourth byte is behind what the failed `fwrite` reached
          have hbyte : (putFlag (some k) (encodeInt 4 endFlag) t.fwrites.flatten)[3]?
              = t.fwrites.flatten[3]? := by
            show ((encodeInt 4 endFlag).take (min k 3) ++ t.fwrites.flatten.drop (min k 3))[3]? = _
            rw [getElem?_append_right hshort, getElem?_drop, length_take,
              length_encodeInt]
            congr 1
            omega
          rw [hbyte, t.fourth_fwrites] at hbad
          exact absurd hbad (by decide)
        · intro h
          exact absurd h.2 (by simp)

/-- **The exact condition** for a complete file. -/
theorem Valid.writeFile_iff (h : t.Valid) (io : ℕ → Outcome) : t.writeFile io = t.snapshot ↔
      t.NoEmptyValue ∧ ∀ i, i ≤ t.fwrites.length → io i = none := by
  rw [writeFile_eq_snapshot_iff, putAll_eq_true_iff, h.fwrites_ne_nil]
  constructor
  · rintro ⟨⟨hne, hio⟩, hlast⟩
    refine ⟨hne, ?_⟩
    intro i hi
    obtain rfl | hlt := Nat.eq_or_lt_of_le hi
    · exact hlast
    · exact hio i (Nat.zero_le i) (by omega)
  · rintro ⟨hne, hio⟩
    exact ⟨⟨hne, fun i _ hi => hio i (by omega)⟩, hio _ (Nat.le_refl _)⟩

/-! ## §3. Does `save` tell the truth? -/

/-- What is asked of `save`: it returns 0 only with a complete file, and leaves
    one whenever there is no I/O error. -/
def Truthful (t : HashTable T) (opened : Bool) (io : ℕ → Outcome)
    (old : Option (List UInt8)) : Prop :=
  ((t.save opened io old).1 = 0 → (t.save opened io old).2 = some t.snapshot) ∧
    (opened = true → (∀ i, io i = none) → (t.save opened io old).2 = some t.snapshot)

theorem save_opened (hinit : t.initialized_ = 1) (io : ℕ → Outcome) (old : Option (List UInt8)) :
    t.save true io old = (0, some (t.writeFile io)) := by
  unfold save
  rw [if_neg (by rw [hinit]; decide)]
  rfl

theorem save_unopened (hinit : t.initialized_ = 1) (io : ℕ → Outcome) (old : Option (List UInt8)) :
    t.save false io old = (-2, old) := by
  unfold save
  rw [if_neg (by rw [hinit]; decide)]
  rfl

/-- **`save` TELLS THE TRUTH EXACTLY WHEN** the file could not be opened, or no
    `fwrite` it makes meets an error and no value of variable length is empty. -/
theorem save_truthful {t : HashTable T} (h : t.Valid) (hinit : t.initialized_ = 1) (opened : Bool)
    (io : ℕ → Outcome) (old : Option (List UInt8)) :
    t.Truthful opened io old ↔
      opened = false ∨ (t.NoEmptyValue ∧ ∀ i, i ≤ t.fwrites.length → io i = none) := by
  cases opened with
  | false =>
    unfold Truthful
    rw [save_unopened hinit]
    refine ⟨fun _ => Or.inl rfl, fun _ => ⟨?_, ?_⟩⟩
    · intro hcode
      omega
    · intro hbad
      contradiction
  | true =>
    unfold Truthful
    rw [save_opened hinit]
    constructor
    · intro htrue
      exact Or.inr ((h.writeFile_iff io).mp (Option.some.inj (htrue.1 rfl)))
    · intro hcond
      obtain hbad | hgood := hcond
      · contradiction
      · have hfile := congrArg some ((h.writeFile_iff io).mpr hgood)
        exact ⟨fun _ => hfile, fun _ _ => hfile⟩

/-- A table of variable length with one entry, whose value is empty. -/
def oneEmptyValue : HashTable uint64 where
  data_len_ := -1
  data_num_ := 1
  bucket_size_ := 1
  hash_table_ := [[⟨7, encodeInt 4 0⟩]]
  allocator_FL_ := none
  allocator_VL_ := some ⟨2000, 1048576, 0, 20, 20, some (fun n => n == 0 || false)⟩
  initialized_ := 1

theorem oneEmptyValue_run :
    ((new uint64).init 1 (-1)).2.run [.addKey_VL .ample 7 (fun _ => 0) 0] = some oneEmptyValue := rfl

theorem valid_oneEmptyValue : oneEmptyValue.Valid :=
  (valid_init (new uint64) (by decide) ⟨rfl, rfl⟩).2.1.run oneEmptyValue_run

/-- Three values, of two bytes, of one and of three. -/
def threeCalls : List (Call uint64) :=
  [.addKey_VL .ample 7 (fun _ => 1) 2, .addKey_VL .ample 8 (fun _ => 2) 1, .addKey_VL .ample 9 (fun _ => 3) 3]

/-- They are in two buckets, and every `fwrite` succeeds. -/
theorem save_truthful_written : ∃ t, ((new uint64).init 2 (-1)).2.run threeCalls = some t ∧ t.data_num_ = 3 ∧
    t.Truthful true (fun _ => none) none := by
  have hdone : (((new uint64).init 2 (-1)).2.run threeCalls).map (fun t => decide (t.data_num_ = 3 ∧
      t.initialized_ = 1 ∧ ∀ e ∈ t.entries, length_VL e ≠ 0)) = some true := by decide
  obtain ⟨t, hrun, ht⟩ := Option.map_eq_some_iff.mp hdone
  obtain ⟨hnum, hinit, hnonempty⟩ := of_decide_eq_true ht
  have hvalid := (valid_init (new uint64) (by decide) ⟨rfl, rfl⟩).2.1.run hrun
  exact ⟨t, hrun, hnum, (save_truthful hvalid hinit true _ none).mpr (Or.inr ⟨fun _ => hnonempty, fun _ _ => rfl⟩)⟩

/-- **A zero-length value and no I/O error**: `save` returns 0 and its file has
    no flag. -/
theorem save_untruthful_emptyValue : ¬ oneEmptyValue.Truthful true (fun _ => none) none := by
  intro h
  have hfile := h.1 rfl
  exact absurd hfile (by decide)

/-! ## §4. The reader. -/

end HashTable

/-- `fread(&number, sizeof(int32_t), 1, fp)==1`, the number, and the rest of the
    file; a short read fills the low bytes of a number that was 0. -/
def freadInt (file : List UInt8) : Bool × ℤ × List UInt8 :=
  (decide (4 ≤ file.length), decodeInt (file.take 4 ++ List.replicate (4 - file.length) 0), file.drop 4)

/-- `new char[1<<20]`. -/
def bufferSize : ℕ := 1048576

/-- What stands in the buffer after an `fread` of `n` bytes. -/
def buffered (n : ℕ) (file : List UInt8) : ℕ → UInt8 := fun i => (file.take n).getD i 0

section Reader

variable {σ : Type}

/-- The loop of a table of fixed length, `add` being `addKey_FL(key, buffer, &vpRetBuf)`;
    `none` when the value overruns the buffer or `add` leaves memory. -/
def loadLoop_FL (add : σ → Key T → (ℕ → UInt8) → Option (ℤ × σ)) (data_len_ : ℕ) :
    ℕ → List UInt8 → σ → Option σ
  | 0, _, s => some s
  | fuel + 1, file, s =>
    if file.length < T.size then some s
    else
      let key := keyOf T (file.take T.size)
      let rest := file.drop T.size
      if bufferSize < min data_len_ rest.length then none
      else if data_len_ ≠ 0 ∧ rest.length < data_len_ then some s
      else
        match add s key (buffered data_len_ rest) with
        | none => none
        | some (code, s) =>
          if code ≠ 0 then some s
          else loadLoop_FL add data_len_ fuel (rest.drop data_len_) s

/-- The loop of a table of variable length, `add` being
    `addKey_VL(key, buffer, length, &vpRetBuf, &lRetLen)`; the length becomes a
    `size_t` for `fread`. -/
def loadLoop_VL (add : σ → Key T → (ℕ → UInt8) → ℤ → Option (ℤ × σ)) :
    ℕ → List UInt8 → σ → Option σ
  | 0, _, s => some s
  | fuel + 1, file, s =>
    if file.length < T.size + 4 then some s
    else
      let key := keyOf T (file.take T.size)
      let length := decodeInt ((file.drop T.size).take 4)
      let size := (length % (2 ^ 64 : ℕ)).toNat
      let rest := file.drop (T.size + 4)
      if bufferSize < min size rest.length then none
      else if size = 0 ∨ rest.length < size then some s
      else
        match add s key (buffered size rest) length with
        | none => none
        | some (code, s) =>
          if code ≠ 0 then some s
          else loadLoop_VL add fuel (rest.drop size) s

/-- The end of the function: `if(getKeyNum()!=data_num) return -4;`. -/
def loadEnd (getKeyNum : σ → ℤ) (data_num : ℤ) (s : σ) : ℤ × σ :=
  if getKeyNum s ≠ data_num then (-4, s) else (0, s)

/-- `loadDataFromDisk(fileName)` on an open file; `buffer` is whether there is
    memory for the buffer. -/
def loadFile (add_FL : σ → Key T → (ℕ → UInt8) → Option (ℤ × σ))
    (add_VL : σ → Key T → (ℕ → UInt8) → ℤ → Option (ℤ × σ)) (getKeyNum : σ → ℤ) (data_len_ : ℤ)
    (buffer : Bool) (file : List UInt8) (s : σ) : Option (ℤ × σ) :=
  if !buffer then some (-3, s)
  else
    match freadInt file with
    | (okFlag, iFlag, file) =>
      if !okFlag || iFlag ≠ endFlag then some (loadEnd getKeyNum 0 s)
      else
        match freadInt file with
        | (okSize, _, file) =>
          if !okSize then some (loadEnd getKeyNum 0 s)
          else
            match freadInt file with
            | (okNum, data_num, file) =>
              if !okNum then some (loadEnd getKeyNum data_num s)
              else
                match freadInt file with
                | (okLen, _, file) =>
                  if !okLen then some (loadEnd getKeyNum data_num s)
                  else
                    ((if data_len_ < 0 then loadLoop_VL add_VL file.length file s
                      else loadLoop_FL add_FL data_len_.toNat file.length file s)).map
                      (loadEnd getKeyNum data_num)

end Reader

namespace HashTable

/-- `addKey_FL(key, buffer, &vpRetBuf)` as the reader calls it. -/
def loadAdd_FL (t : HashTable T) (key : Key T) (buffer : ℕ → UInt8) : Option (ℤ × HashTable T) :=
  (t.addKey_FL .ample key (some buffer) (fun _ => 0) (-1)).map (fun r => (r.1.1, r.2))

/-- `addKey_VL(key, buffer, length, &vpRetBuf, &lRetLen)` as the reader calls it. -/
def loadAdd_VL (t : HashTable T) (key : Key T) (buffer : ℕ → UInt8) (length : ℤ) :
    Option (ℤ × HashTable T) :=
  (t.addKey_VL .ample key buffer length).map (fun r => (r.1.1, r.2))

/-- `load(fileName)`, `none` for a file that is not there. -/
def load (t : HashTable T) (file : Option (List UInt8)) : Option (ℤ × HashTable T) :=
  if t.initialized_ = 1 then some (-1, t)
  else
    match file with
    | none => some (-2, t)
    | some file => loadFile loadAdd_FL loadAdd_VL getKeyNum t.data_len_ true file t

/-! ## §5. `load` and the initialisation flag. -/

variable {t : HashTable T}

variable {t' : HashTable T} {calls : List (Call T)}

theorem call_initialized {c : Call T} (h : t.call c = some t') :
    t'.initialized_ = t.initialized_ := by
  cases c with
  | addKey_FL heap key vpData junk iIndex =>
    obtain ⟨⟨r, t₁⟩, hr, rfl⟩ := map_eq_some_iff.mp h
    obtain ⟨_, _, ⟨_, rfl, _⟩ | ⟨_, _, _, ⟨_, _, rfl⟩ | ⟨_, _, rfl⟩⟩⟩ := addKey_FL_cases hr <;> rfl
  | searchKey_FL key iIndex =>
    obtain ⟨_, _, rfl⟩ := map_eq_some_iff.mp h
    rfl
  | updateKey_FL key vpData iIndex =>
    obtain ⟨⟨r, t₁⟩, hr, rfl⟩ := map_eq_some_iff.mp h
    unfold HashTable.updateKey_FL at hr
    repeat' split at hr
    all_goals cases hr
    all_goals rfl
  | deleteKey_FL key iIndex =>
    obtain ⟨⟨r, t₁⟩, hr, rfl⟩ := map_eq_some_iff.mp h
    unfold HashTable.deleteKey_FL at hr
    repeat' split at hr
    all_goals cases hr
    all_goals rfl
  | addKey_VL heap key vpData data_len =>
    obtain ⟨⟨r, t₁⟩, hr, rfl⟩ := map_eq_some_iff.mp h
    obtain ⟨_, _, rfl⟩ | ⟨_, _, _, ⟨_, rfl, _⟩ | ⟨_, _, _, ⟨_, _, rfl⟩ | ⟨_, _, rfl⟩⟩⟩ :=
      addKey_VL_cases hr <;> rfl
  | searchKey_VL key =>
    obtain ⟨_, _, rfl⟩ := map_eq_some_iff.mp h
    rfl
  | clear =>
    obtain ⟨⟨r, t₁⟩, hr, rfl⟩ := map_eq_some_iff.mp h
    unfold HashTable.clear at hr
    split at hr
    · contradiction
    · cases hr
      rfl

theorem run_initialized (h : t.run calls = some t') :
    t'.initialized_ = t.initialized_ := by
  induction calls generalizing t with
  | nil =>
    cases h
    rfl
  | cons c calls ih =>
    unfold HashTable.run at h
    rw [foldlM_cons, bind_eq_bind, bind_eq_some_iff] at h
    obtain ⟨t₁, hc, hrest⟩ := h
    rw [ih hrest, call_initialized hc]

/-- There is a way to bring `file` into a new object: `init` with the same
    `data_len`, some number of buckets and any calls after it, then `load`,
    which returns 0 and leaves the entries of `t`. -/
def Restorable (t : HashTable T) (file : Option (List UInt8)) : Prop :=
  ∃ (bucket_size : ℤ) (calls : List (Call T)) (t₁ t₂ : HashTable T), 0 < bucket_size ∧
    ((new T).init bucket_size t.data_len_).2.run calls = some t₁ ∧ t₁.load file = some (0, t₂) ∧
    ∀ e, e ∈ t₂.entries ↔ e ∈ t.entries

theorem load_of_initialized (h : t.initialized_ = 1) (file : Option (List UInt8)) :
    t.load file = some (-1, t) := if_pos h

theorem load_after_init {bucket_size data_len : ℤ} (hb : 0 < bucket_size)
    (hrun : ((new T).init bucket_size data_len).2.run calls = some t) (file : Option (List UInt8)) :
    t.load file = some (-1, t) := by
  apply load_of_initialized
  rw [run_initialized hrun]
  exact (valid_init (new T) hb ⟨rfl, rfl⟩).2.2.2.2.2

/-- **`load` NEVER RESTORES A TABLE**: whatever was saved, `init` raises the
    flag that makes `load` return −1. -/
theorem load_refused (t : HashTable T) (file : Option (List UInt8)) : ¬ t.Restorable file := by
  rintro ⟨bucket_size, calls, t₁, t₂, hb, hrun, hload, _⟩
  rw [load_after_init hb hrun file] at hload
  have hcode := congrArg (Option.map Prod.fst) hload
  have hcode' : (-1 : ℤ) = 0 := Option.some.inj hcode
  omega

/-- A table of fixed length with the one entry `1 ↦ 2`. -/
def oneEntry : HashTable uint64 where
  data_len_ := 1
  data_num_ := 1
  bucket_size_ := 1
  hash_table_ := [[⟨1, [2]⟩]]
  allocator_FL_ := some ⟨⟨1, 1000, 25, 25000, 25, 0, 1000000, 1,
    some (fun n => n == 0 || false)⟩, 0⟩
  allocator_VL_ := none
  initialized_ := 1

theorem oneEntry_run : ((new uint64).init 1 1).2.run [.addKey_FL .ample 1 (some fun _ => 2) (fun _ => 0) (-1)]
      = some oneEntry := rfl

/-- `oneEntry` is saved completely, and its file cannot be loaded. -/
theorem saved_not_restorable :
    oneEntry.save true (fun _ => none) none = (0, some oneEntry.snapshot)
      ∧ ¬ oneEntry.Restorable (some oneEntry.snapshot) := by
  refine ⟨by decide, ?_⟩
  rintro ⟨bucket_size, calls, t₁, t₂, hb, hrun, hload, _⟩
  rw [load_after_init hb hrun] at hload
  have hcode := congrArg (Option.map Prod.fst) hload
  exact absurd hcode (by simp)

end HashTable

end KalavaPir.Common
