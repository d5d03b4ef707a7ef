/-
  KalavaPir.Common.QDiskCacheSave — the save cycle of `QDiskCache::thread_save`,
  `QDiskCache::loadDataFromDisk` and `QDiskCache::init`.

  A cycle moves `__disk.cache` to `__disk.last` with `q_swap_file`, creates a new
  `__disk.cache` and writes the table into it, the commit flag last.  It is a
  SMALL-STEP program on the directory, one step a file operation, the bytes of
  the file one by one; a process that stops inside a cycle is a run of fewer
  steps.  `init` loads `__disk.cache` if it is there.

  The reader does not tell a file without the flag from an empty one: it returns 0.
  The backup `__disk.last` is never read.
-/
import KalavaPir.Common.QSwapFile
import KalavaPir.Common.QDiskCache

namespace KalavaPir.Common

open KalavaPir.Framework List

variable {T : KeyType}

/-! ## §1. The reader under the lock. -/

section Reader

variable {σ τ : Type}

theorem loadLoop_FL_map (f : σ → τ) {add : σ → Key T → (ℕ → UInt8) → Option (ℤ × σ)}
    {add' : τ → Key T → (ℕ → UInt8) → Option (ℤ × τ)}
    (h : ∀ s key p, add' (f s) key p = (add s key p).map (fun r => (r.1, f r.2))) (n : ℕ) :
    ∀ (fuel : ℕ) (file : List UInt8) (s : σ),
      loadLoop_FL add' n fuel file (f s) = (loadLoop_FL add n fuel file s).map f := by
  intro fuel
  induction fuel with
  | zero => exact fun _ _ => rfl
  | succ fuel ih =>
    intro file s
    unfold loadLoop_FL
    dsimp only
    rw [h]
    split_ifs
    · rfl
    · rfl
    · rfl
    · cases add s (keyOf T (file.take T.size)) (buffered n (file.drop T.size)) with
      | none => rfl
      | some r =>
        rw [Option.map_some]
        dsimp only
        split_ifs
        · rfl
        · exact ih _ r.2

/-- A length that gets as far as the add is not negative. -/
theorem length_nonneg {bs : List UInt8} (hbs : bs.length = 4) {n : ℕ}
    (hover : ¬ bufferSize < min (decodeInt bs % (2 ^ 64 : ℕ)).toNat n)
    (hread : ¬ n < (decodeInt bs % (2 ^ 64 : ℕ)).toNat) : 0 ≤ decodeInt bs := by
  have hrange : -2147483648 ≤ decodeInt bs := by
    have h := Int.le_bmod (x := (decode bs : ℤ)) (m := 256 ^ bs.length) (by rw [hbs]; decide)
    unfold decodeInt
    rw [hbs] at h ⊢
    omega
  unfold bufferSize at hover
  by_contra hneg
  omega

theorem loadLoop_VL_map (f : σ → τ) {add : σ → Key T → (ℕ → UInt8) → ℤ → Option (ℤ × σ)}
    {add' : τ → Key T → (ℕ → UInt8) → ℤ → Option (ℤ × τ)}
    (h : ∀ s key p n, 0 ≤ n → add' (f s) key p n = (add s key p n).map (fun r => (r.1, f r.2))) :
    ∀ (fuel : ℕ) (file : List UInt8) (s : σ),
      loadLoop_VL add' fuel file (f s) = (loadLoop_VL add fuel file s).map f := by
  intro fuel
  induction fuel with
  | zero => exact fun _ _ => rfl
  | succ fuel ih =>
    intro file s
    unfold loadLoop_VL
    dsimp only
    split_ifs with hshort hover hread
    · rfl
    · rfl
    · rfl
    · have hlen : ((file.drop T.size).take 4).length = 4 := by
        rw [length_take, length_drop]
        omega
      rw [h _ _ _ _ (length_nonneg hlen hover (fun hlt => hread (Or.inr hlt)))]
      generalize (decodeInt ((file.drop T.size).take 4) % (2 ^ 64 : ℕ)).toNat = size
      cases add s (keyOf T (file.take T.size)) (buffered size (file.drop (T.size + 4)))
          (decodeInt ((file.drop T.size).take 4)) with
      | none => rfl
      | some r =>
        rw [Option.map_some]
        dsimp only
        split_ifs
        · rfl
        · exact ih _ r.2

/-- The reader on two kinds of state that answer alike. -/
theorem loadFile_map (f : σ → τ) {add_FL : σ → Key T → (ℕ → UInt8) → Option (ℤ × σ)}
    {add_FL' : τ → Key T → (ℕ → UInt8) → Option (ℤ × τ)}
    {add_VL : σ → Key T → (ℕ → UInt8) → ℤ → Option (ℤ × σ)}
    {add_VL' : τ → Key T → (ℕ → UInt8) → ℤ → Option (ℤ × τ)} {num : σ → ℤ} {num' : τ → ℤ}
    (hFL : ∀ s key p, add_FL' (f s) key p = (add_FL s key p).map (fun r => (r.1, f r.2)))
    (hVL : ∀ s key p n, 0 ≤ n → add_VL' (f s) key p n = (add_VL s key p n).map (fun r => (r.1, f r.2)))
    (hnum : ∀ s, num' (f s) = num s) (data_len_ : ℤ) (file : List UInt8) (s : σ) :
    loadFile add_FL' add_VL' num' data_len_ true file (f s)
      = (loadFile add_FL add_VL num data_len_ true file s).map (fun r => (r.1, f r.2)) := by
  have hend : ∀ n s, loadEnd num' n (f s) = ((loadEnd num n s).1, f (loadEnd num n s).2) := by
    intro n s
    unfold loadEnd
    rw [hnum]
    split_ifs <;> rfl
  have hloop : ∀ (n : ℤ) (read : Option σ), (read.map f).map (loadEnd num' n)
      = (read.map (loadEnd num n)).map (fun r => (r.1, f r.2)) := by
    intro n read
    cases read with
    | none => rfl
    | some s => exact congrArg some (hend n s)
  unfold loadFile
  dsimp only
  rw [loadLoop_FL_map f hFL, loadLoop_VL_map f hVL, hend, hend]
  -- the same tests on both sides, and the loop behind the last of them
  by_cases hlen : data_len_ < 0
  · simp only [if_pos hlen, hloop, apply_ite (Option.map fun r : ℤ × σ => (r.1, f r.2)), Option.map_some]
  · simp only [if_neg hlen, hloop, apply_ite (Option.map fun r : ℤ × σ => (r.1, f r.2)), Option.map_some]

end Reader

namespace QDiskCache

/-- `addKey_FL(key, buffer, &vpRetBuf)` as the reader calls it. -/
def loadAdd_FL (c : QDiskCache T) (key : Key T) (buffer : ℕ → UInt8) : Option (ℤ × QDiskCache T) :=
  match c.addKey_FL .ample key (some buffer) (fun _ => 0) (-1) with
  | .returned (r, c) => some (r.1, c)
  | _ => none

/-- `addKey_VL(key, buffer, length, &vpRetBuf, &lRetLen)` as the reader calls it. -/
def loadAdd_VL (c : QDiskCache T) (key : Key T) (buffer : ℕ → UInt8) (length : ℤ) :
    Option (ℤ × QDiskCache T) :=
  match c.addKey_VL .ample key buffer length with
  | .returned (r, c) => some (r.1, c)
  | _ => none

/-- `loadDataFromDisk(fileName)` on a file that is there. -/
def loadDataFromDisk (c : QDiskCache T) (file : List UInt8) : Option (ℤ × QDiskCache T) :=
  loadFile loadAdd_FL loadAdd_VL (fun c => c.data_num_) c.data_len_ true file c

/-- `DEFAULT_DISK_CACHE_FILE` and `DEFAULT_DISK_SWAP_FILE`. -/
def diskCache : String := "__disk.cache"
/-- The file that is loaded. -/
def diskLast : String := "__disk.last"

/-- `init(bucket_size, data_len, ..)` of a new object, with memory and a thread
    to be had: `none` when it leaves memory. -/
def init (T : KeyType) (bucket_size data_len : ℤ) (d : Directory String (List UInt8)) :
    Option (ℤ × QDiskCache T) :=
  match (HashTable.new T).init bucket_size data_len with
  | (code, t) =>
    if code ≠ 0 then some (code, ⟨t, false⟩)
    else
      match d diskCache with
      | none => some (0, ⟨t, false⟩)
      | some file =>
        match loadDataFromDisk ⟨t, false⟩ file with
        | none => none
        | some (code, c) => if code ≠ 0 then some (-5, c) else some (0, c)

/-- A table under a free mutex. -/
def free (t : HashTable T) : QDiskCache T := ⟨t, false⟩

theorem loadAdd_FL_free (t : HashTable T) (key : Key T) (p : ℕ → UInt8) :
    (free t).loadAdd_FL key p = (t.loadAdd_FL key p).map (fun r => (r.1, free r.2)) := by
  have hlock : (free t).lock = some ⟨t, true⟩ := rfl
  unfold loadAdd_FL addKey_FL HashTable.loadAdd_FL HashTable.addKey_FL
  rw [hlock]
  dsimp only
  cases hchain : t.hash_table_[t.index key (-1)]? with
  | none => rfl
  | some chain =>
    dsimp only
    cases hfind : findKey key chain with
    | some e => rfl
    | none =>
      cases ha : t.allocator_FL_ with
      | none => rfl
      | some a =>
        dsimp only
        rcases a.alloc .ample with ⟨_ | _ | _, a'⟩ <;> rfl

theorem loadAdd_VL_free (t : HashTable T) (key : Key T) (p : ℕ → UInt8) (n : ℤ) (hn : 0 ≤ n) :
    (free t).loadAdd_VL key p n = (t.loadAdd_VL key p n).map (fun r => (r.1, free r.2)) := by
  have hlock : (free t).lock = some ⟨t, true⟩ := rfl
  unfold loadAdd_VL addKey_VL HashTable.loadAdd_VL HashTable.addKey_VL
  rw [hlock]
  dsimp only
  rw [if_neg (by omega), if_neg (by omega)]
  cases hchain : t.hash_table_[t.index key (-1)]? with
  | none => rfl
  | some chain =>
    dsimp only
    cases hfind : findKey key chain with
    | some e => rfl
    | none =>
      cases ha : t.allocator_VL_ with
      | none => rfl
      | some a =>
        dsimp only
        rcases a.alloc .ample (8 + T.size + 4 + n) with ⟨_ | _, a'⟩ <;> rfl

theorem loadDataFromDisk_free (t : HashTable T) (file : List UInt8) : (free t).loadDataFromDisk file
      = (loadFile HashTable.loadAdd_FL HashTable.loadAdd_VL HashTable.getKeyNum t.data_len_ true file t).map
        (fun r => (r.1, free r.2)) :=
  loadFile_map free loadAdd_FL_free loadAdd_VL_free (fun _ => rfl) t.data_len_ file t

/-! ## §2. What `init` makes of a file. -/

/-- `init` returns 0 with exactly the entries `es`. -/
def Loads (T : KeyType) (bucket_size data_len : ℤ) (d : Directory String (List UInt8))
    (es : List (HashEntry T)) : Prop :=
  ∃ c : QDiskCache T, init T bucket_size data_len d = some (0, c) ∧ ∀ e, e ∈ c.entries ↔ e ∈ es

/-- The table `init` sets up before it looks for the file. -/
def initial (T : KeyType) (bucket_size data_len : ℤ) : HashTable T :=
  ((HashTable.new T).init bucket_size data_len).2

variable {bucket_size data_len : ℤ} {d : Directory String (List UInt8)} {t : HashTable T}

theorem init_eq (hb : 0 < bucket_size) (data_len : ℤ) (d : Directory String (List UInt8)) :
    init T bucket_size data_len d =
      match d diskCache with
      | none => some (0, free (initial T bucket_size data_len))
      | some file =>
        match (free (initial T bucket_size data_len)).loadDataFromDisk file with
        | none => none
        | some (code, c) => if code ≠ 0 then some (-5, c) else some (0, c) := by
  have hcode : ((HashTable.new T).init bucket_size data_len).1 = 0 :=
    (HashTable.valid_init (HashTable.new T) hb ⟨rfl, rfl⟩).1
  unfold init initial
  cases ht : (HashTable.new T).init bucket_size data_len with
  | mk code t =>
    rw [ht] at hcode
    have hcode' : code = 0 := hcode
    dsimp only
    rw [if_neg (by rw [hcode']; exact fun h => h rfl)]
    rfl

theorem init_of_load (hb : 0 < bucket_size) {file : List UInt8} (hd : d diskCache = some file) {code : ℤ}
    (hload : loadFile HashTable.loadAdd_FL HashTable.loadAdd_VL HashTable.getKeyNum data_len true file (initial T bucket_size data_len) = some (code, t)) :
    init T bucket_size data_len d = if code ≠ 0 then some (-5, free t) else some (0, free t) := by
  have hlen : (initial T bucket_size data_len).data_len_ = data_len :=
    (HashTable.valid_init (HashTable.new T) hb ⟨rfl, rfl⟩).2.2.2.1
  rw [init_eq hb, hd]
  dsimp only
  rw [loadDataFromDisk_free, hlen, hload]
  rfl

theorem initial_VL (hneg : data_len < 0) : (initial T bucket_size data_len).allocator_VL_ = some .new := by
  unfold initial HashTable.init
  rw [if_pos hneg]

/-- The snapshot of `t` can be read back. -/
def Reloads (t : HashTable T) : Prop :=
  t.Reloadable ∧ (t.entries = [] ∨ t.data_len_ ≤ 1048576)

theorem initial_valid (hb : 0 < bucket_size) (data_len : ℤ) :
    (initial T bucket_size data_len).Valid ∧ (initial T bucket_size data_len).entries = []
      ∧ (initial T bucket_size data_len).data_len_ = data_len := by
  obtain ⟨_, hv, hnil, hlen, _⟩ : _ ∧ ((HashTable.new T).init bucket_size data_len).2.Valid ∧ _ ∧ _ ∧ _ :=
    HashTable.valid_init (HashTable.new T) hb ⟨rfl, rfl⟩
  exact ⟨hv, hnil, hlen⟩

/-- **`init` on a finished file** returns 0 exactly if the snapshot can be read
    back, and then the entries are the table's. -/
theorem init_snapshot (h : t.Valid) (h32 : t.Header32) (hne : t.NoEmptyValue) (hb : 0 < bucket_size)
    (hd : d diskCache = some t.snapshot) :
    ((∃ c, init T bucket_size t.data_len_ d = some (0, c)) → Reloads t) ∧
      (Reloads t → Loads T bucket_size t.data_len_ d t.entries) := by
  obtain ⟨hv, hnil, hlen⟩ := initial_valid (T := T) hb t.data_len_
  by_cases hbuf : t.entries = [] ∨ t.data_len_ ≤ 1048576
  · obtain ⟨code, t', hload, hcode, hperm⟩ := HashTable.loadFile_snapshot h h32 hne hv hnil hlen hbuf
      (fun hneg => initial_VL hneg)
    rw [hlen] at hload
    have hinit := init_of_load hb hd hload
    constructor
    · rintro ⟨c, hc⟩
      refine ⟨?_, hbuf⟩
      by_contra hbad
      have hne0 : code ≠ 0 := fun hz => hbad (hcode.mp hz)
      rw [hinit, if_pos hne0] at hc
      have hfive : (-5 : ℤ) = 0 := congrArg Prod.fst (Option.some.inj hc)
      omega
    · rintro ⟨hgood, _⟩
      rw [if_neg (fun hz => hz (hcode.mpr hgood))] at hinit
      exact ⟨free t', hinit, fun e => (hperm hgood).mem_iff⟩
  · have hnone : init T bucket_size t.data_len_ d = none := by
      have hover := HashTable.loadFile_overflow h h32 hlen (fun hz => hbuf (Or.inl hz))
        (by omega)
      rw [init_eq hb, hd]
      dsimp only
      rw [loadDataFromDisk_free, hover]
      rfl
    constructor
    · rintro ⟨c, hc⟩
      rw [hnone] at hc
      contradiction
    · exact fun hgood => absurd hgood.2 hbuf

/-- A file whose first four bytes are not the commit flag. -/
def Unfinished (file : List UInt8) : Prop := (freadInt file).1 = false ∨ (freadInt file).2.1 ≠ endFlag

/-- **`init` on an unfinished file**, or on none: it returns 0 with an EMPTY
    cache. -/
theorem init_unfinished (hb : 0 < bucket_size) (data_len : ℤ)
    (hd : ∀ file, d diskCache = some file → Unfinished file) : Loads T bucket_size data_len d [] := by
  obtain ⟨hv, hnil, _⟩ := initial_valid (T := T) hb data_len
  have hnum : (initial T bucket_size data_len).data_num_ = 0 := by
    rw [hv.num, hnil]
    rfl
  have hentries : ∀ e, e ∈ (free (initial T bucket_size data_len)).entries ↔ e ∈ ([] : List (HashEntry T)) := by
    intro e
    show e ∈ (initial T bucket_size data_len).entries ↔ _
    rw [hnil]
  cases hfile : d diskCache with
  | none =>
    refine ⟨free (initial T bucket_size data_len), ?_, hentries⟩
    rw [init_eq hb, hfile]
  | some file =>
    have hload : loadFile HashTable.loadAdd_FL HashTable.loadAdd_VL HashTable.getKeyNum data_len true file
        (initial T bucket_size data_len) = some (0, initial T bucket_size data_len) := by
      have hflag : (!(freadInt file).1 || decide ((freadInt file).2.1 ≠ endFlag)) = true := by
        obtain hshort | hflag := hd file hfile
        · rw [hshort]
          rfl
        · rw [decide_eq_true hflag, Bool.or_true]
      unfold loadFile
      dsimp only
      rw [if_pos hflag]
      unfold loadEnd HashTable.getKeyNum
      rw [hnum]
      rfl
    exact ⟨free (initial T bucket_size data_len), init_of_load hb hfile hload, hentries⟩

/-! ## §3. The save cycle. -/

/-- The bytes `fwrite`n before the `fseek`, or before the `goto err` of a block
    that has none. -/
def stream (t : HashTable T) : List UInt8 := (putAll (fun _ => none) 0 t.fwrites []).2

/-- No `goto err`. -/
def gotThrough (t : HashTable T) : Bool := (putAll (fun _ => none) 0 t.fwrites []).1

theorem writeFile_of_through (h : gotThrough t = true) :
    t.writeFile (fun _ => none) = encodeInt 4 endFlag ++ (stream t).drop 4 := by
  unfold stream HashTable.writeFile
  unfold gotThrough at h
  cases hput : putAll (fun _ => none) 0 t.fwrites [] with
  | mk through file =>
    rw [hput] at h
    have hthrough : through = true := h
    rw [hthrough]
    rfl

theorem writeFile_of_stopped (h : gotThrough t = false) : t.writeFile (fun _ => none) = stream t := by
  unfold stream HashTable.writeFile
  unfold gotThrough at h
  cases hput : putAll (fun _ => none) 0 t.fwrites [] with
  | mk through file =>
    rw [hput] at h
    have hthrough : through = false := h
    rw [hthrough]

/-- Where a cycle stands: the test for `__disk.cache`, the swap, `fopen`, the
    bytes before the `fseek`, those of the flag, the end. -/
inductive SaveAt where
  | access
  | swap (at_ : SwapAt)
  | fopen
  | fwrite (n : ℕ)
  | flag (n : ℕ)
  | closed
  deriving DecidableEq, Repr

/-- One file operation of a cycle; `ok` is whether a `remove`, `rename` or
    `fopen` succeeds, which the code repeats until it does. -/
def saveStep (t : HashTable T) (s : SaveAt × Directory String (List UInt8)) (ok : Bool) :
    SaveAt × Directory String (List UInt8) :=
  match s with
  -- the names are literals, short enough for the array of `q_swap_file`
  | (.access, d) => (if d.access diskCache then .swap .removeBak else .fopen, d)
  | (.swap p, d) =>
    match swapStep diskCache diskLast (p, d) ok with
    | (.returned, d) => (.fopen, d)
    | (p, d) => (.swap p, d)
  | (.fopen, d) => if ok then (.fwrite 0, d.write diskCache []) else (.fopen, d)
  | (.fwrite n, d) =>
    if n < (stream t).length then (.fwrite (n + 1), d.write diskCache ((stream t).take (n + 1)))
    else if gotThrough t then (.flag 0, d)
    else (.closed, d)
  | (.flag n, d) =>
    if n < 4 then
      (.flag (n + 1), d.write diskCache
        ((encodeInt 4 endFlag).take (n + 1) ++ (stream t).drop (n + 1)))
    else (.closed, d)
  | (.closed, d) => (.closed, d)

/-- A cycle as far as the outcomes go. -/
def saveRun (t : HashTable T) (d : Directory String (List UInt8)) (oks : List Bool) :
    SaveAt × Directory String (List UInt8) :=
  oks.foldl (saveStep t) (.access, d)

/-- What `__disk.cache` holds at each point of a cycle that began with `old`. -/
def SaveInv (t : HashTable T) (old : Option (List UInt8)) :
    SaveAt × Directory String (List UInt8) → Prop
  | (.access, d) => d diskCache = old
  | (.swap p, d) => d diskCache = old ∧ old ≠ none ∧ p ≠ .returned
  | (.fopen, d) => d diskCache = none
  | (.fwrite n, d) => n ≤ (stream t).length ∧ d diskCache = some ((stream t).take n)
  | (.flag n, d) => n ≤ 4 ∧ gotThrough t = true ∧
      d diskCache = some ((encodeInt 4 endFlag).take n ++ (stream t).drop n)
  | (.closed, d) => d diskCache = some (t.writeFile (fun _ => none))

theorem diskCache_ne_last : diskCache ≠ diskLast := by decide
theorem diskCache_ne_bak : diskCache ≠ bak_file diskLast := by decide

/-- The swap keeps `__disk.cache` until its last `rename`. -/
theorem swapStep_diskCache {p : SwapAt} (hsome : d diskCache ≠ none) (hp : p ≠ .returned) (ok : Bool) :
    ((swapStep diskCache diskLast (p, d) ok).1 ≠ .returned ∧
        (swapStep diskCache diskLast (p, d) ok).2 diskCache = d diskCache) ∨
      ((swapStep diskCache diskLast (p, d) ok).1 = .returned ∧
        (swapStep diskCache diskLast (p, d) ok).2 diskCache = none) := by
  cases p with
  | removeBak =>
    refine Or.inl ?_
    unfold swapStep swapTurn
    dsimp only
    split_ifs
    · exact ⟨by simp, Directory.remove_of_ne diskCache_ne_bak d⟩
    · exact ⟨by simp, rfl⟩
    · exact ⟨by simp, rfl⟩
  | renameOrg =>
    refine Or.inl ?_
    unfold swapStep swapTurn
    dsimp only
    split_ifs
    · exact ⟨by simp, Directory.rename_of_ne diskCache_ne_last diskCache_ne_bak d⟩
    · exact ⟨by simp, rfl⟩
    · exact ⟨by simp, rfl⟩
  | renameNew =>
    have haccess : d.access diskCache = true := Directory.access_iff.mpr (Option.ne_none_iff_exists'.mp hsome)
    unfold swapStep swapTurn
    dsimp only
    split_ifs
    · exact Or.inr ⟨rfl, Directory.rename_source diskCache_ne_last d⟩
    · exact Or.inl ⟨by simp, rfl⟩
  | returned => exact absurd rfl hp
  | overflow => exact Or.inl ⟨by simp [swapStep], rfl⟩

/-- The step lemma of a cycle. -/
theorem saveStep_inv {old : Option (List UInt8)} {s : SaveAt × Directory String (List UInt8)}
    (h : SaveInv t old s) (ok : Bool) : SaveInv t old (saveStep t s ok) := by
  obtain ⟨pc, d⟩ := s
  cases pc with
  | access =>
    have hd : d diskCache = old := h
    show SaveInv t old (if d.access diskCache then .swap .removeBak else .fopen, d)
    cases haccess : d.access diskCache with
    | true =>
      obtain ⟨c, hc⟩ := Directory.access_iff.mp haccess
      have hsome : old ≠ none := by
        rw [← hd, hc]
        exact Option.some_ne_none c
      exact ⟨hd, hsome, by simp⟩
    | false => exact Directory.access_eq_false.mp haccess
  | swap p =>
    obtain ⟨hd, hsome, hp⟩ := h
    have hswap := swapStep_diskCache (d := d) (by rw [hd]; exact hsome) hp ok
    unfold saveStep
    dsimp only
    generalize swapStep diskCache diskLast (p, d) ok = s' at hswap
    obtain ⟨p', d'⟩ := s'
    obtain ⟨hp', hd'⟩ | ⟨hp', hd'⟩ := hswap
    · have hkeep : SaveInv t old (.swap p', d') := ⟨hd'.trans hd, hsome, hp'⟩
      cases p' with
      | returned => exact absurd rfl hp'
      | removeBak => exact hkeep
      | renameOrg => exact hkeep
      | renameNew => exact hkeep
      | overflow => exact hkeep
    · have hp'' : p' = .returned := hp'
      rw [hp'']
      exact hd'
  | fopen =>
    unfold saveStep
    dsimp only
    split_ifs
    · exact ⟨Nat.zero_le _, Directory.write_self ..⟩
    · exact h
  | fwrite n =>
    obtain ⟨hn, hd⟩ := h
    unfold saveStep
    dsimp only
    split_ifs with hlt hthrough
    · exact ⟨hlt, Directory.write_self ..⟩
    · refine ⟨Nat.zero_le _, hthrough, ?_⟩
      rw [hd, take_of_length_le (by omega)]
      rfl
    · show d diskCache = some (t.writeFile (fun _ => none))
      rw [hd, take_of_length_le (by omega), writeFile_of_stopped (by simpa using hthrough)]
  | flag n =>
    obtain ⟨hn, hthrough, hd⟩ := h
    unfold saveStep
    dsimp only
    split_ifs with hlt
    · exact ⟨hlt, hthrough, Directory.write_self ..⟩
    have hfour : n = 4 := by omega
    show d diskCache = some (t.writeFile (fun _ => none))
    rw [hd, hfour, writeFile_of_through hthrough]
    rfl
  | closed => exact h

/-- **What a cycle leaves**, wherever it is stopped. -/
theorem saveRun_inv (t : HashTable T) (d : Directory String (List UInt8)) (oks : List Bool) :
    SaveInv t (d diskCache) (saveRun t d oks) := by
  have key : ∀ (oks : List Bool) (s : SaveAt × Directory String (List UInt8)),
      SaveInv t (d diskCache) s → SaveInv t (d diskCache) (oks.foldl (saveStep t) s) := by
    intro oks
    induction oks with
    | nil => exact fun _ hs => hs
    | cons ok oks ih => exact fun s hs => ih _ (saveStep_inv hs ok)
  exact key oks (.access, d) rfl

/-! ## §4. The files of a cycle. -/

/-- What is written first is the begin flag. -/
theorem stream_eq (t : HashTable T) : ∃ rest, stream t = encodeInt 4 beginFlag ++ rest := by
  have hbegin : encodeInt 4 beginFlag <+: stream t := by
    have key : ∀ (blocks : List (List UInt8)) (n : ℕ) (file : List UInt8),
        file <+: (putAll (fun _ => none) n blocks file).2 := by
      intro blocks
      induction blocks with
      | nil => exact fun _ file => prefix_refl file
      | cons block blocks ih =>
        intro n file
        unfold putAll
        cases hput : put none block file with
        | mk ok file' =>
          obtain ⟨part, hpart, _⟩ := put_file none block file
          rw [hput] at hpart
          have hfile : file <+: file' := ⟨part, hpart.symm⟩
          cases ok with
          | true => exact hfile.trans (ih (n + 1) file')
          | false => exact hfile
    exact key (t.header ++ t.entries.flatMap t.record) 1 (encodeInt 4 beginFlag)
  obtain ⟨rest, hrest⟩ := hbegin
  exact ⟨rest, hrest.symm⟩

theorem unfinished_take (t : HashTable T) (n : ℕ) : Unfinished ((stream t).take n) := by
  obtain ⟨rest, hrest⟩ := stream_eq t
  rw [hrest]
  by_cases hn : n < 4
  · refine Or.inl ?_
    unfold freadInt
    rw [length_take]
    exact decide_eq_false (by omega)
  refine Or.inr ?_
  rw [take_append, take_of_length_le (by rw [length_encodeInt]; omega),
    HashTable.freadInt_encodeInt _ (by unfold beginFlag; omega)]
  show beginFlag ≠ endFlag
  decide

theorem unfinished_flag (t : HashTable T) {n : ℕ} (hn : n < 4) :
    Unfinished ((encodeInt 4 endFlag).take n ++ (stream t).drop n) := by
  obtain ⟨rest, hrest⟩ := stream_eq t
  rw [hrest, drop_append_of_le_length (by rw [length_encodeInt]; omega), ← append_assoc]
  refine Or.inr ?_
  have hfour : ∀ n < 4, ((encodeInt 4 endFlag).take n ++ (encodeInt 4 beginFlag).drop n).length = 4
      ∧ decodeInt ((encodeInt 4 endFlag).take n ++ (encodeInt 4 beginFlag).drop n) ≠ endFlag := by
    decide
  obtain ⟨hlen, hne⟩ := hfour n hn
  generalize (encodeInt 4 endFlag).take n ++ (encodeInt 4 beginFlag).drop n = bs at hlen hne ⊢
  unfold freadInt
  rw [take_append_of_le_length (by omega), take_of_length_le (by omega),
    length_append, Nat.sub_eq_zero_of_le (by omega), replicate_zero, append_nil]
  exact hne

theorem gotThrough_iff (h : t.Valid) : gotThrough t = true ↔ t.NoEmptyValue := by
  unfold gotThrough
  rw [putAll_eq_true_iff, h.fwrites_ne_nil]
  exact and_iff_left (fun _ _ _ => rfl)

theorem writeFile_through (h : t.Valid) (hne : t.NoEmptyValue) :
    t.writeFile (fun _ => none) = t.snapshot := (h.writeFile_iff _).mpr ⟨hne, fun _ _ => rfl⟩

theorem writeFile_stopped (h : t.Valid) (hne : ¬ t.NoEmptyValue) :
    Unfinished (t.writeFile (fun _ => none)) := by
  have hfalse : gotThrough t = false := by
    rw [← Bool.not_eq_true]
    exact fun hbad => hne ((gotThrough_iff h).mp hbad)
  have hunfinished := unfinished_take t (stream t).length
  rw [take_length] at hunfinished
  rw [writeFile_of_stopped hfalse]
  exact hunfinished

/-! ## §5. The round trip. -/

variable {old : HashTable T} {oks : List Bool}

theorem saveRun_closed (hdone : (saveRun t d oks).1 = .closed) :
    (saveRun t d oks).2 diskCache = some (t.writeFile (fun _ => none)) := by
  have hinv := saveRun_inv t d oks
  generalize saveRun t d oks = s at hinv hdone ⊢
  obtain ⟨pc, d'⟩ := s
  have hpc : pc = .closed := hdone
  rw [hpc] at hinv
  exact hinv

/-- An empty value of variable length: the cycle ends without the flag, and the
    cache comes up empty. -/
theorem not_loads_of_emptyValue (h : t.Valid) (hne : ¬ t.NoEmptyValue)
    (hdone : (saveRun t d oks).1 = .closed) (hb : 0 < bucket_size) :
    ¬ Loads T bucket_size t.data_len_ (saveRun t d oks).2 t.entries := by
  rintro ⟨c, hc, hentries⟩
  have hempty : Loads T bucket_size t.data_len_ (saveRun t d oks).2 [] := by
    apply init_unfinished hb
    intro file hf
    rw [saveRun_closed hdone] at hf
    cases hf
    exact writeFile_stopped h hne
  obtain ⟨c', hc', hnil⟩ := hempty
  rw [hc] at hc'
  cases hc'
  unfold HashTable.NoEmptyValue at hne
  push Not at hne
  obtain ⟨_, e, he, _⟩ := hne
  exact absurd ((hnil e).mp ((hentries e).mpr he)) not_mem_nil

/-- **A SAVED TABLE COMES BACK EXACTLY** when no value of variable length is
    empty, no key is stored twice and the records fit the allocator in the order
    of the file: for every table, every complete cycle and every number of
    buckets of the new cache. -/
theorem saved_table_comes_back {t : HashTable T} (h : t.Valid) (h32 : t.Header32)
    (hlen : t.data_len_ ≤ 1048576) {d : Directory String (List UInt8)} {oks : List Bool}
    (hdone : (saveRun t d oks).1 = .closed) {bucket_size : ℤ} (hb : 0 < bucket_size) :
    Loads T bucket_size t.data_len_ (saveRun t d oks).2 t.entries ↔ t.NoEmptyValue ∧ t.Reloadable := by
  by_cases hne : t.NoEmptyValue
  · have hfile := saveRun_closed hdone
    rw [writeFile_through h hne] at hfile
    obtain ⟨honly, hload⟩ := init_snapshot h h32 hne hb hfile
    constructor
    · rintro ⟨c, hc, _⟩
      exact ⟨hne, (honly ⟨c, hc⟩).1⟩
    · exact fun hgood => hload ⟨hgood.2, Or.inr hlen⟩
  · constructor
    · exact fun hloads => absurd hloads (not_loads_of_emptyValue h hne hdone hb)
    · exact fun hgood => absurd hgood.1 hne

theorem valid_oneEntry : HashTable.oneEntry.Valid :=
  (HashTable.valid_init (HashTable.new uint64) (by decide) ⟨rfl, rfl⟩).2.1.run HashTable.oneEntry_run

theorem header_oneEntry : HashTable.oneEntry.Header32 := ⟨by decide, by decide⟩

theorem reloadable_oneEntry : HashTable.oneEntry.Reloadable :=
  ⟨by decide, fun hneg => absurd hneg (by decide)⟩

theorem closed_oneEntry :
    (saveRun HashTable.oneEntry (fun _ => none) (List.replicate 40 true)).1 = .closed := by decide

theorem closed_oneEmptyValue :
    (saveRun HashTable.oneEmptyValue (fun _ => none) (List.replicate 40 true)).1 = .closed := by decide

/-- A table of one entry, saved and loaded into seven buckets. -/
theorem saved_table_comes_back_oneEntry :
    Loads uint64 7 1 (saveRun HashTable.oneEntry (fun _ => none) (List.replicate 40 true)).2
      HashTable.oneEntry.entries :=
  (saved_table_comes_back valid_oneEntry header_oneEntry (by decide) closed_oneEntry (by decide)).mpr
    ⟨fun hneg => absurd hneg (by decide), reloadable_oneEntry⟩

/-- **An empty value does not survive**: the cycle that saves it without any I/O
    error is loaded as an empty cache. -/
theorem emptyValue_lost :
    ¬ Loads uint64 1 (-1) (saveRun HashTable.oneEmptyValue (fun _ => none) (List.replicate 40 true)).2
      HashTable.oneEmptyValue.entries :=
  not_loads_of_emptyValue HashTable.valid_oneEmptyValue
    (fun hne => hne (by decide) ⟨7, encodeInt 4 0⟩ (by decide) (by decide)) closed_oneEmptyValue
    (by decide)

/-! ## §6. Stops inside a cycle. -/

/-- The old file is still in its place. -/
def SaveAt.before : SaveAt → Bool
  | .access => true
  | .swap _ => true
  | _ => false

/-- The new file is complete. -/
def SaveAt.committed (t : HashTable T) : SaveAt → Bool
  | .flag n => 4 ≤ n
  | .closed => gotThrough t
  | _ => false

/-- What is asked of a stop: the next `init` ends with the old snapshot or with
    the table being saved. -/
def CrashSafe (old t : HashTable T) (bucket_size : ℤ) (d : Directory String (List UInt8)) : Prop :=
  Loads T bucket_size t.data_len_ d old.entries ∨ Loads T bucket_size t.data_len_ d t.entries

theorem Loads.unique {es es' : List (HashEntry T)} (h : Loads T bucket_size data_len d es)
    (h' : Loads T bucket_size data_len d es') : ∀ e, e ∈ es ↔ e ∈ es' := by
  obtain ⟨c, hc, hes⟩ := h
  obtain ⟨c', hc', hes'⟩ := h'
  rw [hc] at hc'
  cases hc'
  intro e
  rw [← hes e, hes' e]

/-- An empty cache is what is asked for only if one of the two was empty. -/
theorem crashSafe_of_empty (h : Loads T bucket_size t.data_len_ d []) :
    CrashSafe old t bucket_size d ↔ old.entries = [] ∨ t.entries = [] := by
  constructor
  · rintro (hload | hload)
    · exact Or.inl (eq_nil_iff_forall_not_mem.mpr
        (fun e he => not_mem_nil ((hload.unique h e).mp he)))
    · exact Or.inr (eq_nil_iff_forall_not_mem.mpr
        (fun e he => not_mem_nil ((hload.unique h e).mp he)))
  · rintro (hnil | hnil)
    · refine Or.inl ?_
      rw [hnil]
      exact h
    · refine Or.inr ?_
      rw [hnil]
      exact h

/-- A finished file: the `init` that reads it ends with its table or fails. -/
theorem crashSafe_of_snapshot {x : HashTable T} (hx : x.Valid) (hx32 : x.Header32) (hne : x.NoEmptyValue)
    (hlen : x.data_len_ = t.data_len_) (hwhich : x = old ∨ x = t) (hb : 0 < bucket_size)
    (hd : d diskCache = some x.snapshot) :
    CrashSafe old t bucket_size d ↔ Reloads x := by
  obtain ⟨honly, hload⟩ := init_snapshot hx hx32 hne hb hd
  rw [hlen] at honly hload
  constructor
  · rintro (⟨c, hc, _⟩ | ⟨c, hc, _⟩)
    · exact honly ⟨c, hc⟩
    · exact honly ⟨c, hc⟩
  · intro hgood
    have hx := hload hgood
    obtain rfl | rfl := hwhich
    · exact Or.inl hx
    · exact Or.inr hx

/-- **CRASH SAFETY OF A SAVE CYCLE.**  Let `__disk.cache` hold the complete
    snapshot `old` and stop a cycle that saves `t` anywhere.  The next `init`
    ends with one of the two EXACTLY when the old file was still in its place,
    or the flag of the new one was written, and that file can be read back, or
    else one of the two tables is empty. -/
theorem crash_safety {old t : HashTable T} (hold : old.Valid) (hold32 : old.Header32)
    (holdne : old.NoEmptyValue) (holdlen : old.data_len_ = t.data_len_) (h : t.Valid)
    (h32 : t.Header32) {d : Directory String (List UInt8)} (hd : d diskCache = some old.snapshot)
    (oks : List Bool) {bucket_size : ℤ} (hb : 0 < bucket_size) :
    CrashSafe old t bucket_size (saveRun t d oks).2 ↔
      ((saveRun t d oks).1.before = true ∧ Reloads old) ∨
      ((saveRun t d oks).1.committed t = true ∧ Reloads t) ∨
      ((saveRun t d oks).1.before = false ∧ (saveRun t d oks).1.committed t = false
        ∧ (old.entries = [] ∨ t.entries = [])) := by
  have hinv := saveRun_inv t d oks
  rw [hd] at hinv
  generalize saveRun t d oks = s at hinv ⊢
  obtain ⟨pc, d'⟩ := s
  have hkept : d' diskCache = some old.snapshot → (CrashSafe old t bucket_size d' ↔ Reloads old) :=
    crashSafe_of_snapshot hold hold32 holdne holdlen (Or.inl rfl) hb
  have hdone : t.NoEmptyValue → d' diskCache = some t.snapshot →
      (CrashSafe old t bucket_size d' ↔ Reloads t) :=
    fun hne => crashSafe_of_snapshot h h32 hne rfl (Or.inr rfl) hb
  have hlost : (∀ file, d' diskCache = some file → Unfinished file) →
      (CrashSafe old t bucket_size d' ↔ old.entries = [] ∨ t.entries = []) :=
    fun hf => crashSafe_of_empty (init_unfinished hb _ hf)
  cases pc with
  | access => simpa [SaveAt.before, SaveAt.committed] using hkept hinv
  | swap p => simpa [SaveAt.before, SaveAt.committed] using hkept hinv.1
  | fopen =>
    have hnone : d' diskCache = none := hinv
    have hiff := hlost (fun file hf => by rw [hnone] at hf; contradiction)
    simpa [SaveAt.before, SaveAt.committed] using hiff
  | fwrite n =>
    have hfile := hinv.2
    have hiff := hlost (fun file hf => by
      rw [hfile] at hf
      cases hf
      exact unfinished_take t n)
    simpa [SaveAt.before, SaveAt.committed] using hiff
  | flag n =>
    obtain ⟨hn, hthrough, hfile⟩ := hinv
    by_cases hfour : n = 4
    · have hsnap : d' diskCache = some t.snapshot := by
        rw [hfile, hfour, ← writeFile_through h ((gotThrough_iff h).mp hthrough),
          writeFile_of_through hthrough]
        rfl
      simpa [SaveAt.before, SaveAt.committed, hfour] using hdone ((gotThrough_iff h).mp hthrough) hsnap
    · have hiff := hlost (fun file hf => by
        rw [hfile] at hf
        cases hf
        exact unfinished_flag t (by omega))
      have hlt : ¬ 4 ≤ n := by omega
      simpa [SaveAt.before, SaveAt.committed, hlt] using hiff
  | closed =>
    have hfile : d' diskCache = some (t.writeFile (fun _ => none)) := hinv
    by_cases hne : t.NoEmptyValue
    · rw [writeFile_through h hne] at hfile
      simpa [SaveAt.before, SaveAt.committed, (gotThrough_iff h).mpr hne] using hdone hne hfile
    · have hfalse : gotThrough t = false := by
        rw [← Bool.not_eq_true]
        exact fun hbad => hne ((gotThrough_iff h).mp hbad)
      have hiff := hlost (fun file hf => by
        rw [hfile] at hf
        cases hf
        exact writeFile_stopped h hne)
      simpa [SaveAt.before, SaveAt.committed, hfalse] using hiff

/-- The directory with the snapshot of `oneEntry`. -/
def savedOnce : Directory String (List UInt8) :=
  fun name => if name = diskCache then some HashTable.oneEntry.snapshot else none

/-- Stopped before the swap, the old snapshot is loaded. -/
theorem crash_safety_before :
    CrashSafe HashTable.oneEntry HashTable.oneEntry 1 (saveRun HashTable.oneEntry savedOnce [true, true]).2 :=
  (crash_safety valid_oneEntry header_oneEntry (fun hneg => absurd hneg (by decide)) rfl valid_oneEntry
    header_oneEntry (d := savedOnce) (by decide) [true, true] (by decide)).mpr
    (Or.inl ⟨by decide, reloadable_oneEntry, Or.inr (by decide)⟩)

/-- **Stopped right after the swap**, both snapshot and table are lost: `init`
    returns 0 with an empty cache. -/
theorem crash_after_swap :
    ¬ CrashSafe HashTable.oneEntry HashTable.oneEntry 1
      (saveRun HashTable.oneEntry savedOnce [true, true, true, true]).2 := by
  have hgone : (saveRun HashTable.oneEntry savedOnce [true, true, true, true]).2 diskCache = none := by
    decide
  have hempty : Loads uint64 1 1 (saveRun HashTable.oneEntry savedOnce [true, true, true, true]).2 [] := by
    apply init_unfinished (by decide)
    intro file hf
    rw [hgone] at hf
    contradiction
  intro hsafe
  obtain hnil | hnil := (crashSafe_of_empty hempty).mp hsafe
  · exact absurd hnil (by decide)
  · exact absurd hnil (by decide)

end QDiskCache

end KalavaPir.Common
