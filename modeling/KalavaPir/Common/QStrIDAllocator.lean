/-
  KalavaPir.Common.QStrIDAllocator — numbers for strings
  (`common/qstridallocator.h`).

  A string gets the next number, and a record of it goes into a piece of the
  allocator's memory, into the file, into the hash table (a pointer, under the
  digest) and into the array of pointers.  `init` reads the records of the file
  back.

  A pointer is a block of the allocator and an offset in it; `none` is an access
  outside of a piece or a table, or an `assert` that fails.  There is memory for
  everything, the functions of the file succeed, and the digest `md5` is a
  parameter.
-/
import KalavaPir.Framework.Memory
import KalavaPir.Common.QHashMap

namespace KalavaPir.Common

open KalavaPir.Framework List Function

/-! ## §1. The functions. -/

/-- A pointer, as the 8 bytes that are in the hash table. -/
def pointerBytes (p : ℤ × ℤ) : List UInt8 := encodeInt 4 p.1 ++ encodeInt 4 p.2
def pointerOf (bs : List UInt8) : ℤ × ℤ := (decodeInt (bs.take 4), decodeInt (bs.drop 4))

/-- The members, and the blocks of the allocator. -/
structure QStrIDAllocator where
  m_max_str_num : ℕ
  m_cur_str_num : ℕ
  /-- The bytes of the file. -/
  m_save_fp : List UInt8
  m_file_len : ℤ
  m_i2s_map : ℕ → Option (ℤ × ℤ)
  m_s2i_map : HashTable uint64
  m_alloc : QAllocator
  /-- The bytes of the allocator's blocks. -/
  blocks : ℤ → Memory

namespace QStrIDAllocator

/-- The `n` bytes at distance `k` from a pointer. -/
def bytes (m : QStrIDAllocator) (p : ℤ × ℤ) (k n : ℕ) : List UInt8 := (m.blocks p.1).read (p.2.toNat + k) n

/-- Bytes are stored behind a pointer. -/
def store (m : QStrIDAllocator) (p : ℤ × ℤ) (bs : List UInt8) : QStrIDAllocator :=
  { m with blocks := update m.blocks p.1 ((m.blocks p.1).write p.2.toNat bs) }

/-- "!@#$$#@!" -/
def flg : List UInt8 := [33, 64, 35, 36, 36, 35, 64, 33]

/-- id, md5, len, str, flg. -/
def record (id : ℕ) (md5 : Key uint64) (str : List UInt8) : List UInt8 :=
  encode 4 id ++ encode 8 md5.toNat ++ encode 4 str.length ++ str ++ flg

/-- `m_s2i_map.addKey_FL(md5, &ptr)`. -/
def addPointer (m : QStrIDAllocator) (md5 : Key uint64) (ptr : ℤ × ℤ) :
    Option ((ℤ × Option (List UInt8)) × HashTable uint64) :=
  m.m_s2i_map.addKey_FL .ample md5 (some (fun i => (pointerBytes ptr).getD i 0)) (fun _ => 0) (-1)

/-- The record of a number is known: both tables, and the counts. -/
def enter (m : QStrIDAllocator) (ptr : ℤ × ℤ) (t : HashTable uint64) (size : ℤ) : QStrIDAllocator :=
  { m with
    m_s2i_map := t
    m_i2s_map := update m.m_i2s_map m.m_cur_str_num (some ptr)
    m_cur_str_num := m.m_cur_str_num + 1
    m_file_len := m.m_file_len + size }

/-- The loop of `init`, with what is left of the file. -/
def load : ℕ → List UInt8 → QStrIDAllocator → Option (Except ℤ QStrIDAllocator)
  | 0, _, _ => none
  | fuel + 1, rest, m =>
    if rest.length < 16 then
      -- `assert(m_file_len==ftell(m_save_fp))`
      if m.m_file_len = m.m_save_fp.length then some (.ok m) else none
    else
      let len := decodeInt ((rest.drop 12).take 4)
      let size := Int.bmod (16 + len + 8) (2 ^ 32)
      match m.m_alloc.alloc .ample size with
      | (none, _) => some (.error (-6))
      | (some ptr, a) =>
        -- `fread(ptr+16, len+8, 1, m_save_fp)`
        if len + 8 < 0 then none
        else if len + 8 = 0 ∨ (rest.length : ℤ) < 24 + len then some (.error (-7))
        else
          let m := { m with m_alloc := a }.store ptr (rest.take (24 + len).toNat)
          -- `assert(m_cur_str_num==*(uint32_t*)ptr)`
          if m.m_cur_str_num ≠ decode (m.bytes ptr 0 4) then none
          else
            match m.addPointer (BitVec.ofNat _ (decode (m.bytes ptr 4 8))) ptr with
            | none => none
            | some ((code, _), t) =>
              if code < 0 then some (.error (-8))
              -- `m_i2s_map[m_cur_str_num++]=ptr`
              else if m.m_cur_str_num ≥ m.m_max_str_num then none
              else load fuel (rest.drop (24 + len).toNat) (m.enter ptr t size)

/-- The number of buckets. -/
def hash_size (max_str_num : ℕ) : ℤ := Int.bmod (max_str_num / 2 + 1 : ℕ) (2 ^ 32)

/-- The save file, if there is one, is read. -/
def init (max_str_num : ℕ) (save_file : Option (List UInt8)) : Option (Except ℤ QStrIDAllocator) :=
  if max_str_num = 0 then some (.error (-1))
  -- `memset(hash_table_, 0, bucket_size_*sizeof(void*))` with a negative size
  else if hash_size max_str_num < 0 then none
  else
    let table := (HashTable.new uint64).init (hash_size max_str_num) 8
    if table.1 ≠ 0 then some (.error (-3))
    else
      let m : QStrIDAllocator :=
        { m_max_str_num := max_str_num, m_cur_str_num := 0, m_save_fp := save_file.getD [], m_file_len := 0
          m_i2s_map := fun _ => none, m_s2i_map := table.2, m_alloc := .new, blocks := fun _ _ => 0 }
      match save_file with
      | none => some (.ok m)
      | some file => load (file.length + 1) file m

/-- What `str2id` returns, and the `id` it stores. -/
abbrev Answer : Type := ℤ × Option ℕ

/-- The number of a string, new or old. -/
def str2id (md5 : List UInt8 → Key uint64) (m : QStrIDAllocator) (str : List UInt8) :
    Option (Answer × QStrIDAllocator) :=
  if str.length = 0 then some ((-1, none), m)
  else
    match m.m_s2i_map.searchKey_FL (md5 str) (-1) with
    | none => none
    | some (code, val) =>
      if code = 0 then
        match val with
        | none => none
        | some val => some ((1, some (decode (m.bytes (pointerOf val) 0 4))), m)
      else if m.m_cur_str_num ≥ m.m_max_str_num then some ((-2, none), m)
      else
        let size : ℕ := (24 + str.length) % 2 ^ 32
        match m.m_alloc.alloc .ample size with
        | (none, a) => some ((-3, none), { m with m_alloc := a })
        | (some buf, a) =>
          -- `memcpy(buf+16, str, str_len)` in a piece whose size has wrapped
          if size < 24 + str.length then none
          else
            let m := { m with m_alloc := a }.store buf (record m.m_cur_str_num (md5 str) str)
            let m := { m with m_save_fp := m.m_save_fp ++ m.bytes buf 0 size }
            match m.addPointer (md5 str) buf with
            | none => none
            | some ((code, _), t) =>
              if code ≠ 0 then some ((-6, none), { m with m_s2i_map := t })
              else some ((0, some m.m_cur_str_num), m.enter buf t size)

/-- What `id2str` returns, and the string and the digest. -/
def id2str (m : QStrIDAllocator) (id : ℕ) : Option (ℤ × Option (List UInt8 × Key uint64)) :=
  if id ≥ m.m_cur_str_num then some (-1, none)
  else
    match m.m_i2s_map id with
    | none => some (-2, none)
    | some buf =>
      if id ≠ decode (m.bytes buf 0 4) then none
      else
        some (0, some (m.bytes buf 16 (decode (m.bytes buf 12 4)), BitVec.ofNat _ (decode (m.bytes buf 4 8))))

/-! ## §2. Records and pieces. -/

theorem length_record (id : ℕ) (md5 : Key uint64) (str : List UInt8) :
    (record id md5 str).length = 24 + str.length := by
  have hflg : flg.length = 8 := rfl
  unfold record
  rw [length_append, length_append, length_append, length_append, length_encode,
    length_encode, length_encode, hflg]
  omega

/-- The records of some strings, with numbers from `n` on. -/
def records (md5 : List UInt8 → Key uint64) : ℕ → List (List UInt8) → List UInt8
  | _, [] => []
  | n, s :: ss => record n (md5 s) s ++ records md5 (n + 1) ss

section

variable (md5 : List UInt8 → Key uint64)

theorem records_snoc (s : List UInt8) (ss : List (List UInt8)) :
    ∀ n, records md5 n (ss ++ [s]) = records md5 n ss ++ record (n + ss.length) (md5 s) s := by
  induction ss with
  | nil => exact fun n => append_nil _
  | cons x ss ih =>
    intro n
    show record n (md5 x) x ++ records md5 (n + 1) (ss ++ [s]) = _
    rw [ih (n + 1), ← append_assoc, length_cons, show n + 1 + ss.length = n + (ss.length + 1) by omega]
    rfl

theorem length_records_ge (ss : List (List UInt8)) : ∀ n, 24 * ss.length ≤ (records md5 n ss).length := by
  induction ss with
  | nil => exact fun n => Nat.le_refl 0
  | cons s ss ih =>
    intro n
    have hrest := ih (n + 1)
    show _ ≤ (record n (md5 s) s ++ records md5 (n + 1) ss).length
    rw [length_append, length_record, length_cons]
    omega

theorem length_le_records {s : List UInt8} {ss : List (List UInt8)} (h : s ∈ ss) :
    ∀ n, s.length ≤ (records md5 n ss).length := by
  induction ss with
  | nil => exact absurd h not_mem_nil
  | cons x ss ih =>
    intro n
    show s.length ≤ (record n (md5 x) x ++ records md5 (n + 1) ss).length
    rw [length_append, length_record]
    obtain hx | hx := mem_cons.mp h
    · rw [hx]
      omega
    · have hrest := ih hx (n + 1)
      omega

end

/-- What a piece takes. -/
def pieceSize (str : List UInt8) : ℤ := 24 + str.length

/-- A piece in front of the cursor. -/
structure Before (p : ℤ × ℤ) (n : ℤ) (c : ℤ × ℤ) : Prop where
  block : 0 ≤ p.1 ∧ p.1 < 2000
  offset : 0 ≤ p.2 ∧ p.2 ≤ 1048576
  behind : p.1 < c.1 ∨ p.1 = c.1 ∧ p.2 + n ≤ c.2

variable {p : ℤ × ℤ} {max_str_num : ℕ}

theorem pointerOf_pointerBytes {n : ℤ} {c : ℤ × ℤ} (h : Before p n c) : pointerOf (pointerBytes p) = p := by
  have hblock := h.block
  have hoffset := h.offset
  unfold pointerOf pointerBytes
  rw [take_left' (length_encodeInt 4 _), drop_left' (length_encodeInt 4 _),
    decodeInt_encodeInt_of_lt (by omega) (by omega), decodeInt_encodeInt_of_lt (by omega) (by omega)]

theorem length_pointerBytes (p : ℤ × ℤ) : (pointerBytes p).length = 8 := by
  unfold pointerBytes
  rw [length_append, length_encodeInt, length_encodeInt]

theorem memcpy_pointerBytes (p : ℤ × ℤ) : memcpy (fun i => (pointerBytes p).getD i 0) 8 = pointerBytes p := by
  have hlen := length_pointerBytes p
  unfold memcpy
  apply ext_getElem
  · rw [length_map, length_range, hlen]
    rfl
  · intro i hi hi'
    rw [getElem_map, getElem_range, getD_eq_getElem _ _ hi']

variable {q : ℤ × ℤ} {m : QStrIDAllocator}

/-- Where the next piece can be. -/
theorem before_spot {a : QAllocator} (h : a.Sound) {n : ℤ} (hn : 0 < n)
    (hspot : QAllocator.spot a.cursor n = some q) : Before q n (q.1, q.2 + n) ∧ n ≤ 1048576 ∧
      ∀ p k, Before p k a.cursor → Before p k (q.1, q.2 + n) ∧ (p.1 = q.1 → p.2 + k ≤ q.2) := by
  have hnow := h.now
  have hused := h.used
  have hunopened := h.unopened
  have hcursor : a.cursor = (a.mNowBlockNum, a.mNowBlockLen) := rfl
  unfold QAllocator.spot at hspot
  rw [hcursor] at hspot ⊢
  split_ifs at hspot with hroom hnext
  · injection hspot with hq
    rw [← hq]
    refine ⟨⟨by dsimp only; omega, by dsimp only; omega, Or.inr ⟨rfl, Int.le_refl _⟩⟩, by omega, ?_⟩
    intro p k hp
    have hbehind := hp.behind
    exact ⟨⟨hp.block, hp.offset, by dsimp only; omega⟩, fun heq => by dsimp only at heq ⊢; omega⟩
  injection hspot with hq
  rw [← hq]
  refine ⟨⟨by dsimp only; omega, by dsimp only; omega, Or.inr ⟨rfl, Int.le_refl _⟩⟩, hnext.1, ?_⟩
  intro p k hp
  have hbehind := hp.behind
  exact ⟨⟨hp.block, hp.offset, by dsimp only; omega⟩, fun heq => by dsimp only at heq ⊢; omega⟩

theorem bytes_store_self (m : QStrIDAllocator) (p : ℤ × ℤ) (bs : List UInt8) :
    (m.store p bs).bytes p 0 bs.length = bs := by
  unfold bytes store
  dsimp only
  rw [update_self]
  exact Memory.read_write_self _ _ bs

/-- **A new piece leaves the others alone.** -/
theorem bytes_store_of_before {n : ℕ} {bs : List UInt8} (hp : 0 ≤ p.2) (h : p.1 = q.1 → p.2 + n ≤ q.2) :
    (m.store q bs).bytes p 0 n = m.bytes p 0 n := by
  unfold bytes store
  dsimp only
  by_cases hblock : p.1 = q.1
  · have hle := h hblock
    rw [hblock, update_self]
    exact Memory.read_write_of_disjoint _ (Or.inl (by omega))
  · rw [update_of_ne hblock]

/-- The fields of a record in memory. -/
theorem fields_of {id : ℕ} {key : Key uint64} {str : List UInt8}
    (h : m.bytes p 0 (24 + str.length) = record id key str) (hid : id < 256 ^ 4)
    (hlen : str.length < 256 ^ 4) :
    decode (m.bytes p 0 4) = id ∧ BitVec.ofNat _ (decode (m.bytes p 4 8)) = key ∧
      decode (m.bytes p 12 4) = str.length ∧ m.bytes p 16 str.length = str := by
  unfold bytes at h ⊢
  rw [← length_record id key str] at h
  obtain ⟨h₁, -⟩ := Memory.read_eq_append h
  obtain ⟨h₂, hstr⟩ := Memory.read_eq_append h₁
  obtain ⟨h₃, hlength⟩ := Memory.read_eq_append h₂
  obtain ⟨hnum, hkey⟩ := Memory.read_eq_append h₃
  rw [length_encode] at hnum hkey hlength
  rw [length_append, length_encode, length_encode] at hlength
  refine ⟨?_, ?_, ?_, ?_⟩
  · rw [hnum]
    exact decode_encode_of_lt hid
  · have hkey' : (m.blocks p.1).read (p.2.toNat + 4) 8 = encode 8 key.toNat := by
      exact hkey
    rw [hkey', decode_encode_of_lt key.isLt, BitVec.ofNat_toNat, BitVec.setWidth_eq]
  · rw [hlength]
    exact decode_encode_of_lt hlen
  · exact hstr

/-! ## §3. The invariant. -/

/-- **The invariant**: the strings `ss` have their numbers; `fm` is what the hash
    table stands for. -/
structure Holds (md5 : List UInt8 → Key uint64) (m : QStrIDAllocator) (fm : FixedMap uint64)
    (ss : List (List UInt8)) : Prop where
  cur : m.m_cur_str_num = ss.length
  len : m.m_file_len = (records md5 0 ss).length
  sound : m.m_alloc.Sound
  total : m.m_alloc.mTotalLen = (records md5 0 ss).length
  packed : QAllocator.cursorAfter (-1, 1048576) (ss.map pieceSize) = some m.m_alloc.cursor
  table : m.m_s2i_map.Represents fm
  data_len : m.m_s2i_map.data_len_ = 8
  card : fm.keys.card = ss.length
  known : ∀ key body, fm.lookup key = some body → ∃ s ∈ ss, md5 s = key
  distinct : (ss.map md5).Nodup
  pieces : ∀ i s, ss[i]? = some s → ∃ p, m.m_i2s_map i = some p ∧ fm.lookup (md5 s) = some (pointerBytes p) ∧
    Before p (pieceSize s) m.m_alloc.cursor ∧ m.bytes p 0 (24 + s.length) = record i (md5 s) s

section Holds

variable {md5 : List UInt8 → Key uint64} {m : QStrIDAllocator} {fm : FixedMap uint64} {ss : List (List UInt8)}

theorem Holds.few (h : Holds md5 m fm ss) : ss.length ≤ 100000000 := by
  have hbytes := length_records_ge md5 ss 0
  have htotal := h.sound.total_le
  have hsum := h.total
  omega

variable {s str : List UInt8} {p : ℤ × ℤ}

theorem Holds.short (h : Holds md5 m fm ss) (hs : s ∈ ss) : s.length < 256 ^ 4 := by
  have hbytes := length_le_records md5 hs 0
  have htotal := h.sound.total_le
  have hsum := h.total
  omega

theorem Holds.lookup_none (h : Holds md5 m fm ss) (hnew : md5 s ∉ ss.map md5) : fm.lookup (md5 s) = none := by
  rw [Option.eq_none_iff_forall_ne_some]
  intro body hbody
  obtain ⟨x, hx, heq⟩ := h.known _ body hbody
  rw [← heq] at hnew
  exact hnew (mem_map_of_mem hx)

theorem chunkCapacity_pointers : chunkCapacity (16 + uint64.size + 8) = 1000000000 := by
  exact if_pos (by decide)

/-- The hash table gets the pointer. -/
theorem Holds.addPointer (h : Holds md5 m fm ss) (hnew : md5 s ∉ ss.map md5) (p : ℤ × ℤ) :
    ∃ t, m.addPointer (md5 s) p = some ((0, some (pointerBytes p)), t) ∧
      t.Represents (fm.insert (md5 s) (pointerBytes p)) ∧ t.data_len_ = 8 := by
  have hlook := h.lookup_none hnew
  have hfew := h.few
  have hroom : (fm.keys.card : ℤ) < chunkCapacity (16 + uint64.size + m.m_s2i_map.data_len_) := by
    rw [h.card, h.data_len, chunkCapacity_pointers]
    omega
  obtain ⟨t, hcall, hrep, hlen⟩ := (h.table.add_new (fun i => (pointerBytes p).getD i 0) hlook).1 hroom
  have hanswer : fm.answer m.m_s2i_map.data_len_ (.addKey_FL (md5 s) (fun i => (pointerBytes p).getD i 0)) =
      ((0, some (pointerBytes p)), fm.insert (md5 s) (pointerBytes p)) := by
    unfold FixedMap.answer
    dsimp only
    rw [hlook, h.data_len, memcpy_pointerBytes]
    rfl
  rw [hanswer] at hcall hrep
  exact ⟨t, hcall, hrep, hlen.trans h.data_len⟩

variable {m₁ : QStrIDAllocator}

/-- A record that is there stays when another one comes behind it. -/
theorem Holds.piece_kept (h : Holds md5 m fm ss) (hnew : md5 s ∉ ss.map md5)
    (hspot : QAllocator.spot m.m_alloc.cursor (pieceSize s) = some p)
    (hm₁ : m₁ = { m with m_alloc := (m.m_alloc.alloc .ample (pieceSize s)).2 }.store p (record ss.length (md5 s) s))
    {i : ℕ} {x : List UInt8} (hx : ss[i]? = some x) :
    ∃ q, m.m_i2s_map i = some q ∧ (fm.insert (md5 s) (pointerBytes p)).lookup (md5 x) = some (pointerBytes q) ∧
      Before q (pieceSize x) (p.1, p.2 + pieceSize s) ∧ m₁.bytes q 0 (24 + x.length) = record i (md5 x) x := by
  have hpos : 0 < pieceSize s := by
    unfold pieceSize
    omega
  obtain ⟨-, -, hothers⟩ := before_spot h.sound hpos hspot
  obtain ⟨q, hmap, hlook, hq, hbytes⟩ := h.pieces i x hx
  obtain ⟨hq', hbehind⟩ := hothers q (pieceSize x) hq
  have hne : md5 x ≠ md5 s := fun heq => hnew (heq ▸ mem_map_of_mem (mem_of_getElem? hx))
  rw [Finmap.lookup_insert_of_ne _ hne]
  refine ⟨q, hmap, hlook, hq', ?_⟩
  rw [← hbytes, hm₁]
  refine bytes_store_of_before hq.offset.1 ?_
  intro hblock
  have hle := hbehind hblock
  unfold pieceSize at hle
  omega

/-- **A record is added**: the tables, the memory and the allocator stay in step. -/
theorem Holds.insert (h : Holds md5 m fm ss) (hnew : md5 s ∉ ss.map md5)
    (hspot : QAllocator.spot m.m_alloc.cursor (pieceSize s) = some p)
    (hm₁ : m₁ = { m with m_alloc := (m.m_alloc.alloc .ample (pieceSize s)).2 }.store p (record ss.length (md5 s) s)) :
    ∃ t, m₁.addPointer (md5 s) p = some ((0, some (pointerBytes p)), t) ∧ ∀ file,
      Holds md5 ({ m₁ with m_save_fp := file }.enter p t (pieceSize s))
        (fm.insert (md5 s) (pointerBytes p)) (ss ++ [s]) := by
  obtain ⟨t, hadd, hrep, hdata⟩ := h.addPointer hnew p
  have hpos : 0 < pieceSize s := by
    unfold pieceSize
    omega
  obtain ⟨hbefore, -, -⟩ := before_spot h.sound hpos hspot
  obtain ⟨halloc, hcursor⟩ := h.sound.alloc_spot (pieceSize s)
  rw [hspot] at halloc hcursor
  obtain ⟨hsound, ⟨-, -, htotal⟩ | ⟨hnone, -⟩⟩ := h.sound.alloc .ample hpos
  · have hcursor' : (m.m_alloc.alloc .ample (pieceSize s)).2.cursor = (p.1, p.2 + pieceSize s) := hcursor
    have hrecords : ((records md5 0 (ss ++ [s])).length : ℤ) = (records md5 0 ss).length + pieceSize s := by
      rw [records_snoc, length_append, length_record]
      unfold pieceSize
      omega
    rw [hm₁]
    refine ⟨t, hadd, fun file => ?_⟩
    constructor
    · show m.m_cur_str_num + 1 = _
      rw [h.cur, length_append, length_singleton]
    · show m.m_file_len + pieceSize s = _
      rw [h.len, hrecords]
    · exact hsound
    · show (m.m_alloc.alloc .ample (pieceSize s)).2.mTotalLen = _
      rw [htotal, h.total, hrecords]
    · show _ = some (m.m_alloc.alloc .ample (pieceSize s)).2.cursor
      rw [map_append, QAllocator.cursorAfter_append, h.packed, hcursor', Option.bind_some]
      show QAllocator.cursorAfter m.m_alloc.cursor [pieceSize s] = _
      unfold QAllocator.cursorAfter
      rw [hspot]
      rfl
    · exact hrep
    · exact hdata
    · rw [HashTable.card_insert _ (h.lookup_none hnew), h.card, length_append, length_singleton]
    · intro key body hbody
      by_cases hkey : key = md5 s
      · exact ⟨s, mem_append_right ss (mem_singleton.mpr rfl), hkey.symm⟩
      · rw [Finmap.lookup_insert_of_ne _ hkey] at hbody
        obtain ⟨x, hx, heq⟩ := h.known key body hbody
        exact ⟨x, mem_append_left [s] hx, heq⟩
    · rw [map_append]
      exact nodup_append.mpr ⟨h.distinct, nodup_singleton _, fun a ha b hb hab =>
        hnew (by rw [← mem_singleton.mp hb, ← hab]; exact ha)⟩
    · intro i x hx
      show ∃ q, update m.m_i2s_map m.m_cur_str_num (some p) i = some q ∧ _ ∧
        Before q (pieceSize x) (m.m_alloc.alloc .ample (pieceSize s)).2.cursor ∧ _
      rw [hcursor', h.cur]
      by_cases hi : i = ss.length
      · -- the new record
        rw [hi, getElem?_concat_length] at hx
        injection hx with hx
        rw [← hx, hi, update_self, Finmap.lookup_insert]
        refine ⟨p, rfl, rfl, hbefore, ?_⟩
        rw [← length_record ss.length (md5 s) s]
        exact bytes_store_self _ p _
      have hlt : i < ss.length := by
        have := (List.getElem?_eq_some_iff.mp hx).1
        rw [length_append, length_singleton] at this
        omega
      rw [getElem?_append_left hlt] at hx
      rw [update_of_ne hi]
      exact h.piece_kept hnew hspot rfl hx
  · rw [halloc] at hnone
    exact absurd hnone (by simp)

/-! ## §4. One call. -/

section

variable (h : Holds md5 m fm ss)
include h

theorem Holds.search (key : Key uint64) : m.m_s2i_map.searchKey_FL key (-1) = some (match fm.lookup key with
      | some body => (0, some body)
      | none => (-1, none)) := by
  obtain ⟨t, hcall, -⟩ := h.table.follows_search key
  obtain ⟨r, hr, heq⟩ := Option.map_eq_some_iff.mp hcall
  have hanswer : r = (fm.answer m.m_s2i_map.data_len_ (.searchKey_FL key)).1 := congrArg Prod.fst heq
  rw [hr, hanswer]
  unfold FixedMap.answer
  dsimp only
  rw [h.data_len]
  cases fm.lookup key with
  | none => rfl
  | some body => rfl

/-- **`id2str`** gives the string of a number that was handed out. -/
theorem Holds.id2str (id : ℕ) : m.id2str id = match ss[id]? with
      | some s => some (0, some (s, md5 s))
      | none => some (-1, none) := by
  unfold QStrIDAllocator.id2str
  rw [h.cur]
  by_cases hid : id < ss.length
  · rw [if_neg (by omega), getElem?_eq_getElem hid]
    have hs : ss[id]? = some ss[id] := getElem?_eq_getElem hid
    have hfew := h.few
    obtain ⟨p, hmap, -, -, hbytes⟩ := h.pieces id ss[id] hs
    obtain ⟨hnum, hkey, hlen, hstr⟩ := fields_of hbytes (by omega) (h.short (getElem_mem hid))
    rw [hmap]
    dsimp only
    rw [hnum, if_neg (not_not.mpr rfl), hlen, hstr, hkey]
  · rw [if_pos (by omega), getElem?_eq_none (by omega)]

/-- **A string that has a number** gets it again. -/
theorem Holds.str2id_old {i : ℕ} (hs : ss[i]? = some str) (hne : str.length ≠ 0) :
    m.str2id md5 str = some ((1, some i), m) := by
  have hfew := h.few
  have hlt := (List.getElem?_eq_some_iff.mp hs).1
  obtain ⟨p, -, hlook, hbefore, hbytes⟩ := h.pieces i str hs
  obtain ⟨hnum, -⟩ := fields_of hbytes (by omega) (h.short (List.mem_of_getElem? hs))
  unfold QStrIDAllocator.str2id
  rw [if_neg hne, h.search, hlook]
  dsimp only
  rw [if_pos rfl, pointerOf_pointerBytes hbefore, hnum]

/-- An `alloc` that fails changes nothing that counts. -/
theorem Holds.alloc_none {n : ℤ} (hspot : QAllocator.spot m.m_alloc.cursor n = none) (hn : 0 < n) :
    Holds md5 { m with m_alloc := (m.m_alloc.alloc .ample n).2 } fm ss := by
  obtain ⟨halloc, hcursor⟩ := h.sound.alloc_spot n
  rw [hspot] at halloc hcursor
  obtain ⟨hsound, ⟨hsome, -⟩ | ⟨-, htotal⟩⟩ := h.sound.alloc .ample hn
  · rw [halloc] at hsome
    exact absurd hsome (by decide)
  refine ⟨h.cur, h.len, hsound, htotal.trans h.total, ?_, h.table, h.data_len, h.card, h.known, h.distinct, ?_⟩
  · show _ = some (m.m_alloc.alloc .ample n).2.cursor
    rw [hcursor]
    exact h.packed
  · intro i s hs
    show ∃ p, _ ∧ _ ∧ Before p (pieceSize s) (m.m_alloc.alloc .ample n).2.cursor ∧ _
    rw [hcursor]
    exact h.pieces i s hs

section

variable (hnew : md5 str ∉ ss.map md5)
include hnew

theorem Holds.str2id_search : m.m_s2i_map.searchKey_FL (md5 str) (-1) = some (-1, none) := by
  rw [h.search, h.lookup_none hnew]

/-- **A new string** when all numbers are handed out … -/
theorem Holds.str2id_full (hne : str.length ≠ 0) (hfull : m.m_max_str_num ≤ ss.length) :
    m.str2id md5 str = some ((-2, none), m) := by
  unfold QStrIDAllocator.str2id
  rw [if_neg hne, h.str2id_search hnew]
  dsimp only
  rw [if_neg (by decide), if_pos (by rw [h.cur]; exact hfull)]

/-- … when there is no piece for its record … -/
theorem Holds.str2id_noPiece (hne : str.length ≠ 0) (hroom : ss.length < m.m_max_str_num)
    (hspot : QAllocator.spot m.m_alloc.cursor ((24 + str.length) % 2 ^ 32 : ℕ) = none) :
    m.str2id md5 str = some ((-3, none),
      { m with m_alloc := (m.m_alloc.alloc .ample ((24 + str.length) % 2 ^ 32 : ℕ)).2 }) := by
  have halloc := (h.sound.alloc_spot ((24 + str.length) % 2 ^ 32 : ℕ)).1
  rw [hspot] at halloc
  unfold QStrIDAllocator.str2id
  rw [if_neg hne, h.str2id_search hnew]
  dsimp only
  rw [if_neg (by decide), if_neg (by rw [h.cur]; omega)]
  generalize m.m_alloc.alloc .ample ((24 + str.length) % 2 ^ 32 : ℕ) = result at halloc ⊢
  obtain ⟨found, a⟩ := result
  have hfound : found = none := halloc
  rw [hfound]

/-- … and when there is one: it gets the next number. -/
theorem Holds.str2id_new (hne : str.length ≠ 0) (hroom : ss.length < m.m_max_str_num)
    (hlen : 24 + str.length < 2 ^ 32) (hspot : QAllocator.spot m.m_alloc.cursor (pieceSize str) = some p) :
    ∃ m' fm', m.str2id md5 str = some ((0, some ss.length), m') ∧ Holds md5 m' fm' (ss ++ [str]) ∧
      m'.m_max_str_num = m.m_max_str_num ∧
      m'.m_save_fp = m.m_save_fp ++ record ss.length (md5 str) str := by
  obtain ⟨t, hadd, hholds⟩ := h.insert hnew hspot rfl
  have hsize : (24 + str.length) % 2 ^ 32 = 24 + str.length := Nat.mod_eq_of_lt hlen
  have hpiece : ((24 + str.length : ℕ) : ℤ) = pieceSize str := by
    unfold pieceSize
    omega
  have halloc := (h.sound.alloc_spot (pieceSize str)).1
  rw [hspot] at halloc
  have hwritten := bytes_store_self { m with m_alloc := (m.m_alloc.alloc .ample (pieceSize str)).2 } p
    (record ss.length (md5 str) str)
  rw [length_record] at hwritten
  rw [← h.cur] at hadd hholds hwritten hroom ⊢
  unfold QStrIDAllocator.str2id
  rw [if_neg hne, h.str2id_search hnew]
  dsimp only
  rw [if_neg (by decide), if_neg (by omega), hsize, hpiece]
  generalize m.m_alloc.alloc .ample (pieceSize str) = result at halloc hadd hholds hwritten ⊢
  obtain ⟨found, a⟩ := result
  have hfound : found = some p := halloc
  rw [hfound]
  dsimp only at hadd hwritten ⊢
  rw [if_neg (Nat.lt_irrefl _), hwritten]
  have hadd' : ∀ file, QStrIDAllocator.addPointer { ({ m with m_alloc := a }.store p
      (record m.m_cur_str_num (md5 str) str)) with m_save_fp := file } (md5 str) p =
        some ((0, some (pointerBytes p)), t) := fun _ => hadd
  rw [hadd']
  exact ⟨_, _, rfl, hholds _, rfl, rfl⟩

end

end

/-! ## §5. Reading the file. -/

theorem len_of_record (id : ℕ) (key : Key uint64) (hlen : 2 * s.length < 256 ^ 4) (rest : List UInt8) :
    decodeInt (((record id key s ++ rest).drop 12).take 4) = s.length := by
  have hsplit : record id key s ++ rest =
      (encode 4 id ++ encode 8 key.toNat) ++ (encode 4 s.length ++ (s ++ flg ++ rest)) := by
    unfold record
    simp only [append_assoc]
  have hhead : (encode 4 id ++ encode 8 key.toNat).length = 12 := by
    rw [length_append, length_encode, length_encode]
  rw [hsplit, drop_left' hhead, take_left' (length_encode 4 _)]
  exact decodeInt_encode_of_lt hlen

/-- **One turn of the loop**: the record is entered, unless its number is too
    large for the array. -/
theorem Holds.load_cons (h : Holds md5 m fm ss) (hnew : md5 s ∉ ss.map md5)
    (hspot : QAllocator.spot m.m_alloc.cursor (pieceSize s) = some p) (fuel : ℕ) (rest : List UInt8) :
    ∃ m' fm', load (fuel + 1) (record ss.length (md5 s) s ++ rest) m =
        (if m.m_cur_str_num ≥ m.m_max_str_num then none else load fuel rest m') ∧
      Holds md5 m' fm' (ss ++ [s]) ∧ m'.m_save_fp = m.m_save_fp ∧ m'.m_max_str_num = m.m_max_str_num := by
  have hpiece : pieceSize s = 24 + s.length := rfl
  obtain ⟨-, hshort, -⟩ := before_spot h.sound (by omega) hspot
  have hfew := h.few
  have hlen := len_of_record ss.length (md5 s) (by omega : 2 * s.length < 256 ^ 4) rest
  have hsize : Int.bmod (16 + (s.length : ℤ) + 8) (2 ^ 32) = pieceSize s := by
    rw [Int.bmod_eq_of_le_mul_two (by omega) (by omega)]
    omega
  have hlength := length_record ss.length (md5 s) s
  have htake : (24 + (s.length : ℤ)).toNat = (record ss.length (md5 s) s).length := by omega
  obtain ⟨t, hadd, hholds⟩ := h.insert hnew hspot rfl
  have hstored := bytes_store_self { m with m_alloc := (m.m_alloc.alloc .ample (pieceSize s)).2 } p
    (record ss.length (md5 s) s)
  rw [hlength] at hstored
  obtain ⟨hnum, hkey, -, -⟩ := fields_of hstored (by omega) (by omega)
  have halloc := (h.sound.alloc_spot (pieceSize s)).1
  rw [hspot] at halloc
  refine ⟨_, _, ?_, hholds m.m_save_fp, rfl, rfl⟩
  rw [load]
  dsimp only
  rw [if_neg (by rw [length_append, hlength]; omega), hlen, hsize]
  generalize m.m_alloc.alloc .ample (pieceSize s) = result at halloc hadd hholds hnum hkey ⊢
  obtain ⟨found, a⟩ := result
  have hfound : found = some p := halloc
  rw [hfound]
  dsimp only at hadd hnum hkey ⊢
  rw [if_neg (by omega), if_neg (by rw [length_append, hlength]; omega), htake, take_left, drop_left,
    hnum, hkey, hadd]
  dsimp only
  have hcur : ¬({ m with m_alloc := a }.store p (record ss.length (md5 s) s)).m_cur_str_num ≠ ss.length :=
    not_not.mpr h.cur
  rw [if_neg hcur, if_neg (by decide)]
  rfl

theorem Holds.load_nil (h : Holds md5 m fm ss) (hfile : m.m_save_fp = records md5 0 ss) (fuel : ℕ) :
    load (fuel + 1) [] m = some (.ok m) := by
  rw [load, if_pos (by decide : ([] : List UInt8).length < 16), if_pos (by rw [h.len, hfile])]

/-- **The file is read back**; and a number too large for the array is written
    outside of it. -/
theorem Holds.load (suffix : List (List UInt8)) : ∀ {m : QStrIDAllocator} {fm : FixedMap uint64}
    {ss : List (List UInt8)} {fuel : ℕ}, Holds md5 m fm ss → ss.length ≤ m.m_max_str_num →
    m.m_save_fp = records md5 0 (ss ++ suffix) → ((ss ++ suffix).map md5).Nodup →
    (QAllocator.cursorAfter m.m_alloc.cursor (suffix.map pieceSize)).isSome → suffix.length < fuel →
    ((ss ++ suffix).length ≤ m.m_max_str_num →
      ∃ m' fm', QStrIDAllocator.load fuel (records md5 ss.length suffix) m = some (.ok m') ∧
        Holds md5 m' fm' (ss ++ suffix) ∧ m'.m_save_fp = m.m_save_fp ∧ m'.m_max_str_num = m.m_max_str_num) ∧
      (m.m_max_str_num < (ss ++ suffix).length →
        QStrIDAllocator.load fuel (records md5 ss.length suffix) m = none) := by
  induction suffix with
  | nil =>
    intro m fm ss fuel h hle hfile _ _ hfuel
    rw [append_nil] at hfile ⊢
    obtain ⟨k, hk⟩ : ∃ k, fuel = k + 1 := ⟨fuel - 1, by omega⟩
    rw [hk]
    exact ⟨fun _ => ⟨m, fm, h.load_nil hfile k, h, rfl, rfl⟩, fun hlt => absurd hlt (by omega)⟩
  | cons s suffix ih =>
    intro m fm ss fuel h hle hfile hdistinct hpacked hfuel
    have hsplit : ss ++ s :: suffix = (ss ++ [s]) ++ suffix := by
      rw [append_assoc, singleton_append]
    rw [hsplit] at hfile hdistinct ⊢
    rw [length_cons] at hfuel
    obtain ⟨k, hk⟩ : ∃ k, fuel = k + 1 := ⟨fuel - 1, by omega⟩
    have hnew : md5 s ∉ ss.map md5 := by
      intro hmem
      rw [map_append, map_append] at hdistinct
      exact (nodup_append.mp (nodup_append.mp hdistinct).1).2.2 _ hmem _
        (mem_singleton.mpr rfl) rfl
    obtain ⟨p, hspot⟩ : ∃ p, QAllocator.spot m.m_alloc.cursor (pieceSize s) = some p := by
      rw [map_cons] at hpacked
      unfold QAllocator.cursorAfter at hpacked
      cases hspot : QAllocator.spot m.m_alloc.cursor (pieceSize s) with
      | none =>
        rw [hspot] at hpacked
        exact absurd hpacked Bool.false_ne_true
      | some p => exact ⟨p, rfl⟩
    obtain ⟨m₁, fm₁, hload, hholds, hfile₁, hmax₁⟩ :=
      h.load_cons hnew hspot k (records md5 (ss.length + 1) suffix)
    have hlen : (ss ++ [s]).length = ss.length + 1 := by
      rw [length_append, length_singleton]
    have hpacked₁ : (QAllocator.cursorAfter m₁.m_alloc.cursor (suffix.map pieceSize)).isSome := by
      have hsnoc := hholds.packed
      rw [map_append, QAllocator.cursorAfter_append, h.packed, Option.bind_some] at hsnoc
      have hone : [s].map pieceSize = [pieceSize s] := rfl
      have hmany : (s :: suffix).map pieceSize = [pieceSize s] ++ suffix.map pieceSize := rfl
      rw [hone] at hsnoc
      rw [hmany, QAllocator.cursorAfter_append, hsnoc, Option.bind_some] at hpacked
      exact hpacked
    have hall : records md5 ss.length (s :: suffix) =
        record ss.length (md5 s) s ++ records md5 (ss.length + 1) suffix := rfl
    rw [hk, hall, hload, h.cur]
    by_cases hfull : ss.length ≥ m.m_max_str_num
    · rw [if_pos hfull]
      refine ⟨?_, fun _ => rfl⟩
      intro hbad
      rw [length_append, hlen] at hbad
      omega
    · rw [if_neg hfull]
      rw [← hmax₁, ← hfile₁, ← hlen]
      exact ih hholds (by omega) (hfile₁.trans hfile) hdistinct hpacked₁ (by omega)

end Holds

/-! ## §6. `init`. -/

theorem hash_size_pos_iff (hlt : max_str_num < 2 ^ 32) :
    0 < hash_size max_str_num ↔ max_str_num < 2 ^ 32 - 2 := by
  unfold hash_size Int.bmod
  dsimp only
  split_ifs <;> omega

/-- What `init` sets up before it reads the file. -/
def fresh (max_str_num : ℕ) (file : List UInt8) : QStrIDAllocator :=
  { m_max_str_num := max_str_num, m_cur_str_num := 0, m_save_fp := file, m_file_len := 0
    m_i2s_map := fun _ => none, m_s2i_map := ((HashTable.new uint64).init (hash_size max_str_num) 8).2
    m_alloc := .new, blocks := fun _ _ => 0 }

theorem holds_fresh (md5 : List UInt8 → Key uint64) (hpos : 0 < hash_size max_str_num) (file : List UInt8) :
    Holds md5 (fresh max_str_num file) ∅ [] := by
  obtain ⟨hrep, hlen⟩ := ChunkTable.represents_init (T := uint64) hpos (by decide : (0 : ℤ) ≤ 8)
  refine ⟨rfl, rfl, QAllocator.sound_new, rfl, rfl, hrep, hlen, rfl, ?_, nodup_nil, ?_⟩
  · intro key body hbad
    exact absurd hbad (by simp)
  · intro i s hbad
    exact absurd hbad (by simp)

theorem init_of_pos (hne : max_str_num ≠ 0) (hpos : 0 < hash_size max_str_num) :
    init max_str_num none = some (.ok (fresh max_str_num [])) ∧
      ∀ file, init max_str_num (some file) = load (file.length + 1) file (fresh max_str_num file) := by
  have hcode : ((HashTable.new uint64).init (hash_size max_str_num) 8).1 = 0 :=
    (HashTable.valid_init (HashTable.new uint64) hpos ⟨rfl, rfl⟩).1
  unfold init
  rw [if_neg hne, if_neg (by omega), if_neg (not_not.mpr hcode)]
  refine ⟨rfl, fun file => ?_⟩
  rw [if_neg hne, if_neg (by omega), if_neg (not_not.mpr hcode)]
  rfl

theorem init_of_neg (hne : max_str_num ≠ 0) (hneg : hash_size max_str_num < 0) (file : Option (List UInt8)) :
    init max_str_num file = none := by
  unfold init
  rw [if_neg hne, if_pos hneg]

end QStrIDAllocator

end KalavaPir.Common
