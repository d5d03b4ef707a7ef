/-
  KalavaPir.Common.QDenseIndexManager — the dense index of
  `common/qdenseindexmanager.h`.

  Three parallel arrays hold the key, the position of the value in the data
  file and the delete flag of each entry.  `addKey` appends to them,
  `rearrangeIndex` sorts them and writes them to the index file, and the other
  functions search the sorted arrays.  `init` reads the index file back.

  `none` is a read outside of an array (or a sort that has not ended); the
  contents of a new array are arbitrary (`memory`).  Left out: the file names,
  `m_isInitSystem` (the functions are called after `init`), and failures to
  open a file for writing or to get memory.
-/
import KalavaPir.Common.QAlgorithm
import KalavaPir.Common.QStoreSearch

namespace KalavaPir.Common

open KalavaPir.Framework

/-- "@QDIM1.0" -/
def I_STORE_INDEX_MARK : ℕ := 0x302e314d49445140

/-- `class QDenseIndexManager`, after `init`. -/
structure QDenseIndexManager where
  m_pszKey : ℤ → ℕ
  m_pszOffset : ℤ → ℤ
  m_pszFlag : ℤ → UInt8
  m_iMaxIndexSize : ℤ
  m_iNowIndexNum : ℤ
  m_fpIndex : ByteFile
  m_fpData : ByteFile

namespace QDenseIndexManager

/-- The three arrays, for the sort. -/
def items (m : QDenseIndexManager) : Parallel ℕ ℤ UInt8 := ⟨m.m_pszKey, m.m_pszOffset, m.m_pszFlag⟩

/-! ## §1. `init` (qdenseindexmanager.h:62). -/

/-- `fread(ptr, len, 1, fp)==1`: nothing is read if `len` is 0. -/
def canRead (f : ByteFile) (p len : ℕ) : Bool := decide (0 < len ∧ p + len ≤ f.size)

/-- The `n` elements of an array, `size` bytes each, from position `p` on. -/
def readArray {α : Type} (f : ByteFile) (value : List UInt8 → α) (p size : ℕ) (n : ℤ) (memory : ℤ → α) :
    ℤ → α :=
  fun i => if 0 ≤ i ∧ i < n then value (f.bytes (p + size * i.toNat) size) else memory i

/-- The `if` branch: the files exist. -/
def reopen (index : ByteFile) (data : Option ByteFile) (memory : Parallel ℕ ℤ UInt8) :
    Except ℤ QDenseIndexManager :=
  match data with
  | none => .error (-5)
  | some data =>
    if !QStoreManager.readMark index 0 I_STORE_INDEX_MARK then .error (-6)
    else
      match index.fread 8 4, index.fread 12 4 with
      | none, _ => .error (-7)
      | _, none => .error (-8)
      | some max, some num =>
        let n := (decodeInt num).toNat
        if !canRead index 16 (8 * n) then .error (-12)
        else if !canRead index (16 + 8 * n) (8 * n) then .error (-13)
        else if !canRead index (16 + 16 * n) n then .error (-14)
        else if !QStoreManager.readMark index (16 + 17 * n) I_STORE_INDEX_MARK then .error (-15)
        else
          .ok
            { m_pszKey := readArray index decode 16 8 (decodeInt num) memory.tKey_1
              m_pszOffset := readArray index decodeInt (16 + 8 * n) 8 (decodeInt num) memory.tKey_2
              m_pszFlag :=
                readArray index (fun bs => bs.headD 0) (16 + 16 * n) 1 (decodeInt num) memory.tKey_3
              m_iMaxIndexSize := decodeInt max
              m_iNowIndexNum := decodeInt num
              m_fpIndex := index
              m_fpData := data }

/-- `init`.  The data file is emptied if there is no index file. -/
def init (index data : Option ByteFile) (maxIndexSize : ℤ) (memory : Parallel ℕ ℤ UInt8) :
    Except ℤ QDenseIndexManager :=
  match index with
  | some index => reopen index data memory
  | none =>
    .ok
      { m_pszKey := memory.tKey_1, m_pszOffset := memory.tKey_2, m_pszFlag := memory.tKey_3
        m_iMaxIndexSize := maxIndexSize, m_iNowIndexNum := 0, m_fpIndex := .empty, m_fpData := .empty }

/-! ## §2. Adding (qdenseindexmanager.h:158, 192). -/

/-- What `addKey` appends to the data file. -/
def record (vpData : List UInt8) : List UInt8 :=
  encode 8 I_STORE_BEGIN_MARK ++ encodeInt 4 vpData.length ++ vpData ++ encode 8 I_STORE_END_MARK

/-- A key at the end of the arrays, its value at the end of the data file. -/
def addKey (m : QDenseIndexManager) (key : ℕ) (vpData : List UInt8) : ℤ × QDenseIndexManager :=
  if vpData.length = 0 then (-1, m)
  else if m.m_iNowIndexNum + 1 ≥ m.m_iMaxIndexSize then (-2, m)
  else
    let offset := m.m_fpData.size
    (0, { m with
      m_fpData := m.m_fpData.fwrite offset (record vpData)
      m_pszKey := Function.update m.m_pszKey m.m_iNowIndexNum key
      m_pszOffset := Function.update m.m_pszOffset m.m_iNowIndexNum offset
      m_pszFlag := Function.update m.m_pszFlag m.m_iNowIndexNum 0
      m_iNowIndexNum := m.m_iNowIndexNum + 1 })

/-- A flag is one byte. -/
def flagBytes (flag : UInt8) : List UInt8 := [flag]

/-- The bytes of the first `n` elements of an array. -/
def arrayBytes {α : Type} (bytes : α → List UInt8) (a : ℤ → α) (n : ℕ) : List UInt8 :=
  (List.range n).flatMap (fun i : ℕ => bytes (a i))

/-- The index file, rewritten from the beginning. -/
def writeIndex (m : QDenseIndexManager) : ℤ × ByteFile :=
  let n := m.m_iNowIndexNum.toNat
  let f := m.m_fpIndex.fwrite 0 (encode 8 I_STORE_INDEX_MARK)
  let f := f.fwrite 8 (encodeInt 4 m.m_iMaxIndexSize)
  let f := f.fwrite 12 (encodeInt 4 m.m_iNowIndexNum)
  -- `fwrite` of 0 bytes returns 0
  if n = 0 then (-6, f)
  else
    let f := f.fwrite 16 (arrayBytes (encode 8) m.m_pszKey n)
    let f := f.fwrite (16 + 8 * n) (arrayBytes (encodeInt 8) m.m_pszOffset n)
    let f := f.fwrite (16 + 16 * n) (arrayBytes flagBytes m.m_pszFlag n)
    let f := f.fwrite (16 + 17 * n) (encode 8 I_STORE_INDEX_MARK)
    (0, f)

/-- The keys are sorted and written to the index file. -/
def rearrangeIndex (fuel : ℕ) (m : QDenseIndexManager) : Option (ℤ × QDenseIndexManager) :=
  match Q_Recursion_1K_2P fuel 0 (m.m_iNowIndexNum - 1) m.items with
  | none => none
  | some s =>
    let m := { m with m_pszKey := s.tKey_1, m_pszOffset := s.tKey_2, m_pszFlag := s.tKey_3 }
    some (m.writeIndex.1, { m with m_fpIndex := m.writeIndex.2 })

/-! ## §3. Searching and deleting (qdenseindexmanager.h:233, 273). -/

/-- The value at a position of the data file. -/
def readRecord (m : QDenseIndexManager) (maxDataSize offset : ℤ) : QStoreManager.Found :=
  if offset < 0 then (-4, none)
  else
    let q := offset.toNat
    match m.m_fpData.fread q 12 with
    | none => (-5, none)
    | some head =>
      if decode (head.take 8) ≠ I_STORE_BEGIN_MARK then (-6, none)
      else
        let dataLen := decodeInt (head.drop 8)
        if dataLen > maxDataSize ∨ dataLen ≤ 0 then (-7, none)
        else
          match m.m_fpData.fread (q + 12) dataLen.toNat with
          | none => (-8, none)
          | some vpData =>
            if !QStoreManager.readMark m.m_fpData (q + 12 + dataLen.toNat) I_STORE_END_MARK then
              (-9, some vpData)
            else (dataLen, some vpData)

/-- What the search returns, and what it stored through `vpData`. -/
def searchKey (m : QDenseIndexManager) (key : ℕ) (maxDataSize : ℤ) : Option QStoreManager.Found :=
  if maxDataSize ≤ 0 then some (-1, none)
  else
    match Q_Binary_Search_Default 0 (m.m_iNowIndexNum - 1) m.m_pszKey key with
    | none => none
    | some index =>
      if index < 0 then some (-2, none)
      else if m.m_pszFlag index = 1 then some (-3, none)
      else some (m.readRecord maxDataSize (m.m_pszOffset index))

/-- The flag of a key is set. -/
def deleteKey (m : QDenseIndexManager) (key : ℕ) : Option (ℤ × QDenseIndexManager) :=
  match Q_Binary_Search_Default 0 (m.m_iNowIndexNum - 1) m.m_pszKey key with
  | none => none
  | some index =>
    if index < 0 then some (-2, m)
    else some (0, { m with m_pszFlag := Function.update m.m_pszFlag index 1 })

/-! ## §4. Values. -/

/-- The value `v` is in the data file, at position `offset`. -/
def RecordAt (f : ByteFile) (offset : ℤ) (v : List UInt8) : Prop :=
  ∃ q : ℕ, offset = q ∧ q + (record v).length ≤ f.size ∧ f.bytes q (record v).length = record v

theorem length_record (v : List UInt8) : (record v).length = v.length + 20 := by
  unfold record
  rw [List.length_append, List.length_append, List.length_append, length_encode, length_encodeInt,
    length_encode]
  omega

theorem recordAt_append (f : ByteFile) (v : List UInt8) : RecordAt (f.fwrite f.size (record v)) f.size v := by
  refine ⟨f.size, rfl, ?_, ByteFile.bytes_fwrite_self f f.size (record v)⟩
  rw [ByteFile.size_fwrite]
  omega

variable {f : ByteFile}

variable {v : List UInt8}

theorem RecordAt.append {offset : ℤ} (h : RecordAt f offset v) (bs : List UInt8) :
    RecordAt (f.fwrite f.size bs) offset v := by
  obtain ⟨q, heq, hend, hbytes⟩ := h
  refine ⟨q, heq, ?_, ?_⟩
  · rw [ByteFile.size_fwrite]
    omega
  · rw [ByteFile.bytes_fwrite_of_disjoint (Or.inl hend)]
    exact hbytes

/-- **A value is read back.** -/
theorem readRecord_of {m : QDenseIndexManager} {offset maxDataSize : ℤ} (h : RecordAt m.m_fpData offset v)
    (hpos : 0 < v.length) (hlt : v.length < 2 ^ 31) (hmax : (v.length : ℤ) ≤ maxDataSize) :
    m.readRecord maxDataSize offset = ((v.length : ℤ), some v) := by
  obtain ⟨q, heq, hend, hbytes⟩ := h
  have hlen := length_record v
  obtain ⟨hfirst, hlast⟩ := ByteFile.bytes_eq_append hbytes
  obtain ⟨hhead, hvalue⟩ := ByteFile.bytes_eq_append hfirst
  simp only [List.length_append, length_encode, length_encodeInt] at hhead hvalue hlast
  have hdec : decodeInt (encodeInt 4 (v.length : ℤ)) = v.length := by
    rw [encodeInt_natCast (by omega)]
    exact decodeInt_encode_of_lt (by omega)
  obtain ⟨head, hread, hmark, hlength⟩ : ∃ head, m.m_fpData.fread q 12 = some head ∧
      decode (head.take 8) = I_STORE_BEGIN_MARK ∧ decodeInt (head.drop 8) = (v.length : ℤ) := by
    refine ⟨_, ByteFile.fread_of_le (by omega), ?_, ?_⟩
    · rw [hhead, List.take_left' (length_encode 8 _)]
      exact decode_encode_of_lt (by decide)
    · rw [hhead, List.drop_left' (length_encode 8 _)]
      exact hdec
  unfold readRecord
  rw [heq, if_neg (by omega)]
  dsimp only
  rw [Int.toNat_natCast, hread]
  dsimp only
  rw [hmark, hlength, if_neg (not_not.mpr rfl), if_neg (by omega), Int.toNat_natCast,
    ByteFile.fread_of_le (by omega), hvalue]
  rw [show q + (8 + 4 + v.length) = q + 12 + v.length by omega] at hlast
  rw [Layout.readMark_of (by decide) (by omega) hlast]
  rfl

/-! ## §5. The index file. -/

/-- All of the index file. -/
def indexBytes (m : QDenseIndexManager) : List UInt8 :=
  let n := m.m_iNowIndexNum.toNat
  encode 8 I_STORE_INDEX_MARK ++ encodeInt 4 m.m_iMaxIndexSize ++ encodeInt 4 m.m_iNowIndexNum ++
    arrayBytes (encode 8) m.m_pszKey n ++ arrayBytes (encodeInt 8) m.m_pszOffset n ++
    arrayBytes flagBytes m.m_pszFlag n ++ encode 8 I_STORE_INDEX_MARK

theorem length_arrayBytes {α : Type} {bytes : α → List UInt8} {k : ℕ} (h : ∀ x, (bytes x).length = k)
    (a : ℤ → α) (n : ℕ) : (arrayBytes bytes a n).length = k * n :=
  ByteFile.length_flatMap_range (fun i => h (a i)) n

theorem length_flagBytes (flag : UInt8) : (flagBytes flag).length = 1 := rfl

theorem length_indexBytes (m : QDenseIndexManager) :
    m.indexBytes.length = 24 + 17 * m.m_iNowIndexNum.toNat := by
  unfold indexBytes
  simp only [List.length_append, length_encode, length_encodeInt]
  rw [length_arrayBytes (length_encode 8), length_arrayBytes (length_encodeInt 8),
    length_arrayBytes length_flagBytes]
  omega

/-- The writes of `rearrangeIndex` are one. -/
theorem writeIndex_eq (m : QDenseIndexManager) (h : 0 < m.m_iNowIndexNum) :
    m.writeIndex = (0, m.m_fpIndex.fwrite 0 m.indexBytes) := by
  have hjoin : ∀ (f : ByteFile) (p : ℕ) (a b : List UInt8), p = a.length →
      (f.fwrite 0 a).fwrite p b = f.fwrite 0 (a ++ b) := by
    intro f p a b hp
    rw [hp, ← f.fwrite_append 0 a b, Nat.zero_add]
  have hkeys := length_arrayBytes (length_encode 8) m.m_pszKey m.m_iNowIndexNum.toNat
  have hoffsets := length_arrayBytes (length_encodeInt 8) m.m_pszOffset m.m_iNowIndexNum.toNat
  have hflags := length_arrayBytes length_flagBytes m.m_pszFlag m.m_iNowIndexNum.toNat
  unfold writeIndex indexBytes
  dsimp only
  rw [if_neg (by omega), hjoin, hjoin, hjoin, hjoin, hjoin, hjoin]
  all_goals simp only [List.length_append, length_encode, length_encodeInt]
  all_goals omega

/-- The index file holds what `rearrangeIndex` wrote from the arrays of `w`. -/
def Written (f : ByteFile) (w : QDenseIndexManager) : Prop :=
  w.indexBytes.length ≤ f.size ∧ f.bytes 0 w.indexBytes.length = w.indexBytes

theorem written_writeIndex (m : QDenseIndexManager) (h : 0 < m.m_iNowIndexNum) :
    Written m.writeIndex.2 m := by
  rw [writeIndex_eq m h]
  refine ⟨?_, ByteFile.bytes_fwrite_self m.m_fpIndex 0 m.indexBytes⟩
  rw [ByteFile.size_fwrite]
  omega

/-- The same entries: the number of them, and the keys, positions and flags. -/
structure SameItems (m w : QDenseIndexManager) : Prop where
  num : m.m_iNowIndexNum = w.m_iNowIndexNum
  key : ∀ i, 0 ≤ i → i < w.m_iNowIndexNum → m.m_pszKey i = w.m_pszKey i
  offset : ∀ i, 0 ≤ i → i < w.m_iNowIndexNum → m.m_pszOffset i = w.m_pszOffset i
  flag : ∀ i, 0 ≤ i → i < w.m_iNowIndexNum → m.m_pszFlag i = w.m_pszFlag i

/-- The fields that fit into the index file. -/
structure Storable (w : QDenseIndexManager) : Prop where
  max : -2 ^ 31 ≤ w.m_iMaxIndexSize ∧ w.m_iMaxIndexSize < 2 ^ 31
  num : 0 < w.m_iNowIndexNum ∧ w.m_iNowIndexNum < 2 ^ 31
  key : ∀ i, 0 ≤ i → i < w.m_iNowIndexNum → w.m_pszKey i < 2 ^ 64
  offset : ∀ i, 0 ≤ i → i < w.m_iNowIndexNum → 0 ≤ w.m_pszOffset i ∧ w.m_pszOffset i < 2 ^ 63

theorem readArray_of {α : Type} {bytes : α → List UInt8} {value : List UInt8 → α} {p k : ℕ} {a : ℤ → α}
    {n : ℤ} (hlen : ∀ x, (bytes x).length = k)
    (hread : f.bytes p (k * n.toNat) = arrayBytes bytes a n.toNat) (memory : ℤ → α)
    (hvalue : ∀ i, 0 ≤ i → i < n → value (bytes (a i)) = a i) {i : ℤ} (hi : 0 ≤ i) (hi' : i < n) :
    readArray f value p k n memory i = a i := by
  unfold readArray
  rw [if_pos ⟨hi, hi'⟩]
  rw [← length_arrayBytes hlen a] at hread
  have hpiece := ByteFile.bytes_flatMap_range (fun i : ℕ => hlen (a i)) n.toNat hread
    (by omega : i.toNat < n.toNat)
  rw [hpiece, Int.toNat_of_nonneg hi]
  exact hvalue i hi hi'

/-- **THE INDEX FILE IS READ BACK.** -/
theorem reopen_of {data : ByteFile} {w : QDenseIndexManager} (hw : w.Storable) (h : Written f w)
    (memory : Parallel ℕ ℤ UInt8) : ∃ m, reopen f (some data) memory = .ok m ∧ SameItems m w ∧
      m.m_iMaxIndexSize = w.m_iMaxIndexSize ∧ m.m_fpIndex = f ∧ m.m_fpData = data := by
  obtain ⟨hsize, hbytes⟩ := h
  have hlen := length_indexBytes w
  have hnum := hw.num
  obtain ⟨h₁, hend⟩ := ByteFile.bytes_eq_append hbytes
  obtain ⟨h₂, hflags⟩ := ByteFile.bytes_eq_append h₁
  obtain ⟨h₃, hoffsets⟩ := ByteFile.bytes_eq_append h₂
  obtain ⟨h₄, hkeys⟩ := ByteFile.bytes_eq_append h₃
  obtain ⟨h₅, hcount⟩ := ByteFile.bytes_eq_append h₄
  obtain ⟨hmark, hmax⟩ := ByteFile.bytes_eq_append h₅
  simp only [List.length_append, length_encode, length_encodeInt, length_arrayBytes (length_encode 8),
    length_arrayBytes (length_encodeInt 8), length_arrayBytes length_flagBytes]
    at hmark hmax hcount hkeys hoffsets hflags hend
  generalize hn : w.m_iNowIndexNum.toNat = n at *
  have hfirst := Layout.readMark_of (by decide) (by omega) hmark
  have hsecond : QStoreManager.readMark f (16 + 17 * n) I_STORE_INDEX_MARK = true := by
    have hplace : 16 + 17 * n = 0 + (8 + 4 + 4 + 8 * n + 8 * n + 1 * n) := by omega
    refine Layout.readMark_of (by decide) (by omega) ?_
    rw [hplace]
    exact hend
  have hreadMax : f.fread 8 4 = some (encodeInt 4 w.m_iMaxIndexSize) := by
    rw [ByteFile.fread_of_le (by omega), ← hmax]
  have hreadNum : f.fread 12 4 = some (encodeInt 4 w.m_iNowIndexNum) := by
    rw [ByteFile.fread_of_le (by omega), ← hcount]
  have hmaxValue : decodeInt (encodeInt 4 w.m_iMaxIndexSize) = w.m_iMaxIndexSize :=
    decodeInt_encodeInt_of_lt (by have := hw.max; omega) (by have := hw.max; omega)
  have hnumValue : decodeInt (encodeInt 4 w.m_iNowIndexNum) = w.m_iNowIndexNum :=
    decodeInt_encodeInt_of_lt (by omega) (by omega)
  have hcan : ∀ p len, 0 < len → p + len ≤ f.size → canRead f p len = true := by
    intro p len hpos hle
    exact decide_eq_true ⟨hpos, hle⟩
  unfold reopen
  rw [hfirst, hreadMax, hreadNum]
  dsimp only [Bool.not_true]
  rw [hnumValue, hmaxValue, hn, hcan _ _ (by omega) (by omega), hcan _ _ (by omega) (by omega),
    hcan _ _ (by omega) (by omega), hsecond]
  refine ⟨_, rfl, ⟨rfl, ?_, ?_, ?_⟩, rfl, rfl, rfl⟩
  · intro i hi hi'
    refine readArray_of (length_encode 8) ?_ memory.tKey_1 ?_ hi hi'
    · rw [hn, ← hkeys]
    · exact fun j hj hj' => decode_encode_of_lt (hw.key j hj hj')
  · intro i hi hi'
    have hplace : 0 + (8 + 4 + 4 + 8 * n) = 16 + 8 * n := by omega
    refine readArray_of (length_encodeInt 8) ?_ memory.tKey_2 ?_ hi hi'
    · rw [hn, ← hoffsets, hplace]
    · intro j hj hj'
      have hoffset := hw.offset j hj hj'
      exact decodeInt_encodeInt_of_lt (by omega) (by omega)
  · intro i hi hi'
    have hplace : 0 + (8 + 4 + 4 + 8 * n + 8 * n) = 16 + 16 * n := by omega
    show readArray f (fun bs => bs.headD 0) (16 + 16 * n) 1 w.m_iNowIndexNum memory.tKey_3 i = _
    refine readArray_of length_flagBytes ?_ memory.tKey_3 ?_ hi hi'
    · rw [hn, ← hflags, hplace]
    · exact fun j _ _ => rfl

end QDenseIndexManager

end KalavaPir.Common
