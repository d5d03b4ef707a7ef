/-
  KalavaPir.Common.QStoreManager — the hash file of `common/qstoremanager.h`.

  A head of 20 bytes, then buckets of equal length: `m_iBucketSize` elements
  (key, delete tag, and the position of the value in a second file, unless the
  store has no values) and the index of an overflow bucket.  A bucket that is
  full is continued in an overflow bucket behind the base buckets.

  The cursor of the file is an explicit position.  Writes do not fail; reads
  past the end and seeks to a negative position do, with the codes of the
  source.  `Q_FOREVER` is a loop with fuel: `none` is a loop that has not ended
  yet.  Bucket positions are computed in 32 bits (`wrap32`), as in the source.

  Left out: the file names and `m_iAllDataNum`, which nothing reads.
-/
import KalavaPir.Framework.ByteFile

namespace KalavaPir.Common

open KalavaPir.Framework

/-- An `int32_t` result. -/
def wrap32 (z : ℤ) : ℤ := Int.bmod z (2 ^ 32)

/-- "@QHSM1.0", and the marks around a value. -/
def I_STORE_FILE_MARK : ℕ := 0x302e314d53485140
/-- The marks at the ends of the head. -/
def I_STORE_BEGIN_MARK : ℕ := 0xBBBBBBBBBBBBBBBB
def I_STORE_END_MARK : ℕ := 0xEEEEEEEEEEEEEEEE

/-- magic number + bucket num + bucket size + data length -/
def m_iHeadLen : ℕ := 20

/-- `class QStoreManager`, after `init`. -/
structure QStoreManager where
  m_iDataLen : ℤ
  m_iBucketNum : ℤ
  m_iBucketOverflowNum : ℤ
  m_iBucketSize : ℤ
  m_fpHash : ByteFile
  /-- not opened if `m_iDataLen` is 0 -/
  m_fpData : ByteFile

namespace QStoreManager

/-- key (8 bytes) + delete tag (1 byte) + value position (8 bytes) -/
def m_iElementLen (st : QStoreManager) : ℕ := if st.m_iDataLen = 0 then 9 else 17

/-- element length * bucket size + overflow bucket index -/
def m_iBucketLen (st : QStoreManager) : ℤ := wrap32 (st.m_iElementLen * st.m_iBucketSize + 4)

/-- `m_pBucket`: an empty bucket. -/
def m_pBucket (st : QStoreManager) : List UInt8 := List.replicate st.m_iBucketLen.toNat 0

/-- In 32 bits, and widened behind that. -/
def get_bucket_position (st : QStoreManager) (bucketIndex : ℤ) : ℤ :=
  wrap32 (m_iHeadLen + bucketIndex * st.m_iBucketLen)

/-- `(int32_t)(key%m_iBucketNum)`: the number is converted to `uint64_t`. -/
def bucketIndex (st : QStoreManager) (key : ℕ) : ℤ :=
  wrap32 ((key % (st.m_iBucketNum % 2 ^ 64).toNat : ℕ) : ℤ)

/-! ## §1. `init` (qstoremanager.h:60). -/

/-- `n` empty buckets, from position `p` on. -/
def writeBuckets (bucket : List UInt8) : ℕ → ℕ → ByteFile → ByteFile
  | 0, _, f => f
  | n + 1, p, f => writeBuckets bucket n (p + bucket.length) (f.fwrite p bucket)

/-- The four fields of the head. -/
def writeHead (st : QStoreManager) : ByteFile :=
  let f := st.m_fpHash.fwrite 0 (encode 8 I_STORE_FILE_MARK)
  let f := f.fwrite 8 (encodeInt 4 st.m_iBucketNum)
  let f := f.fwrite 12 (encodeInt 4 st.m_iBucketSize)
  f.fwrite 16 (encodeInt 4 st.m_iDataLen)

/-- The `else` branch: a new store. -/
def create (iBucketNum iBucketSize iDataLen counter : ℤ) : QStoreManager :=
  let st : QStoreManager :=
    { m_iDataLen := iDataLen, m_iBucketNum := iBucketNum, m_iBucketOverflowNum := counter,
      m_iBucketSize := iBucketSize, m_fpHash := .empty, m_fpData := .empty }
  { st with m_fpHash := writeBuckets st.m_pBucket iBucketNum.toNat m_iHeadLen st.writeHead }

/-- The `if` branch: the head of an existing file. -/
def reopen (hash : ByteFile) (data : Option ByteFile) (counter : ℤ) : Except ℤ QStoreManager :=
  match hash.fread 0 8 with
  | none => .error (-5)
  | some mark =>
    if decode mark ≠ I_STORE_FILE_MARK then .error (-5)
    else
      match hash.fread 8 4, hash.fread 12 4, hash.fread 16 4 with
      | none, _, _ => .error (-6)
      | _, none, _ => .error (-7)
      | _, _, none => .error (-8)
      | some num, some size, some len =>
        let st : QStoreManager :=
          { m_iDataLen := decodeInt len, m_iBucketNum := decodeInt num,
            m_iBucketOverflowNum := counter, m_iBucketSize := decodeInt size, m_fpHash := hash,
            m_fpData := .empty }
        if st.m_iDataLen = 0 then .ok st
        else
          match data with
          | none => .error (-10)
          | some data => .ok { st with m_fpData := data }

/-- `init`.  Nothing assigns `m_iBucketOverflowNum`, neither the constructor
    nor `init`: it keeps what it had, `counter`. -/
def init (hash data : Option ByteFile) (iBucketNum iBucketSize iDataLen counter : ℤ) :
    Except ℤ QStoreManager :=
  if iBucketNum ≤ 0 ∨ iBucketSize ≤ 0 then .error (-1)
  else
    match hash with
    | some hash => reopen hash data counter
    | none => .ok (create iBucketNum iBucketSize iDataLen counter)

/-! ## §2. Adding (qstoremanager.h:182, 405). -/

/-- A new element at position `p` of the hash file; its value, if there is
    one, goes to the end of the data file. -/
def insertAt (st : QStoreManager) (p key : ℕ) (record : Option (List UInt8)) : QStoreManager :=
  let hash := (st.m_fpHash.fwrite p (encode 8 key)).fwrite (p + 8) [0]
  match record with
  | none => { st with m_fpHash := hash }
  | some record =>
    let vPosition := st.m_fpData.size
    { st with
      m_fpData := st.m_fpData.fwrite vPosition record
      m_fpHash := hash.fwrite (p + 9) (encodeInt 8 vPosition) }

/-- The `for` loop over one bucket: what the function returns, or the position
    behind the elements. -/
def addScan (st : QStoreManager) (key : ℕ) (record : Option (List UInt8)) :
    ℕ → ℕ → (ℤ × QStoreManager) ⊕ ℕ
  | 0, p => .inr p
  | n + 1, p =>
    match st.m_fpHash.fread p 8 with
    | none => .inl (-2, st)
    | some readKey =>
      if decode readKey = key then .inl (1, st)
      else if decode readKey = 0 then .inl (0, st.insertAt p key record)
      else addScan st key record n (p + st.m_iElementLen)

/-- The new overflow bucket: its index and its position. -/
def overflowIndex (st : QStoreManager) : ℤ :=
  wrap32 (st.m_iBucketNum + wrap32 (st.m_iBucketOverflowNum + 1))

/-- The index is stored at `p`, at the end of the full bucket. -/
def linkOverflow (st : QStoreManager) (p : ℕ) : QStoreManager :=
  { st with
    m_iBucketOverflowNum := wrap32 (st.m_iBucketOverflowNum + 1)
    m_fpHash := st.m_fpHash.fwrite p (encodeInt 4 st.overflowIndex) }

/-- `m_pBucket` is written at `p`. -/
def clearBucket (st : QStoreManager) (p : ℕ) : QStoreManager :=
  { st with m_fpHash := st.m_fpHash.fwrite p st.m_pBucket }

/-- The two codes in which the functions differ. -/
structure AddCodes where
  readOverflow : ℤ
  seekOverflow : ℤ

/-- The `Q_FOREVER` of both functions, at the bucket at `bucketPos`. -/
def addLoop (codes : AddCodes) (key : ℕ) (record : Option (List UInt8)) :
    ℕ → QStoreManager → ℤ → Option (ℤ × QStoreManager)
  | 0, _, _ => none
  | fuel + 1, st, bucketPos =>
    if bucketPos < 0 then some (-1, st)
    else
      match addScan st key record st.m_iBucketSize.toNat bucketPos.toNat with
      | .inl r => some r
      | .inr p =>
        match st.m_fpHash.fread p 4 with
        | none => some (codes.readOverflow, st)
        | some overflowBucketIndex =>
          if decodeInt overflowBucketIndex = 0 then
            let newPos := st.get_bucket_position st.overflowIndex
            let st := st.linkOverflow p
            if newPos < 0 then some (codes.seekOverflow, st)
            else addLoop codes key record fuel (st.clearBucket newPos.toNat) newPos
          else
            addLoop codes key record fuel st
              (st.get_bucket_position (decodeInt overflowBucketIndex))

/-- What `addKey_FL` appends: the `m_iDataLen` bytes at `vpData`, between
    marks. -/
def record_FL (st : QStoreManager) (vpData : List UInt8) : Option (List UInt8) :=
  if st.m_iDataLen > 0 then some (encode 8 I_STORE_BEGIN_MARK ++ vpData ++ encode 8 I_STORE_END_MARK)
  else none

/-- What `addKey_VL` appends: the length as well. -/
def record_VL (vpData : List UInt8) : Option (List UInt8) :=
  some (encode 8 I_STORE_BEGIN_MARK ++ encodeInt 4 vpData.length ++ vpData ++
    encode 8 I_STORE_END_MARK)

/-- `addKey` of a store with values of one length. -/
def addKey_FL (fuel : ℕ) (st : QStoreManager) (key : ℕ) (vpData : List UInt8) :
    Option (ℤ × QStoreManager) :=
  addLoop ⟨-12, -15⟩ key (st.record_FL vpData) fuel st (st.get_bucket_position (st.bucketIndex key))

/-- `addKey` of a store with values of any length. -/
def addKey_VL (fuel : ℕ) (st : QStoreManager) (key : ℕ) (vpData : List UInt8) :
    Option (ℤ × QStoreManager) :=
  addLoop ⟨-13, -16⟩ key (record_VL vpData) fuel st (st.get_bucket_position (st.bucketIndex key))

/-! ## §3. Searching (qstoremanager.h:277, 500). -/

/-- What a search returns, and what it stored through `vpData`. -/
abbrev Found := ℤ × Option (List UInt8)

/-- `fread` and the comparison with a mark. -/
def readMark (f : ByteFile) (p mark : ℕ) : Bool :=
  match f.fread p 8 with
  | none => false
  | some bs => decode bs == mark

/-- The value of the element at `p`, for `searchKey_FL`; `maxDataSize` is
    `none` if `vpData` is NULL. -/
def hit_FL (st : QStoreManager) (maxDataSize : Option ℤ) (p : ℕ) : Found :=
  match maxDataSize with
  | none => (0, none)
  | some maxDataSize =>
    if st.m_iDataLen ≤ 0 then (0, none)
    else if st.m_iDataLen > maxDataSize then (-4, none)
    else
      match st.m_fpHash.fread (p + 9) 8 with
      | none => (-5, none)
      | some bs =>
        if decodeInt bs < 0 then (-6, none)
        else
          let q := (decodeInt bs).toNat
          if !readMark st.m_fpData q I_STORE_BEGIN_MARK then (-7, none)
          else
            match st.m_fpData.fread (q + 8) st.m_iDataLen.toNat with
            | none => (-8, none)
            | some vpData =>
              if !readMark st.m_fpData (q + 8 + st.m_iDataLen.toNat) I_STORE_END_MARK then
                (-9, some vpData)
              else (0, some vpData)

/-- The same for `searchKey_VL`, which has read the position already. -/
def hit_VL (st : QStoreManager) (maxDataSize dataOffset : ℤ) : Found :=
  if dataOffset < 0 then (-5, none)
  else
    let q := dataOffset.toNat
    if !readMark st.m_fpData q I_STORE_BEGIN_MARK then (-6, none)
    else
      match st.m_fpData.fread (q + 8) 4 with
      | none => (-7, none)
      | some bs =>
        let dataLen := decodeInt bs
        if dataLen > maxDataSize ∨ dataLen ≤ 0 then (-8, none)
        else
          match st.m_fpData.fread (q + 12) dataLen.toNat with
          | none => (-9, none)
          | some vpData =>
            if !readMark st.m_fpData (q + 12 + dataLen.toNat) I_STORE_END_MARK then
              (-10, some vpData)
            else (dataLen, some vpData)

/-- One round of the `for` loop: it returns, or goes on to the next element. -/
def slot_FL (st : QStoreManager) (maxDataSize : Option ℤ) (key p : ℕ) : Found ⊕ ℕ :=
  match st.m_fpHash.fread p 8, st.m_fpHash.fread (p + 8) 1 with
  | none, _ => .inl (-2, none)
  | _, none => .inl (-3, none)
  | some readKey, some deleteFlag =>
    if decode readKey = key ∧ decode deleteFlag = 0 then .inl (st.hit_FL maxDataSize p)
    else if decode readKey = 0 then .inl (-10, none)
    else .inr (p + st.m_iElementLen)

/-- What `searchKey_VL` does at an element. -/
def slot_VL (st : QStoreManager) (maxDataSize : ℤ) (key p : ℕ) : Found ⊕ ℕ :=
  match st.m_fpHash.fread p 8, st.m_fpHash.fread (p + 8) 1, st.m_fpHash.fread (p + 9) 8 with
  | none, _, _ => .inl (-2, none)
  | _, none, _ => .inl (-3, none)
  | _, _, none => .inl (-4, none)
  | some readKey, some deleteFlag, some dataOffset =>
    if decode readKey = key ∧ decode deleteFlag = 0 then
      .inl (st.hit_VL maxDataSize (decodeInt dataOffset))
    else if decode readKey = 0 then .inl (-11, none)
    -- all of the element has been read, no seek
    else .inr (p + 17)

/-- The elements of a bucket, one behind the other. -/
def searchScan {α : Type} (slot : ℕ → α ⊕ ℕ) : ℕ → ℕ → α ⊕ ℕ
  | 0, p => .inr p
  | n + 1, p =>
    match slot p with
    | .inl r => .inl r
    | .inr p => searchScan slot n p

/-- The codes of a search that finds nothing to return. -/
structure SearchCodes where
  readOverflow : ℤ
  noOverflow : ℤ

/-- The `Q_FOREVER` of the functions that search and delete; `fail` is the
    result with a code. -/
def searchLoop {α : Type} (st : QStoreManager) (codes : SearchCodes) (fail : ℤ → α)
    (slot : ℕ → α ⊕ ℕ) : ℕ → ℤ → Option α
  | 0, _ => none
  | fuel + 1, bucketPos =>
    if bucketPos < 0 then some (fail (-1))
    else
      match searchScan slot st.m_iBucketSize.toNat bucketPos.toNat with
      | .inl r => some r
      | .inr p =>
        match st.m_fpHash.fread p 4 with
        | none => some (fail codes.readOverflow)
        | some overflowBucketIndex =>
          if decodeInt overflowBucketIndex = 0 then some (fail codes.noOverflow)
          else
            searchLoop st codes fail slot fuel
              (st.get_bucket_position (decodeInt overflowBucketIndex))

/-- `searchKey` of a store with values of one length. -/
def searchKey_FL (fuel : ℕ) (st : QStoreManager) (key : ℕ) (maxDataSize : Option ℤ) : Option Found :=
  searchLoop st ⟨-12, -13⟩ (fun code => (code, none)) (st.slot_FL maxDataSize key) fuel
    (st.get_bucket_position (st.bucketIndex key))

/-- `searchKey` of a store with values of any length. -/
def searchKey_VL (fuel : ℕ) (st : QStoreManager) (key : ℕ) (maxDataSize : ℤ) : Option Found :=
  searchLoop st ⟨-12, -13⟩ (fun code => (code, none)) (st.slot_VL maxDataSize key) fuel
    (st.get_bucket_position (st.bucketIndex key))

/-! ## §4. Deleting (qstoremanager.h:352, 575). -/

/-- The delete tag of the element at `p`. -/
def setDeleted (st : QStoreManager) (p : ℕ) : QStoreManager :=
  { st with m_fpHash := st.m_fpHash.fwrite (p + 8) [1] }

/-- What a deletion does at an element. -/
def slot_delete (st : QStoreManager) (key p : ℕ) : (ℤ × QStoreManager) ⊕ ℕ :=
  match st.m_fpHash.fread p 8 with
  | none => .inl (-2, st)
  | some readKey =>
    if decode readKey = key then .inl (0, st.setDeleted p)
    else if decode readKey = 0 then .inl (1, st)
    else .inr (p + st.m_iElementLen)

/-- The tag of a key is set. -/
def deleteKey_FL (fuel : ℕ) (st : QStoreManager) (key : ℕ) : Option (ℤ × QStoreManager) :=
  searchLoop st ⟨-5, -6⟩ (fun code => (code, st)) (st.slot_delete key) fuel
    (st.get_bucket_position (st.bucketIndex key))

/-- Word for word the same. -/
def deleteKey_VL (fuel : ℕ) (st : QStoreManager) (key : ℕ) : Option (ℤ × QStoreManager) :=
  searchLoop st ⟨-5, -6⟩ (fun code => (code, st)) (st.slot_delete key) fuel
    (st.get_bucket_position (st.bucketIndex key))

end QStoreManager

end KalavaPir.Common
