/-
  KalavaPir.Common.QStoreOffsets — where `get_bucket_position` puts the buckets
  of a store.

  The position of a bucket is an `int64_t`, but it is computed from `int32_t`
  fields in `int32_t` arithmetic and widened only when it is returned.  The
  length of a bucket, `m_iBucketLen`, is cut to 32 bits as well, while the loops
  read and write `m_iBucketSize` whole elements and an index whatever its value
  is.
-/
import KalavaPir.Common.Int32
import KalavaPir.Common.QStoreManager

namespace KalavaPir.Common

open Int

/-! ## §1. Results of 32 bits. -/

theorem wrap32_range (z : ℤ) : -2 ^ 31 ≤ wrap32 z ∧ wrap32 z < 2 ^ 31 := by
  unfold wrap32
  rw [bmod_def]
  split <;> omega

theorem wrap32_of_range {z : ℤ} (h : -2 ^ 31 ≤ z) (h' : z < 2 ^ 31) : wrap32 z = z := by
  unfold wrap32
  rw [bmod_def]
  split <;> omega

namespace QStoreManager

variable (st : QStoreManager)

/-! ## §2. The buckets in use. -/

/-- The bytes of a bucket that the loops read and write: its elements and the
    index of its overflow bucket. -/
def bucketBytes : ℤ := st.m_iElementLen * st.m_iBucketSize + 4

/-- The store whose counter has gone up by `k`. -/
def afterOverflows (k : ℕ) : QStoreManager :=
  { st with m_iBucketOverflowNum := wrap32 (st.m_iBucketOverflowNum + k) }

/-- The base buckets, and the overflow buckets of the next `n` times that one
    is opened. -/
def usedBuckets (n : ℕ) : Set ℤ :=
  {i | (0 ≤ i ∧ i < st.m_iBucketNum) ∨ ∃ k < n, i = (st.afterOverflows k).overflowIndex}

theorem overflowIndex_afterOverflows (k : ℕ) : (st.afterOverflows k).overflowIndex
    = wrap32 (st.m_iBucketNum + wrap32 (wrap32 (st.m_iBucketOverflowNum + k) + 1)) := rfl

/-- The buckets in use lie at `m_iHeadLen + index * m_iBucketLen`, none of them
    before the file, and no two of them overlap. -/
structure BucketsApart (used : Set ℤ) : Prop where
  exact : ∀ i ∈ used, st.get_bucket_position i = m_iHeadLen + i * st.m_iBucketLen
  nonneg : ∀ i ∈ used, 0 ≤ st.get_bucket_position i
  apart : ∀ i ∈ used, ∀ j ∈ used, i ≠ j →
    st.get_bucket_position i + st.bucketBytes ≤ st.get_bucket_position j ∨
      st.get_bucket_position j + st.bucketBytes ≤ st.get_bucket_position i

/-- Every bucket in use begins inside the first 2³¹ bytes. -/
def PositionsFit (used : Set ℤ) : Prop :=
  ∀ i ∈ used, 0 ≤ m_iHeadLen + i * st.bucketBytes ∧ m_iHeadLen + i * st.bucketBytes ≤ INT32_MAX

/-! ## §3. Lengths and positions. -/

variable {st}

theorem bucketBytes_pos (hsize : 0 < st.m_iBucketSize) : 0 < st.bucketBytes := by
  have hmul : 0 ≤ (st.m_iElementLen : ℤ) * st.m_iBucketSize :=
    mul_nonneg (natCast_nonneg _) (le_of_lt hsize)
  unfold bucketBytes
  omega

theorem m_iBucketLen_of_le (hsize : 0 < st.m_iBucketSize) (h : st.bucketBytes ≤ INT32_MAX) :
    st.m_iBucketLen = st.bucketBytes := by
  have hpos := bucketBytes_pos hsize
  unfold INT32_MAX at h
  exact wrap32_of_range (by unfold bucketBytes at hpos; omega) (by unfold bucketBytes at h; omega)

@[simp] theorem get_bucket_position_zero : st.get_bucket_position 0 = 20 := by
  show wrap32 (20 + 0 * st.m_iBucketLen) = 20
  rw [zero_mul]
  decide

theorem get_bucket_position_le (st : QStoreManager) (i : ℤ) : st.get_bucket_position i ≤ INT32_MAX := by
  have h := (wrap32_range (m_iHeadLen + i * st.m_iBucketLen)).2
  unfold INT32_MAX
  show wrap32 _ ≤ _
  omega

variable {i : ℤ} {used : Set ℤ}

/-- Another bucket than the first one fits only if the length of a bucket
    does. -/
theorem bucketBytes_le_of_fits (hsize : 0 < st.m_iBucketSize) (hi : i ≠ 0)
    (hlow : 0 ≤ m_iHeadLen + i * st.bucketBytes) (hhigh : m_iHeadLen + i * st.bucketBytes ≤ INT32_MAX) :
    st.bucketBytes ≤ INT32_MAX := by
  have hpos := bucketBytes_pos hsize
  have hhead : (m_iHeadLen : ℤ) = 20 := rfl
  rcases lt_or_gt_of_ne hi with hneg | hpos'
  · have hle : i * st.bucketBytes ≤ -1 * st.bucketBytes :=
      mul_le_mul_of_nonneg_right (by omega) (le_of_lt hpos)
    unfold INT32_MAX
    omega
  · have hle : 1 * st.bucketBytes ≤ i * st.bucketBytes :=
      mul_le_mul_of_nonneg_right (by omega) (le_of_lt hpos)
    omega

/-- Where it fits, a bucket begins where it should. -/
theorem get_bucket_position_of_fits (hsize : 0 < st.m_iBucketSize)
    (hlow : 0 ≤ m_iHeadLen + i * st.bucketBytes) (hhigh : m_iHeadLen + i * st.bucketBytes ≤ INT32_MAX) :
    st.get_bucket_position i = m_iHeadLen + i * st.bucketBytes ∧
      i * st.m_iBucketLen = i * st.bucketBytes := by
  have hlen : i * st.m_iBucketLen = i * st.bucketBytes := by
    by_cases hi : i = 0
    · rw [hi, zero_mul, zero_mul]
    · rw [m_iBucketLen_of_le hsize (bucketBytes_le_of_fits hsize hi hlow hhigh)]
  unfold INT32_MAX at hhigh
  refine ⟨?_, hlen⟩
  show wrap32 (m_iHeadLen + i * st.m_iBucketLen) = _
  rw [hlen]
  exact wrap32_of_range (by omega) (by omega)

theorem apart_of_ne {b j : ℤ} (hb : 0 < b) (hij : i ≠ j) : i * b + b ≤ j * b ∨ j * b + b ≤ i * b := by
  rcases lt_or_gt_of_ne hij with hlt | hgt
  · have hle : (i + 1) * b ≤ j * b := mul_le_mul_of_nonneg_right hlt (le_of_lt hb)
    rw [add_mul, one_mul] at hle
    exact Or.inl hle
  · have hle : (j + 1) * b ≤ i * b := mul_le_mul_of_nonneg_right hgt (le_of_lt hb)
    rw [add_mul, one_mul] at hle
    exact Or.inr hle

/-! ## §4. When the buckets lie apart. -/

theorem BucketsApart.of_fits (hsize : 0 < st.m_iBucketSize) (h : st.PositionsFit used) :
    st.BucketsApart used := by
  have hpos := bucketBytes_pos hsize
  refine ⟨fun i hi => ?_, fun i hi => ?_, fun i hi j hj hij => ?_⟩
  · obtain ⟨heq, hlen⟩ := get_bucket_position_of_fits hsize (h i hi).1 (h i hi).2
    rw [heq, hlen]
  · rw [(get_bucket_position_of_fits hsize (h i hi).1 (h i hi).2).1]
    exact (h i hi).1
  · rw [(get_bucket_position_of_fits hsize (h i hi).1 (h i hi).2).1,
      (get_bucket_position_of_fits hsize (h j hj).1 (h j hj).2).1]
    have hapart := apart_of_ne hpos hij
    omega

/-- A bucket apart from the first one fits: if the length had been cut, the two
    would overlap. -/
theorem BucketsApart.fits (hsize : 0 < st.m_iBucketSize) (h0 : (0 : ℤ) ∈ used) (h : st.BucketsApart used) :
    st.PositionsFit used := by
  intro i hi
  have hhead : (m_iHeadLen : ℤ) = 20 := rfl
  by_cases hi0 : i = 0
  · rw [hi0, zero_mul, hhead]
    decide
  have hlow := h.nonneg i hi
  have hhigh := get_bucket_position_le st i
  have hapart := h.apart 0 h0 i hi (Ne.symm hi0)
  rw [get_bucket_position_zero] at hapart
  -- on either side of the first bucket there is only room for a length that fits
  have hlen : st.m_iBucketLen = st.bucketBytes := by
    apply m_iBucketLen_of_le hsize
    unfold INT32_MAX at hhigh ⊢
    omega
  have hexact := h.exact i hi
  rw [hlen] at hexact
  rw [← hexact]
  exact ⟨hlow, hhigh⟩

/-- **THE BUCKETS LIE APART** exactly as long as every one in use begins inside
    the first 2³¹ bytes of the file, for any number and size of buckets that
    `init` accepts. -/
theorem bucketsApart_iff (st : QStoreManager) (hnum : 0 < st.m_iBucketNum)
    (hsize : 0 < st.m_iBucketSize) (n : ℕ) :
    st.BucketsApart (st.usedBuckets n) ↔ st.PositionsFit (st.usedBuckets n) := by
  constructor
  · intro h
    exact h.fits hsize (Or.inl ⟨le_rfl, hnum⟩)
  · intro h
    exact BucketsApart.of_fits hsize h

/-- A new store of 1000 buckets of 10 elements, with four overflow buckets. -/
theorem bucketsApart_thousand :
    (create 1000 10 8 0).BucketsApart ((create 1000 10 8 0).usedBuckets 4) := by
  have hnum : (0 : ℤ) < 1000 := by decide
  have hsize : (0 : ℤ) < 10 := by decide
  refine (bucketsApart_iff (create 1000 10 8 0) hnum hsize 4).2 ?_
  have hbase : (create 1000 10 8 0).m_iBucketNum = 1000 := rfl
  have hcount : (create 1000 10 8 0).m_iBucketOverflowNum = 0 := rfl
  have hbytes : (create 1000 10 8 0).bucketBytes = 174 := rfl
  have hhead : (m_iHeadLen : ℤ) = 20 := rfl
  intro i hi
  have hrange : 0 ≤ i ∧ i ≤ 1004 := by
    rcases hi with ⟨hlow, hhigh⟩ | ⟨k, hk, hik⟩
    · rw [hbase] at hhigh
      omega
    · have hcounter : wrap32 (0 + (k : ℤ)) = 0 + k := wrap32_of_range (by omega) (by omega)
      have hnext : wrap32 (0 + (k : ℤ) + 1) = 0 + k + 1 := wrap32_of_range (by omega) (by omega)
      rw [overflowIndex_afterOverflows, hbase, hcount, hcounter, hnext,
        wrap32_of_range (by omega) (by omega)] at hik
      omega
  rw [hbytes, hhead]
  unfold INT32_MAX
  omega

/-- **The last base bucket of 200000 with 1000 elements each** begins behind
    2³¹ bytes and is looked for before the file. -/
theorem position_overflow : ¬ ∀ (data : Option Framework.ByteFile)
    (iBucketNum iBucketSize iDataLen counter : ℤ) (st : QStoreManager) (n : ℕ),
    init none data iBucketNum iBucketSize iDataLen counter = .ok st →
      st.BucketsApart (st.usedBuckets n) := by
  intro h
  have hapart := h none 200000 1000 8 0 (create 200000 1000 8 0) 0 rfl
  have hnonneg := hapart.nonneg 199999 (Or.inl ⟨by decide, by decide⟩)
  exact absurd hnonneg (by decide)

end QStoreManager

end KalavaPir.Common
