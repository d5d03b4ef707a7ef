/-
  KalavaPir.Master.Server — the master process: its shared record, the pooled
  search objects, and how a result list is ranked and cut.

  Scores are any linear order (the `float` of the source without NaN);
  `bucketSize` is the `int32_t` copy of the length of `workerInfoVec`, and the
  two are SEPARATE fields that are updated one after the other.

  Left out of the record: sockets, timeouts, logging, the training bit, which
  no modelled function looks at.
-/
import KalavaPir.Common.QQueue
import KalavaPir.Common.StdSort
import KalavaPir.Framework.TopK
import KalavaPir.Master.WorkerTable

namespace KalavaPir.Master

open KalavaPir.Common
open KalavaPir.Framework

/-! ## §1. Constants and types of master/src/pir.h. -/

/-- The states of the service. -/
def PIR_STATE_INITING : BitVec 8 := 0x01#8
def PIR_STATE_INITED : BitVec 8 := 0x02#8
def PIR_STATE_READY : BitVec 8 := 0x06#8
def PIR_STATE_ERROR : BitVec 8 := 0x7f#8

/-- The tags of an answer. -/
def PIR_SOAP_TAG_OK : ℤ := 1
def PIR_SOAP_TAG_ERR : ℤ := -1

/-- `enum ranking_t`. -/
inductive Ranking where
  | NoSort
  | AscendingSort
  | DescendingSort
  deriving DecidableEq, Repr

/-- `std::pair<std::string, float>`: a picture and its score. -/
abbrev Scored (S : Type) := List Char × S

/-- `struct searchObj`, as it lies in the pool (its mutex is free there). -/
structure SearchObj (S : Type) where
  image_path : List Char
  search_res : List (Scored S)
  ocr : List Char

/-- `searchObj::reset()`. -/
def SearchObj.reset {S : Type} (_ : SearchObj S) : SearchObj S :=
  { image_path := [], search_res := [], ocr := [] }

/-- `struct ns__searchResponse`. -/
structure SearchResponse (S : Type) where
  tag : ℤ
  matches_ : List (Scored S)
  ocr : List Char

/-- `struct pirServer`, as far as searching and the worker table use it. -/
structure Server (S : Type) where
  serverstate : BitVec 8
  bucketSize : ℕ
  workerInfoVec : List WorkerInfo
  client_search_queue : QQueue (SearchObj S)
  stat_search_conn : BitVec 64
  stat_failed_conn : BitVec 64
  watchdog_mtime : ℤ
  /-- `exit(0)` has been called -/
  exited : Bool

/-- What a search depends on besides the shared record: the fields loaded once
    from master.conf, the answers of the workers (by image and index; `none`
    is a SOAP fault) and the implementation of `std::sort`. -/
structure Env (S : Type) where
  ranking : Ranking
  query_num : BitVec 32
  ocr_enabled : Bool
  net : List Char → ℕ → Option (List (Scored S))
  sort : StdSort (Scored S)

/-! ## §2. Ranking. -/

section Ranking

variable {S : Type} [LinearOrder S]

/-- `compareKeyAscending`, `compareKeyDescending` (pir.cpp:956, 961). -/
def compareKeyAscending (key1 key2 : Scored S) : Bool := decide (key1.2 < key2.2)
/-- The better score comes first. -/
def compareKeyDescending (key1 key2 : Scored S) : Bool := decide (key1.2 > key2.2)

/-- The `switch(server.ranking)` of `ns_imSearch`. -/
def rankResults (σ : StdSort (Scored S)) (ranking : Ranking) (res : List (Scored S)) :
    List (Scored S) :=
  if res.length ≠ 0 then
    match ranking with
    | .AscendingSort => σ.sort compareKeyAscending res
    | .DescendingSort => σ.sort compareKeyDescending res
    | .NoSort => σ.sort compareKeyDescending res
  else res

/-- The `int32_t` seen as a `size_t`. -/
def sizeT (n : BitVec 32) : ℕ := (n.signExtend 64).toNat

/-- `(server.query_num<=size)?server.query_num:size`, stored in an
    `int32_t`. -/
def queryNum (query_num : BitVec 32) (size : ℕ) : BitVec 32 :=
  if sizeT query_num ≤ size then query_num else BitVec.ofNat 32 size

/-- The first `query_num` results. -/
def cutResults (query_num : BitVec 32) (res : List (Scored S)) : List (Scored S) :=
  res.take (queryNum query_num res.length).toInt.toNat

theorem ascending_strictWeakOrder : StrictWeakOrder (compareKeyAscending (S := S)) :=
  strictWeakOrder_key (fun a : Scored S => a.2)

theorem descending_strictWeakOrder : StrictWeakOrder (compareKeyDescending (S := S)) :=
  strictWeakOrder_key (β := Sᵒᵈ) (fun a : Scored S => OrderDual.toDual a.2)

theorem rankResults_perm (σ : StdSort (Scored S)) (ranking : Ranking) (res : List (Scored S)) :
    (rankResults σ ranking res).Perm res := by
  unfold rankResults
  split
  · cases ranking with
    | AscendingSort => exact σ.perm _ ascending_strictWeakOrder res
    | DescendingSort | NoSort => exact σ.perm _ descending_strictWeakOrder res
  · exact List.Perm.refl _

/-- Every ranking but the ascending one puts the best score first. -/
theorem rankResults_sorted (σ : StdSort (Scored S)) {ranking : Ranking}
    (hr : ranking ≠ .AscendingSort) (res : List (Scored S)) :
    (rankResults σ ranking res).Pairwise (fun a b => b.2 ≤ a.2) := by
  have hsorted := σ.sorted _ descending_strictWeakOrder res
  have himp : (σ.sort compareKeyDescending res).Pairwise (fun a b => b.2 ≤ a.2) :=
    hsorted.imp (fun h => by simpa [compareKeyDescending] using h)
  unfold rankResults
  split
  · cases ranking with
    | AscendingSort => exact absurd rfl hr
    | DescendingSort => exact himp
    | NoSort => exact himp
  next hnil =>
    have : res = [] := List.length_eq_zero_iff.mp (by simpa using hnil)
    subst this
    exact List.Pairwise.nil

variable {n : BitVec 32}

theorem sizeT_of_nonneg (h : 0 ≤ n.toInt) : (sizeT n : ℤ) = n.toInt := by
  have hmsb : n.msb = false := by
    by_contra hm
    have := BitVec.toInt_neg_of_msb_true (by simpa using hm)
    omega
  unfold sizeT
  rw [BitVec.signExtend_eq_setWidth_of_msb_false hmsb, BitVec.toNat_setWidth,
    BitVec.toInt_eq_toNat_of_msb hmsb]
  omega

theorem sizeT_of_neg (h : n.toInt < 0) : 2 ^ 31 ≤ sizeT n := by
  unfold sizeT
  have hmsb : n.msb = true := by
    by_contra hm
    have := BitVec.toInt_eq_toNat_of_msb (by simpa using hm : n.msb = false)
    omega
  rw [BitVec.toNat_signExtend, hmsb]
  simp only [if_true]
  omega

theorem toInt_ofNat_small {n : ℕ} (h : n < 2 ^ 31) : (BitVec.ofNat 32 n).toInt = n := by
  rw [BitVec.toInt_eq_toNat_cond, BitVec.toNat_ofNat]
  split <;> omega

/-- The loop bound is the smaller of the two numbers, unless both are beyond
    the range of the `int32_t`. -/
theorem queryNum_toNat {query_num : BitVec 32} {size : ℕ} (h : 0 ≤ query_num.toInt ∨ size < 2 ^ 31) :
    (queryNum query_num size).toInt.toNat = min (sizeT query_num) size := by
  unfold queryNum
  rcases lt_or_ge query_num.toInt 0 with hneg | hpos
  · have hbig := sizeT_of_neg hneg
    have hsize : size < 2 ^ 31 := by omega
    rw [if_neg (by omega), toInt_ofNat_small hsize]
    omega
  have heq := sizeT_of_nonneg hpos
  split
  · omega
  have hlt : query_num.toInt < 2 ^ 31 := by
    have := BitVec.toInt_lt (x := query_num)
    omega
  rw [toInt_ofNat_small (by omega)]
  omega

end Ranking

end KalavaPir.Master
