/-
  KalavaPir.Common.QChineseSpelling — the spellings of characters, from a dictionary
  (`common/qchinesespelling.h`).

  A line of the dictionary is a character of two bytes and its spellings with blanks
  between them.  `init` reads each line into one buffer of 1024 bytes, where bytes of
  earlier lines stay behind the end of the new one.  A copy that leaves its slot, a
  slot or a table index that is not there, a byte of the text behind its end and a
  byte of the result behind its room are `none`, as an overflow is.

  The number of words is left out, no modelled function reads it.
-/
import KalavaPir.Common.Int32
import KalavaPir.Framework.Memory
import Mathlib.Data.List.DropRight

namespace KalavaPir.Common

open KalavaPir.Framework List Option Function

namespace QChineseSpelling

/-! ## §1. The dictionary (qchinesespelling.h:72). -/

/-- The bytes of a spelling. -/
def MAX_SPELLING_LEN : ℤ := 8

/-- The nodes of a character. -/
def MAX_SPELLING_NUM : ℤ := 8

/-- The entries of the table. -/
def MAX_GBK_COUNT : ℕ := 0xffff

/-- The `sizeof(read_buf)` bytes of a line. -/
def BUF_SIZE : ℕ := 1024

/-- `SPELLING_INFO` of a character that has nodes: the bytes of each node. -/
structure SpellingInfo where
  spelling_num : ℤ
  spelling_vec : ℕ → List UInt8

/-- `spelling_table`: `none` for a character without nodes. -/
abbrev Table : Type := ℕ → Option SpellingInfo

/-- `spelling_vec[slot]` gets these bytes. -/
def copy (info : SpellingInfo) (slot : ℤ) (spelling : List UInt8) : Option SpellingInfo :=
  if slot < MAX_SPELLING_NUM ∧ (spelling.length : ℤ) ≤ MAX_SPELLING_LEN then
    some { info with spelling_vec := update info.spelling_vec slot.toNat spelling }
  else none

/-- `insert(gbk_idx, spelling_beg, spelling_len)`; `nodes` says for which characters
    `q_new_array` gives nodes. -/
def insert (nodes : ℕ → Bool) (t : Table) (gbk_idx : ℕ) (read_buf : Memory) (spelling_beg : ℕ)
    (spelling_len : ℤ) : Option (ℤ × Table) :=
  if spelling_len ≤ 0 then some (-1, t)
  else if MAX_GBK_COUNT ≤ gbk_idx then none
  else
    let spelling := read_buf.read spelling_beg spelling_len.toNat
    match t gbk_idx with
    | none =>
      if nodes gbk_idx then
        (copy ⟨1, fun _ => []⟩ 0 spelling).map fun info => (0, update t gbk_idx (some info))
      else some (-2, t)
    | some info =>
      if info.spelling_num + 1 ≥ MAX_SPELLING_NUM then some (-3, t)
      else
        (copy { info with spelling_num := info.spelling_num + 1 } (info.spelling_num + 1) spelling).map
          fun info => (0, update t gbk_idx (some info))

/-- The string at a place of `read_buf`; `none` if it does not end there. -/
def stringAt (read_buf : Memory) (p : ℕ) : Option (List UInt8) :=
  if 0 ∈ read_buf.read p (BUF_SIZE - p) then some ((read_buf.read p (BUF_SIZE - p)).takeWhile (· ≠ 0)) else none

/-- `'\t'`, `'\n'`, `'\r'` or `' '`. -/
def IsBlank (c : UInt8) : Bool := c == 9 || c == 10 || c == 13 || c == 32

/-- `q_right_trim(read_buf, strlen(read_buf))`. -/
def q_right_trim (read_buf : Memory) (str : List UInt8) : ℕ × Memory :=
  match str with
  | [] => (0, read_buf)
  | str => ((str.rdropWhile IsBlank).length, update read_buf (str.rdropWhile IsBlank).length 0)

/-- What `strchr(.., ' ')` finds, called again and again: the pieces of a string that
    are in front of a blank, and the last one. -/
def pieces : List UInt8 → List (List UInt8) × List UInt8
  | [] => ([], [])
  | c :: s =>
    if c = 32 then ([] :: (pieces s).1, (pieces s).2)
    else
      match (pieces s).1 with
      | [] => ([], c :: (pieces s).2)
      | piece :: rest => ((c :: piece) :: rest, (pieces s).2)

/-- `while((blank=strchr(spelling_beg, ' ')))`: 0 or -3, and where the last piece
    begins. -/
def loop (nodes : ℕ → Bool) (gbk_idx : ℕ) (read_buf : Memory) :
    Table → ℕ → List (List UInt8) → Option (ℤ × Table × ℕ)
  | t, spelling_beg, [] => some (0, t, spelling_beg)
  | t, spelling_beg, piece :: rest =>
    let spelling_len : ℤ := piece.length
    let next := spelling_beg + piece.length + 1
    if spelling_len ≤ 0 ∨ spelling_len > MAX_SPELLING_LEN then loop nodes gbk_idx read_buf t next rest
    else
      (insert nodes t gbk_idx read_buf spelling_beg spelling_len).bind fun r =>
        if r.1 ≠ 0 then some (-3, r.2, spelling_beg) else loop nodes gbk_idx read_buf r.2 next rest

/-- `*(uint16_t*)`. -/
def gbk (c d : UInt8) : ℕ := c.toNat + 256 * d.toNat

/-- The spellings of a line of `read_buf_len` bytes: 0, or what `init` returns. -/
def readSpellings (nodes : ℕ → Bool) (t : Table) (read_buf : Memory) (read_buf_len : ℤ) : Option (ℤ × Table) :=
  let gbk_idx := gbk (read_buf 0) (read_buf 1)
  (stringAt read_buf 2).bind fun rest =>
    (loop nodes gbk_idx read_buf t 2 (pieces rest).1).bind fun r =>
      if r.1 ≠ 0 then some (r.1, r.2.1)
      else
        (insert nodes r.2.1 gbk_idx read_buf r.2.2 (read_buf_len - r.2.2)).map fun r =>
          (if r.1 ≠ 0 then -4 else 0, r.2)

/-- One round of the loop of `init`, behind `fgets`. -/
def readLine (nodes : ℕ → Bool) (t : Table) (read_buf : Memory) : Option (ℤ × Table × Memory) :=
  (stringAt read_buf 0).bind fun str =>
    let read_buf_len := (q_right_trim read_buf str).1
    let read_buf := (q_right_trim read_buf str).2
    if read_buf_len ≤ 0 then some (0, t, read_buf)
    else (readSpellings nodes t read_buf read_buf_len).map fun r => (r.1, r.2, read_buf)

/-- The lines that `fgets` reads from a file into a buffer of `n + 1` bytes. -/
def fgets (n : ℕ) (line : List UInt8) : List UInt8 → List (List UInt8)
  | [] => if line = [] then [] else [line]
  | c :: file =>
    if c = 10 ∨ line.length + 1 = n then (line ++ [c]) :: fgets n [] file
    else fgets n (line ++ [c]) file

/-- The loop of `init` over the lines. -/
def readLines (nodes : ℕ → Bool) : Table → Memory → List (List UInt8) → Option (ℤ × Table)
  | t, _, [] => some (0, t)
  | t, read_buf, line :: lines =>
    (readLine nodes t (read_buf.write 0 (line ++ [0]))).bind fun r =>
      if r.1 ≠ 0 then some (r.1, r.2.1) else readLines nodes r.2.1 r.2.2 lines

/-- `init(cfg_file)`: whether there is a name, memory for the table, and a file. -/
def init (named table : Bool) (nodes : ℕ → Bool) (file : Option (List UInt8)) : Option (ℤ × Option Table) :=
  if !named then some (-1, none)
  else if !table then some (-2, none)
  else
    match file with
    | none => some (-3, some fun _ => none)
    | some file =>
      (readLines nodes (fun _ => none) (fun _ => 0) (fgets (BUF_SIZE - 1) [] file)).map fun r => (r.1, some r.2)

/-! ## §2. The spelling of a text (qchinesespelling.h:130). -/

/-- Bytes are put behind those of `dest`. -/
def put (dest_size : ℤ) (dest bytes : List UInt8) : Option (List UInt8) :=
  if (dest.length : ℤ) + bytes.length ≤ dest_size then some (dest ++ bytes) else none

/-- What a character is spelled as. -/
def spelled (t : Table) (c d : UInt8) : List UInt8 :=
  match t (gbk c d) with
  | none => [c, d]
  | some info => info.spelling_vec 0

attribute [local irreducible] int32 in
/-- The loops of `to_spelling`: the inner one, over the bytes that are no characters
    of two bytes, goes on as the outer one would. -/
def spell (t : Table) (dest_size : ℤ) : List UInt8 → List UInt8 → Option (ℤ × List UInt8)
  | dest, [] => (put dest_size dest [0]).map fun result => (dest.length, result)
  | dest, c :: src =>
    if 128 ≤ c.toNat then
      (int32 (dest.length + MAX_SPELLING_LEN)).bind fun stop =>
        if stop ≥ dest_size then some (-2, dest)
        else
          match src with
          | [] => none
          | d :: src =>
            if MAX_GBK_COUNT ≤ gbk c d then none
            else (put dest_size dest (spelled t c d)).bind fun dest => spell t dest_size dest src
    else
      (int32 (dest.length + 2)).bind fun stop =>
        if stop ≥ dest_size then some (-3, dest)
        else (put dest_size dest [c]).bind fun dest => spell t dest_size dest src

/-- `to_spelling(src, src_len, dest, dest_size)`: what it returns and what it put
    into `dest`, which is NULL or has `dest_size` bytes. -/
def to_spelling (t : Table) (src : Option (List UInt8)) (dest : Bool) (dest_size : ℤ) :
    Option (ℤ × List UInt8) :=
  match src with
  | none => some (-1, [])
  | some src => if src.length ≤ 0 ∨ dest = false ∨ dest_size ≤ 0 then some (-1, []) else spell t dest_size [] src

/-! ## §3. Which files and texts stay inside. -/

/-- What `init` sees of a line. -/
def shown (line : List UInt8) : List UInt8 := (line.takeWhile (· ≠ 0)).rdropWhile IsBlank

/-- How many spellings a character has. -/
def count (t : Table) (gbk_idx : ℕ) : ℤ :=
  match t gbk_idx with
  | none => 0
  | some info => info.spelling_num

/-- The pieces that are neither too short nor too long. -/
def spellings (l : List (List UInt8)) : ℤ := (l.countP fun piece => 0 < piece.length ∧ piece.length ≤ 8 : ℕ)

/-- The last spelling of a line is not too long, or it is not copied, since there are
    enough spellings or no nodes for them. -/
def LastKeeps (nodes : ℕ → Bool) (t : Table) (gbk_idx : ℕ) (s : List UInt8) : Prop :=
  ((pieces s).2.length : ℤ) ≤ MAX_SPELLING_LEN ∨
    MAX_SPELLING_NUM ≤ count t gbk_idx + spellings (pieces s).1 + 1 ∨
    (count t gbk_idx = 0 ∧ nodes gbk_idx = false)

/-- A line without spellings; or its character has a place in the table, and its
    last spelling a place in its slot. -/
def LineKeeps (nodes : ℕ → Bool) (t : Table) : List UInt8 → Prop
  | c :: d :: e :: s => gbk c d < MAX_GBK_COUNT ∧ LastKeeps nodes t (gbk c d) (e :: s)
  | _ => True

/-- Every line of a file does, up to the one that `init` refuses. -/
def FileKeeps (nodes : ℕ → Bool) : Table → Memory → List (List UInt8) → Prop
  | _, _, [] => True
  | t, read_buf, line :: lines =>
    LineKeeps nodes t (shown line) ∧ ∀ t' read_buf',
      readLine nodes t (read_buf.write 0 (line ++ [0])) = some (0, t', read_buf') →
        FileKeeps nodes t' read_buf' lines

/-- The characters of a text, of one or two bytes. -/
def characters : List UInt8 → List (List UInt8)
  | [] => []
  | c :: src =>
    if 128 ≤ c.toNat then
      match src with
      | [] => [[c]]
      | d :: src => [c, d] :: characters src
    else [c] :: characters src

/-- A character of one byte, or one of two bytes with a place in the table. -/
def Whole : List UInt8 → Prop
  | [c] => c.toNat < 128
  | [c, d] => gbk c d < MAX_GBK_COUNT
  | _ => False

/-- The room that is asked for in front of a character. -/
def roomFor : List UInt8 → ℤ
  | c :: _ => if 128 ≤ c.toNat then MAX_SPELLING_LEN else 2
  | [] => 0

/-- How many bytes a character is spelled with. -/
def spelledLength (t : Table) : List UInt8 → ℤ
  | [c, d] => (spelled t c d).length
  | _ => 1

/-- Every character of a text that is reached, behind `j` bytes of the result, is
    whole, and the room asked for is an `int32_t`. -/
def TextKeeps (t : Table) (dest_size : ℤ) : ℤ → List (List UInt8) → Prop
  | _, [] => True
  | j, character :: rest =>
    j + roomFor character ≤ INT32_MAX ∧
      (j + roomFor character < dest_size →
        Whole character ∧ TextKeeps t dest_size (j + spelledLength t character) rest)

/-! ## §4. The table. -/

section Lines

variable {nodes : ℕ → Bool} {t : Table} {gbk_idx beg : ℕ} {read_buf : Memory} {len : ℤ}

/-- **THE INVARIANT**: a character with nodes has a spelling, and none is too long. -/
def Sound (t : Table) : Prop :=
  ∀ i info, t i = some info → 1 ≤ info.spelling_num ∧
    ∀ slot, ((info.spelling_vec slot).length : ℤ) ≤ MAX_SPELLING_LEN

/-- A spelling more is refused. -/
def Refuses (nodes : ℕ → Bool) (t : Table) (gbk_idx : ℕ) : Prop :=
  MAX_SPELLING_NUM ≤ count t gbk_idx + 1 ∨ (count t gbk_idx = 0 ∧ nodes gbk_idx = false)

theorem Sound.count_nonneg (h : Sound t) (gbk_idx : ℕ) : 0 ≤ count t gbk_idx := by
  unfold count
  cases hinfo : t gbk_idx with
  | none => exact le_refl 0
  | some info =>
    have hnum := (h gbk_idx info hinfo).1
    show 0 ≤ info.spelling_num
    omega

/-- A table with a spelling more. -/
theorem Sound.update (h : Sound t) (info : SpellingInfo) {n : ℤ} (slot : ℤ) {spelling : List UInt8} (hn : 1 ≤ n)
    (hslots : ∀ slot, ((info.spelling_vec slot).length : ℤ) ≤ MAX_SPELLING_LEN)
    (hlen : (spelling.length : ℤ) ≤ MAX_SPELLING_LEN) :
    Sound (update t gbk_idx (some ⟨n, update info.spelling_vec slot.toNat spelling⟩)) := by
  intro i info' hinfo'
  by_cases hi : i = gbk_idx
  · rw [hi, update_self] at hinfo'
    cases hinfo'
    refine ⟨hn, fun k => ?_⟩
    dsimp only
    by_cases hk : k = slot.toNat
    · rw [hk, update_self]
      exact hlen
    · rw [update_of_ne hk]
      exact hslots k
  · rw [update_of_ne hi] at hinfo'
    exact h i info' hinfo'

/-- **WHAT `insert` DOES** in the table: it refuses, or it copies a spelling that is
    not too long. -/
theorem insert_spec (nodes : ℕ → Bool) (read_buf : Memory) (beg : ℕ) (hsound : Sound t)
    (hidx : gbk_idx < MAX_GBK_COUNT) (hpos : 0 < len) :
    (Refuses nodes t gbk_idx ∧ ∃ e, e ≠ 0 ∧ insert nodes t gbk_idx read_buf beg len = some (e, t)) ∨
      (¬ Refuses nodes t gbk_idx ∧ MAX_SPELLING_LEN < len ∧ insert nodes t gbk_idx read_buf beg len = none) ∨
      (¬ Refuses nodes t gbk_idx ∧ len ≤ MAX_SPELLING_LEN ∧ ∃ t',
        insert nodes t gbk_idx read_buf beg len = some (0, t') ∧ Sound t' ∧
          count t' gbk_idx = count t gbk_idx + 1) := by
  have hread : ((read_buf.read beg len.toNat).length : ℤ) = len := by
    rw [Memory.length_read]
    omega
  unfold insert Refuses
  rw [if_neg (by omega), if_neg (by omega)]
  cases hinfo : t gbk_idx with
  | none =>
    have hcount : count t gbk_idx = 0 := by
      unfold count
      rw [hinfo]
    rw [hcount]
    dsimp only
    cases hnodes : nodes gbk_idx with
    | false => exact Or.inl ⟨Or.inr ⟨rfl, rfl⟩, -2, by decide, rfl⟩
    | true =>
      have hnot : ¬ (MAX_SPELLING_NUM ≤ 0 + 1 ∨ ((0 : ℤ) = 0 ∧ true = false)) := by decide
      rw [if_pos rfl]
      unfold copy
      by_cases hlen : len ≤ MAX_SPELLING_LEN
      · rw [if_pos ⟨by decide, by rw [hread]; exact hlen⟩, map_some]
        refine Or.inr (Or.inr ⟨hnot, hlen, _, rfl, ?_, ?_⟩)
        · exact hsound.update ⟨1, fun _ => []⟩ 0 (le_refl 1) (fun _ => by show (0 : ℤ) ≤ 8; decide)
            (by rw [hread]; exact hlen)
        · unfold count
          rw [update_self]
          rfl
      · rw [if_neg (fun hand => hlen (by rw [← hread]; exact hand.2))]
        exact Or.inr (Or.inl ⟨hnot, not_le.mp hlen, rfl⟩)
  | some info =>
    obtain ⟨hnum, hslots⟩ := hsound gbk_idx info hinfo
    have hcount : count t gbk_idx = info.spelling_num := by
      unfold count
      rw [hinfo]
    rw [hcount]
    dsimp only
    by_cases hfull : info.spelling_num + 1 ≥ MAX_SPELLING_NUM
    · rw [if_pos hfull]
      exact Or.inl ⟨Or.inl hfull, -3, by decide, rfl⟩
    have hnot : ¬ (MAX_SPELLING_NUM ≤ info.spelling_num + 1 ∨
        (info.spelling_num = 0 ∧ nodes gbk_idx = false)) := by omega
    rw [if_neg hfull]
    unfold copy
    by_cases hlen : len ≤ MAX_SPELLING_LEN
    · rw [if_pos ⟨by omega, by rw [hread]; exact hlen⟩, map_some]
      refine Or.inr (Or.inr ⟨hnot, hlen, _, rfl, ?_, ?_⟩)
      · exact hsound.update info (info.spelling_num + 1)
          (by show 1 ≤ info.spelling_num + 1; omega) hslots
          (by rw [hread]; exact hlen)
      · unfold count
        rw [update_self]
    · rw [if_neg (fun hand => hlen (by rw [← hread]; exact hand.2))]
      exact Or.inr (Or.inl ⟨hnot, not_le.mp hlen, rfl⟩)

/-- How far the pieces reach, with the blank behind each. -/
def reach (l : List (List UInt8)) : ℕ := (l.map fun piece => piece.length + 1).sum

theorem spellings_cons (piece : List UInt8) (l : List (List UInt8)) :
    spellings (piece :: l) = spellings l + if 0 < piece.length ∧ piece.length ≤ 8 then 1 else 0 := by
  unfold spellings
  rw [countP_cons]
  push_cast
  simp only [decide_eq_true_eq]

theorem spellings_nonneg (l : List (List UInt8)) : 0 ≤ spellings l := Int.natCast_nonneg _

/-- **WHAT THE PIECES OF A LINE DO** in the table: all spellings are copied, or one is
    refused. -/
theorem loop_spec (nodes : ℕ → Bool) (read_buf : Memory) (hidx : gbk_idx < MAX_GBK_COUNT)
    (l : List (List UInt8)) : ∀ (t : Table) (beg : ℕ), Sound t →
    ∃ code t' beg', loop nodes gbk_idx read_buf t beg l = some (code, t', beg') ∧ Sound t' ∧
      ((code = 0 ∧ count t' gbk_idx = count t gbk_idx + spellings l ∧ beg' = beg + reach l ∧
          (0 < spellings l → ¬ (count t gbk_idx = 0 ∧ nodes gbk_idx = false))) ∨
        (code ≠ 0 ∧ (MAX_SPELLING_NUM ≤ count t gbk_idx + spellings l ∨
          (count t gbk_idx = 0 ∧ nodes gbk_idx = false)))) := by
  induction l with
  | nil =>
    intro t beg hsound
    refine ⟨0, t, beg, rfl, hsound, Or.inl ⟨rfl, (Int.add_zero _).symm, rfl, fun hpos => ?_⟩⟩
    exact absurd hpos (by decide)
  | cons piece rest ih =>
    intro t beg hsound
    have hmax : MAX_SPELLING_LEN = 8 := rfl
    have hreach : reach (piece :: rest) = piece.length + 1 + reach rest := by
      unfold reach
      rw [map_cons, sum_cons]
    have hrest := spellings_nonneg rest
    have hcount := hsound.count_nonneg gbk_idx
    rw [spellings_cons]
    unfold loop
    by_cases hskip : (piece.length : ℤ) ≤ 0 ∨ (piece.length : ℤ) > MAX_SPELLING_LEN
    · rw [if_pos hskip, if_neg (by omega), Int.add_zero]
      obtain ⟨code, t', beg', hloop, hsound', hcase⟩ := ih t (beg + piece.length + 1) hsound
      refine ⟨code, t', beg', hloop, hsound', ?_⟩
      rcases hcase with ⟨hcode, hnext, hbeg, hnodes⟩ | hbad
      · exact Or.inl ⟨hcode, hnext, by omega, hnodes⟩
      · exact Or.inr hbad
    rw [if_neg hskip, if_pos (by omega)]
    rcases insert_spec nodes read_buf beg hsound hidx
      (by omega : (0 : ℤ) < piece.length) with ⟨hrefuses, e, he, hinsert⟩ | ⟨-, hlong, -⟩ |
        ⟨haccepts, -, t₁, hinsert, hsound₁, hcount₁⟩
    · rw [hinsert, bind_some, if_pos he]
      refine ⟨-3, t, beg, rfl, hsound, Or.inr ⟨by decide, ?_⟩⟩
      rcases hrefuses with hfull | hnone
      · exact Or.inl (by omega)
      · exact Or.inr hnone
    · omega
    · rw [hinsert, bind_some, if_neg (fun h => h rfl)]
      obtain ⟨code, t', beg', hloop, hsound', hcase⟩ := ih t₁ (beg + piece.length + 1) hsound₁
      refine ⟨code, t', beg', hloop, hsound', ?_⟩
      rcases hcase with ⟨hcode, hnext, hbeg, -⟩ | ⟨hcode, hwhy⟩
      · exact Or.inl ⟨hcode, by omega, by omega, fun _ hnone => haccepts (Or.inr hnone)⟩
      refine Or.inr ⟨hcode, Or.inl ?_⟩
      rcases hwhy with hfull | ⟨hzero, -⟩
      · omega
      · omega

/-- Outside the table no spelling can be copied. -/
theorem loop_outside (nodes : ℕ → Bool) (read_buf : Memory) (hidx : MAX_GBK_COUNT ≤ gbk_idx)
    (l : List (List UInt8)) : ∀ (t : Table) (beg : ℕ), loop nodes gbk_idx read_buf t beg l = none ∨
      loop nodes gbk_idx read_buf t beg l = some (0, t, beg + reach l) := by
  induction l with
  | nil => exact fun t beg => Or.inr rfl
  | cons piece rest ih =>
    intro t beg
    unfold loop
    by_cases hskip : (piece.length : ℤ) ≤ 0 ∨ (piece.length : ℤ) > MAX_SPELLING_LEN
    · rw [if_pos hskip]
      have hreach : beg + piece.length + 1 + reach rest = beg + reach (piece :: rest) := by
        unfold reach
        rw [map_cons, sum_cons]
        omega
      rw [← hreach]
      exact ih t (beg + piece.length + 1)
    · rw [if_neg hskip]
      unfold insert
      rw [if_neg (by omega), if_pos hidx]
      exact Or.inl rfl

/-- All of a string is in its pieces and the blanks behind them. -/
theorem reach_pieces (s : List UInt8) : reach (pieces s).1 + (pieces s).2.length = s.length := by
  induction s with
  | nil => rfl
  | cons c s ih =>
    unfold pieces
    split
    · show reach ([] :: (pieces s).1) + (pieces s).2.length = s.length + 1
      unfold reach at ih ⊢
      rw [map_cons, sum_cons, length_nil]
      omega
    cases hp : (pieces s).1 with
    | nil =>
      rw [hp] at ih
      show 0 + ((pieces s).2.length + 1) = s.length + 1
      have hzero : reach [] = 0 := rfl
      omega
    | cons piece rest =>
      rw [hp] at ih
      show reach ((c :: piece) :: rest) + (pieces s).2.length = s.length + 1
      unfold reach at ih ⊢
      rw [map_cons, sum_cons] at ih ⊢
      rw [length_cons]
      omega

/-- A string that does not end in a blank has a last piece. -/
theorem last_piece_pos (s : List UInt8) (hne : s ≠ []) (hlast : s.getLast hne ≠ 32) : 0 < (pieces s).2.length := by
  induction s with
  | nil => exact absurd rfl hne
  | cons c s ih =>
    cases s with
    | nil =>
      have hc : c ≠ 32 := hlast
      unfold pieces
      rw [if_neg hc]
      exact Nat.zero_lt_one
    | cons d s =>
      have hrest := ih (cons_ne_nil d s) (by rw [getLast_cons] at hlast; exact hlast)
      unfold pieces
      split
      · exact hrest
      · cases (pieces (d :: s)).1 with
        | nil => exact Nat.succ_pos _
        | cons piece rest => exact hrest

/-! ## §5. A line. -/

theorem read_one (p : ℕ) : read_buf.read p 1 = [read_buf p] := rfl

/-- The string at a place of `read_buf` where a NUL ends it. -/
theorem stringAt_of_read {p : ℕ} {s : List UInt8} (hread : read_buf.read p s.length = s)
    (hnul : read_buf (p + s.length) = 0) (hin : p + s.length < BUF_SIZE) (hno : ∀ c ∈ s, c ≠ 0) :
    stringAt read_buf p = some s := by
  obtain ⟨k, hsize⟩ : ∃ k, BUF_SIZE - p = s.length + (1 + k) := ⟨BUF_SIZE - p - s.length - 1, by omega⟩
  have hall : ∃ r, read_buf.read p (BUF_SIZE - p) = s ++ 0 :: r := by
    refine ⟨read_buf.read (p + s.length + 1) k, ?_⟩
    rw [hsize, Memory.read_add, Memory.read_add, hread, read_one, hnul]
    rfl
  obtain ⟨r, hr⟩ := hall
  have hwhile : s.takeWhile (· ≠ 0) = s := takeWhile_eq_self_iff.mpr fun c hc => decide_eq_true (hno c hc)
  unfold stringAt
  rw [hr, if_pos (mem_append_right s mem_cons_self), takeWhile_append, hwhile, if_pos rfl,
    takeWhile_cons_of_neg (by decide), append_nil]

theorem stringAt_isSome (hlast : read_buf (BUF_SIZE - 1) = 0) {p : ℕ} (hp : p < BUF_SIZE) :
    ∃ s, stringAt read_buf p = some s := by
  have hmem : 0 ∈ read_buf.read p (BUF_SIZE - p) := by
    refine mem_map.mpr ⟨BUF_SIZE - 1 - p, mem_range.mpr (by omega), ?_⟩
    rw [show p + (BUF_SIZE - 1 - p) = BUF_SIZE - 1 by omega]
    exact hlast
  unfold stringAt
  rw [if_pos hmem]
  exact ⟨_, rfl⟩

theorem exists_cut (line : List UInt8) : ∃ r, line ++ [0] = line.takeWhile (· ≠ 0) ++ 0 :: r := by
  induction line with
  | nil => exact ⟨[], rfl⟩
  | cons c line ih =>
    obtain ⟨r, hr⟩ := ih
    by_cases hc : c = 0
    · rw [takeWhile_cons_of_neg (by rw [hc]; decide), hc]
      exact ⟨line ++ [0], rfl⟩
    · rw [takeWhile_cons_of_pos (p := fun c => decide (c ≠ 0)) (decide_eq_true hc), cons_append, hr]
      exact ⟨r, rfl⟩

variable {line str : List UInt8}

/-- What `fgets` leaves in `read_buf`. -/
theorem fgets_spec (hlast : read_buf (BUF_SIZE - 1) = 0) (hline : line.length < BUF_SIZE) :
    (read_buf.write 0 (line ++ [0])) (BUF_SIZE - 1) = 0 ∧
      stringAt (read_buf.write 0 (line ++ [0])) 0 = some (line.takeWhile (· ≠ 0)) ∧
      (read_buf.write 0 (line ++ [0])).read 0 (line.takeWhile (· ≠ 0)).length = line.takeWhile (· ≠ 0) ∧
      (line.takeWhile (· ≠ 0)).length < BUF_SIZE := by
  have hle := (List.takeWhile_prefix (l := line) (fun c => decide (c ≠ 0))).length_le
  have hself := Memory.read_write_self read_buf 0 (line ++ [0])
  obtain ⟨r, hr⟩ := exists_cut line
  have hread : (read_buf.write 0 (line ++ [0])).read 0 (line.takeWhile (· ≠ 0) ++ 0 :: r).length =
      line.takeWhile (· ≠ 0) ++ 0 :: r := by
    rw [← hr]
    exact hself
  obtain ⟨hfront, hrest⟩ := Memory.read_eq_append hread
  have hnul : (read_buf.write 0 (line ++ [0])) (0 + (line.takeWhile (· ≠ 0)).length) = 0 := by
    rw [length_cons, Nat.add_comm r.length 1, Memory.read_add, read_one] at hrest
    exact (List.cons.inj hrest).1
  refine ⟨?_, ?_, hfront, by omega⟩
  · unfold Memory.write
    split
    next hin =>
      rw [length_append, length_singleton] at hin
      rw [getD_append_right _ _ _ _ (by omega), show BUF_SIZE - 1 - 0 - line.length = 0 by omega]
      rfl
    next => exact hlast
  · refine stringAt_of_read hfront hnul (by omega) fun c hc => ?_
    exact of_decide_eq_true (mem_takeWhile_imp (p := fun c => decide (c ≠ 0)) hc)

/-- What `q_right_trim` leaves in it. -/
theorem q_right_trim_spec (hlast : read_buf (BUF_SIZE - 1) = 0) (hread : read_buf.read 0 str.length = str) :
    (q_right_trim read_buf str).1 = (str.rdropWhile IsBlank).length ∧
      (q_right_trim read_buf str).2 (BUF_SIZE - 1) = 0 ∧
      (str.rdropWhile IsBlank ≠ [] →
        (q_right_trim read_buf str).2.read 0 (str.rdropWhile IsBlank).length = str.rdropWhile IsBlank ∧
        (q_right_trim read_buf str).2 (str.rdropWhile IsBlank).length = 0) := by
  cases str with
  | nil => exact ⟨rfl, hlast, fun hne => absurd rfl hne⟩
  | cons c s =>
    obtain ⟨w, hw⟩ := rdropWhile_prefix IsBlank (c :: s)
    have hfront := (Memory.read_eq_append (a := (c :: s).rdropWhile IsBlank) (b := w)
      (by rw [hw]; exact hread)).1
    refine ⟨rfl, ?_, fun _ => ⟨?_, ?_⟩⟩
    · show update read_buf _ 0 (BUF_SIZE - 1) = 0
      by_cases hpos : BUF_SIZE - 1 = ((c :: s).rdropWhile IsBlank).length
      · rw [hpos, update_self]
      · rw [update_of_ne hpos]
        exact hlast
    · show Memory.read (update read_buf _ 0) 0 _ = _
      rw [← hfront, Memory.length_read]
      apply Memory.read_congr
      intro i hi
      exact update_of_ne (by omega) _ _
    · exact update_self _ _ _

/-- **THE SPELLINGS OF A LINE** stay inside the table and its slots exactly when it
    meets `LineKeeps`. -/
theorem readSpellings_spec (nodes : ℕ → Bool) (hsound : Sound t) (hlast : read_buf (BUF_SIZE - 1) = 0)
    (hread : read_buf.read 0 str.length = str) (hnul : read_buf str.length = 0)
    (hin : str.length < BUF_SIZE) (hno : ∀ c ∈ str, c ≠ 0) (hne : str ≠ []) (hblank : str.getLast hne ≠ 32) :
    (LineKeeps nodes t str ∧ ∃ code t', readSpellings nodes t read_buf str.length = some (code, t') ∧ Sound t') ∨
      (¬ LineKeeps nodes t str ∧ readSpellings nodes t read_buf str.length = none) := by
  unfold readSpellings
  rcases str with _ | ⟨c, _ | ⟨d, _ | ⟨e, s⟩⟩⟩
  · exact absurd rfl hne
  · -- what stands behind the NUL is read, but nothing of it is the last spelling
    left
    have hnul' : read_buf 1 = 0 := hnul
    have hidx : gbk (read_buf 0) (read_buf 1) < MAX_GBK_COUNT := by
      have hbyte := (read_buf 0).toNat_lt
      rw [hnul']
      unfold gbk MAX_GBK_COUNT
      rw [show (0 : UInt8).toNat = 0 from rfl]
      omega
    obtain ⟨rest, hrest⟩ := stringAt_isSome hlast (p := 2) (by decide)
    obtain ⟨code, t', beg', hloop, hsound', hcase⟩ := loop_spec nodes read_buf hidx
      (pieces rest).1 t 2 hsound
    rw [hrest, bind_some, hloop, bind_some]
    refine ⟨trivial, ?_⟩
    rcases hcase with ⟨hcode, -, hbeg, -⟩ | ⟨hcode, -⟩
    · rw [if_neg (fun h => h hcode)]
      unfold insert
      rw [if_pos (by rw [hbeg]; show ((1 : ℕ) : ℤ) - ((2 + reach (pieces rest).1 : ℕ) : ℤ) ≤ 0; omega)]
      exact ⟨_, t', rfl, hsound'⟩
    · rw [if_pos hcode]
      exact ⟨_, t', rfl, hsound'⟩
  · left
    have hrest : stringAt read_buf 2 = some [] :=
      stringAt_of_read rfl hnul (by decide) fun _ hc => absurd hc not_mem_nil
    rw [hrest]
    exact ⟨trivial, -4, t, rfl, hsound⟩
  · have hlen : (c :: d :: e :: s).length = 2 + (e :: s).length := Nat.add_comm _ 2
    have hall : read_buf.read 0 ([c, d] ++ e :: s).length = [c, d] ++ e :: s := hread
    obtain ⟨htwo, hbehind⟩ := Memory.read_eq_append hall
    obtain ⟨h0, hone⟩ := List.cons.inj htwo
    have h1 := (List.cons.inj hone).1
    have hc : read_buf 0 = c := h0
    have hd : read_buf 1 = d := h1
    have hrest : stringAt read_buf 2 = some (e :: s) := by
      refine stringAt_of_read hbehind ?_ (by omega) fun x hx =>
        hno x (mem_cons_of_mem c (mem_cons_of_mem d hx))
      rw [← hlen]
      exact hnul
    have hpiece := last_piece_pos (e :: s) (cons_ne_nil e s) hblank
    have hreach := reach_pieces (e :: s)
    rw [hrest, hc, hd, bind_some]
    unfold LineKeeps LastKeeps
    dsimp only
    have hleft : ∀ beg', beg' = 2 + reach (pieces (e :: s)).1 →
        (((c :: d :: e :: s).length : ℕ) : ℤ) - (beg' : ℤ) = ((pieces (e :: s)).2.length : ℤ) := by
      intro beg' hbeg
      omega
    by_cases hidx : gbk c d < MAX_GBK_COUNT
    · obtain ⟨code, t', beg', hloop, hsound', hcase⟩ := loop_spec nodes read_buf hidx
        (pieces (e :: s)).1 t 2 hsound
      rw [hloop, bind_some]
      have hspellings := spellings_nonneg (pieces (e :: s)).1
      have hcount := hsound.count_nonneg (gbk c d)
      rcases hcase with ⟨hcode, hnext, hbeg, hnodes⟩ | ⟨hcode, hwhy⟩
      · rw [if_neg (fun h => h hcode), hleft beg' hbeg]
        have hagain : Refuses nodes t' (gbk c d) ↔
            MAX_SPELLING_NUM ≤ count t (gbk c d) + spellings (pieces (e :: s)).1 + 1 ∨
              (count t (gbk c d) = 0 ∧ nodes (gbk c d) = false) := by
          unfold Refuses
          rw [hnext]
          refine or_congr_right ⟨fun hzero => ⟨by omega, hzero.2⟩, fun hzero => ⟨?_, hzero.2⟩⟩
          by_contra hmore
          exact hnodes (by omega) hzero
        rw [← hagain]
        rcases insert_spec nodes read_buf beg' hsound' hidx (Int.natCast_pos.mpr hpiece) with
          ⟨hrefuses, e', -, hinsert⟩ | ⟨haccepts, hlong, hinsert⟩ | ⟨-, hshort, t'', hinsert, hsound'', -⟩
        · rw [hinsert]
          exact Or.inl ⟨⟨hidx, Or.inr hrefuses⟩, _, t', rfl, hsound'⟩
        · rw [hinsert]
          exact Or.inr ⟨fun hkeep => hkeep.2.elim (not_le.mpr hlong) haccepts, rfl⟩
        · rw [hinsert]
          exact Or.inl ⟨⟨hidx, Or.inl hshort⟩, _, t'', rfl, hsound''⟩
      · rw [if_pos hcode]
        refine Or.inl ⟨⟨hidx, Or.inr ?_⟩, _, t', rfl, hsound'⟩
        rcases hwhy with hfull | hnone
        · exact Or.inl (by omega)
        · exact Or.inr hnone
    · right
      refine ⟨fun hkeep => hidx hkeep.1, ?_⟩
      rcases loop_outside nodes read_buf (not_lt.mp hidx) (pieces (e :: s)).1 t 2 with
        hloop | hloop
      · rw [hloop]
        rfl
      rw [hloop, bind_some, if_neg (fun h => h rfl), hleft _ rfl]
      unfold insert
      rw [if_neg (by omega), if_pos (not_lt.mp hidx)]
      rfl

/-- **ONE LINE** is read inside the table and its slots exactly when what is shown of
    it meets `LineKeeps`. -/
theorem readLine_spec (nodes : ℕ → Bool) (hsound : Sound t) (hlast : read_buf (BUF_SIZE - 1) = 0)
    (hline : line.length < BUF_SIZE) :
    (LineKeeps nodes t (shown line) ∧ ∃ code t' read_buf',
        readLine nodes t (read_buf.write 0 (line ++ [0])) = some (code, t', read_buf') ∧ Sound t' ∧
          read_buf' (BUF_SIZE - 1) = 0) ∨
      (¬ LineKeeps nodes t (shown line) ∧ readLine nodes t (read_buf.write 0 (line ++ [0])) = none) := by
  obtain ⟨hlast₁, hstr, hread, hlen⟩ := fgets_spec hlast hline
  obtain ⟨htrim, hlast₂, hkept⟩ := q_right_trim_spec hlast₁ hread
  have hcut := rdropWhile_prefix IsBlank (line.takeWhile (· ≠ 0))
  have hle := hcut.length_le
  unfold readLine
  rw [hstr, bind_some]
  rw [htrim]
  by_cases hnil : shown line = []
  · have hzero : ((line.takeWhile (· ≠ 0)).rdropWhile IsBlank).length ≤ 0 := by
      show (shown line).length ≤ 0
      rw [hnil]
      exact Nat.le_refl 0
    rw [if_pos hzero, hnil]
    exact Or.inl ⟨trivial, 0, t, _, rfl, hsound, hlast₂⟩
  obtain ⟨hfront, hnul⟩ := hkept hnil
  have hpos : ¬ ((line.takeWhile (· ≠ 0)).rdropWhile IsBlank).length ≤ 0 := by
    show ¬ (shown line).length ≤ 0
    rw [Nat.le_zero, length_eq_zero_iff]
    exact hnil
  have hlastblank : (shown line).getLast hnil ≠ 32 := by
    intro h32
    have hblank := rdropWhile_last_not IsBlank (line.takeWhile (· ≠ 0)) hnil
    have hsame : ¬ IsBlank ((shown line).getLast hnil) = true := hblank
    rw [h32] at hsame
    exact hsame rfl
  have hno : ∀ c ∈ shown line, c ≠ 0 := fun c hc =>
    of_decide_eq_true (mem_takeWhile_imp (p := fun c => decide (c ≠ 0)) (hcut.mem hc))
  rw [if_neg hpos]
  rcases readSpellings_spec nodes hsound hlast₂ hfront hnul (by omega) hno hnil hlastblank with
    ⟨hkeep, code, t', hspellings, hsound'⟩ | ⟨hkeep, hspellings⟩
  · rw [show readSpellings nodes t _ ((line.takeWhile (· ≠ 0)).rdropWhile IsBlank).length = some (code, t')
      from hspellings]
    exact Or.inl ⟨hkeep, code, t', _, rfl, hsound', hlast₂⟩
  · rw [show readSpellings nodes t _ ((line.takeWhile (· ≠ 0)).rdropWhile IsBlank).length = none
      from hspellings]
    exact Or.inr ⟨hkeep, rfl⟩

end Lines

/-! ## §6. The file. -/

/-- No line that `fgets` reads is longer than it may be. -/
theorem length_le_of_mem_fgets {n : ℕ} (file : List UInt8) : ∀ line : List UInt8, line.length < n →
    ∀ l ∈ fgets n line file, l.length ≤ n := by
  induction file with
  | nil =>
    intro line hline l hl
    unfold fgets at hl
    split at hl
    · exact absurd hl not_mem_nil
    · rw [mem_singleton.mp hl]
      omega
  | cons c file ih =>
    intro line hline l hl
    have hlen : (line ++ [c]).length = line.length + 1 := length_append
    unfold fgets at hl
    split at hl
    next =>
      rcases mem_cons.mp hl with rfl | hl
      · omega
      · exact ih [] (by rw [length_nil]; omega) l hl
    next hmore => exact ih (line ++ [c]) (by omega) l hl

/-- **A FILE** is read inside the table and its slots exactly when its lines are, up to
    the one that is refused. -/
theorem readLines_spec (nodes : ℕ → Bool) (lines : List (List UInt8)) (hlines : ∀ l ∈ lines, l.length < BUF_SIZE) :
    ∀ (t : Table) (read_buf : Memory), Sound t → read_buf (BUF_SIZE - 1) = 0 →
      ((readLines nodes t read_buf lines).isSome = true ↔ FileKeeps nodes t read_buf lines) ∧
        ∀ code t', readLines nodes t read_buf lines = some (code, t') → Sound t' := by
  induction lines with
  | nil =>
    intro t read_buf hsound _
    refine ⟨iff_of_true rfl trivial, fun code t' h => ?_⟩
    cases h
    exact hsound
  | cons line lines ih =>
    intro t read_buf hsound hlast
    have hrest := ih fun l hl => hlines l (mem_cons_of_mem line hl)
    unfold readLines FileKeeps
    rcases readLine_spec nodes hsound hlast (hlines line mem_cons_self) with
      ⟨hkeep, code, t₁, read_buf₁, hread, hsound₁, hlast₁⟩ | ⟨hkeep, hread⟩
    · rw [hread, bind_some]
      by_cases hcode : code = 0
      · obtain ⟨hiff, hkept⟩ := hrest t₁ read_buf₁ hsound₁ hlast₁
        rw [if_neg (fun h => h hcode), hiff]
        refine ⟨⟨fun hfile => ⟨hkeep, fun t' read_buf' heq => ?_⟩, fun hfile => ?_⟩, hkept⟩
        · cases heq
          exact hfile
        · exact hfile.2 t₁ read_buf₁ (by rw [hcode])
      rw [if_pos hcode]
      refine ⟨iff_of_true rfl ⟨hkeep, fun t' read_buf' heq => ?_⟩, fun code' t' heq => ?_⟩
      · cases heq
        exact absurd rfl hcode
      · cases heq
        exact hsound₁
    · rw [hread]
      exact ⟨iff_of_false Bool.false_ne_true fun hand => hkeep hand.1, nofun⟩

/-! ## §7. The text. -/

section Texts

variable {t : Table} {dest_size : ℤ}

theorem length_spelled_le (h : Sound t) (c d : UInt8) : ((spelled t c d).length : ℤ) ≤ MAX_SPELLING_LEN := by
  unfold spelled
  cases hinfo : t (gbk c d) with
  | none =>
    show (2 : ℤ) ≤ 8
    decide
  | some info => exact (h _ info hinfo).2 0

theorem put_of_le {dest bytes : List UInt8} (h : (dest.length : ℤ) + bytes.length ≤ dest_size) :
    put dest_size dest bytes = some (dest ++ bytes) := if_pos h

/-- **A TEXT** is spelled inside the text and the room exactly when it meets
    `TextKeeps`. -/
theorem spell_iff (hsound : Sound t) (hsize : dest_size ≤ INT32_MAX) (src dest : List UInt8)
    (hroom : (dest.length : ℤ) < dest_size) :
    (spell t dest_size dest src).isSome = true ↔ TextKeeps t dest_size dest.length (characters src) := by
  -- a character may be two bytes of the text
  induction hn : src.length using Nat.strong_induction_on generalizing src dest with
  | _ n ih =>
    cases src with
    | nil =>
      unfold spell
      rw [put_of_le (by rw [length_singleton]; omega)]
      exact iff_of_true rfl trivial
    | cons c src =>
      have hlen : MAX_SPELLING_LEN = 8 := rfl
      have hmax : INT32_MAX = 2 ^ 31 - 1 := rfl
      unfold spell characters
      by_cases hhigh : 128 ≤ c.toNat
      · rw [if_pos hhigh, if_pos hhigh]
        by_cases hint : (dest.length : ℤ) + MAX_SPELLING_LEN ≤ INT32_MAX
        · rw [int32_of_range (by omega) (by omega), bind_some]
          cases src with
          | nil =>
            have hneed : roomFor [c] = MAX_SPELLING_LEN := if_pos hhigh
            unfold TextKeeps Whole
            rw [hneed]
            by_cases hstop : (dest.length : ℤ) + MAX_SPELLING_LEN ≥ dest_size
            · rw [if_pos hstop]
              exact iff_of_true rfl ⟨hint, fun hlt => absurd hstop (not_le.mpr hlt)⟩
            · rw [if_neg hstop]
              refine iff_of_false Bool.false_ne_true fun hand => ?_
              omega
          | cons d src =>
            have hneed : roomFor [c, d] = MAX_SPELLING_LEN := if_pos hhigh
            unfold TextKeeps Whole
            rw [hneed]
            dsimp only
            by_cases hstop : (dest.length : ℤ) + MAX_SPELLING_LEN ≥ dest_size
            · rw [if_pos hstop]
              exact iff_of_true rfl ⟨hint, fun hlt => absurd hstop (not_le.mpr hlt)⟩
            rw [if_neg hstop]
            by_cases hidx : MAX_GBK_COUNT ≤ gbk c d
            · rw [if_pos hidx]
              exact iff_of_false Bool.false_ne_true fun hand =>
                absurd (hand.2 (not_le.mp hstop)).1 (not_lt.mpr hidx)
            have hspelled := length_spelled_le hsound c d
            have hsum : ((dest ++ spelled t c d).length : ℤ) = dest.length + spelledLength t [c, d] := by
              rw [length_append]
              exact Nat.cast_add _ _
            have hsame : spelledLength t [c, d] = (spelled t c d).length := rfl
            have hrest := ih src.length (by rw [← hn, length_cons, length_cons]; omega) src
                (dest ++ spelled t c d) (by omega) rfl
            rw [if_neg hidx, put_of_le (by omega), bind_some, hrest, hsum]
            exact ⟨fun hmore => ⟨hint, fun _ => ⟨not_le.mp hidx, hmore⟩⟩,
              fun hand => (hand.2 (not_le.mp hstop)).2⟩
        · rw [int32_of_gt (not_le.mp hint)]
          refine iff_of_false Bool.false_ne_true fun hand => hint ?_
          cases src with
          | nil =>
            have hneed : roomFor [c] = MAX_SPELLING_LEN := if_pos hhigh
            rw [← hneed]
            exact hand.1
          | cons d src =>
            have hneed : roomFor [c, d] = MAX_SPELLING_LEN := if_pos hhigh
            rw [← hneed]
            exact hand.1
      · have hneed : roomFor [c] = 2 := if_neg hhigh
        rw [if_neg hhigh, if_neg hhigh]
        unfold TextKeeps Whole
        rw [hneed]
        by_cases hint : (dest.length : ℤ) + 2 ≤ INT32_MAX
        · rw [int32_of_range (by omega) (by omega), bind_some]
          by_cases hstop : (dest.length : ℤ) + 2 ≥ dest_size
          · rw [if_pos hstop]
            exact iff_of_true rfl ⟨hint, fun hlt => absurd hstop (not_le.mpr hlt)⟩
          have hsum : ((dest ++ [c]).length : ℤ) = dest.length + spelledLength t [c] := by
            rw [length_append]
            exact Nat.cast_add _ _
          have hsame : spelledLength t [c] = 1 := rfl
          have hrest := ih src.length (by rw [← hn, length_cons]; omega) src (dest ++ [c]) (by omega) rfl
          rw [if_neg hstop, put_of_le (by rw [length_singleton]; omega), bind_some, hrest, hsum]
          exact ⟨fun hmore => ⟨hint, fun _ => ⟨not_le.mp hhigh, hmore⟩⟩,
            fun hand => (hand.2 (not_le.mp hstop)).2⟩
        · rw [int32_of_gt (not_le.mp hint)]
          exact iff_of_false Bool.false_ne_true fun hand => hint hand.1

end Texts

/-! ## §8. Both. -/

/-- The file that `init` reads, if it comes to that. -/
def InitKeeps (named table : Bool) (nodes : ℕ → Bool) (file : Option (List UInt8)) : Prop :=
  ∀ bytes ∈ file, named = true → table = true →
    FileKeeps nodes (fun _ => none) (fun _ => 0) (fgets (BUF_SIZE - 1) [] bytes)

theorem init_spec (named table : Bool) (nodes : ℕ → Bool) (file : Option (List UInt8)) :
    ((init named table nodes file).isSome = true ↔ InitKeeps named table nodes file) ∧
      ∀ code t, init named table nodes file = some (code, some t) → Sound t := by
  have hempty : Sound fun _ => none := fun _ _ h => by cases h
  cases named with
  | false => exact ⟨iff_of_true rfl nofun, nofun⟩
  | true =>
    cases table with
    | false => exact ⟨iff_of_true rfl nofun, nofun⟩
    | true =>
      cases file with
      | none =>
        refine ⟨iff_of_true rfl nofun, fun code t h => ?_⟩
        cases h
        exact hempty
      | some bytes =>
        obtain ⟨hiff, hkept⟩ := readLines_spec nodes (fgets (BUF_SIZE - 1) [] bytes)
          (fun l hl => Nat.lt_of_le_of_lt (length_le_of_mem_fgets bytes [] (by decide) l hl) (by decide))
          (fun _ => none) (fun _ => 0) hempty rfl
        refine ⟨?_, fun code t h => ?_⟩
        · show (Option.map _ (readLines nodes _ _ _)).isSome = true ↔ _
          rw [isSome_map, hiff]
          exact ⟨fun hfile bytes' hmem _ _ => by cases hmem; exact hfile, fun hall => hall bytes rfl rfl rfl⟩
        · obtain ⟨r, hr, heq⟩ := map_eq_some_iff.mp h
          cases heq
          exact hkept _ _ hr

/-- The text that `to_spelling` spells, if there is one and room for it. -/
theorem to_spelling_iff {t : Table} (hsound : Sound t) (src : Option (List UInt8)) (dest : Bool) {dest_size : ℤ}
    (hsize : dest_size ≤ INT32_MAX) : (to_spelling t src dest dest_size).isSome = true ↔
      ∀ text ∈ src, dest = true → 0 < dest_size → TextKeeps t dest_size 0 (characters text) := by
  unfold to_spelling
  cases src with
  | none => exact iff_of_true rfl nofun
  | some text =>
    dsimp only
    by_cases hout : text.length ≤ 0 ∨ dest = false ∨ dest_size ≤ 0
    · rw [if_pos hout]
      refine iff_of_true rfl fun text' hmem hdest hpos => ?_
      cases hmem
      rcases hout with hnil | hno | hneg
      · rw [length_eq_zero_iff.mp (Nat.le_zero.mp hnil)]
        exact trivial
      · rw [hno] at hdest
        cases hdest
      · omega
    · have hdest : dest = true := by
        cases dest with
        | true => rfl
        | false => exact absurd (Or.inr (Or.inl rfl)) hout
      have hpos : 0 < dest_size := by omega
      rw [if_neg hout, spell_iff hsound hsize text [] hpos]
      exact ⟨fun hkeep text' hmem _ _ => by cases hmem; exact hkeep, fun hall => hall text rfl hdest hpos⟩

/-- **BOTH FUNCTIONS STAY INSIDE**: `init` copies spellings into slots of the table
    exactly for the files that meet `InitKeeps`; and with what it leaves, `to_spelling`
    reads the text and fills the room exactly for the texts that meet `TextKeeps`. -/
theorem spelling_bounds_iff (named table : Bool) (nodes : ℕ → Bool) (file : Option (List UInt8)) :
    ((init named table nodes file).isSome = true ↔ InitKeeps named table nodes file) ∧
      ∀ (code : ℤ) (t : Table), init named table nodes file = some (code, some t) →
        ∀ (src : Option (List UInt8)) (dest : Bool) (dest_size : ℤ), dest_size ≤ INT32_MAX →
          ((to_spelling t src dest dest_size).isSome = true ↔
            ∀ text ∈ src, dest = true → 0 < dest_size → TextKeeps t dest_size 0 (characters text)) :=
  ⟨(init_spec named table nodes file).1, fun code t h src dest _ hsize =>
    to_spelling_iff ((init_spec named table nodes file).2 code t h) src dest hsize⟩

/-- A line with one spelling is read, and a text of a character and a letter spelled. -/
theorem spelling_bounds_one :
    (init true true (fun _ => true) (some [0xb0, 0xa1, 97, 10])).isSome = true ∧
      (to_spelling (fun _ => none) (some [0xb0, 0xa1, 98]) true 16).isSome = true := by
  refine ⟨(spelling_bounds_iff true true _ _).1.mpr ?_,
    ((spelling_bounds_iff true true (fun _ => true) (some [])).2 0 (fun _ => none) rfl _ true 16 (by decide)).mpr ?_⟩
  · intro bytes hmem _ _
    cases hmem
    exact ⟨⟨by decide, Or.inl (by decide)⟩, fun _ _ _ => trivial⟩
  · intro text hmem _ _
    cases hmem
    exact ⟨by decide, fun _ => ⟨by show gbk _ _ < MAX_GBK_COUNT; decide, by decide, fun _ =>
      ⟨by show UInt8.toNat _ < 128; decide, trivial⟩⟩⟩

/-- The last spelling of a line is copied whatever its length, nine bytes into a slot
    of eight; and the second byte of a character that the text ends in is read. -/
theorem spelling_outside :
    init true true (fun _ => true) (some ([0xb0, 0xa1] ++ List.replicate 9 97 ++ [10])) = none ∧
      init true true (fun _ => true) (some []) = some (0, some fun _ => none) ∧
      to_spelling (fun _ => none) (some [0xb0]) true 16 = none := by
  refine ⟨?_, rfl, ?_⟩
  · have hnot : ¬ InitKeeps true true (fun _ => true) (some ([0xb0, 0xa1] ++ List.replicate 9 97 ++ [10])) := by
      intro hkeep
      obtain ⟨⟨-, hlast⟩, -⟩ := hkeep _ rfl rfl rfl
      revert hlast
      unfold LastKeeps
      decide
    rw [← (init_spec true true _ _).1, Bool.not_eq_true, Option.isSome_eq_false_iff, Option.isNone_iff_eq_none] at hnot
    exact hnot
  · unfold to_spelling
    rw [← Option.isNone_iff_eq_none]
    decide

end QChineseSpelling

end KalavaPir.Common
