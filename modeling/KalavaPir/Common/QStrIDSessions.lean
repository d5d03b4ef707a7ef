/-
  KalavaPir.Common.QStrIDSessions — numbers for strings, over many sessions.

  A session begins with `init`, which reads the file of the sessions before.  As
  every record went into a piece of the allocator in the order of the file, the
  pieces are there again and the tables come back.

  Two things end this.  From 2³² − 2 numbers on, the number of buckets is
  negative; and a string of almost 2³² bytes has a record whose size wraps.  And
  `init` never compares the number of records with its array.
-/
import KalavaPir.Common.QStrIDAllocator

namespace KalavaPir.Common

open KalavaPir.Framework List

namespace QStrIDAllocator

/-! ## §1. Between two calls. -/

/-- The strings `ss` have their numbers, in memory and in the file. -/
structure At (md5 : List UInt8 → Key uint64) (m : QStrIDAllocator) (ss : List (List UInt8)) : Prop where
  holds : ∃ fm, Holds md5 m fm ss
  file : m.m_save_fp = records md5 0 ss
  le : ss.length ≤ m.m_max_str_num

section At

variable {md5 : List UInt8 → Key uint64} {m : QStrIDAllocator} {ss : List (List UInt8)}

variable {max_str_num : ℕ} {fm : FixedMap uint64} {str : List UInt8}

theorem at_fresh (md5 : List UInt8 → Key uint64) (hpos : 0 < hash_size max_str_num) :
    At md5 (fresh max_str_num []) [] := ⟨⟨∅, holds_fresh md5 hpos []⟩, rfl, Nat.zero_le _⟩

/-- **A session begins.** -/
theorem At.reopen (h : At md5 m ss) (hne : max_str_num ≠ 0) (hpos : 0 < hash_size max_str_num) :
    (ss.length ≤ max_str_num → ∃ m', init max_str_num (some m.m_save_fp) = some (.ok m') ∧ At md5 m' ss ∧
      m'.m_max_str_num = max_str_num) ∧
    (max_str_num < ss.length → init max_str_num (some m.m_save_fp) = none) := by
  obtain ⟨fm, hholds⟩ := h.holds
  have hlen := length_records_ge md5 ss 0
  have hload : (ss.length ≤ max_str_num → ∃ m' fm', QStrIDAllocator.load (m.m_save_fp.length + 1) (records md5 0 ss)
        (fresh max_str_num m.m_save_fp) = some (.ok m') ∧ Holds md5 m' fm' ss ∧ m'.m_save_fp = m.m_save_fp ∧
          m'.m_max_str_num = max_str_num) ∧
      (max_str_num < ss.length →
        QStrIDAllocator.load (m.m_save_fp.length + 1) (records md5 0 ss) (fresh max_str_num m.m_save_fp) = none) := by
    refine Holds.load ss (holds_fresh md5 hpos m.m_save_fp) (Nat.zero_le _) h.file hholds.distinct ?_ ?_
    · have hcursor : (fresh max_str_num m.m_save_fp).m_alloc.cursor = (-1, 1048576) := rfl
      rw [hcursor, hholds.packed]
      rfl
    · rw [h.file]
      omega
  rw [(init_of_pos hne hpos).2]
  rw [← h.file] at hload
  refine ⟨?_, hload.2⟩
  intro hle
  obtain ⟨m', fm', hrun, hholds', hfile', hmax'⟩ := hload.1 hle
  exact ⟨m', hrun, ⟨⟨fm', hholds'⟩, hfile'.trans h.file, by rw [hmax']; exact hle⟩, hmax'⟩

theorem Holds.pos_of_noPiece (h : Holds md5 m fm ss) {n : ℕ}
    (hspot : QAllocator.spot m.m_alloc.cursor (n : ℤ) = none) : 0 < (n : ℤ) := by
  have hused := h.sound.used
  by_contra hzero
  have hcursor : m.m_alloc.cursor.2 = m.m_alloc.mNowBlockLen := rfl
  unfold QAllocator.spot at hspot
  rw [if_pos (by omega)] at hspot
  exact absurd hspot (by simp)

/-- `memcpy` leaves the piece of a record whose size has wrapped. -/
theorem Holds.str2id_wrapped (h : Holds md5 m fm ss) (hnew : md5 str ∉ ss.map md5) (hne : str.length ≠ 0)
    (hroom : ss.length < m.m_max_str_num) (hlen : 2 ^ 32 ≤ 24 + str.length) {p : ℤ × ℤ}
    (hspot : QAllocator.spot m.m_alloc.cursor ((24 + str.length) % 2 ^ 32 : ℕ) = some p) :
    m.str2id md5 str = none := by
  have halloc := (h.sound.alloc_spot ((24 + str.length) % 2 ^ 32 : ℕ)).1
  have hless : (24 + str.length) % 2 ^ 32 < 24 + str.length :=
    Nat.lt_of_lt_of_le (Nat.mod_lt _ (by decide)) hlen
  rw [hspot] at halloc
  unfold QStrIDAllocator.str2id
  rw [if_neg hne, h.str2id_search hnew]
  dsimp only
  rw [if_neg (by decide), if_neg (by rw [h.cur]; omega)]
  generalize m.m_alloc.alloc .ample ((24 + str.length) % 2 ^ 32 : ℕ) = result at halloc ⊢
  obtain ⟨found, a⟩ := result
  have hfound : found = some p := halloc
  rw [hfound]
  dsimp only
  rw [if_pos hless]

/-- **A call of `str2id`** keeps the invariant, whatever the string is, if it
    does not leave its piece. -/
theorem At.str2id (h : At md5 m ss) {a : Answer} {m' : QStrIDAllocator}
    (hcall : m.str2id md5 str = some (a, m')) : ∃ ss', At md5 m' ss' := by
  obtain ⟨⟨fm, hholds⟩, hfile, hle⟩ := h
  by_cases hne : str.length = 0
  · unfold QStrIDAllocator.str2id at hcall
    rw [if_pos hne] at hcall
    injection hcall with hpair
    injection hpair with _ hm
    rw [← hm]
    exact ⟨ss, ⟨fm, hholds⟩, hfile, hle⟩
  by_cases hnew : md5 str ∈ ss.map md5
  · -- the search finds a pointer
    obtain ⟨x, hx, hkey⟩ := mem_map.mp hnew
    obtain ⟨i, hi⟩ := mem_iff_getElem?.mp hx
    obtain ⟨p, -, hlook, -, -⟩ := hholds.pieces i x hi
    unfold QStrIDAllocator.str2id at hcall
    rw [if_neg hne, hholds.search, ← hkey, hlook] at hcall
    injection hcall with hpair
    injection hpair with _ hm
    rw [← hm]
    exact ⟨ss, ⟨fm, hholds⟩, hfile, hle⟩
  by_cases hfull : m.m_max_str_num ≤ ss.length
  · rw [hholds.str2id_full hnew hne hfull] at hcall
    injection hcall with hpair
    injection hpair with _ hm
    rw [← hm]
    exact ⟨ss, ⟨fm, hholds⟩, hfile, hle⟩
  cases hspot : QAllocator.spot m.m_alloc.cursor ((24 + str.length) % 2 ^ 32 : ℕ) with
  | none =>
    rw [hholds.str2id_noPiece hnew hne (by omega) hspot] at hcall
    injection hcall with hpair
    injection hpair with _ hm
    rw [← hm]
    exact ⟨ss, ⟨fm, hholds.alloc_none hspot (hholds.pos_of_noPiece hspot)⟩, hfile, hle⟩
  | some p =>
    by_cases hlen : 24 + str.length < 2 ^ 32
    · have hpiece : (((24 + str.length) % 2 ^ 32 : ℕ) : ℤ) = pieceSize str := by
        unfold pieceSize
        omega
      rw [hpiece] at hspot
      obtain ⟨m₁, fm₁, hrun, hholds₁, hmax₁, hfile₁⟩ := hholds.str2id_new hnew hne (by omega) hlen hspot
      rw [hrun] at hcall
      injection hcall with hpair
      injection hpair with _ hm
      rw [← hm]
      refine ⟨ss ++ [str], ⟨fm₁, hholds₁⟩, ?_, ?_⟩
      · show m₁.m_save_fp = _
        rw [hfile₁, hfile, records_snoc, Nat.zero_add]
      · show (ss ++ [str]).length ≤ m₁.m_max_str_num
        rw [hmax₁, length_append, length_singleton]
        omega
    · rw [hholds.str2id_wrapped hnew hne (by omega) (by omega) hspot] at hcall
      exact absurd hcall (by simp)

end At

/-! ## §2. Histories. -/

/-- What a user does. -/
inductive SessionStep where
  | str2id (str : List UInt8)
  /-- The next session begins. -/
  | reopen

/-- There is a piece for one more record. -/
def fits (ss : List (List UInt8)) (str : List UInt8) : Bool :=
  (QAllocator.cursorAfter (-1, 1048576) ((ss ++ [str]).map pieceSize)).isSome

/-- What `str2id` should answer: the number of an old string; the next number
    for a new one, if there is room for it. -/
def answer (max_str_num : ℕ) (ss : List (List UInt8)) (str : List UInt8) : Answer :=
  match ss.idxOf? str with
  | some i => (1, some i)
  | none =>
    if ss.length ≥ max_str_num then (-2, none)
    else if fits ss str then (0, some ss.length)
    else (-3, none)

/-- The strings with a number, after the call. -/
def after (max_str_num : ℕ) (ss : List (List UInt8)) (str : List UInt8) : List (List UInt8) :=
  if (answer max_str_num ss str).1 = 0 then ss ++ [str] else ss

/-- **What `id2str` should say**: the string and its digest, or −1. -/
def Shows (md5 : List UInt8 → Key uint64) (m : QStrIDAllocator) (ss : List (List UInt8)) : Prop :=
  ∀ id, m.id2str id =
    match ss[id]? with
    | some s => some (0, some (s, md5 s))
    | none => some (-1, none)

/-- **The contract**, at every point of a history. -/
def Obeys (md5 : List UInt8 → Key uint64) (max_str_num : ℕ) :
    QStrIDAllocator → List (List UInt8) → List SessionStep → Prop
  | m, ss, [] => Shows md5 m ss
  | m, ss, .str2id str :: steps => Shows md5 m ss ∧
      ∃ m', m.str2id md5 str = some (answer max_str_num ss str, m') ∧
        Obeys md5 max_str_num m' (after max_str_num ss str) steps
  | m, ss, .reopen :: steps => Shows md5 m ss ∧
      ∃ m', init max_str_num (some m.m_save_fp) = some (.ok m') ∧ Obeys md5 max_str_num m' ss steps

/-- The strings of a history. -/
def strings : List SessionStep → List (List UInt8)
  | [] => []
  | .str2id str :: steps => str :: strings steps
  | .reopen :: steps => strings steps

section Histories

variable {md5 : List UInt8 → Key uint64} {m : QStrIDAllocator} {ss : List (List UInt8)}

theorem At.shows (h : At md5 m ss) : Shows md5 m ss := by
  obtain ⟨fm, hholds⟩ := h.holds
  exact hholds.id2str

theorem Holds.fits_iff {fm : FixedMap uint64} (h : Holds md5 m fm ss) (str : List UInt8) :
    fits ss str = (QAllocator.spot m.m_alloc.cursor (pieceSize str)).isSome := by
  unfold fits
  rw [map_append, QAllocator.cursorAfter_append, h.packed, Option.bind_some]
  show (QAllocator.cursorAfter m.m_alloc.cursor [pieceSize str]).isSome = _
  unfold QAllocator.cursorAfter
  cases QAllocator.spot m.m_alloc.cursor (pieceSize str) with
  | none => rfl
  | some p => rfl

/-- **One call** does what it should. -/
theorem At.answers (h : At md5 m ss) {str : List UInt8} (hne : str.length ≠ 0) (hlen : 24 + str.length < 2 ^ 32)
    (hsame : ∀ s ∈ ss, md5 s = md5 str → s = str) :
    ∃ m', m.str2id md5 str = some (answer m.m_max_str_num ss str, m') ∧
      At md5 m' (after m.m_max_str_num ss str) ∧ m'.m_max_str_num = m.m_max_str_num := by
  obtain ⟨⟨fm, hholds⟩, hfile, hle⟩ := h
  cases hold : ss.idxOf? str with
  | some i =>
    have hanswer : answer m.m_max_str_num ss str = (1, some i) := by
      unfold answer
      rw [hold]
    obtain ⟨hi, hs, -⟩ := idxOf?_eq_some_iff.mp hold
    have hget : ss[i]? = some str := by
      rw [getElem?_eq_getElem hi, hs]
    unfold after
    rw [hanswer]
    exact ⟨m, hholds.str2id_old hget hne, ⟨⟨fm, hholds⟩, hfile, hle⟩, rfl⟩
  | none =>
    have hnotMem : str ∉ ss := idxOf?_eq_none_iff.mp hold
    have hnew : md5 str ∉ ss.map md5 := by
      intro hmem
      obtain ⟨s, hs, hkey⟩ := mem_map.mp hmem
      rw [hsame s hs hkey] at hs
      exact hnotMem hs
    have hanswer : answer m.m_max_str_num ss str = if ss.length ≥ m.m_max_str_num then (-2, none)
        else if fits ss str then (0, some ss.length) else (-3, none) := by
      unfold answer
      rw [hold]
    have hpiece : (((24 + str.length) % 2 ^ 32 : ℕ) : ℤ) = pieceSize str := by
      unfold pieceSize
      omega
    unfold after
    by_cases hfull : ss.length ≥ m.m_max_str_num
    · rw [hanswer, if_pos hfull, if_neg (by decide)]
      exact ⟨m, hholds.str2id_full hnew hne hfull, ⟨⟨fm, hholds⟩, hfile, hle⟩, rfl⟩
    cases hspot : QAllocator.spot m.m_alloc.cursor (pieceSize str) with
    | none =>
      have hfits : fits ss str = false := by
        rw [hholds.fits_iff, hspot]
        rfl
      rw [← hpiece] at hspot
      rw [hanswer, if_neg hfull, hfits, if_neg Bool.false_ne_true, if_neg (by decide)]
      exact ⟨_, hholds.str2id_noPiece hnew hne (by omega) hspot,
        ⟨⟨fm, hholds.alloc_none hspot (hholds.pos_of_noPiece hspot)⟩, hfile, hle⟩, rfl⟩
    | some p =>
      have hfits : fits ss str = true := by
        rw [hholds.fits_iff, hspot]
        rfl
      obtain ⟨m', fm', hrun, hholds', hmax', hfile'⟩ := hholds.str2id_new hnew hne (by omega) hlen hspot
      rw [hanswer, if_neg hfull, if_pos hfits, if_pos rfl]
      refine ⟨m', hrun, ⟨⟨fm', hholds'⟩, ?_, ?_⟩, hmax'⟩
      · rw [hfile', hfile, records_snoc, Nat.zero_add]
      · rw [hmax', length_append, length_singleton]
        omega

/-- **From any point on.** -/
theorem At.obeys {max_str_num : ℕ} (hzero : max_str_num ≠ 0) (hpos : 0 < hash_size max_str_num)
    (steps : List SessionStep) : ∀ {m : QStrIDAllocator} {ss : List (List UInt8)}, At md5 m ss →
    m.m_max_str_num = max_str_num → (∀ s ∈ strings steps, s.length ≠ 0 ∧ 24 + s.length < 2 ^ 32) →
    (∀ s ∈ ss ++ strings steps, ∀ s' ∈ ss ++ strings steps, md5 s = md5 s' → s = s') →
    Obeys md5 max_str_num m ss steps := by
  induction steps with
  | nil => exact fun h _ _ _ => h.shows
  | cons step steps ih =>
    intro m ss h hmax hok hinj
    cases step with
    | reopen =>
      obtain ⟨m', hinit, hat, hmax'⟩ := (h.reopen hzero hpos).1 (by rw [← hmax]; exact h.le)
      exact ⟨h.shows, m', hinit, ih hat hmax' hok hinj⟩
    | str2id str =>
      obtain ⟨hne, hlen⟩ := hok str mem_cons_self
      have hstr : str ∈ ss ++ str :: strings steps := mem_append_right ss mem_cons_self
      obtain ⟨m', hcall, hat, hmax'⟩ := h.answers hne hlen
        (fun s hs heq => hinj s (mem_append_left _ hs) str hstr heq)
      rw [hmax] at hcall hat hmax'
      have hsub : ∀ s ∈ after max_str_num ss str ++ strings steps, s ∈ ss ++ str :: strings steps := by
        intro s hs
        unfold after at hs
        split_ifs at hs
        · rw [append_assoc, singleton_append] at hs
          exact hs
        · obtain hs | hs := mem_append.mp hs
          · exact mem_append_left _ hs
          · exact mem_append_right _ (mem_cons_of_mem str hs)
      exact ⟨h.shows, m', hcall, ih hat hmax' (fun s hs => hok s (mem_cons_of_mem str hs))
        (fun s hs s' hs' heq => hinj s (hsub s hs) s' (hsub s' hs') heq)⟩

end Histories

/-- **THE NUMBERS ARE 0, 1, 2, … AND STAY**, over any calls and sessions, for
    strings and an array of almost any size. -/
theorem ids_in_step (md5 : List UInt8 → Key uint64) {max_str_num : ℕ} (hzero : max_str_num ≠ 0)
    (hmax : max_str_num < 2 ^ 32 - 2) (steps : List SessionStep)
    (hok : ∀ s ∈ strings steps, s.length ≠ 0 ∧ s.length < 2 ^ 32 - 24)
    (hinj : ∀ s ∈ strings steps, ∀ s' ∈ strings steps, md5 s = md5 s' → s = s') :
    ∃ m, init max_str_num none = some (.ok m) ∧ Obeys md5 max_str_num m [] steps := by
  have hpos : 0 < hash_size max_str_num := (hash_size_pos_iff (by omega)).mpr hmax
  refine ⟨_, (init_of_pos hzero hpos).1, (at_fresh md5 hpos).obeys hzero hpos steps rfl ?_ ?_⟩
  · intro s hs
    obtain ⟨hne, hlen⟩ := hok s hs
    exact ⟨hne, by omega⟩
  · rw [List.nil_append]
    exact hinj

/-- A digest that tells short strings apart. -/
def littleEndian (str : List UInt8) : Key uint64 := BitVec.ofNat _ (decode str)

/-- Two strings, one of them twice, in two sessions. -/
theorem ids_in_step_twoStrings :
    ∃ m, init 2 none = some (.ok m) ∧
      Obeys littleEndian 2 m [] [.str2id [97], .str2id [98], .reopen, .str2id [97]] := by
  refine ids_in_step littleEndian (by decide) (by decide) [.str2id [97], .str2id [98], .reopen, .str2id [97]] ?_ ?_
  · have hlist : strings [.str2id [97], .str2id [98], .reopen, .str2id [97]] = [[97], [98], [97]] := rfl
    rw [hlist]
    decide
  · have hlist : strings [.str2id [97], .str2id [98], .reopen, .str2id [97]] = [[97], [98], [97]] := rfl
    rw [hlist]
    decide

/-- 2³² − 1 numbers leave the array of the buckets; a string of 2³² − 24 bytes
    leaves its piece. -/
theorem sizes_wrap :
    (¬ ∃ m, init (2 ^ 32 - 1) none = some (.ok m) ∧ Obeys littleEndian (2 ^ 32 - 1) m [] []) ∧
      ¬ ∃ m, init 2 none = some (.ok m) ∧
        Obeys littleEndian 2 m [] [.str2id (List.replicate (2 ^ 32 - 24) 97)] := by
  constructor
  · intro hobeys
    obtain ⟨m, hinit, -⟩ := hobeys
    rw [init_of_neg (by decide) (by decide)] at hinit
    exact absurd hinit (by simp)
  · intro hobeys
    obtain ⟨m, hinit, -, m', hcall, -⟩ := hobeys
    have hpos : 0 < hash_size 2 := by decide
    rw [(init_of_pos (by decide) hpos).1] at hinit
    injection hinit with hok
    injection hok with hm
    obtain ⟨n, hn⟩ : ∃ n, n = 2 ^ 32 - 24 := ⟨_, rfl⟩
    rw [← hn, ← hm] at hcall
    have hlen : (List.replicate n (97 : UInt8)).length = n := List.length_replicate
    have hsize : (24 + (List.replicate n (97 : UInt8)).length) % 2 ^ 32 = 0 := by
      rw [hlen]
      omega
    rw [(holds_fresh littleEndian hpos []).str2id_wrapped List.not_mem_nil (by omega) (by decide) (by omega)
      (p := (-1, 1048576)) (by rw [hsize]; rfl)] at hcall
    exact absurd hcall (by simp)

/-! ## §3. The array of `init`. -/

/-- The sessions before: each call of one of them was in one of its pieces. -/
inductive Session (md5 : List UInt8 → Key uint64) : QStrIDAllocator → Prop
  | new {max_str_num : ℕ} {m : QStrIDAllocator} (hlt : max_str_num < 2 ^ 32)
      (h : init max_str_num none = some (.ok m)) : Session md5 m
  | reopen {m m' : QStrIDAllocator} {max_str_num : ℕ} (before : Session md5 m) (hlt : max_str_num < 2 ^ 32)
      (h : init max_str_num (some m.m_save_fp) = some (.ok m')) : Session md5 m'
  | str2id {m m' : QStrIDAllocator} {str : List UInt8} {a : Answer} (before : Session md5 m)
      (h : m.str2id md5 str = some (a, m')) : Session md5 m'

/-- `init` has returned, and if it returned 0 there is room for the strings. -/
def Safe (max_str_num : ℕ) (result : Option (Except ℤ QStrIDAllocator)) : Prop :=
  ∃ e, result = some e ∧ ∀ m, e = .ok m → m.m_cur_str_num ≤ max_str_num

section Array

variable {md5 : List UInt8 → Key uint64} {m : QStrIDAllocator} {max_str_num : ℕ}

theorem hash_size_ne_zero {max_str_num : ℕ} (hlt : max_str_num < 2 ^ 32) : hash_size max_str_num ≠ 0 := by
  unfold hash_size Int.bmod
  dsimp only
  split_ifs <;> omega

theorem hash_size_of_init (hlt : max_str_num < 2 ^ 32) {file : Option (List UInt8)}
    (h : init max_str_num file = some (.ok m)) : max_str_num ≠ 0 ∧ 0 < hash_size max_str_num := by
  have hne : max_str_num ≠ 0 := by
    intro hzero
    unfold init at h
    rw [if_pos hzero] at h
    exact absurd h (by simp)
  refine ⟨hne, ?_⟩
  by_contra hneg
  have hzero := hash_size_ne_zero hlt
  rw [init_of_neg hne (by omega)] at h
  exact absurd h (by simp)

/-- What the sessions leave. -/
theorem Session.at (h : Session md5 m) : ∃ ss, At md5 m ss := by
  induction h with
  | new hlt h =>
    obtain ⟨hne, hpos⟩ := hash_size_of_init hlt h
    rw [(init_of_pos hne hpos).1] at h
    injection h with hok
    injection hok with hm
    rw [← hm]
    exact ⟨[], at_fresh md5 hpos⟩
  | @reopen m m' max_str_num before hlt h ih =>
    obtain ⟨ss, hat⟩ := ih
    obtain ⟨hne, hpos⟩ := hash_size_of_init hlt h
    by_cases hle : ss.length ≤ max_str_num
    · obtain ⟨m₁, hinit, hat₁, -⟩ := (hat.reopen hne hpos).1 hle
      rw [hinit] at h
      injection h with hok
      injection hok with hm
      rw [← hm]
      exact ⟨ss, hat₁⟩
    · rw [(hat.reopen hne hpos).2 (by omega)] at h
      exact absurd h (by simp)
  | str2id before h ih =>
    obtain ⟨ss, hat⟩ := ih
    exact hat.str2id h

/-- **`init` KEEPS TO ITS TABLES** if and only if the file of the sessions before
    has no more records than the array has room for, and the number of buckets
    is not negative. -/
theorem init_safe_iff (h : Session md5 m) (hne : max_str_num ≠ 0) (hlt : max_str_num < 2 ^ 32) :
    Safe max_str_num (init max_str_num (some m.m_save_fp)) ↔
      m.m_cur_str_num ≤ max_str_num ∧ max_str_num < 2 ^ 32 - 2 := by
  obtain ⟨ss, hat⟩ := h.at
  have hcur : m.m_cur_str_num = ss.length := by
    obtain ⟨fm, hholds⟩ := hat.holds
    exact hholds.cur
  have hiff := hash_size_pos_iff hlt
  have hzero := hash_size_ne_zero hlt
  by_cases hpos : 0 < hash_size max_str_num
  · rw [hcur]
    by_cases hle : ss.length ≤ max_str_num
    · obtain ⟨m', hinit, hat', -⟩ := (hat.reopen hne hpos).1 hle
      refine iff_of_true ⟨_, hinit, ?_⟩ ⟨hle, hiff.mp hpos⟩
      intro m₁ hok
      injection hok with hm
      obtain ⟨fm, hholds⟩ := hat'.holds
      rw [← hm, hholds.cur]
      exact hle
    · rw [(hat.reopen hne hpos).2 (by omega)]
      refine iff_of_false ?_ (fun hand => hle hand.1)
      intro hsafe
      obtain ⟨e, hnone, -⟩ := hsafe
      exact absurd hnone (by simp)
  · rw [init_of_neg hne (by omega)]
    refine iff_of_false ?_ (fun hand => hpos (hiff.mpr hand.2))
    intro hsafe
    obtain ⟨e, hnone, -⟩ := hsafe
    exact absurd hnone (by simp)

/-- A session with two strings. -/
theorem session_twoStrings : ∃ m, Session littleEndian m ∧ m.m_cur_str_num = 2 ∧
    m.m_save_fp = records littleEndian 0 [[97], [98]] := by
  have hpos : 0 < hash_size 2 := by decide
  have hinit := (init_of_pos (by decide : 2 ≠ 0) hpos).1
  have hat : At littleEndian (fresh 2 []) [] := at_fresh littleEndian hpos
  obtain ⟨m₁, hcall₁, hat₁, hmax₁⟩ := hat.answers (by decide : ([97] : List UInt8).length ≠ 0) (by decide)
    (fun s hs => absurd hs not_mem_nil)
  have hfirst : after (fresh 2 []).m_max_str_num [] [97] = [[97]] := by decide
  rw [hfirst] at hat₁
  obtain ⟨m₂, hcall₂, hat₂, -⟩ := hat₁.answers (by decide : ([98] : List UInt8).length ≠ 0) (by decide)
    (by decide)
  have hsecond : after m₁.m_max_str_num [[97]] [98] = [[97], [98]] := by
    rw [hmax₁]
    decide
  rw [hsecond] at hat₂
  obtain ⟨fm, hholds⟩ := hat₂.holds
  exact ⟨m₂, .str2id (.str2id (.new (by decide) hinit) hcall₁) hcall₂, hholds.cur, hat₂.file⟩

/-- Two records, for an array with room for three. -/
theorem init_safe_iff_twoStrings :
    ∃ m, Session littleEndian m ∧ m.m_cur_str_num = 2 ∧ Safe 3 (init 3 (some m.m_save_fp)) := by
  obtain ⟨m, hsession, hcur, -⟩ := session_twoStrings
  refine ⟨m, hsession, hcur, (init_safe_iff hsession (by decide) (by decide)).mpr ⟨?_, by decide⟩⟩
  rw [hcur]
  decide

/-- Two records, for an array with room for one: the second one is written
    outside of it. -/
theorem second_record_is_outside :
    ∃ m, Session littleEndian m ∧ m.m_cur_str_num = 2 ∧ init 1 (some m.m_save_fp) = none ∧
      ¬ Safe 1 (init 1 (some m.m_save_fp)) := by
  obtain ⟨m, hsession, hcur, hfile⟩ := session_twoStrings
  have hnone : init 1 (some m.m_save_fp) = none := by
    have hisNone : (init 1 (some (records littleEndian 0 [[97], [98]]))).isNone = true := by decide
    rw [hfile]
    exact Option.isNone_iff_eq_none.mp hisNone
  refine ⟨m, hsession, hcur, hnone, ?_⟩
  rw [hnone]
  intro hsafe
  obtain ⟨e, hsome, -⟩ := hsafe
  exact absurd hsome (by simp)

end Array

end QStrIDAllocator

end KalavaPir.Common
