/-
  KalavaPir.Common.QRWLockFunc — the readers-writer lock of `common/qglobal.h`.

  A mutex, the condition variables `readcond` and `writecond`, and three
  counters.  Each critical section is ONE atomic step: `unlock()` from its lock
  to its unlock; `rdlock()` and `wrlock()` from their lock, or from their return
  out of `pthread_cond_wait`, to the next `pthread_cond_wait` or to their unlock.

  A thread of the pool is one session of the lock: it asks, may sleep, holds and
  unlocks, any number of times.  `readcond` and `writecond` are the sessions
  asleep; a session that waits and is in neither has been WOKEN and has not yet
  looked at its condition again.  Which sleeper a signal wakes is left open, and
  a sleeper may also wake by itself.
-/
import KalavaPir.Framework.ThreadPool
import Mathlib.Data.Finset.Basic

namespace KalavaPir.Common

open KalavaPir.Framework List Finset

/-! ## §1. The lock. -/

/-- The counters of the lock. -/
structure QRWLockFunc where
  locks : ℤ
  writers : ℤ
  readers : ℤ
  /-- the sessions blocked on the condition variables -/
  readcond : Finset ℕ
  writecond : Finset ℕ
  deriving DecidableEq

namespace QRWLockFunc

/-- `QRWLockFunc()`. -/
def new : QRWLockFunc := { locks := 0, writers := 0, readers := 0, readcond := ∅, writecond := ∅ }

/-- Where a session is. -/
inductive Session
  | idle
  /-- in the loop of `rdlock()`, of `wrlock()` -/
  | rdwait
  | wrwait
  | reading
  | writing
  deriving DecidableEq, Repr

/-- What a session does next.  `unlock k` lets `pthread_cond_signal` wake `k`,
    `spurious` is a wake-up nobody asked for, `recheck` the next round of the
    waiting loop. -/
inductive Op
  | rdlock
  | wrlock
  | unlock (k : ℕ)
  | spurious
  | recheck
  deriving DecidableEq, Repr

/-- `pthread_cond_signal`: wakes one of the sleepers, if there is one. -/
def signal (cond : Finset ℕ) (k : ℕ) : Option (Finset ℕ) :=
  if cond = ∅ then some ∅ else if k ∈ cond then some (cond.erase k) else none

/-- The loop of `rdlock()`, for session `i`. -/
def rdloop (l : QRWLockFunc) (i : ℕ) : QRWLockFunc × Session :=
  if l.locks < 0 then ({ l with readcond := insert i l.readcond }, .rdwait)
  else ({ l with readers := l.readers - 1, locks := l.locks + 1 }, .reading)

/-- A reader enters or waits. -/
def rdlock (l : QRWLockFunc) (i : ℕ) : QRWLockFunc × Session :=
  { l with readers := l.readers + 1 }.rdloop i

/-- The loop of `wrlock()`, for session `i`. -/
def wrloop (l : QRWLockFunc) (i : ℕ) : QRWLockFunc × Session :=
  if l.locks ≠ 0 then ({ l with writecond := insert i l.writecond }, .wrwait)
  else ({ l with locks := -1, writers := l.writers - 1 }, .writing)

/-- A writer enters or waits. -/
def wrlock (l : QRWLockFunc) (i : ℕ) : QRWLockFunc × Session :=
  { l with writers := l.writers + 1 }.wrloop i

/-- A session leaves. -/
def unlock (l : QRWLockFunc) (k : ℕ) : Option QRWLockFunc :=
  if 0 < l.locks then
    if l.locks - 1 = 0 then
      (signal l.writecond k).map fun cond => { l with locks := l.locks - 1, writecond := cond }
    else some { l with locks := l.locks - 1 }
  else if l.readers ≠ 0 then
    -- `pthread_cond_broadcast`
    some { l with locks := 0, readcond := ∅ }
  else (signal l.writecond k).map fun cond => { l with locks := 0, writecond := cond }

/-- A step of session `i`; a session unlocks only what it holds. -/
def exec (l : QRWLockFunc) (i : ℕ) : Session → Op → Option (QRWLockFunc × Session × List Session)
  | .idle, .rdlock => some ((l.rdlock i).1, (l.rdlock i).2, [])
  | .idle, .wrlock => some ((l.wrlock i).1, (l.wrlock i).2, [])
  | .reading, .unlock k => (l.unlock k).map fun l' => (l', .idle, [])
  | .writing, .unlock k => (l.unlock k).map fun l' => (l', .idle, [])
  | .rdwait, .spurious =>
    if i ∈ l.readcond then some ({ l with readcond := l.readcond.erase i }, .rdwait, []) else none
  | .wrwait, .spurious =>
    if i ∈ l.writecond then some ({ l with writecond := l.writecond.erase i }, .wrwait, [])
    else none
  | .rdwait, .recheck =>
    if i ∈ l.readcond then none else some ((l.rdloop i).1, (l.rdloop i).2, [])
  | .wrwait, .recheck =>
    if i ∈ l.writecond then none else some ((l.wrloop i).1, (l.wrloop i).2, [])
  | _, _ => none

/-- Any number of sessions over one lock; a new one comes in idle. -/
def machine : Machine QRWLockFunc Session Unit Op where
  exec := exec
  entry := fun _ => .idle

/-- Nobody has come yet. -/
def start : Conf QRWLockFunc Session := { shared := new, pool := [] }

/-- The states of all interleavings. -/
def Reached (c : Conf QRWLockFunc Session) : Prop := Reach machine.step anyStep start c

/-! ## §2. Who waits, who holds. -/

/-- Session `i` sleeps in a condition wait. -/
def Asleep (c : Conf QRWLockFunc Session) (i : ℕ) : Prop :=
  (c.pool[i]? = some .rdwait ∧ i ∈ c.shared.readcond) ∨
    (c.pool[i]? = some .wrwait ∧ i ∈ c.shared.writecond)

/-- Session `i` has been woken and has not looked at its condition again. -/
def Woken (c : Conf QRWLockFunc Session) (i : ℕ) : Prop :=
  (c.pool[i]? = some .rdwait ∧ i ∉ c.shared.readcond) ∨
    (c.pool[i]? = some .wrwait ∧ i ∉ c.shared.writecond)

/-- What holds in every interleaving. -/
structure Inv (c : Conf QRWLockFunc Session) : Prop where
  /-- one writer and no reader, or the readers that `locks` counts -/
  holders : (c.shared.locks = -1 ∧ c.pool.count .writing = 1 ∧ c.pool.count .reading = 0) ∨
    (c.shared.locks = c.pool.count .reading ∧ c.pool.count .writing = 0)
  readers : c.shared.readers = c.pool.count .rdwait
  writers : c.shared.writers = c.pool.count .wrwait
  /-- readers sleep only under a writer -/
  readcond : ∀ i ∈ c.shared.readcond, c.pool[i]? = some .rdwait ∧ c.shared.locks < 0
  writecond : ∀ i ∈ c.shared.writecond, c.pool[i]? = some .wrwait
  awake : c.shared.locks = 0 → c.shared.writecond.Nonempty → ∃ i, Woken c i

/-! ## §3. One step. -/

section

variable {c : Conf QRWLockFunc Session} {i k : ℕ} {t : Session}

variable {pool : List Session} {l : QRWLockFunc}

/-- The sessions at `x` after session `i` moved from `t` to `t'`. -/
theorem count_set (ht : pool[i]? = some t) (t' x : Session) : ((pool.set i t').count x : ℤ) =
      pool.count x - (if t = x then 1 else 0) + (if t' = x then 1 else 0) := by
  obtain ⟨hlt, heq⟩ := List.getElem?_eq_some_iff.mp ht
  have hmem : t = x → 1 ≤ pool.count x := by
    rintro rfl
    exact List.count_pos_iff.mpr (List.mem_of_getElem? ht)
  rw [List.count_set hlt, heq]
  simp only [beq_iff_eq]
  by_cases hx : t = x
  · have hone := hmem hx
    simp only [hx, if_true]
    split <;> omega
  · simp only [hx, if_false]
    split <;> omega

theorem count_pos (ht : pool[i]? = some t) : 1 ≤ pool.count t :=
  count_pos_iff.mpr (mem_of_getElem? ht)

/-- A signal takes one sleeper off the condition, if there is one. -/
theorem signal_spec {cond cond' : Finset ℕ} (h : signal cond k = some cond') :
    (cond = ∅ ∧ cond' = ∅) ∨ (k ∈ cond ∧ cond' = cond.erase k) := by
  unfold signal at h
  split at h
  next hempty =>
    cases h
    exact Or.inl ⟨hempty, rfl⟩
  next =>
    split at h
    next hk =>
      cases h
      exact Or.inr ⟨hk, rfl⟩
    next => cases h

theorem Inv.not_readcond (h : Inv c) (ht : c.pool[i]? = some t) (hne : t ≠ .rdwait) :
    i ∉ c.shared.readcond := by
  intro hi
  have hwait := (h.readcond i hi).1
  rw [ht] at hwait
  exact hne (Option.some.inj hwait)

theorem Inv.not_writecond (h : Inv c) (ht : c.pool[i]? = some t) (hne : t ≠ .wrwait) :
    i ∉ c.shared.writecond := by
  intro hi
  have hwait := h.writecond i hi
  rw [ht] at hwait
  exact hne (Option.some.inj hwait)

theorem Inv.readcond_set (h : Inv c) (t' : Session) (hi : i ∉ c.shared.readcond) :
    ∀ j ∈ c.shared.readcond, (c.pool.set i t')[j]? = some .rdwait ∧ c.shared.locks < 0 := by
  intro j hj
  obtain ⟨hwait, hneg⟩ := h.readcond j hj
  exact ⟨lookup_set_ne (fun heq => hi (heq ▸ hj)) hwait, hneg⟩

theorem Inv.writecond_set (h : Inv c) (t' : Session) (hi : i ∉ c.shared.writecond) :
    ∀ j ∈ c.shared.writecond, (c.pool.set i t')[j]? = some .wrwait :=
  fun j hj => lookup_set_ne (fun heq => hi (heq ▸ hj)) (h.writecond j hj)

/-- `rdlock()` before its loop: the session is counted, and awake. -/
theorem Inv.enter_rdlock (h : Inv c) (ht : c.pool[i]? = some .idle) :
    Inv { shared := { c.shared with readers := c.shared.readers + 1 },
          pool := c.pool.set i .rdwait } where
  holders := by
    have hholders := h.holders
    have hw := count_set ht .rdwait .writing
    have hr := count_set ht .rdwait .reading
    simp only [reduceCtorEq, if_false] at hw hr ⊢
    omega
  readers := by
    have hcount := count_set ht .rdwait .rdwait
    simp at hcount
    rw [hcount, ← h.readers]
  writers := by
    have hcount := count_set ht .rdwait .wrwait
    simp at hcount
    rw [hcount]
    exact h.writers
  readcond := h.readcond_set _ (h.not_readcond ht (by decide))
  writecond := h.writecond_set _ (h.not_writecond ht (by decide))
  awake := fun _ _ =>
    ⟨i, Or.inl ⟨lookup_set_self ht, h.not_readcond ht (by decide)⟩⟩

/-- `wrlock()` before its loop. -/
theorem Inv.enter_wrlock (h : Inv c) (ht : c.pool[i]? = some .idle) :
    Inv { shared := { c.shared with writers := c.shared.writers + 1 },
          pool := c.pool.set i .wrwait } where
  holders := by
    have hholders := h.holders
    have hw := count_set ht .wrwait .writing
    have hr := count_set ht .wrwait .reading
    simp only [reduceCtorEq, if_false] at hw hr ⊢
    omega
  readers := by
    have hcount := count_set ht .wrwait .rdwait
    simp at hcount
    rw [hcount]
    exact h.readers
  writers := by
    have hcount := count_set ht .wrwait .wrwait
    simp at hcount
    rw [hcount, ← h.writers]
  readcond := h.readcond_set _ (h.not_readcond ht (by decide))
  writecond := h.writecond_set _ (h.not_writecond ht (by decide))
  awake := fun _ _ =>
    ⟨i, Or.inr ⟨lookup_set_self ht, h.not_writecond ht (by decide)⟩⟩

theorem counts_set (ht : pool[i]? = some t) (t' : Session) : ((pool.set i t').count .writing : ℤ) =
        pool.count .writing - (if t = .writing then 1 else 0) + (if t' = .writing then 1 else 0) ∧
      ((pool.set i t').count .reading : ℤ) =
        pool.count .reading - (if t = .reading then 1 else 0) + (if t' = .reading then 1 else 0) ∧
      ((pool.set i t').count .rdwait : ℤ) =
        pool.count .rdwait - (if t = .rdwait then 1 else 0) + (if t' = .rdwait then 1 else 0) ∧
      ((pool.set i t').count .wrwait : ℤ) =
        pool.count .wrwait - (if t = .wrwait then 1 else 0) + (if t' = .wrwait then 1 else 0) :=
  ⟨count_set ht t' _, count_set ht t' _, count_set ht t' _, count_set ht t' _⟩

section

variable (h : Inv c)
include h

/-- The reader's loop: it sleeps only under a writer, and else takes the lock. -/
theorem Inv.rdloop (ht : c.pool[i]? = some .rdwait) (hi : i ∉ c.shared.readcond) :
    Inv { shared := (c.shared.rdloop i).1, pool := c.pool.set i (c.shared.rdloop i).2 } := by
  have hiw := h.not_writecond ht (by decide)
  obtain ⟨hw, hr, hrw, hww⟩ := counts_set ht (c.shared.rdloop i).2
  have hholders := h.holders
  have hreaders := h.readers
  have hwriters := h.writers
  by_cases hneg : c.shared.locks < 0
  · have hsleep : c.shared.rdloop i =
        ({ c.shared with readcond := insert i c.shared.readcond }, .rdwait) := if_pos hneg
    rw [hsleep] at hw hr hrw hww ⊢
    simp only [reduceCtorEq, if_true, if_false] at hw hr hrw hww
    refine ⟨by simp only; omega, by simp only; omega, by simp only; omega, ?_,
      h.writecond_set _ hiw, fun hzero => absurd hzero (by simp only; omega)⟩
    intro j hj
    rcases mem_insert.mp hj with rfl | hj
    · exact ⟨lookup_set_self ht, hneg⟩
    · exact h.readcond_set _ hi j hj
  · have htake : c.shared.rdloop i =
        ({ c.shared with readers := c.shared.readers - 1, locks := c.shared.locks + 1 },
          .reading) := if_neg hneg
    rw [htake] at hw hr hrw hww ⊢
    simp only [reduceCtorEq, if_true, if_false] at hw hr hrw hww
    refine ⟨by simp only; omega, by simp only; omega, by simp only; omega, ?_,
      h.writecond_set _ hiw, fun hzero => absurd hzero (by simp only; omega)⟩
    intro j hj
    exact absurd (h.readcond j hj).2 hneg

/-- The writer's loop: it sleeps only while the lock is held, and else takes it. -/
theorem Inv.wrloop (ht : c.pool[i]? = some .wrwait) (hi : i ∉ c.shared.writecond) :
    Inv { shared := (c.shared.wrloop i).1, pool := c.pool.set i (c.shared.wrloop i).2 } := by
  have hir := h.not_readcond ht (by decide)
  obtain ⟨hw, hr, hrw, hww⟩ := counts_set ht (c.shared.wrloop i).2
  have hholders := h.holders
  have hreaders := h.readers
  have hwriters := h.writers
  by_cases hheld : c.shared.locks ≠ 0
  · have hsleep : c.shared.wrloop i =
        ({ c.shared with writecond := insert i c.shared.writecond }, .wrwait) := if_pos hheld
    rw [hsleep] at hw hr hrw hww ⊢
    simp only [reduceCtorEq, if_true, if_false] at hw hr hrw hww
    refine ⟨by simp only; omega, by simp only; omega, by simp only; omega,
      h.readcond_set _ hir, ?_, fun hzero => absurd hzero hheld⟩
    intro j hj
    rcases mem_insert.mp hj with rfl | hj
    · exact lookup_set_self ht
    · exact h.writecond_set _ hi j hj
  · have htake : c.shared.wrloop i =
        ({ c.shared with locks := -1, writers := c.shared.writers - 1 }, .writing) :=
      if_neg hheld
    rw [htake] at hw hr hrw hww ⊢
    simp only [reduceCtorEq, if_true, if_false] at hw hr hrw hww
    refine ⟨Or.inl ⟨rfl, by simp only; omega, by simp only; omega⟩, by simp only; omega,
      by simp only; omega, ?_, h.writecond_set _ hi, fun hzero => absurd hzero (by simp only; omega)⟩
    intro j hj
    exact absurd (h.readcond j hj).2 (by omega)

/-- A reader leaves; the last one signals the writers. -/
theorem Inv.unlock_reading (ht : c.pool[i]? = some .reading) (hl : c.shared.unlock k = some l) :
    Inv { shared := l, pool := c.pool.set i .idle } := by
  have hiw := h.not_writecond ht (by decide)
  obtain ⟨hw, hr, hrw, hww⟩ := counts_set ht .idle
  simp only [reduceCtorEq, if_true, if_false] at hw hr hrw hww
  have hholders := h.holders
  have hreaders := h.readers
  have hwriters := h.writers
  have hpos : 0 < c.shared.locks := by omega
  have hread : ∀ l' : ℤ, ∀ j ∈ c.shared.readcond,
      (c.pool.set i .idle)[j]? = some .rdwait ∧ l' < 0 := by
    intro l' j hj
    have := (h.readcond j hj).2
    omega
  rw [unlock, if_pos hpos] at hl
  split at hl
  next hlast =>
    simp only [Option.map_eq_some_iff] at hl
    obtain ⟨cond, hcond, rfl⟩ := hl
    rcases signal_spec hcond with ⟨hempty, rfl⟩ | ⟨hk, rfl⟩
    · exact ⟨by simp only; omega, by simp only; omega, by simp only; omega, hread _,
        fun j hj => absurd hj (notMem_empty j), fun _ hsome => absurd hsome (by simp)⟩
    have hkw : (c.pool.set i .idle)[k]? = some .wrwait := h.writecond_set _ hiw k hk
    exact ⟨by simp only; omega, by simp only; omega, by simp only; omega, hread _,
      fun j hj => h.writecond_set _ hiw j (mem_of_mem_erase hj),
      fun _ _ => ⟨k, Or.inr ⟨hkw, notMem_erase k _⟩⟩⟩
  next hmore =>
    cases hl
    exact ⟨by simp only; omega, by simp only; omega, by simp only; omega, hread _,
      h.writecond_set _ hiw, fun hzero => absurd hzero (by simp only; omega)⟩

/-- The writer leaves: it wakes all readers or, if there is none, a writer. -/
theorem Inv.unlock_writing (ht : c.pool[i]? = some .writing) (hl : c.shared.unlock k = some l) :
    Inv { shared := l, pool := c.pool.set i .idle } := by
  have hiw := h.not_writecond ht (by decide)
  obtain ⟨hw, hr, hrw, hww⟩ := counts_set ht .idle
  simp only [reduceCtorEq, if_true, if_false] at hw hr hrw hww
  have hholders := h.holders
  have hreaders := h.readers
  have hwriters := h.writers
  rw [unlock, if_neg (by omega)] at hl
  split at hl
  next hsome =>
    cases hl
    -- a reader has been counted: the broadcast leaves it awake
    have hpos : 0 < c.pool.count .rdwait := by omega
    obtain ⟨j, hj⟩ := getElem?_of_mem (count_pos_iff.mp hpos)
    have hne : j ≠ i := by
      rintro rfl
      rw [ht] at hj
      cases hj
    exact ⟨by simp only; omega, by simp only; omega, by simp only; omega,
      fun j hj => absurd hj (notMem_empty j), h.writecond_set _ hiw,
      fun _ _ => ⟨j, Or.inl ⟨lookup_set_ne hne hj, notMem_empty j⟩⟩⟩
  next hnone =>
    -- nobody waits for reading, hence nobody sleeps on `readcond`
    have hread : ∀ j ∈ c.shared.readcond,
        (c.pool.set i .idle)[j]? = some .rdwait ∧ (0 : ℤ) < 0 := by
      intro j hj
      have hpos := count_pos (h.readcond j hj).1
      omega
    simp only [Option.map_eq_some_iff] at hl
    obtain ⟨cond, hcond, rfl⟩ := hl
    rcases signal_spec hcond with ⟨hempty, rfl⟩ | ⟨hk, rfl⟩
    · exact ⟨by simp only; omega, by simp only; omega, by simp only; omega, hread,
        fun j hj => absurd hj (notMem_empty j), fun _ hsome => absurd hsome (by simp)⟩
    have hkw : (c.pool.set i .idle)[k]? = some .wrwait := h.writecond_set _ hiw k hk
    exact ⟨by simp only; omega, by simp only; omega, by simp only; omega, hread,
      fun j hj => h.writecond_set _ hiw j (mem_of_mem_erase hj),
      fun _ _ => ⟨k, Or.inr ⟨hkw, notMem_erase k _⟩⟩⟩

theorem Inv.spurious_rd (ht : c.pool[i]? = some .rdwait) :
    Inv { shared := { c.shared with readcond := c.shared.readcond.erase i }, pool := c.pool } :=
  ⟨h.holders, h.readers, h.writers, fun j hj => h.readcond j (mem_of_mem_erase hj),
    h.writecond, fun _ _ => ⟨i, Or.inl ⟨ht, notMem_erase i _⟩⟩⟩

theorem Inv.spurious_wr (ht : c.pool[i]? = some .wrwait) :
    Inv { shared := { c.shared with writecond := c.shared.writecond.erase i }, pool := c.pool } :=
  ⟨h.holders, h.readers, h.writers, h.readcond,
    fun j hj => h.writecond j (mem_of_mem_erase hj),
    fun _ _ => ⟨i, Or.inr ⟨ht, notMem_erase i _⟩⟩⟩

theorem Inv.arrive : Inv { c with pool := c.pool ++ [.idle] } where
  holders := by simpa [count_append] using h.holders
  readers := by simpa [count_append] using h.readers
  writers := by simpa [count_append] using h.writers
  readcond := fun j hj => ⟨lookup_arrive (h.readcond j hj).1, (h.readcond j hj).2⟩
  writecond := fun j hj => lookup_arrive (h.writecond j hj)
  awake := by
    intro hzero hsome
    obtain ⟨j, ⟨hj, hjc⟩ | ⟨hj, hjc⟩⟩ := h.awake hzero hsome
    · exact ⟨j, Or.inl ⟨lookup_arrive hj, hjc⟩⟩
    · exact ⟨j, Or.inr ⟨lookup_arrive hj, hjc⟩⟩

/-- **One step.** -/
theorem Inv.exec {t' : Session} {op : Op} {new : List Session} (ht : c.pool[i]? = some t)
    (hx : exec c.shared i t op = some (l, t', new)) : Inv { shared := l, pool := c.pool.set i t' ++ new } := by
  have hsame : c.pool.set i t = c.pool := by
    obtain ⟨hlt, heq⟩ := List.getElem?_eq_some_iff.mp ht
    rw [← heq, set_getElem_self]
  cases t with
  | idle =>
    cases op with
    | rdlock =>
      cases hx
      rw [append_nil]
      have h' := (h.enter_rdlock ht).rdloop (lookup_set_self ht)
        (h.not_readcond ht (by decide))
      rw [set_set] at h'
      exact h'
    | wrlock =>
      cases hx
      rw [append_nil]
      have h' := (h.enter_wrlock ht).wrloop (lookup_set_self ht)
        (h.not_writecond ht (by decide))
      rw [set_set] at h'
      exact h'
    | unlock | spurious | recheck => cases hx
  | reading =>
    cases op with
    | unlock k =>
      simp only [QRWLockFunc.exec, Option.map_eq_some_iff] at hx
      obtain ⟨l', hl, heq⟩ := hx
      cases heq
      rw [append_nil]
      exact h.unlock_reading ht hl
    | rdlock | wrlock | spurious | recheck => cases hx
  | writing =>
    cases op with
    | unlock k =>
      simp only [QRWLockFunc.exec, Option.map_eq_some_iff] at hx
      obtain ⟨l', hl, heq⟩ := hx
      cases heq
      rw [append_nil]
      exact h.unlock_writing ht hl
    | rdlock | wrlock | spurious | recheck => cases hx
  | rdwait =>
    cases op with
    | spurious =>
      simp only [QRWLockFunc.exec] at hx
      split at hx
      next =>
        cases hx
        rw [append_nil, hsame]
        exact h.spurious_rd ht
      next => cases hx
    | recheck =>
      simp only [QRWLockFunc.exec] at hx
      split at hx
      next => cases hx
      next hi =>
        cases hx
        rw [append_nil]
        exact h.rdloop ht hi
    | rdlock | wrlock | unlock => cases hx
  | wrwait =>
    cases op with
    | spurious =>
      simp only [QRWLockFunc.exec] at hx
      split at hx
      next =>
        cases hx
        rw [append_nil, hsame]
        exact h.spurious_wr ht
      next => cases hx
    | recheck =>
      simp only [QRWLockFunc.exec] at hx
      split at hx
      next => cases hx
      next hi =>
        cases hx
        rw [append_nil]
        exact h.wrloop ht hi
    | rdlock | wrlock | unlock => cases hx

end

end

/-! ## §4. Every interleaving. -/

theorem inv_start : Inv start :=
  ⟨Or.inr ⟨rfl, rfl⟩, rfl, rfl, fun _ hj => absurd hj (notMem_empty _),
    fun _ hj => absurd hj (notMem_empty _), fun _ hsome => absurd hsome (by decide)⟩

variable {c : Conf QRWLockFunc Session}

/-- **The invariant, in every interleaving.** -/
theorem reached_invariant (h : Reached c) : Inv c := by
  refine Reach.invariant Inv inv_start ?_ h
  intro c m c' hc _ hstep
  rcases machine.step_cases hstep with ⟨r, rfl, rfl⟩ | ⟨i, o, t, l, t', new, rfl, ht, hx, rfl⟩
  · exact hc.arrive
  · exact hc.exec ht hx

/-- **The counters** never exceed the number of the sessions. -/
theorem counters_fit (h : Reached c) :
    -1 ≤ c.shared.locks ∧ c.shared.locks ≤ c.pool.length ∧
      0 ≤ c.shared.readers ∧ c.shared.readers ≤ c.pool.length ∧
      0 ≤ c.shared.writers ∧ c.shared.writers ≤ c.pool.length := by
  have hinv := reached_invariant h
  have hholders := hinv.holders
  have hlen : ∀ t : Session, c.pool.count t ≤ c.pool.length := fun t => count_le_length
  have hreading := hlen .reading
  have hrd := hlen .rdwait
  have hwr := hlen .wrwait
  rw [hinv.readers, hinv.writers]
  omega

/-- A writer holds the lock, and a reader waits. -/
theorem counters_fit_two : (-1 : ℤ) ≤ -1 ∧ (-1 : ℤ) ≤ 2 ∧ (0 : ℤ) ≤ 1 ∧ (1 : ℤ) ≤ 2 ∧ (0 : ℤ) ≤ 0 ∧ (0 : ℤ) ≤ 2 :=
  counters_fit (c := { shared := { locks := -1, writers := 0, readers := 1, readcond := {1}, writecond := ∅ }
                       pool := [.writing, .rdwait] })
    (reach_of_guardedExec [.arrive (), .arrive (), .run 0 .wrlock, .run 1 .rdlock] start _ rfl)

/-- **THE READERS-WRITER LOCK, IN EVERY INTERLEAVING**: `locks` is −1 exactly
    when one writer and no reader holds the lock, and `n ≥ 0` exactly when `n`
    readers and no writer do; and while the lock is free and somebody sleeps,
    somebody has been woken and has not looked again. -/
theorem locks_spec {c : Conf QRWLockFunc Session} (h : Reached c) :
    (c.shared.locks = -1 ↔ c.pool.count .writing = 1 ∧ c.pool.count .reading = 0) ∧
    (∀ n : ℕ, c.shared.locks = n ↔ c.pool.count .reading = n ∧ c.pool.count .writing = 0) ∧
    (c.shared.locks = 0 → (∃ i, Asleep c i) → ∃ i, Woken c i) := by
  have hinv := reached_invariant h
  have hholders := hinv.holders
  refine ⟨by omega, fun n => by omega, ?_⟩
  rintro hzero ⟨i, ⟨-, hi⟩ | ⟨-, hi⟩⟩
  · -- no reader sleeps beside a free lock
    have hneg := (hinv.readcond i hi).2
    omega
  · exact hinv.awake hzero ⟨i, hi⟩

/-- A writer holds, a reader and a writer sleep, and the holder unlocks. -/
theorem locks_spec_handover :
    ∃ c, Reached c ∧ (c.shared.locks = 0 ∧ Asleep c 2) ∧
      (c.shared.locks = -1 ↔ c.pool.count .writing = 1 ∧ c.pool.count .reading = 0) ∧
      (∀ n : ℕ, c.shared.locks = n ↔ c.pool.count .reading = n ∧ c.pool.count .writing = 0) ∧
      (c.shared.locks = 0 → (∃ i, Asleep c i) → ∃ i, Woken c i) := by
  have hreach : Reached
      { shared := { locks := 0, writers := 1, readers := 1, readcond := ∅, writecond := {2} }
        pool := [.idle, .rdwait, .wrwait] } :=
    reach_of_guardedExec [.arrive (), .arrive (), .arrive (), .run 0 .wrlock, .run 1 .rdlock,
      .run 2 .wrlock, .run 0 (.unlock 0)] start _ rfl
  exact ⟨_, hreach, ⟨rfl, Or.inr ⟨rfl, by decide⟩⟩, locks_spec hreach⟩

end QRWLockFunc

end KalavaPir.Common
