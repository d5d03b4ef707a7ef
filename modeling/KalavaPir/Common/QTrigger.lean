/-
  KalavaPir.Common.QTrigger — the event of `common/qglobal.h`.

  A mutex, a condition variable and the word `m_state`.  Each critical section
  is ONE atomic step here: `signal()` from its lock to its unlock; `wait()` from
  its lock, or from its return out of `pthread_cond_wait`, to the next
  `pthread_cond_wait` or to its unlock.

  `cond` holds the threads blocked in `pthread_cond_wait`.  Which of them
  `pthread_cond_signal` wakes is left open, and a thread may also wake without
  any signal.
-/
import Mathlib.Data.List.NodupEquivFin

namespace KalavaPir.Common

/-- The flag and who waits for it. -/
structure QTrigger where
  m_autoreset : Bool
  m_state : ℤ
  /-- the threads blocked on the condition variable -/
  cond : List ℕ
  nodup : cond.Nodup

namespace QTrigger

/-! ## §1. The operations. -/

/-- `QTrigger(autoreset, state)`. -/
def new (autoreset state : Bool) : QTrigger :=
  { m_autoreset := autoreset, m_state := if state then 1 else 0, cond := [], nodup := List.nodup_nil }

/-- `signal()`; `k` chooses the thread that `pthread_cond_signal` wakes. -/
def signal (t : QTrigger) (k : ℕ) : QTrigger :=
  if t.m_autoreset then
    -- `pthread_cond_signal`: one of them
    { t with
      m_state := 1
      cond := t.cond.eraseIdx (k % t.cond.length)
      nodup := t.nodup.sublist (List.eraseIdx_sublist _ _) }
  else
    -- `pthread_cond_broadcast`: all of them
    { t with m_state := 1, cond := [], nodup := List.nodup_nil }

/-- The loop test of `wait()` and what follows it, for thread `i`: `true` if it
    leaves the function, `false` if it blocks. -/
def wait (t : QTrigger) (i : ℕ) : Bool × QTrigger :=
  if t.m_state = 0 then (false, { t with cond := t.cond.insert i, nodup := t.nodup.insert })
  else (true, { t with m_state := if t.m_autoreset then 0 else t.m_state })

/-- Thread `i` returns from `pthread_cond_wait`: it has been woken, or it wakes
    by itself. -/
def awake (t : QTrigger) (i : ℕ) (spurious : Bool) : Option QTrigger :=
  if i ∈ t.cond then
    if spurious then some { t with cond := t.cond.erase i, nodup := t.nodup.erase i } else none
  else some t -- a signal has already taken it off the list

/-! ## §2. What they do. -/

variable {t : QTrigger} {i j k : ℕ}

@[simp] theorem signal_m_state (t : QTrigger) (k : ℕ) : (t.signal k).m_state = 1 := by
  unfold signal
  split <;> rfl

@[simp] theorem signal_m_autoreset (t : QTrigger) (k : ℕ) : (t.signal k).m_autoreset = t.m_autoreset := by
  unfold signal
  split <;> rfl

@[simp] theorem wait_m_autoreset (t : QTrigger) (i : ℕ) : (t.wait i).2.m_autoreset = t.m_autoreset := by
  unfold wait
  split <;> rfl

theorem mem_of_mem_signal (h : j ∈ (t.signal k).cond) : j ∈ t.cond := by
  unfold signal at h
  split at h
  · exact (List.eraseIdx_sublist _ _).subset h
  · exact absurd h (by simp)

/-- **A signal is not lost**: some blocked thread is woken, if there is one. -/
theorem signal_wakes (hne : t.cond ≠ []) : ∃ j, j ∈ t.cond ∧ j ∉ (t.signal k).cond := by
  have hpos : 0 < t.cond.length := List.length_pos_iff.mpr hne
  have hlt : k % t.cond.length < t.cond.length := Nat.mod_lt _ hpos
  refine ⟨t.cond[k % t.cond.length], List.getElem_mem hlt, ?_⟩
  unfold signal
  split
  · -- the element at the erased position does not occur anywhere else
    intro hmem
    rw [List.mem_eraseIdx_iff_getElem] at hmem
    obtain ⟨m, hm, hne', heq⟩ := hmem
    exact hne' ((t.nodup.getElem_inj_iff).mp heq)
  · simp

/-- A wait that leaves found the flag set … -/
theorem wait_leaves (h : (t.wait i).1 = true) : t.m_state ≠ 0 ∧ (t.wait i).2.cond = t.cond ∧
      (t.m_autoreset = true → (t.wait i).2.m_state = 0) := by
  unfold wait at h ⊢
  split at h
  · exact absurd h (by simp)
  · next hs =>
      rw [if_neg hs]
      exact ⟨hs, rfl, fun ha => by simp [ha]⟩

/-- … and one that blocks did not. -/
theorem wait_blocks (h : (t.wait i).1 = false) :
    t.m_state = 0 ∧ (t.wait i).2.m_state = 0 ∧ i ∈ (t.wait i).2.cond ∧
      ∀ j, j ∈ (t.wait i).2.cond → j = i ∨ j ∈ t.cond := by
  unfold wait at h ⊢
  split at h
  · next hs =>
      rw [if_pos hs]
      exact ⟨hs, hs, List.mem_insert_self, fun j hj => List.mem_insert_iff.mp hj⟩
  · exact absurd h (by simp)

/-- Waking up changes nothing for the others. -/
theorem awake_some {spurious : Bool} {t' : QTrigger} (h : t.awake i spurious = some t') :
    t'.m_state = t.m_state ∧ t'.m_autoreset = t.m_autoreset ∧
      ∀ j, j ∈ t'.cond ↔ j ≠ i ∧ j ∈ t.cond := by
  unfold awake at h
  split at h
  · split at h
    · injection h with h
      subst h
      exact ⟨rfl, rfl, fun j => t.nodup.mem_erase_iff⟩
    · exact absurd h (by simp)
  next hnot =>
    injection h with h
    subst h
    refine ⟨rfl, rfl, fun j => ⟨fun hj => ⟨?_, hj⟩, fun hj => hj.2⟩⟩
    rintro rfl
    exact hnot hj

end QTrigger

end KalavaPir.Common
