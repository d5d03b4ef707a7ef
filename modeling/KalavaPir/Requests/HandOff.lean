/-
  KalavaPir.Requests.HandOff — no connection is left behind.

  The trigger resets itself: ten signals that nobody was waiting for leave the
  same `m_state` as one.  That no wake-up is lost all the same rests on a
  three-way invariant (`Covered`): as long as there is a socket in the queue,
  the state is set, or the acceptor is about to set it, or a thread that has
  left `wait()` has yet to see the queue empty.
-/
import KalavaPir.Requests.ProcessQueue

namespace KalavaPir.Requests

open KalavaPir.Common
open KalavaPir.Framework List

/-! ## §1. The three-way invariant. -/

/-- Somebody who will look into the queue, or wake somebody who does. -/
def Actor.onDuty : Actor → Bool
  | .acceptor .signal => true
  | .thread t => t.pc.pastWait
  | _ => false

/-- The queue is empty, or the trigger is set, or somebody is on duty. -/
def Covered (c : Conf Server Actor) : Prop :=
  c.shared.client_queue.toList ≠ [] → c.shared.client_queue_trigger.m_state = 1 ∨
    ∃ (i : ℕ) (a : Actor), c.pool[i]? = some a ∧ a.onDuty = true

section Step

variable {sv sv' : Server} {i : ℕ} {a a' : Actor}

theorem waitTest_cases (sv : Server) (i : ℕ) (t : Thread) (trigger : QTrigger) :
    ((t.waitTest sv i trigger).2.pc = .busy ∧ trigger.m_state ≠ 0 ∧
        (t.waitTest sv i trigger).1.client_queue_trigger.cond = trigger.cond ∧
        (trigger.m_autoreset = true → (t.waitTest sv i trigger).1.client_queue_trigger.m_state = 0)) ∨
      ((t.waitTest sv i trigger).2.pc = .blocked ∧ trigger.m_state = 0 ∧
        (t.waitTest sv i trigger).1.client_queue_trigger.m_state = 0 ∧
        ∀ j, j ∈ (t.waitTest sv i trigger).1.client_queue_trigger.cond → j = i ∨ j ∈ trigger.cond) := by
  cases hw : (trigger.wait i).1 with
  | true => exact Or.inl ⟨by simp [Thread.waitTest, hw], QTrigger.wait_leaves hw⟩
  | false =>
    obtain ⟨h₁, h₂, _, h₃⟩ := QTrigger.wait_blocks hw
    exact Or.inr ⟨by simp [Thread.waitTest, hw], h₁, h₂, h₃⟩

theorem waitTest_clears {t : Thread} {trigger : QTrigger} (ha : trigger.m_autoreset = true) :
    (t.waitTest sv i trigger).1.client_queue_trigger.m_state = 0 := by
  rcases waitTest_cases sv i t trigger with ⟨_, _, _, hzero⟩ | ⟨_, _, hzero, _⟩
  · exact hzero ha
  · exact hzero

/-- What a statement means for the cover: whoever fills the queue, or takes the
    state, is on duty afterwards, and whoever goes off duty has set the state or
    seen the queue empty. -/
theorem ActorStep.duty (h : ActorStep sv i a sv' a') :
    (sv'.client_queue.toList ≠ [] → sv.client_queue.toList ≠ [] ∨ a'.onDuty = true) ∧
    (a.onDuty = true → a'.onDuty = true ∨ sv'.client_queue_trigger.m_state = 1 ∨
      sv'.client_queue.toList = []) ∧
    (sv.client_queue_trigger.m_state = 1 → sv'.client_queue_trigger.m_state = 1 ∨
      ∃ t', a' = .thread t' ∧ t'.pc.pastWait = true) := by
  cases h with
  | accept sock => exact ⟨Or.inl, by simp [Actor.onDuty], Or.inl⟩
  | push sock q hq => exact ⟨fun _ => Or.inr rfl, by simp [Actor.onDuty], Or.inl⟩
  | signal k =>
    exact ⟨Or.inl, fun _ => Or.inr (Or.inl (by simp)), fun _ => Or.inl (by simp)⟩
  | loop pc pc' h h' hs =>
    refine ⟨Or.inl, fun hd => ?_, Or.inl⟩
    rcases h with rfl | rfl <;> simp [Actor.onDuty] at hd
  | wait t trigger hpc hstate hauto hcond hout =>
    refine ⟨Or.inl, fun hd => ?_, fun hs => ?_⟩
    · rcases hpc with hpc | hpc <;> simp [Actor.onDuty, hpc, ThreadPc.pastWait] at hd
    · rcases waitTest_cases sv i t trigger with ⟨hb, _⟩ | ⟨_, hzero, _⟩
      · exact Or.inr ⟨_, rfl, by simp [hb, ThreadPc.pastWait]⟩
      · rw [hstate, hs] at hzero
        exact absurd hzero (by simp)
  | pop t sock q hpc hq =>
    refine ⟨fun _ => Or.inl ?_, fun _ => Or.inl rfl, Or.inl⟩
    rw [QQueue.pop_toList hq]
    simp
  | popEmpty t hpc hq =>
    exact ⟨Or.inl, fun _ => Or.inr (Or.inr ((QQueue.pop_eq_none_iff _).mp hq)), Or.inl⟩
  | local_ t t' stat hpast hb hb' hend =>
    refine ⟨Or.inl, fun hd => Or.inl ?_, Or.inl⟩
    simp only [Actor.onDuty] at hd ⊢
    rw [hpast, hd]
  | shutdown => exact ⟨Or.inl, by simp [Actor.onDuty], Or.inl⟩

/-- **One statement keeps the cover.** -/
theorem Covered.run {c : Conf Server Actor} (hcov : Covered c) (ha : c.pool[i]? = some a)
    (h : ActorStep c.shared i a sv' a') : Covered { shared := sv', pool := c.pool.set i a' } := by
  obtain ⟨hqueue, hduty, hstate⟩ := h.duty
  intro hne
  have hself : a'.onDuty = true → ∃ (j : ℕ) (b : Actor),
      (c.pool.set i a')[j]? = some b ∧ b.onDuty = true :=
    fun hd => ⟨i, a', lookup_set_self ha, hd⟩
  rcases hqueue hne with hold | hd
  · rcases hcov hold with hs | ⟨j, b, hb, hd⟩
    · rcases hstate hs with hs' | ⟨t', rfl, hd⟩
      · exact Or.inl hs'
      · exact Or.inr (hself hd)
    by_cases hji : j = i
    · -- the one on duty has moved
      subst hji
      rw [ha, Option.some.injEq] at hb
      subst hb
      rcases hduty hd with hd' | hs' | hempty
      · exact Or.inr (hself hd')
      · exact Or.inl hs'
      · exact absurd hempty hne
    · exact Or.inr ⟨j, b, lookup_set_ne hji hb, hd⟩
  · exact Or.inr (hself hd)

end Step

/-! ## §2. Everything about a reachable state. -/

/-- The accept loop at position 0, then the `n` threads, then whoever asked for
    a shutdown. -/
structure Layout (n : ℕ) (pool : List Actor) : Prop where
  acceptor : ∃ pc, pool[0]? = some (.acceptor pc)
  threads : ∀ i, 1 ≤ i → i ≤ n → ∃ t, pool[i]? = some (.thread t)
  others : ∀ i a, pool[i]? = some a → n < i → ∃ b, a = .shutdown b

variable {i : ℕ} {pool : List Actor}

variable {n : ℕ}

theorem Layout.of_thread {t : Thread} (h : Layout n pool) (ht : pool[i]? = some (.thread t)) :
    1 ≤ i ∧ i ≤ n := by
  constructor
  · by_contra hlt
    have hi : i = 0 := by omega
    obtain ⟨pc, hpc⟩ := h.acceptor
    rw [hi, hpc] at ht
    exact absurd ht (by simp)
  · by_contra hgt
    obtain ⟨b, hb⟩ := h.others i _ ht (by omega)
    exact absurd hb (by simp)

theorem Layout.of_acceptor {pc : AcceptPc} (h : Layout n pool) (ha : pool[i]? = some (.acceptor pc)) :
    i = 0 := by
  by_contra hne
  by_cases hle : i ≤ n
  · obtain ⟨t, ht⟩ := h.threads i (by omega) hle
    rw [ht] at ha
    exact absurd ha (by simp)
  · obtain ⟨b, hb⟩ := h.others i _ ha (by omega)
    exact absurd hb (by simp)

theorem ActorStep.sort {sv sv' : Server} {a a' : Actor} (h : ActorStep sv i a sv' a') :
    (∀ pc, a = .acceptor pc → ∃ pc', a' = .acceptor pc') ∧
      (∀ t, a = .thread t → ∃ t', a' = .thread t') ∧
      (∀ b, a = .shutdown b → ∃ b', a' = .shutdown b') := by
  cases h <;> simp

theorem Layout.run {sv sv' : Server} {a a' : Actor} (h : Layout n pool) (ha : pool[i]? = some a)
    (hs : ActorStep sv i a sv' a') : Layout n (pool.set i a') := by
  obtain ⟨hacc, hthr, hshut⟩ := hs.sort
  -- a position keeps its sort
  have hkeep : ∀ (p : Actor → Prop) (j : ℕ) (b : Actor), pool[j]? = some b → p b → (p a → p a') →
      ∃ b', (pool.set i a')[j]? = some b' ∧ p b' := by
    intro p j b hb hp himp
    by_cases hji : j = i
    · subst hji
      rw [ha, Option.some.injEq] at hb
      exact ⟨a', lookup_set_self ha, himp (hb ▸ hp)⟩
    · exact ⟨b, lookup_set_ne hji hb, hp⟩
  refine ⟨?_, fun j h₁ h₂ => ?_, fun j b hb hj => ?_⟩
  · obtain ⟨pc, hpc⟩ := h.acceptor
    obtain ⟨b, hb, pc', rfl⟩ := hkeep (fun b => ∃ pc, b = .acceptor pc) 0 _ hpc ⟨pc, rfl⟩
      (fun ⟨pc, hpc⟩ => hacc pc hpc)
    exact ⟨pc', hb⟩
  · obtain ⟨t, ht⟩ := h.threads j h₁ h₂
    obtain ⟨b, hb, t', rfl⟩ := hkeep (fun b => ∃ t, b = .thread t) j _ ht ⟨t, rfl⟩
      (fun ⟨t, ht⟩ => hthr t ht)
    exact ⟨t', hb⟩
  · rcases lookup_set hb with ⟨rfl, rfl⟩ | ⟨_, hold⟩
    · obtain ⟨s, rfl⟩ := h.others j a ha hj
      exact hshut s rfl
    · exact h.others j b hold hj

/-- What is true of the queue and of the threads. -/
structure HandOff (n : ℕ) (c : Conf Server Actor) : Prop where
  layout : Layout n c.pool
  covered : Covered c
  autoreset : c.shared.client_queue_trigger.m_autoreset = true
  state : c.shared.client_queue_trigger.m_state = 0 ∨ c.shared.client_queue_trigger.m_state = 1
  /-- accepted = handed over, then queued, then about to be pushed -/
  conserved : ∀ pc, c.pool[0]? = some (.acceptor pc) →
    c.shared.accepted =
      c.shared.handed.map (fun p => p.2) ++ c.shared.client_queue.toList ++ pc.pending
  /-- who is blocked on the condition variable -/
  cond : ∀ j ∈ c.shared.client_queue_trigger.cond,
    ∃ t, c.pool[j]? = some (.thread t) ∧ t.pc = .blocked
  /-- the state is not set while all threads are blocked -/
  unblocked : 0 < n → c.shared.client_queue_trigger.m_state = 1 →
    ∃ (j : ℕ) (t : Thread), c.pool[j]? = some (.thread t) ∧
      j ∉ c.shared.client_queue_trigger.cond
  ended : ∀ (j : ℕ) (t : Thread), c.pool[j]? = some (.thread t) →
    t.pc = .leave ∨ t.pc = .finished → c.shared.shutdown_asap = true

theorem handOff_boot {q : QQueue ℤ} (hq : q.toList = []) (n : ℕ) : HandOff n (boot q n) where
  layout := by
    refine ⟨⟨_, rfl⟩, fun i h₁ h₂ => ?_, fun i a ha hi => ?_⟩
    · obtain ⟨k, rfl⟩ : ∃ k, i = k + 1 := ⟨i - 1, by omega⟩
      refine ⟨Thread.start, ?_⟩
      simp only [boot, getElem?_cons_succ, getElem?_replicate]
      rw [if_pos (by omega)]
    · obtain ⟨k, rfl⟩ : ∃ k, i = k + 1 := ⟨i - 1, by omega⟩
      simp only [boot, getElem?_cons_succ, getElem?_replicate] at ha
      rw [if_neg (by omega)] at ha
      exact absurd ha (by simp)
  covered h := absurd hq h
  autoreset := rfl
  state := Or.inl rfl
  conserved pc hpc := by
    simp only [boot, getElem?_cons_zero, Option.some.injEq, Actor.acceptor.injEq] at hpc
    subst hpc
    simp [boot, hq, AcceptPc.pending]
  cond j hj := absurd hj (by simp [boot, QTrigger.new])
  unblocked _ h := absurd h (by simp [boot, QTrigger.new])
  ended j t ht hend := by
    have hmem := mem_of_getElem? ht
    simp only [boot, mem_cons, mem_replicate, reduceCtorEq, Actor.thread.injEq,
      false_or] at hmem
    rw [hmem.2] at hend
    simp [Thread.start] at hend

/-! ## §3. One statement. -/

section Step

variable {sv sv' : Server} {i : ℕ} {a a' : Actor}

section

variable (h : ActorStep sv i a sv' a')
include h

theorem ActorStep.trigger (hauto : sv.client_queue_trigger.m_autoreset = true)
    (hstate : sv.client_queue_trigger.m_state = 0 ∨ sv.client_queue_trigger.m_state = 1) :
    sv'.client_queue_trigger.m_autoreset = true ∧
      (sv'.client_queue_trigger.m_state = 0 ∨ sv'.client_queue_trigger.m_state = 1) := by
  cases h with
  | signal k => exact ⟨by simp [hauto], Or.inr (by simp)⟩
  | wait t trigger hpc hs ha hcond hout =>
    exact ⟨by simp [Thread.waitTest, ha, hauto], Or.inl (waitTest_clears (ha.trans hauto))⟩
  | _ => exact ⟨hauto, hstate⟩

/-- Only `signal()` sets the state. -/
theorem ActorStep.sets (hauto : sv.client_queue_trigger.m_autoreset = true)
    (hs : sv'.client_queue_trigger.m_state = 1) : (∃ k, a = .acceptor .signal ∧
        sv'.client_queue_trigger = sv.client_queue_trigger.signal k) ∨
      (sv.client_queue_trigger.m_state = 1 ∧ ∀ t', a' = .thread t' → t'.pc ≠ .blocked) := by
  cases h with
  | signal k => exact Or.inl ⟨k, rfl, rfl⟩
  | wait t trigger hpc hstate ha hcond hout =>
    rw [waitTest_clears (ha.trans hauto)] at hs
    exact absurd hs (by simp)
  | local_ t t' stat hpast hb hb' hend =>
    exact Or.inr ⟨hs, fun u hu => by simp only [Actor.thread.injEq] at hu; rw [← hu]; exact hb'⟩
  | accept sock | push sock q hq | loop pc pc' h h' hne | shutdown => exact Or.inr ⟨hs, by simp⟩
  | pop t sock q hpc hq =>
    exact Or.inr ⟨hs, fun u hu => by simp only [Actor.thread.injEq] at hu; rw [← hu]; simp⟩
  | popEmpty t hpc hq =>
    exact Or.inr ⟨hs, fun u hu => by simp only [Actor.thread.injEq] at hu; rw [← hu]; simp⟩

/-- A thread gets onto the condition variable only by itself, and only inside
    `wait()`. -/
theorem ActorStep.cond (hown : i ∈ sv.client_queue_trigger.cond → ∃ t, a = .thread t ∧ t.pc = .blocked) {j : ℕ}
    (hj : j ∈ sv'.client_queue_trigger.cond) : (j ≠ i ∧ j ∈ sv.client_queue_trigger.cond) ∨
      (j = i ∧ ∃ t', a' = .thread t' ∧ t'.pc = .blocked) := by
  -- whoever is not blocked is not on it
  have hother : (∀ t, a = .thread t → t.pc ≠ .blocked) → j ∈ sv.client_queue_trigger.cond →
      j ≠ i ∧ j ∈ sv.client_queue_trigger.cond := by
    intro hnot hmem
    refine ⟨?_, hmem⟩
    rintro rfl
    obtain ⟨t, rfl, hpc⟩ := hown hmem
    exact hnot t rfl hpc
  cases h with
  | accept sock | push sock q hq => exact Or.inl (hother (by simp) hj)
  | signal k => exact Or.inl (hother (by simp) (QTrigger.mem_of_mem_signal hj))
  | loop pc pc' h h' hs | shutdown => exact Or.inl (hother (by simp) hj)
  | pop t sock q hpc hq | popEmpty t hpc hq => exact Or.inl (hother (by simp [hpc]) hj)
  | local_ t t' stat hpast hb hb' hend => exact Or.inl (hother (by simp [hb]) hj)
  | wait t trigger hpc hstate hauto hcond hout =>
    have hne : j ∈ trigger.cond → j ≠ i ∧ j ∈ sv.client_queue_trigger.cond := by
      intro hmem
      rcases hpc with hpc | hpc
      · exact hother (by simp [hpc]) (hcond j hmem)
      · refine ⟨?_, hcond j hmem⟩
        rintro rfl
        exact hout hpc hmem
    rcases waitTest_cases sv i t trigger with ⟨_, _, hsame, _⟩ | ⟨hb, _, _, hmem⟩
    · exact Or.inl (hne (hsame ▸ hj))
    · rcases hmem j hj with rfl | hmem
      · exact Or.inr ⟨rfl, _, rfl, hb⟩
      · exact Or.inl (hne hmem)

/-- A statement of the acceptor moves a socket along; a statement of a thread
    only moves the line between what is handed over and what is queued. -/
theorem ActorStep.conserves : (∀ pc pc', a = .acceptor pc → a' = .acceptor pc' →
      sv.accepted = sv.handed.map (fun p => p.2) ++ sv.client_queue.toList ++ pc.pending →
      sv'.accepted = sv'.handed.map (fun p => p.2) ++ sv'.client_queue.toList ++ pc'.pending) ∧
    ((∀ pc, a ≠ .acceptor pc) → sv'.accepted = sv.accepted ∧
      sv'.handed.map (fun p => p.2) ++ sv'.client_queue.toList =
        sv.handed.map (fun p => p.2) ++ sv.client_queue.toList) := by
  cases h with
  | accept sock =>
    refine ⟨?_, by simp⟩
    rintro _ _ ⟨⟩ ⟨⟩ hc
    simp only [AcceptPc.pending, append_nil] at hc ⊢
    rw [hc]
  | push sock q hq =>
    refine ⟨?_, by simp⟩
    rintro _ _ ⟨⟩ ⟨⟩ hc
    simp only [AcceptPc.pending, append_nil] at hc ⊢
    rw [hc, QQueue.push_toList hq, append_assoc]
  | signal k =>
    refine ⟨?_, by simp⟩
    rintro _ _ ⟨⟩ ⟨⟩ hc
    exact hc
  | loop pc pc' h h' hs =>
    refine ⟨?_, by simp⟩
    rintro _ _ ⟨⟩ ⟨⟩ hc
    rw [h', hc]
    rcases h with rfl | rfl <;> rfl
  | wait t trigger hpc hstate hauto hcond hout => exact ⟨by simp, fun _ => ⟨rfl, rfl⟩⟩
  | pop t sock q hpc hq =>
    refine ⟨by simp, fun _ => ⟨rfl, ?_⟩⟩
    simp [QQueue.pop_toList hq]
  | popEmpty t hpc hq | local_ t t' stat hpast hb hb' hend | shutdown => exact ⟨by simp, fun _ => ⟨rfl, rfl⟩⟩

/-- The flag is never taken back, and a thread only leaves its loop because of
    it. -/
theorem ActorStep.ends : (sv.shutdown_asap = true → sv'.shutdown_asap = true) ∧
      ∀ t', a' = .thread t' → t'.pc = .leave ∨ t'.pc = .finished → sv'.shutdown_asap = true ∨
          ∃ t, a = .thread t ∧ (t.pc = .leave ∨ t.pc = .finished) := by
  cases h with
  | wait t trigger hpc hstate hauto hcond hout =>
    refine ⟨id, ?_⟩
    rintro _ ⟨⟩ hend
    rcases waitTest_cases sv i t trigger with ⟨hb, _⟩ | ⟨hb, _⟩ <;> simp [hb] at hend
  | local_ t t' stat hpast hb hb' hend =>
    refine ⟨id, ?_⟩
    rintro _ ⟨⟩ h
    rcases hend h with hs | hs
    · exact Or.inl hs
    · exact Or.inr ⟨t, rfl, hs⟩
  | pop t sock q hpc hq =>
    refine ⟨id, ?_⟩
    rintro _ ⟨⟩ h
    simp at h
  | popEmpty t hpc hq =>
    refine ⟨id, ?_⟩
    rintro _ ⟨⟩ h
    simp at h
  | shutdown => exact ⟨fun _ => rfl, by simp⟩
  | _ => exact ⟨id, by simp⟩

end

end Step

/-! ## §4. Whole runs. -/

section Runs

variable {n : ℕ} {c c' : Conf Server Actor} {m : Move Unit Outcome}

theorem HandOff.own_cond {i : ℕ} {a : Actor} (h : HandOff n c) (ha : c.pool[i]? = some a)
    (hi : i ∈ c.shared.client_queue_trigger.cond) : ∃ t, a = .thread t ∧ t.pc = .blocked := by
  obtain ⟨t, ht, hpc⟩ := h.cond i hi
  exact ⟨t, Option.some.inj (ha.symm.trans ht), hpc⟩

/-- **One statement of an actor keeps everything.** -/
theorem HandOff.run {i : ℕ} {a a' : Actor} {sv' : Server} (h : HandOff n c)
    (ha : c.pool[i]? = some a) (hs : ActorStep c.shared i a sv' a') :
    HandOff n { shared := sv', pool := c.pool.set i a' } := by
  have hlayout := h.layout.run ha hs
  obtain ⟨hauto, hstate⟩ := hs.trigger h.autoreset h.state
  refine ⟨hlayout, h.covered.run ha hs, hauto, hstate, ?_, ?_, ?_, ?_⟩
  · -- the accept loop stands at position 0, so either it moved or a thread did
    intro pc' hpc'
    obtain ⟨hacc, hthr⟩ := hs.conserves
    rcases lookup_set hpc' with ⟨rfl, rfl⟩ | ⟨hne, hold⟩
    · obtain ⟨pc, hpc⟩ := h.layout.acceptor
      rw [ha, Option.some.injEq] at hpc
      subst hpc
      exact hacc pc pc' rfl rfl (h.conserved pc ha)
    obtain ⟨hsame, hline⟩ := hthr (fun pc hpc => by
      subst hpc
      exact hne (h.layout.of_acceptor ha).symm)
    show sv'.accepted = _
    rw [hsame, h.conserved pc' hold, hline]
  · intro j hj
    rcases hs.cond (h.own_cond ha) hj with ⟨hne, hmem⟩ | ⟨rfl, t', rfl, hpc⟩
    · obtain ⟨t, ht, hpc⟩ := h.cond j hmem
      exact ⟨t, lookup_set_ne hne ht, hpc⟩
    · exact ⟨t', lookup_set_self ha, hpc⟩
  · intro hn hset
    have hthread : ∀ j, 1 ≤ j → j ≤ n → ∃ t, (c.pool.set i a')[j]? = some (.thread t) :=
      hlayout.threads
    rcases hs.sets h.autoreset hset with ⟨k, rfl, htrig⟩ | ⟨hold, hnb⟩
    · rw [htrig]
      by_cases hempty : c.shared.client_queue_trigger.cond = []
      · -- nobody was blocked
        obtain ⟨t, ht⟩ := hthread 1 le_rfl hn
        refine ⟨1, t, ht, fun hmem => ?_⟩
        have hmem := QTrigger.mem_of_mem_signal hmem
        rw [hempty] at hmem
        exact absurd hmem (by simp)
      · obtain ⟨j, hj, hnot⟩ := QTrigger.signal_wakes (k := k) hempty
        obtain ⟨t, ht, _⟩ := h.cond j hj
        obtain ⟨h₁, h₂⟩ := h.layout.of_thread ht
        obtain ⟨t', ht'⟩ := hthread j h₁ h₂
        exact ⟨j, t', ht', hnot⟩
    · -- the one that was not blocked before has not blocked now
      obtain ⟨j, t, ht, hnot⟩ := h.unblocked hn hold
      obtain ⟨h₁, h₂⟩ := h.layout.of_thread ht
      obtain ⟨t', ht'⟩ := hthread j h₁ h₂
      refine ⟨j, t', ht', fun hmem => ?_⟩
      rcases hs.cond (h.own_cond ha) hmem with ⟨_, hold⟩ | ⟨rfl, u, rfl, hpc⟩
      · exact hnot hold
      · exact hnb u rfl hpc
  · intro j t ht hend
    obtain ⟨hkeep, hself⟩ := hs.ends
    rcases lookup_set ht with ⟨rfl, rfl⟩ | ⟨_, hold⟩
    · rcases hself t rfl hend with hshut | ⟨u, rfl, hu⟩
      · exact hshut
      · exact hkeep (h.ended j u ha hu)
    · exact hkeep (h.ended j t hold hend)

/-- **One move keeps everything.** -/
theorem HandOff.step (h : HandOff n c) (hs : Requests.step c m = some c') : HandOff n c' := by
  rcases step_inv hs with ⟨rfl, rfl⟩ | ⟨i, o, a, sv', a', rfl, ha, hact, rfl⟩
  · -- somebody asks for a shutdown: a new actor at the end
    have hold : ∀ (j : ℕ) (b : Actor), (c.pool ++ [.shutdown false])[j]? = some b →
        c.pool[j]? = some b ∨ (c.pool.length ≤ j ∧ b = .shutdown false) := by
      intro j b hb
      rcases pool_lookup_arrive hb with h | ⟨rfl, rfl⟩
      · exact Or.inl h
      · exact Or.inr ⟨le_rfl, rfl⟩
    refine ⟨⟨?_, ?_, ?_⟩, ?_, h.autoreset, h.state, ?_, ?_, ?_, ?_⟩
    · obtain ⟨pc, hpc⟩ := h.layout.acceptor
      exact ⟨pc, lookup_arrive hpc⟩
    · intro j h₁ h₂
      obtain ⟨t, ht⟩ := h.layout.threads j h₁ h₂
      exact ⟨t, lookup_arrive ht⟩
    · intro j b hb hj
      rcases hold j b hb with hb | ⟨_, rfl⟩
      · exact h.layout.others j b hb hj
      · exact ⟨false, rfl⟩
    · intro hne
      rcases h.covered hne with hs | ⟨j, b, hb, hd⟩
      · exact Or.inl hs
      · exact Or.inr ⟨j, b, lookup_arrive hb, hd⟩
    · intro pc hpc
      rcases hold 0 _ hpc with hpc | ⟨_, hb⟩
      · exact h.conserved pc hpc
      · exact absurd hb (by simp)
    · intro j hj
      obtain ⟨t, ht, hpc⟩ := h.cond j hj
      exact ⟨t, lookup_arrive ht, hpc⟩
    · intro hn hset
      obtain ⟨j, t, ht, hnot⟩ := h.unblocked hn hset
      exact ⟨j, t, lookup_arrive ht, hnot⟩
    · intro j t ht hend
      rcases hold j _ ht with ht | ⟨_, hb⟩
      · exact h.ended j t ht hend
      · exact absurd hb (by simp)
  · exact h.run ha hact

/-- **Everything about every reachable state.** -/
theorem handOff_reach {q : QQueue ℤ} (hq : q.toList = [])
    {ok : Conf Server Actor → Move Unit Outcome → Prop}
    (hc : Reach Requests.step ok (boot q n) c) : HandOff n c :=
  Reach.invariant (HandOff n) (handOff_boot hq n) (fun _ _ _ h _ hs => h.step hs) hc

end Runs

end KalavaPir.Requests
