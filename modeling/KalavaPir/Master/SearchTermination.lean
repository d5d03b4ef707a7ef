/-
  KalavaPir.Master.SearchTermination — a search that is left alone comes to its
  end.

  Every statement of the search and of its threads lowers `Search.rank`, except
  a `q_create_thread` that is refused and tried again; and as long as the
  search has not answered, its own thread or one of those it created can take a
  step.  Hence under every fair scheduler the request is answered.

  The object it pops and pushes comes from the pool, so the pool must not be
  empty when the search begins; pushing it back always finds room.
-/
import Mathlib.Algebra.BigOperators.Intervals
import KalavaPir.Master.SearchResult

namespace KalavaPir.Master

open KalavaPir.Common
open KalavaPir.Framework List

variable {S : Type}

/-! ## §1. The rank. -/

/-- The statements still ahead of the request's own thread, over `n`
    workers. -/
def SearchPc.rank (n : ℕ) : SearchPc → ℕ
  | .check => 26 + 5 * n
  | .allocTid => 25 + 5 * n
  | .allocInfo => 24 + 5 * n
  | .popObj => 23 + 5 * n
  | .prepare => 22 + 5 * n
  | .createTest .search i => 21 + 2 * n + 3 * (n - i)
  | .setInfo .search i => 20 + 2 * n + 3 * (n - i)
  | .createThread .search i => 19 + 2 * n + 3 * (n - i)
  | .ocrInit => 18 + 2 * n
  | .createTest .ocr i => 14 + 2 * n + 3 * (n + 1 - i)
  | .setInfo .ocr i => 13 + 2 * n + 3 * (n + 1 - i)
  | .createThread .ocr i => 12 + 2 * n + 3 * (n + 1 - i)
  | .joinTest .search i => 11 + 2 * (n - i)
  | .join .search i => 10 + 2 * (n - i)
  | .joinOcrInit => 9
  | .joinTest .ocr i => 6 + 2 * (n + 1 - i)
  | .join .ocr i => 5 + 2 * (n + 1 - i)
  | .free => 4
  | .sort => 3
  | .respond => 2
  | .pushObj => 1
  | .done => 0
  | .refused => 0

/-- The statements still ahead of a thread of the search. -/
def Child.rank (env : Env S) (imgPath : List Char) (c : Child S) : ℕ :=
  match c.pc with
  | .call => 6 + (env.answer imgPath c.slot).length
  | .report => 1
  | .lock => 5 + c.rest.length
  | .append => 4 + c.rest.length
  | .unlock => 2
  | .logFound => 1
  | .finished => 0

/-- The same for the whole search; a thread not yet created counts in full. -/
def Search.rank (env : Env S) (n : ℕ) (s : Search S) : ℕ :=
  s.pc.rank n +
    (∑ i ∈ Finset.Ico s.children.length (n + 1), (7 + (env.answer s.imgPath i).length)) +
    (s.children.map (Child.rank env s.imgPath)).sum

section Rank

variable {env : Env S} {sv sv' : Server S} {s s' : Search S} {ok : Bool} {n : ℕ}

theorem rank_lt_of_pc (himg : s'.imgPath = s.imgPath) (hchildren : s'.children = s.children)
    (hpc : s'.pc.rank n < s.pc.rank n) : s'.rank env n < s.rank env n := by
  simp only [Search.rank, himg, hchildren]
  omega

theorem rank_createThread {k : Kind} {i : ℕ} {tid : ℕ → Option ℕ} (hi : s.children.length = i)
    (hin : i < n + 1) (hpc : (SearchPc.createTest k (i + 1)).rank n < s.pc.rank n) :
    Search.rank env n { s with
      pc := .createTest k (i + 1)
      tid := tid
      children := s.children ++ [Child.start S k i] } < s.rank env n := by
  have hsum := Finset.sum_eq_sum_Ico_succ_bot hin
    (fun j => 7 + (env.answer s.imgPath j).length)
  simp only [Search.rank, length_append, length_cons, length_nil, map_append,
    map_cons, map_nil, sum_append, sum_cons, sum_nil, hi, Child.rank,
    Child.start, Nat.zero_add] at hsum ⊢
  omega

/-- **A statement of the search lowers the rank**, unless a thread creation was
    refused. -/
theorem main_rank [LinearOrder S] (h : Shape env sv s) (hn : sv.bucketSize = n)
    (hs : s.main env sv ok = some (sv', s')) :
    (sv' = sv ∧ s' = s ∧ ok = false) ∨ s'.rank env n < s.rank env n := by
  have hw := h.within
  have hwork := h.workers_eq
  rw [hn] at hwork
  cases main_inv hs with
  | ready hpc _ =>
    exact Or.inr (rank_lt_of_pc rfl rfl (by rw [hpc]; simp only [SearchPc.rank]; omega))
  | refuse hpc _ =>
    exact Or.inr (rank_lt_of_pc rfl rfl (by rw [hpc]; simp only [SearchPc.rank]; omega))
  | allocTid hpc =>
    exact Or.inr (rank_lt_of_pc rfl rfl (by rw [hpc]; simp only [SearchPc.rank]; omega))
  | allocInfo hpc =>
    exact Or.inr (rank_lt_of_pc rfl rfl (by rw [hpc]; simp only [SearchPc.rank]; omega))
  | popObj hpc obj q _ =>
    exact Or.inr (rank_lt_of_pc rfl rfl (by rw [hpc]; simp only [SearchPc.rank]; omega))
  | prepare hpc =>
    exact Or.inr (rank_lt_of_pc rfl rfl (by rw [hpc]; simp only [SearchPc.rank]; omega))
  | createMore k i hpc hlt =>
    refine Or.inr (rank_lt_of_pc rfl rfl ?_)
    rw [hpc]
    cases k <;> simp only [SearchPc.rank] <;> omega
  | createEnd k i hpc hge =>
    refine Or.inr (rank_lt_of_pc rfl rfl ?_)
    rw [hpc]
    cases k <;> simp only [SearchPc.rank, Kind.afterCreate] <;> omega
  | setInfo k i hpc =>
    refine Or.inr (rank_lt_of_pc rfl rfl ?_)
    rw [hpc]
    cases k <;> simp only [SearchPc.rank] <;> omega
  | createThread k i hpc _ =>
    -- the thread was counted in full before it existed
    have hcount := h.count
    have hwork := hwork (by rw [hpc]; rfl)
    rw [hpc] at hw hcount
    rw [hwork] at hw
    have hlt := SearchPc.Within.index_lt (k := k) (by cases k <;> exact hw)
    refine Or.inr (rank_createThread hcount hlt ?_)
    rw [hpc]
    cases k with
    | search =>
      have hw : i < n := hw
      simp only [SearchPc.rank]
      omega
    | ocr =>
      simp only [SearchPc.rank]
      omega
  | createRetry k i hpc hok => exact Or.inl ⟨rfl, rfl, hok⟩
  | ocrOn hpc _ =>
    refine Or.inr (rank_lt_of_pc rfl rfl ?_)
    rw [hpc, hn]
    simp only [SearchPc.rank]
    omega
  | ocrOff hpc _ =>
    refine Or.inr (rank_lt_of_pc rfl rfl ?_)
    rw [hpc]
    simp only [SearchPc.rank]
    omega
  | joinMore k i hpc hlt =>
    refine Or.inr (rank_lt_of_pc rfl rfl ?_)
    rw [hpc]
    cases k <;> simp only [SearchPc.rank] <;> omega
  | joinEnd k i hpc hge =>
    refine Or.inr (rank_lt_of_pc rfl rfl ?_)
    rw [hpc]
    cases k <;> simp only [SearchPc.rank, Kind.afterJoin] <;> omega
  | join k i hpc _ =>
    have hwork := hwork (by rw [hpc]; rfl)
    rw [hpc, hwork] at hw
    refine Or.inr (rank_lt_of_pc rfl rfl ?_)
    rw [hpc]
    cases k with
    | search =>
      have hw : i < n := hw
      simp only [SearchPc.rank]
      omega
    | ocr =>
      have hw : i = n := hw.2
      simp only [SearchPc.rank]
      omega
  | joinOcrOn hpc _ =>
    refine Or.inr (rank_lt_of_pc rfl rfl ?_)
    rw [hpc, hn]
    simp only [SearchPc.rank]
    omega
  | joinOcrOff hpc _ =>
    refine Or.inr (rank_lt_of_pc rfl rfl ?_)
    rw [hpc]
    simp only [SearchPc.rank]
    omega
  | free hpc | sort hpc | respond hpc | pushObj hpc q _ =>
    exact Or.inr (rank_lt_of_pc rfl rfl (by rw [hpc]; simp [SearchPc.rank]))

/-- A thread that moves lowers its own rank. -/
theorem ChildStep.rank {j : ℕ} {c : Child S} (hslot : s.info c.slot = c.slot % 256)
    (hpath : s.search_object.image_path = s.imgPath) (h : ChildStep env s j c s') :
    ∃ c', s'.children = s.children.set j c' ∧
      c'.rank env s.imgPath < c.rank env s.imgPath := by
  cases h with
  | detect hpc _ _ | fault hpc _ _ | report hpc => exact ⟨_, rfl, by simp only [Child.rank, hpc]; omega⟩
  | answer hpc _ ms hnet =>
    -- the results to come were counted at the call
    refine ⟨_, rfl, ?_⟩
    rw [hpath, hslot] at hnet
    simp only [Child.rank, hpc, Env.answer, hnet, Option.getD_some]
    omega
  | lock hpc _ | appended hpc hrest => exact ⟨_, rfl, by simp only [Child.rank, hpc]; omega⟩
  | append hpc m rest hrest =>
    refine ⟨_, rfl, ?_⟩
    simp only [Child.rank, hpc, hrest, length_cons]
    omega
  | unlock hpc | logFound hpc => exact ⟨_, rfl, by simp only [Child.rank, hpc]; omega⟩

/-- **A statement of a thread lowers the rank.** -/
theorem child_rank {j : ℕ} {text : Option (List Char)} (h : Shape env sv s)
    (hcoll : Collected env s) (hs : s.child env j text = some s') : s'.rank env n < s.rank env n := by
  obtain ⟨c, hc, hstep⟩ := child_inv hs
  obtain ⟨hlive, hpc, _, _, _, _, _, himg, _, _, _⟩ := hstep.keeps
  obtain ⟨hslot, _, _, hinfo⟩ := h.slots j c hc
  obtain ⟨c', hset, hlt⟩ := hstep.rank (by rw [hslot]; exact hinfo)
    (hcoll.path (h.live_collecting hc hlive))
  have hsum := pool_sum_set (Child.rank env s.imgPath) c' hc
  simp only [Search.rank, hpc, himg, hset, length_set]
  omega

end Rank

/-! ## §2. Somebody can move. -/

section Moves

variable {env : Env S} {sv : Server S} {s : Search S}

/-- A thread that has not finished and does not wait for the mutex can move. -/
theorem child_moves {j : ℕ} {c : Child S} (hc : s.children[j]? = some c)
    (hlive : c.pc ≠ .finished) (hlock : c.pc = .lock → s.search_mutex = none) :
    (s.child env j none).isSome = true := by
  simp only [Search.child, hc, Search.childAt]
  cases hpc : c.pc with
  | call =>
    cases c.kind with
    | ocr => rfl
    | search => cases env.net s.search_object.image_path (s.info c.slot) <;> rfl
  | report => rfl
  | lock => simp [hlock hpc]
  | append => cases c.rest <;> rfl
  | unlock => rfl
  | logFound => rfl
  | finished => exact absurd hpc hlive

theorem some_child_moves {j : ℕ} {c : Child S} (hcoll : Collected env s)
    (hc : s.children[j]? = some c) (hlive : c.pc ≠ .finished) :
    ∃ m, m < s.children.length ∧ (s.child env m none).isSome = true := by
  cases hmutex : s.search_mutex with
  | none => exact ⟨j, (List.getElem?_eq_some_iff.mp hc).1, child_moves hc hlive fun _ => hmutex⟩
  | some m =>
    obtain ⟨d, hd, hpc⟩ := hcoll.holder m hmutex
    refine ⟨m, (List.getElem?_eq_some_iff.mp hd).1, child_moves hd ?_ ?_⟩
    · rcases hpc with hpc | hpc <;> simp [hpc]
    · intro hl
      rcases hpc with hpc | hpc <;> simp [hpc] at hl

/-- The request's own thread only waits for an object, for room to put it
    back, or for one of its threads. -/
theorem main_moves [LinearOrder S] (hdone : s.pc ≠ .done) (href : s.pc ≠ .refused)
    (hpop : s.pc = .popObj → sv.client_search_queue.pop ≠ none)
    (hpush : s.pc = .pushObj → sv.client_search_queue.push s.search_object.reset ≠ none)
    (hjoin : ∀ k i, s.pc = .join k i → s.joinable i = true) : (s.main env sv true).isSome = true := by
  cases hpc : s.pc <;> simp only [Search.main, hpc]
  case check => split <;> rfl
  case popObj =>
    cases hq : sv.client_search_queue.pop with
    | none => exact absurd hq (hpop hpc)
    | some r => rfl
  case createTest k i => split <;> rfl
  case joinTest k i => split <;> rfl
  case join k i => simp [hjoin k i hpc]
  case pushObj =>
    cases hq : sv.client_search_queue.push s.search_object.reset with
    | none => exact absurd hq (hpush hpc)
    | some q => rfl
  case done => exact absurd hpc hdone
  case refused => exact absurd hpc href
  all_goals rfl

end Moves

/-! ## §3. A search on its own. -/

/-- The search has not popped its object, has it, or has given it back. -/
def SearchPc.beforePop : SearchPc → Bool
  | .check => true
  | .allocTid => true
  | .allocInfo => true
  | .popObj => true
  | _ => false

/-- A READY master with the worker table `vec` takes up one search. -/
def alone (vec : List WorkerInfo) (pool : QQueue (SearchObj S)) (imgPath : List Char) :
    Conf (Server S) (Actor S) :=
  { shared := Server.boot PIR_STATE_READY vec pool, pool := [.search (Search.start S imgPath)] }

/-- Nothing else happens: only the threads of that search run. -/
def OnlySearch (_ : Conf (Server S) (Actor S)) : Move Request Outcome → Prop
  | .arrive _ => False
  | .run i _ => i = 0

/-- The threads of a search over `n` workers. -/
def searchThreads (n : ℕ) : List (Move Request Outcome) :=
  (List.range (n + 1)).map (fun j => .run 0 { thread := some j })

/-- A search while nobody changes the table. -/
structure Alone [LinearOrder S] (env : Env S) (vec : List WorkerInfo)
    (pool : QQueue (SearchObj S)) (imgPath : List Char) (sv : Server S) (s : Search S) :
    Prop where
  inv : SearchInv env sv s
  size : sv.bucketSize = vec.length
  running : sv.exited = false
  ready : s.pc = .check → sv.serverstate = PIR_STATE_READY
  taken : s.pc ≠ .refused
  same : s.imgPath = imgPath
  full : s.pc.beforePop = true → sv.client_search_queue = pool
  room : s.pc.collecting = true ∨ s.pc = .prepare →
    ∃ obj, pool.pop = some (obj, sv.client_search_queue)
  table : s.pc.beforePop = false → s.workers = vec.length

section Alone

variable [LinearOrder S] {env : Env S} {vec : List WorkerInfo} {pool : QQueue (SearchObj S)}
  {imgPath : List Char} {sv sv' : Server S} {s s' : Search S}

theorem Alone.start : Alone env vec pool imgPath (Server.boot PIR_STATE_READY vec pool)
    (Search.start S imgPath) where
  inv := ⟨Shape.start env _ imgPath, Collected.start env imgPath, Answered.start env imgPath⟩
  size := rfl
  running := rfl
  ready _ := rfl
  taken := by simp [Search.start]
  same := rfl
  full _ := rfl
  room h := by simp [Search.start, SearchPc.collecting] at h
  table h := by simp [Search.start, SearchPc.beforePop] at h

section

variable (h : Alone env vec pool imgPath sv s)
include h

theorem Alone.main {ok : Bool} (hs : s.main env sv ok = some (sv', s')) : Alone env vec pool imgPath sv' s' := by
  have hinv := h.inv.main hs
  obtain ⟨hb, _, hex⟩ := main_table hs
  have hsize : sv'.bucketSize = vec.length := hb.trans h.size
  have hrun : sv'.exited = false := hex.trans h.running
  -- once popped, the number of workers is on record
  have htable : s'.pc.active = true → s'.workers = vec.length := fun ha => by
    rw [hinv.shape.workers_eq ha, hsize]
  have hkeep : s'.tidSize = s.tidSize → s.pc.beforePop = false → s'.workers = vec.length := by
    intro ht hp
    simp only [Search.workers, ht]
    exact h.table hp
  -- between the first thread and the answer nobody touches the pool
  have hlater : s.pc.collecting = true → sv'.client_search_queue = sv.client_search_queue →
      s'.imgPath = s.imgPath → s'.tidSize = s.tidSize → s'.pc ≠ .check → s'.pc ≠ .refused →
      s'.pc.beforePop = false → Alone env vec pool imgPath sv' s' := by
    intro hcoll hq himg ht h₁ h₂ h₃
    have hp : s.pc.beforePop = false := by
      cases hpc : s.pc <;> simp_all [SearchPc.collecting, SearchPc.beforePop]
    exact ⟨hinv, hsize, hrun, fun hc => absurd hc h₁, h₂, himg.trans h.same,
      fun hb => absurd hb (by simp [h₃]), fun _ => by rw [hq]; exact h.room (Or.inl hcoll),
      fun _ => hkeep ht hp⟩
  cases main_inv hs with
  | refuse hpc hr => exact absurd (h.ready hpc) hr
  | popObj hpc obj q hpop =>
    have hq := h.full (by rw [hpc]; rfl)
    exact ⟨hinv, hsize, hrun, by simp, by simp, h.same, by simp [SearchPc.beforePop],
      fun _ => ⟨obj, by rw [← hq]; exact hpop⟩, fun _ => htable rfl⟩
  | pushObj hpc q hpush =>
    exact ⟨hinv, hsize, hrun, by simp, by simp, h.same, by simp [SearchPc.beforePop],
      by simp [SearchPc.collecting], fun _ => hkeep rfl (by rw [hpc]; rfl)⟩
  | ready hpc _ =>
    exact ⟨hinv, hsize, hrun, by simp, by simp, h.same, fun _ => h.full (by rw [hpc]; rfl),
      by simp [SearchPc.collecting], by simp [SearchPc.beforePop]⟩
  | allocTid hpc =>
    exact ⟨hinv, hsize, hrun, by simp, by simp, h.same, fun _ => h.full (by rw [hpc]; rfl),
      by simp [SearchPc.collecting], by simp [SearchPc.beforePop]⟩
  | allocInfo hpc =>
    exact ⟨hinv, hsize, hrun, by simp, by simp, h.same, fun _ => h.full (by rw [hpc]; rfl),
      by simp [SearchPc.collecting], by simp [SearchPc.beforePop]⟩
  | prepare hpc =>
    exact ⟨hinv, hsize, hrun, by simp, by simp, h.same, by simp [SearchPc.beforePop],
      fun _ => h.room (Or.inr hpc), fun _ => htable rfl⟩
  | createRetry k i hpc _ => exact h
  | createEnd k i hpc _ =>
    cases k <;> exact hlater (by rw [hpc]; rfl) rfl rfl rfl (by simp [Kind.afterCreate])
      (by simp [Kind.afterCreate]) rfl
  | joinEnd k i hpc _ =>
    cases k <;> exact hlater (by rw [hpc]; rfl) rfl rfl rfl (by simp [Kind.afterJoin])
      (by simp [Kind.afterJoin]) rfl
  | createMore k i hpc _ | setInfo k i hpc | createThread k i hpc _ | ocrOn hpc _ | ocrOff hpc _
  | joinMore k i hpc _ | join k i hpc _ | joinOcrOn hpc _ | joinOcrOff hpc _ | free hpc | sort hpc
  | respond hpc => exact hlater (by rw [hpc]; rfl) rfl rfl rfl (by simp) (by simp) rfl

theorem Alone.child {j : ℕ} {text : Option (List Char)} (hs : s.child env j text = some s') :
    Alone env vec pool imgPath sv s' := by
  obtain ⟨c, hc, hstep⟩ := child_inv hs
  obtain ⟨_, hpc, hsize, _, _, _, _, himg, _⟩ := hstep.keeps
  refine ⟨h.inv.child hs, h.size, h.running, ?_, ?_, himg.trans h.same, ?_, ?_, ?_⟩
  · rw [hpc]
    exact h.ready
  · rw [hpc]
    exact h.taken
  · rw [hpc]
    exact h.full
  · rw [hpc]
    exact h.room
  · intro hp
    rw [hpc] at hp
    simp only [Search.workers, hsize]
    exact h.table hp

/-- **Where no thread of the search can move, the search has answered.** -/
theorem Alone.settled (hpool : pool.toList ≠ [])
    (hmain : s.main env sv true = none ∨ s.main env sv true = some (sv, s))
    (hchild : ∀ j ≤ vec.length, s.child env j none = none ∨ s.child env j none = some s) : s.pc = .done := by
  -- a step always lowers the rank, so it never leads back
  have hno_main : s.main env sv true = none := by
    rcases hmain with hm | hm
    · exact hm
    · rcases main_rank h.inv.shape h.size hm with ⟨_, _, hok⟩ | hlt
      · exact absurd hok (by simp)
      · exact absurd hlt (lt_irrefl _)
  have hno_child : ∀ j ≤ vec.length, s.child env j none = none := by
    intro j hj
    rcases hchild j hj with hm | hm
    · exact hm
    · exact absurd (child_rank (n := vec.length) h.inv.shape h.inv.collected hm) (lt_irrefl _)
  by_contra hdone
  have hsome : (s.main env sv true).isSome = true := by
    refine main_moves hdone h.taken (fun hpc => ?_) (fun hpc => ?_) (fun k i hpc => ?_)
    · rw [h.full (by rw [hpc]; rfl)]
      intro hnone
      exact hpool ((pool.pop_eq_none_iff).mp hnone)
    · -- the cell its object came from is still free
      obtain ⟨obj, hpop⟩ := h.room (Or.inl (by rw [hpc]; rfl))
      intro hnone
      have hfull := (QQueue.push_eq_none_iff _ _).mp hnone
      have hlist := congrArg List.length (QQueue.pop_toList hpop)
      have hmax := QQueue.pop_max_size hpop
      have hlt := pool.size_lt
      rw [QQueue.length_toList, length_cons] at hlist
      omega
    · -- the thread it waits for has finished, or somebody can move
      obtain ⟨htid, c, hc⟩ := h.inv.shape.join_child hpc
      by_contra hnot
      have hlive : c.pc ≠ .finished := by
        intro hfin
        simp [Search.joinable, htid, hc, hfin] at hnot
      obtain ⟨m, hm, hmove⟩ := some_child_moves h.inv.collected hc hlive
      have hle : m ≤ vec.length := by
        have hcount := h.inv.shape.count
        have hcreated := h.inv.shape.within.created_le
        have hw := h.table (by rw [hpc]; rfl)
        omega
      rw [hno_child m hle] at hmove
      exact absurd hmove (by simp)
  rw [hno_main] at hsome
  exact absurd hsome (by simp)

end

/-! ## §4. The whole machine. -/

/-- The search is the only actor. -/
def AloneConf (env : Env S) (vec : List WorkerInfo) (pool : QQueue (SearchObj S))
    (imgPath : List Char) (c : Conf (Server S) (Actor S)) : Prop :=
  ∃ s, c.pool = [.search s] ∧ Alone env vec pool imgPath c.shared s

/-- The rank of the searches of a configuration. -/
def searchRank (env : Env S) (n : ℕ) (c : Conf (Server S) (Actor S)) : ℕ :=
  (c.pool.map (fun a => match a with
    | .search s => s.rank env n
    | _ => 0)).sum

section Machine

variable {c c' : Conf (Server S) (Actor S)}

variable {s₁ : Search S} {m : Move Request Outcome}

theorem step_alone_main {sv₁ : Server S} {o : Outcome} (hpool : c.pool = [.search s])
    (hrun : c.shared.exited = false) (ho : o.thread = none) (hs : s.main env c.shared o.ok = some (sv₁, s₁)) :
    step env c (.run 0 o) = some { shared := sv₁, pool := [.search s₁] } := by
  simp [step, Machine.step, machine, hpool, hrun, Actor.exec, ho, hs]

theorem step_alone_child {j : ℕ} {o : Outcome} (hpool : c.pool = [.search s])
    (hrun : c.shared.exited = false) (ho : o.thread = some j) (hs : s.child env j o.text = some s₁) :
    step env c (.run 0 o) = some { shared := c.shared, pool := [.search s₁] } := by
  simp [step, Machine.step, machine, hpool, hrun, Actor.exec, ho, hs]

/-- **One move**: the search stays alone, and it either tries again or comes
    closer to its end. -/
theorem AloneConf.step (h : AloneConf env vec pool imgPath c) (hok : OnlySearch c m)
    (hs : Master.step env c m = some c') : AloneConf env vec pool imgPath c' ∧
      (c' = c ∨ searchRank env vec.length c' < searchRank env vec.length c) := by
  obtain ⟨s, hpool, hal⟩ := h
  rcases (machine env).step_cases hs with ⟨r, rfl, _⟩ | ⟨i, o, a, sv₁, a₁, new, rfl, ha, hx, rfl⟩
  · exact hok.elim
  have hi : i = 0 := hok
  subst hi
  have ha : a = .search s := by simpa [hpool] using ha.symm
  subst ha
  obtain ⟨_, hexec, rfl⟩ := machine_exec hx
  cases actor_inv hexec with
  | main hmain =>
    refine ⟨⟨_, by simp [hpool], hal.main hmain⟩, ?_⟩
    rcases main_rank hal.inv.shape hal.size hmain with ⟨rfl, rfl, _⟩ | hlt
    · -- a refused thread creation changes nothing at all
      left
      cases c
      simp_all
    · right
      simpa [searchRank, hpool] using hlt
  | child j hchild =>
    refine ⟨⟨_, by simp [hpool], hal.child hchild⟩, Or.inr ?_⟩
    simpa [searchRank, hpool] using
      child_rank (n := vec.length) hal.inv.shape hal.inv.collected hchild

theorem AloneConf.tableStill (h : AloneConf env vec pool imgPath c) (hok : OnlySearch c m) :
    TableStill 0 c m := by
  obtain ⟨s, hpool, _⟩ := h
  cases m with
  | arrive r => trivial
  | run i o =>
    have hi : i = 0 := hok
    subst hi
    intro a ha hw
    have ha : a = .search s := by simpa [hpool] using ha.symm
    subst ha
    exact absurd hw (by simp [Actor.writesTable])

theorem reach_alone (h : Reach (step env) OnlySearch (alone vec pool imgPath) c) :
    AloneConf env vec pool imgPath c ∧
      Reach (step env) (TableStill 0) (boot PIR_STATE_READY vec pool) c := by
  induction h with
  | start =>
    refine ⟨⟨_, rfl, Alone.start⟩, Reach.next Reach.start (l := .arrive (.imSearch imgPath))
      trivial rfl⟩
  | next _ hok hs ih =>
    exact ⟨(ih.1.step hok hs).1, Reach.next ih.2 (ih.1.tableStill hok) hs⟩

/-- **EVERY FAIR RUN OF A SEARCH ENDS WITH AN ANSWER.** -/
theorem alone_answers {sched : ℕ → Move Request Outcome} (hobj : pool.toList ≠ [])
    (hg : GuardedSched (step env) OnlySearch (alone vec pool imgPath) sched)
    (hfair : FairFor (· ∈ .run 0 {} :: searchThreads vec.length) sched) :
    ∃ N s r, (stateAt (step env) (alone vec pool imgPath) sched N).pool[0]? = some (.search s) ∧
      s.pc = .done ∧ s.imgPath = imgPath ∧ s.workers = vec.length ∧
      s.resp = some r ∧ r.tag = PIR_SOAP_TAG_OK := by
  obtain ⟨N, hN⟩ := fairRun_settles (searchRank env vec.length) hg hfair
    (fun c m c' hc hok hs => ((reach_alone hc).1.step hok hs).2)
  obtain ⟨s, hpool, hal⟩ := (reach_alone (stateAt_reach hg N)).1
  generalize hc : stateAt (step env) (alone vec pool imgPath) sched N = c at hN hpool hal
  -- at rest no statement leads anywhere else
  have hmain : s.main env c.shared true = none ∨
      s.main env c.shared true = some (c.shared, s) := by
    cases hs : s.main env c.shared true with
    | none => exact Or.inl rfl
    | some r =>
      obtain ⟨sv₁, s₁⟩ := r
      have heq := hN _ mem_cons_self _
        (step_alone_main hpool hal.running (o := {}) rfl hs)
      subst heq
      have hsame : s₁ = s := by simpa using hpool
      exact Or.inr (by rw [hsame])
  have hchild : ∀ j ≤ vec.length, s.child env j none = none ∨ s.child env j none = some s := by
    intro j hj
    cases hs : s.child env j none with
    | none => exact Or.inl rfl
    | some s₁ =>
      have hmem : Move.run 0 { thread := some j } ∈ searchThreads vec.length :=
        mem_map.mpr ⟨j, mem_range.mpr (by omega), rfl⟩
      have heq := hN _ (mem_cons_of_mem _ hmem) _
        (step_alone_child hpool hal.running (o := { thread := some j }) rfl hs)
      have hsame : s₁ = s := by simpa [hpool] using congrArg Conf.pool heq
      exact Or.inr (by rw [hsame])
  have hdone := hal.settled hobj hmain hchild
  obtain ⟨r, hr⟩ := Option.isSome_iff_exists.mp (hal.inv.answered.replied (Or.inr hdone))
  refine ⟨N, s, r, by rw [hc, hpool]; rfl, hdone, hal.same, hal.table (by rw [hdone]; rfl), hr, ?_⟩
  rcases hal.inv.answered.reply r hr with ⟨hpc, _⟩ | ⟨_, htag, _⟩
  · exact absurd hpc hal.taken
  · exact htag

variable (env vec pool imgPath) in
theorem roundRobin_guarded (n : ℕ) : GuardedSched (step env) OnlySearch (alone vec pool imgPath)
      (cycle (.run 0 {}) (searchThreads n)) := by
  intro k
  have hmem := cycle_mem (.run 0 {}) (searchThreads n) k
  rcases mem_cons.mp hmem with heq | hmem
  · rw [heq]
    rfl
  · obtain ⟨j, _, heq⟩ := mem_map.mp hmem
    rw [← heq]
    rfl

end Machine

end Alone

end KalavaPir.Master
