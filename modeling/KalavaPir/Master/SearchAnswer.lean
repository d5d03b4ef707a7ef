/-
  KalavaPir.Master.SearchAnswer — whom a search asks and what it returns.

  The index of a worker travels from the creating loop to the thread through
  `search_info[i].index`, a `uint8_t`, while the number of workers is an
  `int32_t` that comes from a request or a file.  Up to 256 workers every
  worker is asked once; from 257 on worker 256 is never asked and worker 0 is
  asked twice.
-/
import KalavaPir.Master.SearchTermination

namespace KalavaPir.Master

open KalavaPir.Common
open KalavaPir.Framework List

variable {S : Type}

/-! ## §1. Whom a search asks. -/

/-- The workers the threads of a search have called. -/
def Search.calls (s : Search S) : List ℕ := s.children.filterMap (fun c => c.called)

/-- Each of the `n` workers has been called exactly once. -/
def Search.AsksEachOnce (s : Search S) (n : ℕ) : Prop := ∀ w, w < n → s.calls.count w = 1

/-- Each thread has used the loop index it was created with. -/
def Search.UsesLoopIndex (s : Search S) : Prop :=
  ∀ (i : ℕ) (c : Child S), s.children[i]? = some c → c.kind = .search → c.called = some i

/-- One thread per worker, its index cut down to eight bits. -/
theorem Collected.calls_eq {env : Env S} {sv : Server S} {s : Search S} (hshape : Shape env sv s)
    (h : Collected env s) (hj : s.pc.freed = true) : s.calls = (List.range s.workers).map (· % 256) := by
  have hmap : s.children.map (fun c => c.called) = (List.range s.children.length).map (fun j =>
      if j < s.workers then some (j % 256) else none) := by
    refine ext_getElem (by simp) fun j h₁ h₂ => ?_
    have hlt : j < s.children.length := by simpa using h₁
    have hcall := (h.child_done hshape hj (getElem?_eq_getElem hlt)).1
    simp [hcall]
  have hfirst : (List.range s.workers).filterMap (fun j =>
      if j < s.workers then some (j % 256) else none) = (List.range s.workers).map (· % 256) := by
    rw [← filterMap_eq_map]
    refine filterMap_congr fun j hj' => ?_
    simp [mem_range.mp hj']
  have hcalls : s.calls = (s.children.map (fun c => c.called)).filterMap id := by
    simp [Search.calls, filterMap_map]
  rw [hcalls, hmap, filterMap_map, Function.id_comp, (hshape.finished hj).1, SearchPc.total]
  split
  · rw [range_succ, filterMap_append, hfirst]
    simp
  · exact hfirst

section Scatter

variable [LinearOrder S] {env : Env S} {sv : Server S} {s : Search S}

/-- **Every worker is asked once exactly when the index fits.** -/
theorem SearchInv.asksEachOnce_iff (h : SearchInv env sv s) (hj : s.pc.freed = true) :
    s.AsksEachOnce s.workers ↔ s.workers ≤ 256 := by
  have hcalls := h.collected.calls_eq h.shape hj
  constructor
  · intro honce
    by_contra hbig
    have hcount := honce 256 (by omega)
    -- no call ever goes to worker 256
    have hnot : 256 ∉ s.calls := by
      rw [hcalls, mem_map]
      rintro ⟨j, _, hmod⟩
      have := Nat.mod_lt j (by omega : 0 < 256)
      omega
    rw [count_eq_zero_of_not_mem hnot] at hcount
    exact absurd hcount (by simp)
  · intro hle w hw
    have hid : (List.range s.workers).map (· % 256) = List.range s.workers := by
      refine (map_congr_left fun j hj' => ?_).trans (map_id _)
      have := mem_range.mp hj'
      exact Nat.mod_eq_of_lt (by omega)
    rw [hcalls, hid]
    exact count_eq_one_of_mem nodup_range (mem_range.mpr hw)

/-- **Every thread uses its own index exactly when the index fits.** -/
theorem SearchInv.usesLoopIndex_iff (h : SearchInv env sv s) (hj : s.pc.freed = true) :
    s.UsesLoopIndex ↔ s.workers ≤ 256 := by
  constructor
  · intro hown
    by_contra hbig
    have hlen : 256 < s.children.length := by
      rw [(h.shape.finished hj).1, SearchPc.total]
      split <;> omega
    have hget := getElem?_eq_getElem hlen
    have hkind := (h.shape.slots 256 _ hget).2.1
    have hcall := (h.collected.child_done h.shape hj hget).1
    rw [hown 256 _ hget (by rw [hkind]; simp [kindOf]; omega)] at hcall
    exact absurd hcall (by simp)
  · intro hle i c hc hk
    have hkind := (h.shape.slots i c hc).2.1
    have hlt : i < s.workers := by
      by_contra hge
      rw [hk] at hkind
      simp [kindOf, hge] at hkind
    rw [(h.collected.child_done h.shape hj hc).1, if_pos hlt, Nat.mod_eq_of_lt (by omega)]

end Scatter

/-! ## §2. Main results. -/

section Main

variable [LinearOrder S]

/-- **EVERY WORKER IS ASKED ONCE IFF THERE ARE AT MOST 256.**  In every run in
    which the table is left alone, a search that has joined its threads asked
    each worker once, with the index of the loop, exactly when the table it
    found has at most 256 workers; and every fair run of a search gets there. -/
theorem scatter_exact (env : Env S) :
    (∀ (state : BitVec 8) (vec : List WorkerInfo) (pool : QQueue (SearchObj S)) (k : ℕ)
        (c : Conf (Server S) (Actor S)) (s : Search S),
      Reach (step env) (TableStill k) (boot state vec pool) c →
      c.pool[k]? = some (.search s) → s.pc.freed = true →
      (s.AsksEachOnce s.workers ∧ s.UsesLoopIndex ↔ s.workers ≤ 256)) ∧
    (∀ (vec : List WorkerInfo) (pool : QQueue (SearchObj S)) (imgPath : List Char)
        (sched : ℕ → Move Request Outcome),
      pool.toList ≠ [] →
      GuardedSched (step env) OnlySearch (alone vec pool imgPath) sched →
      FairFor (· ∈ .run 0 {} :: searchThreads vec.length) sched →
      ∃ N s, (stateAt (step env) (alone vec pool imgPath) sched N).pool[0]? = some (.search s) ∧
        s.pc = .done ∧ s.workers = vec.length ∧
        (s.AsksEachOnce vec.length ∧ s.UsesLoopIndex ↔ vec.length ≤ 256)) := by
  have hsafe : ∀ (sv : Server S) (s : Search S), SearchInv env sv s → s.pc.freed = true →
      (s.AsksEachOnce s.workers ∧ s.UsesLoopIndex ↔ s.workers ≤ 256) := by
    intro sv s h hj
    rw [h.asksEachOnce_iff hj, h.usesLoopIndex_iff hj, and_self]
  refine ⟨?_, ?_⟩
  · intro state vec pool k c s hc hs hj
    exact hsafe _ s (searchInv_reach hc hs) hj
  · intro vec pool imgPath sched hobj hg hfair
    obtain ⟨N, s, r, hs, hdone, _, hw, _, _⟩ := alone_answers hobj hg hfair
    have hreach := (reach_alone (stateAt_reach hg N)).2
    have hiff := hsafe _ s (searchInv_reach hreach hs) (by rw [hdone]; rfl)
    rw [hw] at hiff
    exact ⟨N, s, hs, hdone, hw, hiff⟩

/-- Some run of the master that leaves the table to the search answers a search
    for `imgPath` over `n` workers with `r`. -/
def Answers (env : Env S) (imgPath : List Char) (n : ℕ) (r : SearchResponse S) : Prop :=
  ∃ (state : BitVec 8) (vec : List WorkerInfo) (pool : QQueue (SearchObj S)) (k : ℕ)
      (c : Conf (Server S) (Actor S)) (s : Search S),
    Reach (step env) (TableStill k) (boot state vec pool) c ∧ c.pool[k]? = some (.search s) ∧
      s.imgPath = imgPath ∧ s.workers = n ∧ s.resp = some r ∧ r.tag = PIR_SOAP_TAG_OK

/-- **A SEARCH RETURNS THE BEST OF WHAT ITS WORKERS ANSWERED.**  Over at most
    256 workers the answer is a best-first list of `query_num` of the results of
    the workers whose call succeeded; two runs with the same workers return the
    same scores, even with different sorting algorithms; and every fair run
    answers. -/
theorem search_best_first (env : Env S) (hrank : env.ranking ≠ .AscendingSort) :
    (∀ (imgPath : List Char) (n : ℕ) (r : SearchResponse S), n ≤ 256 → Answers env imgPath n r →
      0 ≤ env.query_num.toInt ∨ (env.results imgPath n).card < 2 ^ 31 →
      TopK (fun p : Scored S => p.2) (sizeT env.query_num) (env.results imgPath n) r.matches_) ∧
    (∀ (env' : Env S) (imgPath : List Char) (n : ℕ) (r r' : SearchResponse S),
      env'.ranking ≠ .AscendingSort → env'.net = env.net → env'.query_num = env.query_num →
      Answers env imgPath n r → Answers env' imgPath n r' →
      r.matches_.map (fun p => p.2) = r'.matches_.map (fun p => p.2)) ∧
    (∀ (vec : List WorkerInfo) (pool : QQueue (SearchObj S)) (imgPath : List Char)
        (sched : ℕ → Move Request Outcome),
      pool.toList ≠ [] →
      GuardedSched (step env) OnlySearch (alone vec pool imgPath) sched →
      FairFor (· ∈ .run 0 {} :: searchThreads vec.length) sched →
      ∃ N s r, (stateAt (step env) (alone vec pool imgPath) sched N).pool[0]? = some (.search s) ∧
        s.pc = .done ∧ s.resp = some r ∧ Answers env imgPath vec.length r) := by
  refine ⟨?_, ?_, ?_⟩
  · rintro imgPath n r hn ⟨state, vec, pool, k, c, s, hc, hs, rfl, rfl, hr, htag⟩ hq
    exact (searchInv_reach hc hs).best_first hrank hr htag hn hq
  · rintro env' imgPath n r r' hrank' hnet hnum
      ⟨state, vec, pool, k, c, s, hc, hs, rfl, rfl, hr, htag⟩
      ⟨state', vec', pool', k', c', s', hc', hs', himg, hwork, hr', htag'⟩
    have htop := (searchInv_reach hc hs).topK hrank hr htag
    have htop' := (searchInv_reach hc' hs').topK hrank' hr' htag'
    -- both lists are cut out of one bag
    have hbag : env'.answers s'.imgPath s'.workers = env.answers s.imgPath s.workers := by
      rw [himg, hwork]
      simp only [Env.answers, Env.answer, hnet]
    rw [hbag, hnum] at htop'
    exact htop.keys_eq htop'
  · intro vec pool imgPath sched hobj hg hfair
    obtain ⟨N, s, r, hs, hdone, himg, hw, hr, htag⟩ := alone_answers hobj hg hfair
    have hreach := (reach_alone (stateAt_reach hg N)).2
    exact ⟨N, s, r, hs, hdone, hr, _, _, _, _, _, s, hreach, hs, himg, hw, hr, htag⟩

end Main

/-! ## §3. Concrete searches. -/

/-- Three workers, the second of which does not answer. -/
def threeWorkers : Env ℕ :=
  { ranking := .DescendingSort, query_num := 2#32, ocr_enabled := true,
    net := fun _ i => match i with
      | 0 => some [(['a'], 3), (['b'], 7)]
      | 2 => some [(['c'], 5)]
      | _ => none
    sort := StdSort.merge _ }

/-- An object in which an earlier search left something. -/
def usedObject : QQueue (SearchObj ℕ) :=
  QQueue.single { image_path := ['y'], search_res := [(['z'], 9)], ocr := [] }

/-- A table of `n` workers. -/
def tableOf (n : ℕ) : List WorkerInfo :=
  List.replicate n
    { workspace := ['w'], tpldir := ['t'], method := ['m'], option := ['o'], state := 0 }

/-- The search among three workers returns the scores 7 and 5. -/
theorem search_best_first_three :
    threeWorkers.ranking ≠ .AscendingSort ∧
    ∃ N s r, (stateAt (step threeWorkers) (alone (tableOf 3) usedObject ['x'])
        (cycle (.run 0 {}) (searchThreads 3)) N).pool[0]? = some (.search s) ∧
      s.pc = .done ∧ s.resp = some r ∧ r.matches_.map (fun p => p.2) = [7, 5] := by
  have hrank : threeWorkers.ranking ≠ .AscendingSort := by decide
  obtain ⟨htop, _, hruns⟩ := search_best_first threeWorkers hrank
  obtain ⟨N, s, r, hs, hdone, hr, hans⟩ := hruns (tableOf 3) usedObject ['x'] _ (by decide)
    (roundRobin_guarded _ _ _ _ 3) (cycle_fair _ _)
  refine ⟨hrank, N, s, r, hs, hdone, hr, ?_⟩
  -- the three results, best first
  have hbest : TopK (fun p : Scored ℕ => p.2) 2 (threeWorkers.results ['x'] 3)
      ([(['b'], 7), (['c'], 5), (['a'], 3)].take 2) :=
    topK_take 2 (by decide) (by decide)
  exact (htop ['x'] 3 r (by decide) hans (Or.inl (by decide))).keys_eq hbest

/-- The search among three workers asks each of them once. -/
theorem scatter_exact_three :
    ∃ N s, (stateAt (step threeWorkers) (alone (tableOf 3) usedObject ['x'])
        (cycle (.run 0 {}) (searchThreads 3)) N).pool[0]? = some (.search s) ∧
      s.pc = .done ∧ s.AsksEachOnce 3 ∧ s.UsesLoopIndex := by
  obtain ⟨N, s, hs, hdone, _, hiff⟩ := (scatter_exact threeWorkers).2 (tableOf 3) usedObject ['x'] _
    (by decide) (roundRobin_guarded _ _ _ _ 3) (cycle_fair _ _)
  exact ⟨N, s, hs, hdone, hiff.mpr (by decide)⟩

/-- `257|w|w|…|w`. -/
def workers257 : List Char := ['2', '5', '7'] ++ (List.replicate 257 ['|', 'w']).flatten

theorem getData_workers257 : ∃ v, getData workers257 = some (257, v) := by
  have hnum : (getData workers257).map (·.1) = some 257 := by decide
  obtain ⟨⟨n, v⟩, hv, rfl⟩ := Option.map_eq_some_iff.mp hnum
  exact ⟨v, hv⟩

/-- A request can install 257 workers, and a search among them does not ask
    each of them once. -/
theorem scatter_misses_worker :
    ¬ ∀ (env : Env ℕ) (workspace tpldir method option : List Char) (vec : List WorkerInfo)
        (pool : QQueue (SearchObj ℕ)) (c : Conf (Server ℕ) (Actor ℕ)) (s : Search ℕ),
      initWorkerInfo workspace tpldir method option = some vec →
      Reach (step env) (TableStill 0) (boot PIR_STATE_READY vec pool) c →
      c.pool[0]? = some (.search s) → s.pc = .done →
      s.AsksEachOnce vec.length ∧ s.UsesLoopIndex := by
  intro hall
  obtain ⟨v, hv⟩ := getData_workers257
  obtain ⟨vec, hvec, hlen⟩ := initWorkerInfo_length hv hv hv hv
  have hfair : FairFor (· ∈ .run 0 {} :: searchThreads vec.length)
      (cycle (.run 0 {}) (searchThreads vec.length)) := cycle_fair _ _
  have hg := roundRobin_guarded silentEnv vec oneObject ['x'] vec.length
  obtain ⟨N, s, r, hs, hdone, _, hw, _⟩ := alone_answers (by decide) hg hfair
  have hreach := (reach_alone (stateAt_reach hg N)).2
  have honce := (hall silentEnv _ _ _ _ vec oneObject _ s hvec hreach hs hdone).1
  rw [← hw, (searchInv_reach hreach hs).asksEachOnce_iff (by rw [hdone]; rfl)] at honce
  omega

end KalavaPir.Master
