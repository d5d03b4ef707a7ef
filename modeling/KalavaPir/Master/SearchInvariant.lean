/-
  KalavaPir.Master.SearchInvariant — where a search stands, while the number of
  workers stays what it was when the arrays were allocated.

  Every loop of `ns_imSearch` runs over `0 … bucketSize−1` or is the single
  round `bucketSize`, so the control point alone says how many threads have
  been created and how many have been joined (`created`, `joinedCount`), and
  thread number `j` is always the one in slot `j`.  `Shape` collects this; it
  survives every statement of the search and of its threads as long as
  `bucketSize` does not move between the first and the last read of it
  (`active`).
-/
import KalavaPir.Master.Search

namespace KalavaPir.Master

open KalavaPir.Common
open KalavaPir.Framework List Function

/-! ## §1. What the control point says. -/

namespace SearchPc

/-- Between the first and the last read of `server.bucketSize`. -/
def active : SearchPc → Bool
  | .allocInfo => true
  | .popObj => true
  | .prepare => true
  | .createTest _ _ => true
  | .setInfo _ _ => true
  | .createThread _ _ => true
  | .ocrInit => true
  | .joinTest _ _ => true
  | .join _ _ => true
  | .joinOcrInit => true
  | _ => false

/-- Both arrays are allocated, and in use. -/
def inArrays : SearchPc → Bool
  | .allocInfo => false
  | pc => pc.active

/-- All threads of a search over `n` workers. -/
def total (n : ℕ) (ocr : Bool) : ℕ := if ocr then n + 1 else n

/-- How many threads have been created. -/
def created (n : ℕ) (ocr : Bool) : SearchPc → ℕ
  | .check => 0
  | .allocTid => 0
  | .allocInfo => 0
  | .popObj => 0
  | .prepare => 0
  | .createTest _ i => i
  | .setInfo _ i => i
  | .createThread _ i => i
  | .ocrInit => n
  | .refused => 0
  | _ => total n ocr

/-- How many threads have been joined. -/
def joinedCount (n : ℕ) (ocr : Bool) : SearchPc → ℕ
  | .joinTest _ i => i
  | .join _ i => i
  | .joinOcrInit => n
  | .free => total n ocr
  | .sort => total n ocr
  | .respond => total n ocr
  | .pushObj => total n ocr
  | .done => total n ocr
  | _ => 0

/-- The next statement frees the arrays, or an earlier one has. -/
def freed : SearchPc → Bool
  | .free => true
  | .sort => true
  | .respond => true
  | .pushObj => true
  | .done => true
  | _ => false

/-- The range of the loop counters. -/
def Within (n : ℕ) (ocr : Bool) : SearchPc → Prop
  | .createTest .search i => i ≤ n
  | .setInfo .search i => i < n
  | .createThread .search i => i < n
  | .createTest .ocr i => ocr = true ∧ n ≤ i ∧ i ≤ n + 1
  | .setInfo .ocr i => ocr = true ∧ i = n
  | .createThread .ocr i => ocr = true ∧ i = n
  | .joinTest .search i => i ≤ n
  | .join .search i => i < n
  | .joinTest .ocr i => ocr = true ∧ n ≤ i ∧ i ≤ n + 1
  | .join .ocr i => ocr = true ∧ i = n
  | _ => True

variable {pc : SearchPc} {ocr : Bool}

theorem active_of_inArrays (h : pc.inArrays = true) : pc.active = true := by
  cases pc <;> simp_all [inArrays, active]

variable {n : ℕ}

theorem within_of_not_active (h : pc.active = false) : pc.Within n ocr := by
  cases pc with
  | createTest k i => cases h
  | setInfo k i => cases h
  | createThread k i => cases h
  | joinTest k i => cases h
  | join k i => cases h
  | _ => trivial

theorem Within.index_lt {i : ℕ} {k : Kind} (h : (setInfo k i).Within n ocr) : i < n + 1 := by
  cases k with
  | search =>
    have h : i < n := h
    omega
  | ocr =>
    have h : i = n := h.2
    omega

/-- A search over `n` workers creates at most `n + 1` threads. -/
theorem Within.created_le (h : pc.Within n ocr) : pc.created n ocr ≤ n + 1 := by
  have htotal : total n ocr ≤ n + 1 := by
    unfold total
    split <;> omega
  cases pc with
  | createTest k i =>
    cases k with
    | search => exact Nat.le_succ_of_le h
    | ocr => exact h.2.2
  | setInfo k i => exact Nat.le_of_lt h.index_lt
  | createThread k i => exact Nat.le_of_lt (index_lt (k := k) (by cases k <;> exact h))
  | check | allocTid | allocInfo | popObj | prepare | refused => exact Nat.zero_le _
  | ocrInit => exact Nat.le_succ n
  | _ => exact htotal

end SearchPc

/-- The thread in slot `j` of a search over `n` workers. -/
def kindOf (n j : ℕ) : Kind := if j < n then .search else .ocr

variable {S : Type}

/-- The number of workers the arrays were allocated for. -/
def Search.workers (s : Search S) : ℕ := s.tidSize - 1

/-! ## §2. The invariant. -/

/-- What is true of a search at each of its places. -/
structure Shape (env : Env S) (sv : Server S) (s : Search S) : Prop where
  table : s.pc.active = true → s.tidSize = sv.bucketSize + 1
  infos : s.pc.inArrays = true → s.infoSize = s.tidSize
  within : s.pc.Within s.workers env.ocr_enabled
  count : s.children.length = s.pc.created s.workers env.ocr_enabled
  slots : ∀ j c, s.children[j]? = some c →
    c.slot = j ∧ c.kind = kindOf s.workers j ∧ s.tid j = some j ∧ s.info j = j % 256
  ready : ∀ k i, s.pc = .createThread k i → s.info i = i % 256
  joined : s.joined = List.range (s.pc.joinedCount s.workers env.ocr_enabled)
  ended : ∀ j c, j < s.pc.joinedCount s.workers env.ocr_enabled → s.children[j]? = some c →
    c.pc = .finished

/-- A new search. -/
theorem Shape.start (env : Env S) (sv : Server S) (imgPath : List Char) :
    Shape env sv (Search.start S imgPath) where
  table h := absurd h (by simp [Search.start, SearchPc.active])
  infos h := absurd h (by simp [Search.start, SearchPc.inArrays, SearchPc.active])
  within := trivial
  count := rfl
  slots j c h := absurd h (by simp [Search.start])
  ready k i h := absurd h (by simp [Search.start])
  joined := rfl
  ended j c h := absurd h (by simp [Search.start, SearchPc.joinedCount])

variable {env : Env S} {sv : Server S} {s s' : Search S}

variable {sv' : Server S} {j : ℕ}

/-- Only `bucketSize` matters to a search, while it is active. -/
theorem Shape.congr (h : Shape env sv s) (hb : s.pc.active = true → sv'.bucketSize = sv.bucketSize) :
    Shape env sv' s :=
  { h with table := fun ha => by rw [hb ha]; exact h.table ha }

/-- Moving the control point on, with the arrays and the threads as they
    are. -/
theorem Shape.goto (h : Shape env sv s) (hsize : s'.tidSize = s.tidSize)
    (hinfoSize : s'.infoSize = s.infoSize) (htid : s'.tid = s.tid) (hinfo : s'.info = s.info)
    (hchildren : s'.children = s.children) (hjoined : s'.joined = s.joined)
    (hactive : s'.pc.active = true → s.pc.active = true)
    (harrays : s'.pc.inArrays = true → s.pc.inArrays = true)
    (hwithin : s'.pc.Within s.workers env.ocr_enabled)
    (hcreated : s'.pc.created s.workers env.ocr_enabled = s.pc.created s.workers env.ocr_enabled)
    (hcount : s'.pc.joinedCount s.workers env.ocr_enabled = s.pc.joinedCount s.workers env.ocr_enabled)
    (hready : ∀ k i, s'.pc ≠ .createThread k i) : Shape env sv s' := by
  have hw : s'.workers = s.workers := by simp [Search.workers, hsize]
  constructor
  · intro ha
    rw [hsize]
    exact h.table (hactive ha)
  · intro ha
    rw [hsize, hinfoSize]
    exact h.infos (harrays ha)
  · rw [hw]
    exact hwithin
  · rw [hw, hchildren, hcreated]
    exact h.count
  · rw [hw, hchildren, htid, hinfo]
    exact h.slots
  · intro k i hpc
    exact absurd hpc (hready k i)
  · rw [hw, hjoined, hcount]
    exact h.joined
  · rw [hw, hcount, hchildren]
    exact h.ended

theorem Shape.inside (h : Shape env sv s) (hsize : s'.tidSize = s.tidSize)
    (hinfoSize : s'.infoSize = s.infoSize) (htid : s'.tid = s.tid) (hinfo : s'.info = s.info)
    (hchildren : s'.children = s.children) (hjoined : s'.joined = s.joined) (harrays : s.pc.inArrays = true)
    (hwithin : s'.pc.Within s.workers env.ocr_enabled)
    (hcreated : s'.pc.created s.workers env.ocr_enabled = s.pc.created s.workers env.ocr_enabled)
    (hcount : s'.pc.joinedCount s.workers env.ocr_enabled = s.pc.joinedCount s.workers env.ocr_enabled)
    (hready : ∀ k i, s'.pc ≠ .createThread k i) : Shape env sv s' :=
  h.goto hsize hinfoSize htid hinfo hchildren hjoined
    (fun _ => SearchPc.active_of_inArrays harrays) (fun _ => harrays) hwithin hcreated hcount hready

/-- Moving on to a statement that does not look at the arrays. -/
theorem Shape.outside (h : Shape env sv s) (hsize : s'.tidSize = s.tidSize)
    (hinfoSize : s'.infoSize = s.infoSize) (htid : s'.tid = s.tid) (hinfo : s'.info = s.info)
    (hchildren : s'.children = s.children) (hjoined : s'.joined = s.joined) (hout : s'.pc.active = false)
    (hcreated : s'.pc.created s.workers env.ocr_enabled = s.pc.created s.workers env.ocr_enabled)
    (hcount : s'.pc.joinedCount s.workers env.ocr_enabled = s.pc.joinedCount s.workers env.ocr_enabled) :
    Shape env sv s' := by
  have hnot : s'.pc.active ≠ true := ne_true_of_eq_false hout
  refine h.goto hsize hinfoSize htid hinfo hchildren hjoined (fun ha => absurd ha hnot)
    (fun ha => absurd (SearchPc.active_of_inArrays ha) hnot) (SearchPc.within_of_not_active hout)
    hcreated hcount ?_
  intro k i hpc
  rw [hpc] at hout
  cases hout

/-! ## §3. One statement of the search. -/

/-- A search does not touch the table. -/
theorem main_table [LinearOrder S] {ok : Bool} (h : s.main env sv ok = some (sv', s')) :
    sv'.bucketSize = sv.bucketSize ∧ sv'.workerInfoVec = sv.workerInfoVec ∧
      sv'.exited = sv.exited := by
  cases main_inv h <;> exact ⟨rfl, rfl, rfl⟩

section Main

variable {env : Env S} {sv sv' : Server S} {s s' : Search S} {ok : Bool}

/-- No thread has been created yet. -/
theorem Shape.noChildren (h : Shape env sv s) (hc : s.pc.created s.workers env.ocr_enabled = 0) :
    s.children = [] :=
  length_eq_zero_iff.mp (h.count.trans hc)

theorem Shape.workers_eq (h : Shape env sv s) (ha : s.pc.active = true) : s.workers = sv.bucketSize := by
  have := h.table ha
  simp only [Search.workers]
  omega

theorem shape_allocTid (h : Shape env sv s) (hpc : s.pc = .allocTid) :
    Shape env sv { s with pc := .allocInfo, tidSize := sv.bucketSize + 1 } := by
  have hnil : s.children = [] := h.noChildren (by rw [hpc]; rfl)
  have hj := h.joined
  rw [hpc] at hj
  constructor
  · intro _
    rfl
  · intro ha
    exact absurd ha (by simp [SearchPc.inArrays])
  · trivial
  · simp [hnil, SearchPc.created]
  · intro j c hc
    simp [hnil] at hc
  · intro k i hk
    exact absurd hk (by simp)
  · exact hj
  · intro j c hlt
    exact absurd hlt (by simp [SearchPc.joinedCount])

theorem shape_allocInfo (h : Shape env sv s) (hpc : s.pc = .allocInfo) :
    Shape env sv { s with pc := .popObj, infoSize := sv.bucketSize + 1 } := by
  have htab := h.table (by rw [hpc]; rfl)
  have hcount := h.count
  have hj := h.joined
  rw [hpc] at hcount hj
  exact { h with
    table := fun _ => htab
    infos := fun _ => htab.symm
    within := trivial
    count := hcount
    ready := fun k i hk => absurd hk (by simp)
    joined := hj
    ended := fun j c hlt => absurd hlt (by simp [SearchPc.joinedCount]) }

variable {k : Kind} {i : ℕ}

theorem shape_setInfo (h : Shape env sv s) (hpc : s.pc = .setInfo k i) : Shape env sv
      { s with pc := .createThread k i, info := update s.info i (i % 256) } := by
  have hcount := h.count
  have hj := h.joined
  have hw := h.within
  rw [hpc] at hcount hj hw
  constructor
  · intro _
    exact h.table (by rw [hpc]; rfl)
  · intro _
    exact h.infos (by rw [hpc]; rfl)
  · cases k <;> exact hw
  · exact hcount
  · -- the threads that exist were given earlier slots
    intro j c hc
    obtain ⟨h₁, h₂, h₃, h₄⟩ := h.slots j c hc
    have hlt : j < s.children.length := (List.getElem?_eq_some_iff.mp hc).1
    have hne : j ≠ i := by
      rw [hcount] at hlt
      exact Nat.ne_of_lt hlt
    refine ⟨h₁, h₂, h₃, ?_⟩
    show update s.info i (i % 256) j = j % 256
    rw [update_of_ne hne]
    exact h₄
  · intro k' i' hk
    obtain ⟨rfl, rfl⟩ := hk
    show update s.info i (i % 256) i = i % 256
    rw [update_self]
  · exact hj
  · intro j c hlt
    exact absurd hlt (by simp [SearchPc.joinedCount])

/-- **A THREAD IS CREATED.** -/
theorem shape_createThread (h : Shape env sv s) (hpc : s.pc = .createThread k i) :
    Shape env sv { s with
      pc := .createTest k (i + 1)
      tid := update s.tid i (some s.children.length)
      children := s.children ++ [Child.start S k i] } := by
  have hcount : s.children.length = i := by
    have := h.count
    rwa [hpc] at this
  have hj := h.joined
  have hw := h.within
  have hready := h.ready k i hpc
  rw [hpc] at hj hw
  have hkind : k = kindOf s.workers i := by
    cases k with
    | search =>
      have hw : i < s.workers := hw
      simp [kindOf, hw]
    | ocr =>
      have hw : i = s.workers := hw.2
      simp [kindOf, hw]
  constructor
  · intro _
    exact h.table (by rw [hpc]; rfl)
  · intro _
    exact h.infos (by rw [hpc]; rfl)
  · cases k with
    | search => exact hw
    | ocr =>
      have hi : i = s.workers := hw.2
      exact ⟨hw.1, by show s.workers ≤ i + 1; omega, by show i + 1 ≤ s.workers + 1; omega⟩
  · simp [hcount, SearchPc.created]
  · intro j c hc
    rcases pool_lookup_arrive hc with hold | ⟨hj, rfl⟩
    · obtain ⟨h₁, h₂, h₃, h₄⟩ := h.slots j c hold
      have hlt : j < s.children.length := (List.getElem?_eq_some_iff.mp hold).1
      refine ⟨h₁, h₂, ?_, h₄⟩
      show update s.tid i (some s.children.length) j = some j
      rw [update_of_ne (by omega)]
      exact h₃
    · have hji : j = i := hj.trans hcount
      subst hji
      refine ⟨rfl, hkind, ?_, hready⟩
      show update s.tid j (some s.children.length) j = some j
      rw [update_self, hcount]
  · intro k' i' hk
    exact absurd hk (by simp)
  · exact hj
  · intro j c hlt
    exact absurd hlt (by simp [SearchPc.joinedCount])

/-- The thread a join waits for. -/
theorem Shape.join_child (h : Shape env sv s) (hpc : s.pc = .join k i) :
    s.tid i = some i ∧ ∃ c, s.children[i]? = some c := by
  have hw := h.within
  have hcount := h.count
  rw [hpc] at hw hcount
  have hi : i < s.children.length := by
    rw [hcount]
    show i < SearchPc.total s.workers env.ocr_enabled
    unfold SearchPc.total
    cases k with
    | search =>
      have hw : i < s.workers := hw
      split <;> omega
    | ocr =>
      have ho : env.ocr_enabled = true := hw.1
      have hi : i = s.workers := hw.2
      simp [ho, hi]
  obtain ⟨c, hc⟩ : ∃ c, s.children[i]? = some c := ⟨_, getElem?_eq_getElem hi⟩
  exact ⟨(h.slots i c hc).2.2.1, c, hc⟩

/-- **A THREAD IS JOINED.** -/
theorem shape_join (h : Shape env sv s) (hpc : s.pc = .join k i) (hjoin : s.joinable i = true) : Shape env sv
      { s with pc := .joinTest k (i + 1), joined := s.joined ++ (s.tid i).toList } := by
  obtain ⟨htid, c, hc⟩ := h.join_child hpc
  have hfin : c.pc = .finished := by
    simp only [Search.joinable, htid, hc, Option.all_some, beq_iff_eq] at hjoin
    exact hjoin
  have hcount := h.count
  have hj := h.joined
  have hw := h.within
  have hended := h.ended
  rw [hpc] at hcount hj hw hended
  constructor
  · intro _
    exact h.table (by rw [hpc]; rfl)
  · intro _
    exact h.infos (by rw [hpc]; rfl)
  · cases k with
    | search => exact hw
    | ocr =>
      have hi : i = s.workers := hw.2
      exact ⟨hw.1, by show s.workers ≤ i + 1; omega, by show i + 1 ≤ s.workers + 1; omega⟩
  · exact hcount
  · exact h.slots
  · intro k' i' hk
    exact absurd hk (by simp)
  · show s.joined ++ (s.tid i).toList = List.range (i + 1)
    rw [htid, hj, range_succ]
    rfl
  · intro j d hlt hd
    have hlt : j < i + 1 := hlt
    rcases Nat.lt_succ_iff_lt_or_eq.mp hlt with hlt | rfl
    · exact hended j d hlt hd
    have hd : s.children[j]? = some d := hd
    rw [hc] at hd
    injection hd with hd
    exact hd ▸ hfin

theorem Shape.test_bounds (hn : s.workers = sv.bucketSize)
    (hw : (SearchPc.createTest k i).Within s.workers env.ocr_enabled) (hlt : i < k.bound sv.bucketSize) :
    (SearchPc.setInfo k i).Within s.workers env.ocr_enabled := by
  rw [← hn] at hlt
  cases k with
  | search => exact hlt
  | ocr =>
    have hlt : i < s.workers + 1 := hlt
    have hle := hw.2.1
    exact ⟨hw.1, by omega⟩

/-- A loop that ends has gone through all its rounds. -/
theorem Shape.end_bounds (hn : s.workers = sv.bucketSize)
    (hw : (SearchPc.createTest k i).Within s.workers env.ocr_enabled) (hge : ¬ i < k.bound sv.bucketSize) :
    i = k.bound s.workers := by
  rw [← hn] at hge
  cases k with
  | search =>
    have hge : ¬ i < s.workers := hge
    have hle : i ≤ s.workers := hw
    show i = s.workers
    omega
  | ocr =>
    have hge : ¬ i < s.workers + 1 := hge
    have hle := hw.2.2
    show i = s.workers + 1
    omega

/-- **One statement of the search.** -/
theorem Shape.main [LinearOrder S] (h : Shape env sv s) (hs : s.main env sv ok = some (sv', s')) :
    Shape env sv' s' := by
  obtain ⟨hbucket, _, _⟩ := main_table hs
  suffices hshape : Shape env sv s' from hshape.congr (fun _ => hbucket)
  have hw := h.within
  cases main_inv hs with
  | ready hpc _ =>
    exact h.outside rfl rfl rfl rfl rfl rfl rfl (by rw [hpc]; rfl) (by rw [hpc]; rfl)
  | refuse hpc _ =>
    exact h.outside rfl rfl rfl rfl rfl rfl rfl (by rw [hpc]; rfl) (by rw [hpc]; rfl)
  | allocTid hpc => exact shape_allocTid h hpc
  | allocInfo hpc => exact shape_allocInfo h hpc
  | popObj hpc obj q _ =>
    exact h.inside rfl rfl rfl rfl rfl rfl (by rw [hpc]; rfl)
      trivial (by rw [hpc]; rfl) (by rw [hpc]; rfl) (by simp)
  | prepare hpc =>
    exact h.inside rfl rfl rfl rfl rfl rfl (by rw [hpc]; rfl)
      (Nat.zero_le _) (by rw [hpc]; rfl) (by rw [hpc]; rfl) (by simp)
  | createMore k i hpc hlt =>
    have hn := h.workers_eq (by rw [hpc]; rfl)
    rw [hpc] at hw
    exact h.inside rfl rfl rfl rfl rfl rfl (by rw [hpc]; rfl)
      (Shape.test_bounds hn hw hlt) (by rw [hpc]; rfl) (by rw [hpc]; rfl) (by simp)
  | createEnd k i hpc hge =>
    have hn := h.workers_eq (by rw [hpc]; rfl)
    rw [hpc] at hw
    have hi := Shape.end_bounds hn hw hge
    cases k with
    | search =>
      exact h.inside rfl rfl rfl rfl rfl rfl (by rw [hpc]; rfl)
        trivial (by rw [hpc]; exact hi.symm) (by rw [hpc]; rfl) (by simp [Kind.afterCreate])
    | ocr =>
      refine h.inside rfl rfl rfl rfl rfl rfl (by rw [hpc]; rfl)
        (Nat.zero_le _) ?_ (by rw [hpc]; rfl) (by simp [Kind.afterCreate])
      rw [hpc]
      show SearchPc.total s.workers env.ocr_enabled = i
      simp only [SearchPc.total, hw.1, if_true]
      exact hi.symm
  | setInfo k i hpc => exact shape_setInfo h hpc
  | createThread k i hpc _ => exact shape_createThread h hpc
  | createRetry k i hpc _ => exact h
  | ocrOn hpc ho =>
    have hn := h.workers_eq (by rw [hpc]; rfl)
    exact h.inside rfl rfl rfl rfl rfl rfl (by rw [hpc]; rfl)
      ⟨ho, le_of_eq hn, by omega⟩ (by rw [hpc]; exact hn.symm) (by rw [hpc]; rfl) (by simp)
  | ocrOff hpc ho =>
    refine h.inside rfl rfl rfl rfl rfl rfl (by rw [hpc]; rfl)
      (Nat.zero_le _) ?_ (by rw [hpc]; rfl) (by simp)
    rw [hpc]
    simp [SearchPc.created, SearchPc.total, ho]
  | joinMore k i hpc hlt =>
    have hn := h.workers_eq (by rw [hpc]; rfl)
    rw [hpc] at hw
    refine h.inside rfl rfl rfl rfl rfl rfl (by rw [hpc]; rfl)
      ?_ (by rw [hpc]; rfl) (by rw [hpc]; rfl) (by simp)
    have hset := Shape.test_bounds (k := k) hn (by cases k <;> exact hw) hlt
    cases k <;> exact hset
  | joinEnd k i hpc hge =>
    have hn := h.workers_eq (by rw [hpc]; rfl)
    rw [hpc] at hw
    have hi := Shape.end_bounds (k := k) hn (by cases k <;> exact hw) hge
    cases k with
    | search =>
      exact h.inside rfl rfl rfl rfl rfl rfl (by rw [hpc]; rfl)
        trivial (by rw [hpc]; rfl) (by rw [hpc]; exact hi.symm) (by simp [Kind.afterJoin])
    | ocr =>
      refine h.outside rfl rfl rfl rfl rfl rfl rfl (by rw [hpc]; rfl) ?_
      rw [hpc]
      show SearchPc.total s.workers env.ocr_enabled = i
      simp only [SearchPc.total, hw.1, if_true]
      exact hi.symm
  | join k i hpc hjoin => exact shape_join h hpc hjoin
  | joinOcrOn hpc ho =>
    have hn := h.workers_eq (by rw [hpc]; rfl)
    exact h.inside rfl rfl rfl rfl rfl rfl (by rw [hpc]; rfl)
      ⟨ho, le_of_eq hn, by omega⟩ (by rw [hpc]; rfl) (by rw [hpc]; exact hn.symm) (by simp)
  | joinOcrOff hpc ho =>
    refine h.outside rfl rfl rfl rfl rfl rfl rfl (by rw [hpc]; rfl) ?_
    rw [hpc]
    simp [SearchPc.joinedCount, SearchPc.total, ho]
  | free hpc =>
    exact h.outside rfl rfl rfl rfl rfl rfl rfl (by rw [hpc]; rfl) (by rw [hpc]; rfl)
  | sort hpc =>
    exact h.outside rfl rfl rfl rfl rfl rfl rfl (by rw [hpc]; rfl) (by rw [hpc]; rfl)
  | respond hpc =>
    exact h.outside rfl rfl rfl rfl rfl rfl rfl (by rw [hpc]; rfl) (by rw [hpc]; rfl)
  | pushObj hpc q _ =>
    exact h.outside rfl rfl rfl rfl rfl rfl rfl (by rw [hpc]; rfl) (by rw [hpc]; rfl)

end Main

/-! ## §4. One statement of a thread of the search. -/

/-- A thread leaves the rest of its search as it is. -/
theorem ChildStep.keeps {c : Child S} (h : ChildStep env s j c s') :
    c.pc ≠ .finished ∧ s'.pc = s.pc ∧ s'.tidSize = s.tidSize ∧ s'.infoSize = s.infoSize ∧
      s'.tid = s.tid ∧ s'.info = s.info ∧ s'.joined = s.joined ∧ s'.imgPath = s.imgPath ∧
      s'.resp = s.resp ∧ s'.search_object.image_path = s.search_object.image_path ∧
      ∃ c', s'.children = s.children.set j c' ∧ c'.slot = c.slot ∧ c'.kind = c.kind := by
  cases h <;> simp_all <;> exact ⟨_, rfl, rfl, by simp_all⟩

/-- **One statement of a thread.** -/
theorem Shape.child {text : Option (List Char)} (h : Shape env sv s) (hs : s.child env j text = some s') :
    Shape env sv s' := by
  obtain ⟨c, hc, hstep⟩ := child_inv hs
  obtain ⟨hlive, hpc, hsize, hinfoSize, htid, hinfo, hjoined, _, _, _, c', hset, hslot, hkind⟩ :=
    hstep.keeps
  have hw : s'.workers = s.workers := by simp [Search.workers, hsize]
  -- a thread that has been joined does not move
  have hlate : ¬ j < s.pc.joinedCount s.workers env.ocr_enabled :=
    fun hlt => hlive (h.ended j c hlt hc)
  constructor
  · rw [hpc, hsize]
    exact h.table
  · rw [hpc, hsize, hinfoSize]
    exact h.infos
  · rw [hpc, hw]
    exact h.within
  · rw [hpc, hw, hset, length_set]
    exact h.count
  · intro m d hd
    rw [hset] at hd
    rw [hw, htid, hinfo]
    rcases lookup_set hd with ⟨rfl, rfl⟩ | ⟨_, hold⟩
    · rw [hslot, hkind]
      exact h.slots m c hc
    · exact h.slots m d hold
  · rw [hpc, hinfo]
    exact h.ready
  · rw [hpc, hw, hjoined]
    exact h.joined
  · intro m d hm hd
    rw [hpc, hw] at hm
    rw [hset] at hd
    rcases lookup_set hd with ⟨rfl, _⟩ | ⟨_, hold⟩
    · exact absurd hm hlate
    · exact h.ended m d hm hold

/-- A thread that has not finished is one of a search that still has its
    arrays, and stands in one of their slots. -/
theorem Shape.live_child {c : Child S} (h : Shape env sv s) (hc : s.children[j]? = some c)
    (hlive : c.pc ≠ .finished) : s.pc.inArrays = true ∧ j < s.tidSize := by
  have hlt : j < s.children.length := (List.getElem?_eq_some_iff.mp hc).1
  have hcount := h.count
  have hle := h.within.created_le
  have hnot : ¬ j < s.pc.joinedCount s.workers env.ocr_enabled := fun hj => hlive (h.ended j c hj hc)
  -- before the arrays nothing is created, after them everything is joined
  have hin : s.pc.inArrays = true := by
    cases hpc : s.pc <;> rw [hpc] at hcount hnot <;>
      simp_all [SearchPc.created, SearchPc.joinedCount, SearchPc.inArrays, SearchPc.active]
  have hsize := h.table (SearchPc.active_of_inArrays hin)
  refine ⟨hin, ?_⟩
  simp only [Search.workers] at hle hcount
  omega

/-- All threads are there and have finished. -/
theorem Shape.finished (h : Shape env sv s) (hj : s.pc.freed = true) :
    s.children.length = SearchPc.total s.workers env.ocr_enabled ∧
      ∀ (j : ℕ) (c : Child S), s.children[j]? = some c → c.pc = .finished := by
  have hcreated : s.pc.created s.workers env.ocr_enabled =
      SearchPc.total s.workers env.ocr_enabled := by
    cases hpc : s.pc <;> simp_all [SearchPc.freed, SearchPc.created]
  have hjoined : s.pc.joinedCount s.workers env.ocr_enabled =
      SearchPc.total s.workers env.ocr_enabled := by
    cases hpc : s.pc <;> simp_all [SearchPc.freed, SearchPc.joinedCount]
  refine ⟨h.count.trans hcreated, fun j c hc => h.ended j c ?_ hc⟩
  have hlt : j < s.children.length := (List.getElem?_eq_some_iff.mp hc).1
  rw [h.count, hcreated] at hlt
  rw [hjoined]
  exact hlt

end KalavaPir.Master
