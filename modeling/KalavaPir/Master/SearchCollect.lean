/-
  KalavaPir.Master.SearchCollect — what a search collects from its threads.

  The threads append to one list in any order, under a mutex.  Nothing but the
  BAG of collected results can be said on the way: what has been appended and
  what is still to be appended together are the answers of the workers that
  have been asked (`Collected.bag`).  When the threads have been joined nothing
  is left to be appended.
-/
import Mathlib.Tactic.Abel
import KalavaPir.Master.Service

namespace KalavaPir.Master

open KalavaPir.Common
open KalavaPir.Framework List

variable {S : Type}

/-! ## §1. The bag of answers. -/

/-- What the thread with loop index `i` gets from its worker: the index goes
    through a `uint8_t`. -/
def Env.answer (env : Env S) (imgPath : List Char) (i : ℕ) : List (Scored S) :=
  (env.net imgPath (i % 256)).getD []

/-- What the `n` threads get together. -/
def Env.answers (env : Env S) (imgPath : List Char) (n : ℕ) : Multiset (Scored S) :=
  ((List.range n).map (fun i => (env.answer imgPath i : Multiset (Scored S)))).sum

/-- From the first thread on, until the object is given back. -/
def SearchPc.collecting : SearchPc → Bool
  | .check => false
  | .allocTid => false
  | .allocInfo => false
  | .popObj => false
  | .prepare => false
  | .done => false
  | .refused => false
  | _ => true

/-- The thread in slot `j`, asked for the image `imgPath`. -/
structure ChildOk (env : Env S) (imgPath : List Char) (j : ℕ) (c : Child S) : Prop where
  fresh : c.pc = .call → c.called = none ∧ c.resp = [] ∧ c.rest = []
  asked : c.kind = .search → c.pc ≠ .call →
    c.called = some (j % 256) ∧ c.resp = env.answer imgPath j
  ocr : c.kind = .ocr → c.called = none ∧ c.resp = [] ∧ c.rest = []
  drained : c.pc = .report ∨ c.pc = .unlock ∨ c.pc = .logFound ∨ c.pc = .finished → c.rest = []

/-- What all threads together have got, and what they still have to append. -/
def Search.got (s : Search S) : Multiset (Scored S) :=
  (s.children.map (fun c => (c.resp : Multiset (Scored S)))).sum
/-- The entries that are not in the result yet. -/
def Search.pending (s : Search S) : Multiset (Scored S) :=
  (s.children.map (fun c => (c.rest : Multiset (Scored S)))).sum

/-- What has been collected so far. -/
structure Collected (env : Env S) (s : Search S) : Prop where
  path : s.pc.collecting = true → s.search_object.image_path = s.imgPath
  child : ∀ j c, s.children[j]? = some c → ChildOk env s.imgPath j c
  bag : s.pc.collecting = true →
    (s.search_object.search_res : Multiset (Scored S)) + s.pending = s.got
  /-- whoever holds the mutex is on its way to release it -/
  holder : ∀ j, s.search_mutex = some j →
    ∃ c, s.children[j]? = some c ∧ (c.pc = .append ∨ c.pc = .unlock)

theorem Collected.start (env : Env S) (imgPath : List Char) : Collected env (Search.start S imgPath) where
  path h := absurd h (by simp [Search.start, SearchPc.collecting])
  child j c h := absurd h (by simp [Search.start])
  bag h := absurd h (by simp [Search.start, SearchPc.collecting])
  holder j h := absurd h (by simp [Search.start])

/-! ## §2. One statement of a thread. -/

variable {env : Env S} {s : Search S}

variable {s' : Search S} {j : ℕ} {sv : Server S}

/-- The four things a thread's statement does to the collection. -/
theorem ChildStep.collects {c : Child S} (hslot : s.info c.slot = j % 256)
    (hpath : s.search_object.image_path = s.imgPath) (hok : ChildOk env s.imgPath j c)
    (h : ChildStep env s j c s') : ∃ c', s'.children = s.children.set j c' ∧ ChildOk env s.imgPath j c' ∧
      (s'.search_object.search_res : Multiset (Scored S)) + c'.rest + c.resp =
        s.search_object.search_res + c.rest + c'.resp ∧
      ((s'.search_mutex = s.search_mutex ∧
          (c.pc = .append ∨ c.pc = .unlock → c'.pc = .append ∨ c'.pc = .unlock)) ∨
        (s'.search_mutex = some j ∧ c'.pc = .append) ∨ s'.search_mutex = none) := by
  cases h with
  | detect hpc hk ocr =>
    obtain ⟨_, h₁, h₂⟩ := hok.ocr hk
    refine ⟨_, rfl, ⟨by simp, fun hk' => absurd hk' (by simp [hk]), hok.ocr, fun _ => h₂⟩, rfl,
      Or.inl ⟨rfl, by simp [hpc]⟩⟩
  | fault hpc hk hnet =>
    obtain ⟨_, h₁, h₂⟩ := hok.fresh hpc
    rw [hpath, hslot] at hnet
    refine ⟨_, rfl, ⟨by simp, fun _ _ => ⟨by simp [hslot], ?_⟩, fun hk' => absurd hk' (by simp [hk]),
      fun _ => h₂⟩, rfl, Or.inl ⟨rfl, by simp [hpc]⟩⟩
    simp [Env.answer, hnet, h₁]
  | report hpc =>
    refine ⟨_, rfl, ⟨by simp, fun hk _ => hok.asked hk (by simp [hpc]), hok.ocr,
      fun _ => hok.drained (Or.inl hpc)⟩, rfl, Or.inl ⟨rfl, by simp [hpc]⟩⟩
  | answer hpc hk ms hnet =>
    obtain ⟨_, h₁, h₂⟩ := hok.fresh hpc
    rw [hpath, hslot] at hnet
    refine ⟨_, rfl, ⟨by simp, fun _ _ => ⟨by simp [hslot], ?_⟩, fun hk' => absurd hk' (by simp [hk]),
      by simp⟩, ?_, Or.inl ⟨rfl, by simp [hpc]⟩⟩
    · simp [Env.answer, hnet]
    · simp [h₁, h₂]
  | lock hpc hfree =>
    exact ⟨_, rfl, ⟨by simp, fun hk _ => hok.asked hk (by simp [hpc]), hok.ocr, by simp⟩, rfl,
      Or.inr (Or.inl ⟨rfl, rfl⟩)⟩
  | appended hpc hrest =>
    exact ⟨_, rfl, ⟨by simp, fun hk _ => hok.asked hk (by simp [hpc]), hok.ocr, fun _ => hrest⟩,
      rfl, Or.inl ⟨rfl, by simp⟩⟩
  | append hpc m rest hrest =>
    refine ⟨_, rfl, ⟨by simp [hpc], fun hk _ => hok.asked hk (by simp [hpc]), fun hk => ?_,
      by simp [hpc]⟩, ?_, Or.inl ⟨rfl, by simp [hpc]⟩⟩
    · -- an OCR thread has nothing to append
      rw [(hok.ocr hk).2.2] at hrest
      exact absurd hrest (by simp)
    · have hcons : ((m :: rest : List (Scored S)) : Multiset (Scored S)) = {m} + rest := by
        rw [← Multiset.cons_coe, Multiset.singleton_add]
      have hsnoc : ((s.search_object.search_res ++ [m] : List (Scored S)) : Multiset (Scored S)) =
          s.search_object.search_res + {m} := by
        rw [← Multiset.coe_add, Multiset.coe_singleton]
      rw [hrest, hcons, hsnoc]
      simp only [add_assoc]
  | unlock hpc =>
    exact ⟨_, rfl, ⟨by simp, fun hk _ => hok.asked hk (by simp [hpc]), hok.ocr,
      fun _ => hok.drained (Or.inr (Or.inl hpc))⟩, rfl, Or.inr (Or.inr rfl)⟩
  | logFound hpc =>
    exact ⟨_, rfl, ⟨by simp, fun hk _ => hok.asked hk (by simp [hpc]), hok.ocr,
      fun _ => hok.drained (Or.inr (Or.inr (Or.inl hpc)))⟩, rfl, Or.inl ⟨rfl, by simp [hpc]⟩⟩

theorem Shape.live_collecting {c : Child S} (h : Shape env sv s) (hc : s.children[j]? = some c)
    (hlive : c.pc ≠ .finished) : s.pc.collecting = true := by
  have hin := (h.live_child hc hlive).1
  have hcount := h.count
  cases hp : s.pc <;> rw [hp] at hin hcount <;>
    simp_all [SearchPc.inArrays, SearchPc.active, SearchPc.collecting, SearchPc.created]

/-- **One statement of a thread.** -/
theorem Collected.step_child {text : Option (List Char)} (hshape : Shape env sv s) (h : Collected env s)
    (hs : s.child env j text = some s') :
    Collected env s' := by
  obtain ⟨c, hc, hstep⟩ := child_inv hs
  obtain ⟨hlive, hpc, _, _, _, _, _, himg, _, hpath', _⟩ := hstep.keeps
  have hcoll := hshape.live_collecting hc hlive
  obtain ⟨hslot, _, _, hinfo⟩ := hshape.slots j c hc
  obtain ⟨c', hset, hok', hbag, hmutex⟩ := hstep.collects (by rw [hslot]; exact hinfo)
    (h.path hcoll) (h.child j c hc)
  have hj : j < s.children.length := (List.getElem?_eq_some_iff.mp hc).1
  constructor
  · intro _
    rw [hpath', himg]
    exact h.path hcoll
  · intro m d hd
    rw [himg]
    rw [hset] at hd
    rcases lookup_set hd with ⟨rfl, rfl⟩ | ⟨_, hold⟩
    · exact hok'
    · exact h.child m d hold
  · intro _
    have hrest := pool_sum_set (fun d : Child S => (d.rest : Multiset (Scored S))) c' hc
    have hresp := pool_sum_set (fun d : Child S => (d.resp : Multiset (Scored S))) c' hc
    have hold := h.bag hcoll
    simp only [Search.pending, Search.got, hset] at hrest hresp hold ⊢
    -- cancel what the moving thread had before, on both sides
    refine add_right_cancel (b := (c.rest : Multiset (Scored S)) + c.resp) ?_
    calc _ = (s'.search_object.search_res : Multiset (Scored S)) + c.resp +
            (((s.children.set j c').map (fun d => (d.rest : Multiset (Scored S)))).sum + c.rest) := by
          abel
      _ = (s'.search_object.search_res + c'.rest + c.resp : Multiset (Scored S)) +
            (s.children.map (fun d => (d.rest : Multiset (Scored S)))).sum := by
          rw [hrest]
          abel
      _ = (s.search_object.search_res +
            (s.children.map (fun d => (d.rest : Multiset (Scored S)))).sum) + c.rest + c'.resp := by
          rw [hbag]
          abel
      _ = _ := by
          rw [hold, add_right_comm, ← hresp]
          abel
  · intro m hm
    rw [hset]
    rcases hmutex with ⟨hsame, hkeep⟩ | ⟨hnew, hpc'⟩ | hnone
    · rw [hsame] at hm
      obtain ⟨d, hd, hdpc⟩ := h.holder m hm
      by_cases hmj : m = j
      · subst hmj
        rw [hc] at hd
        injection hd with hd
        subst hd
        exact ⟨c', getElem?_set_self hj, hkeep hdpc⟩
      · exact ⟨d, by rw [getElem?_set_ne (fun h => hmj h.symm)]; exact hd, hdpc⟩
    · rw [hnew] at hm
      injection hm with hm
      subst hm
      exact ⟨c', getElem?_set_self hj, Or.inl hpc'⟩
    · rw [hnone] at hm
      exact absurd hm (by simp)

/-! ## §3. One statement of the search. -/

section Main

variable {env : Env S} {sv sv' : Server S} {s s' : Search S} {ok : Bool}

/-- Moving the control point on, with the collection as it is. -/
theorem Collected.goto (h : Collected env s) (himg : s'.imgPath = s.imgPath)
    (hobj : s'.search_object = s.search_object) (hmutex : s'.search_mutex = s.search_mutex)
    (hchildren : s'.children = s.children)
    (hcoll : s'.pc.collecting = true → s.pc.collecting = true) : Collected env s' where
  path hc := by
    rw [hobj, himg]
    exact h.path (hcoll hc)
  child := by
    rw [hchildren, himg]
    exact h.child
  bag hc := by
    simp only [Search.pending, Search.got, hchildren, hobj]
    exact h.bag (hcoll hc)
  holder := by
    rw [hmutex, hchildren]
    exact h.holder

theorem collected_prepare (hshape : Shape env sv s) (h : Collected env s) (hpc : s.pc = .prepare) :
    Collected env { s with
      pc := .createTest .search 0
      search_object := { s.search_object with image_path := s.imgPath, search_res := [] } } := by
  have hnil : s.children = [] := hshape.noChildren (by rw [hpc]; rfl)
  exact {
    path := fun _ => rfl
    child := h.child
    bag := fun _ => by simp [Search.pending, Search.got, hnil]
    holder := h.holder }

theorem collected_createThread {k : Kind} {i : ℕ} {tid : ℕ → Option ℕ} (h : Collected env s)
    (hpc : s.pc = .createThread k i) :
    Collected env { s with
      pc := .createTest k (i + 1)
      tid := tid
      children := s.children ++ [Child.start S k i] } := by
  constructor
  · intro _
    exact h.path (by rw [hpc]; rfl)
  · intro j c hc
    rcases pool_lookup_arrive hc with hold | ⟨_, rfl⟩
    · exact h.child j c hold
    · exact ⟨fun _ => ⟨rfl, rfl, rfl⟩, fun _ hne => absurd rfl hne, fun _ => ⟨rfl, rfl, rfl⟩,
        fun _ => rfl⟩
  · intro _
    have hold := h.bag (by rw [hpc]; rfl)
    simpa [Search.pending, Search.got, Child.start] using hold
  · intro j hj
    obtain ⟨c, hc, hcpc⟩ := h.holder j hj
    have hlt : j < s.children.length := (List.getElem?_eq_some_iff.mp hc).1
    exact ⟨c, by rw [getElem?_append_left hlt]; exact hc, hcpc⟩

/-- **One statement of the search.** -/
theorem Collected.step_main [LinearOrder S] (hshape : Shape env sv s) (h : Collected env s)
    (hs : s.main env sv ok = some (sv', s')) : Collected env s' := by
  cases main_inv hs with
  | ready hpc _ | refuse hpc _ | allocTid hpc | allocInfo hpc =>
    exact h.goto rfl rfl rfl rfl (by simp [SearchPc.collecting])
  | popObj hpc obj q _ =>
    -- whatever an earlier search left in the object does not count yet
    exact {
      path := fun hc => absurd hc (by simp [SearchPc.collecting])
      child := h.child
      bag := fun hc => absurd hc (by simp [SearchPc.collecting])
      holder := h.holder }
  | prepare hpc => exact collected_prepare hshape h hpc
  | createMore k i hpc _ | createEnd k i hpc _ | setInfo k i hpc =>
    exact h.goto rfl rfl rfl rfl (fun _ => by rw [hpc]; rfl)
  | createThread k i hpc _ => exact collected_createThread h hpc
  | createRetry k i hpc _ => exact h
  | ocrOn hpc _ | ocrOff hpc _ | joinMore k i hpc _ | joinEnd k i hpc _ | join k i hpc _ | joinOcrOn hpc _
  | joinOcrOff hpc _ | free hpc => exact h.goto rfl rfl rfl rfl (fun _ => by rw [hpc]; rfl)
  | sort hpc =>
    have hperm := rankResults_perm env.sort env.ranking s.search_object.search_res
    exact {
      path := fun _ => h.path (by rw [hpc]; rfl)
      child := h.child
      bag := fun _ => by
        have hold := h.bag (by rw [hpc]; rfl)
        rw [← Multiset.coe_eq_coe.mpr hperm] at hold
        exact hold
      holder := h.holder }
  | respond hpc => exact h.goto rfl rfl rfl rfl (fun _ => by rw [hpc]; rfl)
  | pushObj hpc q _ =>
    exact {
      path := fun hc => absurd hc (by simp [SearchPc.collecting])
      child := h.child
      bag := fun hc => absurd hc (by simp [SearchPc.collecting])
      holder := h.holder }

end Main

/-! ## §4. After the joins. -/

section Joined

variable {env : Env S} {sv : Server S} {s : Search S}

theorem Collected.pending_eq_zero (hshape : Shape env sv s) (h : Collected env s)
    (hj : s.pc.freed = true) : s.pending = 0 := by
  refine sum_eq_zero fun x hx => ?_
  obtain ⟨c, hc, rfl⟩ := mem_map.mp hx
  obtain ⟨j, hj', rfl⟩ := getElem_of_mem hc
  have hget := getElem?_eq_getElem hj'
  have hfin := (hshape.finished hj).2 j _ hget
  rw [(h.child j _ hget).drained (Or.inr (Or.inr (Or.inr hfin)))]
  rfl

/-- The threads of a joined search, one by one. -/
theorem Collected.child_done (hshape : Shape env sv s) (h : Collected env s)
    (hj : s.pc.freed = true) {j : ℕ} {c : Child S} (hc : s.children[j]? = some c) :
    c.called = (if j < s.workers then some (j % 256) else none) ∧
      c.resp = (if j < s.workers then env.answer s.imgPath j else []) := by
  have hok := h.child j c hc
  have hfin := (hshape.finished hj).2 j c hc
  have hkind := (hshape.slots j c hc).2.1
  unfold kindOf at hkind
  split at hkind
  · next hlt =>
      obtain ⟨h₁, h₂⟩ := hok.asked hkind (by simp [hfin])
      simp [hlt, h₁, h₂]
  · next hge =>
      obtain ⟨h₁, h₂, _⟩ := hok.ocr hkind
      simp [hge, h₁, h₂]

/-- **What a joined search has got are the answers of its workers.** -/
theorem Collected.got_eq (hshape : Shape env sv s) (h : Collected env s)
    (hj : s.pc.freed = true) : s.got = env.answers s.imgPath s.workers := by
  have hmap : s.children.map (fun c => (c.resp : Multiset (Scored S))) =
      (List.range s.children.length).map (fun j =>
        ((if j < s.workers then env.answer s.imgPath j else [] : List (Scored S)) :
          Multiset (Scored S))) := by
    refine ext_getElem (by simp) fun j h₁ h₂ => ?_
    have hlt : j < s.children.length := by simpa using h₁
    have hresp := (h.child_done hshape hj (getElem?_eq_getElem hlt)).2
    simp [hresp]
  have hlen := (hshape.finished hj).1
  -- the first `n` rounds, and the OCR thread, which answers nothing
  have hfirst : (List.range s.workers).map (fun j =>
        ((if j < s.workers then env.answer s.imgPath j else [] : List (Scored S)) :
          Multiset (Scored S))) =
      (List.range s.workers).map (fun j => (env.answer s.imgPath j : Multiset (Scored S))) := by
    refine map_congr_left fun j hj' => ?_
    simp [mem_range.mp hj']
  unfold Search.got Env.answers
  rw [hmap, hlen, SearchPc.total]
  split
  · rw [range_succ, map_append, sum_append, hfirst]
    simp
  · rw [hfirst]

end Joined

/-! ## §5. The answer. -/

/-- The answer a search gives. -/
structure Answered [LinearOrder S] (env : Env S) (s : Search S) : Prop where
  ranked : s.pc = .respond → ∃ res : List (Scored S), (res : Multiset (Scored S)) = s.got ∧
    s.search_object.search_res = rankResults env.sort env.ranking res
  reply : ∀ r, s.resp = some r →
    (s.pc = .refused ∧ r.tag ≠ PIR_SOAP_TAG_OK) ∨
      ((s.pc = .pushObj ∨ s.pc = .done) ∧ r.tag = PIR_SOAP_TAG_OK ∧
        ∃ res : List (Scored S), (res : Multiset (Scored S)) = s.got ∧
          r.matches_ = cutResults env.query_num (rankResults env.sort env.ranking res))
  replied : s.pc = .pushObj ∨ s.pc = .done → s.resp.isSome = true

section Answer

variable [LinearOrder S] {env : Env S} {sv sv' : Server S} {s s' : Search S} {ok : Bool}

theorem Answered.start (env : Env S) (imgPath : List Char) : Answered env (Search.start S imgPath) where
  ranked h := absurd h (by simp [Search.start])
  reply r h := absurd h (by simp [Search.start])
  replied h := absurd h (by simp [Search.start])

theorem Answered.none_of (h : Answered env s) (h₁ : s.pc ≠ .refused) (h₂ : s.pc ≠ .pushObj)
    (h₃ : s.pc ≠ .done) : s.resp = none := by
  cases hr : s.resp with
  | none => rfl
  | some r =>
    rcases h.reply r hr with ⟨hpc, _⟩ | ⟨hpc | hpc, _⟩
    · exact absurd hpc h₁
    · exact absurd hpc h₂
    · exact absurd hpc h₃

theorem Answered.of_none (hr : s'.resp = none) (h₁ : s'.pc ≠ .respond) (h₂ : s'.pc ≠ .pushObj)
    (h₃ : s'.pc ≠ .done) : Answered env s' where
  ranked h := absurd h h₁
  reply r h := absurd h (by simp [hr])
  replied h := by
    rcases h with h | h
    · exact absurd h h₂
    · exact absurd h h₃

theorem answered_sort (hshape : Shape env sv s) (hcoll : Collected env s) (h : Answered env s)
    (hpc : s.pc = .sort) :
    Answered env { s with
      pc := .respond
      search_object := { s.search_object with
        search_res := rankResults env.sort env.ranking s.search_object.search_res } } := by
  have hbag := hcoll.bag (by rw [hpc]; rfl)
  rw [hcoll.pending_eq_zero hshape (by rw [hpc]; rfl), add_zero] at hbag
  have hnone := h.none_of (by simp [hpc]) (by simp [hpc]) (by simp [hpc])
  exact {
    ranked := fun _ => ⟨s.search_object.search_res, hbag, rfl⟩
    reply := fun r hr => absurd hr (by simp [hnone])
    replied := fun hp => absurd hp (by simp) }

/-- **One statement of the search.** -/
theorem Answered.step_main (hshape : Shape env sv s) (hcoll : Collected env s)
    (h : Answered env s) (hs : s.main env sv ok = some (sv', s')) : Answered env s' := by
  -- every statement before the answer leaves `resp` empty
  have hquiet : s.pc ≠ .refused → s.pc ≠ .pushObj → s.pc ≠ .done → s'.resp = s.resp →
      s'.pc ≠ .respond → s'.pc ≠ .pushObj → s'.pc ≠ .done → Answered env s' := by
    intro h₁ h₂ h₃ hr h₄ h₅ h₆
    exact Answered.of_none (hr.trans (h.none_of h₁ h₂ h₃)) h₄ h₅ h₆
  cases main_inv hs with
  | refuse hpc _ =>
    exact {
      ranked := fun hp => absurd hp (by simp)
      reply := fun r hr => by
        simp only [Option.some.injEq] at hr
        subst hr
        exact Or.inl ⟨rfl, by simp [PIR_STATE_ERROR, PIR_SOAP_TAG_OK]⟩
      replied := fun hp => absurd hp (by simp) }
  | sort hpc => exact answered_sort hshape hcoll h hpc
  | respond hpc =>
    obtain ⟨res, hres, heq⟩ := h.ranked hpc
    exact {
      ranked := fun hp => absurd hp (by simp)
      reply := fun r hr => by
        simp only [Option.some.injEq] at hr
        subst hr
        exact Or.inr ⟨Or.inl rfl, rfl, res, hres, by rw [heq]⟩
      replied := fun _ => rfl }
  | pushObj hpc q _ =>
    exact {
      ranked := fun hp => absurd hp (by simp)
      reply := fun r hr => by
        rcases h.reply r hr with ⟨hp, _⟩ | ⟨_, htag, hres⟩
        · exact absurd hp (by simp [hpc])
        · exact Or.inr ⟨Or.inr rfl, htag, hres⟩
      replied := fun _ => h.replied (Or.inl hpc) }
  | createRetry k i hpc _ => exact h
  | createEnd k i hpc _ =>
    cases k <;>
      exact hquiet (by simp [hpc]) (by simp [hpc]) (by simp [hpc]) rfl
        (by simp [Kind.afterCreate]) (by simp [Kind.afterCreate]) (by simp [Kind.afterCreate])
  | joinEnd k i hpc _ =>
    cases k <;>
      exact hquiet (by simp [hpc]) (by simp [hpc]) (by simp [hpc]) rfl
        (by simp [Kind.afterJoin]) (by simp [Kind.afterJoin]) (by simp [Kind.afterJoin])
  | _ => exact hquiet (by simp [*]) (by simp [*]) (by simp [*]) rfl (by simp) (by simp) (by simp)

/-- **One statement of a thread**: no thread is left when the answer is
    given. -/
theorem Answered.step_child {j : ℕ} {text : Option (List Char)} (hshape : Shape env sv s)
    (h : Answered env s) (hs : s.child env j text = some s') : Answered env s' := by
  obtain ⟨c, hc, hstep⟩ := child_inv hs
  obtain ⟨hlive, hpc, _, _, _, _, _, _, hresp, _, _⟩ := hstep.keeps
  have hin := (hshape.live_child hc hlive).1
  have hnot : ∀ p : SearchPc, p.inArrays = false → s.pc ≠ p := by
    intro p hp heq
    rw [heq, hp] at hin
    exact absurd hin (by simp)
  refine Answered.of_none (hresp.trans (h.none_of (hnot _ rfl) (hnot _ rfl) (hnot _ rfl))) ?_ ?_ ?_
  · rw [hpc]
    exact hnot _ rfl
  · rw [hpc]
    exact hnot _ rfl
  · rw [hpc]
    exact hnot _ rfl

end Answer

end KalavaPir.Master
