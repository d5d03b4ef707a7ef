/-
  KalavaPir.Master.SearchResult — the answer of a search depends on the answers
  of the workers only.

  Whatever order the threads append in, whichever calls fail, whatever an
  earlier search left in the pooled object and whatever else the master is
  doing: as long as the worker table is left alone while the search is reading
  it, the answer is a best-first list of `query_num` of the results of the
  workers that answered.
-/
import KalavaPir.Master.SearchCollect
import KalavaPir.Master.TableChange

namespace KalavaPir.Master

open KalavaPir.Common
open KalavaPir.Framework

variable {S : Type}

/-! ## §1. One search, its table left alone. -/

/-- The next statement changes the worker table. -/
def Actor.writesTable : Actor S → Bool
  | .search _ => false
  | .init u =>
    match u.pc with
    | .push (_ :: _) => true
    | .setSize => true
    | _ => false
  | .watchdog pc =>
    match pc with
    | .zero => true
    | .clear => true
    | .push (_ :: _) _ => true
    | .setSize => true
    | _ => false

/-- The worker table does not change while search `k` is reading it. -/
def TableStill (k : ℕ) (c : Conf (Server S) (Actor S)) : Move Request Outcome → Prop
  | .arrive _ => True
  | .run i _ => ∀ a ∈ c.pool[i]?, a.writesTable = true → ∀ b ∈ c.pool[k]?, b.reading = false

theorem writesTable_of_stores {sv : Server S} {a : Actor S} {n : ℕ} (h : a.stores sv = some n) :
    a.writesTable = true := by
  cases a with
  | search s => simp [Actor.stores] at h
  | init u =>
    simp only [Actor.stores] at h
    split at h
    · next hpc => simp [Actor.writesTable, hpc]
    · exact absurd h (by simp)
  | watchdog pc => cases pc <;> simp_all [Actor.stores, Actor.writesTable]

/-- The results of the workers `0 … n−1` that answered. -/
def Env.results (env : Env S) (imgPath : List Char) (n : ℕ) : Multiset (Scored S) :=
  ((List.range n).map (fun i => ((env.net imgPath i).getD [] : Multiset (Scored S)))).sum

theorem answers_eq_results (env : Env S) (imgPath : List Char) {n : ℕ} (hn : n ≤ 256) :
    env.answers imgPath n = env.results imgPath n := by
  unfold Env.answers Env.results
  congr 1
  refine List.map_congr_left fun i hi => ?_
  have hlt : i % 256 = i := Nat.mod_eq_of_lt (by have := List.mem_range.mp hi; omega)
  rw [Env.answer, hlt]

section Reach

variable [LinearOrder S]

/-- Everything about a search. -/
structure SearchInv (env : Env S) (sv : Server S) (s : Search S) : Prop where
  shape : Shape env sv s
  collected : Collected env s
  answered : Answered env s

variable {s : Search S}

variable {s' : Search S} {k : ℕ} {r : SearchResponse S}

theorem SearchInv.main {env : Env S} {sv sv' : Server S} {ok : Bool} (h : SearchInv env sv s)
    (hs : s.main env sv ok = some (sv', s')) : SearchInv env sv' s' :=
  ⟨h.shape.main hs, h.collected.step_main h.shape hs,
    h.answered.step_main h.shape h.collected hs⟩

theorem SearchInv.child {env : Env S} {sv : Server S} {j : ℕ} {text : Option (List Char)}
    (h : SearchInv env sv s) (hs : s.child env j text = some s') : SearchInv env sv s' :=
  ⟨h.shape.child hs, h.collected.step_child h.shape hs, h.answered.step_child h.shape hs⟩

/-- The local assertion, about search `k` only. -/
def SearchAt (env : Env S) (k : ℕ) (sv : Server S) (i : ℕ) : Actor S → Prop
  | .search s => i = k → SearchInv env sv s
  | _ => True

variable {env : Env S} {sv sv' : Server S} {a a' : Actor S} {o : Outcome}

theorem searchAt_exec {i : ℕ} (h : SearchAt env k sv i a) (hx : a.exec env sv o = some (sv', a')) :
    SearchAt env k sv' i a' := by
  cases actor_inv hx with
  | main hmain => exact fun hik => (h hik).main hmain
  | child j hchild => exact fun hik => (h hik).child hchild
  | init _ => trivial
  | watchdog _ => trivial

/-- The others work on the shared record only, and leave the table to a search
    that is reading it. -/
theorem searchAt_other {j : ℕ} {b : Actor S} (h : SearchAt env k sv j b)
    (hx : a.exec env sv o = some (sv', a')) (hstill : j = k → a.writesTable = true → b.reading = false) :
    SearchAt env k sv' j b := by
  cases b with
  | init u => trivial
  | watchdog pc => trivial
  | search s =>
    intro hjk
    obtain ⟨hshape, hcoll, hans⟩ := h hjk
    -- what it has collected is its own; only the number of workers is shared
    refine ⟨hshape.congr fun hactive => ?_, hcoll, hans⟩
    rw [(exec_table hx).1]
    cases hst : a.stores sv with
    | none => rfl
    | some n =>
      have hfalse := hstill hjk (writesTable_of_stores hst)
      simp [Actor.reading, hactive] at hfalse

/-- **The invariant of search `k`, in every run that leaves its table alone.** -/
theorem searchInv_reach {state : BitVec 8} {vec : List WorkerInfo} {pool : QQueue (SearchObj S)}
    {c : Conf (Server S) (Actor S)} (hc : Reach (step env) (TableStill k) (boot state vec pool) c)
    (hs : c.pool[k]? = some (.search s)) : SearchInv env c.shared s := by
  have hinv : Annotated (fun _ => True) (SearchAt env k) c := by
    refine Reach.invariant (Annotated (fun _ => True) (SearchAt env k))
      ⟨trivial, fun i a ha => by simp [boot] at ha⟩ (fun c m c' h hok hstep => ?_) hc
    refine Annotated.step (machine env) (TableStill k) ?_ ?_ ?_ h hok hstep
    · intro c i o a sv' a' new hc _ ha hx
      obtain ⟨_, hexec, rfl⟩ := machine_exec hx
      exact ⟨trivial, searchAt_exec (hc.local_ i a ha) hexec, by simp⟩
    · intro c i o a sv' a' new hc hok ha hx j b _ hb
      obtain ⟨_, hexec, rfl⟩ := machine_exec hx
      refine searchAt_other (hc.local_ j b hb) hexec fun hjk hw => ?_
      subst hjk
      exact hok a ha hw b hb
    · intro c r j _
      cases r with
      | imSearch imgPath =>
        exact fun _ => ⟨Shape.start env c.shared imgPath, Collected.start env imgPath,
          Answered.start env imgPath⟩
      | serviceInit _ _ _ _ => trivial
      | tick => trivial
  exact hinv.local_ k (.search s) hs rfl

/-! ## §2. The answer. -/

/-- The answer, with the loop bound the code computes. -/
theorem SearchInv.topK (hrank : env.ranking ≠ .AscendingSort) (h : SearchInv env sv s)
    (hr : s.resp = some r) (htag : r.tag = PIR_SOAP_TAG_OK) :
    TopK (fun p : Scored S => p.2) (queryNum env.query_num (env.answers s.imgPath s.workers).card).toInt.toNat
      (env.answers s.imgPath s.workers) r.matches_ := by
  rcases h.answered.reply r hr with ⟨_, hne⟩ | ⟨hpc, _, res, hres, hmatch⟩
  · exact absurd htag hne
  have hfreed : s.pc.freed = true := by
    rcases hpc with hpc | hpc <;> rw [hpc] <;> rfl
  -- sorting permutes what was collected, which is what the workers answered
  have hgot := h.collected.got_eq h.shape hfreed
  have hperm := rankResults_perm env.sort env.ranking res
  have hbag : (rankResults env.sort env.ranking res : Multiset (Scored S)) =
      env.answers s.imgPath s.workers := by
    rw [Multiset.coe_eq_coe.mpr hperm, hres, hgot]
  have hlen : (rankResults env.sort env.ranking res).length =
      (env.answers s.imgPath s.workers).card := by
    rw [← hbag, Multiset.coe_card]
  rw [hmatch, cutResults, hlen]
  exact topK_take _ hbag (rankResults_sorted env.sort hrank res)

/-- **The answer of a search over at most 256 workers.** -/
theorem SearchInv.best_first (hrank : env.ranking ≠ .AscendingSort) (h : SearchInv env sv s)
    (hr : s.resp = some r) (htag : r.tag = PIR_SOAP_TAG_OK) (hw : s.workers ≤ 256)
    (hq : 0 ≤ env.query_num.toInt ∨ (env.results s.imgPath s.workers).card < 2 ^ 31) :
    TopK (fun p : Scored S => p.2) (sizeT env.query_num) (env.results s.imgPath s.workers) r.matches_ := by
  have htop := h.topK hrank hr htag
  rw [answers_eq_results env s.imgPath hw] at htop
  refine htop.of_min_eq ?_
  rw [queryNum_toNat hq]
  omega

end Reach

end KalavaPir.Master
