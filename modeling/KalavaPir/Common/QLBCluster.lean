/-
  KalavaPir.Common.QLBCluster — the load balancer of `common/qlbcluster.h`.

  `server_info_` has `server_max_` slots; the first `server_now_` of them hold
  the servers of the configuration, the others are left as the constructor of
  `SERVER_INFO` makes them.  Of a slot only `weight` matters here: the network
  addresses are read by the collector alone.

  A read at or beyond `server_max_`, a division by a zero `server_now_` and a
  signed overflow end in `none`.  The scheduling loops take fuel: a call RETURNS
  when some amount of fuel brings an answer.
-/
import KalavaPir.Framework.Runs
import KalavaPir.Common.QLBClusterMembers
import Mathlib.Data.List.GetD

namespace KalavaPir.Common

open KalavaPir.Framework List

/-! ## §1. The cluster and its schedulers. -/

/-- A slot of `server_info_`; the constructor sets the weight to 1. -/
structure SERVER_INFO where
  weight : ℤ := 1
  deriving DecidableEq, Repr

/-- The ways to choose a server. -/
inductive QScheduling
  | RoundRobin
  | WeightedRoundRobin
  | LeastConnection
  | WeightedLeastConnection
  | LocalityBasedLeastConnection
  | DestinationHashing
  | SourceHashing
  deriving DecidableEq, Repr

/-- The members that the schedulers read and write. -/
structure QLBCluster where
  server_info_ : List SERVER_INFO
  server_now_ : ℕ
  server_iter_ : ℕ
  current_weight_ : ℤ
  deriving DecidableEq, Repr

namespace QLBCluster

/-- The number of slots. -/
def server_max_ (cl : QLBCluster) : ℕ := cl.server_info_.length

/-- The members, as a scheduler finds them. -/
def ofMembers (cl : LBMembers SERVER_INFO) (server_iter_ : ℕ) (current_weight_ : ℤ) : QLBCluster where
  server_info_ := cells cl.server_info_ cl.server_max_
  server_now_ := cl.server_now_
  server_iter_ := server_iter_
  current_weight_ := current_weight_

/-- Both have the same `server_max_`: to the schedulers it is the number of slots. -/
theorem server_max_ofMembers (cl : LBMembers SERVER_INFO) (server_iter_ : ℕ) (current_weight_ : ℤ) :
    (ofMembers cl server_iter_ current_weight_).server_max_ = cl.server_max_ :=
  length_cells cl.server_info_ cl.server_max_

/-- `server_info_[j].weight`. -/
def weight (cl : QLBCluster) (j : ℕ) : ℤ := (cl.server_info_.getD j {}).weight

/-- `server_info_[i].weight=w`. -/
def set_weight (cl : QLBCluster) (i : ℕ) (w : ℤ) : QLBCluster :=
  { cl with server_info_ := cl.server_info_.set i { weight := w } }

/-- The loop of `max_weight()`. -/
def max_weight (cl : QLBCluster) : ℤ :=
  (List.range cl.server_now_).foldl
    (fun max_weight i => if max_weight < cl.weight i then cl.weight i else max_weight) 0

/-- The first loop of `gcd()`. -/
def min_weight (cl : QLBCluster) : ℤ :=
  (List.range cl.server_now_).foldl
    (fun min i => if cl.weight i < min then cl.weight i else min) (cl.weight 0)

/-- The second loop of `gcd()`: trial division, downwards from `min`. -/
def trial (cl : QLBCluster) : ℕ → ℤ
  | 0 => 0
  | min + 1 =>
    if (List.range cl.server_now_).all fun i => (cl.weight i).tmod (min + 1) == 0 then min + 1
    else cl.trial min

/-- The greatest common divisor, of positive weights. -/
def gcd (cl : QLBCluster) : ℤ :=
  if cl.server_now_ = 0 then -1
  else if 1 ≤ cl.min_weight then cl.trial cl.min_weight.toNat
  else cl.min_weight

/-- The loop of `get_server_RR`, after `j`. -/
def RR_loop (cl : QLBCluster) : ℕ → ℕ → Option (ℤ × QLBCluster)
  | 0, _ => none
  | fuel + 1, i =>
    let j := (i + 1) % cl.server_max_
    if cl.server_max_ ≤ j then none
    else if 0 < cl.weight j then some (j, { cl with server_iter_ := j })
    else if j ≠ cl.server_iter_ then cl.RR_loop fuel j
    else some (-1, cl)

/-- The next server that is alive. -/
def get_server_RR (fuel : ℕ) (cl : QLBCluster) : Option (ℤ × QLBCluster) :=
  if cl.server_max_ = 0 then none else cl.RR_loop fuel cl.server_iter_

/-- What reaching server `j` does to `current_weight_`. -/
def next_weight (cl : QLBCluster) (j : ℕ) (current_weight : ℤ) : Option ℤ :=
  if j = 0 then
    match int32 (current_weight - cl.gcd) with
    | none => none
    | some c => if c ≤ 0 then some cl.max_weight else some c
  else some current_weight

/-- The loop of `get_server_WRR`, after `j`. -/
def WRR_loop (cl : QLBCluster) : ℕ → ℕ → ℤ → Option (ℤ × QLBCluster)
  | 0, _, _ => none
  | fuel + 1, i, current_weight =>
    let j := (i + 1) % cl.server_now_
    match cl.next_weight j current_weight with
    | none => none
    | some c =>
      -- only `max_weight()` leaves a zero behind at server 0
      if j = 0 ∧ c = 0 then some (-1, { cl with current_weight_ := 0 })
      else if cl.server_max_ ≤ j then none
      else if c ≤ cl.weight j then
        some (j, { cl with server_iter_ := j, current_weight_ := c })
      else cl.WRR_loop fuel j c

/-- The next server with enough weight. -/
def get_server_WRR (fuel : ℕ) (cl : QLBCluster) : Option (ℤ × QLBCluster) :=
  if cl.server_now_ = 0 then none else cl.WRR_loop fuel cl.server_iter_ cl.current_weight_

/-- The loop that `get_server_DH` and `get_server_SH` share: from `j` upwards,
    until it is back at `i`. -/
def hash_scan (cl : QLBCluster) (i : ℕ) : ℕ → ℕ → Option ℤ
  | 0, _ => none
  | fuel + 1, j =>
    if cl.server_max_ ≤ j then none
    else if 0 < cl.weight j then some j
    else if j + 1 ≠ i then cl.hash_scan i fuel (j + 1)
    else some (-1)

/-- The server of a destination. -/
def get_server_DH (fuel : ℕ) (cl : QLBCluster) (hash_key : ℕ) : Option ℤ :=
  if cl.server_now_ = 0 then none
  else cl.hash_scan (hash_key % cl.server_now_) fuel (hash_key % cl.server_now_)

/-- The server of a source. -/
def get_server_SH (fuel : ℕ) (cl : QLBCluster) (hash_key : ℕ) : Option ℤ :=
  if cl.server_now_ = 0 then none
  else cl.hash_scan (hash_key % cl.server_now_) fuel (hash_key % cl.server_now_)

/-- `get_server(sched, hash_key)`. -/
def get_server (fuel : ℕ) (cl : QLBCluster) (sched : QScheduling) (hash_key : ℕ) :
    Option (ℤ × QLBCluster) :=
  match sched with
  | .RoundRobin => cl.get_server_RR fuel
  | .WeightedRoundRobin => cl.get_server_WRR fuel
  | .DestinationHashing => (cl.get_server_DH fuel hash_key).map (·, cl)
  | .SourceHashing => (cl.get_server_SH fuel hash_key).map (·, cl)
  | .LeastConnection | .WeightedLeastConnection | .LocalityBasedLeastConnection => some (-1, cl)

/-! ## §2. The cluster in use. -/

/-- What can happen to a cluster: the collector stores a weight, a caller asks
    for a server. -/
inductive Event
  | weight (i : ℕ) (w : ℤ)
  | call (fuel : ℕ) (sched : QScheduling) (hash_key : ℕ)

/-- A weight is reported, or a server asked for. -/
def step (cl : QLBCluster) : Event → Option QLBCluster
  | .weight i w => if i < cl.server_now_ ∧ IsInt32 w then some (cl.set_weight i w) else none
  | .call fuel sched hash_key => (cl.get_server fuel sched hash_key).map Prod.snd

/-- A cluster as `init` leaves it, its servers at any weights: the iterator at
    0, no current weight, the unused slots untouched. -/
structure Fresh (cl : QLBCluster) : Prop where
  one_server : 1 ≤ cl.server_now_
  now_le_max : cl.server_now_ ≤ cl.server_max_
  weights : ∀ i, IsInt32 (cl.weight i)
  unused : ∀ i, cl.server_now_ ≤ i → cl.weight i = 1
  iter : cl.server_iter_ = 0
  current : cl.current_weight_ = 0

/-- The clusters that runs of updates and returned calls produce. -/
def Reached (cl : QLBCluster) : Prop := ∃ cl₀, Fresh cl₀ ∧ Reach step anyStep cl₀ cl

/-- Servers with the weights `ws`, and `unused` more slots. -/
def configured (ws : List ℤ) (unused : ℕ) : QLBCluster :=
  { server_info_ := ws.map SERVER_INFO.mk ++ List.replicate unused {}
    server_now_ := ws.length
    server_iter_ := 0
    current_weight_ := 0 }

/-- What is true of each of them. -/
structure WellFormed (cl : QLBCluster) : Prop where
  one_server : 1 ≤ cl.server_now_
  now_le_max : cl.server_now_ ≤ cl.server_max_
  weights : ∀ i, IsInt32 (cl.weight i)
  unused : ∀ i, cl.server_now_ ≤ i → cl.weight i = 1
  iter : cl.server_iter_ < cl.server_max_
  current : 0 ≤ cl.current_weight_ ∧ cl.current_weight_ ≤ INT32_MAX

/-- The answer `r` is right: a configured server with a positive weight, or −1
    and there is no such server. -/
def Right (cl : QLBCluster) (r : ℤ) : Prop :=
  (∃ j, j < cl.server_now_ ∧ 0 < cl.weight j ∧ r = j) ∨
    (r = -1 ∧ ∀ j, j < cl.server_now_ → cl.weight j ≤ 0)

/-- The call returns, and with the right answer. -/
def Answers (cl : QLBCluster) (sched : QScheduling) (hash_key : ℕ) : Prop :=
  ∃ fuel r cl', cl.get_server fuel sched hash_key = some (r, cl') ∧ cl.Right r

/-! ## §3. What every run keeps. -/

@[simp] theorem server_max_set_weight (cl : QLBCluster) (i : ℕ) (w : ℤ) :
    (cl.set_weight i w).server_max_ = cl.server_max_ := by
  simp [server_max_, set_weight]

theorem weight_set_weight (cl : QLBCluster) (i : ℕ) (w : ℤ) (j : ℕ) (hi : i < cl.server_max_) :
    (cl.set_weight i w).weight j = if i = j then w else cl.weight j := by
  unfold weight set_weight
  rw [getD_eq_getElem?_getD, getElem?_set, getD_eq_getElem?_getD]
  split
  next h =>
    rw [if_pos (show i < cl.server_info_.length from hi)]
    rfl
  next h => rfl

@[simp] theorem server_now_set_weight (cl : QLBCluster) (i : ℕ) (w : ℤ) :
    (cl.set_weight i w).server_now_ = cl.server_now_ := rfl

@[simp] theorem server_iter_set_weight (cl : QLBCluster) (i : ℕ) (w : ℤ) :
    (cl.set_weight i w).server_iter_ = cl.server_iter_ := rfl

/-- Keeping the greater of the two along a list keeps the greatest of all. -/
theorem foldl_greatest {α : Type} [LinearOrder α] (f : ℕ → α) : ∀ (l : List ℕ) (m : α),
      let g := l.foldl (fun m i => if m < f i then f i else m) m
      m ≤ g ∧ (∀ i ∈ l, f i ≤ g) ∧ (g = m ∨ ∃ i ∈ l, g = f i) := by
  intro l
  induction l with
  | nil => intro m; exact ⟨le_rfl, by simp, Or.inl rfl⟩
  | cons i l ih =>
    intro m
    obtain ⟨hm, hall, hsome⟩ := ih (if m < f i then f i else m)
    rw [foldl_cons]
    have hge : m ≤ (if m < f i then f i else m) ∧ f i ≤ (if m < f i then f i else m) := by
      split
      next h => exact ⟨le_of_lt h, le_rfl⟩
      next h => exact ⟨le_rfl, not_lt.mp h⟩
    refine ⟨le_trans hge.1 hm, ?_, ?_⟩
    · intro k hk
      rcases mem_cons.mp hk with rfl | hk
      · exact le_trans hge.2 hm
      · exact hall k hk
    · rcases hsome with heq | ⟨k, hk, heq⟩
      · rw [heq]
        split
        next => exact Or.inr ⟨i, mem_cons_self, rfl⟩
        next => exact Or.inl rfl
      · exact Or.inr ⟨k, mem_cons_of_mem i hk, heq⟩

theorem max_weight_spec (cl : QLBCluster) :
    0 ≤ cl.max_weight ∧ (∀ j, j < cl.server_now_ → cl.weight j ≤ cl.max_weight) ∧
      (cl.max_weight = 0 ∨ ∃ j, j < cl.server_now_ ∧ cl.max_weight = cl.weight j) := by
  obtain ⟨hm, hall, hsome⟩ := foldl_greatest cl.weight (List.range cl.server_now_) 0
  refine ⟨hm, fun j hj => hall j (mem_range.mpr hj), hsome.imp_right ?_⟩
  rintro ⟨j, hj, heq⟩
  exact ⟨j, mem_range.mp hj, heq⟩

theorem min_weight_spec (cl : QLBCluster) (hn : 1 ≤ cl.server_now_) :
    (∀ j, j < cl.server_now_ → cl.min_weight ≤ cl.weight j) ∧
      ∃ j, j < cl.server_now_ ∧ cl.min_weight = cl.weight j := by
  obtain ⟨hm, hall, hsome⟩ :=
    foldl_greatest (fun i => OrderDual.toDual (cl.weight i)) (List.range cl.server_now_)
      (OrderDual.toDual (cl.weight 0))
  refine ⟨fun j hj => hall j (mem_range.mpr hj), ?_⟩
  rcases hsome with heq | ⟨j, hj, heq⟩
  · exact ⟨0, hn, heq⟩
  · exact ⟨j, mem_range.mp hj, heq⟩

variable {cl cl' : QLBCluster} {r : ℤ} {fuel hash_key i fuel' : ℕ} {sched : QScheduling}
  {x : ℤ × QLBCluster}

variable {j : ℕ} {c : ℤ} {ws : List ℤ} {y : ℤ × QLBCluster}

theorem next_weight_of_ne (h : j ≠ 0) (c : ℤ) : cl.next_weight j c = some c :=
  if_neg h

/-- What a wrap makes of the current weight. -/
theorem next_weight_zero {c' : ℤ} : cl.next_weight 0 c = some c' ↔
    IsInt32 (c - cl.gcd) ∧ c' = if c - cl.gcd ≤ 0 then cl.max_weight else c - cl.gcd := by
  rw [next_weight, if_pos rfl]
  constructor
  · intro h
    cases hint : int32 (c - cl.gcd) with
    | none =>
      rw [hint] at h
      cases h
    | some x =>
      rw [hint] at h
      obtain ⟨hx, rfl⟩ := int32_eq_some.mp hint
      refine ⟨hx, ?_⟩
      dsimp only at h
      split_ifs at h ⊢
      · exact (Option.some.inj h).symm
      · exact (Option.some.inj h).symm
  · rintro ⟨hx, rfl⟩
    rw [int32_eq_some.mpr ⟨hx, rfl⟩]
    dsimp only
    split_ifs
    · rfl
    · rfl

theorem next_weight_nonneg {c' : ℤ} (hc : 0 ≤ c) (h : cl.next_weight j c = some c') : 0 ≤ c' := by
  by_cases hj : j = 0
  · rw [hj] at h
    obtain ⟨-, rfl⟩ := next_weight_zero.mp h
    split_ifs with hlow
    · exact cl.max_weight_spec.1
    · omega
  · rw [next_weight_of_ne hj] at h
    exact Option.some.inj h ▸ hc

/-- What `get_server_WRR` leaves behind: the slots untouched; the answer, unless
    it is −1, is the new iterator, whose weight is at least the current one. -/
theorem WRR_loop_spec (hn : 1 ≤ cl.server_now_) :
    ∀ {fuel i : ℕ} {c : ℤ}, 0 ≤ c → cl.WRR_loop fuel i c = some (r, cl') →
      (r = -1 ∧ cl' = { cl with current_weight_ := 0 }) ∨
        ∃ j c', j < cl.server_now_ ∧ 0 ≤ c' ∧ c' ≤ cl.weight j ∧ r = j ∧
          cl' = { cl with server_iter_ := j, current_weight_ := c' } := by
  intro fuel
  induction fuel with
  | zero => intro i c _ h; cases h
  | succ fuel ih =>
    intro i c hc h
    simp only [WRR_loop] at h
    split at h
    next => cases h
    next c' hc' =>
      have hc'' := next_weight_nonneg hc hc'
      split at h
      next =>
        cases h
        exact Or.inl ⟨rfl, rfl⟩
      next =>
        split at h
        next => cases h
        next =>
          split at h
          next hle =>
            cases h
            exact Or.inr ⟨_, c', Nat.mod_lt _ hn, hc'', hle, rfl, rfl⟩
          next => exact ih hc'' h

/-- What `get_server_RR` leaves behind. -/
theorem RR_loop_spec : ∀ {fuel i : ℕ}, cl.RR_loop fuel i = some (r, cl') →
      cl' = cl ∨ ∃ j, j < cl.server_max_ ∧ cl' = { cl with server_iter_ := j } := by
  intro fuel
  induction fuel with
  | zero => intro i h; cases h
  | succ fuel ih =>
    intro i h
    simp only [RR_loop] at h
    split at h
    next => cases h
    next hlt =>
      split at h
      next =>
        cases h
        exact Or.inr ⟨_, by omega, rfl⟩
      next =>
        split at h
        next => exact ih h
        next =>
          cases h
          exact Or.inl rfl

theorem Fresh.wellFormed (h : Fresh cl) : WellFormed cl where
  one_server := h.one_server
  now_le_max := h.now_le_max
  weights := h.weights
  unused := h.unused
  iter := by
    have h₁ := h.one_server
    have h₂ := h.now_le_max
    rw [h.iter]
    omega
  current := by
    rw [h.current]
    decide

theorem fresh_configured (unused : ℕ) (hne : ws ≠ []) (hws : ∀ w ∈ ws, IsInt32 w) :
    Fresh (configured ws unused) := by
  have hpos : 1 ≤ ws.length := length_pos_iff.mpr hne
  have hdefault : ∀ i, ws.length ≤ i → (configured ws unused).weight i = 1 := by
    intro i hi
    simp only [weight, configured]
    rw [getD_append_right _ _ _ _ (by simpa using hi)]
    simp only [getD_eq_getElem?_getD, getElem?_replicate]
    split <;> rfl
  refine ⟨hpos, by simp [server_max_, configured], fun i => ?_, hdefault, rfl, rfl⟩
  by_cases hi : i < ws.length
  · have hw : (configured ws unused).weight i = ws[i] := by
      simp only [weight, configured]
      rw [getD_append _ _ _ _ (by simpa using hi), getD_eq_getElem _ _ (by simpa using hi)]
      simp
    rw [hw]
    exact hws _ (getElem_mem hi)
  · rw [hdefault i (by omega)]
    decide

theorem reached_configured (unused : ℕ) (hne : ws ≠ []) (hws : ∀ w ∈ ws, IsInt32 w) :
    Reached (configured ws unused) :=
  ⟨_, fresh_configured unused hne hws, Reach.start⟩

/-- A call moves the iterator and the current weight, inside their bounds. -/
theorem WellFormed.get_server (h : WellFormed cl)
    (hcall : cl.get_server fuel sched hash_key = some (r, cl')) : WellFormed cl' := by
  have hstay : cl' = cl → WellFormed cl' := fun heq => heq ▸ h
  cases sched with
  | RoundRobin =>
    simp only [QLBCluster.get_server, get_server_RR] at hcall
    split at hcall
    next => cases hcall
    next =>
      rcases RR_loop_spec hcall with heq | ⟨j, hj, rfl⟩
      · exact hstay heq
      · exact ⟨h.one_server, h.now_le_max, h.weights, h.unused, hj, h.current⟩
  | WeightedRoundRobin =>
    simp only [QLBCluster.get_server, get_server_WRR] at hcall
    split at hcall
    next => cases hcall
    next =>
      rcases WRR_loop_spec h.one_server h.current.1 hcall with
        ⟨-, rfl⟩ | ⟨j, c, hj, hc, hle, -, rfl⟩
      · exact ⟨h.one_server, h.now_le_max, h.weights, h.unused, h.iter, le_rfl,
          le_trans h.current.1 h.current.2⟩
      · exact ⟨h.one_server, h.now_le_max, h.weights, h.unused,
          lt_of_lt_of_le hj h.now_le_max, hc, le_trans hle (h.weights j).2⟩
  | DestinationHashing | SourceHashing =>
    simp only [QLBCluster.get_server, Option.map_eq_some_iff, Prod.mk.injEq] at hcall
    obtain ⟨_, _, _, heq⟩ := hcall
    exact hstay heq.symm
  | LeastConnection | WeightedLeastConnection | LocalityBasedLeastConnection =>
    simp only [QLBCluster.get_server, Option.some.injEq, Prod.mk.injEq] at hcall
    exact hstay hcall.2.symm

theorem WellFormed.set_weight {w : ℤ} (h : WellFormed cl) (hi : i < cl.server_now_) (hw : IsInt32 w) :
    WellFormed (cl.set_weight i w) := by
  have hmax : i < cl.server_max_ := lt_of_lt_of_le hi h.now_le_max
  have hweight := fun j => cl.weight_set_weight i w j hmax
  refine ⟨h.one_server, by simpa using h.now_le_max, fun j => ?_, fun j hj => ?_,
    by simpa using h.iter, h.current⟩
  · rw [hweight]
    split
    next => exact hw
    next => exact h.weights j
  · have hne : i ≠ j := by
      have hj' : cl.server_now_ ≤ j := hj
      omega
    rw [hweight, if_neg hne]
    exact h.unused j hj

/-- **Every run keeps the cluster well formed.** -/
theorem Reached.wellFormed (h : Reached cl) : WellFormed cl := by
  obtain ⟨cl₀, hfresh, hreach⟩ := h
  refine hreach.invariant WellFormed hfresh.wellFormed ?_
  intro s e s' hs _ hstep
  cases e with
  | weight i w =>
    simp only [step] at hstep
    split at hstep
    next hok =>
      cases hstep
      exact hs.set_weight hok.1 hok.2
    next => cases hstep
  | call fuel sched hash_key =>
    simp only [step, Option.map_eq_some_iff] at hstep
    obtain ⟨⟨r, s₁⟩, hcall, rfl⟩ := hstep
    exact hs.get_server hcall

/-! ## §4. More fuel changes no answer. -/

theorem RR_loop_mono :
    ∀ {fuel fuel' i : ℕ}, fuel ≤ fuel' → cl.RR_loop fuel i = some x → cl.RR_loop fuel' i = some x := by
  intro fuel
  induction fuel with
  | zero => intro fuel' i _ h; cases h
  | succ fuel ih =>
    intro fuel' i hle h
    obtain ⟨fuel', rfl⟩ : ∃ k, fuel' = k + 1 := ⟨fuel' - 1, by omega⟩
    simp only [RR_loop] at h ⊢
    split at h
    next => cases h
    next hin =>
      rw [if_neg hin]
      split at h
      next halive =>
        rw [if_pos halive]
        exact h
      next hdead =>
        rw [if_neg hdead]
        split at h
        next hon =>
          rw [if_pos hon]
          exact ih (by omega) h
        next hback =>
          rw [if_neg hback]
          exact h

theorem WRR_loop_mono : ∀ {fuel fuel' i : ℕ} {c : ℤ}, fuel ≤ fuel' → cl.WRR_loop fuel i c = some x →
      cl.WRR_loop fuel' i c = some x := by
  intro fuel
  induction fuel with
  | zero => intro fuel' i c _ h; cases h
  | succ fuel ih =>
    intro fuel' i c hle h
    obtain ⟨fuel', rfl⟩ : ∃ k, fuel' = k + 1 := ⟨fuel' - 1, by omega⟩
    simp only [WRR_loop] at h ⊢
    split at h
    next => cases h
    next =>
      split at h
      next hnone =>
        rw [if_pos hnone]
        exact h
      next hsome =>
        rw [if_neg hsome]
        split at h
        next => cases h
        next hin =>
          rw [if_neg hin]
          split at h
          next hheavy =>
            rw [if_pos hheavy]
            exact h
          next hlight =>
            rw [if_neg hlight]
            exact ih (by omega) h

theorem hash_scan_mono {x : ℤ} : ∀ {fuel fuel' j : ℕ}, fuel ≤ fuel' → cl.hash_scan i fuel j = some x →
      cl.hash_scan i fuel' j = some x := by
  intro fuel
  induction fuel with
  | zero => intro fuel' j _ h; cases h
  | succ fuel ih =>
    intro fuel' j hle h
    obtain ⟨fuel', rfl⟩ : ∃ k, fuel' = k + 1 := ⟨fuel' - 1, by omega⟩
    simp only [hash_scan] at h ⊢
    split at h
    next => cases h
    next hin =>
      rw [if_neg hin]
      split at h
      next halive =>
        rw [if_pos halive]
        exact h
      next hdead =>
        rw [if_neg hdead]
        split at h
        next hon =>
          rw [if_pos hon]
          exact ih (by omega) h
        next hback =>
          rw [if_neg hback]
          exact h

theorem WRR_loop_unique (h : cl.WRR_loop fuel i c = some x) (h' : cl.WRR_loop fuel' i c = some y) :
    x = y := by
  have hx := WRR_loop_mono (Nat.le_max_left fuel fuel') h
  have hy := WRR_loop_mono (Nat.le_max_right fuel fuel') h'
  exact Option.some.inj (hx.symm.trans hy)

theorem get_server_mono (hle : fuel ≤ fuel') (h : cl.get_server fuel sched hash_key = some x) :
    cl.get_server fuel' sched hash_key = some x := by
  cases sched with
  | RoundRobin =>
    simp only [get_server, get_server_RR] at h ⊢
    split at h
    next => cases h
    next hmax =>
      rw [if_neg hmax]
      exact RR_loop_mono hle h
  | WeightedRoundRobin =>
    simp only [get_server, get_server_WRR] at h ⊢
    split at h
    next => cases h
    next hnow =>
      rw [if_neg hnow]
      exact WRR_loop_mono hle h
  | DestinationHashing =>
    simp only [get_server, get_server_DH, Option.map_eq_some_iff] at h ⊢
    obtain ⟨r, hr, rfl⟩ := h
    split at hr
    next => cases hr
    next hnow =>
      rw [if_neg hnow]
      exact ⟨r, hash_scan_mono hle hr, rfl⟩
  | SourceHashing =>
    simp only [get_server, get_server_SH, Option.map_eq_some_iff] at h ⊢
    obtain ⟨r, hr, rfl⟩ := h
    split at hr
    next => cases hr
    next hnow =>
      rw [if_neg hnow]
      exact ⟨r, hash_scan_mono hle hr, rfl⟩
  | LeastConnection | WeightedLeastConnection | LocalityBasedLeastConnection => exact h

theorem get_server_unique (h : cl.get_server fuel sched hash_key = some x)
    (h' : cl.get_server fuel' sched hash_key = some y) : x = y := by
  have hx := get_server_mono (Nat.le_max_left fuel fuel') h
  have hy := get_server_mono (Nat.le_max_right fuel fuel') h'
  exact Option.some.inj (hx.symm.trans hy)

theorem answers_iff (h : cl.get_server fuel sched hash_key = some (r, cl')) :
    cl.Answers sched hash_key ↔ cl.Right r := by
  constructor
  · rintro ⟨fuel', r', cl'', h', hright⟩
    cases get_server_unique h h'
    exact hright
  · exact fun hright => ⟨fuel, r, cl', h, hright⟩

theorem right_natCast_iff (hpos : 0 < cl.weight j) : cl.Right j ↔ j < cl.server_now_ := by
  constructor
  · rintro (⟨k, hk, -, heq⟩ | ⟨heq, -⟩)
    · omega
    · omega
  · exact fun hj => Or.inl ⟨j, hj, hpos, rfl⟩

/-! ## §5. The unweighted schedulers. -/

/-- A server in use, at or after `i`, is alive. -/
def AliveFrom (cl : QLBCluster) (i : ℕ) : Prop :=
  ∃ j, i ≤ j ∧ j < cl.server_now_ ∧ 0 < cl.weight j

theorem circular_ne {n d : ℕ} (hi : i < n) (hd : 0 < d) (hdn : d < n) : (i + d) % n ≠ i := by
  by_cases hwrap : i + d < n
  · rw [Nat.mod_eq_of_lt hwrap]
    omega
  · rw [Nat.mod_eq_sub_mod (by omega), Nat.mod_eq_of_lt (by omega)]
    omega

section

variable (hiter : cl.server_iter_ < cl.server_max_)
include hiter

/-- Round robin looks at the slots after the iterator in circular order; slot
    `iter + d` is the first with a positive weight. -/
theorem RR_loop_hit {d' : ℕ} (hd' : d' ≤ cl.server_max_)
    (hpos : 0 < cl.weight ((cl.server_iter_ + d') % cl.server_max_)) (fuel : ℕ) : ∀ k d, d + k + 1 = d' →
      (∀ e, d < e → e < d' → cl.weight ((cl.server_iter_ + e) % cl.server_max_) ≤ 0) →
      cl.RR_loop (fuel + k + 1) ((cl.server_iter_ + d) % cl.server_max_) =
        some ((((cl.server_iter_ + d') % cl.server_max_ : ℕ) : ℤ),
          { cl with server_iter_ := (cl.server_iter_ + d') % cl.server_max_ }) := by
  intro k
  induction k with
  | zero =>
    intro d hd _
    have hlt := Nat.mod_lt (cl.server_iter_ + d') (show 0 < cl.server_max_ by omega)
    simp only [RR_loop, Nat.mod_add_mod]
    rw [show cl.server_iter_ + d + 1 = cl.server_iter_ + d' by omega, if_neg (by omega),
      if_pos hpos]
  | succ k ih =>
    intro d hd hdead
    have hlt := Nat.mod_lt (cl.server_iter_ + (d + 1)) (show 0 < cl.server_max_ by omega)
    have hdead' := hdead (d + 1) (by omega) (by omega)
    have hback := circular_ne hiter (Nat.succ_pos d) (show d + 1 < cl.server_max_ by omega)
    rw [← Nat.add_assoc fuel k 1, RR_loop]
    simp only [Nat.mod_add_mod, Nat.add_assoc]
    rw [if_neg (by omega), if_neg (not_lt.mpr hdead'), if_pos hback]
    exact ih (d + 1) (by omega) fun e he => hdead e (by omega)

/-- Round robin comes back to the iterator when no slot is alive. -/
theorem RR_loop_none (hdead : ∀ j, j < cl.server_max_ → cl.weight j ≤ 0) (fuel : ℕ) :
    ∀ k d, d + k + 1 = cl.server_max_ →
      cl.RR_loop (fuel + k + 1) ((cl.server_iter_ + d) % cl.server_max_) = some (-1, cl) := by
  intro k
  induction k with
  | zero =>
    intro d hd
    have hback : (cl.server_iter_ + d + 1) % cl.server_max_ = cl.server_iter_ := by
      rw [Nat.add_assoc, show d + 1 = cl.server_max_ by omega, Nat.add_mod_right,
        Nat.mod_eq_of_lt hiter]
    simp only [RR_loop, Nat.mod_add_mod, hback]
    rw [if_neg (by omega), if_neg (not_lt.mpr (hdead _ hiter)), if_neg (not_not.mpr rfl)]
  | succ k ih =>
    intro d hd
    have hlt := Nat.mod_lt (cl.server_iter_ + (d + 1)) (show 0 < cl.server_max_ by omega)
    have hback := circular_ne hiter (Nat.succ_pos d) (show d + 1 < cl.server_max_ by omega)
    rw [← Nat.add_assoc fuel k 1, RR_loop]
    simp only [Nat.mod_add_mod, Nat.add_assoc]
    rw [if_neg (by omega), if_neg (not_lt.mpr (hdead _ hlt)), if_pos hback]
    exact ih (d + 1) (by omega)

/-- Either no slot is alive and the answer is −1, or the answer is the first
    slot alive after the iterator, in circular order. -/
theorem get_server_RR_cases : ((∀ j, j < cl.server_max_ → cl.weight j ≤ 0) ∧
        cl.get_server_RR cl.server_max_ = some (-1, cl)) ∨
      ∃ d, 0 < d ∧ d ≤ cl.server_max_ ∧
        0 < cl.weight ((cl.server_iter_ + d) % cl.server_max_) ∧
        (∀ e, 0 < e → e < d → cl.weight ((cl.server_iter_ + e) % cl.server_max_) ≤ 0) ∧
        cl.get_server_RR cl.server_max_ = some ((((cl.server_iter_ + d) % cl.server_max_ : ℕ) : ℤ),
          { cl with server_iter_ := (cl.server_iter_ + d) % cl.server_max_ }) := by
  have hstart : (cl.server_iter_ + 0) % cl.server_max_ = cl.server_iter_ :=
    Nat.mod_eq_of_lt hiter
  have hcall : cl.get_server_RR cl.server_max_ =
      cl.RR_loop cl.server_max_ ((cl.server_iter_ + 0) % cl.server_max_) := by
    rw [get_server_RR, if_neg (by omega), hstart]
  by_cases hsome : ∃ d, 0 < d ∧ d ≤ cl.server_max_ ∧
      0 < cl.weight ((cl.server_iter_ + d) % cl.server_max_)
  · classical
    refine Or.inr ?_
    obtain ⟨hd, hle, hpos⟩ := Nat.find_spec hsome
    have hfirst : ∀ e, 0 < e → e < Nat.find hsome →
        cl.weight ((cl.server_iter_ + e) % cl.server_max_) ≤ 0 := by
      intro e he hlt
      by_contra hcon
      exact Nat.find_min hsome hlt ⟨he, by omega, not_le.mp hcon⟩
    refine ⟨Nat.find hsome, hd, hle, hpos, hfirst, ?_⟩
    have hrun := RR_loop_hit hiter hle hpos 0 (Nat.find hsome - 1) 0 (by omega) hfirst
    rw [hcall]
    exact RR_loop_mono (by omega) hrun
  refine Or.inl ?_
  have hdead : ∀ j, j < cl.server_max_ → cl.weight j ≤ 0 := by
    intro j hj
    by_contra hcon
    refine hsome ?_
    by_cases hahead : cl.server_iter_ < j
    · refine ⟨j - cl.server_iter_, by omega, by omega, ?_⟩
      rw [show cl.server_iter_ + (j - cl.server_iter_) = j by omega, Nat.mod_eq_of_lt hj]
      exact not_le.mp hcon
    refine ⟨j + cl.server_max_ - cl.server_iter_, by omega, by omega, ?_⟩
    rw [show cl.server_iter_ + (j + cl.server_max_ - cl.server_iter_) =
      j + cl.server_max_ by omega, Nat.add_mod_right, Nat.mod_eq_of_lt hj]
    exact not_le.mp hcon
  refine ⟨hdead, ?_⟩
  have hrun := RR_loop_none hiter hdead 0 (cl.server_max_ - 1) 0 (by omega)
  rw [hcall]
  exact RR_loop_mono (by omega) hrun

end

/-- **Round robin is right** when no slot is unused, or a server after the
    iterator is alive, or the iterator stands on the last slot and a server is
    alive; and only then. -/
theorem get_server_RR_right_iff (h : WellFormed cl) (hash_key : ℕ) : cl.Answers .RoundRobin hash_key ↔
      cl.server_now_ = cl.server_max_ ∨ cl.AliveFrom (cl.server_iter_ + 1) ∨
        (cl.server_iter_ + 1 = cl.server_max_ ∧ cl.AliveFrom 0) := by
  have hiter := h.iter
  have hnow := h.now_le_max
  rcases get_server_RR_cases hiter with ⟨hdead, hcall⟩ | ⟨d, hd, hle, hpos, hfirst, hcall⟩
  · -- a dead last slot is a slot in use
    have hfull : cl.server_now_ = cl.server_max_ := by
      by_contra hne
      have hone := h.unused (cl.server_max_ - 1) (by omega)
      have hzero := hdead (cl.server_max_ - 1) (by omega)
      omega
    rw [answers_iff (show cl.get_server cl.server_max_ .RoundRobin hash_key = _ from hcall)]
    exact ⟨fun _ => Or.inl hfull,
      fun _ => Or.inr ⟨rfl, fun j hj => hdead j (by omega)⟩⟩
  rw [answers_iff (show cl.get_server cl.server_max_ .RoundRobin hash_key = _ from hcall),
    right_natCast_iff hpos]
  have hlt := Nat.mod_lt (cl.server_iter_ + d) (show 0 < cl.server_max_ by omega)
  constructor
  · intro hright
    by_cases hwrap : cl.server_iter_ + d < cl.server_max_
    · rw [Nat.mod_eq_of_lt hwrap] at hright hpos
      exact Or.inr (Or.inl ⟨cl.server_iter_ + d, by omega, hright, hpos⟩)
    by_cases hlast : cl.server_iter_ + 1 = cl.server_max_
    · exact Or.inr (Or.inr ⟨hlast, _, Nat.zero_le _, hright, hpos⟩)
    -- the last slot comes before the wrap, and it is dead
    refine Or.inl ?_
    by_contra hne
    have hone := h.unused (cl.server_max_ - 1) (by omega)
    have hzero := hfirst (cl.server_max_ - 1 - cl.server_iter_) (by omega) (by omega)
    rw [show cl.server_iter_ + (cl.server_max_ - 1 - cl.server_iter_) =
      cl.server_max_ - 1 by omega, Nat.mod_eq_of_lt (by omega)] at hzero
    omega
  · rintro (hfull | ⟨j, hj, hjnow, halive⟩ | ⟨hlast, j, -, hjnow, halive⟩)
    · omega
    · have hdj : d ≤ j - cl.server_iter_ := by
        by_contra hcon
        have hzero := hfirst (j - cl.server_iter_) (by omega) (by omega)
        rw [show cl.server_iter_ + (j - cl.server_iter_) = j by omega,
          Nat.mod_eq_of_lt (by omega)] at hzero
        omega
      rw [Nat.mod_eq_of_lt (by omega)]
      omega
    · have hdj : d ≤ j + 1 := by
        by_contra hcon
        have hzero := hfirst (j + 1) (by omega) (by omega)
        rw [show cl.server_iter_ + (j + 1) = j + cl.server_max_ by omega, Nat.add_mod_right,
          Nat.mod_eq_of_lt (by omega)] at hzero
        omega
      rw [Nat.mod_eq_sub_mod (by omega), Nat.mod_eq_of_lt (by omega)]
      omega

theorem hash_scan_hit {k : ℕ} (hk : k < cl.server_max_) (hpos : 0 < cl.weight k) :
    ∀ n j, j + n = k → i ≤ j → (∀ m, j ≤ m → m < k → cl.weight m ≤ 0) →
      cl.hash_scan i (n + 1) j = some (k : ℤ) := by
  intro n
  induction n with
  | zero =>
    intro j hj _ _
    obtain rfl : j = k := by omega
    rw [hash_scan, if_neg (by omega), if_pos hpos]
  | succ n ih =>
    intro j hj hi hdead
    have hdead' := hdead j le_rfl (by omega)
    rw [hash_scan, if_neg (by omega), if_neg (not_lt.mpr hdead'), if_pos (by omega)]
    exact ih (j + 1) (by omega) (by omega) fun m hm => hdead m (by omega)

/-- Without a live slot the scan runs off the end of `server_info_`. -/
theorem hash_scan_out : ∀ fuel j, i ≤ j → (∀ m, j ≤ m → m < cl.server_max_ → cl.weight m ≤ 0) →
      cl.hash_scan i fuel j = none := by
  intro fuel
  induction fuel with
  | zero => intro j _ _; rfl
  | succ fuel ih =>
    intro j hi hdead
    rw [hash_scan]
    split
    next => rfl
    next hin =>
      rw [if_neg (not_lt.mpr (hdead j le_rfl (by omega))), if_pos (by omega)]
      exact ih (j + 1) (by omega) fun m hm => hdead m (by omega)

/-- **The hash schedulers are right** when a server from the hashed one on is
    alive: they never come back to the servers before it. -/
theorem hash_scan_right_iff (h : WellFormed cl) (i : ℕ) :
    (∃ fuel r, cl.hash_scan i fuel i = some r ∧ cl.Right r) ↔ cl.AliveFrom i := by
  have hnow := h.now_le_max
  by_cases hsome : ∃ k, i ≤ k ∧ k < cl.server_max_ ∧ 0 < cl.weight k
  · classical
    obtain ⟨hle, hlt, hpos⟩ := Nat.find_spec hsome
    have hfirst : ∀ m, i ≤ m → m < Nat.find hsome → cl.weight m ≤ 0 := by
      intro m him hm
      by_contra hcon
      exact Nat.find_min hsome hm ⟨him, by omega, not_le.mp hcon⟩
    have hscan := hash_scan_hit hlt hpos (Nat.find hsome - i) i (by omega) le_rfl hfirst
    constructor
    · rintro ⟨fuel, r, hr, hright⟩
      have hx := hash_scan_mono (Nat.le_max_left fuel (Nat.find hsome - i + 1)) hr
      have hy := hash_scan_mono (Nat.le_max_right fuel (Nat.find hsome - i + 1)) hscan
      obtain rfl := Option.some.inj (hx.symm.trans hy)
      exact ⟨Nat.find hsome, hle, (right_natCast_iff hpos).mp hright, hpos⟩
    · rintro ⟨j, hij, hj, halive⟩
      have hmin := Nat.find_min' hsome ⟨hij, by omega, halive⟩
      exact ⟨_, _, hscan, (right_natCast_iff hpos).mpr (by omega)⟩
  · have hdead : ∀ m, i ≤ m → m < cl.server_max_ → cl.weight m ≤ 0 := by
      intro m him hm
      by_contra hcon
      exact hsome ⟨m, him, hm, not_le.mp hcon⟩
    constructor
    · rintro ⟨fuel, r, hr, -⟩
      rw [hash_scan_out fuel i le_rfl hdead] at hr
      cases hr
    · rintro ⟨j, hij, hj, halive⟩
      exact absurd ⟨j, hij, by omega, halive⟩ hsome

theorem answers_hash_iff (hash_key : ℕ) (hn : 1 ≤ cl.server_now_)
    (hsched : sched = .DestinationHashing ∨ sched = .SourceHashing) : cl.Answers sched hash_key ↔
      ∃ fuel r, cl.hash_scan (hash_key % cl.server_now_) fuel (hash_key % cl.server_now_) = some r ∧
        cl.Right r := by
  have hne : cl.server_now_ ≠ 0 := by omega
  rcases hsched with rfl | rfl <;>
    simp [Answers, QLBCluster.get_server, get_server_DH, get_server_SH, hne]

/-- **THE UNWEIGHTED SCHEDULERS, OVER EVERY RUN**: when each of them returns,
    reads no slot at or beyond `server_max_`, and gives the right answer. -/
theorem unweighted_right_iff {cl : QLBCluster} (h : Reached cl) (hash_key : ℕ) :
    (cl.Answers .RoundRobin hash_key ↔
      cl.server_now_ = cl.server_max_ ∨ cl.AliveFrom (cl.server_iter_ + 1) ∨
        (cl.server_iter_ + 1 = cl.server_max_ ∧ cl.AliveFrom 0)) ∧
    (cl.Answers .DestinationHashing hash_key ↔ cl.AliveFrom (hash_key % cl.server_now_)) ∧
    (cl.Answers .SourceHashing hash_key ↔ cl.AliveFrom (hash_key % cl.server_now_)) := by
  have hwf := h.wellFormed
  refine ⟨get_server_RR_right_iff hwf hash_key, ?_, ?_⟩
  · rw [answers_hash_iff hash_key hwf.one_server (Or.inl rfl)]
    exact hash_scan_right_iff hwf _
  · rw [answers_hash_iff hash_key hwf.one_server (Or.inr rfl)]
    exact hash_scan_right_iff hwf _

/-- Two servers, one of them down, and a spare slot. -/
theorem unweighted_right_iff_two :
    ((configured [0, 3] 1).Answers .RoundRobin 4 ↔
      (configured [0, 3] 1).server_now_ = (configured [0, 3] 1).server_max_ ∨
        (configured [0, 3] 1).AliveFrom ((configured [0, 3] 1).server_iter_ + 1) ∨
        ((configured [0, 3] 1).server_iter_ + 1 = (configured [0, 3] 1).server_max_ ∧
          (configured [0, 3] 1).AliveFrom 0)) ∧
    ((configured [0, 3] 1).Answers .DestinationHashing 4 ↔
      (configured [0, 3] 1).AliveFrom (4 % (configured [0, 3] 1).server_now_)) ∧
    ((configured [0, 3] 1).Answers .SourceHashing 4 ↔
      (configured [0, 3] 1).AliveFrom (4 % (configured [0, 3] 1).server_now_)) :=
  unweighted_right_iff (reached_configured 1 (by decide) (by decide)) 4

/-- One server and a spare slot: round robin hands out the spare slot. -/
theorem get_server_spare_slot :
    ¬ ∀ cl, Reached cl → ∀ sched hash_key,
      sched = .RoundRobin ∨ sched = .DestinationHashing ∨ sched = .SourceHashing →
        cl.Answers sched hash_key := by
  intro h
  have hright := h (configured [1] 1) (reached_configured 1 (by decide) (by decide))
    .RoundRobin 0 (Or.inl rfl)
  have hcall : (configured [1] 1).get_server 1 .RoundRobin 0 =
      some (((1 : ℕ) : ℤ), { configured [1] 1 with server_iter_ := 1 }) := rfl
  rw [answers_iff hcall, right_natCast_iff (by decide)] at hright
  exact absurd hright (by decide)

end QLBCluster

end KalavaPir.Common
