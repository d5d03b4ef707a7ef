/-
  KalavaPir.Common.QSocketPool — the connection pool of `common/qsocketpool.h`.

  A client gets a connection, may find it dead and say so (`set_dead`), uses it
  and releases it.  `get_socket_connection` and the timer callback `heart_beat`
  close and reconnect the dead connections they come by; whether a client still
  holds them they do not ask.

  As a step relation each call, and each check of one connection by
  `heart_beat`, is ONE step; how the connects end, and the number that `socket`
  gives to a new descriptor, is part of the step.  `close` closes the descriptor
  of that NUMBER: after a connect that failed, the number is one that `socket`
  may have given away since.
-/
import KalavaPir.Framework.Runs
import Mathlib.Data.List.Nodup

namespace KalavaPir.Common.QSocketPool

open KalavaPir.Framework List

/-! ## §1. `QClientSocket`. -/

/-- A connection. -/
structure QClientSocket where
  client_sock_ : ℤ
  is_dead_ : Bool
  is_idle_ : Bool
  deriving DecidableEq, Repr

/-- How `connect_to_server` ends: the descriptor it leaves, and whether it
    returns 0. -/
structure Connect where
  client_sock_ : ℤ
  ok : Bool
  deriving DecidableEq, Repr

namespace QClientSocket

/-- `QClientSocket()`. -/
def new : QClientSocket := { client_sock_ := -1, is_dead_ := true, is_idle_ := false }

/-- `init`; it returns 0 if the connect does. -/
def init (_ : QClientSocket) (connect : Connect) : QClientSocket :=
  if connect.ok then { client_sock_ := connect.client_sock_, is_dead_ := false, is_idle_ := true }
  else { client_sock_ := connect.client_sock_, is_dead_ := true, is_idle_ := false }

/-- The descriptor is closed. -/
def close (x : QClientSocket) : QClientSocket := { x with is_dead_ := true, is_idle_ := false }

/-- The mark of a dead connection. -/
def set_dead (x : QClientSocket) (dead : Bool) : QClientSocket := { x with is_dead_ := dead }

/-- The mark of an idle connection. -/
def set_idle (x : QClientSocket) (idle : Bool) : QClientSocket := { x with is_idle_ := idle }

/-- `if(is_dead()) { close(); init(…); }` -/
def revive (x : QClientSocket) (connect : Connect) : QClientSocket :=
  if x.is_dead_ then x.close.init connect else x

end QClientSocket

/-! ## §2. `QSocketPool`. -/

/-- What the pool does to connection `i`. -/
inductive Effect
  | close (i : ℕ) (client_sock_ : ℤ)
  | connect (i : ℕ)
  | hand (i : ℕ)
  deriving DecidableEq, Repr

/-- What `revive` does to connection `i`. -/
def reviving (x : QClientSocket) (i : ℕ) : List Effect :=
  if x.is_dead_ then [.close i x.client_sock_, .connect i] else []

/-- The loop of `get_socket_connection` from connection `i` on: the connections,
    the one it returns, and what it does on the way. -/
def scan (connects : ℕ → Connect) : ℕ → List QClientSocket →
    List QClientSocket × Option ℕ × List Effect
  | _, [] => ([], none, [])
  | i, x :: rest =>
    let y := x.revive (connects i)
    -- `continue` after a connect that failed leaves a connection that is not idle
    if y.is_idle_ then (y.set_idle false :: rest, some i, reviving x i ++ [.hand i])
    else
      let (rest, result, effects) := scan connects (i + 1) rest
      (y :: rest, result, reviving x i ++ effects)

/-- The first connection that is idle, or becomes so. -/
def get_socket_connection (connects : ℕ → Connect) (pool : List QClientSocket) :
    List QClientSocket × Option ℕ × List Effect :=
  scan connects 0 pool

/-- One round of the loop of `heart_beat`; `answers`: an idle connection answers
    the ping. -/
def heart_beat (x : QClientSocket) (i : ℕ) (answers : Bool) (connect : Connect) :
    QClientSocket × List Effect :=
  if x.is_dead_ || (x.is_idle_ && !answers) then
    (x.close.init connect, [.close i x.client_sock_, .connect i])
  else (x, [])

/-- The connections, and which client has been handed which of them. -/
structure State where
  socket_pool_ : List QClientSocket
  held : List (ℕ × ℕ)

/-- What can happen in the pool. -/
inductive Label
  | get_socket_connection (client : ℕ) (connects : ℕ → Connect)
  | set_dead (client i : ℕ) (dead : Bool)
  | use (client i : ℕ)
  | release_socket_connection (client i : ℕ)
  | heart_beat (i : ℕ) (answers : Bool) (connect : Connect)

/-- One step; clients act on the connections they hold. -/
def step (s : State) : Label → Option State
  | .get_socket_connection client connects =>
    let (pool, result, _) := get_socket_connection connects s.socket_pool_
    match result with
    | some i => some { socket_pool_ := pool, held := (client, i) :: s.held }
    | none => some { s with socket_pool_ := pool }
  | .set_dead client i dead =>
    if (client, i) ∈ s.held then
      some { s with socket_pool_ := s.socket_pool_.modify i (·.set_dead dead) }
    else none
  | .use client i => if (client, i) ∈ s.held then some s else none
  | .release_socket_connection client i =>
    if (client, i) ∈ s.held then
      some { socket_pool_ := s.socket_pool_.modify i (·.set_idle true),
             held := s.held.erase (client, i) }
    else none
  | .heart_beat i answers connect =>
    (s.socket_pool_[i]?).map fun x =>
      { s with socket_pool_ := s.socket_pool_.set i (heart_beat x i answers connect).1 }

/-- What the pool does in a step. -/
def effects (s : State) : Label → List Effect
  | .get_socket_connection _ connects => (get_socket_connection connects s.socket_pool_).2.2
  | .heart_beat i answers connect =>
    match s.socket_pool_[i]? with
    | some x => (heart_beat x i answers connect).2
    | none => []
  | .set_dead .. | .use .. | .release_socket_connection .. => []

/-- `init_connection` with `now_size` connections. -/
def start (now_size : ℕ) (connects : ℕ → Connect) : State where
  socket_pool_ := (List.range now_size).map fun i => QClientSocket.new.init (connects i)
  held := []

/-! ## §3. The claim of a holder, and what endangers it. -/

/-- The effect is on connection `i`, or closes its descriptor. -/
def Effect.Touches (e : Effect) (s : State) (i : ℕ) : Prop :=
  match e with
  | .close j client_sock_ =>
    j = i ∨ (s.socket_pool_[i]?).map QClientSocket.client_sock_ = some client_sock_
  | .connect j | .hand j => j = i

/-- **Exclusive**: nothing that the pool does in this step is done to a
    connection that a client holds. -/
def Exclusive (s : State) (l : Label) : Prop :=
  ∀ e ∈ effects s l, ∀ client i, (client, i) ∈ s.held → ¬ e.Touches s i

/-- The loop stops at this connection. -/
def Stops (x : QClientSocket) (connect : Connect) : Prop :=
  if x.is_dead_ then connect.ok = true else x.is_idle_ = true

/-- The loop comes by connection `j`. -/
def Reaches (connects : ℕ → Connect) (i : ℕ) (pool : List QClientSocket) (j : ℕ) : Prop :=
  ∀ k < j, ∀ x, pool[k]? = some x → ¬ Stops x (connects (i + k))

/-- The pool comes by connection `j` in this step, and finds it dead. -/
def FindsDead (s : State) (j : ℕ) (x : QClientSocket) : Label → Prop
  | .get_socket_connection _ connects => Reaches connects 0 s.socket_pool_ j ∧ x.is_dead_ = true
  | .heart_beat i answers _ => i = j ∧ (x.is_dead_ = true ∨ x.is_idle_ = true ∧ answers = false)
  | .set_dead .. | .use .. | .release_socket_connection .. => False

/-- What it finds dead is not held, and has not the number of a descriptor that
    is. -/
def Spared (s : State) (l : Label) : Prop :=
  ∀ j x, s.socket_pool_[j]? = some x → FindsDead s j x l → ∀ client i, (client, i) ∈ s.held →
    (s.socket_pool_[i]?).map QClientSocket.client_sock_ ≠ some x.client_sock_

/-! ## §4. What the loop does. -/

theorem revive_idle (x : QClientSocket) (connect : Connect) :
    (x.revive connect).is_idle_ = true ↔ Stops x connect := by
  unfold QClientSocket.revive Stops
  by_cases hdead : x.is_dead_ = true
  · rw [if_pos hdead, if_pos hdead, QClientSocket.init]
    by_cases hok : connect.ok = true
    · rw [if_pos hok]
      exact ⟨fun _ => hok, fun _ => rfl⟩
    · rw [if_neg hok]
      exact ⟨fun h => absurd h Bool.false_ne_true, fun h => absurd h hok⟩
  · rw [if_neg hdead, if_neg hdead]

theorem scan_cons (connects : ℕ → Connect) (i : ℕ) (x : QClientSocket) (rest : List QClientSocket) :
    (Stops x (connects i) ∧ scan connects i (x :: rest) =
      ((x.revive (connects i)).set_idle false :: rest, some i, reviving x i ++ [.hand i])) ∨
    (¬ Stops x (connects i) ∧ scan connects i (x :: rest) =
      (x.revive (connects i) :: (scan connects (i + 1) rest).1, (scan connects (i + 1) rest).2.1,
        reviving x i ++ (scan connects (i + 1) rest).2.2)) := by
  by_cases hstop : Stops x (connects i)
  · exact Or.inl ⟨hstop, if_pos ((revive_idle x _).mpr hstop)⟩
  · exact Or.inr ⟨hstop, if_neg fun hidle => hstop ((revive_idle x _).mp hidle)⟩

theorem reaches_zero (connects : ℕ → Connect) (i : ℕ) (pool : List QClientSocket) :
    Reaches connects i pool 0 := fun _ hk => absurd hk (Nat.not_lt_zero _)

theorem reaches_succ {connects : ℕ → Connect} {i j : ℕ} {x : QClientSocket}
    {rest : List QClientSocket} : Reaches connects i (x :: rest) (j + 1) ↔
      ¬ Stops x (connects i) ∧ Reaches connects (i + 1) rest j := by
  constructor
  · intro h
    refine ⟨h 0 (Nat.succ_pos j) x rfl, fun k hk y hy => ?_⟩
    rw [Nat.add_assoc, Nat.add_comm 1 k]
    exact h (k + 1) (Nat.succ_lt_succ hk) y hy
  · rintro ⟨hx, hrest⟩ k hk y hy
    cases k with
    | zero =>
      cases hy
      exact hx
    | succ k =>
      have hnot := hrest k (Nat.lt_of_succ_lt_succ hk) y hy
      rw [Nat.add_assoc, Nat.add_comm 1 k] at hnot
      exact hnot

section Scan

variable {connects : ℕ → Connect}

section

variable (pool : List QClientSocket)

/-- The connection that is returned: the first that the loop stops at. -/
theorem scan_result : ∀ i m,
    (scan connects i pool).2.1 = some m ↔ ∃ j x, m = i + j ∧ pool[j]? = some x ∧
      Reaches connects i pool j ∧ Stops x (connects m) := by
  induction pool with
  | nil =>
    intro i m
    constructor
    · intro h
      cases h
    · rintro ⟨j, x, -, hx, -⟩
      cases hx
  | cons x rest ih =>
    intro i m
    obtain ⟨hstop, heq⟩ | ⟨hstop, heq⟩ := scan_cons connects i x rest
    · rw [heq]
      constructor
      · intro h
        cases h
        exact ⟨0, x, rfl, rfl, reaches_zero _ _ _, hstop⟩
      · rintro ⟨j, y, rfl, hy, hreach, -⟩
        cases j with
        | zero => rfl
        | succ j => exact absurd hstop (reaches_succ.mp hreach).1
    rw [heq]
    constructor
    · intro h
      obtain ⟨j, y, rfl, hy, hreach, hstop'⟩ := (ih (i + 1) m).mp h
      exact ⟨j + 1, y, by omega, hy, reaches_succ.mpr ⟨hstop, hreach⟩, hstop'⟩
    · rintro ⟨j, y, rfl, hy, hreach, hstop'⟩
      cases j with
      | zero =>
        cases hy
        exact absurd hstop' hstop
      | succ j =>
        exact (ih (i + 1) _).mpr ⟨j, y, by omega, hy, (reaches_succ.mp hreach).2, hstop'⟩

/-- Connections that the loop does not come by, or finds alive and in use, stay
    as they are. -/
theorem scan_keeps : ∀ (i j : ℕ) (x : QClientSocket), pool[j]? = some x →
      ¬ (Reaches connects i pool j ∧ (x.is_dead_ = true ∨ Stops x (connects (i + j)))) →
      (scan connects i pool).1[j]? = some x := by
  induction pool with
  | nil =>
    intro i j x hx
    cases hx
  | cons y rest ih =>
    intro i j x hx hnot
    cases j with
    | zero =>
      cases hx
      have hlive : ¬ (y.is_dead_ = true ∨ Stops y (connects i)) := fun h =>
        hnot ⟨reaches_zero _ _ _, h⟩
      obtain ⟨hstop, -⟩ | ⟨-, heq⟩ := scan_cons connects i y rest
      · exact absurd (Or.inr hstop) hlive
      · rw [heq, QClientSocket.revive, if_neg fun hdead => hlive (Or.inl hdead)]
        rfl
    | succ j =>
      obtain ⟨-, heq⟩ | ⟨hstop, heq⟩ := scan_cons connects i y rest
      · rw [heq]
        exact hx
      rw [heq]
      refine ih (i + 1) j x hx fun h => hnot ⟨reaches_succ.mpr ⟨hstop, h.1⟩, ?_⟩
      have hsame : i + 1 + j = i + (j + 1) := by omega
      rw [← hsame]
      exact h.2

/-- The connection that is returned is no longer idle. -/
theorem scan_hands : ∀ (i j : ℕ), (scan connects i pool).2.1 = some (i + j) →
      ∃ y, (scan connects i pool).1[j]? = some y ∧ y.is_idle_ = false := by
  induction pool with
  | nil =>
    intro i j h
    cases h
  | cons x rest ih =>
    intro i j h
    obtain ⟨-, heq⟩ | ⟨-, heq⟩ := scan_cons connects i x rest
    · rw [heq] at h ⊢
      have hj : j = 0 := by
        have := Option.some.inj h
        omega
      rw [hj]
      exact ⟨_, rfl, rfl⟩
    · rw [heq] at h ⊢
      obtain ⟨k, _, hk, -⟩ := (scan_result rest (i + 1) (i + j)).mp h
      obtain ⟨j, rfl⟩ : ∃ j', j = j' + 1 := ⟨k, by omega⟩
      have hsame : i + (j + 1) = i + 1 + j := by omega
      exact ih (i + 1) j (hsame ▸ h)

/-- What the loop does on its way. -/
theorem mem_scan_effects : ∀ (i : ℕ) (e : Effect),
    e ∈ (scan connects i pool).2.2 ↔ ∃ j x, pool[j]? = some x ∧ Reaches connects i pool j ∧
      (e ∈ reviving x (i + j) ∨ Stops x (connects (i + j)) ∧ e = .hand (i + j)) := by
  induction pool with
  | nil =>
    intro i e
    constructor
    · intro h
      cases h
    · rintro ⟨j, x, hx, -⟩
      cases hx
  | cons x rest ih =>
    intro i e
    obtain ⟨hstop, heq⟩ | ⟨hstop, heq⟩ := scan_cons connects i x rest
    · rw [heq, mem_append, mem_singleton]
      constructor
      · intro h
        exact ⟨0, x, rfl, reaches_zero _ _ _, h.imp_right fun he => ⟨hstop, he⟩⟩
      · rintro ⟨j, y, hy, hreach, he⟩
        cases j with
        | zero =>
          cases hy
          exact he.imp_right And.right
        | succ j => exact absurd hstop (reaches_succ.mp hreach).1
    rw [heq, mem_append, ih (i + 1) e]
    constructor
    · rintro (he | ⟨j, y, hy, hreach, he⟩)
      · exact ⟨0, x, rfl, reaches_zero _ _ _, Or.inl he⟩
      · have hsame : i + 1 + j = i + (j + 1) := by omega
        exact ⟨j + 1, y, hy, reaches_succ.mpr ⟨hstop, hreach⟩, hsame ▸ he⟩
    · rintro ⟨j, y, hy, hreach, he⟩
      cases j with
      | zero =>
        cases hy
        exact Or.inl (he.resolve_right fun hhand => hstop hhand.1)
      | succ j =>
        have hsame : i + (j + 1) = i + 1 + j := by omega
        exact Or.inr ⟨j, y, hy, (reaches_succ.mp hreach).2, hsame ▸ he⟩

end

end Scan

/-! ## §5. Runs. -/

/-- **The invariant**: a connection is held once, and what is held is not idle. -/
structure Inv (s : State) : Prop where
  once : (s.held.map Prod.snd).Nodup
  busy : ∀ client i, (client, i) ∈ s.held → ∃ x, s.socket_pool_[i]? = some x ∧ x.is_idle_ = false

theorem Inv.start (now_size : ℕ) (connects : ℕ → Connect) : Inv (start now_size connects) where
  once := nodup_nil
  busy := fun _ _ h => absurd h not_mem_nil

section Step

variable {s s' : State} {l : Label}

variable {x : QClientSocket} {client : ℕ}

variable {i : ℕ} {connects : ℕ → Connect}

theorem mem_reviving {e : Effect} :
    e ∈ reviving x i ↔ x.is_dead_ = true ∧ (e = .close i x.client_sock_ ∨ e = .connect i) := by
  unfold reviving
  by_cases hdead : x.is_dead_ = true
  · rw [if_pos hdead]
    simp [hdead]
  · rw [if_neg hdead]
    exact ⟨fun h => absurd h not_mem_nil, fun h => absurd h.1 hdead⟩

/-- What the pool does in a step: it closes and connects what it finds dead, and
    hands out one connection. -/
theorem mem_effects {e : Effect} : e ∈ effects s l ↔ (∃ j x, s.socket_pool_[j]? = some x ∧ FindsDead s j x l ∧
      (e = .close j x.client_sock_ ∨ e = .connect j)) ∨
    (∃ client connects j x, l = .get_socket_connection client connects ∧
      s.socket_pool_[j]? = some x ∧ Reaches connects 0 s.socket_pool_ j ∧ Stops x (connects j) ∧
      e = .hand j) := by
  cases l with
  | get_socket_connection client connects =>
    show e ∈ (scan connects 0 s.socket_pool_).2.2 ↔ _
    rw [mem_scan_effects]
    constructor
    · rintro ⟨j, x, hx, hreach, he⟩
      rw [Nat.zero_add] at he
      rcases he with he | ⟨hstop, he⟩
      · obtain ⟨hdead, he⟩ := mem_reviving.mp he
        exact Or.inl ⟨j, x, hx, ⟨hreach, hdead⟩, he⟩
      · exact Or.inr ⟨client, connects, j, x, rfl, hx, hreach, hstop, he⟩
    · rintro (⟨j, x, hx, ⟨hreach, hdead⟩, he⟩ | ⟨_, _, j, x, heq, hx, hreach, hstop, he⟩)
      · refine ⟨j, x, hx, hreach, Or.inl ?_⟩
        rw [Nat.zero_add]
        exact mem_reviving.mpr ⟨hdead, he⟩
      · cases heq
        refine ⟨j, x, hx, hreach, Or.inr ?_⟩
        rw [Nat.zero_add]
        exact ⟨hstop, he⟩
  | heart_beat i answers connect =>
    have hthrow : ∀ x : QClientSocket, (x.is_dead_ || (x.is_idle_ && !answers)) = true ↔
        (x.is_dead_ = true ∨ x.is_idle_ = true ∧ answers = false) := by
      intro x
      rw [Bool.or_eq_true, Bool.and_eq_true, Bool.not_eq_true']
    constructor
    · intro h
      simp only [effects] at h
      split at h
      next x hx =>
        unfold heart_beat at h
        split at h
        next hbad =>
          simp only [mem_cons, not_mem_nil, or_false] at h
          exact Or.inl ⟨i, x, hx, ⟨rfl, (hthrow x).mp hbad⟩, h⟩
        next => cases h
      next => cases h
    · rintro (⟨j, x, hx, ⟨rfl, hbad⟩, he⟩ | ⟨_, _, _, _, heq, _⟩)
      · simp only [effects, hx]
        unfold heart_beat
        rw [if_pos ((hthrow x).mpr hbad)]
        simpa using he
      · cases heq
  | set_dead | use | release_socket_connection =>
    constructor
    · intro h
      cases h
    · rintro (⟨_, _, _, hdead, _⟩ | ⟨_, _, _, _, heq, _⟩)
      · cases hdead
      · cases heq

theorem Spared.not_dead (h : Spared s l) (hheld : (client, i) ∈ s.held) (hx : s.socket_pool_[i]? = some x) :
    ¬ FindsDead s i x l := by
  intro hdead
  refine h i x hx hdead client i hheld ?_
  rw [hx]
  rfl

theorem Spared.not_stops (h : Spared s l) (hinv : Inv s) {c : ℕ}
    (hl : l = .get_socket_connection c connects) (hheld : (client, i) ∈ s.held)
    (hx : s.socket_pool_[i]? = some x) (hreach : Reaches connects 0 s.socket_pool_ i) :
    ¬ (x.is_dead_ = true ∨ Stops x (connects i)) := by
  subst hl
  have hlive : ¬ x.is_dead_ = true := fun hdead => h.not_dead hheld hx ⟨hreach, hdead⟩
  obtain ⟨y, hy, hidle⟩ := hinv.busy client i hheld
  obtain rfl : x = y := Option.some.inj (hx.symm.trans hy)
  rw [Stops, if_neg hlive, hidle]
  rintro (hdead | hstop)
  · exact hlive hdead
  · cases hstop

/-- **One step**: it is exclusive exactly if it spares what is held. -/
theorem exclusive_iff (h : Inv s) (l : Label) : Exclusive s l ↔ Spared s l := by
  constructor
  · intro hex j x hx hdead client i hheld hsock
    exact hex (.close j x.client_sock_) (mem_effects.mpr (Or.inl ⟨j, x, hx, hdead, Or.inl rfl⟩))
      client i hheld (Or.inr hsock)
  · intro hspared e he client i hheld htouch
    rcases mem_effects.mp he with ⟨j, x, hx, hdead, rfl | rfl⟩ | ⟨c, connects, j, x, hl, hx, hreach, hstop, rfl⟩
    · rcases htouch with rfl | hsock
      · exact hspared.not_dead hheld hx hdead
      · exact hspared j x hx hdead client i hheld hsock
    · obtain rfl : j = i := htouch
      exact hspared.not_dead hheld hx hdead
    · obtain rfl : j = i := htouch
      exact hspared.not_stops h hl hheld hx hreach (Or.inr hstop)

theorem Inv.get (h : Inv s) (hspared : Spared s (.get_socket_connection client connects))
    (hstep : step s (.get_socket_connection client connects) = some s') : Inv s' := by
  have hkeeps : ∀ c i, (c, i) ∈ s.held →
      ∃ x, (scan connects 0 s.socket_pool_).1[i]? = some x ∧ x.is_idle_ = false := by
    intro c i hheld
    obtain ⟨x, hx, hidle⟩ := h.busy c i hheld
    refine ⟨x, scan_keeps _ 0 i x hx ?_, hidle⟩
    rw [Nat.zero_add]
    rintro ⟨hreach, hbad⟩
    exact hspared.not_stops h rfl hheld hx hreach hbad
  simp only [step, get_socket_connection] at hstep
  cases hresult : (scan connects 0 s.socket_pool_).2.1 with
  | none =>
    rw [hresult] at hstep
    cases hstep
    exact ⟨h.once, hkeeps⟩
  | some m =>
    rw [hresult] at hstep
    cases hstep
    obtain ⟨j, x, hm, hx, hreach, hstop⟩ := (scan_result _ 0 m).mp hresult
    rw [Nat.zero_add] at hm
    subst hm
    refine ⟨?_, ?_⟩
    · refine nodup_cons.mpr ⟨?_, h.once⟩
      intro hmem
      obtain ⟨⟨c, i⟩, hheld, rfl⟩ := mem_map.mp hmem
      exact hspared.not_stops h rfl hheld hx hreach (Or.inr hstop)
    · intro c i hmem
      rcases mem_cons.mp hmem with heq | hheld
      · cases heq
        refine scan_hands _ 0 m ?_
        rw [Nat.zero_add]
        exact hresult
      · exact hkeeps c i hheld

/-- **A step that spares what is held** keeps the invariant. -/
theorem Inv.step (h : Inv s) (hspared : Spared s l) (hstep : step s l = some s') : Inv s' := by
  cases l with
  | get_socket_connection client connects => exact h.get hspared hstep
  | set_dead client i dead =>
    simp only [QSocketPool.step, Option.ite_none_right_eq_some, Option.some.injEq] at hstep
    obtain ⟨-, rfl⟩ := hstep
    refine ⟨h.once, fun c j hheld => ?_⟩
    obtain ⟨x, hx, hidle⟩ := h.busy c j hheld
    rw [getElem?_modify, hx]
    refine ⟨if i = j then x.set_dead dead else x, rfl, ?_⟩
    split
    next => exact hidle
    next => exact hidle
  | use client i =>
    simp only [QSocketPool.step, Option.ite_none_right_eq_some, Option.some.injEq] at hstep
    obtain ⟨-, rfl⟩ := hstep
    exact h
  | release_socket_connection client i =>
    simp only [QSocketPool.step, Option.ite_none_right_eq_some, Option.some.injEq] at hstep
    obtain ⟨hheld, rfl⟩ := hstep
    have hnodup : s.held.Nodup := List.Nodup.of_map Prod.snd h.once
    refine ⟨h.once.sublist (erase_sublist.map _), fun c j hmem => ?_⟩
    obtain ⟨hne, hold⟩ := hnodup.mem_erase_iff.mp hmem
    obtain ⟨x, hx, hidle⟩ := h.busy c j hold
    have hij : i ≠ j := by
      rintro rfl
      exact hne (inj_on_of_nodup_map h.once hold hheld rfl)
    exact ⟨x, by rw [getElem?_modify_ne _ _ hij, hx], hidle⟩
  | heart_beat i answers connect =>
    simp only [QSocketPool.step, Option.map_eq_some_iff] at hstep
    obtain ⟨x, hx, rfl⟩ := hstep
    refine ⟨h.once, fun c j hheld => ?_⟩
    by_cases hij : i = j
    · subst hij
      have hlive := hspared.not_dead hheld hx
      obtain ⟨y, hy, hidle⟩ := h.busy c i hheld
      obtain rfl : x = y := Option.some.inj (hx.symm.trans hy)
      refine ⟨x, ?_, hidle⟩
      have hquiet : ¬ (x.is_dead_ || (x.is_idle_ && !answers)) = true := by
        intro hbad
        rw [Bool.or_eq_true, Bool.and_eq_true, Bool.not_eq_true'] at hbad
        exact hlive ⟨rfl, hbad⟩
      rw [heart_beat, if_neg hquiet, List.getElem?_set_self (List.getElem?_eq_some_iff.mp hx).1]
    · obtain ⟨y, hy, hidle⟩ := h.busy c j hheld
      exact ⟨y, by rw [getElem?_set_ne hij, hy], hidle⟩

end Step

/-- **EXCLUSIVENESS**: in a run, nothing is done to a connection that a client
    holds exactly if every step spares what is held. -/
theorem held_exclusive_iff (now_size : ℕ) (connects : ℕ → Connect) (ls : List Label) :
    Steps step Exclusive (start now_size connects) ls ↔
      Steps step Spared (start now_size connects) ls :=
  steps_iff_steps Inv (fun _ _ _ hinv hspared hstep => hinv.step hspared hstep)
    (fun _ l hinv => exclusive_iff hinv l) ls _ (Inv.start now_size connects)

/-- A client finds its connection dead, and the next one gets it. -/
theorem held_handed_again :
    ¬ ∀ (now_size : ℕ) (connects : ℕ → Connect) (ls : List Label),
      Steps step Exclusive (start now_size connects) ls := by
  intro h
  have hrun := h 1 (fun _ => ⟨5, true⟩) [.get_socket_connection 0 fun _ => ⟨5, true⟩, .set_dead 0 0 true,
    .get_socket_connection 1 fun _ => ⟨5, true⟩]
  have hget := (((hrun _ rfl).2 _ rfl).2 _ rfl).1
  exact hget (.hand 0) (by decide) 0 0 (by decide) rfl

end KalavaPir.Common.QSocketPool
