/-
  KalavaPir.Common.QLBClusterMembers — adding and removing servers of the load
  balancer (`common/qlbcluster.h`).

  `server_max_` is the capacity and `server_now_` the number of servers.  `erase`
  asserts against the capacity, moves the slots behind `pos` one place down, all of
  them, and then takes 1 off the CAPACITY; `push_back`, the configuration and the
  schedulers count the servers in `server_now_`.
-/
import KalavaPir.Common.Int32
import KalavaPir.Framework.Histories
import KalavaPir.Framework.ArrayPrefix

namespace KalavaPir.Common

open KalavaPir.Framework

/-- The members of `QLBCluster` that hold the servers; `slots` were allocated. -/
structure LBMembers (SERVER_INFO : Type) where
  server_info_ : ℕ → SERVER_INFO
  slots : ℕ
  server_max_ : ℕ
  server_now_ : ℕ

namespace LBMembers

variable {SERVER_INFO : Type}

/-! ## §1. The operations. -/

/-- The capacity. -/
def max_size (cl : LBMembers SERVER_INFO) : ℕ := cl.server_max_

/-- The number of servers. -/
def size (cl : LBMembers SERVER_INFO) : ℕ := cl.server_now_

/-- `push_back(item)`; a store behind the last slot is undefined. -/
def push_back (cl : LBMembers SERVER_INFO) (item : SERVER_INFO) :
    Except Stop (ℤ × LBMembers SERVER_INFO) :=
  if cl.server_now_ = cl.server_max_ then .ok (-1, cl)
  else if cl.slots ≤ cl.server_now_ then .error .undefined
  else
    .ok (0, { cl with
      server_info_ := Function.update cl.server_info_ cl.server_now_ item
      server_now_ := cl.server_now_ + 1 })

/-- `erase(pos)`: a failed assertion does not return. -/
def erase (cl : LBMembers SERVER_INFO) (pos : ℕ) : Except Stop (ℤ × LBMembers SERVER_INFO) :=
  if cl.server_max_ ≤ pos then .error .undefined
  else
    .ok (0, { cl with
      server_info_ := shiftLeft cl.server_info_ pos (cl.server_max_ - 1 - pos)
      server_max_ := cl.server_max_ - 1 })

/-- The calls that change the servers. -/
inductive Call (SERVER_INFO : Type)
  | push_back (item : SERVER_INFO)
  | erase (pos : ℕ)
  deriving DecidableEq, Repr

/-- One call. -/
def step (cl : LBMembers SERVER_INFO) : Call SERVER_INFO → Except Stop (ℤ × LBMembers SERVER_INFO)
  | .push_back item => cl.push_back item
  | .erase pos => cl.erase pos

/-- A list of at most `cap` servers: append, and remove at a position. -/
def servers (cap : ℕ) (xs : List SERVER_INFO) : Call SERVER_INFO → Except Stop (ℤ × List SERVER_INFO)
  | .push_back item => if xs.length = cap then .ok (-1, xs) else .ok (0, xs ++ [item])
  | .erase pos => .ok (0, xs.eraseIdx pos)

/-- The servers `xs` are configured, with room for `cap`. -/
structure Configured (cap : ℕ) (cl : LBMembers SERVER_INFO) (xs : List SERVER_INFO) : Prop where
  max_size : cl.max_size = cap
  elements : cells cl.server_info_ cl.size = xs

/-- The positions a caller may erase. -/
def InRange (cl : LBMembers SERVER_INFO) (_ : List SERVER_INFO) : Call SERVER_INFO → Prop
  | .push_back _ => True
  | .erase pos => pos < cl.size

instance (cl : LBMembers SERVER_INFO) (xs : List SERVER_INFO) : ∀ c, Decidable (InRange cl xs c)
  | .push_back _ => inferInstanceAs (Decidable True)
  | .erase pos => inferInstanceAs (Decidable (pos < cl.size))

/-- The array has `cap` slots, and no more servers than that. -/
def Fits (cap : ℕ) (cl : LBMembers SERVER_INFO) (_ : List SERVER_INFO) : Prop :=
  cl.slots = cap ∧ cl.size ≤ cap

/-! ## §2. One call. -/

variable {cap : ℕ} {cl : LBMembers SERVER_INFO} {xs : List SERVER_INFO}

section

variable (h : Configured cap cl xs)
include h

theorem Configured.size_eq : cl.size = xs.length := by
  rw [← h.elements, length_cells]

/-- **`push_back` appends.** -/
theorem push_back_spec (hfits : Fits cap cl xs) (item : SERVER_INFO) :
    ∃ a cl' xs', step cl (.push_back item) = .ok (a, cl') ∧
      servers cap xs (.push_back item) = .ok (a, xs') ∧ Configured cap cl' xs' ∧ Fits cap cl' xs' := by
  have hmax : cl.server_max_ = cap := h.max_size
  have hnow : cl.server_now_ = xs.length := h.size_eq
  obtain ⟨hslots, hle⟩ := hfits
  by_cases hfull : xs.length = cap
  -- no room: nothing changes
  · refine ⟨-1, cl, xs, if_pos ?_, if_pos hfull, h, hslots, hle⟩
    rw [hnow, hfull, hmax]
  · have hroom : ¬ cl.server_now_ = cl.server_max_ := by
      rw [hnow, hmax]
      exact hfull
    have hle' : xs.length ≤ cap := hnow ▸ hle
    refine ⟨0, { cl with
      server_info_ := Function.update cl.server_info_ cl.server_now_ item
      server_now_ := cl.server_now_ + 1 }, xs ++ [item], ?_, if_neg hfull, ⟨hmax, ?_⟩, hslots, ?_⟩
    · show cl.push_back item = _
      unfold push_back
      rw [if_neg hroom, if_neg (by omega)]
    · show cells (Function.update cl.server_info_ cl.server_now_ item) (cl.server_now_ + 1) = _
      rw [cells_update_self]
      exact congrArg (· ++ [item]) h.elements
    · show cl.server_now_ + 1 ≤ cap
      omega

/-- **What an `erase` leaves**: the right servers in front, but as many as before,
    and less room. -/
theorem cells_erase (hfits : Fits cap cl xs) {pos : ℕ} (hpos : pos < cl.size) :
    ∃ cl', step cl (.erase pos) = .ok (0, cl') ∧ cells cl'.server_info_ (cl.size - 1) = xs.eraseIdx pos ∧
      cl'.size = cl.size ∧ cl'.max_size = cap - 1 := by
  have hmax : cl.server_max_ = cap := h.max_size
  obtain ⟨hslots, hle⟩ := hfits
  have hcap : ¬ cap ≤ pos := by omega
  refine ⟨{ cl with
    server_info_ := shiftLeft cl.server_info_ pos (cap - 1 - pos)
    server_max_ := cap - 1 }, ?_, ?_, rfl, rfl⟩
  · show cl.erase pos = _
    unfold erase
    rw [hmax, if_neg hcap]
  · show cells (shiftLeft cl.server_info_ pos (cap - 1 - pos)) (cl.size - 1) = _
    rw [cells_shiftLeft _ (by omega) (by omega), Nat.sub_add_cancel (by omega), h.elements]

/-- **No `erase` keeps the capacity.** -/
theorem not_erase_matched (hfits : Fits cap cl xs) {pos : ℕ} (hpos : pos < cl.size) :
    ¬ Matched (Configured cap) (step cl (.erase pos)) (servers cap xs (.erase pos)) := by
  obtain ⟨cl', hstep, -, -, hmax⟩ := cells_erase h hfits hpos
  rw [hstep]
  intro hmatched
  -- a server is there to be erased, so the capacity was not 0, and is one less now
  have hsame := (matched_ok_iff.mp hmatched).2.max_size
  have hle := hfits.2
  omega

end

/-! ## §3. Histories. -/

/-- The call adds a server. -/
def Adds : Call SERVER_INFO → Prop
  | .push_back _ => True
  | .erase _ => False

theorem calls_adds_iff (h : Configured cap cl xs) (hfits : Fits cap cl xs) (cs : List (Call SERVER_INFO)) :
    Calls step (servers cap) (fun _ _ c => Adds c) cl xs cs ↔ ∀ c ∈ cs, Adds c := by
  induction cs generalizing cl xs with
  | nil => exact iff_of_true trivial (by simp)
  | cons c cs ih =>
    rw [List.forall_mem_cons, Calls]
    refine and_congr_right fun hadds => ?_
    cases c with
    | erase pos => exact absurd hadds id
    | push_back item =>
      obtain ⟨a, cl', xs', hs, ht, h', hfits'⟩ := push_back_spec h hfits item
      rw [← ih h' hfits']
      constructor
      · intro hrest
        exact hrest a cl' xs' hs ht
      -- a call has one outcome
      · intro hall b cl₁ xs₁ hs₁ ht₁
        rw [hs] at hs₁
        rw [ht] at ht₁
        cases hs₁
        cases ht₁
        exact hall

/-- **THE SERVERS ARE KEPT EXACTLY BY THE HISTORIES WITHOUT `erase`.** -/
theorem members_history_iff (h : Configured cap cl xs) (hfits : Fits cap cl xs)
    {cs : List (Call SERVER_INFO)} (hrange : Calls step (servers cap) InRange cl xs cs) :
    (∀ n, Matched (Configured cap) (history step cl (cs.take n))
        (history (servers cap) xs (cs.take n))) ↔ ∀ c ∈ cs, Adds c := by
  rw [← calls_adds_iff h hfits cs]
  refine matched_iff_calls (Fits cap) ?_ ?_ h hfits hrange
  · intro cl xs c h hfits _ hadds
    cases c with
    | push_back item =>
      obtain ⟨a, cl', xs', hs, ht, h', hfits'⟩ := push_back_spec h hfits item
      rw [hs, ht]
      exact .answer ⟨h', hfits'⟩
    | erase pos => exact absurd hadds id
  · intro cl xs c h hfits hrange hnot
    cases c with
    | push_back item => exact absurd trivial hnot
    | erase pos => exact not_erase_matched h hfits hrange

/-- Three slots, one server, three more to add. -/
theorem members_history_iff_three :
    (∀ n, Matched (Configured 3)
        (history step (⟨fun _ => 0, 3, 3, 1⟩ : LBMembers ℕ)
          (([.push_back 7, .push_back 8, .push_back 9] : List (Call ℕ)).take n))
        (history (servers 3) [0]
          (([.push_back 7, .push_back 8, .push_back 9] : List (Call ℕ)).take n))) ↔
      ∀ c ∈ ([.push_back 7, .push_back 8, .push_back 9] : List (Call ℕ)), Adds c :=
  @members_history_iff ℕ 3 ⟨fun _ => 0, 3, 3, 1⟩ [0] ⟨rfl, rfl⟩ ⟨rfl, by decide⟩
    [.push_back 7, .push_back 8, .push_back 9] (by decide)

/-- One of two servers is erased, and there are still two, but only one slot. -/
theorem erase_takes_a_slot :
    ¬ ∀ (cap : ℕ) (cl : LBMembers ℕ) (xs : List ℕ) (cs : List (Call ℕ)), Configured cap cl xs →
      Fits cap cl xs → Calls step (servers cap) InRange cl xs cs →
        Matched (Configured cap) (history step cl cs) (history (servers cap) xs cs) := by
  intro h
  have hmatched := h 2 ⟨fun i => i, 2, 2, 2⟩ [0, 1] [.erase 0] ⟨rfl, rfl⟩ ⟨rfl, by decide⟩
    (by decide)
  exact absurd (matched_ok_iff.mp hmatched).2.max_size (by decide)

end LBMembers

end KalavaPir.Common
