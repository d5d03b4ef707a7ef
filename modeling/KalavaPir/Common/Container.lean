/-
  KalavaPir.Common.Container — the interface `QQueue`, `QPriorityQueue` and the
  heaps share.

  Each call is the same around the class's own `full()`, `empty()`, store and
  removal: under `mutex_` it tests, then stores or takes.  `push` and `pop` test again
  and again until they may go on; `push_non_blocking` and `pop_non_blocking` return −1.
-/
import KalavaPir.Framework.Histories
import KalavaPir.Common.Int32

namespace KalavaPir.Common

open KalavaPir.Framework

/-- What the calls of one class are made of; `none` is undefined behaviour. -/
structure Container (S T : Type) where
  full : S → Option Bool
  empty : S → Bool
  store : S → T → Option S
  take : S → Option (T × S)
  clear : S → S

namespace Container

variable {S S' T : Type}

/-! ## §1. The calls. -/

/-- The calls that all containers share. -/
inductive Call (T : Type)
  | clear
  | push (item : T)
  | pop
  | push_non_blocking (item : T)
  | pop_non_blocking
  deriving DecidableEq, Repr

/-- The call takes an element, if there is one. -/
def Call.takes : Call T → Bool
  | .pop => true
  | .pop_non_blocking => true
  | _ => false

/-- What a call gives back: the code it returns, and the element it took. -/
structure Answer (T : Type) where
  ret : ℤ := 0
  item : Option T := none
  deriving DecidableEq, Repr

/-- The body of the pushes; `refused` is what the full container makes of the
    call. -/
def pushWith (k : Container S T) (refused : Except Stop (Answer T × S)) (s : S) (item : T) :
    Except Stop (Answer T × S) :=
  checked (k.full s) fun full =>
    if full then refused else checked (k.store s item) fun s' => .ok ({}, s')

/-- The body of the pops. -/
def popWith (k : Container S T) (refused : Except Stop (Answer T × S)) (s : S) :
    Except Stop (Answer T × S) :=
  if k.empty s then refused
  else checked (k.take s) fun taken => .ok ({ item := some taken.1 }, taken.2)

/-- One call. -/
def step (k : Container S T) (s : S) : Call T → Except Stop (Answer T × S)
  | .clear => .ok ({}, k.clear s)
  | .push item => k.pushWith (.error .waits) s item
  | .pop => k.popWith (.error .waits) s
  | .push_non_blocking item => k.pushWith (.ok ({ ret := -1 }, s)) s item
  | .pop_non_blocking => k.popWith (.ok ({ ret := -1 }, s)) s

/-! ## §2. Containers that do alike. -/

section Alike

variable {k : Container S T} {k' : Container S' T} {R : S → S' → Prop} {s : S} {t : S'}

variable {refused : Except Stop (Answer T × S)} {refused' : Except Stop (Answer T × S')}

/-- A push that agrees … -/
theorem pushWith_matched (hfull : k.full s = k'.full t) {item : T}
    (hstore : k'.full t = some false → ∃ s' t', k.store s item = some s' ∧ k'.store t item = some t' ∧ R s' t')
    (hrefused : Matched R refused refused') :
    Matched R (k.pushWith refused s item) (k'.pushWith refused' t item) := by
  unfold pushWith
  rw [hfull]
  cases hf : k'.full t with
  | none => exact .stop .undefined
  | some full =>
    cases full with
    | true => exact hrefused
    | false =>
      obtain ⟨s', t', hs, ht, hR⟩ := hstore hf
      rw [hs, ht]
      exact .answer hR

/-- … and a pop. -/
theorem popWith_matched (hempty : k.empty s = k'.empty t)
    (htake : k'.empty t = false → ∃ x s' t', k.take s = some (x, s') ∧ k'.take t = some (x, t') ∧ R s' t')
    (hrefused : Matched R refused refused') : Matched R (k.popWith refused s) (k'.popWith refused' t) := by
  unfold popWith
  rw [hempty]
  cases he : k'.empty t with
  | true => exact hrefused
  | false =>
    obtain ⟨x, s', t', hs, ht, hR⟩ := htake he
    rw [hs, ht]
    exact .answer hR

/-- **Containers that test, store, take and clear alike answer alike.** -/
theorem step_matched (hR : R s t) (hfull : k.full s = k'.full t)
    (hempty : k.empty s = k'.empty t) (hclear : R (k.clear s) (k'.clear t))
    (hstore : ∀ item, k'.full t = some false →
      ∃ s' t', k.store s item = some s' ∧ k'.store t item = some t' ∧ R s' t') (c : Call T)
    (htake : c.takes = true → k'.empty t = false →
      ∃ x s' t', k.take s = some (x, s') ∧ k'.take t = some (x, t') ∧ R s' t') :
    Matched R (k.step s c) (k'.step t c) := by
  have hrefused : Matched R (.ok ({ ret := -1 }, s) : Except Stop (Answer T × S))
      (.ok ({ ret := -1 }, t)) := .answer hR
  cases c with
  | clear => exact .answer hclear
  | push item => exact pushWith_matched hfull (hstore item) (.stop .waits)
  | pop => exact popWith_matched hempty (htake rfl) (.stop .waits)
  | push_non_blocking item => exact pushWith_matched hfull (hstore item) hrefused
  | pop_non_blocking => exact popWith_matched hempty (htake rfl) hrefused

/-- A removal without defined behaviour shows. -/
theorem not_step_matched {c : Call T} (hc : c.takes = true) (hs : k.empty s = false)
    (ht : k'.empty t = false) (htake : k.take s = none) {y : T × S'} (htake' : k'.take t = some y) :
    ¬ Matched R (k.step s c) (k'.step t c) := by
  have hpop : ∀ (refused : Except Stop (Answer T × S)) (refused' : Except Stop (Answer T × S')),
      ¬ Matched R (k.popWith refused s) (k'.popWith refused' t) := by
    intro refused refused'
    unfold popWith
    rw [hs, ht, htake, htake']
    exact not_matched_error_ok
  cases c with
  | clear | push item => exact absurd hc Bool.false_ne_true
  | pop => exact hpop _ _
  | push_non_blocking item => exact absurd hc Bool.false_ne_true
  | pop_non_blocking => exact hpop _ _

end Alike

/-! ## §3. Lists as containers. -/

/-- At most `cap` elements in a list: `insert` says where a pushed element goes,
    `take` which element a pop takes. -/
def bounded (insert : T → List T → List T) (take : List T → Option (T × List T)) (cap : ℕ) :
    Container (List T) T where
  full xs := some (xs.length == cap)
  empty xs := xs.length == 0
  store xs item := some (insert item xs)
  take := take
  clear _ := []

section Bounded

variable {insert : T → List T → List T} {take : List T → Option (T × List T)} {cap : ℕ} {xs : List T}

theorem bounded_room (h : (bounded insert take cap).full xs = some false) : xs.length ≠ cap := by
  intro heq
  have hfull : some (xs.length == cap) = some false := h
  rw [heq, beq_self_eq_true] at hfull
  cases hfull

/-- What is not empty has an item. -/
theorem bounded_some (h : (bounded insert take cap).empty xs = false) : xs ≠ [] := by
  rintro rfl
  cases h

end Bounded

/-- The first element of the list and the others. -/
def takeHead : List T → Option (T × List T)
  | [] => none
  | x :: xs => some (x, xs)

/-- First in, first out. -/
def fifo (cap : ℕ) : Container (List T) T := bounded (fun item xs => xs ++ [item]) takeHead cap

end Container

end KalavaPir.Common
