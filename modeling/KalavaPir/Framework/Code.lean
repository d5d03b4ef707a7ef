/-
  KalavaPir.Framework.Code — straight-line code with branches, as the tree of
  what is still to be executed.

  A thread of control is described by its CONTINUATION: the atomic actions and
  the tests that lie ahead of it.  Source code without loops becomes such a
  tree statement by statement, and a scheduler that runs one statement of one
  thread at a time only has to walk down the trees.

  Two ways of looking ahead are enough for every invariant about such threads:
    * `reaches hit stop` — on SOME path a `hit` comes before any `stop`
      (what the thread may still do to the others), and
    * `commits hit stop` — on EVERY path a `hit` comes before any `stop`
      (what the thread is bound to do).
  `All p` says that `p` holds of a continuation and of everything below it: a
  syntactic fact that is checked once per program, by evaluation, and that
  executing the program cannot lose.
-/
import Mathlib.Tactic.Common

namespace KalavaPir.Framework

/-- The code still to be executed: atomic actions `A`, two-way tests `B`. -/
inductive Code (A B : Type) where
  | halt
  | act (a : A) (k : Code A B)
  | branch (b : B) (yes no : Code A B)
  deriving DecidableEq, Repr

namespace Code

variable {A B : Type}

/-- A block of actions followed by `k`. -/
def block : List A → Code A B → Code A B
  | [], k => k
  | a :: as, k => .act a (block as k)

/-! ## §1. Looking ahead. -/

/-- On some path a `hit` action is executed before any `stop` action. -/
def reaches (hit stop : A → Bool) : Code A B → Bool
  | .halt => false
  | .act a k => hit a || (!stop a && reaches hit stop k)
  | .branch _ t e => reaches hit stop t || reaches hit stop e

/-- On every path a `hit` action is executed before any `stop` action. -/
def commits (hit stop : A → Bool) : Code A B → Bool
  | .halt => false
  | .act a k => hit a || (!stop a && commits hit stop k)
  | .branch _ t e => commits hit stop t && commits hit stop e

/-- `p` holds of the code and of every continuation below it. -/
def All (p : Code A B → Bool) : Code A B → Bool
  | .halt => p .halt
  | .act a k => p (.act a k) && All p k
  | .branch b t e => p (.branch b t e) && All p t && All p e

attribute [local simp] reaches commits All

variable {p : Code A B → Bool} {a : A} {k t e : Code A B} {b : B} {hit stop : A → Bool}

/-- What holds of all code below holds here … -/
theorem All.here {c : Code A B} (h : All p c = true) : p c = true := by
  cases c <;> simp_all [All]

/-- … behind an action … -/
theorem All.act (h : All p (.act a k) = true) : All p k = true := by
  simp only [All, Bool.and_eq_true] at h
  exact h.2

/-- … and on both sides … -/
theorem All.yes (h : All p (.branch b t e) = true) : All p t = true := by
  simp only [All, Bool.and_eq_true] at h
  exact h.1.2

/-- … of a branch. -/
theorem All.no (h : All p (.branch b t e) = true) : All p e = true := by
  simp only [All, Bool.and_eq_true] at h
  exact h.2

/-! ## §2. How the look-ahead moves when one statement is executed. -/

/-- A hit behind an action that does not stop. -/
theorem reaches_of_act (hstop : stop a = false) (h : reaches hit stop k = true) :
    reaches hit stop (.act a k) = true := by
  simp [reaches, hstop, h]

/-- A hit on the one side … -/
theorem reaches_of_yes (h : reaches hit stop t = true) : reaches hit stop (.branch b t e) = true := by
  simp [reaches, h]

/-- … or on the other. -/
theorem reaches_of_no (h : reaches hit stop e = true) : reaches hit stop (.branch b t e) = true := by
  simp [reaches, h]

/-- The action itself is a hit. -/
theorem reaches_of_hit (h : hit a = true) : reaches hit stop (.act a k) = true := by
  simp [reaches, h]

/-- The action itself is the hit. -/
theorem commits_of_hit (h : hit a = true) : commits hit stop (.act a k) = true := by
  simp [commits, h]

/-- A hit that is sure behind an action that does not stop. -/
theorem commits_of_act (hstop : stop a = false) (h : commits hit stop k = true) :
    commits hit stop (.act a k) = true := by
  simp [commits, hstop, h]

/-- The fewer stops, the more is committed. -/
theorem commits_mono {stop' : A → Bool} (himp : ∀ a, stop' a = true → stop a = true) :
    ∀ c : Code A B, commits hit stop c = true → commits hit stop' c = true
  | .halt, h => h
  | .act a k, h => by
    simp only [commits, Bool.or_eq_true, Bool.and_eq_true, Bool.not_eq_true'] at h ⊢
    rcases h with h | ⟨hs, hk⟩
    · exact Or.inl h
    refine Or.inr ⟨?_, commits_mono himp k hk⟩
    -- `a` stops nobody under `stop`, so neither under the smaller `stop'`
    cases hs' : stop' a with
    | false => rfl
    | true => simp [himp a hs'] at hs
  | .branch b t e, h => by
    simp only [commits, Bool.and_eq_true] at h ⊢
    exact ⟨commits_mono himp t h.1, commits_mono himp e h.2⟩

/-! ## §3. Control points along one path. -/

/-- The control points a thread passes when every test it meets comes out
    false. -/
def noPath : Code A B → List (Code A B)
  | .halt => [.halt]
  | .act a k => .act a k :: noPath k
  | .branch b t e => .branch b t e :: noPath e

/-- The path starts where it starts. -/
theorem mem_noPath_self : ∀ c : Code A B, c ∈ noPath c
  | .halt | .act _ _ | .branch _ _ _ => List.mem_cons_self

/-- What lies below a point of the path lies on the path. -/
theorem noPath_trans {c d : Code A B} : ∀ {p : Code A B}, c ∈ noPath p → d ∈ noPath c →
    d ∈ noPath p
  | .halt, hc, hd => by
    rw [noPath, List.mem_singleton] at hc
    exact hc ▸ hd
  | .act a k, hc, hd => by
    rcases List.mem_cons.mp hc with rfl | hc
    · exact hd
    · exact List.mem_cons_of_mem _ (noPath_trans hc hd)
  | .branch b t e, hc, hd => by
    rcases List.mem_cons.mp hc with rfl | hc
    · exact hd
    · exact List.mem_cons_of_mem _ (noPath_trans hc hd)

/-- Behind an action the path goes on … -/
theorem noPath_act {p : Code A B} (h : .act a k ∈ noPath p) : k ∈ noPath p :=
  noPath_trans h (List.mem_cons_of_mem _ (mem_noPath_self k))

/-- … and on the `no` side of a branch. -/
theorem noPath_no {p : Code A B} (h : .branch b t e ∈ noPath p) : e ∈ noPath p :=
  noPath_trans h (List.mem_cons_of_mem _ (mem_noPath_self e))

/-! ## §4. Size, for termination arguments. -/

/-- An upper bound on the statements still to be executed, each action counted
    with the weight `w` gives it. -/
def weight (w : A → ℕ) : Code A B → ℕ
  | .halt => 0
  | .act a k => w a + 1 + weight w k
  | .branch _ t e => 1 + (weight w t + weight w e)

end Code

end KalavaPir.Framework
