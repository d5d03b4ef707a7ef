/-
  KalavaPir.Framework.RedBlack — red-black trees and the way from a subtree up
  to the root.

  The repairs of a red-black tree work at one place and go up from there.  A
  `Context` is what is above a subtree, the nearest node first; `plug` puts the
  subtree back.  The two mirror images of every repair are one: `join d` makes a
  node whose child on the side `d` is given first.
-/
import Mathlib.Data.List.Basic
import Mathlib.Data.Nat.Log

namespace KalavaPir.Framework

open List

namespace RedBlack

/-! ## §1. Trees. -/

/-- The color of a node. -/
inductive Color where
  | RED
  | BLACK
  deriving DecidableEq, Repr

open Color

/-- The side of a child. -/
inductive Side where
  | left
  | right
  deriving DecidableEq, Repr

/-- The opposite side. -/
def Side.other : Side → Side
  | .left => .right
  | .right => .left

/-- Binary trees with colors. -/
inductive RBTree (α : Type) where
  | leaf
  | node (c : Color) (l : RBTree α) (x : α) (r : RBTree α)

variable {α : Type}

namespace RBTree

/-- The color of the root; a leaf is black. -/
def color : RBTree α → Color
  | leaf => BLACK
  | node c _ _ _ => c

/-- The elements from left to right. -/
def toList : RBTree α → List α
  | leaf => []
  | node _ l x r => l.toList ++ x :: r.toList

/-- The same tree with a root of another color. -/
def paint (c : Color) : RBTree α → RBTree α
  | leaf => leaf
  | node _ l x r => node c l x r

/-- The child on the side `d`, then the other one. -/
def join : Side → Color → α → RBTree α → RBTree α → RBTree α
  | .left, c, x, near, far => node c near x far
  | .right, c, x, near, far => node c far x near

@[simp] theorem color_join (d : Side) (c : Color) (x : α) (a b : RBTree α) : (join d c x a b).color = c := by
  cases d <;> rfl

@[simp] theorem paint_join (d : Side) (c c' : Color) (x : α) (a b : RBTree α) :
    (join d c x a b).paint c' = join d c' x a b := by
  cases d <;> rfl

theorem join_other (d : Side) (c : Color) (x : α) (a b : RBTree α) : join d.other c x a b = join d c x b a := by
  cases d <;> rfl

@[simp] theorem toList_paint (c : Color) (t : RBTree α) : (t.paint c).toList = t.toList := by
  cases t <;> rfl

theorem length_node (c : Color) (l r : RBTree α) (x : α) :
    (node c l x r).toList.length = l.toList.length + r.toList.length + 1 := by
  show (l.toList ++ x :: r.toList).length = _
  rw [length_append, length_cons, Nat.add_assoc]

theorem paint_color (t : RBTree α) : t.paint t.color = t := by
  cases t <;> rfl

theorem eq_join (d : Side) (c : Color) (l : RBTree α) (x : α) (r : RBTree α) :
    ∃ a b, node c l x r = join d c x a b := by
  cases d with
  | left => exact ⟨l, r, rfl⟩
  | right => exact ⟨r, l, rfl⟩

theorem join_of_red {t : RBTree α} (h : t.color = RED) (d : Side) : ∃ x a b, t = join d RED x a b := by
  cases t with
  | leaf => cases h
  | node c l x r =>
    obtain ⟨a, b, hjoin⟩ := eq_join d c l x r
    have hc : c = RED := h
    rw [hc] at hjoin ⊢
    exact ⟨x, a, b, hjoin⟩

/-- **A rotation** keeps the order of the elements. -/
theorem rotate_toList (d : Side) (c c' e e' : Color) (x y : α) (a b s : RBTree α) :
    (join d c x a (join d c' y b s)).toList = (join d e y (join d e' x a b) s).toList := by
  cases d <;> simp [join, toList]

end RBTree

open RedBlack.RBTree

/-! ## §2. What is above a subtree. -/

/-- A node above the subtree: its side where the subtree is, and its other child. -/
structure Frame (α : Type) where
  side : Side
  color : Color
  label : α
  sib : RBTree α

/-- The nearest node first. -/
abbrev Context (α : Type) : Type := List (Frame α)

/-- One node around a subtree. -/
def Frame.plug (f : Frame α) (t : RBTree α) : RBTree α := RBTree.join f.side f.color f.label t f.sib

/-- A subtree at its place. -/
def plug : Context α → RBTree α → RBTree α
  | [], t => t
  | f :: up, t => plug up (f.plug t)

/-- The elements in front of the subtree. -/
def pre : Context α → List α
  | [] => []
  | ⟨.left, _, _, _⟩ :: up => pre up
  | ⟨.right, _, x, sib⟩ :: up => pre up ++ (sib.toList ++ [x])

/-- The elements behind the subtree. -/
def post : Context α → List α
  | [] => []
  | ⟨.left, _, x, sib⟩ :: up => x :: sib.toList ++ post up
  | ⟨.right, _, _, _⟩ :: up => post up

/-- The elements in front, inside and behind. -/
theorem toList_plug (ctx : Context α) : ∀ t : RBTree α, (plug ctx t).toList = pre ctx ++ (t.toList ++ post ctx) := by
  induction ctx with
  | nil =>
    intro t
    simp [plug, pre, post]
  | cons f up ih =>
    intro t
    obtain ⟨side, c, x, sib⟩ := f
    show (plug up _).toList = _
    rw [ih]
    cases side with
    | left | right => simp [Frame.plug, join, toList, pre, post]

variable {t a b : RBTree α} {n : ℕ} {d : Side} {x : α} {ctx : Context α}

theorem toList_plug_congr (ctx : Context α) {s : RBTree α} (h : s.toList = t.toList) :
    (plug ctx s).toList = (plug ctx t).toList := by
  rw [toList_plug, toList_plug, h]

theorem length_plug_leaf (ctx : Context α) : (plug ctx leaf).toList.length = (pre ctx ++ post ctx).length := by
  rw [toList_plug]
  rfl

theorem length_plug_node (ctx : Context α) (c : Color) (l r : RBTree α) (x : α) :
    (plug ctx (node c l x r)).toList.length =
      (pre ctx ++ (l.toList ++ (r.toList ++ post ctx))).length + 1 := by
  rw [toList_plug]
  simp only [length_append, length_node]
  omega

theorem plug_append (a b : Context α) : ∀ t : RBTree α, plug (a ++ b) t = plug b (plug a t) := by
  induction a with
  | nil =>
    intro t
    rfl
  | cons f a ih =>
    intro t
    exact ih (f.plug t)

theorem pre_append (a b : Context α) : pre (a ++ b) = pre b ++ pre a := by
  induction a with
  | nil => exact (append_nil _).symm
  | cons f a ih =>
    obtain ⟨side, c, x, sib⟩ := f
    cases side with
    | left => exact ih
    | right =>
      show pre (a ++ b) ++ (sib.toList ++ [x]) = pre b ++ (pre a ++ (sib.toList ++ [x]))
      rw [ih, append_assoc]

theorem post_append (a b : Context α) : post (a ++ b) = post a ++ post b := by
  induction a with
  | nil => rfl
  | cons f a ih =>
    obtain ⟨side, c, x, sib⟩ := f
    cases side with
    | left =>
      show x :: sib.toList ++ post (a ++ b) = x :: sib.toList ++ post a ++ post b
      rw [ih, append_assoc]
    | right => exact ih

/-- Every node above is an element. -/
theorem length_lt_of_plug (ctx : Context α) (t : RBTree α) :
    ctx.length + t.toList.length ≤ (plug ctx t).toList.length := by
  have hcount : ctx.length ≤ (pre ctx).length + (post ctx).length := by
    induction ctx with
    | nil => exact Nat.zero_le _
    | cons f up ih =>
      obtain ⟨side, c, x, sib⟩ := f
      cases side with
      | left =>
        simp only [pre, post, length_cons, length_append]
        omega
      | right =>
        simp only [pre, post, length_cons, length_append, length_nil]
        omega
  rw [toList_plug, length_append, length_append]
  omega

/-! ## §3. Balance. -/

/-- No red node has a red child, and there are `n` black nodes on every way down. -/
inductive RB : ℕ → RBTree α → Prop where
  | leaf : RB 0 leaf
  | red {n : ℕ} {l r : RBTree α} {x : α} (hl : l.color = BLACK) (hr : r.color = BLACK) (left : RB n l)
      (right : RB n r) : RB n (node RED l x r)
  | black {n : ℕ} {l r : RBTree α} {x : α} (left : RB n l) (right : RB n r) : RB (n + 1) (node BLACK l x r)

/-- A balanced subtree of height `n` with a root of color `c` fits here: the whole
    is balanced with a black root. -/
def Fits : ℕ → Color → Context α → Prop
  | _, c, [] => c = BLACK
  | n, c, ⟨_, RED, _, sib⟩ :: up => c = BLACK ∧ sib.color = BLACK ∧ RB n sib ∧ Fits n RED up
  | n, _, ⟨_, BLACK, _, sib⟩ :: up => RB n sib ∧ Fits (n + 1) BLACK up

@[simp] theorem rb_leaf_iff : RB n (leaf : RBTree α) ↔ n = 0 := by
  constructor
  · intro h
    cases h
    rfl
  · intro h
    rw [h]
    exact RB.leaf

@[simp] theorem rb_join_red :
    RB n (join d RED x a b) ↔ a.color = BLACK ∧ b.color = BLACK ∧ RB n a ∧ RB n b := by
  cases d with
  | left =>
    constructor
    · intro h
      cases h with
      | red ha hb left right => exact ⟨ha, hb, left, right⟩
    · rintro ⟨ha, hb, left, right⟩
      exact RB.red ha hb left right
  | right =>
    constructor
    · intro h
      cases h with
      | red hb ha right left => exact ⟨ha, hb, left, right⟩
    · rintro ⟨ha, hb, left, right⟩
      exact RB.red hb ha right left

@[simp] theorem rb_join_black : RB (n + 1) (join d BLACK x a b) ↔ RB n a ∧ RB n b := by
  cases d with
  | left =>
    constructor
    · intro h
      cases h with
      | black left right => exact ⟨left, right⟩
    · rintro ⟨left, right⟩
      exact RB.black left right
  | right =>
    constructor
    · intro h
      cases h with
      | black right left => exact ⟨left, right⟩
    · rintro ⟨left, right⟩
      exact RB.black right left

theorem join_of_rb_succ (h : RB (n + 1) t) (hc : t.color = BLACK) (d : Side) :
    ∃ x a b, t = join d BLACK x a b ∧ RB n a ∧ RB n b := by
  cases h with
  | red _ _ _ _ => cases hc
  | @black _ l r x left right =>
    obtain ⟨a, b, hjoin⟩ := eq_join d BLACK l x r
    have hnode : RB (n + 1) (join d BLACK x a b) := hjoin ▸ RB.black left right
    exact ⟨x, a, b, hjoin, rb_join_black.mp hnode⟩

theorem rb_paint_black (h : RB n t) (hc : t.color = RED) : RB (n + 1) (t.paint BLACK) := by
  cases h with
  | leaf => cases hc
  | red _ _ left right => exact RB.black left right
  | black _ _ => cases hc

theorem Fits.black (h : Fits n RED ctx) : Fits n BLACK ctx := by
  cases ctx with
  | nil => cases h
  | cons f up =>
    obtain ⟨side, c, x, sib⟩ := f
    cases c with
    | RED => cases h.1
    | BLACK => exact h

theorem Fits.sib {c : Color} {sib : RBTree α} {up : Context α} (h : Fits n BLACK (⟨d, c, x, sib⟩ :: up)) :
    RB n sib := by
  cases c with
  | RED => exact h.2.2.1
  | BLACK => exact h.1

theorem Fits.relabel {side : Side} {e : Color} {x' : α} {sib : RBTree α} {b : Context α} (a : Context α) :
    ∀ {n : ℕ} {c : Color}, Fits n c (a ++ ⟨side, e, x, sib⟩ :: b) → Fits n c (a ++ ⟨side, e, x', sib⟩ :: b) := by
  induction a with
  | nil =>
    intro n c h
    cases e <;> exact h
  | cons f a ih =>
    intro n c h
    obtain ⟨side', c', y, sib'⟩ := f
    cases c' with
    | RED => exact ⟨h.1, h.2.1, h.2.2.1, ih h.2.2.2⟩
    | BLACK => exact ⟨h.1, ih h.2⟩

/-- **THE WHOLE IS BALANCED.** -/
theorem plug_of_fits (ctx : Context α) : ∀ {n : ℕ} {t : RBTree α}, Fits n t.color ctx → RB n t →
    (∃ m, RB m (plug ctx t)) ∧ (plug ctx t).color = BLACK := by
  induction ctx with
  | nil =>
    intro n t hfits hrb
    exact ⟨⟨n, hrb⟩, hfits⟩
  | cons f up ih =>
    intro n t hfits hrb
    obtain ⟨side, c, x, sib⟩ := f
    cases c with
    | RED =>
      obtain ⟨ht, hsib, hrbsib, hup⟩ := hfits
      refine ih (n := n) (t := join side RED x t sib) ?_ (rb_join_red.mpr ⟨ht, hsib, hrb, hrbsib⟩)
      rw [color_join]
      exact hup
    | BLACK =>
      obtain ⟨hrbsib, hup⟩ := hfits
      refine ih (n := n + 1) (t := join side BLACK x t sib) ?_ (rb_join_black.mpr ⟨hrb, hrbsib⟩)
      rw [color_join]
      exact hup

/-- **EVERY SUBTREE FITS** where it is. -/
theorem fits_of_plug (ctx : Context α) : ∀ {m : ℕ} {t : RBTree α}, RB m (plug ctx t) → (plug ctx t).color = BLACK →
    ∃ n, RB n t ∧ Fits n t.color ctx := by
  induction ctx with
  | nil =>
    intro m t hrb hc
    exact ⟨m, hrb, hc⟩
  | cons f up ih =>
    intro m t hrb hc
    obtain ⟨side, c, x, sib⟩ := f
    obtain ⟨n, hnode, hup⟩ := ih (t := join side c x t sib) hrb hc
    rw [color_join] at hup
    cases c with
    | RED =>
      obtain ⟨ht, hsib, hrbt, hrbsib⟩ := rb_join_red.mp hnode
      exact ⟨n, hrbt, ht, hsib, hrbsib, hup⟩
    | BLACK =>
      obtain ⟨k, hk⟩ : ∃ k, n = k + 1 := by
        cases side <;> cases hnode <;> exact ⟨_, rfl⟩
      rw [hk] at hnode hup
      obtain ⟨hrbt, hrbsib⟩ := rb_join_black.mp hnode
      exact ⟨k, hrbt, hrbsib, hup⟩

/-! ## §4. Trees that are not balanced. -/

/-- A balanced tree with a black root. -/
def Sound (t : RBTree α) : Prop := t.color = BLACK ∧ ∃ n, RB n t

/-- There is one number of black nodes. -/
theorem RB.unique (h : RB n t) : ∀ {m : ℕ}, RB m t → m = n := by
  induction h with
  | leaf =>
    intro m h
    exact rb_leaf_iff.mp h
  | red _ _ _ _ ih _ =>
    intro m h
    cases h with
    | red _ _ left _ => exact ih left
  | black _ _ ih _ =>
    intro m h
    cases h with
    | black left _ => rw [ih left]

theorem not_fits_short (h : Fits (n + 1) BLACK ctx) : ¬ Fits n RED ctx := by
  intro hred
  cases ctx with
  | nil => cases hred
  | cons f up =>
    obtain ⟨side, c, x, sib⟩ := f
    cases c with
    | RED => cases hred.1
    | BLACK => exact absurd (h.1.unique hred.1) (Nat.ne_of_lt (Nat.lt_succ_self n))

/-- What fits is black at the top, whatever is at the place. -/
theorem color_plug_of_fits (ctx : Context α) (hne : ctx ≠ []) : ∀ {n : ℕ} {c : Color}, Fits n c ctx →
    ∀ t : RBTree α, (plug ctx t).color = BLACK := by
  induction ctx with
  | nil => exact absurd rfl hne
  | cons f up ih =>
    intro n c h t
    obtain ⟨side, e, x, sib⟩ := f
    have hup : Fits (if e = BLACK then n + 1 else n) e up := by
      cases e with
      | RED => exact h.2.2.2
      | BLACK => exact h.2
    by_cases hlast : up = []
    · rw [hlast] at hup ⊢
      exact (color_join side e x t sib).trans hup
    · exact ih hlast hup _

/-- A wrong place makes the whole wrong. -/
theorem not_sound_of_short (hfits : Fits (n + 1) BLACK ctx) (hrb : RB n t) (hred : t.color = RED) :
    ¬ Sound (plug ctx t) := by
  rintro ⟨hblack, m, hm⟩
  obtain ⟨k, hk, hup⟩ := fits_of_plug ctx hm hblack
  rw [hred, hrb.unique hk] at hup
  exact not_fits_short hfits hup

theorem not_sound_of_red (ha : a.color = RED) : ¬ Sound (plug ctx (join d RED x a b)) := by
  rintro ⟨hblack, m, hm⟩
  obtain ⟨k, hk, -⟩ := fits_of_plug ctx hm hblack
  have hc := (rb_join_red.mp hk).1
  rw [ha] at hc
  cases hc

/-! ## §5. How high a balanced tree is. -/

/-- The nodes on the longest way down. -/
def RBTree.height : RBTree α → ℕ
  | leaf => 0
  | node _ l _ r => max l.height r.height + 1

/-- Between two black nodes there is at most one red one. -/
theorem RB.height_le (h : RB n t) : t.height ≤ 2 * n + if t.color = RED then 1 else 0 := by
  induction h with
  | leaf => exact Nat.zero_le _
  | @red n l r x hl hr left right ihl ihr =>
    rw [hl, if_neg (by decide)] at ihl
    rw [hr, if_neg (by decide)] at ihr
    show max l.height r.height + 1 ≤ 2 * n + 1
    omega
  | @black n l r x left right ihl ihr =>
    have hl : l.height ≤ 2 * n + 1 := ihl.trans (by split <;> omega)
    have hr : r.height ≤ 2 * n + 1 := ihr.trans (by split <;> omega)
    show max l.height r.height + 1 ≤ 2 * (n + 1)
    omega

/-- The smaller child has half of the elements, or fewer. -/
theorem RB.le_log (h : RB n t) : n ≤ Nat.log 2 (t.toList.length + 1) := by
  induction h with
  | leaf => exact Nat.zero_le _
  | red _ _ left right ihl ihr =>
    rw [length_node]
    exact ihl.trans (Nat.log_mono_right (by omega))
  | @black n l r x left right ihl ihr =>
    have hmin : n ≤ Nat.log 2 (min l.toList.length r.toList.length + 1) := by
      rcases Nat.le_total l.toList.length r.toList.length with hle | hle
      · rw [Nat.min_eq_left hle]
        exact ihl
      · rw [Nat.min_eq_right hle]
        exact ihr
    rw [length_node]
    calc n + 1 ≤ Nat.log 2 (min l.toList.length r.toList.length + 1) + 1 := Nat.succ_le_succ hmin
      _ = Nat.log 2 ((min l.toList.length r.toList.length + 1) * 2) :=
        (Nat.log_mul_base (by decide) (Nat.succ_ne_zero _)).symm
      _ ≤ Nat.log 2 (l.toList.length + r.toList.length + 1 + 1) := Nat.log_mono_right (by omega)

/-- **A BALANCED TREE IS LOW.** -/
theorem RB.height_le_log (h : RB n t) (hc : t.color = BLACK) : t.height ≤ 2 * Nat.log 2 (t.toList.length + 1) := by
  have hlog := h.le_log
  have hheight := h.height_le
  rw [hc, if_neg (by decide)] at hheight
  omega

end RedBlack

end KalavaPir.Framework
