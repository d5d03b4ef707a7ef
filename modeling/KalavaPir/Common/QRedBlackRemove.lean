/-
  KalavaPir.Common.QRedBlackRemove — `remove` keeps the tree in balance, as long as
  no right child has a red brother on the way up.

  `DeleteFixup` goes up with a subtree that has one black node too few on its ways
  down.  Of the three comparisons in `DeleteFixupRight` that should be assignments,
  two are harmless: what they leave out is written afterwards anyway.
-/
import KalavaPir.Common.QRedBlackInsert

namespace KalavaPir.Common

namespace RedBlackTree

open KalavaPir.Framework KalavaPir.Framework.RedBlack List
open RedBlack.Color RedBlack.RBTree

variable {K V : Type}

/-! ## §1. One round for both sides. -/

/-- A red brother goes up, and the child of the brother becomes the brother. -/
def redBrother (d : Side) (t : QRedBlackTree K V) (node : ℕ) : QRedBlackTree K V :=
  let brother := t.child d.other (t.parent node)
  if t.color brother = RED then
    let t := t.setColor brother BLACK
    let t := t.setColor (t.parent node) RED
    t.Rotate d (t.parent node)
  else t

/-- A red child of the brother on the side of `node` goes to the other side. -/
def innerNephew (d : Side) (t : QRedBlackTree K V) (node : ℕ) : QRedBlackTree K V :=
  let brother := t.child d.other (t.parent node)
  if t.color (t.child d.other brother) = BLACK then
    let t := t.setColor brother RED
    let t := t.setColor (t.child d brother) BLACK
    t.Rotate d.other brother
  else t

/-- The brother takes the place of the parent. -/
def outerNephew (d : Side) (t : QRedBlackTree K V) (node : ℕ) : QRedBlackTree K V :=
  let brother := t.child d.other (t.parent node)
  let t := t.setColor brother (t.color (t.parent brother))
  let t := t.setColor (t.parent brother) BLACK
  let t := t.setColor (t.child d.other brother) BLACK
  t.Rotate d (t.parent brother)

/-- What a round does once the brother is black. -/
def blackBrother (d : Side) (t : QRedBlackTree K V) (node : ℕ) : QRedBlackTree K V × ℕ :=
  let brother := t.child d.other (t.parent node)
  if t.color (t.left brother) = BLACK ∧ t.color (t.right brother) = BLACK then
    (t.setColor brother RED, t.parent node)
  else (outerNephew d (innerNephew d t node) node, (outerNephew d (innerNephew d t node) node).m_root)

/-- One round, for both sides. -/
def deleteRound (d : Side) (t : QRedBlackTree K V) (node : ℕ) : QRedBlackTree K V × ℕ :=
  blackBrother d (redBrother d t node) node

theorem DeleteFixupLeft_eq (t : QRedBlackTree K V) (node : ℕ) : t.DeleteFixupLeft node = deleteRound .left t node := rfl

/-- A red brother goes up and stays red: `brother->color==BLACK`. -/
def redBrotherSlip (t : QRedBlackTree K V) (node : ℕ) : QRedBlackTree K V :=
  let brother := t.left (t.parent node)
  if t.color brother = RED then
    let t := t.setColor (t.parent node) RED
    t.RightRotate (t.parent node)
  else t

/-- The colors stay: `brother->color==RED`, `brother->right->color==BLACK`. -/
def innerNephewSlip (t : QRedBlackTree K V) (node : ℕ) : QRedBlackTree K V :=
  let brother := t.left (t.parent node)
  if t.color (t.left brother) = BLACK then t.LeftRotate brother else t

/-- The rest of the round, as the code has it for a right child. -/
def blackBrotherSlip (t : QRedBlackTree K V) (node : ℕ) : QRedBlackTree K V × ℕ :=
  let brother := t.left (t.parent node)
  if t.color (t.left brother) = BLACK ∧ t.color (t.right brother) = BLACK then
    (t.setColor brother RED, t.parent node)
  else (outerNephew .right (innerNephewSlip t node) node, (outerNephew .right (innerNephewSlip t node) node).m_root)

theorem DeleteFixupRight_parts (t : QRedBlackTree K V) (node : ℕ) :
    t.DeleteFixupRight node = blackBrotherSlip (redBrotherSlip t node) node := rfl

variable {t t' : QRedBlackTree K V} {C U : Context (Label K V)} {s B bl br a T l r : RBTree (Label K V)}
  {d : Side} {c e : NODE_COLOR} {y b x : Label K V} {n fuel : ℕ}

/-! ## §2. The steps of a round. -/

theorem parent_kept {f : Frame (Label K V)} (h : Shape t' (plug (f :: C) s)) (hsame : Same t t')
    (hparent : t.parent (ptr s) = f.label.addr) : t'.parent (ptr s) = f.label.addr := by
  by_cases hs : s = leaf
  · rw [hs] at hparent ⊢
    unfold QRedBlackTree.parent at hparent ⊢
    rw [show ptr (leaf : RBTree (Label K V)) = m_leaf from rfl] at hparent ⊢
    rw [hsame.leaf, hparent]
  · exact h.parent_ptr hs

theorem brother_eq (h : Shape t (plug (⟨d, c, y, B⟩ :: U) s)) (hparent : t.parent (ptr s) = y.addr) :
    t.child d.other (t.parent (ptr s)) = ptr B := by
  rw [hparent]
  exact h.frame.2.2.2

theorem Shape.brother (h : Shape t (plug (⟨d, c, y, B⟩ :: U) s)) :
    Shape t (plug (⟨d.other, c, y, s⟩ :: U) B) := by
  show Shape t (plug U (join d.other c y B s))
  rw [join_other]
  exact h

theorem Shape.of_brother (h : Shape t (plug (⟨d.other, c, y, s⟩ :: U) B)) :
    Shape t (plug (⟨d, c, y, B⟩ :: U) s) := by
  show Shape t (plug U (join d c y s B))
  rw [← join_other]
  exact h

/-- After `redBrother` the brother is black; if it was red, the parent is red now. -/
theorem redBrother_spec (h : Shape t (plug (⟨d, c, y, B⟩ :: U) s)) (hparent : t.parent (ptr s) = y.addr)
    (hfits : Fits (n + 1) BLACK (⟨d, c, y, B⟩ :: U)) :
    ∃ c' B' U', Shape (redBrother d t (ptr s)) (plug (⟨d, c', y, B'⟩ :: U') s) ∧
      Same t (redBrother d t (ptr s)) ∧ B'.color = BLACK ∧ Fits (n + 1) BLACK (⟨d, c', y, B'⟩ :: U') ∧
      (plug (⟨d, c', y, B'⟩ :: U') s).toList = (plug (⟨d, c, y, B⟩ :: U) s).toList ∧
      (B.color = RED → c' = RED) ∧ (B.color = BLACK → U' = U) := by
  have hcolor : t.color (ptr B) = B.color := h.brother.color_ptr
  unfold redBrother
  dsimp only
  rw [brother_eq h hparent, hcolor]
  cases hB : B.color with
  | BLACK =>
    exact ⟨c, B, U, h, ⟨rfl, rfl, rfl⟩, hB, hfits, rfl, nofun, fun _ => rfl⟩
  | RED =>
    obtain ⟨b, bl, br, hnode⟩ := join_of_red hB d
    cases c with
    | RED =>
      have hblack := hfits.2.1
      rw [hB] at hblack
      cases hblack
    | BLACK =>
      obtain ⟨hrbB, hup⟩ := hfits
      rw [hnode] at h hrbB ⊢
      obtain ⟨hbl, hbr, hrbbl, hrbbr⟩ := rb_join_red.mp hrbB
      -- the brother becomes black, the parent red, and then the brother goes up
      obtain ⟨h1, hsame1⟩ := h.brother.setColor BLACK
      have h1' := h1.of_brother
      have hparent1 := parent_kept h1' hsame1 hparent
      obtain ⟨h2, hsame2⟩ := Shape.setColor (C := U) (d := d) h1' RED
      have hparent2 : ((t.setColor b.addr BLACK).setColor y.addr RED).parent (ptr s) = y.addr :=
        parent_kept (f := ⟨d, RED, y, join d BLACK b bl br⟩) (C := U) h2 hsame2 hparent1
      obtain ⟨h3, hsame3⟩ := h2.rotate
      rw [ptr_join, hparent1, hparent2]
      refine ⟨RED, bl, ⟨d, BLACK, b, br⟩ :: U, h3, (hsame1.trans hsame2).trans hsame3, hbl,
        ⟨rfl, hbl, hrbbl, hrbbr, hup⟩, ?_, fun _ => rfl, nofun⟩
      exact toList_plug_congr U (rotate_toList d BLACK RED BLACK RED y b s bl br).symm

/-- After `innerNephew` the child of the brother on the other side is red. -/
theorem innerNephew_spec (h : Shape t (plug (⟨d, c, y, join d BLACK b bl br⟩ :: U) s))
    (hparent : t.parent (ptr s) = y.addr) (hrbl : RB n bl) (hrbr : RB n br)
    (hred : ¬ (bl.color = BLACK ∧ br.color = BLACK)) :
    ∃ b' bl' br', Shape (innerNephew d t (ptr s)) (plug (⟨d, c, y, join d BLACK b' bl' br'⟩ :: U) s) ∧
      Same t (innerNephew d t (ptr s)) ∧ br'.color = RED ∧ RB n bl' ∧ RB n br' ∧
      (plug (⟨d, c, y, join d BLACK b' bl' br'⟩ :: U) s).toList =
        (plug (⟨d, c, y, join d BLACK b bl br⟩ :: U) s).toList := by
  have hbrother := h.brother
  have hfar : t.child d.other b.addr = ptr br :=
    (Shape.frame (f := ⟨d, BLACK, b, br⟩) (U := ⟨d.other, c, y, s⟩ :: U) (s := bl) hbrother).2.2.2
  have hcolor : t.color (ptr br) = br.color := by
    exact (Shape.brother (U := ⟨d.other, c, y, s⟩ :: U) (d := d) (c := BLACK) (y := b) (s := bl) hbrother).color_ptr
  unfold innerNephew
  dsimp only
  rw [brother_eq h hparent, ptr_join, hfar, hcolor]
  cases hbr : br.color with
  | RED =>
    exact ⟨b, bl, br, h, ⟨rfl, rfl, rfl⟩, hbr, hrbl, hrbr, rfl⟩
  | BLACK =>
    have hbl : bl.color = RED := by
      cases hc : bl.color with
      | RED => rfl
      | BLACK => exact absurd ⟨hc, hbr⟩ hred
    -- the red nephew `u` on the near side goes up in the place of the brother
    obtain ⟨u, q, p, hnode⟩ := join_of_red hbl d
    rw [hnode] at h hrbl hbrother ⊢
    obtain ⟨hq, hp, hrbq, hrbp⟩ := rb_join_red.mp hrbl
    obtain ⟨h1, hsame1⟩ := hbrother.setColor RED
    have hnear : (t.setColor b.addr RED).child d b.addr = u.addr := by
      have hframe := (Shape.frame (f := ⟨d, RED, b, br⟩) (U := ⟨d.other, c, y, s⟩ :: U)
        (s := join d RED u q p) h1).2.2.1
      rw [ptr_join] at hframe
      exact hframe
    obtain ⟨h2, hsame2⟩ := Shape.setColor (C := ⟨d, RED, b, br⟩ :: ⟨d.other, c, y, s⟩ :: U) (d := d) h1 BLACK
    have h2' : Shape ((t.setColor b.addr RED).setColor u.addr BLACK)
        (plug (⟨d.other, c, y, s⟩ :: U) (join d.other RED b br (join d.other BLACK u p q))) := by
      rw [join_other, join_other]
      exact h2
    obtain ⟨h3, hsame3⟩ := h2'.rotate
    rw [hnear]
    refine ⟨u, q, join d.other RED b br p, ?_, (hsame1.trans hsame2).trans hsame3, color_join _ _ _ _ _, hrbq,
      rb_join_red.mpr ⟨hbr, hp, hrbr, hrbp⟩, ?_⟩
    · refine Shape.of_brother ?_
      rw [← join_other d BLACK]
      exact h3
    · refine toList_plug_congr U ?_
      cases d <;> simp [Frame.plug, join, toList, Side.other]

/-- `outerNephew` ends with the brother in the place of the parent. -/
theorem outerNephew_spec (h : Shape t (plug (⟨d, c, y, join d e b bl br⟩ :: U) s))
    (hparent : t.parent (ptr s) = y.addr) :
    Shape (outerNephew d t (ptr s)) (plug U (join d c b (join d BLACK y s bl) (br.paint BLACK))) ∧
      Same t (outerNephew d t (ptr s)) := by
  have hparentb : ∀ {t' : QRedBlackTree K V} {c' c'' : NODE_COLOR} {e : RBTree (Label K V)},
      Shape t' (plug (⟨d.other, c'', y, s⟩ :: U) (join d c' b bl e)) → t'.parent b.addr = y.addr := by
    intro t' c' c'' e h'
    have hptr := h'.parent_ptr (by cases d <;> simp [join])
    rw [ptr_join] at hptr
    exact hptr
  have hcolory : t.color y.addr = c := h.frame.1
  -- the brother gets the color of the parent, and the parent and the far nephew
  -- become black
  obtain ⟨h1, hsame1⟩ := h.brother.setColor c
  obtain ⟨h2, hsame2⟩ := Shape.setColor (C := U) (d := d) h1.of_brother BLACK
  have h2' : Shape ((t.setColor b.addr c).setColor y.addr BLACK)
      (plug (⟨d.other, BLACK, y, s⟩ :: U) (join d c b bl br)) :=
    Shape.brother (s := s) (B := join d c b bl br) h2
  have hfar : ((t.setColor b.addr c).setColor y.addr BLACK).child d.other b.addr = ptr br :=
    (Shape.frame (f := ⟨d, c, b, br⟩) (U := ⟨d.other, BLACK, y, s⟩ :: U) (s := bl) h2').2.2.2
  obtain ⟨h3, hsame3⟩ := Shape.setColor_black
    (Shape.brother (U := ⟨d.other, BLACK, y, s⟩ :: U) (d := d) (c := c) (y := b) (s := bl) h2')
  have h3' : Shape (((t.setColor b.addr c).setColor y.addr BLACK).setColor (ptr br) BLACK)
      (plug (⟨d.other, BLACK, y, s⟩ :: U) (join d c b bl (br.paint BLACK))) :=
    Shape.of_brother (U := ⟨d.other, BLACK, y, s⟩ :: U) (d := d) (s := bl) h3
  obtain ⟨h4, hsame4⟩ := Shape.rotate (C := U) (d := d) (Shape.of_brother h3')
  unfold outerNephew
  dsimp only
  rw [brother_eq h hparent, ptr_join, hparentb h.brother, hcolory, hparentb h1, hfar, hparentb h3']
  exact ⟨h4, ((hsame1.trans hsame2).trans hsame3).trans hsame4⟩

theorem outerNephew_ends (h : Shape t (plug (⟨d, c, y, join d e b bl br⟩ :: U) s))
    (hparent : t.parent (ptr s) = y.addr) (hrb : RB n s) (hrbbl : RB n bl)
    (hrbbr : RB (n + 1) (br.paint BLACK)) :
    ∃ a a', Shape (outerNephew d t (ptr s)) (plug U (join d c b a a')) ∧ Same t (outerNephew d t (ptr s)) ∧
      a.color = BLACK ∧ a'.color = BLACK ∧ RB (n + 1) a ∧ RB (n + 1) a' ∧
      (plug U (join d c b a a')).toList = (plug (⟨d, c, y, join d e b bl br⟩ :: U) s).toList := by
  obtain ⟨hshape, hsame⟩ := outerNephew_spec h hparent
  have hcolor : (br.paint BLACK).color = BLACK := by
    cases br <;> rfl
  refine ⟨_, _, hshape, hsame, color_join d BLACK y s bl, hcolor, rb_join_black.mpr ⟨hrb, hrbbl⟩, hrbbr, ?_⟩
  refine toList_plug_congr U ?_
  cases d <;> simp [Frame.plug, join, toList]

theorem left_right_eq (h : Shape t (plug C (node c l x r))) :
    t.left x.addr = ptr l ∧ t.right x.addr = ptr r ∧ t.color x.addr = c := by
  have hcell := Shape.cell (d := .left) h
  unfold QRedBlackTree.left QRedBlackTree.right QRedBlackTree.color
  rw [hcell]
  exact ⟨rfl, rfl, rfl⟩

/-! ## §3. The loop. -/

/-- The subtree has `n` black nodes on every way down, where `n + 1` are due; a red
    one has them as soon as it is black. -/
structure Short (n : ℕ) (s : RBTree (Label K V)) : Prop where
  black : s.color = BLACK → RB n s
  red : s.color = RED → RB (n + 1) (s.paint BLACK)

/-- The round with a black brother, by the colors of the nephews. -/
theorem blackBrother_eq (h : Shape t (plug (⟨d, c, y, join d BLACK b bl br⟩ :: U) s))
    (hparent : t.parent (ptr s) = y.addr) :
    blackBrother d t (ptr s) = if bl.color = BLACK ∧ br.color = BLACK then (t.setColor b.addr RED, y.addr)
      else (outerNephew d (innerNephew d t (ptr s)) (ptr s),
        (outerNephew d (innerNephew d t (ptr s)) (ptr s)).m_root) := by
  obtain ⟨-, -, hnear, hfar⟩ :=
    Shape.frame (f := ⟨d, BLACK, b, br⟩) (U := ⟨d.other, c, y, s⟩ :: U) (s := bl) h.brother
  have hbl : t.color (ptr bl) = bl.color :=
    Shape.color_ptr (C := ⟨d, BLACK, b, br⟩ :: ⟨d.other, c, y, s⟩ :: U) h.brother
  have hbr : t.color (ptr br) = br.color := by
    exact (Shape.brother (U := ⟨d.other, c, y, s⟩ :: U) (d := d) (c := BLACK) (y := b) (s := bl) h.brother).color_ptr
  have hboth : (t.color (t.left b.addr) = BLACK ∧ t.color (t.right b.addr) = BLACK) ↔
      bl.color = BLACK ∧ br.color = BLACK := by
    cases d with
    | left =>
      rw [show t.left b.addr = ptr bl from hnear, show t.right b.addr = ptr br from hfar, hbl, hbr]
    | right =>
      rw [show t.right b.addr = ptr bl from hnear, show t.left b.addr = ptr br from hfar, hbl, hbr]
      exact and_comm
  unfold blackBrother
  rw [brother_eq h hparent, ptr_join, hparent]
  by_cases hblack : bl.color = BLACK ∧ br.color = BLACK
  · rw [if_pos hblack, if_pos (hboth.mpr hblack)]
  · rw [if_neg hblack, if_neg (fun hcolors => hblack (hboth.mp hcolors))]

/-- A child is red. -/
def redChild {α : Type} : RBTree α → Bool
  | leaf => false
  | node _ l _ r => decide (l.color = RED ∨ r.color = RED)

theorem redChild_join {α : Type} {x : α} {a b : RBTree α} :
    redChild (join d c x a b) = false ↔ a.color = BLACK ∧ b.color = BLACK := by
  have hcolor : ∀ s : RBTree α, ¬ s.color = RED ↔ s.color = BLACK := by
    intro s
    cases s.color <;> decide
  cases d with
  | left =>
    show decide (a.color = RED ∨ b.color = RED) = false ↔ _
    rw [decide_eq_false_iff_not, not_or, hcolor, hcolor]
  | right =>
    show decide (b.color = RED ∨ a.color = RED) = false ↔ _
    rw [decide_eq_false_iff_not, not_or, hcolor, hcolor, and_comm]

/-- What a round leaves behind a black brother `B`: the brother is red and the place
    one higher, or the loop ends with a subtree of the height that is due. -/
inductive RoundEnds (t : QRedBlackTree K V) (d : Side) (c : NODE_COLOR) (y : Label K V) (s B : RBTree (Label K V))
    (U : Context (Label K V)) (n : ℕ) : QRedBlackTree K V × ℕ → Prop
  | up {t' : QRedBlackTree K V} {B' : RBTree (Label K V)} (hnone : redChild B = false)
      (hshape : Shape t' (plug U (join d c y s B'))) (hrb : RB n B') (hlist : B'.toList = B.toList)
      (hsame : Same t t') : RoundEnds t d c y s B U n (t', y.addr)
  | done {t' : QRedBlackTree K V} {z : Label K V} {a a' : RBTree (Label K V)} (hsome : redChild B = true)
      (hshape : Shape t' (plug U (join d c z a a'))) (ha : a.color = BLACK) (ha' : a'.color = BLACK)
      (hrba : RB (n + 1) a) (hrba' : RB (n + 1) a')
      (hlist : (plug U (join d c z a a')).toList = (plug (⟨d, c, y, B⟩ :: U) s).toList) (hsame : Same t t') :
      RoundEnds t d c y s B U n (t', t'.m_root)

theorem roundEnds_up (h : Shape t (plug (⟨d, c, y, join d BLACK b bl br⟩ :: U) s)) (hrbbl : RB n bl)
    (hrbbr : RB n br) (hblack : bl.color = BLACK ∧ br.color = BLACK) :
    RoundEnds t d c y s (join d BLACK b bl br) U n (t.setColor b.addr RED, y.addr) := by
  obtain ⟨hpaint, hsame⟩ := h.brother.setColor RED
  refine .up (redChild_join.mpr hblack) hpaint.of_brother
    (rb_join_red.mpr ⟨hblack.1, hblack.2, hrbbl, hrbbr⟩) ?_ hsame
  cases d <;> rfl

variable {t₁ : QRedBlackTree K V} {T' : RBTree (Label K V)}

theorem roundEnds_done (hred : redChild B = true) (h : Shape t₁ (plug (⟨d, c, y, join d e b bl br⟩ :: U) s))
    (hsame : Same t t₁) (hparent : t.parent (ptr s) = y.addr) (hrb : RB n s) (hrbbl : RB n bl)
    (hrbbr : RB (n + 1) (br.paint BLACK))
    (hlist : (plug (⟨d, c, y, join d e b bl br⟩ :: U) s).toList = (plug (⟨d, c, y, B⟩ :: U) s).toList) :
    RoundEnds t d c y s B U n (outerNephew d t₁ (ptr s), (outerNephew d t₁ (ptr s)).m_root) := by
  obtain ⟨a, a', houter, hsame', ha, ha', hrba, hrba', hlist'⟩ :=
    outerNephew_ends h (parent_kept h hsame hparent) hrb hrbbl hrbbr
  exact .done hred houter ha ha' hrba hrba' (hlist'.trans hlist) (hsame.trans hsame')

/-- **ONE ROUND** with a black brother. -/
theorem blackBrother_ends (h : Shape t (plug (⟨d, c, y, B⟩ :: U) s)) (hparent : t.parent (ptr s) = y.addr)
    (hrb : RB n s) (hB : B.color = BLACK) (hrbB : RB (n + 1) B) :
    RoundEnds t d c y s B U n (blackBrother d t (ptr s)) := by
  obtain ⟨b, bl, br, hnode, hrbbl, hrbbr⟩ := join_of_rb_succ hrbB hB d
  rw [hnode] at h ⊢
  rw [blackBrother_eq h hparent]
  by_cases hblack : bl.color = BLACK ∧ br.color = BLACK
  · rw [if_pos hblack]
    exact roundEnds_up h hrbbl hrbbr hblack
  rw [if_neg hblack]
  obtain ⟨b', bl', br', hinner, hsame, hred, hrbbl', hrbbr', hlist⟩ := innerNephew_spec h hparent hrbbl hrbbr hblack
  have hsome : redChild (join d BLACK b bl br) = true :=
    Bool.eq_true_of_not_eq_false (fun hnone => hblack (redChild_join.mp hnone))
  exact roundEnds_done hsome hinner hsame hparent hrb hrbbl' (rb_paint_black hrbbr' hred) hlist

theorem left_brother {e : NODE_COLOR} (h : Shape t (plug (⟨.right, c, y, node e br b bl⟩ :: U) s))
    (hparent : t.parent (ptr s) = y.addr) :
    t.left (t.parent (ptr s)) = b.addr ∧ t.color b.addr = e ∧ t.color (t.left b.addr) = br.color ∧
      t.color (t.right b.addr) = bl.color := by
  have hbrother : Shape t (plug (⟨.left, c, y, s⟩ :: U) (node e br b bl)) := h
  obtain ⟨hleft, hright, hcolor⟩ := left_right_eq hbrother
  have hnear : t.color (ptr br) = br.color :=
    Shape.color_ptr (C := ⟨.left, e, b, bl⟩ :: ⟨.left, c, y, s⟩ :: U) h
  have hfar : t.color (ptr bl) = bl.color :=
    Shape.color_ptr (C := ⟨.right, e, b, br⟩ :: ⟨.left, c, y, s⟩ :: U) h
  rw [hleft, hright, hnear, hfar]
  exact ⟨brother_eq (d := .right) h hparent, hcolor, rfl, rfl⟩

/-- **THE SECOND AND THE THIRD COMPARISON ARE HARMLESS**: the brother is red and its
    left child black, and `outerNephew` writes both. -/
theorem innerNephewSlip_spec (h : Shape t (plug (⟨.right, c, y, node BLACK br b bl⟩ :: U) s))
    (hparent : t.parent (ptr s) = y.addr) (hrbl : RB n bl) (hrbr : RB n br)
    (hred : ¬ (bl.color = BLACK ∧ br.color = BLACK)) :
    ∃ e b' bl' br', Shape (innerNephewSlip t (ptr s)) (plug (⟨.right, c, y, node e br' b' bl'⟩ :: U) s) ∧
      Same t (innerNephewSlip t (ptr s)) ∧ RB n bl' ∧ RB (n + 1) (br'.paint BLACK) ∧
      (plug (⟨.right, c, y, node e br' b' bl'⟩ :: U) s).toList =
        (plug (⟨.right, c, y, node BLACK br b bl⟩ :: U) s).toList := by
  obtain ⟨hbrother, -, hleft, -⟩ := left_brother h hparent
  unfold innerNephewSlip
  dsimp only
  rw [hbrother, hleft]
  cases hbr : br.color with
  | RED =>
    exact ⟨BLACK, b, bl, br, h, ⟨rfl, rfl, rfl⟩, hrbl, rb_paint_black hrbr hbr, rfl⟩
  | BLACK =>
    have hbl : bl.color = RED := by
      cases hc : bl.color with
      | RED => rfl
      | BLACK => exact absurd ⟨hc, hbr⟩ hred
    -- the inner nephew `u` goes up and keeps its color, red, and the brother stays black
    obtain ⟨u, p, q, hnode⟩ := join_of_red hbl .left
    rw [hnode] at h hrbl ⊢
    obtain ⟨-, -, hrbp, hrbq⟩ := rb_join_red.mp hrbl
    have h' : Shape t (plug (⟨.left, c, y, s⟩ :: U) (join .left BLACK b br (join .left RED u p q))) := h
    obtain ⟨hrotate, hsame⟩ := h'.rotate
    refine ⟨RED, u, q, join .left BLACK b br p, hrotate, hsame, hrbq, ?_, toList_plug_congr U ?_⟩
    · rw [paint_join]
      exact rb_join_black.mpr ⟨hrbr, hrbp⟩
    · simp [Frame.plug, join, toList]

/-- One round of the other half with a black brother. -/
theorem blackBrotherSlip_ends (h : Shape t (plug (⟨.right, c, y, B⟩ :: U) s))
    (hparent : t.parent (ptr s) = y.addr) (hrb : RB n s) (hB : B.color = BLACK) (hrbB : RB (n + 1) B) :
    RoundEnds t .right c y s B U n (blackBrotherSlip t (ptr s)) := by
  obtain ⟨b, bl, br, hnode, hrbbl, hrbbr⟩ := join_of_rb_succ hrbB hB .right
  rw [hnode] at h ⊢
  obtain ⟨hbrother, -, hleft, hright⟩ := left_brother h hparent
  unfold blackBrotherSlip
  dsimp only
  rw [hbrother, hleft, hright, hparent]
  by_cases hblack : bl.color = BLACK ∧ br.color = BLACK
  -- two black nephews: this branch has no slip
  · rw [if_pos hblack.symm]
    exact roundEnds_up h hrbbl hrbbr hblack
  · rw [if_neg (fun hcolors => hblack hcolors.symm)]
    obtain ⟨e, b', bl', br', hinner, hsame, hrbbl', hrbbr', hlist⟩ :=
      innerNephewSlip_spec h hparent hrbbl hrbbr hblack
    have hsome : redChild (join .right BLACK b bl br) = true :=
      Bool.eq_true_of_not_eq_false (fun hnone => hblack (redChild_join.mp hnone))
    have hturned : Shape (innerNephewSlip t (ptr s)) (plug (⟨.right, c, y, join .right e b' bl' br'⟩ :: U) s) := hinner
    exact roundEnds_done hsome hturned hsame hparent hrb hrbbl' hrbbr' hlist

/-- Both children of the parent are one black node short: the parent is. -/
theorem short_join {B' : RBTree (Label K V)} (hrb : RB n s) (hrbB : RB n B)
    (hfits : Fits (n + 1) BLACK (⟨d, c, y, B'⟩ :: U)) :
    ∃ m, Short m (join d c y s B) ∧ Fits (m + 1) BLACK U := by
  cases c with
  | RED =>
    refine ⟨n, ⟨?_, ?_⟩, hfits.2.2.2.black⟩
    · intro hc
      rw [color_join] at hc
      cases hc
    · intro _
      rw [paint_join]
      exact rb_join_black.mpr ⟨hrb, hrbB⟩
  | BLACK =>
    refine ⟨n + 1, ⟨?_, ?_⟩, hfits.2⟩
    · intro _
      exact rb_join_black.mpr ⟨hrb, hrbB⟩
    · intro hc
      rw [color_join] at hc
      cases hc

theorem balanced_join {z : Label K V} {e : RBTree (Label K V)} (ha : a.color = BLACK) (he : e.color = BLACK)
    (hrba : RB (n + 1) a) (hrbe : RB (n + 1) e) (hfits : Fits (n + 1) BLACK (⟨d, c, y, B⟩ :: U)) :
    ∃ m, RB m (plug U (join d c z a e)) := by
  cases c with
  | RED =>
    refine (plug_of_fits U (n := n + 1) ?_ (rb_join_red.mpr ⟨ha, he, hrba, hrbe⟩)).1
    rw [color_join]
    exact hfits.2.2.2
  | BLACK =>
    refine (plug_of_fits U (n := n + 2) ?_ (rb_join_black.mpr ⟨hrba, hrbe⟩)).1
    rw [color_join]
    exact hfits.2

/-- The place goes up, or the whole tree is balanced. -/
theorem RoundEnds.spec {p : QRedBlackTree K V × ℕ} (hends : RoundEnds t d c y s B U n p) (hrb : RB n s)
    (hfits : Fits (n + 1) BLACK (⟨d, c, y, B⟩ :: U)) :
    (∃ s' m, p.2 = ptr s' ∧ Shape p.1 (plug U s') ∧ s'.color = c ∧ Short m s' ∧ Fits (m + 1) BLACK U ∧
      (plug U s').toList = (plug (⟨d, c, y, B⟩ :: U) s).toList ∧ s' ≠ leaf ∧ Same t p.1) ∨
    ∃ T m, p.2 = p.1.m_root ∧ Shape p.1 T ∧ RB m T ∧
      T.toList = (plug (⟨d, c, y, B⟩ :: U) s).toList ∧ Same t p.1 := by
  cases hends with
  | up _ hshape hrbB' hlist hsame =>
    obtain ⟨m, hshort, hup⟩ := short_join hrb hrbB' hfits
    refine Or.inl ⟨_, m, (ptr_join _ _ _ _ _).symm, hshape, color_join _ _ _ _ _, hshort, hup,
      toList_plug_congr U ?_, ?_, hsame⟩
    · cases d <;> simp [Frame.plug, join, toList, hlist]
    · cases d <;> simp [join]
  | done _ hshape ha ha' hrba hrba' hlist hsame =>
    obtain ⟨m, hm⟩ := balanced_join ha ha' hrba hrba' hfits
    exact Or.inr ⟨_, m, rfl, hshape, hm, hlist, hsame⟩

/-- **ONE ROUND**: the place that is short goes up, or to a red node where the loop
    ends, or the loop ends with a balanced tree. -/
theorem deleteRound_spec (h : Shape t (plug (⟨d, c, y, B⟩ :: U) s)) (hparent : t.parent (ptr s) = y.addr)
    (hrb : RB n s) (hfits : Fits (n + 1) BLACK (⟨d, c, y, B⟩ :: U)) :
    (∃ C' s' m, (deleteRound d t (ptr s)).2 = ptr s' ∧ Shape (deleteRound d t (ptr s)).1 (plug C' s') ∧
      (B.color = RED → s'.color = RED) ∧ (B.color = BLACK → C' = U) ∧ Short m s' ∧ Fits (m + 1) BLACK C' ∧
      (plug C' s').toList = (plug (⟨d, c, y, B⟩ :: U) s).toList ∧ s' ≠ leaf ∧ Same t (deleteRound d t (ptr s)).1) ∨
    ∃ T m, (deleteRound d t (ptr s)).2 = (deleteRound d t (ptr s)).1.m_root ∧ Shape (deleteRound d t (ptr s)).1 T ∧
      RB m T ∧ T.toList = (plug (⟨d, c, y, B⟩ :: U) s).toList ∧ Same t (deleteRound d t (ptr s)).1 := by
  obtain ⟨c', B', U', hred, hsame, hB', hfits', hlist, hcolor, hplace⟩ := redBrother_spec h hparent hfits
  have hparent' := parent_kept hred hsame hparent
  obtain ⟨s', m, hnode, hshape, hc, hshort, hup, hlist', hne, hsame'⟩ | ⟨T, m, hnode, hshape, hrbT, hlist', hsame'⟩ :=
    (blackBrother_ends hred hparent' hrb hB' hfits'.sib).spec hrb hfits'
  · left
    exact ⟨U', s', m, hnode, hshape, fun hB => hc.trans (hcolor hB), hplace, hshort, hup, hlist'.trans hlist, hne,
      hsame.trans hsame'⟩
  · right
    exact ⟨T, m, hnode, hshape, hrbT, hlist'.trans hlist, hsame.trans hsame'⟩

theorem DeleteFixup_root {m : ℕ} (h : Shape t T) (hrb : RB m T) (fuel : ℕ) :
    ∃ t' T', t.DeleteFixup (fuel + 1) t.m_root = some t' ∧ Repaired t t' T T' := by
  rw [QRedBlackTree.DeleteFixup, if_neg (fun hne => hne.1 rfl)]
  exact ⟨_, _, rfl, repaired_of_paint h hrb rfl ⟨rfl, rfl, rfl⟩⟩

/-- The last round, at a red node. -/
theorem DeleteFixup_red (h : Shape t (plug C s)) (hs : s.color = RED) (hshort : Short n s)
    (hfits : Fits (n + 1) BLACK C) (fuel : ℕ) :
    ∃ t' T', t.DeleteFixup (fuel + 1) (ptr s) = some t' ∧ Repaired t t' (plug C s) T' := by
  have hcolor : t.color (ptr s) = RED := h.color_ptr.trans hs
  have hstop : ¬ (ptr s ≠ t.m_root ∧ t.color (ptr s) = BLACK) := by
    rw [hcolor]
    rintro ⟨-, hc⟩
    cases hc
  obtain ⟨hshape, hsame⟩ := h.setColor_black
  have hpaint : (s.paint BLACK).color = BLACK := by
    cases s <;> rfl
  have hfits' : Fits (n + 1) (s.paint BLACK).color C := by
    rw [hpaint]
    exact hfits
  obtain ⟨hbalanced, hblack⟩ := plug_of_fits C hfits' (hshort.red hs)
  rw [QRedBlackTree.DeleteFixup, if_neg hstop]
  exact ⟨_, _, rfl, hshape, hbalanced, hblack, toList_plug_congr C (toList_paint BLACK s), hsame.next, hsame.node_num⟩

section

variable (h : Shape t (plug (⟨d, c, y, B⟩ :: U) s))
include h

/-- The half of the code that a place gets. -/
theorem DeleteFixupRound_side (hparent : t.parent (ptr s) = y.addr) (hB : B ≠ leaf) :
    (ptr s = t.left (t.parent (ptr s)) ↔ d = .left) ∧
      t.DeleteFixupRound (ptr s) = (if d = .left then t.DeleteFixupLeft (ptr s) else t.DeleteFixupRight (ptr s)) := by
  have hside := h.side_eq (Or.inr hB)
  unfold QRedBlackTree.DeleteFixupRound
  dsimp only at hside
  rw [hparent]
  by_cases hleft : ptr s = t.left y.addr
  · rw [if_pos hleft] at hside
    rw [if_pos hleft, if_pos hside.symm]
    exact ⟨iff_of_true hleft hside.symm, rfl⟩
  rw [if_neg hleft] at hside
  have hright : ¬ d = .left := by
    rw [← hside]
    decide
  rw [if_neg hleft, if_neg hright]
  exact ⟨iff_of_false hleft hright, rfl⟩

/-- A round with a black brother is the same on both sides. -/
theorem round_of_black (hparent : t.parent (ptr s) = y.addr) (hrb : RB n s) (hB : B.color = BLACK)
    (hrbB : RB (n + 1) B) (hne : B ≠ leaf) : RoundEnds t d c y s B U n (t.DeleteFixupRound (ptr s)) := by
  have hcolor : ¬ t.color (ptr B) = RED := by
    rw [h.brother.color_ptr, hB]
    decide
  have hbrother := brother_eq h hparent
  rw [(DeleteFixupRound_side h hparent hne).2]
  cases d with
  | left =>
    have hred : redBrother .left t (ptr s) = t := by
      unfold redBrother
      rw [hbrother, if_neg hcolor]
    rw [if_pos rfl, DeleteFixupLeft_eq, deleteRound, hred]
    exact blackBrother_ends h hparent hrb hB hrbB
  | right =>
    have hred : redBrotherSlip t (ptr s) = t := by
      unfold redBrotherSlip
      rw [show t.left (t.parent (ptr s)) = ptr B from hbrother, if_neg hcolor]
    rw [if_neg (by decide), DeleteFixupRight_parts, hred]
    exact blackBrotherSlip_ends h hparent hrb hB hrbB

/-- **ONE ROUND OF THE CODE**, unless a right child has a red brother. -/
theorem DeleteFixupRound_spec (hparent : t.parent (ptr s) = y.addr) (hrb : RB n s)
    (hfits : Fits (n + 1) BLACK (⟨d, c, y, B⟩ :: U)) (hclean : t.Slips (ptr s) = false) :
    (∃ C' s' m, (t.DeleteFixupRound (ptr s)).2 = ptr s' ∧ Shape (t.DeleteFixupRound (ptr s)).1 (plug C' s') ∧
      (B.color = RED → s'.color = RED) ∧ (B.color = BLACK → C' = U) ∧ Short m s' ∧ Fits (m + 1) BLACK C' ∧
      (plug C' s').toList = (plug (⟨d, c, y, B⟩ :: U) s).toList ∧ s' ≠ leaf ∧
      Same t (t.DeleteFixupRound (ptr s)).1) ∨
    ∃ T m, (t.DeleteFixupRound (ptr s)).2 = (t.DeleteFixupRound (ptr s)).1.m_root ∧
      Shape (t.DeleteFixupRound (ptr s)).1 T ∧ RB m T ∧
      T.toList = (plug (⟨d, c, y, B⟩ :: U) s).toList ∧ Same t (t.DeleteFixupRound (ptr s)).1 := by
  have hne : B ≠ leaf := by
    intro hleaf
    have hrbB := hfits.sib
    rw [hleaf, rb_leaf_iff] at hrbB
    cases hrbB
  cases hB : B.color with
  | BLACK =>
    obtain ⟨s', m, hnode, hshape, -, hshort, hup, hlist, hne', hsame⟩ | hdone :=
      (round_of_black h hparent hrb hB hfits.sib hne).spec hrb hfits
    · exact Or.inl ⟨U, s', m, hnode, hshape, nofun, fun _ => rfl, hshort, hup, hlist, hne', hsame⟩
    · exact Or.inr hdone
  | RED =>
    obtain ⟨hside, hround⟩ := DeleteFixupRound_side h hparent hne
    cases d with
    | left =>
      have hspec := deleteRound_spec h hparent hrb hfits
      rw [hB] at hspec
      rw [hround, if_pos rfl, DeleteFixupLeft_eq]
      exact hspec
    | right =>
      have hred : t.color (t.left (t.parent (ptr s))) = RED := by
        rw [show t.left (t.parent (ptr s)) = ptr B from brother_eq h hparent, h.brother.color_ptr, hB]
      exact absurd ⟨fun hleft => absurd (hside.mp hleft) (by decide), hred⟩ (of_decide_eq_false hclean)

end

/-- **THE REPAIR** of a subtree that is one black node short, when no slip is met. -/
theorem DeleteFixup_spec (fuel : ℕ) : ∀ {t : QRedBlackTree K V} {C : Context (Label K V)} {s : RBTree (Label K V)}
    {n : ℕ},
    Shape t (plug C s) → t.parent (ptr s) = top C → Short n s → Fits (n + 1) BLACK C → C.length < fuel →
      QRedBlackTree.SlipFree fuel t (ptr s) = true →
        ∃ t' T', t.DeleteFixup fuel (ptr s) = some t' ∧ Repaired t t' (plug C s) T' := by
  induction fuel with
  | zero =>
    intro t C s n _ _ _ _ hfuel _
    exact absurd hfuel (Nat.not_lt_zero _)
  | succ fuel ih =>
    intro t C s n h hparent hshort hfits hfuel hclean
    cases hs : s.color with
    | RED => exact DeleteFixup_red h hs hshort hfits fuel
    | BLACK =>
      match C, h, hparent, hfits, hfuel with
      | [], h, _, _, _ =>
        rw [show ptr s = t.m_root from (h.root_iff).mpr rfl]
        exact DeleteFixup_root h (hshort.black hs) fuel
      | ⟨d, c, y, B⟩ :: U, h, hparent, hfits, hfuel =>
        have hgo : ptr s ≠ t.m_root ∧ t.color (ptr s) = BLACK := by
          refine ⟨fun heq => ?_, h.color_ptr.trans hs⟩
          exact absurd (h.root_iff.mp heq) (cons_ne_nil _ _)
        rw [QRedBlackTree.SlipFree, if_pos hgo, Bool.and_eq_true, Bool.not_eq_true'] at hclean
        have hnext := hclean.2
        rw [QRedBlackTree.DeleteFixup, if_pos hgo]
        have hlen : U.length < fuel := Nat.lt_of_succ_lt_succ hfuel
        obtain ⟨k, hk⟩ : ∃ k, fuel = k + 1 := ⟨fuel - 1, by omega⟩
        -- the place is higher now, or at a red node; or the repair is done
        obtain ⟨C', s', m, hnode, hshape, hred, hplace, hshort', hfits', hlist, hne, hsame⟩ |
            ⟨T, m, hnode, hshape, hrbT, hlist, hsame⟩ :=
          DeleteFixupRound_spec h hparent (hshort.black hs) hfits hclean.1
        · have hrest : ∃ t' T', (t.DeleteFixupRound (ptr s)).1.DeleteFixup fuel (ptr s') = some t' ∧
              Repaired (t.DeleteFixupRound (ptr s)).1 t' (plug C' s') T' := by
            cases hB : B.color with
            | RED =>
              rw [hk]
              exact DeleteFixup_red hshape (hred hB) hshort' hfits' k
            | BLACK =>
              rw [hnode] at hnext
              exact ih hshape (hshape.parent_ptr hne) hshort' hfits' (by rw [hplace hB]; exact hlen) hnext
          obtain ⟨t', T', hrun, hrep⟩ := hrest
          rw [hnode]
          exact ⟨t', T', hrun, hrep.of_same hlist hsame⟩
        · obtain ⟨t', T', hrun, hrep⟩ := DeleteFixup_root hshape hrbT k
          rw [hnode, hk]
          exact ⟨t', T', hrun, hrep.of_same hlist hsame⟩

/-! ## §4. `remove`. -/

/-- The leftmost node of a subtree: what is above it, its color, its element and its
    right child. -/
def splitLeftmost {α : Type} : RBTree α → Option (Context α × NODE_COLOR × α × RBTree α)
  | leaf => none
  | node c l x r =>
    match splitLeftmost l with
    | none => some ([], c, x, r)
    | some (A, e, y, b) => some (A ++ [⟨.left, c, x, r⟩], e, y, b)

/-- The way to the successor goes to the left only. -/
theorem leftmost_spec (s : RBTree (Label K V)) : ∀ {C : Context (Label K V)} (fuel : ℕ),
    Shape t (plug C s) → s ≠ leaf → s.toList.length < fuel →
      ∃ A c y r, splitLeftmost s = some (A, c, y, r) ∧ s = plug A (node c leaf y r) ∧ pre A = [] ∧
        t.leftmost fuel (ptr s) = some y.addr := by
  induction s with
  | leaf =>
    intro C fuel _ hne _
    exact absurd rfl hne
  | node c l x r ihl _ =>
    intro C fuel h _ hfuel
    rw [length_node] at hfuel
    obtain ⟨k, hk⟩ : ∃ k, fuel = k + 1 := ⟨fuel - 1, by omega⟩
    -- the loop looks at the left child before it goes there
    have hleft := (left_right_eq h).1
    rw [hk, show ptr (node c l x r) = x.addr from rfl, QRedBlackTree.leftmost, hleft, splitLeftmost]
    by_cases hl : l = leaf
    · have hzero : ¬ ptr (leaf : RBTree (Label K V)) ≠ m_leaf := not_not_intro rfl
      rw [hl, if_neg hzero]
      exact ⟨[], c, x, r, rfl, rfl, rfl, rfl⟩
    have hl' : Shape t (plug (⟨.left, c, x, r⟩ :: C) l) := h
    have hptr : ptr l ≠ m_leaf := fun hzero => hl (hl'.ptr_eq_leaf.mp hzero)
    obtain ⟨A, c', y, r', hsplit, hs, hpre, hrun⟩ := ihl k hl' hl (by omega)
    rw [if_pos hptr, hsplit]
    refine ⟨A ++ [⟨.left, c, x, r⟩], c', y, r', rfl, ?_, ?_, hrun⟩
    · rw [plug_append, ← hs]
      rfl
    · rw [pre_append, hpre]
      rfl

theorem curNode_spec (h : Shape t (plug C (join d c x a leaf))) : t.curNode x.addr = ptr a := by
  unfold QRedBlackTree.curNode
  cases d with
  | left =>
    obtain ⟨hleft, hright, -⟩ := left_right_eq h
    rw [hleft, hright]
    split_ifs with hzero
    · rfl
    · exact (not_not.mp hzero).symm
  | right =>
    obtain ⟨hleft, hright, -⟩ := left_right_eq h
    rw [hleft, hright]
    exact if_neg (not_not_intro rfl)

/-- What is left when a node with one child goes. -/
theorem short_of_removed (h : RB n (join d c x a leaf)) (hfits : Fits n c C) :
    (c = BLACK → ∃ m, Short m a ∧ Fits (m + 1) BLACK C) ∧ (c = RED → RB n a ∧ Fits n a.color C) := by
  cases c with
  | RED =>
    -- the child of a red node is black, and stands where the red node stood
    obtain ⟨ha, -, hrba, -⟩ := rb_join_red.mp h
    refine ⟨fun hc => absurd hc (by decide), fun _ => ⟨hrba, ?_⟩⟩
    rw [ha]
    exact hfits.black
  | BLACK =>
    obtain ⟨k, hk⟩ : ∃ k, n = k + 1 := by
      cases d <;> cases h <;> exact ⟨_, rfl⟩
    rw [hk] at h hfits
    obtain ⟨hrba, -⟩ := rb_join_black.mp h
    exact ⟨fun _ => ⟨k, ⟨fun _ => hrba, fun hred => rb_paint_black hrba hred⟩, hfits⟩,
      fun hc => absurd hc (by decide)⟩

/-- What a node keeps for its key. -/
def entry (x : Label K V) : K × V := (x.key, x.value)

/-- A place from which a node is gone: what is left there, and what is due. -/
structure Unlinked (t t' : QRedBlackTree K V) (del : ℕ) (C : Context (Label K V)) (s : RBTree (Label K V)) : Prop where
  cur : t.curNode del = ptr s
  shape : Shape t' (plug C s)
  parent : t'.parent (ptr s) = top C
  node_num : t'.node_num = t.node_num
  black : t.color del = BLACK → ∃ m, Short m s ∧ Fits (m + 1) BLACK C
  red : t.color del = RED → ∃ m, RB m s ∧ Fits m s.color C

/-- A node with at most one child goes itself. -/
theorem unlink_self (h : Shape t (plug C (join d c x a leaf))) (hrb : RB n (join d c x a leaf))
    (hfits : Fits n c C) : Unlinked t (t.unlink x.addr x.addr) x.addr C a := by
  have hcell := h.cell
  have hcur := curNode_spec h
  have hparent : t.parent x.addr = top C := by
    unfold QRedBlackTree.parent
    rw [hcell, cell_parent]
  have hcolor : t.color x.addr = c := by
    unfold QRedBlackTree.color
    rw [hcell, cell_color]
  obtain ⟨hshape, hup, -, hnum⟩ := h.splice
  obtain ⟨hblack, hred⟩ := short_of_removed hrb hfits
  have hunlink : t.unlink x.addr x.addr = (t.setParent (ptr a) (top C)).replace x.addr (ptr a) := by
    unfold QRedBlackTree.unlink
    rw [hcur, hparent, if_neg (not_not_intro rfl)]
  rw [← hunlink] at hshape hup hnum
  refine ⟨hcur, hshape, hup, hnum, ?_, ?_⟩
  · intro hc
    exact hblack (hcolor.symm.trans hc)
  · intro hc
    exact ⟨n, hred (hcolor.symm.trans hc)⟩

/-- Pointers change no contents. -/
theorem splice_contents (t : QRedBlackTree K V) (p q r u z : ℕ) :
    (((t.setParent p q).replace r u).heap z).key = (t.heap z).key ∧
      (((t.setParent p q).replace r u).heap z).value = (t.heap z).value := by
  have hparent : ((t.setParent p q).heap z).key = (t.heap z).key ∧
      ((t.setParent p q).heap z).value = (t.heap z).value := by
    by_cases hz : z = p
    · rw [hz]
      unfold QRedBlackTree.setParent
      rw [write_self]
      exact ⟨rfl, rfl⟩
    · unfold QRedBlackTree.setParent
      rw [write_of_ne _ _ hz]
      exact ⟨rfl, rfl⟩
  have hchild : ∀ (t' : QRedBlackTree K V) (d : Side) (p' q' : ℕ),
      ((t'.setChild d p' q').heap z).key = (t'.heap z).key ∧
        ((t'.setChild d p' q').heap z).value = (t'.heap z).value := by
    intro t' d p' q'
    by_cases hz : z = p'
    · rw [hz]
      unfold QRedBlackTree.setChild
      rw [write_self]
      cases d <;> exact ⟨rfl, rfl⟩
    · unfold QRedBlackTree.setChild
      rw [write_of_ne _ _ hz]
      exact ⟨rfl, rfl⟩
  unfold QRedBlackTree.replace
  split_ifs
  · exact hparent
  · exact ⟨(hchild _ _ _ _).1.trans hparent.1, (hchild _ _ _ _).2.trans hparent.2⟩
  · exact ⟨(hchild _ _ _ _).1.trans hparent.1, (hchild _ _ _ _).2.trans hparent.2⟩

/-- A node with two children gets the key and the value of its successor `y`, which
    goes instead. -/
theorem unlink_successor {A : Context (Label K V)} {b : RBTree (Label K V)} {m : ℕ}
    (h : Shape t (plug C (node c l x (plug A (node e leaf y b)))))
    (hrb : RB m (plug C (node c l x (plug A (node e leaf y b)))))
    (hblack : (plug C (node c l x (plug A (node e leaf y b)))).color = BLACK) :
    Unlinked t (t.unlink x.addr y.addr) y.addr
      (A ++ ⟨.right, c, { x with key := y.key, value := y.value }, l⟩ :: C) b := by
  have hplug : ∀ (x' : Label K V) (s : RBTree (Label K V)),
      plug (A ++ ⟨.right, c, x', l⟩ :: C) s = plug C (node c l x' (plug A s)) := by
    intro x' s
    rw [plug_append]
    rfl
  -- the successor is taken out
  have hy : Shape t (plug (A ++ ⟨.right, c, x, l⟩ :: C) (join .right e y b leaf)) := by
    rw [hplug]
    exact h
  have hmem : y ∈ (plug A (node e leaf y b)).toList :=
    mem_plug.mpr (Or.inl (mem_join (d := .left).mpr (Or.inl rfl)))
  have hne : y.addr ≠ x.addr := (apart_join (d := .left) (apart_of_nodup h.nodup).1).2.1 y hmem
  have hcell := hy.cell
  have hcur := curNode_spec hy
  have hparent : t.parent y.addr = top (A ++ ⟨.right, c, x, l⟩ :: C) := by
    unfold QRedBlackTree.parent
    rw [hcell, cell_parent]
  have hcolor : t.color y.addr = e := by
    unfold QRedBlackTree.color
    rw [hcell, cell_color]
  obtain ⟨hshape, hup, -, hnum⟩ := hy.splice
  obtain ⟨hkey, hvalue⟩ := splice_contents t (ptr b) (top (A ++ ⟨.right, c, x, l⟩ :: C)) y.addr (ptr b) y.addr
  have htop : ∀ x' : Label K V, x'.addr = x.addr →
      top (A ++ ⟨.right, c, x', l⟩ :: C) = top (A ++ ⟨.right, c, x, l⟩ :: C) := by
    intro x' haddr
    cases A with
    | nil => exact haddr
    | cons f A => rfl
  -- its key and its value are copied
  obtain ⟨t1, h1⟩ : ∃ t1, t1 = (t.setParent (ptr b) (top (A ++ ⟨.right, c, x, l⟩ :: C))).replace y.addr (ptr b) :=
    ⟨_, rfl⟩
  rw [← h1] at hshape hup hnum hkey hvalue
  have hunlink : t.unlink x.addr y.addr =
      t1.write x.addr (fun n => { n with key := (t1.heap y.addr).key, value := (t1.heap y.addr).value }) := by
    unfold QRedBlackTree.unlink
    rw [hcur, hparent, if_pos hne, ← h1]
  rw [hplug] at hshape
  obtain ⟨hcopy, hsame⟩ := Shape.write (d := .left) hshape (e := c) (z := { x with key := y.key, value := y.value })
    (f := fun n => { n with key := (t1.heap y.addr).key, value := (t1.heap y.addr).value })
    (by
      rw [hkey, hvalue, hcell]
      rfl) rfl
  -- what is left where the successor was, and what is due there
  rw [← hunlink] at hcopy hsame
  obtain ⟨n, hrby, hfits⟩ := fits_of_plug (A ++ ⟨.right, c, x, l⟩ :: C) (t := join .right e y b leaf) (by
    rw [hplug]
    exact hrb) (by
    rw [hplug]
    exact hblack)
  obtain ⟨hshort, hred⟩ := short_of_removed hrby hfits.relabel
  refine ⟨hcur, ?_, ?_, hsame.node_num.trans hnum, ?_, ?_⟩
  · rw [hplug]
    exact hcopy
  · rw [htop { x with key := y.key, value := y.value } rfl, ← hup, hunlink]
    unfold QRedBlackTree.parent QRedBlackTree.write
    dsimp only
    split_ifs <;> rfl
  · intro hc
    exact hshort (hcolor.symm.trans hc)
  · intro hc
    exact ⟨n, hred (hcolor.symm.trans hc)⟩

/-- The place that a node with these two children leaves: the color of the node that
    goes, what is above it then, and what is left there. -/
def goneAt (c : NODE_COLOR) (l : RBTree (Label K V)) (x : Label K V) (r : RBTree (Label K V))
    (C : Context (Label K V)) : NODE_COLOR × Context (Label K V) × RBTree (Label K V) :=
  match l, splitLeftmost r with
  | leaf, _ => (c, C, r)
  | l, none => (c, C, l)
  | l, some (A, e, y, b) => (e, A ++ ⟨.right, c, { x with key := y.key, value := y.value }, l⟩ :: C, b)

/-- **THE NODE THAT GOES**, for every shape of the tree below the key. -/
theorem unlink_spec [LinearOrder K] (h : Balanced t (plug C (node c l x r)))
    (hfuel : (plug C (node c l x r)).toList.length < fuel) :
    ∃ del C' s, t.delNode fuel x.addr = some del ∧ goneAt c l x r C = (t.color del, C', s) ∧
      Unlinked t (t.unlink x.addr del) del C' s ∧
      (plug C' s).toList.map entry = (pre C ++ (l.toList ++ (r.toList ++ post C))).map entry := by
  obtain ⟨n, hrb⟩ := h.balanced
  obtain ⟨hleft, hright, hcolor⟩ := left_right_eq h.shape
  have hptrl : ptr l = m_leaf ↔ l = leaf := Shape.ptr_eq_leaf (C := ⟨.left, c, x, r⟩ :: C) h.shape
  have hptrr : ptr r = m_leaf ↔ r = leaf := Shape.ptr_eq_leaf (C := ⟨.right, c, x, l⟩ :: C) h.shape
  obtain ⟨k, hnode, hfits⟩ := fits_of_plug C hrb h.root_black
  unfold QRedBlackTree.delNode
  rw [hleft, hright]
  -- no left child, no right child, or a successor that goes instead
  by_cases hl : l = leaf
  · rw [if_pos (Or.inl (hptrl.mpr hl))]
    rw [hl] at h hnode ⊢
    refine ⟨x.addr, C, r, rfl, ?_, unlink_self (d := .right) h.shape hnode hfits, ?_⟩
    · rw [hcolor]
      rfl
    · rw [toList_plug]
      rfl
  by_cases hr : r = leaf
  · rw [if_pos (Or.inr (hptrr.mpr hr))]
    rw [hr] at h hnode ⊢
    refine ⟨x.addr, C, l, rfl, ?_, unlink_self (d := .left) h.shape hnode hfits, ?_⟩
    · rw [hcolor]
      cases l with
      | leaf => exact absurd rfl hl
      | node _ _ _ _ => rfl
    · rw [toList_plug]
      rfl
  have htwo : ¬ (ptr l = m_leaf ∨ ptr r = m_leaf) := by
    rintro (hzero | hzero)
    · exact hl (hptrl.mp hzero)
    · exact hr (hptrr.mp hzero)
  have hlen : r.toList.length < fuel := by
    have hsub := length_lt_of_plug (⟨.right, c, x, l⟩ :: C) r
    have hsame : (plug (⟨.right, c, x, l⟩ :: C) r).toList.length = (plug C (node c l x r)).toList.length := rfl
    omega
  obtain ⟨A, e, y, b, hsplit, hplug, hpre, hrun⟩ :=
    leftmost_spec r (C := ⟨.right, c, x, l⟩ :: C) _ h.shape hr hlen
  rw [if_neg htwo, hrun]
  have hshape := h.shape
  have hblack := h.root_black
  -- the successor's place is named in the tree that already has its key copied
  have hplace : goneAt c l x r C =
      (e, A ++ ⟨.right, c, { x with key := y.key, value := y.value }, l⟩ :: C, b) := by
    unfold goneAt
    rw [hsplit]
    cases l with
    | leaf => exact absurd rfl hl
    | node _ _ _ _ => rfl
  have hcolory : t.color y.addr = e := by
    have hy : Shape t (plug (A ++ ⟨.right, c, x, l⟩ :: C) (node e leaf y b)) := by
      rw [plug_append, ← hplug]
      exact hshape
    exact (left_right_eq hy).2.2
  rw [hplace, ← hcolory]
  rw [hplug] at hshape hrb hblack ⊢
  refine ⟨y.addr, _, b, rfl, rfl, unlink_successor hshape hrb hblack, ?_⟩
  rw [toList_plug, toList_plug, pre_append, post_append, hpre]
  simp [pre, post, toList, entry]

theorem context_lt {C' : Context (Label K V)}
    (hentries : (plug C' s).toList.map entry = (pre C ++ (l.toList ++ (r.toList ++ post C))).map entry)
    (hfuel : (plug C (node c l x r)).toList.length < fuel) : C'.length < fuel := by
  -- the tree without the node is smaller by one
  have hctx := length_lt_of_plug C' s
  have hcount := congrArg List.length hentries
  rw [length_map, length_map] at hcount
  rw [length_plug_node] at hfuel
  omega

theorem Unlinked.repaired {del : ℕ} (h : Unlinked t t' del C s) (hred : t.color del = RED) :
    Repaired t' t' (plug C s) (plug C s) := by
  obtain ⟨m, hrb, hfits⟩ := h.red hred
  obtain ⟨hbalanced, hroot⟩ := plug_of_fits C hfits hrb
  exact ⟨h.shape, hbalanced, hroot, rfl, rfl, rfl⟩

/-- What `remove` does once it has found the node. -/
def takeOut (fuel : ℕ) (t : QRedBlackTree K V) (node : ℕ) : Option (QRedBlackTree K V × ℤ) :=
  match t.delNode fuel node with
  | none => none
  | some del_node =>
    match (if t.color del_node = BLACK then (t.unlink node del_node).DeleteFixup fuel (t.curNode del_node)
      else some (t.unlink node del_node)) with
    | none => none
    | some t => some ({ t with node_num := t.node_num - 1 }, 0)

/-- A reference less, if references are counted. -/
def released (t : QRedBlackTree K V) (node : ℕ) (count_flag : Bool) : QRedBlackTree K V :=
  if count_flag then t.write node (fun n => { n with count := n.count - 1 }) else t

theorem remove_eq [LinearOrder K] (fuel : ℕ) (t : QRedBlackTree K V) (key : K) (count_flag : Bool) :
    t.remove fuel key count_flag =
      match t.locate key fuel t.m_root m_leaf with
      | none => none
      | some (p, _) =>
        if p = m_leaf then some (t, 1)
        else if count_flag ∧ 0 < ((released t p count_flag).heap p).count then some (released t p count_flag, 2)
        else takeOut fuel (released t p count_flag) p := rfl

/-- The same nodes in another tree, balanced or not. -/
structure Ended (t t' : QRedBlackTree K V) (T T' : RBTree (Label K V)) : Prop where
  shape : Shape t' T'
  toList : T'.toList = T.toList
  next : t'.next = t.next
  node_num : t'.node_num = t.node_num

theorem Repaired.ended (h : Repaired t t' T T') :
    Ended t t' T T' ∧ Sound T' := ⟨⟨h.shape, h.toList, h.next, h.node_num⟩, h.root_black, h.balanced⟩

/-- **WHAT IS TAKEN OUT**: after any repair, the entries are the others in their order,
    and `node_num` is their number. -/
theorem Ended.taken [LinearOrder K] {T₁ : RBTree (Label K V)} (h : Balanced t (plug C (node c l x r)))
    (hnum : t₁.node_num = t.node_num)
    (hentries : T₁.toList.map entry = (pre C ++ (l.toList ++ (r.toList ++ post C))).map entry)
    (hended : Ended t₁ t' T₁ T') :
    Shape { t' with node_num := t'.node_num - 1 } T' ∧ Sorted T' ∧ t'.node_num - 1 = T'.toList.length ∧
      T'.toList.map entry = (pre C ++ (l.toList ++ (r.toList ++ post C))).map entry := by
  have hentries' : T'.toList.map entry = (pre C ++ (l.toList ++ (r.toList ++ post C))).map entry := by
    rw [hended.toList, hentries]
  refine ⟨hended.shape.setNum _, ?_, ?_, hentries'⟩
  · have hsorted := h.sorted
    unfold Sorted at hsorted ⊢
    have hkeys : T'.toList.map Label.key = (pre C ++ (l.toList ++ (r.toList ++ post C))).map Label.key := by
      have hfst := congrArg (List.map Prod.fst) hentries'
      rw [map_map, map_map] at hfst
      exact hfst
    -- the keys are those of before with one left out
    have hsub : (pre C ++ (l.toList ++ (r.toList ++ post C))).Sublist (plug C (node c l x r)).toList := by
      rw [toList_plug]
      refine (List.Sublist.refl _).append ?_
      show (l.toList ++ (r.toList ++ post C)).Sublist (l.toList ++ x :: r.toList ++ post C)
      rw [append_assoc]
      exact (List.Sublist.refl _).append (sublist_cons_self _ _)
    rw [← pairwise_map (f := Label.key) (R := fun a b => a < b)]
    rw [hkeys, pairwise_map]
    exact hsorted.sublist hsub
  · have hlen := congrArg List.length hentries'
    rw [length_map, length_map] at hlen
    rw [hended.node_num, hnum, h.size, hlen, length_plug_node]
    omega

/-- **`remove`** takes the key out, if its repair meets no slip. -/
theorem remove_spec [LinearOrder K] (h : Balanced t T) (key : K) (hfuel : T.toList.length < fuel)
    (hclean : t.removeSlipFree fuel key = true) :
    (∃ C, T = plug C leaf ∧ Between key C ∧ t.remove fuel key false = some (t, 1)) ∨
    ∃ C c l x r t' T', T = plug C (node c l x r) ∧ x.key = key ∧ t.remove fuel key false = some (t', 0) ∧
      Balanced t' T' ∧ T'.toList.map entry = (pre C ++ (l.toList ++ (r.toList ++ post C))).map entry := by
  unfold QRedBlackTree.removeSlipFree at hclean
  rw [remove_eq]
  obtain ⟨C, hT, hbetween, hlocate⟩ | ⟨C, c, l, x, r, hT, hkey, hne, hlocate⟩ := h.locate key hfuel
  · left
    rw [hlocate]
    exact ⟨C, hT, hbetween, if_pos rfl⟩
  right
  have hbal : Balanced t (plug C (node c l x r)) := hT ▸ h
  obtain ⟨del, C', s, hdel, -, hunlinked, hentries⟩ := unlink_spec hbal (hT ▸ hfuel)
  have hctx : C'.length < fuel := context_lt hentries (hT ▸ hfuel)
  rw [hlocate] at hclean ⊢
  dsimp only at hclean ⊢
  rw [hdel] at hclean
  dsimp only at hclean
  -- the repair, if the node was black
  have hrepair : ∃ t' T', (if t.color del = BLACK then (t.unlink x.addr del).DeleteFixup fuel (t.curNode del)
      else some (t.unlink x.addr del)) = some t' ∧ Repaired (t.unlink x.addr del) t' (plug C' s) T' := by
    by_cases hblack : t.color del = BLACK
    · rw [if_pos hblack, hunlinked.cur]
      rw [if_pos ⟨hne, hblack⟩, hunlinked.cur] at hclean
      obtain ⟨m, hshort, hfits⟩ := hunlinked.black hblack
      exact DeleteFixup_spec fuel hunlinked.shape hunlinked.parent hshort hfits hctx hclean
    have hred : t.color del = RED := by
      cases hc : t.color del with
      | RED => rfl
      | BLACK => exact absurd hc hblack
    rw [if_neg hblack]
    exact ⟨_, _, rfl, hunlinked.repaired hred⟩
  obtain ⟨t', T', hrun, hrep⟩ := hrepair
  obtain ⟨hshape, hsorted, hsize, hentries'⟩ := hrep.ended.1.taken hbal hunlinked.node_num hentries
  rw [if_neg hne, if_neg (fun hcount => Bool.false_ne_true hcount.1), released, if_neg Bool.false_ne_true, takeOut,
    hdel]
  dsimp only
  rw [hrun]
  exact ⟨C, c, l, x, r, _, T', hT, hkey, rfl, ⟨hshape, hrep.balanced, hrep.root_black, hsorted, hsize⟩, hentries'⟩

end RedBlackTree

end KalavaPir.Common
