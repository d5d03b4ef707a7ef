/-
  KalavaPir.Common.QRedBlackInsert — `insert` keeps the tree in balance.

  `InsertFixup` goes up with a red node whose tree is balanced and would fit where
  it is if it were black; every round moves it two nodes up, or ends with at most
  two rotations.
-/
import KalavaPir.Common.QRedBlackHeap

namespace KalavaPir.Common

namespace RedBlackTree

open KalavaPir.Framework KalavaPir.Framework.RedBlack List
open RedBlack.Color RedBlack.RBTree

variable {K V : Type}

/-! ## §1. The order of the keys. -/

/-- The keys increase from left to right. -/
def Sorted [LinearOrder K] (T : RBTree (Label K V)) : Prop := T.toList.Pairwise (fun x y => x.key < y.key)

/-- The place of `key`: what is in front is smaller, what is behind is larger. -/
def Between [LinearOrder K] (key : K) (C : Context (Label K V)) : Prop :=
  (∀ y ∈ pre C, y.key < key) ∧ ∀ y ∈ post C, key < y.key

variable {C U : Context (Label K V)} {c : NODE_COLOR} {l r T s sib : RBTree (Label K V)} {x y z : Label K V}
  {t : QRedBlackTree K V} {fuel : ℕ}

theorem sorted_node [LinearOrder K] (h : Sorted (plug C (node c l x r))) :
    (∀ y ∈ l.toList, y.key < x.key) ∧ ∀ y ∈ r.toList, x.key < y.key := by
  unfold Sorted at h
  rw [toList_plug] at h
  have hmiddle := (pairwise_append.mp (pairwise_append.mp h).2.1).1
  obtain ⟨-, hright, hleft⟩ := pairwise_append.mp hmiddle
  exact ⟨fun y hy => hleft y hy x mem_cons_self, (pairwise_cons.mp hright).1⟩

variable {key : K} {t' : QRedBlackTree K V} {T' uncle : RBTree (Label K V)} {n : ℕ} {d : Side}

theorem Between.left [LinearOrder K] (h : Between key C) (hx : key < x.key)
    (hr : ∀ y ∈ r.toList, x.key < y.key) : Between key (⟨.left, c, x, r⟩ :: C) := by
  refine ⟨h.1, ?_⟩
  intro y hy
  obtain hy | hy := mem_append.mp hy
  · obtain hy | hy := mem_cons.mp hy
    · rw [hy]
      exact hx
    · exact lt_trans hx (hr y hy)
  · exact h.2 y hy

theorem Between.right [LinearOrder K] (h : Between key C) (hx : x.key < key)
    (hl : ∀ y ∈ l.toList, y.key < x.key) : Between key (⟨.right, c, x, l⟩ :: C) := by
  refine ⟨?_, h.2⟩
  intro y hy
  obtain hy | hy := mem_append.mp hy
  · exact h.1 y hy
  obtain hy | hy := mem_append.mp hy
  · exact lt_trans (hl y hy) hx
  · rw [mem_singleton.mp hy]
    exact hx

theorem Between.side [LinearOrder K] {f : Frame (Label K V)} (h : Between key (f :: U)) :
    key < f.label.key ↔ f.side = .left := by
  obtain ⟨side, c, x, sib⟩ := f
  cases side with
  | left => exact iff_of_true (h.2 x (mem_append_left _ mem_cons_self)) rfl
  | right =>
    have hlt := h.1 x (mem_append_right _ (mem_append_right _ mem_cons_self))
    exact iff_of_false (lt_asymm hlt) (by simp)

/-- **THE WAY DOWN** ends at the node with the key, or at the leaf where it belongs. -/
theorem locate_spec [LinearOrder K] (key : K) (s : RBTree (Label K V)) :
    ∀ (C : Context (Label K V)) (fuel : ℕ), Shape t (plug C s) → Sorted (plug C s) → Between key C →
      s.toList.length < fuel → (∃ C', plug C' leaf = plug C s ∧ Between key C' ∧
        t.locate key fuel (ptr s) (top C) = some (m_leaf, top C')) ∨
      ∃ C' c l x r, plug C' (node c l x r) = plug C s ∧ x.key = key ∧
        t.locate key fuel (ptr s) (top C) = some (x.addr, x.addr) := by
  induction s with
  | leaf =>
    intro C fuel _ _ hbetween hfuel
    obtain ⟨k, hk⟩ : ∃ k, fuel = k + 1 := ⟨fuel - 1, by omega⟩
    rw [hk]
    exact Or.inl ⟨C, rfl, hbetween, rfl⟩
  | node c l x r ihl ihr =>
    intro C fuel hshape hsorted hbetween hfuel
    rw [length_node] at hfuel
    obtain ⟨k, hk⟩ : ∃ k, fuel = k + 1 := ⟨fuel - 1, by omega⟩
    have hcell := Shape.cell (d := .left) hshape
    have hne : x.addr ≠ m_leaf := hshape.addr_ne mem_node
    have hkey : (t.heap x.addr).key = x.key := by
      rw [hcell, cell_key]
    have hleft : t.left x.addr = ptr l := by
      unfold QRedBlackTree.left
      rw [hcell]
      rfl
    have hright : t.right x.addr = ptr r := by
      unfold QRedBlackTree.right
      rw [hcell]
      rfl
    obtain ⟨hsmall, hlarge⟩ := sorted_node hsorted
    rw [hk, show ptr (node c l x r) = x.addr from rfl]
    rw [QRedBlackTree.locate, if_neg hne, hkey, hleft, hright]
    by_cases heq : x.key = key
    · rw [if_pos heq]
      exact Or.inr ⟨C, c, l, x, r, rfl, heq, rfl⟩
    rw [if_neg heq]
    by_cases hlt : key < x.key
    · rw [if_pos hlt]
      exact ihl (⟨.left, c, x, r⟩ :: C) k hshape hsorted (hbetween.left hlt hlarge) (by omega)
    · rw [if_neg hlt]
      have hgt : x.key < key := lt_of_le_of_ne (not_lt.mp hlt) heq
      exact ihr (⟨.right, c, x, l⟩ :: C) k hshape hsorted (hbetween.right hgt hsmall) (by omega)

/-! ## §2. `InsertFixup`. -/

/-- A balanced tree with a black root, of the same nodes as `T`. -/
structure Repaired (t t' : QRedBlackTree K V) (T T' : RBTree (Label K V)) : Prop where
  shape : Shape t' T'
  balanced : ∃ n, RB n T'
  root_black : T'.color = BLACK
  toList : T'.toList = T.toList
  next : t'.next = t.next
  node_num : t'.node_num = t.node_num

/-- `m_root->color=BLACK` at the end. -/
theorem repaired_of_paint (h : Shape t' T') (hrb : RB n T') (hlist : T'.toList = T.toList)
    (hsame : Same t t') :
    Repaired t (t'.setColor t'.m_root BLACK) T (T'.paint BLACK) := by
  have hroot : t'.m_root = ptr T' := h.root
  obtain ⟨hshape, hpaint⟩ := Shape.setColor_black (C := []) h
  rw [hroot]
  refine ⟨hshape, ?_, ?_, ?_, (hsame.trans hpaint).next, (hsame.trans hpaint).node_num⟩
  · cases hc : T'.color with
    | RED => exact ⟨n + 1, rb_paint_black hrb hc⟩
    | BLACK =>
      rw [← hc, paint_color]
      exact ⟨n, hrb⟩
  · cases T' <;> rfl
  · rw [toList_paint, hlist]

theorem Repaired.of_same {t1 : QRedBlackTree K V} {T1 : RBTree (Label K V)} (h : Repaired t1 t' T1 T')
    (hlist : T1.toList = T.toList) (hsame : Same t t1) : Repaired t t' T T' :=
  ⟨h.shape, h.balanced, h.root_black, h.toList.trans hlist, h.next.trans hsame.next, h.node_num.trans hsame.node_num⟩

/-- The last rotation: the parent `y` goes up between `s` and the grandparent `z`. -/
theorem InsertTurn_spec (h : Shape t (plug (⟨d, RED, y, sib⟩ :: ⟨d, BLACK, z, uncle⟩ :: U) s))
    (hs : s ≠ leaf) :
    Shape (t.InsertTurn d.other (ptr s)) (plug U (join d.other BLACK y (join d.other RED z uncle sib) s)) ∧
      Same t (t.InsertTurn d.other (ptr s)) := by
  have hparent : t.parent (ptr s) = y.addr := h.parent_ptr hs
  obtain ⟨h1, hsame1⟩ := Shape.setColor (C := ⟨d, BLACK, z, uncle⟩ :: U) (d := d) h BLACK
  have hparent1 : (t.setColor y.addr BLACK).parent (ptr s) = y.addr :=
    Shape.parent_ptr (C := ⟨d, BLACK, y, sib⟩ :: ⟨d, BLACK, z, uncle⟩ :: U) h1 hs
  have hgrand1 : (t.setColor y.addr BLACK).parent y.addr = z.addr :=
    (Shape.frame (f := ⟨d, BLACK, y, sib⟩) (U := ⟨d, BLACK, z, uncle⟩ :: U) h1).2.1
  obtain ⟨h2, hsame2⟩ := Shape.setColor (C := U) (d := d) h1 RED
  have hparent2 : ((t.setColor y.addr BLACK).setColor z.addr RED).parent (ptr s) = y.addr :=
    Shape.parent_ptr (C := ⟨d, BLACK, y, sib⟩ :: ⟨d, RED, z, uncle⟩ :: U) h2 hs
  have hgrand2 : ((t.setColor y.addr BLACK).setColor z.addr RED).parent y.addr = z.addr :=
    (Shape.frame (f := ⟨d, BLACK, y, sib⟩) (U := ⟨d, RED, z, uncle⟩ :: U) h2).2.1
  rw [← join_other, ← join_other d BLACK] at h2
  obtain ⟨h3, hsame3⟩ := h2.rotate
  unfold QRedBlackTree.InsertTurn
  dsimp only
  rw [hparent, hparent1, hgrand1, hparent2, hgrand2]
  exact ⟨h3, (hsame1.trans hsame2).trans hsame3⟩

/-- **THE ROTATIONS** below a black grandparent `z`, with a black uncle. -/
theorem InsertRotate_spec {side : Side}
    (h : Shape t (plug (⟨side, RED, y, sib⟩ :: ⟨d, BLACK, z, uncle⟩ :: U) s)) (hs : s.color = RED)
    (hrbs : RB n s) (hsib : sib.color = BLACK) (hrbsib : RB n sib) (huncle : uncle.color = BLACK)
    (hrbuncle : RB n uncle) :
    ∃ s', Shape (t.InsertRotate d (ptr s)) (plug U s') ∧ RB (n + 1) s' ∧ s'.color = BLACK ∧
      (plug U s').toList = (plug (⟨side, RED, y, sib⟩ :: ⟨d, BLACK, z, uncle⟩ :: U) s).toList ∧
      Same t (t.InsertRotate d (ptr s)) := by
  have hne : s ≠ leaf := by
    intro hleaf
    rw [hleaf] at hs
    cases hs
  have hparent : t.parent (ptr s) = y.addr := h.parent_ptr hne
  obtain ⟨-, -, hnear, hfar⟩ := h.frame
  unfold QRedBlackTree.InsertRotate
  rw [hparent]
  by_cases hside : side = d
  · -- the node and its parent are on the same side
    have houter : ¬ ptr s = t.child d.other y.addr := by
      rw [← hside, hfar]
      exact Shape.ptr_ne (C := ⟨d, BLACK, z, uncle⟩ :: U) (d := side) h (Or.inl hne)
    rw [if_neg houter]
    rw [hside] at h ⊢
    obtain ⟨hturn, hsame⟩ := InsertTurn_spec h hne
    refine ⟨_, hturn, rb_join_black.mpr ⟨rb_join_red.mpr ⟨huncle, hsib, hrbuncle, hrbsib⟩, hrbs⟩,
      color_join _ _ _ _ _, ?_,
      hsame⟩
    refine toList_plug_congr U ?_
    show _ = (join d BLACK z (join d RED y s sib) uncle).toList
    rw [← join_other d BLACK z, ← join_other d RED y]
    exact (rotate_toList d.other BLACK RED BLACK RED z y uncle sib s).symm
  have hother : side = d.other := by
    cases side <;> cases d <;> first | rfl | exact absurd rfl hside
  have hinner : ptr s = t.child d.other y.addr := by
    rw [← hother, hnear]
  rw [if_pos hinner]
  obtain ⟨x, a, b, hsnode⟩ := join_of_red hs d
  rw [hother, hsnode] at h ⊢
  rw [hsnode] at hrbs
  obtain ⟨ha, hb, hrba, hrbb⟩ := rb_join_red.mp hrbs
  have h' : Shape t (plug (⟨d, BLACK, z, uncle⟩ :: U) (join d RED y sib (join d RED x a b))) := by
    rw [← join_other]
    exact h
  obtain ⟨hrotate, hsame⟩ := h'.rotate
  have hturn := InsertTurn_spec (s := join d RED y sib a) hrotate (by cases d <;> simp [join])
  rw [ptr_join] at hturn
  obtain ⟨hturn, hsame'⟩ := hturn
  refine ⟨_, hturn, rb_join_black.mpr ⟨rb_join_red.mpr ⟨huncle, hb, hrbuncle, hrbb⟩,
    rb_join_red.mpr ⟨hsib, ha, hrbsib, hrba⟩⟩, color_join _ _ _ _ _, ?_, hsame.trans hsame'⟩
  refine toList_plug_congr U ?_
  show _ = (join d BLACK z (join d.other RED y (join d RED x a b) sib) uncle).toList
  cases d <;> simp [join, toList, Side.other]

/-- A red uncle: the grandparent `z` gives its color to both of its children. -/
theorem recolor_spec {side : Side} {u : Label K V} {a b : RBTree (Label K V)}
    (h : Shape t (plug (⟨side, RED, y, sib⟩ :: ⟨d, BLACK, z, join d RED u a b⟩ :: U) s)) :
    ((t.setColor y.addr BLACK).setColor u.addr BLACK).parent u.addr = z.addr ∧
      Shape (((t.setColor y.addr BLACK).setColor u.addr BLACK).setColor z.addr RED)
        (plug U (join d RED z (join side BLACK y s sib) (join d BLACK u a b))) ∧
      Same t (((t.setColor y.addr BLACK).setColor u.addr BLACK).setColor z.addr RED) := by
  obtain ⟨h1, hsame1⟩ := Shape.setColor (C := ⟨d, BLACK, z, join d RED u a b⟩ :: U) (d := side) h BLACK
  have h1' : Shape (t.setColor y.addr BLACK)
      (plug (⟨d.other, BLACK, z, join side BLACK y s sib⟩ :: U) (join d RED u a b)) := by
    show Shape _ (plug U (join d.other BLACK z (join d RED u a b) (join side BLACK y s sib)))
    rw [join_other]
    exact h1
  obtain ⟨h2, hsame2⟩ := h1'.setColor BLACK
  have hparent := h2.parent_ptr (by cases d <;> simp [join])
  rw [ptr_join] at hparent
  have h2' : Shape ((t.setColor y.addr BLACK).setColor u.addr BLACK)
      (plug U (join d BLACK z (join side BLACK y s sib) (join d BLACK u a b))) := by
    rw [← join_other]
    exact h2
  obtain ⟨h3, hsame3⟩ := h2'.setColor RED
  exact ⟨hparent, h3, (hsame1.trans hsame2).trans hsame3⟩

/-- **THE REPAIR** of a red node that would fit if it were black. -/
theorem InsertFixup_spec (fuel : ℕ) : ∀ {t : QRedBlackTree K V} {C : Context (Label K V)} {s : RBTree (Label K V)}
    {n : ℕ}, Shape t (plug C s) → s.color = RED → RB n s → Fits n BLACK C → C.length < fuel →
      ∃ t' T', t.InsertFixup fuel (ptr s) = some t' ∧ Repaired t t' (plug C s) T' := by
  induction fuel with
  | zero =>
    intro t C s n _ _ _ _ hfuel
    exact absurd hfuel (Nat.not_lt_zero _)
  | succ fuel ih =>
    intro t C s n hshape hs hrb hfits hfuel
    have hne : s ≠ leaf := by
      intro hleaf
      rw [hleaf] at hs
      cases hs
    have hparent := hshape.parent_ptr hne
    rw [QRedBlackTree.InsertFixup, hparent]
    match C, hshape, hfits, hfuel with
    | [], hshape, hfits, _ =>
      have hblack : ¬ t.color (top ([] : Context (Label K V))) = RED := by
        rw [show t.color (top ([] : Context (Label K V))) = BLACK from hshape.leaf_black]
        decide
      rw [if_neg hblack]
      exact ⟨_, _, rfl, repaired_of_paint hshape hrb rfl ⟨rfl, rfl, rfl⟩⟩
    | ⟨side, BLACK, y, sib⟩ :: U, hshape, hfits, _ =>
      have hblack : ¬ t.color (top (⟨side, BLACK, y, sib⟩ :: U)) = RED := by
        rw [show t.color (top (⟨side, BLACK, y, sib⟩ :: U)) = BLACK from hshape.frame.1]
        decide
      have hred : Fits n s.color (⟨side, BLACK, y, sib⟩ :: U) := hfits
      obtain ⟨⟨m, hm⟩, -⟩ := plug_of_fits _ hred hrb
      rw [if_neg hblack]
      exact ⟨_, _, rfl, repaired_of_paint hshape hm rfl ⟨rfl, rfl, rfl⟩⟩
    | ⟨side, RED, y, sib⟩ :: [], _, hfits, _ => cases hfits.2.2.2
    | ⟨side, RED, y, sib⟩ :: ⟨d, RED, z, uncle⟩ :: U, _, hfits, _ => cases hfits.2.2.2.1
    | ⟨side, RED, y, sib⟩ :: ⟨d, BLACK, z, uncle⟩ :: U, hshape, hfits, hfuel =>
      obtain ⟨-, hsib, hrbsib, hrbuncle, hup⟩ := hfits
      obtain ⟨hred, hgrand, -, -⟩ := hshape.frame
      obtain ⟨-, -, -, huncle⟩ := Shape.frame (f := ⟨d, BLACK, z, uncle⟩) (U := U) hshape
      have hside := Shape.side_eq (f := ⟨d, BLACK, z, uncle⟩) (U := U) (s := join side RED y s sib) hshape
        (Or.inl (by cases side <;> simp [join]))
      have hcolor := Shape.color_ptr (C := ⟨d.other, BLACK, z, join side RED y s sib⟩ :: U) (s := uncle)
        (t := t) (by
        show Shape t (plug U (join d.other BLACK z uncle (join side RED y s sib)))
        rw [join_other]
        exact hshape)
      rw [ptr_join] at hside
      rw [show top (⟨side, RED, y, sib⟩ :: ⟨d, BLACK, z, uncle⟩ :: U) = y.addr from rfl, if_pos hred, hgrand]
      dsimp only
      rw [show top (⟨d, BLACK, z, uncle⟩ :: U) = z.addr from rfl, hside, huncle, hcolor]
      by_cases hunclered : uncle.color = RED
      · rw [if_pos hunclered]
        obtain ⟨u, a, b, hunclenode⟩ := join_of_red hunclered d
        rw [hunclenode] at hshape hrbuncle ⊢
        obtain ⟨-, -, hrba, hrbb⟩ := rb_join_red.mp hrbuncle
        obtain ⟨hback, hrecolor, hsame⟩ := recolor_spec hshape
        rw [ptr_join, hback]
        have hrb' : RB (n + 1) (join d RED z (join side BLACK y s sib) (join d BLACK u a b)) :=
          rb_join_red.mpr ⟨color_join _ _ _ _ _, color_join _ _ _ _ _, rb_join_black.mpr ⟨hrb, hrbsib⟩,
            rb_join_black.mpr ⟨hrba, hrbb⟩⟩
        have hlen : U.length < fuel := by
          rw [length_cons, length_cons] at hfuel
          omega
        obtain ⟨t', T', hrun, hrepaired⟩ := ih hrecolor (color_join _ _ _ _ _) hrb' hup hlen
        rw [ptr_join] at hrun
        refine ⟨t', T', hrun, hrepaired.of_same ?_ hsame⟩
        refine toList_plug_congr U ?_
        show _ = (join d BLACK z (join side RED y s sib) (join d RED u a b)).toList
        cases d <;> cases side <;> rfl
      · rw [if_neg hunclered]
        have hblack : uncle.color = BLACK := by
          cases hc : uncle.color with
          | RED => exact absurd hc hunclered
          | BLACK => rfl
        obtain ⟨s', hrotate, hrbs', hcolors', hlist, hsame⟩ :=
          InsertRotate_spec hshape hs hrb hsib hrbsib hblack hrbuncle
        have hfits' : Fits (n + 1) s'.color U := by
          rw [hcolors']
          exact hup
        obtain ⟨⟨m, hm⟩, -⟩ := plug_of_fits U hfits' hrbs'
        exact ⟨_, _, rfl, repaired_of_paint hrotate hm hlist hsame⟩

/-! ## §3. `insert`. -/

/-- A search tree in balance, and its number of nodes. -/
structure Balanced [LinearOrder K] (t : QRedBlackTree K V) (T : RBTree (Label K V)) : Prop where
  shape : Shape t T
  balanced : ∃ n, RB n T
  root_black : T.color = BLACK
  sorted : Sorted T
  size : t.node_num = T.toList.length

/-- The way down from the root. -/
theorem Balanced.locate [LinearOrder K] (h : Balanced t T) (key : K) (hfuel : T.toList.length < fuel) :
    (∃ C, T = plug C leaf ∧ Between key C ∧ t.locate key fuel t.m_root m_leaf = some (m_leaf, top C)) ∨
    ∃ C c l x r, T = plug C (node c l x r) ∧ x.key = key ∧ x.addr ≠ m_leaf ∧
      t.locate key fuel t.m_root m_leaf = some (x.addr, x.addr) := by
  have hdown := locate_spec key T [] fuel h.shape h.sorted
    ⟨fun y hy => absurd hy not_mem_nil, fun y hy => absurd hy not_mem_nil⟩ hfuel
  rw [show top ([] : Context (Label K V)) = m_leaf from rfl, ← h.shape.root] at hdown
  obtain ⟨C, hplug, hbetween, hlocate⟩ | ⟨C, c, l, x, r, hplug, hkey, hlocate⟩ := hdown
  · exact Or.inl ⟨C, hplug.symm, hbetween, hlocate⟩
  have hmem : x ∈ T.toList := by
    rw [show T = plug C (node c l x r) from hplug.symm]
    exact mem_node
  exact Or.inr ⟨C, c, l, x, r, hplug.symm, hkey, h.shape.addr_ne hmem, hlocate⟩

theorem balanced_new [LinearOrder K] (memory : ℕ → RBNode K V) : Balanced (QRedBlackTree.new memory) leaf := by
  refine ⟨⟨rfl, trivial, rfl, nodup_nil, not_mem_nil, ?_, Nat.one_pos⟩, ⟨0, RB.leaf⟩, rfl,
    List.Pairwise.nil, rfl⟩
  intro p hp
  exact absurd hp not_mem_nil

theorem sorted_insert [LinearOrder K] (h : Sorted (plug C leaf)) (hbetween : Between x.key C) :
    (pre C ++ x :: post C).Pairwise (fun y z => y.key < z.key) := by
  unfold Sorted at h
  rw [toList_plug] at h
  obtain ⟨hpre, hpost, hboth⟩ := pairwise_append.mp h
  refine pairwise_append.mpr ⟨hpre, pairwise_cons.mpr ⟨hbetween.2, hpost⟩, ?_⟩
  intro y hy z hz
  obtain hz | hz := mem_cons.mp hz
  · rw [hz]
    exact hbetween.1 y hy
  · exact hboth y hy z hz

theorem balanced_relabel (x' : Label K V) (h : RB n (plug C (node c l x r)))
    (hblack : (plug C (node c l x r)).color = BLACK) :
    (∃ m, RB m (plug C (node c l x' r))) ∧ (plug C (node c l x' r)).color = BLACK := by
  obtain ⟨k, hnode, hfits⟩ := fits_of_plug C h hblack
  refine plug_of_fits C (n := k) hfits ?_
  cases hnode with
  | red hl hr left right => exact RB.red hl hr left right
  | black left right => exact RB.black left right

/-- Other contents under the same key. -/
theorem Balanced.write [LinearOrder K] {x' : Label K V} (h : Balanced t (plug C (node c l x r)))
    {f : RBNode K V → RBNode K V}
    (hf : f (cell .left c x (top C) (ptr l) (ptr r)) = cell .left c x' (top C) (ptr l) (ptr r))
    (haddr : x'.addr = x.addr) (hkey : x'.key = x.key) :
    Balanced (t.write x.addr f) (plug C (node c l x' r)) := by
  obtain ⟨hshape, hsame⟩ := Shape.write (d := .left) h.shape hf haddr
  obtain ⟨n, hrb⟩ := h.balanced
  obtain ⟨hbalanced, hblack⟩ := balanced_relabel x' hrb h.root_black
  refine ⟨hshape, hbalanced, hblack, ?_, ?_⟩
  · have hsorted := h.sorted
    unfold Sorted at hsorted ⊢
    rw [← pairwise_map (f := Label.key)] at hsorted ⊢
    have hkeys : (plug C (node c l x' r)).toList.map Label.key = (plug C (node c l x r)).toList.map Label.key := by
      rw [toList_plug, toList_plug]
      simp [toList, hkey]
    rw [hkeys]
    exact hsorted
  · rw [hsame.node_num, h.size, toList_plug, toList_plug]
    simp [toList]

/-- What `insert` leaves in a node that has the key already. -/
def Label.again (x : Label K V) (value : V) (cover_flag count_flag : Bool) : Label K V :=
  if cover_flag then { x with value := value }
  else if count_flag then { x with count := x.count + 1 }
  else x

/-- **EVERY `insert`**, with both flags: a new key goes to its place, and the node of
    a key that is there keeps it. -/
theorem insert_ends [LinearOrder K] (h : Balanced t T) (key : K) (value : V) (cover_flag count_flag : Bool)
    (hroom : ¬ MAX_TREE_SIZE < t.node_num) (hfuel : T.toList.length < fuel) :
    (∃ C t' T', T = plug C leaf ∧ Between key C ∧ t.insert fuel key value cover_flag count_flag = some (t', 0) ∧
      Balanced t' T' ∧ T'.toList = pre C ++ ⟨t.next, key, value, (t.heap t.next).count⟩ :: post C) ∨
    ∃ C c l x r t', T = plug C (node c l x r) ∧ x.key = key ∧
      t.insert fuel key value cover_flag count_flag = some (t', 1) ∧
        Balanced t' (plug C (node c l (x.again value cover_flag count_flag) r)) := by
  unfold QRedBlackTree.insert
  rw [if_neg hroom]
  obtain ⟨C, hT, hbetween, hlocate⟩ | ⟨C, c, l, x, r, hT, hkey, hne, hlocate⟩ := h.locate key hfuel
  · left
    rw [hlocate]
    dsimp only
    have hshape : Shape t (plug C leaf) := hT ▸ h.shape
    have hsorted : Sorted (plug C leaf) := hT ▸ h.sorted
    obtain ⟨n, hrb⟩ := h.balanced
    obtain ⟨k, hleaf, hfits⟩ := fits_of_plug C (hT ▸ hrb) (hT ▸ h.root_black)
    rw [rb_leaf_iff.mp hleaf] at hfits
    have hlen := length_lt_of_plug C (leaf : RBTree (Label K V))
    rw [← hT] at hlen
    obtain ⟨hattach, hattachnum⟩ := hshape.attach key value (fun f U hctx => (hctx ▸ hbetween).side)
    obtain ⟨t', T', hrun, hrep⟩ := InsertFixup_spec fuel hattach rfl
      (RB.red rfl rfl RB.leaf RB.leaf) hfits (by omega)
    have hrun' : (t.attach key value (top C)).InsertFixup fuel t.next = some t' := hrun
    have hlist : T'.toList = pre C ++ ⟨t.next, key, value, (t.heap t.next).count⟩ :: post C := by
      rw [hrep.toList, toList_plug]
      rfl
    rw [hrun']
    refine ⟨C, _, T', hT, hbetween, rfl, ⟨hrep.shape.setNum _, hrep.balanced, hrep.root_black, ?_, ?_⟩, hlist⟩
    · unfold Sorted
      rw [hlist]
      exact sorted_insert hsorted hbetween
    · have hnum : t'.node_num = t.node_num := hrep.node_num.trans hattachnum
      show t'.node_num + 1 = (T'.toList.length : ℤ)
      rw [hlist, hnum, h.size, hT, length_plug_leaf]
      simp only [length_append, length_cons]
      omega
  · right
    have hbal : Balanced t (plug C (node c l x r)) := hT ▸ h
    rw [hlocate]
    dsimp only
    rw [if_pos hne]
    cases cover_flag with
    | true => exact ⟨C, c, l, x, r, _, hT, hkey, if_pos rfl, hbal.write (by rfl) rfl rfl⟩
    | false =>
      rw [if_neg Bool.false_ne_true]
      cases count_flag with
      | true => exact ⟨C, c, l, x, r, _, hT, hkey, if_pos rfl, hbal.write (by rfl) rfl rfl⟩
      | false => exact ⟨C, c, l, x, r, t, hT, hkey, if_neg Bool.false_ne_true, hbal⟩

/-- **`insert`** puts a new key in its place, and changes at most the value of one
    that is there. -/
theorem insert_spec [LinearOrder K] (h : Balanced t T) (key : K) (value : V) (cover_flag : Bool)
    (hroom : ¬ MAX_TREE_SIZE < t.node_num) (hfuel : T.toList.length < fuel) :
    (∃ C t' T' x, T = plug C leaf ∧ Between key C ∧ t.insert fuel key value cover_flag false = some (t', 0) ∧
      Balanced t' T' ∧ x.key = key ∧ x.value = value ∧ T'.toList = pre C ++ x :: post C) ∨
    ∃ C c l x r t', T = plug C (node c l x r) ∧ x.key = key ∧
      t.insert fuel key value cover_flag false = some (t', 1) ∧
        Balanced t' (plug C (node c l (if cover_flag then { x with value := value } else x) r)) := by
  obtain ⟨C, t', T', hT, hbetween, hrun, hbal, hlist⟩ | ⟨C, c, l, x, r, t', hT, hkey, hrun, hbal⟩ :=
    insert_ends h key value cover_flag false hroom hfuel
  · exact Or.inl ⟨C, t', T', _, hT, hbetween, hrun, hbal, rfl, rfl, hlist⟩
  · exact Or.inr ⟨C, c, l, x, r, t', hT, hkey, hrun, hbal⟩

end RedBlackTree

end KalavaPir.Common
