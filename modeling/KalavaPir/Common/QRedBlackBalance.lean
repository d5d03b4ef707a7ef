/-
  KalavaPir.Common.QRedBlackBalance — one `insert` and one `remove` of a balanced
  tree.

  Where `DeleteFixupRight` compares and should make the brother black, a red brother
  goes up and stays red, and only at the root, with a red nephew behind it, does the
  last assignment of `DeleteFixup` make up for it.
-/
import KalavaPir.Common.QRedBlackMap

namespace KalavaPir.Common

namespace RedBlackTree

open KalavaPir.Framework KalavaPir.Framework.RedBlack List
open RedBlack.Color RedBlack.RBTree

variable {K V : Type}

/-! ## §1. Where the repair succeeds. -/

/-- The subtree on the right. -/
def rightChild {α : Type} : RBTree α → RBTree α
  | leaf => leaf
  | node _ _ _ r => r

/-- The repair of a black place that is one black node short succeeds: going up, the
    first brother with a red child, red parent or red brother decides; a red brother
    of a right child has to be a child of the root, and its right child has to have a
    red child. -/
def Mends {α : Type} : Context α → Bool
  | [] => true
  | ⟨d, c, _, B⟩ :: U =>
    if B.color = RED then decide (d = .left) || (U.isEmpty && redChild (rightChild B))
    else redChild B || decide (c = RED) || Mends U

/-- The place a removal leaves can be repaired. -/
def Repairable (place : NODE_COLOR × Context (Label K V) × RBTree (Label K V)) : Bool :=
  decide (place.1 = RED) || decide (place.2.2.color = RED) || Mends place.2.1

/-! ## §2. Every repair. -/

variable {t : QRedBlackTree K V} {U C : Context (Label K V)} {c : NODE_COLOR} {y b x : Label K V}
  {s bl br B T r l : RBTree (Label K V)} {n fuel : ℕ}

/-- **THE FIRST COMPARISON**: the brother `b` is above the parent, and red. -/
theorem redBrotherSlip_spec (h : Shape t (plug (⟨.right, BLACK, y, node RED br b bl⟩ :: U) s))
    (hparent : t.parent (ptr s) = y.addr) :
    Shape (redBrotherSlip t (ptr s)) (plug (⟨.right, RED, y, bl⟩ :: ⟨.right, RED, b, br⟩ :: U) s) ∧
      Same t (redBrotherSlip t (ptr s)) := by
  -- the parent becomes red, and the brother, red as well, goes up above it
  obtain ⟨hbrother, hred, -, -⟩ := left_brother h hparent
  obtain ⟨h1, hsame1⟩ := Shape.setColor (C := U) (d := .right) h RED
  have hparent1 : (t.setColor y.addr RED).parent (ptr s) = y.addr :=
    parent_kept (f := ⟨.right, RED, y, node RED br b bl⟩) (C := U) h1 hsame1 hparent
  have hjoin : Shape (t.setColor y.addr RED) (plug U (join .right RED y s (join .right RED b bl br))) := h1
  obtain ⟨h2, hsame2⟩ := hjoin.rotate
  unfold redBrotherSlip
  dsimp only
  rw [hbrother, hred, if_pos rfl, hparent, hparent1]
  exact ⟨h2, hsame1.trans hsame2⟩

theorem DeleteFixup_stop (h : Shape t (plug C s)) (hs : s.color = RED) (fuel : ℕ) :
    t.DeleteFixup (fuel + 1) (ptr s) = some (t.setColor (ptr s) BLACK) := by
  have hcolor : t.color (ptr s) = RED := h.color_ptr.trans hs
  have hstop : ¬ (ptr s ≠ t.m_root ∧ t.color (ptr s) = BLACK) := by
    rw [hcolor]
    rintro ⟨-, hc⟩
    cases hc
  rw [QRedBlackTree.DeleteFixup, if_neg hstop]

/-- What a repair leaves. -/
def Leaves (t : QRedBlackTree K V) (T : RBTree (Label K V)) (good : Bool) (r : Option (QRedBlackTree K V)) : Prop :=
  ∃ t' T', r = some t' ∧ Ended t t' T T' ∧ (Sound T' ↔ good = true)

variable {T' : RBTree (Label K V)} {key : K}

theorem leaves_of_repaired {t' : QRedBlackTree K V} {good : Bool} {r : Option (QRedBlackTree K V)}
    (hr : r = some t') (h : Repaired t t' T T') (hgood : good = true) :
    Leaves t T good r := ⟨t', T', hr, h.ended.1, iff_of_true h.ended.2 hgood⟩

theorem Leaves.of_same {t₁ : QRedBlackTree K V} {T₁ : RBTree (Label K V)} {good : Bool}
    {r : Option (QRedBlackTree K V)} (h : Leaves t₁ T₁ good r) (hlist : T₁.toList = T.toList)
    (hsame : Same t t₁) : Leaves t T good r := by
  obtain ⟨t', T', hr, hended, hsound⟩ := h
  exact ⟨t', T', hr, ⟨hended.shape, hended.toList.trans hlist, hended.next.trans hsame.next,
    hended.node_num.trans hsame.node_num⟩, hsound⟩

/-- **BEHIND THE FIRST COMPARISON** the next round is the last one, and the tree is
    right only if the red brother is the root and is made black there. -/
theorem redBrotherSlip_ends (h : Shape t (plug (⟨.right, BLACK, y, node RED br b bl⟩ :: U) s))
    (hparent : t.parent (ptr s) = y.addr) (hrb : RB n s)
    (hfits : Fits (n + 1) BLACK (⟨.right, BLACK, y, node RED br b bl⟩ :: U)) (fuel : ℕ) :
    Leaves t (plug (⟨.right, BLACK, y, node RED br b bl⟩ :: U) s) (U.isEmpty && redChild bl)
      ((t.DeleteFixupRight (ptr s)).1.DeleteFixup (fuel + 1) (t.DeleteFixupRight (ptr s)).2) := by
  obtain ⟨hrbB, hup⟩ := hfits
  obtain ⟨hbl, hbr, hrbbl, hrbbr⟩ := rb_join_red (d := .right) (x := b) (a := bl) (b := br).mp hrbB
  obtain ⟨hshape, hsame⟩ := redBrotherSlip_spec h hparent
  have hparent' : (redBrotherSlip t (ptr s)).parent (ptr s) = y.addr :=
    parent_kept (f := ⟨.right, RED, y, bl⟩) (C := ⟨.right, RED, b, br⟩ :: U) hshape hsame hparent
  have hlist : (plug (⟨.right, RED, y, bl⟩ :: ⟨.right, RED, b, br⟩ :: U) s).toList =
      (plug (⟨.right, BLACK, y, node RED br b bl⟩ :: U) s).toList := by
    refine toList_plug_congr U ?_
    simp [Frame.plug, join, toList]
  -- the child `bl` of the red brother is black: it is the brother in the rest of the round
  have hends := blackBrotherSlip_ends hshape hparent' hrb hbl hrbbl
  rw [DeleteFixupRight_parts]
  generalize redBrotherSlip t (ptr s) = t₁ at hshape hsame hends
  refine Leaves.of_same ?_ hlist hsame
  generalize blackBrotherSlip t₁ (ptr s) = p at hends
  cases hends with
  | @up t' B' hnone hshape' hrbB' hlist' hsame' =>
    -- the parent is red and becomes black: the brother above it is one short
    have hplace : Shape t' (plug (⟨.right, RED, b, br⟩ :: U) (join .right RED y s B')) := hshape'
    have hrun := DeleteFixup_stop hplace (color_join _ _ _ _ _) fuel
    obtain ⟨hblack, hsame''⟩ := hplace.setColor_black
    refine ⟨_, _, hrun, ⟨hblack, ?_, (hsame'.trans hsame'').next, (hsame'.trans hsame'').node_num⟩, ?_⟩
    · refine toList_plug_congr U ?_
      simp [Frame.plug, join, toList, hlist']
    · rw [hnone, Bool.and_false]
      refine iff_of_false ?_ Bool.false_ne_true
      exact not_sound_of_short (t := join .right RED b (join .right BLACK y s B') br) hup
        (rb_join_red.mpr ⟨color_join _ _ _ _ _, hbr, rb_join_black.mpr ⟨hrb, hrbB'⟩, hrbbr⟩) (color_join _ _ _ _ _)
  | @done t' z a a' hsome hshape' ha ha' hrba hrba' hlist' hsame' =>
    -- the round is over: what is left is to make the root black
    have hrun : t'.DeleteFixup (fuel + 1) t'.m_root = some (t'.setColor t'.m_root BLACK) := by
      rw [QRedBlackTree.DeleteFixup, if_neg (fun hne => hne.1 rfl)]
    obtain ⟨hblack, hsame''⟩ : Shape (t'.setColor t'.m_root BLACK)
        (paint BLACK (plug (⟨.right, RED, b, br⟩ :: U) (join .right RED z a a'))) ∧
          Same t' (t'.setColor t'.m_root BLACK) := by
      rw [hshape'.root]
      exact Shape.setColor_black (C := []) hshape'
    refine ⟨_, _, hrun, ⟨hblack, ?_, (hsame'.trans hsame'').next, (hsame'.trans hsame'').node_num⟩, ?_⟩
    · rw [toList_paint]
      exact hlist'
    · rw [hsome, Bool.and_true, List.isEmpty_iff]
      cases U with
      | nil =>
        -- the red brother is the root
        refine iff_of_true ⟨rfl, n + 2, ?_⟩ rfl
        have hrbz : RB (n + 1) (join .right RED z a a') := rb_join_red.mpr ⟨ha, ha', hrba, hrba'⟩
        exact (rb_join_black (d := .right) (x := b)).mpr ⟨hrbz, hrbbr⟩
      | cons f U =>
        -- below the root it stays red, above a red node
        refine iff_of_false ?_ (cons_ne_nil f U)
        have hroot := color_plug_of_fits (f :: U) (cons_ne_nil f U) hup
          (join .right RED b (join .right RED z a a') br)
        have hpaint := paint_color (plug (f :: U) (join .right RED b (join .right RED z a a') br))
        rw [hroot] at hpaint
        show ¬ Sound (paint BLACK (plug (f :: U) (join .right RED b (join .right RED z a a') br)))
        rw [hpaint]
        exact not_sound_of_red (color_join _ _ _ _ _)

/-- A red brother of a left child. -/
theorem redBrother_ends (h : Shape t (plug (⟨.left, BLACK, y, B⟩ :: U) s))
    (hparent : t.parent (ptr s) = y.addr) (hrb : RB n s) (hB : B.color = RED)
    (hfits : Fits (n + 1) BLACK (⟨.left, BLACK, y, B⟩ :: U)) (fuel : ℕ) :
    Leaves t (plug (⟨.left, BLACK, y, B⟩ :: U) s) true
      ((t.DeleteFixupLeft (ptr s)).1.DeleteFixup (fuel + 1) (t.DeleteFixupLeft (ptr s)).2) := by
  have hround : t.DeleteFixupLeft (ptr s) = deleteRound .left t (ptr s) := rfl
  rw [hround]
  obtain ⟨C', s', m, hnode, hshape, hred, -, hshort', hfits', hlist, -, hsame⟩ |
      ⟨T, m, hnode, hshape, hrbT, hlist, hsame⟩ := deleteRound_spec h hparent hrb hfits
  · obtain ⟨t', T', hrun, hrep⟩ := DeleteFixup_red hshape (hred hB) hshort' hfits' fuel
    rw [hnode]
    exact leaves_of_repaired hrun (hrep.of_same hlist hsame) rfl
  · obtain ⟨t', T', hrun, hrep⟩ := DeleteFixup_root hshape hrbT fuel
    rw [hnode]
    exact leaves_of_repaired hrun (hrep.of_same hlist hsame) rfl

/-- **EVERY REPAIR** of a subtree that is one black node short ends, and what it
    leaves is balanced exactly when `Mends` says so. -/
theorem DeleteFixup_ends (fuel : ℕ) : ∀ {t : QRedBlackTree K V} {C : Context (Label K V)} {s : RBTree (Label K V)}
    {n : ℕ},
    Shape t (plug C s) → t.parent (ptr s) = top C → Short n s → Fits (n + 1) BLACK C → C.length < fuel →
      Leaves t (plug C s) (decide (s.color = RED) || Mends C) (t.DeleteFixup fuel (ptr s)) := by
  induction fuel with
  | zero =>
    intro t C s n _ _ _ _ hfuel
    exact absurd hfuel (Nat.not_lt_zero _)
  | succ fuel ih =>
    intro t C s n h hparent hshort hfits hfuel
    cases hs : s.color with
    | RED =>
      -- a red node becomes black
      obtain ⟨t', T', hrun, hrep⟩ := DeleteFixup_red h hs hshort hfits fuel
      exact leaves_of_repaired hrun hrep rfl
    | BLACK =>
      match C, h, hparent, hfits, hfuel with
      | [], h, _, _, _ =>
        obtain ⟨t', T', hrun, hrep⟩ := DeleteFixup_root h (hshort.black hs) fuel
        rw [show ptr s = t.m_root from (h.root_iff).mpr rfl]
        exact leaves_of_repaired hrun hrep rfl
      | ⟨d, c, y, B⟩ :: U, h, hparent, hfits, hfuel =>
        have hgo : ptr s ≠ t.m_root ∧ t.color (ptr s) = BLACK :=
          ⟨fun heq => absurd (h.root_iff.mp heq) (cons_ne_nil _ _), h.color_ptr.trans hs⟩
        have hB : B ≠ leaf := by
          intro hleaf
          have hrbB := hfits.sib
          rw [hleaf, rb_leaf_iff] at hrbB
          cases hrbB
        have hlen : U.length < fuel := Nat.lt_of_succ_lt_succ hfuel
        obtain ⟨k, hk⟩ : ∃ k, fuel = k + 1 := ⟨fuel - 1, by omega⟩
        have hrb := hshort.black hs
        rw [QRedBlackTree.DeleteFixup, if_pos hgo, Mends]
        cases hcolor : B.color with
        | BLACK =>
          have hends := round_of_black h hparent hrb hcolor hfits.sib hB
          generalize t.DeleteFixupRound (ptr s) = p at hends
          cases hends with
          -- no red nephew: the parent's tree is one short, and the loop goes on there
          | @up t' B' hnone hshape hrbB' hlist hsame =>
            obtain ⟨m, hshort', hup⟩ := short_join (y := y) hrb hrbB' hfits
            have hne : join d c y s B' ≠ leaf := by
              cases d <;> simp [join]
            have hnext := ih hshape (hshape.parent_ptr hne) hshort' hup hlen
            rw [ptr_join, color_join] at hnext
            rw [hnone]
            refine hnext.of_same (toList_plug_congr U ?_) hsame
            cases d <;> simp [Frame.plug, join, toList, hlist]
          -- a red nephew ends the repair
          | @done t' z a a' hsome hshape ha ha' hrba hrba' hlist hsame =>
            obtain ⟨m, hm⟩ := balanced_join (z := z) ha ha' hrba hrba' hfits
            obtain ⟨t'', T'', hrun, hrep⟩ := DeleteFixup_root hshape hm k
            rw [hsome, hk]
            exact leaves_of_repaired hrun (hrep.of_same hlist hsame) rfl
        | RED =>
          rw [if_pos rfl, (DeleteFixupRound_side h hparent hB).2, hk]
          cases c with
          -- a red node has no red parent
          | RED =>
            have hblack := hfits.2.1
            rw [hcolor] at hblack
            cases hblack
          | BLACK =>
            cases d with
            | left => exact redBrother_ends h hparent hrb hcolor hfits k
            | right =>
              cases B with
              | leaf => exact absurd rfl hB
              | node e br b bl =>
                have he : e = RED := hcolor
                rw [he] at h hfits ⊢
                exact redBrotherSlip_ends h hparent hrb hfits k

/-! ## §3. `insert`. -/

/-- **`insert` KEEPS THE BALANCE**, with either flag, and returns: the keys afterwards
    are the old ones and the new one. -/
theorem insert_keeps_balance [LinearOrder K] {t : QRedBlackTree K V} {T : RBTree (Label K V)} (h : Balanced t T)
    (hroom : t.node_num ≤ MAX_TREE_SIZE) (key : K) (value : V) (cover_flag count_flag : Bool) :
    ∃ t' r T', (∀ fuel, T.toList.length < fuel → t.insert fuel key value cover_flag count_flag = some (t', r)) ∧
      Balanced t' T' ∧ ∀ k, k ∈ T'.toList.map Label.key ↔ k = key ∨ k ∈ T.toList.map Label.key := by
  have hall : ∀ {r : QRedBlackTree K V × ℤ},
      t.insert (T.toList.length + 1) key value cover_flag count_flag = some r →
        ∀ fuel, T.toList.length < fuel → t.insert fuel key value cover_flag count_flag = some r :=
    fun hrun fuel hfuel => insert_mono hrun hfuel
  obtain ⟨C, t', T', hT, -, hrun, hbal, hlist⟩ | ⟨C, c, l, x, r, t', hT, hkey, hrun, hbal⟩ :=
    insert_ends h key value cover_flag count_flag (not_lt.mpr hroom) (Nat.lt_succ_self _)
  · refine ⟨t', 0, T', hall hrun, hbal, ?_⟩
    intro k
    rw [hlist, hT, toList_plug]
    simp only [toList, List.nil_append, List.map_append, List.map_cons, List.mem_append, List.mem_cons]
    tauto
  · refine ⟨t', 1, _, hall hrun, hbal, ?_⟩
    have hagain : (x.again value cover_flag count_flag).key = key := by
      unfold Label.again
      split_ifs <;> exact hkey
    intro k
    rw [hT, toList_plug, toList_plug]
    simp only [toList, List.map_append, List.map_cons, List.mem_append, List.mem_cons, hagain, hkey]
    tauto

/-! ## §4. Which tree the memory holds. -/

/-- The tree below `p`. -/
def readTree (h : ℕ → RBNode K V) : ℕ → ℕ → RBTree (Label K V)
  | 0, _ => leaf
  | fuel + 1, p =>
    if p = m_leaf then leaf
    else node (h p).color (readTree h fuel (h p).left) ⟨p, (h p).key, (h p).value, (h p).count⟩
      (readTree h fuel (h p).right)

theorem Holds.read {h : ℕ → RBNode K V} : ∀ {q fuel : ℕ}, Holds h q s →
    (∀ y ∈ s.toList, y.addr ≠ m_leaf) → s.toList.length ≤ fuel → readTree h fuel (ptr s) = s := by
  induction s with
  | leaf =>
    intro q fuel _ _ _
    cases fuel with
    | zero => rfl
    | succ fuel => exact if_pos rfl
  | node c l x r ihl ihr =>
    intro q fuel hs hzero hfuel
    obtain ⟨hx, hl, hr⟩ := hs
    rw [length_node] at hfuel
    obtain ⟨k, hk⟩ : ∃ k, fuel = k + 1 := ⟨fuel - 1, by omega⟩
    -- both subtrees have fewer nodes than the fuel that is left
    have hleft : readTree h k (ptr l) = l :=
      ihl hl (fun y hy => hzero y (mem_append_left _ hy)) (by omega)
    have hright : readTree h k (ptr r) = r :=
      ihr hr (fun y hy => hzero y (mem_append_right _ (mem_cons_of_mem x hy))) (by omega)
    have hne : x.addr ≠ m_leaf := hzero x (mem_append_right _ mem_cons_self)
    rw [hk, show ptr (node c l x r) = x.addr from rfl, readTree, if_neg hne, hx]
    dsimp only [cell]
    rw [hleft, hright]

/-- The tree that the memory holds. -/
def QRedBlackTree.tree (t : QRedBlackTree K V) : RBTree (Label K V) := readTree t.heap t.node_num.toNat t.m_root

theorem Shape.read (h : Shape t T) (hfuel : T.toList.length ≤ fuel) : readTree t.heap fuel t.m_root = T := by
  rw [h.root]
  exact h.holds.read (fun y hy => h.addr_ne hy) hfuel

/-- **THERE IS ONE TREE** in a memory. -/
theorem Shape.unique (h : Shape t T) (h' : Shape t T') : T' = T := by
  rw [← h.read (Nat.le_max_left T.toList.length T'.toList.length)]
  exact (h'.read (Nat.le_max_right _ _)).symm

theorem Balanced.tree_eq [LinearOrder K] (h : Balanced t T) : t.tree = T := by
  unfold QRedBlackTree.tree
  rw [h.size, Int.toNat_natCast]
  exact h.shape.read le_rfl

/-! ## §5. `remove`. -/

/-- The place that the removal of `key` leaves. -/
def removalPlace [LinearOrder K] (key : K) : RBTree (Label K V) → Context (Label K V) →
    Option (NODE_COLOR × Context (Label K V) × RBTree (Label K V))
  | leaf, _ => none
  | node c l x r, C =>
    if x.key = key then some (goneAt c l x r C)
    else if key < x.key then removalPlace key l (⟨.left, c, x, r⟩ :: C)
    else removalPlace key r (⟨.right, c, x, l⟩ :: C)

/-- The tree without `key` can be repaired. -/
def RemovalMends [LinearOrder K] (T : RBTree (Label K V)) (key : K) : Bool := (removalPlace key T []).all Repairable

theorem Between.tail [LinearOrder K] {f : Frame (Label K V)} (h : Between key (f :: U)) :
    f.label.key ≠ key ∧ Between key U := by
  obtain ⟨side, c, x, sib⟩ := f
  cases side with
  | left =>
    refine ⟨ne_of_gt (h.2 x (mem_append_left _ mem_cons_self)), h.1, ?_⟩
    exact fun y hy => h.2 y (mem_append_right _ hy)
  | right =>
    refine ⟨ne_of_lt (h.1 x (mem_append_right _ (mem_append_right _ mem_cons_self))), ?_, h.2⟩
    exact fun y hy => h.1 y (mem_append_left _ hy)

/-- The way down to the place of a key. -/
theorem removalPlace_plug [LinearOrder K] (C : Context (Label K V)) :
    ∀ {D : Context (Label K V)}, Between key C →
      ∀ s : RBTree (Label K V), removalPlace key (plug C s) D = removalPlace key s (C ++ D) := by
  induction C with
  | nil =>
    intro D _ s
    rfl
  | cons f U ih =>
    intro D h s
    obtain ⟨hne, htail⟩ := h.tail
    have hside := h.side
    obtain ⟨side, c, x, sib⟩ := f
    rw [show plug (⟨side, c, x, sib⟩ :: U) s = plug U (join side c x s sib) from rfl, ih htail]
    cases side with
    | left =>
      rw [show join .left c x s sib = node c s x sib from rfl, removalPlace, if_neg hne, if_pos (hside.mpr rfl)]
      rfl
    | right =>
      rw [show join .right c x s sib = node c sib x s from rfl, removalPlace, if_neg hne,
        if_neg (fun hlt => nomatch hside.mp hlt)]
      rfl

theorem between_of_sorted [LinearOrder K] (h : Sorted (plug C (node c l x r))) : Between x.key C := by
  unfold Sorted at h
  rw [toList_plug] at h
  obtain ⟨-, hrest, hleft⟩ := pairwise_append.mp h
  have hx : x ∈ (node c l x r).toList := mem_append_right _ mem_cons_self
  exact ⟨fun y hy => hleft y hy x (mem_append_left _ hx),
    fun y hy => (pairwise_append.mp hrest).2.2 x hx y hy⟩

theorem removalMends_eq [LinearOrder K] (h : Sorted (plug C (node c l x r))) :
    RemovalMends (plug C (node c l x r)) x.key = Repairable (goneAt c l x r C) := by
  unfold RemovalMends
  rw [removalPlace_plug C (between_of_sorted h), removalPlace, if_pos rfl, append_nil]
  rfl

theorem mends_relabel {α : Type} {d : Side} {x x' : α} {B : RBTree α} {U : Context α} (A : Context α) :
    Mends (A ++ ⟨d, c, x', B⟩ :: U) = Mends (A ++ ⟨d, c, x, B⟩ :: U) := by
  induction A with
  | nil => rfl
  | cons f A ih =>
    obtain ⟨d', c', y, B'⟩ := f
    rw [cons_append, cons_append, Mends, Mends, ih]
    cases A <;> rfl

theorem repairable_relabel (c : NODE_COLOR) (l : RBTree (Label K V)) (x x' : Label K V) (r : RBTree (Label K V))
    (C : Context (Label K V)) : Repairable (goneAt c l x' r C) = Repairable (goneAt c l x r C) := by
  unfold goneAt
  cases l with
  | leaf => rfl
  | node c' l' z r' =>
    cases splitLeftmost r with
    | none => rfl
    | some p =>
      obtain ⟨A, e, y, b⟩ := p
      unfold Repairable
      rw [mends_relabel A (x := { x with key := y.key, value := y.value })]

/-- A node with one child goes itself. -/
theorem goneAt_single (h : l = leaf ∨ r = leaf) :
    (plug (goneAt c l x r C).2.1 (goneAt c l x r C).2.2).toList =
      pre C ++ (l.toList ++ (r.toList ++ post C)) := by
  cases l with
  | leaf =>
    show (plug C r).toList = _
    rw [toList_plug]
    rfl
  | node c' l' z r' =>
    obtain hl | hr := h
    · cases hl
    rw [hr]
    show (plug C (node c' l' z r')).toList = _
    rw [toList_plug]
    rfl

/-- **WHAT A REMOVAL LEAVES**: the other entries in order, and a balanced tree exactly
    when the place can be repaired. -/
theorem takeOut_ends [LinearOrder K] (h : Balanced t (plug C (node c l x r)))
    (hfuel : (plug C (node c l x r)).toList.length < fuel) :
    ∃ t' T', takeOut fuel t x.addr = some (t', 0) ∧ Shape t' T' ∧ Sorted T' ∧ t'.node_num = T'.toList.length ∧
      T'.toList.map entry = (pre C ++ (l.toList ++ (r.toList ++ post C))).map entry ∧
      (l = leaf ∨ r = leaf → T'.toList = pre C ++ (l.toList ++ (r.toList ++ post C))) ∧
      (Sound T' ↔ Repairable (goneAt c l x r C) = true) := by
  obtain ⟨del, C', s, hdel, hplace, hunlinked, hentries⟩ := unlink_spec h hfuel
  have hsingle := goneAt_single (c := c) (x := x) (l := l) (r := r) (C := C)
  have hctx : C'.length < fuel := context_lt hentries hfuel
  have hleaves : Leaves (t.unlink x.addr del) (plug C' s) (Repairable (goneAt c l x r C))
      (if t.color del = BLACK then (t.unlink x.addr del).DeleteFixup fuel (t.curNode del)
        else some (t.unlink x.addr del)) := by
    rw [hplace]
    cases hcolor : t.color del with
    -- no black node is missing where a red one was
    | RED =>
      exact leaves_of_repaired rfl (hunlinked.repaired hcolor) rfl
    | BLACK =>
      rw [if_pos rfl, hunlinked.cur]
      obtain ⟨m, hshort, hfits⟩ := hunlinked.black hcolor
      exact DeleteFixup_ends fuel hunlinked.shape hunlinked.parent hshort hfits hctx
  obtain ⟨t', T', hrun, hended, hsound⟩ := hleaves
  obtain ⟨hshape, hsorted, hsize, hentries'⟩ := hended.taken h hunlinked.node_num hentries
  unfold takeOut
  rw [hdel]
  dsimp only
  rw [hrun]
  refine ⟨_, T', rfl, hshape, hsorted, hsize, hentries', ?_, hsound⟩
  intro hone
  rw [hended.toList, ← hsingle hone, hplace]

/-- What `remove` leaves in the node that it finds. -/
def Label.released (x : Label K V) (count_flag : Bool) : Label K V :=
  if count_flag then { x with count := x.count - 1 } else x

theorem Balanced.released [LinearOrder K] (h : Balanced t (plug C (node c l x r))) (count_flag : Bool) :
    Balanced (released t x.addr count_flag) (plug C (node c l (x.released count_flag) r)) ∧
      ((RedBlackTree.released t x.addr count_flag).heap x.addr).count = (x.released count_flag).count := by
  have hcell := Shape.cell (d := .left) h.shape
  unfold RedBlackTree.released Label.released
  cases count_flag with
  | true =>
    rw [if_pos rfl, if_pos rfl, write_self, hcell]
    exact ⟨h.write (by rfl) rfl rfl, rfl⟩
  | false =>
    rw [if_neg Bool.false_ne_true, if_neg Bool.false_ne_true, hcell]
    exact ⟨h, rfl⟩

/-- **EVERY `remove`** of a key that is there: a reference less, or the node goes. -/
theorem remove_ends [LinearOrder K] (h : Balanced t T) (key : K) (count_flag : Bool)
    (hfuel : T.toList.length < fuel) :
    (∃ C, T = plug C leaf ∧ Between key C ∧ t.remove fuel key count_flag = some (t, 1)) ∨
    ∃ C c l x r, T = plug C (node c l x r) ∧ x.key = key ∧ t.remove fuel key count_flag =
      (if count_flag ∧ 0 < (x.released count_flag).count then some (released t x.addr count_flag, 2)
        else takeOut fuel (released t x.addr count_flag) x.addr) := by
  rw [remove_eq]
  obtain ⟨C, hT, hbetween, hlocate⟩ | ⟨C, c, l, x, r, hT, hkey, hne, hlocate⟩ := h.locate key hfuel
  · left
    rw [hlocate]
    exact ⟨C, hT, hbetween, if_pos rfl⟩
  right
  rw [hT] at h
  rw [hlocate]
  dsimp only
  rw [if_neg hne, (h.released count_flag).2]
  exact ⟨C, c, l, x, r, hT, hkey, rfl⟩

/-- The tree after `remove(key)`: balanced, with the other keys and their values. -/
def Removes [LinearOrder K] (t : QRedBlackTree K V) (T : RBTree (Label K V)) (key : K) (count_flag : Bool) : Prop :=
  ∃ t' T', (∀ fuel, T.toList.length < fuel → t.remove fuel key count_flag = some (t', 0)) ∧ Balanced t' T' ∧
    T'.toList.map entry = (T.toList.map entry).filter (fun p => decide (p.1 ≠ key))

theorem filter_entries [LinearOrder K] (h : Sorted (plug C (node c l x r))) :
    ((plug C (node c l x r)).toList.map entry).filter (fun p => decide (p.1 ≠ x.key)) =
      (pre C ++ (l.toList ++ (r.toList ++ post C))).map entry := by
  have hother := other_keys h
  have hleft := filter_eq_self.mpr (fun p hp => decide_eq_true (hother p (mem_append_left _ hp)))
  have hright := filter_eq_self.mpr (fun p hp => decide_eq_true (hother p (mem_append_right _ hp)))
  rw [toList_node, filter_append, filter_cons_of_neg (by simp), hleft, hright, ← map_append]
  simp only [append_assoc]

theorem key_notMem [LinearOrder K] (h : Between key C) :
    key ∉ (plug C (leaf : RBTree (Label K V))).toList.map Label.key := by
  rw [toList_plug]
  intro hmem
  obtain ⟨y, hy, hkey⟩ := mem_map.mp hmem
  obtain hy | hy := mem_append.mp hy
  · exact ne_of_lt (h.1 y hy) hkey
  · exact ne_of_gt (h.2 y hy) hkey

theorem Sorted.eq_of_key [LinearOrder K] (h : Sorted T) (hx : x ∈ T.toList) (hy : y ∈ T.toList)
    (hkey : y.key = x.key) : y = x := by
  have hnodup : (T.toList.map Label.key).Nodup := by
    unfold List.Nodup
    rw [pairwise_map]
    exact h.imp (fun hlt => ne_of_lt hlt)
  exact inj_on_of_nodup_map hnodup hy hx hkey

/-- A removal that leaves references. -/
theorem released_count (x : Label K V) (count_flag : Bool) :
    (count_flag = true ∧ 0 < (x.released count_flag).count) ↔ ¬ (count_flag = true → x.count ≤ 1) := by
  unfold Label.released
  cases count_flag with
  | true =>
    rw [if_pos rfl]
    dsimp only
    constructor
    · rintro ⟨-, hpos⟩ hle
      have := hle rfl
      omega
    · intro hnot
      exact ⟨rfl, by by_contra hpos; exact hnot (fun _ => by omega)⟩
  | false => exact iff_of_false (fun hflag => Bool.false_ne_true hflag.1) (not_not_intro nofun)

/-- **WHEN `remove` KEEPS THE BALANCE**: exactly when the place it leaves can be
    repaired, and no further reference keeps the node. -/
theorem remove_balance_iff [LinearOrder K] {t : QRedBlackTree K V} {T : RBTree (Label K V)} (h : Balanced t T) {key : K}
    (hkey : key ∈ T.toList.map Label.key) (count_flag : Bool) :
    Removes t T key count_flag ↔
      (count_flag = true → ∀ x ∈ T.toList, x.key = key → x.count ≤ 1) ∧ RemovalMends T key = true := by
  obtain ⟨C, hT, hbetween, -⟩ | ⟨C, c, l, x, r, hT, hx, hremove⟩ :=
    remove_ends h key count_flag (Nat.lt_succ_self T.toList.length)
  · rw [hT] at hkey
    exact absurd hkey (key_notMem hbetween)
  · have hsorted := h.sorted
    rw [hT] at h hsorted
    -- only the node with the key is asked
    have hcounts : (count_flag = true → ∀ y ∈ T.toList, y.key = key → y.count ≤ 1) ↔
        (count_flag = true → x.count ≤ 1) := by
      refine imp_congr_right (fun _ => ⟨fun hall => hall x (by rw [hT]; exact mem_node) hx, ?_⟩)
      intro hle y hy hykey
      rw [hT] at hy
      rw [hsorted.eq_of_key mem_node hy (hykey.trans hx.symm)]
      exact hle
    rw [hcounts]
    by_cases hkept : count_flag = true ∧ 0 < (x.released count_flag).count
    -- a reference is left: `remove` returns 2
    · rw [if_pos hkept] at hremove
      refine iff_of_false ?_ (fun hboth => (released_count x count_flag).mp hkept hboth.1)
      rintro ⟨t', T', hrun, -, -⟩
      rw [hrun _ (Nat.lt_succ_self _)] at hremove
      have hcode : (0 : ℤ) = 2 := congrArg Prod.snd (Option.some.inj hremove)
      exact absurd hcode (by decide)
    · have hfree : count_flag = true → x.count ≤ 1 := by
        by_contra hnot
        exact hkept ((released_count x count_flag).mpr hnot)
      have hlen : ∀ x' : Label K V, (plug C (node c l x' r)).toList.length = T.toList.length := by
        intro x'
        rw [hT, length_plug_node, length_plug_node]
      obtain ⟨t', T', hrun, hshape, hsorted', hsize, hentries, -, hsound⟩ :=
        takeOut_ends (h.released count_flag).1 (lt_of_eq_of_lt (hlen _) (Nat.lt_succ_self T.toList.length))
      have haddr : (x.released count_flag).addr = x.addr := by
        unfold Label.released
        split_ifs <;> rfl
      rw [haddr] at hrun
      rw [if_neg hkept, hrun] at hremove
      rw [repairable_relabel c l x, ← removalMends_eq hsorted, hx, ← hT] at hsound
      rw [← hsound, and_iff_right hfree]
      -- the tree that the memory holds afterwards is one, so it is balanced or not
      constructor
      · rintro ⟨t'', T'', hrun'', hbal, -⟩
        rw [hrun'' _ (Nat.lt_succ_self _)] at hremove
        have ht : t'' = t' := congrArg Prod.fst (Option.some.inj hremove)
        rw [ht] at hbal
        rw [← hshape.unique hbal.shape]
        exact ⟨hbal.root_black, hbal.balanced⟩
      · rintro ⟨hblack, hbalanced⟩
        refine ⟨t', T', fun fuel hfuel => remove_mono hremove hfuel,
          ⟨hshape, hbalanced, hblack, hsorted', hsize⟩, ?_⟩
        rw [hentries, hT, ← hx, filter_entries hsorted]

/-! ## §6. Trees that insertions build. -/

/-- Insertions of these keys. -/
def inserts (keys : List ℕ) : List (Call ℕ ℕ) := keys.map (fun key => .insert key 0 false)

/-- Insertions build balanced trees. -/
theorem balanced_inserts (fuel : ℕ) (keys : List ℕ) : ∀ {t : QRedBlackTree ℕ ℕ} {T : RBTree (Label ℕ ℕ)},
    Balanced t T → T.toList.length + keys.length < fuel → ((T.toList.length + keys.length : ℕ) : ℤ) ≤ MAX_TREE_SIZE →
      ∃ t' T' rs, run fuel t (inserts keys) = some (t', rs) ∧ Balanced t' T' ∧ t'.node_num ≤ MAX_TREE_SIZE := by
  induction keys with
  | nil =>
    intro t T h _ hroom
    refine ⟨t, T, [], rfl, h, ?_⟩
    rw [h.size]
    exact hroom
  | cons key keys ih =>
    intro t T h hfuel hroom
    rw [length_cons] at hfuel hroom
    have hsize := h.size
    have hone : ∃ t' T' r, (Call.insert key 0 false).run fuel t = some (t', r) ∧ Balanced t' T' ∧
        T'.toList.length ≤ T.toList.length + 1 := by
      obtain ⟨C, t', T', hT, -, hrun, hbal, hlist⟩ | ⟨C, c, l, x, r, t', hT, -, hrun, hbal⟩ :=
        insert_ends h key 0 false false (by omega) (show T.toList.length < fuel by omega)
      · refine ⟨t', T', 0, hrun, hbal, ?_⟩
        rw [hlist, hT, length_plug_leaf]
        simp only [length_append, length_cons]
        omega
      · refine ⟨t', _, 1, hrun, hbal, ?_⟩
        rw [hT, length_plug_node, length_plug_node]
        exact Nat.le_succ _
    obtain ⟨t', T', r, hrun, hbal, hlen⟩ := hone
    obtain ⟨t'', T'', rs, hrest, hbal', hroom'⟩ := ih hbal (by omega) (by omega)
    refine ⟨t'', T'', r :: rs, ?_, hbal', hroom'⟩
    rw [inserts, map_cons, run, hrun]
    dsimp only
    rw [show run fuel t' (keys.map fun key => .insert key 0 false) = some (t'', rs) from hrest]

/-- A new key, after two insertions that left a turn to be made. -/
theorem insert_keeps_balance_third : ∃ (t : QRedBlackTree ℕ ℕ) (T : RBTree (Label ℕ ℕ)) (rs : List ℤ),
    run 20 (QRedBlackTree.new blankNodes) (inserts [1, 2]) = some (t, rs) ∧ ∃ t' r T', (∀ fuel,
      T.toList.length < fuel → t.insert fuel 3 0 false false = some (t', r)) ∧
      Balanced t' T' ∧ ∀ k, k ∈ T'.toList.map Label.key ↔ k = 3 ∨ k ∈ T.toList.map Label.key := by
  obtain ⟨t, T, rs, hrun, hbal, hroom⟩ := balanced_inserts 20 [1, 2] (balanced_new blankNodes)
    (by decide) (by decide)
  exact ⟨t, T, rs, hrun, insert_keeps_balance hbal hroom 3 0 false false⟩

/-- A black node without children goes, and the tree turns. -/
theorem remove_balance_iff_six : ∃ (t : QRedBlackTree ℕ ℕ) (T : RBTree (Label ℕ ℕ)) (rs : List ℤ),
    run 20 (QRedBlackTree.new blankNodes) (inserts [1, 2, 3, 4, 5, 6]) = some (t, rs) ∧ Removes t T 1 false := by
  obtain ⟨t, T, rs, hrun, hbal, -⟩ := balanced_inserts 20 [1, 2, 3, 4, 5, 6] (balanced_new blankNodes)
    (by decide) (by decide)
  have hcomputed : (match run 20 (QRedBlackTree.new blankNodes) (inserts [1, 2, 3, 4, 5, 6]) with
      | none => false
      | some (t, _) => decide (1 ∈ t.tree.toList.map Label.key) && RemovalMends t.tree 1) = true := by
    decide
  rw [hrun] at hcomputed
  dsimp only at hcomputed
  rw [hbal.tree_eq, Bool.and_eq_true, decide_eq_true_iff] at hcomputed
  exact ⟨t, T, rs, hrun, (remove_balance_iff hbal hcomputed.1 false).mpr ⟨nofun, hcomputed.2⟩⟩

/-- The removal of 10 from the tree of seven insertions makes the root red. -/
theorem remove_leaves_red : ∃ (t : QRedBlackTree ℕ ℕ) (T : RBTree (Label ℕ ℕ)) (rs : List ℤ),
    run 20 (QRedBlackTree.new blankNodes) (inserts [9, 10, 7, 8, 2, 6, 1]) = some (t, rs) ∧ Balanced t T ∧
      10 ∈ T.toList.map Label.key ∧ ¬ Removes t T 10 false := by
  obtain ⟨t, T, rs, hrun, hbal, -⟩ := balanced_inserts 20 [9, 10, 7, 8, 2, 6, 1] (balanced_new blankNodes)
    (by decide) (by decide)
  -- the run itself: 10 is there, and the root is red after its removal
  have hcomputed : (match run 20 (QRedBlackTree.new blankNodes) (inserts [9, 10, 7, 8, 2, 6, 1]) with
      | none => false
      | some (t, _) => decide (10 ∈ t.tree.toList.map Label.key) &&
          match t.remove 20 10 false with
          | none => false
          | some (t', _) => decide (t'.color t'.m_root = RED) && decide (t.node_num < 20)) = true := by
    decide
  rw [hrun] at hcomputed
  dsimp only at hcomputed
  rw [hbal.tree_eq, Bool.and_eq_true, decide_eq_true_iff] at hcomputed
  obtain ⟨hmem, hred⟩ := hcomputed
  refine ⟨t, T, rs, hrun, hbal, hmem, ?_⟩
  rintro ⟨t', T', hremove, hbal', -⟩
  cases hshort : t.remove 20 10 false with
  | none =>
    rw [hshort] at hred
    cases hred
  | some p =>
    rw [hshort, Bool.and_eq_true, decide_eq_true_iff, decide_eq_true_iff] at hred
    obtain ⟨hroot, hsize⟩ := hred
    rw [hbal.size] at hsize
    rw [hremove 20 (by omega)] at hshort
    have ht : t' = p.1 := congrArg Prod.fst (Option.some.inj hshort)
    have hblack : t'.color t'.m_root = BLACK := by
      rw [hbal'.shape.root]
      exact (Shape.color_ptr (C := []) hbal'.shape).trans hbal'.root_black
    rw [ht, hroot] at hblack
    cases hblack

end RedBlackTree

end KalavaPir.Common
