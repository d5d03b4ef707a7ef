/-
  KalavaPir.Common.QRedBlackHeap — the tree in the memory.

  A `Shape` says which tree the nodes from `m_root` on are: every node holds its
  color, its contents and the addresses around it, and the sentinel is black.
  Writes and rotations at one place change the tree at that place.
-/
import KalavaPir.Common.QRedBlackTree

namespace KalavaPir.Common

namespace RedBlackTree

open KalavaPir.Framework KalavaPir.Framework.RedBlack List
open RedBlack.Color RedBlack.RBTree

variable {K V : Type}

/-! ## §1. Trees of addresses. -/

/-- An address, and what the node there holds. -/
structure Label (K V : Type) where
  addr : ℕ
  key : K
  value : V
  count : ℤ

/-- The nodes of a tree. -/
def addrs (s : RBTree (Label K V)) : List ℕ := s.toList.map Label.addr

/-- The pointer to a subtree. -/
def ptr : RBTree (Label K V) → ℕ
  | leaf => m_leaf
  | node _ _ x _ => x.addr

/-- The pointer to the parent. -/
def top : Context (Label K V) → ℕ
  | [] => m_leaf
  | f :: _ => f.label.addr

/-- A node with its child on the side `d`, then the other one. -/
def cell (d : Side) (c : NODE_COLOR) (x : Label K V) (parent near far : ℕ) : RBNode K V :=
  match d with
  | .left => ⟨c, x.key, x.value, x.count, parent, near, far⟩
  | .right => ⟨c, x.key, x.value, x.count, parent, far, near⟩

/-- The nodes of a subtree are there. -/
def Holds (h : ℕ → RBNode K V) : ℕ → RBTree (Label K V) → Prop
  | _, leaf => True
  | parent, node c l x r =>
    h x.addr = cell .left c x parent (ptr l) (ptr r) ∧ Holds h x.addr l ∧ Holds h x.addr r

/-- The nodes above a subtree are there, with `p` in its place. -/
def HoldsAbove (h : ℕ → RBNode K V) : ℕ → Context (Label K V) → Prop
  | _, [] => True
  | p, f :: U =>
    h f.label.addr = cell f.side f.color f.label (top U) p (ptr f.sib) ∧ Holds h f.label.addr f.sib ∧
      HoldsAbove h f.label.addr U

section

variable (d : Side)

/-- The members of a cell. -/
@[simp] theorem cell_color (c : NODE_COLOR) (x : Label K V) (q p p' : ℕ) : (cell d c x q p p').color = c := by
  cases d <;> rfl

/-- Its key. -/
@[simp] theorem cell_key (c : NODE_COLOR) (x : Label K V) (q p p' : ℕ) : (cell d c x q p p').key = x.key := by
  cases d <;> rfl

/-- Its value. -/
@[simp] theorem cell_value (c : NODE_COLOR) (x : Label K V) (q p p' : ℕ) : (cell d c x q p p').value = x.value := by
  cases d <;> rfl

/-- Its parent. -/
@[simp] theorem cell_parent (c : NODE_COLOR) (x : Label K V) (q p p' : ℕ) : (cell d c x q p p').parent = q := by
  cases d <;> rfl

/-- Its child on the side `d`. -/
@[simp] theorem cell_child (c : NODE_COLOR) (x : Label K V) (q p p' : ℕ) : (cell d c x q p p').child d = p := by
  cases d <;> rfl

/-- Its child on the other side. -/
@[simp] theorem cell_child_other (c : NODE_COLOR) (x : Label K V) (q p p' : ℕ) :
    (cell d c x q p p').child d.other = p' := by
  cases d <;> rfl

/-- A tree is known by its root. -/
@[simp] theorem ptr_join (c : NODE_COLOR) (x : Label K V) (a b : RBTree (Label K V)) :
    ptr (join d c x a b) = x.addr := by
  cases d <;> rfl

end

variable {h h' : ℕ → RBNode K V} {d : Side} {c : NODE_COLOR} {x y : Label K V}
  {a b s s' : RBTree (Label K V)} {f : Frame (Label K V)} {U C : Context (Label K V)}
  {t t' : QRedBlackTree K V}

variable {q p : ℕ} {T : RBTree (Label K V)}

/-- The memory holds the root and both subtrees. -/
theorem holds_join :
    Holds h q (join d c x a b) ↔ h x.addr = cell d c x q (ptr a) (ptr b) ∧ Holds h x.addr a ∧ Holds h x.addr b := by
  cases d with
  | left => exact Iff.rfl
  | right =>
    constructor
    · rintro ⟨hx, hb, ha⟩
      exact ⟨hx, ha, hb⟩
    · rintro ⟨hx, ha, hb⟩
      exact ⟨hx, hb, ha⟩

/-- The elements of a tree. -/
theorem mem_join : y ∈ (join d c x a b).toList ↔ y = x ∨ y ∈ a.toList ∨ y ∈ b.toList := by
  cases d with
  | left =>
    show y ∈ a.toList ++ x :: b.toList ↔ _
    rw [mem_append, mem_cons]
    tauto
  | right =>
    show y ∈ b.toList ++ x :: a.toList ↔ _
    rw [mem_append, mem_cons]
    tauto

/-- **Other nodes do not matter.** -/
theorem Holds.congr : ∀ {q : ℕ}, Holds h q s → (∀ x ∈ s.toList, h' x.addr = h x.addr) → Holds h' q s := by
  induction s with
  | leaf =>
    intro q _ _
    trivial
  | node c l x r ihl ihr =>
    intro q hs hsame
    obtain ⟨hx, hl, hr⟩ := hs
    refine ⟨?_, ihl hl ?_, ihr hr ?_⟩
    · rw [hsame x (mem_append_right _ mem_cons_self), hx]
    · intro y hy
      exact hsame y (mem_append_left _ hy)
    · intro y hy
      exact hsame y (mem_append_right _ (mem_cons_of_mem x hy))

/-- The elements above a subtree. -/
def above (C : Context (Label K V)) : List (Label K V) := pre C ++ post C

/-- The elements above a place. -/
theorem above_cons (f : Frame (Label K V)) (U : Context (Label K V)) :
    (above (f :: U)).Perm (f.label :: (f.sib.toList ++ above U)) := by
  obtain ⟨side, c, x, sib⟩ := f
  cases side with
  | left =>
    show (pre U ++ x :: (sib.toList ++ post U)).Perm (x :: (sib.toList ++ (pre U ++ post U)))
    exact perm_middle.trans ((perm_append_comm_assoc _ _ _).cons x)
  | right =>
    show (pre U ++ (sib.toList ++ [x]) ++ post U).Perm (x :: (sib.toList ++ (pre U ++ post U)))
    rw [append_assoc, append_assoc, singleton_append]
    refine (perm_append_comm_assoc _ _ _).trans ?_
    exact (perm_middle.append_left _).trans perm_middle

/-- The same, one by one. -/
theorem mem_above_cons : y ∈ above (f :: U) ↔ y = f.label ∨ y ∈ f.sib.toList ∨ y ∈ above U := by
  rw [(above_cons f U).mem_iff, mem_cons, mem_append]

/-- Only the nodes above matter. -/
theorem HoldsAbove.congr : ∀ {p : ℕ}, HoldsAbove h p C →
    (∀ x ∈ above C, h' x.addr = h x.addr) → HoldsAbove h' p C := by
  induction C with
  | nil =>
    intro p _ _
    trivial
  | cons f U ih =>
    intro p hctx hsame
    obtain ⟨hf, hsib, hup⟩ := hctx
    refine ⟨?_, hsib.congr ?_, ih hup ?_⟩
    · rw [hsame f.label (mem_above_cons.mpr (Or.inl rfl)), hf]
    · intro y hy
      exact hsame y (mem_above_cons.mpr (Or.inr (Or.inl hy)))
    · intro y hy
      exact hsame y (mem_above_cons.mpr (Or.inr (Or.inr hy)))

/-- A subtree and what is above it. -/
theorem holds_plug (C : Context (Label K V)) : ∀ {s : RBTree (Label K V)},
    Holds h m_leaf (plug C s) ↔ Holds h (top C) s ∧ HoldsAbove h (ptr s) C := by
  induction C with
  | nil =>
    intro s
    exact ⟨fun hs => ⟨hs, trivial⟩, fun hs => hs.1⟩
  | cons f U ih =>
    intro s
    have hplug : ptr (f.plug s) = f.label.addr := ptr_join _ _ _ _ _
    show Holds h m_leaf (plug U (f.plug s)) ↔ _
    rw [ih, hplug]
    unfold Frame.plug
    rw [holds_join]
    constructor
    · rintro ⟨⟨hf, hs, hsib⟩, hup⟩
      exact ⟨hs, hf, hsib, hup⟩
    · rintro ⟨hs, hf, hsib, hup⟩
      exact ⟨⟨hf, hs, hsib⟩, hup⟩

/-- The nodes from `m_root` on are this tree. -/
structure Shape (t : QRedBlackTree K V) (T : RBTree (Label K V)) : Prop where
  root : t.m_root = ptr T
  holds : Holds t.heap m_leaf T
  leaf_black : t.color m_leaf = BLACK
  nodup : (addrs T).Nodup
  nonzero : m_leaf ∉ addrs T
  old : ∀ p ∈ addrs T, p < t.next
  fresh : m_leaf < t.next

/-- No node is the sentinel. -/
theorem Shape.addr_ne (h : Shape t T) (hy : y ∈ T.toList) : y.addr ≠ m_leaf := by
  intro hzero
  exact h.nonzero (hzero ▸ mem_map_of_mem hy)

/-! ## §2. Reading. -/

/-- An element is in the subtree or above it. -/
theorem mem_plug : y ∈ (plug C s).toList ↔ y ∈ s.toList ∨ y ∈ above C := by
  unfold above
  rw [toList_plug, mem_append, mem_append, mem_append]
  tauto

/-- The root of the subtree. -/
theorem mem_node {l r : RBTree (Label K V)} :
    x ∈ (plug C (node c l x r)).toList := mem_plug.mpr (Or.inl (mem_join (d := .left).mpr (Or.inl rfl)))

/-- The nodes below and above differ. -/
theorem apart_of_nodup (h : (addrs (plug C s)).Nodup) : (addrs s).Nodup ∧ ((above C).map Label.addr).Nodup ∧
      ∀ x ∈ s.toList, ∀ y ∈ above C, x.addr ≠ y.addr := by
  have hperm : (addrs (plug C s)).Perm ((s.toList ++ above C).map Label.addr) := by
    refine List.Perm.map _ ?_
    unfold above
    rw [toList_plug, ← append_assoc, ← append_assoc]
    exact perm_append_comm.append_right _
  rw [hperm.nodup_iff, map_append, nodup_append] at h
  obtain ⟨hs, habove, hapart⟩ := h
  exact ⟨hs, habove, fun x hx y hy => hapart _ (mem_map_of_mem hx) _ (mem_map_of_mem hy)⟩

/-- The root and the nodes of both subtrees differ. -/
theorem apart_join (h : (addrs (join d c x a b)).Nodup) :
    (∀ y ∈ a.toList, y.addr ≠ x.addr) ∧ (∀ y ∈ b.toList, y.addr ≠ x.addr) ∧
      (∀ y ∈ a.toList, ∀ z ∈ b.toList, y.addr ≠ z.addr) ∧ (addrs a).Nodup ∧ (addrs b).Nodup := by
  have hperm : (addrs (join d c x a b)).Perm ((x :: (a.toList ++ b.toList)).map Label.addr) := by
    refine List.Perm.map _ ?_
    cases d with
    | left => exact perm_middle
    | right => exact perm_middle.trans (perm_append_comm.cons x)
  rw [hperm.nodup_iff, map_cons, nodup_cons, map_append, nodup_append] at h
  obtain ⟨hx, ha, hb, hapart⟩ := h
  refine ⟨?_, ?_, ?_, ha, hb⟩
  · intro y hy heq
    exact hx (heq ▸ mem_append_left _ (mem_map_of_mem hy))
  · intro y hy heq
    exact hx (heq ▸ mem_append_right _ (mem_map_of_mem hy))
  · intro y hy z hz
    exact hapart _ (mem_map_of_mem hy) _ (mem_map_of_mem hz)

/-- The root is a node of its tree. -/
theorem ptr_mem (h : ptr s ≠ m_leaf) : ∃ x ∈ s.toList, x.addr = ptr s := by
  cases s with
  | leaf => exact absurd rfl h
  | node c l x r => exact ⟨x, mem_append_right _ mem_cons_self, rfl⟩

/-- The parent is a node above. -/
theorem top_mem (h : top C ≠ m_leaf) : ∃ x ∈ above C, x.addr = top C := by
  cases C with
  | nil => exact absurd rfl h
  | cons f U => exact ⟨f.label, mem_above_cons.mpr (Or.inl rfl), rfl⟩

/-- A node that is not in a tree is not its root. -/
theorem ne_ptr (hp : p ≠ m_leaf) (h : ∀ y ∈ s.toList, p ≠ y.addr) : p ≠ ptr s := by
  intro heq
  obtain ⟨y, hy, haddr⟩ := ptr_mem (heq ▸ hp)
  exact h y hy (heq.trans haddr.symm)

/-- The parent is not below. -/
theorem Shape.ne_top (h : Shape t (plug C s)) (hy : y ∈ s.toList) : y.addr ≠ top C := by
  intro heq
  have hy0 : y.addr ≠ m_leaf := h.addr_ne (mem_plug.mpr (Or.inl hy))
  obtain ⟨z, hz, haddr⟩ := top_mem (heq ▸ hy0)
  exact (apart_of_nodup h.nodup).2.2 y hy z hz (heq.trans haddr.symm)

/-- Nor is it the root of a subtree. -/
theorem Shape.top_ne_ptr (h : Shape t (plug C s)) (hb : ∀ y ∈ b.toList, y ∈ s.toList) (hne : top C ≠ m_leaf) :
    top C ≠ ptr b :=
  ne_ptr hne (fun _ hy => (h.ne_top (hb _ hy)).symm)

/-- **WHAT A NODE HOLDS.** -/
theorem Shape.cell (h : Shape t (plug C (join d c x a b))) :
    t.heap x.addr = RedBlackTree.cell d c x (top C) (ptr a) (ptr b) :=
  (holds_join.mp ((holds_plug C).mp h.holds).1).1

/-- The parent of a subtree. -/
theorem Shape.parent_ptr (h : Shape t (plug C s)) (hs : s ≠ leaf) : t.parent (ptr s) = top C := by
  cases s with
  | leaf => exact absurd rfl hs
  | node c l x r =>
    have hcell := Shape.cell (d := .left) h
    show (t.heap x.addr).parent = top C
    rw [hcell, cell_parent]

/-- What the memory says of the parent. -/
theorem Shape.frame (h : Shape t (plug (f :: U) s)) :
    t.color f.label.addr = f.color ∧ t.parent f.label.addr = top U ∧ t.child f.side f.label.addr = ptr s ∧
      t.child f.side.other f.label.addr = ptr f.sib := by
  have hcell := Shape.cell (C := U) (d := f.side) h
  unfold QRedBlackTree.color QRedBlackTree.parent QRedBlackTree.child
  rw [hcell, cell_color, cell_parent, cell_child, cell_child_other]
  exact ⟨rfl, rfl, rfl, rfl⟩

/-- The color of a subtree. -/
theorem Shape.color_ptr (h : Shape t (plug C s)) : t.color (ptr s) = s.color := by
  cases s with
  | leaf => exact h.leaf_black
  | node c l x r =>
    have hcell := Shape.cell (d := .left) h
    show (t.heap x.addr).color = c
    rw [hcell, cell_color]

/-- Only the empty tree is at the sentinel. -/
theorem Shape.ptr_eq_leaf (h : Shape t (plug C s)) : ptr s = m_leaf ↔ s = leaf := by
  cases s with
  | leaf => exact iff_of_true rfl rfl
  | node c l x r =>
    have hne := h.addr_ne (mem_plug.mpr (Or.inl (mem_append_right _ mem_cons_self)))
    exact iff_of_false hne (by simp)

/-- Two subtrees of a node have different pointers, unless both are empty. -/
theorem Shape.ptr_ne (h : Shape t (plug C (join d c x a b))) (ha : a ≠ leaf ∨ b ≠ leaf) : ptr a ≠ ptr b := by
  intro heq
  obtain ⟨-, -, hapart, -, -⟩ := apart_join (apart_of_nodup h.nodup).1
  have hnear : ptr a = m_leaf ↔ a = leaf := Shape.ptr_eq_leaf (C := ⟨d, c, x, b⟩ :: C) h
  have hfar : ptr b = m_leaf ↔ b = leaf := by
    refine Shape.ptr_eq_leaf (t := t) (C := ⟨d.other, c, x, a⟩ :: C) ?_
    show Shape t (plug C (join d.other c x b a))
    rw [join_other]
    exact h
  by_cases hzero : ptr a = m_leaf
  · obtain hne | hne := ha
    · exact hne (hnear.mp hzero)
    · exact hne (hfar.mp (heq ▸ hzero))
  · obtain ⟨y, hy, haddr⟩ := ptr_mem hzero
    obtain ⟨z, hz, haddr'⟩ := ptr_mem (heq ▸ hzero)
    exact hapart y hy z hz (haddr.trans (heq.trans haddr'.symm))

/-- The root of the whole is above. -/
theorem ptr_plug_mem (C : Context (Label K V)) (hne : C ≠ []) : ∀ s : RBTree (Label K V),
    ∃ x ∈ above C, x.addr = ptr (plug C s) := by
  induction C with
  | nil => exact absurd rfl hne
  | cons f U ih =>
    intro s
    by_cases hup : U = []
    · rw [hup]
      exact ⟨f.label, mem_above_cons.mpr (Or.inl rfl), (ptr_join _ _ _ _ _).symm⟩
    · obtain ⟨x, hx, haddr⟩ := ih hup (f.plug s)
      exact ⟨x, mem_above_cons.mpr (Or.inr (Or.inr hx)), haddr⟩

/-- Only the whole tree is at the root. -/
theorem Shape.root_iff (h : Shape t (plug C s)) : ptr s = t.m_root ↔ C = [] := by
  constructor
  · intro heq
    by_contra hne
    obtain ⟨x, hx, haddr⟩ := ptr_plug_mem C hne s
    have hx0 : x.addr ≠ m_leaf := h.addr_ne (mem_plug.mpr (Or.inr hx))
    rw [h.root, ← haddr] at heq
    obtain ⟨y, hy, hy'⟩ := ptr_mem (heq ▸ hx0)
    exact (apart_of_nodup h.nodup).2.2 y hy x hx (hy'.trans heq)
  · intro hctx
    rw [h.root, hctx]
    rfl

/-- The counter is no part of the shape. -/
theorem Shape.setNum (h : Shape t T) (n : ℤ) : Shape { t with node_num := n } T :=
  ⟨h.root, h.holds, h.leaf_black, h.nodup, h.nonzero, h.old, h.fresh⟩

/-! ## §3. Writing. -/

/-- The node that was written. -/
@[simp] theorem write_self (t : QRedBlackTree K V) (p : ℕ) (f : RBNode K V → RBNode K V) :
    (t.write p f).heap p = f (t.heap p) := if_pos rfl

/-- Any other node. -/
theorem write_of_ne (t : QRedBlackTree K V) (f : RBNode K V → RBNode K V) (h : q ≠ p) :
    (t.write p f).heap q = t.heap q := if_neg h

/-- Another child on the side `d`. -/
@[simp] theorem setChild_cell (d : Side) (c : NODE_COLOR) (x : Label K V) (q p p' r : ℕ) :
    (cell d c x q p p').setChild d r = cell d c x q r p' := by
  cases d <;> rfl

/-- Another child on the other side. -/
@[simp] theorem setChild_cell_other (d : Side) (c : NODE_COLOR) (x : Label K V) (q p p' r : ℕ) :
    (cell d c x q p p').setChild d.other r = cell d c x q p r := by
  cases d <;> rfl

/-- `p` is where the subtree was. -/
def Placed (t t' : QRedBlackTree K V) (p : ℕ) : Context (Label K V) → Prop
  | [] => t'.m_root = p
  | f :: U => t'.m_root = t.m_root ∧ t'.heap f.label.addr = cell f.side f.color f.label (top U) p (ptr f.sib)

/-- **ANOTHER SUBTREE** in the place of `s`. -/
theorem Shape.place (h : Shape t (plug C s)) (hholds : Holds t'.heap (top C) s')
    (hplaced : Placed t t' (ptr s') C)
    (hframe : ∀ y ∈ above C, y.addr ≠ top C → t'.heap y.addr = t.heap y.addr)
    (hleaf : t'.color m_leaf = BLACK) (hnodup : (addrs (plug C s')).Nodup)
    (hnonzero : m_leaf ∉ addrs (plug C s')) (hold : ∀ p ∈ addrs (plug C s'), p < t'.next)
    (hfresh : m_leaf < t'.next) : Shape t' (plug C s') := by
  obtain ⟨hs, habove⟩ := (holds_plug C).mp h.holds
  obtain ⟨-, hapart, -⟩ := apart_of_nodup h.nodup
  refine ⟨?_, (holds_plug C).mpr ⟨hholds, ?_⟩, hleaf, hnodup, hnonzero, hold, hfresh⟩
  · cases C with
    | nil => exact hplaced
    | cons f U =>
      have hroot : ∀ (U : Context (Label K V)) (r r' : RBTree (Label K V)), ptr r = ptr r' →
          ptr (plug U r) = ptr (plug U r') := by
        intro U
        induction U with
        | nil => exact fun r r' hr => hr
        | cons g U ih => exact fun r r' _ => ih _ _ ((ptr_join _ _ _ _ _).trans (ptr_join _ _ _ _ _).symm)
      rw [hplaced.1, h.root]
      exact hroot U _ _ ((ptr_join _ _ _ _ _).trans (ptr_join _ _ _ _ _).symm)
  · cases C with
    | nil => trivial
    | cons f U =>
      obtain ⟨hf, hsib, hup⟩ := habove
      have hone : f.label.addr ∉ (f.sib.toList ++ above U).map Label.addr := by
        rw [((above_cons f U).map Label.addr).nodup_iff, map_cons, nodup_cons] at hapart
        exact hapart.1
      have hother : ∀ y, y ∈ f.sib.toList ∨ y ∈ above U → t'.heap y.addr = t.heap y.addr := by
        intro y hy
        refine hframe y (mem_above_cons.mpr (Or.inr hy)) ?_
        intro heq
        refine hone ?_
        have hmem := mem_map_of_mem (f := Label.addr) (mem_append.mpr hy)
        rw [heq] at hmem
        exact hmem
      exact ⟨hplaced.2, hsib.congr (fun y hy => hother y (Or.inl hy)), hup.congr (fun y hy => hother y (Or.inr hy))⟩

/-- What no rotation and no other color changes: the counters and the sentinel. -/
structure Same (t t' : QRedBlackTree K V) : Prop where
  next : t'.next = t.next
  node_num : t'.node_num = t.node_num
  leaf : t'.heap m_leaf = t.heap m_leaf

/-- One write behind the other. -/
theorem Same.trans {t'' : QRedBlackTree K V} (h : Same t t') (h' : Same t' t'') : Same t t'' :=
  ⟨h'.next.trans h.next, h'.node_num.trans h.node_num, h'.leaf.trans h.leaf⟩

/-- Another subtree of the same nodes. -/
theorem Shape.place_same (h : Shape t (plug C s)) (haddrs : addrs (plug C s') = addrs (plug C s))
    (hsame : Same t t') (hholds : Holds t'.heap (top C) s') (hplaced : Placed t t' (ptr s') C)
    (hframe : ∀ y ∈ above C, y.addr ≠ top C → t'.heap y.addr = t.heap y.addr) : Shape t' (plug C s') := by
  refine h.place hholds hplaced hframe ?_ ?_ ?_ ?_ (hsame.next ▸ h.fresh)
  · show (t'.heap m_leaf).color = BLACK
    rw [hsame.leaf]
    exact h.leaf_black
  · rw [haddrs]
    exact h.nodup
  · rw [haddrs]
    exact h.nonzero
  · rw [haddrs, hsame.next]
    exact h.old

/-- The link above goes to `p` now. -/
theorem Shape.placed (h : Shape t (plug C s)) (hroot : top C = m_leaf → t'.m_root = p)
    (hup : top C ≠ m_leaf → t'.m_root = t.m_root ∧ t'.heap (top C) = (t.heap (top C)).setChild d p)
    (hside : ∀ f U, C = f :: U → d = f.side) : Placed t t' p C := by
  cases C with
  | nil => exact hroot rfl
  | cons f U =>
    have hne : f.label.addr ≠ m_leaf := h.addr_ne (mem_plug.mpr (Or.inr (mem_above_cons.mpr (Or.inl rfl))))
    obtain ⟨hsame, hwritten⟩ := hup hne
    have hcell := Shape.cell (C := U) (d := f.side) h
    rw [show top (f :: U) = f.label.addr from rfl, hside f U rfl, hcell, setChild_cell] at hwritten
    exact ⟨hsame, hwritten⟩

/-! ## §4. Rotations. -/

/-- What `replace` writes: the root, or one child of the parent of `p`. -/
theorem replace_heap (t : QRedBlackTree K V) (p q : ℕ) : (t.parent p = m_leaf → (t.replace p q).m_root = q) ∧
      (t.parent p ≠ m_leaf → (t.replace p q).m_root = t.m_root ∧ (t.replace p q).heap (t.parent p) =
        (t.heap (t.parent p)).setChild (if p = t.left (t.parent p) then .left else .right) q) ∧
      (∀ r, (r = t.parent p → t.parent p = m_leaf) → (t.replace p q).heap r = t.heap r) ∧
      (t.replace p q).next = t.next ∧ (t.replace p q).node_num = t.node_num := by
  unfold QRedBlackTree.replace
  by_cases hzero : t.parent p = m_leaf
  · rw [if_pos hzero]
    exact ⟨fun _ => rfl, fun hne => absurd hzero hne, fun _ _ => rfl, rfl, rfl⟩
  rw [if_neg hzero]
  have hother : ∀ (f : RBNode K V → RBNode K V) (r : ℕ), (r = t.parent p → t.parent p = m_leaf) →
      (t.write (t.parent p) f).heap r = t.heap r :=
    fun f r hr => write_of_ne t f (fun heq => hzero (hr heq))
  split_ifs with hleft
  · exact ⟨fun h => absurd h hzero, fun _ => ⟨rfl, write_self t _ _⟩, hother _, rfl, rfl⟩
  · exact ⟨fun h => absurd h hzero, fun _ => ⟨rfl, write_self t _ _⟩, hother _, rfl, rfl⟩

/-- What `Rotate` writes: `X` is `sub_root`, `Y` is `temp_node`, `P` is the child
    that changes sides and `Q` the parent. -/
theorem Rotate_heap {X Y P Q : ℕ} (hY : t.child d.other X = Y) (hP : t.child d Y = P) (hQ : t.parent X = Q)
    (hXY : X ≠ Y) (hXP : X ≠ P) (hYP : Y ≠ P) (hXQ : X ≠ Q) (hYQ : Y ≠ Q) (hQP : Q ≠ m_leaf → Q ≠ P) :
    (t.Rotate d X).heap X = { (t.heap X).setChild d.other P with parent := Y } ∧
      (t.Rotate d X).heap Y = RBNode.setChild { t.heap Y with parent := Q } d X ∧
      (P ≠ m_leaf → (t.Rotate d X).heap P = { t.heap P with parent := X }) ∧
      (∀ q, q ≠ X → q ≠ Y → (q = P → P = m_leaf) → (q = Q → Q = m_leaf) → (t.Rotate d X).heap q = t.heap q) ∧
      (Q = m_leaf → (t.Rotate d X).m_root = Y) ∧
      (Q ≠ m_leaf → (t.Rotate d X).m_root = t.m_root ∧
        (t.Rotate d X).heap Q = (t.heap Q).setChild (if X = t.left Q then .left else .right) Y) ∧
      (t.Rotate d X).next = t.next ∧ (t.Rotate d X).node_num = t.node_num := by
  -- the state after each statement
  obtain ⟨t1, h1⟩ : ∃ t1, t1 = t.setChild d.other X P := ⟨_, rfl⟩
  have hself1 : t1.heap X = (t.heap X).setChild d.other P := by
    rw [h1]
    exact write_self t X _
  have hother1 : ∀ q, q ≠ X → t1.heap q = t.heap q := by
    intro q hq
    rw [h1]
    exact write_of_ne t _ hq
  have hchild1 : t1.child d Y = P := by
    unfold QRedBlackTree.child at hP ⊢
    rw [hother1 Y hXY.symm, hP]
  obtain ⟨t2, h2⟩ : ∃ t2, t2 = if P ≠ m_leaf then t1.setParent P X else t1 := ⟨_, rfl⟩
  have hself2 : P ≠ m_leaf → t2.heap P = { t.heap P with parent := X } := by
    intro hne
    rw [h2, if_pos hne, ← hother1 P hXP.symm]
    exact write_self t1 P _
  have hother2 : ∀ q, (q = P → P = m_leaf) → t2.heap q = t1.heap q := by
    intro q hq
    rw [h2]
    split_ifs with hne
    · exact write_of_ne t1 _ (fun heq => hne (hq heq))
    · rfl
  have hparent2 : t2.parent X = Q := by
    unfold QRedBlackTree.parent at hQ ⊢
    rw [hother2 X (fun heq => absurd heq hXP), hself1, ← hQ]
    cases d <;> rfl
  obtain ⟨t3, h3⟩ : ∃ t3, t3 = t2.setParent Y Q := ⟨_, rfl⟩
  have hself3 : t3.heap Y = { t.heap Y with parent := Q } := by
    rw [h3, ← hother1 Y hXY.symm, ← hother2 Y (fun heq => absurd heq hYP)]
    exact write_self t2 Y _
  have hother3 : ∀ q, q ≠ Y → t3.heap q = t2.heap q := by
    intro q hq
    rw [h3]
    exact write_of_ne t2 _ hq
  have hparent3 : t3.parent X = Q := by
    unfold QRedBlackTree.parent at hparent2 ⊢
    rw [hother3 X hXY, hparent2]
  obtain ⟨t4, h4⟩ : ∃ t4, t4 = t3.replace X Y := ⟨_, rfl⟩
  obtain ⟨hroot4, hup4, hother4, hnext4, hnum4⟩ := replace_heap t3 X Y
  rw [← h4, hparent3] at hroot4 hup4 hother4
  rw [← h4] at hnext4 hnum4
  obtain ⟨t5, h5⟩ : ∃ t5, t5 = t4.setChild d Y X := ⟨_, rfl⟩
  have hother5 : ∀ q, q ≠ Y → t5.heap q = t4.heap q := by
    intro q hq
    rw [h5]
    exact write_of_ne t4 _ hq
  have hrotate : t.Rotate d X = t5.setParent X Y := by
    unfold QRedBlackTree.Rotate
    dsimp only
    rw [hY, hP, ← h1, hchild1, ← h2, hparent2, ← h3, ← h4, ← h5]
  have hother6 : ∀ q, q ≠ X → (t.Rotate d X).heap q = t5.heap q := by
    intro q hq
    rw [hrotate]
    exact write_of_ne t5 _ hq
  have hroot6 : (t.Rotate d X).m_root = t4.m_root := by
    rw [hrotate, h5]
    rfl
  have hroot3 : t3.m_root = t.m_root ∧ t3.next = t.next ∧ t3.node_num = t.node_num := by
    rw [h3, h2, h1]
    split_ifs <;> exact ⟨rfl, rfl, rfl⟩
  refine ⟨?_, ?_, ?_, ?_, ?_, ?_, ?_, ?_⟩
  · have hkeep : t5.heap X = (t.heap X).setChild d.other P := by
      rw [hother5 X hXY, hother4 X (fun heq => absurd heq hXQ), hother3 X hXY, hother2 X (fun heq => absurd heq hXP),
        hself1]
    rw [hrotate, ← hkeep]
    exact write_self t5 X _
  · rw [hother6 Y hXY.symm, h5, ← hself3, ← hother4 Y (fun heq => absurd heq hYQ)]
    exact write_self t4 Y _
  · intro hne
    rw [hother6 P hXP.symm, hother5 P hYP.symm, hother4 P (fun heq => absurd heq.symm (hQP (heq ▸ hne))),
      hother3 P hYP.symm, hself2 hne]
  · intro q hX hY' hP' hQ'
    rw [hother6 q hX, hother5 q hY', hother4 q hQ', hother3 q hY', hother2 q hP', hother1 q hX]
  · intro hzero
    rw [hroot6]
    exact hroot4 hzero
  · intro hne
    have hQheap : t3.heap Q = t.heap Q := by
      rw [hother3 Q hYQ.symm, hother2 Q (fun heq => absurd heq (hQP hne)), hother1 Q hXQ.symm]
    have hleft : t3.left Q = t.left Q := congrArg RBNode.left hQheap
    obtain ⟨hsame, hwritten⟩ := hup4 hne
    rw [hQheap, hleft] at hwritten
    rw [hroot6, hother6 Q hXQ.symm, hother5 Q hYQ.symm]
    exact ⟨hsame.trans hroot3.1, hwritten⟩
  · rw [hrotate, h5]
    exact hnext4.trans hroot3.2.1
  · rw [hrotate, h5]
    exact hnum4.trans hroot3.2.2

/-- Another parent. -/
@[simp] theorem parent_cell (d : Side) (c : NODE_COLOR) (x : Label K V) (q p p' r : ℕ) :
    { cell d c x q p p' with parent := r } = cell d c x r p p' := by
  cases d <;> rfl

/-- The code finds the side of a child. -/
theorem Shape.side_eq (h : Shape t (plug (f :: U) s)) (hs : s ≠ leaf ∨ f.sib ≠ leaf) :
    (if ptr s = t.left f.label.addr then Side.left else Side.right) = f.side := by
  have hcell := Shape.cell (C := U) (d := f.side) h
  unfold QRedBlackTree.left
  rw [hcell]
  have hne := Shape.ptr_ne (C := U) (d := f.side) h hs
  cases hside : f.side with
  | left => exact if_pos rfl
  | right => exact if_neg hne

/-- Another parent, and nothing else. -/
theorem Holds.reparent {q' : ℕ} (hs : Holds h q s) (hnodup : (addrs s).Nodup)
    (hzero : ∀ y ∈ s.toList, y.addr ≠ m_leaf)
    (hroot : ptr s ≠ m_leaf → h' (ptr s) = { h (ptr s) with parent := q' })
    (hother : ∀ y ∈ s.toList, y.addr ≠ ptr s → h' y.addr = h y.addr) : Holds h' q' s := by
  cases s with
  | leaf => trivial
  | node c l x r =>
    obtain ⟨hx, hl, hr⟩ := hs
    obtain ⟨hnear, hfar, -⟩ := apart_join (d := .left) hnodup
    have hmem : x ∈ (node c l x r).toList := mem_append_right _ mem_cons_self
    refine ⟨?_, hl.congr ?_, hr.congr ?_⟩
    · have hwritten : h' x.addr = { h x.addr with parent := q' } := hroot (hzero x hmem)
      rw [hwritten, hx, parent_cell]
    · intro y hy
      exact hother y (mem_append_left _ hy) (hnear y hy)
    · intro y hy
      exact hother y (mem_append_right _ (mem_cons_of_mem x hy)) (hfar y hy)

/-- **A ROTATION** turns the tree at its place. -/
theorem Shape.rotate {c' : NODE_COLOR} {e : RBTree (Label K V)}
    (h : Shape t (plug C (join d c x a (join d c' y b e)))) :
    Shape (t.Rotate d x.addr) (plug C (join d c' y (join d c x a b) e)) ∧ Same t (t.Rotate d x.addr) := by
  have hbelow : Shape t (plug (⟨d.other, c, x, a⟩ :: C) (join d c' y b e)) := by
    show Shape t (plug C (join d.other c x (join d c' y b e) a))
    rw [join_other]
    exact h
  have hcellx := h.cell
  have hcelly := hbelow.cell
  rw [ptr_join] at hcellx
  obtain ⟨hs, habove⟩ := (holds_plug C).mp h.holds
  obtain ⟨-, hholdsa, hholdsy⟩ := holds_join.mp hs
  obtain ⟨-, hholdsb, hholdse⟩ := holds_join.mp hholdsy
  -- the places that are written are different
  obtain ⟨hnodup, -, hapart⟩ := apart_of_nodup h.nodup
  obtain ⟨hax, hyx, hay, -, hnodupy⟩ := apart_join hnodup
  obtain ⟨hby, hey, hbe, hnodupb, -⟩ := apart_join hnodupy
  have hmemy : y ∈ (join d c' y b e).toList := mem_join.mpr (Or.inl rfl)
  have hmemb : ∀ z ∈ b.toList, z ∈ (join d c' y b e).toList := fun z hz => mem_join.mpr (Or.inr (Or.inl hz))
  have hmeme : ∀ z ∈ e.toList, z ∈ (join d c' y b e).toList := fun z hz => mem_join.mpr (Or.inr (Or.inr hz))
  have hx0 : x.addr ≠ m_leaf := h.addr_ne (mem_plug.mpr (Or.inl (mem_join.mpr (Or.inl rfl))))
  have hy0 : y.addr ≠ m_leaf := h.addr_ne (mem_plug.mpr (Or.inl (mem_join.mpr (Or.inr (Or.inr hmemy)))))
  have hXP : x.addr ≠ ptr b := ne_ptr hx0 (fun z hz => (hyx z (hmemb z hz)).symm)
  have hYP : y.addr ≠ ptr b := ne_ptr hy0 (fun z hz => (hby z hz).symm)
  have hXQ : x.addr ≠ top C := h.ne_top (mem_join.mpr (Or.inl rfl))
  have hYQ : y.addr ≠ top C := h.ne_top (mem_join.mpr (Or.inr (Or.inr hmemy)))
  have hQP : top C ≠ m_leaf → top C ≠ ptr b :=
    h.top_ne_ptr (fun z hz => mem_join.mpr (Or.inr (Or.inr (hmemb z hz))))
  obtain ⟨hX, hY, hP, hother, hroot, hQ, hnext, hnum⟩ := Rotate_heap (d := d) (X := x.addr) (Y := y.addr) (P := ptr b)
    (Q := top C) (t := t) (by unfold QRedBlackTree.child; rw [hcellx, cell_child_other])
    (by unfold QRedBlackTree.child; rw [hcelly, cell_child]) (by unfold QRedBlackTree.parent; rw [hcellx, cell_parent])
    (hyx y hmemy).symm hXP hYP hXQ hYQ hQP
  have hleaf : (t.Rotate d x.addr).heap m_leaf = t.heap m_leaf :=
    hother m_leaf hx0.symm hy0.symm (fun heq => heq.symm) (fun heq => heq.symm)
  have hlist : (plug C (join d c' y (join d c x a b) e)).toList = (plug C (join d c x a (join d c' y b e))).toList :=
    toList_plug_congr C (rotate_toList d c c' c' c x y a b e).symm
  have haddrs : addrs (plug C (join d c' y (join d c x a b) e)) = addrs (plug C (join d c x a (join d c' y b e))) :=
    congrArg (List.map Label.addr) hlist
  -- a node of `a`, `b` or `e` is none of the four, but for the root of `b`
  have hkeep : ∀ z ∈ (join d c x a (join d c' y b e)).toList, z.addr ≠ x.addr → z.addr ≠ y.addr → z.addr ≠ ptr b →
      (t.Rotate d x.addr).heap z.addr = t.heap z.addr := by
    intro z hz hzx hzy hzb
    exact hother z.addr hzx hzy (fun heq => absurd heq hzb) (fun heq => absurd heq (h.ne_top hz))
  have hsame : Same t (t.Rotate d x.addr) := ⟨hnext, hnum, hleaf⟩
  refine ⟨h.place_same haddrs hsame ?_ ?_ ?_, hsame⟩
  · refine holds_join.mpr ⟨?_, holds_join.mpr ⟨?_, ?_, ?_⟩, ?_⟩
    · rw [hY, hcelly, parent_cell, setChild_cell, ptr_join]
    · rw [hX, hcellx, setChild_cell_other, parent_cell]
    · refine hholdsa.congr (fun z hz => ?_)
      have hmem : z ∈ (join d c x a (join d c' y b e)).toList := mem_join.mpr (Or.inr (Or.inl hz))
      exact hkeep z hmem (hax z hz) (hay z hz y hmemy)
        (ne_ptr (h.addr_ne (mem_plug.mpr (Or.inl hmem))) (fun w hw => hay z hz w (hmemb w hw)))
    · refine hholdsb.reparent hnodupb ?_ hP ?_
      · intro z hz
        exact h.addr_ne (mem_plug.mpr (Or.inl (mem_join.mpr (Or.inr (Or.inr (hmemb z hz))))))
      · intro z hz hzb
        exact hkeep z (mem_join.mpr (Or.inr (Or.inr (hmemb z hz)))) (hyx z (hmemb z hz)) (hby z hz) hzb
    · refine hholdse.congr (fun z hz => ?_)
      have hmem : z ∈ (join d c x a (join d c' y b e)).toList := mem_join.mpr (Or.inr (Or.inr (hmeme z hz)))
      exact hkeep z hmem (hyx z (hmeme z hz)) (hey z hz)
        (ne_ptr (h.addr_ne (mem_plug.mpr (Or.inl hmem))) (fun w hw => (hbe w hw z hz).symm))
  · rw [ptr_join]
    refine h.placed hroot hQ ?_
    intro f U hC
    rw [hC] at h ⊢
    have hside := h.side_eq (Or.inl (by cases d <;> simp [join]))
    rw [ptr_join] at hside
    exact hside
  · intro z hz hzq
    have hz0 : z.addr ≠ m_leaf := h.addr_ne (mem_plug.mpr (Or.inr hz))
    have hne : ∀ w ∈ (join d c x a (join d c' y b e)).toList, z.addr ≠ w.addr :=
      fun w hw heq => hapart w hw z hz heq.symm
    refine hother z.addr (hne x (mem_join.mpr (Or.inl rfl))) (hne y (mem_join.mpr (Or.inr (Or.inr hmemy)))) ?_ ?_
    · intro heq
      exact absurd heq (ne_ptr hz0 (fun w hw => hne w (mem_join.mpr (Or.inr (Or.inr (hmemb w hw))))))
    · intro heq
      exact absurd heq hzq

/-! ## §5. Colors and contents. -/

/-- The same nodes below, the same nodes. -/
theorem addrs_plug_congr (C : Context (Label K V)) (h : addrs s' = addrs s) :
    addrs (plug C s') = addrs (plug C s) := by
  unfold addrs at h ⊢
  rw [toList_plug, toList_plug, map_append, map_append, map_append, map_append, h]

/-- **ANOTHER COLOR OR OTHER CONTENTS** of one node. -/
theorem Shape.write {e : NODE_COLOR} {z : Label K V} (h : Shape t (plug C (join d c x a b)))
    {f : RBNode K V → RBNode K V}
    (hf : f (RedBlackTree.cell d c x (top C) (ptr a) (ptr b)) = RedBlackTree.cell d e z (top C) (ptr a) (ptr b))
    (haddr : z.addr = x.addr) :
    Shape (t.write x.addr f) (plug C (join d e z a b)) ∧ Same t (t.write x.addr f) := by
  have hcell := h.cell
  have hx0 : x.addr ≠ m_leaf := h.addr_ne (mem_plug.mpr (Or.inl (mem_join.mpr (Or.inl rfl))))
  obtain ⟨hs, habove⟩ := (holds_plug C).mp h.holds
  obtain ⟨-, ha, hb⟩ := holds_join.mp hs
  obtain ⟨hnodup, -, hapart⟩ := apart_of_nodup h.nodup
  obtain ⟨hax, hbx, -, -, -⟩ := apart_join hnodup
  have hctx : ∀ y ∈ above C, (t.write x.addr f).heap y.addr = t.heap y.addr :=
    fun y hy => write_of_ne t f (hapart x (mem_join.mpr (Or.inl rfl)) y hy).symm
  have haddrs : addrs (plug C (join d e z a b)) = addrs (plug C (join d c x a b)) := by
    refine addrs_plug_congr C ?_
    cases d with
    | left | right => simp [addrs, join, toList, haddr]
  have hleaf : (t.write x.addr f).heap m_leaf = t.heap m_leaf := write_of_ne t f hx0.symm
  have hsame : Same t (t.write x.addr f) := ⟨rfl, rfl, hleaf⟩
  refine ⟨h.place_same haddrs hsame ?_ ?_ (fun y hy _ => hctx y hy), hsame⟩
  · refine holds_join.mpr ⟨?_, ?_, ?_⟩
    · rw [haddr, write_self, hcell, hf]
    · rw [haddr]
      exact ha.congr (fun y hy => write_of_ne t f (hax y hy))
    · rw [haddr]
      exact hb.congr (fun y hy => write_of_ne t f (hbx y hy))
  · rw [ptr_join, haddr]
    cases C with
    | nil => exact h.root.trans (ptr_join _ _ _ _ _)
    | cons g U =>
      refine ⟨rfl, ?_⟩
      rw [hctx g.label (mem_above_cons.mpr (Or.inl rfl)), habove.1, ptr_join]

/-- The root of a subtree is painted. -/
theorem Shape.setColor (h : Shape t (plug C (join d c x a b))) (c' : NODE_COLOR) :
    Shape (t.setColor x.addr c') (plug C (join d c' x a b)) ∧ Same t (t.setColor x.addr c') :=
  h.write (by cases d <;> rfl) rfl

/-- The root, or the sentinel, becomes black. -/
theorem Shape.setColor_black (h : Shape t (plug C s)) :
    Shape (t.setColor (ptr s) BLACK) (plug C (s.paint BLACK)) ∧ Same t (t.setColor (ptr s) BLACK) := by
  cases s with
  | leaf =>
    have hsame : t.setColor m_leaf BLACK = t := by
      unfold QRedBlackTree.setColor QRedBlackTree.write
      have hheap : (fun q => if q = m_leaf then { t.heap q with color := BLACK } else t.heap q) = t.heap := by
        funext q
        split_ifs with hq
        · have hblack : (t.heap m_leaf).color = BLACK := h.leaf_black
          rw [hq, ← hblack]
        · rfl
      rw [hheap]
    show Shape (t.setColor m_leaf BLACK) (plug C leaf) ∧ Same t (t.setColor m_leaf BLACK)
    rw [hsame]
    exact ⟨h, rfl, rfl, rfl⟩
  | node c l x r => exact Shape.setColor (d := .left) h BLACK

/-! ## §6. Nodes that come and go. -/

/-- What `attach` writes besides the new node. -/
theorem attach_heap [LinearOrder K] (t : QRedBlackTree K V) (key : K) (value : V) {pre_node : ℕ}
    (hne : pre_node ≠ t.next) : (t.attach key value pre_node).heap t.next =
        ⟨RED, key, value, (t.heap t.next).count, pre_node, m_leaf, m_leaf⟩ ∧
      (∀ q, q ≠ t.next → (q = pre_node → pre_node = m_leaf) → (t.attach key value pre_node).heap q = t.heap q) ∧
      (pre_node = m_leaf → (t.attach key value pre_node).m_root = t.next) ∧
      (pre_node ≠ m_leaf → (t.attach key value pre_node).m_root = t.m_root ∧
        (t.attach key value pre_node).heap pre_node =
          (t.heap pre_node).setChild (if key < (t.heap pre_node).key then .left else .right) t.next) ∧
      (t.attach key value pre_node).next = t.next + 1 ∧ (t.attach key value pre_node).node_num = t.node_num := by
  -- the new node has its key and its parent
  obtain ⟨t1, h1⟩ : ∃ t1, t1 = QRedBlackTree.write { t with next := t.next + 1 } t.next
      (fun n => { n with key := key, value := value, parent := pre_node }) := ⟨_, rfl⟩
  have hself1 : t1.heap t.next = { t.heap t.next with key := key, value := value, parent := pre_node } := by
    rw [h1]
    exact write_self _ _ _
  have hother1 : ∀ q, q ≠ t.next → t1.heap q = t.heap q := by
    intro q hq
    rw [h1]
    exact write_of_ne _ _ hq
  have hrest1 : t1.m_root = t.m_root ∧ t1.next = t.next + 1 ∧ t1.node_num = t.node_num := by
    rw [h1]
    exact ⟨rfl, rfl, rfl⟩
  obtain ⟨t2, h2⟩ : ∃ t2, t2 = if pre_node = m_leaf then { t1 with m_root := t.next }
      else if key < (t1.heap pre_node).key then t1.setChild .left pre_node t.next
      else t1.setChild .right pre_node t.next := ⟨_, rfl⟩
  have hattach : t.attach key value pre_node =
      t2.write t.next (fun n => { n with left := m_leaf, right := m_leaf, color := RED }) := by
    unfold QRedBlackTree.attach
    dsimp only
    rw [← h1, ← h2]
  have hother2 : ∀ q, (q = pre_node → pre_node = m_leaf) → t2.heap q = t1.heap q := by
    intro q hq
    rw [h2]
    split_ifs with hzero
    · rfl
    · exact write_of_ne _ _ (fun heq => hzero (hq heq))
    · exact write_of_ne _ _ (fun heq => hzero (hq heq))
  have hother3 : ∀ q, q ≠ t.next → (t.attach key value pre_node).heap q = t2.heap q := by
    intro q hq
    rw [hattach]
    exact write_of_ne _ _ hq
  have hrest2 : t2.next = t.next + 1 ∧ t2.node_num = t.node_num := by
    rw [h2]
    split_ifs <;> exact hrest1.2
  refine ⟨?_, ?_, ?_, ?_, ?_, ?_⟩
  · rw [hattach, write_self, hother2 t.next (fun heq => absurd heq.symm hne), hself1]
  · intro q hq hpre
    rw [hother3 q hq, hother2 q hpre, hother1 q hq]
  · intro hzero
    rw [hattach, h2, if_pos hzero]
    rfl
  · intro hzero
    rw [hother3 pre_node hne, hattach, h2, if_neg hzero, ← hother1 pre_node hne]
    split_ifs
    · exact ⟨hrest1.1, write_self _ _ _⟩
    · exact ⟨hrest1.1, write_self _ _ _⟩
  · rw [hattach]
    exact hrest2.1
  · rw [hattach]
    exact hrest2.2

/-- **A NEW NODE** below `pre_node`. -/
theorem Shape.attach [LinearOrder K] (h : Shape t (plug C leaf)) (key : K) (value : V)
    (hside : ∀ f U, C = f :: U → (key < f.label.key ↔ f.side = .left)) : Shape (t.attach key value (top C))
        (plug C (node RED leaf ⟨t.next, key, value, (t.heap t.next).count⟩ leaf)) ∧
      (t.attach key value (top C)).node_num = t.node_num := by
  have hold : ∀ y ∈ (plug C leaf).toList, y.addr < t.next := fun y hy => h.old y.addr (mem_map_of_mem hy)
  have hnew : ∀ y ∈ above C, y.addr ≠ t.next := fun y hy => Nat.ne_of_lt (hold y (mem_plug.mpr (Or.inr hy)))
  have hfresh : m_leaf ≠ t.next := Nat.ne_of_lt h.fresh
  have htop : top C ≠ t.next := by
    by_cases hzero : top C = m_leaf
    · rw [hzero]
      exact hfresh
    · obtain ⟨y, hy, haddr⟩ := top_mem hzero
      rw [← haddr]
      exact hnew y hy
  obtain ⟨hself, hother, hroot, hpre, hnext, hnum⟩ := attach_heap t key value htop
  have hperm : (addrs (plug C (node RED leaf ⟨t.next, key, value, (t.heap t.next).count⟩ leaf))).Perm
      (t.next :: addrs (plug C leaf)) := by
    unfold addrs
    rw [toList_plug, toList_plug]
    simp only [toList, nil_append, map_append, map_cons, cons_append]
    exact perm_middle
  have hmem : ∀ p, p ∈ addrs (plug C (node RED leaf ⟨t.next, key, value, (t.heap t.next).count⟩ leaf)) ↔
      p = t.next ∨ p ∈ addrs (plug C leaf) := by
    intro p
    rw [hperm.mem_iff, mem_cons]
  refine ⟨h.place ⟨hself, trivial, trivial⟩ ?_ ?_ ?_ ?_ ?_ ?_ ?_, hnum⟩
  · refine h.placed hroot hpre ?_
    intro f U hC
    have hplace := hside f U hC
    rw [hC] at h ⊢
    have hcell := Shape.cell (C := U) (d := f.side) h
    rw [show top (f :: U) = f.label.addr from rfl, hcell, cell_key]
    split_ifs with hlt
    · exact (hplace.mp hlt).symm
    · cases hf : f.side with
      | left => exact absurd (hplace.mpr hf) hlt
      | right => rfl
  · intro y hy hne
    exact hother y.addr (hnew y hy) (fun heq => absurd heq hne)
  · show ((t.attach key value (top C)).heap m_leaf).color = BLACK
    rw [hother m_leaf hfresh (fun heq => heq.symm)]
    exact h.leaf_black
  · rw [hperm.nodup_iff, nodup_cons]
    exact ⟨fun hin => absurd (h.old _ hin) (Nat.lt_irrefl _), h.nodup⟩
  · rw [hmem]
    rintro (heq | hin)
    · exact hfresh heq
    · exact h.nonzero hin
  · intro p hp
    rw [hnext]
    obtain heq | hin := (hmem p).mp hp
    · rw [heq]
      exact Nat.lt_succ_self _
    · exact Nat.lt_succ_of_lt (h.old p hin)
  · rw [hnext]
    exact Nat.succ_pos _

/-- **A NODE GOES** and its only child takes its place; the child, or the sentinel,
    gets its parent. -/
theorem Shape.splice (h : Shape t (plug C (join d c x a leaf))) :
    Shape ((t.setParent (ptr a) (top C)).replace x.addr (ptr a)) (plug C a) ∧
      ((t.setParent (ptr a) (top C)).replace x.addr (ptr a)).parent (ptr a) = top C ∧
      ((t.setParent (ptr a) (top C)).replace x.addr (ptr a)).next = t.next ∧
      ((t.setParent (ptr a) (top C)).replace x.addr (ptr a)).node_num = t.node_num := by
  have hcell := h.cell
  obtain ⟨hs, -⟩ := (holds_plug C).mp h.holds
  obtain ⟨-, hholds, -⟩ := holds_join.mp hs
  obtain ⟨hnodup, -, hapart⟩ := apart_of_nodup h.nodup
  obtain ⟨hax, -, -, hnodupa, -⟩ := apart_join hnodup
  have hmema : ∀ z ∈ a.toList, z ∈ (join d c x a leaf).toList := fun z hz => mem_join.mpr (Or.inr (Or.inl hz))
  have ha0 : ∀ z ∈ a.toList, z.addr ≠ m_leaf := fun z hz => h.addr_ne (mem_plug.mpr (Or.inl (hmema z hz)))
  have hx0 : x.addr ≠ m_leaf := h.addr_ne (mem_plug.mpr (Or.inl (mem_join.mpr (Or.inl rfl))))
  have hXP : x.addr ≠ ptr a := ne_ptr hx0 (fun z hz => (hax z hz).symm)
  have habove : ∀ y ∈ above C, y.addr ≠ ptr a := fun y hy =>
    ne_ptr (h.addr_ne (mem_plug.mpr (Or.inr hy))) (fun z hz => (hapart z (hmema z hz) y hy).symm)
  obtain ⟨t1, h1⟩ : ∃ t1, t1 = t.setParent (ptr a) (top C) := ⟨_, rfl⟩
  have hself1 : t1.heap (ptr a) = { t.heap (ptr a) with parent := top C } := by
    rw [h1]
    exact write_self t _ _
  have hother1 : ∀ q, q ≠ ptr a → t1.heap q = t.heap q := by
    intro q hq
    rw [h1]
    exact write_of_ne t _ hq
  have hparent1 : t1.parent x.addr = top C := by
    unfold QRedBlackTree.parent
    rw [hother1 _ hXP, hcell, cell_parent]
  obtain ⟨hroot, hup, hother, hnext, hnum⟩ := replace_heap t1 x.addr (ptr a)
  rw [hparent1] at hroot hup hother
  have htop : top C = ptr a → top C = m_leaf := fun heq => by_contra (fun hne => h.top_ne_ptr hmema hne heq)
  -- the pointer to `x`, at the root or in the parent
  have hput : Placed t (t1.replace x.addr (ptr a)) (ptr a) C := by
    refine h.placed (d := if x.addr = t.left (top C) then .left else .right) hroot ?_ ?_
    · intro hne
      have hkept : t1.heap (top C) = t.heap (top C) := hother1 _ (fun heq => hne (htop heq))
      have hleft : t1.left (top C) = t.left (top C) := congrArg RBNode.left hkept
      obtain ⟨hsame, hwritten⟩ := hup hne
      rw [hkept, hleft] at hwritten
      exact ⟨hsame.trans (by rw [h1]; rfl), hwritten⟩
    · intro f U hC
      rw [hC] at h ⊢
      have hside := h.side_eq (Or.inl (by cases d <;> simp [join]))
      rw [ptr_join] at hside
      exact hside
  have hcount : t1.next = t.next ∧ t1.node_num = t.node_num := by
    rw [h1]
    exact ⟨rfl, rfl⟩
  rw [hcount.1] at hnext
  rw [hcount.2] at hnum
  have hptr : (t1.replace x.addr (ptr a)).heap (ptr a) = { t.heap (ptr a) with parent := top C } := by
    rw [hother _ (fun heq => htop heq.symm), hself1]
  have hsub : (addrs (plug C a)).Sublist (addrs (plug C (join d c x a leaf))) := by
    unfold addrs
    rw [toList_plug, toList_plug]
    refine List.Sublist.map _ ((List.Sublist.refl _).append (List.Sublist.append ?_ (List.Sublist.refl _)))
    cases d with
    | left => exact sublist_append_left _ _
    | right => exact sublist_cons_self _ _
  rw [← h1]
  refine ⟨h.place ?_ hput ?_ ?_ (h.nodup.sublist hsub) (fun hin => h.nonzero (hsub.subset hin))
    (fun p hp => hnext ▸ h.old p (hsub.subset hp)) (hnext ▸ h.fresh), ?_, hnext, hnum⟩
  · refine hholds.reparent hnodupa ha0 (fun _ => hptr) ?_
    intro y hy hne
    rw [hother _ (fun heq => absurd heq (h.ne_top (hmema y hy))), hother1 _ hne]
  · intro y hy hne
    rw [hother _ (fun heq => absurd heq hne), hother1 _ (habove y hy)]
  · show ((t1.replace x.addr (ptr a)).heap m_leaf).color = BLACK
    have hblack : (t.heap m_leaf).color = BLACK := h.leaf_black
    by_cases hzero : ptr a = m_leaf
    · have hcolor := congrArg RBNode.color hptr
      rw [hzero] at hcolor ⊢
      rw [hcolor]
      exact hblack
    · rw [hother _ (fun heq => heq.symm), hother1 _ (fun heq => hzero heq.symm)]
      exact hblack
  · unfold QRedBlackTree.parent
    rw [hptr]

end RedBlackTree

end KalavaPir.Common
