/-
  KalavaPir.Common.QRedBlackTree — the red-black tree (`common/qredblacktree.h`).

  The nodes are in a memory and linked by addresses; the sentinel `m_leaf` is a node
  like the others, at address 0.  What a new node has in its fields before they are
  written is what the memory had there: the constructor with a key and a value makes
  and drops another node by `RBNode();`.  The loops follow pointers, so they take
  fuel; `none` is a loop that did not end.

  Left out: `new` without memory (-1), `delete` of nodes, printing and `Destroy`.
-/
import Mathlib.Algebra.Order.Ring.Int
import KalavaPir.Framework.RedBlack

namespace KalavaPir.Common

namespace RedBlackTree

open KalavaPir.Framework KalavaPir.Framework.RedBlack

/-! ## §1. Nodes (qredblacktree.h:18–56). -/

/-- An `insert` is refused above it. -/
def MAX_TREE_SIZE : ℤ := 400000

/-- The colors of the nodes. -/
abbrev NODE_COLOR : Type := RedBlack.Color

open RedBlack.Color

/-- A node in memory. -/
structure RBNode (K V : Type) where
  color : NODE_COLOR
  key : K
  value : V
  count : ℤ
  parent : ℕ
  left : ℕ
  right : ℕ

/-- The child on one side. -/
def RBNode.child {K V : Type} (n : RBNode K V) : Side → ℕ
  | .left => n.left
  | .right => n.right

/-- Another child on one side. -/
def RBNode.setChild {K V : Type} (n : RBNode K V) (d : Side) (p : ℕ) : RBNode K V :=
  match d with
  | .left => { n with left := p }
  | .right => { n with right := p }

/-- `m_root`, `node_num`, and the address of the next new node. -/
structure QRedBlackTree (K V : Type) where
  heap : ℕ → RBNode K V
  m_root : ℕ
  node_num : ℤ
  next : ℕ

/-- The sentinel. -/
def m_leaf : ℕ := 0

variable {K V : Type}

namespace QRedBlackTree

/-- The members of a node. -/
def color (t : QRedBlackTree K V) (p : ℕ) : NODE_COLOR := (t.heap p).color
def parent (t : QRedBlackTree K V) (p : ℕ) : ℕ := (t.heap p).parent
def left (t : QRedBlackTree K V) (p : ℕ) : ℕ := (t.heap p).left
def right (t : QRedBlackTree K V) (p : ℕ) : ℕ := (t.heap p).right
def child (t : QRedBlackTree K V) (d : Side) (p : ℕ) : ℕ := (t.heap p).child d

/-- A change of one node. -/
def write (t : QRedBlackTree K V) (p : ℕ) (f : RBNode K V → RBNode K V) : QRedBlackTree K V :=
  { t with heap := fun q => if q = p then f (t.heap q) else t.heap q }

/-- A node is painted. -/
def setColor (t : QRedBlackTree K V) (p : ℕ) (c : NODE_COLOR) : QRedBlackTree K V :=
  t.write p (fun n => { n with color := c })

/-- A node gets another parent. -/
def setParent (t : QRedBlackTree K V) (p q : ℕ) : QRedBlackTree K V := t.write p (fun n => { n with parent := q })

/-- A node gets another child. -/
def setChild (t : QRedBlackTree K V) (d : Side) (p q : ℕ) : QRedBlackTree K V := t.write p (fun n => n.setChild d q)

/-- The constructor; the sentinel is in `memory`. -/
def new (memory : ℕ → RBNode K V) : QRedBlackTree K V where
  heap := fun q => if q = m_leaf then { memory q with color := BLACK, count := 1, parent := 0, left := 0, right := 0 }
    else memory q
  m_root := m_leaf
  node_num := 0
  next := 1

/-! ## §2. Rotations (qredblacktree.h:353–394). -/

/-- What was the child `sub_root` becomes `q`, at the root or below its parent. -/
def replace (t : QRedBlackTree K V) (sub_root q : ℕ) : QRedBlackTree K V :=
  if t.parent sub_root = m_leaf then { t with m_root := q }
  else if sub_root = t.left (t.parent sub_root) then t.setChild .left (t.parent sub_root) q
  else t.setChild .right (t.parent sub_root) q

/-- `LeftRotate`, and with the sides exchanged `RightRotate`. -/
def Rotate (d : Side) (t : QRedBlackTree K V) (sub_root : ℕ) : QRedBlackTree K V :=
  let temp_node := t.child d.other sub_root
  let t := t.setChild d.other sub_root (t.child d temp_node)
  let t := if t.child d temp_node ≠ m_leaf then t.setParent (t.child d temp_node) sub_root else t
  let t := t.setParent temp_node (t.parent sub_root)
  let t := t.replace sub_root temp_node
  let t := t.setChild d temp_node sub_root
  t.setParent sub_root temp_node

/-- The right child goes up. -/
def LeftRotate (t : QRedBlackTree K V) (sub_root : ℕ) : QRedBlackTree K V := t.Rotate .left sub_root

/-- The left child goes up. -/
def RightRotate (t : QRedBlackTree K V) (sub_root : ℕ) : QRedBlackTree K V := t.Rotate .right sub_root

/-! ## §3. `InsertFixup` (qredblacktree.h:246). -/

/-- The last rotation of `InsertFixup`, around the grandparent. -/
def InsertTurn (d : Side) (t : QRedBlackTree K V) (node : ℕ) : QRedBlackTree K V :=
  let t := t.setColor (t.parent node) BLACK
  let t := t.setColor (t.parent (t.parent node)) RED
  t.Rotate d (t.parent (t.parent node))

/-- The rotations of `InsertFixup`; the parent is the child on the side `d`. -/
def InsertRotate (d : Side) (t : QRedBlackTree K V) (node : ℕ) : QRedBlackTree K V :=
  if node = t.child d.other (t.parent node) then (t.Rotate d (t.parent node)).InsertTurn d.other (t.parent node)
  else t.InsertTurn d.other node

/-- A red node with a red parent goes up. -/
def InsertFixup : ℕ → QRedBlackTree K V → ℕ → Option (QRedBlackTree K V)
  | 0, _, _ => none
  | fuel + 1, t, node =>
    if t.color (t.parent node) = RED then
      let d : Side := if t.parent node = t.left (t.parent (t.parent node)) then .left else .right
      let uncle_node := t.child d.other (t.parent (t.parent node))
      if t.color uncle_node = RED then
        let t := t.setColor (t.parent node) BLACK
        let t := t.setColor uncle_node BLACK
        let node := t.parent uncle_node
        InsertFixup fuel (t.setColor node RED) node
      else
        let t := t.InsertRotate d node
        some (t.setColor t.m_root BLACK)
    else some (t.setColor t.m_root BLACK)

/-! ## §4. `DeleteFixup` (qredblacktree.h:294). -/

/-- One round of `DeleteFixup` for a left child. -/
def DeleteFixupLeft (t : QRedBlackTree K V) (node : ℕ) : QRedBlackTree K V × ℕ :=
  let brother := t.right (t.parent node)
  let t := if t.color brother = RED then
      let t := t.setColor brother BLACK
      let t := t.setColor (t.parent node) RED
      t.LeftRotate (t.parent node)
    else t
  let brother := t.right (t.parent node)
  if t.color (t.left brother) = BLACK ∧ t.color (t.right brother) = BLACK then
    (t.setColor brother RED, t.parent node)
  else
    let t := if t.color (t.right brother) = BLACK then
        let t := t.setColor brother RED
        let t := t.setColor (t.left brother) BLACK
        t.RightRotate brother
      else t
    let brother := t.right (t.parent node)
    let t := t.setColor brother (t.color (t.parent brother))
    let t := t.setColor (t.parent brother) BLACK
    let t := t.setColor (t.right brother) BLACK
    let t := t.LeftRotate (t.parent brother)
    (t, t.m_root)

/-- One round of `DeleteFixup` for a right child: `brother->color==BLACK`,
    `brother->color==RED` and `brother->right->color==BLACK` only compare. -/
def DeleteFixupRight (t : QRedBlackTree K V) (node : ℕ) : QRedBlackTree K V × ℕ :=
  let brother := t.left (t.parent node)
  let t := if t.color brother = RED then
      let t := t.setColor (t.parent node) RED
      t.RightRotate (t.parent node)
    else t
  let brother := t.left (t.parent node)
  if t.color (t.left brother) = BLACK ∧ t.color (t.right brother) = BLACK then
    (t.setColor brother RED, t.parent node)
  else
    let t := if t.color (t.left brother) = BLACK then t.LeftRotate brother else t
    let brother := t.left (t.parent node)
    let t := t.setColor brother (t.color (t.parent brother))
    let t := t.setColor (t.parent brother) BLACK
    let t := t.setColor (t.left brother) BLACK
    let t := t.RightRotate (t.parent brother)
    (t, t.m_root)

/-- One round of the loop. -/
def DeleteFixupRound (t : QRedBlackTree K V) (node : ℕ) : QRedBlackTree K V × ℕ :=
  if node = t.left (t.parent node) then t.DeleteFixupLeft node else t.DeleteFixupRight node

/-- A place that is one black node short goes up. -/
def DeleteFixup : ℕ → QRedBlackTree K V → ℕ → Option (QRedBlackTree K V)
  | 0, _, _ => none
  | fuel + 1, t, node =>
    if node ≠ t.m_root ∧ t.color node = BLACK then
      DeleteFixup fuel (t.DeleteFixupRound node).1 (t.DeleteFixupRound node).2
    else some (t.setColor node BLACK)

/-- A round of `DeleteFixup` compares where it should make the brother black: a right
    child with a red brother. -/
def Slips (t : QRedBlackTree K V) (node : ℕ) : Bool :=
  let brother := t.left (t.parent node)
  decide (node ≠ brother ∧ t.color brother = RED)

/-- No round does so. -/
def SlipFree : ℕ → QRedBlackTree K V → ℕ → Bool
  | 0, _, _ => true
  | fuel + 1, t, node =>
    if node ≠ t.m_root ∧ t.color node = BLACK then
      !t.Slips node && SlipFree fuel (t.DeleteFixupRound node).1 (t.DeleteFixupRound node).2
    else true

/-! ## §5. `insert`, `remove`, `search` (qredblacktree.h:91–223). -/

variable [LinearOrder K]

/-- The way down, as all three have it: `cur_node` and `pre_node` when it ends. -/
def locate (t : QRedBlackTree K V) (key : K) : ℕ → ℕ → ℕ → Option (ℕ × ℕ)
  | 0, _, _ => none
  | fuel + 1, cur_node, pre_node =>
    if cur_node = m_leaf then some (cur_node, pre_node)
    else if (t.heap cur_node).key = key then some (cur_node, cur_node)
    else if key < (t.heap cur_node).key then t.locate key fuel (t.left cur_node) cur_node
    else t.locate key fuel (t.right cur_node) cur_node

/-- The new node below `pre_node`, before `InsertFixup`. -/
def attach (t : QRedBlackTree K V) (key : K) (value : V) (pre_node : ℕ) : QRedBlackTree K V :=
  let new_node := t.next
  let t := { t with next := t.next + 1 }
  let t := t.write new_node (fun n => { n with key := key, value := value, parent := pre_node })
  let t := if pre_node = m_leaf then { t with m_root := new_node }
    else if key < (t.heap pre_node).key then t.setChild .left pre_node new_node
    else t.setChild .right pre_node new_node
  t.write new_node (fun n => { n with left := m_leaf, right := m_leaf, color := RED })

/-- A new key, or what becomes of a known one. -/
def insert (fuel : ℕ) (t : QRedBlackTree K V) (key : K) (value : V) (cover_flag count_flag : Bool) :
    Option (QRedBlackTree K V × ℤ) :=
  if MAX_TREE_SIZE < t.node_num then some (t, -10)
  else
    match t.locate key fuel t.m_root m_leaf with
    | none => none
    | some (cur_node, pre_node) =>
      if cur_node ≠ m_leaf then
        if cover_flag then some (t.write cur_node (fun n => { n with value := value }), 1)
        else if count_flag then some (t.write cur_node (fun n => { n with count := n.count + 1 }), 1)
        else some (t, 1)
      else
        match (t.attach key value pre_node).InsertFixup fuel t.next with
        | none => none
        | some t => some ({ t with node_num := t.node_num + 1 }, 0)

/-- The successor: from `del_node` to the left as long as it goes. -/
def leftmost (t : QRedBlackTree K V) : ℕ → ℕ → Option ℕ
  | 0, _ => none
  | fuel + 1, del_node => if t.left del_node ≠ m_leaf then t.leftmost fuel (t.left del_node) else some del_node

/-- `del_node` of `remove`. -/
def delNode (fuel : ℕ) (t : QRedBlackTree K V) (node : ℕ) : Option ℕ :=
  if t.left node = m_leaf ∨ t.right node = m_leaf then some node else t.leftmost fuel (t.right node)

/-- `cur_node` of `remove`. -/
def curNode (t : QRedBlackTree K V) (del_node : ℕ) : ℕ :=
  if t.left del_node ≠ m_leaf then t.left del_node else t.right del_node

/-- `del_node` is taken out, and its key and value go to `node`. -/
def unlink (t : QRedBlackTree K V) (node del_node : ℕ) : QRedBlackTree K V :=
  let cur_node := t.curNode del_node
  let t := t.setParent cur_node (t.parent del_node)
  let t := t.replace del_node cur_node
  if del_node ≠ node then
    t.write node (fun n => { n with key := (t.heap del_node).key, value := (t.heap del_node).value })
  else t

/-- A key goes, or one of its references. -/
def remove (fuel : ℕ) (t : QRedBlackTree K V) (key : K) (count_flag : Bool) : Option (QRedBlackTree K V × ℤ) :=
  match t.locate key fuel t.m_root m_leaf with
  | none => none
  | some (node, _) =>
    if node = m_leaf then some (t, 1)
    else
      let t := if count_flag then t.write node (fun n => { n with count := n.count - 1 }) else t
      if count_flag ∧ 0 < (t.heap node).count then some (t, 2)
      else
        match t.delNode fuel node with
        | none => none
        | some del_node =>
          match (if t.color del_node = BLACK then (t.unlink node del_node).DeleteFixup fuel (t.curNode del_node)
            else some (t.unlink node del_node)) with
          | none => none
          | some t => some ({ t with node_num := t.node_num - 1 }, 0)

/-- The `DeleteFixup` of `remove`, if there is one, finds no red brother of a right
    child. -/
def removeSlipFree (fuel : ℕ) (t : QRedBlackTree K V) (key : K) : Bool :=
  match t.locate key fuel t.m_root m_leaf with
  | none => true
  | some (node, _) =>
    match t.delNode fuel node with
    | none => true
    | some del_node =>
      if node ≠ m_leaf ∧ t.color del_node = BLACK then
        SlipFree fuel (t.unlink node del_node) (t.curNode del_node)
      else true

/-- What `search` returns, and `_value` if it was written. -/
def search (fuel : ℕ) (t : QRedBlackTree K V) (key : K) : Option (ℤ × Option V) :=
  match t.locate key fuel t.m_root m_leaf with
  | none => none
  | some (node, _) => if node = m_leaf then some (-1, none) else some (0, some (t.heap node).value)

/-- The number of keys. -/
def size (t : QRedBlackTree K V) : ℤ := t.node_num

end QRedBlackTree

/-! ## §6. Histories. -/

/-- The calls without counters. -/
inductive Call (K V : Type) where
  | insert (key : K) (value : V) (cover_flag : Bool)
  | remove (key : K)

/-- A call with `count_flag` false. -/
def Call.run [LinearOrder K] (fuel : ℕ) (t : QRedBlackTree K V) : Call K V → Option (QRedBlackTree K V × ℤ)
  | .insert key value cover_flag => t.insert fuel key value cover_flag false
  | .remove key => t.remove fuel key false

/-- The tree after the calls, and what they returned. -/
def run [LinearOrder K] (fuel : ℕ) : QRedBlackTree K V → List (Call K V) → Option (QRedBlackTree K V × List ℤ)
  | t, [] => some (t, [])
  | t, call :: calls =>
    match call.run fuel t with
    | none => none
    | some (t, r) =>
      match run fuel t calls with
      | none => none
      | some (t, rs) => some (t, r :: rs)

/-- No `remove` of the history finds a red brother of a right child. -/
def Clean [LinearOrder K] (fuel : ℕ) : QRedBlackTree K V → List (Call K V) → Bool
  | _, [] => true
  | t, call :: calls =>
    (match call with
      | .insert _ _ _ => true
      | .remove key => t.removeSlipFree fuel key) &&
    match call.run fuel t with
    | none => true
    | some (t, _) => Clean fuel t calls

end RedBlackTree

end KalavaPir.Common
