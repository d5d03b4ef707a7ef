/-
  KalavaPir.Common.QList — the ring of nodes of `common/qlist.h`.

  The nodes are made with `new` and freed with `delete`; to read a node that was
  freed is undefined, as are a failed `Q_ASSERT` and an overflow of `size_`.  The
  sentinel `first_` is a node of the ring, and the cursor `current_` may rest on it.
-/
import Mathlib.Data.List.InsertIdx
import KalavaPir.Framework.Histories
import KalavaPir.Framework.NodeStore
import KalavaPir.Framework.Ring
import KalavaPir.Common.Int32

namespace KalavaPir.Common

open KalavaPir.Framework List Option Function AList

/-! ## §1. The list and its calls (qlist.h:20). -/

namespace QList

/-- The two links of a node. -/
inductive Link
  | lLink_
  | rLink_

/-- The other link. -/
def Link.mirror : Link → Link
  | .lLink_ => .rLink_
  | .rLink_ => .lLink_

/-- A node of the ring. -/
structure NodeInfo (T : Type) where
  data_ : T
  lLink_ : Option ℕ := none
  rLink_ : Option ℕ := none

/-- The neighbour on one side. -/
def NodeInfo.link {T : Type} : Link → NodeInfo T → Option ℕ
  | .lLink_ => NodeInfo.lLink_
  | .rLink_ => NodeInfo.rLink_

/-- Another neighbour on one side. -/
def NodeInfo.setLink {T : Type} : Link → Option ℕ → NodeInfo T → NodeInfo T
  | .lLink_, p, node => { node with lLink_ := p }
  | .rLink_, p, node => { node with rLink_ := p }

end QList

/-- The fields of the class, and the nodes. -/
structure QList (T : Type) where
  heap : NodeStore (QList.NodeInfo T)
  size_ : ℤ := 0
  first_ : ℕ
  current_ : Option ℕ

namespace QList

open NodeInfo

variable {T : Type}

/-- What a call gives back. -/
inductive Answer (T : Type)
  | value (x : T)
  | flag (b : Bool)
  | count (n : ℤ)
  | unit
  deriving DecidableEq

/-- The calls; `addr` is what `new` returns. -/
inductive Call (T : Type)
  | push_back (x : T) (addr : ℕ)
  | push_front (x : T) (addr : ℕ)
  | prepareTraversal
  | hasNext
  | next
  | hasPrev
  | prev
  | erase
  | clear
  | size
  | empty

/-- The constructor `QList(uniqueVal)`; `QList()` leaves the value of the sentinel
    undetermined, so it is any value. -/
def new (first : ℕ) (uniqueVal : T) : QList T where
  heap := AList.insert first { data_ := uniqueVal, lLink_ := some first, rLink_ := some first } ∅
  first_ := first
  current_ := some first

/-- A new node beside the sentinel: `newNode->side=first_->side; first_->side=newNode;
    newNode->side->mirror=newNode; newNode->mirror=first_;` -/
def linkIn (side : Link) (heap : NodeStore (NodeInfo T)) (first : ℕ) (x : T) (addr : ℕ) :
    Option (NodeStore (NodeInfo T)) :=
  let heap := heap.insert addr { data_ := x }
  (heap.lookup first).bind fun node =>
    (assign heap (some addr) (setLink side (node.link side))).bind fun heap =>
      (assign heap (some first) (setLink side (some addr))).bind fun heap =>
        (assign heap (follow (link side) heap addr) (setLink side.mirror (some addr))).bind fun heap =>
          assign heap (some addr) (setLink side.mirror (some first))

/-- A new node, and `size_++;` -/
def push (side : Link) (q : QList T) (x : T) (addr : ℕ) : Option (QList T) :=
  (linkIn side q.heap q.first_ x addr).bind fun heap =>
    (int32 (q.size_ + 1)).map fun size_ => { q with heap := heap, size_ := size_ }

/-- A node at the end. -/
def push_back (q : QList T) (x : T) (addr : ℕ) : Option (QList T) := q.push .lLink_ x addr

/-- A node at the beginning. -/
def push_front (q : QList T) (x : T) (addr : ℕ) : Option (QList T) := q.push .rLink_ x addr

/-- The cursor goes to the sentinel. -/
def prepareTraversal (q : QList T) : QList T := { q with current_ := some q.first_ }

/-- `if(current_==NULL) return false; return (current_->side!=first_?true:false);` -/
def has (side : Link) (q : QList T) : Option Bool :=
  match q.current_ with
  | none => some false
  | some p => (q.heap.lookup p).map fun node => node.link side != some q.first_

/-- The cursor can move on. -/
def hasNext (q : QList T) : Option Bool := q.has .rLink_

/-- The cursor can move back. -/
def hasPrev (q : QList T) : Option Bool := q.has .lLink_

/-- `Q_ASSERT(current_->side!=first_); current_=current_->side; return current_->data_;` -/
def move (side : Link) (q : QList T) : Option (T × QList T) :=
  q.current_.bind fun p =>
    (q.heap.lookup p).bind fun node =>
      if node.link side = some q.first_ then none
      else (node.link side).bind fun r =>
        (q.heap.lookup r).map fun node => (node.data_, { q with current_ := some r })

/-- The cursor moves on. -/
def next (q : QList T) : Option (T × QList T) := q.move .rLink_

/-- The cursor moves back. -/
def prev (q : QList T) : Option (T × QList T) := q.move .lLink_

/-- `return first_->rLink_==first_;` -/
def empty (q : QList T) : Option Bool :=
  (q.heap.lookup q.first_).map fun first => first.rLink_ == some q.first_

/-- `temp=current_; current_=current_->rLink_; current_->lLink_=temp->lLink_;
    temp->lLink_->rLink_=current_; delete temp;` -/
def unlink (heap : NodeStore (NodeInfo T)) (temp : ℕ) : Option (Option ℕ × NodeStore (NodeInfo T)) :=
  (heap.lookup temp).bind fun node =>
    (assign heap node.rLink_ (setLink .lLink_ node.lLink_)).bind fun heap =>
      (assign heap (follow (link .lLink_) heap temp) (setLink .rLink_ node.rLink_)).map fun heap =>
        (node.rLink_, heap.erase temp)

/-- `if(current_==first_) { if(empty()) current_=NULL; else current_=current_->rLink_; }` -/
def settle (q : QList T) : Option (QList T) :=
  if q.current_ = some q.first_ then
    q.empty.bind fun b =>
      if b then some { q with current_ := none }
      else (q.heap.lookup q.first_).map fun node => { q with current_ := node.rLink_ }
  else some q

/-- `erase()`. -/
def erase (q : QList T) : Option (QList T) :=
  match q.current_ with
  | none => some q
  | some temp =>
    (unlink q.heap temp).bind fun r =>
      (settle { q with heap := r.2, current_ := r.1 }).bind fun q =>
        (int32 (q.size_ - 1)).map fun size_ => { q with size_ := size_ }

/-- `while(!empty()) erase();`, which waits when the fuel runs out. -/
def clearLoop : ℕ → QList T → Except Stop (QList T)
  | 0, _ => .error .waits
  | fuel + 1, q => checked q.empty fun b => if b then .ok q else checked q.erase (clearLoop fuel)

/-- `clear()`; a round of the loop frees a node, or changes nothing. -/
def clear (q : QList T) : Except Stop (Answer T × QList T) :=
  (clearLoop (q.heap.entries.length + 1) q).map fun q => (.unit, q)

/-- A call. -/
def step (q : QList T) : Call T → Except Stop (Answer T × QList T)
  | .push_back x addr => checked (q.push_back x addr) fun q => .ok (.unit, q)
  | .push_front x addr => checked (q.push_front x addr) fun q => .ok (.unit, q)
  | .prepareTraversal => .ok (.unit, q.prepareTraversal)
  | .hasNext => checked q.hasNext fun b => .ok (.flag b, q)
  | .next => checked q.next fun r => .ok (.value r.1, r.2)
  | .hasPrev => checked q.hasPrev fun b => .ok (.flag b, q)
  | .prev => checked q.prev fun r => .ok (.value r.1, r.2)
  | .erase => checked q.erase fun q => .ok (.unit, q)
  | .clear => q.clear
  | .size => .ok (.count q.size_, q)
  | .empty => checked q.empty fun b => .ok (.flag b, q)

/-! ## §2. The list with a cursor. -/

/-- Where the cursor rests. -/
inductive Cursor
  | null
  | first
  | index (i : ℕ)
  deriving DecidableEq

/-- A list with a cursor. -/
structure Tape (T : Type) where
  elements : List T := []
  cursor : Cursor := .first

/-- The index behind the cursor, and the one before it. -/
def Tape.ahead (t : Tape T) : Option ℕ :=
  match t.cursor with
  | .null => none
  | .first => some 0
  | .index i => some (i + 1)

def Tape.back (t : Tape T) : Option ℕ :=
  match t.cursor with
  | .null => none
  | .first => some (t.elements.length - 1)
  | .index 0 => none
  | .index (i + 1) => some i

/-- The element of an index, if there is one. -/
def Tape.seek (t : Tape T) (i : Option ℕ) : Option (T × Tape T) :=
  i.bind fun i => t.elements[i]?.map fun x => (x, { t with cursor := .index i })

/-- A new first element moves the cursor with the others. -/
def Cursor.shift : Cursor → Cursor
  | .null => .null
  | .first => .first
  | .index i => .index (i + 1)

/-- Without the element of an index; the cursor is at the next one then, at the
    first one again, or NULL. -/
def Tape.remove (t : Tape T) (i : ℕ) : Tape T where
  elements := t.elements.eraseIdx i
  cursor :=
    if i + 1 < t.elements.length then .index i
    else if t.elements.length = 1 then .null
    else .index 0

/-- The element at the cursor goes. -/
def Tape.erase (t : Tape T) : Tape T :=
  match t.cursor with
  | .null => t
  | .first => t
  | .index i => t.remove i

/-- All elements go. -/
def Tape.clear (t : Tape T) : Tape T :=
  match t.elements with
  | [] => t
  | _ :: _ => { elements := [], cursor := .null }

/-- The same calls on the list. -/
def tape (t : Tape T) : Call T → Except Stop (Answer T × Tape T)
  | .push_back x _ => .ok (.unit, { t with elements := t.elements ++ [x] })
  | .push_front x _ => .ok (.unit, { elements := x :: t.elements, cursor := t.cursor.shift })
  | .prepareTraversal => .ok (.unit, { t with cursor := .first })
  | .hasNext => .ok (.flag (t.seek t.ahead).isSome, t)
  | .next => checked (t.seek t.ahead) fun r => .ok (.value r.1, r.2)
  | .hasPrev => .ok (.flag (t.seek t.back).isSome, t)
  | .prev => checked (t.seek t.back) fun r => .ok (.value r.1, r.2)
  | .erase => .ok (.unit, t.erase)
  | .clear => .ok (.unit, t.clear)
  | .size => .ok (.count t.elements.length, t)
  | .empty => .ok (.flag t.elements.isEmpty, t)

/-- **THE RING**: through `rLink_` and back through `lLink_` it has the sentinel and
    `size_` other nodes, which are all that are allocated, and the cursor is one of
    them or NULL. -/
structure Rings (q : QList T) (qs : List ℕ) : Prop where
  ring : Ring (follow (link .rLink_) q.heap) (follow (link .lLink_) q.heap) q.first_ qs
  live : ∀ p, p ∈ q.heap ↔ p ∈ q.first_ :: qs
  size : q.size_ = qs.length
  current : ∀ p, q.current_ = some p → p ∈ q.first_ :: qs

/-- `p->data_` of an allocated node. -/
def dataAt (heap : NodeStore (NodeInfo T)) (p : ℕ) : Option T := (heap.lookup p).map NodeInfo.data_

/-- The node under a cursor. -/
def Cursor.Points (first : ℕ) (qs : List ℕ) : Cursor → Option ℕ → Prop
  | .null, current => current = none
  | .first, current => current = some first
  | .index i, current => ∃ p, qs[i]? = some p ∧ current = some p

/-- The nodes of the ring hold the elements. -/
structure Lists (q : QList T) (t : Tape T) (qs : List ℕ) : Prop where
  rings : Rings q qs
  data : qs.map (dataAt q.heap) = t.elements.map some
  cursor : t.cursor.Points q.first_ qs q.current_
  size_le : q.size_ ≤ INT32_MAX

/-- The ring stands for the list. -/
def Holds (q : QList T) (t : Tape T) : Prop := ∃ qs, Lists q t qs

/-- A ring with as many nodes as there are elements. -/
def RingOf (q : QList T) (t : Tape T) : Prop := ∃ qs, Rings q qs ∧ qs.length = t.elements.length

/-- `new` returns an address that is free. -/
def Allocates (q : QList T) (_ : Tape T) : Call T → Prop
  | .push_back _ addr => addr ∉ q.heap
  | .push_front _ addr => addr ∉ q.heap
  | _ => True

/-- A push finds room in `size_`, `erase()` the cursor off the sentinel, and
    `clear()` the list empty or the cursor at an element. -/
def Keeps (_ : QList T) (t : Tape T) : Call T → Prop
  | .push_back _ _ => (t.elements.length : ℤ) < INT32_MAX
  | .push_front _ _ => (t.elements.length : ℤ) < INT32_MAX
  | .erase => t.cursor ≠ .first
  | .clear => t.elements = [] ∨ ∃ i, t.cursor = .index i
  | _ => True

/-! ## §3. The nodes. -/

section Nodes

variable {heap heap' : NodeStore (NodeInfo T)} {p r first addr : ℕ} {v : Option ℕ} {side : Link}
  {l l₁ l₂ : List ℕ}

@[simp] theorem link_setLink_self (node : NodeInfo T) : (node.setLink side v).link side = v := by
  cases side with
  | lLink_ => rfl
  | rLink_ => rfl

@[simp] theorem link_setLink_mirror (node : NodeInfo T) :
    (node.setLink side v).link side.mirror = node.link side.mirror := by
  cases side with
  | lLink_ => rfl
  | rLink_ => rfl

@[simp] theorem data_setLink (node : NodeInfo T) : (node.setLink side v).data_ = node.data_ := by
  cases side with
  | lLink_ => rfl
  | rLink_ => rfl

@[simp] theorem mirror_mirror : side.mirror.mirror = side := by
  cases side with
  | lLink_ => rfl
  | rLink_ => rfl

/-- **ONE LINK SET**: the other link and the data are as they were. -/
theorem setLink_spec (hp : p ∈ heap) (side : Link) (v : Option ℕ) :
    ∃ heap', assign heap (some p) (setLink side v) = some heap' ∧
      follow (link side) heap' = update (follow (link side) heap) p v ∧
      follow (link side.mirror) heap' = follow (link side.mirror) heap ∧
      (∀ r, dataAt heap' r = dataAt heap r) ∧ ∀ r, r ∈ heap' ↔ r ∈ heap := by
  obtain ⟨heap', heq, h⟩ := assign_some hp (setLink side v)
  exact ⟨heap', heq, h.follow_set link_setLink_self, h.follow_kept link_setLink_mirror,
    h.map_eq data_setLink, h.mem_iff⟩

theorem firstOf_back {right left : ℕ → Option ℕ} (h : Ring right left first l) :
    left (firstOf l first) = some first := by
  cases l with
  | nil => exact h.left_eq
  | cons x l =>
    have hring : Ring right left first ([] ++ x :: l) := h
    exact hring.neighbours.2

theorem firstOf_mem (first : ℕ) (l : List ℕ) : firstOf l first ∈ first :: l := by
  cases l with
  | nil => exact mem_cons_self
  | cons x l => exact mem_cons_of_mem first mem_cons_self

/-- **A NODE LINKED IN** beside the sentinel. -/
theorem linkIn_spec (h : Ring (follow (link side) heap) (follow (link side.mirror) heap) first l)
    (hlive : ∀ p ∈ first :: l, p ∈ heap) (hout : addr ∉ heap) (x : T) :
    ∃ heap', linkIn side heap first x addr = some heap' ∧
      Ring (follow (link side) heap') (follow (link side.mirror) heap') first (addr :: l) ∧
      (∀ p, p ∈ heap' ↔ p = addr ∨ p ∈ heap) ∧ dataAt heap' addr = some x ∧
      ∀ p, p ≠ addr → dataAt heap' p = dataAt heap p := by
  have hne : ∀ r ∈ first :: l, r ≠ addr := fun r hr heq => hout (heq ▸ hlive r hr)
  have hmem := firstOf_mem first l
  have hfirst := hne first mem_cons_self
  have hneighbour := hne _ hmem
  obtain ⟨node, hnode⟩ := lookup_of_live (hlive first mem_cons_self)
  have hside : node.link side = some (firstOf l first) := (follow_eq hnode).symm.trans h.right_eq
  have hmem₀ : ∀ p, p ∈ heap.insert addr { data_ := x } ↔ p = addr ∨ p ∈ heap := fun p => mem_insert heap
  -- the four assignments, one after another
  obtain ⟨heap₁, heq₁, hside₁, hmirror₁, hdata₁, hmem₁⟩ :=
    setLink_spec ((hmem₀ addr).mpr (Or.inl rfl)) side (node.link side)
  obtain ⟨heap₂, heq₂, hside₂, hmirror₂, hdata₂, hmem₂⟩ :=
    setLink_spec ((hmem₁ first).mpr ((hmem₀ first).mpr (Or.inr (hlive first mem_cons_self))))
      side (some addr)
  have hnext : follow (link side) heap₂ addr = some (firstOf l first) := by
    rw [hside₂, update_of_ne hfirst.symm, hside₁, update_self, hside]
  obtain ⟨heap₃, heq₃, hmirror₃, hside₃, hdata₃, hmem₃⟩ :=
    setLink_spec ((hmem₂ _).mpr ((hmem₁ _).mpr ((hmem₀ _).mpr (Or.inr (hlive _ hmem)))))
      side.mirror (some addr)
  obtain ⟨heap₄, heq₄, hmirror₄, hside₄, hdata₄, hmem₄⟩ :=
    setLink_spec ((hmem₃ addr).mpr ((hmem₂ addr).mpr ((hmem₁ addr).mpr ((hmem₀ addr).mpr (Or.inl rfl)))))
      side.mirror (some first)
  rw [mirror_mirror] at hside₃ hside₄
  have hside' : ∀ r, r ≠ first → r ≠ addr → follow (link side) heap₄ r = follow (link side) heap r := by
    intro r hr hr'
    rw [hside₄, hside₃, hside₂, update_of_ne hr, hside₁, update_of_ne hr',
      follow_insert_ne hr']
  have hmirror' : ∀ r, r ≠ firstOf l first → r ≠ addr →
      follow (link side.mirror) heap₄ r = follow (link side.mirror) heap r := by
    intro r hr hr'
    rw [hmirror₄, update_of_ne hr', hmirror₃, update_of_ne hr, hmirror₂, hmirror₁,
      follow_insert_ne hr']
  refine ⟨heap₄, ?_, ?_, ?_, ?_, ?_⟩
  · show ((heap.insert addr { data_ := x }).lookup first).bind _ = some heap₄
    rw [lookup_insert_ne hfirst, hnode, bind_some, heq₁, bind_some, heq₂,
      bind_some, hnext, heq₃, bind_some, heq₄]
  · have hring : Ring (follow (link side) heap) (follow (link side.mirror) heap) first ([] ++ l) := h
    apply Ring.insert hring
    · exact fun hin => hout (hlive addr hin)
    · rw [lastOf, hside₄, hside₃, hside₂, update_self]
    · rw [lastOf, hside₄, hside₃, hnext, h.right_eq]
    · rw [hmirror₄, update_of_ne hneighbour, hmirror₃, update_self]
    · rw [hmirror₄, update_self, firstOf_back h]
    · exact fun r hr hr' => hside' r hr' (hne r hr)
    · exact fun r hr hr' => hmirror' r hr' (hne r hr)
  · intro p
    rw [hmem₄, hmem₃, hmem₂, hmem₁, hmem₀]
  · rw [hdata₄, hdata₃, hdata₂, hdata₁, dataAt, lookup_insert]
    rfl
  · intro p hp
    rw [hdata₄, hdata₃, hdata₂, hdata₁, dataAt, lookup_insert_ne hp, dataAt]

/-- **A NODE LINKED OUT** and freed. -/
theorem unlink_spec (h : Ring (follow (link .rLink_) heap) (follow (link .lLink_) heap) first (l₁ ++ p :: l₂))
    (hlive : ∀ r ∈ first :: (l₁ ++ p :: l₂), r ∈ heap) :
    ∃ heap', unlink heap p = some (some (firstOf l₂ first), heap') ∧
      Ring (follow (link .rLink_) heap') (follow (link .lLink_) heap') first (l₁ ++ l₂) ∧
      (∀ r, r ∈ heap' ↔ r ≠ p ∧ r ∈ heap) ∧ ∀ r, r ≠ p → dataAt heap' r = dataAt heap r := by
  have hnodup : (p :: (first :: (l₁ ++ l₂))).Nodup := by
    have hmiddle := h.nodup
    rw [← cons_append] at hmiddle
    exact nodup_middle.mp hmiddle
  have hne : ∀ r ∈ first :: (l₁ ++ l₂), r ≠ p := fun r hr heq => (nodup_cons.mp hnodup).1 (heq ▸ hr)
  have hsub : ∀ r ∈ first :: (l₁ ++ l₂), r ∈ first :: (l₁ ++ p :: l₂) := by
    intro r hr
    simp only [mem_cons, mem_append] at hr ⊢
    tauto
  have hfirst : firstOf l₂ first ∈ first :: (l₁ ++ l₂) := by
    have hmem := firstOf_mem first l₂
    simp only [mem_cons, mem_append] at hmem ⊢
    tauto
  have hlast : lastOf first l₁ ∈ first :: (l₁ ++ l₂) := by
    have hmem := lastOf_mem first l₁
    simp only [mem_cons, mem_append] at hmem ⊢
    tauto
  have hp : p ∈ heap := hlive p (by simp)
  obtain ⟨node, hnode⟩ := lookup_of_live hp
  obtain ⟨hright, hleft⟩ := h.neighbours
  have hrLink : node.rLink_ = some (firstOf l₂ first) := (follow_eq hnode).symm.trans hright
  have hlLink : node.lLink_ = some (lastOf first l₁) := (follow_eq hnode).symm.trans hleft
  -- the two assignments
  obtain ⟨heap₁, heq₁, hleft₁, hright₁, hdata₁, hmem₁⟩ :=
    setLink_spec (hlive _ (hsub _ hfirst)) .lLink_ (some (lastOf first l₁))
  have hback : follow (link .lLink_) heap₁ p = some (lastOf first l₁) := by
    rw [hleft₁, update_of_ne (hne _ hfirst).symm, hleft]
  obtain ⟨heap₂, heq₂, hright₂, hleft₂, hdata₂, hmem₂⟩ :=
    setLink_spec ((hmem₁ _).mpr (hlive _ (hsub _ hlast))) .rLink_ (some (firstOf l₂ first))
  simp only [Link.mirror] at hright₁ hleft₂
  have hkeep : ∀ (g : NodeInfo T → Option ℕ), ∀ r ∈ first :: (l₁ ++ l₂),
      follow g (heap₂.erase p) r = follow g heap₂ r := fun g r hr => follow_erase_ne (hne r hr)
  refine ⟨heap₂.erase p, ?_, ?_, ?_, ?_⟩
  · unfold unlink
    rw [hnode, bind_some, hrLink, hlLink, heq₁, bind_some, hback, heq₂, map_some]
  · apply Ring.remove h
    · rw [hkeep _ _ hlast, hright₂, update_self, hright]
    · rw [hkeep _ _ hfirst, hleft₂, hleft₁, update_self, hleft]
    · intro r hr hr'
      rw [hkeep _ r hr, hright₂, update_of_ne hr', hright₁]
    · intro r hr hr'
      rw [hkeep _ r hr, hleft₂, hleft₁, update_of_ne hr']
  · intro r
    rw [mem_erase, hmem₂, hmem₁]
  · intro r hr
    rw [dataAt, lookup_erase_ne hr]
    exact (hdata₂ r).trans (hdata₁ r)

end Nodes

/-! ## §4. The calls that keep the ring. -/

section Lists

variable {q q' : QList T} {t : Tape T} {qs : List ℕ} {x : T} {addr p i : ℕ}

theorem Rings.notMem (h : Rings q qs) (hp : p ∈ qs) : p ≠ q.first_ :=
  fun heq => (nodup_cons.mp h.ring.nodup).1 (heq ▸ hp)

theorem Rings.heap_of_mem (h : Rings q qs) (hp : p ∈ qs) : p ∈ q.heap :=
  (h.live p).mpr (mem_cons_of_mem _ hp)

theorem Lists.length_eq (h : Lists q t qs) : qs.length = t.elements.length := by
  have hlen := congrArg List.length h.data
  rwa [length_map, length_map] at hlen

theorem Lists.size_eq (h : Lists q t qs) : q.size_ = t.elements.length := by
  rw [h.rings.size, h.length_eq]

theorem split_at (hp : qs[i]? = some p) : qs = qs.take i ++ p :: qs.drop (i + 1) := by
  obtain ⟨hlt, heq⟩ := List.getElem?_eq_some_iff.mp hp
  rw [← heq, ← drop_eq_getElem_cons hlt, take_append_drop]

theorem Lists.dataAt_eq (h : Lists q t qs) (hp : qs[i]? = some p) :
    ∃ x, t.elements[i]? = some x ∧ dataAt q.heap p = some x := by
  have hdata := congrArg (fun l => l[i]?) h.data
  simp only [getElem?_map, hp, map_some] at hdata
  cases hx : t.elements[i]? with
  | none =>
    rw [hx] at hdata
    cases hdata
  | some x =>
    rw [hx] at hdata
    exact ⟨x, rfl, Option.some.inj hdata⟩

theorem Lists.seek_eq_none (h : Lists q t qs) (hp : qs[i]? = none) : t.seek (some i) = none := by
  have hle : t.elements.length ≤ i := h.length_eq ▸ getElem?_eq_none_iff.mp hp
  rw [Tape.seek, bind_some, getElem?_eq_none hle, map_none]

variable {c : Cursor} {first : ℕ} {current : Option ℕ} {heap : NodeStore (NodeInfo T)}

theorem Cursor.Points.shift (h : c.Points first qs current) (addr : ℕ) :
    c.shift.Points first (addr :: qs) current := by
  cases c with
  | null => exact h
  | first => exact h
  | index i => exact h

theorem Cursor.Points.append (h : c.Points first qs current) (addr : ℕ) :
    c.Points first (qs ++ [addr]) current := by
  cases c with
  | null => exact h
  | first => exact h
  | index i =>
    obtain ⟨p, hp, hcurrent⟩ := h
    refine ⟨p, ?_, hcurrent⟩
    rw [List.getElem?_append_left (List.getElem?_eq_some_iff.mp hp).1, hp]

/-- The cursor is in the ring. -/
theorem Cursor.Points.mem (h : c.Points first qs current) (hp : current = some p) : p ∈ first :: qs := by
  cases c with
  | null =>
    rw [hp] at h
    cases h
  | first =>
    rw [hp] at h
    cases h
    exact mem_cons_self
  | index i =>
    obtain ⟨r, hr, hcurrent⟩ := h
    rw [hp] at hcurrent
    cases hcurrent
    exact mem_cons_of_mem first (mem_of_getElem? hr)

/-- The link of the cursor to the next node. -/
theorem Lists.ahead_link (h : Lists q t qs) (hp : q.current_ = some p) :
    follow (link .rLink_) q.heap p = some ((t.ahead.bind fun i => qs[i]?).getD q.first_) := by
  have hcursor := h.cursor
  unfold Tape.ahead
  cases hc : t.cursor with
  | null =>
    rw [hc, hp] at hcursor
    cases hcursor
  | first =>
    rw [hc, hp] at hcursor
    cases hcursor
    rw [h.rings.ring.right_eq, firstOf_eq_getD, head?_eq_getElem?]
    rfl
  | index i =>
    rw [hc, hp] at hcursor
    obtain ⟨r, hr, heq⟩ := hcursor
    cases heq
    have hring := h.rings.ring
    rw [split_at hr] at hring
    rw [hring.neighbours.1, firstOf_eq_getD, head?_drop]
    rfl

/-- The link of the cursor to the node before it. -/
theorem Lists.back_link (h : Lists q t qs) (hp : q.current_ = some p) :
    follow (link .lLink_) q.heap p = some ((t.back.bind fun i => qs[i]?).getD q.first_) := by
  have hcursor := h.cursor
  unfold Tape.back
  cases hc : t.cursor with
  | null =>
    rw [hc, hp] at hcursor
    cases hcursor
  | first =>
    rw [hc, hp] at hcursor
    cases hcursor
    rw [h.rings.ring.left_eq, lastOf_eq_firstOf_reverse, firstOf_eq_getD, head?_reverse,
      getLast?_eq_getElem?, h.length_eq]
    rfl
  | index i =>
    rw [hc, hp] at hcursor
    obtain ⟨r, hr, heq⟩ := hcursor
    cases heq
    have hring := h.rings.ring
    rw [split_at hr] at hring
    rw [hring.neighbours.2, lastOf_eq_firstOf_reverse, firstOf_eq_getD, head?_reverse]
    cases i with
    | zero => rfl
    | succ i =>
      have hle : i + 1 ≤ qs.length := (List.getElem?_eq_some_iff.mp hr).1.le
      have hlen : (qs.take (i + 1)).length - 1 = i := by
        rw [length_take, Nat.min_eq_left hle, Nat.add_sub_cancel]
      rw [getLast?_eq_getElem?, hlen, getElem?_take_of_lt (Nat.lt_succ_self i)]
      rfl

theorem Lists.null_iff (h : Lists q t qs) : q.current_ = none ↔ t.cursor = .null := by
  have hcursor := h.cursor
  cases hc : t.cursor with
  | null =>
    rw [hc] at hcursor
    exact iff_of_true hcursor rfl
  | first =>
    rw [hc] at hcursor
    rw [hcursor]
    simp
  | index i =>
    rw [hc] at hcursor
    obtain ⟨r, -, heq⟩ := hcursor
    rw [heq]
    simp

variable {side : Link} {o : Option ℕ}

/-- **THE CURSOR MOVED** along one of the links, to the element of `o`. -/
theorem Lists.move_cases (h : Lists q t qs) (hp : q.current_ = some p)
    (hlink : follow (link side) q.heap p = some ((o.bind fun i => qs[i]?).getD q.first_)) :
    (q.has side = some false ∧ q.move side = none ∧ t.seek o = none) ∨
      ∃ i r x, qs[i]? = some r ∧ q.has side = some true ∧
        q.move side = some (x, { q with current_ := some r }) ∧
        t.seek o = some (x, { t with cursor := .index i }) := by
  obtain ⟨node, hnode⟩ := lookup_of_live ((h.rings.live p).mpr (h.rings.current p hp))
  rw [follow_eq hnode] at hlink
  cases hr : o.bind fun i => qs[i]? with
  | none =>
    rw [hr, getD_none] at hlink
    refine Or.inl ⟨?_, ?_, ?_⟩
    · rw [has, hp]
      dsimp only
      rw [hnode, map_some, hlink, bne_self_eq_false]
    · rw [move, hp, bind_some, hnode, bind_some, if_pos hlink]
    · cases o with
      | none => rfl
      | some i => exact h.seek_eq_none hr
  | some r =>
    obtain ⟨i, ho, hi⟩ := bind_eq_some_iff.mp hr
    obtain ⟨x, hx, hdata⟩ := h.dataAt_eq hi
    obtain ⟨next, hnext, hvalue⟩ := map_eq_some_iff.mp hdata
    have hne : node.link side ≠ some q.first_ := by
      rw [hlink, hr, getD_some]
      exact fun heq => h.rings.notMem (mem_of_getElem? hi) (Option.some.inj heq)
    refine Or.inr ⟨i, r, x, hi, ?_, ?_, ?_⟩
    · rw [has, hp]
      dsimp only
      rw [hnode, map_some, bne_iff_ne.mpr hne]
    · rw [move, hp, bind_some, hnode, bind_some, if_neg hne, hlink, hr, getD_some,
        bind_some, hnext, map_some, hvalue]
    · rw [Tape.seek, ho, bind_some, hx, map_some]

theorem Lists.at_index (h : Lists q t qs) (hp : qs[i]? = some p) :
    Lists { q with current_ := some p } { t with cursor := .index i } qs := by
  refine ⟨⟨h.rings.ring, h.rings.live, h.rings.size, fun r hr => ?_⟩, h.data, ⟨p, hp, rfl⟩, h.size_le⟩
  cases hr
  exact mem_cons_of_mem _ (mem_of_getElem? hp)

theorem move_matched (h : Lists q t qs) (hnull : t.cursor = .null → o = none)
    (hlink : ∀ p, q.current_ = some p →
      follow (link side) q.heap p = some ((o.bind fun i => qs[i]?).getD q.first_)) :
    Matched Holds (checked (q.move side) fun r => .ok (Answer.value r.1, r.2))
      (checked (t.seek o) fun r => .ok (Answer.value r.1, r.2)) := by
  cases hp : q.current_ with
  | none =>
    rw [hnull (h.null_iff.mp hp), move, hp]
    exact .stop .undefined
  | some p =>
    rcases h.move_cases hp (hlink p hp) with hend | hmoved
    · rw [hend.2.1, hend.2.2]
      exact .stop .undefined
    · obtain ⟨i, r, x, hr, -, hmove, hseek⟩ := hmoved
      rw [hmove, hseek]
      exact .answer ⟨qs, h.at_index hr⟩

theorem has_matched (h : Lists q t qs) (hnull : t.cursor = .null → o = none)
    (hlink : ∀ p, q.current_ = some p →
      follow (link side) q.heap p = some ((o.bind fun i => qs[i]?).getD q.first_)) :
    Matched Holds (checked (q.has side) fun b => .ok (Answer.flag b, q))
      (.ok (Answer.flag (t.seek o).isSome, t) : Except Stop (Answer T × Tape T)) := by
  cases hp : q.current_ with
  | none =>
    rw [hnull (h.null_iff.mp hp), has, hp]
    exact .answer ⟨qs, h⟩
  | some p =>
    rcases h.move_cases hp (hlink p hp) with hend | hmoved
    · rw [hend.1, hend.2.2]
      exact .answer ⟨qs, h⟩
    · obtain ⟨i, r, x, hr, hhas, -, hseek⟩ := hmoved
      rw [hhas, hseek]
      exact .answer ⟨qs, h⟩

/-! ### Pushes. -/

section

variable (h : Lists q t qs)
include h

theorem push_eq (hroom : (t.elements.length : ℤ) < INT32_MAX) (hlink : linkIn side q.heap q.first_ x addr = some heap) :
    q.push side x addr = some { q with heap := heap, size_ := q.size_ + 1 } := by
  have hsize := h.size_eq
  rw [push, hlink, bind_some, int32_of_le (by omega) (by omega), map_some]

theorem push_overflow (hfull : ¬ (t.elements.length : ℤ) < INT32_MAX) : q.push side x addr = none := by
  have hsize := h.size_eq
  have hnone : int32 (q.size_ + 1) = none := int32_of_gt (by omega)
  rw [push, hnone]
  cases linkIn side q.heap q.first_ x addr with
  | none => rfl
  | some heap => rfl

/-- The list with one node more. -/
theorem Lists.grow {qs' : List ℕ} {t' : Tape T} (hroom : (t.elements.length : ℤ) < INT32_MAX)
    (hring : Ring (follow (link .rLink_) heap) (follow (link .lLink_) heap) q.first_ qs')
    (hin : ∀ p, p ∈ qs' ↔ p = addr ∨ p ∈ qs) (hlen : qs'.length = qs.length + 1)
    (hmem : ∀ p, p ∈ heap ↔ p = addr ∨ p ∈ q.heap) (hdata : qs'.map (dataAt heap) = t'.elements.map some)
    (hcursor : t'.cursor.Points q.first_ qs' q.current_) :
    Lists { q with heap := heap, size_ := q.size_ + 1 } t' qs' := by
  have hsize := h.size_eq
  have hle : q.size_ + 1 ≤ INT32_MAX := by omega
  refine ⟨⟨hring, fun p => ?_, ?_, fun p hp => hcursor.mem hp⟩, hdata, hcursor, hle⟩
  · rw [hmem, h.rings.live, mem_cons, mem_cons, hin, or_left_comm]
  · show q.size_ + 1 = (qs'.length : ℤ)
    rw [hlen, Nat.cast_add, Nat.cast_one, ← h.rings.size]

theorem Lists.data_kept (hout : addr ∉ q.heap) (hkept : ∀ p, p ≠ addr → dataAt heap p = dataAt q.heap p) :
    qs.map (dataAt heap) = t.elements.map some := by
  rw [← h.data]
  refine map_congr_left fun p hp => hkept p ?_
  exact fun heq => hout (heq ▸ h.rings.heap_of_mem hp)

theorem push_back_matched (hout : addr ∉ q.heap) (hroom : (t.elements.length : ℤ) < INT32_MAX) :
    ∃ q', q.push_back x addr = some q' ∧
      Holds q' { t with elements := t.elements ++ [x] } := by
  have hlive : ∀ p ∈ q.first_ :: qs.reverse, p ∈ q.heap := by
    intro p hp
    rw [h.rings.live]
    simpa using hp
  have hflip : Ring (follow (link .lLink_) q.heap) (follow (link Link.lLink_.mirror) q.heap) q.first_
      qs.reverse := h.rings.ring.flip
  obtain ⟨heap, hlink, hring, hmem, hnew, hkept⟩ := linkIn_spec hflip hlive hout x
  have hring' := hring.flip
  rw [reverse_cons, reverse_reverse] at hring'
  refine ⟨_, push_eq h hroom hlink, qs ++ [addr], h.grow hroom hring' ?_ ?_ hmem ?_ ?_⟩
  · intro p
    rw [mem_append, mem_singleton, or_comm]
  · rw [length_append, length_singleton]
  · rw [map_append, map_append, h.data_kept hout hkept, map_singleton, hnew, map_singleton]
  · exact h.cursor.append addr

theorem push_front_matched (hout : addr ∉ q.heap) (hroom : (t.elements.length : ℤ) < INT32_MAX) :
    ∃ q', q.push_front x addr = some q' ∧
      Holds q' { elements := x :: t.elements, cursor := t.cursor.shift } := by
  have hright : Ring (follow (link .rLink_) q.heap) (follow (link Link.rLink_.mirror) q.heap) q.first_ qs :=
    h.rings.ring
  obtain ⟨heap, hlink, hring, hmem, hnew, hkept⟩ :=
    linkIn_spec hright (fun p hp => (h.rings.live p).mpr hp) hout x
  refine ⟨_, push_eq h hroom hlink, addr :: qs, h.grow hroom hring ?_ ?_ hmem ?_ ?_⟩
  · intro p
    rw [mem_cons]
  · rw [length_cons]
  · rw [map_cons, map_cons, h.data_kept hout hkept, hnew]
  · exact h.cursor.shift addr

end

/-! ### Erasing and clearing. -/

section

variable (hring : Ring (follow (link .rLink_) q.heap) (follow (link .lLink_) q.heap) q.first_ qs)
include hring

theorem empty_eq (hlive : q.first_ ∈ q.heap) :
    ∃ node, q.heap.lookup q.first_ = some node ∧ node.rLink_ = some (firstOf qs q.first_) ∧
      q.empty = some qs.isEmpty := by
  obtain ⟨node, hnode⟩ := lookup_of_live hlive
  have hlink : node.rLink_ = some (firstOf qs q.first_) := (follow_eq hnode).symm.trans hring.right_eq
  refine ⟨node, hnode, hlink, ?_⟩
  rw [empty, hnode, map_some, hlink]
  cases qs with
  | nil =>
    rw [firstOf, beq_self_eq_true]
    rfl
  | cons p l =>
    have hne : p ≠ q.first_ := fun heq => (nodup_cons.mp hring.nodup).1 (heq ▸ mem_cons_self)
    rw [firstOf, beq_eq_false_iff_ne.mpr fun heq => hne (Option.some.inj heq)]
    rfl

theorem settle_eq (hlive : q.first_ ∈ q.heap) (hcurrent : q.current_ = some q.first_) :
    q.settle = some { q with current_ := qs.head? } := by
  obtain ⟨node, hnode, hlink, hempty⟩ := empty_eq hring hlive
  rw [settle, if_pos hcurrent, hempty, bind_some, hnode, map_some, hlink]
  cases qs with
  | nil => rfl
  | cons p l => rfl

end

/-- Where the cursor goes when the node under it is linked out. -/
theorem settle_spec (h : Lists q t qs) (hp : qs[i]? = some p)
    (hring : Ring (follow (link .rLink_) heap) (follow (link .lLink_) heap) q.first_ (qs.eraseIdx i))
    (hlive : q.first_ ∈ heap) :
    ∃ current, settle { q with heap := heap, current_ := some (firstOf (qs.drop (i + 1)) q.first_) }
        = some { q with heap := heap, current_ := current } ∧
      (t.remove i).cursor.Points q.first_ (qs.eraseIdx i) current := by
  have hlt := (List.getElem?_eq_some_iff.mp hp).1
  have hlen := h.length_eq
  cases hdrop : qs.drop (i + 1) with
  | nil =>
    have hlast : ¬ i + 1 < t.elements.length := by
      have hle := List.drop_eq_nil_iff.mp hdrop
      omega
    refine ⟨(qs.eraseIdx i).head?, settle_eq hring hlive rfl, ?_⟩
    rw [Tape.remove, if_neg hlast]
    cases herase : qs.eraseIdx i with
    | nil =>
      have hone : t.elements.length = 1 := by
        have hlen' := List.length_eraseIdx_add_one hlt
        rw [herase, List.length_nil] at hlen'
        omega
      rw [if_pos hone]
      rfl
    | cons r l =>
      have hmore : ¬ t.elements.length = 1 := by
        have hlen' := List.length_eraseIdx_add_one hlt
        rw [herase, List.length_cons] at hlen'
        omega
      rw [if_neg hmore]
      exact ⟨r, rfl, rfl⟩
  | cons r l =>
    have hr : qs[i + 1]? = some r := by rw [← List.head?_drop, hdrop, List.head?_cons]
    have hmore : i + 1 < t.elements.length := hlen ▸ (List.getElem?_eq_some_iff.mp hr).1
    have hne : some r ≠ some q.first_ :=
      fun heq => h.rings.notMem (List.mem_of_getElem? hr) (Option.some.inj heq)
    refine ⟨some r, by rw [settle, firstOf, if_neg hne], ?_⟩
    rw [Tape.remove, if_pos hmore]
    exact ⟨r, by rw [List.getElem?_eraseIdx_of_ge (Nat.le_refl i), hr], rfl⟩

/-- **AN ELEMENT ERASED**: the cursor is at the next one, at the first one, or NULL. -/
theorem Lists.erase_eq (h : Lists q t qs) (hc : t.cursor = .index i) :
    ∃ q', q.erase = some q' ∧ Lists q' (t.remove i) (qs.eraseIdx i) := by
  have hcursor := h.cursor
  rw [hc] at hcursor
  obtain ⟨p, hp, hcurrent⟩ := hcursor
  have hlt := (List.getElem?_eq_some_iff.mp hp).1
  have hsize' := h.rings.size
  have hlen' := List.length_eraseIdx_add_one hlt
  have hmax := h.size_le
  have hsplit := split_at hp
  have hring := h.rings.ring
  rw [hsplit] at hring
  obtain ⟨heap, hunlink, hring', hmem, hkept⟩ := unlink_spec hring fun r hr => by
    rw [← hsplit] at hr
    exact (h.rings.live r).mpr hr
  rw [← List.eraseIdx_eq_take_drop_succ] at hring'
  have hpin := List.mem_of_getElem? hp
  obtain ⟨current, hsettle, hpoints⟩ :=
    settle_spec h hp hring' ((hmem _).mpr ⟨(h.rings.notMem hpin).symm, (h.rings.live _).mpr List.mem_cons_self⟩)
  -- the others are the nodes that are left
  have hothers : ∀ r, r ∈ qs.eraseIdx i ↔ r ≠ p ∧ r ∈ qs := by
    have hnodup := (List.nodup_cons.mp h.rings.ring.nodup).2
    rw [hsplit] at hnodup
    obtain ⟨hout, -⟩ := List.nodup_cons.mp (List.nodup_middle.mp hnodup)
    intro r
    rw [List.eraseIdx_eq_take_drop_succ]
    constructor
    · intro hr
      refine ⟨fun heq => hout (heq ▸ hr), ?_⟩
      rw [hsplit]
      simp only [List.mem_append, List.mem_cons] at hr ⊢
      tauto
    · intro hr
      obtain ⟨hne, hr⟩ := hr
      rw [hsplit] at hr
      simp only [List.mem_append, List.mem_cons] at hr ⊢
      tauto
  refine ⟨{ q with heap := heap, current_ := current, size_ := q.size_ - 1 }, ?_, ?_⟩
  · rw [erase, hcurrent]
    dsimp only
    rw [hunlink, Option.bind_some, hsettle, Option.bind_some]
    dsimp only
    rw [int32_of_le (by omega) (by omega), Option.map_some]
  · refine ⟨⟨hring', fun r => ?_, ?_, fun r hr => hpoints.mem hr⟩, ?_, hpoints, ?_⟩
    · rw [hmem, h.rings.live, List.mem_cons, List.mem_cons, hothers]
      constructor
      · intro hr
        exact hr.2.imp_right fun hin => ⟨hr.1, hin⟩
      · intro hr
        rcases hr with heq | hr
        · exact ⟨fun heq' => h.rings.notMem hpin (heq' ▸ heq), Or.inl heq⟩
        · exact ⟨hr.1, Or.inr hr.2⟩
    · show q.size_ - 1 = ((qs.eraseIdx i).length : ℤ)
      omega
    · show (qs.eraseIdx i).map (dataAt heap) = (t.elements.eraseIdx i).map some
      rw [← List.eraseIdx_map some, ← h.data, List.eraseIdx_map]
      exact List.map_congr_left fun r hr => hkept r ((hothers r).mp hr).1
    · have hle : q.size_ - 1 ≤ INT32_MAX := by omega
      exact hle

theorem Tape.remove_elements_or (t : Tape T) (hlt : i < t.elements.length) :
    ((t.remove i).elements = [] ∧ (t.remove i).cursor = .null) ∨ ∃ j, (t.remove i).cursor = .index j := by
  unfold Tape.remove
  split
  · exact Or.inr ⟨i, rfl⟩
  split
  · rename_i hone
    refine Or.inl ⟨length_eq_zero_iff.mp ?_, rfl⟩
    rw [length_eraseIdx_of_lt hlt, hone]
  · exact Or.inr ⟨0, rfl⟩

/-- What is cleared after an element is erased. -/
theorem Tape.remove_clear (t : Tape T) (hlt : i < t.elements.length) :
    (t.remove i).clear = { elements := [], cursor := .null } := by
  unfold Tape.clear
  split
  · rename_i hnil
    rcases t.remove_elements_or hlt with hend | ⟨j, hj⟩
    · cases ht : t.remove i with
      | mk elements cursor =>
        rw [ht] at hend
        obtain ⟨helements, hcursor⟩ := hend
        dsimp only at helements hcursor
        rw [helements, hcursor]
    unfold Tape.remove at hnil hj
    dsimp only at hnil hj
    have hlen := length_eraseIdx_of_lt hlt
    rw [hnil, length_nil] at hlen
    rw [if_neg (by omega), if_pos (by omega)] at hj
    cases hj
  · rfl

/-- **A LIST CLEARED** with the cursor at an element, or when it is empty. -/
theorem clearLoop_eq {fuel : ℕ} (h : Lists q t qs) (hc : t.elements = [] ∨ ∃ i, t.cursor = .index i)
    (hfuel : t.elements.length < fuel) : ∃ q', clearLoop fuel q = .ok q' ∧ Lists q' t.clear [] := by
  induction fuel generalizing q t qs with
  | zero => exact absurd hfuel (by simp)
  | succ fuel ih =>
    obtain ⟨node, -, -, hempty⟩ := empty_eq h.rings.ring ((h.rings.live _).mpr mem_cons_self)
    have hlen := h.length_eq
    rw [clearLoop, hempty, checked_some]
    cases hqs : qs with
    | nil =>
      rw [hqs, length_nil] at hlen
      have hnil : t.clear = t := by
        unfold Tape.clear
        rw [length_eq_zero_iff.mp hlen.symm]
      rw [hqs] at h
      exact ⟨q, rfl, by rw [hnil]; exact h⟩
    | cons p l =>
      rw [hqs, length_cons] at hlen
      have hne : t.elements ≠ [] := by
        intro hnil
        rw [hnil, length_nil] at hlen
        omega
      obtain ⟨i, hi⟩ := hc.resolve_left hne
      have hlt : i < t.elements.length := by
        have hcursor := h.cursor
        rw [hi] at hcursor
        obtain ⟨r, hr, -⟩ := hcursor
        exact h.length_eq ▸ (List.getElem?_eq_some_iff.mp hr).1
      obtain ⟨q₁, herase, hlists⟩ := h.erase_eq hi
      have hshort : (t.remove i).elements.length < fuel := by
        have hlen' : (t.remove i).elements.length = t.elements.length - 1 := length_eraseIdx_of_lt hlt
        omega
      -- the cursor is at another element, or the list is empty
      obtain ⟨q', hloop, hclear⟩ := ih hlists ((t.remove_elements_or hlt).imp_left And.left) hshort
      refine ⟨q', ?_, ?_⟩
      · rw [herase, checked_some, hloop]
        rfl
      · rw [t.remove_clear hlt] at hclear
        unfold Tape.clear
        cases helements : t.elements with
        | nil => exact absurd helements hne
        | cons x xs => exact hclear

theorem clear_matched (h : Lists q t qs) (hc : t.elements = [] ∨ ∃ i, t.cursor = .index i) :
    Matched Holds q.clear (.ok (.unit, t.clear)) := by
  have hle : t.elements.length < q.heap.entries.length + 1 := by
    have hlive := length_le_entries h.rings.ring.nodup fun p hp => (h.rings.live p).mpr hp
    rw [length_cons, h.length_eq] at hlive
    omega
  obtain ⟨q', hloop, hlists⟩ := clearLoop_eq h hc hle
  unfold clear
  rw [hloop]
  exact .answer ⟨[], hlists⟩

end Lists

/-! ## §5. The calls that do not. -/

section Broken

variable {q q' : QList T} {t : Tape T} {qs : List ℕ} {p : ℕ}

theorem settle_heap (h : q.settle = some q') : q'.heap = q.heap ∧ q'.first_ = q.first_ := by
  unfold settle at h
  split at h
  · obtain ⟨b, -, hb⟩ := bind_eq_some_iff.mp h
    split at hb
    · cases hb
      exact ⟨rfl, rfl⟩
    · obtain ⟨node, -, hnode⟩ := map_eq_some_iff.mp hb
      rw [← hnode]
      exact ⟨rfl, rfl⟩
  · cases h
    exact ⟨rfl, rfl⟩

/-- **`erase()` FREES THE NODE OF THE CURSOR**, whichever it is. -/
theorem erase_frees (hp : q.current_ = some p) (h : q.erase = some q') :
    p ∉ q'.heap ∧ q'.first_ = q.first_ := by
  rw [erase, hp] at h
  obtain ⟨r, hunlink, h⟩ := bind_eq_some_iff.mp h
  obtain ⟨q₁, hsettle, h⟩ := bind_eq_some_iff.mp h
  obtain ⟨size, -, h⟩ := map_eq_some_iff.mp h
  obtain ⟨node, -, hunlink⟩ := bind_eq_some_iff.mp hunlink
  obtain ⟨heap₁, -, hunlink⟩ := bind_eq_some_iff.mp hunlink
  obtain ⟨heap₂, -, hunlink⟩ := map_eq_some_iff.mp hunlink
  obtain ⟨hheap, hfirst⟩ := settle_heap hsettle
  rw [← h]
  refine ⟨?_, hfirst⟩
  show p ∉ q₁.heap
  rw [hheap, ← hunlink, mem_erase]
  exact fun hin => hin.1 rfl

/-- **AN ERASED SENTINEL** is in no ring. -/
theorem erase_at_first (hfirst : q.current_ = some q.first_) (h : q.erase = some q') :
    ¬ ∃ qs, Rings q' qs := by
  intro hex
  obtain ⟨qs, hrings⟩ := hex
  obtain ⟨hfreed, hsame⟩ := erase_frees hfirst h
  rw [← hsame] at hfreed
  exact hfreed ((hrings.live _).mpr mem_cons_self)

/-- **`clear()` AT NULL** never ends: `erase()` changes nothing. -/
theorem clear_at_null (hnull : q.current_ = none) (hempty : q.empty = some false) (fuel : ℕ) :
    clearLoop fuel q = .error .waits := by
  induction fuel with
  | zero => rfl
  | succ fuel ih =>
    have herase : q.erase = some q := by rw [erase, hnull]
    rw [clearLoop, hempty, checked_some, herase, checked_some, ih]
    rfl

/-- **`clear()` AT THE SENTINEL** reads it after it is freed. -/
theorem clear_at_first (hfirst : q.current_ = some q.first_) (hempty : q.empty = some false) (fuel : ℕ) :
    clearLoop (fuel + 2) q = .error .undefined := by
  rw [clearLoop, hempty, checked_some]
  cases herase : q.erase with
  | none => rfl
  | some q₁ =>
    obtain ⟨hfreed, hsame⟩ := erase_frees hfirst herase
    have hdead : q₁.empty = none := by
      rw [← hsame, ← lookup_eq_none] at hfreed
      rw [empty, hfreed, map_none]
    show checked (some q₁) (clearLoop (fuel + 1)) = .error .undefined
    rw [checked_some, clearLoop, hdead, checked_none]

end Broken

/-! ## §6. Histories. -/

section Histories

variable {q : QList T} {t : Tape T}

/-- **THE CALLS OF A LIST WITH A CURSOR.** -/
theorem step_matched (h : Holds q t) {c : Call T} (halloc : Allocates q t c) (hkeeps : Keeps q t c) :
    Matched Holds (step q c) (tape t c) := by
  obtain ⟨qs, h⟩ := h
  cases c with
  | push_back x addr =>
    obtain ⟨q', hpush, hholds⟩ := push_back_matched h (x := x) halloc hkeeps
    rw [step, hpush]
    exact .answer hholds
  | push_front x addr =>
    obtain ⟨q', hpush, hholds⟩ := push_front_matched h (x := x) halloc hkeeps
    rw [step, hpush]
    exact .answer hholds
  | prepareTraversal =>
    refine .answer ⟨qs, ⟨h.rings.ring, h.rings.live, h.rings.size, fun p hp => ?_⟩, h.data, rfl, h.size_le⟩
    cases hp
    exact mem_cons_self
  | hasNext => exact has_matched h (fun hc => by rw [Tape.ahead, hc]) fun p hp => h.ahead_link hp
  | next => exact move_matched h (fun hc => by rw [Tape.ahead, hc]) fun p hp => h.ahead_link hp
  | hasPrev => exact has_matched h (fun hc => by rw [Tape.back, hc]) fun p hp => h.back_link hp
  | prev => exact move_matched h (fun hc => by rw [Tape.back, hc]) fun p hp => h.back_link hp
  | erase =>
    show Matched Holds (checked q.erase fun q => .ok (Answer.unit, q)) (.ok (Answer.unit, t.erase))
    cases hc : t.cursor with
    | null =>
      rw [erase, h.null_iff.mpr hc, Tape.erase, hc]
      exact .answer ⟨qs, h⟩
    | first => exact absurd hc hkeeps
    | index i =>
      obtain ⟨q', herase, hlists⟩ := h.erase_eq hc
      rw [herase, Tape.erase, hc]
      exact .answer ⟨_, hlists⟩
  | clear => exact clear_matched h hkeeps
  | size =>
    show Matched Holds (.ok (Answer.count q.size_, q)) (.ok (Answer.count t.elements.length, t))
    rw [h.size_eq]
    exact .answer ⟨qs, h⟩
  | empty =>
    obtain ⟨node, -, -, hempty⟩ := empty_eq h.rings.ring ((h.rings.live _).mpr mem_cons_self)
    have hnil : qs.isEmpty = t.elements.isEmpty := by
      rw [Bool.eq_iff_iff, isEmpty_iff_length_eq_zero, isEmpty_iff_length_eq_zero, h.length_eq]
    show Matched Holds (checked q.empty fun b => .ok (Answer.flag b, q)) (.ok (Answer.flag t.elements.isEmpty, t))
    rw [hempty, hnil]
    exact .answer ⟨qs, h⟩

/-- **THE CALLS THAT ARE NOT.** -/
theorem not_step_rings (h : Holds q t) {c : Call T} (hbad : ¬ Keeps q t c) :
    ¬ Matched RingOf (step q c) (tape t c) := by
  obtain ⟨qs, h⟩ := h
  cases c with
  | push_back x addr =>
    rw [step, push_back, push_overflow h hbad]
    exact not_matched_error_ok
  | push_front x addr =>
    rw [step, push_front, push_overflow h hbad]
    exact not_matched_error_ok
  | erase =>
    have hc : t.cursor = .first := not_not.mp hbad
    have hfirst : q.current_ = some q.first_ := by
      have hcursor := h.cursor
      rwa [hc] at hcursor
    rw [step]
    cases herase : q.erase with
    | none => exact not_matched_error_ok
    | some q' =>
      intro hmatched
      obtain ⟨qs', hrings, -⟩ := (matched_ok_iff.mp hmatched).2
      exact erase_at_first hfirst herase ⟨qs', hrings⟩
  | clear =>
    have hnot : t.elements ≠ [] ∧ ¬ ∃ i, t.cursor = .index i := not_or.mp hbad
    obtain ⟨node, -, -, hempty⟩ := empty_eq h.rings.ring ((h.rings.live _).mpr mem_cons_self)
    have hfalse : qs.isEmpty = false := by
      rw [Bool.eq_false_iff, Ne, isEmpty_iff_length_eq_zero, h.length_eq, length_eq_zero_iff]
      exact hnot.1
    rw [hfalse] at hempty
    have hfuel : ∃ fuel, q.heap.entries.length = fuel + 1 := by
      have hle := length_le_entries h.rings.ring.nodup fun p hp => (h.rings.live p).mpr hp
      rw [length_cons] at hle
      exact ⟨q.heap.entries.length - 1, by omega⟩
    obtain ⟨fuel, hfuel⟩ := hfuel
    show ¬ Matched RingOf q.clear (.ok (.unit, t.clear))
    unfold clear
    cases hc : t.cursor with
    | null =>
      rw [clear_at_null (h.null_iff.mpr hc) hempty]
      exact not_matched_error_ok
    | first =>
      have hcursor := h.cursor
      rw [hc] at hcursor
      rw [hfuel, clear_at_first hcursor hempty]
      exact not_matched_error_ok
    | index i => exact absurd ⟨i, hc⟩ hnot.2
  | prepareTraversal | hasNext | next | hasPrev | prev | size | empty => exact absurd trivial hbad

theorem Holds.ringOf (h : Holds q t) : RingOf q t := by
  obtain ⟨qs, h⟩ := h
  exact ⟨qs, h.rings, h.length_eq⟩

theorem new_holds (first : ℕ) (uniqueVal : T) : Holds (new first uniqueVal) {} := by
  have hlookup : (new first uniqueVal).heap.lookup first = some ⟨uniqueVal, some first, some first⟩ :=
    lookup_insert ∅
  refine ⟨[], ⟨⟨follow_eq hlookup, follow_eq hlookup, nodup_singleton first⟩, fun p => ?_, rfl, ?_⟩,
    rfl, rfl, (by decide : (0 : ℤ) ≤ INT32_MAX)⟩
  · show p ∈ AList.insert first _ ∅ ↔ p ∈ [first]
    rw [mem_insert, mem_singleton]
    exact or_iff_left (notMem_empty p)
  · intro p hp
    cases hp
    exact mem_cons_self

/-- **A RING OVER EVERY HISTORY**, with the answers of a list with a cursor, exactly
    when `size_` can count the elements, nothing is erased at the sentinel, and a
    list that is not empty is only cleared with the cursor at an element. -/
theorem history_rings_iff (first : ℕ) (uniqueVal : T) (cs : List (Call T))
    (halloc : Calls step tape Allocates (new first uniqueVal) {} cs) :
    (∀ n, Matched RingOf (history step (new first uniqueVal) (cs.take n)) (history tape {} (cs.take n))) ↔
      Calls step tape Keeps (new first uniqueVal) {} cs := by
  refine matched_iff_calls Holds ?_ ?_ (new_holds first uniqueVal).ringOf (new_holds first uniqueVal) halloc
  · intro q t c _ h halloc hkeeps
    exact (step_matched h halloc hkeeps).mono fun _ _ h => ⟨h.ringOf, h⟩
  · intro q t c _ h _ hbad
    exact not_step_rings h hbad

instance (q : QList T) (t : Tape T) : ∀ c, Decidable (Allocates q t c)
  | .push_back _ addr => inferInstanceAs (Decidable (addr ∉ q.heap))
  | .push_front _ addr => inferInstanceAs (Decidable (addr ∉ q.heap))
  | .prepareTraversal => inferInstanceAs (Decidable True)
  | .hasNext => inferInstanceAs (Decidable True)
  | .next => inferInstanceAs (Decidable True)
  | .hasPrev => inferInstanceAs (Decidable True)
  | .prev => inferInstanceAs (Decidable True)
  | .erase => inferInstanceAs (Decidable True)
  | .clear => inferInstanceAs (Decidable True)
  | .size => inferInstanceAs (Decidable True)
  | .empty => inferInstanceAs (Decidable True)

/-- Two elements, one of them erased and the other one cleared, and a third one. -/
theorem history_rings_iff_two :
    (∀ n, Matched RingOf
        (history step (new 5 0) (([.push_back 1 10, .push_front 2 11, .next, .erase, .clear,
          .push_back 3 12, .prepareTraversal, .next] : List (Call ℕ)).take n))
        (history tape {} (([.push_back 1 10, .push_front 2 11, .next, .erase, .clear,
          .push_back 3 12, .prepareTraversal, .next] : List (Call ℕ)).take n))) ↔
      Calls step tape Keeps (new 5 0) {} ([.push_back 1 10, .push_front 2 11, .next, .erase, .clear,
          .push_back 3 12, .prepareTraversal, .next] : List (Call ℕ)) :=
  history_rings_iff 5 0 _ (by decide)

/-- An element is pushed into a new list, where the cursor is at the sentinel, and
    `erase()` called: it frees the sentinel, which the next push reads. -/
theorem push_after_erase :
    ¬ ∀ (first uniqueVal : ℕ) (cs : List (Call ℕ)), Calls step tape Allocates (new first uniqueVal) {} cs →
      Matched RingOf (history step (new first uniqueVal) cs) (history tape {} cs) := by
  intro h
  have hmatched := h 5 0 [.push_back 1 10, .erase, .push_back 2 11] (by decide)
  have hwrong : answers (history step (new 5 0) [.push_back 1 10, .erase, .push_back 2 11])
      ≠ answers (history tape ({} : Tape ℕ) [.push_back 1 10, .erase, .push_back 2 11]) := by decide
  exact hwrong hmatched.answers_eq

end Histories

end QList

end KalavaPir.Common
