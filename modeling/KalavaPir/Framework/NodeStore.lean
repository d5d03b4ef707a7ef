/-
  KalavaPir.Framework.NodeStore — nodes that are made and deleted.

  A store holds the nodes that are allocated, each under its address; to read
  any other address is a fault.  A link of a node is a pointer, NULL or an
  address, and `follow` makes the pointers of a chain out of it.
-/
import Mathlib.Data.List.AList
import KalavaPir.Framework.LinkedChain

namespace KalavaPir.Framework

open List Option AList

/-- The allocated nodes. -/
abbrev NodeStore (N : Type) : Type := AList fun _ : ℕ => N

variable {N : Type}

/-- `p->link`, NULL where there is no node. -/
def follow (link : N → Option ℕ) (heap : NodeStore N) (p : ℕ) : Option ℕ := (heap.lookup p).bind link

/-- `p->field=value;`, undefined where there is no node. -/
def assign (heap : NodeStore N) (p : Option ℕ) (f : N → N) : Option (NodeStore N) :=
  p.bind fun p => (heap.lookup p).map fun x => heap.insert p (f x)

/-- `while(p&&!test(p)) { q=p; p=p->link; }`: where it stops, and what is before
    it; `none` at an address without a node, and when the fuel runs out. -/
def walkNodes (link : N → Option ℕ) (heap : NodeStore N) (test : N → Bool) :
    ℕ → Option ℕ → Option ℕ → Option (Option ℕ × Option ℕ)
  | 0, _, _ => none
  | _ + 1, q, none => some (q, none)
  | fuel + 1, q, some p =>
    (heap.lookup p).bind fun x =>
      if test x then some (q, some p) else walkNodes link heap test fuel (some p) (link x)

/-- `while(p) { next=p->link; delete p; p=next; }`: the nodes that are left, and
    how many were deleted. -/
def deleteNodes (link : N → Option ℕ) : ℕ → NodeStore N → Option ℕ → Option (NodeStore N × ℕ)
  | 0, _, _ => none
  | _ + 1, heap, none => some (heap, 0)
  | fuel + 1, heap, some p =>
    (heap.lookup p).bind fun x =>
      (deleteNodes link fuel (heap.erase p) (link x)).map fun r => (r.1, r.2 + 1)

variable {link : N → Option ℕ} {heap heap' : NodeStore N} {p r : ℕ} {x : N} {h : Option ℕ} {l : List ℕ}

/-! ## §1. One node. -/

/-- The link of a node that is live. -/
theorem follow_eq (hx : heap.lookup p = some x) : follow link heap p = link x := by
  rw [follow, hx, bind_some]

theorem follow_eq_join : follow link heap p = ((heap.lookup p).map link).join := by
  rw [follow]
  cases heap.lookup p with
  | none => rfl
  | some x => rfl

/-- A link depends on its node alone. -/
theorem follow_congr (hsame : heap'.lookup p = heap.lookup p) : follow link heap' p = follow link heap p := by
  rw [follow, hsame, follow]

/-- The link of the node that was inserted. -/
@[simp] theorem follow_insert_self : follow link (heap.insert p x) p = link x :=
  follow_eq (lookup_insert heap)

/-- The links of the others stay. -/
theorem follow_insert_ne (hr : r ≠ p) : follow link (heap.insert p x) r = follow link heap r :=
  follow_congr (lookup_insert_ne hr)

/-- The links of the others stay. -/
theorem follow_erase_ne (hr : r ≠ p) : follow link (heap.erase p) r = follow link heap r :=
  follow_congr (lookup_erase_ne hr)

/-- A live node can be read … -/
theorem lookup_of_live (hp : p ∈ heap) : ∃ x, heap.lookup p = some x :=
  isSome_iff_exists.mp (lookup_isSome.mpr hp)

/-- … and only a live one. -/
theorem live_of_lookup (hx : heap.lookup p = some x) : p ∈ heap :=
  lookup_isSome.mp (by rw [hx]; rfl)

/-- One node is another, and the others are the same. -/
structure Assigned (heap : NodeStore N) (p : ℕ) (f : N → N) (heap' : NodeStore N) : Prop where
  live : p ∈ heap
  lookup_self : heap'.lookup p = (heap.lookup p).map f
  lookup_ne : ∀ r, r ≠ p → heap'.lookup r = heap.lookup r

/-- A live node can be assigned to. -/
theorem assign_some (hp : p ∈ heap) (f : N → N) :
    ∃ heap', assign heap (some p) f = some heap' ∧ Assigned heap p f heap' := by
  obtain ⟨x, hx⟩ := lookup_of_live hp
  refine ⟨heap.insert p (f x), ?_, hp, ?_, fun r hr => lookup_insert_ne hr⟩
  · rw [assign, bind_some, hx, map_some]
  · rw [lookup_insert, hx, map_some]

variable {f : N → N}

/-- One link is set. -/
theorem Assigned.follow_set (h : Assigned heap p f heap') {v : Option ℕ} (hv : ∀ x, link (f x) = v) :
    follow link heap' = Function.update (follow link heap) p v := by
  obtain ⟨x, hx⟩ := lookup_of_live h.live
  funext r
  by_cases hr : r = p
  · rw [hr, Function.update_self, follow, h.lookup_self, hx, map_some, bind_some, hv]
  · rw [Function.update_of_ne hr, follow_congr (h.lookup_ne r hr)]

/-- What the assignment does not touch stays. -/
theorem Assigned.map_eq {B : Type} {g : N → B} (h : Assigned heap p f heap') (hg : ∀ x, g (f x) = g x)
    (r : ℕ) : (heap'.lookup r).map g = (heap.lookup r).map g := by
  by_cases hr : r = p
  · obtain ⟨x, hx⟩ := lookup_of_live h.live
    rw [hr, h.lookup_self, hx, map_some, map_some, map_some, hg]
  · rw [h.lookup_ne r hr]

/-- The other links stay. -/
theorem Assigned.follow_kept (h : Assigned heap p f heap') (hkept : ∀ x, link (f x) = link x) :
    follow link heap' = follow link heap := by
  funext r
  rw [follow_eq_join, h.map_eq hkept, follow_eq_join]

/-- The same nodes are live. -/
theorem Assigned.mem_iff (h : Assigned heap p f heap') (r : ℕ) : r ∈ heap' ↔ r ∈ heap := by
  have hr := congrArg Option.isSome (h.map_eq (g := fun _ => ()) (fun _ => rfl) r)
  rw [isSome_map, isSome_map] at hr
  rw [← lookup_isSome, ← lookup_isSome, hr]

theorem length_keys (heap : NodeStore N) : heap.keys.length = heap.entries.length := length_map _

/-- There are no more nodes in a list than are live. -/
theorem length_le_entries (hnodup : l.Nodup) (hlive : ∀ p ∈ l, p ∈ heap) :
    l.length ≤ heap.entries.length := by
  have hsub : l ⊆ heap.keys := fun p hp => mem_keys.mp (hlive p hp)
  have hle := (subperm_of_subset hnodup hsub).length_le
  rwa [length_keys] at hle

/-! ## §2. A chain of nodes. -/

/-- **A walk along allocated nodes ends.** -/
theorem Linked.walkNodes (hl : Linked (follow link heap) h l) (hlive : ∀ p ∈ l, p ∈ heap)
    (test : N → Bool) {fuel : ℕ} (hfuel : l.length < fuel) (q : Option ℕ) :
    Framework.walkNodes link heap test fuel q h = some (seek (fun p => (heap.lookup p).any test) q l) := by
  induction l generalizing h fuel q with
  | nil =>
    have hnone : h = none := hl
    cases fuel with
    | zero => exact absurd hfuel (by simp)
    | succ fuel =>
      rw [hnone]
      rfl
  | cons p l ih =>
    obtain ⟨hp, hrest⟩ := hl
    obtain ⟨x, hx⟩ := lookup_of_live (hlive p mem_cons_self)
    rw [follow_eq hx] at hrest
    cases fuel with
    | zero => exact absurd hfuel (by simp)
    | succ fuel =>
      rw [hp, Framework.walkNodes, seek, hx, bind_some, any_some]
      split
      · rfl
      · exact ih hrest (fun r hr => hlive r (mem_cons_of_mem p hr)) (by simpa using hfuel) (some p)

/-- **The nodes of a chain deleted**: they are gone, and the others are there. -/
theorem Linked.deleteNodes (hl : Linked (follow link heap) h l) (hnodup : l.Nodup)
    (hlive : ∀ p ∈ l, p ∈ heap) {fuel : ℕ} (hfuel : l.length < fuel) :
    ∃ heap', Framework.deleteNodes link fuel heap h = some (heap', l.length) ∧
      (∀ p ∈ l, p ∉ heap') ∧ ∀ p, p ∉ l → heap'.lookup p = heap.lookup p := by
  induction l generalizing h heap fuel with
  | nil =>
    have hnone : h = none := hl
    cases fuel with
    | zero => exact absurd hfuel (by simp)
    | succ fuel =>
      rw [hnone]
      exact ⟨heap, rfl, fun p hp => absurd hp not_mem_nil, fun _ _ => rfl⟩
  | cons p l ih =>
    obtain ⟨hp, hrest⟩ := hl
    obtain ⟨hout, hnodup⟩ := nodup_cons.mp hnodup
    have hpheap := hlive p mem_cons_self
    obtain ⟨x, hx⟩ := lookup_of_live hpheap
    have hne : ∀ r ∈ l, r ≠ p := fun r hr heq => hout (heq ▸ hr)
    rw [follow_eq hx] at hrest
    cases fuel with
    | zero => exact absurd hfuel (by simp)
    | succ fuel =>
      -- the rest of the chain is as it was
      have hrest' : Linked (follow link (heap.erase p)) (link x) l :=
        hrest.congr fun r hr => follow_erase_ne (hne r hr)
      have hlive' : ∀ r ∈ l, r ∈ heap.erase p := fun r hr =>
        mem_erase.mpr ⟨hne r hr, hlive r (mem_cons_of_mem p hr)⟩
      obtain ⟨heap', hdel, hgone, hkept⟩ := ih hrest' hnodup hlive' (by simpa using hfuel)
      refine ⟨heap', ?_, ?_, ?_⟩
      · rw [hp, Framework.deleteNodes, hx, bind_some, hdel, map_some, length_cons]
      · intro r hr
        rcases mem_cons.mp hr with heq | hr
        · rw [heq, ← lookup_isSome, hkept p hout, lookup_erase]
          simp
        · exact hgone r hr
      · intro r hr
        rw [mem_cons, not_or] at hr
        rw [hkept r hr.2, lookup_erase_ne hr.1]

end KalavaPir.Framework
