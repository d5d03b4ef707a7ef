/-
  KalavaPir.Framework.BucketWalk — a traversal of the chains of a hash table.

  The traversal stands at a pointer of a chain and knows the number of its
  bucket.  One step delivers what the pointer refers to and goes on along the
  link; at the end of a chain it looks for the next bucket that is not empty,
  and behind the last bucket it says so.

  `P` are the pointers, `null` tells those that refer to nothing, and `read` what
  a pointer refers to: the element and the next pointer, or nothing at all when
  there is no such cell.
-/
import Mathlib.Data.Multiset.Defs
import KalavaPir.Framework.LinkedChain

namespace KalavaPir.Framework

open List

namespace BucketWalk

/-- Where the traversal stands. -/
structure Cursor (P : Type) where
  index : ℕ
  pos : P

section Steps

variable {P V : Type}

/-- The elements that the steps deliver until one says that there are no more. -/
inductive Visits {C : Type} (step : C → Option (Option V × C)) : C → List V → Prop
  | done {c c' : C} (h : step c = some (none, c')) : Visits step c []
  | next {c c' : C} {v : V} {vs : List V} (h : step c = some (some v, c')) (hs : Visits step c' vs) :
      Visits step c (v :: vs)

/-- What a traversal delivers from its beginning to its end. -/
def Yields {C : Type} (start : Option C) (step : C → Option (Option V × C)) (vs : List V) : Prop :=
  ∃ c, start = some c ∧ Visits step c vs

/-- It delivers what is stored, each element once, and as many as are counted. -/
def Exact {C : Type} (start : Option C) (step : C → Option (Option V × C)) (stored : Multiset V) (count : ℤ) :
    Prop :=
  ∃ vs, Yields start step vs ∧ (vs : Multiset V) = stored ∧ (vs.length : ℤ) = count

variable (null : P → Bool) (read : P → Option (V × P)) (heads : List P)

/-- `index=0; pos=heads[index];` -/
def prepare : Option (Cursor P) := heads[0]?.map fun pos => ⟨0, pos⟩

/-- `for(; index<size; ++index) { pos=heads[index]; if(pos==NULL) continue; else break; }`
    over the heads from the index on. -/
def skipNull : ℕ → P → List P → Cursor P
  | index, pos, [] => ⟨index, pos⟩
  | index, _, head :: rest => if null head then skipNull (index + 1) head rest else ⟨index, head⟩

/-- The element at the position, and the position behind it. -/
def deliver (c : Cursor P) : Option (Option V × Cursor P) :=
  (read c.pos).map fun x => (some x.1, ⟨c.index, x.2⟩)

/-- One step: an element, or `none` behind the last one. -/
def traverse (c : Cursor P) : Option (Option V × Cursor P) :=
  if null c.pos then
    let c := skipNull null (c.index + 1) c.pos (heads.drop (c.index + 1))
    if c.index = heads.length then some (none, c) else deliver read c
  else deliver read c

/-- The elements along the links from a pointer, to one that refers to nothing. -/
def ReadsOut : P → List V → Prop
  | p, [] => null p = true
  | p, v :: vs => null p = false ∧ ∃ p', read p = some (v, p') ∧ ReadsOut p' vs

end Steps

variable {P V : Type} {null : P → Bool} {read : P → Option (V × P)} {heads hs : List P} {c : Cursor P}
  {vs : List V} {rows : List (List V)}

/-! ## §1. The next bucket. -/

/-- Past empty buckets only, to one that is not empty or behind the last. -/
theorem skipNull_cases (null : P → Bool) (hs : List P) (index : ℕ) (pos : P) :
    ((∀ head ∈ hs, null head = true) ∧ (skipNull null index pos hs).index = index + hs.length) ∨
      ∃ before head after, hs = before ++ head :: after ∧ (∀ x ∈ before, null x = true) ∧
        null head = false ∧ skipNull null index pos hs = ⟨index + before.length, head⟩ := by
  induction hs generalizing index pos with
  | nil => exact Or.inl ⟨fun head hhead => absurd hhead not_mem_nil, rfl⟩
  | cons head rest ih =>
    unfold skipNull
    cases hnull : null head with
    | false => exact Or.inr ⟨[], head, rest, rfl, fun x hx => absurd hx not_mem_nil, hnull, rfl⟩
    | true =>
      rw [if_pos rfl]
      rcases ih (index + 1) head with ⟨hall, hend⟩ | ⟨before, x, after, hsplit, hall, hx, hskip⟩
      · refine Or.inl ⟨forall_mem_cons.mpr ⟨hnull, hall⟩, ?_⟩
        rw [hend, length_cons]
        omega
      · refine Or.inr ⟨head :: before, x, after, ?_, forall_mem_cons.mpr ⟨hnull, hall⟩, hx, ?_⟩
        · rw [hsplit, cons_append]
        · rw [hskip, length_cons, show index + 1 + before.length = index + (before.length + 1) by omega]

theorem forall₂_nil (hall : ∀ head ∈ hs, null head = true) :
    List.Forall₂ (ReadsOut null read) hs (List.replicate hs.length []) := by
  induction hs with
  | nil => exact .nil
  | cons head rest ih =>
    rw [forall_mem_cons] at hall
    exact .cons hall.1 (ih hall.2)

theorem null_of_flatten_nil (h : List.Forall₂ (ReadsOut null read) hs rows) (hnil : rows.flatten = []) :
    ∀ head ∈ hs, null head = true := by
  induction h with
  | nil => exact fun head hhead => absurd hhead not_mem_nil
  | cons hrow _ ih =>
    rw [flatten_cons, append_eq_nil_iff] at hnil
    rw [hnil.1] at hrow
    exact forall_mem_cons.mpr ⟨hrow, ih hnil.2⟩

/-- The first element of the chains is that of the first bucket that is not empty. -/
theorem exists_first (h : List.Forall₂ (ReadsOut null read) hs rows) {v : V} (hcons : rows.flatten = v :: vs) :
    ∃ before head after l rows', hs = before ++ head :: after ∧ (∀ x ∈ before, null x = true) ∧
      ReadsOut null read head (v :: l) ∧ List.Forall₂ (ReadsOut null read) after rows' ∧
      vs = l ++ rows'.flatten := by
  induction h with
  | nil => exact absurd hcons (by simp)
  | cons hrow hrest ih =>
    rename_i head row hs rows
    cases row with
    | nil =>
      obtain ⟨before, x, after, l, rows', hsplit, hall, hx, hafter, hvs⟩ := ih hcons
      refine ⟨head :: before, x, after, l, rows', ?_, forall_mem_cons.mpr ⟨hrow, hall⟩, hx, hafter, hvs⟩
      rw [hsplit, cons_append]
    | cons w l =>
      injection hcons with hw hvs
      rw [← hw]
      exact ⟨[], head, hs, l, rows, rfl, fun x hx => absurd hx not_mem_nil, hrow, hrest, hvs.symm⟩

variable {before after : List P} {c' : Cursor P}

theorem drop_behind {i : ℕ} {head : P} (h : heads.drop i = before ++ head :: after) :
    heads.drop (i + before.length + 1) = after ∧ i + before.length < heads.length := by
  constructor
  · rw [show i + before.length + 1 = i + (before.length + 1) by omega, ← drop_drop, h]
    simp
  · have hlen := congrArg List.length h
    rw [length_drop, length_append, length_cons] at hlen
    omega

/-! ## §2. The steps. -/

theorem traverse_of_not_null (h : null c.pos = false) : traverse null read heads c = deliver read c := by
  unfold traverse
  rw [h]
  exact if_neg Bool.false_ne_true

/-- At the end of a chain, with only empty buckets behind it. -/
theorem traverse_end (hin : c.index < heads.length) (hpos : null c.pos = true)
    (hall : ∀ head ∈ heads.drop (c.index + 1), null head = true) :
    ∃ c', traverse null read heads c = some (none, c') := by
  unfold traverse
  rw [if_pos hpos]
  rcases skipNull_cases null (heads.drop (c.index + 1)) (c.index + 1) c.pos with
    ⟨-, hend⟩ | ⟨before, head, after, hsplit, -, hhead, -⟩
  · refine ⟨_, if_pos ?_⟩
    rw [hend, length_drop]
    omega
  · have htrue := hall head (by rw [hsplit]; simp)
    rw [hhead] at htrue
    cases htrue

/-- At the end of a chain, with a bucket behind it that is not empty. -/
theorem traverse_bucket {head : P} (hpos : null c.pos = true)
    (hsplit : heads.drop (c.index + 1) = before ++ head :: after) (hall : ∀ x ∈ before, null x = true)
    (hhead : null head = false) :
    traverse null read heads c = deliver read ⟨c.index + 1 + before.length, head⟩ := by
  have hbehind := drop_behind hsplit
  unfold traverse
  rw [if_pos hpos]
  have hskip : skipNull null (c.index + 1) c.pos (heads.drop (c.index + 1))
      = ⟨c.index + 1 + before.length, head⟩ := by
    rw [hsplit]
    clear hsplit hbehind
    generalize c.index + 1 = i
    generalize c.pos = pos
    induction before generalizing i pos with
    | nil =>
      rw [nil_append, skipNull, hhead]
      rfl
    | cons x before ih =>
      rw [forall_mem_cons] at hall
      rw [cons_append, skipNull, hall.1, if_pos rfl, ih hall.2, length_cons,
        show i + 1 + before.length = i + (before.length + 1) by omega]
  rw [hskip]
  exact if_neg (by show c.index + 1 + before.length ≠ heads.length; omega)

theorem deliver_eq_some {v : V} : deliver read c = some (some v, c') ↔
    c'.index = c.index ∧ read c.pos = some (v, c'.pos) := by
  unfold deliver
  rw [Option.map_eq_some_iff]
  constructor
  · intro h
    obtain ⟨⟨w, p⟩, hread, heq⟩ := h
    injection heq with hw hc
    injection hw with hw
    rw [← hc, ← hw]
    exact ⟨rfl, hread⟩
  · intro h
    obtain ⟨hindex, hread⟩ := h
    exact ⟨(v, c'.pos), hread, by rw [← hindex]⟩

theorem deliver_ne_none : deliver read c ≠ some (none, c') := by
  intro h
  obtain ⟨x, -, heq⟩ := Option.map_eq_some_iff.mp h
  injection heq with hnone _
  cases hnone

/-! ## §3. A traversal. -/

/-- **FROM ANY POSITION**: the rest of the chain, then the other chains. -/
theorem visits_iff (hin : c.index < heads.length) : Visits (traverse null read heads) c vs ↔
    ∃ l rows, ReadsOut null read c.pos l ∧
      List.Forall₂ (ReadsOut null read) (heads.drop (c.index + 1)) rows ∧ vs = l ++ rows.flatten := by
  constructor
  · intro h
    induction h with
    | @done c c' h =>
      cases hpos : null c.pos with
      | false =>
        rw [traverse_of_not_null hpos] at h
        exact absurd h deliver_ne_none
      | true =>
        rcases skipNull_cases null (heads.drop (c.index + 1)) (c.index + 1) c.pos with
          ⟨hall, -⟩ | ⟨before, head, after, hsplit, hall, hhead, -⟩
        · exact ⟨[], _, hpos, forall₂_nil hall, by rw [flatten_replicate_nil]; rfl⟩
        · rw [traverse_bucket hpos hsplit hall hhead] at h
          exact absurd h deliver_ne_none
    | @next c c' v vs h _ ih =>
      cases hpos : null c.pos with
      | false =>
        rw [traverse_of_not_null hpos] at h
        obtain ⟨hindex, hread⟩ := deliver_eq_some.mp h
        obtain ⟨l, rows, hl, hrows, hvs⟩ := ih (by omega)
        rw [hindex] at hrows
        exact ⟨v :: l, rows, ⟨hpos, c'.pos, hread, hl⟩, hrows, by rw [hvs, cons_append]⟩
      | true =>
        rcases skipNull_cases null (heads.drop (c.index + 1)) (c.index + 1) c.pos with
          ⟨hall, -⟩ | ⟨before, head, after, hsplit, hall, hhead, -⟩
        · -- the step would have said that there are no more
          obtain ⟨c'', hend⟩ : ∃ c', traverse null read heads c = some (none, c') := traverse_end hin hpos hall
          rw [hend] at h
          cases h
        rw [traverse_bucket hpos hsplit hall hhead] at h
        obtain ⟨hindex, hread⟩ := deliver_eq_some.mp h
        obtain ⟨hdrop, hlt⟩ := drop_behind hsplit
        dsimp only at hindex hread
        obtain ⟨l, rows, hl, hrows, hvs⟩ := ih (by omega)
        rw [hindex, hdrop] at hrows
        refine ⟨[], List.replicate before.length [] ++ (v :: l) :: rows, hpos, ?_, ?_⟩
        · rw [hsplit]
          exact rel_append (forall₂_nil hall) (.cons ⟨hhead, c'.pos, hread, hl⟩ hrows)
        · rw [flatten_append, flatten_replicate_nil, flatten_cons, hvs]
          rfl
  · intro h
    induction vs generalizing c with
    | nil =>
      obtain ⟨l, rows, hl, hrows, hvs⟩ := h
      obtain ⟨hnil, hflat⟩ := append_eq_nil_iff.mp hvs.symm
      rw [hnil] at hl
      obtain ⟨c', hend⟩ : ∃ c', traverse null read heads c = some (none, c') :=
        traverse_end hin hl (null_of_flatten_nil hrows hflat)
      exact .done hend
    | cons v vs ih =>
      obtain ⟨l, rows, hl, hrows, hvs⟩ := h
      cases l with
      | cons w l =>
        obtain ⟨hpos, p, hread, hl⟩ := hl
        injection hvs with hw hvs
        rw [hw]
        have hstep : traverse null read heads c = some (some w, ⟨c.index, p⟩) := by
          rw [traverse_of_not_null hpos]
          exact deliver_eq_some.mpr ⟨rfl, hread⟩
        exact .next hstep (ih hin ⟨l, rows, hl, hrows, hvs⟩)
      | nil =>
        obtain ⟨before, head, after, l, rows', hsplit, hall, hhead, hafter, hrest⟩ :=
          exists_first hrows hvs.symm
        obtain ⟨hnull, p, hread, hl'⟩ := hhead
        obtain ⟨hdrop, hlt⟩ := drop_behind hsplit
        have hstep : traverse null read heads c
            = some (some v, ⟨c.index + 1 + before.length, p⟩) := by
          rw [traverse_bucket hl hsplit hall hnull]
          exact deliver_eq_some.mpr ⟨rfl, hread⟩
        refine .next hstep (ih hlt ⟨l, rows', hl', ?_, hrest⟩)
        rw [hdrop]
        exact hafter

/-- **A WHOLE TRAVERSAL.** -/
theorem yields_iff : Yields (prepare heads) (traverse null read heads) vs ↔
    heads ≠ [] ∧ ∃ rows, List.Forall₂ (ReadsOut null read) heads rows ∧ vs = rows.flatten := by
  cases heads with
  | nil =>
    refine iff_of_false (fun h => ?_) (fun h => h.1 rfl)
    obtain ⟨c, hc, -⟩ := h
    cases hc
  | cons head rest =>
    have hin : (⟨0, head⟩ : Cursor P).index < (head :: rest).length := Nat.succ_pos _
    constructor
    · intro h
      obtain ⟨c, hc, hvisits⟩ := h
      injection hc with hc
      rw [← hc] at hvisits
      obtain ⟨l, rows, hl, hrows, hvs⟩ := (visits_iff hin).mp hvisits
      exact ⟨by simp, l :: rows, .cons hl hrows, hvs⟩
    · intro h
      obtain ⟨-, rows, hrows, hvs⟩ := h
      cases hrows with
      | cons hl hrest => exact ⟨_, rfl, (visits_iff hin).mpr ⟨_, _, hl, hrest, hvs⟩⟩

/-! ## §4. Pointers that are addresses. -/

/-- A chain of cells that are there, read along its links. -/
theorem readsOut_of_linked {A : Type} {next : A → Option A} {cell : A → Option (V × Option A)}
    {value : A → Option V} {h : Option A} {l : List A} (hl : Linked next h l)
    (hcell : ∀ p ∈ l, ∃ v, value p = some v ∧ cell p = some (v, next p)) :
    ReadsOut Option.isNone (fun p => p.bind cell) h (l.filterMap value) := by
  induction l generalizing h with
  | nil =>
    have hnone : h = none := hl
    rw [hnone]
    rfl
  | cons p l ih =>
    obtain ⟨hp, hrest⟩ := hl
    rw [forall_mem_cons] at hcell
    obtain ⟨⟨v, hvalue, hread⟩, hcells⟩ := hcell
    rw [hp, filterMap_cons_some hvalue]
    exact ⟨rfl, next p, hread, ih hrest hcells⟩

end BucketWalk

end KalavaPir.Framework
