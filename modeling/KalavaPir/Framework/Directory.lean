/-
  KalavaPir.Framework.Directory — named files under `access`, `remove` and
  `rename`.

  A directory gives a name the content of its file, or `none` when no such
  file exists.  The three operations are ATOMIC: a program that stops between
  two of them leaves the directory as the last one made it.  `rename` replaces
  a file that already has the target's name.
-/
import Mathlib.Tactic.Common

namespace KalavaPir.Framework

/-- The content of each file, `none` where there is none. -/
def Directory (N C : Type) : Type := N → Option C

namespace Directory

variable {N C : Type}

/-- `access(name, 0)==0`. -/
def access (d : Directory N C) (name : N) : Bool := (d name).isSome

variable {name other : N}

variable {d : Directory N C}

/-- A name can be accessed iff it has a content. -/
theorem access_iff : d.access name = true ↔ ∃ c, d name = some c :=
  Option.isSome_iff_exists

/-- A name that is missing cannot be accessed. -/
theorem access_eq_false : d.access name = false ↔ d name = none := by
  unfold access
  rw [Option.isSome_eq_false_iff, Option.isNone_iff_eq_none]

variable [DecidableEq N]

/-- The file `name` as a complete write leaves it. -/
def write (d : Directory N C) (name : N) (content : C) : Directory N C :=
  fun other => if other = name then some content else d other

/-- `remove(name)`, when it succeeds. -/
def remove (d : Directory N C) (name : N) : Directory N C :=
  fun other => if other = name then none else d other

/-- `rename(source, target)`, when it succeeds. -/
def rename (d : Directory N C) (source target : N) : Directory N C :=
  fun other => if other = target then d source else if other = source then none else d other

/-- A written file has what was written. -/
@[simp] theorem write_self (d : Directory N C) (name : N) (c : C) : d.write name c name = some c := if_pos rfl

/-- The other files stay. -/
@[simp] theorem write_of_ne (h : other ≠ name) (d : Directory N C) (c : C) :
    d.write name c other = d other := if_neg h

/-- The other files stay. -/
@[simp] theorem remove_of_ne (h : other ≠ name) (d : Directory N C) :
    d.remove name other = d other := if_neg h

/-- The target has the content of the source … -/
@[simp] theorem rename_target (d : Directory N C) (source target : N) :
    d.rename source target target = d source := if_pos rfl

/-- … which is gone … -/
theorem rename_source {source target : N} (h : source ≠ target) (d : Directory N C) :
    d.rename source target source = none := by
  unfold rename
  rw [if_neg h, if_pos rfl]

/-- … and the other files stay. -/
theorem rename_of_ne {source target : N} (hs : other ≠ source) (ht : other ≠ target) (d : Directory N C) :
    d.rename source target other = d other := by
  unfold rename
  rw [if_neg ht, if_neg hs]

end Directory

end KalavaPir.Framework
