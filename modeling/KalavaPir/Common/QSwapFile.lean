/-
  KalavaPir.Common.QSwapFile — `q_swap_file` and `q_recovery_file` of
  `common/qglobal.h`.

  `q_swap_file(new, org)` keeps the old `org` as `org.recovery` while it moves
  `new` into its place; `q_recovery_file(org)` brings the backup back when a
  stop in between left no `org`.  Both are SMALL-STEP programs here, one step a
  turn of a loop or a test: the argument `ok` of a step is whether the `remove`
  or `rename` it reaches succeeds, so a run is a list of outcomes, and a run
  that was stopped is just a shorter list.

  Both print the name of the backup into an array of 256 bytes without a bound.
-/
import Mathlib.Data.Int.Init
import KalavaPir.Framework.Directory

namespace KalavaPir.Common

open KalavaPir.Framework

variable {C : Type}

/-! ## §1. The two programs. -/

/-- `sprintf(bak_file, "%s.recovery", org_file)`. -/
def bak_file (org_file : String) : String := org_file ++ ".recovery"

/-- It stays inside `char bak_file[1<<8]`, with the NUL at its end. -/
def BakFits (org_file : String) : Prop := (bak_file org_file).utf8ByteSize < 256

instance (org_file : String) : Decidable (BakFits org_file) := inferInstanceAs (Decidable (_ < _))

/-- The three loops of `q_swap_file`, its `return 0`, and a `sprintf` that went
    past the array, after which anything can happen. -/
inductive SwapAt where
  | removeBak
  | renameOrg
  | renameNew
  | returned
  | overflow
  deriving DecidableEq, Repr

/-- One turn of the loop `while(access(file, 0)==0&&operation)`: the loop ends
    when the file is absent or the operation succeeds, and turns again when the
    operation fails. -/
def swapTurn (here next : SwapAt) (file : String)
    (operation : Directory String C → Directory String C) (ok : Bool) (d : Directory String C) :
    SwapAt × Directory String C :=
  if d.access file then
    if ok then (next, operation d) else (here, d)
  else (next, d)

/-- A step of `q_swap_file(new_file, org_file)`. -/
def swapStep (new_file org_file : String) (s : SwapAt × Directory String C) (ok : Bool) :
    SwapAt × Directory String C :=
  match s with
  | (.removeBak, d) =>
    swapTurn .removeBak .renameOrg (bak_file org_file) (·.remove (bak_file org_file)) ok d
  | (.renameOrg, d) =>
    swapTurn .renameOrg .renameNew org_file (·.rename org_file (bak_file org_file)) ok d
  | (.renameNew, d) =>
    swapTurn .renameNew .returned new_file (·.rename new_file org_file) ok d
  | (.returned, d) => (.returned, d)
  | (.overflow, d) => (.overflow, d)

/-- Behind the `sprintf`. -/
def swapStart (org_file : String) : SwapAt := if BakFits org_file then .removeBak else .overflow

/-- `q_swap_file` as far as the outcomes go. -/
def swapRun (new_file org_file : String) (d : Directory String C) (oks : List Bool) :
    SwapAt × Directory String C :=
  oks.foldl (swapStep new_file org_file) (swapStart org_file, d)

/-- The tests of `q_recovery_file`, its `rename`, its return codes, and a `sprintf`
    that went past the array. -/
inductive RecoveryAt where
  | accessOrg
  | accessBak
  | renameBak
  | returned (code : ℤ)
  | overflow
  deriving DecidableEq, Repr

/-- A step of `q_recovery_file(org_file)`. -/
def recoveryStep (org_file : String) (s : RecoveryAt × Directory String C) (ok : Bool) :
    RecoveryAt × Directory String C :=
  match s with
  | (.accessOrg, d) =>
    (if d.access org_file then .returned 0 else if BakFits org_file then .accessBak else .overflow, d)
  | (.accessBak, d) => (if d.access (bak_file org_file) then .renameBak else .returned 0, d)
  | (.renameBak, d) =>
    if ok then (.returned 0, d.rename (bak_file org_file) org_file) else (.returned (-1), d)
  | (.returned code, d) => (.returned code, d)
  | (.overflow, d) => (.overflow, d)

/-- `q_recovery_file` as far as the outcomes go. -/
def recoveryRun (org_file : String) (d : Directory String C) (oks : List Bool) :
    RecoveryAt × Directory String C :=
  oks.foldl (recoveryStep org_file) (.accessOrg, d)

/-! ## §2. Recovery: what it keeps and what it ends with. -/

/-- The backup is another file. -/
theorem bak_file_ne (org_file : String) : bak_file org_file ≠ org_file := by
  intro h
  have hlen := congrArg String.length h
  rw [bak_file, String.length_append] at hlen
  have : ".recovery".length = 9 := by decide
  omega

/-- The content `c` is where `q_recovery_file` finds it: under the name itself,
    or in the backup of a file that is gone. -/
def Recoverable (org_file : String) (c : C) (d : Directory String C) : Prop :=
  d org_file = some c ∨ (d org_file = none ∧ d (bak_file org_file) = some c)

/-- What holds at each point of a recovery. -/
def RecoveryInv (org_file : String) (c : C) : RecoveryAt × Directory String C → Prop
  | (.accessOrg, d) => Recoverable org_file c d
  | (.accessBak, d) => d org_file = none ∧ d (bak_file org_file) = some c
  | (.renameBak, d) => d org_file = none ∧ d (bak_file org_file) = some c
  | (.returned code, d) => Recoverable org_file c d ∧ (code = 0 → d org_file = some c)
  | (.overflow, _) => False

variable {org_file new_file : String} {c n : C} {d : Directory String C}

theorem RecoveryInv.recoverable :
    ∀ {s : RecoveryAt × Directory String C}, RecoveryInv org_file c s → Recoverable org_file c s.2
  | (.accessOrg, _), h => h
  | (.accessBak, _), h => Or.inr h
  | (.renameBak, _), h => Or.inr h
  | (.returned _, _), h => h.1

section

variable (hfits : BakFits org_file)
include hfits

/-- The step lemma of a recovery. -/
theorem recoveryStep_inv {s : RecoveryAt × Directory String C} (h : RecoveryInv org_file c s) (ok : Bool) :
    RecoveryInv org_file c (recoveryStep org_file s ok) := by
  obtain ⟨pc, d⟩ := s
  cases pc with
  | accessOrg =>
    cases hd : d.access org_file with
    | true =>
      obtain ⟨x, hx⟩ := Directory.access_iff.mp hd
      have hc : d org_file = some c := by
        obtain hc | ⟨hnone, _⟩ := h
        · exact hc
        · rw [hnone] at hx
          contradiction
      simp only [recoveryStep, hd]
      exact ⟨Or.inl hc, fun _ => hc⟩
    | false =>
      have hnone := Directory.access_eq_false.mp hd
      obtain hc | hbak := h
      · rw [hnone] at hc
        contradiction
      · simp only [recoveryStep, hd, Bool.false_eq_true, if_false, if_pos hfits]
        exact hbak
  | accessBak =>
    have hd : d.access (bak_file org_file) = true := Directory.access_iff.mpr ⟨c, h.2⟩
    simp only [recoveryStep, hd]
    exact h
  | renameBak =>
    cases ok with
    | true =>
      have hc : d.rename (bak_file org_file) org_file org_file = some c := by
        rw [Directory.rename_target, h.2]
      exact ⟨Or.inl hc, fun _ => hc⟩
    | false =>
      refine ⟨Or.inr h, ?_⟩
      intro hcode
      contradiction
  | returned code => exact h
  | overflow => exact h

/-- The run lemma of a recovery. -/
theorem recoveryRun_inv (h : Recoverable org_file c d) (oks : List Bool) :
    RecoveryInv org_file c (recoveryRun org_file d oks) := by
  have key : ∀ (oks : List Bool) (s : RecoveryAt × Directory String C), RecoveryInv org_file c s →
      RecoveryInv org_file c (oks.foldl (recoveryStep org_file) s) := by
    intro oks
    induction oks with
    | nil => exact fun _ hs => hs
    | cons ok oks ih => exact fun s hs => ih _ (recoveryStep_inv hfits hs ok)
  exact key oks (.accessOrg, d) h

/-- **A recovery keeps what can be recovered**, wherever it is stopped. -/
theorem recoveryRun_recoverable (h : Recoverable org_file c d) (oks : List Bool) :
    Recoverable org_file c (recoveryRun org_file d oks).2 :=
  (recoveryRun_inv hfits h oks).recoverable

/-- A recovery that returned 0 has brought the content back. -/
theorem recoveryRun_returned (h : Recoverable org_file c d) {oks : List Bool}
    (hret : (recoveryRun org_file d oks).1 = .returned 0) : (recoveryRun org_file d oks).2 org_file = some c := by
  have hinv := recoveryRun_inv hfits h oks
  generalize recoveryRun org_file d oks = s at hinv hret ⊢
  obtain ⟨pc, d'⟩ := s
  have hpc : pc = .returned 0 := hret
  rw [hpc] at hinv
  exact hinv.2 rfl

end

/-! ## §3. The swap. -/

/-- What holds at each point of a swap: `c` is what `org_file` held when the
    swap began, `n` the content of `new_file`, which may be the same file. -/
def SwapInv (new_file org_file : String) (c n : C) : SwapAt × Directory String C → Prop
  | (.removeBak, d) => d org_file = some c ∧ d new_file = some n
  | (.renameOrg, d) => d org_file = some c ∧ d new_file = some n
  | (.renameNew, d) =>
    d org_file = none ∧ d (bak_file org_file) = some c ∧
      (new_file ≠ org_file → d new_file = some n)
  | (.returned, d) => Recoverable org_file n d
  | (.overflow, _) => False

variable {s : SwapAt × Directory String C}

/-- The step lemma of a swap. -/
theorem swapStep_inv (hbak : new_file ≠ bak_file org_file) (hsame : new_file = org_file → c = n)
    (h : SwapInv new_file org_file c n s) (ok : Bool) :
    SwapInv new_file org_file c n (swapStep new_file org_file s ok) := by
  have horg : org_file ≠ bak_file org_file := (bak_file_ne org_file).symm
  obtain ⟨pc, d⟩ := s
  cases pc with
  | removeBak =>
    have hremoved : SwapInv new_file org_file c n
        (.renameOrg, d.remove (bak_file org_file)) := by
      show d.remove (bak_file org_file) org_file = some c
        ∧ d.remove (bak_file org_file) new_file = some n
      rw [Directory.remove_of_ne horg, Directory.remove_of_ne hbak]
      exact h
    show SwapInv new_file org_file c n (swapTurn .removeBak .renameOrg (bak_file org_file)
      (·.remove (bak_file org_file)) ok d)
    unfold swapTurn
    split_ifs
    · exact hremoved
    · exact h
    · exact h
  | renameOrg =>
    have hd : d.access org_file = true := Directory.access_iff.mpr ⟨c, h.1⟩
    cases ok with
    | true =>
      simp only [swapStep, swapTurn, hd, if_true]
      refine ⟨Directory.rename_source horg d, ?_, ?_⟩
      · rw [Directory.rename_target, h.1]
      · intro hne
        rw [Directory.rename_of_ne hne hbak, h.2]
    | false =>
      simp only [swapStep, swapTurn, hd, if_true]
      exact h
  | renameNew =>
    obtain ⟨hnone, hback, hnew⟩ := h
    by_cases hne : new_file = org_file
    · -- the new file has just been renamed away with the old one
      have hd : d.access new_file = false := by
        rw [hne]
        exact Directory.access_eq_false.mpr hnone
      simp only [swapStep, swapTurn, hd]
      rw [← hsame hne]
      exact Or.inr ⟨hnone, hback⟩
    have hd : d.access new_file = true := Directory.access_iff.mpr ⟨n, hnew hne⟩
    cases ok with
    | true =>
      simp only [swapStep, swapTurn, hd, if_true]
      refine Or.inl ?_
      rw [Directory.rename_target, hnew hne]
    | false =>
      simp only [swapStep, swapTurn, hd, if_true]
      exact ⟨hnone, hback, hnew⟩
  | returned => exact h
  | overflow => exact h

theorem swapStart_of_fits (hfits : BakFits org_file) : swapStart org_file = .removeBak := if_pos hfits

/-- The run lemma of a swap. -/
theorem swapRun_inv (hfits : BakFits org_file) (hbak : new_file ≠ bak_file org_file) (hsame : new_file = org_file → c = n)
    (horg : d org_file = some c) (hnew : d new_file = some n) (oks : List Bool) :
    SwapInv new_file org_file c n (swapRun new_file org_file d oks) := by
  have key : ∀ (oks : List Bool) (s : SwapAt × Directory String C),
      SwapInv new_file org_file c n s →
      SwapInv new_file org_file c n (oks.foldl (swapStep new_file org_file) s) := by
    intro oks
    induction oks with
    | nil => exact fun _ hs => hs
    | cons ok oks ih => exact fun s hs => ih _ (swapStep_inv hbak hsame hs ok)
  unfold swapRun
  rw [swapStart_of_fits hfits]
  exact key oks (.removeBak, d) ⟨horg, hnew⟩

/-- **At every stop of a swap** the content from before can be recovered, or
    already the new one; once the swap has returned, the new one. -/
theorem swapRun_recoverable (hfits : BakFits org_file) (hbak : new_file ≠ bak_file org_file) (hsame : new_file = org_file → c = n)
    (horg : d org_file = some c) (hnew : d new_file = some n) (oks : List Bool) :
    ∃ x, Recoverable org_file x (swapRun new_file org_file d oks).2 ∧ (x = c ∨ x = n)
      ∧ ((swapRun new_file org_file d oks).1 = .returned → x = n) := by
  have hinv := swapRun_inv hfits hbak hsame horg hnew oks
  generalize swapRun new_file org_file d oks = s at hinv ⊢
  obtain ⟨pc, d'⟩ := s
  cases pc with
  | removeBak | renameOrg => exact ⟨c, Or.inl hinv.1, Or.inl rfl, fun h => nomatch h⟩
  | renameNew => exact ⟨c, Or.inr ⟨hinv.1, hinv.2.1⟩, Or.inl rfl, fun h => nomatch h⟩
  | returned => exact ⟨n, hinv, Or.inr rfl, fun _ => rfl⟩
  | overflow => exact hinv.elim

/-- Once inside the array, a swap stays there. -/
theorem swapStep_ne_overflow (hs : s.1 ≠ .overflow) (ok : Bool) :
    (swapStep new_file org_file s ok).1 ≠ .overflow := by
  obtain ⟨pc, d⟩ := s
  cases pc with
  | removeBak | renameOrg | renameNew =>
    simp only [swapStep, swapTurn]
    split_ifs <;> exact nofun
  | returned => exact nofun
  | overflow => exact absurd rfl hs

/-- The same for `org_file` alone, which may be absent at first. -/
def SwapOrgInv (new_file org_file : String) (old : Option C) (n : C) : SwapAt × Directory String C → Prop
  | (.removeBak, d) => d org_file = old ∧ d new_file = some n
  | (.renameOrg, d) => d org_file = old ∧ d new_file = some n
  | (.renameNew, d) => d org_file = none ∧ d new_file = some n
  | (.returned, d) => d org_file = some n
  | (.overflow, _) => False

/-- A step keeps it. -/
theorem swapStep_org {old : Option C} (hbak : new_file ≠ bak_file org_file) (hne : new_file ≠ org_file)
    (h : SwapOrgInv new_file org_file old n s) (ok : Bool) :
    SwapOrgInv new_file org_file old n (swapStep new_file org_file s ok) := by
  have horg : org_file ≠ bak_file org_file := (bak_file_ne org_file).symm
  obtain ⟨pc, d⟩ := s
  cases pc with
  | removeBak =>
    show SwapOrgInv new_file org_file old n (swapTurn .removeBak .renameOrg (bak_file org_file)
      (·.remove (bak_file org_file)) ok d)
    unfold swapTurn
    split_ifs
    · show d.remove (bak_file org_file) org_file = old ∧ d.remove (bak_file org_file) new_file = some n
      rw [Directory.remove_of_ne horg, Directory.remove_of_ne hbak]
      exact h
    · exact h
    · exact h
  | renameOrg =>
    show SwapOrgInv new_file org_file old n (swapTurn .renameOrg .renameNew org_file
      (·.rename org_file (bak_file org_file)) ok d)
    unfold swapTurn
    split_ifs with haccess
    · refine ⟨Directory.rename_source horg d, ?_⟩
      show d.rename org_file (bak_file org_file) new_file = some n
      rw [Directory.rename_of_ne hne hbak]
      exact h.2
    · exact h
    · exact ⟨Directory.access_eq_false.mp (Bool.eq_false_iff.mpr haccess), h.2⟩
  | renameNew =>
    have haccess : d.access new_file = true := Directory.access_iff.mpr ⟨n, h.2⟩
    show SwapOrgInv new_file org_file old n (swapTurn .renameNew .returned new_file
      (·.rename new_file org_file) ok d)
    unfold swapTurn
    split_ifs
    · show d.rename new_file org_file org_file = some n
      rw [Directory.rename_target]
      exact h.2
    · exact h
  | returned => exact h
  | overflow => exact h

/-- **At every stop of a swap** `org_file` is as it was, absent, or the new file;
    and the new one when the swap has returned. -/
theorem swapRun_org (hfits : BakFits org_file) (hbak : new_file ≠ bak_file org_file) (hne : new_file ≠ org_file)
    (hnew : d new_file = some n) (oks : List Bool) :
    SwapOrgInv new_file org_file (d org_file) n (swapRun new_file org_file d oks) := by
  have key : ∀ (oks : List Bool) (s : SwapAt × Directory String C),
      SwapOrgInv new_file org_file (d org_file) n s →
      SwapOrgInv new_file org_file (d org_file) n (oks.foldl (swapStep new_file org_file) s) := by
    intro oks
    induction oks with
    | nil => exact fun _ hs => hs
    | cons ok oks ih => exact fun s hs => ih _ (swapStep_org hbak hne hs ok)
  unfold swapRun
  rw [swapStart_of_fits hfits]
  exact key oks (.removeBak, d) ⟨rfl, hnew⟩

/-! ## §4. Rounds of updates. -/

/-- One update round: a complete `new_file`, the outcomes of `q_swap_file` up
    to where it was stopped, and the runs of `q_recovery_file`, each up to where
    it was stopped. -/
structure Round (C : Type) where
  new_file : String
  content : C
  swap : List Bool
  recoveries : List (List Bool)

namespace Round

/-- The swap of the round. -/
def swapped (org_file : String) (d : Directory String C) (r : Round C) :
    SwapAt × Directory String C :=
  swapRun r.new_file org_file (d.write r.new_file r.content) r.swap

/-- The directory after some of the round's recoveries. -/
def recovered (org_file : String) (d : Directory String C) (r : Round C)
    (runs : List (List Bool)) : Directory String C :=
  runs.foldl (fun d oks => (recoveryRun org_file d oks).2) (r.swapped org_file d).2

/-- The round ends with a recovery that returned 0. -/
def Completed (org_file : String) (d : Directory String C) (r : Round C) : Prop :=
  ∃ before last, r.recoveries = before ++ [last] ∧
    (recoveryRun org_file (r.recovered org_file d before) last).1 = .returned 0

/-- What a completed recovery has to leave: `d` is the directory the round
    began with, `d'` the one after the recovery. -/
def Kept (org_file : String) (d : Directory String C) (r : Round C)
    (d' : Directory String C) : Prop :=
  d' org_file ≠ none ∧ (d' org_file = d org_file ∨ d' org_file = some r.content)
    ∧ ((r.swapped org_file d).1 = .returned → d' org_file = some r.content)

/-- One recovery more. -/
theorem recovered_append (org_file : String) (d : Directory String C) (r : Round C)
    (before : List (List Bool)) (oks : List Bool) : r.recovered org_file d (before ++ [oks])
      = (recoveryRun org_file (r.recovered org_file d before) oks).2 := by
  unfold recovered
  rw [List.foldl_append]
  rfl

variable {r : Round C}

/-- What the recoveries of a round work with, after any number of them. -/
theorem recoverable {org_file : String} {d : Directory String C} (hfits : BakFits org_file)
    (hbak : r.new_file ≠ bak_file org_file) (horg : d org_file ≠ none) (runs : List (List Bool)) :
    ∃ x, Recoverable org_file x (r.recovered org_file d runs)
      ∧ (d org_file = some x ∨ x = r.content)
      ∧ ((r.swapped org_file d).1 = .returned → x = r.content) := by
  obtain ⟨old, hold⟩ := Option.ne_none_iff_exists'.mp horg
  -- what `org_file` holds once `new_file` is there: they may be one file
  have hnow : ∃ c, (d.write r.new_file r.content) org_file = some c
      ∧ (c = old ∨ c = r.content) ∧ (r.new_file = org_file → c = r.content) := by
    by_cases hne : org_file = r.new_file
    · refine ⟨r.content, ?_, Or.inr rfl, fun _ => rfl⟩
      rw [hne, Directory.write_self]
    · refine ⟨old, ?_, Or.inl rfl, fun heq => absurd heq.symm hne⟩
      rw [Directory.write_of_ne hne, hold]
  obtain ⟨c, hc, hwhich, hsame⟩ := hnow
  obtain ⟨x, hrec, hx, hret⟩ := swapRun_recoverable hfits hbak hsame hc (Directory.write_self ..) r.swap
  have hruns : ∀ (runs : List (List Bool)) (d' : Directory String C), Recoverable org_file x d' →
      Recoverable org_file x (runs.foldl (fun d oks => (recoveryRun org_file d oks).2) d') := by
    intro runs
    induction runs with
    | nil => exact fun _ h => h
    | cons oks runs ih => exact fun d' h => ih _ (recoveryRun_recoverable hfits h oks)
  refine ⟨x, hruns runs _ hrec, ?_, hret⟩
  rw [hold]
  obtain rfl | rfl := hx
  · obtain rfl | hcontent := hwhich
    · exact Or.inl rfl
    · exact Or.inr hcontent
  · exact Or.inr rfl

/-- **One round**: each recovery that returns 0 leaves what it has to. -/
theorem kept {org_file : String} {d : Directory String C} (hfits : BakFits org_file)
    (hbak : r.new_file ≠ bak_file org_file) (horg : d org_file ≠ none) {before : List (List Bool)}
    {oks : List Bool} (hret : (recoveryRun org_file (r.recovered org_file d before) oks).1 = .returned 0) :
    r.Kept org_file d (r.recovered org_file d (before ++ [oks])) := by
  obtain ⟨x, hrec, hx, hswap⟩ := r.recoverable hfits hbak horg before
  have hfound : r.recovered org_file d (before ++ [oks]) org_file = some x := by
    rw [recovered_append]
    exact recoveryRun_returned hfits hrec hret
  refine ⟨?_, ?_, ?_⟩
  · rw [hfound]
    exact Option.some_ne_none x
  · rw [hfound]
    obtain hold | hnew := hx
    · exact Or.inl hold.symm
    · exact Or.inr (congrArg some hnew)
  · intro h
    rw [hfound, hswap h]

/-- Neither the swap of the round nor any recovery writes past the array. -/
def Inside (org_file : String) (d : Directory String C) (r : Round C) : Prop :=
  (r.swapped org_file d).1 ≠ .overflow ∧
    ∀ runs oks, (recoveryRun org_file (r.recovered org_file d runs) oks).1 ≠ .overflow

/-- **With a short name** none does. -/
theorem inside {org_file : String} {d : Directory String C} (hfits : BakFits org_file)
    (hbak : r.new_file ≠ bak_file org_file) (horg : d org_file ≠ none) : r.Inside org_file d := by
  constructor
  · intro hover
    have horg' := swapStart_of_fits hfits
    have key : ∀ (oks : List Bool) (s : SwapAt × Directory String C), s.1 ≠ .overflow →
        (oks.foldl (swapStep r.new_file org_file) s).1 ≠ .overflow := by
      intro oks
      induction oks with
      | nil => exact fun _ hs => hs
      | cons ok oks ih => exact fun s hs => ih _ (swapStep_ne_overflow hs ok)
    exact key r.swap (swapStart org_file, _) (by rw [horg']; exact nofun) hover
  · intro runs oks hover
    obtain ⟨x, hrec, -, -⟩ := r.recoverable hfits hbak horg runs
    have hinv := recoveryRun_inv hfits hrec oks
    generalize recoveryRun org_file (r.recovered org_file d runs) oks = s at hinv hover
    obtain ⟨pc, d'⟩ := s
    have hpc : pc = .overflow := hover
    rw [hpc] at hinv
    exact hinv

end Round

/-- The directories that completed rounds lead to. -/
inductive Rounds (org_file : String) (d₀ : Directory String C) : Directory String C → Prop
  | start : Rounds org_file d₀ d₀
  | next {d : Directory String C} {r : Round C} (h : Rounds org_file d₀ d)
      (hbak : r.new_file ≠ bak_file org_file) (hdone : r.Completed org_file d) :
      Rounds org_file d₀ (r.recovered org_file d r.recoveries)

/-- `org_file` is there after all of them. -/
theorem Rounds.exists_org {d₀ : Directory String C} (hfits : BakFits org_file) (h : Rounds org_file d₀ d)
    (horg : d₀ org_file ≠ none) : d org_file ≠ none := by
  induction h with
  | start => exact horg
  | next _ hbak hdone ih =>
    obtain ⟨before, last, hlast, hret⟩ := hdone
    rw [hlast]
    exact (Round.kept hfits hbak ih hret).1

/-- **The update protocol for one name**: start where `org_file` exists and make
    any number of rounds, each with its own new file and stopped anywhere: the
    names stay inside their arrays, and after every recovery that completes,
    whatever recoveries ran before it, `org_file` holds what it held before that
    round or the whole of `new_file`, and the latter whenever `q_swap_file`
    returned. -/
def UpdatesSafely (org_file : String) : Prop :=
  ∀ (C : Type) (d₀ d : Directory String C), d₀ org_file ≠ none → Rounds org_file d₀ d →
    ∀ r : Round C, r.new_file ≠ bak_file org_file → r.Inside org_file d ∧
      ∀ before oks, (recoveryRun org_file (r.recovered org_file d before) oks).1 = .returned 0 →
        r.Kept org_file d (r.recovered org_file d (before ++ [oks]))

/-- A library with version 1 in it. -/
def oneFile (org_file : String) : Directory String ℕ := fun name => if name = org_file then some 1 else none

/-- **THE UPDATE PROTOCOL** is safe for the names whose backup fits into the array,
    and for no other. -/
theorem update_rounds_iff (org_file : String) : UpdatesSafely org_file ↔ BakFits org_file := by
  constructor
  · intro hsafe
    by_contra hlong
    -- the `sprintf` is the first thing that a swap does
    have hround := hsafe ℕ (oneFile org_file) (oneFile org_file) (by simp [oneFile]) .start
      ⟨org_file, 2, [], []⟩ (bak_file_ne org_file).symm
    exact hround.1.1 (if_neg hlong)
  · intro hfits C d₀ d horg hrounds r hbak
    have hnow := hrounds.exists_org hfits horg
    exact ⟨Round.inside hfits hbak hnow, fun before oks hret => Round.kept hfits hbak hnow hret⟩

/-- A swap stopped after its first `rename`, and a recovery that fails once. -/
def stoppedRound : Round ℕ := ⟨"new", 2, [true, true], [[true], [true, true, false], [true, true, true]]⟩

/-- A swap that goes through. -/
def fullRound : Round ℕ := ⟨"new", 3, [true, true, true], [[true]]⟩

/-- A stopped round, then a full one: the library is at version 3. -/
theorem update_rounds_stopped_full :
    fullRound.Kept "lib" (stoppedRound.recovered "lib" (oneFile "lib") stoppedRound.recoveries)
      (fullRound.recovered "lib" (stoppedRound.recovered "lib" (oneFile "lib") stoppedRound.recoveries)
        ([] ++ [[true]])) :=
  ((update_rounds_iff "lib").mpr (by decide) ℕ (oneFile "lib") _ (by decide)
    (Rounds.next Rounds.start (by decide) ⟨[[true], [true, true, false]], [true, true, true], rfl, by decide⟩)
    fullRound (by decide)).2 [] [true] (by decide)

/-- A name of 247 bytes, whose backup has 256. -/
def longName : String := String.ofList (List.replicate 247 'l')

/-- There the `sprintf` of the first swap goes past `bak_file`. -/
theorem update_rounds_overflow : ¬ ∀ org_file, UpdatesSafely org_file := by
  intro hall
  exact absurd ((update_rounds_iff longName).mp (hall longName)) (by decide +kernel)

end KalavaPir.Common
