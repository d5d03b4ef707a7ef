/-
  KalavaPir.Common.QHttpIsolation — a request and what earlier requests have left,
  `common/qhttpserver.h`.

  The parser ends where a NUL stands outside of the values, and a client need not send
  one.  Without it the parser goes on into the bytes of earlier requests.
-/
import KalavaPir.Common.QHttpServer

namespace KalavaPir.Common

open KalavaPir.Framework List Option

namespace QHttpServer

/-! ## §1. Requests that end by themselves. -/

/-- Does `text` begin with a name, up to case? -/
def Begins (name text : List Char) : Prop := name.map Char.toLower <+: text.map Char.toLower

/-- The text breaks off within the name. -/
def BrokenOff (name text : List Char) : Prop :=
  text.map Char.toLower <+: name.map Char.toLower ∧ text.length < name.length

instance (name text : List Char) : Decidable (Begins name text) :=
  inferInstanceAs (Decidable (_ <+: _))

instance (name text : List Char) : Decidable (BrokenOff name text) :=
  inferInstanceAs (Decidable (_ ∧ _))

/-- `before` ends within the value of a parameter: the name stands in its last line. -/
def InValue (before : List Char) : Prop :=
  ∃ p : Parameter, ∃ line, line <:+ before ∧ (∀ c ∈ line, inValue c = true) ∧ Begins p.name line

/-- A NUL stands outside of the values. -/
def Terminated (text : List Char) : Prop :=
  ∃ before, before ++ ['\x00'] <+: text ∧ ¬ InValue before

/-- What stands behind the blanks, the url and more blanks. -/
def behindUrl (text : List Char) : List Char :=
  ((text.dropWhile isBlank).dropWhile inUrl).dropWhile isBlank

/-- The bytes of a request say themselves how it is read: they are no GET; or what is
behind the url is no version; or it is one, and a NUL outside of the values ends the
parameters. -/
def Settled (r : List Char) : Prop :=
  ¬ BrokenOff "GET".toList r ∧ (Begins "GET".toList r →
    let version := behindUrl (r.drop 3)
    ¬ BrokenOff "HTTP/1.1".toList version
      ∧ (Begins "HTTP/1.1".toList version ∨ Begins "HTTP/1.0".toList version →
        Terminated (version.drop 8)))

/-! ## §2. Lines. -/

section Lines

variable {text : List Char} {c : Char}

theorem not_terminated_of_no_nul (h : '\x00' ∉ text) : ¬ Terminated text := by
  rintro ⟨before, hpre, -⟩
  exact h (hpre.subset (mem_append_right before mem_cons_self))

theorem name_ne_nil (p : Parameter) : p.name ≠ [] := by
  cases p <;> decide

theorem not_inValue_nil : ¬ InValue [] := by
  rintro ⟨p, line, hsuffix, -, hbegins⟩
  rw [suffix_nil.mp hsuffix] at hbegins
  exact name_ne_nil p (map_eq_nil_iff.mp (prefix_nil.mp hbegins))

theorem terminated_nul (cs : List Char) : Terminated ('\x00' :: cs) :=
  ⟨[], ⟨cs, rfl⟩, not_inValue_nil⟩

/-- A character that begins no parameter. -/
theorem terminated_cons (hc : c ≠ '\x00') (hno : ∀ p : Parameter, ¬ Begins p.name (c :: text)) :
    Terminated (c :: text) ↔ Terminated text := by
  constructor
  · rintro ⟨before, hpre, hout⟩
    cases before with
    | nil => exact absurd (cons_prefix_cons.mp hpre).1.symm hc
    | cons d before =>
      obtain ⟨rfl, hrest⟩ := cons_prefix_cons.mp hpre
      refine ⟨before, hrest, ?_⟩
      rintro ⟨p, line, hsuffix, hline, hbegins⟩
      exact hout ⟨p, line, hsuffix.trans (suffix_cons _ _), hline, hbegins⟩
  · rintro ⟨before, hpre, hout⟩
    refine ⟨c :: before, cons_prefix_cons.mpr ⟨rfl, hpre⟩, ?_⟩
    rintro ⟨p, line, hsuffix, hline, hbegins⟩
    rcases suffix_cons_iff.mp hsuffix with rfl | hsuffix
    · -- the name would begin here
      have hlong : c :: before <+: c :: text :=
        cons_prefix_cons.mpr ⟨rfl, (prefix_append before _).trans hpre⟩
      exact hno p (hbegins.trans (hlong.map Char.toLower))
    · exact hout ⟨p, line, hsuffix, hline, hbegins⟩

/-- The first letters of the names. -/
def firstLetters : List Char := ['h', 'r', 'u', 'a']

theorem not_begins_of_first (h : c.toLower ∉ firstLetters) (p : Parameter) : ¬ Begins p.name (c :: text) := by
  intro hbegins
  apply h
  cases p <;> exact (cons_prefix_cons.mp hbegins).1 ▸ by decide

theorem terminated_skip {skipped : List Char} (h : ∀ c ∈ skipped, c ≠ '\x00' ∧ c.toLower ∉ firstLetters) :
    Terminated (skipped ++ text) ↔ Terminated text := by
  induction skipped with
  | nil => exact Iff.rfl
  | cons c skipped ih =>
    obtain ⟨hc, hrest⟩ := forall_mem_cons.mp h
    rw [cons_append, terminated_cons hc.1 (not_begins_of_first hc.2), ih hrest]

theorem no_nul_name (p : Parameter) : '\x00' ∉ p.name.map Char.toLower := by
  cases p <;> decide

/-- No parameter begins within the name, whatever stands behind it. -/
def Clear (name : List Char) : Prop :=
  '\x00' ∉ name.map Char.toLower ∧ ∀ i < name.length, ∀ p : Parameter,
    ¬ (p.name.map Char.toLower).take (name.length - i) <+: (name.map Char.toLower).drop i

theorem clear_connection : Clear "Connection:".toList := by
  refine ⟨by decide, ?_⟩
  intro i hi p
  cases p <;> revert i <;> decide

theorem clear_keep_alive : Clear "keep-alive".toList := by
  refine ⟨by decide, ?_⟩
  intro i hi p
  cases p <;> revert i <;> decide

variable {name value : List Char} {p : Parameter}

theorem Begins.drop (h : Begins name text) {n : ℕ} (hn : n ≤ name.length) :
    (name.map Char.toLower).drop n <+: (text.drop n).map Char.toLower := by
  obtain ⟨rest, hrest⟩ := h
  rw [map_drop, ← hrest, drop_append_of_le_length (by rw [length_map]; omega)]
  exact prefix_append _ _

theorem Begins.length_le (h : Begins name text) : name.length ≤ text.length := by
  have hle := List.IsPrefix.length_le h
  rwa [length_map, length_map] at hle

/-- A name with no parameter in it. -/
theorem terminated_name (hclear : Clear name) (h : Begins name text) :
    ∀ n ≤ name.length, (Terminated text ↔ Terminated (text.drop n)) := by
  have hlen := h.length_le
  intro n
  induction n with
  | zero => exact fun _ => Iff.rfl
  | succ n ih =>
    intro hn
    have hprefix := h.drop (by omega : n ≤ name.length)
    rw [ih (by omega), ← tail_drop]
    cases htext : text.drop n with
    | nil =>
      have hle := drop_eq_nil_iff.mp htext
      omega
    | cons c cs =>
      rw [htext] at hprefix
      cases hname : (name.map Char.toLower).drop n with
      | nil =>
        have hle := drop_eq_nil_iff.mp hname
        rw [length_map] at hle
        omega
      | cons d ds =>
        rw [hname] at hprefix
        apply terminated_cons
        · intro hnul
          have hd : d = '\x00' := by
            rw [(cons_prefix_cons.mp hprefix).1, hnul]
            decide
          have hmem : d ∈ name.map Char.toLower :=
            mem_of_mem_drop (hname ▸ mem_cons_self)
          exact hclear.1 (hd ▸ hmem)
        · intro p hbegins
          apply hclear.2 n (by omega) p
          rw [hname]
          apply prefix_of_prefix_length_le ((List.take_prefix _ _).trans hbegins) hprefix
          rw [← hname, length_take, length_drop, length_map, length_map]
          omega

theorem Begins.letters (h : Begins name text) :
    ∀ c ∈ text.take name.length, c.toLower ∈ name.map Char.toLower := by
  intro c hc
  have htake : (text.take name.length).map Char.toLower = name.map Char.toLower := by
    have hlen : (name.map Char.toLower).length = name.length := length_map Char.toLower
    rw [map_take, ← hlen]
    exact (prefix_iff_eq_take.mp h).symm
  rw [← htake]
  exact mem_map_of_mem hc

/-- **Within a value** a NUL ends nothing. -/
theorem inValue_nul {before : List Char} (h : Begins p.name value) (hvalue : ∀ c ∈ value, inValue c = true)
    (hpre : before ++ ['\x00'] <+: value) : InValue before := by
  have hbefore : before <+: value := (prefix_append before _).trans hpre
  refine ⟨p, before, suffix_refl before, fun c hc => hvalue c (hbefore.subset hc), ?_⟩
  have hnul := no_nul_name p
  have hfold : (before ++ ['\x00']).map Char.toLower = before.map Char.toLower ++ ['\x00'] := by
    rw [map_append]
    rfl
  -- no name contains the NUL, so the name ends in front of it
  rcases prefix_or_prefix_of_prefix h (hpre.map Char.toLower) with hname | hname
  · rw [hfold] at hname
    rcases prefix_concat_iff.mp hname with heq | hname
    · exact absurd (heq ▸ mem_append_right _ mem_cons_self) hnul
    · exact hname
  · rw [hfold] at hname
    exact absurd (hname.subset (mem_append_right _ mem_cons_self)) hnul

theorem not_terminated_value (h : Begins p.name value) (hvalue : ∀ c ∈ value, inValue c = true) :
    ¬ Terminated value := by
  rintro ⟨before, hpre, hout⟩
  exact hout (inValue_nul h hvalue hpre)

/-- **A value that is closed** by a line end. -/
theorem terminated_value {rest : List Char} (h : Begins p.name value)
    (hvalue : ∀ d ∈ value, inValue d = true) (hc : inValue c = false) :
    Terminated (value ++ c :: rest) ↔ Terminated (c :: rest) := by
  constructor
  · rintro ⟨before, hpre, hout⟩
    have hwhole := prefix_append value (c :: rest)
    rcases prefix_or_prefix_of_prefix hpre hwhole with hin | hin
    · -- a NUL within the value does not count
      exact absurd (inValue_nul h hvalue hin) hout
    rcases prefix_concat_iff.mp hin with heq | ⟨after, rfl⟩
    · exact absurd (inValue_nul h hvalue (heq ▸ prefix_refl _)) hout
    rw [append_assoc] at hpre
    refine ⟨after, (prefix_append_right_inj value).mp hpre, ?_⟩
    rintro ⟨q, line, hsuffix, hline, hbegins⟩
    exact hout ⟨q, line, hsuffix.trans (suffix_append _ _), hline, hbegins⟩
  · rintro ⟨before, hpre, hout⟩
    refine ⟨value ++ before, ?_, ?_⟩
    · rw [append_assoc]
      exact (prefix_append_right_inj value).mpr hpre
    · rintro ⟨q, line, hsuffix, hline, hbegins⟩
      have hwhole := suffix_append value before
      rcases suffix_or_suffix_of_suffix hsuffix hwhole with hin | hin
      · exact hout ⟨q, line, hin, hline, hbegins⟩
      -- then the line end stands in the line
      cases before with
      | nil =>
        have hnul : inValue '\x00' = true := by decide
        rw [(cons_prefix_cons.mp hpre).1, hc] at hnul
        cases hnul
      | cons d before =>
        obtain ⟨hd, -⟩ := cons_prefix_cons.mp hpre
        have hin := hline d (hin.subset mem_cons_self)
        rw [hd, hc] at hin
        cases hin

theorem not_terminated_brokenOff (hnul : '\x00' ∉ name.map Char.toLower) (h : BrokenOff name text) :
    ¬ Terminated text := by
  apply not_terminated_of_no_nul
  intro hmem
  exact hnul (h.1.subset (mem_map_of_mem (f := Char.toLower) hmem))

theorem skips_of_isBlank (h : isBlank c = true) : c ≠ '\x00' ∧ c.toLower ∉ firstLetters := by
  have hblank : c = ' ' ∨ c = '\t' := by
    unfold isBlank at h
    simp only [Bool.and_eq_true, Bool.or_eq_true, beq_iff_eq] at h
    exact h.1.1.2
  rcases hblank with rfl | rfl <;> decide

theorem inValue_of_isBlank (h : isBlank c = true) : inValue c = true := by
  unfold isBlank at h
  unfold inValue
  simp only [Bool.and_eq_true] at h ⊢
  exact ⟨h.1.2, h.2⟩

theorem inValue_of_letter (h : c.toLower ∈ p.name.map Char.toLower) : inValue c = true := by
  unfold inValue
  simp only [Bool.and_eq_true, bne_iff_ne]
  constructor
  · rintro rfl
    revert h
    cases p <;> decide
  · rintro rfl
    revert h
    cases p <;> decide

theorem not_terminated_blanks (h : ∀ c ∈ text, isBlank c = true) : ¬ Terminated text := by
  apply not_terminated_of_no_nul
  intro hmem
  exact (skips_of_isBlank (h _ hmem)).1 rfl

end Lines

/-! ## §3. The parameters. -/

section Parameters

variable {t t' : Cursor Char} {io io' : Fields}

variable {name : List Char}

theorem compares_none_iff : compares t name = none ↔ BrokenOff name t.rest :=
  begins_none_iff Char.toLower name t.rest

theorem compares_true_iff : compares t name = some true ↔ Begins name t.rest :=
  begins_true_iff Char.toLower name t.rest

theorem not_brokenOff_of_compares {b : Bool} (h : compares t name = some b) : ¬ BrokenOff name t.rest := by
  intro hbroken
  rw [compares_none_iff.mpr hbroken] at h
  cases h

theorem not_begins_of_compares (h : compares t name = some false) : ¬ Begins name t.rest := by
  intro hbegins
  rw [compares_true_iff.mpr hbegins] at h
  cases h

variable {ps : List Parameter}

theorem findParameter_none (h : findParameter t ps = none) :
    ∃ p : Parameter, BrokenOff p.name t.rest := by
  induction ps with
  | nil => cases h
  | cons p ps ih =>
    rw [findParameter] at h
    cases hb : compares t p.name with
    | none => exact ⟨p, compares_none_iff.mp hb⟩
    | some b =>
      rw [hb, bind_some] at h
      cases b with
      | true => cases h
      | false => exact ih h

theorem findParameter_some_none (h : findParameter t ps = some none) :
    ∀ p ∈ ps, ¬ Begins p.name t.rest := by
  induction ps with
  | nil => exact nofun
  | cons p ps ih =>
    obtain ⟨b, hb, h⟩ := bind_eq_some_iff.mp h
    cases b with
    | true => cases h
    | false => exact forall_mem_cons.mpr ⟨not_begins_of_compares hb, ih h⟩

theorem mem_parameters (p : Parameter) : p ∈ parameters := by
  cases p <;> decide

theorem terminated_blanks (h : t.scanWhile isBlank = some t') : Terminated t.rest ↔ Terminated t'.rest := by
  obtain ⟨skipped, c, cs, hl, hall, -, rfl⟩ := Cursor.scanFrom_some h
  rw [hl]
  exact terminated_skip fun d hd => skips_of_isBlank (hall d hd)

theorem connection_terminated (hbegins : Begins "Connection:".toList t.rest) :
    (connection io t = none → ¬ Terminated t.rest)
      ∧ (connection io t = some (io', t') → (Terminated t.rest ↔ Terminated t'.rest)) := by
  have hname : Terminated t.rest ↔ Terminated (t.advance 11).rest :=
    terminated_name clear_connection hbegins 11 (by decide)
  rw [hname]
  unfold connection
  cases hskip : (t.advance 11).scanWhile isBlank with
  | none =>
    -- blanks up to the end of the buffer
    refine ⟨fun _ => not_terminated_blanks (Cursor.scanFrom_none_iff.mp hskip), nofun⟩
  | some t₁ =>
    rw [terminated_blanks hskip, bind_some]
    cases hb : compares t₁ "keep-alive".toList with
    | none =>
      exact ⟨fun _ => not_terminated_brokenOff clear_keep_alive.1 (compares_none_iff.mp hb),
        nofun⟩
    | some b =>
      cases b with
      | true =>
        refine ⟨nofun, fun h => ?_⟩
        cases h
        exact terminated_name clear_keep_alive (compares_true_iff.mp hb) 10 (by decide)
      | false =>
        refine ⟨nofun, fun h => ?_⟩
        cases h
        exact Iff.rfl

theorem parameter_terminated {p : Parameter} (hbegins : Begins p.name t.rest) :
    (parameter p io t = none → ¬ Terminated t.rest)
      ∧ (parameter p io t = some (io', t') → (Terminated t.rest ↔ Terminated t'.rest)) := by
  have hletters : ∀ c ∈ t.rest.take p.name.length, inValue c = true :=
    fun c hc => inValue_of_letter (hbegins.letters c hc)
  have hrest : (t.advance p.name.length).rest = t.rest.drop p.name.length := rfl
  unfold parameter
  cases hskip : (t.advance p.name.length).scanWhile isBlank with
  | none =>
    refine ⟨fun _ => not_terminated_value hbegins ?_, nofun⟩
    have hblank := Cursor.scanFrom_none_iff.mp hskip
    rw [← take_append_drop p.name.length t.rest]
    exact forall_mem_append.mpr ⟨hletters, fun c hc => inValue_of_isBlank (hblank c hc)⟩
  | some t₁ =>
    obtain ⟨skipped, c₁, cs₁, hskipped, hblank, -, ht₁⟩ := Cursor.scanFrom_some hskip
    rw [hrest] at hskipped
    have hfront : ∀ c ∈ t.rest.take p.name.length ++ skipped, inValue c = true :=
      forall_mem_append.mpr ⟨hletters, fun c hc => inValue_of_isBlank (hblank c hc)⟩
    have hwhole : t.rest = t.rest.take p.name.length ++ skipped ++ t₁.rest := by
      rw [append_assoc, ht₁, ← hskipped, take_append_drop]
    rw [bind_some]
    cases hvalue : t₁.scanWhile inValue with
    | none =>
      -- a value that no line end closes
      refine ⟨fun _ => not_terminated_value hbegins ?_, nofun⟩
      rw [hwhole]
      exact forall_mem_append.mpr ⟨hfront, Cursor.scanFrom_none_iff.mp hvalue⟩
    | some t₂ =>
      obtain ⟨value, c, cs, hvalue', hall, hc, ht₂⟩ := Cursor.scanFrom_some hvalue
      refine ⟨nofun, fun h => ?_⟩
      cases h
      rw [hvalue', ← append_assoc] at hwhole
      have hname : Begins p.name (t.rest.take p.name.length ++ skipped ++ value) := by
        have hpre : t.rest.take p.name.length ++ skipped ++ value <+: t.rest :=
          ⟨c :: cs, hwhole.symm⟩
        apply prefix_of_prefix_length_le hbegins (hpre.map Char.toLower)
        rw [length_map, length_map, length_append, length_append,
          length_take, min_eq_left hbegins.length_le]
        omega
      have hfar := forall_mem_append.mpr ⟨hfront, hall⟩
      rw [ht₂]
      show Terminated t.rest ↔ Terminated (c :: cs)
      rw [hwhole]
      exact terminated_value hname hfar hc

/-- **A character of the rest** that is no NUL. -/
theorem parseOne_terminated {c : Char} {cs : List Char} (hrest : t.rest = c :: cs) (hc : c ≠ '\x00') :
    (parseOne io t = none → ¬ Terminated t.rest)
      ∧ (parseOne io t = some (io', t') → (Terminated t.rest ↔ Terminated t'.rest)) := by
  unfold parseOne
  cases hb : compares t "Connection:".toList with
  | none =>
    exact ⟨fun _ => not_terminated_brokenOff clear_connection.1 (compares_none_iff.mp hb), nofun⟩
  | some b =>
    rw [bind_some]
    cases b with
    | true => exact connection_terminated (compares_true_iff.mp hb)
    | false =>
      cases hfound : findParameter t parameters with
      | none =>
        obtain ⟨p, hp⟩ := findParameter_none hfound
        exact ⟨fun _ => not_terminated_brokenOff (no_nul_name p) hp, nofun⟩
      | some found =>
        cases found with
        | some p =>
          have hp := compares_true_iff.mp (compares_of_findParameter hfound)
          exact parameter_terminated hp
        | none =>
          -- no parameter begins here, and the parser goes on by one character
          refine ⟨nofun, fun h => ?_⟩
          cases h
          have hno := findParameter_some_none hfound
          show Terminated t.rest ↔ Terminated (t.rest.drop 1)
          rw [hrest] at hno ⊢
          exact terminated_cons hc fun p => hno p (mem_parameters p)

/-- A round. -/
theorem parseRound_terminated (s : Fields × Cursor Char) : (parseRound s = none → ¬ Terminated s.2.rest)
      ∧ (∀ s', parseRound s = some (.again s') → (Terminated s.2.rest ↔ Terminated s'.2.rest))
      ∧ (∀ r, parseRound s = some (.done r) → Terminated s.2.rest) := by
  obtain ⟨io, pos, rest⟩ := s
  cases rest with
  | nil =>
    refine ⟨fun _ => not_terminated_of_no_nul not_mem_nil, ?_, ?_⟩
    · intro s' h
      cases h
    · intro r h
      cases h
  | cons c cs =>
    rw [parseRound_cons]
    by_cases hc : c = '\x00'
    · rw [if_pos hc]
      refine ⟨fun h => (some_ne_none _ h).elim, fun s' h => ?_, fun r _ => ?_⟩
      · cases Option.some.inj h
      · rw [hc]
        exact terminated_nul cs
    rw [if_neg hc]
    refine ⟨fun h => ?_, fun s' h => ?_, fun r h => ?_⟩
    · have hone := @parseOne_terminated ⟨pos, c :: cs⟩ ⟨pos, []⟩ io io c cs rfl hc
      exact hone.1 (map_eq_none_iff.mp h)
    · obtain ⟨⟨io', t'⟩, hone, hs'⟩ := map_eq_some_iff.mp h
      cases hs'
      exact (parseOne_terminated rfl hc).2 hone
    · obtain ⟨r', -, hr'⟩ := map_eq_some_iff.mp h
      cases hr'

/-- **The parameters end within the buffer** if and only if a NUL stands outside of the
values. -/
theorem parseParameters_iff : (∃ io', parseParameters io t = some io') ↔ Terminated t.rest := by
  constructor
  · rintro ⟨io', h⟩
    apply loop_result (I := fun s => Terminated s.2.rest ↔ Terminated t.rest)
      (Q := fun _ => Terminated t.rest) _ _ _ Iff.rfl h
    · intro s s' hs hround
      exact ((parseRound_terminated s).2.1 s' hround).symm.trans hs
    · intro s r hs hround
      exact hs.mp ((parseRound_terminated s).2.2 r hround)
  · intro h
    have hround : ∀ s : Fields × Cursor Char, Terminated s.2.rest →
        (∃ s', parseRound s = some (.again s') ∧ Terminated s'.2.rest
          ∧ s'.2.rest.length < s.2.rest.length) ∨ ∃ r, parseRound s = some (.done r) ∧ True := by
      intro s hs
      obtain ⟨hnone, hagain, -⟩ := parseRound_terminated s
      cases hround : parseRound s with
      | none => exact absurd hs (hnone hround)
      | some step =>
        cases step with
        | done r => exact Or.inr ⟨r, rfl, trivial⟩
        | again s' =>
          refine Or.inl ⟨s', rfl, (hagain s' hround).mp hs, ?_⟩
          obtain ⟨cs, -, hstep⟩ | ⟨r, hone, hstep⟩ := parseRound_cases hround
          · cases hstep
          cases hstep
          obtain ⟨-, hstop, hpos⟩ := parseOne_within hone
          unfold Cursor.stop at hstop
          omega
    have hstart : (fun s : Fields × Cursor Char => Terminated s.2.rest) (io, t) := h
    obtain ⟨io', hio', -⟩ := loop_ends (fun s : Fields × Cursor Char => s.2.rest.length) hround
      (t.rest.length + 1) hstart (Nat.lt_succ_self _)
    exact ⟨io', hio'⟩

end Parameters

/-! ## §4. Requests. -/

section Requests

variable {t t' : Cursor Char} {io : Fields}

theorem exists_map_iff {a : Option Fields} {code : ℤ} :
    (∃ r, a.map (fun io => (code, io)) = some r) ↔ ∃ io, a = some io := by
  simp [map_eq_some_iff]

theorem brokenOff_version {text : List Char} (h : BrokenOff "HTTP/1.0".toList text) :
    BrokenOff "HTTP/1.1".toList text := by
  obtain ⟨hpre, hlen⟩ := h
  have hlong : text.length < "HTTP/1.1".toList.length := lt_of_lt_of_eq hlen (by decide)
  refine ⟨?_, hlong⟩
  have hall : ∀ k < "HTTP/1.0".toList.length, ("HTTP/1.0".toList.map Char.toLower).take k
      <+: "HTTP/1.1".toList.map Char.toLower := by decide
  rw [prefix_iff_eq_take.mp hpre, length_map]
  exact hall _ hlen

theorem parseVersion_iff : (∃ r, parseVersion io t = some r) ↔ ¬ BrokenOff "HTTP/1.1".toList t.rest
      ∧ (Begins "HTTP/1.1".toList t.rest ∨ Begins "HTTP/1.0".toList t.rest → Terminated (t.rest.drop 8)) := by
  unfold parseVersion
  cases hb : compares t "HTTP/1.1".toList with
  | none =>
    have hbroken := compares_none_iff.mp hb
    constructor
    · rintro ⟨r, h⟩
      cases h
    · intro h
      exact absurd hbroken h.1
  | some b =>
    have hwhole := not_brokenOff_of_compares hb
    rw [bind_some, and_iff_right hwhole]
    cases b with
    | true =>
      rw [imp_iff_right (Or.inl (compares_true_iff.mp hb)), if_pos rfl]
      rw [exists_map_iff, parseParameters_iff]
      rfl
    | false =>
      rw [if_neg Bool.false_ne_true, or_iff_right (not_begins_of_compares hb)]
      cases hb' : compares t "HTTP/1.0".toList with
      | none => exact absurd (brokenOff_version (compares_none_iff.mp hb')) hwhole
      | some b' =>
        rw [bind_some]
        cases b' with
        | true =>
          rw [imp_iff_right (compares_true_iff.mp hb'), if_pos rfl, exists_map_iff,
            parseParameters_iff]
          rfl
        | false =>
          -- neither version: the parameters are not read
          exact iff_of_true ⟨_, rfl⟩ fun hbegins =>
            absurd hbegins (not_begins_of_compares hb')

theorem brokenOff_nil {name : List Char} (h : name ≠ []) : BrokenOff name [] :=
  ⟨List.nil_prefix, length_pos_iff.mpr h⟩

theorem parseUrl_iff : (∃ r, parseUrl io t = some r) ↔ ¬ BrokenOff "HTTP/1.1".toList (behindUrl t.rest)
      ∧ (Begins "HTTP/1.1".toList (behindUrl t.rest) ∨ Begins "HTTP/1.0".toList (behindUrl t.rest) →
        Terminated ((behindUrl t.rest).drop 8)) := by
  -- a scan that looks behind the end leaves nothing for the version
  have hend : behindUrl t.rest = [] → ¬ (¬ BrokenOff "HTTP/1.1".toList (behindUrl t.rest)
      ∧ (Begins "HTTP/1.1".toList (behindUrl t.rest) ∨ Begins "HTTP/1.0".toList (behindUrl t.rest) →
        Terminated ((behindUrl t.rest).drop 8))) := by
    intro hnil h
    rw [hnil] at h
    exact h.1 (brokenOff_nil (by decide))
  have hbehind : behindUrl t.rest
      = ((t.rest.dropWhile isBlank).dropWhile inUrl).dropWhile isBlank := rfl
  unfold parseUrl
  cases hskip : t.scanWhile isBlank with
  | none =>
    have hnil : behindUrl t.rest = [] := by
      rw [hbehind, Cursor.dropWhile_of_scanWhile_none hskip]
      rfl
    apply iff_of_false _ (hend hnil)
    rintro ⟨r, h⟩
    cases h
  | some t₁ =>
    rw [← Cursor.rest_of_scanWhile hskip] at hbehind
    rw [bind_some]
    cases hurl : t₁.scanWhile inUrl with
    | none =>
      have hnil : behindUrl t.rest = [] := by
        rw [hbehind, Cursor.dropWhile_of_scanWhile_none hurl]
        rfl
      apply iff_of_false _ (hend hnil)
      rintro ⟨r, h⟩
      cases h
    | some t₂ =>
      rw [← Cursor.rest_of_scanWhile hurl] at hbehind
      rw [bind_some]
      cases hskip' : t₂.scanWhile isBlank with
      | none =>
        have hnil : behindUrl t.rest = [] := by
          rw [hbehind, Cursor.dropWhile_of_scanWhile_none hskip']
        apply iff_of_false _ (hend hnil)
        rintro ⟨r, h⟩
        cases h
      | some t₃ =>
        rw [← Cursor.rest_of_scanWhile hskip'] at hbehind
        rw [bind_some, hbehind]
        exact parseVersion_iff

/-- **A request is read within the buffer** if and only if its bytes settle it. -/
theorem process_request_iff {header : List Char} :
    (∃ r, process_request header io = some r) ↔ Settled header := by
  unfold process_request Settled
  cases hb : compares ⟨0, header⟩ "GET".toList with
  | none =>
    apply iff_of_false _ fun h => h.1 (compares_none_iff.mp hb)
    rintro ⟨r, h⟩
    cases h
  | some b =>
    have hwhole : ¬ BrokenOff "GET".toList header := not_brokenOff_of_compares hb
    rw [bind_some, and_iff_right hwhole]
    cases b with
    | true =>
      rw [if_pos rfl, imp_iff_right (compares_true_iff.mp hb)]
      exact parseUrl_iff
    | false =>
      exact iff_of_true ⟨_, rfl⟩ fun hbegins => absurd hbegins (not_begins_of_compares hb)

end Requests

/-! ## §5. What may stand behind a request. -/

section Behind

variable {text : List Char} {name : List Char}

/-- `m` blanks. -/
def blanks (m : ℕ) : List Char := List.replicate m ' '

theorem isBlank_of_mem_blanks {m : ℕ} {c : Char} (h : c ∈ blanks m) : isBlank c = true := by
  rw [eq_of_mem_replicate h]
  decide

variable {p : Char → Bool}

theorem dropWhile_append_ne (h : text.dropWhile p ≠ []) (tail : List Char) :
    (text ++ tail).dropWhile p = text.dropWhile p ++ tail := by
  rw [dropWhile_append, if_neg (by simpa using h)]

theorem dropWhile_append_nil (h : text.dropWhile p = []) (tail : List Char) :
    (text ++ tail).dropWhile p = tail.dropWhile p := by
  rw [dropWhile_append, h]
  rfl

theorem behindUrl_append (h : behindUrl text ≠ []) (tail : List Char) :
    behindUrl (text ++ tail) = behindUrl text ++ tail := by
  have hurl : (text.dropWhile isBlank).dropWhile inUrl ≠ [] := by
    intro hnil
    apply h
    rw [behindUrl, hnil]
    rfl
  have hskip : text.dropWhile isBlank ≠ [] := by
    intro hnil
    apply hurl
    rw [hnil]
    rfl
  rw [behindUrl, dropWhile_append_ne hskip, dropWhile_append_ne hurl, dropWhile_append_ne h]
  rfl

theorem dropWhile_blanks (m : ℕ) : (blanks m).dropWhile isBlank = [] :=
  dropWhile_eq_nil_iff.mpr fun _ hc => isBlank_of_mem_blanks hc

theorem dropWhile_inUrl_blanks (m : ℕ) : (blanks m).dropWhile inUrl = blanks m := by
  cases m <;> rfl

theorem behindUrl_blanks (h : behindUrl text = []) (m : ℕ) : behindUrl (text ++ blanks m) = [] := by
  unfold behindUrl
  by_cases hskip : text.dropWhile isBlank = []
  · rw [dropWhile_append_nil hskip, dropWhile_blanks]
    rfl
  rw [dropWhile_append_ne hskip]
  by_cases hurl : (text.dropWhile isBlank).dropWhile inUrl = []
  · rw [dropWhile_append_nil hurl, dropWhile_inUrl_blanks, dropWhile_blanks]
  · rw [dropWhile_append_ne hurl, dropWhile_append_nil h, dropWhile_blanks]

theorem terminated_append_blanks {m : ℕ} (h : Terminated (text ++ blanks m)) : Terminated text := by
  obtain ⟨before, hpre, hout⟩ := h
  rcases prefix_or_prefix_of_prefix hpre (prefix_append text (blanks m)) with hin | hin
  · exact ⟨before, hin, hout⟩
  -- the NUL would be a blank
  rcases prefix_concat_iff.mp hin with heq | ⟨after, rfl⟩
  · exact ⟨before, heq ▸ prefix_refl _, hout⟩
  rw [append_assoc] at hpre
  have hmem := ((prefix_append_right_inj text).mp hpre).subset
    (mem_append_right after mem_cons_self)
  exact absurd (isBlank_of_mem_blanks hmem) (by decide)

theorem Begins.append (h : Begins name text) (tail : List Char) : Begins name (text ++ tail) :=
  List.IsPrefix.trans h ((prefix_append text tail).map Char.toLower)

/-- The rest of a name, and blanks. -/
def completion (name : List Char) (k m : ℕ) : List Char := (name.drop k ++ blanks m).take m

theorem length_completion (name : List Char) (k m : ℕ) : (completion name k m).length = m := by
  rw [completion, length_take, length_append, blanks, length_replicate]
  omega

/-- **A name that is broken off** can go on, with blanks behind it. -/
theorem brokenOff_completion (h : BrokenOff name text) (m : ℕ) :
    BrokenOff name (text ++ completion name text.length m)
      ∨ Begins name (text ++ completion name text.length m)
        ∧ ∃ k, (text ++ completion name text.length m).drop name.length = blanks k := by
  obtain ⟨hpre, hlen⟩ := h
  have htext : text.map Char.toLower = (name.map Char.toLower).take text.length := by
    have hsame : (text.map Char.toLower).length = text.length := length_map Char.toLower
    rw [← hsame]
    exact prefix_iff_eq_take.mp hpre
  by_cases hm : text.length + m < name.length
  · left
    have htail : completion name text.length m = (name.drop text.length).take m := by
      rw [completion, take_append_of_le_length]
      rw [length_drop]
      omega
    constructor
    · rw [htail, map_append, htext, map_take, map_drop, ← take_add]
      exact take_prefix _ _
    · rw [length_append, length_completion]
      exact hm
  right
  have htail : completion name text.length m
      = name.drop text.length ++ blanks (m - (name.length - text.length)) := by
    rw [completion, take_append, length_drop,
      take_of_length_le (by rw [length_drop]; omega), blanks, blanks,
      take_replicate, min_eq_left (Nat.sub_le _ _)]
  constructor
  · rw [htail, ← append_assoc]
    apply Begins.append
    refine ⟨[], ?_⟩
    rw [append_nil, map_append, htext, map_drop, take_append_drop]
  · refine ⟨m - (name.length - text.length), ?_⟩
    rw [htail, ← append_assoc]
    apply drop_left'
    rw [length_append, length_drop]
    omega

/-- **A request that is not settled** can be followed by bytes that do not settle it. -/
theorem not_settled_append {r : List Char} (h : ¬ Settled r) (m : ℕ) :
    ∃ tail : List Char, tail.length = m ∧ ¬ Settled (r ++ tail) := by
  by_cases hget : BrokenOff "GET".toList r
  · -- the method breaks off: it goes on, and the url never ends
    refine ⟨completion "GET".toList r.length m, length_completion _ _ _, ?_⟩
    rintro ⟨hwhole, hversion⟩
    rcases brokenOff_completion hget m with hbroken | ⟨hbegins, k, hk⟩
    · exact hwhole hbroken
    have hnil : behindUrl (blanks k) = [] := @behindUrl_blanks [] rfl k
    have h8 := (hversion hbegins).1
    rw [show ((r ++ completion "GET".toList r.length m).drop 3) = blanks k from hk, hnil] at h8
    exact h8 (brokenOff_nil (by decide))
  have hbegins : Begins "GET".toList r := by
    by_contra hno
    exact h ⟨hget, fun hbegins => absurd hbegins hno⟩
  have hdrop : ∀ tail : List Char, (r ++ tail).drop 3 = r.drop 3 ++ tail := fun tail =>
    drop_append_of_le_length hbegins.length_le
  by_cases hnil : behindUrl (r.drop 3) = []
  · -- the url goes on to the end, and blanks do not begin a version
    refine ⟨blanks m, length_replicate, ?_⟩
    rintro ⟨-, hversion⟩
    have h8 := (hversion (hbegins.append _)).1
    rw [hdrop, behindUrl_blanks hnil] at h8
    exact h8 (brokenOff_nil (by decide))
  by_cases hbroken : BrokenOff "HTTP/1.1".toList (behindUrl (r.drop 3))
  · -- the version breaks off: it goes on, and no NUL stands behind it
    refine ⟨completion "HTTP/1.1".toList (behindUrl (r.drop 3)).length m,
      length_completion _ _ _, ?_⟩
    rintro ⟨-, hversion⟩
    have h8 := hversion (hbegins.append _)
    rw [hdrop, behindUrl_append hnil] at h8
    rcases brokenOff_completion hbroken m with hbroken' | ⟨hversion', k, hk⟩
    · exact h8.1 hbroken'
    · have hend := h8.2 (Or.inl hversion')
      rw [show List.drop 8 _ = blanks k from hk] at hend
      exact not_terminated_blanks (fun c hc => isBlank_of_mem_blanks hc) hend
  -- the parameters are not terminated, nor are they with blanks behind them
  refine ⟨blanks m, length_replicate, ?_⟩
  rintro ⟨-, hversion⟩
  apply h
  refine ⟨hget, fun _ => ⟨hbroken, fun hversions => ?_⟩⟩
  have h8 := (hversion (hbegins.append _)).2
  rw [hdrop, behindUrl_append hnil] at h8
  have hend := h8 (hversions.imp (fun hv => hv.append _) fun hv => hv.append _)
  have hlen : 8 ≤ (behindUrl (r.drop 3)).length := by
    rcases hversions with hv | hv <;> exact hv.length_le
  rw [drop_append_of_le_length hlen] at hend
  exact terminated_append_blanks hend

end Behind

/-! ## §6. The worker. -/

section Workers

variable {size : ℕ} {r : List Char}

/-- A worker with a buffer of `size` bytes, whatever they are, that gets a request with
the bytes `r` after any others. -/
structure Worker (size : ℕ) (r : List Char) where
  start : IoData
  earlier : List Request
  now : IoData
  request : Request
  size_eq : start.request_header.length = size
  served : workAll earlier start = some now
  brings : request.Brings r

/-- The code that `process_request` returns and the fields. -/
def Worker.result (w : Worker size r) : Option (Option ℤ × Fields) :=
  (work_thread w.request w.now).map fun a => (a.1, a.2.fields)

/-- Two workers give the same result for `r`, and every slice ends within its bytes. -/
def Isolated (size : ℕ) (r : List Char) : Prop :=
  ∀ w₁ w₂ : Worker size r, ∃ (code : ℤ) (fields : Fields),
    w₁.result = some (some code, fields) ∧ w₂.result = some (some code, fields)
      ∧ ∀ s ∈ fields.slices, s.stop ≤ r.length

theorem Worker.result_eq (w : Worker size r) (h : r.length < size) : ∃ tail : List Char,
    tail.length = size - r.length ∧ w.result
      = (process_request (r ++ tail) resetFields).map fun a => (some a.1, a.2) := by
  have hsize : w.now.request_header.length = size := by
    rw [length_workAll _ w.served, w.size_eq]
  refine ⟨w.now.request_header.drop r.length, by rw [List.length_drop, hsize], ?_⟩
  unfold Worker.result
  have hlen : r.length < w.now.request_header.length := by
    rw [hsize]
    exact h
  rw [work_thread_brings w.brings hlen, Option.map_map]
  rfl

/-- A request that brings `r` at once. -/
def bringing (r : List Char) : Request := ⟨true, [.bytes r, .failure .EAGAIN]⟩

theorem bringing_brings (r : List Char) : (bringing r).Brings r := by
  refine ⟨rfl, ?_⟩
  show payload [.bytes r, .failure .EAGAIN] = some r
  rw [payload]
  by_cases h : r = []
  · rw [if_pos h, h]
  · rw [if_neg h]
    show some (r ++ []) = some r
    rw [append_nil]

/-- A worker that has `r ++ tail` in its buffer, and gets `r`. -/
def workerWith (r tail : List Char) : Worker (r ++ tail).length r where
  start := ⟨resetFields, r ++ tail, 0⟩
  earlier := []
  now := ⟨resetFields, r ++ tail, 0⟩
  request := bringing r
  size_eq := rfl
  served := rfl
  brings := bringing_brings r

theorem workerWith_result {tail : List Char} (h : tail ≠ []) : (workerWith r tail).result
    = (process_request (r ++ tail) resetFields).map fun a => (some a.1, a.2) := by
  have hlen : r.length < (workerWith r tail).now.request_header.length := by
    show r.length < (r ++ tail).length
    rw [List.length_append]
    have hpos := List.length_pos_iff.mpr h
    omega
  unfold Worker.result
  rw [work_thread_brings (workerWith r tail).brings hlen, Option.map_map,
    show (workerWith r tail).now.request_header.drop r.length = tail from List.drop_left]
  rfl

/-- **A request is read alike**, whatever came before it, if and only if its own bytes
settle how it is read. -/
theorem requests_isolated_iff (h : r.length < size) : Isolated size r ↔ Settled r := by
  constructor
  · intro hisolated
    by_contra hsettled
    -- a worker whose buffer holds the bytes that leave `r` open
    obtain ⟨tail, htail, hno⟩ := not_settled_append hsettled (size - r.length)
    have hne : tail ≠ [] := by
      intro hnil
      rw [hnil, List.length_nil] at htail
      omega
    obtain rfl : (r ++ tail).length = size := by
      rw [List.length_append]
      omega
    obtain ⟨code, fields, hresult, -, -⟩ := hisolated (workerWith r tail) (workerWith r tail)
    rw [workerWith_result hne] at hresult
    obtain ⟨a, ha, -⟩ := Option.map_eq_some_iff.mp hresult
    exact hno (process_request_iff.mp ⟨a, ha⟩)
  · intro hsettled w₁ w₂
    obtain ⟨⟨code, fields⟩, ha⟩ : ∃ a, process_request r resetFields = some a :=
      process_request_iff.mpr hsettled
    obtain ⟨tail₁, -, h₁⟩ := w₁.result_eq h
    obtain ⟨tail₂, -, h₂⟩ := w₂.result_eq h
    rw [process_request_local ha] at h₁ h₂
    exact ⟨code, fields, h₁, h₂, process_request_within ha⟩

end Workers

/-- A request without parameters, with the NUL that the parser waits for. -/
def terminatedRequest : List Char := "GET / HTTP/1.1\r\n\r\n".toList ++ ['\x00']

theorem requests_isolated_nul : Isolated 48 terminatedRequest := by
  have hget : ¬ BrokenOff "GET".toList terminatedRequest := by decide
  have hbehind : behindUrl (terminatedRequest.drop 3)
      = "HTTP/1.1".toList ++ (['\r', '\n', '\r', '\n'] ++ ['\x00']) := by decide
  have hversion : ¬ BrokenOff "HTTP/1.1".toList (behindUrl (terminatedRequest.drop 3)) := by
    decide
  have hnul : Terminated ((behindUrl (terminatedRequest.drop 3)).drop 8) := by
    have hskip : ∀ c ∈ ['\r', '\n', '\r', '\n'], c ≠ '\x00' ∧ c.toLower ∉ firstLetters := by
      rw [List.forall_mem_cons, List.forall_mem_cons, List.forall_mem_cons,
        List.forall_mem_singleton]
      decide
    rw [hbehind, List.drop_left' (by decide)]
    exact (terminated_skip hskip).mpr (terminated_nul [])
  exact (requests_isolated_iff (by decide)).mpr
    ⟨hget, fun _ => ⟨hversion, fun _ => hnul⟩⟩

/-! ## §7. A request that is read on. -/

/-- A worker that has served nothing yet, its buffer full of NUL. -/
def idleStart : IoData := ⟨resetFields, List.replicate 48 '\x00', 0⟩

/-- A request without parameters. -/
def plainRequest : List Char := "GET / HTTP/1.1\r\n\r\n".toList

/-- A request with two parameters. -/
def requestWithHost : List Char := "GET / HTTP/1.1\r\nAccept: *\r\nHost: a\r\n\r\n".toList

/-- It gets a request that has no `Host:`. -/
def freshWorker : Worker 48 plainRequest where
  start := idleStart
  earlier := []
  now := idleStart
  request := bringing plainRequest
  size_eq := rfl
  served := rfl
  brings := bringing_brings plainRequest

/-- It has served a client that has sent one before. -/
def staleWorker : Worker 48 plainRequest where
  start := idleStart
  earlier := [bringing requestWithHost]
  now := (workAll [bringing requestWithHost] idleStart).getD idleStart
  request := bringing plainRequest
  size_eq := rfl
  served := by decide
  brings := bringing_brings plainRequest

/-- **The host of an earlier request** becomes that of a request without one. -/
theorem stale_host : ¬ Isolated 48 plainRequest := by
  intro hisolated
  obtain ⟨code, fields, hfresh, hstale, -⟩ := hisolated freshWorker staleWorker
  have hnone : freshWorker.result.map (fun a => a.2.host) = some ⟨none, 0⟩ := by decide
  have hhost : staleWorker.result.map (fun a => a.2.host) = some ⟨some 33, 1⟩ := by decide
  rw [hfresh] at hnone
  rw [hstale] at hhost
  cases Option.some.inj (hnone.symm.trans hhost)

end QHttpServer

end KalavaPir.Common
