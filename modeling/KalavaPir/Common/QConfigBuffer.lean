/-
  KalavaPir.Common.QConfigBuffer — `getFieldString` into a buffer of a given
  size, on any configuration file (`common/qconfigreader.h`).

  `QConfigReader` says what the reader finds on files of well-formed entries;
  here a file is any text without NUL whose lines fit into the reader's buffer.
  A line has a field when it begins with the name, without case, and goes on
  with blanks and `=`; the value is what follows, without the blanks at its
  ends.

  The value is copied with `strncpy` and ended with a NUL, and the test before
  that does not count the NUL.
-/
import KalavaPir.Framework.Stores
import KalavaPir.Common.QConfigReader

namespace KalavaPir.Common

open KalavaPir.Framework List

/-! ## §1. The function (qconfigreader.h:179). -/

/-- `getFieldString(name, pFieldValue, size)`: what it returns, and what it
    stores through `pFieldValue`. -/
def getFieldStringTo (name file : List Char) (size : ℤ) : ℤ × Stores Char :=
  if size ≤ 0 then (-1, [])
  else if name = [] then (-1, [(0, '\x00')])
  else
    match findField name file with
    | none => (-1, [(0, '\x00')])
    | some v =>
      if (v.length : ℤ) > size then (-1, [(0, '\x00')])
      -- `strncpy(pFieldValue, p1, currentLength); pFieldValue[currentLength]=0;`
      else (v.length, (0, '\x00') :: (Stores.fill 0 v ++ [(v.length, '\x00')]))

/-! ## §2. Fields of a file. -/

/-- The line has the field, with that value. -/
def FieldLine (name line value : List Char) : Prop :=
  ∃ key blanks rest, line = key ++ blanks ++ '=' :: rest ∧ strcasecmp_eq key name = true ∧
    (∀ c ∈ blanks, c = ' ') ∧ value = skipBlanks (cancelEnter rest)

/-- The value of the field in the first line that has it. -/
def FieldValue (name file value : List Char) : Prop :=
  ∃ before line after, file.splitOn '\n' = before ++ line :: after ∧
    (∀ l ∈ before, ∀ v, ¬ FieldLine name l v) ∧ FieldLine name line value

/-- A file that the reader sees line by line. -/
structure LinesShort (file : List Char) : Prop where
  no_nul : '\x00' ∉ file
  short : ∀ l ∈ file.splitOn '\n', l.length ≤ 1022

/-- The call stays inside the buffer, delivers a value that fits with its NUL,
    and returns −1 when there is none. -/
structure ReadsField (name file : List Char) (size : ℤ) : Prop where
  inside : Stores.Inside size.toNat (getFieldStringTo name file size).2
  found : ∀ v, FieldValue name file v → (v.length : ℤ) < size →
    (getFieldStringTo name file size).1 = v.length ∧
      ∀ buf, Stores.contents ((getFieldStringTo name file size).2.after buf) (v.length + 1)
        = v ++ ['\x00']
  missing : (∀ v, FieldValue name file v → size ≤ v.length) →
    (getFieldStringTo name file size).1 = -1

/-! ## §3. One line. -/

/-- What stands in front of a character that is kept is kept. -/
theorem cancelEnter_append_cons {c : Char} (hc : isEnter c = false) (a b : List Char) :
    cancelEnter (a ++ c :: b) = a ++ c :: cancelEnter b := by
  induction b using List.reverseRecOn with
  | nil =>
    show List.rdropWhile isEnter (a ++ [c]) = _
    rw [rdropWhile_concat_neg _ _ _ (by simp [hc])]
    rfl
  | append_singleton b d ih =>
    unfold cancelEnter at ih ⊢
    rw [show a ++ c :: (b ++ [d]) = a ++ c :: b ++ [d] by simp]
    by_cases hd : isEnter d = true
    · rw [rdropWhile_concat_pos _ _ _ hd, rdropWhile_concat_pos _ _ _ hd, ih]
    · rw [rdropWhile_concat_neg _ _ _ hd, rdropWhile_concat_neg _ _ _ hd]
      simp

theorem cancelEnter_concat {c : Char} (hc : isEnter c = true) (a : List Char) :
    cancelEnter (a ++ [c]) = cancelEnter a := rdropWhile_concat_pos _ _ _ hc

theorem exists_append_cancelEnter (s : List Char) : ∃ t, s = cancelEnter s ++ t := by
  obtain ⟨t, ht⟩ := rdropWhile_prefix isEnter (l := s)
  exact ⟨t, ht.symm⟩

theorem skipBlanks_append {blanks : List Char} (h : ∀ c ∈ blanks, c = ' ') (s : List Char) :
    skipBlanks (blanks ++ s) = skipBlanks s := by
  induction blanks with
  | nil => rfl
  | cons c blanks ih =>
    unfold skipBlanks at ih ⊢
    rw [cons_append, dropWhile_cons_of_pos (by simp [h c mem_cons_self])]
    exact ih (fun d hd => h d (mem_cons_of_mem c hd))

theorem exists_blanks (s : List Char) : ∃ blanks, s = blanks ++ skipBlanks s ∧ ∀ c ∈ blanks, c = ' ' := by
  refine ⟨s.takeWhile (· == ' '), takeWhile_append_dropWhile.symm, ?_⟩
  intro c hc
  simpa using mem_takeWhile_imp hc

variable {name v line : List Char}

theorem length_of_strcasecmp {key : List Char} (h : strcasecmp_eq key name = true) :
    key.length = name.length := by
  have hlen := congrArg List.length (beq_iff_eq.mp h)
  rwa [length_map, length_map] at hlen

variable {s : List Char}

theorem c_str_of_notMem (h : '\x00' ∉ s) : c_str s = s := by
  apply takeWhile_eq_self_iff.mpr
  intro c hc
  have hne : c ≠ '\x00' := fun hnul => h (hnul ▸ hc)
  simpa using hne

/-- The value behind the name, in a line that is not empty. -/
theorem valueOf_eq_some {buf : List Char} {n : ℕ} : valueOf buf n = some v ↔
    ∃ p, skipBlanks (buf.drop n) = '=' :: p ∧ v = skipBlanks p := by
  unfold valueOf
  constructor
  · intro h
    split at h
    next => exact absurd h (by simp)
    next =>
      split at h
      next p heq =>
        injection h with h
        exact ⟨p, heq, h.symm⟩
      next => exact absurd h (by simp)
  · intro h
    obtain ⟨p, heq, hv⟩ := h
    have hne : buf ≠ [] := by
      intro hnil
      rw [hnil, drop_nil] at heq
      exact absurd heq (by simp [skipBlanks])
    rw [if_neg hne, heq]
    exact congrArg some hv.symm

/-- **ONE LINE**: the reader finds the field that the line has. -/
theorem fieldOfLine_iff (hnul : '\x00' ∉ line) : fieldOfLine name line = some v ↔ FieldLine name line v := by
  have hequal : isEnter '=' = false := by decide
  unfold fieldOfLine
  rw [c_str_of_notMem hnul]
  constructor
  · intro h
    split at h
    next hbegins =>
      obtain ⟨p, heq, hv⟩ := valueOf_eq_some.mp h
      obtain ⟨blanks, hdrop, hblank⟩ := exists_blanks ((cancelEnter line).drop name.length)
      rw [heq] at hdrop
      -- the line in its parts, and what is cut off it
      obtain ⟨t, ht⟩ := exists_append_cancelEnter line
      obtain ⟨key, hkey⟩ : ∃ key, key = (cancelEnter line).take name.length := ⟨_, rfl⟩
      have hparts : cancelEnter line = key ++ blanks ++ '=' :: p := by
        rw [hkey, append_assoc, ← hdrop, take_append_drop]
      have hlen : key.length = name.length := by
        have hlen := congrArg List.length hdrop
        rw [length_drop, length_append, length_cons] at hlen
        rw [hkey, length_take]
        omega
      rw [hparts, append_assoc, cons_append] at ht
      have hcut := hparts
      rw [ht, cancelEnter_append_cons hequal] at hcut
      have htail := append_cancel_left hcut
      injection htail with _ htail
      unfold strncasecmp_eq at hbegins
      rw [ht, append_assoc, ← hlen, take_left] at hbegins
      exact ⟨key, blanks, p ++ t, ht, hbegins, hblank, by rw [hv, htail]⟩
    next => exact absurd h (by simp)
  · intro h
    obtain ⟨key, blanks, rest, hline, hkey, hblank, hv⟩ := h
    have hlen := length_of_strcasecmp hkey
    have hbegins : strncasecmp_eq line name = true := by
      unfold strncasecmp_eq
      rw [hline, append_assoc, ← hlen, take_left]
      exact hkey
    rw [if_pos hbegins, valueOf_eq_some]
    refine ⟨cancelEnter rest, ?_, hv⟩
    rw [hline, cancelEnter_append_cons hequal, append_assoc, ← hlen, drop_left,
      skipBlanks_append hblank]
    rfl

theorem fieldOfLine_eq_none (hnul : '\x00' ∉ line) :
    fieldOfLine name line = none ↔ ∀ v, ¬ FieldLine name line v := by
  rw [Option.eq_none_iff_forall_ne_some]
  exact forall_congr' fun v => not_congr (fieldOfLine_iff hnul)

/-- A newline behind the line is cut off the value. -/
theorem FieldLine.newline_iff : FieldLine name (line ++ ['\n']) v ↔ FieldLine name line v := by
  constructor
  · intro h
    obtain ⟨key, blanks, rest, hline, hkey, hblank, hv⟩ := h
    rcases eq_nil_or_concat rest with hnil | ⟨rest', c, hrest⟩
    · -- the last character would be both
      rw [hnil] at hline
      have hlast := (append_inj' hline rfl).2
      exact absurd hlast (by decide)
    rw [concat_eq_append] at hrest
    have hsplit : line ++ ['\n'] = key ++ blanks ++ '=' :: rest' ++ [c] := by
      rw [hline, hrest]
      simp
    obtain ⟨hfront, hlast⟩ := append_inj' hsplit rfl
    injection hlast with hlast _
    refine ⟨key, blanks, rest', hfront, hkey, hblank, ?_⟩
    rw [hv, hrest, ← hlast, cancelEnter_concat (by decide)]
  · intro h
    obtain ⟨key, blanks, rest, hline, hkey, hblank, hv⟩ := h
    refine ⟨key, blanks, rest ++ ['\n'], ?_, hkey, hblank, ?_⟩
    · rw [hline]
      simp
    · rw [hv, cancelEnter_concat (by decide)]

theorem fieldOfLine_newline (hnul : '\x00' ∉ line) :
    fieldOfLine name (line ++ ['\n']) = fieldOfLine name line := by
  have hnul' : '\x00' ∉ line ++ ['\n'] := by
    simp [hnul]
  apply Option.ext
  intro v
  rw [fieldOfLine_iff hnul', fieldOfLine_iff hnul, FieldLine.newline_iff]

/-! ## §4. The file. -/

/-- What `fgets` delivers, one line after the other, when every line fits: a
    search through it is one through the lines. -/
theorem findSome_fgetsAll {β : Type} {n : ℕ} {f : List Char → Option β} (hnil : f [] = none)
    (hnewline : ∀ l, '\x00' ∉ l → f (l ++ ['\n']) = f l) : ∀ (file cur first : List Char) (rest : List (List Char)),
    '\x00' ∉ cur → '\x00' ∉ file → file.splitOn '\n' = first :: rest →
    cur.length + first.length < n → (∀ l ∈ rest, l.length < n) →
    (fgetsAll n cur file).findSome? f = ((cur.reverse ++ first) :: rest).findSome? f := by
  intro file
  induction file with
  | nil =>
    intro cur first rest _ _ hsplit _ _
    rw [splitOn_nil] at hsplit
    injection hsplit with hfirst hrest
    rw [← hfirst, ← hrest, append_nil, fgetsAll]
    by_cases hcur : cur = []
    · rw [if_pos hcur, hcur]
      simp [hnil]
    · rw [if_neg hcur]
  | cons c s ih =>
    intro cur first rest hcur hfile hsplit hlen hshort
    have hs : '\x00' ∉ s := fun hmem => hfile (mem_cons_of_mem c hmem)
    obtain ⟨first', rest', hsplit'⟩ := exists_cons_of_ne_nil (splitOn_ne_nil '\n' s)
    rw [splitOn_cons_eq_if_modifyHead, hsplit'] at hsplit
    rw [fgetsAll]
    by_cases hc : c = '\n'
    · -- the line ends here, the next one begins with an empty buffer
      rw [hc, if_pos (by simp)] at hsplit
      injection hsplit with hfirst hrest
      rw [if_pos (Or.inl hc), ← hfirst, ← hrest, append_nil, hc, reverse_cons,
        findSome?_cons, findSome?_cons, hnewline _ (by simpa using hcur)]
      rw [← hrest] at hshort
      rw [ih [] first' rest' not_mem_nil hs hsplit'
        (by simpa using hshort first' mem_cons_self)
        (fun l hl => hshort l (mem_cons_of_mem first' hl))]
      rfl
    rw [if_neg (by simpa using hc)] at hsplit
    injection hsplit with hfirst hrest
    rw [← hfirst, length_cons] at hlen
    rw [if_neg (by
        intro hend
        rcases hend with hend | hend
        · exact hc hend
        · omega), ← hfirst, ← hrest]
    have hcur' : '\x00' ∉ c :: cur := by
      intro hmem
      rcases mem_cons.mp hmem with hnul | hmem
      · exact hfile (hnul ▸ mem_cons_self)
      · exact hcur hmem
    rw [ih (c :: cur) first' rest' hcur' hs hsplit' (by rw [length_cons]; omega)
      (by rw [hrest]; exact hshort)]
    simp

/-- A character that the file does not have is in none of its lines. -/
theorem notMem_of_mem_splitOn {d : Char} (hd : d ∉ s) : ∀ l ∈ s.splitOn '\n', d ∉ l := by
  induction s with
  | nil => simp
  | cons c s ih =>
    have ih := ih (fun hmem => hd (mem_cons_of_mem c hmem))
    obtain ⟨first, rest, hsplit⟩ := exists_cons_of_ne_nil (splitOn_ne_nil '\n' s)
    rw [splitOn_cons_eq_if_modifyHead, hsplit]
    rw [hsplit, forall_mem_cons] at ih
    by_cases hc : c = '\n'
    · rw [if_pos (by simpa using hc), forall_mem_cons, forall_mem_cons]
      exact ⟨not_mem_nil, ih⟩
    rw [if_neg (by simpa using hc), modifyHead_cons, forall_mem_cons]
    refine ⟨?_, ih.2⟩
    intro hmem
    rcases mem_cons.mp hmem with heq | hmem
    · exact hd (heq ▸ mem_cons_self)
    · exact ih.1 hmem

theorem fieldOfLine_nil (name : List Char) : fieldOfLine name [] = none := by
  rw [fieldOfLine_eq_none not_mem_nil]
  intro v h
  obtain ⟨key, blanks, rest, hline, -⟩ := h
  exact absurd hline (by simp)

/-- **THE FILE**: the reader finds the first line that has the field. -/
theorem findField_iff {file : List Char} (h : LinesShort file) :
    findField name file = some v ↔ FieldValue name file v := by
  obtain ⟨first, rest, hsplit⟩ := exists_cons_of_ne_nil (splitOn_ne_nil '\n' file)
  have hshort := h.short
  rw [hsplit] at hshort
  have hlines : findField name file = (file.splitOn '\n').findSome? (fieldOfLine name) := by
    rw [hsplit]
    unfold findField
    rw [findSome_fgetsAll (fieldOfLine_nil name) (fun l hl => fieldOfLine_newline hl) file [] first rest
      not_mem_nil h.no_nul hsplit]
    · rfl
    · have hfirst := hshort first mem_cons_self
      show 0 + first.length < 0x400 - 1
      omega
    · intro l hl
      have hl := hshort l (mem_cons_of_mem first hl)
      show l.length < 0x400 - 1
      omega
  rw [hlines, findSome?_eq_some_iff]
  have hnul := notMem_of_mem_splitOn h.no_nul
  constructor
  · intro hfound
    obtain ⟨before, line, after, heq, hline, hbefore⟩ := hfound
    rw [heq] at hnul
    refine ⟨before, line, after, heq, fun l hl => ?_, ?_⟩
    · exact (fieldOfLine_eq_none (hnul l (mem_append_left _ hl))).mp (hbefore l hl)
    · exact (fieldOfLine_iff (hnul line (by simp))).mp hline
  · intro hvalue
    obtain ⟨before, line, after, heq, hbefore, hline⟩ := hvalue
    rw [heq] at hnul
    refine ⟨before, line, after, heq, ?_, fun l hl => ?_⟩
    · exact (fieldOfLine_iff (hnul line (by simp))).mpr hline
    · exact (fieldOfLine_eq_none (hnul l (mem_append_left _ hl))).mpr (hbefore l hl)

/-! ## §5. The call. -/

section Call

variable {name file : List Char} {size : ℤ}

theorem contents_value (v : List Char) (buf : ℕ → Char) :
    Stores.contents (Stores.after ((0, '\x00') :: (Stores.fill 0 v ++ [(v.length, '\x00')])) buf)
      (v.length + 1) = v ++ ['\x00'] := by
  have hrun := Stores.fill_append 0 v ['\x00']
  rw [Nat.zero_add] at hrun
  have hlast : Stores.fill v.length ['\x00'] = [(v.length, '\x00')] := rfl
  rw [hlast] at hrun
  rw [Stores.after_cons, ← hrun]
  simpa using Stores.contents_fill (v ++ ['\x00']) (Function.update buf 0 '\x00')

theorem getFieldStringTo_some (hsize : 0 < size) (hname : name ≠ []) {v : List Char}
    (h : findField name file = some v) : getFieldStringTo name file size =
      if (v.length : ℤ) > size then (-1, [(0, '\x00')])
      else ((v.length : ℤ), (0, '\x00') :: (Stores.fill 0 v ++ [(v.length, '\x00')])) := by
  unfold getFieldStringTo
  rw [if_neg (Int.not_le.mpr hsize), if_neg hname, h]

theorem getFieldStringTo_none (hsize : 0 < size) (hname : name ≠ [])
    (h : findField name file = none) : getFieldStringTo name file size = (-1, [(0, '\x00')]) := by
  unfold getFieldStringTo
  rw [if_neg (Int.not_le.mpr hsize), if_neg hname, h]

/-- **THE CALL IS RIGHT** exactly when the value of the field does not fill the
    buffer to its last byte. -/
theorem getFieldString_iff (hfile : LinesShort file) (hname : name ≠ []) (hsize : 0 < size) :
    ReadsField name file size ↔ ∀ v, FieldValue name file v → (v.length : ℤ) ≠ size := by
  have hzero : Stores.Inside size.toNat [(0, '\x00')] := by
    rw [Stores.inside_cons]
    exact ⟨by omega, Stores.inside_nil _⟩
  constructor
  · intro h v hv hfull
    have hinside := h.inside
    rw [getFieldStringTo_some hsize hname ((findField_iff hfile).mpr hv), if_neg (by omega)] at hinside
    -- the NUL goes behind the last byte
    have hnul := hinside (v.length, '\x00') (by simp)
    omega
  · intro h
    cases hfind : findField name file with
    | none =>
      have hcall := getFieldStringTo_none hsize hname hfind
      have hno : ∀ v, ¬ FieldValue name file v := by
        intro v hv
        rw [(findField_iff hfile).mpr hv] at hfind
        exact absurd hfind (by simp)
      refine ⟨?_, fun v hv => absurd hv (hno v), fun _ => ?_⟩
      · rw [hcall]
        exact hzero
      · rw [hcall]
    | some v =>
      have hvalue := (findField_iff hfile).mp hfind
      have honly : ∀ u, FieldValue name file u → u = v := by
        intro u hu
        rw [← findField_iff hfile, hfind, Option.some_inj] at hu
        exact hu.symm
      have hne := h v hvalue
      by_cases hlen : (v.length : ℤ) > size
      · have hcall := getFieldStringTo_some hsize hname hfind
        rw [if_pos hlen] at hcall
        refine ⟨?_, fun u hu hfit => ?_, fun _ => ?_⟩
        · rw [hcall]
          exact hzero
        · rw [honly u hu] at hfit
          omega
        · rw [hcall]
      · have hcall := getFieldStringTo_some hsize hname hfind
        rw [if_neg hlen] at hcall
        refine ⟨?_, fun u hu hfit => ?_, fun hmissing => ?_⟩
        · rw [hcall, Stores.inside_cons, Stores.inside_append, Stores.inside_fill, Stores.inside_cons]
          refine ⟨by omega, Or.inr (by omega), by omega, Stores.inside_nil _⟩
        · rw [hcall, honly u hu]
          exact ⟨rfl, contents_value v⟩
        · have hle := hmissing v hvalue
          omega

end Call

/-- `p = x` read into a buffer of 16 bytes. -/
theorem getFieldString_p_x : ReadsField ['p'] ['p', ' ', '=', ' ', 'x', '\n'] 16 := by
  have hfile : LinesShort ['p', ' ', '=', ' ', 'x', '\n'] := ⟨by decide, by decide⟩
  refine (getFieldString_iff hfile (by decide) (by decide)).mpr ?_
  intro v hv
  have hfind : findField ['p'] ['p', ' ', '=', ' ', 'x', '\n'] = some ['x'] := by decide
  rw [← findField_iff hfile, hfind, Option.some_inj] at hv
  rw [← hv]
  decide

/-- **A value of exactly the buffer's size** is ended outside. -/
theorem getFieldString_exact_fit : ¬ ∀ (name file : List Char) (size : ℤ), LinesShort file →
    name ≠ [] → 0 < size → ReadsField name file size := by
  intro h
  have hreads := h ['p'] ['p', '=', 'a', 'b'] 2 ⟨by decide, by decide⟩ (by decide) (by decide)
  exact absurd hreads.inside (by decide)

end KalavaPir.Common
