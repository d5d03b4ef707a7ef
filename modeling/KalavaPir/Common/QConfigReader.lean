/-
  KalavaPir.Common.QConfigReader — the configuration reader of
  `common/qconfigreader.h`.

  A field is looked up from the top of the file: the first line that begins
  with its name (without case) and goes on with blanks and `=` gives the
  value, cut at both ends.  A line is what one `fgets` into a buffer of 1024
  bytes delivers, so a longer one would be seen in pieces.
-/
import KalavaPir.Common.CString

namespace KalavaPir.Common

open List

/-- The size of the line buffer. -/
def BUFSIZ_1K : ℕ := 0x400

/-! ## §1. The reader. -/

/-- What successive calls of `fgets` into a buffer of `n + 1` bytes deliver
    until the end of the file: each takes `n` characters, or stops after a
    newline.  `cur` is the buffer so far, newest first. -/
def fgetsAll (n : ℕ) : List Char → List Char → List (List Char)
  | cur, [] => if cur = [] then [] else [cur.reverse]
  | cur, c :: s =>
    if c = '\n' ∨ cur.length + 1 = n then (c :: cur).reverse :: fgetsAll n [] s
    else fgetsAll n (c :: cur) s

/-- What `cancelEnter` cuts off. -/
def isEnter (c : Char) : Bool := c == ' ' || c == '\r' || c == '\n'

/-- `cancelEnter`. -/
def cancelEnter (buf : List Char) : List Char := buf.rdropWhile isEnter

/-- `while((p1<p2)&&(*p1==' ')) p1++`. -/
def skipBlanks (p : List Char) : List Char := p.dropWhile (· == ' ')

/-- The value in a line whose first `n` characters are the name; `none` for
    `continue`. -/
def valueOf (buf : List Char) (n : ℕ) : Option (List Char) :=
  if buf = [] then none
  else
    match skipBlanks (buf.drop n) with
    | '=' :: p => some (skipBlanks p)
    -- a longer key, or no `=` at all
    | _ => none

/-- One round of the loop of `getFieldString`. -/
def fieldOfLine (name line : List Char) : Option (List Char) :=
  if strncasecmp_eq (c_str line) name then valueOf (cancelEnter (c_str line)) name.length
  else none

/-- The first line that has the field. -/
def findField (name file : List Char) : Option (List Char) :=
  (fgetsAll (BUFSIZ_1K - 1) [] file).findSome? (fieldOfLine name)

/-- `getFieldString(name, value, size)`: `none` is −1. -/
def getFieldBuf (name file : List Char) (size : ℕ) : Option (List Char) :=
  if name = [] then none
  else
    match findField name file with
    | none => none
    | some v => if v.length > size then none else some v

/-- `getFieldString(name, std::string&)`: an EMPTY value is an error too. -/
def getFieldString (name file : List Char) : Option (List Char) :=
  match getFieldBuf name file BUFSIZ_1K with
  | none => none
  | some v => if v = [] then none else some v

/-- `getFieldInt32`. -/
def getFieldInt32 (name file : List Char) : Option ℤ :=
  (getFieldString name file).map atoi

/-- `getFieldYesNo`. -/
def getFieldYesNo (name file : List Char) : Option Bool :=
  match getFieldString name file with
  | none => none
  | some v =>
    if strcasecmp_eq v ['y', 'e', 's'] then some true
    else if strcasecmp_eq v ['n', 'o'] then some false
    else none

/-! ## §2. Files of entries. -/

/-- A line of a configuration file: a comment (or nothing), or a field. -/
inductive Entry where
  | note (text : List Char)
  | field (key value : List Char)
  deriving DecidableEq, Repr

/-- `key = value`, without its newline. -/
def Entry.text : Entry → List Char
  | .note text => text
  | .field key value => key ++ [' ', '=', ' '] ++ value

/-- The file. -/
def render (es : List Entry) : List Char := es.flatMap fun e => e.text ++ ['\n']

/-- A value that survives the cutting: one line, no blank at its ends. -/
structure Plain (v : List Char) : Prop where
  no_nul : '\x00' ∉ v
  no_lf : '\n' ∉ v
  no_cr : '\r' ∉ v
  head : v.head? ≠ some ' '
  last : v.getLast? ≠ some ' '

/-- A key in words. -/
structure IsKey (k : List Char) : Prop where
  nonempty : k ≠ []
  words : ∀ c ∈ k, isWord c = true

/-- What the reader can take apart again. -/
def Entry.Readable : Entry → Prop
  | .note text => (text = [] ∨ text.head? = some '#') ∧ '\n' ∉ text
  | .field key value => IsKey key ∧ Plain value

/-- The entry fits into one buffer, newline included. -/
def Entry.Fits (e : Entry) : Prop := e.text.length + 1 ≤ BUFSIZ_1K - 1

/-- The first field of that name. -/
def lookup (key : List Char) : List Entry → Option (List Char)
  | [] => none
  | .note _ :: es => lookup key es
  | .field k v :: es => if k = key then some v else lookup key es

/-! ## §3. One line. -/

theorem isWord_ne {c d : Char} (hc : isWord c = true) (hd : isWord d = false) : c ≠ d := by
  rintro rfl
  rw [hc] at hd
  exact absurd hd (by decide)

theorem Entry.Readable.no_lf {e : Entry} (h : e.Readable) : '\n' ∉ e.text := by
  cases e with
  | note text => exact h.2
  | field key value =>
    obtain ⟨hkey, hval⟩ := h
    intro hmem
    simp only [Entry.text, mem_append, mem_cons, not_mem_nil, or_false] at hmem
    rcases hmem with (hmem | hmem) | hmem
    · exact isWord_ne (hkey.words _ hmem) (by decide) rfl
    · revert hmem
      decide
    · exact hval.no_lf hmem

/-- A line that fits is read in one piece. -/
theorem fgetsAll_line {n : ℕ} (s : List Char) : ∀ (l cur : List Char), '\n' ∉ l →
    cur.length + l.length + 1 ≤ n →
    fgetsAll n cur (l ++ '\n' :: s) = (cur.reverse ++ l ++ ['\n']) :: fgetsAll n [] s := by
  intro l
  induction l with
  | nil =>
    intro cur _ _
    rw [nil_append, fgetsAll, if_pos (Or.inl rfl), reverse_cons, append_nil]
  | cons c l ih =>
    intro cur hnl hfit
    simp only [mem_cons, not_or] at hnl
    simp only [length_cons] at hfit
    -- neither a newline nor the end of the buffer
    have hgo : ¬ (c = '\n' ∨ cur.length + 1 = n) := by
      rintro (rfl | hend)
      · exact hnl.1 rfl
      · omega
    rw [cons_append, fgetsAll, if_neg hgo, ih (c :: cur) hnl.2 (by simp only [length_cons]; omega)]
    simp only [reverse_cons, append_assoc, singleton_append]

theorem fgetsAll_render (es : List Entry) (hread : ∀ e ∈ es, e.Readable) (hfit : ∀ e ∈ es, e.Fits) :
    fgetsAll (BUFSIZ_1K - 1) [] (render es) = es.map (fun e => e.text ++ ['\n']) := by
  induction es with
  | nil => rfl
  | cons e es ih =>
    have hline : render (e :: es) = e.text ++ '\n' :: render es := by
      simp [render]
    rw [hline, fgetsAll_line (render es) e.text [] (hread e mem_cons_self).no_lf
      (by rw [length_nil, Nat.zero_add]; exact hfit e mem_cons_self), map_cons,
      ih (fun x hx => hread x (mem_cons_of_mem e hx))
        (fun x hx => hfit x (mem_cons_of_mem e hx))]
    rfl

/-- What is left of a field's line behind the `=`. -/
def tailOf (v : List Char) : List Char := if v = [] then [] else ' ' :: v

variable {v k name : List Char} {es : List Entry}

/-- `cancelEnter` takes the newline off, and the blank in front of nothing. -/
theorem cancelEnter_field (k : List Char) (hv : Plain v) :
    cancelEnter (k ++ [' ', '=', ' '] ++ v ++ ['\n']) = k ++ ' ' :: '=' :: tailOf v := by
  unfold cancelEnter tailOf
  rw [rdropWhile_concat_pos _ _ _ (by decide)]
  split
  · next hnil =>
      subst hnil
      rw [append_nil, show k ++ [' ', '=', ' '] = k ++ [' ', '='] ++ [' '] by simp,
        rdropWhile_concat_pos _ _ _ (by decide),
        show k ++ [' ', '='] = k ++ [' '] ++ ['='] by simp,
        rdropWhile_concat_neg _ _ _ (by decide), append_assoc]
  next hne =>
    -- the last character of the value is neither a blank nor an enter
    obtain ⟨w, c, rfl⟩ : ∃ w c, v = w ++ [c] :=
      ⟨v.dropLast, v.getLast hne, (dropLast_append_getLast hne).symm⟩
    have hmem : c ∈ w ++ [c] := by simp
    have hc : isEnter c = false := by
      have hsp : c ≠ ' ' := by
        rintro rfl
        exact hv.last (by simp)
      have hcr : c ≠ '\r' := by
        rintro rfl
        exact hv.no_cr hmem
      have hlf : c ≠ '\n' := by
        rintro rfl
        exact hv.no_lf hmem
      simp [isEnter, hsp, hcr, hlf]
    rw [← append_assoc, rdropWhile_concat_neg _ _ _ (by simp [hc])]
    simp

/-- A field's line has no NUL in it. -/
theorem c_str_field (hk : IsKey k) (hv : Plain v) :
    c_str (k ++ [' ', '=', ' '] ++ v ++ ['\n']) = k ++ [' ', '=', ' '] ++ v ++ ['\n'] := by
  unfold c_str
  rw [takeWhile_eq_self_iff]
  intro c hc
  rw [bne_iff_ne]
  simp only [mem_append, mem_cons, not_mem_nil, or_false] at hc
  rcases hc with ((hc | hc) | hc) | hc
  · exact isWord_ne (hk.words c hc) (by decide)
  · rcases hc with rfl | rfl | rfl <;> decide
  · rintro rfl
    exact hv.no_nul hc
  · subst hc
    decide

theorem skipBlanks_tailOf (hv : Plain v) : skipBlanks (tailOf v) = v := by
  unfold tailOf
  split
  · next hnil => rw [hnil]; rfl
  unfold skipBlanks
  rw [dropWhile_cons_of_pos (by decide)]
  cases v with
  | nil => rfl
  | cons c v =>
    have hc : c ≠ ' ' := by
      rintro rfl
      exact hv.head rfl
    rw [dropWhile_cons_of_neg (by simpa using hc)]

/-- **The line of the field itself.** -/
theorem fieldOfLine_own (hk : IsKey k) (hv : Plain v) :
    fieldOfLine k ((Entry.field k v).text ++ ['\n']) = some v := by
  unfold fieldOfLine Entry.text
  rw [c_str_field hk hv, cancelEnter_field k hv]
  have hbegins : strncasecmp_eq (k ++ [' ', '=', ' '] ++ v ++ ['\n']) k = true := by
    rw [strncasecmp_eq_iff hk.words, append_assoc, append_assoc, take_left,
      map_toLower_words hk.words]
  rw [if_pos hbegins, valueOf, if_neg (by simp), drop_left]
  exact congrArg some (skipBlanks_tailOf hv)

/-- A key that begins with another one goes on with a character that is
    neither a blank nor `=`. -/
theorem fieldOfLine_longer (hk : IsKey k) (hv : Plain v) (hlt : name.length < k.length) :
    fieldOfLine name ((Entry.field k v).text ++ ['\n']) = none := by
  unfold fieldOfLine Entry.text
  rw [c_str_field hk hv, cancelEnter_field k hv]
  split
  · rw [valueOf, if_neg (by simp), drop_append_of_le_length (by omega)]
    cases hrest : k.drop name.length with
    | nil =>
      have := congrArg List.length hrest
      rw [length_drop, length_nil] at this
      omega
    | cons c rest =>
      have hc : isWord c = true := hk.words c (mem_of_mem_drop (hrest ▸ mem_cons_self))
      have hskip : skipBlanks (c :: rest ++ ' ' :: '=' :: tailOf v)
          = c :: (rest ++ ' ' :: '=' :: tailOf v) := by
        unfold skipBlanks
        simpa using isWord_ne hc (by decide)
      rw [hskip]
      split
      · next heq =>
          injection heq with heq _
          exact absurd heq (isWord_ne hc (by decide))
      · rfl
  · rfl

/-- **The line of another field.** -/
theorem fieldOfLine_other (hname : IsKey name) (hk : IsKey k) (hv : Plain v) (hne : k ≠ name) :
    fieldOfLine name ((Entry.field k v).text ++ ['\n']) = none := by
  by_cases hlt : name.length < k.length
  · exact fieldOfLine_longer hk hv hlt
  unfold fieldOfLine Entry.text
  rw [c_str_field hk hv, if_neg]
  rw [strncasecmp_eq_iff hname.words, append_assoc, append_assoc]
  intro hmatch
  by_cases heq : name.length = k.length
  · -- as long as the key: it is the key
    rw [heq, take_left, map_toLower_words hk.words] at hmatch
    exact hne hmatch
  -- longer than the key: the blank behind it would be part of the name
  have hget := congrArg (fun l => l[k.length]?) hmatch
  simp only [getElem?_map, getElem?_take] at hget
  rw [if_pos (by omega), getElem?_append_right (by omega), Nat.sub_self] at hget
  have hmem : ' ' ∈ name := mem_of_getElem? hget.symm
  exact isWord_ne (hname.words _ hmem) (by decide) rfl

/-- A comment is nobody's line. -/
theorem fieldOfLine_note {text : List Char} (hname : IsKey name) (h : text = [] ∨ text.head? = some '#') :
    fieldOfLine name (text ++ ['\n']) = none := by
  cases name with
  | nil => exact absurd rfl hname.nonempty
  | cons a name =>
    have ha := hname.words a mem_cons_self
    unfold fieldOfLine
    rw [if_neg]
    rw [strncasecmp_eq_iff hname.words]
    intro hmatch
    rcases h with rfl | h
    · have hc : c_str ([] ++ ['\n']) = ['\n'] := by decide
      rw [hc] at hmatch
      simp only [length_cons, take_succ_cons, map_cons, List.cons.injEq] at hmatch
      exact isWord_ne ha (by decide) hmatch.1.symm
    cases text with
    | nil => simp at h
    | cons b text =>
      simp only [head?_cons, Option.some.injEq] at h
      subst h
      have hc : c_str ('#' :: text ++ ['\n']) = '#' :: c_str (text ++ ['\n']) := by
        unfold c_str
        rw [cons_append, takeWhile_cons_of_pos (by decide)]
      rw [hc] at hmatch
      simp only [length_cons, take_succ_cons, map_cons, List.cons.injEq] at hmatch
      exact isWord_ne ha (by decide) hmatch.1.symm

/-! ## §4. The whole file. -/

/-- **THE READER IS LOOKUP** on a file of readable entries that fit. -/
theorem findField_render (hname : IsKey name) (hread : ∀ e ∈ es, e.Readable) (hfit : ∀ e ∈ es, e.Fits) :
    findField name (render es) = lookup name es := by
  unfold findField
  rw [fgetsAll_render es hread hfit]
  clear hfit
  induction es with
  | nil => rfl
  | cons e es ih =>
    have ih := ih (fun x hx => hread x (mem_cons_of_mem e hx))
    have he := hread e mem_cons_self
    rw [map_cons]
    cases e with
    | note text =>
      rw [findSome?_cons, show (Entry.note text).text = text from rfl,
        fieldOfLine_note hname he.1, lookup]
      exact ih
    | field k v =>
      rw [findSome?_cons, lookup]
      by_cases hk : k = name
      · subst hk
        rw [fieldOfLine_own he.1 he.2, if_pos rfl]
      · rw [fieldOfLine_other hname he.1 he.2 hk, if_neg hk]
        exact ih

/-- A value that was looked up stood in a line that fits. -/
theorem lookup_length (hfit : ∀ e ∈ es, e.Fits) (h : lookup name es = some v) : v.length ≤ BUFSIZ_1K := by
  induction es with
  | nil => exact absurd h (by simp [lookup])
  | cons e es ih =>
    have ih := ih (fun x hx => hfit x (mem_cons_of_mem e hx))
    cases e with
    | note text => exact ih h
    | field k w =>
      rw [lookup] at h
      split at h
      · injection h with h
        subst h
        have hlen := hfit (.field k w) mem_cons_self
        unfold Entry.Fits Entry.text at hlen
        simp only [length_append] at hlen
        omega
      · exact ih h

/-- **`getFieldString` on such a file**: what stands there, unless it is
    empty. -/
theorem getFieldString_render (hname : IsKey name) (hread : ∀ e ∈ es, e.Readable) (hfit : ∀ e ∈ es, e.Fits) :
    getFieldString name (render es) = (lookup name es).filter (fun v => v ≠ []) := by
  unfold getFieldString getFieldBuf
  rw [if_neg hname.nonempty, findField_render hname hread hfit]
  cases hl : lookup name es with
  | none => rfl
  | some v =>
    have hlen := lookup_length hfit hl
    simp only [if_neg (Nat.not_lt.mpr hlen), Option.filter]
    by_cases hv : v = []
    · simp [hv]
    · simp [hv]

end KalavaPir.Common
