/-
  KalavaPir.Common.QXmlAttributes — the attributes of an XML element
  (`common/qxml.h`).

  `_rootAttribute` and `_next` make a list, which each function walks with a
  condition of its own; that of `DeleteAttribute` is the wrong way round.  A string
  is copied to memory of its own, under an `int32_t` length, so names and values are
  values here; those of a call are in memory of the caller.
-/
import KalavaPir.Common.QXmlPrint
import KalavaPir.Framework.Assignments
import KalavaPir.Framework.Histories

namespace KalavaPir.Common

open List Option

namespace QXml

open XMLUtil KalavaPir.Framework

/-! ## §1. The calls (qxml.h:389, qxml.cc:5). -/

/-- `XMLStr::SetStr(str)`: `len=strlen(str)` of `int32_t`, and `len+1` bytes with
    memory for them, of which `len` are copied. -/
def SetStr (str : CStr) : Option CStr :=
  let len := Int.bmod str.length (2 ^ 32)
  if 0 ≤ len ∧ len < 2147483647 then some (str.take len.toNat) else none

/-- `FindAttribute(name)`. -/
def FindAttribute (name : CStr) : List XMLAttribute → Option XMLAttribute
  | [] => none
  | a :: as => if StringEqual MAX_INT32 a.1 name then some a else FindAttribute name as

/-- `Attribute(name, value)`. -/
def Attribute (as : List XMLAttribute) (name : CStr) (value : Option CStr) : Option CStr :=
  match FindAttribute name as with
  | none => none
  | some a => if value.all (StringEqual MAX_INT32 a.2) then some a.2 else none

/-- `SetAttribute(name, value)`, with `FindOrCreateAttribute(name)`. -/
def SetAttribute (name value : CStr) : List XMLAttribute → Option (List XMLAttribute)
  | [] => (SetStr name).bind fun name => (SetStr value).map fun value => [(name, value)]
  | a :: as =>
    if StringEqual MAX_INT32 a.1 name then (SetStr value).map fun value => (a.1, value) :: as
    else (SetAttribute name value as).map (a :: ·)

/-- `DeleteAttribute(name)`, with `if(!XMLUtil::StringEqual(name, a->Name()))`. -/
def DeleteAttribute (name : CStr) : List XMLAttribute → List XMLAttribute
  | [] => []
  | a :: as => if !StringEqual MAX_INT32 name a.1 then as else a :: DeleteAttribute name as

/-- The calls; `value` may be left out in the last one. -/
inductive AttributeCall
  | SetAttribute (name value : CStr)
  | DeleteAttribute (name : CStr)
  | Attribute (name : CStr) (value : Option CStr)

/-- A call on the attributes of an element, with the pointer it returns, if any. -/
def attributeStep (as : List XMLAttribute) : AttributeCall →
    Except Stop (Option (Option CStr) × List XMLAttribute)
  | .SetAttribute name value => checked (SetAttribute name value as) fun as => .ok (none, as)
  | .DeleteAttribute name => .ok (none, DeleteAttribute name as)
  | .Attribute name value => .ok (some (Attribute as name value), as)

/-! ## §2. The ordered map. -/

/-- The same calls, written down: a name has the last value that was set and not
    deleted. -/
def attributeMap (es : List (Edit CStr CStr)) : AttributeCall →
    Except Stop (Option (Option CStr) × List (Edit CStr CStr))
  | .SetAttribute name value => .ok (none, es ++ [.put name value])
  | .DeleteAttribute name => .ok (none, es ++ [.drop name])
  | .Attribute name none => .ok (some (lastValue name es), es)
  | .Attribute name (some value) => .ok (some ((lastValue name es).filter (· = value)), es)

/-- The attributes are those of the map, in its order. -/
def Maps (as : List XMLAttribute) (es : List (Edit CStr CStr)) : Prop := as = entries es

/-- The last length that leaves room for the 0 in an `int32_t`. -/
def MAX_STR : ℕ := 2147483646

/-- Strings fit, and nothing is deleted while there are attributes. -/
def AttributeKeeps (_ : List XMLAttribute) (es : List (Edit CStr CStr)) : AttributeCall → Prop
  | .SetAttribute name value => name.length ≤ MAX_STR ∧ value.length ≤ MAX_STR
  | .DeleteAttribute _ => keysLeft es = []
  | .Attribute _ _ => True

/-! ## §3. Strings and attributes. -/

section Attributes

variable {as as' : List XMLAttribute} {es : List (Edit CStr CStr)} {name value str : CStr} {a : XMLAttribute}

theorem SetStr_of_le (h : str.length ≤ MAX_STR) : SetStr str = some str := by
  unfold MAX_STR at h
  have hlen : Int.bmod str.length (2 ^ 32) = str.length := Int.bmod_eq_of_le (by omega) (by omega)
  unfold SetStr
  rw [hlen, if_pos (by omega), Int.toNat_natCast, take_length]

theorem length_SetStr {str' : CStr} (h : SetStr str = some str') : str'.length ≤ MAX_STR := by
  unfold SetStr at h
  dsimp only at h
  split at h
  case isFalse => cases h
  case isTrue hrange =>
    rw [← Option.some.inj h]
    unfold MAX_STR
    rw [length_take]
    omega

/-- The lengths of the attributes. -/
def Fitting (as : List XMLAttribute) : Prop := ∀ a ∈ as, a.1.length ≤ MAX_STR ∧ a.2.length ≤ MAX_STR

/-- A stored string is compared as a whole. -/
theorem StringEqual_stored {p : CStr} (hp : p.length ≤ MAX_STR) (q : CStr) :
    StringEqual MAX_INT32 p q = decide (p = q) := by
  have hlt : p.length < MAX_INT32 := Nat.lt_of_le_of_lt hp (by decide)
  rw [Bool.eq_iff_iff, StringEqual_iff, decide_eq_true_iff, take_of_length_le (Nat.le_of_lt hlt)]
  constructor
  · intro h
    have hlen : (q.take MAX_INT32).length < MAX_INT32 := by
      rw [← h]
      exact hlt
    rw [length_take] at hlen
    rw [h, take_of_length_le (by omega)]
  · intro h
    rw [h, take_of_length_le (Nat.le_of_lt (h ▸ hlt))]

theorem StringEqual_comm (n : ℕ) (p q : CStr) : StringEqual n p q = StringEqual n q p := by
  rw [Bool.eq_iff_iff, StringEqual_iff, StringEqual_iff]
  exact eq_comm

theorem FindAttribute_eq (h : Fitting as) (name : CStr) :
    FindAttribute name as = as.find? fun a => a.1 = name := by
  induction as with
  | nil => rfl
  | cons a as ih =>
    rw [FindAttribute, find?_cons, StringEqual_stored (h a mem_cons_self).1,
      ih fun b hb => h b (mem_cons_of_mem a hb)]
    cases decide (a.1 = name) <;> rfl

/-- **THE VALUE OF A NAME.** -/
theorem Attribute_eq (hfit : Fitting (entries es)) (name : CStr) (value : Option CStr) :
    Attribute (entries es) name value = (lastValue name es).filter fun v => value.all (v = ·) := by
  unfold Attribute
  rw [FindAttribute_eq hfit, find?_entries]
  cases hv : lastValue name es with
  | none => rfl
  | some v =>
    have hlen : v.length ≤ MAX_STR := (hfit (name, v) (mem_entries_iff.mpr hv)).2
    have hequal : StringEqual MAX_INT32 v = fun w => decide (v = w) := funext (StringEqual_stored hlen)
    rw [map_some, filter_some]
    dsimp only
    rw [hequal]

/-- A name that is there gets the value, any other comes last. -/
theorem SetAttribute_eq (hfit : Fitting as) (hnodup : (as.map Prod.fst).Nodup) (name value : CStr) :
    SetAttribute name value as =
      if name ∈ as.map Prod.fst then
        (SetStr value).map fun v => as.map fun a => if a.1 = name then (name, v) else a
      else (SetStr name).bind fun n => (SetStr value).map fun v => as ++ [(n, v)] := by
  induction as with
  | nil => rfl
  | cons a as ih =>
    have hfit' : Fitting as := fun b hb => hfit b (mem_cons_of_mem a hb)
    rw [map_cons, nodup_cons] at hnodup
    rw [SetAttribute, StringEqual_stored (hfit a mem_cons_self).1, map_cons]
    by_cases hname : a.1 = name
    · have hin : name ∈ a.1 :: as.map Prod.fst := by
        rw [hname]
        exact mem_cons_self
      have hrest : ∀ v, (as.map fun b => if b.1 = name then (name, v) else b) = as := by
        intro v
        conv_rhs => rw [← map_id as]
        apply map_congr_left
        intro b hb
        have hne : b.1 ≠ name := fun h => hnodup.1 (hname ▸ h ▸ mem_map_of_mem hb)
        rw [if_neg hne, id]
      rw [if_pos (decide_eq_true hname), if_pos hin]
      congr 1
      funext v
      rw [map_cons, if_pos hname, hrest, hname]
    rw [if_neg (by simp [hname]), ih hfit' hnodup.2]
    by_cases hin : name ∈ as.map Prod.fst
    · rw [if_pos hin, if_pos (List.mem_cons_of_mem a.1 hin), Option.map_map]
      congr 1
      funext v
      rw [map_cons, if_neg hname]
      rfl
    have hout : ¬ name ∈ a.1 :: as.map Prod.fst := by
      rw [mem_cons]
      exact fun h => h.elim (fun h => hname h.symm) hin
    rw [if_neg hin, if_neg hout]
    generalize SetStr name = n
    generalize SetStr value = v
    cases n with
    | none => rfl
    | some n => cases v <;> rfl

section

variable (hfit : Fitting (entries es))
include hfit

theorem SetAttribute_entries (hname : name.length ≤ MAX_STR) (hvalue : value.length ≤ MAX_STR) :
    SetAttribute name value (entries es) = some (entries (es ++ [.put name value])) := by
  have hnodup : ((entries es).map Prod.fst).Nodup := by
    rw [map_fst_entries]
    exact nodup_keysLeft es
  rw [SetAttribute_eq hfit hnodup, map_fst_entries, SetStr_of_le hname, SetStr_of_le hvalue, entries_put]
  by_cases hin : name ∈ keysLeft es
  · rw [if_pos hin, if_pos hin, map_some]
  · rw [if_neg hin, if_neg hin, bind_some, map_some]

/-- What is set has an `int32_t` length. -/
theorem fitting_put (hname : name.length ≤ MAX_STR) (hvalue : value.length ≤ MAX_STR) :
    Fitting (entries (es ++ [.put name value])) := by
  rw [entries_put]
  intro a ha
  by_cases hin : name ∈ keysLeft es
  · rw [if_pos hin] at ha
    obtain ⟨b, hb, rfl⟩ := mem_map.mp ha
    by_cases hbn : b.1 = name
    · rw [if_pos hbn]
      exact ⟨hname, hvalue⟩
    · rw [if_neg hbn]
      exact hfit b hb
  · rw [if_neg hin] at ha
    rcases mem_append.mp ha with h | h
    · exact hfit a h
    · rw [mem_singleton.mp h]
      exact ⟨hname, hvalue⟩

/-- **A STRING THAT IS TOO LONG** is not set as it is. -/
theorem not_SetAttribute_entries (hlong : ¬ (name.length ≤ MAX_STR ∧ value.length ≤ MAX_STR)) :
    SetAttribute name value (entries es) ≠ some (entries (es ++ [.put name value])) := by
  have hnodup : ((entries es).map Prod.fst).Nodup := by
    rw [map_fst_entries]
    exact nodup_keysLeft es
  intro h
  rw [SetAttribute_eq hfit hnodup, map_fst_entries] at h
  have hput : (name, value) ∈ entries (es ++ [.put name value]) := by
    rw [mem_entries_iff, lastValue_concat]
    exact if_pos rfl
  by_cases hin : name ∈ keysLeft es
  · rw [if_pos hin] at h
    obtain ⟨v, hv, heq⟩ := map_eq_some_iff.mp h
    rw [← heq] at hput
    obtain ⟨b, hb, hbn⟩ := mem_map.mp hput
    by_cases hname : b.1 = name
    · rw [if_pos hname] at hbn
      have hbfit := (hfit b hb).1
      rw [hname] at hbfit
      have hlen := length_SetStr hv
      rw [(Prod.mk.inj hbn).2] at hlen
      exact hlong ⟨hbfit, hlen⟩
    · rw [if_neg hname] at hbn
      rw [hbn] at hname
      exact hname rfl
  · rw [if_neg hin] at h
    obtain ⟨n, hn, hrest⟩ := bind_eq_some_iff.mp h
    obtain ⟨v, hv, heq⟩ := map_eq_some_iff.mp hrest
    rw [← heq] at hput
    rcases mem_append.mp hput with hold | hnew
    · exact hlong (hfit _ hold)
    · have hpair := Prod.mk.inj (mem_singleton.mp hnew)
      rw [hpair.1, hpair.2] at hlong
      exact hlong ⟨length_SetStr hn, length_SetStr hv⟩

/-- **ONE ATTRIBUTE TOO MANY, OR THE WRONG ONE**: with attributes there, what is
    deleted is never what was asked for. -/
theorem not_DeleteAttribute_entries (hin : keysLeft es ≠ []) (name : CStr) :
    DeleteAttribute name (entries es) ≠ entries (es ++ [.drop name]) := by
  have hdelete : ∀ as : List XMLAttribute, Fitting as →
      DeleteAttribute name as = as.eraseP fun a => a.1 ≠ name := by
    intro as hfit
    induction as with
    | nil => rfl
    | cons a as ih =>
      rw [DeleteAttribute, eraseP_cons, StringEqual_comm,
        StringEqual_stored (hfit a mem_cons_self).1, ih fun b hb => hfit b (mem_cons_of_mem a hb),
        ← decide_not, cond_eq_ite]
  rw [hdelete _ hfit, entries_drop]
  have hnodup : ((entries es).map Prod.fst).Nodup := by
    rw [map_fst_entries]
    exact nodup_keysLeft es
  have hne : entries es ≠ [] := by
    intro h
    apply hin
    rw [← map_fst_entries, h, map_nil]
  intro h
  by_cases hother : ∃ a ∈ entries es, a.1 ≠ name
  · -- the first attribute of another name is gone, and should have stayed
    obtain ⟨b, hb, hbn⟩ := hother
    obtain ⟨a, l₁, l₂, -, ha, hsplit, herase⟩ :=
      exists_of_eraseP (p := fun a : XMLAttribute => decide (a.1 ≠ name)) hb (decide_eq_true hbn)
    have hstay : a ∈ (entries es).filter fun p => p.1 ≠ name := by
      rw [mem_filter, hsplit]
      exact ⟨mem_append_right l₁ mem_cons_self, ha⟩
    rw [← h, herase] at hstay
    have honce : ((l₁ ++ a :: l₂).map Prod.fst).Nodup := by
      rw [← hsplit]
      exact hnodup
    exact (nodup_middle.mp (List.Nodup.of_map Prod.fst honce)).notMem hstay
  -- the one attribute there is asked for, and stays
  have hall : ∀ a ∈ entries es, a.1 = name := by
    intro a ha
    by_contra hne
    exact hother ⟨a, ha, hne⟩
  rw [eraseP_of_forall_not fun a ha => by simp [hall a ha]] at h
  have hnone : (entries es).filter (fun p => p.1 ≠ name) = [] := by
    rw [filter_eq_nil_iff]
    intro a ha
    simp [hall a ha]
  rw [hnone] at h
  exact hne h

end

/-! ## §4. Histories. -/

theorem fitting_nil (h : keysLeft es = []) : entries es = [] := by
  have hkeys := map_fst_entries es
  rw [h, map_eq_nil_iff] at hkeys
  exact hkeys

variable {l : AttributeCall}

/-- **CALLS THAT DELETE NOTHING WHERE THERE IS SOMETHING** do to the attributes what
    they do to the map. -/
theorem attributeStep_matched (hR : Maps as es) (hfit : Fitting as) (hkeep : AttributeKeeps as es l) :
    Matched (fun as es => Maps as es ∧ Fitting as) (attributeStep as l) (attributeMap es l) := by
  have has : as = entries es := hR
  rw [has] at hfit ⊢
  cases l with
  | SetAttribute name value =>
    show Matched _ (checked (SetAttribute name value (entries es)) _) _
    rw [SetAttribute_entries hfit hkeep.1 hkeep.2, checked_some]
    exact .answer ⟨rfl, fitting_put hfit hkeep.1 hkeep.2⟩
  | DeleteAttribute name =>
    have hnil : entries es = [] := fitting_nil hkeep
    have hdrop : entries (es ++ [.drop name]) = [] := by
      rw [entries_drop, hnil, filter_nil]
    show Matched _ (.ok (none, DeleteAttribute name (entries es))) _
    rw [hnil]
    exact .answer ⟨hdrop.symm, fun a ha => absurd ha not_mem_nil⟩
  | Attribute name value =>
    show Matched _ (.ok (some (Attribute (entries es) name value), entries es)) _
    rw [Attribute_eq hfit]
    cases value with
    | none =>
      have hall : ((lastValue name es).filter fun v => (none : Option CStr).all (v = ·)) = lastValue name es := by
        cases lastValue name es <;> rfl
      rw [hall]
      exact .answer ⟨rfl, hfit⟩
    | some value => exact .answer ⟨rfl, hfit⟩

/-- **ANY OTHER CALL** does something else, or nothing that is defined. -/
theorem not_attributeStep_matched (hR : Maps as es) (hfit : Fitting as) (hkeep : ¬ AttributeKeeps as es l) :
    ¬ Matched Maps (attributeStep as l) (attributeMap es l) := by
  have has : as = entries es := hR
  rw [has] at hfit ⊢
  intro h
  cases l with
  | SetAttribute name value =>
    have hne := not_SetAttribute_entries hfit hkeep
    revert h
    show ¬ Matched _ (checked (SetAttribute name value (entries es)) _) _
    cases hset : SetAttribute name value (entries es) with
    | none => exact not_matched_error_ok
    | some as' =>
      intro h
      have hmaps : as' = entries (es ++ [.put name value]) := (matched_ok_iff.mp h).2
      rw [hset, hmaps] at hne
      exact hne rfl
  | DeleteAttribute name => exact not_DeleteAttribute_entries hfit hkeep name (matched_ok_iff.mp h).2
  | Attribute name value => exact hkeep trivial

/-- **THE ATTRIBUTES ARE AN ORDERED MAP** over a history (after each call they are
    the names that were set and not deleted, in the order in which they came in and
    with their last values, and each value asked for is the last one) exactly when
    every string that is set has room in an `int32_t` and nothing is deleted while
    there are attributes. -/
theorem history_attributes_iff (ls : List AttributeCall) :
    (∀ n, Matched Maps (history attributeStep [] (ls.take n)) (history attributeMap [] (ls.take n))) ↔
      Calls attributeStep attributeMap AttributeKeeps [] [] ls := by
  have hany : Calls attributeStep attributeMap (fun _ _ _ => True) [] [] ls := Calls.of_forall fun _ _ => trivial
  refine matched_iff_calls (fun as _ => Fitting as) ?_ ?_ rfl (fun a ha => absurd ha List.not_mem_nil) hany
  · intro as es l hR hfit _ hkeep
    exact attributeStep_matched hR hfit hkeep
  · intro as es l hR hfit _ hkeep
    exact not_attributeStep_matched hR hfit hkeep

/-- `DeleteAttribute("a")` of `a` and `b` leaves `a`. -/
theorem DeleteAttribute_other :
    ¬ ∀ ls : List AttributeCall, ∀ n,
      Matched Maps (history attributeStep [] (ls.take n)) (history attributeMap [] (ls.take n)) := by
  intro h
  have hmatched := h [.SetAttribute [97] [49], .SetAttribute [98] [50], .DeleteAttribute [97]] 3
  have hleft : history attributeStep [] [.SetAttribute [97] [49], .SetAttribute [98] [50], .DeleteAttribute [97]]
      = .ok ([none, none, none], [([97], [49])]) := by decide
  rw [List.take_of_length_le (by decide), hleft] at hmatched
  obtain ⟨-, hmaps⟩ := matched_ok_iff.mp hmatched
  unfold Maps at hmaps
  exact absurd hmaps (by decide)

end Attributes

end QXml

end KalavaPir.Common
