/-
  KalavaPir.Common.QLogicalParser — grammars of words, `common/qlogicalparser.h`.

  A grammar is turned into postfix form with a stack of operators, and what comes
  out is run on a stack of operands that is a member of the object: it outlives the
  call.  Both stacks are lists with the top first.
-/
import Mathlib.Data.List.Basic
import Mathlib.Data.Int.Notation

namespace KalavaPir.Common

open List

/-! ## §1. The parser. -/

/-- The stack that is left between two calls. -/
structure QLogicalParser where
  s : List ℤ

namespace QLogicalParser

/-- The letters of the operators. -/
def IsOperator (op : Char) : Bool := op == '&' || op == '|' || op == '!'

/-- How tightly an operator binds. -/
def Priority : Char → ℤ
  | '|' => 1
  | '&' => 2
  | '!' => 3
  | _ => -1

/-- The variables of `InToPost`. -/
structure PostState where
  v : List (List Char)
  t : List Char
  stk : List Char

/-- `while(!stk.empty()&&Priority(C)<=Priority(stk.top())) …`. -/
def popHigher (C : Char) (v : List (List Char)) : List Char → List (List Char) × List Char
  | [] => (v, [])
  | top :: stk =>
    if Priority C ≤ Priority top then popHigher C (v ++ [[top]]) stk else (v, top :: stk)

/-- A character of the grammar, and what stands behind it. -/
def postChar (C : Char) (behind : List Char) (st : PostState) : PostState :=
  if IsOperator C then
    let popped := popHigher C st.v st.stk
    { st with v := popped.1, stk := C :: popped.2 }
  else if behind = [] ∨ behind.head?.any IsOperator then
    { st with v := st.v ++ [st.t ++ [C]], t := [] }
  else
    { st with t := st.t ++ [C] }

/-- The loop over the letters. -/
def postLoop : List Char → PostState → PostState
  | [], st => st
  | C :: behind, st => postLoop behind (postChar C behind st)

/-- `while(!stk.empty()) …`. -/
def popRest (st : PostState) : List (List Char) := st.v ++ st.stk.map fun C => [C]

/-- The postfix form of a grammar. -/
def InToPost (inGrammar : List Char) : List (List Char) :=
  popRest (postLoop inGrammar ⟨[], [], []⟩)

/-- The top of the stack, if there is one. -/
def Get1Operand : List ℤ → Option ℤ × List ℤ
  | [] => (none, [])
  | right :: s => (some right, s)

/-- The right operand has been taken when the left one is missing. -/
def Get2Operands : List ℤ → Option (ℤ × ℤ) × List ℤ
  | [] => (none, [])
  | [_] => (none, [])
  | right :: left :: s => (some (left, right), s)

/-- What it returns, and the stack; a missing operand clears it. -/
def DoOperator (op : List Char) (s : List ℤ) : ℤ × List ℤ :=
  if op = ['!'] then
    match Get1Operand s with
    | (some right, s) =>
      let v := if right = 1 then 0 else 1
      (v, v :: s)
    | (none, _) => (0, [])
  else
    match Get2Operands s with
    | (some (left, right), s) =>
      let v :=
        if op = ['&'] then if left = 1 ∧ right = 1 then 1 else 0
        else if op = ['|'] then if left = 1 ∨ right = 1 then 1 else 0
        else 0
      (v, v :: s)
    | (none, _) => (0, [])

/-- A word that is true. -/
def Holds (inKey : List Char) (inMeanings : List (List Char)) (word : List Char) : Prop :=
  word = ['U', 'K'] ∨ word = inKey ∨ word ∈ inMeanings

instance (inKey : List Char) (inMeanings : List (List Char)) (word : List Char) :
    Decidable (Holds inKey inMeanings word) :=
  inferInstanceAs (Decidable (_ ∨ _))

/-- The body of the loop over `v`, on `result` and the stack. -/
def calItem (inKey : List Char) (inMeanings : List (List Char)) (r : ℤ × List ℤ)
    (item : List Char) : ℤ × List ℤ :=
  if item = ['&'] ∨ item = ['|'] ∨ item = ['!'] then DoOperator item r.2
  else (r.1, (if Holds inKey inMeanings item then 1 else 0) :: r.2)

/-- `while(!s.empty()) { result=s.top(); s.pop(); }`. -/
def drain (result : ℤ) : List ℤ → ℤ
  | [] => result
  | top :: s => drain top s

/-- The postfix form is evaluated. -/
def CalRun (p : QLogicalParser) (inKey : List Char) (inMeanings : List (List Char))
    (v : List (List Char)) : ℤ × QLogicalParser :=
  let r := v.foldl (calItem inKey inMeanings) (0, p.s)
  (drain r.1 r.2, ⟨[]⟩)

/-- The result is 1. -/
def parse (p : QLogicalParser) (inGrammar inKey : List Char) (inMeanings : List (List Char)) :
    Bool × QLogicalParser :=
  let r := CalRun p inKey inMeanings (InToPost inGrammar)
  (decide (r.1 = 1), r.2)

/-- The arguments of a call. -/
structure ParseCall where
  inGrammar : List Char
  inKey : List Char
  inMeanings : List (List Char)

/-- The object after some calls, and a new one. -/
def after (p : QLogicalParser) (calls : List ParseCall) : QLogicalParser :=
  calls.foldl (fun p c => (p.parse c.inGrammar c.inKey c.inMeanings).2) p

/-- An object without a stack. -/
def new : QLogicalParser := ⟨[]⟩

/-! ## §2. Expressions. -/

/-- A word of a grammar. -/
structure Word where
  letters : List Char
  ne_nil : letters ≠ []
  no_operator : ∀ C ∈ letters, IsOperator C = false

/-- A word, or its negation. -/
structure Literal where
  negated : Bool
  word : Word

/-- The binary operators. -/
inductive Joiner where
  | and
  | or

/-- Literals joined by `&` and `|`. -/
structure Expression where
  first : Literal
  joined : List (Joiner × Literal)

/-- How it is written. -/
def Joiner.letter : Joiner → Char
  | .and => '&'
  | .or => '|'

/-- How it is written. -/
def Literal.text (l : Literal) : List Char :=
  if l.negated then '!' :: l.word.letters else l.word.letters

/-- How it is written. -/
def Expression.text (e : Expression) : List Char :=
  e.first.text ++ e.joined.flatMap fun j => j.1.letter :: j.2.text

/-- What stands between the `|`: the literals that `&` joins. -/
def conjunctions : Literal → List (Joiner × Literal) → List (List Literal)
  | l, [] => [[l]]
  | l, (.or, m) :: joined => [l] :: conjunctions m joined
  | l, (.and, m) :: joined =>
    match conjunctions m joined with
    | [] => [[l]]
    | c :: cs => (l :: c) :: cs

/-- Its value, for the words that hold. -/
def Literal.value (holds : List Char → Bool) (l : Literal) : Bool :=
  if l.negated then !holds l.word.letters else holds l.word.letters

/-- The value under the usual precedence. -/
def Expression.value (holds : List Char → Bool) (e : Expression) : Bool :=
  (conjunctions e.first e.joined).any fun c => c.all fun l => l.value holds

/-! ## §3. The two stacks. -/

section Stacks

variable (inKey : List Char) (inMeanings : List (List Char))

/-- The value of a word. -/
def holds (word : List Char) : Bool := decide (Holds inKey inMeanings word)

/-- What a call leaves on the operand stack before it takes the result. -/
def stackAfter (v : List (List Char)) (s : List ℤ) : List ℤ :=
  (v.foldl (calItem inKey inMeanings) (0, s)).2

theorem calItem_stack (r : ℤ × List ℤ) (item : List Char) :
    (calItem inKey inMeanings (0, r.2) item).2 = (calItem inKey inMeanings r item).2 := by
  unfold calItem
  split <;> rfl

theorem stack_foldl (v : List (List Char)) : ∀ r : ℤ × List ℤ,
    (v.foldl (calItem inKey inMeanings) r).2 = stackAfter inKey inMeanings v r.2 := by
  induction v with
  | nil => intro r; rfl
  | cons item v ih =>
    intro r
    show (v.foldl (calItem inKey inMeanings) (calItem inKey inMeanings r item)).2 = _
    rw [ih, ← calItem_stack]
    show _ = (v.foldl (calItem inKey inMeanings) (calItem inKey inMeanings (0, r.2) item)).2
    rw [ih]

theorem stackAfter_append (v w : List (List Char)) (s : List ℤ) : stackAfter inKey inMeanings (v ++ w) s
      = stackAfter inKey inMeanings w (stackAfter inKey inMeanings v s) := by
  show ((v ++ w).foldl (calItem inKey inMeanings) (0, s)).2 = _
  rw [foldl_append, stack_foldl]
  rfl

/-- A truth value on the operand stack. -/
def bit (b : Bool) : ℤ := if b then 1 else 0

theorem bit_eq_one (b : Bool) : bit b = 1 ↔ b = true := by
  cases b <;> decide

theorem stackAfter_word (w : Word) (s : List ℤ) :
    stackAfter inKey inMeanings [w.letters] s = bit (holds inKey inMeanings w.letters) :: s := by
  have hand : ∀ C, IsOperator C = true → w.letters ≠ [C] := by
    intro C hC hw
    have hno := w.no_operator C (hw ▸ mem_singleton_self C)
    rw [hC] at hno
    cases hno
  have hitem : ¬ (w.letters = ['&'] ∨ w.letters = ['|'] ∨ w.letters = ['!']) := by
    rintro (h | h | h)
    · exact hand '&' rfl h
    · exact hand '|' rfl h
    · exact hand '!' rfl h
  show (calItem inKey inMeanings (0, s) w.letters).2 = _
  unfold calItem
  rw [if_neg hitem]
  by_cases hw : Holds inKey inMeanings w.letters <;> simp [holds, bit, hw]

theorem stackAfter_not (x : Bool) (s : List ℤ) :
    stackAfter inKey inMeanings [['!']] (bit x :: s) = bit (!x) :: s := by
  cases x <;> rfl

theorem stackAfter_and (x y : Bool) (s : List ℤ) :
    stackAfter inKey inMeanings [['&']] (bit y :: bit x :: s) = bit (x && y) :: s := by
  cases x <;> cases y <;> rfl

theorem stackAfter_or (x y : Bool) (s : List ℤ) :
    stackAfter inKey inMeanings [['|']] (bit y :: bit x :: s) = bit (x || y) :: s := by
  cases x <;> cases y <;> rfl

end Stacks

/-! ## §4. The conversion. -/

theorem popHigher_eq (C : Char) (stk : List Char) : ∀ v : List (List Char), popHigher C v stk
    = (v ++ (stk.takeWhile fun top => decide (Priority C ≤ Priority top)).map (fun C => [C]),
        stk.dropWhile fun top => decide (Priority C ≤ Priority top)) := by
  induction stk with
  | nil => intro v; simp [popHigher]
  | cons top stk ih =>
    intro v
    by_cases h : Priority C ≤ Priority top
    · rw [popHigher, if_pos h, ih]
      simp [h]
    · rw [popHigher, if_neg h]
      simp [h]

theorem postChar_operator {C : Char} (hC : IsOperator C = true) (behind : List Char)
    (st : PostState) : postChar C behind st = { st with
      v := (popHigher C st.v st.stk).1
      stk := C :: (popHigher C st.v st.stk).2 } := by
  rw [postChar, if_pos hC]

/-- A word is collected up to the character in front of an operator. -/
theorem postLoop_letters {behind : List Char}
    (hend : behind = [] ∨ behind.head?.any IsOperator = true) (letters : List Char) :
    letters ≠ [] → (∀ C ∈ letters, IsOperator C = false) → ∀ st : PostState, postLoop (letters ++ behind) st
        = postLoop behind { st with v := st.v ++ [st.t ++ letters], t := [] } := by
  induction letters with
  | nil => intro h; exact absurd rfl h
  | cons C letters ih =>
    intro _ hno st
    have hC : IsOperator C = false := hno C mem_cons_self
    cases letters with
    | nil =>
      show postLoop behind (postChar C behind st) = _
      rw [postChar, hC, if_neg Bool.false_ne_true, if_pos hend]
    | cons D letters =>
      -- the character behind `C` is one of the word
      have hD : IsOperator D = false := hno D (mem_cons_of_mem C mem_cons_self)
      have hgo : ¬ (D :: letters ++ behind = []
          ∨ (D :: letters ++ behind).head?.any IsOperator = true) := by
        simp [hD]
      show postLoop (D :: letters ++ behind) (postChar C (D :: letters ++ behind) st) = _
      rw [postChar, hC, if_neg Bool.false_ne_true, if_neg hgo,
        ih (cons_ne_nil D letters) fun E hE => hno E (mem_cons_of_mem C hE)]
      show postLoop behind ⟨st.v ++ [(st.t ++ [C]) ++ D :: letters], [], st.stk⟩ = _
      rw [append_assoc]
      rfl

/-- What stands in front of a literal: the value of the conjunctions that a `|` has
closed, and the value of what an `&` has joined since. -/
structure Pending where
  closed : Option Bool
  opened : Option Bool

/-- `C`, if there is one. -/
def sign (b : Bool) (C : Char) : List Char := if b then [C] else []

/-- The operators that wait. -/
def Pending.operators (q : Pending) : List Char :=
  sign q.opened.isSome '&' ++ sign q.closed.isSome '|'

/-- The operands that wait. -/
def Pending.operands (q : Pending) : List ℤ :=
  q.opened.toList.map bit ++ q.closed.toList.map bit

/-- The open conjunction with one more literal, and then closed. -/
def Pending.conj (q : Pending) (x : Bool) : Bool := q.opened.getD true && x

/-- The whole value, with one more literal. -/
def Pending.disj (q : Pending) (x : Bool) : Bool := q.closed.getD false || q.conj x

/-- The value when what follows is `cs`. -/
def Pending.value (holds : List Char → Bool) (q : Pending) : List (List Literal) → Bool
  | [] => q.closed.getD false
  | c :: cs => q.disj (c.all fun l => l.value holds) || cs.any fun c => c.all fun l => l.value holds

theorem conjunctions_cons (joined : List (Joiner × Literal)) :
    ∀ l : Literal, ∃ c cs, conjunctions l joined = c :: cs := by
  induction joined with
  | nil => intro l; exact ⟨[l], [], rfl⟩
  | cons j joined ih =>
    obtain ⟨j, m⟩ := j
    intro l
    obtain ⟨c, cs, h⟩ := ih m
    cases j with
    | or => exact ⟨[l], conjunctions m joined, rfl⟩
    | and =>
      refine ⟨l :: c, cs, ?_⟩
      rw [conjunctions, h]

section Value

variable (f : List Char → Bool) (q : Pending)

attribute [local simp] conjunctions Pending.value

theorem Pending.value_last (l : Literal) : q.value f (conjunctions l []) = q.disj (l.value f) := by
  simp [conjunctions, Pending.value]

theorem Pending.value_and (l m : Literal) (joined : List (Joiner × Literal)) :
    q.value f (conjunctions l ((.and, m) :: joined))
      = Pending.value f ⟨q.closed, some (q.conj (l.value f))⟩ (conjunctions m joined) := by
  obtain ⟨c, cs, h⟩ := conjunctions_cons joined m
  rw [conjunctions, h]
  simp [Pending.value, Pending.disj, Pending.conj, Bool.and_assoc]

theorem Pending.value_or (l m : Literal) (joined : List (Joiner × Literal)) :
    q.value f (conjunctions l ((.or, m) :: joined))
      = Pending.value f ⟨some (q.disj (l.value f)), none⟩ (conjunctions m joined) := by
  obtain ⟨c, cs, h⟩ := conjunctions_cons joined m
  rw [conjunctions, h]
  simp [Pending.value, Pending.disj, Pending.conj, Bool.or_assoc]

end Value

section Conversion

variable {inKey : List Char} {inMeanings : List (List Char)} {q : Pending} {st : PostState}

/-- In front of a literal. -/
structure Converted (inKey : List Char) (inMeanings : List (List Char)) (q : Pending)
    (st : PostState) : Prop where
  t_nil : st.t = []
  operators : st.stk = q.operators
  operands : stackAfter inKey inMeanings st.v [] = q.operands

/-- Behind it. -/
structure AfterLiteral (inKey : List Char) (inMeanings : List (List Char)) (q : Pending)
    (l : Literal) (st : PostState) : Prop where
  t_nil : st.t = []
  operators : st.stk = sign l.negated '!' ++ q.operators
  operands : stackAfter inKey inMeanings st.v []
    = bit (holds inKey inMeanings l.word.letters) :: q.operands

theorem not_pops_nothing (q : Pending) :
    (q.operators.takeWhile fun top => decide (Priority '!' ≤ Priority top)) = []
      ∧ (q.operators.dropWhile fun top => decide (Priority '!' ≤ Priority top)) = q.operators := by
  unfold Pending.operators
  cases q.opened.isSome <;> cases q.closed.isSome <;> decide

/-- A literal is read. -/
theorem Converted.literal (h : Converted inKey inMeanings q st) (l : Literal) {behind : List Char}
    (hend : behind = [] ∨ behind.head?.any IsOperator = true) :
    ∃ st', postLoop (l.text ++ behind) st = postLoop behind st'
      ∧ AfterLiteral inKey inMeanings q l st' := by
  have hword := postLoop_letters hend l.word.letters l.word.ne_nil l.word.no_operator
  have hv : stackAfter inKey inMeanings (st.v ++ [l.word.letters]) []
      = bit (holds inKey inMeanings l.word.letters) :: q.operands := by
    rw [stackAfter_append, stackAfter_word, h.operands]
  cases hneg : l.negated with
  | false =>
    refine ⟨{ st with v := st.v ++ [l.word.letters] }, ?_, h.t_nil, ?_, hv⟩
    · rw [Literal.text, hneg, if_neg Bool.false_ne_true, hword st, h.t_nil]
      rfl
    · rw [hneg, h.operators]
      rfl
  | true =>
    refine ⟨{ st with v := st.v ++ [l.word.letters], stk := '!' :: st.stk }, ?_, h.t_nil, ?_, hv⟩
    · -- nothing on the stack binds as strongly
      have hpop : popHigher '!' st.v st.stk = (st.v, st.stk) := by
        rw [popHigher_eq, h.operators, (not_pops_nothing q).1, (not_pops_nothing q).2]
        simp
      rw [Literal.text, hneg, if_pos rfl]
      show postLoop (l.word.letters ++ behind) (postChar '!' (l.word.letters ++ behind) st) = _
      have hsign : postChar '!' (l.word.letters ++ behind) st
          = { st with v := st.v, stk := '!' :: st.stk } := by
        rw [postChar_operator rfl, hpop]
      rw [hsign, hword, h.t_nil]
      rfl
    · rw [hneg, h.operators]
      rfl

theorem stackAfter_sign_not (l : Literal) (s : List ℤ) :
    stackAfter inKey inMeanings ((sign l.negated '!').map fun C => [C])
        (bit (holds inKey inMeanings l.word.letters) :: s) = bit (l.value (holds inKey inMeanings)) :: s := by
  unfold Literal.value
  cases l.negated with
  | false => rfl
  | true => exact stackAfter_not inKey inMeanings _ s

theorem stackAfter_sign_and (q : Pending) (x : Bool) :
    stackAfter inKey inMeanings ((sign q.opened.isSome '&').map fun C => [C]) (bit x :: q.operands)
      = bit (q.conj x) :: q.closed.toList.map bit := by
  unfold Pending.operands Pending.conj
  cases q.opened with
  | none => rfl
  | some y => exact stackAfter_and inKey inMeanings y x _

theorem stackAfter_sign_or (q : Pending) (x : Bool) :
    stackAfter inKey inMeanings ((sign q.closed.isSome '|').map fun C => [C])
        (bit (q.conj x) :: q.closed.toList.map bit) = [bit (q.disj x)] := by
  unfold Pending.disj
  cases q.closed with
  | none => rfl
  | some y => exact stackAfter_or inKey inMeanings y _ []

variable {l : Literal}

section

variable (h : AfterLiteral inKey inMeanings q l st)
include h

theorem AfterLiteral.conj : stackAfter inKey inMeanings
        (st.v ++ (sign l.negated '!' ++ sign q.opened.isSome '&').map fun C => [C]) []
      = bit (q.conj (l.value (holds inKey inMeanings))) :: q.closed.toList.map bit := by
  rw [map_append, ← append_assoc, stackAfter_append, stackAfter_append, h.operands,
    stackAfter_sign_not, stackAfter_sign_and]

theorem AfterLiteral.disj :
    stackAfter inKey inMeanings (popRest st) [] = [bit (q.disj (l.value (holds inKey inMeanings)))] := by
  rw [popRest, h.operators, Pending.operators, ← append_assoc, map_append,
    ← append_assoc, stackAfter_append, h.conj, stackAfter_sign_or]

theorem AfterLiteral.join_and (behind : List Char) :
    Converted inKey inMeanings ⟨q.closed, some (q.conj (l.value (holds inKey inMeanings)))⟩
      (postChar '&' behind st) := by
  have hpop : popHigher '&' st.v st.stk
      = (st.v ++ (sign l.negated '!' ++ sign q.opened.isSome '&').map (fun C => [C]),
          sign q.closed.isSome '|') := by
    rw [popHigher_eq, h.operators, Pending.operators]
    cases l.negated <;> cases q.opened.isSome <;> cases q.closed.isSome <;> rfl
  rw [postChar_operator rfl, hpop]
  exact ⟨h.t_nil, rfl, h.conj⟩

theorem AfterLiteral.join_or (behind : List Char) :
    Converted inKey inMeanings ⟨some (q.disj (l.value (holds inKey inMeanings))), none⟩
      (postChar '|' behind st) := by
  have hpop : popHigher '|' st.v st.stk = (popRest st, []) := by
    rw [popHigher_eq, popRest, h.operators, Pending.operators]
    cases l.negated <;> cases q.opened.isSome <;> cases q.closed.isSome <;> rfl
  rw [postChar_operator rfl, hpop]
  exact ⟨h.t_nil, rfl, h.disj⟩

end

/-- **The rest of an expression**, from any literal on. -/
theorem Converted.rest (joined : List (Joiner × Literal)) : ∀ (l : Literal) {q : Pending}
    {st : PostState}, Converted inKey inMeanings q st →
      stackAfter inKey inMeanings (popRest (postLoop (Expression.text ⟨l, joined⟩) st)) []
        = [bit (q.value (holds inKey inMeanings) (conjunctions l joined))] := by
  induction joined with
  | nil =>
    intro l q st h
    obtain ⟨st', hread, hlit⟩ := h.literal l (Or.inl rfl)
    show stackAfter inKey inMeanings (popRest (postLoop (l.text ++ []) st)) [] = _
    rw [hread]
    show stackAfter inKey inMeanings (popRest st') [] = _
    rw [hlit.disj, q.value_last]
  | cons j joined ih =>
    intro l q st h
    obtain ⟨j, m⟩ := j
    have hend : ∀ t : List Char, (j.letter :: t) = []
        ∨ (j.letter :: t).head?.any IsOperator = true := by
      intro t
      cases j <;> exact Or.inr rfl
    obtain ⟨st', hread, hlit⟩ := h.literal l (hend (Expression.text ⟨m, joined⟩))
    show stackAfter inKey inMeanings (popRest
      (postLoop (l.text ++ j.letter :: Expression.text ⟨m, joined⟩) st)) [] = _
    rw [hread]
    show stackAfter inKey inMeanings (popRest (postLoop (Expression.text ⟨m, joined⟩)
      (postChar j.letter (Expression.text ⟨m, joined⟩) st'))) [] = _
    cases j with
    | and =>
      rw [q.value_and]
      exact ih m (hlit.join_and _)
    | or =>
      rw [q.value_or]
      exact ih m (hlit.join_or _)

end Conversion

/-! ## §5. The calls. -/

/-- The postfix form runs to the value of the expression. -/
theorem InToPost_expression (inKey : List Char) (inMeanings : List (List Char)) (e : Expression) :
    stackAfter inKey inMeanings (InToPost e.text) [] = [bit (e.value (holds inKey inMeanings))] := by
  have hstart : Converted inKey inMeanings ⟨none, none⟩ ⟨[], [], []⟩ := ⟨rfl, rfl, rfl⟩
  show stackAfter inKey inMeanings (popRest (postLoop e.text ⟨[], [], []⟩)) [] = _
  rw [show e.text = Expression.text ⟨e.first, e.joined⟩ from rfl, hstart.rest e.joined e.first]
  obtain ⟨c, cs, hcs⟩ := conjunctions_cons e.joined e.first
  rw [Expression.value, hcs]
  simp [Pending.value, Pending.disj, Pending.conj]

/-- **A call leaves the member stack empty**, whatever it was given. -/
theorem stack_empty_after (p : QLogicalParser) (inGrammar inKey : List Char)
    (inMeanings : List (List Char)) : (p.parse inGrammar inKey inMeanings).2 = new :=
  rfl

theorem after_new (calls : List ParseCall) : new.after calls = new := by
  induction calls with
  | nil => rfl
  | cons c calls ih =>
    show ((new.parse c.inGrammar c.inKey c.inMeanings).2).after calls = new
    rw [stack_empty_after, ih]

/-- **parse returns the value of an expression**, and nothing of it hangs on the
calls before. -/
theorem parse_expression (calls : List ParseCall) (e : Expression) (inKey : List Char)
    (inMeanings : List (List Char)) :
    ((new.after calls).parse e.text inKey inMeanings).1
        = e.value (fun word => decide (Holds inKey inMeanings word))
      ∧ ∀ inGrammar, (new.after calls).parse inGrammar inKey inMeanings
          = new.parse inGrammar inKey inMeanings := by
  rw [after_new]
  refine ⟨?_, fun inGrammar => rfl⟩
  have hstack := InToPost_expression inKey inMeanings e
  show decide (drain ((InToPost e.text).foldl (calItem inKey inMeanings) (0, [])).1
    ((InToPost e.text).foldl (calItem inKey inMeanings) (0, [])).2 = 1) = _
  rw [stack_foldl, hstack]
  show decide (bit (e.value (holds inKey inMeanings)) = 1) = e.value (holds inKey inMeanings)
  simp only [bit_eq_one, Bool.decide_eq_true]

/-- A word of one letter. -/
def letter (C : Char) (h : IsOperator C = false) : Word where
  letters := [C]
  ne_nil := List.cons_ne_nil C []
  no_operator := fun D hD => by
    rw [List.mem_singleton.mp hD]
    exact h

/-- `a&!b|c`. -/
def threeWords : Expression :=
  ⟨⟨false, letter 'a' rfl⟩, [(.and, ⟨true, letter 'b' rfl⟩), (.or, ⟨false, letter 'c' rfl⟩)]⟩

/-- Its value for a key that has `a` and not `b`, behind a call that left something over. -/
theorem parse_expression_three : threeWords.text = ['a', '&', '!', 'b', '|', 'c'] ∧
    ((new.after [⟨['a', '&'], ['a'], []⟩]).parse threeWords.text ['a'] []).1
      = threeWords.value (fun word => decide (Holds ['a'] [] word)) :=
  ⟨rfl, (parse_expression [⟨['a', '&'], ['a'], []⟩] threeWords ['a'] []).1⟩

/-- `&` binds more tightly than `|`, and what an earlier call left over is gone. -/
example : ((new.after [⟨['a', '&'], ['a'], []⟩]).parse ['a', '|', 'b', '&', '!', 'a'] ['a'] []).1
    = true := by decide

end QLogicalParser

end KalavaPir.Common
