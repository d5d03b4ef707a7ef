/-
  KalavaPir.Common.QTransfer — loops that send or receive a whole buffer,
  `common/qglobal.h` and `common/qhttpserver.h`.

  A socket is a list of outcomes, one for each call: how many bytes it took or gave,
  or its `errno`.  A call without an outcome never returns.  What a call does to the
  peer's bytes, or to the buffer, is a function of the place and the number of bytes.

  `continue` in a `do { … } while(…)` leads to the condition, with the `retval` that
  has just failed.
-/
import KalavaPir.Framework.Memory
import Mathlib.Algebra.Order.Ring.Int
import Mathlib.Data.List.Basic

namespace KalavaPir.Common

open KalavaPir.Framework List

/-! ## §1. Calls. -/

/-- The errors that the loops tell apart. -/
inductive Errno
  | EAGAIN
  | EWOULDBLOCK
  | EINTR
  | other
  deriving DecidableEq

/-- What `::send` or `::recv` returns. -/
inductive IoOutcome
  | bytes (n : ℕ)
  | failure (errno : Errno)
  deriving DecidableEq

/-- What `send` or `recv` returns. -/
def IoOutcome.retval : IoOutcome → ℤ
  | .bytes n => n
  | .failure _ => -1

/-- The bytes of all calls. -/
def totalBytes : List IoOutcome → ℕ
  | [] => 0
  | .bytes n :: outcomes => n + totalBytes outcomes
  | .failure _ :: outcomes => totalBytes outcomes

/-! ## §2. The loops. -/

/-- Where the body of a `do { … } while(…)` is left to. -/
inductive LeftTo
  | condition
  | behind
  | caller (code : ℤ)

section Source

variable {σ : Type}

/-- `do { … } while(retval>0&&finlen<len)`: `call` is what a call does at a place with a
    number of bytes, `stopped` what the body does if it got none, and `finish` what is
    returned behind the loop. -/
def transferLoop (call : ℕ → ℕ → σ → σ) (stopped : IoOutcome → LeftTo) (finish : ℤ → ℕ → ℤ) (len : ℕ) :
    List IoOutcome → ℕ → σ → Option (ℤ × σ)
  | [], _, _ => none
  | .bytes (n + 1) :: outcomes, finlen, s =>
    if finlen + (n + 1) < len then
      transferLoop call stopped finish len outcomes (finlen + (n + 1)) (call finlen (n + 1) s)
    else some (finish (n + 1) (finlen + (n + 1)), call finlen (n + 1) s)
  | outcome :: _, finlen, s =>
    match stopped outcome with
    -- `retval` is not positive, so that the condition ends the loop
    | .condition => some (finish outcome.retval finlen, s)
    | .behind => some (finish outcome.retval finlen, s)
    | .caller code => some (code, s)

end Source

/-- `if(retval<0||finlen<len) return -1; return 0;` -/
def bufFinish (len : ℕ) (retval : ℤ) (finlen : ℕ) : ℤ := if retval < 0 ∨ finlen < len then -1 else 0

/-- `if(retval==-1&&(errno==EAGAIN||errno==EWOULDBLOCK)) continue;`, and the end of the body. -/
def bufStopped : IoOutcome → LeftTo
  | .failure .EAGAIN => .condition
  | .failure .EWOULDBLOCK => .condition
  | _ => .condition

/-- `::send`: the peer gets the next bytes of the buffer. -/
def sendCall (in_buffer : List UInt8) (finlen n : ℕ) (wire : List UInt8) : List UInt8 :=
  wire ++ (in_buffer.drop finlen).take n

/-- A buffer that is filled, and the bytes that the peer has still to send. -/
structure RecvState where
  in_buffer : Memory
  wire : List UInt8

/-- `::recv`: the next bytes of the peer are stored. -/
def recvCall (finlen n : ℕ) (s : RecvState) : RecvState :=
  { in_buffer := s.in_buffer.write finlen (s.wire.take n), wire := s.wire.drop n }

/-- qglobal.h:1890. -/
def q_sendbuf (in_buffer : List UInt8) (outcomes : List IoOutcome) : Option (ℤ × List UInt8) :=
  transferLoop (sendCall in_buffer) bufStopped (bufFinish in_buffer.length) in_buffer.length outcomes 0 []

/-- qglobal.h:1834. -/
def q_recvbuf (s : RecvState) (in_buflen : ℕ) (outcomes : List IoOutcome) : Option (ℤ × RecvState) :=
  transferLoop recvCall bufStopped (bufFinish in_buflen) in_buflen outcomes 0 s

/-- `if(finlen<buf_len) return -3; return 0;` -/
def nonblockingFinish (len : ℕ) (_ : ℤ) (finlen : ℕ) : ℤ := if finlen < len then -3 else 0

/-- The body of the loop of `send_buf_nonblocking`, behind a call that sent nothing. -/
def nonblockingStopped : IoOutcome → LeftTo
  | .failure .EAGAIN => .behind
  | .failure .EWOULDBLOCK => .behind
  | .failure .EINTR => .condition
  | .failure .other => .caller (-1)
  | .bytes _ => .behind

/-- qhttpserver.h:1026. -/
def send_buf_nonblocking (in_buf : List UInt8) (outcomes : List IoOutcome) : Option (ℤ × List UInt8) :=
  transferLoop (sendCall in_buf) nonblockingStopped (nonblockingFinish in_buf.length) in_buf.length outcomes 0 []

/-! ## §3. Whole runs. -/

/-- Every outcome in front of which `k` bytes have not yet been transferred transfers some. -/
def NoneStops (k : ℕ) (outcomes : List IoOutcome) : Prop :=
  ∀ done outcome rest, outcomes = done ++ outcome :: rest → totalBytes done < k → 0 < outcome.retval

theorem noneStops_last {k n : ℕ} (hn : k ≤ n + 1) (outcomes : List IoOutcome) :
    NoneStops k (.bytes (n + 1) :: outcomes) := by
  intro done outcome rest heq hless
  cases done with
  | nil =>
    have hfirst : IoOutcome.bytes (n + 1) = outcome := (List.cons.inj heq).1
    rw [← hfirst]
    exact Int.natCast_succ_pos n
  | cons first done =>
    have hfirst : IoOutcome.bytes (n + 1) = first := (List.cons.inj heq).1
    rw [← hfirst] at hless
    have htotal : n + 1 + totalBytes done < k := hless
    omega

theorem noneStops_cons {k n : ℕ} (outcomes : List IoOutcome) :
    NoneStops (n + 1 + k) (.bytes (n + 1) :: outcomes) ↔ NoneStops k outcomes := by
  constructor
  · intro h done outcome rest heq hless
    apply h (.bytes (n + 1) :: done) outcome rest
    · rw [heq]
      rfl
    · show n + 1 + totalBytes done < n + 1 + k
      omega
  · intro h done outcome rest heq hless
    cases done with
    | nil =>
      have hfirst : IoOutcome.bytes (n + 1) = outcome := (List.cons.inj heq).1
      rw [← hfirst]
      exact Int.natCast_succ_pos n
    | cons first done =>
      obtain ⟨hfirst, hrest⟩ := List.cons.inj heq
      rw [← hfirst] at hless
      have htotal : n + 1 + totalBytes done < n + 1 + k := hless
      exact h done outcome rest hrest (by omega)

theorem not_noneStops {k : ℕ} (hk : 0 < k) {outcome : IoOutcome} (hstop : ¬ 0 < outcome.retval)
    (outcomes : List IoOutcome) : ¬ NoneStops k (outcome :: outcomes) :=
  fun h => hstop (h [] outcome outcomes rfl hk)

section Runs

variable {σ : Type} {call : ℕ → ℕ → σ → σ} {stopped : IoOutcome → LeftTo} {finish : ℤ → ℕ → ℤ} {len : ℕ}

theorem transferLoop_stop {outcome : IoOutcome} (hstop : ¬ 0 < outcome.retval) (outcomes : List IoOutcome)
    (finlen : ℕ) (s : σ) : transferLoop call stopped finish len (outcome :: outcomes) finlen s =
      match stopped outcome with
      | .condition | .behind => some (finish outcome.retval finlen, s)
      | .caller code => some (code, s) := by
  cases outcome with
  | bytes n =>
    cases n with
    | zero => rfl
    | succ n => exact absurd (Int.natCast_succ_pos n) hstop
  | failure errno => rfl

/-- **A WHOLE RUN**: the invariant holds of all bytes, and the code is 0, if nothing stops the
    loop in front of the last byte, and otherwise the code is not 0. -/
theorem transferLoop_run {I : ℕ → σ → Prop} (hcall : ∀ f n s, I f s → f + n ≤ len → I (f + n) (call f n s))
    (hfinish : ∀ retval : ℤ, 0 < retval → finish retval len = 0)
    (hstopped : ∀ outcome finlen, finlen < len → ¬ 0 < outcome.retval →
      finish outcome.retval finlen ≠ 0 ∧ ∀ code, stopped outcome = .caller code → code ≠ 0)
    (outcomes : List IoOutcome) : ∀ {finlen : ℕ} {s : σ}, finlen < len →
      totalBytes outcomes = len - finlen → I finlen s →
      ∃ r s', transferLoop call stopped finish len outcomes finlen s = some (r, s') ∧
        (NoneStops (len - finlen) outcomes ∧ I len s' ∧ r = 0 ∨
          ¬ NoneStops (len - finlen) outcomes ∧ r ≠ 0) := by
  induction outcomes with
  | nil =>
    intro finlen s hless htotal _
    have hzero : 0 = len - finlen := htotal
    omega
  | cons outcome outcomes ih =>
    intro finlen s hless htotal hs
    by_cases hsome : 0 < outcome.retval
    · cases outcome with
      | failure errno =>
        have hneg : (0 : ℤ) < -1 := hsome
        omega
      | bytes n =>
        obtain ⟨n, rfl⟩ : ∃ k, n = k + 1 := ⟨n - 1, by
          have hpos : (0 : ℤ) < n := hsome
          omega⟩
        have hsum : n + 1 + totalBytes outcomes = len - finlen := htotal
        have hnext := hcall finlen (n + 1) s hs (by omega)
        rw [transferLoop]
        by_cases hmore : finlen + (n + 1) < len
        · -- more bytes are left
          rw [if_pos hmore, show len - finlen = n + 1 + (len - (finlen + (n + 1))) by omega,
            noneStops_cons]
          exact ih hmore (by omega) hnext
        have hlast : finlen + (n + 1) = len := by omega
        rw [if_neg hmore]
        rw [hlast] at hnext ⊢
        exact ⟨_, _, rfl, Or.inl ⟨noneStops_last (by omega) outcomes, hnext,
          hfinish _ (by omega)⟩⟩
    · -- the loop ends here
      obtain ⟨hcode, hcaller⟩ := hstopped outcome finlen hless hsome
      have hnot := not_noneStops (show 0 < len - finlen by omega) hsome outcomes
      rw [transferLoop_stop hsome]
      cases hleft : stopped outcome with
      | condition | behind => exact ⟨_, s, rfl, Or.inr ⟨hnot, hcode⟩⟩
      | caller code => exact ⟨code, s, rfl, Or.inr ⟨hnot, hcaller code hleft⟩⟩

end Runs

/-! ## §4. What is transferred. -/

/-- The peer has the first bytes of the buffer. -/
def Sent (in_buffer : List UInt8) (finlen : ℕ) (wire : List UInt8) : Prop := wire = in_buffer.take finlen

/-- The first bytes of the peer are in the buffer, and the others are still to come. -/
def Received (wire : List UInt8) (finlen : ℕ) (s : RecvState) : Prop :=
  s.in_buffer.read 0 finlen = wire.take finlen ∧ s.wire = wire.drop finlen

theorem Sent.call {in_buffer wire : List UInt8} {finlen : ℕ} (h : Sent in_buffer finlen wire) (n : ℕ) :
    Sent in_buffer (finlen + n) (sendCall in_buffer finlen n wire) := by
  unfold Sent at h ⊢
  rw [sendCall, h, take_add]

theorem Received.call {wire : List UInt8} {s : RecvState} {finlen n : ℕ} (h : Received wire finlen s)
    (hn : finlen + n ≤ wire.length) : Received wire (finlen + n) (recvCall finlen n s) := by
  obtain ⟨hread, hwire⟩ := h
  have hlen : (s.wire.take n).length = n := by
    rw [length_take, hwire, length_drop]
    omega
  constructor
  · show (s.in_buffer.write finlen (s.wire.take n)).read 0 (finlen + n) = _
    have hnew := Memory.read_write_self s.in_buffer finlen (s.wire.take n)
    rw [hlen] at hnew
    rw [Memory.read_add, Memory.read_write_of_disjoint _ (Or.inl (by omega)), hread, Nat.zero_add, hnew,
      hwire, take_add]
  · show s.wire.drop n = _
    rw [hwire, drop_drop]

theorem bufStopped_eq (outcome : IoOutcome) : bufStopped outcome = .condition := by
  unfold bufStopped
  split <;> rfl

theorem bufFinish_of_lt {len finlen : ℕ} (h : finlen < len) (retval : ℤ) : bufFinish len retval finlen = -1 :=
  if_pos (Or.inr h)

theorem bufFinish_all {len : ℕ} {retval : ℤ} (h : 0 ≤ retval) : bufFinish len retval len = 0 :=
  if_neg (by omega)

/-- **The run of `q_sendbuf` and `q_recvbuf`.** -/
theorem bufLoop_run {σ : Type} {call : ℕ → ℕ → σ → σ} {I : ℕ → σ → Prop} {len : ℕ}
    (hcall : ∀ f n s, I f s → f + n ≤ len → I (f + n) (call f n s)) {outcomes : List IoOutcome}
    (htotal : totalBytes outcomes = len) (hlen : 0 < len) {s : σ} (hs : I 0 s) :
    ∃ r s', transferLoop call bufStopped (bufFinish len) len outcomes 0 s = some (r, s') ∧
      (NoneStops len outcomes ∧ I len s' ∧ r = 0 ∨ ¬ NoneStops len outcomes ∧ r ≠ 0) := by
  refine transferLoop_run hcall (fun retval h => bufFinish_all (le_of_lt h)) ?_ outcomes hlen
    (by rw [htotal, Nat.sub_zero]) hs
  intro outcome finlen hless _
  rw [bufFinish_of_lt hless, bufStopped_eq]
  exact ⟨by decide, fun code hcode => by cases hcode⟩

/-- An empty buffer: one call is made, and it must not fail. -/
theorem bufLoop_empty {σ : Type} {call : ℕ → ℕ → σ → σ} {outcomes : List IoOutcome}
    (htotal : totalBytes outcomes = 0) (s : σ) : ((∃ rest, outcomes = .bytes 0 :: rest) ∧
      transferLoop call bufStopped (bufFinish 0) 0 outcomes 0 s = some (0, s)) ∨
    (¬ ∃ rest, outcomes = .bytes 0 :: rest) ∧
      ∀ s', transferLoop call bufStopped (bufFinish 0) 0 outcomes 0 s ≠ some (0, s') := by
  cases outcomes with
  | nil =>
    apply Or.inr
    constructor
    · rintro ⟨rest, h⟩
      cases h
    · intro s' h
      cases h
  | cons outcome outcomes =>
    cases outcome with
    | bytes n =>
      have hzero : n + totalBytes outcomes = 0 := htotal
      obtain rfl : n = 0 := by omega
      exact Or.inl ⟨⟨outcomes, rfl⟩, rfl⟩
    | failure errno =>
      apply Or.inr
      constructor
      · rintro ⟨rest, h⟩
        cases h
      · intro s' h
        have hneg : ¬ 0 < (IoOutcome.failure errno).retval := Int.not_lt.mpr (show (-1 : ℤ) ≤ 0 by decide)
        rw [transferLoop_stop hneg, bufStopped_eq] at h
        cases h

/-! ## §5. When the buffer is transferred. -/

/-- It returns 0, and the peer has got the bytes of the buffer, in their order. -/
def SendsAll (in_buffer : List UInt8) (r : Option (ℤ × List UInt8)) : Prop := r = some (0, in_buffer)

/-- It returns 0, and the first bytes of the peer are in the buffer, in their order. -/
def ReceivesAll (bytes more : List UInt8) (r : Option (ℤ × RecvState)) : Prop :=
  ∃ s, r = some (0, s) ∧ s.in_buffer.read 0 bytes.length = bytes ∧ s.wire = more

/-- No call fails before all bytes are transferred; for no bytes one call is made. -/
def NothingFails (len : ℕ) (outcomes : List IoOutcome) : Prop :=
  NoneStops len outcomes ∧ (len = 0 → ∃ rest, outcomes = .bytes 0 :: rest)

theorem sendsAll_iff (bytes : List UInt8) {outcomes : List IoOutcome}
    (htotal : totalBytes outcomes = bytes.length) :
    SendsAll bytes (q_sendbuf bytes outcomes) ↔ NothingFails bytes.length outcomes := by
  unfold SendsAll NothingFails q_sendbuf
  rcases Nat.eq_zero_or_pos bytes.length with hzero | hlen
  · have hnil : bytes = [] := length_eq_zero_iff.mp hzero
    subst hnil
    have hvacuous : NoneStops 0 outcomes := fun done outcome rest _ h => absurd h (Nat.not_lt_zero _)
    rcases @bufLoop_empty _ (sendCall []) outcomes htotal [] with ⟨hfirst, hrun⟩ | ⟨hnot, hrun⟩
    · exact ⟨fun _ => ⟨hvacuous, fun _ => hfirst⟩, fun _ => hrun⟩
    · exact ⟨fun h => absurd h (hrun []), fun h => absurd (h.2 rfl) hnot⟩
  obtain ⟨r, wire, hrun, hcases⟩ :=
    bufLoop_run (I := Sent bytes) (fun f n s h _ => h.call n) htotal hlen (s := []) rfl
  rw [hrun]
  rcases hcases with ⟨hnone, hsent, rfl⟩ | ⟨hsome, hcode⟩
  · refine ⟨fun _ => ⟨hnone, by omega⟩, fun _ => ?_⟩
    rw [hsent, take_length]
  · exact ⟨fun h => absurd (Prod.mk.inj (Option.some.inj h)).1 hcode, fun h => absurd h.1 hsome⟩

theorem receivesAll_iff (bytes more : List UInt8) (in_buffer : Memory) {outcomes : List IoOutcome}
    (htotal : totalBytes outcomes = bytes.length) : ReceivesAll bytes more
        (q_recvbuf { in_buffer := in_buffer, wire := bytes ++ more } bytes.length outcomes) ↔
      NothingFails bytes.length outcomes := by
  unfold ReceivesAll NothingFails q_recvbuf
  rcases Nat.eq_zero_or_pos bytes.length with hzero | hlen
  · have hnil : bytes = [] := length_eq_zero_iff.mp hzero
    subst hnil
    have hvacuous : NoneStops 0 outcomes := fun done outcome rest _ h => absurd h (Nat.not_lt_zero _)
    rcases @bufLoop_empty _ recvCall outcomes htotal { in_buffer := in_buffer, wire := [] ++ more } with
      ⟨hfirst, hrun⟩ | ⟨hnot, hrun⟩
    · exact ⟨fun _ => ⟨hvacuous, fun _ => hfirst⟩, fun _ => ⟨_, hrun, rfl, rfl⟩⟩
    · exact ⟨fun ⟨s, h, _⟩ => absurd h (hrun s), fun h => absurd (h.2 rfl) hnot⟩
  have hall : (bytes ++ more).length = bytes.length + more.length := length_append
  obtain ⟨r, s, hrun, hcases⟩ :=
    bufLoop_run (I := Received (bytes ++ more)) (fun f n s h hn => h.call (by omega)) htotal hlen
      (s := { in_buffer := in_buffer, wire := bytes ++ more }) ⟨rfl, rfl⟩
  rw [hrun]
  rcases hcases with ⟨hnone, ⟨hread, hwire⟩, rfl⟩ | ⟨hsome, hcode⟩
  · rw [take_left] at hread
    rw [drop_left] at hwire
    exact ⟨fun _ => ⟨hnone, by omega⟩, fun _ => ⟨s, rfl, hread, hwire⟩⟩
  · exact ⟨fun ⟨s', h, _⟩ => absurd (Prod.mk.inj (Option.some.inj h)).1 hcode, fun h => absurd h.1 hsome⟩

theorem sendsAll_nonblocking_iff (bytes : List UInt8) {outcomes : List IoOutcome}
    (htotal : totalBytes outcomes = bytes.length) (hretry : ∀ errno, .failure errno ∈ outcomes → errno = .EINTR) :
    SendsAll bytes (send_buf_nonblocking bytes outcomes) ↔
      NoneStops bytes.length outcomes ∧ outcomes ≠ [] := by
  unfold SendsAll send_buf_nonblocking
  rcases Nat.eq_zero_or_pos bytes.length with hzero | hlen
  · have hnil : bytes = [] := length_eq_zero_iff.mp hzero
    subst hnil
    have hvacuous : NoneStops 0 outcomes := fun done outcome rest _ h => absurd h (Nat.not_lt_zero _)
    cases outcomes with
    | nil =>
      constructor
      · intro h
        cases h
      · exact fun h => absurd rfl h.2
    | cons outcome outcomes =>
      refine ⟨fun _ => ⟨hvacuous, cons_ne_nil _ _⟩, fun _ => ?_⟩
      cases outcome with
      | bytes n =>
        have hsum : n + totalBytes outcomes = 0 := htotal
        obtain rfl : n = 0 := by omega
        rfl
      | failure errno =>
        obtain rfl := hretry errno mem_cons_self
        rfl
  have hsome : outcomes ≠ [] := by
    rintro rfl
    have hnone : 0 = bytes.length := htotal
    omega
  rw [and_iff_left hsome]
  have hstopped : ∀ outcome finlen, finlen < bytes.length → ¬ 0 < outcome.retval →
      nonblockingFinish bytes.length outcome.retval finlen ≠ 0 ∧
        ∀ code, nonblockingStopped outcome = .caller code → code ≠ 0 := by
    intro outcome finlen hless _
    constructor
    · rw [nonblockingFinish, if_pos hless]
      decide
    · intro code hcode
      unfold nonblockingStopped at hcode
      split at hcode <;> cases hcode
      decide
  obtain ⟨r, wire, hrun, hcases⟩ :=
    transferLoop_run (I := Sent bytes) (fun f n s h _ => h.call n)
      (fun _ _ => if_neg (Nat.lt_irrefl _)) hstopped outcomes hlen
      (by rw [htotal, Nat.sub_zero]) (s := []) rfl
  rw [hrun]
  rcases hcases with ⟨hnone, hsent, rfl⟩ | ⟨hstop, hcode⟩
  · refine ⟨fun _ => hnone, fun _ => ?_⟩
    rw [hsent, take_length]
  · exact ⟨fun h => absurd (Prod.mk.inj (Option.some.inj h)).1 hcode, fun h => absurd h hstop⟩

/-- **WHEN THE BUFFER IS TRANSFERRED**: no call fails before its last byte, be it with an
    error that the loop names as one to be retried. -/
theorem transfers_meet_iff (bytes more : List UInt8) (in_buffer : Memory) (outcomes : List IoOutcome)
    (htotal : totalBytes outcomes = bytes.length) :
    (SendsAll bytes (q_sendbuf bytes outcomes) ↔ NothingFails bytes.length outcomes) ∧
    (ReceivesAll bytes more
        (q_recvbuf { in_buffer := in_buffer, wire := bytes ++ more } bytes.length outcomes) ↔
      NothingFails bytes.length outcomes) ∧
    ((∀ errno, .failure errno ∈ outcomes → errno = .EINTR) →
      (SendsAll bytes (send_buf_nonblocking bytes outcomes) ↔
        NoneStops bytes.length outcomes ∧ outcomes ≠ [])) :=
  ⟨sendsAll_iff bytes htotal, receivesAll_iff bytes more in_buffer htotal,
    sendsAll_nonblocking_iff bytes htotal⟩

/-- Three bytes in two calls, and a call behind them that fails. -/
theorem transfers_meet_two_calls :
    (SendsAll [1, 2, 3] (q_sendbuf [1, 2, 3] [.bytes 2, .bytes 1, .failure .EINTR]) ↔
      NothingFails 3 [.bytes 2, .bytes 1, .failure .EINTR]) ∧
    (ReceivesAll [1, 2, 3] [4]
        (q_recvbuf { in_buffer := fun _ => 0, wire := [1, 2, 3, 4] } 3 [.bytes 2, .bytes 1, .failure .EINTR]) ↔
      NothingFails 3 [.bytes 2, .bytes 1, .failure .EINTR]) ∧
    (SendsAll [1, 2, 3] (send_buf_nonblocking [1, 2, 3] [.bytes 2, .bytes 1, .failure .EINTR]) ↔
      NoneStops 3 [.bytes 2, .bytes 1, .failure .EINTR] ∧
        [IoOutcome.bytes 2, .bytes 1, .failure .EINTR] ≠ []) := by
  obtain ⟨hsend, hrecv, hhttp⟩ := transfers_meet_iff [1, 2, 3] [4] (fun _ => 0)
    [.bytes 2, .bytes 1, .failure .EINTR] rfl
  exact ⟨hsend, hrecv, hhttp (by simp)⟩

/-- **A failure between two calls** ends each of the loops. -/
theorem transfers_give_up : ¬ ∀ (bytes more : List UInt8) (in_buffer : Memory) (outcomes : List IoOutcome),
    totalBytes outcomes = bytes.length →
    ((∀ errno, .failure errno ∈ outcomes → errno = .EAGAIN ∨ errno = .EWOULDBLOCK) →
      SendsAll bytes (q_sendbuf bytes outcomes) ∧ ReceivesAll bytes more
        (q_recvbuf { in_buffer := in_buffer, wire := bytes ++ more } bytes.length outcomes)) ∧
    ((∀ errno, .failure errno ∈ outcomes → errno = .EINTR) →
      SendsAll bytes (send_buf_nonblocking bytes outcomes)) := by
  intro h
  obtain ⟨hbuf, -⟩ := h [1, 2] [] (fun _ => 0) [.bytes 1, .failure .EAGAIN, .bytes 1] rfl
  have hsend : q_sendbuf [1, 2] [.bytes 1, .failure .EAGAIN, .bytes 1] = some (0, [1, 2]) :=
    (hbuf (by simp)).1
  exact absurd hsend (by decide)

end KalavaPir.Common
