/-
  KalavaPir.Common.QHttpServer — a worker thread and its requests, `common/qhttpserver.h`.

  A worker keeps one `io_data_t`: its fields are reset for each request, and what `::recv`
  gives overwrites the first bytes of `request_header`.  What stands behind them is what
  earlier requests have left, and in the beginning anything.  The parser looks for blanks,
  line ends and NUL, and never at `request_header_len`.  Where it looks behind the end of
  the buffer, nothing is said about what it returns (`none`).

  A character stands for a byte.  The response is left out: nothing of it is read by the
  requests that follow.
-/
import KalavaPir.Framework.Scanning
import KalavaPir.Common.QTransfer

namespace KalavaPir.Common

open KalavaPir.Framework List Option

namespace QHttpServer

/-! ## §1. The fields of a request. -/

/-- The methods of a request. -/
inductive Method
  | UNKOWN | GET | POST | HEAD | PUT | DELETE | TRACE | OPTIONS | CONNECT | PATCH
  deriving DecidableEq

/-- The versions of the protocol. -/
inductive Version
  | HTTP_1_0 | HTTP_1_1
  deriving DecidableEq

/-- What becomes of the connection. -/
inductive Connection
  | HTTP_CLOSE | HTTP_KEEP_ALIVE
  deriving DecidableEq

/-- A pointer into `request_header`, or NULL, and a length. -/
structure Slice where
  ptr : Option ℕ
  length : ℕ
  deriving DecidableEq

/-- The fields that `process_request` sets. -/
structure Fields where
  method : Method
  version : Version
  keep_alive : Connection
  url : Slice
  host : Slice
  accept : Slice
  referer : Slice
  user_agent : Slice
  accept_encoding : Slice
  accept_language : Slice
  deriving DecidableEq

/-- As `reset` leaves them. -/
def resetFields : Fields where
  method := .GET
  version := .HTTP_1_1
  keep_alive := .HTTP_CLOSE
  url := ⟨none, 0⟩
  host := ⟨none, 0⟩
  accept := ⟨none, 0⟩
  referer := ⟨none, 0⟩
  user_agent := ⟨none, 0⟩
  accept_encoding := ⟨none, 0⟩
  accept_language := ⟨none, 0⟩

/-- All pieces of the request that are kept. -/
def Fields.slices (io : Fields) : List Slice :=
  [io.url, io.host, io.accept, io.referer, io.user_agent, io.accept_encoding, io.accept_language]

/-- The place behind a slice. -/
def Slice.stop (s : Slice) : ℕ := s.ptr.getD 0 + s.length

/-! ## §2. The parser. -/

/-- The codes of a refused request. -/
def METHOD_ERROR : ℤ := 405
def VERSION_ERROR : ℤ := 505

/-- `q_strncasecmp(ptr, name, strlen(name))==0`. -/
def compares (ptr : Cursor Char) (name : List Char) : Option Bool :=
  begins Char.toLower name ptr.rest

/-- `while(*ptr_text&&(*ptr_text==' '||…)&&…)`. -/
def isBlank (c : Char) : Bool :=
  c != '\x00' && (c == ' ' || c == '\t') && c != '\r' && c != '\n'

/-- `while(*ptr_temp&&*ptr_temp!=' '&&…)`. -/
def inUrl (c : Char) : Bool :=
  c != '\x00' && c != ' ' && c != '\t' && c != '\r' && c != '\n'

/-- `while(*ptr_temp!='\r'&&*ptr_temp!='\n')`: a NUL does not end a value. -/
def inValue (c : Char) : Bool := c != '\r' && c != '\n'

/-- The text between two cursors. -/
def slice (ptr_text ptr_temp : Cursor Char) : Slice :=
  ⟨some ptr_text.pos, ptr_temp.pos - ptr_text.pos⟩

/-- The parameters that are kept as slices, in the order of the tests. -/
inductive Parameter
  | host | referer | user_agent | accept | accept_encoding | accept_language
  deriving DecidableEq

/-- What its line begins with. -/
def Parameter.name : Parameter → List Char
  | .host => "Host:".toList
  | .referer => "Referer:".toList
  | .user_agent => "User-Agent:".toList
  | .accept => "Accept:".toList
  | .accept_encoding => "Accept-Encoding:".toList
  | .accept_language => "Accept-Language:".toList

/-- The field of a parameter. -/
def Parameter.set (p : Parameter) (io : Fields) (s : Slice) : Fields :=
  match p with
  | .host => { io with host := s }
  | .referer => { io with referer := s }
  | .user_agent => { io with user_agent := s }
  | .accept => { io with accept := s }
  | .accept_encoding => { io with accept_encoding := s }
  | .accept_language => { io with accept_language := s }

/-- In the order in which they are tried. -/
def parameters : List Parameter :=
  [.host, .referer, .user_agent, .accept, .accept_encoding, .accept_language]

/-- `else if(q_strncasecmp(ptr_text, …)==0)` for one parameter after the other. -/
def findParameter (ptr_text : Cursor Char) : List Parameter → Option (Option Parameter)
  | [] => some none
  | p :: ps =>
    (compares ptr_text p.name).bind fun found =>
      if found then some (some p) else findParameter ptr_text ps

/-- The body of `Connection:`. -/
def connection (io : Fields) (ptr_text : Cursor Char) : Option (Fields × Cursor Char) :=
  ((ptr_text.advance 11).scanWhile isBlank).bind fun ptr_text =>
    (compares ptr_text "keep-alive".toList).bind fun found =>
      if found then
        some ({ io with keep_alive := .HTTP_KEEP_ALIVE },
          ptr_text.advance 10)
      else some (io, ptr_text)

/-- The body of a parameter. -/
def parameter (p : Parameter) (io : Fields) (ptr_text : Cursor Char) :
    Option (Fields × Cursor Char) :=
  ((ptr_text.advance p.name.length).scanWhile isBlank).bind fun ptr_text =>
    (ptr_text.scanWhile inValue).bind fun ptr_temp =>
      some (p.set io (slice ptr_text ptr_temp), ptr_temp)

/-- The body of `while(*ptr_text) { … }`, where `*ptr_text` is not NUL. -/
def parseOne (io : Fields) (ptr_text : Cursor Char) : Option (Fields × Cursor Char) :=
  (compares ptr_text "Connection:".toList).bind fun found =>
    if found then connection io ptr_text
    else (findParameter ptr_text parameters).bind fun
      | some p => parameter p io ptr_text
      | none => some (io, ptr_text.advance 1)

/-- One round of the loop over the parameters. -/
def parseRound (s : Fields × Cursor Char) : Option (LoopStep (Fields × Cursor Char) Fields) :=
  match s.2.rest with
  | [] => none
  | c :: _ => if c = '\x00' then some (.done s.1) else (parseOne s.1 s.2).map .again

/-- A round takes a character at least. -/
def parseParameters (io : Fields) (ptr_text : Cursor Char) : Option Fields :=
  loop parseRound (ptr_text.rest.length + 1) (io, ptr_text)

/-- From the version on. -/
def parseVersion (io : Fields) (ptr_text : Cursor Char) : Option (ℤ × Fields) :=
  (compares ptr_text "HTTP/1.1".toList).bind fun found =>
    if found then
      (parseParameters { io with version := .HTTP_1_1 }
        (ptr_text.advance 8)).map fun io => (0, io)
    else (compares ptr_text "HTTP/1.0".toList).bind fun found =>
      if found then
        (parseParameters { io with version := .HTTP_1_0 }
          (ptr_text.advance 8)).map fun io => (0, io)
      else some (VERSION_ERROR, io)

/-- From the url on. -/
def parseUrl (io : Fields) (ptr_text : Cursor Char) : Option (ℤ × Fields) :=
  (ptr_text.scanWhile isBlank).bind fun ptr_text =>
    (ptr_text.scanWhile inUrl).bind fun ptr_temp =>
      (ptr_temp.scanWhile isBlank).bind fun version =>
        parseVersion { io with url := slice ptr_text ptr_temp } version

/-- The request line, and then the parameters. -/
def process_request (request_header : List Char) (io : Fields) : Option (ℤ × Fields) :=
  (compares ⟨0, request_header⟩ "GET".toList).bind fun found =>
    if found then
      parseUrl { io with method := .GET } (Cursor.advance ⟨0, request_header⟩ 3)
    else some (METHOD_ERROR, io)

/-! ## §3. The worker thread. -/

/-- What a worker keeps of a request. -/
structure IoData where
  fields : Fields
  request_header : List Char
  request_header_len : ℤ
  deriving DecidableEq

/-- What it clears before the next one. -/
def IoData.reset (io : IoData) : IoData :=
  { io with fields := resetFields, request_header_len := 0 }

/-- What `::recv` gives. -/
inductive RecvOutcome
  | bytes (bs : List Char)
  | failure (errno : Errno)

/-- `in_buf` from `finlen` on is overwritten. -/
def store (in_buf : List Char) (finlen : ℕ) (bs : List Char) : List Char :=
  in_buf.take finlen ++ bs ++ in_buf.drop (finlen + bs.length)

/-- The loop of `recv_buf_nonblocking`.  A call gives what it is asked for at most; one
without an outcome never returns. -/
def recvLoop : List RecvOutcome → ℕ → List Char → Option (ℤ × List Char)
  | outcomes, finlen, in_buf =>
    if in_buf.length ≤ finlen then some (-1, in_buf)
    else
      match outcomes with
      | [] => none
      | .failure .EAGAIN :: _ => some (finlen, in_buf)
      | .failure .EWOULDBLOCK :: _ => some (finlen, in_buf)
      | .failure _ :: _ => some (-2, in_buf)
      | .bytes bs :: outcomes =>
        let got := bs.take (in_buf.length - finlen)
        if got = [] then some (finlen, in_buf)
        else recvLoop outcomes (finlen + got.length) (store in_buf finlen got)

/-- The request as it comes in. -/
def recv_buf_nonblocking (outcomes : List RecvOutcome) (in_buf : List Char) :
    Option (ℤ × List Char) :=
  recvLoop outcomes 0 in_buf

/-- A client: does `::getpeername` succeed, and what `::recv` gives. -/
structure Request where
  has_peer : Bool
  outcomes : List RecvOutcome

/-- The body of the loop over the clients: what `process_request` returns, if it comes
to that, and the `io_data_t` that is left. -/
def work_thread (request : Request) (io : IoData) : Option (Option ℤ × IoData) :=
  if request.has_peer then
    (recv_buf_nonblocking request.outcomes io.reset.request_header).bind fun (ret, header) =>
      if ret < 0 then some (none, { io.reset with request_header := header })
      else
        (process_request header io.reset.fields).map fun (ret', fields) =>
          (some ret', ⟨fields, header, ret⟩)
  else some (none, io.reset)

/-- The `io_data_t` after some clients. -/
def workAll : List Request → IoData → Option IoData
  | [], io => some io
  | request :: requests, io => (work_thread request io).bind fun r => workAll requests r.2

/-! ## §4. Longer buffers. -/

section Extend

variable {t t' : Cursor Char} {io io' : Fields} {name : List Char} {b : Bool}

theorem compares_extend (h : compares t name = some b) (tail : List Char) :
    compares (t.extend tail) name = some b :=
  begins_extend Char.toLower h tail

theorem length_of_compares (h : compares t name = some true) : name.length ≤ t.rest.length :=
  length_of_begins Char.toLower h

theorem fits_of_compares {n : ℕ} (h : compares t name = some true) (hn : name.length = n) :
    n ≤ t.rest.length :=
  hn ▸ length_of_compares h

theorem length_pos_of_compares {d : Char} (h : compares t (d :: name) = some b) : 1 ≤ t.rest.length := by
  cases hrest : t.rest with
  | nil =>
    rw [compares, hrest] at h
    cases h
  | cons c cs => exact Nat.succ_pos _

variable {ps : List Parameter} {p : Parameter}

theorem findParameter_extend {found : Option Parameter} (h : findParameter t ps = some found)
    (tail : List Char) :
    findParameter (t.extend tail) ps = some found := by
  induction ps with
  | nil => exact h
  | cons p ps ih =>
    rw [findParameter] at h ⊢
    obtain ⟨b, hb, h⟩ := bind_eq_some_iff.mp h
    rw [compares_extend hb tail, bind_some]
    cases b with
    | true => exact h
    | false => exact ih h

theorem compares_of_findParameter (h : findParameter t ps = some (some p)) :
    compares t p.name = some true := by
  induction ps with
  | nil => cases h
  | cons q ps ih =>
    obtain ⟨b, hb, h⟩ := bind_eq_some_iff.mp h
    cases b with
    | true =>
      cases h
      exact hb
    | false => exact ih h

theorem connection_extend (hlen : 11 ≤ t.rest.length)
    (h : connection io t = some (io', t')) (tail : List Char) :
    connection io (t.extend tail) = some (io', t'.extend tail) := by
  obtain ⟨t₁, hskip, h⟩ := bind_eq_some_iff.mp h
  obtain ⟨b, hb, h⟩ := bind_eq_some_iff.mp h
  unfold connection
  rw [Cursor.advance_extend hlen, Cursor.scanWhile_extend hskip, bind_some,
    compares_extend hb tail, bind_some]
  cases b with
  | true =>
    cases h
    rw [if_pos rfl, Cursor.advance_extend (n := 10) (fits_of_compares hb (by decide))]
  | false =>
    cases h
    rfl

theorem parameter_extend (hlen : p.name.length ≤ t.rest.length) (h : parameter p io t = some (io', t'))
    (tail : List Char) :
    parameter p io (t.extend tail) = some (io', t'.extend tail) := by
  obtain ⟨t₁, hskip, h⟩ := bind_eq_some_iff.mp h
  obtain ⟨t₂, hvalue, h⟩ := bind_eq_some_iff.mp h
  unfold parameter
  rw [Cursor.advance_extend hlen, Cursor.scanWhile_extend hskip, bind_some,
    Cursor.scanWhile_extend hvalue, bind_some]
  cases h
  rfl

theorem parseOne_extend (h : parseOne io t = some (io', t')) (tail : List Char) :
    parseOne io (t.extend tail) = some (io', t'.extend tail) := by
  obtain ⟨b, hb, h⟩ := bind_eq_some_iff.mp h
  unfold parseOne
  rw [compares_extend hb tail, bind_some]
  cases b with
  | true => exact connection_extend (fits_of_compares hb (by decide)) h tail
  | false =>
    obtain ⟨found, hfound, h⟩ := bind_eq_some_iff.mp h
    rw [if_neg Bool.false_ne_true, findParameter_extend hfound tail, bind_some]
    cases found with
    | some p =>
      exact parameter_extend (length_of_compares (compares_of_findParameter hfound)) h tail
    | none =>
      cases h
      show some (io, (t.extend tail).advance 1) = _
      rw [Cursor.advance_extend (length_pos_of_compares hb)]

theorem parseRound_cons (io : Fields) (pos : ℕ) (c : Char) (cs : List Char) :
    parseRound (io, ⟨pos, c :: cs⟩) = if c = '\x00' then some (.done io)
      else (parseOne io ⟨pos, c :: cs⟩).map .again := rfl

theorem parseRound_extend (tail : List Char) (s : Fields) (t : Cursor Char)
    (step : LoopStep (Fields × Cursor Char) Fields) (h : parseRound (s, t) = some step) :
    parseRound (s, t.extend tail) = some (step.extend tail) := by
  obtain ⟨pos, rest⟩ := t
  cases rest with
  | nil => cases h
  | cons c cs =>
    rw [parseRound_cons] at h
    show parseRound (s, ⟨pos, c :: (cs ++ tail)⟩) = _
    rw [parseRound_cons]
    by_cases hc : c = '\x00'
    · rw [if_pos hc] at h ⊢
      cases h
      rfl
    rw [if_neg hc] at h ⊢
    obtain ⟨⟨s', t'⟩, hone, rfl⟩ := map_eq_some_iff.mp h
    have hlong : parseOne s ⟨pos, c :: (cs ++ tail)⟩ = some (s', t'.extend tail) :=
      parseOne_extend hone tail
    rw [hlong]
    rfl

theorem parseParameters_extend (h : parseParameters io t = some io') (tail : List Char) :
    parseParameters io (t.extend tail) = some io' := by
  apply loop_mono _ (loop_extend (parseRound_extend tail) _ h)
  show t.rest.length + 1 ≤ (t.rest ++ tail).length + 1
  rw [length_append]
  omega

variable {r : ℤ × Fields}

theorem parseVersion_extend (h : parseVersion io t = some r) (tail : List Char) :
    parseVersion io (t.extend tail) = some r := by
  obtain ⟨b, hb, h⟩ := bind_eq_some_iff.mp h
  unfold parseVersion
  rw [compares_extend hb tail, bind_some]
  cases b with
  | true =>
    obtain ⟨io', hio, rfl⟩ := map_eq_some_iff.mp h
    rw [if_pos rfl, Cursor.advance_extend (n := 8) (fits_of_compares hb (by decide)),
      parseParameters_extend hio tail]
    rfl
  | false =>
    obtain ⟨b', hb', h⟩ := bind_eq_some_iff.mp h
    rw [if_neg Bool.false_ne_true, compares_extend hb' tail, bind_some]
    cases b' with
    | true =>
      obtain ⟨io', hio, rfl⟩ := map_eq_some_iff.mp h
      rw [if_pos rfl, Cursor.advance_extend (n := 8) (fits_of_compares hb' (by decide)),
        parseParameters_extend hio tail]
      rfl
    | false => exact h

theorem parseUrl_extend (h : parseUrl io t = some r) (tail : List Char) :
    parseUrl io (t.extend tail) = some r := by
  obtain ⟨t₁, hskip, h⟩ := bind_eq_some_iff.mp h
  obtain ⟨t₂, hurl, h⟩ := bind_eq_some_iff.mp h
  obtain ⟨t₃, hskip', h⟩ := bind_eq_some_iff.mp h
  unfold parseUrl
  rw [Cursor.scanWhile_extend hskip, bind_some, Cursor.scanWhile_extend hurl,
    bind_some, Cursor.scanWhile_extend hskip', bind_some]
  exact parseVersion_extend h tail

/-- **A result that stays within the first bytes** does not hang on those behind them. -/
theorem process_request_local {header : List Char} (h : process_request header io = some r)
    (tail : List Char) : process_request (header ++ tail) io = some r := by
  obtain ⟨b, hb, h⟩ := bind_eq_some_iff.mp h
  have hlong := compares_extend hb tail
  show (compares (Cursor.extend ⟨0, header⟩ tail) "GET".toList).bind _ = _
  rw [hlong, bind_some]
  cases b with
  | true =>
    show parseUrl { io with method := .GET }
      (Cursor.advance (Cursor.extend ⟨0, header⟩ tail) 3) = _
    rw [Cursor.advance_extend (n := 3) (fits_of_compares hb (by decide))]
    exact parseUrl_extend h tail
  | false => exact h

end Extend

/-! ## §5. Where slices end. -/

section Within

variable {t t' : Cursor Char} {io io' : Fields} {n : ℕ}

/-- Every slice ends at `n` or before. -/
def Within (n : ℕ) (io : Fields) : Prop := ∀ s ∈ io.slices, s.stop ≤ n

theorem within_iff : Within n io ↔ io.url.stop ≤ n ∧ io.host.stop ≤ n ∧ io.accept.stop ≤ n ∧
    io.referer.stop ≤ n ∧ io.user_agent.stop ≤ n ∧ io.accept_encoding.stop ≤ n ∧
    io.accept_language.stop ≤ n := by
  unfold Within Fields.slices
  rw [forall_mem_cons, forall_mem_cons, forall_mem_cons, forall_mem_cons,
    forall_mem_cons, forall_mem_cons, forall_mem_singleton]

theorem within_set {s : Slice} (hs : s.stop ≤ n) (h : Within n io) (p : Parameter) :
    Within n (p.set io s) := by
  rw [within_iff] at h ⊢
  obtain ⟨hurl, hhost, haccept, hreferer, hagent, hencoding, hlanguage⟩ := h
  cases p with
  | host => exact ⟨hurl, hs, haccept, hreferer, hagent, hencoding, hlanguage⟩
  | referer => exact ⟨hurl, hhost, haccept, hs, hagent, hencoding, hlanguage⟩
  | user_agent => exact ⟨hurl, hhost, haccept, hreferer, hs, hencoding, hlanguage⟩
  | accept => exact ⟨hurl, hhost, hs, hreferer, hagent, hencoding, hlanguage⟩
  | accept_encoding => exact ⟨hurl, hhost, haccept, hreferer, hagent, hs, hlanguage⟩
  | accept_language => exact ⟨hurl, hhost, haccept, hreferer, hagent, hencoding, hs⟩

theorem within_url {s : Slice} (hs : s.stop ≤ n) (h : Within n io) : Within n { io with url := s } := by
  rw [within_iff] at h ⊢
  exact ⟨hs, h.2⟩

theorem stop_slice (hpos : t.pos ≤ t'.pos) : (slice t t').stop ≤ t'.stop := by
  show t.pos + (t'.pos - t.pos) ≤ t'.pos + t'.rest.length
  omega

theorem connection_within (hlen : 11 ≤ t.rest.length) (h : connection io t = some (io', t')) :
    (Within t.stop io → Within t'.stop io') ∧ t'.stop = t.stop ∧ t.pos < t'.pos := by
  obtain ⟨t₁, hskip, h⟩ := bind_eq_some_iff.mp h
  obtain ⟨b, hb, h⟩ := bind_eq_some_iff.mp h
  obtain ⟨hstop, hpos⟩ := Cursor.scanWhile_stop hskip
  rw [Cursor.stop_advance hlen] at hstop
  have hmoved : t.pos + 11 ≤ t₁.pos := hpos
  cases b with
  | true =>
    cases h
    rw [Cursor.stop_advance (n := 10) (fits_of_compares hb (by decide)), hstop]
    exact ⟨id, rfl, by show t.pos < t₁.pos + _; omega⟩
  | false =>
    cases h
    rw [hstop]
    exact ⟨id, rfl, by omega⟩

theorem parameter_within {p : Parameter} (hlen : p.name.length ≤ t.rest.length)
    (h : parameter p io t = some (io', t')) :
    (Within t.stop io → Within t'.stop io') ∧ t'.stop = t.stop ∧ t.pos < t'.pos := by
  obtain ⟨t₁, hskip, h⟩ := bind_eq_some_iff.mp h
  obtain ⟨t₂, hvalue, h⟩ := bind_eq_some_iff.mp h
  obtain ⟨hstop, hpos⟩ := Cursor.scanWhile_stop hskip
  obtain ⟨hstop', hpos'⟩ := Cursor.scanWhile_stop hvalue
  rw [Cursor.stop_advance hlen] at hstop
  have hmoved : t.pos + p.name.length ≤ t₁.pos := hpos
  have hletters : 0 < p.name.length := by cases p <;> decide
  cases h
  have hwhole : t'.stop = t.stop := by rw [hstop', hstop]
  refine ⟨fun hio => within_set (stop_slice hpos') ?_ p, hwhole, by omega⟩
  rw [hwhole]
  exact hio

/-- A character of the rest moves on, and keeps the slices within the buffer. -/
theorem parseOne_within (h : parseOne io t = some (io', t')) :
    (Within t.stop io → Within t'.stop io') ∧ t'.stop = t.stop ∧ t.pos < t'.pos := by
  obtain ⟨b, hb, h⟩ := bind_eq_some_iff.mp h
  cases b with
  | true => exact connection_within (fits_of_compares hb (by decide)) h
  | false =>
    obtain ⟨found, hfound, h⟩ := bind_eq_some_iff.mp h
    cases found with
    | some p =>
      exact parameter_within (length_of_compares (compares_of_findParameter hfound)) h
    | none =>
      cases h
      rw [Cursor.stop_advance (length_pos_of_compares hb)]
      exact ⟨id, rfl, Nat.lt_succ_self _⟩

/-- What a round that has not failed has done. -/
theorem parseRound_cases {s : Fields × Cursor Char} {step : LoopStep (Fields × Cursor Char) Fields}
    (h : parseRound s = some step) : (∃ cs, s.2.rest = '\x00' :: cs ∧ step = .done s.1)
      ∨ ∃ r, parseOne s.1 s.2 = some r ∧ step = .again r := by
  obtain ⟨io, pos, rest⟩ := s
  cases rest with
  | nil => cases h
  | cons c cs =>
    rw [parseRound_cons] at h
    by_cases hc : c = '\x00'
    · rw [if_pos hc] at h
      cases h
      exact Or.inl ⟨cs, by rw [hc], rfl⟩
    · rw [if_neg hc] at h
      obtain ⟨r, hone, rfl⟩ := map_eq_some_iff.mp h
      exact Or.inr ⟨r, hone, rfl⟩

theorem parseParameters_within (hio : Within t.stop io) (h : parseParameters io t = some io') :
    Within t.stop io' := by
  apply loop_result (I := fun s => Within s.2.stop s.1 ∧ s.2.stop = t.stop) _ _ _ ⟨hio, rfl⟩ h
  · intro s s' hs hround
    obtain ⟨cs, -, hstep⟩ | ⟨r, hone, hstep⟩ := parseRound_cases hround
    · cases hstep
    · cases hstep
      obtain ⟨hwithin, hstop, -⟩ := parseOne_within hone
      exact ⟨hwithin hs.1, hstop.trans hs.2⟩
  · intro s r hs hround
    obtain ⟨cs, -, hstep⟩ | ⟨r, hone, hstep⟩ := parseRound_cases hround
    · cases hstep
      rw [← hs.2]
      exact hs.1
    · cases hstep

variable {r : ℤ × Fields}

theorem parseVersion_within (hio : Within t.stop io) (h : parseVersion io t = some r) :
    Within t.stop r.2 := by
  obtain ⟨b, hb, h⟩ := bind_eq_some_iff.mp h
  cases b with
  | true =>
    obtain ⟨io', hpar, rfl⟩ := map_eq_some_iff.mp h
    have hstop := Cursor.stop_advance (n := 8) (fits_of_compares hb (by decide))
    rw [← hstop]
    exact parseParameters_within (hstop ▸ hio) hpar
  | false =>
    obtain ⟨b', hb', h⟩ := bind_eq_some_iff.mp h
    cases b' with
    | true =>
      obtain ⟨io', hpar, rfl⟩ := map_eq_some_iff.mp h
      have hstop := Cursor.stop_advance (n := 8) (fits_of_compares hb' (by decide))
      rw [← hstop]
      exact parseParameters_within (hstop ▸ hio) hpar
    | false =>
      cases h
      exact hio

theorem parseUrl_within (hio : Within t.stop io) (h : parseUrl io t = some r) : Within t.stop r.2 := by
  obtain ⟨t₁, hskip, h⟩ := bind_eq_some_iff.mp h
  obtain ⟨t₂, hurl, h⟩ := bind_eq_some_iff.mp h
  obtain ⟨t₃, hskip', h⟩ := bind_eq_some_iff.mp h
  obtain ⟨hstop₁, -⟩ := Cursor.scanWhile_stop hskip
  obtain ⟨hstop₂, hpos₂⟩ := Cursor.scanWhile_stop hurl
  obtain ⟨hstop₃, -⟩ := Cursor.scanWhile_stop hskip'
  have hwhole : t₃.stop = t.stop := by rw [hstop₃, hstop₂, hstop₁]
  have hslice : (slice t₁ t₂).stop ≤ t.stop := by
    rw [← hstop₁, ← hstop₂]
    exact stop_slice hpos₂
  rw [← hwhole] at hio hslice ⊢
  exact parseVersion_within (within_url hslice hio) h

theorem within_reset (n : ℕ) : Within n resetFields := by
  unfold Within Fields.slices resetFields
  simp [Slice.stop]

/-- **Every slice ends where the buffer does**, or before. -/
theorem process_request_within {header : List Char} (h : process_request header resetFields = some r) :
    Within header.length r.2 := by
  have hreset := within_reset header.length
  obtain ⟨b, hb, h⟩ := bind_eq_some_iff.mp h
  cases b with
  | true =>
    have hstop := Cursor.stop_advance (n := 3) (fits_of_compares hb (by decide))
    have hzero : Cursor.stop (⟨0, header⟩ : Cursor Char) = header.length := Nat.zero_add _
    rw [← hzero, ← hstop] at hreset ⊢
    exact parseUrl_within hreset h
  | false =>
    cases h
    exact hreset

end Within

/-! ## §6. What a request leaves in the buffer. -/

/-- The bytes that come before the socket has no more for now, or is closed. -/
def payload : List RecvOutcome → Option (List Char)
  | [] => none
  | .failure .EAGAIN :: _ => some []
  | .failure .EWOULDBLOCK :: _ => some []
  | .failure _ :: _ => none
  | .bytes bs :: outcomes =>
    if bs = [] then some [] else (payload outcomes).map fun rest => bs ++ rest

/-- A request that brings `r`. -/
def Request.Brings (request : Request) (r : List Char) : Prop :=
  request.has_peer = true ∧ payload request.outcomes = some r

theorem store_append (front back bs : List Char) :
    store (front ++ back) front.length bs = (front ++ bs) ++ back.drop bs.length := by
  unfold store
  rw [take_left, ← drop_drop, drop_left]

theorem recvLoop_brings (outcomes : List RecvOutcome) : ∀ {r front back : List Char},
    payload outcomes = some r → r.length < back.length → recvLoop outcomes front.length (front ++ back)
        = some (((front.length + r.length : ℕ) : ℤ), front ++ r ++ back.drop r.length) := by
  induction outcomes with
  | nil => intro r front back h; cases h
  | cons outcome outcomes ih =>
    intro r front back h hlen
    have hroom : ¬ (front ++ back).length ≤ front.length := by
      rw [length_append]
      omega
    unfold recvLoop
    rw [if_neg hroom]
    cases outcome with
    | failure errno => cases errno <;> cases h <;> simp
    | bytes bs =>
      rw [payload] at h
      by_cases hbs : bs = []
      · rw [if_pos hbs] at h
        cases h
        simp [hbs]
      rw [if_neg hbs] at h
      obtain ⟨rest, hrest, rfl⟩ := map_eq_some_iff.mp h
      rw [length_append] at hlen
      have hgot : bs.take ((front ++ back).length - front.length) = bs := by
        rw [length_append, Nat.add_sub_cancel_left]
        exact take_of_length_le (by omega)
      have hroom' : rest.length < (back.drop bs.length).length := by
        rw [length_drop]
        omega
      simp only [hgot, if_neg hbs]
      rw [store_append, ← length_append, ih hrest hroom',
        drop_drop, length_append, length_append, Nat.add_assoc,
        append_assoc front bs rest]

variable {request : Request}

variable {r : List Char}

/-- **What a request brings** stands in front of what was there. -/
theorem recv_brings (h : request.Brings r) {in_buf : List Char} (hlen : r.length < in_buf.length) :
    recv_buf_nonblocking request.outcomes in_buf
      = some ((r.length : ℤ), r ++ in_buf.drop r.length) := by
  have hloop := @recvLoop_brings request.outcomes r [] in_buf h.2 hlen
  rw [nil_append, length_nil, Nat.zero_add] at hloop
  exact hloop

/-- The buffer keeps its size. -/
theorem length_recvLoop (outcomes : List RecvOutcome) : ∀ {finlen : ℕ} {in_buf : List Char}
    {ret : ℤ} {header : List Char}, recvLoop outcomes finlen in_buf = some (ret, header) →
      header.length = in_buf.length := by
  induction outcomes with
  | nil =>
    intro finlen in_buf ret header h
    unfold recvLoop at h
    split at h <;> cases h
    rfl
  | cons outcome outcomes ih =>
    intro finlen in_buf ret header h
    unfold recvLoop at h
    by_cases hroom : in_buf.length ≤ finlen
    · rw [if_pos hroom] at h
      cases h
      rfl
    rw [if_neg hroom] at h
    cases outcome with
    | failure errno => cases errno <;> cases h <;> rfl
    | bytes bs =>
      simp only at h
      split at h
      · cases h
        rfl
      rw [ih h]
      unfold store
      rw [length_append, length_append, length_take, length_drop,
        length_take]
      omega

theorem work_thread_brings (h : request.Brings r) {io : IoData} (hlen : r.length < io.request_header.length) :
    work_thread request io
      = (process_request (r ++ io.request_header.drop r.length) resetFields).map fun a =>
          (some a.1, ⟨a.2, r ++ io.request_header.drop r.length, r.length⟩) := by
  unfold work_thread
  rw [if_pos h.1]
  show (recv_buf_nonblocking request.outcomes io.request_header).bind _ = _
  rw [recv_brings h hlen, bind_some]
  rfl

theorem length_work_thread {io io' : IoData} {code : Option ℤ}
    (h : work_thread request io = some (code, io')) :
    io'.request_header.length = io.request_header.length := by
  unfold work_thread at h
  split at h
  · obtain ⟨⟨ret, header⟩, hrecv, h⟩ := bind_eq_some_iff.mp h
    have hlen : header.length = io.request_header.length := length_recvLoop _ hrecv
    simp only at h
    split at h
    · cases h
      exact hlen
    · obtain ⟨a, -, ha⟩ := map_eq_some_iff.mp h
      cases ha
      exact hlen
  · cases h
    rfl

/-- **The buffer keeps its size** over all requests. -/
theorem length_workAll (requests : List Request) : ∀ {io io' : IoData},
    workAll requests io = some io' → io'.request_header.length = io.request_header.length := by
  induction requests with
  | nil =>
    intro io io' h
    cases h
    rfl
  | cons request requests ih =>
    intro io io' h
    obtain ⟨⟨code, io₁⟩, hone, h⟩ := bind_eq_some_iff.mp h
    rw [ih h, length_work_thread hone]

end QHttpServer

end KalavaPir.Common
