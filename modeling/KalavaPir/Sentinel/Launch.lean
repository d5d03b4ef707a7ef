/-
  KalavaPir.Sentinel.Launch — `ns__launch` of `sentinel/src/serlaunch.cpp`.

  A request makes three directories, then prints the port it came with into a
  command line of 256 bytes and hands that to `system()`, i.e. to a shell.  The
  version chooses the program; the port is not looked at, and `snprintf` cuts
  what does not fit.

  What the directory calls and the shell answer is a parameter (`Host`): every
  call sees the state that the one before it left.
-/
import KalavaPir.Common.CString

namespace KalavaPir.Sentinel

open KalavaPir.Common

/-! ## §1. The request and its host. -/

/-- The size of the command buffer. -/
def PIR_DEFAULT_CMD_SIZE : ℕ := 256

/-- The arguments of `ns__launch` that it does not only log. -/
structure LaunchRequest where
  workspace : List Char
  tpldir : List Char
  port : List Char
  version : List Char
  recgdir : List Char

/-- The machine: `mkdir` and `chmod777` answer whether they succeeded, and
    `errno`; `system` answers the status of the command. -/
structure Host (W : Type) where
  mkdir : W → List Char → (Bool × ℤ) × W
  chmod777 : W → List Char → (Bool × ℤ) × W
  system : W → List Char → ℤ × W

/-- What a request leaves: `*tag`, and the command lines given to `system()`. -/
structure Launched where
  tag : ℤ
  commands : List (List Char)

/-- `vers[1].str` and `vers[2].str`. -/
def split2_0 : List Char := ['s', 'p', 'l', 'i', 't', '2', '.', '0']
def server3_0 : List Char := ['s', 'e', 'r', 'v', 'e', 'r', '3', '.', '0']

/-- Where the two programs are. -/
def masterDir : List Char :=
  ['.', '.', '/', '.', '.', '/', '.', '.', '/', 'm', 'a', 's', 't', 'e', 'r', '/',
    'b', 'u', 'i', 'l', 'd', '/', 'b', 'i', 'n', '/']
def workerDir : List Char :=
  ['.', '.', '/', '.', '.', '/', '.', '.', '/', 'w', 'o', 'r', 'k', 'e', 'r', '/',
    'b', 'u', 'i', 'l', 'd', '/', 'b', 'i', 'n', '/']

/-- `"cd %s; ./recgservice -p %s -d"`. -/
def invocation (dir port : List Char) : List Char :=
  ['c', 'd', ' '] ++ dir ++
    [';', ' ', '.', '/', 'r', 'e', 'c', 'g', 's', 'e', 'r', 'v', 'i', 'c', 'e', ' ', '-', 'p', ' '] ++
    port ++ [' ', '-', 'd']

/-! ## §2. `ns__launch` (serlaunch.cpp:86). -/

section Code

variable {W : Type}

/-- `if(!call(path) && (errno!=30)) throw code;`, where `readOnly` says that
    the second test is made. -/
def require (call : W → List Char → (Bool × ℤ) × W) (path : List Char) (readOnly : Bool)
    (code : ℤ) (w : W) : Except ℤ W :=
  match call w (c_str path) with
  | ((true, _), w) => .ok w
  | ((false, errno), w) => if readOnly ∧ errno = 30 then .ok w else .error code

/-- The three directories. -/
def prepare (host : Host W) (r : LaunchRequest) (w : W) : Except ℤ W := do
  let w ← require host.mkdir r.workspace false (-1) w
  let w ← require host.chmod777 r.workspace false (-2) w
  let w ← require host.mkdir r.tpldir true (-3) w
  let w ← require host.chmod777 r.tpldir true (-4) w
  let w ← require host.mkdir r.recgdir false (-5) w
  require host.chmod777 r.recgdir false (-6) w

/-- `snprintf(cmd, size, ..)` of a text without NUL. -/
def snprintf (size : ℕ) (text : List Char) : List Char := text.take (size - 1)

/-- One of the two branches: print the command and give it to the shell. -/
def start (host : Host W) (dir port : List Char) (code : ℤ) (w : W) : Launched :=
  let cmd := snprintf PIR_DEFAULT_CMD_SIZE (invocation dir (c_str port))
  if (host.system w cmd).1 ≠ 0 then ⟨code, [cmd]⟩ else ⟨0, [cmd]⟩

/-- A command is built and run. -/
def ns_launch (host : Host W) (w : W) (r : LaunchRequest) : Launched :=
  match prepare host r w with
  | .error code => ⟨code, []⟩
  | .ok w =>
    if c_str r.version = split2_0 then start host masterDir r.port (-7) w
    else if c_str r.version = server3_0 then start host workerDir r.port (-8) w
    else ⟨-9, []⟩

end Code

/-! ## §3. What should be started. -/

/-- A decimal number as a string. -/
def IsDecimal (s : List Char) : Prop := s ≠ [] ∧ ∀ c ∈ s, c.isDigit = true

/-- The directory of the program that a version names. -/
def programDir (version : List Char) : Option (List Char) :=
  if c_str version = split2_0 then some masterDir
  else if c_str version = server3_0 then some workerDir
  else none

/-- The command of a request fits into the buffer, with its NUL. -/
def CommandFits (r : LaunchRequest) : Prop :=
  ∀ dir, programDir r.version = some dir → (invocation dir r.port).length < PIR_DEFAULT_CMD_SIZE

/-- A request is answered as it should be: the shell gets one invocation of the
    chosen program and nothing else, and a request with another port than a
    number, or with one that is too long, is turned down. -/
structure LaunchesSafely {W : Type} (host : Host W) (w : W) (r : LaunchRequest) : Prop where
  command : ∀ cmd ∈ (ns_launch host w r).commands,
    ∃ dir n, programDir r.version = some dir ∧ IsDecimal n ∧ cmd = invocation dir n
  rejected : ¬ IsDecimal r.port ∨ ¬ CommandFits r →
    (ns_launch host w r).commands = [] ∧ (ns_launch host w r).tag ≠ 0

/-- The request comes to the point where a command is run. -/
def Starts {W : Type} (host : Host W) (w : W) (r : LaunchRequest) : Prop :=
  (∃ w', prepare host r w = .ok w') ∧ programDir r.version ≠ none

/-! ## §4. What is started. -/

section Function

variable {W : Type} {host : Host W} {w : W} {r : LaunchRequest}

theorem require_error {call : W → List Char → (Bool × ℤ) × W} {path : List Char} {readOnly : Bool}
    {code e : ℤ} (h : require call path readOnly code w = .error e) : e = code := by
  unfold require at h
  split at h
  · exact absurd h (by simp)
  split at h
  · exact absurd h (by simp)
  · injection h with h
    exact h.symm

/-- A directory that cannot be made is reported by a code of its own. -/
theorem prepare_error {e : ℤ} (h : prepare host r w = .error e) : e ≠ 0 := by
  -- the code of the first of the six calls that fails
  have hstep : ∀ {call : W → List Char → (Bool × ℤ) × W} {path : List Char} {readOnly : Bool}
      {code : ℤ} {w : W} {k : W → Except ℤ W}, code ≠ 0 →
      (∀ w', k w' = .error e → e ≠ 0) → require call path readOnly code w >>= k = .error e → e ≠ 0 := by
    intro call path readOnly code w k hcode hk hbind
    cases hreq : require call path readOnly code w with
    | error c =>
      rw [hreq] at hbind
      injection hbind with hbind
      rw [← hbind, require_error hreq]
      exact hcode
    | ok w' =>
      rw [hreq] at hbind
      exact hk w' hbind
  apply hstep (by decide) _ h
  intro w
  apply hstep (by decide)
  intro w
  apply hstep (by decide)
  intro w
  apply hstep (by decide)
  intro w
  apply hstep (by decide)
  intro w hlast
  rw [require_error hlast]
  decide

theorem start_commands (dir port : List Char) (code : ℤ) (w : W) : (start host dir port code w).commands
      = [snprintf PIR_DEFAULT_CMD_SIZE (invocation dir (c_str port))] := by
  unfold start
  dsimp only
  split <;> rfl

/-- **A request that comes to the point** runs one command, cut to the
    buffer. -/
theorem commands_of_starts (h : Starts host w r) : ∃ dir, programDir r.version = some dir ∧
    (ns_launch host w r).commands = [snprintf PIR_DEFAULT_CMD_SIZE (invocation dir (c_str r.port))] := by
  obtain ⟨⟨w', hprep⟩, hdir⟩ := h
  unfold ns_launch programDir at *
  rw [hprep]
  dsimp only
  split at hdir
  next hsplit =>
    rw [if_pos hsplit, if_pos hsplit]
    exact ⟨masterDir, rfl, start_commands _ _ _ _⟩
  next hsplit =>
    rw [if_neg hsplit, if_neg hsplit]
    split at hdir
    next hserver =>
      rw [if_pos hserver, if_pos hserver]
      exact ⟨workerDir, rfl, start_commands _ _ _ _⟩
    next => exact absurd rfl hdir

/-- Every other request is turned down. -/
theorem rejected_of_not_starts (h : ¬ Starts host w r) :
    (ns_launch host w r).commands = [] ∧ (ns_launch host w r).tag ≠ 0 := by
  unfold ns_launch
  cases hprep : prepare host r w with
  | error e => exact ⟨rfl, prepare_error hprep⟩
  | ok w' =>
    have hdir : programDir r.version = none := by
      by_contra hne
      exact h ⟨⟨w', hprep⟩, hne⟩
    unfold programDir at hdir
    dsimp only
    by_cases hsplit : c_str r.version = split2_0
    · rw [if_pos hsplit] at hdir
      exact absurd hdir (by simp)
    rw [if_neg hsplit] at hdir ⊢
    by_cases hserver : c_str r.version = server3_0
    · rw [if_pos hserver] at hdir
      exact absurd hdir (by simp)
    · rw [if_neg hserver]
      exact ⟨rfl, by decide⟩

theorem c_str_decimal {s : List Char} (h : IsDecimal s) : c_str s = s := by
  apply List.takeWhile_eq_self_iff.mpr
  intro c hc
  have hdigit := h.2 c hc
  have hne : c ≠ '\x00' := by
    intro hnul
    rw [hnul] at hdigit
    exact absurd hdigit (by decide)
  simpa using hne

/-- **WHEN A LAUNCH IS SAFE**: a request that runs a command at all has a
    decimal number for its port, and the command fits. -/
theorem launchesSafely_iff (host : Host W) (w : W) (r : LaunchRequest) :
    LaunchesSafely host w r ↔ (Starts host w r → IsDecimal r.port ∧ CommandFits r) := by
  constructor
  · intro hsafe hstarts
    obtain ⟨dir, hdir, hcommands⟩ := commands_of_starts hstarts
    -- a command is run, so the request was not one to be turned down
    by_contra hbad
    have hnone := (hsafe.rejected (not_and_or.mp hbad)).1
    rw [hcommands] at hnone
    exact absurd hnone (by simp)
  · intro h
    by_cases hstarts : Starts host w r
    · obtain ⟨hport, hfits⟩ := h hstarts
      refine ⟨?_, fun hbad => absurd ⟨hport, hfits⟩ (not_and_or.mpr hbad)⟩
      intro cmd hcmd
      obtain ⟨dir, hdir, hcommands⟩ := commands_of_starts hstarts
      rw [hcommands, List.mem_singleton, c_str_decimal hport] at hcmd
      refine ⟨dir, r.port, hdir, hport, ?_⟩
      have hlen := hfits dir hdir
      rw [hcmd, snprintf, List.take_of_length_le (by omega)]
    · obtain ⟨hnone, htag⟩ := rejected_of_not_starts hstarts
      refine ⟨?_, fun _ => ⟨hnone, htag⟩⟩
      intro cmd hcmd
      rw [hnone] at hcmd
      exact absurd hcmd List.not_mem_nil

end Function

/-- A host on which everything succeeds. -/
def obliging : Host Unit where
  mkdir _ _ := ((true, 0), ())
  chmod777 _ _ := ((true, 0), ())
  system _ _ := (0, ())

/-- **The port `8;reboot`** is given to the shell as it came. -/
theorem launch_runs_port : ¬ ∀ (host : Host Unit) (w : Unit) (r : LaunchRequest),
    LaunchesSafely host w r := by
  intro h
  have hsafe := h obliging () ⟨['/', 'w'], ['/', 't'], ['8', ';', 'r', 'e', 'b', 'o', 'o', 't'],
    split2_0, ['/', 'r']⟩
  have hport : ¬ IsDecimal ['8', ';', 'r', 'e', 'b', 'o', 'o', 't'] := by
    intro hdecimal
    exact absurd (hdecimal.2 ';' (by simp)) (by decide)
  have htag := (hsafe.rejected (Or.inl hport)).2
  exact htag rfl

end KalavaPir.Sentinel
