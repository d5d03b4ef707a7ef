/-
  KalavaPir.Common.QRegisterSystem — the register server of
  `common/qregistersystem.h`.

  A client sends a name, and the server answers whether it is a new one (1), a
  known one (2) or one too many (0).  The position of a name that is not in the
  table should be the end of the table, but the search begins with position 0:
  the name is only new for a server without names.

  `m_register` stands for the arrays, as far as `m_register_num` counts.  The
  digest is arbitrary (`md5`); the callback `m_func` and the client are left out.
-/
import KalavaPir.Framework.ByteFile
import KalavaPir.Framework.Memory

namespace KalavaPir.Common

open KalavaPir.Framework

/-! ## §1. The server (qregistersystem.h:135, 151). -/

/-- `m_register_key[i]`, `m_register_len[i]` and the bytes of `m_register_val[i]`
    that the length counts. -/
structure Registered where
  key : UInt64
  len : ℤ
  val : List UInt8
  deriving DecidableEq

/-- The table of the names. -/
structure QRigisterServer where
  m_register : List Registered

/-- `"REGISTER"` -/
def REGISTER : List UInt8 := [82, 69, 71, 73, 83, 84, 69, 82]

/-- The places for names. -/
def MAX_REG_NUM : ℕ := 512

/-- The packet head: how long the body is, or an error. -/
def ts_fun_package (in_buf : Memory) : ℤ :=
  if in_buf.read 0 8 ≠ REGISTER then -1
  else if decodeInt (in_buf.read 8 4) > 128 then -2
  else decodeInt (in_buf.read 8 4)

/-- `*(int32_t*)in_buf` -/
def register_size (in_buf : Memory) : ℤ := decodeInt (in_buf.read 0 4)

/-- What a call did and returned: the parts of `in_buf` it read (position and
    length), the length of the copy into `m_register_val`, the return code, the
    flag and the key in `out_buf`. -/
structure Processed where
  reads : List (ℕ × ℕ)
  copied : Option ℤ
  iret : ℤ
  answer : Option (ℤ × UInt64)
  server : QRigisterServer

namespace QRigisterServer

/-- `MD5Bits64(in_buf+4, *(int32_t*)in_buf)`, whose length is unsigned. -/
def hashed (in_buf : Memory) : ℕ := (register_size in_buf % 2 ^ 32).toNat

/-- The key of a name. -/
def register_key (md5 : List UInt8 → UInt64) (in_buf : Memory) : UInt64 :=
  md5 (in_buf.read 4 (hashed in_buf))

/-- `int32_t register_pos=0;` and the loop. -/
def register_pos (s : QRigisterServer) (register_key : UInt64) : ℕ :=
  (s.m_register.findIdx? (fun r => r.key == register_key)).getD 0

/-- The table with the new name. -/
def added (s : QRigisterServer) (register_key : UInt64) (in_buf : Memory) : QRigisterServer :=
  ⟨s.m_register ++ [⟨register_key, register_size in_buf, in_buf.read 4 (register_size in_buf).toNat⟩]⟩

/-- `save` is what `save_register_info()` and `q_swap_file` return together. -/
def ts_fun_process (md5 : List UInt8 → UInt64) (save : QRigisterServer → ℤ) (s : QRigisterServer)
    (in_buf : Memory) : Processed :=
  let key := register_key md5 in_buf
  let reads := [(0, 4), (4, hashed in_buf)]
  if s.register_pos key = s.m_register.length then
    if s.m_register.length ≥ MAX_REG_NUM then ⟨reads, none, 0, some (0, key), s⟩
    else
      let s' := s.added key in_buf
      let size := register_size in_buf
      -- the length of `memcpy` is a `size_t`
      let reads := reads ++ [(4, (size % 2 ^ 64).toNat)]
      if save s' = 0 then ⟨reads, some size, 0, some (1, key), s'⟩ else ⟨reads, some size, save s', none, s⟩
  else ⟨reads, none, 0, some (2, key), s⟩

/-- **Only an empty table has room for a name**: the position of an unknown one is 0. -/
theorem register_pos_eq_iff (s : QRigisterServer) (key : UInt64) :
    s.register_pos key = s.m_register.length ↔ s.m_register = [] := by
  unfold register_pos
  constructor
  · intro heq
    by_contra hne
    have hpos := List.length_pos_iff.mpr hne
    cases hfind : s.m_register.findIdx? (fun r => r.key == key) with
    | none =>
      rw [hfind] at heq
      have hzero : 0 = s.m_register.length := heq
      omega
    | some i =>
      rw [hfind] at heq
      have hi : i = s.m_register.length := heq
      obtain ⟨hlt, -⟩ := List.findIdx?_eq_some_iff_getElem.mp hfind
      omega
  · intro hnil
    rw [hnil]
    rfl

/-! ## §2. Packets. -/

/-- At most 64 bytes are copied, no negative number of them, and nothing is read
    beyond the body. -/
def Safe (announced : ℤ) (p : Processed) : Prop :=
  (∀ r ∈ p.reads, (r.1 + r.2 : ℤ) ≤ announced) ∧ ∀ n, p.copied = some n → 0 ≤ n ∧ n ≤ 64

theorem ts_fun_package_le (in_buf : Memory) : ts_fun_package in_buf ≤ 128 := by
  unfold ts_fun_package
  split_ifs <;> omega

theorem register_size_bounds (in_buf : Memory) :
    -2 ^ 31 ≤ register_size in_buf ∧ register_size in_buf < 2 ^ 31 := by
  unfold register_size decodeInt
  rw [Memory.length_read]
  have hlo := Int.le_bmod (x := decode (in_buf.read 0 4)) (m := 256 ^ 4) (by decide)
  have hhi := Int.bmod_lt (x := decode (in_buf.read 0 4)) (m := 256 ^ 4) (by decide)
  omega

theorem hashed_le_iff {announced : ℤ} (hlen : announced ≤ 128) (in_buf : Memory) :
    (4 + hashed in_buf : ℤ) ≤ announced ↔ 0 ≤ register_size in_buf ∧ 4 + register_size in_buf ≤ announced := by
  have hbounds := register_size_bounds in_buf
  unfold hashed
  omega

variable {s : QRigisterServer}

theorem ts_fun_process_of_ne (md5 : List UInt8 → UInt64) (save : QRigisterServer → ℤ)
    (hne : s.m_register ≠ []) (in_buf : Memory) : s.ts_fun_process md5 save in_buf =
      ⟨[(0, 4), (4, hashed in_buf)], none, 0, some (2, register_key md5 in_buf), s⟩ := by
  unfold ts_fun_process
  rw [if_neg (fun heq => hne ((register_pos_eq_iff s _).mp heq))]

theorem ts_fun_process_of_nil (md5 : List UInt8 → UInt64) (save : QRigisterServer → ℤ)
    (hnil : s.m_register = []) (in_buf : Memory) : (s.ts_fun_process md5 save in_buf).reads =
        [(0, 4), (4, hashed in_buf), (4, (register_size in_buf % 2 ^ 64).toNat)] ∧
      (s.ts_fun_process md5 save in_buf).copied = some (register_size in_buf) := by
  have hpos := (register_pos_eq_iff s (register_key md5 in_buf)).mpr hnil
  have hroom : ¬ s.m_register.length ≥ MAX_REG_NUM := by
    rw [hnil]
    decide
  unfold ts_fun_process
  dsimp only
  split_ifs <;> exact ⟨rfl, rfl⟩

/-- **SAFE PACKETS**: the field for the length of the name lies in the body, is
    not negative and not more than the body has; and if the server has no name
    yet, it is at most 64. -/
theorem packet_safe_iff (md5 : List UInt8 → UInt64) (save : QRigisterServer → ℤ) (s : QRigisterServer)
    (head in_buf : Memory) :
    Safe (ts_fun_package head) (s.ts_fun_process md5 save in_buf) ↔
      4 ≤ ts_fun_package head ∧ 0 ≤ register_size in_buf ∧
        4 + register_size in_buf ≤ ts_fun_package head ∧ (s.m_register = [] → register_size in_buf ≤ 64) := by
  have hhashed := hashed_le_iff (ts_fun_package_le head) in_buf
  by_cases hnil : s.m_register = []
  · obtain ⟨hreads, hcopied⟩ := ts_fun_process_of_nil md5 save hnil in_buf
    unfold Safe
    rw [hreads, hcopied]
    constructor
    · intro hsafe
      obtain ⟨hbody, hcopy⟩ := hsafe
      have hfirst := hbody (0, 4) (by simp)
      have hsecond := hhashed.mp (hbody (4, hashed in_buf) (by simp))
      have hlen := hcopy _ rfl
      exact ⟨by omega, hsecond.1, hsecond.2, fun _ => hlen.2⟩
    · intro hfits
      obtain ⟨hfour, hpos, hlen, hname⟩ := hfits
      have hsize := hname hnil
      refine ⟨?_, ?_⟩
      · intro r hr
        simp only [List.mem_cons, List.not_mem_nil, or_false] at hr
        obtain hr | hr | hr := hr
        · rw [hr]
          omega
        · rw [hr]
          exact hhashed.mpr ⟨hpos, hlen⟩
        · rw [hr]
          omega
      · intro n hn
        rw [← Option.some.inj hn]
        exact ⟨hpos, hsize⟩
  · rw [ts_fun_process_of_ne md5 save hnil]
    unfold Safe
    constructor
    · intro hsafe
      have hfirst := hsafe.1 (0, 4) (by simp)
      have hsecond := hhashed.mp (hsafe.1 (4, hashed in_buf) (by simp))
      exact ⟨by omega, hsecond.1, hsecond.2, fun h => absurd h hnil⟩
    · intro hfits
      obtain ⟨hfour, hpos, hlen, -⟩ := hfits
      refine ⟨?_, fun n hn => absurd hn (by simp)⟩
      intro r hr
      simp only [List.mem_cons, List.not_mem_nil, or_false] at hr
      obtain hr | hr := hr
      · rw [hr]
        omega
      · rw [hr]
        exact hhashed.mpr ⟨hpos, hlen⟩

/-- A body of 128 bytes whose first field says that the name has 124. -/
def longName : Memory := Memory.write (fun _ => 65) 0 (encodeInt 4 124)

/-- The head that announces it. -/
def longHead : Memory := Memory.write (fun _ => 0) 0 (REGISTER ++ encodeInt 4 128)

/-- The packet is accepted, and 124 bytes are copied into the 64 of the first name. -/
theorem name_is_overrun :
    ts_fun_package longHead = 128 ∧
      (ts_fun_process (fun _ => 0) (fun _ => 0) ⟨[]⟩ longName).copied = some 124 ∧
      ¬ Safe (ts_fun_package longHead) (ts_fun_process (fun _ => 0) (fun _ => 0) ⟨[]⟩ longName) := by
  have hcopied : (ts_fun_process (fun _ => 0) (fun _ => 0) ⟨[]⟩ longName).copied = some 124 := by
    decide
  refine ⟨by decide, hcopied, ?_⟩
  intro hsafe
  have hlen := (hsafe.2 124 hcopied).2
  omega

/-! ## §3. Requests. -/

/-- A well-formed request. -/
structure Request where
  in_buf : Memory
  name : List UInt8
  bounds : 1 ≤ name.length ∧ name.length ≤ 64
  size : in_buf.read 0 4 = encodeInt 4 name.length
  bytes : in_buf.read 4 name.length = name

theorem Request.register_size (r : Request) : register_size r.in_buf = r.name.length := by
  have hbounds := r.bounds
  unfold Common.register_size
  rw [r.size, decodeInt_encodeInt]
  exact Int.bmod_eq_of_le_mul_two (by omega) (by omega)

/-- The names in a table. -/
def names (s : QRigisterServer) : List (List UInt8) := s.m_register.map Registered.val

/-- The flag for a name, by the purpose of the server … -/
def expected (names : List (List UInt8)) (name : List UInt8) : ℤ :=
  if name ∈ names then 2 else if names.length < MAX_REG_NUM then 1 else 0

/-- … and the names after it. -/
def after (names : List (List UInt8)) (name : List UInt8) : List (List UInt8) :=
  if name ∈ names ∨ MAX_REG_NUM ≤ names.length then names else names ++ [name]

/-- **The contract**, when all is saved: the answers are the expected ones, and
    the table holds the names that were answered with 1. -/
def Obeys (md5 : List UInt8 → UInt64) : QRigisterServer → List (List UInt8) → List Request → Prop
  | s, stored, [] => s.names = stored
  | s, stored, r :: requests => s.names = stored ∧
      (s.ts_fun_process md5 (fun _ => 0) r.in_buf).answer =
        some (expected stored r.name, register_key md5 r.in_buf) ∧
      Obeys md5 (s.ts_fun_process md5 (fun _ => 0) r.in_buf).server (after stored r.name) requests

section Requests

variable {s : QRigisterServer}

/-- A server with names answers 2 to everything. -/
theorem obeys_iff_of_ne (md5 : List UInt8 → UInt64) (requests : List Request) (hne : s.m_register ≠ []) :
    Obeys md5 s s.names requests ↔ ∀ r ∈ requests, r.name ∈ s.names := by
  induction requests with
  | nil => exact ⟨fun _ r hr => absurd hr List.not_mem_nil, fun _ => rfl⟩
  | cons r requests ih =>
    have hprocess := ts_fun_process_of_ne md5 (fun _ => 0) hne r.in_buf
    by_cases hmem : r.name ∈ s.names
    · have hafter : after s.names r.name = s.names := if_pos (Or.inl hmem)
      have hexpected : expected s.names r.name = 2 := if_pos hmem
      unfold Obeys
      rw [hprocess, hafter, hexpected]
      rw [ih]
      constructor
      · intro h x hx
        obtain hx | hx := List.mem_cons.mp hx
        · rw [hx]
          exact hmem
        · exact h.2.2 x hx
      · intro h
        exact ⟨rfl, rfl, fun x hx => h x (List.mem_cons_of_mem r hx)⟩
    · refine iff_of_false ?_ (fun h => hmem (h r List.mem_cons_self))
      intro h
      have hanswer := h.2.1
      rw [hprocess] at hanswer
      have hflag : 2 = expected s.names r.name := congrArg Prod.fst (Option.some.inj hanswer)
      unfold expected at hflag
      split_ifs at hflag <;> omega

/-- The first name of all. -/
theorem ts_fun_process_first (md5 : List UInt8 → UInt64) (hnil : s.m_register = []) (r : Request) :
    (s.ts_fun_process md5 (fun _ => 0) r.in_buf).answer = some (1, register_key md5 r.in_buf) ∧
      (s.ts_fun_process md5 (fun _ => 0) r.in_buf).server = s.added (register_key md5 r.in_buf) r.in_buf ∧
      (s.added (register_key md5 r.in_buf) r.in_buf).names = [r.name] := by
  have hpos := (register_pos_eq_iff s (register_key md5 r.in_buf)).mpr hnil
  have hroom : ¬ s.m_register.length ≥ MAX_REG_NUM := by
    rw [hnil]
    decide
  refine ⟨?_, ?_, ?_⟩
  · unfold ts_fun_process
    rw [if_pos hpos, if_neg hroom, if_pos rfl]
  · unfold ts_fun_process
    rw [if_pos hpos, if_neg hroom, if_pos rfl]
  · unfold added names
    rw [hnil, r.register_size, Int.toNat_natCast, r.bytes]
    rfl

/-- The names for which the server can give the right answer. -/
def answerable (s : QRigisterServer) (requests : List Request) : List (List UInt8) :=
  if s.m_register = [] then (requests.take 1).map Request.name else s.names

/-- **THE ANSWERS ARE RIGHT** if and only if every name was in the table from the
    beginning or, where the table was empty, is the first one that was asked for. -/
theorem register_iff (md5 : List UInt8 → UInt64) (s : QRigisterServer) (requests : List Request) :
    Obeys md5 s s.names requests ↔ ∀ r ∈ requests, r.name ∈ answerable s requests := by
  unfold answerable
  by_cases hnil : s.m_register = []
  · rw [if_pos hnil]
    cases requests with
    | nil => exact ⟨fun _ r hr => absurd hr List.not_mem_nil, fun _ => rfl⟩
    | cons r requests =>
      obtain ⟨hanswer, hserver, hnames⟩ := ts_fun_process_first md5 hnil r
      have hstored : s.names = [] := by
        unfold names
        rw [hnil]
        rfl
      have hafter : after [] r.name = [r.name] := rfl
      have hexpected : expected [] r.name = 1 := rfl
      have hne : (s.added (register_key md5 r.in_buf) r.in_buf).m_register ≠ [] := by
        exact List.append_ne_nil_of_right_ne_nil _ (List.cons_ne_nil _ _)
      have hrest := obeys_iff_of_ne md5 requests hne
      rw [hnames] at hrest
      unfold Obeys
      rw [hanswer, hserver, hstored, hafter, hexpected, hrest]
      show _ ↔ ∀ x ∈ r :: requests, x.name ∈ [r.name]
      constructor
      · intro h x hx
        obtain hx | hx := List.mem_cons.mp hx
        · rw [hx]
          exact List.mem_singleton.mpr rfl
        · exact h.2.2 x hx
      · intro h
        exact ⟨rfl, rfl, fun x hx => h x (List.mem_cons_of_mem r hx)⟩
  · rw [if_neg hnil]
    exact obeys_iff_of_ne md5 requests hnil

end Requests

/-- The body that a client sends for a name. -/
def requestFor (name : List UInt8) (bounds : 1 ≤ name.length ∧ name.length ≤ 64) : Request where
  in_buf := Memory.write (fun _ => 0) 0 (encodeInt 4 name.length ++ name)
  name := name
  bounds := bounds
  size := by
    have hread := Memory.read_write_self (fun _ => 0) 0 (encodeInt 4 name.length ++ name)
    have hhead := (Memory.read_eq_append hread).1
    rw [length_encodeInt] at hhead
    exact hhead
  bytes := by
    have hread := Memory.read_write_self (fun _ => 0) 0 (encodeInt 4 name.length ++ name)
    have hname := (Memory.read_eq_append hread).2
    rw [length_encodeInt] at hname
    exact hname

/-- "a", then "b" -/
def twoNames : List Request := [requestFor [97] (by decide), requestFor [98] (by decide)]

/-- A digest that tells the two apart. -/
def firstBytes (bs : List UInt8) : UInt64 := UInt64.ofNat (decode bs)

/-- The second name is new, but the answer is 2 and it is not stored. -/
theorem second_name_is_refused :
    firstBytes [97] ≠ firstBytes [98] ∧
      (ts_fun_process firstBytes (fun _ => 0) ⟨[⟨97, 1, [97]⟩]⟩ (requestFor [98] (by decide)).in_buf).answer =
        some (2, 98) ∧
      ¬ Obeys firstBytes ⟨[]⟩ [] twoNames := by
  refine ⟨by decide, by decide, ?_⟩
  intro hobeys
  have hanswer := hobeys.2.2.2.1
  have hflag := congrArg (fun a => a.map Prod.fst) hanswer
  exact absurd hflag (by decide)

end QRigisterServer

end KalavaPir.Common
