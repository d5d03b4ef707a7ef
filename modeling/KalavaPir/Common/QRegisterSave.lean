/-
  KalavaPir.Common.QRegisterSave — how the register server keeps its table.

  A new name is saved by writing the whole table to `register.back` and swapping
  it with `register.info` (`q_swap_file`); the next `init` reads `register.info`
  and takes its absence for a new system.  It does not run `q_recovery_file`, so
  a stop between the two renames of the swap would cost the table.  No table is
  ever lost that way: a name is only new for a server without names
  (`QRegisterSystem`), and then there is nothing to lose.  What costs it is a
  path that is too long for the arrays of the names.

  A stop leaves any part of `register.back` that was to be written.  The functions
  that open, write and close files succeed.
-/
import KalavaPir.Common.QRegisterSystem
import KalavaPir.Common.QSwapFile

namespace KalavaPir.Common

open KalavaPir.Framework List

namespace QRigisterServer

/-! ## §1. The files (qregistersystem.h:206, 240). -/

/-- The paths of the table and of its new version. -/
def m_save_file_lib (save_path : String) : String := save_path ++ "/register.info"
def m_save_file_bak (save_path : String) : String := save_path ++ "/register.back"

/-- The `strcpy` and the two `sprintf` of `init` stay inside their arrays of 256
    bytes; the two names have the same length. -/
def PathFits (save_path : String) : Prop := (m_save_file_lib save_path).utf8ByteSize < 256

instance (save_path : String) : Decidable (PathFits save_path) := inferInstanceAs (Decidable (_ < _))

/-- Why a server does not start: a code of `load_register_info`, or a write past
    an array, after which anything can happen. -/
inductive Fault where
  | code (err : ℤ)
  | overflow
  deriving DecidableEq, Repr

/-- A server that has started. A negative `m_register_num`, which is in no file of
    the server, is taken as it is. -/
inductive Started where
  | table (s : QRigisterServer)
  | negative (m_register_num : ℤ)

/-- What is written for a name. -/
def entryBytes (r : Registered) : List UInt8 := encode 8 r.key.toNat ++ encodeInt 4 r.len ++ r.val

/-- What `save_register_info` writes. -/
def fileBytes (s : QRigisterServer) : List UInt8 :=
  encodeInt 4 s.m_register.length ++ s.m_register.flatMap entryBytes

/-- The loop of `load_register_info` from the entry `i` on. -/
def loadEntries : ℕ → ℕ → List UInt8 → Except Fault (List Registered)
  | _, 0, _ => .ok []
  | i, n + 1, bs =>
    -- the arrays have `MAX_REG_NUM` elements
    if i ≥ MAX_REG_NUM ∧ bs ≠ [] then .error .overflow
    else if bs.length < 8 then .error (.code (-3))
    else if bs.length < 12 then .error (.code (-4))
    else
      let len := decodeInt ((bs.drop 8).take 4)
      -- the length of `fread` is a `size_t`, and what there is of it is stored
      let size := (len % 2 ^ 64).toNat
      if min size (bs.length - 12) > 64 then .error .overflow
      else if size = 0 ∨ bs.length < 12 + size then .error (.code (-5))
      else
        match loadEntries (i + 1) n (bs.drop (12 + size)) with
        | .error fault => .error fault
        | .ok rest => .ok (⟨UInt64.ofNat (decode (bs.take 8)), len, (bs.drop 12).take size⟩ :: rest)

/-- The loop of `load_register_info` over the bytes of a file. -/
def loadBytes (bs : List UInt8) : Except Fault Started :=
  if bs.length < 4 then .error (.code (-2))
  else
    let m_register_num := decodeInt (bs.take 4)
    if m_register_num < 0 then .ok (.negative m_register_num)
    else
      match loadEntries 0 m_register_num.toNat (bs.drop 4) with
      | .error fault => .error fault
      | .ok entries => .ok (.table ⟨entries⟩)

/-- `init` with `load_register_info`. -/
def load (save_path : String) (d : Directory String (List UInt8)) : Except Fault Started :=
  if PathFits save_path then
    match d (m_save_file_lib save_path) with
    | none => .ok (.table ⟨[]⟩)
    | some bs => loadBytes bs
  else .error .overflow

/-- Where the server is stopped while it saves. -/
inductive Stop where
  | before
  /-- `register.back` has that many bytes. -/
  | saving (k : ℕ)
  /-- In `q_swap_file`, or after it. -/
  | swapping (oks : List Bool)

/-- `save_register_info` and `q_swap_file`, up to a stop; `none` when the swap has
    written past its array. -/
def saveUntil (save_path : String) (d : Directory String (List UInt8)) (s : QRigisterServer) :
    Stop → Option (Directory String (List UInt8))
  | .before => some d
  | .saving k => some (d.write (m_save_file_bak save_path) (s.fileBytes.take k))
  | .swapping oks =>
    match swapRun (m_save_file_bak save_path) (m_save_file_lib save_path)
        (d.write (m_save_file_bak save_path) s.fileBytes) oks with
    | (.overflow, _) => none
    | (_, d') => some d'

/-- The files after `ts_fun_process`, up to a stop. -/
def processUntil (md5 : List UInt8 → UInt64) (save_path : String) (d : Directory String (List UInt8))
    (s : QRigisterServer) (in_buf : Memory) (stop : Stop) : Option (Directory String (List UInt8)) :=
  let key := register_key md5 in_buf
  if s.register_pos key = s.m_register.length then
    if s.m_register.length ≥ MAX_REG_NUM then some d else saveUntil save_path d (s.added key in_buf) stop
  else some d

/-- The swap has returned 0. -/
def Saved (save_path : String) (d : Directory String (List UInt8)) (s : QRigisterServer) (oks : List Bool) :
    Prop :=
  (swapRun (m_save_file_bak save_path) (m_save_file_lib save_path)
    (d.write (m_save_file_bak save_path) s.fileBytes) oks).1 = .returned

/-- The same for what has started: the position 0 is never a negative count. -/
def Started.processUntil (md5 : List UInt8 → UInt64) (save_path : String)
    (d : Directory String (List UInt8)) : Started → Memory → Stop → Option (Directory String (List UInt8))
  | .table s, in_buf, stop => s.processUntil md5 save_path d in_buf stop
  | .negative _, _, _ => some d

/-- What the server has after a request. -/
def Started.after (md5 : List UInt8 → UInt64) : Started → Memory → Started
  | .table s, in_buf => .table (s.ts_fun_process md5 (fun _ => 0) in_buf).server
  | .negative m_register_num, _ => .negative m_register_num

/-! ## §2. What was saved is loaded. -/

/-- A name as the server stores it. -/
structure Storable (r : Registered) : Prop where
  len : r.len = r.val.length
  bounds : 1 ≤ r.val.length ∧ r.val.length ≤ 64

/-- The loop reads one entry after the other. -/
theorem loadEntries_flatMap (entries : List Registered) (h : ∀ r ∈ entries, Storable r) (i : ℕ)
    (hnum : i + entries.length ≤ MAX_REG_NUM) :
    loadEntries i entries.length (entries.flatMap entryBytes) = .ok entries := by
  induction entries generalizing i with
  | nil => rfl
  | cons r entries ih =>
    obtain ⟨hlen, hbounds⟩ := h r mem_cons_self
    rw [length_cons] at hnum
    have hrest := ih (fun x hx => h x (mem_cons_of_mem r hx)) (i + 1) (by omega)
    have hbytes : (r :: entries).flatMap entryBytes =
        encode 8 r.key.toNat ++ (encodeInt 4 r.len ++ (r.val ++ entries.flatMap entryBytes)) := by
      rw [flatMap_cons]
      unfold entryBytes
      rw [append_assoc, append_assoc]
    have hkey : UInt64.ofNat (decode (encode 8 r.key.toNat)) = r.key := by
      rw [decode_encode_of_lt r.key.toNat_lt]
      exact UInt64.ofNat_toNat
    have hvalue : decodeInt (encodeInt 4 r.len) = (r.val.length : ℤ) := by
      rw [hlen]
      exact decodeInt_encodeInt_of_lt (by omega) (by omega)
    have hsize : ((r.val.length : ℤ) % 2 ^ 64).toNat = r.val.length := by omega
    have hdrop : (encode 8 r.key.toNat ++ (encodeInt 4 r.len ++ (r.val ++ entries.flatMap entryBytes))).drop
        12 = r.val ++ entries.flatMap entryBytes := by
      rw [← append_assoc]
      apply drop_left'
      rw [length_append, length_encode, length_encodeInt]
    have htotal : (encode 8 r.key.toNat ++ (encodeInt 4 r.len ++
        (r.val ++ entries.flatMap entryBytes))).length = 12 + r.val.length + (entries.flatMap entryBytes).length := by
      rw [length_append, length_append, length_append, length_encode, length_encodeInt]
      omega
    rw [hbytes, length_cons]
    unfold loadEntries
    rw [if_neg (fun hend => absurd hend.1 (by omega)), if_neg (by omega), if_neg (by omega),
      take_left' (length_encode 8 _), drop_left' (length_encode 8 _), take_left' (length_encodeInt 4 _), hkey,
      hvalue]
    dsimp only
    rw [hsize, htotal, if_neg (by omega), if_neg (by omega), ← drop_drop, hdrop, drop_left, take_left, hrest, ← hlen]

variable {s : QRigisterServer}

/-- **A table that was saved is loaded.** -/
theorem loadBytes_fileBytes (h : ∀ r ∈ s.m_register, Storable r) (hnum : s.m_register.length ≤ MAX_REG_NUM) :
    loadBytes s.fileBytes = .ok (.table s) := by
  have hmax : s.m_register.length ≤ 512 := hnum
  have hlen : ¬ s.fileBytes.length < 4 := by
    unfold fileBytes
    rw [length_append, length_encodeInt]
    omega
  have hcount : decodeInt (s.fileBytes.take 4) = s.m_register.length := by
    unfold fileBytes
    rw [take_left' (length_encodeInt 4 _)]
    exact decodeInt_encodeInt_of_lt (by omega) (by omega)
  have hrest : s.fileBytes.drop 4 = s.m_register.flatMap entryBytes := drop_left' (length_encodeInt 4 _)
  unfold loadBytes
  rw [if_neg hlen, hcount, hrest, if_neg (by omega), Int.toNat_natCast,
    loadEntries_flatMap s.m_register h 0 (by omega)]

variable {save_path : String} {d : Directory String (List UInt8)}

/-- **… by the next `init`.** -/
theorem load_fileBytes (hpath : PathFits save_path) (h : ∀ r ∈ s.m_register, Storable r)
    (hnum : s.m_register.length ≤ MAX_REG_NUM) (hfile : d (m_save_file_lib save_path) = some s.fileBytes) :
    load save_path d = .ok (.table s) := by
  unfold load
  rw [if_pos hpath, hfile]
  exact loadBytes_fileBytes h hnum

/-- Without the file it is a new system. -/
theorem load_of_none (hpath : PathFits save_path) (hfile : d (m_save_file_lib save_path) = none) :
    load save_path d = .ok (.table ⟨[]⟩) := by
  unfold load
  rw [if_pos hpath, hfile]

/-! ## §3. Stops. -/

section Stops

variable {save_path : String} {d : Directory String (List UInt8)} {s s' : QRigisterServer}

/-- Room for the name of the backup is room for the shorter names. -/
theorem pathFits_of_bakFits (hfits : BakFits (m_save_file_lib save_path)) : PathFits save_path := by
  unfold BakFits bak_file at hfits
  rw [String.utf8ByteSize_append] at hfits
  exact Nat.lt_of_le_of_lt (Nat.le_add_right _ _) hfits

theorem bak_ne_lib (save_path : String) : m_save_file_bak save_path ≠ m_save_file_lib save_path := by
  intro heq
  have hlist := congrArg String.toList heq
  unfold m_save_file_bak m_save_file_lib at hlist
  rw [String.toList_append, String.toList_append] at hlist
  exact absurd (append_cancel_left hlist) (by decide)

theorem bak_ne_recovery (save_path : String) :
    m_save_file_bak save_path ≠ bak_file (m_save_file_lib save_path) := by
  intro heq
  have hlen := congrArg String.length heq
  unfold m_save_file_bak m_save_file_lib bak_file at hlen
  rw [String.length_append, String.length_append, String.length_append] at hlen
  have hback : "/register.back".length = 14 := by decide
  have hinfo : "/register.info".length = 14 := by decide
  have hrecovery : ".recovery".length = 9 := by decide
  omega

variable {oks : List Bool}

/-- **`register.info` in a swap**: as it was, absent, or the whole new table. -/
theorem saveUntil_org (hfits : BakFits (m_save_file_lib save_path)) {pc : SwapAt}
    (hpc : (swapRun (m_save_file_bak save_path) (m_save_file_lib save_path) (d.write (m_save_file_bak save_path) s'.fileBytes) oks).1 = pc) :
    ∃ d', saveUntil save_path d s' (.swapping oks) = some d' ∧
      SwapOrgInv (m_save_file_bak save_path) (m_save_file_lib save_path) (d (m_save_file_lib save_path))
        s'.fileBytes (pc, d') := by
  have hne := bak_ne_lib save_path
  have hinv := swapRun_org hfits (bak_ne_recovery save_path) hne
    (Directory.write_self d (m_save_file_bak save_path) s'.fileBytes) oks
  rw [Directory.write_of_ne hne.symm] at hinv
  unfold saveUntil
  dsimp only
  generalize swapRun (m_save_file_bak save_path) (m_save_file_lib save_path)
    (d.write (m_save_file_bak save_path) s'.fileBytes) oks = at_ at hpc hinv ⊢
  obtain ⟨at_, d'⟩ := at_
  obtain rfl : at_ = pc := hpc
  cases at_ with
  | overflow => exact hinv.elim
  | removeBak | renameOrg | renameNew | returned => exact ⟨d', rfl, hinv⟩

/-- **Between the renames there is no table**: saving over another table would
    lose it there. -/
theorem stop_between_renames (hfits : BakFits (m_save_file_lib save_path))
    (hpc : (swapRun (m_save_file_bak save_path) (m_save_file_lib save_path) (d.write (m_save_file_bak save_path) s'.fileBytes) oks).1 = .renameNew) :
    ∃ d', saveUntil save_path d s' (.swapping oks) = some d' ∧ load save_path d' = .ok (.table ⟨[]⟩) := by
  obtain ⟨d', hd', hinv⟩ := saveUntil_org hfits hpc
  exact ⟨d', hd', load_of_none (pathFits_of_bakFits hfits) hinv.1⟩

section

variable (md5 : List UInt8 → UInt64)

/-- What the first request stores can be saved. -/
theorem storable_first (hnil : s.m_register = []) (r : Request) :
    (∀ x ∈ (s.ts_fun_process md5 (fun _ => 0) r.in_buf).server.m_register, Storable x) ∧
      (s.ts_fun_process md5 (fun _ => 0) r.in_buf).server.m_register.length ≤ MAX_REG_NUM := by
  obtain ⟨-, hserver, -⟩ := ts_fun_process_first md5 hnil r
  rw [hserver]
  unfold added
  rw [hnil, nil_append]
  refine ⟨?_, (by decide : 1 ≤ MAX_REG_NUM)⟩
  intro x hx
  rw [mem_singleton.mp hx, r.register_size, Int.toNat_natCast, r.bytes]
  exact ⟨rfl, r.bounds⟩

/-- The first name of all is saved … -/
theorem processUntil_first (hnil : s.m_register = []) (r : Request) (stop : Stop) :
    s.processUntil md5 save_path d r.in_buf stop =
      saveUntil save_path d (s.ts_fun_process md5 (fun _ => 0) r.in_buf).server stop := by
  have hpos := (register_pos_eq_iff s (register_key md5 r.in_buf)).mpr hnil
  have hroom : ¬ s.m_register.length ≥ MAX_REG_NUM := by
    rw [hnil]
    decide
  obtain ⟨-, hserver, -⟩ := ts_fun_process_first md5 hnil r
  unfold processUntil
  rw [if_pos hpos, if_neg hroom, hserver]

/-- … and no other. -/
theorem processUntil_of_ne (hnil : s.m_register ≠ []) (r : Request) (stop : Stop) :
    s.processUntil md5 save_path d r.in_buf stop = some d := by
  unfold processUntil
  rw [if_neg (fun heq => hnil ((register_pos_eq_iff s _).mp heq))]

end

end Stops

/-! ## §4. Whole lives. -/

/-- The files and the table of a server that was started on the files `d₀`:
    requests are processed, and the server is stopped and started again. -/
inductive Reached (md5 : List UInt8 → UInt64) (save_path : String) (d₀ : Directory String (List UInt8)) :
    Directory String (List UInt8) → Started → Prop
  | start {s : Started} (h : load save_path d₀ = .ok s) : Reached md5 save_path d₀ d₀ s
  | request {d d' : Directory String (List UInt8)} {s : QRigisterServer}
      (h : Reached md5 save_path d₀ d (.table s)) (r : Request) (oks : List Bool)
      (hsaved : Saved save_path d (s.added (register_key md5 r.in_buf) r.in_buf) oks)
      (hprocess : s.processUntil md5 save_path d r.in_buf (.swapping oks) = some d') :
      Reached md5 save_path d₀ d' (.table (s.ts_fun_process md5 (fun _ => 0) r.in_buf).server)
  | stopped {d d' : Directory String (List UInt8)} {s s' : Started} (h : Reached md5 save_path d₀ d s)
      (r : Request) (stop : Stop) (hprocess : s.processUntil md5 save_path d r.in_buf stop = some d')
      (hload : load save_path d' = .ok s') : Reached md5 save_path d₀ d' s'

section Lives

variable {md5 : List UInt8 → UInt64} {save_path : String} {d₀ d : Directory String (List UInt8)} {s : Started}

/-- **The files always hold the table.** -/
theorem Reached.load (hfits : BakFits (m_save_file_lib save_path)) (h : Reached md5 save_path d₀ d s) :
    load save_path d = .ok s := by
  induction h with
  | start h => exact h
  | @request d d' s h r oks hsaved hprocess ih =>
    by_cases hnil : s.m_register = []
    · obtain ⟨-, hserver, -⟩ := ts_fun_process_first md5 hnil r
      obtain ⟨hstorable, hnum⟩ := storable_first md5 hnil r
      rw [processUntil_first md5 hnil, hserver] at hprocess
      rw [hserver] at hstorable hnum ⊢
      obtain ⟨files, hfiles, hinv⟩ := saveUntil_org hfits hsaved
      obtain rfl : files = d' := Option.some.inj (hfiles.symm.trans hprocess)
      exact load_fileBytes (pathFits_of_bakFits hfits) hstorable hnum hinv
    · rw [processUntil_of_ne md5 hnil] at hprocess
      obtain rfl : d = d' := Option.some.inj hprocess
      rw [ts_fun_process_of_ne md5 (fun _ => 0) hnil]
      exact ih
  | stopped h r stop hprocess hload ih => exact hload

end Lives

end QRigisterServer

end KalavaPir.Common
