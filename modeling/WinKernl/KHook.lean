import WinKernl.Lib.Ask
import WinKernl.Lib.X86
import WinKernl.PageTable

/- Inline hooks (`khook.rs`).

   Correspondence (Rust ↔ Lean):
     `create_mov_immediat`, `create_jmp_on_reg` ↔ `createMovImmediat`, `createJmpOnReg`
     `create_jmp_rel32`, `create_assembly_jump` ↔ `createJmpRel32`, `createAssemblyJump`
     the `while` of `KHook::new`                ↔ `decodeLoop`
     `KHook::new`, `enable`, `disable`, `drop`  ↔ `KHook.new`, `enable`, `disable`, `drop`
     `KHook::is_enabled`, `KHook::original`     ↔ `KHook.isEnabled`, `KHook.original`
     `iced_x86::Decoder`, `BlockEncoder`        ↔ `Env.decode`, `Env.encode`
     `PoolMemorySlice::new_with_pool_type`      ↔ `Env.alloc` and the fill
   The decoder, the encoder and the pool are parameters. An instruction is its
   address and its bytes; the register type has the sixteen registers the two
   encoders accept, so their panicking arm is not reached. A slice index out of
   bounds is a panic. -/
namespace WinKernl
open ByteMem Ask

def hookSizeRelative : Nat := 5
def hookSizeAbsolute : Nat := 13
def maxHookSize : Nat := hookSizeAbsolute

inductive KhookErr where
  | invalidInsn
  | allocationFailed
  | blockInsn
  deriving DecidableEq, Repr

/-! Jump encodings. -/

abbrev Register := X86.Reg

def createMovImmediat (reg : Register) (imm64 : BitVec 64) : List Byte :=
  let (rex, opcode) : Byte × Byte := match reg with
    | .rax => (0x48, 0xB8)
    | .rcx => (0x48, 0xB9)
    | .rdx => (0x48, 0xBA)
    | .rbx => (0x48, 0xBB)
    | .rsp => (0x48, 0xBC)
    | .rbp => (0x48, 0xBD)
    | .rsi => (0x48, 0xBE)
    | .rdi => (0x48, 0xBF)
    | .r8 => (0x49, 0xB8)
    | .r9 => (0x49, 0xB9)
    | .r10 => (0x49, 0xBA)
    | .r11 => (0x49, 0xBB)
    | .r12 => (0x49, 0xBC)
    | .r13 => (0x49, 0xBD)
    | .r14 => (0x49, 0xBE)
    | .r15 => (0x49, 0xBF)
  rex :: opcode :: toLE 8 imm64.toNat

/-- The three-byte buffer and the number of its bytes in use. -/
def createJmpOnReg (reg : Register) : List Byte × Nat :=
  let (rex, rm) : Option Byte × Byte := match reg with
    | .rax => (none, 0)
    | .rcx => (none, 1)
    | .rdx => (none, 2)
    | .rbx => (none, 3)
    | .rsp => (none, 4)
    | .rbp => (none, 5)
    | .rsi => (none, 6)
    | .rdi => (none, 7)
    | .r8 => (some 0x41, 0)
    | .r9 => (some 0x41, 1)
    | .r10 => (some 0x41, 2)
    | .r11 => (some 0x41, 3)
    | .r12 => (some 0x41, 4)
    | .r13 => (some 0x41, 5)
    | .r14 => (some 0x41, 6)
    | .r15 => (some 0x41, 7)
  let modrm := 0b11100000#8 ||| rm
  match rex with
  | some rex => ([rex, 0xFF#8, modrm], 3)
  | none => ([0xFF#8, modrm, 0#8], 2)

def createJmpRel32 (offset : BitVec 32) : List Byte := 0xE9#8 :: toLE 4 offset.toNat

/-- The displacement of a five-byte jump. -/
def jumpRel (stubAddr targetAddr : BitVec 64) : BitVec 64 :=
  targetAddr - (stubAddr + BitVec.ofNat 64 hookSizeRelative)

/-- `i32::try_from` succeeds on the displacement. -/
def Near (stubAddr targetAddr : BitVec 64) : Prop :=
  -2^31 ≤ (jumpRel stubAddr targetAddr).toInt ∧ (jumpRel stubAddr targetAddr).toInt < 2^31

instance (s t : BitVec 64) : Decidable (Near s t) := inferInstanceAs (Decidable (_ ∧ _))

def createAssemblyJump (stubAddr targetAddr : BitVec 64) : List Byte :=
  if Near stubAddr targetAddr then createJmpRel32 ((jumpRel stubAddr targetAddr).setWidth 32)
  else
    let (jmp, len) := createJmpOnReg .rax
    createMovImmediat .rax targetAddr ++ jmp.take len

theorem createMovImmediat_length (reg : Register) (v : BitVec 64) :
    (createMovImmediat reg v).length = 10 := by
  cases reg <;> simp [createMovImmediat]

theorem createAssemblyJump_near {a t : BitVec 64} (h : Near a t) :
    createAssemblyJump a t = 0xE9#8 :: toLE 4 ((jumpRel a t).setWidth 32).toNat :=
  if_pos h

theorem createAssemblyJump_far {a t : BitVec 64} (h : ¬ Near a t) :
    createAssemblyJump a t = createMovImmediat .rax t ++ [0xFF#8, 0xE0#8] :=
  if_neg h

/-- Five bytes or twelve. -/
theorem createAssemblyJump_length (a t : BitVec 64) :
    (createAssemblyJump a t).length = if Near a t then 5 else 12 := by
  split
  · next h => simp [createAssemblyJump_near h]
  · next h => simp [createAssemblyJump_far h, createMovImmediat_length]

/-- A near jump's displacement survives the cut to 32 bits. -/
theorem near_signExtend {a t : BitVec 64} (h : Near a t) :
    ((jumpRel a t).setWidth 32).signExtend 64 = jumpRel a t := by
  apply BitVec.eq_of_toInt_eq
  rw [BitVec.toInt_signExtend_of_le (by omega), BitVec.toInt_setWidth]
  obtain ⟨hlo, hhi⟩ := h
  have hmod : (jumpRel a t).toInt = (jumpRel a t).toNat ∨
      (jumpRel a t).toInt = (jumpRel a t).toNat - 2^64 := by
    rw [BitVec.toInt_eq_toNat_cond]
    split
    · exact .inl rfl
    · exact .inr (by norm_num)
  have := (jumpRel a t).isLt
  rw [Int.bmod_def]
  split <;> omega

theorem add_jumpRel (a t : BitVec 64) : a + 5#64 + jumpRel a t = t := by
  rw [jumpRel, hookSizeRelative, BitVec.add_comm, BitVec.sub_add_cancel]

/-! The prologue. -/

/-- The length of a valid instruction at the front of `bs`: at most fifteen bytes,
    all of them there. -/
abbrev InsnLen (bs : List Byte) := { n : Nat // 0 < n ∧ n ≤ 15 ∧ n ≤ bs.length }

/-- An instruction and the address it was decoded at. -/
structure Insn where
  ip : BitVec 64
  bytes : List Byte
  deriving DecidableEq, Repr

/-- What the block encoder returns: the bytes of each instruction, and what it
    appends behind the last one. -/
structure BlockEncoderResult where
  insns : List (List Byte)
  pointers : List Byte
  deriving DecidableEq, Repr

def BlockEncoderResult.codeBuffer (r : BlockEncoderResult) : List Byte :=
  r.insns.flatten ++ r.pointers

/-- The decoder (`none` is `Mnemonic::INVALID`), the encoder and the pool. -/
structure Env where
  decode : BitVec 64 → (bs : List Byte) → Option (InsnLen bs)
  alloc : Nat → Option (BitVec 64)
  encode : List Insn → BitVec 64 → Option BlockEncoderResult

/-- Each turn takes at least one byte, so `maxHookSize` turns are enough. -/
def decodeLoop (env : Env) (src : BitVec 64) (srcSlice : List Byte) :
    (fuel copied : Nat) → maxHookSize ≤ copied + fuel → List Insn →
      Except KhookErr (List Insn × Nat)
  | 0, copied, _, insnBlock => .ok (insnBlock, copied)
  | fuel + 1, copied, h, insnBlock =>
    if copied < maxHookSize then
      let ip := src + BitVec.ofNat 64 copied
      let rest := srcSlice.drop copied
      match env.decode ip rest with
      | none => .error .invalidInsn
      | some n =>
        decodeLoop env src srcSlice fuel (copied + n) (by have := n.2.1; omega)
          (insnBlock ++ [⟨ip, rest.take n⟩])
    else .ok (insnBlock, copied)

/-- The instructions `new` relocates, and the number of their bytes. -/
def decodePrologue (env : Env) (src : BitVec 64) (srcSlice : List Byte) :
    Except KhookErr (List Insn × Nat) :=
  decodeLoop env src srcSlice maxHookSize 0 (by omega) []

theorem decodeLoop_spec {env : Env} {src : BitVec 64} {srcSlice : List Byte} {fuel copied : Nat}
    {h : maxHookSize ≤ copied + fuel} {block insns : List Insn} {total : Nat}
    (hd : decodeLoop env src srcSlice fuel copied h block = .ok (insns, total))
    (hblock : (block.map Insn.bytes).flatten = srcSlice.take copied)
    (hlen : copied ≤ srcSlice.length) (hcopied : copied ≤ maxHookSize + 14) :
    maxHookSize ≤ total ∧ total ≤ maxHookSize + 14 ∧ total ≤ srcSlice.length ∧
      (insns.map Insn.bytes).flatten = srcSlice.take total := by
  induction fuel generalizing copied block with
  | zero =>
    cases hd
    exact ⟨h, hcopied, hlen, hblock⟩
  | succ fuel ih =>
    rw [decodeLoop] at hd
    split at hd
    · next hlt =>
      dsimp only at hd
      split at hd
      · cases hd
      · next n hn =>
        obtain ⟨n, hpos, hle, hfit⟩ := n
        rw [List.length_drop] at hfit
        refine ih hd ?_ (by dsimp only; omega) (by dsimp only; omega)
        rw [List.map_append, List.flatten_append, hblock, List.take_add]
        simp
    · next hge =>
      cases hd
      exact ⟨by omega, hcopied, hlen, hblock⟩

/-- The prologue is the first `copied` bytes of the window, between `maxHookSize`
    and `maxHookSize + 14` of them, cut into instructions. -/
theorem decodePrologue_spec {env : Env} {src : BitVec 64} {srcSlice : List Byte}
    {insns : List Insn} {copied : Nat}
    (hd : decodePrologue env src srcSlice = .ok (insns, copied)) :
    maxHookSize ≤ copied ∧ copied ≤ maxHookSize + 14 ∧ copied ≤ srcSlice.length ∧
      (insns.map Insn.bytes).flatten = srcSlice.take copied :=
  decodeLoop_spec hd (by simp) (by omega) (by omega)

/-- A stub does not wrap around the address space. -/
theorem stubSize_le {env : Env} {src : BitVec 64} {srcSlice : List Byte} {insns : List Insn}
    {copied : Nat} (hd : decodePrologue env src srcSlice = .ok (insns, copied)) :
    copied + hookSizeAbsolute ≤ 2^64 := by
  have hcopied := (decodePrologue_spec hd).2.1
  unfold maxHookSize hookSizeAbsolute at *
  omega

theorem stubSize_toNat {env : Env} {src : BitVec 64} {srcSlice : List Byte} {insns : List Insn}
    {copied : Nat} (hd : decodePrologue env src srcSlice = .ok (insns, copied)) :
    (BitVec.ofNat 64 (copied + hookSizeAbsolute)).toNat = copied + hookSizeAbsolute := by
  have hcopied := (decodePrologue_spec hd).2.1
  rw [BitVec.toNat_ofNat]
  apply Nat.mod_eq_of_lt
  unfold maxHookSize hookSizeAbsolute at *
  omega

/-! Hooks. -/

/-- `PoolMemorySlice<u8>`. -/
structure Stub where
  ptr : BitVec 64
  len : Nat
  deriving DecidableEq, Repr

structure KHook where
  src : VirtAddr
  dst : BitVec 64
  originalStub : Stub
  originalBytes : List Byte
  enabled : Bool
  deriving DecidableEq

namespace KHook

def windowSize : Nat := maxHookSize + 16

/-- `KHook::new`: how it ends, and memory afterwards. -/
def new (env : Env) (src : VirtAddr) (dst : BitVec 64) (mem : Mem 64) :
    Outcome KhookErr KHook × Mem 64 :=
  match decodePrologue env src.val (read mem src.val windowSize) with
  | .error e => (.err e, mem)
  | .ok (insnBlock, copied) =>
    let size := copied + hookSizeAbsolute
    match env.alloc size with
    | none => (.err .allocationFailed, mem)
    | some stub =>
      let mem := write mem stub (List.replicate size 0)
      match env.encode insnBlock stub with
      | none => (.err .blockInsn, mem)
      | some newInsn =>
        let encodedLen := newInsn.codeBuffer.length
        if size < encodedLen then (.panic, mem) else
        let mem := write mem stub newInsn.codeBuffer
        let jumpIp := stub + BitVec.ofNat 64 encodedLen
        let targetJump := src.val + BitVec.ofNat 64 copied
        let asmJump := createAssemblyJump jumpIp targetJump
        if size < encodedLen + asmJump.length then (.panic, mem) else
        let mem := write mem jumpIp asmJump
        (.ok ⟨src, dst, ⟨stub, size⟩, read mem src.val windowSize, false⟩, mem)

/-- The jump back that `new` writes behind the code buffer. -/
def returnJump (stub : BitVec 64) (res : BlockEncoderResult) (src : VirtAddr) (copied : Nat) :
    List Byte :=
  createAssemblyJump (stub + BitVec.ofNat 64 res.codeBuffer.length)
    (src.val + BitVec.ofNat 64 copied)

/-- What holds when `new` returns `h` and leaves `mem'`. -/
structure Built (env : Env) (src : VirtAddr) (dst : BitVec 64) (mem : Mem 64) (h : KHook)
    (mem' : Mem 64) (insns : List Insn) (copied : Nat) (res : BlockEncoderResult) : Prop where
  prologue : decodePrologue env src.val (read mem src.val windowSize) = .ok (insns, copied)
  alloc : env.alloc (copied + hookSizeAbsolute) = some h.originalStub.ptr
  encode : env.encode insns h.originalStub.ptr = some res
  fits : res.codeBuffer.length + (returnJump h.originalStub.ptr res src copied).length ≤
    copied + hookSizeAbsolute
  mem_eq : mem' = write (write mem h.originalStub.ptr (List.replicate (copied + hookSizeAbsolute) 0))
    h.originalStub.ptr (res.codeBuffer ++ returnJump h.originalStub.ptr res src copied)
  hook_eq : h = ⟨src, dst, ⟨h.originalStub.ptr, copied + hookSizeAbsolute⟩,
    read mem' src.val windowSize, false⟩

/-- The ways `new` can end. Without room it has written what fitted before the slice
    index that panics. -/
inductive NewRun (env : Env) (src : VirtAddr) (dst : BitVec 64) (mem : Mem 64) :
    Outcome KhookErr KHook × Mem 64 → Prop where
  | invalid {e : KhookErr}
      (hd : decodePrologue env src.val (read mem src.val windowSize) = .error e) :
      NewRun env src dst mem (.err e, mem)
  | unallocated {insns : List Insn} {copied : Nat}
      (hd : decodePrologue env src.val (read mem src.val windowSize) = .ok (insns, copied))
      (ha : env.alloc (copied + hookSizeAbsolute) = none) :
      NewRun env src dst mem (.err .allocationFailed, mem)
  | unencoded {insns : List Insn} {copied : Nat} {stub : BitVec 64}
      (hd : decodePrologue env src.val (read mem src.val windowSize) = .ok (insns, copied))
      (ha : env.alloc (copied + hookSizeAbsolute) = some stub)
      (he : env.encode insns stub = none) :
      NewRun env src dst mem
        (.err .blockInsn, write mem stub (List.replicate (copied + hookSizeAbsolute) 0))
  | noRoom {insns : List Insn} {copied : Nat} {stub : BitVec 64} {res : BlockEncoderResult}
      {written : List Byte}
      (hd : decodePrologue env src.val (read mem src.val windowSize) = .ok (insns, copied))
      (ha : env.alloc (copied + hookSizeAbsolute) = some stub)
      (he : env.encode insns stub = some res)
      (hfit : copied + hookSizeAbsolute <
        res.codeBuffer.length + (returnJump stub res src copied).length)
      (hw : written.length ≤ copied + hookSizeAbsolute) :
      NewRun env src dst mem
        (.panic, write (write mem stub (List.replicate (copied + hookSizeAbsolute) 0)) stub written)
  | built {h : KHook} {mem' : Mem 64} {insns : List Insn} {copied : Nat} {res : BlockEncoderResult}
      (hb : Built env src dst mem h mem' insns copied res) : NewRun env src dst mem (.ok h, mem')

theorem new_run (env : Env) (src : VirtAddr) (dst : BitVec 64) (mem : Mem 64) :
    NewRun env src dst mem (new env src dst mem) := by
  unfold new
  split
  · next e hd => exact .invalid hd
  · next insns copied hd =>
    dsimp only
    split
    · next ha => exact .unallocated hd ha
    · next stub ha =>
      split
      · next he => exact .unencoded hd ha he
      · next res he =>
        split
        · next hcode =>
          rw [← write_nil (write mem stub (List.replicate (copied + hookSizeAbsolute) 0)) stub]
          exact .noRoom hd ha he (by omega) (Nat.zero_le _)
        · next hcode =>
          split
          · next hjump => exact .noRoom hd ha he hjump (Nat.le_of_not_lt hcode)
          · next hjump =>
            have hfit := Nat.le_of_not_lt hjump
            exact .built ⟨hd, ha, he, hfit,
              write_append _ _ _ _ (Nat.le_trans hfit (stubSize_le hd)), rfl⟩

/-- `new` ends in `Ok` as `Built` says. -/
theorem new_ok {env : Env} {src : VirtAddr} {dst : BitVec 64} {mem mem' : Mem 64} {h : KHook}
    (hn : new env src dst mem = (.ok h, mem')) :
    ∃ insns copied res, Built env src dst mem h mem' insns copied res := by
  have hrun := new_run env src dst mem
  rw [hn] at hrun
  cases hrun with
  | built hb => exact ⟨_, _, _, hb⟩

/-- A hook that is built has written its stub and nothing else. -/
theorem Built.frame {env : Env} {src : VirtAddr} {dst : BitVec 64} {mem mem' : Mem 64} {h : KHook}
    {insns : List Insn} {copied : Nat} {res : BlockEncoderResult}
    (hb : Built env src dst mem h mem' insns copied res) {x : BitVec 64}
    (hx : ¬ Within h.originalStub.ptr (copied + hookSizeAbsolute) x) : mem' x = mem x := by
  rw [hb.mem_eq, write_outside, write_outside]
  · rwa [List.length_replicate]
  · intro hin
    refine hx (hin.mono ?_)
    rw [List.length_append]
    exact hb.fits

/-- Whatever `new` does, it writes inside the block the pool gave it. -/
theorem new_frame (env : Env) (src : VirtAddr) (dst : BitVec 64) (mem : Mem 64) {x : BitVec 64}
    (hx : ∀ n stub, env.alloc n = some stub → ¬ Within stub n x) :
    (new env src dst mem).2 x = mem x := by
  have hrun := new_run env src dst mem
  generalize new env src dst mem = r at hrun
  have hclear : ∀ n stub, env.alloc n = some stub → write mem stub (List.replicate n 0) x = mem x := by
    intro n stub ha
    apply write_outside
    rw [List.length_replicate]
    exact hx n stub ha
  cases hrun with
  | invalid hd => rfl
  | unallocated hd ha => rfl
  | unencoded hd ha he => exact hclear _ _ ha
  | noRoom hd ha he hfit hw =>
    dsimp only
    rw [write_outside, hclear _ _ ha]
    exact fun h => hx _ _ ha (h.mono hw)
  | built hb => exact hb.frame (hx _ _ hb.alloc)

/-- `write_to_read_only_memory`: `ok` says whether it succeeds. -/
def writeToReadOnlyMemory (ok : Bool) (dst : BitVec 64) (bs : List Byte) (mem : Mem 64) :
    Bool × Mem 64 :=
  if ok then (true, write mem dst bs) else (false, mem)

/-- The jump `enable` writes at `src`. -/
def jump (h : KHook) : List Byte := createAssemblyJump h.src.val h.dst

def enable (ok : Bool) (h : KHook) (mem : Mem 64) : Option Unit × KHook × Mem 64 :=
  if h.enabled then (some (), h, mem) else
  match writeToReadOnlyMemory ok h.src.val h.jump mem with
  | (false, mem) => (none, h, mem)
  | (true, mem) => (some (), { h with enabled := true }, mem)

def disable (ok : Bool) (h : KHook) (mem : Mem 64) : Option Unit × KHook × Mem 64 :=
  if h.enabled then
    match writeToReadOnlyMemory ok h.src.val h.originalBytes mem with
    | (false, mem) => (none, h, mem)
    | (true, mem) => (some (), { h with enabled := false }, mem)
  else (some (), { h with enabled := false }, mem)

/-- `Drop for KHook`: the result of `disable` is not looked at. -/
def drop (ok : Bool) (h : KHook) (mem : Mem 64) : Mem 64 := (h.disable ok mem).2.2

def isEnabled (h : KHook) : Bool := h.enabled

/-- `KHook::original` at a type of `size` bytes: the address of the stub. -/
def original (size : Nat) (h : KHook) : Outcome Empty (BitVec 64) :=
  if size = 8 then .ok h.originalStub.ptr else .panic

theorem enable_idle {h : KHook} (he : h.enabled = true) (ok : Bool) (mem : Mem 64) :
    h.enable ok mem = (some (), h, mem) :=
  if_pos he

theorem enable_ok {h : KHook} (he : h.enabled = false) (mem : Mem 64) :
    h.enable true mem = (some (), { h with enabled := true }, write mem h.src.val h.jump) := by
  rw [enable, he]
  rfl

/-- Only the flag changes. -/
theorem enable_keeps (ok : Bool) (h : KHook) (mem : Mem 64) :
    ∃ on, (h.enable ok mem).2.1 = { h with enabled := on } := by
  unfold enable
  split
  · exact ⟨h.enabled, rfl⟩
  · cases ok with
    | false => exact ⟨h.enabled, rfl⟩
    | true => exact ⟨true, rfl⟩

theorem disable_keeps (ok : Bool) (h : KHook) (mem : Mem 64) :
    ∃ on, (h.disable ok mem).2.1 = { h with enabled := on } := by
  unfold disable
  split
  · cases ok with
    | false => exact ⟨h.enabled, rfl⟩
    | true => exact ⟨false, rfl⟩
  · exact ⟨false, rfl⟩

theorem disable_idle {h : KHook} (he : h.enabled = false) (ok : Bool) (mem : Mem 64) :
    h.disable ok mem = (some (), h, mem) := by
  obtain ⟨src, dst, stub, bytes, enabled⟩ := h
  obtain rfl : enabled = false := he
  rfl

theorem disable_ok {h : KHook} (he : h.enabled = true) (mem : Mem 64) :
    h.disable true mem =
      (some (), { h with enabled := false }, write mem h.src.val h.originalBytes) := by
  rw [disable, he]
  rfl

end KHook
end WinKernl
