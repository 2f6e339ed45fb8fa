import WinKernl.EmittedJumps

/- Trampolines: what `KHook::new` leaves in `original_stub`, and what runs there.

   `new` puts the relocated prologue and, behind the encoder's whole buffer, the
   jump back to `src + copied`. Three things can go wrong. The stub has room for
   the original bytes and thirteen more, and relocated branches are longer
   (`new_fits_iff`); the buffer ends in the pointers of far branches, so the jump
   is not behind the last instruction (`fallsThrough_iff`); and the long form of
   the jump goes through RAX (`trampoline_transparent_iff`). -/
namespace WinKernl
open ByteMem Ask X86

namespace KHook

section
variable {env : Env} {src : VirtAddr} {dst : BitVec 64} {mem mem' : Mem 64} {h : KHook}
  {insns : List Insn} {copied : Nat} {res : BlockEncoderResult}

/-! What `new` built. -/

theorem Built.of_new (hn : new env src dst mem = (.ok h, mem'))
    (hd : decodePrologue env src.val (read mem src.val windowSize) = .ok (insns, copied))
    (he : env.encode insns h.originalStub.ptr = some res) :
    Built env src dst mem h mem' insns copied res := by
  obtain ⟨insns', copied', res', hb⟩ := new_ok hn
  obtain ⟨rfl, rfl⟩ : insns' = insns ∧ copied' = copied := by
    have := hb.prologue.symm.trans hd
    simpa using this
  obtain rfl : res' = res := Option.some.inj (hb.encode.symm.trans he)
  exact hb

/-- The stub holds the code buffer, and behind it the jump back. -/
theorem Built.read_stub (hb : Built env src dst mem h mem' insns copied res) :
    read mem' h.originalStub.ptr res.codeBuffer.length = res.codeBuffer ∧
      read mem' (h.originalStub.ptr + BitVec.ofNat 64 res.codeBuffer.length)
        (returnJump h.originalStub.ptr res src copied).length =
        returnJump h.originalStub.ptr res src copied := by
  have hall := read_write (write mem h.originalStub.ptr
    (List.replicate (copied + hookSizeAbsolute) 0)) h.originalStub.ptr
    (res.codeBuffer ++ returnJump h.originalStub.ptr res src copied)
    (by rw [List.length_append]; exact Nat.le_trans hb.fits (stubSize_le hb.prologue))
  rw [← hb.mem_eq, List.length_append, read_add] at hall
  exact List.append_inj hall (read_length _ _ _)

/-! Room in the stub. -/

/-- A decoder that knows `nop`, `je`, `call`, `sub r64, imm32` and `mov r64, imm64`. -/
def fixtureLen (bs : List Byte) : Nat :=
  match (bs.take 2).map BitVec.toNat with
  | 0x90 :: _ => 1
  | 0x74 :: _ => 2
  | 0xE8 :: _ => 5
  | [0x0F, 0x84] => 6
  | [0x48, 0x81] => 7
  | [0x48, op] => if 0xB8 ≤ op ∧ op ≤ 0xBF then 10 else 0
  | _ => 0

def fixtureDecode (_ : BitVec 64) (bs : List Byte) : Option (InsnLen bs) :=
  if h : 0 < fixtureLen bs ∧ fixtureLen bs ≤ 15 ∧ fixtureLen bs ≤ bs.length then
    some ⟨fixtureLen bs, h⟩
  else none

def fixtureEnv (stub : BitVec 64) (encode : List Insn → BitVec 64 → Option BlockEncoderResult) :
    Env := ⟨fixtureDecode, fun n => if n ≤ 64 then some stub else none, encode⟩

/-- The bytes `bs` at `hookVa`, among `nop`s. -/
def fixtureMem (bs : List Byte) : Mem 64 := write (fun _ => 0x90#8) hookVa.val bs

/-- The encoder's buffer is at most eight bytes longer than the original prologue, or
    one byte where the way back is out of reach of a near jump. -/
def StubFits (env : Env) (src : VirtAddr) (mem : Mem 64) : Prop :=
  ∀ insns copied stub res,
    decodePrologue env src.val (read mem src.val windowSize) = .ok (insns, copied) →
    env.alloc (copied + hookSizeAbsolute) = some stub → env.encode insns stub = some res →
    res.codeBuffer.length ≤ copied +
      if Near (stub + BitVec.ofNat 64 res.codeBuffer.length) (src.val + BitVec.ofNat 64 copied)
      then 8 else 1

theorem returnJump_fits {stub : BitVec 64} :
    res.codeBuffer.length + (returnJump stub res src copied).length ≤ copied + hookSizeAbsolute ↔
      res.codeBuffer.length ≤ copied +
        if Near (stub + BitVec.ofNat 64 res.codeBuffer.length) (src.val + BitVec.ofNat 64 copied)
        then 8 else 1 := by
  rw [returnJump, createAssemblyJump_length]
  unfold hookSizeAbsolute
  split <;> omega

/-- Once the prologue is relocated, `new` panics exactly when the jump does not fit. -/
theorem new_panic_iff {stub : BitVec 64}
    (hd : decodePrologue env src.val (read mem src.val windowSize) = .ok (insns, copied))
    (ha : env.alloc (copied + hookSizeAbsolute) = some stub)
    (he : env.encode insns stub = some res) :
    (new env src dst mem).1 = .panic ↔
      ¬ res.codeBuffer.length + (returnJump stub res src copied).length ≤
        copied + hookSizeAbsolute := by
  unfold new
  simp only [hd, ha, he]
  split
  · next hcode => exact iff_of_true rfl (by omega)
  · split
    · next hjump => exact iff_of_true rfl (Nat.not_le_of_lt hjump)
    · next hjump =>
      refine iff_of_false (fun h => nomatch h) (not_not_intro ?_)
      exact Nat.le_of_not_lt hjump

/-- `new` panics only once the prologue is decoded, allocated for and encoded. -/
theorem new_panic_inv (hp : (new env src dst mem).1 = .panic) : ∃ insns copied stub res,
    decodePrologue env src.val (read mem src.val windowSize) = .ok (insns, copied) ∧
      env.alloc (copied + hookSizeAbsolute) = some stub ∧ env.encode insns stub = some res := by
  have hrun := new_run env src dst mem
  generalize new env src dst mem = r at hp hrun
  cases hrun with
  | noRoom hd ha he hfit hw => exact ⟨_, _, _, _, hd, ha, he⟩
  | _ => cases hp

/-- **Room.** `new` does not panic, and what it writes fits the stub, exactly when the
    relocated prologue has not outgrown the original one by more than the slack. -/
theorem new_fits_iff (env : Env) (src : VirtAddr) (dst : BitVec 64) (mem : Mem 64) :
    ((new env src dst mem).1 ≠ .panic ∧
      ∀ h mem', new env src dst mem = (.ok h, mem') → ∀ insns copied res,
        decodePrologue env src.val (read mem src.val windowSize) = .ok (insns, copied) →
        env.encode insns h.originalStub.ptr = some res →
        h.originalStub.len = copied + hookSizeAbsolute ∧
          res.codeBuffer.length + (returnJump h.originalStub.ptr res src copied).length ≤
            h.originalStub.len) ↔ StubFits env src mem := by
  constructor
  · intro hnever insns copied stub res hd ha he
    obtain ⟨hnp, -⟩ := hnever
    rw [Ne, new_panic_iff hd ha he, not_not] at hnp
    exact returnJump_fits.mp hnp
  · intro hfits
    refine ⟨fun hp => ?_, fun h mem' hn insns copied res hd he => ?_⟩
    · obtain ⟨insns, copied, stub, res, hd, ha, he⟩ := new_panic_inv hp
      rw [new_panic_iff hd ha he] at hp
      exact hp (returnJump_fits.mpr (hfits insns copied stub res hd ha he))
    · have hb := Built.of_new hn hd he
      have hlen : h.originalStub.len = copied + hookSizeAbsolute := by rw [hb.hook_eq]
      exact ⟨hlen, hlen ▸ hb.fits⟩

/-- `je rel8` moved out of reach of its target: `je rel32`. -/
def relaxJe (insns : List Insn) (stub : BitVec 64) : Option BlockEncoderResult :=
  some ⟨insns.mapIdx fun i insn =>
    let target := insn.ip + 2#64 + (insn.bytes.getD 1 0).signExtend 64
    let rel := target - (stub + BitVec.ofNat 64 (6 * i + 6))
    [0x0F#8, 0x84#8] ++ toLE 4 (rel.setWidth 32).toNat, []⟩

/-- Seven `je rel8` are fourteen bytes, and forty-two in a stub of twenty-seven. -/
theorem new_je_panics :
    (new (fixtureEnv 0xFFFFF80000100000#64 relaxJe) hookVa 0xFFFFF80000200000#64
      (fixtureMem (List.replicate 7 [0x74#8, 0x20#8]).flatten)).1 = .panic := by
  decide

/-! The end of the relocated prologue. -/

/-- Behind the last relocated instruction stands the jump back, and it lands there. -/
def FallsThrough (isa : Isa) (h : KHook) (mem' : Mem 64) (res : BlockEncoderResult)
    (copied : Nat) : Prop :=
  let last := h.originalStub.ptr + BitVec.ofNat 64 res.insns.flatten.length
  let jumpIp := h.originalStub.ptr + BitVec.ofNat 64 res.codeBuffer.length
  let jump := returnJump h.originalStub.ptr res h.src copied
  let target := h.src.val + BitVec.ofNat 64 copied
  last = jumpIp ∧ read mem' jumpIp jump.length = jump ∧
    ∀ c, ∃ c', run isa mem' (jumpSteps jumpIp target) ⟨last, c⟩ = some ⟨target, c'⟩

theorem offset_inj {a : BitVec 64} {i j : Nat} (hi : i < 2^64) (hj : j < 2^64) :
    a + BitVec.ofNat 64 i = a + BitVec.ofNat 64 j ↔ i = j := by
  refine ⟨fun h => ?_, fun h => by rw [h]⟩
  rw [← offset_add a hi, h, offset_add a hj]

/-- **Falling through.** Control falls from the relocated prologue into the jump back
    exactly when the encoder has appended no pointers. -/
theorem fallsThrough_iff (isa : Isa) (hn : new env src dst mem = (.ok h, mem'))
    (hd : decodePrologue env src.val (read mem src.val windowSize) = .ok (insns, copied))
    (he : env.encode insns h.originalStub.ptr = some res) :
    FallsThrough isa h mem' res copied ↔ res.pointers = [] := by
  have hb := Built.of_new hn hd he
  have hsrc : h.src = src := by rw [hb.hook_eq]
  have hsize := Nat.le_trans hb.fits (stubSize_le hb.prologue)
  have hcode : res.codeBuffer.length = res.insns.flatten.length + res.pointers.length :=
    List.length_append
  have hjump : 0 < (returnJump h.originalStub.ptr res src copied).length := by
    rw [returnJump, createAssemblyJump_length]
    split <;> omega
  have hpos : h.originalStub.ptr + BitVec.ofNat 64 res.insns.flatten.length =
      h.originalStub.ptr + BitVec.ofNat 64 res.codeBuffer.length ↔ res.pointers = [] := by
    rw [offset_inj (by omega) (by omega), ← List.length_eq_zero_iff]
    omega
  unfold FallsThrough
  rw [hsrc]
  refine ⟨fun hf => hpos.mp hf.1, fun hp => ⟨hpos.mpr hp, hb.read_stub.2, fun c => ?_⟩⟩
  rw [hpos.mpr hp]
  exact ⟨_, run_jump hb.read_stub.2 c⟩

/-- An encoder of instructions that mean the same at any address. -/
def moveBytes (insns : List Insn) (_ : BitVec 64) : Option BlockEncoderResult :=
  some ⟨insns.map Insn.bytes, []⟩

/-- `mov rax, 1; mov rcx, 2`. -/
def movBytes : List (List Byte) :=
  [[0x48#8, 0xB8#8] ++ toLE 8 1, [0x48#8, 0xB9#8] ++ toLE 8 2]

def movMem : Mem 64 := fixtureMem movBytes.flatten

def movInsns : List Insn :=
  [⟨hookVa.val, movBytes.getD 0 []⟩, ⟨hookVa.val + 10#64, movBytes.getD 1 []⟩]

def movHook (stub : BitVec 64) : KHook :=
  ⟨hookVa, 0, ⟨stub, 33⟩, read movMem hookVa.val windowSize, false⟩

def nearStub : BitVec 64 := 0xFFFFF80000100000#64
def farStub : BitVec 64 := 0xFFFFA00000000000#64

theorem new_movHook_near :
    (new (fixtureEnv nearStub moveBytes) hookVa 0 movMem).1 = .ok (movHook nearStub) := by
  decide

theorem new_movHook_far :
    (new (fixtureEnv farStub moveBytes) hookVa 0 movMem).1 = .ok (movHook farStub) := by
  decide

theorem prologue_mov (stub : BitVec 64) :
    decodePrologue (fixtureEnv stub moveBytes) hookVa.val (read movMem hookVa.val windowSize) =
      .ok (movInsns, 20) := by
  rfl

theorem fallsThrough_mov : FallsThrough (fun _ _ => none) (movHook nearStub)
    (new (fixtureEnv nearStub moveBytes) hookVa 0 movMem).2 ⟨movBytes, []⟩ 20 :=
  (fallsThrough_iff (fun _ _ => none) (Prod.ext new_movHook_near rfl) (prologue_mov nearStub)
    rfl).mpr rfl

/-- `je` to the next instruction, a `call` and a `sub`: the `je` shrinks to two bytes,
    the `call` grows to `call [rip + 8]`, its pointer behind a byte of padding. -/
def farCall (insns : List Insn) (_ : BitVec 64) : Option BlockEncoderResult :=
  match insns with
  | [_, call, sub] =>
    let target := call.ip + 5#64 +
      (BitVec.ofNat 32 (ofLE (call.bytes.drop 1))).signExtend 64
    some ⟨[[0x74#8, 0x00#8], [0xFF#8, 0x15#8] ++ toLE 4 8, sub.bytes],
      0xCC#8 :: toLE 8 target.toNat⟩
  | _ => none

def callStub : BitVec 64 := 0xFFFFF80060000000#64

def callMem : Mem 64 :=
  fixtureMem ([0x0F#8, 0x84#8] ++ toLE 4 0 ++ 0xE8#8 :: toLE 4 0xC0000000 ++
    [0x48#8, 0x81#8, 0xEC#8] ++ toLE 4 0x88)

def callHook : KHook :=
  ⟨hookVa, 0, ⟨callStub, 31⟩, read callMem hookVa.val windowSize, false⟩

theorem new_callHook : (new (fixtureEnv callStub farCall) hookVa 0 callMem).1 = .ok callHook := by
  decide

/-- The jump back stands nine bytes behind the last instruction: what follows that
    instruction is the padding. -/
theorem far_call_falls_off : ∃ mem' insns res,
    new (fixtureEnv callStub farCall) hookVa 0 callMem = (.ok callHook, mem') ∧
      decodePrologue (fixtureEnv callStub farCall) hookVa.val (read callMem hookVa.val windowSize) =
        .ok (insns, 18) ∧ farCall insns callStub = some res ∧
      mem' (callStub + BitVec.ofNat 64 res.insns.flatten.length) = 0xCC#8 ∧
      ∀ isa, ¬ FallsThrough isa callHook mem' res 18 := by
  refine ⟨(new (fixtureEnv callStub farCall) hookVa 0 callMem).2, _, _,
    Prod.ext new_callHook rfl, rfl, rfl, by decide, fun isa h => absurd h.1 (by decide)⟩

/-! Transparency. -/

/-- The encoder has moved a straight-line prologue instruction by instruction: at
    either address each has the same length and the same effect. -/
structure Relocates (isa : Isa) (src stub : BitVec 64) (insns : List Insn)
    (res : BlockEncoderResult) (fs : List (Cpu → Cpu)) : Prop where
  original : Block isa src (insns.map Insn.bytes) fs
  relocated : Block isa stub res.insns fs
  lengths : res.insns.map List.length = (insns.map Insn.bytes).map List.length
  pointers : res.pointers = []

/-- **Transparency.** The prologue in place ends at `src + copied`. The trampoline ends
    there in the same state exactly when the jump back is near, or the prologue leaves
    in RAX what the jump puts there. -/
theorem trampoline_transparent_iff (isa : Isa) (hn : new env src dst mem = (.ok h, mem'))
    (hd : decodePrologue env src.val (read mem src.val windowSize) = .ok (insns, copied))
    (he : env.encode insns h.originalStub.ptr = some res) (fs : List (Cpu → Cpu))
    (hr : Relocates isa src.val h.originalStub.ptr insns res fs) (c : Cpu) :
    run isa mem insns.length ⟨src.val, c⟩ =
        some ⟨src.val + BitVec.ofNat 64 copied, applyAll fs c⟩ ∧
      (run isa mem' (insns.length + jumpSteps
            (h.originalStub.ptr + BitVec.ofNat 64 copied) (src.val + BitVec.ofNat 64 copied))
          ⟨h.originalStub.ptr, c⟩ = run isa mem insns.length ⟨src.val, c⟩ ↔
        Near (h.originalStub.ptr + BitVec.ofNat 64 copied) (src.val + BitVec.ofNat 64 copied) ∨
          (applyAll fs c).reg .rax = src.val + BitVec.ofNat 64 copied) := by
  have hb := Built.of_new hn hd he
  obtain ⟨-, -, hwin, hbytes⟩ := decodePrologue_spec hd
  rw [read_length] at hwin
  have hflat : (insns.map Insn.bytes).flatten = read mem src.val copied := by
    rw [hbytes, read_take _ _ hwin]
  have hlen : (insns.map Insn.bytes).flatten.length = copied := by rw [hflat, read_length]
  have hcode : res.codeBuffer = res.insns.flatten := by
    rw [BlockEncoderResult.codeBuffer, hr.pointers, List.append_nil]
  have hcopied : res.insns.flatten.length = copied := by
    rw [List.length_flatten, hr.lengths, ← List.length_flatten, hlen]
  have hcount : res.insns.length = insns.length := by
    have := congrArg List.length hr.lengths
    simpa using this
  -- In place: the prologue is the block at `src`.
  have hin : run isa mem insns.length ⟨src.val, c⟩ =
      some ⟨src.val + BitVec.ofNat 64 copied, applyAll fs c⟩ := by
    have := run_block hr.original (show read mem _ _ = _ by rw [hlen, hflat]) c
    rwa [List.length_map, hlen] at this
  -- In the stub: the relocated block, then the jump behind it.
  obtain ⟨hstub, hjump⟩ := hb.read_stub
  rw [hcode] at hstub
  have hout := run_block hr.relocated hstub c
  rw [hcount, hcopied] at hout
  rw [returnJump, hcode, hcopied] at hjump
  refine ⟨hin, ?_⟩
  rw [run_add, hout, Option.bind_some, run_jump hjump, hin]
  simp only [Option.some.injEq, Machine.mk.injEq, true_and]
  split
  · next hnear => exact iff_of_true rfl (.inl hnear)
  · next hfar => rw [Cpu.setReg_eq_self, or_iff_right hfar]

def movEffects : List (Cpu → Cpu) := [(·.setReg .rax 1#64), (·.setReg .rcx 2#64)]

theorem mov_block (isa : Isa) (a : BitVec 64) : Block isa a movBytes movEffects := by
  refine ⟨by decide, ?_, by decide, ?_, trivial⟩
  · exact executes_movImm64 0x48#8 0xB8#8 1#64 (.inl rfl) rfl _
  · exact executes_movImm64 0x48#8 0xB9#8 2#64 (.inl rfl) rfl _

theorem mov_relocates (isa : Isa) (src stub : BitVec 64) :
    Relocates isa src stub movInsns ⟨movBytes, []⟩ movEffects :=
  ⟨mov_block isa src, mov_block isa stub, rfl, rfl⟩

theorem trampoline_transparent_mov :
    run (fun _ _ => none) (new (fixtureEnv nearStub moveBytes) hookVa 0 movMem).2 3
        ⟨nearStub, zeroCpu⟩ =
      run (fun _ _ => none) movMem 2 ⟨hookVa.val, zeroCpu⟩ :=
  (trampoline_transparent_iff (fun _ _ => none) (Prod.ext new_movHook_near rfl)
    (prologue_mov nearStub) rfl movEffects (mov_relocates _ _ _) zeroCpu).2.mpr (.inl (by decide))

/-- From a stub out of reach the same prologue ends with RAX = `src + 20`, and not 1. -/
theorem trampoline_clobbers_rax :
    (new (fixtureEnv farStub moveBytes) hookVa 0 movMem).1 = .ok (movHook farStub) ∧
      Relocates (fun _ _ => none) hookVa.val farStub movInsns ⟨movBytes, []⟩ movEffects ∧
      (run (fun _ _ => none) movMem 2 ⟨hookVa.val, zeroCpu⟩).map
          (fun m => (m.rip, m.cpu.reg .rax)) = some (hookVa.val + 20#64, 1#64) ∧
      (run (fun _ _ => none) (new (fixtureEnv farStub moveBytes) hookVa 0 movMem).2 4
          ⟨farStub, zeroCpu⟩).map
          (fun m => (m.rip, m.cpu.reg .rax)) = some (hookVa.val + 20#64, hookVa.val + 20#64) := by
  refine ⟨new_movHook_far, mov_relocates _ _ _, by decide, by decide⟩

end
end KHook
end WinKernl
