import WinKernl.KHook

/- The jumps `create_assembly_jump` emits, and its two long-form encoders.

   Between canonical addresses the displacement is computed without overflow, so
   the range test is made on the exact distance (`jumpRel_exact`), and either form
   lands at its target (`run_jump`). The encoders of the long form take any of
   sixteen registers; `movImmediat_decode` and `jmpOnReg_decode` read their tables
   back through the decoder. -/
namespace WinKernl
open ByteMem X86 KHook

/-! Distances. -/

theorem canonical_toInt (va : VirtAddr) : -2^47 ≤ va.val.toInt ∧ va.val.toInt < 2^47 := by
  have hsigned : va.val.toInt = (va.val.setWidth 48).toInt := by
    conv => lhs; rw [← va.canonical]
    exact BitVec.toInt_signExtend_of_le (by omega)
  rw [hsigned]
  exact ⟨BitVec.le_toInt _, BitVec.toInt_lt⟩

/-- A value of `i64`. -/
def FitsI64 (v : Int) : Prop := -2^63 ≤ v ∧ v < 2^63

/-- `target_addr - (stub_addr + 5)` in exact arithmetic. -/
def distance (stub target : VirtAddr) : Int :=
  target.val.toInt - (stub.val.toInt + hookSizeRelative)

/-- The two `i64` operations of `create_assembly_jump` do not overflow. -/
theorem distance_fits (stub target : VirtAddr) :
    FitsI64 (stub.val.toInt + hookSizeRelative) ∧ FitsI64 (distance stub target) := by
  have hs := canonical_toInt stub
  have ht := canonical_toInt target
  unfold FitsI64 distance hookSizeRelative
  omega

theorem jumpRel_exact (stub target : VirtAddr) :
    (jumpRel stub.val target.val).toInt = distance stub target := by
  obtain ⟨hend, hdist⟩ := distance_fits stub target
  unfold FitsI64 at hend hdist
  have hadd : (stub.val + BitVec.ofNat 64 hookSizeRelative).toInt =
      stub.val.toInt + hookSizeRelative := by
    rw [BitVec.toInt_add, show (BitVec.ofNat 64 hookSizeRelative).toInt = hookSizeRelative from rfl]
    exact Int.bmod_eq_of_le (by omega) (by omega)
  rw [jumpRel, BitVec.toInt_sub, hadd]
  exact Int.bmod_eq_of_le (by unfold distance at hdist; omega) (by unfold distance at hdist; omega)

/-- The range test is the test that the exact distance fits an `i32`. -/
theorem near_iff_distance (stub target : VirtAddr) :
    Near stub.val target.val ↔ -2^31 ≤ distance stub target ∧ distance stub target < 2^31 := by
  rw [Near, jumpRel_exact]

/-! The encoders of the long form. -/

theorem createMovImmediat_fields (r : Register) (v : BitVec 64) :
    ∃ rex op, createMovImmediat r v = rex :: op :: toLE 8 v.toNat ∧
      (rex = 0x48#8 ∨ rex = 0x49#8) ∧ op.extractLsb' 3 5 = 0b10111#5 ∧
      Reg.ofBits (rex.getLsbD 0) (op.extractLsb' 0 3) = r := by
  cases r <;> exact ⟨_, _, rfl, by decide, by decide, by decide⟩

/-- The bytes of `mov r, imm64` are decoded as it. -/
theorem movImmediat_decode (r : Register) (v : BitVec 64) (rest : List Byte) :
    movImm64 (createMovImmediat r v ++ rest) = some (r, v) := by
  obtain ⟨rex, op, hbytes, hrex, hop, hr⟩ := createMovImmediat_fields r v
  rw [hbytes, List.cons_append, List.cons_append, movImm64, if_pos ⟨hrex, hop, by simp⟩,
    List.take_left' (toLE_length _ _), ofLE_word, hr]

theorem movImmediat_executes (isa : Isa) (a : BitVec 64) (r : Register) (v : BitVec 64) :
    Executes isa a (createMovImmediat r v) (·.setReg r v) := by
  obtain ⟨rex, op, hbytes, hrex, hop, hr⟩ := createMovImmediat_fields r v
  have h : Executes isa a _ _ := executes_movImm64 rex op v hrex hop a
  rwa [hr, ← hbytes] at h

/-- The bytes in use of `jmp r`. -/
def jmpOnReg (r : Register) : List Byte := (createJmpOnReg r).1.take (createJmpOnReg r).2

/-- The bytes of `jmp r` are decoded as it, and as nothing else. -/
theorem jmpOnReg_decode (r : Register) (rest : List Byte) :
    jmpRel32 (jmpOnReg r ++ rest) = none ∧ movImm64 (jmpOnReg r ++ rest) = none ∧
      jmpReg (jmpOnReg r ++ rest) = some r := by
  cases r <;> exact ⟨rfl, rfl, rfl⟩

theorem jmpOnReg_length (r : Register) : (jmpOnReg r).length ≤ 3 := by
  cases r <;> decide

/-- `mov r, imm64; jmp r` lands at `imm64`. -/
theorem run_longJump (isa : Isa) {code : Mem 64} {a v : BitVec 64} {r : Register}
    (h : read code a (createMovImmediat r v ++ jmpOnReg r).length =
      createMovImmediat r v ++ jmpOnReg r) (c : Cpu) :
    run isa code 2 ⟨a, c⟩ = some ⟨v, c.setReg r v⟩ := by
  rw [List.length_append, read_add] at h
  obtain ⟨hmov, hjmp⟩ := List.append_inj h (read_length _ _ _)
  have hlen := createMovImmediat_length r v
  rw [run, step_executes (by omega) hmov (movImmediat_executes isa a r v), Option.bind_some, run,
    step_jmpReg rfl (Nat.le_trans (jmpOnReg_length r) (by omega)) hjmp (jmpOnReg_decode r),
    Option.bind_some, Cpu.setReg_same]
  rfl

/-- The instructions an emitted jump consists of. -/
def jumpSteps (a t : BitVec 64) : Nat := if Near a t then 1 else 2

/-- An emitted jump lands at its target; the long form leaves the target in RAX. -/
theorem run_jump {isa : Isa} {code : Mem 64} {a t : BitVec 64}
    (h : read code a (createAssemblyJump a t).length = createAssemblyJump a t) (c : Cpu) :
    run isa code (jumpSteps a t) ⟨a, c⟩ = some ⟨t, if Near a t then c else c.setReg .rax t⟩ := by
  unfold jumpSteps
  split
  · next hnear =>
    rw [createAssemblyJump_near hnear, List.length_cons, toLE_length] at h
    rw [run, step_jmpRel32 h, near_signExtend hnear, add_jumpRel]
    rfl
  · next hfar =>
    rw [createAssemblyJump_far hfar] at h
    exact run_longJump isa h c

/-- What executing an emitted jump keeps: everything but RAX, and in the short form
    RAX too. -/
structure Kept (short : Prop) (c c' : Cpu) : Prop where
  mem : c'.mem = c.mem
  flags : c'.flags = c.flags
  regs : ∀ r, r ≠ .rax → c'.reg r = c.reg r
  all : short → c' = c

theorem jump_kept (short : Prop) [Decidable short] (c : Cpu) (v : BitVec 64) :
    Kept short c (if short then c else c.setReg .rax v) := by
  split
  · next hs => exact ⟨rfl, rfl, fun _ _ => rfl, fun _ => rfl⟩
  · next hs => exact ⟨rfl, rfl, fun r hr => Cpu.setReg_other c v hr, fun h => absurd h hs⟩

/-- **Landing.** Between canonical addresses `create_assembly_jump` computes without
    overflow, takes the five-byte form exactly where the distance fits an `i32`, stays
    within the largest hook, and lands at its target. With any register the encoders of
    the long form give `mov r, imm64; jmp r`, which lands at `imm64`. -/
theorem emittedJumps_land (isa : Isa) :
    (∀ stub target : VirtAddr,
      FitsI64 (stub.val.toInt + hookSizeRelative) ∧ FitsI64 (distance stub target) ∧
      ((createAssemblyJump stub.val target.val).length = hookSizeRelative ↔
        -2^31 ≤ distance stub target ∧ distance stub target < 2^31) ∧
      (createAssemblyJump stub.val target.val).length ≤ maxHookSize ∧
      ∀ (code : Mem 64) (c : Cpu),
        read code stub.val (createAssemblyJump stub.val target.val).length =
          createAssemblyJump stub.val target.val →
        ∃ n c', run isa code n ⟨stub.val, c⟩ = some ⟨target.val, c'⟩ ∧
          Kept ((createAssemblyJump stub.val target.val).length = hookSizeRelative) c c') ∧
    ∀ (r : Register) (imm64 : BitVec 64),
      (∀ rest, movImm64 (createMovImmediat r imm64 ++ rest) = some (r, imm64) ∧
        jmpReg (jmpOnReg r ++ rest) = some r) ∧
      ∀ (code : Mem 64) (a : BitVec 64) (c : Cpu),
        read code a (createMovImmediat r imm64 ++ jmpOnReg r).length =
          createMovImmediat r imm64 ++ jmpOnReg r →
        run isa code 2 ⟨a, c⟩ = some ⟨imm64, c.setReg r imm64⟩ := by
  constructor
  · intro stub target
    obtain ⟨hend, hdist⟩ := distance_fits stub target
    have hlen := createAssemblyJump_length stub.val target.val
    have hshort : (createAssemblyJump stub.val target.val).length = hookSizeRelative ↔
        Near stub.val target.val := by
      rw [hlen]
      unfold hookSizeRelative
      split <;> simp [*]
    refine ⟨hend, hdist, hshort.trans (near_iff_distance stub target), ?_, fun code c h => ?_⟩
    · rw [hlen]
      split <;> decide
    · rw [hshort]
      exact ⟨_, _, run_jump h c, jump_kept _ c target.val⟩
  · intro r imm64
    refine ⟨fun rest => ⟨movImmediat_decode r imm64 rest, (jmpOnReg_decode r rest).2.2⟩, ?_⟩
    exact fun code a c h => run_longJump isa h c

namespace KHook

def hookVa : VirtAddr := ⟨0xFFFFF80000001000#64, by decide⟩

def zeroCpu : Cpu := ⟨fun _ => 0, 0, fun _ => 0⟩

end KHook

def stubVa : VirtAddr := ⟨0xFFFFA00000000000#64, by decide⟩

/-- From the pool to the image, out of reach of the short form. -/
theorem emittedJumps_land_far : ∃ n c', run (fun _ _ => none)
    (write (fun _ => 0) stubVa.val (createAssemblyJump stubVa.val hookVa.val)) n
      ⟨stubVa.val, zeroCpu⟩ = some ⟨hookVa.val, c'⟩ ∧
    Kept ((createAssemblyJump stubVa.val hookVa.val).length = hookSizeRelative) zeroCpu c' :=
  ((emittedJumps_land (fun _ _ => none)).1 stubVa hookVa).2.2.2.2 _ zeroCpu (by decide)

end WinKernl
