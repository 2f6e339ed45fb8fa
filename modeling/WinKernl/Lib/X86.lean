import WinKernl.Lib.ByteMem

/- The fragment of x86-64 that an inline hook is made of.

   Three encodings are decoded here: `jmp rel32`, `mov r64, imm64` and
   `jmp r64`. Every other instruction is the parameter `isa`, which may give it any
   length and any effect on registers, flags and memory, at any address. Code is
   fetched from an image of its own, so a program does not overwrite itself.

   `run_block` executes a sequence of straight-line instructions: control ends
   behind the last of them, and the effects are applied in order. -/
namespace X86
open ByteMem

/-- The general-purpose registers, in the order of their numbers. -/
inductive Reg where
  | rax | rcx | rdx | rbx | rsp | rbp | rsi | rdi
  | r8 | r9 | r10 | r11 | r12 | r13 | r14 | r15
  deriving DecidableEq, Repr

/-- The register of a REX extension bit and the three bits of an opcode or a ModRM byte. -/
def Reg.ofBits : Bool → BitVec 3 → Reg
  | false, b => match b.toFin with
    | 0 => .rax | 1 => .rcx | 2 => .rdx | 3 => .rbx | 4 => .rsp | 5 => .rbp | 6 => .rsi | 7 => .rdi
  | true, b => match b.toFin with
    | 0 => .r8 | 1 => .r9 | 2 => .r10 | 3 => .r11 | 4 => .r12 | 5 => .r13 | 6 => .r14 | 7 => .r15

/-- What instructions compute on: registers, flags and data memory. -/
@[ext] structure Cpu where
  reg : Reg → BitVec 64
  flags : BitVec 64
  mem : Mem 64

def Cpu.setReg (c : Cpu) (r : Reg) (v : BitVec 64) : Cpu :=
  { c with reg := fun q => if q = r then v else c.reg q }

@[simp] theorem Cpu.setReg_same (c : Cpu) (r : Reg) (v : BitVec 64) : (c.setReg r v).reg r = v :=
  if_pos rfl

@[simp] theorem Cpu.setReg_other (c : Cpu) {q r : Reg} (v : BitVec 64) (h : q ≠ r) :
    (c.setReg r v).reg q = c.reg q :=
  if_neg h

/-- Setting a register changes nothing exactly when it held the value. -/
theorem Cpu.setReg_eq_self (c : Cpu) (r : Reg) (v : BitVec 64) : c.setReg r v = c ↔ c.reg r = v := by
  refine ⟨fun h => ?_, fun h => ?_⟩
  · rw [← Cpu.setReg_same c r v, h]
  · apply Cpu.ext
    · funext q
      by_cases hq : q = r
      · rw [hq, Cpu.setReg_same, h]
      · rw [Cpu.setReg_other c v hq]
    · rfl
    · rfl

structure Machine where
  rip : BitVec 64
  cpu : Cpu

/-- What one instruction does: go on behind its bytes, or jump. -/
inductive Effect where
  | next (len : Nat) (f : Cpu → Cpu)
  | jump (target : Cpu → BitVec 64)

/-- The instructions not decoded here, by their address and the bytes found there. -/
abbrev Isa := BitVec 64 → List Byte → Option (Nat × (Cpu → Cpu))

/-! Decoding. -/

/-- `E9 rel32`. -/
def jmpRel32 : List Byte → Option (BitVec 32)
  | op :: tail =>
    if op = 0xE9#8 ∧ 4 ≤ tail.length then some (BitVec.ofNat 32 (ofLE (tail.take 4))) else none
  | [] => none

/-- `REX.W B8+r imm64`. -/
def movImm64 : List Byte → Option (Reg × BitVec 64)
  | rex :: op :: tail =>
    if (rex = 0x48#8 ∨ rex = 0x49#8) ∧ op.extractLsb' 3 5 = 0b10111#5 ∧ 8 ≤ tail.length then
      some (.ofBits (rex.getLsbD 0) (op.extractLsb' 0 3), BitVec.ofNat 64 (ofLE (tail.take 8)))
    else none
  | _ => none

/-- `FF /4` on a register, with a REX.B prefix or without. -/
def jmpReg : List Byte → Option Reg
  | a :: b :: tail =>
    if a = 0xFF#8 ∧ b.extractLsb' 3 5 = 0b11100#5 then some (.ofBits false (b.extractLsb' 0 3)) else
    match tail with
    | c :: _ =>
      if a = 0x41#8 ∧ b = 0xFF#8 ∧ c.extractLsb' 3 5 = 0b11100#5 then
        some (.ofBits true (c.extractLsb' 0 3))
      else none
    | [] => none
  | _ => none

def decode (isa : Isa) (rip : BitVec 64) (bs : List Byte) : Option Effect :=
  match jmpRel32 bs with
  | some rel => some (.jump fun _ => rip + 5#64 + rel.signExtend 64)
  | none =>
    match movImm64 bs with
    | some (r, v) => some (.next 10 (·.setReg r v))
    | none =>
      match jmpReg bs with
      | some r => some (.jump (·.reg r))
      | none => (isa rip bs).map fun x => .next x.1 x.2

/-! Execution. -/

section
variable (isa : Isa) (code : Mem 64)

/-- An instruction has at most fifteen bytes. -/
def step (m : Machine) : Option Machine :=
  match decode isa m.rip (read code m.rip 15) with
  | some (.next len f) => some ⟨m.rip + BitVec.ofNat 64 len, f m.cpu⟩
  | some (.jump target) => some ⟨target m.cpu, m.cpu⟩
  | none => none

def run : Nat → Machine → Option Machine
  | 0, m => some m
  | n + 1, m => (step isa code m).bind (run n)

theorem run_add (n k : Nat) (m : Machine) :
    run isa code (n + k) m = (run isa code n m).bind (run isa code k) := by
  induction n generalizing m with
  | zero => rw [Nat.zero_add]; rfl
  | succ n ih =>
    rw [Nat.succ_add]
    simp only [run, Option.bind_assoc]
    congr 1
    funext m'
    exact ih m'

end

/-- The bytes `bs` at `rip` are one instruction that goes on behind them with effect `f`. -/
def Executes (isa : Isa) (rip : BitVec 64) (bs : List Byte) (f : Cpu → Cpu) : Prop :=
  ∀ rest, decode isa rip (bs ++ rest) = some (.next bs.length f)

/-- The byte strings `bss`, one behind the other from `rip` on, are straight-line
    instructions with the effects `fs`. -/
def Block (isa : Isa) : BitVec 64 → List (List Byte) → List (Cpu → Cpu) → Prop
  | _, [], [] => True
  | rip, bs :: bss, f :: fs =>
    bs.length ≤ 15 ∧ Executes isa rip bs f ∧ Block isa (rip + BitVec.ofNat 64 bs.length) bss fs
  | _, _, _ => False

/-- The effects of a block, in order. -/
def applyAll (fs : List (Cpu → Cpu)) (c : Cpu) : Cpu := fs.foldl (fun c f => f c) c

section
variable {isa : Isa} {code : Mem 64}

/-- What is fetched at an instruction begins with its bytes. -/
theorem fetch_append {a : BitVec 64} {bs : List Byte} (hlen : bs.length ≤ 15)
    (h : read code a bs.length = bs) : ∃ rest, read code a 15 = bs ++ rest := by
  refine ⟨read code (a + BitVec.ofNat 64 bs.length) (15 - bs.length), ?_⟩
  rw [show 15 = bs.length + (15 - bs.length) by omega, read_add, h,
    show bs.length + (15 - bs.length) - bs.length = 15 - bs.length by omega]

theorem step_executes {rip : BitVec 64} {bs : List Byte} {f : Cpu → Cpu} (hlen : bs.length ≤ 15)
    (h : read code rip bs.length = bs) (hx : Executes isa rip bs f) (c : Cpu) :
    step isa code ⟨rip, c⟩ = some ⟨rip + BitVec.ofNat 64 bs.length, f c⟩ := by
  obtain ⟨rest, hrest⟩ := fetch_append hlen h
  simp only [step, hrest, hx rest]

/-- **A block runs to its end**, with the effects of its instructions in order. -/
theorem run_block {bss : List (List Byte)} {fs : List (Cpu → Cpu)} {rip : BitVec 64}
    (hb : Block isa rip bss fs) (h : read code rip bss.flatten.length = bss.flatten) (c : Cpu) :
    run isa code bss.length ⟨rip, c⟩ =
      some ⟨rip + BitVec.ofNat 64 bss.flatten.length, applyAll fs c⟩ := by
  induction bss generalizing rip fs c with
  | nil =>
    cases fs with
    | nil => simp [run, applyAll]
    | cons f fs => exact absurd hb id
  | cons bs bss ih =>
    cases fs with
    | nil => exact absurd hb id
    | cons f fs =>
      obtain ⟨hlen, hx, hrest⟩ := hb
      rw [List.flatten_cons, List.length_append, read_add] at h
      obtain ⟨hhead, htail⟩ := List.append_inj h (read_length _ _ _)
      have hend : rip + BitVec.ofNat 64 bs.length + BitVec.ofNat 64 bss.flatten.length =
          rip + BitVec.ofNat 64 (bs :: bss).flatten.length := by
        rw [List.flatten_cons, List.length_append, BitVec.ofNat_add, BitVec.add_assoc]
      calc run isa code (bs :: bss).length ⟨rip, c⟩
          _ = run isa code bss.length ⟨rip + BitVec.ofNat 64 bs.length, f c⟩ := by
            rw [List.length_cons, run, step_executes hlen hhead hx, Option.bind_some]
          _ = some ⟨rip + BitVec.ofNat 64 bs.length + BitVec.ofNat 64 bss.flatten.length,
                applyAll fs (f c)⟩ := ih hrest htail (f c)
          _ = some ⟨rip + BitVec.ofNat 64 (bs :: bss).flatten.length, applyAll (f :: fs) c⟩ := by
            rw [hend]
            rfl

/-! The three encodings. -/

theorem step_jmpRel32 {a : BitVec 64} {rel : BitVec 32}
    (h : read code a 5 = 0xE9#8 :: toLE 4 rel.toNat) (c : Cpu) :
    step isa code ⟨a, c⟩ = some ⟨a + 5#64 + rel.signExtend 64, c⟩ := by
  have hlen : (0xE9#8 :: toLE 4 rel.toNat).length ≤ 15 := by simp
  obtain ⟨rest, hrest⟩ := fetch_append hlen h
  have hrel : BitVec.ofNat 32 (ofLE (toLE 4 rel.toNat)) = rel := by
    rw [ofLE_toLE, show (256 : Nat)^4 = 2^32 by norm_num, Nat.mod_eq_of_lt rel.isLt,
      BitVec.ofNat_toNat, BitVec.setWidth_eq]
  have hd : jmpRel32 (0xE9#8 :: toLE 4 rel.toNat ++ rest) = some rel := by
    rw [List.cons_append, jmpRel32, if_pos ⟨rfl, by simp⟩, List.take_left' (toLE_length _ _), hrel]
  simp only [step, hrest, decode, hd]

theorem executes_movImm64 (rex op : Byte) (v : BitVec 64) (hrex : rex = 0x48#8 ∨ rex = 0x49#8)
    (hop : op.extractLsb' 3 5 = 0b10111#5) (rip : BitVec 64) :
    Executes isa rip (rex :: op :: toLE 8 v.toNat)
      (·.setReg (.ofBits (rex.getLsbD 0) (op.extractLsb' 0 3)) v) := by
  intro rest
  have hne : rex ≠ 0xE9#8 := by rcases hrex with rfl | rfl <;> decide
  have hj : jmpRel32 (rex :: op :: toLE 8 v.toNat ++ rest) = none := by
    rw [List.cons_append, jmpRel32, if_neg (fun h => hne h.1)]
  have hm : movImm64 (rex :: op :: toLE 8 v.toNat ++ rest) =
      some (.ofBits (rex.getLsbD 0) (op.extractLsb' 0 3), v) := by
    rw [List.cons_append, List.cons_append, movImm64, if_pos ⟨hrex, hop, by simp⟩,
      List.take_left' (toLE_length _ _), ofLE_word]
  simp only [decode, hj, hm, List.length_cons, toLE_length]

theorem step_jmpReg {a : BitVec 64} {n : Nat} {bs : List Byte} {r : Reg} (hn : bs.length = n)
    (hlen : n ≤ 15) (h : read code a n = bs)
    (hd : ∀ rest, jmpRel32 (bs ++ rest) = none ∧ movImm64 (bs ++ rest) = none ∧
      jmpReg (bs ++ rest) = some r) (c : Cpu) :
    step isa code ⟨a, c⟩ = some ⟨c.reg r, c⟩ := by
  subst hn
  obtain ⟨rest, hrest⟩ := fetch_append hlen h
  obtain ⟨hj, hm, hr⟩ := hd rest
  simp only [step, hrest, decode, hj, hm, hr]

end
end X86
