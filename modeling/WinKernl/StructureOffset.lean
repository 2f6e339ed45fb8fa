import WinKernl.Lib.Listing
import WinKernl.Lib.X86
import WinKernl.SystemModules

/- Field offsets out of accessor routines (`process/eprocess.rs`).

   Correspondence (Rust ↔ Lean):
     `iced_x86::Instruction` and what is asked of it ↔ `Instruction`, `mnemonic`, `op0Kind`, ...
     `iced_x86::Decoder`                             ↔ an `InstructionDecoder`
     `find_structure_offset`                         ↔ `findStructureOffset`
     its `while`, on bytes and on instructions       ↔ `decodeLoop`, `scan`
   An instruction is what it does: a move of any width between registers and memory, a
   jump to a place in the routine or out of it, a return, or `other`, which the scan
   passes over and which may do anything. -/
namespace WinKernl
open ByteMem X86 Listing Ask

/-! Instructions. -/

inductive Width where
  | w8 | w16 | w32 | w64
  deriving DecidableEq, Repr

def Width.bytes : Width → Nat
  | .w8 => 1
  | .w16 => 2
  | .w32 => 4
  | .w64 => 8

/-- A register that held `old`, after `v` is moved to its low part: 32 bits clear the
    high half, fewer keep the rest. -/
def Width.merge (w : Width) (old v : BitVec 64) : BitVec 64 :=
  match w with
  | .w8 => (old &&& ~~~0xFF#64) ||| (v &&& 0xFF#64)
  | .w16 => (old &&& ~~~0xFFFF#64) ||| (v &&& 0xFFFF#64)
  | .w32 => v &&& 0xFFFFFFFF#64
  | .w64 => v

/-- `iced_x86::Register`, as far as these operands name one. -/
inductive OpRegister where
  | none
  | rip
  | gpr (w : Width) (r : Reg)
  deriving DecidableEq, Repr

inductive Mnemonic where
  | mov | jmp | ret | other
  deriving DecidableEq, Repr

inductive OpKind where
  | register | memory | other
  deriving DecidableEq, Repr

/-- The base of a memory operand. A RIP-relative one has its target for a displacement. -/
inductive MemBase where
  | none | rip
  | reg (r : Reg)
  deriving DecidableEq, Repr

/-- `segmentBase` is what an FS or GS override adds to the address. -/
structure MemOperand where
  base : MemBase
  index : Option (Reg × Nat)
  displacement : BitVec 64
  segmentBase : BitVec 64
  deriving DecidableEq, Repr

inductive Instruction where
  | movLoad (w : Width) (dst : Reg) (src : MemOperand)
  | movStore (w : Width) (dst : MemOperand) (src : Reg)
  | movReg (w : Width) (dst src : Reg)
  | jmp (target : Cpu → Option Nat)
  | ret
  | other (effect : Cpu → Cpu × Flow)

def MemBase.register : MemBase → OpRegister
  | .none => .none
  | .rip => .rip
  | .reg r => .gpr .w64 r

namespace Instruction

def mnemonic : Instruction → Mnemonic
  | .movLoad .. => .mov
  | .movStore .. => .mov
  | .movReg .. => .mov
  | .jmp _ => .jmp
  | .ret => .ret
  | .other _ => .other

def op0Kind : Instruction → OpKind
  | .movLoad .. => .register
  | .movStore .. => .memory
  | .movReg .. => .register
  | _ => .other

def op0Register : Instruction → OpRegister
  | .movLoad w dst _ => .gpr w dst
  | .movReg w dst _ => .gpr w dst
  | _ => .none

def op1Kind : Instruction → OpKind
  | .movLoad .. => .memory
  | .movStore .. => .register
  | .movReg .. => .register
  | _ => .other

def memoryOperand : Instruction → Option MemOperand
  | .movLoad _ _ src => some src
  | .movStore _ dst _ => some dst
  | _ => none

def memoryBase (i : Instruction) : OpRegister :=
  (i.memoryOperand.map (·.base.register)).getD .none

def memoryIndex (i : Instruction) : OpRegister :=
  ((i.memoryOperand.bind (·.index)).map fun x => .gpr .w64 x.1).getD .none

def memoryDisplacement64 (i : Instruction) : BitVec 64 :=
  (i.memoryOperand.map (·.displacement)).getD 0

/-- The condition of the scan. -/
def IsAccessor (i : Instruction) : Prop :=
  i.mnemonic = .mov ∧ i.op0Kind = .register ∧ i.op0Register = .gpr .w64 .rax ∧
    i.op1Kind = .memory ∧ i.memoryBase = .gpr .w64 .rcx ∧ i.memoryIndex = .none

instance (i : Instruction) : Decidable i.IsAccessor := inferInstanceAs (Decidable (_ ∧ _))

end Instruction

/-- The scan of `find_structure_offset`. -/
def scan : List Instruction → Option (BitVec 64)
  | [] => none
  | instruction :: rest =>
    if instruction.mnemonic = .ret then none else
    if instruction.IsAccessor then some instruction.memoryDisplacement64 else
    scan rest

/-! Execution. -/

/-- The address of a memory operand. -/
def MemOperand.address (m : MemOperand) (c : Cpu) : BitVec 64 :=
  let base := match m.base with
    | .none => 0
    | .rip => 0
    | .reg r => c.reg r
  let index := match m.index with
    | none => 0
    | some (r, scale) => c.reg r * BitVec.ofNat 64 scale
  m.segmentBase + base + index + m.displacement

/-- The `w.bytes` bytes at `a`, as a number. -/
def Width.load (w : Width) (m : Mem 64) (a : BitVec 64) : BitVec 64 :=
  BitVec.ofNat 64 (ofLE (read m a w.bytes))

/-- What an instruction does; the return address is not looked at. -/
def Instruction.exec : Instruction → Cpu → Cpu × Flow
  | .movLoad w dst src, c =>
    (c.setReg dst (w.merge (c.reg dst) (w.load c.mem (src.address c))), .next)
  | .movStore w dst src, c =>
    ({ c with mem := write c.mem (dst.address c) (toLE w.bytes (c.reg src).toNat) }, .next)
  | .movReg w dst src, c => (c.setReg dst (w.merge (c.reg dst) (c.reg src)), .next)
  | .jmp target, c => (c, ((target c).map .goto).getD .leave)
  | .ret, c => (c.setReg .rsp (c.reg .rsp + 8), .ret)
  | .other effect, c => effect c

/-! What the scan finds. -/

/-- `mov rax, [rcx + d]`. -/
def accessor (d segmentBase : BitVec 64) : Instruction :=
  .movLoad .w64 .rax ⟨.reg .rcx, none, d, segmentBase⟩

theorem Instruction.isAccessor_iff {i : Instruction} :
    i.IsAccessor ↔ ∃ d segmentBase, i = accessor d segmentBase := by
  constructor
  · intro h
    obtain ⟨hmov, hreg, hrax, hmem, hbase, hindex⟩ := h
    cases i with
    | movLoad w dst src =>
      obtain ⟨base, index, d, seg⟩ := src
      cases hrax
      refine ⟨d, seg, ?_⟩
      cases base with
      | none => cases hbase
      | rip => cases hbase
      | reg r =>
        cases hbase
        cases index with
        | none => rfl
        | some x => cases hindex
    | movStore w dst src => cases hreg
    | movReg w dst src => cases hmem
    | jmp target => cases hmov
    | ret => cases hmov
    | other effect => cases hmov
  · intro h
    obtain ⟨d, seg, rfl⟩ := h
    exact ⟨rfl, rfl, rfl, rfl, rfl, rfl⟩

/-- The scan goes on behind `i`. -/
def Instruction.Passed (i : Instruction) : Prop := i.mnemonic ≠ .ret ∧ ¬ i.IsAccessor

theorem scan_accessor (d seg : BitVec 64) (rest : List Instruction) :
    scan (accessor d seg :: rest) = some d := by
  rw [scan, if_neg nofun, if_pos (Instruction.isAccessor_iff.mpr ⟨d, seg, rfl⟩)]
  rfl

theorem scan_passed {i : Instruction} (hi : i.Passed) (rest : List Instruction) :
    scan (i :: rest) = scan rest := by
  rw [scan, if_neg hi.1, if_neg hi.2]

/-- The scan finds the first accessor, where no return stands in front of it. -/
theorem scan_iff {code : List Instruction} {d : BitVec 64} :
    scan code = some d ↔
      ∃ pre seg rest, code = pre ++ accessor d seg :: rest ∧ ∀ i ∈ pre, i.Passed := by
  constructor
  · intro h
    induction code with
    | nil => cases h
    | cons i code ih =>
      rw [scan] at h
      split at h
      · cases h
      · next hret =>
        split at h
        · next hacc =>
          obtain ⟨d', seg, rfl⟩ := Instruction.isAccessor_iff.mp hacc
          obtain rfl : d' = d := Option.some.inj h
          exact ⟨[], seg, code, rfl, by simp⟩
        · next hacc =>
          obtain ⟨pre, seg, rest, hcode, hpre⟩ := ih h
          refine ⟨i :: pre, seg, rest, by rw [hcode]; rfl, ?_⟩
          intro j hj
          rcases List.mem_cons.mp hj with hj | hj
          · exact hj ▸ ⟨hret, hacc⟩
          · exact hpre j hj
  · intro h
    obtain ⟨pre, seg, rest, rfl, hpre⟩ := h
    induction pre with
    | nil => exact scan_accessor d seg rest
    | cons i pre ih =>
      rw [List.cons_append, scan_passed (hpre i List.mem_cons_self)]
      exact ih fun j hj => hpre j (List.mem_cons_of_mem i hj)

/-! What the routine returns. -/

/-- Entered in `c`, the routine returns the word at RCX + `d` in RAX. -/
def ReturnsField (code : List Instruction) (d : BitVec 64) (c : Cpu) : Prop :=
  ∃ c', Finishes Instruction.exec code c c' ∧
    c'.reg .rax = readWord c.mem (c.reg .rcx + d)

/-- Entered in `c`, control comes to instruction `k` with RCX and the word at RCX + `d` as
    on entry, and from behind it, with that word in RAX, to a return with RAX unchanged. -/
def Undisturbed (code : List Instruction) (k : Nat) (d : BitVec 64) (c : Cpu) : Prop :=
  let field := readWord c.mem (c.reg .rcx + d)
  ∃ c₁ k₂ c₂, Reaches Instruction.exec code 0 c k c₁ ∧
    c₁.reg .rcx = c.reg .rcx ∧ readWord c₁.mem (c.reg .rcx + d) = field ∧
    Reaches Instruction.exec code (k + 1) (c₁.setReg .rax field) k₂ c₂ ∧
    code[k₂]? = some .ret ∧ c₂.reg .rax = field

theorem accessor_exec (d : BitVec 64) (c : Cpu) : (accessor d 0).exec c =
    (c.setReg .rax (readWord c.mem (c.reg .rcx + d)), .next) := by
  have haddress : (⟨.reg .rcx, none, d, 0⟩ : MemOperand).address c = c.reg .rcx + d := by
    simp [MemOperand.address]
  rw [accessor, Instruction.exec, haddress]
  rfl

/-- An undisturbed accessor without a segment override returns its field. -/
theorem returnsField_of_undisturbed {code : List Instruction} {k : Nat} {d : BitVec 64} {c : Cpu}
    (hk : code[k]? = some (accessor d 0)) (h : Undisturbed code k d c) : ReturnsField code d c := by
  obtain ⟨c₁, k₂, c₂, hto, hrcx, hfield, hfrom, hret, hrax⟩ := h
  have hload : (accessor d 0).exec c₁ =
      (c₁.setReg .rax (readWord c.mem (c.reg .rcx + d)), .next) := by
    rw [accessor_exec, hrcx, hfield]
  refine ⟨_, finishes_of_reaches (hto.trans (.next hk hload hfrom)) hret rfl, ?_⟩
  rw [Cpu.setReg_other c₂ _ (by decide), hrax]

/-- **What a found offset is worth.** It is that of the first accessor, with no return in
    front. Without an FS or GS override the routine returns the field from every entry
    from which control comes to the accessor, and from it to a return, with nothing
    disturbed. The plain accessor has its offset found, and always returns its field. -/
theorem scan_sound_undisturbed :
    (∀ code d, scan code = some d →
      ∃ pre seg rest, code = pre ++ accessor d seg :: rest ∧ (∀ i ∈ pre, i.Passed) ∧
        (seg = 0 → ∀ c, Undisturbed code pre.length d c → ReturnsField code d c)) ∧
    ∀ d tail, scan (accessor d 0 :: .ret :: tail) = some d ∧
      ∀ c, ReturnsField (accessor d 0 :: .ret :: tail) d c := by
  constructor
  · intro code d h
    obtain ⟨pre, seg, rest, rfl, hpre⟩ := scan_iff.mp h
    refine ⟨pre, seg, rest, rfl, hpre, ?_⟩
    -- without an override the load is at RCX plus the displacement
    intro hseg c hplain
    subst hseg
    exact returnsField_of_undisturbed (by simp) hplain
  · intro d tail
    refine ⟨scan_accessor d 0 _, fun c => ?_⟩
    apply @returnsField_of_undisturbed _ 0 d c rfl
    exact ⟨c, 1, _, .refl 0 c, rfl, rfl, .refl 1 _, rfl, Cpu.setReg_same _ _ _⟩

/-! Routines that the scan misreads. -/

/-- RCX is 0, RDX is 8, and each byte of memory is the low byte of its address. -/
def byteCpu : Cpu := ⟨fun r => if r = .rdx then 8 else 0, 0, fun a => a.setWidth 8⟩

/-- The load at 8 behind a new RCX, behind a store to the field, behind a tail jump, with a
    segment override, and in front of a new RAX. -/
def misread : List (List Instruction) :=
  [[.movReg .w64 .rcx .rdx, accessor 8 0, .ret],
    [.movStore .w64 ⟨.reg .rcx, none, 8, 0⟩ .rdx, accessor 8 0, .ret],
    [.jmp fun _ => none, accessor 8 0, .ret],
    [accessor 8 8, .ret],
    [accessor 8 0, .movReg .w64 .rax .rdx, .ret]]

theorem not_returnsField {code : List Instruction} {d : BitVec 64} {c c' : Cpu} {fuel : Nat}
    (hrun : run Instruction.exec code fuel 0 c = some c')
    (hne : c'.reg .rax ≠ readWord c.mem (c.reg .rcx + d)) : ¬ ReturnsField code d c := by
  intro h
  obtain ⟨c'', hreturns, hrax⟩ := h
  exact hne (finishes_unique ⟨fuel, hrun⟩ hreturns ▸ hrax)

theorem tailJump_leaves {rest : List Instruction} {d : BitVec 64} {c : Cpu} :
    ¬ ReturnsField (.jmp (fun _ => none) :: rest) d c := by
  intro h
  obtain ⟨c', ⟨fuel, hrun⟩, -⟩ := h
  cases fuel with
  | zero => cases hrun
  | succ fuel => cases hrun

/-- Each of them has the offset 8 found, and does not return the field. -/
theorem scan_misreads : (¬ ∀ code d, scan code = some d → ∀ c, ReturnsField code d c) ∧
    ∀ code ∈ misread, scan code = some 8#64 ∧ ¬ ReturnsField code 8#64 byteCpu := by
  have hall : ∀ code ∈ misread, scan code = some 8#64 ∧ ¬ ReturnsField code 8#64 byteCpu := by
    intro code hcode
    simp only [misread, List.mem_cons, List.not_mem_nil, or_false] at hcode
    rcases hcode with rfl | rfl | rfl | rfl | rfl
    · exact ⟨rfl, @not_returnsField _ _ _ _ 3 rfl (by decide)⟩
    · exact ⟨rfl, @not_returnsField _ _ _ _ 3 rfl (by decide)⟩
    · exact ⟨rfl, tailJump_leaves⟩
    · exact ⟨rfl, @not_returnsField _ _ _ _ 2 rfl (by decide)⟩
    · exact ⟨rfl, @not_returnsField _ _ _ _ 3 rfl (by decide)⟩
  refine ⟨fun hsound => ?_, hall⟩
  obtain ⟨hscan, hnot⟩ := hall _ List.mem_cons_self
  exact hnot (hsound _ _ hscan byteCpu)

/-! The bytes of the routine. -/

namespace StructureOffset

def pageSize : Nat := 4096

/-- The instruction at an address whose bytes, and those behind it, are given, and its
    length. Bytes that are no instruction are `other`. -/
abbrev InstructionDecoder := BitVec 64 → List Byte → Instruction × { n : Nat // 0 < n }

/-- `while decoder.can_decode()`; each turn takes at least one byte. -/
def decodeLoop (dec : InstructionDecoder) : (fuel : Nat) → BitVec 64 → List Byte →
    Option (BitVec 64)
  | 0, _, _ => none
  | fuel + 1, ip, bs =>
    if bs = [] then none else
    let (instruction, len) := dec ip bs
    if instruction.mnemonic = .ret then none else
    if instruction.IsAccessor then some instruction.memoryDisplacement64 else
    decodeLoop dec fuel (ip + BitVec.ofNat 64 len) (bs.drop len)

def findStructureOffset (dec : InstructionDecoder) (functionAddress : BitVec 64) :
    SystemProg Empty (Option (BitVec 64)) :=
  .ask (.copy functionAddress pageSize) fun buffer =>
  .ok (decodeLoop dec buffer.val.length functionAddress buffer.val)

/-- The instructions that `bs` is decoded into. -/
def decodeAll (dec : InstructionDecoder) : (fuel : Nat) → BitVec 64 → List Byte →
    List Instruction
  | 0, _, _ => []
  | fuel + 1, ip, bs =>
    if bs = [] then [] else
    (dec ip bs).1 ::
      decodeAll dec fuel (ip + BitVec.ofNat 64 (dec ip bs).2) (bs.drop (dec ip bs).2)

section
variable {dec : InstructionDecoder}

/-- The loop on bytes is the scan of the instructions they are decoded into. -/
theorem decodeLoop_eq_scan (fuel : Nat) (ip : BitVec 64) (bs : List Byte) :
    decodeLoop dec fuel ip bs = scan (decodeAll dec fuel ip bs) := by
  induction fuel generalizing ip bs with
  | zero => rfl
  | succ fuel ih =>
    rw [decodeLoop, decodeAll]
    by_cases hbs : bs = []
    · rw [if_pos hbs, if_pos hbs]
      rfl
    · rw [if_neg hbs, if_neg hbs, scan, ← ih]

/-- With a turn for each byte the loop does not end for want of turns. -/
theorem decodeLoop_fuel {fuel fuel' : Nat} {ip : BitVec 64} {bs : List Byte}
    (h : bs.length ≤ fuel) (h' : bs.length ≤ fuel') :
    decodeLoop dec fuel ip bs = decodeLoop dec fuel' ip bs := by
  induction fuel generalizing fuel' ip bs with
  | zero =>
    obtain rfl := List.length_eq_zero_iff.mp (Nat.le_zero.mp h)
    cases fuel' <;> rfl
  | succ fuel ih =>
    by_cases hbs : bs = []
    · subst hbs
      cases fuel' <;> rfl
    · have hpos : 0 < bs.length := List.length_pos_iff.mpr hbs
      obtain ⟨fuel', rfl⟩ := Nat.exists_eq_succ_of_ne_zero (by omega : fuel' ≠ 0)
      have hlen : (bs.drop (dec ip bs).2).length + 1 ≤ bs.length := by
        rw [List.length_drop]
        have := (dec ip bs).2.property
        omega
      have hrest := @ih fuel' (ip + BitVec.ofNat 64 (dec ip bs).2) (bs.drop (dec ip bs).2)
        (by omega) (by omega)
      rw [decodeLoop, decodeLoop, if_neg hbs, if_neg hbs]
      dsimp only
      rw [hrest]

/-- The function is the scan of what the page at the address is decoded into. -/
theorem findStructureOffset_result (a : BitVec 64) (ans : (q : SystemReq) → q.Answer) {fuel : Nat}
    (h : pageSize ≤ fuel) : (findStructureOffset dec a).result ans =
      .ok (scan (decodeAll dec fuel a (ans (.copy a pageSize)).val)) := by
  have hlen : (ans (.copy a pageSize)).val.length ≤ fuel := by
    rw [(ans (.copy a pageSize)).property]
    exact h
  rw [← decodeLoop_eq_scan, decodeLoop_fuel hlen (Nat.le_refl _)]
  rfl

end

/-- `x` is a byte that the request reads. -/
def Touches : SystemReq → BitVec 64 → Prop
  | .copy a n, x => Within a n x
  | .readPointer a, x => Within a 8 x
  | _, _ => False

/-- The program returns, and has read no byte that is not mapped. -/
def Completes {α : Type} (mapped : BitVec 64 → Prop) (p : SystemProg Empty α)
    (ans : (q : SystemReq) → q.Answer) : Prop :=
  (∃ a, p.result ans = .ok a) ∧ ∀ q ∈ p.trace ans, ∀ x, Touches q x → mapped x

/-- **Where offset discovery does not fault.** On the address of a routine the function
    completes exactly when all the bytes of a page from there on are mapped. -/
theorem findStructureOffset_completes_iff (dec : InstructionDecoder)
    (ans : (q : SystemReq) → q.Answer) (mapped : BitVec 64 → Prop) (a : BitVec 64) :
    Completes mapped (findStructureOffset dec a) ans ↔ ∀ x, Within a pageSize x → mapped x := by
  constructor
  · intro h
    exact h.2 _ List.mem_cons_self
  · intro h
    refine ⟨⟨_, rfl⟩, fun q hq => ?_⟩
    -- the copy is all that is read
    obtain rfl := List.mem_singleton.mp hq
    exact h

/-- The instruction in memory at an address, and its length. -/
def instructionAt (dec : InstructionDecoder) (mem : Mem 64) (a : BitVec 64) :
    Instruction × { n : Nat // 0 < n } := dec a (read mem a 15)

/-- From `a` up to the first return or accessor the instructions lie in mapped memory. -/
inductive RoutineMapped (dec : InstructionDecoder) (mem : Mem 64) (mapped : BitVec 64 → Prop) :
    BitVec 64 → Prop where
  | last {a : BitVec 64} (hbytes : ∀ x, Within a (instructionAt dec mem a).2 x → mapped x)
      (hend : (instructionAt dec mem a).1.mnemonic = .ret ∨ (instructionAt dec mem a).1.IsAccessor) :
      RoutineMapped dec mem mapped a
  | next {a : BitVec 64} (hbytes : ∀ x, Within a (instructionAt dec mem a).2 x → mapped x)
      (hpassed : (instructionAt dec mem a).1.Passed)
      (hrest : RoutineMapped dec mem mapped
        (a + BitVec.ofNat 64 (instructionAt dec mem a).2)) : RoutineMapped dec mem mapped a

/-! An accessor in the last five bytes of the last mapped page. -/

/-- `48 8B 41 d` and `C3`. -/
def moveDecoder : InstructionDecoder := fun _ bs =>
  if bs.take 3 = [0x48, 0x8B, 0x41] ∧ 4 ≤ bs.length then
    (accessor ((bs.getD 3 0).signExtend 64) 0, ⟨4, by decide⟩)
  else if bs.head? = some 0xC3 then (.ret, ⟨1, by decide⟩)
  else (.other fun c => (c, .next), ⟨1, by decide⟩)

def lastPage : BitVec 64 := 0xFFFFF80000001000#64
def lastBytes : BitVec 64 := 0xFFFFF80000001FFB#64

def LastPageMapped (x : BitVec 64) : Prop := Within lastPage pageSize x

def endMem : Mem 64 := write (fun _ => 0) lastBytes [0x48, 0x8B, 0x41, 0x10, 0xC3]

def endAnswer : (q : SystemReq) → q.Answer
  | .zwQuerySystemInformation _ => ⟨0, 0, []⟩
  | .rtlFindExportedRoutineByName .. => lastBytes
  | .readPointer a => readWord endMem a
  | .copy a n => ⟨read endMem a n, read_length endMem a n⟩

/-- The routine is mapped, and the function reads on behind the page. -/
theorem findStructureOffset_overruns :
    RoutineMapped moveDecoder endMem LastPageMapped lastBytes ∧
      ¬ Completes LastPageMapped (findStructureOffset moveDecoder lastBytes) endAnswer := by
  constructor
  · have hlen : (instructionAt moveDecoder endMem lastBytes).2.val = 4 := by decide
    refine .last (fun x hx => ?_) (.inr (by decide))
    rw [hlen, show lastBytes = lastPage + BitVec.ofNat 64 4091 by decide] at hx
    exact hx.of_add (by decide)
  · intro h
    -- the first byte behind the page is copied, and not mapped
    have hmapped := h.2 _ List.mem_cons_self (lastPage + 4096) (by decide : Within lastBytes 4096 _)
    exact absurd hmapped (by decide : ¬ Within lastPage 4096 _)

end StructureOffset

end WinKernl
