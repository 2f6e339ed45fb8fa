import WinKernl.Lib.Ends
import WinKernl.Mdl
import WinKernl.PageWalk

/- Copies through the kernel (`memory/rw.rs`, `memory/pagewalk/winimpl.rs`).

   Correspondence (Rust ↔ Lean):
     `mm_read_virtual_memory_from_pid`   ↔ `mmReadVirtualMemoryFromPid`
     `mm_write_virtual_memory_from_pid`  ↔ `mmWriteVirtualMemoryFromPid`
     `read_physical_sys`                 ↔ `readPhysicalSys`
     `translate_va_to_pa_sys`            ↔ `translateVaToPaSys`
     `SysPhysReader` and its methods     ↔ `SysPhysReader`
     calls to the kernel, reads of CR3   ↔ the requests `CopyReq`
   The two copies between processes differ in the direction only. A slice is its address and
   its length; the kernel fills it, and who reads it afterwards asks for its bytes. A copy
   reports a status and a number of bytes, and nothing ties the one to the other. -/
namespace WinKernl
open ByteMem Ask

def statusUnsuccessful : NtStatus := 0xC0000001#32
def statusBufferTooSmall : NtStatus := 0xC0000023#32
def mmCopyMemoryPhysical : BitVec 32 := 1

/-- `&[u8]` or `&mut [u8]`. -/
structure Slice where
  ptr : BitVec 64
  len : BitVec 64
  deriving DecidableEq, Repr

/-- The arguments of `MmCopyVirtualMemory`. -/
structure CopyArgs where
  fromProcess : BitVec 64
  fromAddress : BitVec 64
  toProcess : BitVec 64
  toAddress : BitVec 64
  bufferSize : BitVec 64
  previousMode : KProcessorMode
  deriving DecidableEq, Repr

inductive CopyReq where
  | psLookupProcessByProcessId (processId : BitVec 64)
  | psGetCurrentProcess
  | mmCopyVirtualMemory (args : CopyArgs)
  | obfDereferenceObject (object : BitVec 64)
  | mmCopyMemory (targetAddress sourceAddress numberOfBytes : BitVec 64) (flags : BitVec 32)
  | cr3Read
  | bytes (slice : Slice)
  deriving DecidableEq

/-- The status of a lookup, and the process it has referenced. -/
structure Lookup where
  status : NtStatus
  process : BitVec 64

/-- The status of a copy, and the number of bytes copied. -/
structure Copied where
  status : NtStatus
  copied : BitVec 64

abbrev CopyReq.Answer : CopyReq → Type
  | .psLookupProcessByProcessId _ => Lookup
  | .psGetCurrentProcess => BitVec 64
  | .mmCopyVirtualMemory _ => Copied
  | .obfDereferenceObject _ => Unit
  | .mmCopyMemory .. => Copied
  | .cr3Read => PhysAddr
  | .bytes slice => { bs : List Byte // bs.length = slice.len.toNat }

abbrev CopyProg (ε α : Type) := Prog CopyReq CopyReq.Answer ε α

/-- The tests behind a copy between processes. -/
def checkCopied (len : BitVec 64) (r : Copied) : CopyProg NtStatus Unit :=
  if !ntSuccess r.status then .err r.status else
  if r.copied = 0 then .err statusUnsuccessful else
  if r.copied ≠ len then .err statusBufferTooSmall else
  .ok ()

/-- What the two copies between processes have in common. -/
def copyWithPid (pid len : BitVec 64) (args : (process current : BitVec 64) → CopyArgs) :
    CopyProg NtStatus Unit :=
  .ask (.psLookupProcessByProcessId pid) fun lookup =>
  if !ntSuccess lookup.status then .err lookup.status else
  .ask .psGetCurrentProcess fun current =>
  .ask (.mmCopyVirtualMemory (args lookup.process current)) fun r =>
  .ask (.obfDereferenceObject lookup.process) fun _ => checkCopied len r

def mmReadVirtualMemoryFromPid (pid addr : BitVec 64) (out : Slice) : CopyProg NtStatus Unit :=
  copyWithPid pid out.len fun srcProcess current =>
    ⟨srcProcess, addr, current, out.ptr, out.len, 0⟩

def mmWriteVirtualMemoryFromPid (pid addr : BitVec 64) (buffer : Slice) :
    CopyProg NtStatus Unit :=
  copyWithPid pid buffer.len fun targetProcess current =>
    ⟨current, buffer.ptr, targetProcess, addr, buffer.len, 0⟩

def readPhysicalSys (physicalAddress : PhysAddr) (buffer : Slice) : CopyProg NtStatus Unit :=
  .ask (.mmCopyMemory buffer.ptr physicalAddress.val buffer.len mmCopyMemoryPhysical) fun r =>
  if ntSuccess r.status ∧ r.copied = buffer.len then .ok () else .err r.status

/-! The page walker over `MmCopyMemory`. -/

section
variable (buf : BitVec 64)

/-- One call of the walker's callback, with its buffer at `buf`. -/
def sysRead {ε : Type} (q : ReadReq) : CopyProg ε (Except NtStatus (List Byte)) :=
  let buffer : Slice := ⟨buf, BitVec.ofNat 64 q.len⟩
  (readPhysicalSys q.phys buffer >>= fun _ =>
    .ask (.bytes buffer) fun bs => .ok bs.val).attempt

def translateVaToPaSys (va : VirtAddr) : CopyProg (WalkErr NtStatus) (PhysAddr × PageLevel) :=
  .ask .cr3Read fun cr3 => (virtualToPhysical cr3 va).via (sysRead buf)

structure SysPhysReader where
  cr3 : PhysAddr
  deriving DecidableEq

namespace SysPhysReader

def new {ε : Type} : CopyProg ε SysPhysReader := .ask .cr3Read fun cr3 => .ok ⟨cr3⟩

def getAddressOfLevel (self : SysPhysReader) (va : VirtAddr) (level : PageLevel) :
    CopyProg (WalkLevelErr NtStatus) PhysAddr :=
  (WinKernl.getAddressOfLevel self.cr3 va level).via (sysRead buf)

def virtualToPhysical (self : SysPhysReader) (va : VirtAddr) :
    CopyProg (WalkErr NtStatus) (PhysAddr × PageLevel) :=
  (WinKernl.virtualToPhysical self.cr3 va).via (sysRead buf)

end SysPhysReader
end

/-! What the kernel reported. -/

/-- A call to the kernel, with its answer. -/
abbrev KernelCall := Sigma CopyReq.Answer

/-- The call did not report a failure. -/
def Succeeded : KernelCall → Prop
  | ⟨.psLookupProcessByProcessId _, lookup⟩ => ntSuccess lookup.status = true
  | ⟨.mmCopyVirtualMemory _, r⟩ => ntSuccess r.status = true
  | ⟨.mmCopyMemory _ _ _ _, r⟩ => ntSuccess r.status = true
  | _ => True

/-- The call, if it is a copy, has copied all it was to copy. -/
def Complete : KernelCall → Prop
  | ⟨.mmCopyVirtualMemory args, r⟩ => r.copied = args.bufferSize
  | ⟨.mmCopyMemory _ _ numberOfBytes _, r⟩ => r.copied = numberOfBytes
  | _ => True

/-- `MmCopyMemory` does not report success for a part of the bytes. -/
def Honest : (q : CopyReq) → q.Answer → Prop
  | .mmCopyMemory _ _ numberOfBytes _, r => ntSuccess r.status = true → r.copied = numberOfBytes
  | _, _ => True

/-- The process a call has referenced. -/
def obtained : KernelCall → Option (BitVec 64)
  | ⟨.psLookupProcessByProcessId _, lookup⟩ =>
    if ntSuccess lookup.status then some lookup.process else none
  | _ => none

/-- The process whose reference a call has released. -/
def released : KernelCall → Option (BitVec 64)
  | ⟨.obfDereferenceObject object, _⟩ => some object
  | _ => none

/-- Every reference is released, and none twice. -/
def Balanced (calls : List KernelCall) : Prop :=
  calls.filterMap obtained = calls.filterMap released

/-! The copies between processes. -/

/-- How a copy between processes ends once the kernel has reported `r`. -/
inductive CopyEnd (len : BitVec 64) (r : Copied) : Outcome NtStatus Unit → Prop where
  | failed (hstatus : ntSuccess r.status = false) : CopyEnd len r (.err r.status)
  | nothing (hstatus : ntSuccess r.status = true) (hzero : r.copied = 0) :
      CopyEnd len r (.err statusUnsuccessful)
  | part (hstatus : ntSuccess r.status = true) (hne : r.copied ≠ len) :
      CopyEnd len r (.err statusBufferTooSmall)
  | whole (hstatus : ntSuccess r.status = true) (hzero : r.copied ≠ 0) (hlen : r.copied = len) :
      CopyEnd len r (.ok ())

/-- The calls of a copy between processes, and how it ends. -/
inductive CopyRun (pid len : BitVec 64) (args : (process current : BitVec 64) → CopyArgs) :
    List KernelCall → Outcome NtStatus Unit → Prop where
  | noProcess {lookup : Lookup} (hstatus : ntSuccess lookup.status = false) :
      CopyRun pid len args [⟨.psLookupProcessByProcessId pid, lookup⟩] (.err lookup.status)
  | copied {lookup : Lookup} {current : BitVec 64} {r : Copied} {o : Outcome NtStatus Unit}
      (hstatus : ntSuccess lookup.status = true) (hend : CopyEnd len r o) :
      CopyRun pid len args
        [⟨.psLookupProcessByProcessId pid, lookup⟩, ⟨.psGetCurrentProcess, current⟩,
          ⟨.mmCopyVirtualMemory (args lookup.process current), r⟩,
          ⟨.obfDereferenceObject lookup.process, ()⟩] o

section
variable {pid len : BitVec 64} {args : (process current : BitVec 64) → CopyArgs}

theorem checkCopied_end (len : BitVec 64) (r : Copied) (ans : (q : CopyReq) → q.Answer) :
    (checkCopied len r).calls ans = [] ∧ CopyEnd len r ((checkCopied len r).result ans) := by
  unfold checkCopied
  cases hstatus : ntSuccess r.status with
  | false => exact ⟨rfl, .failed hstatus⟩
  | true =>
    rw [Bool.not_true, if_neg Bool.false_ne_true]
    split
    · next hzero => exact ⟨rfl, .nothing hstatus hzero⟩
    · next hzero =>
      split
      · next hne => exact ⟨rfl, .part hstatus hne⟩
      · next heq => exact ⟨rfl, .whole hstatus hzero (not_not.mp heq)⟩

theorem copyWithPid_run (pid len : BitVec 64)
    (args : (process current : BitVec 64) → CopyArgs) (ans : (q : CopyReq) → q.Answer) :
    CopyRun pid len args ((copyWithPid pid len args).calls ans)
      ((copyWithPid pid len args).result ans) := by
  rw [copyWithPid, Prog.calls_ask, Prog.result_ask]
  generalize ans (.psLookupProcessByProcessId pid) = lookup
  cases hstatus : ntSuccess lookup.status with
  | false => exact .noProcess hstatus
  | true =>
    rw [Bool.not_true, if_neg Bool.false_ne_true]
    simp only [Prog.calls_ask, Prog.result_ask]
    obtain ⟨hcalls, hend⟩ := checkCopied_end len (ans (.mmCopyVirtualMemory
      (args lookup.process (ans .psGetCurrentProcess)))) ans
    rw [hcalls]
    exact .copied hstatus hend

variable {calls : List KernelCall} {o : Outcome NtStatus Unit}

theorem CopyEnd.ok_iff {r : Copied} (h : CopyEnd len r o) :
    o = .ok () ↔ len ≠ 0 ∧ ntSuccess r.status = true ∧ r.copied = len := by
  cases h with
  | failed hstatus => simp [hstatus]
  | nothing hstatus hzero =>
    refine iff_of_false (by simp) fun hwhole => ?_
    obtain ⟨hne, -, hlen⟩ := hwhole
    exact hne (hlen.symm.trans hzero)
  | part hstatus hne => simp [hne]
  | whole hstatus hzero hlen => exact iff_of_true rfl ⟨hlen ▸ hzero, hstatus, hlen⟩

theorem CopyRun.ok_iff (hlen : ∀ p c, (args p c).bufferSize = len)
    (h : CopyRun pid len args calls o) :
    o = .ok () ↔ len ≠ 0 ∧ ∀ c ∈ calls, Succeeded c ∧ Complete c := by
  cases h with
  | noProcess hstatus => simp [Succeeded, hstatus]
  | copied hstatus hend => simp [hend.ok_iff, Succeeded, Complete, hstatus, hlen]

theorem CopyRun.err {s : NtStatus} (h : CopyRun pid len args calls (.err s)) :
    ntSuccess s = false := by
  cases h with
  | noProcess hstatus => exact hstatus
  | copied _ hend =>
    cases hend with
    | failed hstatus => exact hstatus
    | nothing => rfl
    | part => rfl

theorem CopyRun.balanced (h : CopyRun pid len args calls o) : Balanced calls := by
  cases h with
  | noProcess hstatus => exact List.filterMap_cons_none (by simp [obtained, hstatus])
  | copied hstatus => exact List.filterMap_cons_some (if_pos hstatus)

end

/-! The physical read. -/

theorem readPhysicalSys_ok_iff (phys : PhysAddr) (buffer : Slice) (ans : (q : CopyReq) → q.Answer) :
    (readPhysicalSys phys buffer).result ans = .ok () ↔
      ∀ c ∈ (readPhysicalSys phys buffer).calls ans, Succeeded c ∧ Complete c := by
  rw [readPhysicalSys, Prog.calls_ask, Prog.result_ask]
  generalize ans (.mmCopyMemory _ _ _ _) = r
  split
  · next hwhole => simp [Succeeded, Complete, hwhole]
  · next hpart =>
    refine iff_of_false nofun fun hall => hpart ?_
    exact (List.forall_mem_cons.mp hall).1

/-- It references nothing. -/
theorem readPhysicalSys_balanced (phys : PhysAddr) (buffer : Slice)
    (ans : (q : CopyReq) → q.Answer) : Balanced ((readPhysicalSys phys buffer).calls ans) := by
  rw [readPhysicalSys, Prog.calls_ask]
  split <;> rfl

theorem readPhysicalSys_errs (phys : PhysAddr) (buffer : Slice) :
    (readPhysicalSys phys buffer).Errs Honest (fun s => ntSuccess s = false) := by
  refine .ask fun r hhonest => .ite (fun _ => .ok ()) fun hpart => .err ?_
  rw [← Bool.not_eq_true]
  exact fun hstatus => hpart ⟨hstatus, hhonest hstatus⟩

/-! Walks. -/

section
variable {E : Type} {F : E → Prop}

/-- The callback fails only as `F` says. -/
def ReadsFail (F : E → Prop) (_ : ReadReq) (r : Except E (List Byte)) : Prop :=
  ∀ e, r = .error e → F e

theorem readPhysicalMemoryT_errs {T : Type} (size : Nat) (ofBytes : List Byte → T)
    (phys : PhysAddr) : (readPhysicalMemoryT size ofBytes phys).Errs (ReadsFail F) F := by
  refine .ask fun r hr => ?_
  cases r with
  | ok buf => exact .ok _
  | error e => exact .err (hr e rfl)

theorem readPageTableEntryE_errs (table : PhysAddr) (idx : BitVec 9) :
    (readPageTableEntryE table idx).Errs (ReadsFail F) fun e => ∀ x, e = .readErr x → F x := by
  refine .bind (.orPanic _) fun phys => ?_
  refine .mapErr (fun e he x hx => ?_) (readPhysicalMemoryT_errs 8 _ phys)
  cases hx
  exact he

theorem readEntry_errs (addr : PhysAddr) :
    (readEntry addr).Errs (ReadsFail F) fun e => ∀ x, e = .walkErr (.readErr x) → F x := by
  refine .mapErr (fun e he x hx => ?_) (readPhysicalMemoryT_errs 8 _ addr)
  cases hx
  exact he

/-- A read error of a walk is one of its callback. -/
theorem virtualToPhysical_errs (pml4Phys : PhysAddr) (va : VirtAddr) :
    (virtualToPhysical pml4Phys va).Errs (ReadsFail F) fun e => ∀ x, e = .readErr x → F x := by
  -- The other errors carry the entry that stopped the walk.
  refine .bind (readPageTableEntryE_errs _ _) fun pml4e => .ite (fun _ => .err nofun) fun _ => ?_
  refine .bind (readPageTableEntryE_errs _ _) fun pdpte => .ite (fun _ => .err nofun) fun _ => ?_
  refine .ite (fun _ => .bind (.orPanic _) fun pa => .ok _) fun _ => ?_
  refine .bind (readPageTableEntryE_errs _ _) fun pde => .ite (fun _ => .err nofun) fun _ => ?_
  refine .ite (fun _ => .bind (.orPanic _) fun pa => .ok _) fun _ => ?_
  refine .bind (readPageTableEntryE_errs _ _) fun pte => .ite (fun _ => .err nofun) fun _ => ?_
  exact .bind (.orPanic _) fun pa => .ok _

theorem getAddressOfLevel_errs (pml4Phys : PhysAddr) (va : VirtAddr) (level : PageLevel) :
    (getAddressOfLevel pml4Phys va level).Errs (ReadsFail F) fun e =>
      ∀ x, e = .walkErr (.readErr x) → F x := by
  refine .bind (.orPanic _) fun addr => .ite (fun _ => .ok _) fun _ => ?_
  refine .bind (readEntry_errs _) fun pml4e => .ite (fun _ => .err nofun) fun _ => ?_
  refine .bind (.orPanic _) fun addr => .ite (fun _ => .ok _) fun _ => ?_
  refine .bind (readEntry_errs _) fun pdpte => .ite (fun _ => .err nofun) fun _ => ?_
  refine .ite (fun _ => .err nofun) fun _ => ?_
  refine .bind (.orPanic _) fun addr => .ite (fun _ => .ok _) fun _ => ?_
  refine .bind (readEntry_errs _) fun pde => .ite (fun _ => .err nofun) fun _ => ?_
  refine .ite (fun _ => .err nofun) fun _ => ?_
  refine .bind (.orPanic _) fun addr => .ite (fun _ => .ok _) fun _ => ?_
  refine .bind (readEntry_errs _) fun pte => .ite (fun _ => .err nofun) fun _ => ?_
  exact .orPanic _

end

theorem sysWalk_errs {ε α : Type} {G : ε → Prop} (buf : BitVec 64) {p : Walk NtStatus ε α}
    (hp : p.Errs (ReadsFail fun s => ntSuccess s = false) G) :
    (p.via (sysRead buf)).Errs Honest G := by
  refine Prog.Errs.via_attempt hp fun q => ?_
  exact .bind (readPhysicalSys_errs _ _) fun _ => .ask fun _ _ => .ok _

theorem idleCr3_valid : (0x1000#64).toNat < 2^52 := by decide

/-- A kernel in which every call succeeds, and no copy copies a byte. -/
def idleKernel : (q : CopyReq) → q.Answer
  | .psLookupProcessByProcessId _ => ⟨0, 0xFFFF800000001000#64⟩
  | .psGetCurrentProcess => 0xFFFF800000002000#64
  | .mmCopyVirtualMemory _ => ⟨0, 0⟩
  | .obfDereferenceObject _ => ()
  | .mmCopyMemory _ _ _ _ => ⟨0, 0⟩
  | .cr3Read => ⟨0x1000#64, idleCr3_valid⟩
  | .bytes slice => ⟨List.replicate slice.len.toNat 0#8, List.length_replicate⟩

end WinKernl
