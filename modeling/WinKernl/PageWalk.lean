import WinKernl.Lib.Ask
import WinKernl.PageTable

/- The page walker (`memory/pagewalk/mod.rs`), generic in its read callback.

   Correspondence (Rust ↔ Lean):
     `read_physical_memory_t`             ↔ `readPhysicalMemoryT`
     `read_page_table_entry_e`            ↔ `readPageTableEntryE`
     `virtual_to_physical`                ↔ `virtualToPhysical`
     `get_address_of_level`, `get_pte`    ↔ `getAddressOfLevel`, `getPte`
     one call of `read_physical`          ↔ one request `ReadReq`
     `?` and the `From` conversions       ↔ the error of `Prog`, `mapErr`
   A walk asks for buffers of physical memory and ends in a value, an error or a
   panic of `PhysAddr`. `PhysMem.answer` is the deterministic callback: memory
   bytes, and a set of addresses at which the read fails. -/
namespace WinKernl
open ByteMem Ask

inductive WalkErr (E : Type) where
  | invalidPml4 (e : PageTableEntry)
  | invalidPdpt (e : PageTableEntry)
  | invalidPde (e : PageTableEntry)
  | invalidPte (e : PageTableEntry)
  | readErr (e : E)
  deriving DecidableEq

inductive PageLevel where
  | pml4
  | pdpt
  | pd
  | pt
  | phys
  deriving DecidableEq, Repr

inductive WalkLevelErr (E : Type) where
  | walkErr (e : WalkErr E)
  | hugePageBeforeLevel
  deriving DecidableEq

/-- `impl From<E> for WalkLevelErr<E>`. -/
def WalkLevelErr.fromRead {E : Type} (e : E) : WalkLevelErr E := .walkErr (.readErr e)

/-- One call of `read_physical`: the address and the length of the buffer. -/
@[ext] structure ReadReq where
  phys : PhysAddr
  len : Nat
  deriving DecidableEq

abbrev Walk (E ε α : Type) := Prog ReadReq (fun _ => Except E (List Byte)) ε α

section
variable {E : Type}

/-- The eight bytes of an entry, as `assume_init` reads them. -/
def PageTableEntry.ofBytes (buf : List Byte) : PageTableEntry := ⟨BitVec.ofNat 64 (ofLE buf)⟩

def readPhysicalMemoryT {T : Type} (size : Nat) (ofBytes : List Byte → T) (phys : PhysAddr) :
    Walk E E T :=
  .ask ⟨phys, size⟩ fun
    | .ok buf => .ok (ofBytes buf)
    | .error e => .err e

def readPageTableEntryE (table : PhysAddr) (idx : BitVec 9) : Walk E (WalkErr E) PageTableEntry := do
  let phys ← Prog.orPanic (table.add (idx.setWidth 64 * 8#64))
  (readPhysicalMemoryT 8 PageTableEntry.ofBytes phys).mapErr .readErr

def virtualToPhysical (pml4Phys : PhysAddr) (va : VirtAddr) :
    Walk E (WalkErr E) (PhysAddr × PageLevel) := do
  let pml4e ← readPageTableEntryE pml4Phys va.p4Index
  if !pml4e.flags.contains .PRESENT then .err (.invalidPml4 pml4e) else do
  let pdpte ← readPageTableEntryE pml4e.addr va.p3Index
  if !pdpte.flags.contains .PRESENT then .err (.invalidPdpt pdpte) else do
  if pdpte.flags.contains .HUGE_PAGE then do
    let pa ← Prog.orPanic (pdpte.addr.add (va.val &&& 0x3FFFFFFF#64))
    pure (pa, .pdpt)
  else do
  let pde ← readPageTableEntryE pdpte.addr va.p2Index
  if !pde.flags.contains .PRESENT then .err (.invalidPde pde) else do
  if pde.flags.contains .HUGE_PAGE then do
    let pa ← Prog.orPanic (pde.addr.add (va.val &&& 0x1FFFFF#64))
    pure (pa, .pd)
  else do
  let pte ← readPageTableEntryE pde.addr va.p1Index
  if !pte.flags.contains .PRESENT then .err (.invalidPte pte) else do
  let pa ← Prog.orPanic (pte.addr.add (va.val &&& 0xFFF#64))
  pure (pa, .phys)

/-- The entry read of `get_address_of_level`: here `?` converts the callback's error. -/
def readEntry (addr : PhysAddr) : Walk E (WalkLevelErr E) PageTableEntry :=
  (readPhysicalMemoryT 8 PageTableEntry.ofBytes addr).mapErr .fromRead

def getAddressOfLevel (pml4Phys : PhysAddr) (va : VirtAddr) (level : PageLevel) :
    Walk E (WalkLevelErr E) PhysAddr := do
  let addr ← Prog.orPanic (PhysAddr.new (pml4Phys.val + va.p4Index.setWidth 64 * 8#64))
  if level = .pml4 then pure addr else do
  let pml4e ← readEntry addr
  if !pml4e.flags.contains .PRESENT then .err (.walkErr (.invalidPml4 pml4e)) else do
  let addr ← Prog.orPanic (pml4e.addr.add (va.p3Index.setWidth 64 * 8#64))
  if level = .pdpt then pure addr else do
  let pdpte ← readEntry addr
  if !pdpte.flags.contains .PRESENT then .err (.walkErr (.invalidPdpt pdpte)) else do
  if pdpte.flags.contains .HUGE_PAGE then .err .hugePageBeforeLevel else do
  let addr ← Prog.orPanic (pdpte.addr.add (va.p2Index.setWidth 64 * 8#64))
  if level = .pd then pure addr else do
  let pde ← readEntry addr
  if !pde.flags.contains .PRESENT then .err (.walkErr (.invalidPde pde)) else do
  if pde.flags.contains .HUGE_PAGE then .err .hugePageBeforeLevel else do
  let addr ← Prog.orPanic (pde.addr.add (va.p1Index.setWidth 64 * 8#64))
  if level = .pt then pure addr else do
  let pte ← readEntry addr
  if !pte.flags.contains .PRESENT then .err (.walkErr (.invalidPte pte)) else
  Prog.orPanic (pte.addr.add (va.val &&& 0xFFF#64))

def getPte (pml4Phys : PhysAddr) (va : VirtAddr) : Walk E (WalkLevelErr E) PhysAddr :=
  getAddressOfLevel pml4Phys va .pt

/-- A deterministic physical memory: its bytes, and the addresses at which a read fails. -/
structure PhysMem (E : Type) where
  bytes : Mem 64
  fail : PhysAddr → Option E

def PhysMem.answer (m : PhysMem E) (q : ReadReq) : Except E (List Byte) :=
  match m.fail q.phys with
  | some e => .error e
  | none => .ok (read m.bytes q.phys.val q.len)

/-- The 64-bit entry at `a`. -/
def PhysMem.entry (m : PhysMem E) (a : PhysAddr) : PageTableEntry := ⟨readWord m.bytes a.val⟩

/-! One read of an entry. -/

theorem answer_entry (m : PhysMem E) (a : PhysAddr) : m.answer ⟨a, 8⟩ =
    match m.fail a with | some e => .error e | none => .ok (read m.bytes a.val 8) := rfl

@[simp] theorem readEntry_result (m : PhysMem E) (a : PhysAddr) :
    (readEntry a).result m.answer = match m.fail a with
      | some e => .err (.walkErr (.readErr e))
      | none => .ok (m.entry a) := by
  rw [readEntry, Prog.result_mapErr, readPhysicalMemoryT, Prog.result_ask, answer_entry]
  cases m.fail a <;> rfl

@[simp] theorem readEntry_trace (m : PhysMem E) (a : PhysAddr) :
    (readEntry a).trace m.answer = [⟨a, 8⟩] := by
  rw [readEntry, Prog.trace_mapErr, readPhysicalMemoryT, Prog.trace_ask, answer_entry]
  cases m.fail a <;> rfl

theorem readPageTableEntryE_aligned {t : PhysAddr} (ht : t.Aligned) (i : BitVec 9) :
    readPageTableEntryE (E := E) t i =
      (readPhysicalMemoryT 8 PageTableEntry.ofBytes (entryAt t.val i)).mapErr .readErr := by
  rw [readPageTableEntryE, add_index ht]; rfl

theorem readPageTableEntryE_result (m : PhysMem E) {t : PhysAddr} (ht : t.Aligned) (i : BitVec 9) :
    (readPageTableEntryE t i).result m.answer = match m.fail (entryAt t.val i) with
      | some e => .err (.readErr e)
      | none => .ok (m.entry (entryAt t.val i)) := by
  rw [readPageTableEntryE_aligned ht, Prog.result_mapErr, readPhysicalMemoryT, Prog.result_ask,
    answer_entry]
  cases m.fail (entryAt t.val i) <;> rfl

theorem readPageTableEntryE_trace (m : PhysMem E) {t : PhysAddr} (ht : t.Aligned) (i : BitVec 9) :
    (readPageTableEntryE t i).trace m.answer = [⟨entryAt t.val i, 8⟩] := by
  rw [readPageTableEntryE_aligned ht, Prog.trace_mapErr, readPhysicalMemoryT, Prog.trace_ask,
    answer_entry]
  cases m.fail (entryAt t.val i) <;> rfl

end
end WinKernl
