import WinKernl.Lib.Runs
import WinKernl.Lib.Ask
import WinKernl.PageTable

/- `memory/mdl.rs`: a safe interface to memory descriptor lists.

   Correspondence (Rust ↔ Lean):
     `Mdl`, `MdlMap`                    ↔ `Mdl`, `MdlMap`
     methods of both                    ↔ `Mdl.new`, `Mdl.lock`, ..., `MdlMap.protect`
     `Drop for Mdl`, `Drop for MdlMap`  ↔ `Mdl.drop`, `MdlMap.drop`
     calls to the kernel                ↔ the requests `MdlReq`
   A method that takes `&mut self` returns the new value. `MmProbeAndLockPages`
   can also raise an exception, which ends the run and is not modelled.

   `Ledger` is the kernel's side: the descriptor lists that exist, whether their
   pages are locked, and the mappings in place. `Ledger.Allows` is the protocol of
   these calls, one condition a call. `MdlVars` is what a client can hold, and
   `Borrows` what the borrow rules let it do next. -/
namespace WinKernl
open ByteMem Ask Runs

/-- `PMDL`, null when zero. -/
abbrev Pmdl := BitVec 64
abbrev KProcessorMode := BitVec 8
abbrev NtStatus := BitVec 32

/-- `nt_success`: the status is not negative. -/
def ntSuccess (status : NtStatus) : Bool := decide (0 ≤ status.toInt)

inductive LockOperation where
  | ioReadAccess | ioWriteAccess | ioModifyAccess
  deriving DecidableEq

inductive MemoryCachingType where
  | mmNonCached | mmCached | mmWriteCombined | mmHardwareCoherentCached | mmNonCachedUnordered
  | mmUSWCCached | mmMaximumCacheType | mmNotMapped
  deriving DecidableEq

inductive MmPagePriority where
  | lowPagePriority | normalPagePriority | highPagePriority
  deriving DecidableEq

/-- `mm_page_priority as ULONG`. -/
def MmPagePriority.toULong : MmPagePriority → BitVec 32
  | .lowPagePriority => 0
  | .normalPagePriority => 16
  | .highPagePriority => 32

/-- A call to the kernel, or a copy to an address. -/
inductive MdlReq where
  | ioAllocateMdl (virtualAddress : BitVec 64) (length : BitVec 32)
      (secondaryBuffer chargeQuota : Bool) (irp : BitVec 64)
  | mmProbeAndLockPages (mdl : Pmdl) (accessMode : KProcessorMode) (operation : LockOperation)
  | mmUnlockPages (mdl : Pmdl)
  | mmMapLockedPagesSpecifyCache (mdl : Pmdl) (accessMode : KProcessorMode)
      (cacheType : MemoryCachingType) (requestedAddress : BitVec 64)
      (bugCheckOnFailure priority : BitVec 32)
  | mmUnmapLockedPages (baseAddress : BitVec 64) (mdl : Pmdl)
  | mmProtectMdlSystemAddress (mdl : Pmdl) (newProtect : BitVec 32)
  | ioFreeMdl (mdl : Pmdl)
  | copy (dst : BitVec 64) (bytes : List Byte)
  deriving DecidableEq

/-- The two calls that make something answer with its address, null for failure. -/
abbrev MdlReq.Answer : MdlReq → Type
  | .ioAllocateMdl .. => Pmdl
  | .mmMapLockedPagesSpecifyCache .. => BitVec 64
  | .mmProtectMdlSystemAddress .. => NtStatus
  | _ => Unit

abbrev MdlProg (α : Type) := Prog MdlReq MdlReq.Answer Empty α

section
variable (mdl : Pmdl)

def ioAllocateMdl (dest : BitVec 64) (length : BitVec 32) (secondaryBuffer chargeQuota : Bool)
    (irp : BitVec 64) : MdlProg Pmdl :=
  Prog.call (MdlReq.ioAllocateMdl dest length secondaryBuffer chargeQuota irp)
def mmProbeAndLockPages (mode : KProcessorMode) (op : LockOperation) : MdlProg Unit :=
  Prog.call (MdlReq.mmProbeAndLockPages mdl mode op)
def mmUnlockPages : MdlProg Unit := Prog.call (MdlReq.mmUnlockPages mdl)
def mmMapLockedPagesSpecifyCache (mode : KProcessorMode) (caching : MemoryCachingType)
    (requested : BitVec 64) (bugCheck priority : BitVec 32) : MdlProg (BitVec 64) :=
  Prog.call (MdlReq.mmMapLockedPagesSpecifyCache mdl mode caching requested bugCheck priority)
def mmUnmapLockedPages (base : BitVec 64) : MdlProg Unit :=
  Prog.call (MdlReq.mmUnmapLockedPages base mdl)
def mmProtectMdlSystemAddress (newProtect : BitVec 32) : MdlProg NtStatus :=
  Prog.call (MdlReq.mmProtectMdlSystemAddress mdl newProtect)
def ioFreeMdl : MdlProg Unit := Prog.call (MdlReq.ioFreeMdl mdl)
/-- `ptr::copy_nonoverlapping` from a slice. -/
def copyNonoverlapping (src : List Byte) (dst : BitVec 64) : MdlProg Unit :=
  Prog.call (MdlReq.copy dst src)

end

structure Mdl where
  mdl : Pmdl
  locked : Bool
  deriving DecidableEq

/-- `MdlMap`: while it lives its `Mdl` is only reached through `mdlRef`. -/
structure MdlMap where
  mdlRef : Mdl
  mapped : BitVec 64
  deriving DecidableEq

namespace Mdl

/-- The byte count is a `usize`, `Length` a `ULONG`: `size as _` keeps the low 32 bits. -/
def new (dest : VirtAddr) (size : BitVec 64) : MdlProg (Option Mdl) := do
  let mdl ← ioAllocateMdl dest.val (size.setWidth 32) false false 0
  if mdl = 0 then pure none else
  pure (some ⟨mdl, false⟩)

def lock (m : Mdl) (accessMode : KProcessorMode) (lockOperation : LockOperation) :
    MdlProg Mdl := do
  mmProbeAndLockPages m.mdl accessMode lockOperation
  pure { m with locked := true }

def unlock (m : Mdl) : MdlProg Mdl := do
  mmUnlockPages m.mdl
  pure { m with locked := false }

def mapLocked (m : Mdl) (accessMode : KProcessorMode) (mmCaching : MemoryCachingType)
    (requestAddr : Option VirtAddr) (bugCheckOnFailure : Bool) (mmPagePriority : MmPagePriority) :
    MdlProg (Option MdlMap) := do
  let mapping ← mmMapLockedPagesSpecifyCache m.mdl accessMode mmCaching
    ((requestAddr.map VirtAddr.val).getD 0) (if bugCheckOnFailure then 1 else 0)
    mmPagePriority.toULong
  if mapping = 0 then pure none else
  pure (some ⟨m, mapping⟩)

/-- The status is not looked at. -/
def protect (m : Mdl) (newProtect : BitVec 32) : MdlProg Unit := do
  let _ ← mmProtectMdlSystemAddress m.mdl newProtect
  pure ()

def drop (m : Mdl) : MdlProg Unit := do
  let m ← if m.locked then m.unlock else pure m
  ioFreeMdl m.mdl

end Mdl

namespace MdlMap

def asMutPtr (map : MdlMap) : BitVec 64 := map.mapped

def protect (map : MdlMap) (newProtect : BitVec 32) : MdlProg Unit := map.mdlRef.protect newProtect

def drop (map : MdlMap) : MdlProg Unit := mmUnmapLockedPages map.mdlRef.mdl map.mapped

end MdlMap

/-! The kernel's side. -/

/-- A call and its answer. -/
abbrev MdlCall := (q : MdlReq) × q.Answer

/-- A descriptor list: the range it describes, and whether its pages are locked. -/
structure MdlRecord where
  start : BitVec 64
  length : BitVec 32
  locked : Bool

/-- The descriptor lists that exist, and the mappings in place, each with its list. -/
structure Ledger where
  mdls : Pmdl → Option MdlRecord
  mapped : List (BitVec 64 × Pmdl)

namespace Ledger

def empty : Ledger := ⟨fun _ => none, []⟩

/-- Whether the pages of a list are locked. -/
def lockState (l : Ledger) (mdl : Pmdl) : Option Bool := (l.mdls mdl).map MdlRecord.locked

/-- The list whose pages a mapping shows. -/
def target (l : Ledger) (base : BitVec 64) : Option MdlRecord := (l.mapped.lookup base).bind l.mdls

def set (l : Ledger) (mdl : Pmdl) (r : Option MdlRecord) : Ledger :=
  { l with mdls := Function.update l.mdls mdl r }

def setLocked (l : Ledger) (mdl : Pmdl) (locked : Bool) : Ledger :=
  l.set mdl ((l.mdls mdl).map fun r => { r with locked := locked })

/-- What a call does. -/
def step (l : Ledger) : MdlCall → Ledger
  | ⟨.ioAllocateMdl dest length _ _ _, mdl⟩ =>
    if mdl = 0 then l else l.set mdl (some ⟨dest, length, false⟩)
  | ⟨.mmProbeAndLockPages mdl _ _, _⟩ => l.setLocked mdl true
  | ⟨.mmUnlockPages mdl, _⟩ => l.setLocked mdl false
  | ⟨.mmMapLockedPagesSpecifyCache mdl _ _ _ _ _, base⟩ =>
    if base = 0 then l else { l with mapped := (base, mdl) :: l.mapped }
  | ⟨.mmUnmapLockedPages base mdl, _⟩ => { l with mapped := l.mapped.erase (base, mdl) }
  | ⟨.mmProtectMdlSystemAddress _ _, _⟩ => l
  | ⟨.ioFreeMdl mdl, _⟩ => l.set mdl none
  | ⟨.copy _ _, _⟩ => l

/-- The protocol: pages are locked once at a time, mapped while locked, and unlocked when
    no mapping is left; a list is freed unlocked and unmapped; a mapping is removed, and
    written through, while it is in place. -/
def Allows (l : Ledger) : MdlCall → Prop
  | ⟨.ioAllocateMdl .., _⟩ => True
  | ⟨.mmProbeAndLockPages mdl _ _, _⟩ => l.lockState mdl = some false
  | ⟨.mmUnlockPages mdl, _⟩ => l.lockState mdl = some true ∧ mdl ∉ l.mapped.map Prod.snd
  | ⟨.mmMapLockedPagesSpecifyCache mdl _ _ _ _ _, _⟩ => l.lockState mdl = some true
  | ⟨.mmUnmapLockedPages base mdl, _⟩ => (base, mdl) ∈ l.mapped
  | ⟨.mmProtectMdlSystemAddress _ _, _⟩ => True
  | ⟨.ioFreeMdl mdl, _⟩ => l.lockState mdl = some false ∧ mdl ∉ l.mapped.map Prod.snd
  | ⟨.copy dst _, _⟩ => (l.target dst).isSome

/-- The ledger of one list and the mappings of it. -/
def one (mdl : Pmdl) (r : MdlRecord) (bases : List (BitVec 64)) : Ledger :=
  ⟨Function.update (fun _ => none) mdl (some r), bases.map (·, mdl)⟩

variable (mdl : Pmdl) (r : MdlRecord) (bases : List (BitVec 64))

@[simp] theorem one_lockState : (one mdl r bases).lockState mdl = some r.locked := by
  simp [one, lockState]

@[simp] theorem one_setLocked (b : Bool) :
    (one mdl r bases).setLocked mdl b = one mdl { r with locked := b } bases := by
  simp [one, setLocked, set]

@[simp] theorem empty_set : empty.set mdl (some r) = one mdl r [] := rfl

@[simp] theorem one_set_none : (one mdl r []).set mdl none = empty := by
  simp [one, set, empty]

@[simp] theorem one_mapped : (one mdl r bases).mapped = bases.map (·, mdl) := rfl

/-! What the calls of one list do. -/

variable {mdl} in
theorem step_allocate (h : mdl ≠ 0) (dest : BitVec 64) (length : BitVec 32) {sb cq : Bool}
    {irp : BitVec 64} : empty.step ⟨.ioAllocateMdl dest length sb cq irp, mdl⟩ =
      one mdl ⟨dest, length, false⟩ [] := if_neg h

@[simp] theorem step_lock {mode : KProcessorMode} {op : LockOperation} {u : Unit} :
    (one mdl r bases).step ⟨.mmProbeAndLockPages mdl mode op, u⟩ =
      one mdl { r with locked := true } bases := one_setLocked mdl r bases true

@[simp] theorem step_unlock {u : Unit} : (one mdl r bases).step ⟨.mmUnlockPages mdl, u⟩ =
    one mdl { r with locked := false } bases := one_setLocked mdl r bases false

theorem step_map {base : BitVec 64} (h : base ≠ 0) {mode : KProcessorMode}
    {caching : MemoryCachingType} {addr : BitVec 64} {bugCheck priority : BitVec 32} :
    (one mdl r bases).step
        ⟨.mmMapLockedPagesSpecifyCache mdl mode caching addr bugCheck priority, base⟩ =
      one mdl r (base :: bases) := if_neg h

theorem step_map_null {l : Ledger} {base : BitVec 64} (h : base = 0) {mode : KProcessorMode}
    {caching : MemoryCachingType} {addr : BitVec 64} {bugCheck priority : BitVec 32} :
    l.step ⟨.mmMapLockedPagesSpecifyCache mdl mode caching addr bugCheck priority, base⟩ = l :=
  if_pos h

@[simp] theorem step_protect {l : Ledger} {prot : BitVec 32} {status : NtStatus} :
    l.step ⟨.mmProtectMdlSystemAddress mdl prot, status⟩ = l := rfl

@[simp] theorem step_copy {l : Ledger} {dst : BitVec 64} {bytes : List Byte} {u : Unit} :
    l.step ⟨.copy dst bytes, u⟩ = l := rfl

@[simp] theorem step_unmap (base : BitVec 64) {u : Unit} :
    (one mdl r (base :: bases)).step ⟨.mmUnmapLockedPages base mdl, u⟩ = one mdl r bases := by
  simp [step, one]

@[simp] theorem step_free {u : Unit} : (one mdl r []).step ⟨.ioFreeMdl mdl, u⟩ = empty :=
  one_set_none mdl r

@[simp] theorem target_one (base : BitVec 64) :
    (one mdl r (base :: bases)).target base = some r := by
  simp [target, one]

end Ledger

/-! The client's side. -/

/-- What a client holds: nothing, an `Mdl`, or an `Mdl` and a mapping that borrows it. -/
inductive MdlVars where
  | none
  | mdl (m : Mdl)
  | mapped (map : MdlMap)

inductive MdlOp where
  | new (dest : VirtAddr) (size : BitVec 64)
  | lock (accessMode : KProcessorMode) (lockOperation : LockOperation)
  | unlock
  | mapLocked (accessMode : KProcessorMode) (mmCaching : MemoryCachingType)
      (requestAddr : Option VirtAddr) (bugCheckOnFailure : Bool) (mmPagePriority : MmPagePriority)
  | protect (newProtect : BitVec 32)
  | dropMap
  | drop

/-- An operation, and what the kernel answers during it. -/
structure MdlStep where
  op : MdlOp
  ans : (q : MdlReq) → q.Answer

/-- What the borrow rules allow: a mapping borrows its `Mdl` until it is dropped. -/
inductive MdlVars.Borrows : MdlVars → MdlOp → Prop
  | new (dest : VirtAddr) (size : BitVec 64) : Borrows .none (.new dest size)
  | lock (m : Mdl) (mode : KProcessorMode) (op : LockOperation) : Borrows (.mdl m) (.lock mode op)
  | unlock (m : Mdl) : Borrows (.mdl m) .unlock
  | mapLocked (m : Mdl) (mode : KProcessorMode) (caching : MemoryCachingType)
      (addr : Option VirtAddr) (bugCheck : Bool) (priority : MmPagePriority) :
      Borrows (.mdl m) (.mapLocked mode caching addr bugCheck priority)
  | protect (m : Mdl) (prot : BitVec 32) : Borrows (.mdl m) (.protect prot)
  | drop (m : Mdl) : Borrows (.mdl m) .drop
  | protectMap (map : MdlMap) (prot : BitVec 32) : Borrows (.mapped map) (.protect prot)
  | dropMap (map : MdlMap) : Borrows (.mapped map) .dropMap

def MdlVars.perform : MdlVars → MdlOp → MdlProg MdlVars
  | .none, .new dest size => do
    match ← Mdl.new dest size with
    | Option.none => pure .none
    | some m => pure (.mdl m)
  | .mdl m, .lock mode op => do
    let m ← m.lock mode op
    pure (.mdl m)
  | .mdl m, .unlock => do
    let m ← m.unlock
    pure (.mdl m)
  | .mdl m, .mapLocked mode caching addr bugCheck priority => do
    match ← m.mapLocked mode caching addr bugCheck priority with
    | Option.none => pure (.mdl m)
    | some map => pure (.mapped map)
  | .mdl m, .protect prot => do
    m.protect prot
    pure (.mdl m)
  | .mdl m, .drop => do
    m.drop
    pure .none
  | .mapped map, .protect prot => do
    map.protect prot
    pure (.mapped map)
  | .mapped map, .dropMap => do
    map.drop
    pure (.mdl map.mdlRef)
  | vars, _ => pure vars

/-- `lock` finds the flag clear, `unlock` and `map_locked` find it set. -/
def MdlVars.Ordered : MdlVars → MdlOp → Prop
  | .mdl m, .lock _ _ => m.locked = false
  | .mdl m, .unlock => m.locked = true
  | .mdl m, .mapLocked .. => m.locked = true
  | _, _ => True

structure MdlState where
  vars : MdlVars
  ledger : Ledger

namespace MdlState

def start : MdlState := ⟨.none, .empty⟩

def calls (s : MdlState) (o : MdlStep) : List MdlCall := (s.vars.perform o.op).calls o.ans

def step (s : MdlState) (o : MdlStep) : MdlState :=
  ⟨((s.vars.perform o.op).result o.ans).getD s.vars, final Ledger.step s.ledger (s.calls o)⟩

def Borrows (s : MdlState) (o : MdlStep) : Prop := s.vars.Borrows o.op
def Ordered (s : MdlState) (o : MdlStep) : Prop := s.vars.Ordered o.op

/-- The calls of the operation keep the protocol. -/
def Keeps (s : MdlState) (o : MdlStep) : Prop :=
  Guarded Ledger.step Ledger.Allows s.ledger (s.calls o)

/-- Once the `Mdl` is dropped its list is freed, unlocked and unmapped. -/
def Released (s : MdlState) : Prop :=
  match s.vars with
  | .none => s.ledger = .empty
  | _ => True

/-- The ledger has the list of the `Mdl`, locked as its flag says, and its mapping. -/
def Tracks (s : MdlState) : Prop :=
  match s.vars with
  | .none => s.ledger = .empty
  | .mdl m => ∃ dest length, s.ledger = .one m.mdl ⟨dest, length, m.locked⟩ []
  | .mapped map => ∃ dest length,
    s.ledger = .one map.mdlRef.mdl ⟨dest, length, map.mdlRef.locked⟩ [map.mapped]

end MdlState

/-! The methods as trees of calls. -/

theorem Mdl.new_eq (dest : VirtAddr) (size : BitVec 64) : Mdl.new dest size =
    .ask (.ioAllocateMdl dest.val (size.setWidth 32) false false 0) fun mdl : Pmdl =>
      .ok (if mdl = 0 then none else some ⟨mdl, false⟩) := by
  apply congrArg (Prog.ask _)
  funext mdl
  exact (apply_ite Prog.ok _ _ _).symm

theorem Mdl.mapLocked_eq (m : Mdl) (mode : KProcessorMode) (caching : MemoryCachingType)
    (addr : Option VirtAddr) (bugCheck : Bool) (priority : MmPagePriority) :
    m.mapLocked mode caching addr bugCheck priority =
      .ask (.mmMapLockedPagesSpecifyCache m.mdl mode caching ((addr.map VirtAddr.val).getD 0)
          (if bugCheck then 1 else 0) priority.toULong) fun base : BitVec 64 =>
        .ok (if base = 0 then none else some ⟨m, base⟩) := by
  apply congrArg (Prog.ask _)
  funext base
  exact (apply_ite Prog.ok _ _ _).symm

theorem perform_new (dest : VirtAddr) (size : BitVec 64) :
    MdlVars.none.perform (.new dest size) =
      .ask (.ioAllocateMdl dest.val (size.setWidth 32) false false 0) fun mdl : Pmdl =>
        .ok (if mdl = 0 then .none else .mdl ⟨mdl, false⟩) := by
  rw [MdlVars.perform, Mdl.new_eq]
  apply congrArg (Prog.ask _)
  funext mdl
  by_cases h : mdl = (0 : Pmdl)
  · simp only [if_pos h]
    rfl
  · simp only [if_neg h]
    rfl

theorem perform_mapLocked (m : Mdl) (mode : KProcessorMode) (caching : MemoryCachingType)
    (addr : Option VirtAddr) (bugCheck : Bool) (priority : MmPagePriority) :
    (MdlVars.mdl m).perform (.mapLocked mode caching addr bugCheck priority) =
      .ask (.mmMapLockedPagesSpecifyCache m.mdl mode caching ((addr.map VirtAddr.val).getD 0)
          (if bugCheck then 1 else 0) priority.toULong) fun base : BitVec 64 =>
        .ok (if base = 0 then .mdl m else .mapped ⟨m, base⟩) := by
  rw [MdlVars.perform, Mdl.mapLocked_eq]
  apply congrArg (Prog.ask _)
  funext base
  by_cases h : base = (0 : BitVec 64)
  · simp only [if_pos h]
    rfl
  · simp only [if_neg h]
    rfl

theorem perform_lock (m : Mdl) (mode : KProcessorMode) (op : LockOperation) :
    (MdlVars.mdl m).perform (.lock mode op) =
      .ask (.mmProbeAndLockPages m.mdl mode op) fun _ => .ok (.mdl { m with locked := true }) := rfl

theorem perform_unlock (m : Mdl) : (MdlVars.mdl m).perform .unlock =
    .ask (.mmUnlockPages m.mdl) fun _ => .ok (.mdl { m with locked := false }) := rfl

theorem perform_protect (m : Mdl) (prot : BitVec 32) : (MdlVars.mdl m).perform (.protect prot) =
    .ask (.mmProtectMdlSystemAddress m.mdl prot) fun _ => .ok (.mdl m) := rfl

theorem perform_drop_unlocked (mdl : Pmdl) : (MdlVars.mdl ⟨mdl, false⟩).perform .drop =
    .ask (.ioFreeMdl mdl) fun _ => .ok .none := rfl

theorem perform_drop_locked (mdl : Pmdl) : (MdlVars.mdl ⟨mdl, true⟩).perform .drop =
    .ask (.mmUnlockPages mdl) fun _ => .ask (.ioFreeMdl mdl) fun _ => .ok .none := rfl

theorem perform_protectMap (map : MdlMap) (prot : BitVec 32) :
    (MdlVars.mapped map).perform (.protect prot) =
      .ask (.mmProtectMdlSystemAddress map.mdlRef.mdl prot) fun _ => .ok (.mapped map) := rfl

theorem perform_dropMap (map : MdlMap) : (MdlVars.mapped map).perform .dropMap =
    .ask (.mmUnmapLockedPages map.mapped map.mdlRef.mdl) fun _ => .ok (.mdl map.mdlRef) := rfl

/-! The protocol over runs. -/

namespace MdlState

/-- An operation that is one call. -/
theorem one_call (l : Ledger) (ans : (q : MdlReq) → q.Answer) {vars : MdlVars} {op : MdlOp}
    {q : MdlReq} {f : q.Answer → MdlVars} (hp : vars.perform op = .ask q fun r => .ok (f r)) :
    ((⟨vars, l⟩ : MdlState).Keeps ⟨op, ans⟩ ↔ l.Allows ⟨q, ans q⟩) ∧
      (⟨vars, l⟩ : MdlState).step ⟨op, ans⟩ = ⟨f (ans q), l.step ⟨q, ans q⟩⟩ := by
  unfold Keeps step calls
  rw [hp]
  exact ⟨and_iff_left trivial, rfl⟩

theorem tracks_new (dest : BitVec 64) (length : BitVec 32) (mdl : Pmdl) :
    Tracks ⟨if mdl = 0 then .none else .mdl ⟨mdl, false⟩,
      Ledger.empty.step ⟨.ioAllocateMdl dest length false false 0, mdl⟩⟩ := by
  by_cases h : mdl = 0
  · rw [if_pos h]
    exact if_pos h
  · rw [if_neg h]
    exact ⟨dest, length, if_neg h⟩

theorem tracks_mapLocked {l : Ledger} {m : Mdl} (ht : Tracks ⟨.mdl m, l⟩) {mode : KProcessorMode}
    {caching : MemoryCachingType} {addr : BitVec 64} {bugCheck priority : BitVec 32}
    (base : BitVec 64) :
    Tracks ⟨if base = 0 then .mdl m else .mapped ⟨m, base⟩,
      l.step ⟨.mmMapLockedPagesSpecifyCache m.mdl mode caching addr bugCheck priority, base⟩⟩ := by
  obtain ⟨dest, length, rfl⟩ := ht
  by_cases h : base = 0
  · rw [if_pos h]
    exact ⟨dest, length, if_pos h⟩
  · rw [if_neg h]
    exact ⟨dest, length, if_neg h⟩

/-- An operation the borrow rules allow keeps the protocol exactly when it is in order,
    and then the ledger follows the client. -/
theorem step_spec {s : MdlState} {o : MdlStep} (ht : s.Tracks) (hb : s.Borrows o) :
    (s.Keeps o ↔ s.Ordered o) ∧ (s.Ordered o → (s.step o).Tracks) := by
  obtain ⟨vars, l⟩ := s
  obtain ⟨op, ans⟩ := o
  change vars.Borrows op at hb
  change (_ ↔ vars.Ordered op) ∧ (vars.Ordered op → _)
  cases hb with
  | new dest size =>
    obtain rfl : l = .empty := ht
    obtain ⟨hkeeps, hstep⟩ := one_call .empty ans (perform_new dest size)
    rw [hkeeps, hstep]
    exact ⟨Iff.rfl, fun _ => tracks_new _ _ _⟩
  | lock m mode op =>
    obtain ⟨dest, length, rfl⟩ := ht
    obtain ⟨hkeeps, hstep⟩ := one_call (.one m.mdl ⟨dest, length, m.locked⟩ []) ans
      (perform_lock m mode op)
    rw [hkeeps, hstep]
    refine ⟨?_, fun _ => ⟨dest, length, ?_⟩⟩
    · simp [Ledger.Allows, MdlVars.Ordered]
    · rw [Ledger.step_lock]
  | unlock m =>
    obtain ⟨dest, length, rfl⟩ := ht
    obtain ⟨hkeeps, hstep⟩ := one_call (.one m.mdl ⟨dest, length, m.locked⟩ []) ans
      (perform_unlock m)
    rw [hkeeps, hstep]
    refine ⟨?_, fun _ => ⟨dest, length, ?_⟩⟩
    · simp [Ledger.Allows, MdlVars.Ordered]
    · rw [Ledger.step_unlock]
  | mapLocked m mode caching addr bugCheck priority =>
    obtain ⟨hkeeps, hstep⟩ := one_call l ans
      (perform_mapLocked m mode caching addr bugCheck priority)
    rw [hkeeps, hstep]
    refine ⟨?_, fun _ => tracks_mapLocked ht _⟩
    obtain ⟨dest, length, rfl⟩ := ht
    simp [Ledger.Allows, MdlVars.Ordered]
  | protect m prot =>
    obtain ⟨hkeeps, hstep⟩ := one_call l ans (perform_protect m prot)
    rw [hkeeps, hstep]
    exact ⟨Iff.rfl, fun _ => ht⟩
  | drop m =>
    obtain ⟨dest, length, rfl⟩ := ht
    obtain ⟨mdl, locked⟩ := m
    cases locked with
    | false =>
      obtain ⟨hkeeps, hstep⟩ := one_call (.one mdl ⟨dest, length, false⟩ []) ans
        (perform_drop_unlocked mdl)
      rw [hkeeps, hstep]
      refine ⟨iff_of_true ?_ trivial, fun _ => ?_⟩
      · simp [Ledger.Allows]
      · rw [Ledger.step_free]
        rfl
    | true =>
      -- The flag is set, so the pages are unlocked first.
      unfold Keeps step calls
      rw [perform_drop_locked]
      refine ⟨iff_of_true ?_ trivial, fun _ => ?_⟩
      · simp [Guarded, Ledger.Allows]
      · simp [final, Tracks, Outcome.getD]
  | protectMap map prot =>
    obtain ⟨hkeeps, hstep⟩ := one_call l ans (perform_protectMap map prot)
    rw [hkeeps, hstep]
    exact ⟨Iff.rfl, fun _ => ht⟩
  | dropMap map =>
    obtain ⟨dest, length, rfl⟩ := ht
    obtain ⟨hkeeps, hstep⟩ := one_call
      (.one map.mdlRef.mdl ⟨dest, length, map.mdlRef.locked⟩ [map.mapped]) ans
      (perform_dropMap map)
    rw [hkeeps, hstep]
    refine ⟨iff_of_true ?_ trivial, fun _ => ⟨dest, length, ?_⟩⟩
    · simp [Ledger.Allows]
    · rw [Ledger.step_unmap]

theorem Tracks.released {s : MdlState} (ht : s.Tracks) : s.Released := by
  obtain ⟨vars, l⟩ := s
  cases vars with
  | none => exact ht
  | mdl m => trivial
  | mapped map => trivial

end MdlState

open MdlState

/-- **Protocol.** In a run that the borrow rules allow, the calls keep the protocol and
    every dropped `Mdl` leaves nothing behind, exactly when the pages are locked,
    unlocked and mapped in order. -/
theorem mdl_protocol_iff {os : List MdlStep} (hb : Guarded step Borrows start os) :
    Guarded step Keeps start os ∧ Always step Released start os ↔
      Guarded step Ordered start os := by
  have hkeeps : Guarded step Keeps start os ↔ Guarded step Ordered start os :=
    guarded_iff_guarded (fun _ _ ht hb => (step_spec ht hb).1)
      (fun _ _ ht hb ho => (step_spec ht hb).2 ho) rfl hb
  rw [hkeeps]
  refine and_iff_left_of_imp fun ho => ?_
  have htracks : Always step Tracks start os :=
    always_of_guarded (fun _ _ ht hg => (step_spec ht hg.1).2 hg.2) rfl (hb.and ho)
  exact htracks.mono fun _ => Tracks.released

def bufferAddr : VirtAddr := ⟨0x5000#64, by decide⟩

/-- A kernel that gives every list and every mapping the same address. -/
def fixedAnswers : (q : MdlReq) → q.Answer
  | .ioAllocateMdl .. => 0x1000#64
  | .mmProbeAndLockPages .. => ()
  | .mmUnlockPages .. => ()
  | .mmMapLockedPagesSpecifyCache .. => 0x2000#64
  | .mmUnmapLockedPages .. => ()
  | .mmProtectMdlSystemAddress .. => 0#32
  | .ioFreeMdl .. => ()
  | .copy .. => ()

def mappedRun : List MdlStep :=
  [.new bufferAddr 16, .lock 0 .ioWriteAccess, .mapLocked 0 .mmNonCached none false
    .normalPagePriority, .protect 4, .dropMap, .drop].map (⟨·, fixedAnswers⟩)

theorem mdl_protocol_mapped :
    Guarded step Keeps start mappedRun ∧ Always step Released start mappedRun := by
  have hb : Guarded step Borrows start mappedRun :=
    ⟨.new _ _, .lock _ _ _, .mapLocked _ _ _ _ _ _, .protectMap _ _, .dropMap _, .drop _, trivial⟩
  refine (mdl_protocol_iff hb).mpr ?_
  exact ⟨trivial, rfl, rfl, trivial, trivial, trivial, trivial⟩

def unlockRun : List MdlStep :=
  [.new bufferAddr 16, .unlock, .drop].map (⟨·, fixedAnswers⟩)

/-- `unlock` is a safe method of a new `Mdl`, whose pages were never locked. -/
theorem unlock_unlocked : Guarded step Borrows start unlockRun ∧
    ¬ Guarded step Keeps start unlockRun := by
  refine ⟨⟨.new _ _, .unlock _, .drop _, trivial⟩, ?_⟩
  intro hkeeps
  obtain ⟨-, hunlock, -⟩ := hkeeps
  have hlocked : (some false : Option Bool) = some true := hunlock.1.1
  cases hlocked

end WinKernl
