import WinKernl.Mdl
import WinKernl.KHook

/- `write_to_read_only_memory` of `memory/rw.rs`.

   The function allocates a descriptor list for the destination, locks its pages,
   maps them, asks for a writable mapping and copies. The releases are the drops of
   its two locals, the mapping first (`writeToReadOnlyMemory`). `WriteRun` lists its
   four ways through, each with the calls it makes.

   `memAfter` gives the memory that a sequence of calls leaves: a copy through a
   mapping reaches the bytes its list describes, and where a longer copy ends up is
   not known. -/
namespace WinKernl
open ByteMem Ask Runs

def PAGE_READWRITE : BitVec 32 := 4

def writeToReadOnlyMemory (dst : VirtAddr) (src : List Byte) : MdlProg Bool := do
  if dst.val = 0 ∨ src.length = 0 then pure false else
  match ← Mdl.new dst (BitVec.ofNat 64 src.length) with
  | none => pure false
  | some mdl => do
    let mdl ← mdl.lock 0 .ioWriteAccess
    match ← mdl.mapLocked 0 .mmNonCached none false .normalPagePriority with
    | none => do
      mdl.drop
      pure false
    | some mapping => do
      mapping.protect PAGE_READWRITE
      copyNonoverlapping src mapping.asMutPtr
      mapping.drop
      mdl.drop
      pure true

/-! The ways through the function. -/

section
variable (ans : (q : MdlReq) → q.Answer) (dst : VirtAddr) (src : List Byte)

/-- The `Length` that `IoAllocateMdl` is given. -/
def mdlLength : BitVec 32 := (BitVec.ofNat 64 src.length).setWidth 32

/-- What the kernel answers to the three calls that can fail. -/
def mdlAnswer : Pmdl := ans (.ioAllocateMdl dst.val (mdlLength src) false false 0)
def mappingAnswer : BitVec 64 :=
  ans (.mmMapLockedPagesSpecifyCache (mdlAnswer ans dst src) 0 .mmNonCached 0 0 16)
def protectAnswer : NtStatus :=
  ans (.mmProtectMdlSystemAddress (mdlAnswer ans dst src) PAGE_READWRITE)

/-- The calls of a run in which a copy is made. -/
def copyCalls : List MdlCall :=
  let mdl := mdlAnswer ans dst src
  let base := mappingAnswer ans dst src
  [⟨.ioAllocateMdl dst.val (mdlLength src) false false 0, mdl⟩,
   ⟨.mmProbeAndLockPages mdl 0 .ioWriteAccess, ()⟩,
   ⟨.mmMapLockedPagesSpecifyCache mdl 0 .mmNonCached 0 0 16, base⟩,
   ⟨.mmProtectMdlSystemAddress mdl PAGE_READWRITE, protectAnswer ans dst src⟩,
   ⟨.copy base src, ()⟩,
   ⟨.mmUnmapLockedPages base mdl, ()⟩,
   ⟨.mmUnlockPages mdl, ()⟩,
   ⟨.ioFreeMdl mdl, ()⟩]

/-- The calls of a run in which the mapping fails. -/
def unmappedCalls : List MdlCall :=
  let mdl := mdlAnswer ans dst src
  [⟨.ioAllocateMdl dst.val (mdlLength src) false false 0, mdl⟩,
   ⟨.mmProbeAndLockPages mdl 0 .ioWriteAccess, ()⟩,
   ⟨.mmMapLockedPagesSpecifyCache mdl 0 .mmNonCached 0 0 16, mappingAnswer ans dst src⟩,
   ⟨.mmUnlockPages mdl, ()⟩,
   ⟨.ioFreeMdl mdl, ()⟩]

/-- A way through the function: what it returns, and the calls it makes. -/
inductive WriteRun : Bool → List MdlCall → Prop
  | refused (h : dst.val = 0 ∨ src.length = 0) : WriteRun false []
  | unallocated (h : mdlAnswer ans dst src = 0) : WriteRun false
    [⟨.ioAllocateMdl dst.val (mdlLength src) false false 0, mdlAnswer ans dst src⟩]
  | unmapped (h : mdlAnswer ans dst src ≠ 0) (hm : mappingAnswer ans dst src = 0) :
    WriteRun false (unmappedCalls ans dst src)
  | copied (h0 : ¬ (dst.val = 0 ∨ src.length = 0)) (h : mdlAnswer ans dst src ≠ 0)
      (hm : mappingAnswer ans dst src ≠ 0) : WriteRun true (copyCalls ans dst src)

/-- The function behind its first test, as a tree of calls. -/
theorem write_eq (h0 : ¬ (dst.val = 0 ∨ src.length = 0)) : writeToReadOnlyMemory dst src =
    .ask (.ioAllocateMdl dst.val (mdlLength src) false false 0) fun mdl : Pmdl =>
      if mdl = 0 then .ok false else
      .ask (.mmProbeAndLockPages mdl 0 .ioWriteAccess) fun _ =>
      .ask (.mmMapLockedPagesSpecifyCache mdl 0 .mmNonCached 0 0 16) fun base : BitVec 64 =>
        if base = 0 then
          .ask (.mmUnlockPages mdl) fun _ => .ask (.ioFreeMdl mdl) fun _ => .ok false
        else
          .ask (.mmProtectMdlSystemAddress mdl PAGE_READWRITE) fun _ =>
          .ask (.copy base src) fun _ => .ask (.mmUnmapLockedPages base mdl) fun _ =>
          .ask (.mmUnlockPages mdl) fun _ => .ask (.ioFreeMdl mdl) fun _ => .ok true := by
  unfold writeToReadOnlyMemory
  rw [if_neg h0, Mdl.new_eq]
  apply congrArg (Prog.ask _)
  funext mdl
  by_cases h : mdl = (0 : Pmdl)
  · simp only [if_pos h]
    rfl
  simp only [if_neg h, Mdl.mapLocked_eq]
  apply congrArg (Prog.ask _)
  funext _
  apply congrArg (Prog.ask _)
  funext base
  by_cases hm : base = (0 : BitVec 64)
  · simp only [if_pos hm]
    rfl
  · simp only [if_neg hm]
    rfl

theorem write_run : ∃ b cs, (writeToReadOnlyMemory dst src).RunsTo ans b cs ∧
    WriteRun ans dst src b cs := by
  by_cases h0 : dst.val = 0 ∨ src.length = 0
  · exact ⟨false, [], .ite_pos h0 (.ok false), .refused h0⟩
  rw [write_eq dst src h0]
  by_cases h : mdlAnswer ans dst src = 0
  · exact ⟨false, _, .ask (.ite_pos h (.ok false)), .unallocated h⟩
  by_cases hm : mappingAnswer ans dst src = 0
  · exact ⟨false, _, .ask (.ite_neg h (.ask (.ask (.ite_pos hm (.ask (.ask (.ok false))))))),
      .unmapped h hm⟩
  · exact ⟨true, _, .ask (.ite_neg h (.ask (.ask (.ite_neg hm (.ask (.ask (.ask (.ask (.ask
      (.ok true)))))))))), .copied h0 h hm⟩

/-! Brackets. -/

/-- **Balance.** On every way out the calls keep the protocol and leave no list, no locked
    page and no mapping. -/
theorem write_balanced :
    Guarded Ledger.step Ledger.Allows .empty ((writeToReadOnlyMemory dst src).calls ans) ∧
      final Ledger.step .empty ((writeToReadOnlyMemory dst src).calls ans) = .empty := by
  obtain ⟨b, cs, ⟨-, hcalls⟩, hrun⟩ := write_run ans dst src
  rw [hcalls]
  cases hrun with
  | refused h => exact ⟨trivial, rfl⟩
  | unallocated h => exact ⟨⟨trivial, trivial⟩, if_pos h⟩
  | unmapped h hm =>
    simp [unmappedCalls, Guarded, final, Ledger.Allows, Ledger.step_allocate h,
      Ledger.step_map_null _ hm]
  | copied h0 h hm =>
    simp [copyCalls, Guarded, final, Ledger.Allows, Ledger.step_allocate h,
      Ledger.step_map _ _ _ hm]

/-! What is copied. -/

def IsCopy : MdlCall → Prop
  | ⟨.copy _ _, _⟩ => True
  | _ => False

/-- A copy is no longer than the list whose pages it goes to. -/
def Ledger.Covers (l : Ledger) : MdlCall → Prop
  | ⟨.copy base bytes, _⟩ => ∃ r, l.target base = some r ∧ bytes.length ≤ r.length.toNat
  | _ => True

/-- What a call does to memory: a copy that its list covers goes to the bytes the list
    describes. What a longer one overwrites is not known. -/
def Ledger.store (l : Ledger) : MdlCall → Mem 64 → Option (Mem 64)
  | ⟨.copy base bytes, _⟩, mem => do
    let r ← l.target base
    if bytes.length ≤ r.length.toNat then some (write mem r.start bytes) else none
  | _, mem => some mem

def Ledger.memAfter : Ledger → List MdlCall → Mem 64 → Option (Mem 64)
  | _, [], mem => some mem
  | l, c :: cs, mem => do
    let mem ← l.store c mem
    (l.step c).memAfter cs mem

/-- The steps that can fail, and how they report it. -/
def Failed : MdlCall → Prop
  | ⟨.ioAllocateMdl .., mdl⟩ => mdl = (0 : Pmdl)
  | ⟨.mmMapLockedPagesSpecifyCache .., base⟩ => base = (0 : BitVec 64)
  | ⟨.mmProtectMdlSystemAddress .., status⟩ => ntSuccess status = false
  | _ => False

theorem mdlLength_toNat : (mdlLength src).toNat = src.length % 2^32 := by
  rw [mdlLength, BitVec.toNat_setWidth, BitVec.toNat_ofNat]
  exact Nat.mod_mod_of_dvd _ (by decide)

/-- `Length` is the number of bytes when it can be. -/
theorem length_le_mdlLength : src.length ≤ (mdlLength src).toNat ↔ src.length < 2^32 := by
  rw [mdlLength_toNat]
  constructor
  · intro h
    exact Nat.lt_of_le_of_lt h (Nat.mod_lt _ (by decide))
  · intro h
    exact Nat.le_of_eq (Nat.mod_eq_of_lt h).symm

variable {ans dst src}

theorem copyCalls_covered (h : mdlAnswer ans dst src ≠ 0) (hm : mappingAnswer ans dst src ≠ 0) :
    Guarded Ledger.step Ledger.Covers .empty (copyCalls ans dst src) ↔ src.length < 2^32 := by
  rw [← length_le_mdlLength]
  simp [copyCalls, Guarded, Ledger.Covers, Ledger.step_allocate h, Ledger.step_map _ _ _ hm]

theorem copyCalls_memAfter (h : mdlAnswer ans dst src ≠ 0) (hm : mappingAnswer ans dst src ≠ 0)
    (mem : Mem 64) : Ledger.empty.memAfter (copyCalls ans dst src) mem =
      if src.length < 2^32 then some (write mem dst.val src) else none := by
  simp only [← length_le_mdlLength]
  simp [copyCalls, Ledger.memAfter, Ledger.store, Ledger.step_allocate h,
    Ledger.step_map _ _ _ hm]

variable (ans dst src)

/-- The call returns false without copying, or no copy is longer than the `Length` its
    list was allocated with. -/
def CopiesWithin : Prop :=
  ((writeToReadOnlyMemory dst src).result ans = .ok false ∧
    ∀ c ∈ (writeToReadOnlyMemory dst src).calls ans, ¬ IsCopy c) ∨
  Guarded Ledger.step Ledger.Covers .empty ((writeToReadOnlyMemory dst src).calls ans)

/-- **Length.** No copy runs past its list exactly when `Length` can hold the number of
    bytes, or an earlier step stops the function. -/
theorem write_copiesWithin_iff : CopiesWithin ans dst src ↔
    dst.val = 0 ∨ src.length < 2^32 ∨ mdlAnswer ans dst src = 0 ∨
      mappingAnswer ans dst src = 0 := by
  unfold CopiesWithin
  obtain ⟨b, cs, ⟨hresult, hcalls⟩, hrun⟩ := write_run ans dst src
  rw [hresult, hcalls]
  cases hrun with
  | refused h =>
    refine iff_of_true (.inl ⟨rfl, by simp⟩) ?_
    rcases h with h | h
    · exact .inl h
    · exact .inr (.inl (by omega))
  | unallocated h => exact iff_of_true (.inl ⟨rfl, by simp [IsCopy]⟩) (.inr (.inr (.inl h)))
  | unmapped h hm =>
    exact iff_of_true (.inl ⟨rfl, by simp [unmappedCalls, IsCopy]⟩) (.inr (.inr (.inr hm)))
  | copied h0 h hm =>
    rw [copyCalls_covered h hm]
    constructor
    · intro hwithin
      rcases hwithin with ⟨hfalse, -⟩ | hlen
      · cases hfalse
      · exact .inr (.inl hlen)
    · intro hcases
      rcases hcases with hdst | hlen | hnull | hnull
      · exact absurd (.inl hdst) h0
      · exact .inr hlen
      · exact absurd hnull h
      · exact absurd hnull hm

/-! What is reported. -/

/-- True is returned only if every step succeeded and the destination then holds `src`,
    with all other memory as it was. If a step failed, false is returned and no byte of
    the destination has changed. -/
structure Reports (dst : VirtAddr) (src : List Byte) (result : Outcome Empty Bool)
    (calls : List MdlCall) : Prop where
  success : result = .ok true → (∀ c ∈ calls, ¬ Failed c) ∧
    ∀ mem, Ledger.empty.memAfter calls mem = some (write mem dst.val src)
  failure : (∃ c ∈ calls, Failed c) → result = .ok false ∧
    ∀ mem, ∃ mem', Ledger.empty.memAfter calls mem = some mem' ∧
      ∀ x, Within dst.val src.length x → mem' x = mem x

theorem reports_false {cs : List MdlCall}
    (hmem : ∀ mem, Ledger.empty.memAfter cs mem = some mem) :
    Reports dst src (.ok false) cs where
  success := fun h => by cases h
  failure := fun _ => ⟨rfl, fun mem => ⟨mem, hmem mem, fun _ _ => rfl⟩⟩

/-- A run that copies reports what happened exactly when the one failure it does not look
    at did not happen, and the copy fits. -/
theorem reports_true_iff (h : mdlAnswer ans dst src ≠ 0) (hm : mappingAnswer ans dst src ≠ 0) :
    Reports dst src (.ok true) (copyCalls ans dst src) ↔
      ntSuccess (protectAnswer ans dst src) = true ∧ src.length < 2^32 := by
  have hfailed : (∀ c ∈ copyCalls ans dst src, ¬ Failed c) ↔
      ntSuccess (protectAnswer ans dst src) = true := by
    simp only [copyCalls, List.forall_mem_cons, List.not_mem_nil, false_implies, implies_true,
      Failed, not_false_eq_true, true_and, and_true, Bool.not_eq_false]
    rw [and_iff_right h, and_iff_right hm]
  have hmem : (∀ mem, Ledger.empty.memAfter (copyCalls ans dst src) mem =
      some (write mem dst.val src)) ↔ src.length < 2^32 := by
    simp [copyCalls_memAfter h hm]
  constructor
  · intro hr
    exact ⟨hfailed.mp (hr.success rfl).1, hmem.mp (hr.success rfl).2⟩
  · intro hcond
    obtain ⟨hstatus, hlen⟩ := hcond
    refine ⟨fun _ => ⟨hfailed.mpr hstatus, hmem.mpr hlen⟩, ?_⟩
    intro hex
    obtain ⟨c, hc, hfail⟩ := hex
    exact absurd hfail (hfailed.mpr hstatus c hc)

/-- **Truth.** What is returned tells how the call went exactly when the two failures
    nobody looks at do not happen: of the change of protection, and of the `Length` to
    hold the number of bytes. -/
theorem write_reports_iff : Reports dst src ((writeToReadOnlyMemory dst src).result ans)
      ((writeToReadOnlyMemory dst src).calls ans) ↔
    dst.val = 0 ∨ src.length = 0 ∨ mdlAnswer ans dst src = 0 ∨
      mappingAnswer ans dst src = 0 ∨
      ntSuccess (protectAnswer ans dst src) = true ∧ src.length < 2^32 := by
  obtain ⟨b, cs, ⟨hresult, hcalls⟩, hrun⟩ := write_run ans dst src
  rw [hresult, hcalls]
  cases hrun with
  | refused h =>
    refine iff_of_true (reports_false dst src fun mem => rfl) ?_
    rw [← or_assoc]
    exact .inl h
  | unallocated h =>
    exact iff_of_true (reports_false dst src fun mem => rfl) (.inr (.inr (.inl h)))
  | unmapped h hm =>
    exact iff_of_true (reports_false dst src fun mem => rfl) (.inr (.inr (.inr (.inl hm))))
  | copied h0 h hm =>
    obtain ⟨hdst, hsrc⟩ := not_or.mp h0
    rw [reports_true_iff ans dst src h hm, or_iff_right hdst, or_iff_right hsrc, or_iff_right h,
      or_iff_right hm]

/-- The function as its callers take it: it succeeds or fails, and a write that succeeds
    stores `src`. -/
theorem write_refines (hdst : dst.val ≠ 0) (hsrc : src.length ≠ 0) (hlen : src.length < 2^32)
    (mem : Mem 64) : ∃ b mem', (writeToReadOnlyMemory dst src).result ans = .ok b ∧
      Ledger.empty.memAfter ((writeToReadOnlyMemory dst src).calls ans) mem = some mem' ∧
      KHook.writeToReadOnlyMemory
        (decide (mdlAnswer ans dst src ≠ 0 ∧ mappingAnswer ans dst src ≠ 0)) dst.val src mem =
          (b, mem') := by
  obtain ⟨b, cs, ⟨hresult, hcalls⟩, hrun⟩ := write_run ans dst src
  rw [hresult, hcalls]
  unfold KHook.writeToReadOnlyMemory
  cases hrun with
  | refused h => exact absurd h (not_or.mpr ⟨hdst, hsrc⟩)
  | unallocated h =>
    refine ⟨false, mem, rfl, rfl, ?_⟩
    rw [if_neg (by simp [h])]
  | unmapped h hm =>
    refine ⟨false, mem, rfl, rfl, ?_⟩
    rw [if_neg (by simp [hm])]
  | copied h0 h hm =>
    refine ⟨true, write mem dst.val src, rfl, ?_, ?_⟩
    · rw [copyCalls_memAfter h hm, if_pos hlen]
    · rw [if_pos (decide_eq_true ⟨h, hm⟩)]

end

/-! Inputs on which it fails. -/

/-- One byte more than a `ULONG` can count. -/
def longSource : List Byte := List.replicate (2^32 + 1) 0

theorem write_copies_past : ¬ CopiesWithin fixedAnswers bufferAddr longSource := by
  have hlen : longSource.length = 2^32 + 1 := List.length_replicate
  have hmdl : mdlAnswer fixedAnswers bufferAddr longSource = 0x1000#64 := rfl
  have hmap : mappingAnswer fixedAnswers bufferAddr longSource = 0x2000#64 := rfl
  unfold CopiesWithin
  obtain ⟨b, cs, ⟨hresult, hcalls⟩, hrun⟩ := write_run fixedAnswers bufferAddr longSource
  rw [hresult, hcalls]
  cases hrun with
  | refused h =>
    rw [hlen] at h
    exact absurd h (by decide)
  | unallocated h => exact absurd (hmdl.symm.trans h) (by decide)
  | unmapped h hm => exact absurd (hmap.symm.trans hm) (by decide)
  | copied h0 h hm =>
    rw [copyCalls_covered h hm, hlen]
    intro hwithin
    rcases hwithin with ⟨hfalse, -⟩ | hcovered
    · cases hfalse
    · exact absurd hcovered (by decide)

/-- A kernel that refuses to change the protection: `STATUS_UNSUCCESSFUL`. -/
def deniedAnswers : (q : MdlReq) → q.Answer
  | .mmProtectMdlSystemAddress .. => 0xC0000001#32
  | q => fixedAnswers q

def nopWrite : MdlProg Bool := writeToReadOnlyMemory bufferAddr [0x90#8]

theorem write_hides_status : ¬ Reports bufferAddr [0x90#8] (nopWrite.result deniedAnswers)
    (nopWrite.calls deniedAnswers) := by
  intro hr
  have hstatus : ntSuccess 0xC0000001#32 = false := by decide
  have hfailed : ∃ c ∈ nopWrite.calls deniedAnswers, Failed c :=
    ⟨⟨.mmProtectMdlSystemAddress 0x1000#64 PAGE_READWRITE, 0xC0000001#32⟩,
      .tail _ (.tail _ (.tail _ (.head _))), hstatus⟩
  have hfalse := (hr.failure hfailed).1
  cases hfalse

end WinKernl
