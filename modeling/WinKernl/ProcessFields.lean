import WinKernl.ProcessRaces

/- What the process functions find (`process/mod.rs`, `process/eprocess.rs`).

   A getter reads a field whose place was scanned out of an exported routine, without ever
   calling the routine; `get_process_by_id` reads the identifiers and the links itself. Here
   the answers are those of one memory, and the caches hold anything that these functions
   could have left in them. Under `alone` a getter returns what a call of the routine
   would, and the search by identifier and the getter of identifiers undo each other, as
   far as the list head lets them. -/
namespace WinKernl
open ByteMem X86 Listing Ask

namespace ProcessCalls
open OffsetCache (Cache Caches ntoskrnl findOffsetFromRoutine readInitialSystemProcess discover
  Cache.routineName Exported findOffsetFromRoutine_eq_some readInitialSystemProcess_eq_ok)

/-- The answers to reads and copies are those of `mem`. -/
structure ImageOf (ans : (q : SystemReq) → q.Answer) (mem : Mem 64) : Prop where
  readPointer : ∀ a, ans (.readPointer a) = readWord mem a
  copy : ∀ a n, (ans (.copy a n)).val = read mem a n

section
variable (u : Text.Unicode) (dec : StructureOffset.InstructionDecoder)

/-- The getters, each with the cache of its offset. -/
def getters : List (Cache × (BitVec 64 → StepProg SearchError (Option (BitVec 64)))) :=
  [(.pebOffset, getProcessPeb u dec), (.processIdOffset, getProcessId u dec),
    (.processImageBaseOffset, getProcessImageBase u dec)]

/-- The instructions that are scanned for the routine at `a`. -/
def routineCode (mem : Mem 64) (a : BitVec 64) : List Instruction :=
  StructureOffset.decodeAll dec StructureOffset.pageSize a (read mem a StructureOffset.pageSize)

end

section
variable {ε α : Type} {u : Text.Unicode} {dec : StructureOffset.InstructionDecoder}
  {ans : (q : SystemReq) → q.Answer} {b : BitVec 32} {mem : Mem 64} {c : Caches}

/-! One call on caches that hold. -/

/-- The end of a call that leaves the caches `c`. -/
def leaving (c : Caches) : Outcome ε α → Outcome Empty (Except ε α × Caches)
  | .ok a => .ok (.ok a, c)
  | .err e => .ok (.error e, c)
  | .panic => .panic

theorem leaving_eq_ok {c c' : Caches} {o : Outcome ε α} {a : α} :
    leaving c o = .ok (.ok a, c') ↔ o = .ok a ∧ c = c' := by
  cases o <;> simp [leaving]

theorem alone_meets {p : StepProg ε α} {post : Outcome ε α → Prop}
    (hp : p.Meets (Answers u dec ans b False) (Stores u dec ans) post)
    (hc : CachesHold u dec ans c) :
    ∃ o c', post o ∧ CachesHold u dec ans c' ∧ (alone b p c).result ans = leaving c' o := by
  induction p generalizing c with
  | ok a => exact ⟨_, c, hp, hc, rfl⟩
  | err e => exact ⟨_, c, hp, hc, rfl⟩
  | panic => exact ⟨_, c, hp, hc, rfl⟩
  | ask q k ih =>
    cases q with
    | load cache => exact ih (c cache) (hp.2 _ (hc cache)) hc
    | store cache value =>
      have hkeeps := @serveCaches_keeps u dec ans b c none (.store cache value) hc hp.1
      exact ih () (hp.2 _ trivial) hkeeps.2.1
    | system q => exact ih (ans q) (hp.2 _ (.inl rfl)) hc
    | rtlGetVersion => exact ih b (hp.2 _ rfl) hc

/-- It ends as on empty caches, and leaves caches that hold. -/
theorem alone_plain {p : StepProg ε α} (hp : SeesPlain u dec ans b False (fun _ => False) p)
    (hc : CachesHold u dec ans c) : ∃ c', CachesHold u dec ans c' ∧
      (alone b p c).result ans = leaving c' (p.result (plain ans b)) := by
  obtain ⟨o, c', ho, hc', hresult⟩ := alone_meets hp hc
  rcases ho with rfl | ⟨e, -, hfalse⟩
  · exact ⟨c', hc', hresult⟩
  · exact hfalse.elim

theorem alone_body (call : ProcessCall) (hc : CachesHold u dec ans c) :
    ∃ c', CachesHold u dec ans c' ∧ (alone b (call.body u dec) c).result ans =
      leaving c' ((call.body u dec).result (plain ans b)) :=
  alone_plain ((body_sees call).mono fun _ he => he.1) hc

/-! Getters. -/

theorem discover_field_iff (himage : ImageOf ans mem) {cache : Cache}
    (hcache : discover u dec cache = findOffsetFromRoutine u dec ntoskrnl cache.routineName)
    {d : BitVec 64} : (discover u dec cache).result ans = .ok (some d) ↔
      ∃ a, Exported u ans cache a ∧ scan (routineCode dec mem a) = some d := by
  rw [hcache, findOffsetFromRoutine_eq_some]
  simp only [himage.copy, routineCode]

theorem readEprocessField_plain (himage : ImageOf ans mem) {cache : Cache}
    (hcache : discover u dec cache = findOffsetFromRoutine u dec ntoskrnl cache.routineName)
    {eprocess v : BitVec 64} :
    (readEprocessField eprocess
      (searchCachedOffset u dec cache ntoskrnl cache.routineName)).result (plain ans b) =
        .ok (some v) ↔
      ∃ d, (discover u dec cache).result ans = .ok (some d) ∧ readWord mem (eprocess + d) = v := by
  rw [readEprocessField, Prog.result_bind, searchCachedOffset_plain hcache, Outcome.bind_eq_ok]
  constructor
  · intro h
    obtain ⟨_ | d, hd, hread⟩ := h
    · cases hread
    · refine ⟨d, hd, ?_⟩
      rw [← himage.readPointer]
      exact Option.some.inj (Outcome.ok.inj hread)
  · intro h
    obtain ⟨d, hd, hread⟩ := h
    refine ⟨some d, hd, ?_⟩
    rw [← hread, ← himage.readPointer]
    rfl

/-- What the getters have in common. -/
theorem getter_cases {k : Cache} {get : BitVec 64 → StepProg SearchError (Option (BitVec 64))}
    (hget : (k, get) ∈ getters u dec) :
    discover u dec k = findOffsetFromRoutine u dec ntoskrnl k.routineName ∧
      ∀ eprocess, get eprocess =
        readEprocessField eprocess (searchCachedOffset u dec k ntoskrnl k.routineName) := by
  simp only [getters, List.mem_cons, Prod.mk.injEq, List.not_mem_nil, or_false] at hget
  rcases hget with ⟨rfl, rfl⟩ | ⟨rfl, rfl⟩ | ⟨rfl, rfl⟩ <;> exact ⟨rfl, fun _ => rfl⟩

theorem getter_alone {k : Cache} {get : BitVec 64 → StepProg SearchError (Option (BitVec 64))}
    (hget : (k, get) ∈ getters u dec) (eprocess : BitVec 64) (hc : CachesHold u dec ans c) :
    ∃ c', CachesHold u dec ans c' ∧
      (alone b (get eprocess) c).result ans = leaving c' ((get eprocess).result (plain ans b)) := by
  obtain ⟨hcache, heq⟩ := getter_cases hget
  rw [heq]
  exact alone_plain ((readEprocessField_sees (searchCachedOffset_sees hcache) eprocess).mono
    fun _ he => he.1) hc

/-- A getter on caches that hold returns the field at the offset in the routine. -/
theorem getter_iff (himage : ImageOf ans mem) (hc : CachesHold u dec ans c) {k : Cache}
    {get : BitVec 64 → StepProg SearchError (Option (BitVec 64))} (hget : (k, get) ∈ getters u dec)
    {eprocess v : BitVec 64} :
    (∃ c', CachesHold u dec ans c' ∧
      (alone b (get eprocess) c).result ans = .ok (.ok (some v), c')) ↔
      ∃ a d, Exported u ans k a ∧ scan (routineCode dec mem a) = some d ∧
        readWord mem (eprocess + d) = v := by
  obtain ⟨c₁, hc₁, halone⟩ := @getter_alone u dec ans b c k get hget eprocess hc
  obtain ⟨hcache, heq⟩ := getter_cases hget
  have hplain : (get eprocess).result (plain ans b) = .ok (some v) ↔
      ∃ a d, Exported u ans k a ∧ scan (routineCode dec mem a) = some d ∧
        readWord mem (eprocess + d) = v := by
    rw [heq, readEprocessField_plain himage hcache]
    simp only [discover_field_iff himage hcache]
    constructor
    · intro h
      obtain ⟨d, ⟨a, ha, hscan⟩, hread⟩ := h
      exact ⟨a, d, ha, hscan, hread⟩
    · intro h
      obtain ⟨a, d, ha, hscan, hread⟩ := h
      exact ⟨d, ⟨a, ha, hscan⟩, hread⟩
  rw [← hplain, halone]
  constructor
  · intro h
    obtain ⟨c', -, h⟩ := h
    exact (leaving_eq_ok.mp h).1
  · intro h
    exact ⟨c₁, hc₁, leaving_eq_ok.mpr ⟨h, rfl⟩⟩

/-- **A getter stands for its routine.** On caches that hold, it returns the word of the
    EPROCESS that is at the offset of the first accessor in the exported routine, and
    nothing else. Where the routine, entered with the EPROCESS in RCX, reaches that
    accessor and returns from it undisturbed, this is what it returns in RAX. -/
theorem getter_calls_routine (himage : ImageOf ans mem) (hc : CachesHold u dec ans c) {k : Cache}
    {get : BitVec 64 → StepProg SearchError (Option (BitVec 64))} (hget : (k, get) ∈ getters u dec)
    (eprocess : BitVec 64) :
    (∀ v, (∃ c', CachesHold u dec ans c' ∧
      (alone b (get eprocess) c).result ans = .ok (.ok (some v), c')) ↔
        ∃ a d, Exported u ans k a ∧ scan (routineCode dec mem a) = some d ∧
          readWord mem (eprocess + d) = v) ∧
    ∀ a pre d rest, Exported u ans k a → routineCode dec mem a = pre ++ accessor d 0 :: rest →
      (∀ i ∈ pre, i.Passed) → ∀ cpu : Cpu, cpu.mem = mem → cpu.reg .rcx = eprocess →
      Undisturbed (routineCode dec mem a) pre.length d cpu →
        ∃ cpu' c', Finishes Instruction.exec (routineCode dec mem a) cpu cpu' ∧
          CachesHold u dec ans c' ∧
          (alone b (get eprocess) c).result ans = .ok (.ok (some (cpu'.reg .rax)), c') := by
  refine ⟨fun v => getter_iff himage hc hget, ?_⟩
  intro a pre d rest hexported hcode hpre cpu hmem hrcx hplain
  have hk : (routineCode dec mem a)[pre.length]? = some (accessor d 0) := by simp [hcode]
  obtain ⟨cpu', hfinishes, hrax⟩ := returnsField_of_undisturbed hk hplain
  have hscan : scan (routineCode dec mem a) = some d := scan_iff.mpr ⟨pre, 0, rest, hcode, hpre⟩
  rw [hmem, hrcx] at hrax
  obtain ⟨c', hc', hget⟩ := (@getter_iff u dec ans b mem c himage hc k get hget eprocess _).mpr
    ⟨a, d, hexported, hscan, hrax.symm⟩
  exact ⟨cpu', c', hfinishes, hc', hget⟩

/-! The search by identifier. -/

theorem processLoop_plain (himage : ImageOf ans mem) (system pidOffset linkOffset pid : BitVec 64)
    (fuel : Nat) (process : BitVec 64) :
    (processLoop system pidOffset linkOffset pid fuel process).result (plain ans b) =
      .ok (WinKernl.processLoop mem system pidOffset linkOffset pid fuel process) := by
  induction fuel generalizing process with
  | zero => rfl
  | succ fuel ih =>
    rw [processLoop, Prog.result_ask, Prog.result_ite, processLoop_succ]
    show (if ans (.readPointer _) = pid then _ else _) = _
    rw [himage.readPointer, uniqueProcessId]
    by_cases hid : readWord mem (process + pidOffset) = pid
    · rw [if_pos hid, if_pos hid]
      rfl
    · rw [if_neg hid, if_neg hid, Prog.result_ask, Prog.result_ite]
      show (if ans (.readPointer _) = 0 then _ else _) = _
      rw [himage.readPointer]
      by_cases hnull : readWord mem (process + linkOffset) = 0
      · rw [if_pos hnull, if_pos hnull]
        rfl
      · rw [if_neg hnull, if_neg hnull, Prog.result_ite]
        show (if ans (.readPointer _) - linkOffset = system then _ else _) = _
        rw [himage.readPointer]
        by_cases hsys : readWord mem (process + linkOffset) - linkOffset = system
        · rw [if_pos hsys, if_pos hsys]
          rfl
        · rw [if_neg hsys, if_neg hsys]
          show (processLoop _ _ _ _ _ (ans (.readPointer _) - linkOffset)).result _ = _
          rw [himage.readPointer]
          exact ih _

/-- What the loop returns has the identifier. -/
theorem processLoop_id {system pidOffset linkOffset pid : BitVec 64} {fuel : Nat}
    {process p : BitVec 64}
    (h : WinKernl.processLoop mem system pidOffset linkOffset pid fuel process = some (some p)) :
    uniqueProcessId mem pidOffset p = pid := by
  induction fuel generalizing process with
  | zero => cases h
  | succ fuel ih =>
    rw [processLoop_succ] at h
    split at h
    · next hid =>
      cases h
      exact hid
    · split at h
      · cases h
      · split at h
        · cases h
        · exact ih h

/-- With what it needs resolved, the search is that of the list. -/
theorem getProcessById_plain (himage : ImageOf ans mem) {system pidOffset : BitVec 64}
    (hsystem : (discover u dec .psInitialSystemProcess).result ans = .ok (some system))
    (hoffset : (discover u dec .processIdOffset).result ans = .ok (some pidOffset))
    (pid : BitVec 32) (fuel : Nat) :
    (getProcessById u dec pid fuel).result (plain ans b) =
      .ok (WinKernl.processLoop mem system pidOffset (getActiveProcessLinksOffset b)
        (pid.setWidth 64) fuel system) := by
  have hsearch : (searchProcessIdOffset u dec).result (plain ans b) = .ok (some pidOffset) :=
    (searchCachedOffset_plain rfl).trans hoffset
  rw [getProcessById, Prog.result_bind, getInitialSystemProcess_plain,
    discover_system_iff.mp hsystem]
  show ((searchProcessIdOffset u dec >>= _).result _) = _
  rw [Prog.result_bind, hsearch]
  exact processLoop_plain himage system pidOffset _ _ fuel system

/-- A search that ends with a process has resolved what it needs. -/
theorem getProcessById_resolved {pid : BitVec 32} {fuel : Nat} {found : Option (Option (BitVec 64))}
    (h : (getProcessById u dec pid fuel).result (plain ans b) = .ok found) :
    ∃ system pidOffset,
      (discover u dec .psInitialSystemProcess).result ans = .ok (some system) ∧
      (discover u dec .processIdOffset).result ans = .ok (some pidOffset) := by
  rw [getProcessById, Prog.result_bind, getInitialSystemProcess_plain, Outcome.bind_eq_ok] at h
  obtain ⟨system, hsystem, h⟩ := h
  rw [Prog.result_bind, Outcome.bind_eq_ok] at h
  obtain ⟨pidOffset, hoffset, h⟩ := h
  cases pidOffset with
  | none => cases h
  | some pidOffset =>
    refine ⟨system, pidOffset, discover_system_iff.mpr hsystem, ?_⟩
    exact (searchCachedOffset_plain rfl).symm.trans hoffset

theorem getProcessId_plain (himage : ImageOf ans mem) {pidOffset : BitVec 64}
    (hoffset : (discover u dec .processIdOffset).result ans = .ok (some pidOffset))
    (p : BitVec 64) : (getProcessId u dec p).result (plain ans b) =
      .ok (some (uniqueProcessId mem pidOffset p)) :=
  (@readEprocessField_plain u dec ans b mem himage .processIdOffset rfl p _).mpr
    ⟨pidOffset, hoffset, rfl⟩

/-- The first of the visited with the identifier of a process is the process, unless it is the
    list head. -/
theorem visited_find {pidOffset linkOffset : BitVec 64} (l : ProcessList mem pidOffset linkOffset)
    {p id : BitVec 64} (hp : p ∈ l.processes) (hid : uniqueProcessId mem pidOffset p = id)
    (hfront : p ∈ l.system :: l.before ∨ uniqueProcessId mem pidOffset l.bogus ≠ id) :
    l.visited.find? (fun q => uniqueProcessId mem pidOffset q = id) = some p := by
  have hskip : l.visited.find? (fun q => uniqueProcessId mem pidOffset q = id) =
      l.processes.find? fun q => uniqueProcessId mem pidOffset q = id := by
    rw [ProcessList.visited, ProcessList.processes]
    refine find?_skip ?_
    rcases hfront with hfront | hbogus
    · exact .inr ⟨p, hfront, decide_eq_true hid⟩
    · exact .inl (decide_eq_false hbogus)
  rw [hskip]
  cases hfind : l.processes.find? fun q => uniqueProcessId mem pidOffset q = id with
  | none => exact absurd (decide_eq_true hid) (List.find?_eq_none.mp hfind p hp)
  | some q =>
    have hq : uniqueProcessId mem pidOffset q = id := by
      simpa using List.find?_some hfind
    rw [l.eq_of_id (List.mem_of_find?_eq_some hfind) hp (hq.trans hid.symm)]

/-- **Identifiers and processes.** Whatever memory the list is in, the identifier of a
    process that `get_process_by_id` has found is the one it was asked for. Where the
    memory holds a process list, a process whose identifier `get_process_id` returns is
    found by it, unless the list head comes first and has the same word for one. -/
theorem getProcessById_getProcessId (himage : ImageOf ans mem) (hc : CachesHold u dec ans c) :
    (∀ pid fuel p c', (alone b (getProcessById u dec pid fuel) c).result ans =
        .ok (.ok (some (some p)), c') →
      CachesHold u dec ans c' ∧ ∃ c'', CachesHold u dec ans c'' ∧
        (alone b (getProcessId u dec p) c').result ans =
          .ok (.ok (some (pid.setWidth 64)), c'')) ∧
    ∀ pidOffset (l : ProcessList mem pidOffset (getActiveProcessLinksOffset b)),
      (discover u dec .psInitialSystemProcess).result ans = .ok (some l.system) →
      (discover u dec .processIdOffset).result ans = .ok (some pidOffset) →
      ∀ p ∈ l.processes, ∀ (pid : BitVec 32) c',
        (alone b (getProcessId u dec p) c).result ans = .ok (.ok (some (pid.setWidth 64)), c') →
        (p ∈ l.system :: l.before ∨ uniqueProcessId mem pidOffset l.bogus ≠ pid.setWidth 64) →
        CachesHold u dec ans c' ∧ ∃ fuel c'', CachesHold u dec ans c'' ∧
          (alone b (getProcessById u dec pid fuel) c').result ans =
            .ok (.ok (some (some p)), c'') := by
  constructor
  · intro pid fuel p c' hfound
    obtain ⟨c₁, hc₁, hfirst⟩ := @alone_body u dec ans b c (.getProcessById pid fuel) hc
    obtain ⟨hplain, rfl⟩ := leaving_eq_ok.mp (hfirst.symm.trans hfound)
    refine ⟨hc₁, ?_⟩
    obtain ⟨c₂, hc₂, hsecond⟩ := @alone_body u dec ans b c₁ (.getProcessId p) hc₁
    refine ⟨c₂, hc₂, hsecond.trans (leaving_eq_ok.mpr ⟨?_, rfl⟩)⟩
    -- both read at the offset that the first call resolved
    obtain ⟨system, pidOffset, hsystem, hoffset⟩ := getProcessById_resolved hplain
    have hloop := (getProcessById_plain himage hsystem hoffset pid fuel).symm.trans hplain
    exact (getProcessId_plain himage hoffset p).trans
      (congrArg (fun id => Outcome.ok (some id)) (processLoop_id (Outcome.ok.inj hloop)))
  · intro pidOffset l hsystem hoffset p hp pid c' hread hfront
    obtain ⟨c₁, hc₁, hfirst⟩ := @alone_body u dec ans b c (.getProcessId p) hc
    obtain ⟨hplain, rfl⟩ := leaving_eq_ok.mp (hfirst.symm.trans hread)
    refine ⟨hc₁, ?_⟩
    have hid : uniqueProcessId mem pidOffset p = pid.setWidth 64 :=
      Option.some.inj (Outcome.ok.inj ((getProcessId_plain himage hoffset p).symm.trans hplain))
    let r : Resolved := ⟨.ok l.system, .ok (some pidOffset), b⟩
    obtain ⟨fuel, hreturns⟩ := returns_find (r := r) l rfl rfl pid
    obtain ⟨c₂, hc₂, hsecond⟩ := @alone_body u dec ans b c₁ (.getProcessById pid fuel) hc₁
    refine ⟨fuel, c₂, hc₂, hsecond.trans (leaving_eq_ok.mpr ⟨?_, rfl⟩)⟩
    rw [visited_find l hp hid hfront, getProcessById_loop (r := r) l rfl rfl,
      Option.map_eq_some_iff] at hreturns
    obtain ⟨found, hloop, hfound⟩ := hreturns
    refine (getProcessById_plain himage hsystem hoffset pid fuel).trans (congrArg Outcome.ok ?_)
    rw [hloop, Except.ok.inj hfound]

end

/-! A kernel that has its exports in `mem`. -/

def imageAnswer (mem : Mem 64) : (q : SystemReq) → q.Answer
  | .zwQuerySystemInformation none => ⟨statusInfoLengthMismatch, 304, []⟩
  | .zwQuerySystemInformation (some n) => ⟨0, n, [OffsetCache.kernelModule]⟩
  | .rtlFindExportedRoutineByName imageBase routineName =>
    OffsetCache.exportAddress imageBase routineName
  | .readPointer a => readWord mem a
  | .copy a n => ⟨read mem a n, read_length mem a n⟩

theorem imageOf_imageAnswer (mem : Mem 64) : ImageOf (imageAnswer mem) mem :=
  ⟨fun _ => rfl, fun _ _ => rfl⟩

theorem imageAnswer_exported (mem : Mem 64) (k : Cache) :
    Exported fixtureUnicode (imageAnswer mem) k (OffsetCache.routineAddress k) :=
  OffsetCache.exported_of_lists ⟨.inl rfl, (by decide : ntSuccess 0#32 = true), rfl⟩
    (fun _ _ => rfl) k

theorem cachesHold_empty {u : Text.Unicode} {dec : StructureOffset.InstructionDecoder}
    {ans : (q : SystemReq) → q.Answer} : CachesHold u dec ans fun _ => 0 := fun _ => .inl rfl

/-- `mov rax, [rcx + d]` and `ret` are decoded as these. -/
theorem decodeAll_move (fuel : Nat) (a : BitVec 64) (d : Byte) (rest : List Byte) :
    StructureOffset.decodeAll StructureOffset.moveDecoder (fuel + 2) a
      (0x48 :: 0x8B :: 0x41 :: d :: 0xC3 :: rest) = accessor (d.signExtend 64) 0 :: .ret ::
        StructureOffset.decodeAll StructureOffset.moveDecoder fuel (a + 4#64 + 1#64) rest := by
  have hlen : 4 ≤ (0x48#8 :: 0x8B :: 0x41 :: d :: 0xC3 :: rest).length :=
    Nat.le_add_left 4 (rest.length + 1)
  have hmove : StructureOffset.moveDecoder a (0x48 :: 0x8B :: 0x41 :: d :: 0xC3 :: rest) =
      (accessor (d.signExtend 64) 0, ⟨4, Nat.succ_pos 3⟩) := by
    rw [StructureOffset.moveDecoder, if_pos ⟨rfl, hlen⟩]
    rfl
  have hret : StructureOffset.moveDecoder (a + 4#64) (0xC3 :: rest) =
      (.ret, ⟨1, Nat.one_pos⟩) := by
    rw [StructureOffset.moveDecoder, if_neg (fun h => by simp at h)]
    exact if_pos rfl
  rw [StructureOffset.decodeAll, if_neg (List.cons_ne_nil _ _), hmove]
  refine congrArg (_ :: ·) ?_
  show StructureOffset.decodeAll _ _ (a + 4#64) (0xC3 :: rest) = _
  rw [StructureOffset.decodeAll, if_neg (List.cons_ne_nil _ _), hret]
  rfl

theorem routineCode_move {mem : Mem 64} {a : BitVec 64} {d : Byte}
    (h : read mem a 5 = [0x48, 0x8B, 0x41, d, 0xC3]) : ∃ rest,
      routineCode StructureOffset.moveDecoder mem a = accessor (d.signExtend 64) 0 :: .ret :: rest := by
  have hpage : read mem a StructureOffset.pageSize =
      0x48 :: 0x8B :: 0x41 :: d :: 0xC3 :: read mem (a + BitVec.ofNat 64 5) 4091 := by
    show read mem a (5 + 4091) = _
    rw [read_add, h]
    simp only [List.cons_append, List.nil_append]
  rw [routineCode, hpage]
  exact ⟨_, decodeAll_move 4094 a d _⟩

/-- The three processes, the pointer to the first, and `PsGetProcessId`. -/
def fieldsMem : Mem 64 :=
  write (writeWord (writeWord (writeWord (writeWord ringLinks 0x10050#64 4#64)
    0x11050#64 8#64) 0x12050#64 12#64) 0xFFFFF80000017000#64 0x10000#64)
    0xFFFFF8000000F000#64 [0x48#8, 0x8B#8, 0x41#8, 0x50#8, 0xC3#8]

def fieldsList : ProcessList fieldsMem 0x50#64 (getActiveProcessLinksOffset 26100#32) :=
  ⟨0x10000#64, [0x11000#64], 0x20000#64, [0x12000#64], by decide, by decide, by decide, by decide⟩

theorem routineAddress_eq {k : Cache} {n : Nat} (h : k.routineName.length = n) :
    OffsetCache.routineAddress k = 0xFFFFF80000000000#64 + 0x1000#64 * BitVec.ofNat 64 (n + 1) := by
  rw [OffsetCache.routineAddress, OffsetCache.exportAddress, OffsetCache.kernelModule_imageBase,
    List.length_append, h]
  rfl

theorem routineAddress_processId :
    OffsetCache.routineAddress .processIdOffset = 0xFFFFF8000000F000#64 :=
  @routineAddress_eq .processIdOffset 14 (String.length_toList.trans (by decide))

theorem routineAddress_system :
    OffsetCache.routineAddress .psInitialSystemProcess = 0xFFFFF80000017000#64 :=
  @routineAddress_eq .psInitialSystemProcess 22 (String.length_toList.trans (by decide))

theorem fieldsMem_routine : ∃ rest, routineCode StructureOffset.moveDecoder fieldsMem
    (OffsetCache.routineAddress .processIdOffset) = [] ++ accessor 0x50#64 0 :: .ret :: rest := by
  rw [routineAddress_processId]
  exact @routineCode_move fieldsMem _ 0x50#8 (by decide)

theorem fieldsMem_offset :
    (discover fixtureUnicode StructureOffset.moveDecoder .processIdOffset).result
      (imageAnswer fieldsMem) = .ok (some 0x50#64) := by
  obtain ⟨rest, hcode⟩ := fieldsMem_routine
  refine (discover_field_iff (imageOf_imageAnswer fieldsMem) rfl).mpr
    ⟨_, imageAnswer_exported fieldsMem _, ?_⟩
  rw [hcode]
  exact scan_accessor _ _ _

theorem fieldsMem_system :
    (discover fixtureUnicode StructureOffset.moveDecoder .psInitialSystemProcess).result
      (imageAnswer fieldsMem) = .ok (some fieldsList.system) := by
  refine discover_system_iff.mpr (readInitialSystemProcess_eq_ok.mpr
    ⟨_, imageAnswer_exported fieldsMem _, ?_⟩)
  rw [routineAddress_system]
  exact (by decide : readWord fieldsMem 0xFFFFF80000017000#64 = 0x10000#64)

theorem getProcessId_calls_routine : ∃ cpu' c',
    Finishes Instruction.exec (routineCode StructureOffset.moveDecoder fieldsMem
      (OffsetCache.routineAddress .processIdOffset)) ⟨fun _ => 0x10000#64, 0, fieldsMem⟩ cpu' ∧
    CachesHold fixtureUnicode StructureOffset.moveDecoder (imageAnswer fieldsMem) c' ∧
    (alone 26100#32 (getProcessId fixtureUnicode StructureOffset.moveDecoder 0x10000#64)
      (fun _ => 0)).result (imageAnswer fieldsMem) = .ok (.ok (some (cpu'.reg .rax)), c') := by
  obtain ⟨rest, hcode⟩ := fieldsMem_routine
  have hcalls := getter_calls_routine (b := 26100#32) (imageOf_imageAnswer fieldsMem)
    (@cachesHold_empty fixtureUnicode StructureOffset.moveDecoder _)
    (List.mem_cons_of_mem _ List.mem_cons_self) 0x10000#64
  refine hcalls.2 _ [] 0x50#64 (.ret :: rest) (imageAnswer_exported fieldsMem _) hcode
    (fun _ h => absurd h List.not_mem_nil) ⟨fun _ => 0x10000#64, 0, fieldsMem⟩ rfl rfl ?_
  rw [hcode]
  exact ⟨_, 1, _, .refl 0 _, rfl, rfl, .refl 1 _, rfl, Cpu.setReg_same _ _ _⟩

/-- The process behind the list head is found on empty caches, once its identifier is read,
    and has that identifier when it is read again. -/
theorem getProcessById_getProcessId_behind_head : ∃ fuel c₁ c₂ c₃,
    (alone 26100#32 (getProcessId fixtureUnicode StructureOffset.moveDecoder 0x12000#64)
      (fun _ => 0)).result (imageAnswer fieldsMem) = .ok (.ok (some 12#64), c₁) ∧
    (alone 26100#32 (getProcessById fixtureUnicode StructureOffset.moveDecoder 12#32 fuel)
      c₁).result (imageAnswer fieldsMem) = .ok (.ok (some (some 0x12000#64)), c₂) ∧
    (alone 26100#32 (getProcessId fixtureUnicode StructureOffset.moveDecoder 0x12000#64)
      c₂).result (imageAnswer fieldsMem) = .ok (.ok (some 12#64), c₃) := by
  have himage := imageOf_imageAnswer fieldsMem
  obtain ⟨c₁, hc₁, hread⟩ := @alone_body fixtureUnicode StructureOffset.moveDecoder
    (imageAnswer fieldsMem) 26100#32 _ (.getProcessId 0x12000#64) cachesHold_empty
  have hid : uniqueProcessId fieldsMem 0x50#64 0x12000#64 = 12#64 := by decide
  replace hread := hread.trans
    (congrArg (leaving c₁) ((getProcessId_plain himage fieldsMem_offset _).trans (by rw [hid])))
  obtain ⟨-, hlisted⟩ := getProcessById_getProcessId (b := 26100#32) himage
    (@cachesHold_empty fixtureUnicode StructureOffset.moveDecoder _)
  obtain ⟨-, fuel, c₂, -, hfound⟩ := hlisted _ fieldsList fieldsMem_system fieldsMem_offset
    0x12000#64 (.tail _ (.tail _ (.head _))) 12#32 c₁ hread (.inr (by decide))
  obtain ⟨hreads, -⟩ := getProcessById_getProcessId (b := 26100#32) himage hc₁
  obtain ⟨-, c₃, -, hagain⟩ := hreads 12#32 fuel _ c₂ hfound
  exact ⟨fuel, c₁, c₂, c₃, hread, hfound, hagain⟩

end ProcessCalls
end WinKernl
