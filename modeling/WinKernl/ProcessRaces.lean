import WinKernl.ProcessCalls

/- Any clients of the process functions at once, on the four caches they share.

   A load, a store, a query, a read is one step each, and a client is a program that calls
   the functions in any order and goes on with what they return. The kernel's image and its
   answers are fixed; a query of the module list may fail each time, with the status its turn
   has. `plain` answers every load with 0: a program run on it resolves everything anew.
   `clients_race` says that nobody sees the difference, and that no client waits for another. -/
namespace WinKernl
open ByteMem Ask Runs Interleave

namespace ProcessCalls
open OffsetCache (Cache Caches ntoskrnl findOffsetFromRoutine readInitialSystemProcess discover
  Cache.routineName)

section
variable (u : Text.Unicode) (dec : StructureOffset.InstructionDecoder)
  (ans : (q : SystemReq) → q.Answer) (dwBuildNumber : BitVec 32)

/-- The answers where no cache is ever filled. -/
def plain : (q : StepReq) → q.Answer
  | .load _ => 0
  | .store _ _ => ()
  | .system q => ans q
  | .rtlGetVersion => dwBuildNumber

/-- The query of the module list has failed. -/
def QueryFailed : (q : SystemReq) → q.Answer → Prop
  | .zwQuerySystemInformation none, r =>
    r.status ≠ statusInfoLengthMismatch ∧ ntSuccess r.status = false
  | .zwQuerySystemInformation (some _), r => ntSuccess r.status = false
  | _, _ => False

/-- The kernel's answer, or where `fails` holds that of a query that failed. -/
def AnswersOr (fails : Prop) (q : SystemReq) (r : q.Answer) : Prop :=
  r = ans q ∨ fails ∧ QueryFailed q r

/-- What a thread may be answered: a cache is empty or holds what is found for it. -/
def Answers (fails : Prop) : (q : StepReq) → q.Answer → Prop
  | .load cache, r => r = 0 ∨ (discover u dec cache).result ans = .ok (some r)
  | .store _ _, _ => True
  | .system q, r => AnswersOr ans fails q r
  | .rtlGetVersion, r => r = dwBuildNumber

/-- What a thread may ask: a store is of what is found. -/
def Stores : StepReq → Prop
  | .store cache value => (discover u dec cache).result ans = .ok (some value)
  | _ => True

/-- The errors that a failed query leads to. -/
def Unresolved (fails : Prop) (e : SearchError) : Prop := fails ∧ e ≠ .unknownOffset

variable {u dec ans dwBuildNumber} {fails : Prop}

/-! Functions that touch no cache. -/

theorem querySystemModule_sees (name : List Char) :
    (querySystemModule u name).Sees (AnswersOr ans fails) (fun _ => True) ans fun _ => fails := by
  refine .ite (fun _ => .err _) fun _ => ⟨trivial, fun probe hprobe => ?_⟩
  rcases hprobe with rfl | ⟨hfails, hprobe⟩
  · refine Prog.Sees.ite (fun _ => .err _) fun _ => ⟨trivial, fun reply hreply => ?_⟩
    rcases hreply with rfl | ⟨hfails, hreply⟩
    · exact Prog.Sees.ite (fun _ => .err _) fun _ => .ok _
    · have hfailed : ntSuccess reply.status = false := hreply
      dsimp only
      rw [if_pos hfailed]
      exact .inr ⟨_, rfl, hfails⟩
  · have hfailed : probe.status ≠ statusInfoLengthMismatch ∧ ntSuccess probe.status = false :=
      hprobe
    dsimp only
    rw [if_pos hfailed]
    exact .inr ⟨_, rfl, hfails⟩

theorem findExportedRoutineByName_sees (moduleBase : BitVec 64) (exportedName : List Char) :
    (findExportedRoutineByName moduleBase exportedName).Sees (AnswersOr ans fails)
      (fun _ => True) ans fun _ => fails := by
  refine .ite (fun _ => .ok _) fun _ => .ask trivial (fun r hr => ?_) (.ite (fun _ => .ok _)
    fun _ => .ok _)
  exact hr.resolve_right fun h => h.2

theorem resolveSystemRoutine_sees (moduleName exportedName : List Char) :
    (resolveSystemRoutine u moduleName exportedName).Sees (AnswersOr ans fails) (fun _ => True) ans
      fun _ => fails := by
  refine .ite (fun _ => .err _) fun _ => .bind (.bind (querySystemModule_sees _) fun _ _ => .ok _)
    fun base _ => ?_
  cases base with
  | none => exact .ok _
  | some base => exact findExportedRoutineByName_sees _ _

theorem findStructureOffset_sees (a : BitVec 64) :
    (StructureOffset.findStructureOffset dec a).Sees (AnswersOr ans fails) (fun _ => True) ans
      fun _ => fails :=
  .ask trivial (fun _ hr => hr.resolve_right fun h => h.2) (.ok _)

theorem findOffsetFromRoutine_sees (moduleName routineName : List Char) :
    (findOffsetFromRoutine u dec moduleName routineName).Sees (AnswersOr ans fails)
      (fun _ => True) ans (Unresolved fails) := by
  refine .bind (.mapErr (resolveSystemRoutine_sees _ _) fun _ h => ⟨h, nofun⟩) fun routine _ => ?_
  cases routine with
  | none => exact .err _
  | some routine => exact .mapErr (findStructureOffset_sees _) fun e => e.elim

theorem readInitialSystemProcess_sees :
    (readInitialSystemProcess u).Sees (AnswersOr ans fails) (fun _ => True) ans
      (Unresolved fails) := by
  refine .bind (.mapErr (resolveSystemRoutine_sees _ _) fun _ h => ⟨h, nofun⟩) fun exported _ => ?_
  cases exported with
  | none => exact .err _
  | some exported => exact .ask trivial (fun _ hr => hr.resolve_right fun h => h.2) (.ok _)

theorem result_onSystem {ε α : Type} (p : SystemProg ε α) :
    (onSystem p).result (plain ans dwBuildNumber) = p.result ans := by
  induction p with
  | ok a => rfl
  | err e => rfl
  | panic => rfl
  | ask q k ih => exact ih (ans q)

theorem Sees.onSystem {ε α : Type} {X : ε → Prop} {p : SystemProg ε α}
    (hp : p.Sees (AnswersOr ans fails) (fun _ => True) ans X) :
    (onSystem p).Sees (Answers u dec ans dwBuildNumber fails) (Stores u dec ans)
      (plain ans dwBuildNumber) X := by
  unfold Prog.Sees at hp ⊢
  rw [result_onSystem]
  generalize p.result ans = o at hp
  induction p with
  | ok a => exact hp
  | err e => exact hp
  | panic => exact hp
  | ask q k ih => exact ⟨trivial, fun r hr => ih r (hp.2 r hr)⟩

/-! The functions of a client. -/

/-- A program of a thread ends as on empty caches, or for want of an answer. -/
abbrev SeesPlain {ε α : Type} (u : Text.Unicode) (dec : StructureOffset.InstructionDecoder)
    (ans : (q : SystemReq) → q.Answer) (dwBuildNumber : BitVec 32) (fails : Prop) (X : ε → Prop)
    (p : StepProg ε α) : Prop :=
  p.Sees (Answers u dec ans dwBuildNumber fails) (Stores u dec ans) (plain ans dwBuildNumber) X

theorem readPointer_sees {ε α : Type} {X : ε → Prop} {a : BitVec 64} {k : BitVec 64 → StepProg ε α}
    (hk : SeesPlain u dec ans dwBuildNumber fails X (k (ans (.readPointer a)))) :
    SeesPlain u dec ans dwBuildNumber fails X (.ask (.system (.readPointer a)) k) :=
  .ask trivial (fun _ hr => hr.resolve_right fun h => h.2) hk

/-- On empty caches a lookup is a search. -/
theorem searchCachedOffset_plain {cache : Cache}
    (hcache : discover u dec cache = findOffsetFromRoutine u dec ntoskrnl cache.routineName) :
    (searchCachedOffset u dec cache ntoskrnl cache.routineName).result (plain ans dwBuildNumber) =
      (discover u dec cache).result ans := by
  rw [searchCachedOffset, Prog.result_ask, Prog.result_ite]
  apply (if_neg (not_not_intro rfl)).trans
  rw [Prog.result_bind, result_onSystem, hcache]
  rcases (findOffsetFromRoutine u dec ntoskrnl cache.routineName).result ans with
    (_ | offset) | e | _ <;> rfl

theorem getInitialSystemProcess_plain :
    (getInitialSystemProcess u).result (plain ans dwBuildNumber) =
      (readInitialSystemProcess u).result ans := by
  rw [getInitialSystemProcess, Prog.result_ask, Prog.result_ite]
  apply (if_neg (not_not_intro rfl)).trans
  rw [Prog.result_bind, result_onSystem]
  rcases (readInitialSystemProcess u).result ans with p | e | _ <;> rfl

theorem discover_system_iff {p : BitVec 64} :
    (discover u dec .psInitialSystemProcess).result ans = .ok (some p) ↔
      (readInitialSystemProcess u).result ans = .ok p := by
  rw [discover, Prog.result_bind]
  cases (readInitialSystemProcess u).result ans <;> simp [Outcome.bind]

/-- A search that finds its cache empty fills it with what it finds. -/
theorem fillCache_sees {cache : Cache}
    (hcache : discover u dec cache = findOffsetFromRoutine u dec ntoskrnl cache.routineName) :
    SeesPlain u dec ans dwBuildNumber fails (Unresolved fails)
      (onSystem (findOffsetFromRoutine u dec ntoskrnl cache.routineName) >>= fun offset =>
        match offset with
        | some offset => .ask (.store cache offset) fun _ => .ok (some offset)
        | none => .ok none) := by
  refine .bind (Sees.onSystem (findOffsetFromRoutine_sees _ _)) fun offset hoffset => ?_
  cases offset with
  | none => exact .ok _
  | some offset =>
    rw [result_onSystem, ← hcache] at hoffset
    exact .ask hoffset (fun _ _ => rfl) (.ok _)

/-- A cache that is filled holds what its routine would be found to have. -/
theorem searchCachedOffset_sees {cache : Cache}
    (hcache : discover u dec cache = findOffsetFromRoutine u dec ntoskrnl cache.routineName) :
    SeesPlain u dec ans dwBuildNumber fails (Unresolved fails)
      (searchCachedOffset u dec cache ntoskrnl cache.routineName) := by
  refine ⟨trivial, fun cached hcached => ?_⟩
  by_cases hzero : cached = 0
  · subst hzero
    exact fillCache_sees hcache
  · -- what the cache holds is what the search would end in
    show Prog.Meets _ _ _ (if cached ≠ 0 then _ else _)
    rw [if_pos hzero]
    left
    rw [searchCachedOffset_plain hcache]
    exact (hcached.resolve_left hzero).symm

theorem getInitialSystemProcess_sees : SeesPlain u dec ans dwBuildNumber fails (Unresolved fails)
    (getInitialSystemProcess u) := by
  have hempty : SeesPlain u dec ans dwBuildNumber fails (Unresolved fails)
      (onSystem (readInitialSystemProcess u) >>= fun systemProcess =>
        .ask (.store .psInitialSystemProcess systemProcess) fun _ => .ok systemProcess) := by
    refine .bind (Sees.onSystem readInitialSystemProcess_sees) fun systemProcess hread => ?_
    rw [result_onSystem] at hread
    exact .ask (discover_system_iff.mpr hread) (fun _ _ => rfl) (.ok _)
  refine ⟨trivial, fun cached hcached => ?_⟩
  by_cases hzero : cached = 0
  · subst hzero
    exact hempty
  · show Prog.Meets _ _ _ (if cached ≠ 0 then _ else _)
    rw [if_pos hzero]
    left
    rw [getInitialSystemProcess_plain]
    exact (discover_system_iff.mp (hcached.resolve_left hzero)).symm

theorem searchEach_sees {searches : List (StepProg SearchError (Option (BitVec 64)))}
    (h : ∀ search ∈ searches, SeesPlain u dec ans dwBuildNumber fails (Unresolved fails) search) :
    SeesPlain u dec ans dwBuildNumber fails (Unresolved fails) (searchEach searches) := by
  induction searches with
  | nil => exact .ok _
  | cons search searches ih =>
    rw [List.forall_mem_cons] at h
    refine .bind h.1 fun offset _ => ?_
    cases offset with
    | none => exact .ok _
    | some offset => exact ih h.2

theorem initializeCachedOffsets_sees : SeesPlain u dec ans dwBuildNumber fails (Unresolved fails)
    (initializeCachedOffsets u dec) := by
  refine .bind (searchEach_sees ?_) fun found _ => ?_
  · simp only [List.forall_mem_cons, List.not_mem_nil, false_implies, implies_true, and_true]
    exact ⟨searchCachedOffset_sees rfl, searchCachedOffset_sees rfl, searchCachedOffset_sees rfl⟩
  · cases found with
    | false => exact .ok _
    | true => exact .bind getInitialSystemProcess_sees fun _ _ => .ok _

theorem readEprocessField_sees {offsetFn : StepProg SearchError (Option (BitVec 64))}
    (h : SeesPlain u dec ans dwBuildNumber fails (Unresolved fails) offsetFn)
    (eprocess : BitVec 64) : SeesPlain u dec ans dwBuildNumber fails (Unresolved fails)
      (readEprocessField eprocess offsetFn) := by
  refine .bind h fun offset _ => ?_
  cases offset with
  | none => exact .ok _
  | some offset => exact readPointer_sees (.ok _)

theorem processLoop_sees (systemProcess pidOffset linkOffset pid : BitVec 64) (fuel : Nat)
    (process : BitVec 64) : SeesPlain u dec ans dwBuildNumber fails (Unresolved fails)
      (processLoop systemProcess pidOffset linkOffset pid fuel process) := by
  induction fuel generalizing process with
  | zero => exact .ok _
  | succ fuel ih =>
    refine readPointer_sees (.ite (fun _ => .ok _) fun _ => ?_)
    refine readPointer_sees (.ite (fun _ => .ok _) fun _ => ?_)
    exact .ite (fun _ => .ok _) fun _ => ih _

theorem getProcessById_sees (pid : BitVec 32) (fuel : Nat) :
    SeesPlain u dec ans dwBuildNumber fails (Unresolved fails) (getProcessById u dec pid fuel) := by
  refine .bind getInitialSystemProcess_sees fun systemProcess _ => ?_
  refine .bind (searchCachedOffset_sees rfl) fun pidOffset _ => ?_
  cases pidOffset with
  | none => exact .err _
  | some pidOffset => exact .ask trivial (fun _ hr => hr) (processLoop_sees _ _ _ _ _ _)

theorem body_sees (c : ProcessCall) :
    SeesPlain u dec ans dwBuildNumber fails (Unresolved fails) (c.body u dec) := by
  cases c with
  | getInitialSystemProcess => exact getInitialSystemProcess_sees
  | searchPebOffset => exact searchCachedOffset_sees rfl
  | searchProcessIdOffset => exact searchCachedOffset_sees rfl
  | searchProcessImageBaseOffset => exact searchCachedOffset_sees rfl
  | initializeCachedOffsets => exact initializeCachedOffsets_sees
  | getProcessPeb eprocess => exact readEprocessField_sees (searchCachedOffset_sees rfl) eprocess
  | getProcessId eprocess => exact readEprocessField_sees (searchCachedOffset_sees rfl) eprocess
  | getProcessImageBase eprocess =>
    exact readEprocessField_sees (searchCachedOffset_sees rfl) eprocess
  | getProcessById pid fuel => exact getProcessById_sees pid fuel

/-- What a call returns is what it returns on empty caches, or a failed query is to blame. -/
def Returned (u : Text.Unicode) (dec : StructureOffset.InstructionDecoder)
    (ans : (q : SystemReq) → q.Answer) (dwBuildNumber : BitVec 32) (c : ProcessCall)
    (r : c.Answer) : Prop :=
  (perform u dec c).result (plain ans dwBuildNumber) = .ok r ∨
    ∃ e, r = .error e ∧ e ≠ .unknownOffset

theorem perform_returns (c : ProcessCall) : (perform u dec c).Meets
    (Answers u dec ans dwBuildNumber fails) (Stores u dec ans)
    fun o => ∀ r, o = .ok r → Returned u dec ans dwBuildNumber c r := by
  refine Prog.meets_attempt.mpr (Prog.Meets.mono (fun _ _ h => h) (fun o ho => ?_) (body_sees c))
  intro r hr
  rcases ho with ho | ⟨e, rfl, hunresolved⟩
  · left
    rw [perform, Prog.result_attempt, ← ho]
    exact hr
  · cases hr
    exact .inr ⟨e, rfl, hunresolved.2⟩

end

/-! How many steps they take. -/

section
variable {u : Text.Unicode} {dec : StructureOffset.InstructionDecoder}

theorem querySystemModule_within (name : List Char) :
    (querySystemModule u name).Within (fun _ => 1) 2 := by
  refine .ite (fun _ => trivial) fun _ => .ask (n := 1) fun probe => ?_
  refine .ite (fun _ => trivial) fun _ => .ask (n := 0) fun reply => ?_
  exact .ite (fun _ => trivial) fun _ => trivial

theorem findExportedRoutineByName_within (moduleBase : BitVec 64) (exportedName : List Char) :
    (findExportedRoutineByName moduleBase exportedName).Within (fun _ => 1) 1 := by
  refine .ite (fun _ => trivial) fun _ => .ask (n := 0) fun addr => ?_
  exact .ite (fun _ => trivial) fun _ => trivial

theorem resolveSystemRoutine_within (moduleName exportedName : List Char) :
    (resolveSystemRoutine u moduleName exportedName).Within (fun _ => 1) 3 := by
  refine .ite (fun _ => trivial) fun _ => .bind (n := 2) (m := 1) ?_ fun base => ?_
  · exact .bind (m := 0) (querySystemModule_within moduleName) fun _ => trivial
  · cases base with
    | none => trivial
    | some base => exact findExportedRoutineByName_within base exportedName

theorem findOffsetFromRoutine_within (moduleName routineName : List Char) :
    (findOffsetFromRoutine u dec moduleName routineName).Within (fun _ => 1) 4 := by
  refine .bind (n := 3) (m := 1) (.mapErr (resolveSystemRoutine_within _ _)) fun routine => ?_
  cases routine with
  | none => trivial
  | some routine => exact .mapErr (.ask (n := 0) fun _ => trivial)

theorem readInitialSystemProcess_within :
    (readInitialSystemProcess u).Within (fun _ => 1) 4 := by
  refine .bind (n := 3) (m := 1) (.mapErr (resolveSystemRoutine_within _ _)) fun exported => ?_
  cases exported with
  | none => trivial
  | some exported => exact .ask (n := 0) fun _ => trivial

theorem onSystem_within {ε α : Type} {n : Nat} {p : SystemProg ε α}
    (hp : p.Within (fun _ => 1) n) : (onSystem p).Within (fun _ => 1) n :=
  .via hp fun _ => .ask (n := 0) fun _ => trivial

/-- A load, what resolves the routine, and a store. -/
theorem searchCachedOffset_within (cache : Cache) (moduleName routineName : List Char) :
    (searchCachedOffset u dec cache moduleName routineName).Within (fun _ => 1) 6 := by
  refine .ask (n := 5) fun cachedOffset => .ite (fun _ => trivial) fun _ => ?_
  refine .bind (n := 4) (m := 1) (onSystem_within (findOffsetFromRoutine_within _ _))
    fun offset => ?_
  cases offset with
  | none => trivial
  | some offset => exact .ask (n := 0) fun _ => trivial

theorem getInitialSystemProcess_within :
    (getInitialSystemProcess u).Within (fun _ => 1) 6 := by
  refine .ask (n := 5) fun cached => .ite (fun _ => trivial) fun _ => ?_
  exact .bind (n := 4) (m := 1) (onSystem_within readInitialSystemProcess_within)
    fun _ => .ask (n := 0) fun _ => trivial

theorem searchEach_within {n : Nat} {searches : List (StepProg SearchError (Option (BitVec 64)))}
    (h : ∀ search ∈ searches, search.Within (fun _ => 1) n) :
    (searchEach searches).Within (fun _ => 1) (searches.length * n) := by
  induction searches with
  | nil => trivial
  | cons search searches ih =>
    rw [List.forall_mem_cons] at h
    rw [List.length_cons, Nat.succ_mul, Nat.add_comm]
    refine .bind h.1 fun offset => ?_
    cases offset with
    | none => trivial
    | some offset => exact ih h.2

theorem initializeCachedOffsets_within :
    (initializeCachedOffsets u dec).Within (fun _ => 1) 24 := by
  refine .bind (n := 18) (m := 6) (searchEach_within (n := 6) ?_) fun found => ?_
  · simp only [List.forall_mem_cons, List.not_mem_nil, false_implies, implies_true, and_true]
    exact ⟨searchCachedOffset_within _ _ _, searchCachedOffset_within _ _ _,
      searchCachedOffset_within _ _ _⟩
  · cases found with
    | false => trivial
    | true => exact .bind (m := 0) getInitialSystemProcess_within fun _ => trivial

theorem readEprocessField_within {offsetFn : StepProg SearchError (Option (BitVec 64))}
    (h : offsetFn.Within (fun _ => 1) 6) (eprocess : BitVec 64) :
    (readEprocessField eprocess offsetFn).Within (fun _ => 1) 7 := by
  refine .bind (n := 6) (m := 1) h fun offset => ?_
  cases offset with
  | none => trivial
  | some offset => exact .ask (n := 0) fun _ => trivial

/-- Two reads a turn. -/
theorem processLoop_within (systemProcess pidOffset linkOffset pid : BitVec 64) (fuel : Nat)
    (process : BitVec 64) :
    (processLoop systemProcess pidOffset linkOffset pid fuel process).Within (fun _ => 1)
      (2 * fuel) := by
  induction fuel generalizing process with
  | zero => trivial
  | succ fuel ih =>
    refine .ask (n := 2 * fuel + 1) fun currentPid => .ite (fun _ => trivial) fun _ => ?_
    refine .ask (n := 2 * fuel) fun flink => .ite (fun _ => trivial) fun _ => ?_
    exact .ite (fun _ => trivial) fun _ => ih _

theorem getProcessById_within (pid : BitVec 32) (fuel : Nat) :
    (getProcessById u dec pid fuel).Within (fun _ => 1) (2 * fuel + 13) := by
  rw [show 2 * fuel + 13 = 6 + (6 + (2 * fuel + 1)) by omega]
  refine .bind getInitialSystemProcess_within fun systemProcess => ?_
  refine .bind (searchCachedOffset_within _ _ _) fun pidOffset => ?_
  cases pidOffset with
  | none => trivial
  | some pidOffset => exact .ask fun _ => processLoop_within _ _ _ _ _ _

theorem perform_within (c : ProcessCall) : (perform u dec c).Within (fun _ => 1) c.steps := by
  refine .attempt ?_
  cases c with
  | getInitialSystemProcess => exact getInitialSystemProcess_within
  | searchPebOffset => exact searchCachedOffset_within _ _ _
  | searchProcessIdOffset => exact searchCachedOffset_within _ _ _
  | searchProcessImageBaseOffset => exact searchCachedOffset_within _ _ _
  | initializeCachedOffsets => exact initializeCachedOffsets_within
  | getProcessPeb eprocess => exact readEprocessField_within (searchCachedOffset_within _ _ _) eprocess
  | getProcessId eprocess => exact readEprocessField_within (searchCachedOffset_within _ _ _) eprocess
  | getProcessImageBase eprocess =>
    exact readEprocessField_within (searchCachedOffset_within _ _ _) eprocess
  | getProcessById pid fuel => exact getProcessById_within pid fuel

end

/-! Runs. -/

section
variable (u : Text.Unicode) (dec : StructureOffset.InstructionDecoder)
  (ans : (q : SystemReq) → q.Answer) (dwBuildNumber : BitVec 32)

/-- The kernel's answer, or to a query the failure that is its turn's choice. -/
def answerOr (choice : Option QueryAnswer) : (q : SystemReq) → q.Answer
  | .zwQuerySystemInformation none =>
    (choice.filter fun r => r.status ≠ statusInfoLengthMismatch ∧ ntSuccess r.status = false).getD
      (ans (.zwQuerySystemInformation none))
  | .zwQuerySystemInformation (some n) =>
    (choice.filter fun r => ntSuccess r.status = false).getD
      (ans (.zwQuerySystemInformation (some n)))
  | q => ans q

/-- The four caches are the shared state. -/
def serveCaches (c : Caches) (choice : Option QueryAnswer) : (q : StepReq) → q.Answer × Caches
  | .load cache => (c cache, c)
  | .store cache value => ((), Function.update c cache value)
  | .system q => (answerOr ans choice q, c)
  | .rtlGetVersion => (dwBuildNumber, c)

/-- Clients before their first steps, and the caches as the program starts with them. -/
def startClients {ι α : Type} (clients : ι → Client α) :
    State ι Caches StepReq StepReq.Answer Empty α :=
  ⟨fun _ => 0, fun i => (clients i).via (perform u dec)⟩

/-- The step of a thread was answered as the kernel's image has it. -/
def Calm (o : Own Caches StepReq StepReq.Answer) : Prop :=
  match o with
  | ⟨_, .system q, r, _⟩ => r = ans q
  | _ => True

/-- Every cache is empty, or holds what is found for it. -/
def CachesHold (c : Caches) : Prop :=
  ∀ cache, c cache = 0 ∨ (discover u dec cache).result ans = .ok (some (c cache))

variable {u dec ans dwBuildNumber}

theorem getD_filter {β : Type} (choice : Option β) (failed : β → Bool) (r : β) :
    (choice.filter failed).getD r = r ∨ failed ((choice.filter failed).getD r) = true := by
  cases h : choice.filter failed with
  | none => exact .inl rfl
  | some x => exact .inr (Option.filter_eq_some_iff.mp h).2

theorem answerOr_answers (choice : Option QueryAnswer) (q : SystemReq) :
    AnswersOr ans True q (answerOr ans choice q) := by
  match q with
  | .zwQuerySystemInformation none =>
    refine (getD_filter _ _ _).imp_right fun h => ⟨trivial, ?_⟩
    have hfailed := of_decide_eq_true h
    exact hfailed
  | .zwQuerySystemInformation (some n) =>
    refine (getD_filter _ _ _).imp_right fun h => ⟨trivial, ?_⟩
    have hfailed := of_decide_eq_true h
    exact hfailed
  | .readPointer _ => exact .inl rfl
  | .copy _ _ => exact .inl rfl
  | .rtlFindExportedRoutineByName .. => exact .inl rfl

/-- A step that a thread may take keeps the caches, and fills none anew. -/
theorem serveCaches_keeps (c : Caches) (choice : Option QueryAnswer) (q : StepReq)
    (hc : CachesHold u dec ans c) (hq : Stores u dec ans q) :
    Answers u dec ans dwBuildNumber True q (serveCaches ans dwBuildNumber c choice q).1 ∧
      CachesHold u dec ans (serveCaches ans dwBuildNumber c choice q).2 ∧
      ∀ cache, c cache ≠ 0 → (serveCaches ans dwBuildNumber c choice q).2 cache = c cache := by
  cases q with
  | load cache => exact ⟨hc cache, hc, fun _ _ => rfl⟩
  | system q => exact ⟨answerOr_answers choice q, hc, fun _ _ => rfl⟩
  | rtlGetVersion => exact ⟨rfl, hc, fun _ _ => rfl⟩
  | store cache value =>
    have hvalue : (discover u dec cache).result ans = .ok (some value) := hq
    refine ⟨trivial, fun k => ?_, fun k hk => ?_⟩
    · dsimp only [serveCaches]
      by_cases hcache : k = cache
      · subst hcache
        rw [Function.update_self]
        exact .inr hvalue
      · rw [Function.update_of_ne hcache]
        exact hc k
    · dsimp only [serveCaches]
      by_cases hcache : k = cache
      · -- the value that is stored again is the one that is there
        subst hcache
        have hsame := ((hc k).resolve_left hk).symm.trans hvalue
        rw [Function.update_self]
        cases hsame
        rfl
      · rw [Function.update_of_ne hcache]

theorem Calm.answers {o : Own Caches StepReq StepReq.Answer} (hcalm : Calm ans o)
    (ho : Answers u dec ans dwBuildNumber True o.req o.answer) :
    Answers u dec ans dwBuildNumber False o.req o.answer := by
  obtain ⟨before, q, r, after⟩ := o
  cases q with
  | load cache => exact ho
  | store cache value => trivial
  | system q => exact .inl hcalm
  | rtlGetVersion => exact ho

theorem perform_sees (c : ProcessCall) : SeesPlain u dec ans dwBuildNumber False
    (fun _ : Empty => False) (perform u dec c) :=
  ((body_sees c).mono fun _ he => he.1).attempt

section
variable {ι α : Type} {clients : ι → Client α} {i : ι}

/-- What follows of the end of a client when its calls return what they may. -/
theorem client_meets {post : α → Prop} (hends : (clients i).Ends (Returned u dec ans dwBuildNumber)
      fun o => ∀ a, o = .ok a → post a) :
    ((startClients u dec clients).threads i).Meets (Answers u dec ans dwBuildNumber True)
      (Stores u dec ans) fun o => ∀ a, o = .ok a → post a := by
  refine Prog.Meets.via hends fun c => Prog.Meets.mono (fun _ _ h => h) (fun o ho => ?_)
    (perform_returns c)
  exact ⟨ho, nofun, nofun⟩

variable [DecidableEq ι]

/-- The caches along a run, and the answers that a client gets. -/
theorem race_keeps (clients : ι → Client α) (turns : List (Turn ι (Option QueryAnswer))) :
    let serve := serveCaches ans dwBuildNumber
    let start := startClients u dec clients
    Always (step serve) (fun s => CachesHold u dec ans s.shared) start turns ∧
    Guarded (step serve) (fun s t => ∀ cache, s.shared cache ≠ 0 →
      (step serve s t).shared cache = s.shared cache) start turns ∧
    ∀ i, ∀ o ∈ own serve i start turns, Answers u dec ans dwBuildNumber True o.req o.answer := by
  intro serve start
  obtain ⟨halways, hguarded, hthreads⟩ := @rely_run _ _ _ _ _ _ _ serve (CachesHold u dec ans)
    (fun c c' => ∀ cache, c cache ≠ 0 → c' cache = c cache) _ _ _
    (fun _ o => ∀ a, o = .ok a → True) start
    serveCaches_keeps (fun _ => .inl rfl)
    (fun _ => client_meets (Prog.ends_true.mono fun _ _ _ _ => trivial)) turns
  refine ⟨halways, halways.guarded (fun s t _ hchange => ?_) hguarded, fun i => (hthreads i).1⟩
  rcases hchange with hchange | hsame
  · exact hchange
  · exact fun cache _ => congrFun hsame cache

/-- A client has ended once it has had as many turns as its calls take steps. -/
theorem race_ends {turns : List (Turn ι (Option QueryAnswer))} {n : Nat}
    (hn : (clients i).Within ProcessCall.steps n) (hturns : n ≤ (turns.map Turn.thread).count i) :
    ∃ a, (final (step (serveCaches ans dwBuildNumber)) (startClients u dec clients) turns).threads
      i = .ok a := by
  have hwithin : ((startClients u dec clients).threads i).Within (fun _ => 1) n :=
    hn.via perform_within
  rcases ended_of_within hwithin hturns with hok | ⟨e, -⟩
  · exact hok
  · exact e.elim

variable {turns : List (Turn ι (Option QueryAnswer))} {a : α}
  (ha : (final (step (serveCaches ans dwBuildNumber)) (startClients u dec clients) turns).threads i
    = .ok a)
include ha

theorem race_returns {post : α → Prop}
    (hends : (clients i).Ends (Returned u dec ans dwBuildNumber)
      fun o => ∀ a, o = .ok a → post a) : post a := by
  have hend := own_meets (client_meets hends) ((race_keeps clients turns).2.2 i)
  rw [ha] at hend
  exact hend a rfl

theorem race_calm (hcalm : ∀ o ∈ own (serveCaches ans dwBuildNumber) i (startClients u dec clients)
      turns, Calm ans o) :
    ((clients i).via (perform u dec)).result (plain ans dwBuildNumber) = .ok a := by
  have hend := own_meets (i := i) (s := startClients u dec clients) (Prog.Sees.via perform_sees)
    fun o ho => (hcalm o ho).answers ((race_keeps clients turns).2.2 i o ho)
  rw [ha] at hend
  rcases hend with hend | ⟨e, -, hfalse⟩
  · exact hend.symm
  · exact hfalse.elim

end

/-- **Clients that race.** Whatever calls the clients make, and in whatever order they take
    their steps: a cache holds nothing but 0 and what is found for it, and is not changed
    any more once it is filled. A client ends within as many steps of its own as its calls
    take at most, whatever the others do. One none of whose queries failed ends as it does
    alone with caches that stay empty. In any case it ends in a way it also can when each
    of its calls returns what it does on empty caches, or an error of resolution. -/
theorem clients_race {ι α : Type} [DecidableEq ι] (u : Text.Unicode)
    (dec : StructureOffset.InstructionDecoder) (ans : (q : SystemReq) → q.Answer)
    (dwBuildNumber : BitVec 32) (clients : ι → Client α)
    (turns : List (Turn ι (Option QueryAnswer))) :
    let serve := serveCaches ans dwBuildNumber
    let start := startClients u dec clients
    Always (step serve) (fun s => CachesHold u dec ans s.shared) start turns ∧
    Guarded (step serve) (fun s t => ∀ cache, s.shared cache ≠ 0 →
      (step serve s t).shared cache = s.shared cache) start turns ∧
    (∀ i n, (clients i).Within ProcessCall.steps n → n ≤ (turns.map Turn.thread).count i →
      ∃ a, (final (step serve) start turns).threads i = .ok a) ∧
    ∀ i a, (final (step serve) start turns).threads i = .ok a →
      ((∀ o ∈ own serve i start turns, Calm ans o) →
        ((clients i).via (perform u dec)).result (plain ans dwBuildNumber) = .ok a) ∧
      ∀ post : α → Prop, ((clients i).Ends (Returned u dec ans dwBuildNumber) fun o =>
        ∀ a, o = .ok a → post a) → post a := by
  intro serve start
  obtain ⟨halways, hguarded, -⟩ := @race_keeps u dec ans dwBuildNumber ι α _ clients turns
  exact ⟨halways, hguarded, fun i n => race_ends, fun i a ha =>
    ⟨race_calm ha, fun post => race_returns ha⟩⟩

end

end ProcessCalls
end WinKernl
