import WinKernl.Lib.Rely
import WinKernl.OffsetCache

/- The process functions, step by step (`process/mod.rs`, `process/eprocess.rs`).

   Correspondence (Rust ↔ Lean):
     a load or a store of one of the four caches          ↔ `StepReq.load`, `StepReq.store`
     calls to the kernel, reads of kernel memory          ↔ `StepReq.system`
     `RtlGetVersion`                                      ↔ `StepReq.rtlGetVersion`
     `search_cached_offset`, `search_peb_offset`, ...     ↔ `searchCachedOffset`, ...
     `read_eprocess_field`, `get_process_peb`, ...        ↔ `readEprocessField`, ...
     `get_process_by_id`, its `loop`                      ↔ `getProcessById`, `processLoop`
     any of them, called by a client                      ↔ `ProcessCall`, `perform`
   Here the caches are not part of a call's state: each access is a request, so that other
   threads may come between two of them. `alone` runs a function without a break, on caches
   of its own, and is then the function that takes them and leaves them. -/
namespace WinKernl
open ByteMem Ask

namespace ProcessCalls
open OffsetCache (Cache Caches Reply ntoskrnl findOffsetFromRoutine readInitialSystemProcess)

inductive StepReq where
  | load (cache : Cache)
  | store (cache : Cache) (value : BitVec 64)
  | system (q : SystemReq)
  | rtlGetVersion
  deriving DecidableEq

abbrev StepReq.Answer : StepReq → Type
  | .load _ => BitVec 64
  | .store _ _ => Unit
  | .system q => q.Answer
  | .rtlGetVersion => BitVec 32

abbrev StepProg (ε α : Type) := Prog StepReq StepReq.Answer ε α

/-- A function that touches no cache. -/
def onSystem {ε α : Type} (p : SystemProg ε α) : StepProg ε α := p.via fun q => .ask (.system q) .ok

section
variable (u : Text.Unicode) (dec : StructureOffset.InstructionDecoder)

def searchCachedOffset (cache : Cache) (moduleName routineName : List Char) :
    StepProg SearchError (Option (BitVec 64)) :=
  .ask (.load cache) fun cachedOffset =>
  if cachedOffset ≠ 0 then .ok (some cachedOffset) else
  onSystem (findOffsetFromRoutine u dec moduleName routineName) >>= fun offset =>
  match offset with
  | some offset => .ask (.store cache offset) fun _ => .ok (some offset)
  | none => .ok none

def searchPebOffset : StepProg SearchError (Option (BitVec 64)) :=
  searchCachedOffset u dec .pebOffset ntoskrnl "PsGetProcessPeb".toList

def searchProcessIdOffset : StepProg SearchError (Option (BitVec 64)) :=
  searchCachedOffset u dec .processIdOffset ntoskrnl "PsGetProcessId".toList

def searchProcessImageBaseOffset : StepProg SearchError (Option (BitVec 64)) :=
  searchCachedOffset u dec .processImageBaseOffset ntoskrnl "PsGetProcessSectionBaseAddress".toList

def getInitialSystemProcess : StepProg SearchError (BitVec 64) :=
  .ask (.load .psInitialSystemProcess) fun cached =>
  if cached ≠ 0 then .ok cached else
  onSystem (readInitialSystemProcess u) >>= fun systemProcess =>
  .ask (.store .psInitialSystemProcess systemProcess) fun _ => .ok systemProcess

/-- `for search in offset_search`. -/
def searchEach : List (StepProg SearchError (Option (BitVec 64))) → StepProg SearchError Bool
  | [] => .ok true
  | search :: rest => search >>= fun offset =>
    match offset with
    | none => .ok false
    | some _ => searchEach rest

def initializeCachedOffsets : StepProg SearchError Bool :=
  let offsetSearch :=
    [searchProcessImageBaseOffset u dec, searchProcessIdOffset u dec, searchPebOffset u dec]
  searchEach offsetSearch >>= fun found =>
  match found with
  | false => .ok false
  | true => getInitialSystemProcess u >>= fun _ => .ok true

/-- `read_eprocess_field` with `T = u64`. -/
def readEprocessField (eprocess : BitVec 64)
    (offsetFn : StepProg SearchError (Option (BitVec 64))) :
    StepProg SearchError (Option (BitVec 64)) :=
  offsetFn >>= fun offset =>
  match offset with
  | none => .ok none
  | some offset => .ask (.system (.readPointer (eprocess + offset))) fun field => .ok (some field)

def getProcessPeb (eprocess : BitVec 64) : StepProg SearchError (Option (BitVec 64)) :=
  readEprocessField eprocess (searchPebOffset u dec)

def getProcessId (eprocess : BitVec 64) : StepProg SearchError (Option (BitVec 64)) :=
  readEprocessField eprocess (searchProcessIdOffset u dec)

def getProcessImageBase (eprocess : BitVec 64) : StepProg SearchError (Option (BitVec 64)) :=
  readEprocessField eprocess (searchProcessImageBaseOffset u dec)

/-- The loop, for at most `fuel` turns. -/
def processLoop (systemProcess pidOffset linkOffset pid : BitVec 64) :
    (fuel : Nat) → (process : BitVec 64) → StepProg SearchError (Option (Option (BitVec 64)))
  | 0, _ => .ok none
  | fuel + 1, process =>
    .ask (.system (.readPointer (process + pidOffset))) fun currentPid =>
    if currentPid = pid then .ok (some (some process)) else
    .ask (.system (.readPointer (process + linkOffset))) fun flink =>
    if flink = 0 then .ok (some none) else
    let process := flink - linkOffset
    if process = systemProcess then .ok (some none) else
    processLoop systemProcess pidOffset linkOffset pid fuel process

/-- `get_process_by_id`; `none` when the loop is still running after `fuel` turns. -/
def getProcessById (pid : BitVec 32) (fuel : Nat) :
    StepProg SearchError (Option (Option (BitVec 64))) :=
  getInitialSystemProcess u >>= fun systemProcess =>
  searchProcessIdOffset u dec >>= fun pidOffset =>
  match pidOffset with
  | none => .err .unknownOffset
  | some pidOffset =>
    .ask .rtlGetVersion fun dwBuildNumber =>
    processLoop systemProcess pidOffset (getActiveProcessLinksOffset dwBuildNumber)
      (pid.setWidth 64) fuel systemProcess

end

/-! Calls of a client. -/

inductive ProcessCall where
  | getInitialSystemProcess
  | searchPebOffset
  | searchProcessIdOffset
  | searchProcessImageBaseOffset
  | initializeCachedOffsets
  | getProcessPeb (eprocess : BitVec 64)
  | getProcessId (eprocess : BitVec 64)
  | getProcessImageBase (eprocess : BitVec 64)
  | getProcessById (pid : BitVec 32) (fuel : Nat)
  deriving DecidableEq

abbrev ProcessCall.Value : ProcessCall → Type
  | .getInitialSystemProcess => BitVec 64
  | .initializeCachedOffsets => Bool
  | .getProcessById _ _ => Option (Option (BitVec 64))
  | _ => Option (BitVec 64)

abbrev ProcessCall.Answer (c : ProcessCall) := Except SearchError c.Value

/-- A program that calls the process functions, and goes on with what they return. -/
abbrev Client (α : Type) := Prog ProcessCall ProcessCall.Answer Empty α

section
variable (u : Text.Unicode) (dec : StructureOffset.InstructionDecoder)

def ProcessCall.body : (c : ProcessCall) → StepProg SearchError c.Value
  | .getInitialSystemProcess => ProcessCalls.getInitialSystemProcess u
  | .searchPebOffset => ProcessCalls.searchPebOffset u dec
  | .searchProcessIdOffset => ProcessCalls.searchProcessIdOffset u dec
  | .searchProcessImageBaseOffset => ProcessCalls.searchProcessImageBaseOffset u dec
  | .initializeCachedOffsets => ProcessCalls.initializeCachedOffsets u dec
  | .getProcessPeb eprocess => ProcessCalls.getProcessPeb u dec eprocess
  | .getProcessId eprocess => ProcessCalls.getProcessId u dec eprocess
  | .getProcessImageBase eprocess => ProcessCalls.getProcessImageBase u dec eprocess
  | .getProcessById pid fuel => ProcessCalls.getProcessById u dec pid fuel

def perform (c : ProcessCall) : StepProg Empty c.Answer := (c.body u dec).attempt

end

/-- How many steps a call takes at most. -/
def ProcessCall.steps : ProcessCall → Nat
  | .getInitialSystemProcess => 6
  | .searchPebOffset => 6
  | .searchProcessIdOffset => 6
  | .searchProcessImageBaseOffset => 6
  | .initializeCachedOffsets => 24
  | .getProcessPeb _ => 7
  | .getProcessId _ => 7
  | .getProcessImageBase _ => 7
  | .getProcessById _ fuel => 2 * fuel + 13

/-! One call after the other. -/

section
variable {ε α β : Type}

/-- A function without a break, on caches of its own. -/
def alone (dwBuildNumber : BitVec 32) : StepProg ε α → Caches → SystemProg Empty (Except ε α × Caches)
  | .ok a, c => .ok (.ok a, c)
  | .err e, c => .ok (.error e, c)
  | .panic, _ => .panic
  | .ask (.load cache) k, c => alone dwBuildNumber (k (c cache)) c
  | .ask (.store cache value) k, c => alone dwBuildNumber (k ()) (Function.update c cache value)
  | .ask (.system q) k, c => .ask q fun r => alone dwBuildNumber (k r) c
  | .ask .rtlGetVersion k, c => alone dwBuildNumber (k dwBuildNumber) c

variable {b : BitVec 32}

theorem alone_bind (p : StepProg ε α) (f : α → StepProg ε β) (c : Caches) :
    alone b (p >>= f) c = alone b p c >>= fun r =>
      match r.1 with
      | .ok a => alone b (f a) r.2
      | .error e => .ok (.error e, r.2) := by
  induction p generalizing c with
  | ok a => rfl
  | err e => rfl
  | panic => rfl
  | ask q k ih =>
    cases q with
    | load cache => exact ih (c cache) c
    | store cache value => exact ih () (Function.update c cache value)
    | system q => exact congrArg (Prog.ask q) (funext fun r => ih r c)
    | rtlGetVersion => exact ih b c

/-- What touches no cache leaves them. -/
theorem alone_onSystem (p : SystemProg ε α) (c : Caches) :
    alone b (onSystem p) c = p.attempt >>= fun r => .ok (r, c) := by
  induction p with
  | ok a => rfl
  | err e => rfl
  | panic => rfl
  | ask q k ih => exact congrArg (Prog.ask q) (funext ih)

variable (u : Text.Unicode) (dec : StructureOffset.InstructionDecoder)

theorem alone_searchCachedOffset (cache : Cache) (moduleName routineName : List Char) (c : Caches) :
    alone b (searchCachedOffset u dec cache moduleName routineName) c =
      OffsetCache.searchCachedOffset u dec cache moduleName routineName c := by
  rw [searchCachedOffset, OffsetCache.searchCachedOffset, alone]
  split
  · rfl
  · rw [alone_bind, alone_onSystem, Prog.bind_assoc]
    congr 1
    funext offset
    rcases offset with e | _ | offset <;> rfl

theorem alone_getInitialSystemProcess (c : Caches) : alone b (getInitialSystemProcess u) c =
    OffsetCache.getInitialSystemProcess u c := by
  rw [getInitialSystemProcess, OffsetCache.getInitialSystemProcess, alone]
  split
  · rfl
  · rw [alone_bind, alone_onSystem, Prog.bind_assoc]
    congr 1
    funext systemProcess
    rcases systemProcess with e | systemProcess <;> rfl

theorem alone_searchEach {searches : List (StepProg SearchError (Option (BitVec 64)))}
    {onCaches : List (Caches → SystemProg Empty (Reply (Option (BitVec 64))))}
    (h : searches.map (alone b) = onCaches) (c : Caches) :
    alone b (searchEach searches) c = OffsetCache.searchEach onCaches c := by
  subst h
  induction searches generalizing c with
  | nil => rfl
  | cons search searches ih =>
    rw [searchEach, alone_bind, List.map_cons, OffsetCache.searchEach]
    congr 1
    funext r
    obtain ⟨e | _ | offset, c'⟩ := r
    · rfl
    · rfl
    · exact ih c'

theorem alone_initializeCachedOffsets (c : Caches) : alone b (initializeCachedOffsets u dec) c =
    OffsetCache.initializeCachedOffsets u dec c := by
  have hsearches : [searchProcessImageBaseOffset u dec, searchProcessIdOffset u dec,
      searchPebOffset u dec].map (alone b) = [OffsetCache.searchProcessImageBaseOffset u dec,
        OffsetCache.searchProcessIdOffset u dec, OffsetCache.searchPebOffset u dec] := by
    simp only [List.map_cons, List.map_nil, List.cons.injEq, and_true]
    refine ⟨?_, ?_, ?_⟩
    all_goals
      funext c
      exact alone_searchCachedOffset u dec _ _ _ c
  rw [initializeCachedOffsets, OffsetCache.initializeCachedOffsets, alone_bind,
    alone_searchEach hsearches]
  congr 1
  funext r
  obtain ⟨e | _ | _, c'⟩ := r
  · rfl
  · rfl
  · dsimp only
    rw [alone_bind, alone_getInitialSystemProcess]
    congr 1
    funext p
    obtain ⟨e | p, c''⟩ := p <;> rfl

end

end ProcessCalls
end WinKernl
