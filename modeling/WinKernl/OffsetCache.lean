import WinKernl.Lib.Memo
import WinKernl.ProcessList
import WinKernl.StructureOffset

/- The cached offsets (`process/eprocess.rs`, `process/mod.rs`).

   Correspondence (Rust ↔ Lean):
     `PEB_OFFSET`, ..., `PS_INITIAL_SYSTEM_PROCESS_CACHE` ↔ `Cache`; their values ↔ `Caches`
     `find_offset_from_routine`                           ↔ `findOffsetFromRoutine`
     `search_cached_offset`                               ↔ `searchCachedOffset`
     `search_peb_offset`, ...                             ↔ `searchPebOffset`, ...
     `get_initial_system_process`                         ↔ `getInitialSystemProcess`
     `initialize_cached_offsets`, its `for`               ↔ `initializeCachedOffsets`, `searchEach`
   A call takes the caches and leaves them, also where it returns an error. 0 stands for
   "not yet known" in all four, and is a displacement and a pointer as well: a routine that
   reads the first field, or a system process that is not there yet, is looked up again. -/
namespace WinKernl
open ByteMem Ask Runs

namespace OffsetCache

inductive Cache where
  | pebOffset
  | processIdOffset
  | processImageBaseOffset
  | psInitialSystemProcess
  deriving DecidableEq, Repr

abbrev Caches := Cache → BitVec 64

/-- What a call returns, and the caches it leaves. -/
abbrev Reply (α : Type) := Except SearchError α × Caches

def ntoskrnl : List Char := "\\SystemRoot\\System32\\ntoskrnl.exe".toList

section
variable (u : Text.Unicode) (dec : StructureOffset.InstructionDecoder)

def findOffsetFromRoutine (moduleName routineName : List Char) :
    SystemProg SearchError (Option (BitVec 64)) :=
  (resolveSystemRoutine u moduleName routineName).mapErr (fun _ => .unknownFunction) >>=
    fun routine =>
  match routine with
  | none => .err .unknownFunction
  | some routine => (StructureOffset.findStructureOffset dec routine).mapErr Empty.elim

def searchCachedOffset (cache : Cache) (moduleName routineName : List Char) (c : Caches) :
    SystemProg Empty (Reply (Option (BitVec 64))) :=
  -- `cache.load`; 0 is "not yet known"
  if c cache ≠ 0 then .ok (.ok (some (c cache)), c) else
  (findOffsetFromRoutine u dec moduleName routineName).attempt >>= fun offset =>
  match offset with
  | .error e => .ok (.error e, c)
  | .ok none => .ok (.ok none, c)
  | .ok (some offset) => .ok (.ok (some offset), Function.update c cache offset)

def searchPebOffset : Caches → SystemProg Empty (Reply (Option (BitVec 64))) :=
  searchCachedOffset u dec .pebOffset ntoskrnl "PsGetProcessPeb".toList

def searchProcessIdOffset : Caches → SystemProg Empty (Reply (Option (BitVec 64))) :=
  searchCachedOffset u dec .processIdOffset ntoskrnl "PsGetProcessId".toList

def searchProcessImageBaseOffset : Caches → SystemProg Empty (Reply (Option (BitVec 64))) :=
  searchCachedOffset u dec .processImageBaseOffset ntoskrnl "PsGetProcessSectionBaseAddress".toList

/-- The part of `get_initial_system_process` behind the cache. -/
def readInitialSystemProcess : SystemProg SearchError (BitVec 64) :=
  (resolveSystemRoutine u ntoskrnl "PsInitialSystemProcess".toList).mapErr
    (fun _ => .unknownModule) >>= fun exported =>
  match exported with
  | none => .err .unknownFunction
  | some exported => .ask (.readPointer exported) fun systemProcess => .ok systemProcess

def getInitialSystemProcess (c : Caches) : SystemProg Empty (Reply (BitVec 64)) :=
  let cached := c .psInitialSystemProcess
  if cached ≠ 0 then .ok (.ok cached, c) else
  (readInitialSystemProcess u).attempt >>= fun systemProcess =>
  match systemProcess with
  | .error e => .ok (.error e, c)
  | .ok systemProcess =>
    -- a null pointer is stored like any other
    .ok (.ok systemProcess, Function.update c .psInitialSystemProcess systemProcess)

/-- `for search in offset_search`. -/
def searchEach : List (Caches → SystemProg Empty (Reply (Option (BitVec 64)))) → Caches → SystemProg Empty (Reply Bool)
  | [], c => .ok (.ok true, c)
  | search :: rest, c => search c >>= fun r =>
    match r.1 with
    | .error e => .ok (.error e, r.2)
    | .ok none => .ok (.ok false, r.2) -- `is_none()`
    | .ok (some _) => searchEach rest r.2

def initializeCachedOffsets (c : Caches) : SystemProg Empty (Reply Bool) :=
  let offsetSearch :=
    [searchProcessImageBaseOffset u dec, searchProcessIdOffset u dec, searchPebOffset u dec]
  searchEach offsetSearch c >>= fun r =>
  match r.1 with
  | .error e => .ok (.error e, r.2)
  | .ok false => .ok (.ok false, r.2)
  | .ok true => getInitialSystemProcess u r.2 >>= fun p =>
    match p.1 with
    | .error e => .ok (.error e, p.2)
    | .ok _ => .ok (.ok true, p.2)

/-- The four lookups. -/
def lookup : Cache → Caches → SystemProg Empty (Reply (Option (BitVec 64)))
  | .pebOffset, c => searchPebOffset u dec c
  | .processIdOffset, c => searchProcessIdOffset u dec c
  | .processImageBaseOffset, c => searchProcessImageBaseOffset u dec c
  | .psInitialSystemProcess, c => getInitialSystemProcess u c >>= fun r => .ok (r.1.map some, r.2)

/-! The lookups are those of a table whose empty entry is 0. -/

/-- What is exported for a cache. -/
def Cache.routineName : Cache → List Char
  | .pebOffset => "PsGetProcessPeb".toList
  | .processIdOffset => "PsGetProcessId".toList
  | .processImageBaseOffset => "PsGetProcessSectionBaseAddress".toList
  | .psInitialSystemProcess => "PsInitialSystemProcess".toList

/-- What fills a cache. -/
def discover : Cache → SystemProg SearchError (Option (BitVec 64))
  | .psInitialSystemProcess => readInitialSystemProcess u >>= fun p => .ok (some p)
  | k => findOffsetFromRoutine u dec ntoskrnl k.routineName

variable {u dec}

theorem searchCachedOffset_eq {find : Cache → SystemProg SearchError (Option (BitVec 64))}
    {cache : Cache} {moduleName routineName : List Char}
    (h : find cache = findOffsetFromRoutine u dec moduleName routineName) (c : Caches) :
    searchCachedOffset u dec cache moduleName routineName c = Memo.memoize 0 find cache c := by
  rw [searchCachedOffset, Memo.memoize, h]
  congr 2
  funext offset
  rcases offset with e | _ | offset <;> rfl

theorem getInitialSystemProcess_eq (c : Caches) :
    (getInitialSystemProcess u c >>= fun r => .ok (r.1.map some, r.2)) =
      Memo.memoize 0 (discover u dec) .psInitialSystemProcess c := by
  rw [getInitialSystemProcess, Memo.memoize, Prog.ite_bind, Prog.bind_assoc, discover,
    Prog.attempt_bind, Prog.bind_assoc]
  congr 2
  funext systemProcess
  cases systemProcess <;> rfl

theorem lookup_eq : lookup u dec = Memo.memoize 0 (discover u dec) := by
  funext k c
  cases k with
  | pebOffset => exact searchCachedOffset_eq rfl c
  | processIdOffset => exact searchCachedOffset_eq rfl c
  | processImageBaseOffset => exact searchCachedOffset_eq rfl c
  | psInitialSystemProcess => exact getInitialSystemProcess_eq c

/-! What discovery asks and finds. -/

theorem ntoskrnl_ne_nil : ntoskrnl ≠ [] := mt String.toList_eq_nil_iff.mp (by decide)

theorem routineName_ne_nil (k : Cache) : k.routineName ≠ [] := by
  cases k <;> exact mt String.toList_eq_nil_iff.mp (by decide)

/-- A lookup in an empty cache resolves the module, at least. -/
theorem discover_trace (k : Cache) (ans : (q : SystemReq) → q.Answer) :
    (discover u dec k).trace ans ≠ [] := by
  have htrace := resolveSystemRoutine_trace (u := u) ntoskrnl_ne_nil (routineName_ne_nil k) ans
  cases k with
  | psInitialSystemProcess =>
    rw [discover, readInitialSystemProcess, Prog.trace_bind, Prog.trace_bind, Prog.trace_mapErr]
    exact List.append_ne_nil_of_left_ne_nil (List.append_ne_nil_of_left_ne_nil htrace _) _
  | _ =>
    rw [discover, findOffsetFromRoutine, Prog.trace_bind, Prog.trace_mapErr]
    · exact List.append_ne_nil_of_left_ne_nil htrace _
    · exact fun h => by cases h

/-- `a` is the address of the routine or the pointer exported for `k`. -/
def Exported (u : Text.Unicode) (ans : (q : SystemReq) → q.Answer) (k : Cache) (a : BitVec 64) :
    Prop :=
  (resolveSystemRoutine u ntoskrnl k.routineName).result ans = .ok (some a)

/-- What is found there: the displacement in the routine, or the pointer. -/
def valueAt (dec : StructureOffset.InstructionDecoder) (ans : (q : SystemReq) → q.Answer)
    (k : Cache) (a : BitVec 64) : Option (BitVec 64) :=
  match k with
  | .psInitialSystemProcess => some (ans (.readPointer a))
  | _ => scan (StructureOffset.decodeAll dec StructureOffset.pageSize a
      (ans (.copy a StructureOffset.pageSize)).val)

/-- Discovery is resolution, and then what is at the address. -/
theorem resolved_eq_ok {α : Type} {k : Cache} {ans : (q : SystemReq) → q.Answer}
    {f : NtStatus → SearchError} {g : Option (BitVec 64) → SystemProg SearchError α} {v : α}
    (hnone : (g none).result ans = .err .unknownFunction) :
    ((resolveSystemRoutine u ntoskrnl k.routineName).mapErr f >>= g).result ans = .ok v ↔
      ∃ a, Exported u ans k a ∧ (g (some a)).result ans = .ok v := by
  rw [Prog.result_bind, Prog.result_mapErr, Outcome.bind_eq_ok]
  constructor
  · intro h
    obtain ⟨a, hresolved, hfound⟩ := h
    cases a with
    | none =>
      -- an export that is not there is an error
      rw [hnone] at hfound
      cases hfound
    | some a => exact ⟨a, Outcome.mapErr_eq_ok.mp hresolved, hfound⟩
  · intro h
    obtain ⟨a, hexported, hfound⟩ := h
    exact ⟨some a, Outcome.mapErr_eq_ok.mpr hexported, hfound⟩

theorem findOffsetFromRoutine_eq_some {k : Cache} {ans : (q : SystemReq) → q.Answer}
    {v : BitVec 64} :
    (findOffsetFromRoutine u dec ntoskrnl k.routineName).result ans = .ok (some v) ↔
      ∃ a, Exported u ans k a ∧ scan (StructureOffset.decodeAll dec StructureOffset.pageSize a
        (ans (.copy a StructureOffset.pageSize)).val) = some v := by
  rw [findOffsetFromRoutine, resolved_eq_ok rfl]
  dsimp only
  simp only [Prog.result_mapErr, Outcome.mapErr_eq_ok,
    StructureOffset.findStructureOffset_result _ _ (Nat.le_refl _), Outcome.ok.injEq]

theorem readInitialSystemProcess_eq_ok {ans : (q : SystemReq) → q.Answer} {v : BitVec 64} :
    (readInitialSystemProcess u).result ans = .ok v ↔
      ∃ a, Exported u ans .psInitialSystemProcess a ∧ ans (.readPointer a) = v := by
  rw [readInitialSystemProcess]
  refine (resolved_eq_ok (k := .psInitialSystemProcess) rfl).trans ?_
  simp only [Prog.result_ask, Prog.result_ok, Outcome.ok.injEq]

theorem discover_eq_some {k : Cache} {ans : (q : SystemReq) → q.Answer} {v : BitVec 64} :
    (discover u dec k).result ans = .ok (some v) ↔
      ∃ a, Exported u ans k a ∧ valueAt dec ans k a = some v := by
  cases k with
  | psInitialSystemProcess =>
    have hread : (discover u dec .psInitialSystemProcess).result ans = .ok (some v) ↔
        (readInitialSystemProcess u).result ans = .ok v := by
      rw [discover, Prog.result_bind]
      cases (readInitialSystemProcess u).result ans <;> simp [Outcome.bind]
    rw [hread, readInitialSystemProcess_eq_ok]
    simp only [valueAt, Option.some.injEq]
  | pebOffset => exact findOffsetFromRoutine_eq_some
  | processIdOffset => exact findOffsetFromRoutine_eq_some
  | processImageBaseOffset => exact findOffsetFromRoutine_eq_some

/-! Initialisation. -/

theorem searchEach_eq_true {ks : List Cache} {c c' : Caches} {ans : (q : SystemReq) → q.Answer} :
    (searchEach (ks.map (lookup u dec)) c).result ans = .ok (.ok true, c') ↔
      Memo.Filled 0 (discover u dec) ans ks c c' := by
  induction ks generalizing c with
  | nil =>
    rw [Memo.filled_nil, List.map_nil, searchEach, Prog.result_ok, Outcome.ok.injEq,
      Prod.mk.injEq, eq_comm (a := c), and_iff_right rfl]
  | cons k ks ih =>
    rw [Memo.filled_cons, List.map_cons, searchEach, Prog.result_bind, Outcome.bind_eq_ok]
    constructor
    · intro h
      obtain ⟨⟨found, c₁⟩, hfirst, hrest⟩ := h
      rcases found with e | _ | v
      · cases hrest
      · cases hrest
      · rw [lookup_eq] at hfirst
        obtain ⟨hfinds, rfl⟩ := Memo.memoize_eq_some.mp hfirst
        exact ⟨v, hfinds, ih.mp hrest⟩
    · intro h
      obtain ⟨v, hfinds, hrest⟩ := h
      refine ⟨(.ok (some v), Function.update c k v), ?_, ih.mpr hrest⟩
      rw [lookup_eq]
      exact Memo.memoize_eq_some.mpr ⟨hfinds, rfl⟩

theorem getInitialSystemProcess_eq_ok {c c' : Caches} {ans : (q : SystemReq) → q.Answer}
    {p : BitVec 64} : (getInitialSystemProcess u c).result ans = .ok (.ok p, c') ↔
      Memo.Finds 0 (discover u dec) ans c .psInitialSystemProcess p ∧
        c' = Function.update c .psInitialSystemProcess p := by
  have hsome : (getInitialSystemProcess u c).result ans = .ok (.ok p, c') ↔
      (lookup u dec .psInitialSystemProcess c).result ans = .ok (.ok (some p), c') := by
    rw [lookup, Prog.result_bind]
    rcases (getInitialSystemProcess u c).result ans with ⟨e | p', c''⟩ | e | _
    · simp [Outcome.bind, Except.map]
    · simp [Outcome.bind, Except.map]
    · exact e.elim
    · simp [Outcome.bind]
  rw [hsome, lookup_eq, Memo.memoize_eq_some]

/-- An initialisation succeeds when every lookup finds a value, and the caches hold these
    values then. -/
theorem initializeCachedOffsets_eq_true {c c' : Caches} {ans : (q : SystemReq) → q.Answer} :
    (initializeCachedOffsets u dec c).result ans = .ok (.ok true, c') ↔
      ∀ k, Memo.Finds 0 (discover u dec) ans c k (c' k) := by
  -- the lookups in the order of the calls
  let offsets : List Cache := [.processImageBaseOffset, .processIdOffset, .pebOffset]
  have hmem : ∀ k : Cache, k ∈ offsets ++ [.psInitialSystemProcess] := by
    intro k
    cases k <;> decide
  have hall : (∀ k, Memo.Finds 0 (discover u dec) ans c k (c' k)) ↔
      Memo.Filled 0 (discover u dec) ans (offsets ++ [.psInitialSystemProcess]) c c' :=
    ⟨fun h => ⟨fun k _ => h k, fun k hk => absurd (hmem k) hk⟩, fun h k => h.finds k (hmem k)⟩
  rw [hall, Memo.filled_append, initializeCachedOffsets, Prog.result_bind, Outcome.bind_eq_ok]
  constructor
  · intro h
    obtain ⟨⟨searched, c₁⟩, hsearched, hlast⟩ := h
    rcases searched with e | _ | _
    · cases hlast
    · cases hlast
    · refine ⟨c₁, searchEach_eq_true.mp hsearched, ?_⟩
      dsimp only at hlast
      rw [Prog.result_bind, Outcome.bind_eq_ok] at hlast
      obtain ⟨⟨p, c₂⟩, hget, hend⟩ := hlast
      cases p with
      | error e => cases hend
      | ok p =>
        obtain ⟨-, rfl⟩ := Prod.mk.inj (Outcome.ok.inj hend)
        obtain ⟨hfinds, hc₂⟩ := getInitialSystemProcess_eq_ok.mp hget
        exact Memo.filled_cons.mpr ⟨p, hfinds, Memo.filled_nil.mpr hc₂⟩
  · intro h
    obtain ⟨c₁, hoffsets, hlast⟩ := h
    -- the three searches end in `c₁`, and the last lookup fills the rest
    obtain ⟨p, hfinds, hnil⟩ := Memo.filled_cons.mp hlast
    refine ⟨(.ok true, c₁), searchEach_eq_true.mpr hoffsets, ?_⟩
    dsimp only
    rw [Prog.result_bind, getInitialSystemProcess_eq_ok.mpr ⟨hfinds, rfl⟩, Memo.filled_nil.mp hnil]
    rfl

/-- Along any sequence of later lookups, none resolves or reads anything, and each returns what
    one in `c` returned under `ans`. -/
def ServesAll (u : Text.Unicode) (dec : StructureOffset.InstructionDecoder)
    (ans : (q : SystemReq) → q.Answer) (c c' : Caches) : Prop :=
  ∀ calls : List (Memo.Call SystemReq SystemReq.Answer Cache),
    Guarded (Memo.after (lookup u dec)) (Memo.Served (lookup u dec) c ans) c' calls

/-- **Which initialised caches serve every lookup.** After an initialisation that succeeds,
    no lookup resolves or reads anything any more, and each returns what it found then,
    exactly when no export that an empty cache was filled from has the value 0. -/
theorem initializeCachedOffsets_serves_iff (u : Text.Unicode)
    (dec : StructureOffset.InstructionDecoder) (ans : (q : SystemReq) → q.Answer) (c c' : Caches)
    (hinit : (initializeCachedOffsets u dec c).result ans = .ok (.ok true, c')) :
    ServesAll u dec ans c c' ↔
      ∀ k a, c k = 0 → Exported u ans k a → valueAt dec ans k a ≠ some 0 := by
  rw [ServesAll, lookup_eq, Memo.served_iff discover_trace (initializeCachedOffsets_eq_true.mp hinit)]
  constructor
  · intro h k a hc hexported hvalue
    exact h k hc (discover_eq_some.mpr ⟨a, hexported, hvalue⟩)
  · intro h k hc hfind
    obtain ⟨a, hexported, hvalue⟩ := discover_eq_some.mp hfind
    exact h k a hc hexported hvalue

end

/-! A kernel whose routines each have a page, and read the field that `fieldOffset` says. -/

def ntoskrnlPath : List Char :=
  ['\\', 'S', 'y', 's', 't', 'e', 'm', 'R', 'o', 'o', 't', '\\', 'S', 'y', 's', 't', 'e', 'm', '3', '2',
    '\\', 'n', 't', 'o', 's', 'k', 'r', 'n', 'l', '.', 'e', 'x', 'e']

theorem ntoskrnl_eq : ntoskrnl = ntoskrnlPath := String.toList_ofList

def kernelModule : ModuleInformation := fixtureModule ntoskrnlPath 21

def exportAddress (imageBase : BitVec 64) (routineName : List Char) : BitVec 64 :=
  imageBase + 0x1000#64 * BitVec.ofNat 64 routineName.length

/-- `mov rax, [rcx + d]` and `ret`, with zeros behind them. -/
def accessorBytes (d : Byte) (n : Nat) : List Byte :=
  ([0x48, 0x8B, 0x41, d, 0xC3] ++ List.replicate n 0).take n

theorem accessorBytes_length (d : Byte) (n : Nat) : (accessorBytes d n).length = n := by
  rw [accessorBytes, List.length_take, List.length_append, List.length_replicate]
  omega

def kernelImage (fieldOffset : BitVec 64 → Byte) (systemProcess : BitVec 64) :
    (q : SystemReq) → q.Answer
  | .zwQuerySystemInformation none => ⟨statusInfoLengthMismatch, 304, []⟩
  | .zwQuerySystemInformation (some n) => ⟨0, n, [kernelModule]⟩
  | .rtlFindExportedRoutineByName imageBase routineName => exportAddress imageBase routineName
  | .readPointer _ => systemProcess
  | .copy a n => ⟨accessorBytes (fieldOffset a) n, accessorBytes_length _ n⟩

def routineAddress (k : Cache) : BitVec 64 :=
  exportAddress kernelModule.imageBase (k.routineName ++ [Char.ofNat 0])

/-- What the caches of this kernel hold. -/
def kernelCaches (fieldOffset : BitVec 64 → Byte) (systemProcess : BitVec 64) : Caches
  | .psInitialSystemProcess => systemProcess
  | k => (fieldOffset (routineAddress k)).signExtend 64

section
variable {fieldOffset : BitVec 64 → Byte} {systemProcess : BitVec 64}

theorem kernelModule_imageBase : kernelModule.imageBase = 0xFFFFF80000000000#64 := rfl

theorem kernelModule_path : kernelModule.path = some ntoskrnlPath := by
  rw [kernelModule]
  exact fixtureModule_path (by decide)

theorem routineName_length_lt (k : Cache) : k.routineName.length < 32 := by
  cases k <;> exact String.length_toList.trans_lt (by decide)

theorem routineAddress_ne (k : Cache) : routineAddress k ≠ 0 := by
  have hlt : (k.routineName ++ [Char.ofNat 0]).length < 33 := by
    rw [List.length_append]
    exact Nat.add_lt_add_right (routineName_length_lt k) 1
  rw [routineAddress, exportAddress, kernelModule_imageBase]
  generalize (k.routineName ++ [Char.ofNat 0]).length = n at hlt
  bv_omega

theorem exported_of_lists {ans : (q : SystemReq) → q.Answer} (hlists : Lists ans [kernelModule])
    (hexports : ∀ imageBase routineName, ans (.rtlFindExportedRoutineByName imageBase routineName) =
      exportAddress imageBase routineName) (k : Cache) :
    Exported fixtureUnicode ans k (routineAddress k) := by
  have hmatch : moduleMatches fixtureUnicode (fixtureUnicode.toLowercase ntoskrnl) kernelModule =
      true := by
    rw [moduleMatches, kernelModule_path, ntoskrnl_eq]
    exact if_pos rfl
  rw [Exported, resolveSystemRoutine_result hlists ntoskrnl_ne_nil (routineName_ne_nil k),
    List.find?_cons, hmatch]
  simp only [hexports]
  exact congrArg Outcome.ok (if_neg (not_or.mpr ⟨by decide, routineAddress_ne k⟩))

theorem kernelImage_exported (k : Cache) :
    Exported fixtureUnicode (kernelImage fieldOffset systemProcess) k (routineAddress k) :=
  exported_of_lists ⟨.inl rfl, (by decide : ntSuccess 0#32 = true), rfl⟩ (fun _ _ => rfl) k

/-- The routines' code is decoded as the accessor, whatever follows. -/
theorem moveDecoder_finds (fuel : Nat) (ip : BitVec 64) (d : Byte)
    (rest : List Byte) :
    scan (StructureOffset.decodeAll StructureOffset.moveDecoder (fuel + 1) ip
      (0x48 :: 0x8B :: 0x41 :: d :: rest)) = some (d.signExtend 64) := by
  have hlen : 4 ≤ (0x48#8 :: 0x8B :: 0x41 :: d :: rest).length := Nat.le_add_left 4 rest.length
  rw [← StructureOffset.decodeLoop_eq_scan, StructureOffset.decodeLoop, if_neg (List.cons_ne_nil _ _),
    StructureOffset.moveDecoder, if_pos ⟨rfl, hlen⟩]
  rfl

theorem kernelImage_copy (a : BitVec 64) (n : Nat) :
    (kernelImage fieldOffset systemProcess (.copy a (n + 4))).val =
      0x48 :: 0x8B :: 0x41 :: fieldOffset a :: (0xC3 :: List.replicate (n + 4) 0).take n := rfl

theorem kernelImage_valueAt (k : Cache) :
    valueAt StructureOffset.moveDecoder (kernelImage fieldOffset systemProcess) k
      (routineAddress k) = some (kernelCaches fieldOffset systemProcess k) := by
  have hscan : scan (StructureOffset.decodeAll StructureOffset.moveDecoder StructureOffset.pageSize
      (routineAddress k) (kernelImage fieldOffset systemProcess
        (.copy (routineAddress k) StructureOffset.pageSize)).val) =
      some ((fieldOffset (routineAddress k)).signExtend 64) := by
    rw [show StructureOffset.pageSize = 4092 + 4 from rfl, kernelImage_copy]
    exact moveDecoder_finds _ _ _ _
  cases k with
  | psInitialSystemProcess => rfl
  | _ => exact hscan

/-- From empty caches the initialisation succeeds. -/
theorem kernelImage_initialized :
    (initializeCachedOffsets fixtureUnicode StructureOffset.moveDecoder fun _ => 0).result
      (kernelImage fieldOffset systemProcess) =
        .ok (.ok true, kernelCaches fieldOffset systemProcess) :=
  initializeCachedOffsets_eq_true.mpr fun k => (Memo.finds_miss (c := fun _ => 0) rfl).mpr
    (discover_eq_some.mpr ⟨routineAddress k, kernelImage_exported k, kernelImage_valueAt k⟩)

/-- An empty cache is looked for again. -/
theorem not_servesAll {k : Cache} {c c' : Caches} {u : Text.Unicode}
    {dec : StructureOffset.InstructionDecoder} {ans : (q : SystemReq) → q.Answer}
    (h : c' k = 0) : ¬ ServesAll u dec ans c c' := by
  intro hserves
  -- the lookup of `k` alone asks again
  obtain ⟨⟨htrace, -⟩, -⟩ := hserves [(k, ans)]
  rw [lookup_eq, Memo.memoize_miss_trace h] at htrace
  exact discover_trace k ans htrace

end

/-- With fields at 16 and a system process, every lookup is served. -/
theorem initializeCachedOffsets_serves_kernel :
    ServesAll fixtureUnicode StructureOffset.moveDecoder
      (kernelImage (fun _ => 0x10) 0xFFFFA00000000000#64) (fun _ => 0)
      (kernelCaches (fun _ => 0x10) 0xFFFFA00000000000#64) := by
  refine (initializeCachedOffsets_serves_iff _ _ _ _ _ kernelImage_initialized).mpr ?_
  intro k a _ hexported hvalue
  -- an image exports each name at one address
  obtain rfl : routineAddress k = a :=
    Option.some.inj (Outcome.ok.inj ((kernelImage_exported k).symm.trans hexported))
  rw [kernelImage_valueAt] at hvalue
  revert hvalue
  cases k <;> decide

/-- `PsGetProcessId` reads the first field, the other routines the one at 16. -/
def firstFieldId (a : BitVec 64) : Byte :=
  if a = routineAddress .processIdOffset then 0 else 0x10

/-- With the process identifier at 0, or with no system process yet, the initialisation
    succeeds and a later lookup resolves again. -/
theorem initializeCachedOffsets_resolves_again :
    ((initializeCachedOffsets fixtureUnicode StructureOffset.moveDecoder fun _ => 0).result
        (kernelImage firstFieldId 0xFFFFA00000000000#64) =
          .ok (.ok true, kernelCaches firstFieldId 0xFFFFA00000000000#64) ∧
      ¬ ServesAll fixtureUnicode StructureOffset.moveDecoder
        (kernelImage firstFieldId 0xFFFFA00000000000#64) (fun _ => 0)
        (kernelCaches firstFieldId 0xFFFFA00000000000#64)) ∧
    (initializeCachedOffsets fixtureUnicode StructureOffset.moveDecoder fun _ => 0).result
        (kernelImage (fun _ => 0x10) 0) = .ok (.ok true, kernelCaches (fun _ => 0x10) 0) ∧
      ¬ ServesAll fixtureUnicode StructureOffset.moveDecoder (kernelImage (fun _ => 0x10) 0)
        (fun _ => 0) (kernelCaches (fun _ => 0x10) 0) := by
  have hfirst : kernelCaches firstFieldId 0xFFFFA00000000000#64 .processIdOffset = 0 :=
    (congrArg (BitVec.signExtend 64) (if_pos rfl)).trans (by decide : BitVec.signExtend 64 0#8 = 0)
  have hnull : kernelCaches (fun _ => 0x10) 0 .psInitialSystemProcess = 0 := rfl
  exact ⟨⟨kernelImage_initialized, not_servesAll hfirst⟩, kernelImage_initialized,
    not_servesAll hnull⟩

end OffsetCache

end WinKernl
