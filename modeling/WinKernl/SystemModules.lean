import WinKernl.Lib.Ask
import WinKernl.Lib.Text
import WinKernl.Mdl

/- The loaded kernel modules (`memory/module.rs`, `lib.rs`).

   Correspondence (Rust ↔ Lean):
     `RTL_PROCESS_MODULE_INFORMATION`                 ↔ `ModuleInformation`
     `query_system_module`, one turn of its `for`     ↔ `querySystemModule`, `moduleMatches`
     `get_system_module_base_address`                 ↔ `getSystemModuleBaseAddress`
     `find_exported_routine_by_name`                  ↔ `findExportedRoutineByName`
     `resolve_system_routine`                         ↔ `resolveSystemRoutine`
     `filename_from_info`                             ↔ `filenameFromInfo`
     calls to the kernel, reads of kernel memory      ↔ the requests `SystemReq`
   A `str` is its characters. What the kernel writes into the buffer is the list of
   modules it answers with. The path is lowercased before it is cut at a position that
   was measured on the original, so it is cut in the wrong place where lowercase has
   more bytes than the original, or fewer. -/
namespace WinKernl
open ByteMem Ask Text
open String (utf8Len)

structure ModuleInformation where
  sectionHandle : BitVec 64
  mappedBase : BitVec 64
  imageBase : BitVec 64
  imageSize : BitVec 32
  flags : BitVec 32
  loadOrderIndex : BitVec 16
  initOrderIndex : BitVec 16
  loadCount : BitVec 16
  offsetToFileName : BitVec 16
  fullPathName : Vector UInt8 256

/-- What `ZwQuerySystemInformation` returns, and what it writes. -/
structure QueryAnswer where
  status : NtStatus
  returnLength : BitVec 32
  modules : List ModuleInformation

/-- A call to the kernel or a read of its memory; a query without a length is the one
    without a buffer. -/
inductive SystemReq where
  | zwQuerySystemInformation (length : Option (BitVec 32))
  | rtlFindExportedRoutineByName (imageBase : BitVec 64) (routineName : List Char)
  | readPointer (address : BitVec 64)
  | copy (address : BitVec 64) (length : Nat)
  deriving DecidableEq

abbrev SystemReq.Answer : SystemReq → Type
  | .zwQuerySystemInformation _ => QueryAnswer
  | .rtlFindExportedRoutineByName .. => BitVec 64
  | .readPointer _ => BitVec 64
  | .copy _ n => { bs : List Byte // bs.length = n }

abbrev SystemProg (ε α : Type) := Prog SystemReq SystemReq.Answer ε α

def statusInfoLengthMismatch : NtStatus := 0xC0000004#32
def statusInvalidParameter : NtStatus := 0xC000000D#32

/-- The bytes in front of the first NUL. -/
def ModuleInformation.pathBytes (m : ModuleInformation) : List UInt8 :=
  m.fullPathName.toList.takeWhile (· ≠ 0)

/-- `CStr::from_ptr(..).to_str()` on the path. -/
def ModuleInformation.path (m : ModuleInformation) : Option (List Char) := decode m.pathBytes

section
variable (u : Unicode)

/-- The part of a lowercased path that is compared as the file name. -/
def comparedFile (offset : Nat) (path : List Char) : Option (List Char) :=
  if offset < utf8Len path then getFrom path offset else none

/-- One turn of the loop: the entry is returned. -/
def moduleMatches (target : List Char) (m : ModuleInformation) : Bool :=
  match m.path with
  | none => false
  | some path =>
    let path := u.toLowercase path
    if path = target then true else
    -- the offset is the one into the path as it was
    match comparedFile m.offsetToFileName.toNat path with
    | none => false
    | some file => file = target

def querySystemModule (moduleName : List Char) :
    SystemProg NtStatus (Option ModuleInformation) :=
  if moduleName = [] then .err statusInvalidParameter else
  let target := u.toLowercase moduleName
  .ask (.zwQuerySystemInformation none) fun probe =>
  if probe.status ≠ statusInfoLengthMismatch ∧ ntSuccess probe.status = false then
    .err probe.status else
  .ask (.zwQuerySystemInformation (some probe.returnLength)) fun reply =>
  if ntSuccess reply.status = false then .err reply.status else
  .ok (reply.modules.find? (moduleMatches u target))

def getSystemModuleBaseAddress (moduleName : List Char) : SystemProg NtStatus (Option (BitVec 64)) :=
  querySystemModule u moduleName >>= fun m => .ok (m.map (·.imageBase))

def findExportedRoutineByName (moduleBase : BitVec 64) (exportedName : List Char) :
    SystemProg NtStatus (Option (BitVec 64)) :=
  if moduleBase = 0 ∨ exportedName = [] then .ok none else
  .ask (.rtlFindExportedRoutineByName moduleBase (exportedName ++ [Char.ofNat 0])) fun addr =>
  if addr = 0 then .ok none else .ok (some addr)

def resolveSystemRoutine (moduleName exportedName : List Char) :
    SystemProg NtStatus (Option (BitVec 64)) :=
  if moduleName = [] ∨ exportedName = [] then .err statusInvalidParameter else
  getSystemModuleBaseAddress u moduleName >>= fun base =>
    match base with
    | some base => findExportedRoutineByName base exportedName
    | none => .ok none

/-! The entries that are accepted. -/

/-- The file name: the path from `OffsetToFileName` on. -/
def ModuleInformation.fileName (m : ModuleInformation) : Option (List Char) :=
  m.path.bind fun path => getFrom path m.offsetToFileName.toNat

/-- The full path or the file name is `name`, character by character and in lowercase. -/
def Named (name : List Char) (m : ModuleInformation) : Bool :=
  m.path.any (fun path => u.lower path = u.lower name) ||
    m.fileName.any (fun file => u.lower file = u.lower name)

/-- The path is terminated and valid, and the file name begins inside it. -/
def WellNamed (m : ModuleInformation) : Prop :=
  0 ∈ m.fullPathName.toList ∧
    ∃ dir file, m.path = some (dir ++ file) ∧ utf8Len dir = m.offsetToFileName.toNat

/-- The path is the name, with all its capital sigmas lowered as in the name; or the file
    name is, and lowercase leaves the directory in front of it its length. -/
def Aligned (name : List Char) (m : ModuleInformation) : Prop :=
  ∃ dir file, m.path = some (dir ++ file) ∧ utf8Len dir = m.offsetToFileName.toNat ∧
    ((u.lower (dir ++ file) = u.lower name ∧
        u.toLowercase (dir ++ file) = u.toLowercase name) ∨
      (u.lower file = u.lower name ∧ utf8Len (u.lower dir) = utf8Len dir ∧
        u.lowerIn dir.reverse file [] = u.toLowercase name))

variable {u} {name : List Char} {m : ModuleInformation} {dir file : List Char}

theorem toLowercase_append :
    u.toLowercase (dir ++ file) = u.lowerIn [] dir file ++ u.lowerIn dir.reverse file [] := by
  have h := Unicode.lowerIn_append (u := u) [] dir file []
  rwa [List.append_nil, List.append_nil] at h

/-- The code accepts an entry whose lowercased path is the name, or ends in it at the
    file name's offset. -/
theorem moduleMatches_iff (hname : name ≠ []) (hpath : m.path = some (dir ++ file))
    (hoff : utf8Len dir = m.offsetToFileName.toNat) :
    moduleMatches u (u.toLowercase name) m = true ↔
      u.toLowercase (dir ++ file) = u.toLowercase name ∨
        ∃ front, u.toLowercase (dir ++ file) = front ++ u.toLowercase name ∧
          utf8Len front = utf8Len dir := by
  rw [moduleMatches, hpath, ← hoff]
  dsimp only
  split
  · next heq => exact iff_of_true rfl (.inl heq)
  · next hne =>
    rw [or_iff_right hne]
    constructor
    · intro h
      split at h
      · cases h
      · next tail htail =>
        obtain rfl := of_decide_eq_true h
        obtain ⟨-, hcut⟩ := Option.ite_none_right_eq_some.mp htail
        obtain ⟨front, hfront, hlen⟩ := getFrom_eq_some hcut
        exact ⟨front, hfront, hlen⟩
    · intro h
      obtain ⟨front, hfront, hlen⟩ := h
      have hpos : utf8Len (u.toLowercase name) ≠ 0 := by
        rw [Unicode.toLowercase, Unicode.utf8Len_lowerIn, Ne, String.utf8Len_eq_zero,
          Unicode.lower_eq_nil]
        exact hname
      have hlt : utf8Len dir < utf8Len (u.toLowercase (dir ++ file)) := by
        rw [hfront, String.utf8Len_append]
        omega
      rw [comparedFile, if_pos hlt, hfront, ← hlen, getFrom_append]
      exact decide_eq_true rfl

theorem named_iff (hpath : m.path = some (dir ++ file))
    (hoff : utf8Len dir = m.offsetToFileName.toNat) :
    Named u name m = true ↔ u.lower (dir ++ file) = u.lower name ∨ u.lower file = u.lower name := by
  rw [Named, ModuleInformation.fileName, hpath, Option.bind_some, ← hoff, getFrom_append]
  simp

/-- Lowercase has the bytes of its character-wise form. -/
theorem utf8Len_toLowercase (s : List Char) : utf8Len (u.toLowercase s) = utf8Len (u.lower s) :=
  Unicode.utf8Len_lowerIn [] s []

theorem utf8Len_lower_append :
    utf8Len (u.lower (dir ++ file)) = utf8Len (u.lower dir) + utf8Len (u.lower file) := by
  rw [Unicode.lower_append, String.utf8Len_append]

/-- `Named` and the code's comparison accept an entry together where it is aligned. -/
theorem aligned_iff (hname : name ≠ []) (hw : WellNamed m) :
    Named u name m = true ∧ moduleMatches u (u.toLowercase name) m = true ↔ Aligned u name m := by
  constructor
  · intro h
    obtain ⟨-, dir, file, hpath, hoff⟩ := hw
    obtain ⟨hnamed, hmatch⟩ := h
    refine ⟨dir, file, hpath, hoff, ?_⟩
    have hsum := @utf8Len_lower_append u dir file
    rcases (named_iff hpath hoff).mp hnamed with hfull | hfile
    · rcases (moduleMatches_iff hname hpath hoff).mp hmatch with heq | ⟨front, hfront, hlen⟩
      · exact .inl ⟨hfull, heq⟩
      · -- the name is as long as the path, so there is nothing in front of the cut
        have hzero := congrArg utf8Len hfront
        rw [String.utf8Len_append, utf8Len_toLowercase, utf8Len_toLowercase, hfull] at hzero
        obtain rfl : front = [] := String.utf8Len_eq_zero.mp (by omega)
        exact .inl ⟨hfull, hfront⟩
    · rcases (moduleMatches_iff hname hpath hoff).mp hmatch with heq | ⟨front, hfront, hlen⟩
      · -- the name is as long as the file name and as the path
        have hlen := congrArg utf8Len heq
        rw [utf8Len_toLowercase, utf8Len_toLowercase, hsum, hfile] at hlen
        obtain rfl : dir = [] :=
          Unicode.lower_eq_nil.mp (String.utf8Len_eq_zero.mp (by omega : utf8Len (u.lower dir) = 0))
        exact .inl ⟨hfile, heq⟩
      · -- the cut falls behind the lowercased directory
        have hlens := congrArg utf8Len hfront
        rw [String.utf8Len_append, utf8Len_toLowercase, utf8Len_toLowercase, hsum, hfile,
          hlen] at hlens
        have hdir : utf8Len (u.lower dir) = utf8Len dir := by omega
        rw [toLowercase_append] at hfront
        have hcut : utf8Len (u.lowerIn [] dir file) = utf8Len front := by
          rw [Unicode.utf8Len_lowerIn, hdir, hlen]
        exact .inr ⟨hfile, hdir, (append_inj_utf8Len hfront hcut).2⟩
  · intro h
    obtain ⟨dir, file, hpath, hoff, hcase⟩ := h
    rw [named_iff hpath hoff, moduleMatches_iff hname hpath hoff]
    rcases hcase with ⟨hfull, heq⟩ | ⟨hfile, hdir, htail⟩
    · exact ⟨.inl hfull, .inl heq⟩
    · refine ⟨.inr hfile, .inr ⟨u.lowerIn [] dir file, ?_, ?_⟩⟩
      · rw [toLowercase_append, htail]
      · rw [Unicode.utf8Len_lowerIn, hdir]

/-- Two searches find the same when the first entry that either accepts is accepted by both. -/
theorem find?_eq_iff {α : Type} {p q : α → Bool} {xs : List α} :
    xs.find? p = xs.find? q ↔
      ∀ x, xs.find? (fun x => p x || q x) = some x → p x = true ∧ q x = true := by
  induction xs with
  | nil => simp
  | cons x xs ih =>
    rw [List.find?_cons, List.find?_cons, List.find?_cons]
    cases hp : p x with
    | true =>
      cases hq : q x with
      | true => simp [hp, hq]
      | false =>
        refine iff_of_false (fun h => ?_) (fun h => ?_)
        · rw [List.find?_some h.symm] at hq
          cases hq
        · rw [(h x rfl).2] at hq
          cases hq
    | false =>
      cases hq : q x with
      | true =>
        refine iff_of_false (fun h => ?_) (fun h => ?_)
        · rw [List.find?_some h] at hp
          cases hp
        · rw [(h x rfl).1] at hp
          cases hp
      | false => exact ih

end

/-- The kernel answers the query with the modules `ms`. -/
structure Lists (ans : (q : SystemReq) → q.Answer) (ms : List ModuleInformation) : Prop where
  probe : (ans (.zwQuerySystemInformation none)).status = statusInfoLengthMismatch ∨
    ntSuccess (ans (.zwQuerySystemInformation none)).status = true
  reply : ntSuccess (ans (.zwQuerySystemInformation
    (some (ans (.zwQuerySystemInformation none)).returnLength))).status = true
  modules : (ans (.zwQuerySystemInformation
    (some (ans (.zwQuerySystemInformation none)).returnLength))).modules = ms

theorem querySystemModule_result {u : Unicode} {ans : (q : SystemReq) → q.Answer}
    {ms : List ModuleInformation} {name : List Char} (hl : Lists ans ms) (hname : name ≠ []) :
    (querySystemModule u name).result ans =
      .ok (ms.find? (moduleMatches u (u.toLowercase name))) := by
  have hprobe : ¬ ((ans (.zwQuerySystemInformation none)).status ≠ statusInfoLengthMismatch ∧
      ntSuccess (ans (.zwQuerySystemInformation none)).status = false) := by
    rcases hl.probe with h | h
    · exact fun hbad => hbad.1 h
    · exact fun hbad => absurd (h.symm.trans hbad.2) (by decide)
  have hreply := hl.reply
  rw [querySystemModule, if_neg hname, Prog.result_ask, if_neg hprobe, Prog.result_ask,
    if_neg (by rw [hreply]; decide), Prog.result_ok, hl.modules]

/-- Resolution asks for the module list, at least. -/
theorem resolveSystemRoutine_trace {u : Unicode} {moduleName exportedName : List Char}
    (hmodule : moduleName ≠ []) (hexported : exportedName ≠ []) (ans : (q : SystemReq) → q.Answer) :
    (resolveSystemRoutine u moduleName exportedName).trace ans ≠ [] := by
  rw [resolveSystemRoutine, if_neg (not_or.mpr ⟨hmodule, hexported⟩), Prog.trace_bind,
    getSystemModuleBaseAddress, Prog.trace_bind, querySystemModule, if_neg hmodule]
  exact List.append_ne_nil_of_left_ne_nil
    (List.append_ne_nil_of_left_ne_nil (List.cons_ne_nil _ _) _) _

/-- The routine is the one that the first module accepted exports under that name. -/
theorem resolveSystemRoutine_result {u : Unicode} {ans : (q : SystemReq) → q.Answer}
    {ms : List ModuleInformation} {moduleName exportedName : List Char} (hl : Lists ans ms)
    (hmodule : moduleName ≠ []) (hexported : exportedName ≠ []) :
    (resolveSystemRoutine u moduleName exportedName).result ans =
      .ok ((ms.find? (moduleMatches u (u.toLowercase moduleName))).bind fun m =>
        let addr := ans (.rtlFindExportedRoutineByName m.imageBase (exportedName ++ [Char.ofNat 0]))
        if m.imageBase = 0 ∨ addr = 0 then none else some addr) := by
  rw [resolveSystemRoutine, if_neg (not_or.mpr ⟨hmodule, hexported⟩), Prog.result_bind,
    getSystemModuleBaseAddress, Prog.result_bind, querySystemModule_result hl hmodule]
  cases ms.find? (moduleMatches u (u.toLowercase moduleName)) with
  | none => rfl
  | some m =>
    dsimp only [Outcome.bind, Prog.result_ok, Option.map_some, Option.bind_some]
    rw [findExportedRoutineByName, Prog.result_ite]
    by_cases hbase : m.imageBase = 0
    · -- a module without a base exports nothing
      rw [if_pos (.inl hbase), if_pos (.inl hbase)]
      rfl
    · rw [if_neg (not_or.mpr ⟨hbase, hexported⟩), Prog.result_ask, Prog.result_ite]
      simp only [hbase, false_or]
      split <;> rfl

/-- **The first module named.** The query returns the first module whose path or file name
    is the name exactly when the first entry that the code or that comparison accepts is
    aligned with the name. -/
theorem querySystemModule_first_iff (u : Unicode) (ans : (q : SystemReq) → q.Answer)
    (ms : List ModuleInformation) (hl : Lists ans ms) (hms : ∀ m ∈ ms, WellNamed m)
    (name : List Char) (hname : name ≠ []) :
    (querySystemModule u name).result ans = .ok (ms.find? (Named u name)) ↔
      ∀ m, ms.find? (fun m => Named u name m || moduleMatches u (u.toLowercase name) m) = some m →
        Aligned u name m := by
  rw [querySystemModule_result hl hname, Outcome.ok.injEq, eq_comm, find?_eq_iff]
  constructor
  · intro h m hfind
    exact (aligned_iff hname (hms m (List.mem_of_find?_eq_some hfind))).mp (h m hfind)
  · intro h m hfind
    exact (aligned_iff hname (hms m (List.mem_of_find?_eq_some hfind))).mpr (h m hfind)

/-! A directory whose name is the Kelvin sign, three bytes that lowercase makes one. -/

def kelvinSign : Char := Char.ofNat 0x212A

/-- The tables on ASCII, the Kelvin sign and the capital sigma. -/
def fixtureUnicode : Unicode where
  toLower c := if c = kelvinSign then ['k'] else if c = capitalSigma then [smallSigma]
    else [c.toLower]
  cased c := c.isAlpha
  caseIgnorable c := c = '.' ∨ c = ':'
  toLower_ne_nil c := by
    split
    · exact List.cons_ne_nil _ _
    · split <;> exact List.cons_ne_nil _ _
  toLower_ascii c hc := by
    have hkelvin : c ≠ kelvinSign := fun h => absurd (h ▸ hc) (by decide)
    have hsigma : c ≠ capitalSigma := fun h => absurd (h ▸ hc) (by decide)
    rw [if_neg hkelvin, if_neg hsigma]
  toLower_sigma := by decide

def paddedPath (path : List Char) : Vector UInt8 256 :=
  ⟨((path.flatMap String.utf8EncodeChar ++ List.replicate 256 0).take 256).toArray, by
    rw [List.size_toArray, List.length_take, List.length_append, List.length_replicate]
    omega⟩

def fixtureModule (path : List Char) (offset : BitVec 16) : ModuleInformation :=
  ⟨0, 0, 0xFFFFF80000000000#64, 0x1000#32, 0, 0, 0, 1, offset, paddedPath path⟩

def fixtureAnswer (ms : List ModuleInformation) : (q : SystemReq) → q.Answer
  | .zwQuerySystemInformation none => ⟨statusInfoLengthMismatch, 304, []⟩
  | .zwQuerySystemInformation (some n) => ⟨0, n, ms⟩
  | .rtlFindExportedRoutineByName .. => 0
  | .readPointer _ => 0
  | .copy _ n => ⟨List.replicate n 0, List.length_replicate⟩

theorem fixture_lists (ms : List ModuleInformation) : Lists (fixtureAnswer ms) ms :=
  ⟨.inl rfl, (by decide : ntSuccess 0#32 = true), rfl⟩

/-- A path that fits is read back. -/
theorem fixtureModule_path {path : List Char} {offset : BitVec 16}
    (h : (fixtureModule path offset).pathBytes = path.flatMap String.utf8EncodeChar) :
    (fixtureModule path offset).path = some path := by
  rw [ModuleInformation.path, h, decode_encode]

def kelvinPath : List Char := ['\\', kelvinSign, '\\', 'a']

theorem kelvin_path : (fixtureModule kelvinPath 5).path = some kelvinPath :=
  fixtureModule_path (by decide)

theorem kelvin_wellNamed : WellNamed (fixtureModule kelvinPath 5) :=
  ⟨by decide, ['\\', kelvinSign, '\\'], ['a'], kelvin_path, by decide⟩

/-- The whole path is found. -/
theorem querySystemModule_first_kelvin :
    (querySystemModule fixtureUnicode kelvinPath).result
        (fixtureAnswer [fixtureModule kelvinPath 5]) =
      .ok ([fixtureModule kelvinPath 5].find? (Named fixtureUnicode kelvinPath)) := by
  refine (querySystemModule_first_iff fixtureUnicode _ _ (fixture_lists _)
    (fun m hm => List.mem_singleton.mp hm ▸ kelvin_wellNamed) kelvinPath (by decide)).mpr
    fun m hm => ?_
  obtain rfl := List.mem_singleton.mp (List.mem_of_find?_eq_some hm)
  exact ⟨['\\', kelvinSign, '\\'], ['a'], kelvin_path, by decide, .inl ⟨rfl, rfl⟩⟩

/-- The file name `a` is not found: byte 5 of the path is behind its lowercase. -/
theorem querySystemModule_misses : WellNamed (fixtureModule kelvinPath 5) ∧
    [fixtureModule kelvinPath 5].find? (Named fixtureUnicode ['a']) =
      some (fixtureModule kelvinPath 5) ∧
    (querySystemModule fixtureUnicode ['a']).result
      (fixtureAnswer [fixtureModule kelvinPath 5]) = .ok none := by
  have hnamed : Named fixtureUnicode ['a'] (fixtureModule kelvinPath 5) = true := by
    rw [Named, ModuleInformation.fileName, kelvin_path]
    decide
  have hmatch : moduleMatches fixtureUnicode (fixtureUnicode.toLowercase ['a'])
      (fixtureModule kelvinPath 5) = false := by
    rw [moduleMatches, kelvin_path]
    decide
  refine ⟨kelvin_wellNamed, by rw [List.find?_cons, hnamed], ?_⟩
  rw [querySystemModule_result (fixture_lists _) (by decide), List.find?_cons, hmatch]
  rfl

end WinKernl
