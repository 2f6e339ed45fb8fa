import WinKernl.Lib.ByteMem
import Mathlib.Data.List.Nodup

/- `get_process_by_id` (`process/mod.rs`) on the kernel's process list.

   Correspondence (Rust ↔ Lean):
     `get_process_by_id`, its `loop`       ↔ `getProcessById`, `processLoop`
     `get_active_process_links_offset`     ↔ `getActiveProcessLinksOffset`
     the resolved symbols and offsets      ↔ `Resolved`
   The list is circular: the bare head, and one node inside each EPROCESS. The loop
   takes every node for one inside an EPROCESS, so it meets, once a round, an
   EPROCESS that is none (`ProcessList.bogus`). -/
namespace WinKernl
open ByteMem

inductive SearchError where
  | unknownModule
  | unknownFunction
  | unknownOffset
  deriving DecidableEq, Repr

/-- `get_active_process_links_offset`, on the build `RtlGetVersion` reports. -/
def getActiveProcessLinksOffset (dwBuildNumber : BitVec 32) : BitVec 64 :=
  if 26100 ≤ dwBuildNumber.toNat then 0x1D8#64 else 0x448#64

/-- The outcomes of `get_initial_system_process` and `search_process_id_offset`, and the
    build number. -/
structure Resolved where
  systemProcess : Except SearchError (BitVec 64)
  processIdOffset : Except SearchError (Option (BitVec 64))
  dwBuildNumber : BitVec 32

/-- The loop, for at most `fuel` turns. -/
def processLoop (mem : Mem 64) (systemProcess pidOffset linkOffset pid : BitVec 64) :
    (fuel : Nat) → (process : BitVec 64) → Option (Option (BitVec 64))
  | 0, _ => none
  | fuel + 1, process =>
    if readWord mem (process + pidOffset) = pid then some (some process) else
    let flink := readWord mem (process + linkOffset)
    if flink = 0 then some none else
    let process := flink - linkOffset
    if process = systemProcess then some none else
    processLoop mem systemProcess pidOffset linkOffset pid fuel process

/-- `get_process_by_id`; `none` when the loop is still running after `fuel` turns. -/
def getProcessById (r : Resolved) (mem : Mem 64) (pid : BitVec 32) (fuel : Nat) :
    Option (Except SearchError (Option (BitVec 64))) :=
  match r.systemProcess with
  | .error e => some (.error e)
  | .ok systemProcess =>
    match r.processIdOffset with
    | .error e => some (.error e)
    | .ok none => some (.error .unknownOffset)
    | .ok (some pidOffset) =>
      let linkOffset := getActiveProcessLinksOffset r.dwBuildNumber
      (processLoop mem systemProcess pidOffset linkOffset (pid.setWidth 64) fuel systemProcess).map
        .ok

/-- The call returns `res`. -/
def Returns (r : Resolved) (mem : Mem 64) (pid : BitVec 32)
    (res : Except SearchError (Option (BitVec 64))) : Prop :=
  ∃ fuel, getProcessById r mem pid fuel = some res

/-! The list. -/

/-- Each node's `Flink` is the next node, and the last one's is `first`. -/
def Linked (mem : Mem 64) (first : BitVec 64) : List (BitVec 64) → Prop
  | [] => True
  | [n] => readWord mem n = first
  | n :: k :: ns => readWord mem n = k ∧ Linked mem first (k :: ns)

instance Linked.decidable (mem : Mem 64) (first : BitVec 64) :
    (ns : List (BitVec 64)) → Decidable (Linked mem first ns)
  | [] => isTrue trivial
  | [_] => inferInstanceAs (Decidable (_ = _))
  | _ :: k :: ns =>
    have := Linked.decidable mem first (k :: ns)
    inferInstanceAs (Decidable (_ ∧ _))

section
variable (mem : Mem 64) (pidOffset linkOffset : BitVec 64)

/-- `UniqueProcessId` of the EPROCESS at `p`. -/
def uniqueProcessId (p : BitVec 64) : BitVec 64 := readWord mem (p + pidOffset)

/-- A process list in `mem`: the processes behind the system process, up to the head and
    from the head on. -/
structure ProcessList where
  system : BitVec 64
  before : List (BitVec 64)
  head : BitVec 64
  after : List (BitVec 64)
  linked : Linked mem (system + linkOffset)
    ((system :: before).map (· + linkOffset) ++ head :: after.map (· + linkOffset))
  nodup : ((system :: before).map (· + linkOffset) ++
    head :: after.map (· + linkOffset)).Nodup
  nonnull : 0 ∉ (system :: before).map (· + linkOffset) ++ head :: after.map (· + linkOffset)
  ids : ((system :: before ++ after).map (uniqueProcessId mem pidOffset)).Nodup

namespace ProcessList
variable {mem pidOffset linkOffset} (l : ProcessList mem pidOffset linkOffset)

def processes : List (BitVec 64) := l.system :: l.before ++ l.after

/-- The EPROCESS that the list head is taken for. -/
def bogus : BitVec 64 := l.head - linkOffset

/-- What the loop visits, in order. -/
def visited : List (BitVec 64) := l.system :: l.before ++ l.bogus :: l.after

/-- The call returns, with the process whose identifier is `pid`, or with `None` where
    there is none. -/
def Finds (r : Resolved) (pid : BitVec 32) : Prop :=
  ∃ res, Returns r mem pid (.ok res) ∧
    (∀ p, res = some p ↔
      p ∈ l.processes ∧ uniqueProcessId mem pidOffset p = pid.setWidth 64) ∧
    (res = none ↔ ∀ p ∈ l.processes, uniqueProcessId mem pidOffset p ≠ pid.setWidth 64)

/-! The loop along the list. -/

theorem visited_nodes : l.visited.map (· + linkOffset) =
    (l.system :: l.before).map (· + linkOffset) ++ l.head :: l.after.map (· + linkOffset) := by
  have hbogus : l.bogus + linkOffset = l.head := BitVec.sub_add_cancel _ _
  rw [visited, List.map_append]
  simp only [List.map_cons, hbogus]

end ProcessList

variable {mem pidOffset linkOffset}

theorem processLoop_succ {systemProcess pid : BitVec 64} {fuel : Nat} {p : BitVec 64} :
    processLoop mem systemProcess pidOffset linkOffset pid (fuel + 1) p =
      if uniqueProcessId mem pidOffset p = pid then some (some p) else
      if readWord mem (p + linkOffset) = 0 then some none else
      if readWord mem (p + linkOffset) - linkOffset = systemProcess then some none else
      processLoop mem systemProcess pidOffset linkOffset pid fuel
        (readWord mem (p + linkOffset) - linkOffset) := rfl

theorem processLoop_det {systemProcess pid : BitVec 64} {fuel fuel' : Nat} {p : BitVec 64}
    {res res' : Option (BitVec 64)}
    (h : processLoop mem systemProcess pidOffset linkOffset pid fuel p = some res)
    (h' : processLoop mem systemProcess pidOffset linkOffset pid fuel' p = some res') :
    res = res' := by
  induction fuel generalizing fuel' p with
  | zero => cases h
  | succ fuel ih =>
    cases fuel' with
    | zero => cases h'
    | succ fuel' =>
      rw [processLoop_succ] at h h'
      split at h
      · next hid =>
        rw [if_pos hid] at h'
        exact Option.some.inj (h.symm.trans h')
      · next hid =>
        rw [if_neg hid] at h'
        split at h
        · next hnull =>
          rw [if_pos hnull] at h'
          exact Option.some.inj (h.symm.trans h')
        · next hnull =>
          rw [if_neg hnull] at h'
          split at h
          · next hsys =>
            rw [if_pos hsys] at h'
            exact Option.some.inj (h.symm.trans h')
          · next hsys =>
            rw [if_neg hsys] at h'
            exact ih h h'

/-- Along a linked list the loop returns the first process whose identifier is `pid`. -/
theorem processLoop_find {system pid : BitVec 64} {p : BitVec 64} {ps : List (BitVec 64)}
    {fuel : Nat} (hfuel : (p :: ps).length ≤ fuel)
    (hlinked : Linked mem (system + linkOffset) ((p :: ps).map (· + linkOffset)))
    (hsys : system ∉ ps) (hnull : 0 ∉ ps.map (· + linkOffset)) (hsysnull : system + linkOffset ≠ 0) :
    processLoop mem system pidOffset linkOffset pid fuel p =
      some ((p :: ps).find? fun q => uniqueProcessId mem pidOffset q = pid) := by
  obtain ⟨fuel, rfl⟩ : ∃ k, fuel = k + 1 := ⟨fuel - 1, by simp at hfuel; omega⟩
  induction ps generalizing p fuel with
  | nil =>
    have hflink : readWord mem (p + linkOffset) = system + linkOffset := hlinked
    rw [processLoop_succ, hflink, BitVec.add_sub_cancel, if_neg hsysnull, if_pos rfl]
    by_cases hid : uniqueProcessId mem pidOffset p = pid <;> simp [hid]
  | cons q ps ih =>
    obtain ⟨hflink, hrest⟩ : readWord mem (p + linkOffset) = q + linkOffset ∧
      Linked mem (system + linkOffset) ((q :: ps).map (· + linkOffset)) := hlinked
    have hq : q ≠ system := fun h => hsys (h ▸ List.mem_cons_self)
    have hq0 : q + linkOffset ≠ 0 := fun h => hnull (h ▸ List.mem_cons_self)
    rw [processLoop_succ, hflink, BitVec.add_sub_cancel, if_neg hq0, if_neg hq]
    by_cases hid : uniqueProcessId mem pidOffset p = pid
    · simp [hid]
    · obtain ⟨fuel, rfl⟩ : ∃ k, fuel = k + 1 := ⟨fuel - 1, by simp at hfuel; omega⟩
      rw [if_neg hid, List.find?_cons_of_neg (by simpa using hid)]
      exact ih hrest (fun h => hsys (List.mem_cons_of_mem _ h))
        (fun h => hnull (List.mem_cons_of_mem _ h)) fuel (by simp at hfuel ⊢; omega)

end

section
variable {mem : Mem 64} {pidOffset : BitVec 64} {r : Resolved}
  (l : ProcessList mem pidOffset (getActiveProcessLinksOffset r.dwBuildNumber))
  (hsys : r.systemProcess = .ok l.system) (hoff : r.processIdOffset = .ok (some pidOffset))
  (pid : BitVec 32)
include hsys hoff

theorem getProcessById_loop (fuel : Nat) : getProcessById r mem pid fuel =
    (processLoop mem l.system pidOffset (getActiveProcessLinksOffset r.dwBuildNumber)
      (pid.setWidth 64) fuel l.system).map .ok := by
  rw [getProcessById, hsys, hoff]

theorem returns_unique {res res' : Option (BitVec 64)} (h : Returns r mem pid (.ok res))
    (h' : Returns r mem pid (.ok res')) : res = res' := by
  obtain ⟨fuel, h⟩ := h
  obtain ⟨fuel', h'⟩ := h'
  rw [getProcessById_loop l hsys hoff, Option.map_eq_some_iff] at h h'
  obtain ⟨a, ha, hres⟩ := h
  obtain ⟨a', ha', hres'⟩ := h'
  cases hres
  cases hres'
  exact processLoop_det ha ha'

/-- The call returns the first EPROCESS it visits whose identifier is `pid`. -/
theorem returns_find : Returns r mem pid (.ok (l.visited.find? fun q =>
    uniqueProcessId mem pidOffset q = pid.setWidth 64)) := by
  refine ⟨l.visited.length, ?_⟩
  have hlinked := l.linked
  have hnodup := l.nodup
  have hnull := l.nonnull
  rw [← l.visited_nodes] at hlinked hnodup hnull
  rw [getProcessById_loop l hsys hoff, ProcessList.visited, List.cons_append]
  rw [ProcessList.visited, List.cons_append] at hlinked hnodup hnull
  rw [processLoop_find (Nat.le_refl _) hlinked]
  · rfl
  · intro hmem
    rw [List.map_cons, List.nodup_cons] at hnodup
    exact hnodup.1 (List.mem_map_of_mem hmem)
  · exact fun h => hnull (List.mem_cons_of_mem _ h)
  · exact fun h => hnull (h ▸ List.mem_cons_self)

end

section
variable {mem : Mem 64} {pidOffset linkOffset : BitVec 64}
  (l : ProcessList mem pidOffset linkOffset)

theorem ProcessList.mem_processes {p : BitVec 64} :
    p ∈ l.processes ↔ p ∈ l.system :: l.before ∨ p ∈ l.after := by
  rw [processes, List.mem_append]

/-- The head is in no process. -/
theorem ProcessList.bogus_not_mem : l.bogus ∉ l.processes := by
  intro h
  have hnodup := l.nodup
  rw [List.nodup_append] at hnodup
  obtain ⟨-, hafter, hdisj⟩ := hnodup
  have hbogus : l.bogus + linkOffset = l.head := BitVec.sub_add_cancel _ _
  rcases l.mem_processes.mp h with h | h
  · have := List.mem_map_of_mem (f := (· + linkOffset)) h
    exact hdisj _ this l.head List.mem_cons_self hbogus
  · have := List.mem_map_of_mem (f := (· + linkOffset)) h
    rw [List.nodup_cons] at hafter
    exact hafter.1 (hbogus ▸ this)

/-- Distinct processes have distinct identifiers. -/
theorem ProcessList.eq_of_id {p q : BitVec 64} (hp : p ∈ l.processes) (hq : q ∈ l.processes)
    (h : uniqueProcessId mem pidOffset p = uniqueProcessId mem pidOffset q) : p = q :=
  List.inj_on_of_nodup_map l.ids hp hq h

/-- A result is right when it is a process with the identifier, or `none` and there is
    no such process. -/
theorem ProcessList.right_of_find {id : BitVec 64} {res : Option (BitVec 64)}
    (hsome : ∀ p, res = some p → p ∈ l.processes ∧ uniqueProcessId mem pidOffset p = id)
    (hnone : res = none → ∀ p ∈ l.processes, uniqueProcessId mem pidOffset p ≠ id) :
    (∀ p, res = some p ↔ p ∈ l.processes ∧ uniqueProcessId mem pidOffset p = id) ∧
      (res = none ↔ ∀ p ∈ l.processes, uniqueProcessId mem pidOffset p ≠ id) := by
  cases res with
  | none =>
    refine ⟨fun p => ?_, iff_of_true rfl (hnone rfl)⟩
    exact iff_of_false (fun h => nomatch h) (fun h => hnone rfl p h.1 h.2)
  | some q =>
    obtain ⟨hq, hid⟩ := hsome q rfl
    refine ⟨fun p => ⟨hsome p, fun h => ?_⟩, ?_⟩
    · rw [l.eq_of_id h.1 hq (h.2.trans hid.symm)]
    · exact iff_of_false (fun h => nomatch h) (fun h => h q hq hid)

end

/-- A search meets `y` only where nothing in front of it is found. -/
theorem find?_skip {α : Type} {f : α → Bool} {xs ys : List α} {y : α}
    (h : f y = false ∨ ∃ x ∈ xs, f x = true) :
    (xs ++ y :: ys).find? f = (xs ++ ys).find? f := by
  rw [List.find?_append, List.find?_append]
  cases hx : xs.find? f with
  | some x => rfl
  | none =>
    rcases h with h | ⟨x, hmem, hfx⟩
    · rw [List.find?_cons, h]
    · exact absurd hfx (List.find?_eq_none.mp hx x hmem)

theorem find?_meets {α : Type} {f : α → Bool} {xs ys : List α} {y : α} (hy : f y = true)
    (h : ∀ x ∈ xs, f x ≠ true) : (xs ++ y :: ys).find? f = some y := by
  rw [List.find?_append, List.find?_eq_none.mpr h, List.find?_cons, hy]
  rfl

section
variable {mem : Mem 64} {pidOffset : BitVec 64} {r : Resolved}

/-- **The list head.** The call finds exactly the processes of the list, unless the
    word that the list head has for an identifier is `pid`, and no process in front of
    the head has that identifier. -/
theorem getProcessById_finds_iff
    (l : ProcessList mem pidOffset (getActiveProcessLinksOffset r.dwBuildNumber))
    (hsys : r.systemProcess = .ok l.system) (hoff : r.processIdOffset = .ok (some pidOffset))
    (pid : BitVec 32) : l.Finds r pid ↔
      uniqueProcessId mem pidOffset l.bogus ≠ pid.setWidth 64 ∨
        ∃ p ∈ l.system :: l.before, uniqueProcessId mem pidOffset p = pid.setWidth 64 := by
  have hfind := returns_find l hsys hoff pid
  rw [ProcessList.visited] at hfind
  constructor
  · intro hfinds
    obtain ⟨res, hres, hsome, -⟩ := hfinds
    by_contra hnot
    obtain ⟨hbogus, hfront⟩ := not_or.mp hnot
    rw [not_not] at hbogus
    rw [find?_meets (by simpa using hbogus)
      (fun p hp h => hfront ⟨p, hp, by simpa using h⟩)] at hfind
    have hout := returns_unique l hsys hoff pid hres hfind
    exact l.bogus_not_mem ((hsome l.bogus).mp hout).1
  · intro hcond
    rw [find?_skip (by simpa using hcond)] at hfind
    refine ⟨_, hfind, l.right_of_find (fun p hp => ?_) (fun hnone p hp h => ?_)⟩
    · exact ⟨List.mem_of_find?_eq_some hp, by simpa using List.find?_some hp⟩
    · exact List.find?_eq_none.mp hnone p hp (by simpa using h)

end

/-! Three processes, of which the third is behind the list head, and 42 eight bytes below
    the head. -/

def ringResolved : Resolved := ⟨.ok 0x10000#64, .ok (some 0x1D0#64), 26100#32⟩

/-- The links of the three and of the head. -/
def ringLinks : Mem 64 :=
  writeWord (writeWord (writeWord (writeWord (fun _ => 0) 0x101D8#64 0x111D8#64)
    0x111D8#64 0x20000#64) 0x20000#64 0x121D8#64) 0x121D8#64 0x101D8#64

def ringMem : Mem 64 :=
  writeWord (writeWord (writeWord (writeWord ringLinks 0x101D0#64 4#64) 0x111D0#64 8#64)
    0x121D0#64 12#64) 0x1FFF8#64 42#64

def ringList : ProcessList ringMem 0x1D0#64
    (getActiveProcessLinksOffset ringResolved.dwBuildNumber) :=
  ⟨0x10000#64, [0x11000#64], 0x20000#64, [0x12000#64], by decide, by decide, by decide, by decide⟩

theorem ringList_processes :
    ringList.processes = [0x10000#64, 0x11000#64, 0x12000#64] := rfl

theorem ringList_ids :
    ringList.processes.map (uniqueProcessId ringMem 0x1D0#64) = [4#64, 8#64, 12#64] := by
  have hsystem : uniqueProcessId ringMem 0x1D0#64 0x10000#64 = 4#64 := by decide
  have hsecond : uniqueProcessId ringMem 0x1D0#64 0x11000#64 = 8#64 := by decide
  have hthird : uniqueProcessId ringMem 0x1D0#64 0x12000#64 = 12#64 := by decide
  rw [ringList_processes, List.map_cons, List.map_cons, List.map_singleton, hsystem, hsecond,
    hthird]

/-- The process behind the head is found. -/
theorem getProcessById_behind_head : ringList.Finds ringResolved 12#32 ∧
    0x12000#64 ∈ ringList.processes ∧ uniqueProcessId ringMem 0x1D0#64 0x12000#64 = 12#64 :=
  ⟨(getProcessById_finds_iff ringList rfl rfl 12#32).mpr (.inl (by decide)),
    .tail _ (.tail _ (.head _)), by decide⟩

/-- The call answers 42 with the list head, taken for an EPROCESS. -/
theorem getProcessById_list_head :
    getProcessById ringResolved ringMem 42#32 3 = some (.ok (some 0x1FE28#64)) ∧
      ringList.processes = [0x10000#64, 0x11000#64, 0x12000#64] ∧
      ringList.processes.map (uniqueProcessId ringMem 0x1D0#64) = [4#64, 8#64, 12#64] ∧
      ¬ ringList.Finds ringResolved 42#32 := by
  have hcall : getProcessById ringResolved ringMem 42#32 3 = some (.ok (some 0x1FE28#64)) := by
    decide
  have hnot : ∀ p ∈ ringList.processes,
      uniqueProcessId ringMem 0x1D0#64 p ≠ (42#32).setWidth 64 := by
    intro p hp hid
    have hmem := List.mem_map_of_mem (f := uniqueProcessId ringMem 0x1D0#64) hp
    rw [ringList_ids, hid] at hmem
    exact absurd hmem (by decide)
  refine ⟨hcall, ringList_processes, ringList_ids, ?_⟩
  intro hfinds
  obtain ⟨res, hres, -, hnone⟩ := hfinds
  obtain rfl := returns_unique ringList rfl rfl 42#32 hres ⟨3, hcall⟩
  exact absurd (hnone.mpr hnot) (Option.some_ne_none _)

end WinKernl
