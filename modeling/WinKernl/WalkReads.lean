import WinKernl.WalkLevels

/- What a walk reads, level by level.

   `get_address_of_level` for a level is `get_address_of_level` for the level above
   and one more turn of the same loop (`level_below`): read the entry there, check
   it, and go where it points (`descend`). So an error met on the way stays
   (`error_deeper`), and the reads of a full walk are the addresses that the four
   table levels give (`walk_reads`). -/
namespace WinKernl
open ByteMem Ask

section
variable {E : Type}

/-- The order of `PageLevel`, by declaration. -/
def PageLevel.depth : PageLevel → Nat
  | .pml4 => 0
  | .pdpt => 1
  | .pd => 2
  | .pt => 3
  | .phys => 4

def PageLevel.below : PageLevel → PageLevel
  | .pml4 => .pdpt
  | .pdpt => .pd
  | .pd => .pt
  | .pt => .phys
  | .phys => .phys

theorem PageLevel.rec_below {P : PageLevel → Prop} (top : P .pml4)
    (below : ∀ level, level ≠ .phys → P level → P level.below) (level : PageLevel) : P level := by
  have hpdpt := below .pml4 (by decide) top
  have hpd := below .pdpt (by decide) hpdpt
  have hpt := below .pd (by decide) hpd
  have hphys := below .pt (by decide) hpt
  cases level <;> assumption

/-- The levels that are tables. -/
def tableLevels : List PageLevel := [.pml4, .pdpt, .pd, .pt]

/-- The error of an entry of this level that is not present. -/
def PageLevel.invalid : PageLevel → PageTableEntry → WalkErr E
  | .pml4 => .invalidPml4
  | .pdpt => .invalidPdpt
  | .pd => .invalidPde
  | .pt => .invalidPte
  | .phys => .invalidPte

/-- An entry of this level may map a huge page. -/
def PageLevel.mayBeHuge : PageLevel → Bool
  | .pml4 => false
  | .pdpt => true
  | .pd => true
  | .pt => false
  | .phys => false

/-- What is added to the frame of an entry of this level. -/
def PageLevel.offset (va : VirtAddr) : PageLevel → BitVec 64
  | .pml4 => va.p3Index.setWidth 64 * 8#64
  | .pdpt => va.p2Index.setWidth 64 * 8#64
  | .pd => va.p1Index.setWidth 64 * 8#64
  | .pt => va.val &&& 0xFFF#64
  | .phys => 0

/-- From the address of an entry to what it points to. -/
def descend (va : VirtAddr) (level : PageLevel) (addr : PhysAddr) :
    Walk E (WalkLevelErr E) PhysAddr := do
  let e ← readEntry addr
  if !e.flags.contains .PRESENT then .err (.walkErr (level.invalid e)) else
  if level.mayBeHuge && e.flags.contains .HUGE_PAGE then .err .hugePageBeforeLevel else
  Prog.orPanic (e.addr.add (level.offset va))

/-- One level more is one entry more. -/
theorem level_below (pml4 : PhysAddr) (va : VirtAddr) {level : PageLevel} (h : level ≠ .phys) :
    getAddressOfLevel (E := E) pml4 va level.below =
      getAddressOfLevel pml4 va level >>= fun a => descend va level a := by
  cases level with
  | phys => exact absurd rfl h
  | _ =>
    simp only [getAddressOfLevel, descend, PageLevel.below, PageLevel.invalid, PageLevel.mayBeHuge,
      PageLevel.offset, Prog.bind_assoc, Prog.ite_bind, Prog.err_bind, Prog.bind_pure, reduceCtorEq,
      if_false, if_true, Bool.false_and, Bool.true_and, Bool.false_eq_true]

/-- The address an entry points to is one. -/
theorem add_offset (e : PageTableEntry) (va : VirtAddr) (level : PageLevel) :
    ∃ a, e.addr.add (level.offset va) = some a := by
  cases level with
  | pml4 => exact ⟨_, add_index (addr_aligned e) va.p3Index⟩
  | pdpt => exact ⟨_, add_index (addr_aligned e) va.p2Index⟩
  | pd => exact ⟨_, add_index (addr_aligned e) va.p1Index⟩
  | pt => exact ⟨_, add_page e va.val⟩
  | phys =>
    obtain ⟨a, ha, -⟩ := add_of_lt (p := e.addr) (n := 0#64) e.addr.valid
    exact ⟨a, ha⟩

theorem descend_trace (m : PhysMem E) (va : VirtAddr) (level : PageLevel) (a : PhysAddr) :
    (descend va level a).trace m.answer = [⟨a, 8⟩] := by
  rw [descend, Prog.trace_bind, readEntry_trace, readEntry_result]
  cases m.fail a with
  | some e => rfl
  | none =>
    simp only [Prog.traceAfter_ok, Prog.trace_ite, Prog.trace_err, Prog.trace_orPanic, ite_self,
      List.append_nil]

theorem descend_ok {m : PhysMem E} {va : VirtAddr} {level : PageLevel} {a b : PhysAddr}
    (h : (descend va level a).result m.answer = .ok b) :
    (m.entry a).addr.add (level.offset va) = some b := by
  rw [descend, Prog.result_bind, readEntry_result] at h
  cases hf : m.fail a with
  | some e =>
    rw [hf] at h
    cases h
  | none =>
    rw [hf] at h
    simp only [Outcome.bind, Prog.result_ite, Prog.result_err, Prog.result_orPanic] at h
    split at h
    · cases h
    split at h
    · cases h
    cases ho : (m.entry a).addr.add (level.offset va) with
    | none =>
      rw [ho] at h
      cases h
    | some b' =>
      rw [ho] at h
      cases h
      rfl

theorem descend_no_panic (m : PhysMem E) (va : VirtAddr) (level : PageLevel) (a : PhysAddr) :
    (descend va level a).result m.answer ≠ .panic := by
  rw [descend, Prog.result_bind, readEntry_result]
  cases m.fail a with
  | some e => exact fun h => by cases h
  | none =>
    obtain ⟨b, hb⟩ := add_offset (m.entry a) va level
    simp only [Outcome.bind, Prog.result_ite, Prog.result_err, Prog.result_orPanic, hb,
      Outcome.orPanic]
    split
    · simp
    · split <;> simp

end

section
variable {E : Type} (m : PhysMem E) {pml4 : PhysAddr} (va : VirtAddr)

/-- What `get_address_of_level` gives on `m`. -/
def PhysMem.level (m : PhysMem E) (pml4 : PhysAddr) (va : VirtAddr) (level : PageLevel) :
    Outcome (WalkLevelErr E) PhysAddr :=
  (getAddressOfLevel pml4 va level).result m.answer

/-- The read of an entry whose address a level gives. -/
def readOf : Outcome (WalkLevelErr E) PhysAddr → List ReadReq
  | .ok a => [⟨a, 8⟩]
  | .err _ => []
  | .panic => []

theorem level_result_below {level : PageLevel} (h : level ≠ .phys) : m.level pml4 va level.below =
    (m.level pml4 va level).bind fun a => (descend va level a).result m.answer := by
  rw [PhysMem.level, level_below pml4 va h, Prog.result_bind]
  rfl

/-- A level succeeds only from the one above. -/
theorem level_above {level : PageLevel} (hl : level ≠ .phys) {a : PhysAddr}
    (h : m.level pml4 va level.below = .ok a) :
    ∃ b, m.level pml4 va level = .ok b ∧ (descend va level b).result m.answer = .ok a := by
  rw [level_result_below m va hl] at h
  cases hb : m.level pml4 va level with
  | ok b =>
    rw [hb] at h
    exact ⟨b, rfl, h⟩
  | err e =>
    rw [hb] at h
    cases h
  | panic =>
    rw [hb] at h
    cases h

theorem level_trace_below {level : PageLevel} (h : level ≠ .phys) :
    (getAddressOfLevel pml4 va level.below).trace m.answer =
      (getAddressOfLevel pml4 va level).trace m.answer ++ readOf (m.level pml4 va level) := by
  rw [level_below pml4 va h, Prog.trace_bind, ← PhysMem.level]
  cases m.level pml4 va level with
  | ok a => rw [Prog.traceAfter_ok, descend_trace, readOf]
  | err e => rfl
  | panic => rfl

theorem readOf_len {o : Outcome (WalkLevelErr E) PhysAddr} {q : ReadReq} (h : q ∈ readOf o) :
    q.len = 8 := by
  cases o with
  | ok a =>
    rw [List.mem_singleton.mp h]
  | err e => cases h
  | panic => cases h

/-- Where nothing succeeds behind a failure, the reads are the successes in front of it. -/
theorem readOf_prefix {os : List (Outcome (WalkLevelErr E) PhysAddr)}
    (h : os.Pairwise fun o o' => o.isOk = false → o'.isOk = false) :
    (os.flatMap readOf).map (fun q => Outcome.ok q.phys) = os.takeWhile Outcome.isOk := by
  induction os with
  | nil => rfl
  | cons o os ih =>
    obtain ⟨hfail, hrest⟩ := List.pairwise_cons.mp h
    have hempty : o.isOk = false → os.flatMap readOf = [] := by
      intro ho
      refine List.flatMap_eq_nil_iff.mpr fun o' ho' => ?_
      have := hfail o' ho' ho
      cases o' with
      | ok a => cases this
      | err e => rfl
      | panic => rfl
    cases o with
    | ok a =>
      rw [List.flatMap_cons, List.map_append, ih hrest, List.takeWhile_cons_of_pos rfl]
      rfl
    | err e => simp [readOf, Outcome.isOk, hempty rfl]
    | panic => simp [readOf, Outcome.isOk, hempty rfl]

/-! Errors on the way. -/

theorem below_iterate (level level' : PageLevel) (h : level.depth ≤ level'.depth) :
    PageLevel.below^[level'.depth - level.depth] level = level' := by
  revert h
  cases level <;> cases level' <;> decide

theorem error_below {level : PageLevel} {e : WalkLevelErr E} (h : m.level pml4 va level = .err e) :
    m.level pml4 va level.below = .err e := by
  by_cases hl : level = .phys
  · rw [hl] at h ⊢
    exact h
  · rw [level_result_below m va hl, h]
    rfl

/-- An error of one level is the error of every deeper one. -/
theorem error_deeper {level level' : PageLevel} (hle : level.depth ≤ level'.depth)
    {e : WalkLevelErr E} (h : m.level pml4 va level = .err e) : m.level pml4 va level' = .err e := by
  rw [← below_iterate level level' hle]
  generalize level'.depth - level.depth = n
  induction n with
  | zero => exact h
  | succ n ih =>
    rw [Function.iterate_succ_apply']
    exact error_below m va ih

variable (hp : pml4.Aligned)
include hp

theorem level_pml4 : m.level pml4 va .pml4 = .ok (entryAt pml4.val va.p4Index) := by
  rw [PhysMem.level, getAddressOfLevel, new_index hp, orPanic_some, if_pos rfl]
  rfl

theorem level_no_panic (level : PageLevel) : m.level pml4 va level ≠ .panic := by
  induction level using PageLevel.rec_below with
  | top =>
    rw [level_pml4 m va hp]
    exact fun h => by cases h
  | below level hl ih =>
    rw [level_result_below m va hl]
    cases hr : m.level pml4 va level with
    | ok a => exact descend_no_panic m va level a
    | err e => exact fun h => by cases h
    | panic => exact absurd hr ih

/-! The reads of a walk. -/

/-- A level reads one entry for each level above it. -/
theorem level_reads (level : PageLevel) : (getAddressOfLevel pml4 va level).trace m.answer =
    (tableLevels.take level.depth).flatMap fun level => readOf (m.level pml4 va level) := by
  induction level using PageLevel.rec_below with
  | top =>
    rw [getAddressOfLevel, new_index hp, orPanic_some, if_pos rfl]
    rfl
  | below level hl ih =>
    have htake : tableLevels.take level.below.depth = tableLevels.take level.depth ++ [level] := by
      cases level with
      | phys => exact absurd rfl hl
      | _ => rfl
    rw [level_trace_below m va hl, ih, htake, List.flatMap_append, List.flatMap_singleton]

theorem walk_reads : (virtualToPhysical pml4 va).trace m.answer =
    tableLevels.flatMap fun level => readOf (m.level pml4 va level) := by
  rw [← walkers_trace m hp va, level_reads m va hp]
  rfl

/-- The reads are the addresses of the levels, up to the first level that fails. -/
theorem walk_prefix :
    ((virtualToPhysical pml4 va).trace m.answer).map (fun q => Outcome.ok q.phys) =
      (tableLevels.map (m.level pml4 va)).takeWhile Outcome.isOk := by
  have hdeep : tableLevels.Pairwise fun level level' => level.depth ≤ level'.depth := by decide
  rw [walk_reads m va hp, ← List.flatMap_map]
  apply readOf_prefix
  refine List.pairwise_map.mpr (hdeep.imp fun {level level'} hle hfail => ?_)
  cases hr : m.level pml4 va level with
  | ok a =>
    rw [hr] at hfail
    cases hfail
  | err e =>
    rw [error_deeper m va hle hr]
    rfl
  | panic => exact absurd hr (level_no_panic m va hp level)

end

/-! Where a walk stops. -/

section
variable {E : Type}

/-- How many entries a walk has read, by how it ended: the entry it stopped at is the
    last one, and where a read failed it is the last read. -/
def PhysMem.StopsAt (m : PhysMem E) (reads : List ReadReq) :
    Outcome (WalkErr E) (PhysAddr × PageLevel) → Prop
  | .err (.invalidPml4 _) => reads.length = 1
  | .err (.invalidPdpt _) => reads.length = 2
  | .err (.invalidPde _) => reads.length = 3
  | .err (.invalidPte _) => reads.length = 4
  | .err (.readErr e) => ∃ q, reads.getLast? = some q ∧ m.fail q.phys = some e
  | .ok (_, level) => level ∈ [.pdpt, .pd, .phys] ∧ reads.length = min (level.depth + 1) 4
  | .panic => True

/-- A walk stops at a read that fails. -/
theorem fetch_error_stops {m : PhysMem E} {t : BitVec 64} {i : BitVec 9} {e : WalkErr E}
    (h : m.fetch t i = .error e) {reads : List ReadReq}
    (hlast : reads.getLast? = some ⟨entryAt t i, 8⟩) : m.StopsAt reads (.err e) := by
  unfold PhysMem.fetch at h
  cases hf : m.fail (entryAt t i) with
  | some x =>
    rw [hf] at h
    cases h
    exact ⟨_, hlast, hf⟩
  | none =>
    rw [hf] at h
    cases h

theorem leaf_stops (m : PhysMem E) (o : Option PhysAddr) {level : PageLevel}
    {reads : List ReadReq} (hl : level ∈ [.pdpt, .pd, .phys])
    (hlen : reads.length = min (level.depth + 1) 4) :
    m.StopsAt reads (Outcome.orPanic (o.map (·, level))) := by
  cases o with
  | none => trivial
  | some pa => exact ⟨hl, hlen⟩

theorem walk_stops (m : PhysMem E) {pml4 : PhysAddr} (hp : pml4.Aligned) (va : VirtAddr) :
    m.StopsAt ((virtualToPhysical pml4 va).trace m.answer)
      ((virtualToPhysical pml4 va).result m.answer) := by
  simp only [virtualToPhysical, contains_present, contains_huge, walk_fetch m hp,
    walk_fetch m (addr_aligned _), walk_fetch_trace m hp, walk_fetch_trace m (addr_aligned _),
    fetch_addr, entryAt_addr, Prog.result_ite, Prog.trace_ite, Prog.result_err, Prog.trace_err,
    leaf_address, leaf_trace]
  -- One case a level: the read fails, the entry stops the walk, or the walk goes on.
  cases hf : m.fetch pml4.val va.p4Index with
  | error e => exact fetch_error_stops hf rfl
  | ok pml4e =>
    dsimp only
    split
    · rfl
    cases hf : m.fetch pml4e.entry va.p3Index with
    | error e => exact fetch_error_stops hf rfl
    | ok pdpte =>
      dsimp only
      split
      · rfl
      split
      · exact leaf_stops m _ (by decide) rfl
      cases hf : m.fetch pdpte.entry va.p2Index with
      | error e => exact fetch_error_stops hf rfl
      | ok pde =>
        dsimp only
        split
        · rfl
        split
        · exact leaf_stops m _ (by decide) rfl
        cases hf : m.fetch pde.entry va.p1Index with
        | error e => exact fetch_error_stops hf rfl
        | ok pte =>
          dsimp only
          split
          · rfl
          · exact leaf_stops m _ (by decide) rfl

/-- The agreement of two memories on the entries of a list of reads. -/
def PhysMem.AgreesOn (m m' : PhysMem E) (reads : List ReadReq) : Prop :=
  ∀ q ∈ reads, m'.fail q.phys = m.fail q.phys ∧ m'.entry q.phys = m.entry q.phys

theorem PhysMem.AgreesOn.answer {m m' : PhysMem E} {reads : List ReadReq}
    (h : m.AgreesOn m' reads) {q : ReadReq} (hq : q ∈ reads) (hlen : q.len = 8) :
    m'.answer q = m.answer q := by
  obtain ⟨hfail, hentry⟩ := h q hq
  have hword : readWord m'.bytes q.phys.val = readWord m.bytes q.phys.val :=
    congrArg PageTableEntry.entry hentry
  rw [PhysMem.answer, PhysMem.answer, hfail, hlen, read_word, read_word, hword]

/-- **Levels and reads.** A level succeeds where a deeper one does, and its error is
    the error of every deeper one. A walk reads the entries at the addresses that the
    table levels give, in their order and up to the level it stops at, and its outcome
    depends on these entries alone. -/
theorem levels_consistent (m : PhysMem E) {pml4 : PhysAddr} (hp : pml4.Aligned) (va : VirtAddr) :
    (∀ level level' : PageLevel, level.depth < level'.depth →
      ((∃ a, m.level pml4 va level' = .ok a) → ∃ a, m.level pml4 va level = .ok a) ∧
      ∀ e, m.level pml4 va level = .err e → m.level pml4 va level' = .err e) ∧
    ((virtualToPhysical pml4 va).trace m.answer).map (fun q => Outcome.ok q.phys) =
      (tableLevels.map (m.level pml4 va)).takeWhile Outcome.isOk ∧
    m.StopsAt ((virtualToPhysical pml4 va).trace m.answer)
      ((virtualToPhysical pml4 va).result m.answer) ∧
    ((virtualToPhysical pml4 va).trace m.answer).length ≤ 4 ∧
    (∀ q ∈ (virtualToPhysical pml4 va).trace m.answer, q.len = 8) ∧
    ∀ m' : PhysMem E, m.AgreesOn m' ((virtualToPhysical pml4 va).trace m.answer) →
      (virtualToPhysical pml4 va).result m'.answer =
        (virtualToPhysical pml4 va).result m.answer := by
  have hlens : ∀ q ∈ (virtualToPhysical pml4 va).trace m.answer, q.len = 8 := by
    intro q hq
    rw [walk_reads m va hp] at hq
    obtain ⟨level, -, hq⟩ := List.mem_flatMap.mp hq
    exact readOf_len hq
  have hprefix := walk_prefix m va hp
  refine ⟨fun level level' hlt => ⟨?_, fun e => error_deeper m va (Nat.le_of_lt hlt)⟩, hprefix,
    walk_stops m hp va, ?_, hlens, fun m' hagree => ?_⟩
  · -- a level cannot fail above one that succeeds
    intro hok
    obtain ⟨a, ha⟩ := hok
    cases hr : m.level pml4 va level with
    | ok b => exact ⟨b, rfl⟩
    | err e =>
      rw [error_deeper m va (Nat.le_of_lt hlt) hr] at ha
      cases ha
    | panic => exact absurd hr (level_no_panic m va hp level)
  · -- there are four levels to read at
    have hlen := congrArg List.length hprefix
    rw [List.length_map] at hlen
    rw [hlen]
    exact (List.takeWhile_sublist _).length_le
  · -- the reads are whole entries, on which the memories agree
    exact (Prog.run_congr _ fun q hq => hagree.answer hq (hlens q hq)).1

/-- A large page: three reads, and no entry of the last level. -/
theorem levels_consistent_large :
    (flatMem 0x3003#64 0x600083#64).level flatPml4 zeroVa .phys = .err .hugePageBeforeLevel ∧
      ((virtualToPhysical flatPml4 zeroVa).trace
        (flatMem 0x3003#64 0x600083#64).answer).length ≤ 4 := by
  have h := levels_consistent (flatMem 0x3003#64 0x600083#64) (show flatPml4.Aligned by decide)
    zeroVa
  exact ⟨(h.1 .pt .phys (by decide)).2 _ (by decide), h.2.2.2.1⟩

end
end WinKernl
