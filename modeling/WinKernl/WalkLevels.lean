import WinKernl.ArchWalk

/- `get_address_of_level` against `virtual_to_physical`.

   The two functions walk the same tables with different address computations,
   error types and error conversions. Both are read off the architectural walk:
   `getAddressOfLevel_leaf` is to the first what `virtualToPhysical_leaf` is to
   the second, and the two traces agree read by read (`walkers_trace`). -/
namespace WinKernl
open ByteMem Ask

section
variable {E : Type}

/-- `PhysAddr::new(pml4 + idx * 8)` does not panic on an aligned PML4. -/
theorem new_index {t : PhysAddr} (ht : t.Aligned) (i : BitVec 9) :
    PhysAddr.new (t.val + i.setWidth 64 * 8#64) = some (entryAt t.val i) := by
  have h := add_index ht i
  unfold PhysAddr.add at h
  split at h
  · exact h
  · cases h

/-- One level of `get_address_of_level` is one `fetch`. -/
theorem level_fetch {α : Type} (m : PhysMem E) (t : BitVec 64) (i : BitVec 9)
    (f : PageTableEntry → Walk E (WalkLevelErr E) α) :
    (readEntry (entryAt t i) >>= f).result m.answer = match m.fetch t i with
      | .ok e => (f e).result m.answer
      | .error e => .err (.walkErr e) := by
  rw [Prog.result_bind, readEntry_result, PhysMem.fetch]
  cases m.fail (entryAt t i) <;> rfl

theorem level_fetch_trace {α : Type} (m : PhysMem E) (t : BitVec 64) (i : BitVec 9)
    (f : PageTableEntry → Walk E (WalkLevelErr E) α) :
    (readEntry (entryAt t i) >>= f).trace m.answer = ⟨entryAt t i, 8⟩ :: match m.fetch t i with
      | .ok e => (f e).trace m.answer
      | .error _ => [] := by
  rw [Prog.trace_bind, readEntry_trace, readEntry_result, PhysMem.fetch]
  cases m.fail (entryAt t i) <;> rfl

theorem walk_fetch_trace {α : Type} (m : PhysMem E) {t : PhysAddr} (ht : t.Aligned) (i : BitVec 9)
    (f : PageTableEntry → Walk E (WalkErr E) α) :
    (readPageTableEntryE t i >>= f).trace m.answer =
      ⟨entryAt t.val i, 8⟩ :: match m.fetch t.val i with
      | .ok e => (f e).trace m.answer
      | .error _ => [] := by
  rw [Prog.trace_bind, readPageTableEntryE_trace m ht, readPageTableEntryE_result m ht, PhysMem.fetch]
  cases m.fail (entryAt t.val i) <;> rfl

theorem orPanic_some {ε α β : Type} (a : α) (f : α → Walk E ε β) :
    (Prog.orPanic (some a) >>= f : Walk E ε β) = f a := rfl

/-- `get_address_of_level(.., Phys)` ends as the architectural walk does, a huge
    leaf being an error. -/
theorem getAddressOfLevel_leaf (m : PhysMem E) {pml4 : PhysAddr} (hp : pml4.Aligned)
    (va : VirtAddr) : (getAddressOfLevel pml4 va .phys).result m.answer =
      match archLeaf m pml4 va with
      | .ok (.small e) => .ok (Leaf.translate va (.small e)).1
      | .ok _ => .err .hugePageBeforeLevel
      | .error e => .err (.walkErr e) := by
  simp only [getAddressOfLevel, archLeaf, VirtAddr.p4Index, VirtAddr.p3Index, VirtAddr.p2Index,
    VirtAddr.p1Index, index_extract, contains_present, contains_huge, new_index hp,
    add_index (addr_aligned _), entryAt_addr, orPanic_some, reduceCtorEq, if_false, level_fetch,
    Prog.result_ite, Prog.result_err, add_page]
  cases m.fetch pml4.val (va.val.extractLsb' 39 9) with
  | error e => rfl
  | ok pml4e =>
    dsimp only
    split
    · rfl
    cases m.fetch pml4e.entry (va.val.extractLsb' 30 9) with
    | error e => rfl
    | ok pdpte =>
      dsimp only
      split
      · rfl
      split
      · rfl
      cases m.fetch pdpte.entry (va.val.extractLsb' 21 9) with
      | error e => rfl
      | ok pde =>
        dsimp only
        split
        · rfl
        split
        · rfl
        cases m.fetch pde.entry (va.val.extractLsb' 12 9) with
        | error e => rfl
        | ok pte =>
          dsimp only
          split <;> rfl

theorem virtualToPhysical_of_err {m : PhysMem E} {pml4 : PhysAddr} (hp : pml4.Aligned)
    {va : VirtAddr} {e : WalkErr E}
    (h : (getAddressOfLevel pml4 va .phys).result m.answer = .err (.walkErr e)) :
    (virtualToPhysical pml4 va).result m.answer = .err e := by
  rw [getAddressOfLevel_leaf m hp] at h
  rw [virtualToPhysical_leaf m hp]
  cases hl : archLeaf m pml4 va with
  | error e' =>
    rw [hl] at h
    cases h
    rfl
  | ok l =>
    rw [hl] at h
    cases l <;> cases h

theorem virtualToPhysical_of_ok {m : PhysMem E} {pml4 : PhysAddr} (hp : pml4.Aligned)
    {va : VirtAddr} {pa : PhysAddr}
    (h : (getAddressOfLevel pml4 va .phys).result m.answer = .ok pa) :
    (virtualToPhysical pml4 va).result m.answer = .ok (pa, .phys) := by
  rw [getAddressOfLevel_leaf m hp] at h
  rw [virtualToPhysical_leaf m hp]
  cases hl : archLeaf m pml4 va with
  | error e =>
    rw [hl] at h
    cases h
  | ok l =>
    rw [hl] at h
    cases l with
    | small e =>
      cases h
      dsimp only
      rw [codeTranslate_small]
      rfl
    | giant e => cases h
    | large e => cases h

theorem leaf_trace (m : PhysMem E) (o : Option PhysAddr) (l : PageLevel) :
    (Prog.orPanic o >>= fun pa => pure (pa, l) :
      Walk E (WalkErr E) (PhysAddr × PageLevel)).trace m.answer = [] := by
  cases o <;> rfl

/-- Both walkers issue the same reads. -/
theorem walkers_trace (m : PhysMem E) {pml4 : PhysAddr} (hp : pml4.Aligned) (va : VirtAddr) :
    (getAddressOfLevel pml4 va .phys).trace m.answer =
      (virtualToPhysical pml4 va).trace m.answer := by
  simp only [getAddressOfLevel, virtualToPhysical, contains_present, contains_huge, new_index hp,
    add_index (addr_aligned _), entryAt_addr, orPanic_some, reduceCtorEq, if_false,
    level_fetch_trace, walk_fetch_trace m hp, walk_fetch_trace m (addr_aligned _), fetch_addr,
    Prog.trace_ite, Prog.trace_err, Prog.trace_orPanic, leaf_trace]

/-- **The two walkers agree**, wherever `virtual_to_physical` does not panic. -/
theorem walkers_agree (m : PhysMem E) {pml4 : PhysAddr} (hp : pml4.Aligned) (va : VirtAddr)
    (hnp : (virtualToPhysical pml4 va).result m.answer ≠ .panic) :
    (∀ pa, (getAddressOfLevel pml4 va .phys).result m.answer = .ok pa ↔
      (virtualToPhysical pml4 va).result m.answer = .ok (pa, .phys)) ∧
    ((getAddressOfLevel pml4 va .phys).result m.answer = .err .hugePageBeforeLevel ↔
      ∃ pa, (virtualToPhysical pml4 va).result m.answer = .ok (pa, .pdpt) ∨
        (virtualToPhysical pml4 va).result m.answer = .ok (pa, .pd)) ∧
    (∀ e, (getAddressOfLevel pml4 va .phys).result m.answer = .err (.walkErr e) ↔
      (virtualToPhysical pml4 va).result m.answer = .err e) ∧
    (getAddressOfLevel pml4 va .phys).trace m.answer =
      (virtualToPhysical pml4 va).trace m.answer := by
  have ht := walkers_trace m hp va
  rw [virtualToPhysical_leaf m hp] at hnp ⊢
  rw [getAddressOfLevel_leaf m hp]
  revert hnp
  cases archLeaf m pml4 va with
  | error e => exact fun _ => ⟨by simp, by simp, by simp, ht⟩
  | ok l =>
    dsimp only
    cases hl : l.codeTranslate va with
    | none => exact fun hnp => absurd rfl hnp
    | some r =>
      -- The level of the leaf is the level the code reports.
      have hlevel : r.2 = (l.translate va).2 := by
        cases l <;> simp only [Leaf.codeTranslate, Option.map_eq_some_iff] at hl <;>
          obtain ⟨a, -, rfl⟩ := hl <;> rfl
      obtain ⟨pa, k⟩ := r
      cases l with
      | small e =>
        rw [codeTranslate_small, Option.some.injEq] at hl
        simp only [hl, Outcome.orPanic]
        obtain rfl : k = .phys := hlevel
        exact fun _ => ⟨by simp, by simp, by simp, ht⟩
      | giant e =>
        cases hlevel
        simp only [Outcome.orPanic]
        exact fun _ => ⟨by simp, by simp, by simp, ht⟩
      | large e =>
        cases hlevel
        simp only [Outcome.orPanic]
        exact fun _ => ⟨by simp, by simp, by simp, ht⟩

theorem walkers_agree_large :
    (getAddressOfLevel flatPml4 zeroVa .phys).result (flatMem 0x3003#64 0x600083#64).answer =
        .err .hugePageBeforeLevel ∧
      (getAddressOfLevel flatPml4 zeroVa .phys).trace (flatMem 0x3003#64 0x600083#64).answer =
        (virtualToPhysical flatPml4 zeroVa).trace (flatMem 0x3003#64 0x600083#64).answer := by
  have h := walkers_agree (flatMem 0x3003#64 0x600083#64) (show flatPml4.Aligned by decide) zeroVa
    (by decide)
  exact ⟨h.2.1.mpr ⟨⟨0x600000#64, by decide⟩, .inr (by decide)⟩, h.2.2.2⟩

end
end WinKernl
