import WinKernl.WalkReads

/- The address computed at the end of a walk.

   A walk that finds its leaf adds the offset of the page to the leaf's `addr()`.
   The tables leave room for that: an index or a 4 KiB offset never reaches a bit
   above the frame. A huge page does not, its `addr()` being aligned to 4 KiB
   only, and the addition is then the one place where a walk can panic
   (`walkers_total_iff`). Where there is room the translation is the same frame for
   every address of the page (`virtualToPhysical_page`). -/
namespace WinKernl
open ByteMem Ask

section
variable {E : Type}

/-- The entry a walk stops at. -/
def Leaf.entry : Leaf → PageTableEntry
  | .giant e => e
  | .large e => e
  | .small e => e

def Leaf.level : Leaf → PageLevel
  | .giant _ => .pdpt
  | .large _ => .pd
  | .small _ => .phys

/-- The bits of an address below the page that a level reports. -/
def PageLevel.offsetBits : PageLevel → Nat
  | .pdpt => 30
  | .pd => 21
  | _ => 12

/-- The offset of `va` in its page. -/
def PageLevel.pageOffset (level : PageLevel) (va : VirtAddr) : BitVec 64 :=
  va.val &&& BitVec.ofNat 64 (2^level.offsetBits - 1)

theorem pageOffset_toNat (level : PageLevel) (va : VirtAddr) :
    (level.pageOffset va).toNat = va.val.toNat % 2^level.offsetBits := by
  apply low_mask
  cases level <;> rfl

theorem pageOffset_lt (level : PageLevel) (va : VirtAddr) :
    (level.pageOffset va).toNat < 2^level.offsetBits := by
  rw [pageOffset_toNat]
  exact Nat.mod_lt _ (Nat.two_pow_pos _)

theorem codeTranslate_add (va : VirtAddr) (l : Leaf) : l.codeTranslate va =
    (l.entry.addr.add (l.level.pageOffset va)).map (·, l.level) := by
  cases l <;> rfl

theorem add_val {p a : PhysAddr} {n : BitVec 64} (h : p.add n = some a) : a.val = p.val + n := by
  unfold PhysAddr.add PhysAddr.new at h
  split at h
  · split at h
    · rw [← Option.some.inj h]
    · cases h
  · cases h

/-! Room for the offset. -/

/-- The leaf's `addr()` and the offset of `va` make a 52-bit address. -/
def Leaf.Fits (va : VirtAddr) (l : Leaf) : Prop :=
  l.entry.addr.val.toNat + (l.level.pageOffset va).toNat < 2^52

instance (va : VirtAddr) (l : Leaf) : Decidable (l.Fits va) := inferInstanceAs (Decidable (_ < _))

theorem codeTranslate_none_iff (va : VirtAddr) (l : Leaf) :
    l.codeTranslate va = none ↔ ¬ l.Fits va := by
  rw [codeTranslate_add, Option.map_eq_none_iff]
  by_cases h : l.Fits va
  · obtain ⟨a, ha, -⟩ := add_of_lt h
    exact iff_of_false (fun hn => by rw [ha] at hn; cases hn) (not_not_intro h)
  · exact iff_of_true (add_of_ge (Nat.le_of_not_lt h)) h

theorem fits_small (va : VirtAddr) (e : PageTableEntry) : (Leaf.small e).Fits va := by
  by_contra h
  rw [← codeTranslate_none_iff, codeTranslate_small] at h
  cases h

/-- **Panics.** Neither walker panics, at any level, exactly when the leaf of the walk
    has room for the offset. Only a huge leaf can lack it (`fits_small`). -/
theorem walkers_total_iff (m : PhysMem E) {pml4 : PhysAddr} (hp : pml4.Aligned) (va : VirtAddr) :
    ((virtualToPhysical pml4 va).result m.answer ≠ .panic ∧
      ∀ level, (getAddressOfLevel pml4 va level).result m.answer ≠ .panic) ↔
      ∀ l, archLeaf m pml4 va = .ok l → l.Fits va := by
  have hlevels : ∀ level, (getAddressOfLevel pml4 va level).result m.answer ≠ .panic :=
    level_no_panic m va hp
  rw [and_iff_left hlevels, virtualToPhysical_leaf m hp]
  cases archLeaf m pml4 va with
  | error e => simp
  | ok l =>
    have hpanic : (Outcome.orPanic (l.codeTranslate va) :
        Outcome (WalkErr E) (PhysAddr × PageLevel)) = .panic ↔ l.codeTranslate va = none := by
      cases l.codeTranslate va <;> simp [Outcome.orPanic]
    simp only [Ne, hpanic, codeTranslate_none_iff, not_not, Except.ok.injEq, forall_eq']

theorem walkers_total_large :
    (virtualToPhysical flatPml4 zeroVa).result (flatMem 0x3003#64 0x600083#64).answer ≠ .panic ∧
      ∀ level, (getAddressOfLevel flatPml4 zeroVa level).result
        (flatMem 0x3003#64 0x600083#64).answer ≠ .panic := by
  refine (walkers_total_iff (flatMem 0x3003#64 0x600083#64) (by decide) zeroVa).mpr ?_
  have hleaf : archLeaf (flatMem 0x3003#64 0x600083#64) flatPml4 zeroVa =
      .ok (.large ⟨0x600083#64⟩) := by decide
  intro l hl
  rw [hleaf] at hl
  cases hl
  decide

def secondPageVa : VirtAddr := ⟨0x1000#64, by decide⟩

/-- A 1 GiB entry with every frame bit set: the second 4 KiB of its page begin at `2^52`. -/
theorem virtualToPhysical_panics :
    flatPml4.Aligned ∧ (virtualToPhysical flatPml4 secondPageVa).result
      (flatMem 0x000FFFFFFFFFF083#64 0).answer = .panic := by
  exact ⟨by decide, by decide⟩

/-! Addresses of one page. -/

/-- Addresses that agree from bit `k` on have the same index from there on. -/
theorem extract_of_shift {x y : BitVec 64} {k j : Nat} (h : x >>> k = y >>> k) (hj : k ≤ j) :
    x.extractLsb' j 9 = y.extractLsb' j 9 := by
  obtain ⟨i, rfl⟩ := Nat.exists_eq_add_of_le hj
  rw [← index_extract, ← index_extract, BitVec.shiftRight_add, BitVec.shiftRight_add, h]

theorem offsetBits_le (level : PageLevel) : level.offsetBits ≤ 30 := by
  cases level <;> decide

/-- The entries on the way to a leaf. -/
inductive LeafAt (m : PhysMem E) (pml4 : PhysAddr) (va : VirtAddr) : Leaf → Prop where
  | giant {pml4e pdpte : PageTableEntry}
      (h4 : m.fetch pml4.val (va.val.extractLsb' 39 9) = .ok pml4e) (p4 : pml4e.present = true)
      (h3 : m.fetch pml4e.entry (va.val.extractLsb' 30 9) = .ok pdpte) (p3 : pdpte.present = true)
      (huge : pdpte.huge = true) : LeafAt m pml4 va (.giant pdpte)
  | large {pml4e pdpte pde : PageTableEntry}
      (h4 : m.fetch pml4.val (va.val.extractLsb' 39 9) = .ok pml4e) (p4 : pml4e.present = true)
      (h3 : m.fetch pml4e.entry (va.val.extractLsb' 30 9) = .ok pdpte) (p3 : pdpte.present = true)
      (table3 : pdpte.huge = false)
      (h2 : m.fetch pdpte.entry (va.val.extractLsb' 21 9) = .ok pde) (p2 : pde.present = true)
      (huge : pde.huge = true) : LeafAt m pml4 va (.large pde)
  | small {pml4e pdpte pde pte : PageTableEntry}
      (h4 : m.fetch pml4.val (va.val.extractLsb' 39 9) = .ok pml4e) (p4 : pml4e.present = true)
      (h3 : m.fetch pml4e.entry (va.val.extractLsb' 30 9) = .ok pdpte) (p3 : pdpte.present = true)
      (table3 : pdpte.huge = false)
      (h2 : m.fetch pdpte.entry (va.val.extractLsb' 21 9) = .ok pde) (p2 : pde.present = true)
      (table2 : pde.huge = false)
      (h1 : m.fetch pde.entry (va.val.extractLsb' 12 9) = .ok pte) (p1 : pte.present = true) :
      LeafAt m pml4 va (.small pte)

theorem archLeaf_ok_iff {m : PhysMem E} {pml4 : PhysAddr} {va : VirtAddr} {l : Leaf} :
    archLeaf m pml4 va = .ok l ↔ LeafAt m pml4 va l := by
  constructor
  · intro h
    unfold archLeaf at h
    split at h
    · cases h
    next pml4e h4 =>
    split at h
    · cases h
    next p4 =>
    split at h
    · cases h
    next pdpte h3 =>
    split at h
    · cases h
    next p3 =>
    rw [Bool.not_eq_true, Bool.not_eq_false'] at p4 p3
    split at h
    · next huge =>
      cases h
      exact .giant h4 p4 h3 p3 huge
    next table3 =>
    rw [Bool.not_eq_true] at table3
    split at h
    · cases h
    next pde h2 =>
    split at h
    · cases h
    next p2 =>
    rw [Bool.not_eq_true, Bool.not_eq_false'] at p2
    split at h
    · next huge =>
      cases h
      exact .large h4 p4 h3 p3 table3 h2 p2 huge
    next table2 =>
    rw [Bool.not_eq_true] at table2
    split at h
    · cases h
    next pte h1 =>
    split at h
    · cases h
    next p1 =>
    rw [Bool.not_eq_true, Bool.not_eq_false'] at p1
    cases h
    exact .small h4 p4 h3 p3 table3 h2 p2 table2 h1 p1
  · intro h
    cases h with
    | giant h4 p4 h3 p3 huge => simp [archLeaf, h4, p4, h3, p3, huge]
    | large h4 p4 h3 p3 table3 h2 p2 huge => simp [archLeaf, h4, p4, h3, p3, table3, h2, p2, huge]
    | small h4 p4 h3 p3 table3 h2 p2 table2 h1 p1 =>
      simp [archLeaf, h4, p4, h3, p3, table3, h2, p2, table2, h1, p1]

/-- A walk takes no bit below its page: every address of the page has the same leaf. -/
theorem archLeaf_page {m : PhysMem E} {pml4 : PhysAddr} {va va' : VirtAddr} {l : Leaf}
    (hl : archLeaf m pml4 va = .ok l)
    (hva : va'.val >>> l.level.offsetBits = va.val >>> l.level.offsetBits) :
    archLeaf m pml4 va' = .ok l := by
  have hindex : ∀ {j}, l.level.offsetBits ≤ j →
      va'.val.extractLsb' j 9 = va.val.extractLsb' j 9 := extract_of_shift hva
  have h39 := hindex (Nat.le_trans (offsetBits_le l.level) (by omega) : _ ≤ 39)
  have h30 := hindex (offsetBits_le l.level)
  rw [archLeaf_ok_iff] at hl ⊢
  cases hl with
  | giant h4 p4 h3 p3 huge =>
    rw [← h39] at h4
    rw [← h30] at h3
    exact .giant h4 p4 h3 p3 huge
  | large h4 p4 h3 p3 table3 h2 p2 huge =>
    rw [← h39] at h4
    rw [← h30] at h3
    rw [← hindex (Nat.le_refl 21)] at h2
    exact .large h4 p4 h3 p3 table3 h2 p2 huge
  | small h4 p4 h3 p3 table3 h2 p2 table2 h1 p1 =>
    rw [← h39] at h4
    rw [← h30] at h3
    rw [← hindex (Nat.le_of_ble_eq_true rfl : 12 ≤ 21)] at h2
    rw [← hindex (Nat.le_refl 12)] at h1
    exact .small h4 p4 h3 p3 table3 h2 p2 table2 h1 p1

/-- **One page.** A translation of `va` holds, but for the offset, for every address of
    the page that its level reports. -/
theorem virtualToPhysical_page (m : PhysMem E) {pml4 : PhysAddr} (hp : pml4.Aligned)
    {va va' : VirtAddr} {pa : PhysAddr} {level : PageLevel}
    (hv : (virtualToPhysical pml4 va).result m.answer = .ok (pa, level))
    (hva : va'.val >>> level.offsetBits = va.val >>> level.offsetBits)
    (hfit : ∀ l, archLeaf m pml4 va = .ok l → l.entry.addr.val.toNat + 2^level.offsetBits ≤ 2^52) :
    ∃ pa', (virtualToPhysical pml4 va').result m.answer = .ok (pa', level) ∧
      pa'.val = pa.val - level.pageOffset va + level.pageOffset va' := by
  rw [virtualToPhysical_leaf m hp] at hv ⊢
  cases hl : archLeaf m pml4 va with
  | error e =>
    rw [hl] at hv
    cases hv
  | ok l =>
    rw [hl] at hv
    dsimp only at hv
    rw [codeTranslate_add] at hv
    cases hadd : l.entry.addr.add (l.level.pageOffset va) with
    | none =>
      rw [hadd] at hv
      cases hv
    | some a =>
      rw [hadd] at hv
      obtain ⟨rfl, rfl⟩ : a = pa ∧ l.level = level := by
        simpa [Outcome.orPanic] using hv
      -- The addresses share the leaf, and its page has room for every offset.
      have hroom := hfit l hl
      have hlt := pageOffset_lt l.level va'
      obtain ⟨a', ha', -⟩ := add_of_lt (p := l.entry.addr) (n := l.level.pageOffset va') (by omega)
      refine ⟨a', ?_, ?_⟩
      · rw [archLeaf_page hl hva]
        dsimp only
        rw [codeTranslate_add, ha']
        rfl
      · rw [add_val hadd, add_val ha', BitVec.add_sub_cancel]

theorem virtualToPhysical_page_large : ∃ pa',
    (virtualToPhysical flatPml4 secondPageVa).result (flatMem 0x3003#64 0x600083#64).answer =
        .ok (pa', .pd) ∧
      pa'.val = 0x600000#64 - PageLevel.pd.pageOffset zeroVa + PageLevel.pd.pageOffset secondPageVa := by
  have hleaf : archLeaf (flatMem 0x3003#64 0x600083#64) flatPml4 zeroVa =
      .ok (.large ⟨0x600083#64⟩) := by decide
  have hzero : (virtualToPhysical flatPml4 zeroVa).result (flatMem 0x3003#64 0x600083#64).answer =
      .ok (⟨0x600000#64, by decide⟩, .pd) := by decide
  apply virtualToPhysical_page (flatMem 0x3003#64 0x600083#64) (by decide) hzero (by decide)
  intro l hl
  rw [hleaf] at hl
  cases hl
  decide

end
end WinKernl
