import WinKernl.PageWalk

/- The architectural x86-64 4-level walk, and how far `virtual_to_physical` is it.

   `archLeaf` is the walk of the manual, on raw 64-bit words: each level takes nine
   bits of the address into the table whose frame is bits 51..12 of the entry
   above, stops at the first entry with bit 0 clear, and at a PDPTE or a PDE with
   bit 7 set. `Leaf.translate` joins the frame of the entry the walk stops at with
   the offset of its page size.

   `virtualToPhysical_leaf` reduces the code's walk to `archLeaf` on every memory.
   What is left is the address of the leaf: a 4 KiB page is always right
   (`add_page`), and a huge page is right exactly when the PAT bit, which `addr()`
   keeps, is clear (`add_huge`). -/
namespace WinKernl
open ByteMem Ask

section
variable {E : Type}

/-- The entry a walk stops at: a 1 GiB page, a 2 MiB page or a 4 KiB page. -/
inductive Leaf where
  | giant (pdpte : PageTableEntry)
  | large (pde : PageTableEntry)
  | small (pte : PageTableEntry)
  deriving DecidableEq, Repr

/-- The physical address of `va` under the leaf, and the level of the leaf. -/
def Leaf.translate (va : VirtAddr) : Leaf → PhysAddr × PageLevel
  | .giant e => (.join 30 (Nat.le_of_ble_eq_true rfl) e.entry va.val, .pdpt)
  | .large e => (.join 21 (Nat.le_of_ble_eq_true rfl) e.entry va.val, .pd)
  | .small e => (.join 12 (Nat.le_of_ble_eq_true rfl) e.entry va.val, .phys)

/-- Entry `i` of the table in the frame of `t`, or the failed read. -/
def PhysMem.fetch (m : PhysMem E) (t : BitVec 64) (i : BitVec 9) :
    Except (WalkErr E) PageTableEntry :=
  match m.fail (entryAt t i) with
  | some e => .error (.readErr e)
  | none => .ok (m.entry (entryAt t i))

def archLeaf (m : PhysMem E) (pml4 : PhysAddr) (va : VirtAddr) : Except (WalkErr E) Leaf :=
  match m.fetch pml4.val (va.val.extractLsb' 39 9) with
  | .error e => .error e
  | .ok pml4e =>
    if !pml4e.present then .error (.invalidPml4 pml4e) else
    match m.fetch pml4e.entry (va.val.extractLsb' 30 9) with
    | .error e => .error e
    | .ok pdpte =>
      if !pdpte.present then .error (.invalidPdpt pdpte) else
      if pdpte.huge then .ok (.giant pdpte) else
      match m.fetch pdpte.entry (va.val.extractLsb' 21 9) with
      | .error e => .error e
      | .ok pde =>
        if !pde.present then .error (.invalidPde pde) else
        if pde.huge then .ok (.large pde) else
        match m.fetch pde.entry (va.val.extractLsb' 12 9) with
        | .error e => .error e
        | .ok pte => if !pte.present then .error (.invalidPte pte) else .ok (.small pte)

/-- The architectural translation of `va`. -/
def archTranslate (m : PhysMem E) (pml4 : PhysAddr) (va : VirtAddr) :
    Outcome (WalkErr E) (PhysAddr × PageLevel) :=
  match archLeaf m pml4 va with
  | .ok l => .ok (l.translate va)
  | .error e => .err e

/-- What the code computes at a leaf: `addr()` plus the masked offset. -/
def Leaf.codeTranslate (va : VirtAddr) : Leaf → Option (PhysAddr × PageLevel)
  | .giant e => (e.addr.add (va.val &&& 0x3FFFFFFF#64)).map (·, .pdpt)
  | .large e => (e.addr.add (va.val &&& 0x1FFFFF#64)).map (·, .pd)
  | .small e => (e.addr.add (va.val &&& 0xFFF#64)).map (·, .phys)

/-! The code's walk stops where the architectural walk stops. -/

theorem index_extract (x : BitVec 64) (k : Nat) : (x >>> k).setWidth 9 = x.extractLsb' k 9 := by
  apply BitVec.eq_of_toNat_eq
  rw [BitVec.toNat_setWidth, BitVec.toNat_ushiftRight, BitVec.extractLsb'_toNat]

/-- One level of the code's walk is one `fetch`. -/
theorem walk_fetch {α : Type} (m : PhysMem E) {t : PhysAddr} (ht : t.Aligned) (i : BitVec 9)
    (f : PageTableEntry → Walk E (WalkErr E) α) :
    (readPageTableEntryE t i >>= f).result m.answer = match m.fetch t.val i with
      | .ok e => (f e).result m.answer
      | .error e => .err e := by
  rw [Prog.result_bind, readPageTableEntryE_result m ht, PhysMem.fetch]
  cases m.fail (entryAt t.val i) <;> rfl

theorem fetch_addr (m : PhysMem E) (e : PageTableEntry) (i : BitVec 9) :
    m.fetch e.addr.val i = m.fetch e.entry i := by
  rw [PhysMem.fetch, entryAt_addr]; rfl

theorem leaf_address (m : PhysMem E) (o : Option PhysAddr) (l : PageLevel) :
    (Prog.orPanic o >>= fun pa => pure (pa, l) :
      Walk E (WalkErr E) (PhysAddr × PageLevel)).result m.answer =
      Outcome.orPanic (o.map (·, l)) := by
  cases o <;> rfl

/-- **The walk.** On every memory the code ends as the architectural walk does,
    up to the address it computes from the leaf. -/
theorem virtualToPhysical_leaf (m : PhysMem E) {pml4 : PhysAddr} (hp : pml4.Aligned)
    (va : VirtAddr) : (virtualToPhysical pml4 va).result m.answer =
      match archLeaf m pml4 va with
      | .ok l => Outcome.orPanic (l.codeTranslate va)
      | .error e => .err e := by
  simp only [virtualToPhysical, archLeaf, VirtAddr.p4Index, VirtAddr.p3Index, VirtAddr.p2Index,
    VirtAddr.p1Index, index_extract, contains_present, contains_huge, walk_fetch m hp,
    walk_fetch m (addr_aligned _), fetch_addr, Prog.result_ite, Prog.result_err, leaf_address]
  -- The two walks branch on the same reads and the same bits, level by level.
  cases m.fetch pml4.val (va.val.extractLsb' 39 9) with
  | error e => rfl
  | ok pml4e =>
    dsimp only
    split
    · rfl
    cases m.fetch pml4e.entry (va.val.extractLsb' 30 9) with
    | error e => rfl
    | ok pdpte =>
      dsimp only
      split
      · rfl
      split
      · rfl
      cases m.fetch pdpte.entry (va.val.extractLsb' 21 9) with
      | error e => rfl
      | ok pde =>
        dsimp only
        split
        · rfl
        split
        · rfl
        cases m.fetch pde.entry (va.val.extractLsb' 12 9) with
        | error e => rfl
        | ok pte =>
          dsimp only
          split <;> rfl

/-! The address of a huge page. -/

/-- The bits of a huge leaf's frame below the page size, above the PAT bit, are clear. -/
def Leaf.ReservedClear : Leaf → Prop
  | .giant e => e.entry.extractLsb' 13 17 = 0
  | .large e => e.entry.extractLsb' 13 8 = 0
  | .small _ => True

/-- The PAT bit of a huge leaf is clear. -/
def Leaf.PatClear : Leaf → Prop
  | .giant e => e.pat = false
  | .large e => e.pat = false
  | .small _ => True

instance (l : Leaf) : Decidable l.ReservedClear := by
  cases l <;> unfold Leaf.ReservedClear <;> infer_instance

instance (l : Leaf) : Decidable l.PatClear := by
  cases l <;> unfold Leaf.PatClear <;> infer_instance

/-- Below the frame of a `2^(13+j)`-byte page, bit 12 is all that `addr()` keeps. -/
theorem addr_frame_pat (a j : Nat) (hj : j ≤ 39) (h : a / 2 % 2^j = 0) :
    a % 2^40 = a / 2 / 2^j % 2^(39 - j) * 2^(j + 1) + a % 2 := by
  have hb : a / 2 = 2^j * (a / 2 / 2^j) := by
    have := Nat.div_add_mod (a / 2) (2^j)
    omega
  have h40 : a % 2^40 = 2 * (a / 2 % 2^39) + a % 2 := by omega
  have h39 : (2 : Nat)^39 = 2^j * 2^(39 - j) := by
    rw [← pow_add]; congr 1; omega
  calc a % 2^40
      _ = 2 * (a / 2 % 2^39) + a % 2 := h40
      _ = 2 * (2^j * (a / 2 / 2^j) % (2^j * 2^(39 - j))) + a % 2 := by rw [← hb, ← h39]
      _ = 2 * (2^j * (a / 2 / 2^j % 2^(39 - j))) + a % 2 := by rw [Nat.mul_mod_mul_left]
      _ = a / 2 / 2^j % 2^(39 - j) * 2^(j + 1) + a % 2 := by rw [pow_succ]; ring

theorem pat_mod (e : PageTableEntry) : e.pat = decide (e.entry.toNat / 2^12 % 2 = 1) := by
  rw [PageTableEntry.pat, BitVec.getLsbD, Nat.testBit_eq_decide_div_mod_eq]

/-- `addr()` plus the offset of a huge page is the page's address exactly when
    the PAT bit is clear. -/
theorem add_huge (e : PageTableEntry) (v m : BitVec 64) {j : Nat} (hj : j ≤ 39)
    (hm : m.toNat = 2^(13 + j) - 1) (hres : e.entry.extractLsb' 13 j = 0) :
    e.addr.add (v &&& m) = some (.join (13 + j) (by omega) e.entry v) ↔ e.pat = false := by
  have hz : e.entry.toNat / 2^12 / 2 % 2^j = 0 := by
    have := congrArg BitVec.toNat hres
    rw [BitVec.extractLsb'_toNat, Nat.shiftRight_eq_div_pow] at this
    rw [Nat.div_div_eq_div_mul]
    exact this
  have hframe := addr_frame_pat (e.entry.toNat / 2^12) j hj hz
  have htop : e.entry.toNat / 2^(13 + j) = e.entry.toNat / 2^12 / 2 / 2^j := by
    rw [Nat.div_div_eq_div_mul, Nat.div_div_eq_div_mul, pow_add]
    congr 1
    ring
  have hexp : 52 - (13 + j) = 39 - j := by omega
  have hpow : (2 : Nat)^(13 + j) = 2^(j + 1) * 2^12 := by rw [← pow_add]; congr 1; omega
  rw [add_eq_join, addr_toNat, low_mask v (13 + j) m hm, hframe, htop, hexp, hpow, pat_mod,
    decide_eq_false_iff_not, Nat.add_mul, Nat.mul_assoc]
  omega

theorem codeTranslate_small (va : VirtAddr) (e : PageTableEntry) :
    (Leaf.small e).codeTranslate va = some ((Leaf.small e).translate va) := by
  rw [Leaf.codeTranslate, add_page]; rfl

/-- The code computes a leaf's address exactly when its PAT bit is clear. -/
theorem codeTranslate_iff (va : VirtAddr) (l : Leaf) (hres : l.ReservedClear) :
    l.codeTranslate va = some (l.translate va) ↔ l.PatClear := by
  have map_some : ∀ (o : Option PhysAddr) (a : PhysAddr) (k : PageLevel),
      o.map (·, k) = some (a, k) ↔ o = some a := by
    intro o a k
    cases o <;> simp
  cases l with
  | giant e => exact (map_some _ _ _).trans (add_huge e va.val _ (j := 17) (by omega) rfl hres)
  | large e => exact (map_some _ _ _).trans (add_huge e va.val _ (j := 8) (by omega) rfl hres)
  | small e => exact iff_of_true (codeTranslate_small va e) trivial

/-- **The walk and the architecture.** Where the huge entry a walk stops at has its
    reserved frame bits clear, the code's result is the architectural one, errors
    and addresses alike, exactly when that entry's PAT bit is clear. -/
theorem virtualToPhysical_arch_iff (m : PhysMem E) {pml4 : PhysAddr} (hp : pml4.Aligned)
    (va : VirtAddr) (hres : ∀ l, archLeaf m pml4 va = .ok l → l.ReservedClear) :
    (virtualToPhysical pml4 va).result m.answer = archTranslate m pml4 va ↔
      ∀ l, archLeaf m pml4 va = .ok l → l.PatClear := by
  rw [virtualToPhysical_leaf m hp, archTranslate]
  cases h : archLeaf m pml4 va with
  | error e => simp
  | ok l =>
    have hl := codeTranslate_iff va l (hres l h)
    have horp : (Outcome.orPanic (l.codeTranslate va) : Outcome (WalkErr E) _) =
        .ok (l.translate va) ↔ l.codeTranslate va = some (l.translate va) := by
      cases l.codeTranslate va <;> simp [Outcome.orPanic]
    simp only [horp, hl, Except.ok.injEq, forall_eq']

def flatPml4 : PhysAddr := ⟨0x1000#64, by decide⟩
def zeroVa : VirtAddr := ⟨0#64, by decide⟩

/-- A PML4 at 0x1000 and a PDPT at 0x2000, whose first entries are `0x2003` and `pdpte`,
    and a PD at 0x3000 whose first entry is `pde`. -/
def flatMem (pdpte pde : BitVec 64) : PhysMem Unit where
  bytes := writeWord (writeWord (writeWord (fun _ => 0) 0x1000#64 0x2003#64) 0x2000#64 pdpte)
    0x3000#64 pde
  fail := fun _ => none

theorem virtualToPhysical_arch_large :
    (virtualToPhysical flatPml4 zeroVa).result (flatMem 0x3003#64 0x600083#64).answer =
      archTranslate (flatMem 0x3003#64 0x600083#64) flatPml4 zeroVa := by
  have hleaf : archLeaf (flatMem 0x3003#64 0x600083#64) flatPml4 zeroVa =
      .ok (.large ⟨0x600083#64⟩) := by decide
  refine (virtualToPhysical_arch_iff (flatMem 0x3003#64 0x600083#64) (by decide) zeroVa ?_).mpr ?_
  · intro l hl
    rw [hleaf] at hl
    cases hl
    decide
  · intro l hl
    rw [hleaf] at hl
    cases hl
    decide

/-- A 1 GiB page at 1 GiB whose PAT bit is set: the code's address is 4 KiB off. -/
theorem virtualToPhysical_pat_off :
    flatPml4.Aligned ∧
    (∀ l, archLeaf (flatMem 0x40001083#64 0) flatPml4 zeroVa = .ok l → l.ReservedClear) ∧
    archTranslate (flatMem 0x40001083#64 0) flatPml4 zeroVa =
      .ok (⟨0x40000000#64, by decide⟩, .pdpt) ∧
    (virtualToPhysical flatPml4 zeroVa).result (flatMem 0x40001083#64 0).answer =
      .ok (⟨0x40001000#64, by decide⟩, .pdpt) ∧
    (virtualToPhysical flatPml4 zeroVa).result (flatMem 0x40001083#64 0).answer ≠
      archTranslate (flatMem 0x40001083#64 0) flatPml4 zeroVa := by
  have hleaf : archLeaf (flatMem 0x40001083#64 0) flatPml4 zeroVa =
      .ok (.giant ⟨0x40001083#64⟩) := by decide
  refine ⟨by decide, ?_, by decide, by decide, by decide⟩
  intro l hl
  rw [hleaf] at hl
  cases hl
  decide

end
end WinKernl
