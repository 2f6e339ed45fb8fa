import WinKernl.WalkReads

/- A store to a page-table entry, and the translations it changes.

   `get_pte` gives the address of the last entry a walk reads. The walk asks for
   nothing but whole entries (`EntryRead`), so a store of an entry changes the
   answer to one request only, and `Prog.run_congr` frames every walk that does not
   make that request. `virtualToPhysical_of_getPte` says the rest: a translation is
   `get_pte`, one more read, and that entry's address. -/
namespace WinKernl
open ByteMem Ask

section
variable {E : Type}

/-- A request for one whole entry. -/
def EntryRead (q : ReadReq) : Prop := q.len = 8 ∧ q.phys.val.toNat % 8 = 0

/-- The memory after a 64-bit store of `e` at `a`. -/
def PhysMem.store (m : PhysMem E) (a : PhysAddr) (e : PageTableEntry) : PhysMem E :=
  { m with bytes := writeWord m.bytes a.val e.entry }

/-! Walks ask for whole entries. -/

theorem entryAt_read (t : BitVec 64) (i : BitVec 9) : EntryRead ⟨entryAt t i, 8⟩ := by
  refine ⟨rfl, ?_⟩
  dsimp only
  rw [entryAt_toNat]
  omega

theorem readPhysicalMemoryT_asks {T : Type} (size : Nat) (f : List Byte → T) (a : PhysAddr)
    {P : ReadReq → Prop} (h : P ⟨a, size⟩) :
    (readPhysicalMemoryT size f a : Walk E E T).Asks P := by
  refine ⟨h, fun r => ?_⟩
  cases r <;> trivial

theorem readPageTableEntryE_asks {t : PhysAddr} (ht : t.Aligned) (i : BitVec 9) :
    (readPageTableEntryE (E := E) t i).Asks EntryRead := by
  rw [readPageTableEntryE_aligned ht]
  exact Prog.Asks.mapErr _ (readPhysicalMemoryT_asks _ _ _ (entryAt_read t.val i))

theorem readEntry_asks (t : BitVec 64) (i : BitVec 9) :
    (readEntry (entryAt t i) : Walk E (WalkLevelErr E) PageTableEntry).Asks EntryRead :=
  Prog.Asks.mapErr _ (readPhysicalMemoryT_asks _ _ _ (entryAt_read t i))

theorem orPanic_asks {ε α : Type} (o : Option α) {P : ReadReq → Prop} :
    (Prog.orPanic o : Walk E ε α).Asks P := by
  cases o <;> trivial

theorem leaf_asks (o : Option PhysAddr) (l : PageLevel) {P : ReadReq → Prop} :
    (Prog.orPanic o >>= fun pa => pure (pa, l) :
      Walk E (WalkErr E) (PhysAddr × PageLevel)).Asks P :=
  Prog.Asks.bind (orPanic_asks o) (fun _ => trivial)

theorem virtualToPhysical_asks {pml4 : PhysAddr} (hp : pml4.Aligned) (va : VirtAddr) :
    (virtualToPhysical (E := E) pml4 va).Asks EntryRead := by
  unfold virtualToPhysical
  apply Prog.Asks.bind (readPageTableEntryE_asks hp _)
  intro pml4e
  apply Prog.Asks.ite (.err _)
  apply Prog.Asks.bind (readPageTableEntryE_asks (addr_aligned _) _)
  intro pdpte
  apply Prog.Asks.ite (.err _)
  apply Prog.Asks.ite (leaf_asks _ _)
  apply Prog.Asks.bind (readPageTableEntryE_asks (addr_aligned _) _)
  intro pde
  apply Prog.Asks.ite (.err _)
  apply Prog.Asks.ite (leaf_asks _ _)
  apply Prog.Asks.bind (readPageTableEntryE_asks (addr_aligned _) _)
  intro pte
  apply Prog.Asks.ite (.err _)
  exact leaf_asks _ _

theorem getAddressOfLevel_asks {pml4 : PhysAddr} (hp : pml4.Aligned) (va : VirtAddr)
    (level : PageLevel) : (getAddressOfLevel (E := E) pml4 va level).Asks EntryRead := by
  unfold getAddressOfLevel
  rw [new_index hp, orPanic_some]
  apply Prog.Asks.ite (.ok _)
  apply Prog.Asks.bind (readEntry_asks _ _)
  intro pml4e
  apply Prog.Asks.ite (.err _)
  rw [add_index (addr_aligned _), orPanic_some]
  apply Prog.Asks.ite (.ok _)
  apply Prog.Asks.bind (readEntry_asks _ _)
  intro pdpte
  apply Prog.Asks.ite (.err _)
  apply Prog.Asks.ite (.err _)
  rw [add_index (addr_aligned _), orPanic_some]
  apply Prog.Asks.ite (.ok _)
  apply Prog.Asks.bind (readEntry_asks _ _)
  intro pde
  apply Prog.Asks.ite (.err _)
  apply Prog.Asks.ite (.err _)
  rw [add_index (addr_aligned _), orPanic_some]
  apply Prog.Asks.ite (.ok _)
  apply Prog.Asks.bind (readEntry_asks _ _)
  intro pte
  apply Prog.Asks.ite (.err _)
  exact orPanic_asks _

/-! The store changes the answer to one entry read. -/

theorem entries_apart {a b x : BitVec 64} (ha : a.toNat % 8 = 0) (hb : b.toNat % 8 = 0)
    (hne : b ≠ a) (hx : Within b 8 x) : ¬ Within a 8 x := by
  have hne' : b.toNat ≠ a.toNat := fun h => hne (BitVec.eq_of_toNat_eq h)
  unfold Within at hx ⊢
  rw [BitVec.toNat_sub] at hx ⊢
  omega

theorem store_answer {m : PhysMem E} {a : PhysAddr} (e : PageTableEntry)
    (ha : a.val.toNat % 8 = 0) {q : ReadReq} (hq : EntryRead q) (hne : q.phys ≠ a) :
    (m.store a e).answer q = m.answer q := by
  have hval : q.phys.val ≠ a.val := fun h => hne (PhysAddr.ext h)
  have hread : read (m.store a e).bytes q.phys.val q.len = read m.bytes q.phys.val q.len := by
    rw [hq.1]
    apply read_write_off
    intro x hx
    rw [toLE_length]
    exact entries_apart ha hq.2 hval hx
  unfold PhysMem.answer
  rw [hread]
  rfl

theorem store_entry (m : PhysMem E) (a : PhysAddr) (e : PageTableEntry) :
    (m.store a e).entry a = e :=
  PageTableEntry.ext (readWord_writeWord m.bytes a.val e.entry (by norm_num))

/-- A program that reads whole entries, none of them at `a`, runs as before the store. -/
theorem store_run {ε α : Type} {m : PhysMem E} {a : PhysAddr} (e : PageTableEntry)
    (ha : a.val.toNat % 8 = 0) {p : Walk E ε α} (hp : p.Asks EntryRead)
    (hna : a ∉ (p.trace m.answer).map ReadReq.phys) :
    p.result (m.store a e).answer = p.result m.answer ∧
      p.trace (m.store a e).answer = p.trace m.answer := by
  apply Prog.run_congr
  intro q hq
  apply store_answer e ha (Prog.Asks.trace m.answer hp q hq)
  exact fun h => hna (h ▸ List.mem_map_of_mem hq)

/-! A translation is `get_pte` and one more read. -/

/-- What `virtual_to_physical` does with the entry at `a`. -/
def PhysMem.pteOutcome (m : PhysMem E) (va : VirtAddr) (a : PhysAddr) :
    Outcome (WalkErr E) (PhysAddr × PageLevel) :=
  match m.fail a with
  | some e => .err (.readErr e)
  | none =>
    if (m.entry a).present then Outcome.orPanic ((Leaf.small (m.entry a)).codeTranslate va)
    else .err (.invalidPte (m.entry a))

theorem descend_pt (m : PhysMem E) (va : VirtAddr) (a : PhysAddr) :
    (descend va .pt a).result m.answer = match m.fail a with
      | some e => .err (.walkErr (.readErr e))
      | none =>
        if (m.entry a).present then .ok ((Leaf.small (m.entry a)).translate va).1
        else .err (.walkErr (.invalidPte (m.entry a))) := by
  rw [descend, Prog.result_bind, readEntry_result]
  cases m.fail a with
  | some e => rfl
  | none =>
    have hadd : (m.entry a).addr.add (PageLevel.pt.offset va) =
        some ((Leaf.small (m.entry a)).translate va).1 := add_page (m.entry a) va.val
    simp only [Outcome.bind, Prog.result_ite, Prog.result_err, Prog.result_orPanic, hadd,
      contains_present]
    cases (m.entry a).present <;> rfl

/-- The walk ends as the entry at `a` says, where `get_pte` gives `a`. -/
theorem virtualToPhysical_at {m : PhysMem E} {pml4 a : PhysAddr} (hp : pml4.Aligned)
    {va : VirtAddr} (h : m.level pml4 va .pt = .ok a) :
    (virtualToPhysical pml4 va).result m.answer = m.pteOutcome va a := by
  have hphys : m.level pml4 va .phys = (descend va .pt a).result m.answer := by
    have hbelow := @level_result_below E m pml4 va .pt (by decide)
    rw [h] at hbelow
    exact hbelow
  rw [descend_pt] at hphys
  unfold PhysMem.pteOutcome
  cases hf : m.fail a with
  | some x =>
    rw [hf] at hphys
    exact virtualToPhysical_of_err hp hphys
  | none =>
    rw [hf] at hphys
    dsimp only at hphys ⊢
    split at hphys
    · next hpresent =>
      rw [if_pos hpresent, codeTranslate_small]
      exact virtualToPhysical_of_ok hp hphys
    · next habsent =>
      rw [if_neg habsent]
      exact virtualToPhysical_of_err hp hphys

/-- `get_pte` reads three entries, and gives the address of an entry. -/
theorem getPte_reads {m : PhysMem E} {pml4 a : PhysAddr} (hp : pml4.Aligned) {va : VirtAddr}
    (h : (getPte pml4 va).result m.answer = .ok a) :
    ((getPte pml4 va).trace m.answer).length = 3 ∧ a.val.toNat % 8 = 0 := by
  obtain ⟨pde, hpd, hdescend⟩ := @level_above E m pml4 va .pd (by decide) a h
  obtain ⟨pdpte, hpdpt, -⟩ := @level_above E m pml4 va .pdpt (by decide) pde hpd
  obtain ⟨pml4e, hpml4, -⟩ := @level_above E m pml4 va .pml4 (by decide) pdpte hpdpt
  constructor
  · have hreads := level_reads m va hp .pt
    rw [show tableLevels.take PageLevel.pt.depth = [.pml4, .pdpt, .pd] from rfl, List.flatMap_cons,
      List.flatMap_cons, List.flatMap_singleton, hpml4, hpdpt, hpd] at hreads
    rw [getPte, hreads]
    rfl
  · have haddr := (add_index (addr_aligned (m.entry pde)) va.p1Index).symm.trans
      (descend_ok hdescend)
    rw [← Option.some.inj haddr]
    exact (entryAt_read _ _).2

/-- Where `get_pte` gives `a`, the walk reads the three entries `get_pte` reads, then
    the entry at `a`, and ends as that entry says. -/
theorem virtualToPhysical_of_getPte {m : PhysMem E} {pml4 a : PhysAddr} (hp : pml4.Aligned)
    {va : VirtAddr} (h : (getPte pml4 va).result m.answer = .ok a) :
    (virtualToPhysical pml4 va).result m.answer = m.pteOutcome va a ∧
      (virtualToPhysical pml4 va).trace m.answer = (getPte pml4 va).trace m.answer ++ [⟨a, 8⟩] ∧
      ((getPte pml4 va).trace m.answer).length = 3 ∧ a.val.toNat % 8 = 0 := by
  refine ⟨virtualToPhysical_at hp h, ?_, getPte_reads hp h⟩
  have hbelow := @level_trace_below E m pml4 va .pt (by decide)
  rw [show m.level pml4 va .pt = .ok a from h] at hbelow
  rw [← walkers_trace m hp va]
  exact hbelow

/-- The walk of `va` reads at most three entries above the one at `get_pte`'s address. -/
theorem getPte_trace {m : PhysMem E} {pml4 a : PhysAddr} (hp : pml4.Aligned)
    {va : VirtAddr} (h : (getPte pml4 va).result m.answer = .ok a) :
    (getPte pml4 va).trace m.answer = ((virtualToPhysical pml4 va).trace m.answer).take 3 := by
  obtain ⟨-, htrace, hlen, -⟩ := virtualToPhysical_of_getPte hp h
  rw [htrace, List.take_left' hlen]

/-- **The handle.** A store of `e` at `get_pte(va)`, off the three entries above it,
    makes `e` the translation of `va`, leaves `get_pte(va)` where it was, and leaves
    every walk that does not read that address as it was. -/
theorem getPte_store (m : PhysMem E) (hm : ∀ p, m.fail p = none) {pml4 : PhysAddr}
    (hp : pml4.Aligned) (va : VirtAddr) (a : PhysAddr)
    (hg : (getPte pml4 va).result m.answer = .ok a)
    (hna : a ∉ (((virtualToPhysical pml4 va).trace m.answer).take 3).map ReadReq.phys)
    (e : PageTableEntry) :
    (e.present = true → ∃ pa, e.addr.add (va.val &&& 0xFFF#64) = some pa ∧
      (virtualToPhysical pml4 va).result (m.store a e).answer = .ok (pa, .phys)) ∧
    (e.present = false →
      (virtualToPhysical pml4 va).result (m.store a e).answer = .err (.invalidPte e)) ∧
    (getPte pml4 va).result (m.store a e).answer = .ok a ∧
    ∀ va' : VirtAddr, a ∉ ((virtualToPhysical pml4 va').trace m.answer).map ReadReq.phys →
      (virtualToPhysical pml4 va').result (m.store a e).answer =
        (virtualToPhysical pml4 va').result m.answer := by
  obtain ⟨-, -, -, ha⟩ := virtualToPhysical_of_getPte hp hg
  -- The store is off the entries `get_pte` reads, so it finds `a` again.
  rw [← getPte_trace hp hg] at hna
  have hg' : (getPte pml4 va).result (m.store a e).answer = .ok a :=
    (store_run e ha (getAddressOfLevel_asks hp va .pt) hna).1.trans hg
  have hv : (virtualToPhysical pml4 va).result (m.store a e).answer =
      if e.present then Outcome.orPanic ((Leaf.small e).codeTranslate va)
      else .err (.invalidPte e) := by
    rw [(virtualToPhysical_of_getPte hp hg').1, PhysMem.pteOutcome, store_entry,
      show (m.store a e).fail a = none from hm a]
  refine ⟨fun he => ?_, fun he => ?_, hg', fun va' hva' => ?_⟩
  · rw [hv, if_pos he, codeTranslate_small]
    exact ⟨_, add_page e va.val, rfl⟩
  · rw [hv, he]
    rfl
  · exact (store_run e ha (virtualToPhysical_asks hp va') hva').1

def nextPml4eVa : VirtAddr := ⟨0x8000000000#64, by decide⟩

theorem getPte_store_flat :
    (virtualToPhysical flatPml4 zeroVa).result
        ((flatMem 0x3003#64 0x4003#64).store ⟨0x4000#64, by decide⟩ ⟨0x5003#64⟩).answer =
        .ok (⟨0x5000#64, by decide⟩, .phys) ∧
      (virtualToPhysical flatPml4 nextPml4eVa).result
        ((flatMem 0x3003#64 0x4003#64).store ⟨0x4000#64, by decide⟩ ⟨0x5003#64⟩).answer =
        .err (.invalidPml4 ⟨0#64⟩) := by
  obtain ⟨hpresent, -, -, hframe⟩ := getPte_store (flatMem 0x3003#64 0x4003#64) (fun _ => rfl)
    (show flatPml4.Aligned by decide) zeroVa ⟨0x4000#64, by decide⟩ (by decide) (by decide)
    ⟨0x5003#64⟩
  obtain ⟨pa, hpa, hok⟩ := hpresent (by decide)
  have hfive : (⟨0x5003#64⟩ : PageTableEntry).addr.add (zeroVa.val &&& 0xFFF#64) =
      some ⟨0x5000#64, by decide⟩ := by decide
  refine ⟨?_, (hframe nextPml4eVa (by decide)).trans (by decide)⟩
  rw [hok, Option.some.inj (hpa.symm.trans hfive)]

end
end WinKernl
