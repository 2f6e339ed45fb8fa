import Mathlib.Data.List.Nodup
import WinKernl.ReadOnlyWrite

/- The descriptor lists of several threads (`memory/mdl.rs`).

   The kernel has one `Ledger`. `owners` says for which thread each of its lists is, and `of i`
   is what it has for thread `i`: the lists of `i`, and the mappings of these. A call that is
   allowed on the part of the thread that makes it is allowed on the whole, does to this
   part what it does to a ledger of its own, and nothing to the part of another
   (`step_of`, `step_of_other`), where a new list and a new mapping get names that are not in
   use (`NewName`). -/
namespace WinKernl
open ByteMem Ask Runs

namespace Ledger

variable {ι : Type} {l : Ledger} {owners : Pmdl → Option ι}

/-- Every list is for a thread, every mapping is of a list, and no two are in one place. -/
structure Owned (l : Ledger) (owners : Pmdl → Option ι) : Prop where
  listed : ∀ m, owners m = none ↔ l.mdls m = none
  live : ∀ e ∈ l.mapped, owners e.2 ≠ none
  bases : (l.mapped.map Prod.fst).Nodup

/-- A list that is not there has no mappings. -/
theorem Owned.unmapped (ho : Owned l owners) {m : Pmdl} (h : l.mdls m = none) :
    ∀ e ∈ l.mapped, e.2 ≠ m := by
  intro e he hm
  exact ho.live e he ((ho.listed _).mpr (hm ▸ h))

/-- A list comes or goes, and its entry with it. -/
theorem Owned.update (ho : Owned l owners) {m : Pmdl} (hfree : ∀ e ∈ l.mapped, e.2 ≠ m)
    {o : Option ι} {r : Option MdlRecord} (hor : o = none ↔ r = none) :
    Owned (l.set m r) (Function.update owners m o) := by
  refine ⟨fun m' => ?_, fun e he => ?_, ho.bases⟩
  · unfold set
    by_cases hm : m' = m
    · subst hm
      simpa using hor
    · simpa [hm] using ho.listed m'
  · rw [Function.update_of_ne (hfree e he)]
    exact ho.live e he

variable [DecidableEq ι]

/-- The lists of thread `i` and their mappings. -/
def of (i : ι) (l : Ledger) (owners : Pmdl → Option ι) : Ledger :=
  ⟨fun m => if owners m = some i then l.mdls m else none,
   l.mapped.filter fun e => decide (owners e.2 = some i)⟩

/-- For whom the lists are after a call of thread `i`. -/
def ownersAfter (owners : Pmdl → Option ι) (i : ι) : MdlCall → Pmdl → Option ι
  | ⟨.ioAllocateMdl .., mdl⟩ =>
    if mdl = (0 : Pmdl) then owners else Function.update owners mdl (some i)
  | ⟨.ioFreeMdl mdl, _⟩ => Function.update owners mdl none
  | _ => owners

/-- A new list is none of those there are, and a new mapping is where none is. -/
def NewName (l : Ledger) : MdlCall → Prop
  | ⟨.ioAllocateMdl .., mdl⟩ => mdl ≠ (0 : Pmdl) → l.mdls mdl = none
  | ⟨.mmMapLockedPagesSpecifyCache .., base⟩ =>
    base ≠ (0 : BitVec 64) → base ∉ l.mapped.map Prod.fst
  | _ => True

variable {i j : ι} {c : MdlCall}

theorem of_mdls {m : Pmdl} {r : MdlRecord} : (l.of i owners).mdls m = some r ↔
    owners m = some i ∧ l.mdls m = some r := by
  simp only [of]
  split
  · next h => simp [h]
  · next h => simp [h]

theorem mem_of_mapped {e : BitVec 64 × Pmdl} :
    e ∈ (l.of i owners).mapped ↔ e ∈ l.mapped ∧ owners e.2 = some i := by
  simp [of]

/-- A list whose pages the thread knows the state of is one of its own. -/
theorem of_lockState {m : Pmdl} {b : Bool} (h : (l.of i owners).lockState m = some b) :
    owners m = some i ∧ l.lockState m = some b := by
  obtain ⟨r, hr, rfl⟩ := Option.map_eq_some_iff.mp h
  obtain ⟨hown, hlist⟩ := of_mdls.mp hr
  exact ⟨hown, by rw [lockState, hlist, Option.map_some]⟩

/-- All mappings of an own list are own mappings. -/
theorem of_unmapped {m : Pmdl} (hown : owners m = some i)
    (h : m ∉ (l.of i owners).mapped.map Prod.snd) : m ∉ l.mapped.map Prod.snd := by
  intro hm
  obtain ⟨e, he, rfl⟩ := List.mem_map.mp hm
  exact h (List.mem_map_of_mem (mem_of_mapped.mpr ⟨he, hown⟩))

/-- Where no two mappings are in one place, each is the one found there. -/
theorem lookup_of_mem {es : List (BitVec 64 × Pmdl)} (hnd : (es.map Prod.fst).Nodup)
    {base : BitVec 64} {m : Pmdl} (h : (base, m) ∈ es) : es.lookup base = some m := by
  obtain ⟨front, rest, rfl⟩ := List.append_of_mem h
  refine List.lookup_eq_some_iff.mpr ⟨front, rest, rfl, fun e he => ?_⟩
  rw [List.map_append, List.map_cons] at hnd
  refine bne_iff_ne.mpr fun heq => ?_
  exact List.disjoint_of_nodup_append hnd (List.mem_map_of_mem he) (heq ▸ List.mem_cons_self)

theorem mem_of_lookup {es : List (BitVec 64 × Pmdl)} {base : BitVec 64} {m : Pmdl}
    (h : es.lookup base = some m) : (base, m) ∈ es := by
  obtain ⟨front, rest, rfl, -⟩ := List.lookup_eq_some_iff.mp h
  exact List.mem_append_right _ List.mem_cons_self

theorem Owned.target (ho : Owned l owners) {base : BitVec 64} {r : MdlRecord}
    (h : (l.of i owners).target base = some r) : l.target base = some r := by
  obtain ⟨m, hm, hr⟩ := Option.bind_eq_some_iff.mp h
  have hmem : (base, m) ∈ l.mapped := (mem_of_mapped.mp (mem_of_lookup hm)).1
  exact Option.bind_eq_some_iff.mpr ⟨m, lookup_of_mem ho.bases hmem, (of_mdls.mp hr).2⟩

/-- What a thread may ask on its part, it may ask on the whole. -/
theorem Owned.allows (ho : Owned l owners) (h : (l.of i owners).Allows c) : l.Allows c := by
  obtain ⟨q, r⟩ := c
  cases q with
  | ioAllocateMdl => trivial
  | mmProbeAndLockPages mdl => exact (of_lockState h).2
  | mmUnlockPages mdl => exact ⟨(of_lockState h.1).2, of_unmapped (of_lockState h.1).1 h.2⟩
  | mmMapLockedPagesSpecifyCache mdl => exact (of_lockState h).2
  | mmUnmapLockedPages base mdl => exact (mem_of_mapped.mp h).1
  | mmProtectMdlSystemAddress mdl => trivial
  | ioFreeMdl mdl => exact ⟨(of_lockState h.1).2, of_unmapped (of_lockState h.1).1 h.2⟩
  | copy dst bytes =>
    obtain ⟨r, hr⟩ := Option.isSome_iff_exists.mp h
    exact Option.isSome_iff_exists.mpr ⟨r, ho.target hr⟩

theorem Owned.covers (ho : Owned l owners) (h : (l.of i owners).Covers c) : l.Covers c := by
  obtain ⟨q, r⟩ := c
  cases q with
  | copy base bytes =>
    obtain ⟨r, hr, hlen⟩ := h
    exact ⟨r, ho.target hr, hlen⟩
  | _ => trivial

/-- A copy that its list covers is the same write on the part and on the whole, and any other
    call writes nothing. -/
theorem store_cases {l l' : Ledger} {c : MdlCall} (hc : l.Covers c)
    (htarget : ∀ base r, l.target base = some r → l'.target base = some r) :
    (∀ mem, l.store c mem = some mem ∧ l'.store c mem = some mem) ∨
    ∃ m r bs, l.mdls m = some r ∧ bs.length ≤ r.length.toNat ∧ ∀ mem,
      l.store c mem = some (write mem r.start bs) ∧
        l'.store c mem = some (write mem r.start bs) := by
  obtain ⟨q, a⟩ := c
  cases q with
  | copy base bs =>
    obtain ⟨r, hr, hlen⟩ := hc
    obtain ⟨m, -, hm⟩ := Option.bind_eq_some_iff.mp hr
    exact .inr ⟨m, r, bs, hm, hlen, fun mem => by
      simp [Ledger.store, hr, htarget base r hr, hlen]⟩
  | _ => exact .inl fun _ => ⟨rfl, rfl⟩

theorem set_eq_some {m m' : Pmdl} {o : Option MdlRecord} {r : MdlRecord} :
    (l.set m o).mdls m' = some r ↔ (m' = m ∧ o = some r) ∨ (m' ≠ m ∧ l.mdls m' = some r) := by
  unfold set
  by_cases hm : m' = m
  · subst hm
    simp
  · simp [hm]

/-- A list describes what it described before, or what it was just made for. -/
theorem step_mdls {m : Pmdl} {r : MdlRecord} (h : (l.step c).mdls m = some r) :
    (∃ r', l.mdls m = some r' ∧ r'.start = r.start ∧ r'.length = r.length) ∨
    ∃ sb cq irp, c.1 = .ioAllocateMdl r.start r.length sb cq irp := by
  have hlocked : ∀ {mdl b}, (l.setLocked mdl b).mdls m = some r →
      ∃ r', l.mdls m = some r' ∧ r'.start = r.start ∧ r'.length = r.length := by
    intro mdl b hr
    rcases set_eq_some.mp hr with ⟨rfl, hmap⟩ | ⟨-, hold⟩
    · obtain ⟨r', hr', rfl⟩ := Option.map_eq_some_iff.mp hmap
      exact ⟨r', hr', rfl, rfl⟩
    · exact ⟨r, hold, rfl, rfl⟩
  obtain ⟨q, a⟩ := c
  cases q with
  | ioAllocateMdl dest length sb cq irp =>
    by_cases h0 : a = (0 : Pmdl)
    · rw [Ledger.step, if_pos h0] at h
      exact .inl ⟨r, h, rfl, rfl⟩
    rw [Ledger.step, if_neg h0] at h
    rcases set_eq_some.mp h with ⟨-, hnew⟩ | ⟨-, hold⟩
    · cases hnew
      exact .inr ⟨sb, cq, irp, rfl⟩
    · exact .inl ⟨r, hold, rfl, rfl⟩
  | mmProbeAndLockPages mdl mode op => exact .inl (hlocked h)
  | mmUnlockPages mdl => exact .inl (hlocked h)
  | mmMapLockedPagesSpecifyCache mdl mode caching addr bugCheck priority =>
    refine .inl ⟨r, ?_, rfl, rfl⟩
    by_cases h0 : a = (0 : BitVec 64)
    · rwa [Ledger.step, if_pos h0] at h
    · rwa [Ledger.step, if_neg h0] at h
  | ioFreeMdl mdl =>
    rcases set_eq_some.mp h with ⟨-, hnew⟩ | ⟨-, hold⟩
    · cases hnew
    · exact .inl ⟨r, hold, rfl, rfl⟩
  | mmUnmapLockedPages base mdl => exact .inl ⟨r, h, rfl, rfl⟩
  | mmProtectMdlSystemAddress mdl prot => exact .inl ⟨r, h, rfl, rfl⟩
  | copy dst bs => exact .inl ⟨r, h, rfl, rfl⟩

/-! What a call does to a part. -/

theorem of_setLocked (m : Pmdl) (b : Bool) :
    (l.setLocked m b).of i owners = (l.of i owners).setLocked m b := by
  unfold of setLocked set
  congr 1
  funext m'
  by_cases hm : m' = m
  · subst hm
    simp only [Function.update_self]
    split <;> rfl
  · simp only [Function.update_of_ne hm]

/-- A list of another thread is not in the part. -/
theorem of_set_other {m : Pmdl} (h : owners m ≠ some i) (r : Option MdlRecord) :
    (l.set m r).of i owners = l.of i owners := by
  unfold of set
  congr 1
  funext m'
  by_cases hm : m' = m
  · subst hm
    simp only [if_neg h]
  · simp only [Function.update_of_ne hm]

/-- A list without mappings comes or goes, for thread `i` or for another. -/
theorem of_update {m : Pmdl} (hlive : ∀ e ∈ l.mapped, owners e.2 = some i → e.2 ≠ m)
    {o : Option ι} (ho : ∀ e ∈ l.mapped, o = some i → e.2 ≠ m) (r : Option MdlRecord) :
    (l.set m r).of i (Function.update owners m o) =
      (l.of i owners).set m (if o = some i then r else none) := by
  unfold of set
  congr 1
  · funext m'
    by_cases hm : m' = m
    · subst hm
      simp only [Function.update_self]
    · simp only [Function.update_of_ne hm]
  · refine List.filter_congr fun e he => ?_
    by_cases hm : e.2 = m
    · have hold : owners e.2 ≠ some i := fun h => hlive e he h hm
      have hnew : o ≠ some i := fun h => ho e he h hm
      rw [decide_eq_false hold, hm, Function.update_self, decide_eq_false hnew]
    · simp only [Function.update_of_ne hm]

/-- What is not there needs no removing. -/
theorem of_set_none {m : Pmdl} (h : owners m ≠ some i) :
    (l.of i owners).set m none = l.of i owners := by
  unfold of set
  congr 1
  funext m'
  by_cases hm : m' = m
  · subst hm
    simp only [Function.update_self, if_neg h]
  · simp only [Function.update_of_ne hm]

theorem of_mapped_cons (base : BitVec 64) (m : Pmdl) :
    ({ l with mapped := (base, m) :: l.mapped } : Ledger).of i owners =
      if owners m = some i then { l.of i owners with mapped := (base, m) :: (l.of i owners).mapped }
      else l.of i owners := by
  by_cases h : owners m = some i
  · rw [if_pos h]
    simp only [of, List.filter_cons, h, decide_true, if_true]
  · rw [if_neg h]
    simp only [of, List.filter_cons, h, decide_false, Bool.false_eq_true, if_false]

theorem of_mapped_erase (ho : Owned l owners) (e : BitVec 64 × Pmdl) :
    ({ l with mapped := l.mapped.erase e } : Ledger).of i owners =
      { l.of i owners with mapped := (l.of i owners).mapped.erase e } := by
  have hnd : l.mapped.Nodup := List.Nodup.of_map _ ho.bases
  unfold of
  congr 1
  dsimp only
  rw [hnd.erase_eq_filter, List.Nodup.erase_eq_filter (hnd.filter _), List.filter_filter,
    List.filter_filter]
  refine List.filter_congr fun e' _ => ?_
  exact Bool.and_comm _ _

/-! One call. -/

/-- The part of the thread that calls. -/
theorem Owned.step_of (ho : Owned l owners) (hallows : (l.of i owners).Allows c)
    (hname : l.NewName c) : (l.step c).of i (ownersAfter owners i c) = (l.of i owners).step c := by
  obtain ⟨q, r⟩ := c
  cases q with
  | ioAllocateMdl dest length sb cq irp =>
    by_cases h0 : r = (0 : Pmdl)
    · simp only [step, ownersAfter, if_pos h0]
    have hfree := ho.unmapped (hname h0)
    simp only [step, ownersAfter, if_neg h0]
    rw [of_update (fun e he _ => hfree e he) (fun e he _ => hfree e he), if_pos rfl]
  | mmProbeAndLockPages mdl mode op => exact of_setLocked mdl true
  | mmUnlockPages mdl => exact of_setLocked mdl false
  | mmMapLockedPagesSpecifyCache mdl mode caching addr bugCheck priority =>
    by_cases h0 : r = (0 : BitVec 64)
    · simp only [step, ownersAfter, if_pos h0]
    simp only [step, ownersAfter, if_neg h0]
    rw [of_mapped_cons, if_pos (of_lockState hallows).1]
  | mmUnmapLockedPages base mdl => exact of_mapped_erase ho (base, mdl)
  | mmProtectMdlSystemAddress mdl prot => rfl
  | ioFreeMdl mdl =>
    obtain ⟨hown, -⟩ := of_lockState hallows.1
    have hfree : ∀ e ∈ l.mapped, e.2 ≠ mdl := fun e he hm =>
      of_unmapped hown hallows.2 (List.mem_map.mpr ⟨e, he, hm⟩)
    simp only [step, ownersAfter]
    rw [of_update (fun e he _ => hfree e he) (fun e he _ => hfree e he), if_neg (Option.some_ne_none i).symm]
  | copy dst bytes => rfl

/-- The part of another. -/
theorem Owned.step_of_other (ho : Owned l owners) (hij : j ≠ i)
    (hallows : (l.of i owners).Allows c) (hname : l.NewName c) :
    (l.step c).of j (ownersAfter owners i c) = l.of j owners := by
  have hother : ∀ {m : Pmdl}, owners m = some i → owners m ≠ some j := by
    intro m hi hj
    exact hij (Option.some.inj (hj.symm.trans hi))
  obtain ⟨q, r⟩ := c
  cases q with
  | ioAllocateMdl dest length sb cq irp =>
    by_cases h0 : r = (0 : Pmdl)
    · simp only [step, ownersAfter, if_pos h0]
    have hfree := ho.unmapped (hname h0)
    have hnone : owners r ≠ some j := by
      rw [(ho.listed r).mpr (hname h0)]
      exact (Option.some_ne_none j).symm
    simp only [step, ownersAfter, if_neg h0]
    rw [of_update (fun e he _ => hfree e he) (fun e he _ => hfree e he),
      if_neg fun h => hij (Option.some.inj h).symm, of_set_none hnone]
  | mmProbeAndLockPages mdl mode op => exact of_set_other (hother (of_lockState hallows).1) _
  | mmUnlockPages mdl => exact of_set_other (hother (of_lockState hallows.1).1) _
  | mmMapLockedPagesSpecifyCache mdl mode caching addr bugCheck priority =>
    by_cases h0 : r = (0 : BitVec 64)
    · simp only [step, ownersAfter, if_pos h0]
    simp only [step, ownersAfter, if_neg h0]
    rw [of_mapped_cons, if_neg (hother (of_lockState hallows).1)]
  | mmUnmapLockedPages base mdl =>
    have hmine := (mem_of_mapped.mp hallows).2
    have hnot : (base, mdl) ∉ (l.of j owners).mapped := fun h => hother hmine (mem_of_mapped.mp h).2
    simp only [step, ownersAfter]
    rw [of_mapped_erase ho, List.erase_of_not_mem hnot]
  | mmProtectMdlSystemAddress mdl prot => rfl
  | ioFreeMdl mdl =>
    obtain ⟨hown, -⟩ := of_lockState hallows.1
    have hfree : ∀ e ∈ l.mapped, e.2 ≠ mdl := fun e he hm =>
      of_unmapped hown hallows.2 (List.mem_map.mpr ⟨e, he, hm⟩)
    simp only [step, ownersAfter]
    rw [of_update (fun e he _ => hfree e he) (fun e he _ => hfree e he), if_neg (Option.some_ne_none j).symm,
      of_set_none (hother hown)]
  | copy dst bytes => rfl

theorem setLocked_mdls {m m' : Pmdl} {b : Bool} :
    (l.setLocked m b).mdls m' = none ↔ l.mdls m' = none := by
  unfold setLocked set
  by_cases hm : m' = m
  · subst hm
    simp
  · simp [hm]

theorem Owned.step (ho : Owned l owners) (hallows : (l.of i owners).Allows c)
    (hname : l.NewName c) : Owned (l.step c) (ownersAfter owners i c) := by
  obtain ⟨q, r⟩ := c
  cases q with
  | ioAllocateMdl dest length sb cq irp =>
    by_cases h0 : r = (0 : Pmdl)
    · simpa only [Ledger.step, ownersAfter, if_pos h0] using ho
    simp only [Ledger.step, ownersAfter, if_neg h0]
    exact ho.update (ho.unmapped (hname h0)) (by simp)
  | mmProbeAndLockPages mdl mode op =>
    exact ⟨fun m => (ho.listed m).trans setLocked_mdls.symm, ho.live, ho.bases⟩
  | mmUnlockPages mdl =>
    exact ⟨fun m => (ho.listed m).trans setLocked_mdls.symm, ho.live, ho.bases⟩
  | mmMapLockedPagesSpecifyCache mdl mode caching addr bugCheck priority =>
    by_cases h0 : r = (0 : BitVec 64)
    · simpa only [Ledger.step, ownersAfter, if_pos h0] using ho
    simp only [Ledger.step, ownersAfter, if_neg h0]
    refine ⟨ho.listed, fun e he => ?_, List.nodup_cons.mpr ⟨hname h0, ho.bases⟩⟩
    rcases List.mem_cons.mp he with rfl | he
    · rw [(of_lockState hallows).1]
      exact Option.some_ne_none i
    · exact ho.live e he
  | mmUnmapLockedPages base mdl =>
    exact ⟨ho.listed, fun e he => ho.live e (List.mem_of_mem_erase he),
      ho.bases.sublist (List.erase_sublist.map _)⟩
  | mmProtectMdlSystemAddress mdl prot => exact ho
  | ioFreeMdl mdl =>
    obtain ⟨hown, -⟩ := of_lockState hallows.1
    refine ho.update (fun e he hm => ?_) (by simp)
    exact of_unmapped hown hallows.2 (List.mem_map.mpr ⟨e, he, hm⟩)
  | copy dst bytes => exact ho

end Ledger
end WinKernl
