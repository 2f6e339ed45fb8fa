import WinKernl.Lib.Changing
import WinKernl.CopyHelpers
import WinKernl.PteStore

/- A walk of the page tables (`memory/pagewalk/winimpl.rs`) while others change them.

   `translate_va_to_pa_sys` takes no lock: between two of its reads other processors may store
   to the tables. `ms n` is physical memory at its `n`-th call of `MmCopyMemory`, anything at
   all; an entry is copied in one piece, into a buffer that nobody else has. What the walk
   returns is then what it returns on one memory that stands still, each entry in it as it was
   when the walk read it, unless it reads an entry twice, as a table that maps itself makes it
   do (`translate_snapshot`). Where only the entry changes that `get_pte` finds, the walk
   returns what that entry says at the last of its reads (`translate_leaf_race`). -/
namespace WinKernl
open ByteMem Ask

/-! The kernel. -/

/-- How often `MmCopyMemory` was called, and what it left in the buffer. -/
structure Walking where
  turn : Nat
  buffer : List Byte

/-- `MmCopyMemory` on a memory that changes: all bytes are copied, or a failure is reported. -/
def Changing (cr3 : PhysAddr) (ms : Nat → PhysMem NtStatus) : Server Walking CopyReq CopyReq.Answer
  | s, .cr3Read, (r : PhysAddr), s' => r = cr3 ∧ s' = s
  | s, .mmCopyMemory _ source n _, (r : Copied), s' => ∃ phys : PhysAddr, phys.val = source ∧
      s'.turn = s.turn + 1 ∧ match (ms s.turn).answer ⟨phys, n.toNat⟩ with
        | .error e => r.status = e
        | .ok bs => r = ⟨0, n⟩ ∧ s'.buffer = bs
  | s, .bytes _, bs, s' => Subtype.val bs = s.buffer ∧ s' = s
  | _, _, _, _ => False

/-- The buffer is read when it has been filled. -/
def Walking.Permits : Walking → CopyReq → Prop
  | _, .cr3Read => True
  | _, .mmCopyMemory _ source _ _ => source.toNat < 2^52
  | s, .bytes slice => s.buffer.length = slice.len.toNat
  | _, _ => False

theorem changing_total {cr3 : PhysAddr} {ms : Nat → PhysMem NtStatus} (s : Walking) (q : CopyReq)
    (h : s.Permits q) : ∃ r s', Changing cr3 ms s q r s' := by
  cases q with
  | cr3Read => exact ⟨cr3, s, rfl, rfl⟩
  | mmCopyMemory target source n flags =>
    cases hans : (ms s.turn).answer ⟨⟨source, h⟩, n.toNat⟩ with
    | error e =>
      refine ⟨⟨e, 0⟩, ⟨s.turn + 1, s.buffer⟩, ⟨source, h⟩, rfl, rfl, ?_⟩
      rw [hans]
    | ok bs =>
      refine ⟨⟨0, n⟩, ⟨s.turn + 1, bs⟩, ⟨source, h⟩, rfl, rfl, ?_⟩
      rw [hans]
      exact ⟨rfl, rfl⟩
  | bytes slice => exact ⟨⟨s.buffer, h⟩, s, rfl, rfl⟩
  | psLookupProcessByProcessId id => exact h.elim
  | psGetCurrentProcess => exact h.elim
  | mmCopyVirtualMemory args => exact h.elim
  | obfDereferenceObject object => exact h.elim

/-- A failure is reported by a status that is one. -/
def ReportsFailures (ms : Nat → PhysMem NtStatus) : Prop :=
  ∀ n a e, (ms n).fail a = some e → ntSuccess e = false

section
variable {cr3 : PhysAddr} {ms : Nat → PhysMem NtStatus} {buf : BitVec 64}

theorem fail_of_error {E : Type} {m : PhysMem E} {q : ReadReq} {e : E} (h : m.answer q = .error e) :
    m.fail q.phys = some e := by
  unfold PhysMem.answer at h
  split at h
  · next x hx =>
    rw [hx, Except.error.inj h]
  · cases h

theorem length_of_answer {E : Type} {m : PhysMem E} {q : ReadReq} {bs : List Byte}
    (h : m.answer q = .ok bs) : bs.length = q.len := by
  unfold PhysMem.answer at h
  split at h
  · cases h
  · rw [← Except.ok.inj h, read_length]

/-- One call of the callback is one read of the memory of its moment. -/
theorem sysRead_wp {ε : Type} (hms : ReportsFailures ms) (s : Walking) {q : ReadReq} (hq : EntryRead q) :
    (sysRead buf q : CopyProg ε (Except NtStatus (List Byte))).Wp (Changing cr3 ms)
      Walking.Permits (fun o s' => o = .ok ((ms s.turn).answer q) ∧ s'.turn = s.turn + 1) s := by
  rw [sysRead, Prog.wp_attempt]
  refine ⟨q.phys.valid, fun (r : Copied) s₁ hr => ?_⟩
  obtain ⟨phys, hphys, hturn, hans⟩ := hr
  obtain rfl : phys = q.phys := PhysAddr.ext hphys
  have hlen : (⟨q.phys, (BitVec.ofNat 64 q.len).toNat⟩ : ReadReq) = q := by
    rw [hq.1]
    exact ReadReq.ext rfl hq.1.symm
  rw [hlen] at hans
  cases h : (ms s.turn).answer q with
  | error e =>
    rw [h] at hans
    have hno : ¬ (ntSuccess r.status = true ∧ r.copied = BitVec.ofNat 64 q.len) := by
      rw [show r.status = e from hans, hms _ _ e (fail_of_error h)]
      exact fun h => absurd h.1 Bool.false_ne_true
    show Prog.Wp _ _ _ ((if ntSuccess r.status ∧ r.copied = BitVec.ofNat 64 q.len
      then Prog.ok () else Prog.err r.status) >>= _) s₁
    rw [if_neg hno, hans]
    exact ⟨rfl, hturn⟩
  | ok bs =>
    rw [h] at hans
    obtain ⟨rfl, hbuf⟩ := hans
    have hyes : ntSuccess 0 = true ∧ BitVec.ofNat 64 q.len = BitVec.ofNat 64 q.len :=
      ⟨by decide, rfl⟩
    show Prog.Wp _ _ _ ((if ntSuccess 0 ∧ BitVec.ofNat 64 q.len = BitVec.ofNat 64 q.len
      then Prog.ok () else Prog.err 0) >>= _) s₁
    rw [if_pos hyes]
    refine ⟨?_, fun out s₂ hout => ?_⟩
    · rw [Walking.Permits, hbuf, length_of_answer h, hq.1]
      rfl
    obtain ⟨hout, rfl⟩ := hout
    exact ⟨congrArg (Outcome.ok ∘ Except.ok) (hout.trans hbuf), hturn⟩

/-- The walk over `MmCopyMemory` is the walk whose `n`-th read is one of `ms n`. -/
theorem translate_wp (hms : ReportsFailures ms) (hcr3 : cr3.Aligned) (va : VirtAddr) (b : List Byte) :
    (translateVaToPaSys buf va).Wp (Changing cr3 ms) Walking.Permits (fun o s' =>
      o = ((virtualToPhysical cr3 va).runFrom (fun n => (ms n).answer) 0).1 ∧
      s'.turn = 0 + ((virtualToPhysical cr3 va).runFrom (fun n => (ms n).answer) 0).2.length)
      ⟨0, b⟩ := by
  refine ⟨trivial, fun (r : PhysAddr) s hr => ?_⟩
  obtain ⟨rfl, rfl⟩ := hr
  exact Prog.via_runFrom (fun n => (ms n).answer) Walking.turn
    (fun s q hq => sysRead_wp hms s hq) (virtualToPhysical_asks hcr3 va) ⟨0, b⟩

theorem translate_runFrom (hms : ReportsFailures ms) (hcr3 : cr3.Aligned) {va : VirtAddr} {b : List Byte}
    {o : Outcome (WalkErr NtStatus) (PhysAddr × PageLevel)} {s' : Walking}
    (hexec : (translateVaToPaSys buf va).Exec (Changing cr3 ms) ⟨0, b⟩ o s') :
    let run := (virtualToPhysical cr3 va).runFrom (fun n => (ms n).answer) 0
    o = run.1 ∧ s'.turn = run.2.length ∧ ∀ q ∈ run.2, EntryRead q := by
  intro run
  obtain ⟨ho, hturn⟩ := (Prog.wp_iff.mp (translate_wp hms hcr3 va b)).2 o s' hexec
  exact ⟨ho, hturn.trans (Nat.zero_add _), (virtualToPhysical_asks hcr3 va).runFrom 0⟩

/-! A memory that stands still. -/

/-- Reads of different entries have no byte in common. -/
theorem reads_apart {q q' : ReadReq} (hq : EntryRead q) (hq' : EntryRead q') {x : BitVec 64}
    (hx : Within q.phys.val 8 x) (hx' : Within q'.phys.val 8 x) : q = q' := by
  by_contra hne
  have hval : q.phys.val ≠ q'.phys.val := by
    intro h
    exact hne (ReadReq.ext (PhysAddr.ext h) (hq.1.trans hq'.1.symm))
  exact entries_apart hq'.2 hq.2 hval hx hx'

/-- Where nothing is read twice, one memory gives every read the answer it got, and each of
    its bytes was there at one of the reads. -/
theorem snapshot_exists {E : Type} (ms : Nat → PhysMem E) {reads : List ReadReq}
    (hreads : ∀ q ∈ reads, EntryRead q) (hnodup : reads.Nodup) (hpos : 0 < reads.length) :
    ∃ m : PhysMem E, (∀ i q, reads[i]? = some q → m.answer q = (ms i).answer q) ∧
      ∀ x, ∃ i, i < reads.length ∧ m.bytes x = (ms i).bytes x := by
  have hone : ∀ {i j : Nat} {q : ReadReq}, reads[i]? = some q → reads[j]? = some q → i = j :=
    fun hi hj => (List.getElem?_inj (List.getElem?_eq_some_iff.mp hi).1 hnodup).mp (hi.trans hj.symm)
  -- the one read that a byte, or a failing address, belongs to
  have hbyte : ∀ x : BitVec 64, ∃ i, i < reads.length ∧
      ∀ (j : Nat) (q : ReadReq), reads[j]? = some q → Within q.phys.val 8 x → i = j := by
    intro x
    by_cases h : ∃ (i : Nat) (q : ReadReq), reads[i]? = some q ∧ Within q.phys.val 8 x
    · obtain ⟨i, q, hi, hx⟩ := h
      refine ⟨i, (List.getElem?_eq_some_iff.mp hi).1, fun j q' hj hx' => ?_⟩
      obtain rfl := reads_apart (hreads q (List.mem_of_getElem? hi))
        (hreads q' (List.mem_of_getElem? hj)) hx hx'
      exact hone hi hj
    · exact ⟨0, hpos, fun j q hj hx => absurd ⟨j, q, hj, hx⟩ h⟩
  have hfail : ∀ a : PhysAddr, ∃ i, ∀ (j : Nat) (q : ReadReq), reads[j]? = some q → q.phys = a → i = j := by
    intro a
    by_cases h : ∃ (i : Nat) (q : ReadReq), reads[i]? = some q ∧ q.phys = a
    · obtain ⟨i, q, hi, rfl⟩ := h
      refine ⟨i, fun j q' hj ha => ?_⟩
      have hq : q = q' := ReadReq.ext ha.symm ((hreads q (List.mem_of_getElem? hi)).1.trans
        (hreads q' (List.mem_of_getElem? hj)).1.symm)
      exact hone hi (hq ▸ hj)
    · exact ⟨0, fun j q hj ha => absurd ⟨j, q, hj, ha⟩ h⟩
  choose f hf using hbyte
  choose g hg using hfail
  refine ⟨⟨fun x => (ms (f x)).bytes x, fun a => (ms (g a)).fail a⟩, fun i q hi => ?_,
    fun x => ⟨f x, (hf x).1, rfl⟩⟩
  have hq := hreads q (List.mem_of_getElem? hi)
  have hread : read (fun x => (ms (f x)).bytes x) q.phys.val q.len =
      read (ms i).bytes q.phys.val q.len := by
    refine read_congr fun x hx => ?_
    rw [(hf x).2 i q hi (hq.1 ▸ hx)]
  simp only [PhysMem.answer, hg q.phys i q hi rfl, hread]

theorem walk_length {E : Type} (m : PhysMem E) {pml4 : PhysAddr} (hp : pml4.Aligned)
    (va : VirtAddr) : ((virtualToPhysical pml4 va).trace m.answer).length ≤ 4 := by
  have hinits := walk_prefix m va hp
  calc ((virtualToPhysical pml4 va).trace m.answer).length
      _ = (((virtualToPhysical pml4 va).trace m.answer).map fun q =>
          (.ok q.phys : Outcome (WalkLevelErr E) PhysAddr)).length := (List.length_map _).symm
      _ = ((tableLevels.map (m.level pml4 va)).takeWhile (·.isOk)).length := by rw [hinits]
      _ ≤ 4 := (List.takeWhile_sublist _).length_le

/-- A walk reads at least the first of its entries. -/
theorem walk_reads_pos {E : Type} {pml4 : PhysAddr} (hp : pml4.Aligned) (va : VirtAddr)
    (ans : Nat → ReadReq → Except E (List Byte)) (n : Nat) :
    0 < ((virtualToPhysical (E := E) pml4 va).runFrom ans n).2.length := by
  rw [virtualToPhysical, readPageTableEntryE_aligned hp]
  exact Nat.succ_pos _

/-- **A walk while the tables change.** What it returns and reads is what it returns and reads
    on any memory that has each entry as it was when it was read; there is such a memory,
    made of bytes that were there at one of the reads, where no entry is read twice. -/
theorem translate_snapshot (ms : Nat → PhysMem NtStatus) (hms : ReportsFailures ms) (cr3 : PhysAddr)
    (hcr3 : cr3.Aligned) (buf : BitVec 64) (va : VirtAddr) (b : List Byte)
    (o : Outcome (WalkErr NtStatus) (PhysAddr × PageLevel)) (s' : Walking)
    (hexec : (translateVaToPaSys buf va).Exec (Changing cr3 ms) ⟨0, b⟩ o s') :
    let reads := ((virtualToPhysical cr3 va).runFrom (fun n => (ms n).answer) 0).2
    s'.turn = reads.length ∧
    (∀ m : PhysMem NtStatus, (∀ i q, reads[i]? = some q → m.answer q = (ms i).answer q) →
      (virtualToPhysical cr3 va).result m.answer = o ∧
        (virtualToPhysical cr3 va).trace m.answer = reads) ∧
    (reads.Nodup → reads.length ≤ 4 ∧ ∃ m : PhysMem NtStatus,
      (∀ i q, reads[i]? = some q → m.answer q = (ms i).answer q) ∧
      ∀ x, ∃ i, i < reads.length ∧ m.bytes x = (ms i).bytes x) := by
  intro reads
  obtain ⟨ho, hturn, hreads⟩ := translate_runFrom hms hcr3 hexec
  have hstill : ∀ m : PhysMem NtStatus, (∀ i q, ((virtualToPhysical cr3 va).runFrom
      (fun n => (ms n).answer) 0).2[i]? = some q → m.answer q = (ms i).answer q) →
      (virtualToPhysical cr3 va).runFrom (fun n => (ms n).answer) 0 =
        ((virtualToPhysical cr3 va).result m.answer, (virtualToPhysical cr3 va).trace m.answer) :=
    fun m hm => Prog.runFrom_of_reads fun i q hi => (hm i q hi).trans (by rw [Nat.zero_add])
  refine ⟨hturn, fun m hm => ?_, fun hnodup => ?_⟩
  · have hrun := hstill m hm
    exact ⟨(ho.trans (congrArg Prod.fst hrun)).symm, (congrArg Prod.snd hrun).symm⟩
  · obtain ⟨m, hm, hbytes⟩ := snapshot_exists ms hreads hnodup
      (walk_reads_pos hcr3 va _ 0)
    refine ⟨?_, m, hm, hbytes⟩
    rw [show reads = (virtualToPhysical cr3 va).trace m.answer from congrArg Prod.snd (hstill m hm)]
    exact walk_length m hcr3 va

/-! One entry that changes. -/

/-- The tables stand still, except for the entry at `a`. -/
def OnlyEntry {E : Type} (a : PhysAddr) (ms : Nat → PhysMem E) : Prop :=
  ∀ n, (∀ x, ¬ Within a.val 8 x → (ms n).bytes x = (ms 0).bytes x) ∧
    ∀ p, p ≠ a → (ms n).fail p = (ms 0).fail p

/-- What is read elsewhere is as at first. -/
theorem OnlyEntry.answer {E : Type} {a : PhysAddr} {ms : Nat → PhysMem E} (h : OnlyEntry a ms)
    (ha : a.val.toNat % 8 = 0) (n : Nat) {q : ReadReq} (hq : EntryRead q) (hne : q.phys ≠ a) :
    (ms n).answer q = (ms 0).answer q := by
  have hval : q.phys.val ≠ a.val := fun h => hne (PhysAddr.ext h)
  have hread : read (ms n).bytes q.phys.val q.len = read (ms 0).bytes q.phys.val q.len := by
    rw [hq.1]
    exact read_congr fun x hx => (h n).1 x (entries_apart ha hq.2 hval hx)
  simp only [PhysMem.answer, (h n).2 _ hne, hread]

/-- `get_pte` finds the same entry at all times. -/
theorem OnlyEntry.getPte {E : Type} {a : PhysAddr} {ms : Nat → PhysMem E} (h : OnlyEntry a ms)
    {cr3 : PhysAddr} (hcr3 : cr3.Aligned) {va : VirtAddr}
    (ha : (getPte cr3 va).result (ms 0).answer = .ok a)
    (hna : a ∉ ((getPte cr3 va).trace (ms 0).answer).map ReadReq.phys) (n : Nat) :
    (WinKernl.getPte cr3 va).result (ms n).answer = .ok a ∧
      (WinKernl.getPte cr3 va).trace (ms n).answer =
        (WinKernl.getPte cr3 va).trace (ms 0).answer := by
  have hasks := getAddressOfLevel_asks (E := E) hcr3 va .pt
  have hsame := Prog.run_congr (WinKernl.getPte cr3 va) fun q hq =>
    h.answer (getPte_reads hcr3 ha).2 n (Prog.Asks.trace (ms 0).answer hasks q hq) fun heq =>
      hna (heq ▸ List.mem_map_of_mem hq)
  exact ⟨hsame.1.trans ha, hsame.2⟩

/-- **A walk while its last entry changes.** A walk that reads the entry at `a` last, having
    read others before, returns what that entry says at its fourth read, whatever it said
    before; `get_pte` finds it all the while. A walk that does not read it returns what it
    would have at first. -/
theorem translate_leaf_race (ms : Nat → PhysMem NtStatus) (hms : ReportsFailures ms) (cr3 : PhysAddr)
    (hcr3 : cr3.Aligned) (buf : BitVec 64) (va : VirtAddr) (b : List Byte) (a : PhysAddr)
    (halign : a.val.toNat % 8 = 0) (honly : OnlyEntry a ms)
    (o : Outcome (WalkErr NtStatus) (PhysAddr × PageLevel)) (s' : Walking)
    (hexec : (translateVaToPaSys buf va).Exec (Changing cr3 ms) ⟨0, b⟩ o s') :
    ((getPte cr3 va).result (ms 0).answer = .ok a →
      a ∉ ((getPte cr3 va).trace (ms 0).answer).map ReadReq.phys →
        s'.turn = 4 ∧ o = (ms 3).pteOutcome va a ∧
          ∀ n, (getPte cr3 va).result (ms n).answer = .ok a) ∧
    (a ∉ ((virtualToPhysical cr3 va).trace (ms 0).answer).map ReadReq.phys →
      o = (virtualToPhysical cr3 va).result (ms 0).answer) := by
  obtain ⟨ho, hturn, -⟩ := translate_runFrom hms hcr3 hexec
  have hasks := virtualToPhysical_asks (E := NtStatus) hcr3 va
  constructor
  · intro ha hna
    have hfound := honly.getPte hcr3 ha hna
    obtain ⟨hresult, htrace, hlen, -⟩ := virtualToPhysical_of_getPte hcr3 (hfound 3).1
    -- the run is that on the memory of the fourth read
    have hrun : (virtualToPhysical cr3 va).runFrom (fun n => (ms n).answer) 0 =
        ((virtualToPhysical cr3 va).result (ms 3).answer,
          (virtualToPhysical cr3 va).trace (ms 3).answer) := by
      refine Prog.runFrom_of_trace fun i q hi => ?_
      have hq := Prog.Asks.trace (ms 3).answer hasks q (List.mem_of_getElem? hi)
      rw [Nat.zero_add]
      rw [htrace] at hi
      rcases Nat.lt_or_ge i 3 with hlt | hge
      · rw [List.getElem?_append_left (by rw [hlen]; exact hlt), (hfound 3).2] at hi
        have hne : q.phys ≠ a := fun h => hna (h ▸ List.mem_map_of_mem (List.mem_of_getElem? hi))
        rw [honly.answer halign 3 hq hne, honly.answer halign i hq hne]
      · rw [List.getElem?_append_right (by rw [hlen]; exact hge), hlen] at hi
        have hi3 : i = 3 := by
          have := (List.getElem?_eq_some_iff.mp hi).1
          rw [List.length_singleton] at this
          omega
        rw [hi3]
    rw [hrun] at ho hturn
    refine ⟨?_, ho.trans hresult, fun n => (hfound n).1⟩
    rw [hturn, htrace, List.length_append, hlen, List.length_singleton]
  · intro hna
    rw [ho, Prog.runFrom_of_trace (f := (ms 0).answer) fun i q hi => ?_]
    have hq := List.mem_of_getElem? hi
    rw [Nat.zero_add]
    exact (honly.answer halign i (Prog.Asks.trace (ms 0).answer hasks q hq) fun h =>
      hna (h ▸ List.mem_map_of_mem hq)).symm

end

/-! The flat tables, with a page that is mapped while it is walked. -/

def mappedPte : PhysAddr := ⟨0x4000#64, by decide⟩

/-- The last entry is written between the third read and the fourth. -/
def mapping (n : Nat) : PhysMem NtStatus :=
  PhysMem.store ⟨(flatMem 0x3003#64 0x4003#64).bytes, fun _ => none⟩ mappedPte
    (if n < 3 then ⟨0#64⟩ else ⟨0x5003#64⟩)

theorem mapping_reportsFailures : ReportsFailures mapping := fun _ _ _ h => absurd h (Option.some_ne_none _).symm

theorem mapping_only : OnlyEntry mappedPte mapping := by
  refine fun n => ⟨fun x hx => ?_, fun _ _ => rfl⟩
  exact (writeWord_outside hx).trans (writeWord_outside hx).symm

theorem mapping_exec : ∃ o s', (translateVaToPaSys 0x2000#64 zeroVa).Exec (Changing flatPml4 mapping)
    ⟨0, []⟩ o s' := by
  have hcr3 : flatPml4.Aligned := by decide
  obtain ⟨o, s', hexec, -⟩ := Prog.exec_of_wp (fun s q h => changing_total s q h)
    (@translate_wp flatPml4 mapping 0x2000#64 mapping_reportsFailures hcr3 zeroVa [])
  exact ⟨o, s', hexec⟩

theorem mapping_reads : ((virtualToPhysical flatPml4 zeroVa).runFrom
    (fun n => (mapping n).answer) 0).2.Nodup := by
  decide

theorem translate_snapshot_mapping : ∃ o s',
    (translateVaToPaSys 0x2000#64 zeroVa).Exec (Changing flatPml4 mapping) ⟨0, []⟩ o s' ∧
    ∃ m : PhysMem NtStatus, (virtualToPhysical flatPml4 zeroVa).result m.answer = o ∧
      ∀ x, ∃ i, i < s'.turn ∧ m.bytes x = (mapping i).bytes x := by
  obtain ⟨o, s', hexec⟩ := mapping_exec
  obtain ⟨hturn, hstill, hone⟩ := translate_snapshot mapping mapping_reportsFailures flatPml4 (by decide)
    0x2000#64 zeroVa [] o s' hexec
  obtain ⟨-, m, hm, hbytes⟩ := hone mapping_reads
  refine ⟨o, s', hexec, m, (hstill m hm).1, ?_⟩
  rw [hturn]
  exact hbytes

theorem translate_leaf_race_mapping : ∃ o s',
    (translateVaToPaSys 0x2000#64 zeroVa).Exec (Changing flatPml4 mapping) ⟨0, []⟩ o s' ∧
    s'.turn = 4 ∧ o = .ok (⟨0x5000#64, by decide⟩, .phys) := by
  obtain ⟨o, s', hexec⟩ := mapping_exec
  obtain ⟨hleaf, -⟩ := translate_leaf_race mapping mapping_reportsFailures flatPml4 (by decide) 0x2000#64
    zeroVa [] mappedPte (by decide) mapping_only o s' hexec
  obtain ⟨hturn, ho, -⟩ := hleaf (by decide) (by decide)
  exact ⟨o, s', hexec, hturn, ho.trans (by decide)⟩

end WinKernl
