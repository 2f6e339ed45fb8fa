import WinKernl.Lib.Orbit
import WinKernl.ProcessList

/- Whether the loop of `get_process_by_id` ends (`process/mod.rs`).

   On memory that need hold no process list the loop follows the orbit of `nextProcess`
   from the system process. It ends at a match, at a null `Flink`, or where the orbit is
   back at the system process, and keeps no other account of where it has been: an
   orbit that runs into a cycle without the system process keeps it going for ever. -/
namespace WinKernl
open ByteMem Orbit

section
variable (mem : Mem 64) (systemProcess pidOffset linkOffset pid : BitVec 64)

/-- Where the loop goes from `p`. -/
def nextProcess (p : BitVec 64) : BitVec 64 := readWord mem (p + linkOffset) - linkOffset

/-- The loop returns at `p`. -/
def LoopEnds (p : BitVec 64) : Prop :=
  uniqueProcessId mem pidOffset p = pid ∨ readWord mem (p + linkOffset) = 0 ∨
    nextProcess mem linkOffset p = systemProcess

instance (p : BitVec 64) : Decidable (LoopEnds mem systemProcess pidOffset linkOffset pid p) :=
  inferInstanceAs (Decidable (_ ∨ _))

variable {mem systemProcess pidOffset linkOffset pid}

/-- One turn: the loop returns where it ends, and else goes on. -/
theorem processLoop_turn {fuel : Nat} {p : BitVec 64} :
    (∃ res, processLoop mem systemProcess pidOffset linkOffset pid (fuel + 1) p = some res) ↔
      LoopEnds mem systemProcess pidOffset linkOffset pid p ∨
        ∃ res, processLoop mem systemProcess pidOffset linkOffset pid fuel
          (nextProcess mem linkOffset p) = some res := by
  rw [processLoop_succ]
  -- the three ways out, in the order in which the loop tries them
  by_cases hid : uniqueProcessId mem pidOffset p = pid
  · rw [if_pos hid]
    exact iff_of_true ⟨_, rfl⟩ (.inl (.inl hid))
  · rw [if_neg hid]
    by_cases hnull : readWord mem (p + linkOffset) = 0
    · rw [if_pos hnull]
      exact iff_of_true ⟨_, rfl⟩ (.inl (.inr (.inl hnull)))
    · rw [if_neg hnull]
      by_cases hsys : readWord mem (p + linkOffset) - linkOffset = systemProcess
      · rw [if_pos hsys]
        exact iff_of_true ⟨_, rfl⟩ (.inl (.inr (.inr hsys)))
      · rw [if_neg hsys]
        have hgo : ¬ LoopEnds mem systemProcess pidOffset linkOffset pid p := by
          intro hends
          rcases hends with h | h | h
          · exact hid h
          · exact hnull h
          · exact hsys h
        exact (or_iff_right hgo).symm

/-- The loop returns within `fuel` turns when one of the first `fuel` points ends it. -/
theorem processLoop_isSome_iff {fuel : Nat} {p : BitVec 64} :
    (∃ res, processLoop mem systemProcess pidOffset linkOffset pid fuel p = some res) ↔
      ∃ n < fuel, LoopEnds mem systemProcess pidOffset linkOffset pid
        ((nextProcess mem linkOffset)^[n] p) := by
  induction fuel generalizing p with
  | zero => exact iff_of_false nofun (by simp)
  | succ fuel ih =>
    -- the first turn is at `p`, the others are those from where it goes
    rw [processLoop_turn, ih]
    constructor
    · intro h
      rcases h with h | ⟨n, hn, h⟩
      · exact ⟨0, Nat.succ_pos _, h⟩
      · exact ⟨n + 1, Nat.succ_lt_succ hn, h⟩
    · intro h
      obtain ⟨n, hn, h⟩ := h
      cases n with
      | zero => exact .inl h
      | succ n => exact .inr ⟨n, Nat.lt_of_succ_lt_succ hn, h⟩

end

section
variable {mem : Mem 64} {r : Resolved} {system pidOffset : BitVec 64}

/-- The chain closes a cycle without the system process, with neither a match nor a null
    `Flink` on the way. -/
def ChainCircles (r : Resolved) (mem : Mem 64) (system pidOffset : BitVec 64) (pid : BitVec 32) :
    Prop :=
  Circles (nextProcess mem (getActiveProcessLinksOffset r.dwBuildNumber))
    (LoopEnds mem system pidOffset (getActiveProcessLinksOffset r.dwBuildNumber)
      (pid.setWidth 64)) system

theorem getProcessById_ok_iff (hsys : r.systemProcess = .ok system)
    (hoff : r.processIdOffset = .ok (some pidOffset)) (pid : BitVec 32) (fuel : Nat) :
    (∃ res, getProcessById r mem pid fuel = some (.ok res)) ↔
      ∃ n < fuel, LoopEnds mem system pidOffset (getActiveProcessLinksOffset r.dwBuildNumber)
        (pid.setWidth 64)
        ((nextProcess mem (getActiveProcessLinksOffset r.dwBuildNumber))^[n] system) := by
  rw [← processLoop_isSome_iff, getProcessById, hsys, hoff]
  simp only [Option.map_eq_some_iff, Except.ok.injEq, exists_eq_right]

end

/-- The processes of the ring, and the head taken for one. -/
def ringChain : Finset (BitVec 64) := {0x10000#64, 0x11000#64, 0x1FE28#64, 0x12000#64}

theorem ringChain_closed : ∀ p ∈ ringChain,
    nextProcess ringMem (getActiveProcessLinksOffset ringResolved.dwBuildNumber) p ∈ ringChain := by
  intro p hp
  simp only [ringChain, Finset.mem_insert, Finset.mem_singleton] at hp ⊢
  rcases hp with rfl | rfl | rfl | rfl
  · exact .inr (.inl (by decide))
  · exact .inr (.inr (.inl (by decide)))
  · exact .inr (.inr (.inr (by decide)))
  · exact .inl (by decide)

/-- The system process, and behind it a process whose `Flink` is its own node. -/
def circlingMem : Mem 64 :=
  writeWord (writeWord (fun _ => 0) 0x101D8#64 0x201D8#64) 0x201D8#64 0x201D8#64

def circlingChain : Finset (BitVec 64) := {0x10000#64, 0x20000#64}

theorem circlingChain_closed : ∀ p ∈ circlingChain,
    nextProcess circlingMem (getActiveProcessLinksOffset ringResolved.dwBuildNumber) p ∈
      circlingChain := by
  intro p hp
  simp only [circlingChain, Finset.mem_insert, Finset.mem_singleton] at hp ⊢
  rcases hp with rfl | rfl
  · exact .inr (by decide)
  · exact .inr (by decide)

end WinKernl
