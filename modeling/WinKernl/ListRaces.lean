import WinKernl.Lib.ListWalk
import WinKernl.Lib.Server
import WinKernl.ProcessCalls
import WinKernl.ProcessLoop

/- `get_process_by_id` (`process/mod.rs`) while processes start and exit.

   The function takes no lock: between two of its reads any number of processes may leave
   the list, and others come. A new process is put in front of the list head. Who leaves
   keeps its `Flink`, so the loop, which may stand there, gets back to the list. `Moment` is
   the list at one time, and `Passes` what may happen to it. The caches are filled, as
   `initialize_cached_offsets` leaves them, so all that is read of the memory is the list. -/
namespace WinKernl
open ByteMem Ask ListWalk

namespace ProcessCalls

/-- The list, the processes that have come to be in front of its head, in the order in which
    they came, and those that were behind it. -/
structure Moment (pidOffset linkOffset : BitVec 64) where
  mem : Mem 64
  list : ProcessList mem pidOffset linkOffset
  came : List (BitVec 64)
  behind : List (BitVec 64)
  front : (list.system :: list.before).Sublist came
  back : list.after.Sublist behind
  nodup : (came ++ list.bogus :: behind).Nodup

namespace Moment
variable {pidOffset linkOffset : BitVec 64}

/-- All there have been, with what the list head is taken for. -/
def all (m : Moment pidOffset linkOffset) : List (BitVec 64) := m.came ++ m.list.bogus :: m.behind

def id (m : Moment pidOffset linkOffset) (p : BitVec 64) : BitVec 64 :=
  uniqueProcessId m.mem pidOffset p

def next (m : Moment pidOffset linkOffset) (p : BitVec 64) : BitVec 64 :=
  nextProcess m.mem linkOffset p

/-- Processes come and go: a process keeps its identifier, and when it has left its link. -/
structure Passes (m m' : Moment pidOffset linkOffset) : Prop where
  system : m'.list.system = m.list.system
  bogus : m'.list.bogus = m.list.bogus
  came : m.came <+: m'.came
  behind : m'.behind = m.behind
  ids : ∀ p ∈ m.came ++ m.behind, m'.id p = m.id p
  links : ∀ p ∈ m.came ++ m.behind, p ∉ m'.list.visited → m'.next p = m.next p

/-! One moment. -/

theorem visited_sublist (m : Moment pidOffset linkOffset) : m.list.visited.Sublist m.all :=
  m.front.append (m.back.cons_cons _)

theorem mem_visited (m : Moment pidOffset linkOffset) {p : BitVec 64} :
    p ∈ m.list.visited ↔ p ∈ m.list.processes ∨ p = m.list.bogus := by
  simp only [ProcessList.visited, ProcessList.processes, List.mem_append, List.mem_cons]
  exact ⟨fun h => h.elim (.inl ∘ .inl) fun h => h.elim .inr (.inl ∘ .inr), fun h =>
    h.elim (fun h => h.elim .inl (.inr ∘ .inr)) (.inr ∘ .inl)⟩

theorem processes_mem (m : Moment pidOffset linkOffset) {p : BitVec 64}
    (h : p ∈ m.list.processes) : p ∈ m.came ++ m.behind :=
  (m.front.append m.back).subset h

theorem follows_of_linked {mem : Mem 64} {first : BitVec 64} {ps : List (BitVec 64)}
    (h : Linked mem (first + linkOffset) (ps.map (· + linkOffset))) :
    Follows first (nextProcess mem linkOffset) ps := by
  induction ps with
  | nil => trivial
  | cons p ps ih =>
    cases ps with
    | nil =>
      have hflink : readWord mem (p + linkOffset) = first + linkOffset := h
      show nextProcess mem linkOffset p = first
      rw [nextProcess, hflink, BitVec.add_sub_cancel]
    | cons q ps =>
      obtain ⟨hflink, hrest⟩ : readWord mem (p + linkOffset) = q + linkOffset ∧
        Linked mem (first + linkOffset) ((q :: ps).map (· + linkOffset)) := h
      refine ⟨?_, ih hrest⟩
      rw [nextProcess, hflink, BitVec.add_sub_cancel]

theorem follows (m : Moment pidOffset linkOffset) :
    Follows m.list.system m.next m.list.visited := by
  have hlinked := m.list.linked
  rw [← m.list.visited_nodes] at hlinked
  exact follows_of_linked hlinked

theorem node_ne_zero (m : Moment pidOffset linkOffset) {p : BitVec 64} (h : p ∈ m.list.visited) :
    p + linkOffset ≠ 0 := by
  intro hzero
  have hnonnull := m.list.nonnull
  rw [← m.list.visited_nodes] at hnonnull
  exact hnonnull (hzero ▸ List.mem_map_of_mem h)

end Moment

/-- The elements of a list without duplicates have their indices in order. -/
theorem pairwise_idxOf {α : Type} [DecidableEq α] {l : List α} (h : l.Nodup) :
    l.Pairwise (l.idxOf · < l.idxOf ·) := by
  rw [List.pairwise_iff_getElem]
  intro i j hi hj hij
  rwa [h.idxOf_getElem, h.idxOf_getElem]

/-! All moments. -/

section
variable {pidOffset linkOffset : BitVec 64} {κ : Nat → Moment pidOffset linkOffset} {T : Nat}
  (hpass : ∀ t < T, (κ t).Passes (κ (t + 1)))
include hpass

/-- What holds from each moment to the next holds from any moment on. -/
theorem passes_trans {R : Moment pidOffset linkOffset → Moment pidOffset linkOffset → Prop}
    (hrefl : ∀ m, R m m) (htrans : ∀ m m' m'', R m m' → m'.Passes m'' → R m m'') {t t' : Nat}
    (ht : t ≤ t') (hT : t' ≤ T) : R (κ t) (κ t') := by
  induction t', ht using Nat.le_induction with
  | base => exact hrefl _
  | succ t' ht ih => exact htrans _ _ _ (ih (Nat.le_of_succ_le hT)) (hpass t' hT)

theorem came_grows {t t' : Nat} (ht : t ≤ t') (hT : t' ≤ T) : (κ t).came <+: (κ t').came :=
  passes_trans hpass (R := fun m m' => m.came <+: m'.came) (fun _ => List.prefix_rfl)
    (fun _ _ _ h hp => h.trans hp.came) ht hT

theorem same_frame {t t' : Nat} (ht : t ≤ t') (hT : t' ≤ T) :
    (κ t').list.system = (κ t).list.system ∧ (κ t').list.bogus = (κ t).list.bogus ∧
      (κ t').behind = (κ t).behind :=
  passes_trans hpass (R := fun m m' => m'.list.system = m.list.system ∧
    m'.list.bogus = m.list.bogus ∧ m'.behind = m.behind) (fun _ => ⟨rfl, rfl, rfl⟩)
    (fun _ _ _ h hp => ⟨hp.system.trans h.1, hp.bogus.trans h.2.1, hp.behind.trans h.2.2⟩) ht hT

theorem known_later {t t' : Nat} (ht : t ≤ t') (hT : t' ≤ T) {p : BitVec 64}
    (hp : p ∈ (κ t).came ++ (κ t).behind) : p ∈ (κ t').came ++ (κ t').behind := by
  rw [(same_frame hpass ht hT).2.2]
  rcases List.mem_append.mp hp with hp | hp
  · exact List.mem_append_left _ ((came_grows hpass ht hT).subset hp)
  · exact List.mem_append_right _ hp

theorem id_later {t t' : Nat} (ht : t ≤ t') (hT : t' ≤ T) {p : BitVec 64}
    (hp : p ∈ (κ t).came ++ (κ t).behind) : (κ t').id p = (κ t).id p := by
  induction t', ht using Nat.le_induction with
  | base => rfl
  | succ t' ht ih =>
    have hle := Nat.le_of_succ_le hT
    exact ((hpass t' hT).ids p (known_later hpass ht hle hp)).trans (ih hle)

theorem all_sublist {t : Nat} (ht : t ≤ T) : (κ t).all.Sublist (κ T).all := by
  obtain ⟨-, hbogus, hbehind⟩ := same_frame hpass ht (Nat.le_refl _)
  rw [Moment.all, Moment.all, hbogus, hbehind]
  exact (came_grows hpass ht (Nat.le_refl _)).sublist.append_right _

theorem period : Period T (κ 0).list.system ((κ T).all.idxOf ·) (fun t => (κ t).list.visited)
    (fun t => (κ t).next) where
  first t ht := ⟨(κ t).list.before ++ (κ t).list.bogus :: (κ t).list.after, by
    rw [← (same_frame hpass (Nat.zero_le t) ht).1]
    rfl⟩
  sorted t ht := (pairwise_idxOf (κ T).nodup).sublist
    ((κ t).visited_sublist.trans (all_sublist hpass ht))
  follows t ht := by
    rw [← (same_frame hpass (Nat.zero_le t) ht).1]
    exact (κ t).follows
  kept t ht u hu p hp hgone := by
    refine (hpass t ht).links p ?_ hgone
    rcases (κ u).mem_visited.mp hp with hp | hp
    · exact known_later hpass hu ht.le ((κ u).processes_mem hp)
    · refine absurd ((κ (t + 1)).mem_visited.mpr (.inr ?_)) hgone
      rw [hp, (same_frame hpass (Nat.le_succ_of_le hu) ht).2.1]

/-- All there have been by the end have a rank. -/
theorem rank_lt {s t : Nat} (ht : t ≤ T) {p : BitVec 64}
    (hp : Seen (fun t => (κ t).list.visited) s t p) : (κ T).all.idxOf p < (κ T).all.length := by
  obtain ⟨u, -, hut, hp⟩ := hp
  have hu := hut.trans ht
  exact List.idxOf_lt_length_of_mem
    ((all_sublist hpass hu).subset ((κ u).visited_sublist.subset hp))

end

/-! The loop. -/

section
variable {pidOffset linkOffset : BitVec 64} (κ : Nat → Moment pidOffset linkOffset)
  (b : BitVec 32) (T : Nat)

/-- A request is answered at some later time, from the memory of that time. -/
def Serves : Server Nat StepReq StepReq.Answer
  | t, .load .psInitialSystemProcess, (r : BitVec 64), t' =>
    r = (κ t').list.system ∧ t ≤ t' ∧ t' ≤ T
  | t, .load .processIdOffset, (r : BitVec 64), t' => r = pidOffset ∧ t ≤ t' ∧ t' ≤ T
  | t, .rtlGetVersion, (r : BitVec 32), t' => r = b ∧ t ≤ t' ∧ t' ≤ T
  | t, .system (.readPointer a), (r : BitVec 64), t' =>
    r = readWord (κ t').mem a ∧ t ≤ t' ∧ t' ≤ T
  | _, _, _, _ => False

/-- What the function asks on filled caches. -/
def Asked : Nat → StepReq → Prop
  | t, .load .psInitialSystemProcess => t ≤ T
  | t, .load .processIdOffset => t ≤ T
  | t, .rtlGetVersion => t ≤ T
  | t, .system (.readPointer _) => t ≤ T
  | _, _ => False

/-- What the function may return when it is asked for `id` at time `s` and returns at time
    `t'`: an EPROCESS that has been visited with that identifier in between, or that there is
    none, and then no process with it has been in the list all along. -/
structure Found (s t' : Nat) (id : BitVec 64)
    (o : Outcome SearchError (Option (Option (BitVec 64)))) : Prop where
  later : s ≤ t' ∧ t' ≤ T
  ends : ∃ res, o = .ok res
  found : ∀ p, o = .ok (some (some p)) → ∃ v, s ≤ v ∧ v ≤ t' ∧ p ∈ (κ v).list.visited ∧
    (κ v).id p = id
  missed : o = .ok (some none) → ∀ p, p ∈ (κ s).list.processes → (κ s).id p = id →
    ¬ Stays (fun t => (κ t).list.visited) s t' p

variable {κ b T} (hpass : ∀ t < T, (κ t).Passes (κ (t + 1)))
include hpass

/-- A process that has been seen since `s` has had its identifier then. -/
theorem seen_id {s t : Nat} (ht : t ≤ T) {p : BitVec 64}
    (hp : Seen (fun t => (κ t).list.visited) s t p) :
    ∃ v, s ≤ v ∧ v ≤ t ∧ p ∈ (κ v).list.visited ∧ (κ v).id p = (κ t).id p := by
  obtain ⟨v, hsv, hvt, hp⟩ := hp
  rcases (κ v).mem_visited.mp hp with hprocess | hbogus
  · exact ⟨v, hsv, hvt, hp, (id_later hpass hvt ht ((κ v).processes_mem hprocess)).symm⟩
  · -- the list head is there at all times
    refine ⟨t, hsv.trans hvt, Nat.le_refl _, (κ t).mem_visited.mpr (.inr ?_), rfl⟩
    rw [hbogus, (same_frame hpass hvt ht).2.1]

theorem found_some {s t : Nat} {id p : BitVec 64} (hst : s ≤ t) (htT : t ≤ T)
    (hp : Seen (fun t => (κ t).list.visited) s t p) (hid : (κ t).id p = id) :
    Found κ T s t id (.ok (some (some p))) := by
  obtain ⟨v, hsv, hvt, hpv, hv⟩ := seen_id hpass htT hp
  refine ⟨⟨hst, htT⟩, ⟨_, rfl⟩, fun q hq => ?_, fun h => ?_⟩
  · obtain rfl : p = q := Option.some.inj (Option.some.inj (Outcome.ok.inj hq))
    exact ⟨v, hsv, hvt, hpv, hv.trans hid⟩
  · cases Option.some.inj (Outcome.ok.inj h)

omit hpass in
theorem found_none {s t : Nat} {id : BitVec 64} (hst : s ≤ t) (htT : t ≤ T)
    (h : ∀ p, p ∈ (κ s).list.processes → (κ s).id p = id →
      ¬ Stays (fun t => (κ t).list.visited) s t p) : Found κ T s t id (.ok (some none)) := by
  refine ⟨⟨hst, htT⟩, ⟨_, rfl⟩, fun q hq => ?_, fun _ => h⟩
  cases Option.some.inj (Outcome.ok.inj hq)

omit hpass in
theorem found_running {s t : Nat} {id : BitVec 64} (hst : s ≤ t) (htT : t ≤ T) :
    Found κ T s t id (.ok none) := by
  refine ⟨⟨hst, htT⟩, ⟨_, rfl⟩, fun q hq => ?_, fun h => ?_⟩
  · cases Outcome.ok.inj hq
  · cases Outcome.ok.inj h

/-- The loop at `p`, where nothing that is looked for and has stayed is behind it. -/
theorem processLoop_wp {s t : Nat} {id p : BitVec 64} {fuel : Nat} (hst : s ≤ t) (htT : t ≤ T)
    (hp : Seen (fun t => (κ t).list.visited) s t p)
    (hclear : Clear ((κ T).all.idxOf ·) (fun t => (κ t).list.visited)
      (fun z => z ∈ (κ s).list.processes ∧ (κ s).id z = id) s t p) :
    (processLoop (κ 0).list.system pidOffset linkOffset id fuel p).Wp (Serves κ b T) (Asked T)
      (fun o t' => Found κ T s t' id o ∧
        ((κ T).all.length ≤ (κ T).all.idxOf p + fuel → o ≠ .ok none)) t := by
  have hsome : ∀ {n : Nat} (res : Option (BitVec 64)), (κ T).all.length ≤ n →
      (Outcome.ok (some res) : Outcome SearchError _) ≠ .ok none :=
    fun res _ h => Option.some_ne_none res (Outcome.ok.inj h)
  induction fuel generalizing t p with
  | zero =>
    refine ⟨found_running hst htT, fun hlen => ?_⟩
    exact absurd (rank_lt hpass htT hp) (Nat.not_lt_of_le hlen)
  | succ fuel ih =>
    refine ⟨htT, fun (currentPid : BitVec 64) t₁ h₁ => ?_⟩
    obtain ⟨hcurrent, ht₁, hT₁⟩ := h₁
    have hs₁ := hst.trans ht₁
    refine .ite (fun hid => ?_) fun hid => ⟨hT₁, fun (flink : BitVec 64) t₂ h₂ => ?_⟩
    · exact ⟨found_some hpass hs₁ hT₁ (hp.mono ht₁) (hcurrent.symm.trans hid), hsome _⟩
    · obtain ⟨hflink, ht₂, hT₂⟩ := h₂
      have hs₂ := hs₁.trans ht₂
      have hnot : ¬ (p ∈ (κ s).list.processes ∧ (κ s).id p = id) := by
        intro h
        have hkept := id_later hpass hs₁ hT₁ ((κ s).processes_mem h.1)
        exact hid (hcurrent.trans (hkept.trans h.2))
      have hgo := (period hpass).clear_go hT₂ (hclear.mono (ht₁.trans ht₂))
        (hp.mono (ht₁.trans ht₂)) hnot
      have hnext : (κ t₂).next p = flink - linkOffset := congrArg (· - linkOffset) hflink.symm
      rw [hnext] at hgo
      -- wherever the loop goes has been in the list
      have hnull : flink ≠ 0 := by
        rw [← BitVec.sub_add_cancel flink linkOffset]
        rcases hgo with ⟨hstart, -⟩ | ⟨-, ⟨v, -, -, hv⟩, -⟩
        · refine (κ t₂).node_ne_zero ((κ t₂).mem_visited.mpr (.inl ?_))
          rw [hstart, ← (same_frame hpass (Nat.zero_le t₂) hT₂).1]
          exact List.mem_cons_self
        · exact (κ v).node_ne_zero hv
      refine .ite (fun h => absurd h hnull) fun _ => .ite (fun hstart => ?_) fun hstart => ?_
      · rcases hgo with ⟨-, hgone⟩ | ⟨hne, -⟩
        · exact ⟨found_none hs₂ hT₂ fun q hq hqid => hgone q ⟨hq, hqid⟩, hsome _⟩
        · exact absurd hstart hne
      · rcases hgo with ⟨heq, -⟩ | ⟨-, hseen, hlt, hclear'⟩
        · exact absurd heq hstart
        · refine Prog.Wp.mono (fun _ _ h => h) (fun o t' ho => ⟨ho.1, fun hlen => ho.2 ?_⟩)
            (ih hs₂ hT₂ hseen hclear')
          omega

end

/-! The call. -/

section
variable {u : Text.Unicode} {dec : StructureOffset.InstructionDecoder} {pidOffset : BitVec 64}
  {b : BitVec 32} {κ : Nat → Moment pidOffset (getActiveProcessLinksOffset b)} {T : Nat}
  (hpass : ∀ t < T, (κ t).Passes (κ (t + 1)))
include hpass

omit hpass in
/-- A load from a filled cache is all that its lookup does. -/
theorem searchProcessIdOffset_wp (hoff : pidOffset ≠ 0) {t : Nat} (ht : t ≤ T) :
    (searchProcessIdOffset u dec).Wp (Serves κ b T) (Asked T)
      (fun o t' => o = .ok (some pidOffset) ∧ t ≤ t' ∧ t' ≤ T) t := by
  refine ⟨ht, fun (cached : BitVec 64) t' h => ?_⟩
  obtain ⟨rfl, ht', hT'⟩ := h
  exact .ite (fun _ => ⟨rfl, ht', hT'⟩) fun hzero => absurd hoff hzero

theorem getInitialSystemProcess_wp (hsys : (κ 0).list.system ≠ 0) {t : Nat} (ht : t ≤ T) :
    (getInitialSystemProcess u).Wp (Serves κ b T) (Asked T)
      (fun o t' => o = .ok (κ 0).list.system ∧ t ≤ t' ∧ t' ≤ T) t := by
  refine ⟨ht, fun (cached : BitVec 64) t' h => ?_⟩
  obtain ⟨hcached, ht', hT'⟩ := h
  rw [(same_frame hpass (Nat.zero_le t') hT').1] at hcached
  subst hcached
  exact .ite (fun _ => ⟨rfl, ht', hT'⟩) fun hzero => absurd hsys hzero

theorem getProcessById_wp (hsys : (κ 0).list.system ≠ 0) (hoff : pidOffset ≠ 0) {s : Nat}
    (hs : s ≤ T) (pid : BitVec 32) (fuel : Nat) :
    (getProcessById u dec pid fuel).Wp (Serves κ b T) (Asked T)
      (fun o t' => Found κ T s t' (pid.setWidth 64) o ∧
        ((κ T).all.length ≤ fuel → o ≠ .ok none)) s := by
  refine .bind (getInitialSystemProcess_wp hpass hsys hs) (fun system t₁ h₁ => ?_)
    (fun e t h => by cases h.1) fun t h => by cases h.1
  obtain ⟨hsystem, ht₁, hT₁⟩ := h₁
  obtain rfl := Outcome.ok.inj hsystem
  refine .bind (searchProcessIdOffset_wp hoff hT₁) (fun offset t₂ h₂ => ?_)
    (fun e t h => by cases h.1) fun t h => by cases h.1
  obtain ⟨hoffset, ht₂, hT₂⟩ := h₂
  obtain rfl := Outcome.ok.inj hoffset
  refine ⟨hT₂, fun (dwBuildNumber : BitVec 32) t₃ h₃ => ?_⟩
  obtain ⟨rfl, ht₃, hT₃⟩ := h₃
  have hst := ht₁.trans (ht₂.trans ht₃)
  have hperiod := period hpass
  refine Prog.Wp.mono (fun _ _ h => h) (fun o t' ho => ⟨ho.1, fun hlen => ho.2 ?_⟩)
    (processLoop_wp hpass hst hT₃ ⟨s, Nat.le_refl _, hst, hperiod.start_mem hs⟩
      ((hperiod.clear_start hs).mono hst))
  exact Nat.le_add_left_of_le hlen

end

/-- **A search while processes come and go.** With a turn for each process there has been and
    one for the head, the loop ends. The EPROCESS it returns was in the list, with that
    identifier, at some moment of the call, or is the list head taken for one. A process with
    the identifier that is in the list all along is not missed, and none but it is returned. -/
theorem getProcessById_race (u : Text.Unicode) (dec : StructureOffset.InstructionDecoder)
    (pidOffset : BitVec 64) (b : BitVec 32)
    (κ : Nat → Moment pidOffset (getActiveProcessLinksOffset b)) (T : Nat)
    (hpass : ∀ t < T, (κ t).Passes (κ (t + 1))) (hsys : (κ 0).list.system ≠ 0)
    (hoff : pidOffset ≠ 0) (pid : BitVec 32) (fuel s t' : Nat) (hs : s ≤ T)
    (o : Outcome SearchError (Option (Option (BitVec 64))))
    (hexec : (getProcessById u dec pid fuel).Exec (Serves κ b T) s o t') :
    ∃ res, o = .ok res ∧ ((κ T).all.length ≤ fuel → res ≠ none) ∧
      (∀ p, res = some (some p) → ∃ v, s ≤ v ∧ v ≤ t' ∧ (κ v).id p = pid.setWidth 64 ∧
        (p ∈ (κ v).list.processes ∨ p = (κ v).list.bogus)) ∧
      ∀ p, (∀ v, s ≤ v → v ≤ t' → p ∈ (κ v).list.processes) → (κ s).id p = pid.setWidth 64 →
        res ≠ some none ∧ ∀ q, res = some (some q) → q = p ∨ q = (κ s).list.bogus := by
  obtain ⟨hfound, hlen⟩ := (Prog.wp_iff.mp
    (@getProcessById_wp u dec pidOffset b κ T hpass hsys hoff s hs pid fuel)).2 o t' hexec
  obtain ⟨res, rfl⟩ := hfound.ends
  have hsome : ∀ q, res = some (some q) → ∃ v, s ≤ v ∧ v ≤ t' ∧ (κ v).id q = pid.setWidth 64 ∧
      (q ∈ (κ v).list.processes ∨ q = (κ v).list.bogus) := by
    intro q hq
    obtain ⟨v, hsv, hvt, hv, hid⟩ := hfound.found q (congrArg Outcome.ok hq)
    exact ⟨v, hsv, hvt, hid, (κ v).mem_visited.mp hv⟩
  refine ⟨res, rfl, fun hfuel hres => hlen hfuel (congrArg Outcome.ok hres), hsome,
    fun p hp hid => ⟨fun hres => ?_, fun q hq => ?_⟩⟩
  · refine hfound.missed (congrArg Outcome.ok hres) p (hp s (Nat.le_refl _) hfound.later.1) hid ?_
    exact fun v hsv hvt => (κ v).mem_visited.mpr (.inl (hp v hsv hvt))
  · obtain ⟨v, hsv, hvt, hidq, hq⟩ := hsome q hq
    have hvT := hvt.trans hfound.later.2
    rcases hq with hq | hq
    · -- the two have one identifier at one moment
      have hsame := id_later hpass hsv hvT
        ((κ s).processes_mem (hp s (Nat.le_refl _) hfound.later.1))
      exact .inl ((κ v).list.eq_of_id hq (hp v hsv hvt) (hidq.trans (hsame.trans hid).symm))
    · exact .inr (hq.trans (same_frame hpass hsv hvT).2.1)

/-! A list of three, of which the second exits. -/

/-- The links of the three and of the head, and the identifiers of the second and third. -/
def threeMem : Mem 64 :=
  writeWord (writeWord (writeWord (writeWord (writeWord (writeWord (fun _ => 0)
    0x101D8#64 0x201D8#64) 0x201D8#64 0x301D8#64) 0x301D8#64 0x40000#64) 0x40000#64 0x101D8#64)
    0x201D0#64 8#64) 0x301D0#64 12#64

def threeExited : Mem 64 := writeWord threeMem 0x101D8#64 0x301D8#64

def threeProcesses : List (BitVec 64) := [0x10000#64, 0x20000#64, 0x30000#64]

def exiting : Nat → Moment 0x1D0#64 (getActiveProcessLinksOffset 26100#32)
  | 0 => ⟨threeMem, ⟨0x10000#64, [0x20000#64, 0x30000#64], 0x40000#64, [], by decide, by decide,
      by decide, by decide⟩, threeProcesses, [], by decide, by decide, by decide⟩
  | _ => ⟨threeExited, ⟨0x10000#64, [0x30000#64], 0x40000#64, [], by decide, by decide,
      by decide, by decide⟩, threeProcesses, [], by decide, by decide, by decide⟩

theorem three_ids : ∀ p ∈ threeProcesses,
    uniqueProcessId threeExited 0x1D0#64 p = uniqueProcessId threeMem 0x1D0#64 p := by
  intro p hp
  simp only [threeProcesses, List.mem_cons, List.not_mem_nil, or_false] at hp
  rcases hp with rfl | rfl | rfl
  · decide
  · decide
  · decide

theorem three_links : ∀ p ∈ threeProcesses, p ≠ 0x10000#64 →
    nextProcess threeExited 0x1D8#64 p = nextProcess threeMem 0x1D8#64 p := by
  intro p hp hne
  simp only [threeProcesses, List.mem_cons, List.not_mem_nil, or_false] at hp
  rcases hp with rfl | rfl | rfl
  · exact absurd rfl hne
  · decide
  · decide

theorem exiting_passes : ∀ t < 1, (exiting t).Passes (exiting (t + 1)) := by
  intro t ht
  obtain rfl := Nat.lt_one_iff.mp ht
  have hall : (exiting 0).came ++ (exiting 0).behind = threeProcesses := List.append_nil _
  refine ⟨rfl, rfl, List.prefix_rfl, rfl, fun p hp => ?_, fun p hp hgone => ?_⟩
  · exact three_ids p (hall ▸ hp)
  · exact three_links p (hall ▸ hp) fun h => hgone (h ▸ List.mem_cons_self)

theorem serves_total {pidOffset linkOffset : BitVec 64} {κ : Nat → Moment pidOffset linkOffset}
    {b : BitVec 32} {T : Nat} (t : Nat) (q : StepReq) (h : Asked T t q) :
    ∃ r t', Serves κ b T t q r t' := by
  cases q with
  | load cache =>
    cases cache with
    | psInitialSystemProcess => exact ⟨_, t, rfl, Nat.le_refl _, h⟩
    | processIdOffset => exact ⟨_, t, rfl, Nat.le_refl _, h⟩
    | pebOffset => exact h.elim
    | processImageBaseOffset => exact h.elim
  | store cache value => exact h.elim
  | system q =>
    cases q with
    | readPointer a => exact ⟨_, t, rfl, Nat.le_refl _, h⟩
    | zwQuerySystemInformation length => exact h.elim
    | rtlFindExportedRoutineByName imageBase routineName => exact h.elim
    | copy a n => exact h.elim
  | rtlGetVersion => exact ⟨_, t, rfl, Nat.le_refl _, h⟩

/-- The third process is found, whenever the second exits. -/
theorem getProcessById_race_exiting : ∃ o t',
    (getProcessById fixtureUnicode StructureOffset.moveDecoder 12#32 4).Exec
      (Serves exiting 26100#32 1) 0 o t' ∧
    (o = .ok (some (some 0x30000#64)) ∨ o = .ok (some (some 0x3FE28#64))) := by
  have hsys : (exiting 0).list.system ≠ 0 := by decide
  obtain ⟨o, t', hexec, hfound, -⟩ := Prog.exec_of_wp serves_total
    (@getProcessById_wp fixtureUnicode StructureOffset.moveDecoder _ 26100#32 exiting 1
      exiting_passes hsys (by decide) 0 (Nat.zero_le _) 12#32 4)
  obtain ⟨res, rfl, hends, -, hstays⟩ := getProcessById_race fixtureUnicode
    StructureOffset.moveDecoder 0x1D0#64 26100#32 exiting 1 exiting_passes hsys (by decide)
    12#32 4 0 t' (Nat.zero_le _) o hexec
  have hthird : ∀ v, 0x30000#64 ∈ (exiting v).list.processes := by
    intro v
    cases v with
    | zero => decide
    | succ v => exact (by decide : 0x30000#64 ∈ (exiting 1).list.processes)
  obtain ⟨hsome, honly⟩ := hstays 0x30000#64 (fun v _ _ => hthird v) (by decide)
  refine ⟨_, t', hexec, ?_⟩
  cases res with
  | none => exact absurd rfl (hends (by decide))
  | some found =>
    cases found with
    | none => exact absurd rfl hsome
    | some q =>
      rcases honly q rfl with rfl | rfl
      · exact .inl rfl
      · exact .inr rfl

end ProcessCalls
end WinKernl
