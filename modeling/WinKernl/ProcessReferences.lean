import WinKernl.Lib.Shares
import WinKernl.CopyHelpers

/- The references of the copies between processes (`memory/rw.rs`), with many threads.

   `PsLookupProcessByProcessId` takes a reference to the process object, and
   `ObfDereferenceObject` gives it back; an object without references goes away when its
   process has exited, and its address is used again (`System.Passes`). Each request of a copy
   is a step here: between any two of them processes start and exit, and other threads take
   and give back references to the same object. What a thread may rely on is the number of
   references it holds itself (`Holding`). -/
namespace WinKernl.ProcessReferences
open Ask Interleave Shares

/-! What a client asks. -/

inductive CopyCall where
  | read (pid addr : BitVec 64) (out : Slice)
  | write (pid addr : BitVec 64) (buffer : Slice)

abbrev Client (ε α : Type) := Prog CopyCall (fun _ => Except NtStatus Unit) ε α

def perform {ε : Type} : CopyCall → CopyProg ε (Except NtStatus Unit)
  | .read pid addr out => (mmReadVirtualMemoryFromPid pid addr out).attempt
  | .write pid addr buffer => (mmWriteVirtualMemoryFromPid pid addr buffer).attempt

/-! The references of one thread. -/

/-- The process a thread runs in, and how many references it holds to each object. -/
structure Holding where
  current : BitVec 64
  refs : BitVec 64 → Nat

def Holding.take (t : Holding) (p : BitVec 64) : Holding :=
  { t with refs := Function.update t.refs p (t.refs p + 1) }

def Holding.give (t : Holding) (p : BitVec 64) : Holding :=
  { t with refs := Function.update t.refs p (t.refs p - 1) }

/-- The object cannot go away. -/
def Holding.Keeps (t : Holding) (p : BitVec 64) : Prop := p = t.current ∨ t.refs p ≠ 0

/-- What a request does to the references of the thread that makes it. -/
def Holding.after (t : Holding) : (q : CopyReq) → q.Answer → Holding
  | .psLookupProcessByProcessId _, (lookup : Lookup) =>
    if ntSuccess lookup.status then t.take lookup.process else t
  | .obfDereferenceObject object, _ => t.give object
  | _, _ => t

def Holding.Serves : Server Holding CopyReq CopyReq.Answer
  | t, .psGetCurrentProcess, (r : BitVec 64), t' => r = t.current ∧ t' = t
  | t, q, r, t' => t' = t.after q r

/-- A copy names objects that cannot go away, and a reference is given back by who has it. -/
def Holding.Permits : Holding → CopyReq → Prop
  | t, .mmCopyVirtualMemory args => t.Keeps args.fromProcess ∧ t.Keeps args.toProcess
  | t, .obfDereferenceObject object => t.refs object ≠ 0
  | _, _ => True

theorem Holding.give_take (t : Holding) (p : BitVec 64) : (t.take p).give p = t := by
  simp [Holding.take, Holding.give]

theorem Holding.of_take {t : Holding} {p q : BitVec 64} (h : (t.take p).refs q ≠ 0) :
    q = p ∨ t.refs q ≠ 0 := by
  by_cases hq : q = p
  · exact .inl hq
  · exact .inr (by simpa [Holding.take, hq] using h)

theorem Holding.of_give {t : Holding} {p q : BitVec 64} (h : (t.give p).refs q ≠ 0) :
    t.refs q ≠ 0 := by
  by_cases hq : q = p
  · subst hq
    intro hzero
    simp [Holding.give, hzero] at h
  · simpa [Holding.give, hq] using h

theorem Holding.take_keeps (t : Holding) {p q : BitVec 64} (hq : q ∈ [p, t.current]) :
    (t.take p).Keeps q := by
  rcases List.mem_cons.mp hq with rfl | hq
  · right
    simp [Holding.take]
  · exact .inl (List.mem_singleton.mp hq)

theorem checkCopied_wp {post : Outcome NtStatus Unit → Holding → Prop} {t : Holding}
    (len : BitVec 64) (r : Copied) (h : ∀ o, o ≠ .panic → post o t) :
    (checkCopied len r).Wp Holding.Serves Holding.Permits post t := by
  unfold checkCopied
  refine .ite (fun _ => h _ ?_) fun _ => .ite (fun _ => h _ ?_) fun _ =>
    .ite (fun _ => h _ ?_) fun _ => h _ ?_
  all_goals exact fun hpanic => by cases hpanic

/-- A copy gives back what it takes, and names nothing else but the process it runs in. -/
theorem copyWithPid_wp {pid len : BitVec 64} {args : (process current : BitVec 64) → CopyArgs}
    (hargs : ∀ p c, (args p c).fromProcess ∈ [p, c] ∧ (args p c).toProcess ∈ [p, c])
    (t : Holding) : (copyWithPid pid len args).Wp Holding.Serves Holding.Permits
      (fun o t' => o ≠ .panic ∧ t' = t) t := by
  refine ⟨trivial, fun (lookup : Lookup) t₁ ht => .ite (fun hfail => ?_) fun hok => ?_⟩
  · have hstatus : ntSuccess lookup.status ≠ true := by simpa using hfail
    exact ⟨(fun hpanic => by cases hpanic), ht.trans (if_neg hstatus)⟩
  · have hstatus : ntSuccess lookup.status = true := by simpa using hok
    obtain rfl : t₁ = t.take lookup.process := ht.trans (if_pos hstatus)
    refine ⟨trivial, fun (current : BitVec 64) t₂ hcurrent => ?_⟩
    obtain ⟨rfl, rfl⟩ := hcurrent
    obtain ⟨hfrom, hto⟩ := hargs lookup.process t.current
    refine ⟨⟨t.take_keeps hfrom, t.take_keeps hto⟩, fun (r : Copied) t₃ ht => ?_⟩
    obtain rfl : t₃ = t.take lookup.process := ht
    have hheld : (t.take lookup.process).refs lookup.process ≠ 0 := by simp [Holding.take]
    refine ⟨hheld, fun _ t₄ ht => ?_⟩
    obtain rfl : t₄ = t := ht.trans (t.give_take lookup.process)
    exact checkCopied_wp len r fun o ho => ⟨ho, rfl⟩

theorem perform_wp {ε : Type} (q : CopyCall) (t : Holding) :
    (perform q : CopyProg ε (Except NtStatus Unit)).Wp Holding.Serves Holding.Permits
      (fun o t' => ∃ r, o = .ok r ∧ t' = t) t := by
  have hattempt : ∀ p : CopyProg NtStatus Unit, p.Wp Holding.Serves Holding.Permits
      (fun o t' => o ≠ .panic ∧ t' = t) t → (p.attempt : CopyProg ε (Except NtStatus Unit)).Wp
        Holding.Serves Holding.Permits (fun o t' => ∃ r, o = .ok r ∧ t' = t) t := by
    intro p hp
    refine Prog.wp_attempt.mpr (Prog.Wp.mono (fun _ _ h => h) (fun o t' ho => ?_) hp)
    cases o with
    | ok a => exact ⟨.ok a, rfl, ho.2⟩
    | err e => exact ⟨.error e, rfl, ho.2⟩
    | panic => exact absurd rfl ho.1
  cases q with
  | read pid addr out => exact hattempt _ (copyWithPid_wp (fun _ _ => by simp) t)
  | write pid addr buffer => exact hattempt _ (copyWithPid_wp (fun _ _ => by simp) t)

/-- A client holds at its end what it held at its start. -/
theorem client_wp {ε α : Type} (client : Client ε α) (t : Holding) :
    (client.via perform).Wp Holding.Serves Holding.Permits (fun _ t' => t' = t) t := by
  induction client with
  | ok a => exact rfl
  | err e => exact rfl
  | panic => exact rfl
  | ask q k ih =>
    refine .bind (perform_wp q t) (fun r t' hr => ?_) (fun e t' hr => ?_) fun t' hr => ?_
    · obtain ⟨r', -, rfl⟩ := hr
      exact ih r
    · obtain ⟨r', -, ht⟩ := hr
      exact ht
    · obtain ⟨r', -, ht⟩ := hr
      exact ht

/-! All threads. -/

/-- The running processes by their identifiers, the objects there are, and the references
    that each thread holds. -/
structure System (ι : Type) where
  pids : BitVec 64 → Option (BitVec 64)
  objects : BitVec 64 → Prop
  refs : ι → BitVec 64 → Nat

section
variable {ι : Type} (current : ι → BitVec 64)

def System.holding (s : System ι) (i : ι) : Holding := ⟨current i, s.refs i⟩

/-- An object is there while a process has it, a thread holds it or runs in it. -/
structure System.Sound (s : System ι) : Prop where
  running : ∀ pid p, s.pids pid = some p → s.objects p
  held : ∀ i p, s.refs i p ≠ 0 → s.objects p
  own : ∀ i, s.objects (current i)

/-- Processes start and exit, and objects come and go with them. -/
def System.Passes (s s' : System ι) : Prop := s'.Sound current ∧ s'.refs = s.refs

/-- A lookup that succeeds finds the process that has the identifier. -/
def System.Finds (s : System ι) : (q : CopyReq) → q.Answer → Prop
  | .psLookupProcessByProcessId pid, (lookup : Lookup) =>
    ntSuccess lookup.status = true → s.pids pid = some lookup.process
  | _, _ => True

/-- A request of thread `i`, after whatever has happened before it. -/
def System.Serves (i : ι) : Server (System ι) CopyReq CopyReq.Answer := fun s q r s' =>
  ∃ t : System ι, s.Passes current t ∧ t.Finds q r ∧
    (t.holding current i).Serves q r (s'.holding current i) ∧
    s'.pids = t.pids ∧ s'.objects = t.objects ∧ ∀ j, j ≠ i → s'.refs j = t.refs j

variable {current} {i : ι} {s s' t : System ι}

theorem serves_after {u u' : Holding} {q : CopyReq} {r : q.Answer} (h : u.Serves q r u') :
    u' = u.after q r := by
  cases q with
  | psGetCurrentProcess => exact h.2
  | _ => exact h

/-- A request leaves no reference to an object that is not there. -/
theorem after_held (ht : t.Sound current) {q : CopyReq} {r : q.Answer} (hfinds : t.Finds q r)
    {p : BitVec 64} (h : ((t.holding current i).after q r).refs p ≠ 0) : t.objects p := by
  cases q with
  | psLookupProcessByProcessId pid =>
    rw [Holding.after] at h
    split at h
    · next hstatus =>
      rcases Holding.of_take h with rfl | h
      · exact ht.running pid _ (hfinds hstatus)
      · exact ht.held i p h
    · exact ht.held i p h
  | obfDereferenceObject object => exact ht.held i p (Holding.of_give h)
  | _ => exact ht.held i p h

theorem splits : Splits (System.Serves current) Holding.Serves (fun _ => Holding.Permits)
    (fun i s t => s.holding current i = t) (System.Sound current) := by
  intro i s v q r s' _ hpart _ hserved
  obtain ⟨t, ⟨ht, hrefs⟩, hfinds, hown, hpids, hobjects, hothers⟩ := hserved
  have hheld : ∀ j, t.holding current j = s.holding current j := by
    intro j
    rw [System.holding, System.holding, hrefs]
  refine ⟨⟨fun pid p hp => ?_, fun j p hp => ?_, fun j => ?_⟩, ⟨_, ?_, rfl⟩, fun j hij => ?_⟩
  · rw [hobjects]
    exact ht.running pid p (hpids ▸ hp)
  · rw [hobjects]
    by_cases hij : j = i
    · subst hij
      have hafter : s'.refs j = ((t.holding current j).after q r).refs :=
        congrArg Holding.refs (serves_after hown)
      exact after_held ht hfinds (hafter ▸ hp)
    · exact ht.held j p (hothers j hij ▸ hp)
  · rw [hobjects]
    exact ht.own j
  · rw [← hpart i, ← hheld i]
    exact hown
  · calc s'.holding current j
        _ = t.holding current j := congrArg (Holding.mk (current j)) (hothers j hij)
        _ = s.holding current j := hheld j
        _ = v j := hpart j

/-- **References.** Whatever copies the threads make, and in whatever order their requests
    come while processes start and exit: a copy names only objects that are there, and so
    does the release of a reference, which its thread holds. A thread that has ended holds
    what it held when it began. -/
theorem references_safe [DecidableEq ι] {ε α : Type} (clients : ι → Client ε α) (s₀ : System ι)
    (hs₀ : s₀.Sound current) (turns : List ι) (s : State ι (System ι) CopyReq CopyReq.Answer ε α)
    (hrun : Turns (System.Serves current) ⟨s₀, fun i => (clients i).via perform⟩ turns s) :
    (∀ i args k, s.threads i = .ask (.mmCopyVirtualMemory args) k →
      s.shared.objects args.fromProcess ∧ s.shared.objects args.toProcess) ∧
    (∀ i object k, s.threads i = .ask (.obfDereferenceObject object) k →
      s.shared.refs i object ≠ 0 ∧ s.shared.objects object) ∧
    ∀ i o, s.threads i = ended o → s.shared.refs i = s₀.refs i := by
  have hkept : EachRight Holding.Serves (fun _ => Holding.Permits)
      (fun i s t => s.holding current i = t)
      (System.Sound current) (fun i _ t => t = s₀.holding current i) s :=
    turns_kept splits
      ⟨hs₀, fun i => s₀.holding current i, fun i => ⟨rfl, client_wp (clients i) _⟩⟩ hrun
  have hkeeps : ∀ i p, (s.shared.holding current i).Keeps p → s.shared.objects p := by
    intro i p hp
    rcases hp with rfl | hp
    · exact hkept.1.own i
    · exact hkept.1.held i p hp
  refine ⟨fun i args k hask => ?_, fun i object k hask => ?_, fun i o hend => ?_⟩
  · obtain ⟨t, rfl, hfrom, hto⟩ := hkept.asking hask
    exact ⟨hkeeps i _ hfrom, hkeeps i _ hto⟩
  · obtain ⟨t, rfl, hheld⟩ := hkept.asking hask
    exact ⟨hheld, hkept.1.held i object hheld⟩
  · obtain ⟨t, ht, hpost⟩ := hkept.ended hend
    exact congrArg Holding.refs (ht.trans hpost)

end

/-! Two threads read a process that exits in between. -/

def readers : Bool → Client Empty (Except NtStatus Unit) := fun _ =>
  .ask (.read 4#64 0x1000#64 ⟨0x2000#64, 8#64⟩) fun r => .ok r

def systemProcess : BitVec 64 := 0xFFFF800000001000#64

/-- One object, which both threads run in; the process with identifier 4 has it while it runs,
    and the first thread holds it `n` times. -/
def oneProcess (runs : Bool) (n : Nat) : System Bool where
  pids := fun pid => if runs = true ∧ pid = 4#64 then some systemProcess else none
  objects := fun p => p = systemProcess
  refs := fun i p => if i = false ∧ p = systemProcess then n else 0

theorem oneProcess_sound (runs : Bool) (n : Nat) :
    (oneProcess runs n).Sound fun _ => systemProcess := by
  refine ⟨fun pid p hp => ?_, fun i p hp => ?_, fun _ => rfl⟩
  · by_cases hpid : runs = true ∧ pid = 4#64
    · exact (Option.some.inj ((if_pos hpid).symm.trans hp)).symm
    · exact absurd ((if_neg hpid).symm.trans hp).symm (Option.some_ne_none p)
  · by_contra hne
    have hnot : ¬ (i = false ∧ p = systemProcess) := fun h => hne h.2
    exact hp (if_neg hnot)

/-- The lookup takes a reference. -/
theorem oneProcess_take (runs : Bool) (n : Nat) :
    ((oneProcess runs n).holding (fun _ => systemProcess) false).take systemProcess =
      (oneProcess runs (n + 1)).holding (fun _ => systemProcess) false := by
  refine congrArg (Holding.mk systemProcess) (funext fun p => ?_)
  by_cases hp : p = systemProcess
  · subst hp
    exact Function.update_self ..
  · refine (Function.update_of_ne hp ..).trans ?_
    simp [System.holding, oneProcess, hp]

/-- A request of the first thread, which may change how often it holds the process. -/
theorem first_serves {runs runs' : Bool} {n n' : Nat} {q : CopyReq} {r : q.Answer}
    (hfinds : (oneProcess runs' n).Finds q r)
    (hserved : ((oneProcess runs' n).holding (fun _ => systemProcess) false).Serves q r
      ((oneProcess runs' n').holding (fun _ => systemProcess) false)) :
    System.Serves (fun _ => systemProcess) false (oneProcess runs n) q r (oneProcess runs' n') := by
  refine ⟨oneProcess runs' n, ⟨oneProcess_sound runs' n, rfl⟩, hfinds, hserved, rfl, rfl,
    fun j hj => ?_⟩
  obtain rfl : j = true := by simpa using hj
  rfl

theorem lookup_serves : System.Serves (fun _ => systemProcess) false (oneProcess true 0)
    (.psLookupProcessByProcessId 4#64) (⟨0, systemProcess⟩ : Lookup) (oneProcess true 1) :=
  first_serves (fun _ => rfl) (oneProcess_take true 0).symm

/-- The process has exited when the thread goes on. -/
theorem current_serves : System.Serves (fun _ => systemProcess) false (oneProcess true 1)
    .psGetCurrentProcess systemProcess (oneProcess false 1) :=
  first_serves trivial ⟨rfl, rfl⟩

/-- What a lookup answers that finds no process. -/
def statusInvalidCid : NtStatus := 0xC000000B#32

theorem late_serves : System.Serves (fun _ => systemProcess) true (oneProcess false 1)
    (.psLookupProcessByProcessId 4#64) (⟨statusInvalidCid, 0⟩ : Lookup) (oneProcess false 1) :=
  ⟨oneProcess false 1, ⟨oneProcess_sound false 1, rfl⟩,
    fun h => absurd h (by decide : ¬ ntSuccess statusInvalidCid = true), rfl, rfl, rfl,
    fun _ _ => rfl⟩

def readersCopy : CopyArgs :=
  ⟨systemProcess, 0x1000#64, systemProcess, 0x2000#64, 8#64, 0⟩

theorem copy_serves : System.Serves (fun _ => systemProcess) false (oneProcess false 1)
    (.mmCopyVirtualMemory readersCopy) (⟨0, 8#64⟩ : Copied) (oneProcess false 1) :=
  first_serves trivial rfl

theorem dereference_serves : System.Serves (fun _ => systemProcess) false (oneProcess false 1)
    (.obfDereferenceObject systemProcess) () (oneProcess false 0) := by
  refine first_serves trivial ?_
  have hgive := Holding.give_take
    ((oneProcess false 0).holding (fun _ => systemProcess) false) systemProcess
  rw [oneProcess_take] at hgive
  exact hgive.symm

def readersStart : State Bool (System Bool) CopyReq CopyReq.Answer Empty (Except NtStatus Unit) :=
  ⟨oneProcess true 0, fun i => (readers i).via perform⟩

/-- The first thread looks the process up, and the process exits. The second finds it no
    more, and ends. The first copies, gives its reference back, and ends. -/
theorem readers_run : ∃ s₁ s₂ s₃,
    Turns (System.Serves fun _ => systemProcess) readersStart [false, false, true] s₁ ∧
    Turn (System.Serves fun _ => systemProcess) s₁ false s₂ ∧
    Turn (System.Serves fun _ => systemProcess) s₂ false s₃ ∧
    (∃ k, s₁.threads false = .ask (.mmCopyVirtualMemory readersCopy) k) ∧
    s₁.shared.pids 4#64 = none ∧
    s₁.threads true = ended (.ok (.error statusInvalidCid)) ∧
    (∃ k, s₂.threads false = .ask (.obfDereferenceObject systemProcess) k) ∧
    s₃.threads false = ended (.ok (.ok ())) :=
  ⟨⟨oneProcess false 1, _⟩, ⟨oneProcess false 1, _⟩, ⟨oneProcess false 0, _⟩,
    ⟨⟨oneProcess true 1, _⟩, ⟨.psLookupProcessByProcessId 4#64, _, (⟨0, systemProcess⟩ : Lookup),
        rfl, lookup_serves, rfl⟩,
      ⟨oneProcess false 1, _⟩, ⟨.psGetCurrentProcess, _, systemProcess, rfl, current_serves, rfl⟩,
      ⟨oneProcess false 1, _⟩, ⟨.psLookupProcessByProcessId 4#64, _,
        (⟨statusInvalidCid, 0⟩ : Lookup), rfl, late_serves, rfl⟩, rfl⟩,
    ⟨.mmCopyVirtualMemory readersCopy, _, (⟨0, 8#64⟩ : Copied), rfl, copy_serves, rfl⟩,
    ⟨.obfDereferenceObject systemProcess, _, (), rfl, dereference_serves, rfl⟩,
    ⟨_, rfl⟩, rfl, rfl, ⟨_, rfl⟩, rfl⟩

theorem references_safe_readers : ∃ s₁ s₂ s₃,
    Turns (System.Serves fun _ => systemProcess) readersStart [false, false, true] s₁ ∧
    Turns (System.Serves fun _ => systemProcess) readersStart [false, false, true, false] s₂ ∧
    Turns (System.Serves fun _ => systemProcess) readersStart
      [false, false, true, false, false] s₃ ∧
    -- the copy, of a process that has exited
    s₁.shared.pids 4#64 = none ∧ s₁.shared.objects readersCopy.fromProcess ∧
      s₁.shared.objects readersCopy.toProcess ∧
    -- the release
    s₂.shared.refs false systemProcess ≠ 0 ∧ s₂.shared.objects systemProcess ∧
    -- both have ended
    s₁.threads true = ended (.ok (.error statusInvalidCid)) ∧ s₁.shared.refs true = (fun _ => 0) ∧
      s₃.threads false = ended (.ok (.ok ())) ∧ s₃.shared.refs false systemProcess = 0 := by
  obtain ⟨s₁, s₂, s₃, hrun₁, hcopied, hreleased, ⟨k, hcopy⟩, hexited, hlate, ⟨k', hrelease⟩,
    hend⟩ := readers_run
  have hrun₂ := hrun₁.snoc hcopied
  have hrun₃ := hrun₂.snoc hreleased
  have hsound := oneProcess_sound true 0
  obtain ⟨hcopies, -, hends₁⟩ := references_safe readers _ hsound _ s₁ hrun₁
  obtain ⟨-, hreleases, -⟩ := references_safe readers _ hsound _ s₂ hrun₂
  obtain ⟨-, -, hends₃⟩ := references_safe readers _ hsound _ s₃ hrun₃
  obtain ⟨hfrom, hto⟩ := hcopies false _ k hcopy
  obtain ⟨hheld, hthere⟩ := hreleases false _ k' hrelease
  exact ⟨s₁, s₂, s₃, hrun₁, hrun₂, hrun₃, hexited, hfrom, hto, hheld, hthere, hlate,
    hends₁ true _ hlate, hend, congrFun (hends₃ false _ hend) systemProcess⟩

end WinKernl.ProcessReferences
