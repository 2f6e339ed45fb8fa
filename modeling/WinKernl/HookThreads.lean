import WinKernl.SharedKernel

/- Hooks on several threads (`khook.rs`).

   Every thread creates, enables, disables and drops hooks of its own, in code that no other
   thread hooks, and chooses what to do next by what came of it. All take their stubs from
   one pool and write through descriptor lists of one kernel. The operations are cut into
   their requests, which come in any order. A hook never reads or describes code but that of
   its own windows (`perform_asks`), so each thread is on its part of the kernel as it is
   alone (`hooks_threads`). -/
namespace WinKernl
open ByteMem Ask Interleave Shares X86

namespace HookKernel
open KHook (windowSize)

/-! What the operations ask. -/

section
variable {mine : BitVec 64 → Prop} {ε α : Type}

theorem onSlice_asks (p : SliceProg Byte α) : (onSlice p : HookProg ε α).Asks (Stays mine) := by
  refine Prog.Asks.via (P := fun _ => True) (fun q _ => ?_)
    (Prog.asks_of_forall (fun _ => trivial) _)
  exact ⟨trivial, fun _ => trivial⟩

theorem onMdl_asks {p : MdlProg α} (hp : p.Asks fun q => Stays mine (.mdl q)) :
    (onMdl p : HookProg ε α).Asks (Stays mine) := by
  refine Prog.Asks.via (fun q hq => ?_) (hp.mapErr Empty.elim)
  exact ⟨hq, fun _ => trivial⟩

/-- Only the list that is made for the destination names code. -/
theorem write_asks {dst : VirtAddr} {src : List Byte}
    (hdst : ∀ x, Within dst.val src.length x → mine x) :
    (writeToReadOnlyMemory dst src).Asks fun q => Stays mine (.mdl q) := by
  by_cases h0 : dst.val = 0 ∨ src.length = 0
  · rw [writeToReadOnlyMemory, if_pos h0]
    trivial
  rw [write_eq dst src h0]
  refine ⟨fun x hx => hdst x (hx.mono ?_), fun mdl => .ite trivial ⟨trivial, fun _ =>
    ⟨trivial, fun base => .ite ?_ ?_⟩⟩⟩
  · rw [mdlLength_toNat]
    exact Nat.mod_le _ _
  · exact ⟨trivial, fun _ => ⟨trivial, fun _ => trivial⟩⟩
  · exact ⟨trivial, fun _ => ⟨trivial, fun _ => ⟨trivial, fun _ => ⟨trivial, fun _ =>
      ⟨trivial, fun _ => trivial⟩⟩⟩⟩⟩

theorem new_asks (env : Env) {src : VirtAddr} (dst : BitVec 64)
    (hsrc : ∀ x, Within src.val windowSize x → mine x) : (new env src dst).Asks (Stays mine) := by
  refine ⟨hsrc, fun srcSlice => ?_⟩
  dsimp only
  cases decodePrologue env src.val srcSlice with
  | error e => trivial
  | ok r =>
    refine (onSlice_asks _).bind fun stub => ?_
    cases stub with
    | none => trivial
    | some stub =>
      show (relocate env src dst r.1 r.2 stub).Asks (Stays mine)
      rw [relocate]
      cases env.encode r.1 stub.ptr with
      | none => exact ⟨trivial, fun _ => trivial⟩
      | some res => exact .ite trivial ⟨trivial, fun _ => .ite trivial ⟨trivial, fun _ =>
          ⟨hsrc, fun _ => trivial⟩⟩⟩

theorem enable_asks {h : KHook} (hin : ∀ x, Within h.src.val windowSize x → mine x) :
    (enable h).Asks (Stays mine) := by
  refine .ite trivial ((onMdl_asks (write_asks fun x hx => ?_)).bind ?_)
  · exact hin x (hx.mono h.jump_le_window)
  · intro written
    cases written <;> trivial

theorem disable_asks {h : KHook} (hin : ∀ x, Within h.src.val windowSize x → mine x)
    (hlen : h.originalBytes.length = windowSize) : (disable h).Asks (Stays mine) := by
  refine .ite ((onMdl_asks (write_asks fun x hx => ?_)).bind ?_) trivial
  · rw [hlen] at hx
    exact hin x hx
  · intro written
    cases written <;> trivial

theorem drop_asks {h : KHook} (hin : ∀ x, Within h.src.val windowSize x → mine x)
    (hlen : h.originalBytes.length = windowSize) : (drop h).Asks (Stays mine) :=
  (disable_asks hin hlen).bind fun _ => ⟨trivial, fun _ => trivial⟩

/-- Where the windows are code of the thread, and the new one is, all requests stay there. -/
theorem perform_asks (env : Env) {pool : BitVec 64 → Prop} {mem₀ : Mem 64} {s : Hooks × Kernel}
    {o : Use} (hs : Standing env pool mine mem₀ s) (hsep : Separate pool mine s o) :
    (perform env o s.1).Asks (Stays mine) := by
  have hin := hs.placed.inside
  have hlen := fun i h hi => (hs.sound.window i h hi).1
  cases o with
  | new id src dst =>
    refine (new_asks env dst hsep.2.1).attempt.bind fun r => ?_
    cases r <;> trivial
  | enable id =>
    rw [perform]
    cases hid : s.1 id with
    | none => trivial
    | some h => exact (enable_asks (hin id h hid)).bind fun _ => trivial
  | disable id =>
    rw [perform]
    cases hid : s.1 id with
    | none => trivial
    | some h => exact (disable_asks (hin id h hid) (hlen id h hid)).bind fun _ => trivial
  | drop id =>
    rw [perform]
    cases hid : s.1 id with
    | none => trivial
    | some h => exact (drop_asks (hin id h hid) (hlen id h hid)).bind fun _ => trivial

/-- A thread alone. -/
theorem plan_standing {env : Env} {pool : BitVec 64 → Prop} {mem₀ : Mem 64} {s : Hooks × Kernel}
    {p : Plan Use Hooks} (hs : Standing env pool mine mem₀ s)
    (hsafe : Safely (Serves pool) (Separate pool mine) (perform env) s p) :
    (p.program (perform env) s.1).Wp (Serves pool) (fun t q => Permits t q ∧ Stays mine q)
      (Leaves (Standing env pool mine mem₀) fun _ => ∃ t o,
        Plan.Comes (Serves pool) (perform env) s p t o ∧ Overflows env pool t o) s.2 := by
  refine Plan.program_wp (L := Separate pool mine) (E := fun t o _ => Overflows env pool t o)
    (fun t o hs hsep => ?_) hs hsafe
  exact (perform_standing hs hsep).asks (perform_asks env hs hsep)

end

/-! Threads. -/

/-- No block, no list and no hook, and no thread has begun. -/
def startHooks {ι : Type} (env : Env) (mem : Mem 64) (plans : ι → Plan Use Hooks) :
    State ι (SharedKernel ι) HookReq HookReq.Answer Empty Hooks :=
  ⟨⟨mem, .empty, fun _ => none, fun _ => none⟩,
    fun i => (plans i).program (perform env) fun _ => none⟩

theorem whole_start {ι : Type} {env : Env} {pool : BitVec 64 → Prop} (mem : Mem 64)
    (plans : ι → Plan Use Hooks) :
    (startHooks env mem plans).shared.Whole pool := by
  have hnone : ∀ p e, (startHooks env mem plans).shared.blocks p ≠ some e := fun _ _ => nofun
  refine ⟨fun p e _ _ h => absurd h (hnone p e), fun p e h => absurd h (hnone p e), ?_⟩
  exact ⟨fun _ => iff_of_true rfl rfl, fun _ h => absurd h List.not_mem_nil, List.nodup_nil⟩

section
variable {ι : Type} [DecidableEq ι] {env : Env} {pool : BitVec 64 → Prop}
  {mine : ι → BitVec 64 → Prop} {mem : Mem 64}

theorem part_start (mem : Mem 64) (plans : ι → Plan Use Hooks) (i : ι) :
    Part mine i (startHooks env mem plans).shared (startKernel mem).2 := by
  have hnone : ∀ m r, (startKernel mem).2.ledger.mdls m ≠ some r := fun _ _ => nofun
  exact ⟨fun _ _ => iff_of_false nofun nofun, rfl, fun m r h => absurd h (hnone m r),
    fun _ _ => rfl⟩

/-- A hook directs the calls in memory that has its window and its stub. -/
theorem directs_part {isa : Isa} {i : ι} {s : SharedKernel ι} {hooks : Hooks} {t : Kernel}
    (hp : Part mine i s t) (hs : Standing env pool (mine i) mem (hooks, t)) {id : Nat} {h : KHook}
    (hid : hooks id = some h) : Directs isa env h s.mem := by
  refine directs ((hs.sound.trampoline id h hid).congr fun x hx => (hp.mem x (.inr ?_)).symm)
    (hs.sound.window id h hid).1 ?_
  · exact ⟨_, _, (hs.sound.owned _ _).mpr ⟨id, h, hid, rfl⟩, hx⟩
  · rw [← hs.placed.windows id h hid]
    exact read_congr fun x hx => (hp.mem x (.inl (hs.placed.inside id h hid x hx))).symm

/-- **Threads with hooks.** Where the code of the threads is apart, and each uses its hooks as
    it may when it is alone, no request of any of them is one the kernel does not permit, in
    whatever order they come, and code that is no thread's stays as it is. A thread that has
    ended holds no descriptor list, its blocks are the stubs of its hooks, and the calls of
    each go where `Directs` says; one that has panicked has come to a `new` that can get a
    stub without room. -/
theorem hooks_threads (isa : Isa) (env : Env) (hR : Regions pool mine) (mem : Mem 64)
    (plans : ι → Plan Use Hooks) (hsafe : ∀ i, Safely (Serves pool) (Separate pool (mine i))
      (perform env) (startKernel mem) (plans i)) (turns : List ι)
    (s : State ι (SharedKernel ι) HookReq HookReq.Answer Empty Hooks)
    (hrun : Turns (SharedKernel.Serves pool) (startHooks env mem plans) turns s) :
    (∀ i q k, s.threads i = .ask q k → Permits s.shared.all q) ∧
    (∀ x, ¬ pool x → (∀ i, ¬ mine i x) → s.shared.mem x = mem x) ∧
    ∀ i o, s.threads i = ended o →
      (o = .panic → ∃ t u, Plan.Comes (Serves pool) (perform env) (startKernel mem) (plans i) t u ∧
        Overflows env pool t u) ∧
      ∀ hooks, o = .ok hooks →
      (∀ m, s.shared.owners m ≠ some i) ∧
      (∀ p n, s.shared.blocks p = some (i, n) ↔
        ∃ id h, hooks id = some h ∧ h.originalStub = ⟨p, n⟩) ∧
      ∀ id h, hooks id = some h → Directs isa env h s.shared.mem := by
  have hstart : ∀ i, Standing env pool (mine i) mem (startKernel mem) := fun i =>
    ⟨sound_start mem, placed_start mem⟩
  have hkept := turns_kept (SharedKernel.splits hR mem)
    ⟨⟨whole_start mem plans, fun _ _ _ => rfl⟩, fun _ => (startKernel mem).2,
      fun i => ⟨part_start mem plans i, plan_standing (hstart i) (hsafe i)⟩⟩ hrun
  refine ⟨fun i q k hask => ?_, hkept.1.2, fun i o hend => ?_⟩
  · obtain ⟨t, hpart, hq⟩ := hkept.asking hask
    exact hpart.permits hkept.1.1 hq.1
  · obtain ⟨t, hpart, hpost⟩ := hkept.ended hend
    refine ⟨fun hpanic => by subst hpanic; exact hpost, fun hooks hok => ?_⟩
    subst hok
    have hs : Standing env pool (mine i) mem (hooks, t) := hpost
    refine ⟨fun m hm => ?_, fun p n => ?_, fun id h hid => directs_part hpart hs hid⟩
    · -- its part of the ledger is empty
      have hlist := (hkept.1.1.owned.listed m).not.mp (by rw [hm]; exact nofun)
      obtain ⟨r, hr⟩ := Option.ne_none_iff_exists'.mp hlist
      have hpartList := Ledger.of_mdls.mpr ⟨hm, hr⟩
      rw [← hpart.ledger, hs.sound.ledger] at hpartList
      cases hpartList
    · rw [← hpart.blocks p n]
      exact hs.sound.owned p n

end

/-! Two threads that hook a function each. -/

open KHook (hookVa detour movMem nearStub)

def otherVa : VirtAddr := ⟨0xFFFFF80000003000#64, by decide⟩

def codeOf : Bool → VirtAddr
  | false => hookVa
  | true => otherVa

def twoPages (i : Bool) (x : BitVec 64) : Prop := Within (codeOf i).val 4096 x

theorem twoPages_regions : Regions stubPage twoPages := by
  constructor
  · intro i x hx
    cases i <;> exact Within.off hx (by decide) (by decide)
  · intro i j x hij hx
    cases i <;> cases j
    · exact absurd rfl hij
    · exact Within.off hx (by decide) (by decide)
    · exact Within.off hx (by decide) (by decide)
    · exact absurd rfl hij

/-- The hook is enabled where it could be made. -/
def hookOwn (i : Bool) : Plan Use Hooks :=
  .act (.new 0 (codeOf i) detour) fun hooks =>
    if (hooks 0).isSome then .act (.enable 0) fun _ => .stop else .stop

theorem hookOwn_safe (i : Bool) : Safely (Serves stubPage) (Separate stubPage (twoPages i))
    (perform movEnv) (startKernel movMem) (hookOwn i) := by
  have hin : ∀ x, Within (codeOf i).val windowSize x → twoPages i x := fun x hx =>
    hx.mono (by decide)
  have hnone : ∀ id h, (startKernel movMem).1 id ≠ some h := fun _ _ => nofun
  refine ⟨⟨⟨rfl, fun x hx => ?_⟩, hin, fun id h hid => absurd hid (hnone id h)⟩,
    fun t _ => ?_⟩
  · exact twoPages_regions.off i x (hin x hx)
  · dsimp only
    split
    · exact ⟨trivial, fun _ _ => trivial⟩
    · trivial

theorem hookOwn_exec : ∃ s : Hooks × Kernel,
    ((hookOwn false).program (perform movEnv) fun _ => none).Exec (ServesNew stubPage)
      (startKernel movMem).2 (.ok s.1) s.2 ∧ s.1 0 = some { liveHook with enabled := true } := by
  obtain ⟨s₁, h₁, hid₁, hl₁⟩ := liveHook_made
  obtain ⟨s₂, h₂, hid₂, -⟩ := liveHook_enables hid₁ hl₁
  refine ⟨s₂, Prog.Exec.bind h₁ ?_, hid₂⟩
  dsimp only
  rw [if_pos (by rw [hid₁]; rfl)]
  exact Prog.Exec.bind h₂ ⟨rfl, rfl⟩

theorem read_turn {s : State Bool (SharedKernel Bool) HookReq HookReq.Answer Empty Hooks} {i : Bool}
    {p : BitVec 64} {n : Nat} {k : List Byte → HookProg Empty Hooks}
    (h : s.threads i = .ask (.read p n) k) : ∃ t, Turn (SharedKernel.Serves stubPage) s i t ∧
      t.shared = s.shared ∧ t.threads (!i) = s.threads (!i) :=
  ⟨⟨s.shared, Function.update s.threads i (k (ByteMem.read s.shared.mem p n))⟩,
    ⟨.read p n, k, _, h, ⟨⟨rfl, rfl⟩, trivial, rfl, rfl⟩, rfl⟩, rfl,
    Function.update_of_ne (Bool.not_ne_self i) _ _⟩

/-- One thread has read the code that it is going to hook. The other has made its hook,
    enabled it, and ended. -/
theorem hookOwn_run : ∃ n s hooks, Turns (SharedKernel.Serves stubPage)
    (startHooks movEnv movMem hookOwn) (true :: List.replicate n false) s ∧
      s.threads false = ended (.ok hooks) ∧ hooks 0 = some { liveHook with enabled := true } := by
  obtain ⟨s₁, hexec, hlive⟩ := hookOwn_exec
  obtain ⟨t, hread, hshared, hother⟩ :=
    read_turn (s := startHooks movEnv movMem hookOwn) (i := true) rfl
  obtain ⟨n, s, hturns, hend⟩ := @SharedKernel.turns_of_exec _ _ _ _ stubPage false t s₁.2
    (.ok s₁.1) (by rw [hshared, show t.threads false = _ from hother]; exact hexec)
  exact ⟨n, s, s₁.1, ⟨t, hread, hturns⟩, hend, hlive⟩

theorem hooks_threads_hookOwn : ∃ n s hooks, Turns (SharedKernel.Serves stubPage)
    (startHooks movEnv movMem hookOwn) (true :: List.replicate n false) s ∧
      s.threads false = ended (.ok hooks) ∧ hooks 0 = some { liveHook with enabled := true } ∧
      (∀ i q k, s.threads i = .ask q k → Permits s.shared.all q) ∧
      (∀ m, s.shared.owners m ≠ some false) ∧ s.shared.blocks nearStub = some (false, 33) ∧
      ∀ c, run nopIsa s.shared.mem 1 ⟨hookVa.val, c⟩ = some ⟨detour, c⟩ := by
  obtain ⟨n, s, hooks, hrun, hend, hlive⟩ := hookOwn_run
  obtain ⟨hpermits, -, hends⟩ := hooks_threads nopIsa movEnv twoPages_regions movMem
    hookOwn hookOwn_safe _ s hrun
  obtain ⟨hlists, hblocks, hdirects⟩ := (hends false _ hend).2 hooks rfl
  exact ⟨n, s, hooks, hrun, hend, hlive, hpermits, hlists, (hblocks _ _).mpr ⟨0, _, hlive, rfl⟩,
    (hdirects 0 _ hlive).enabled rfl⟩

end HookKernel
end WinKernl
