import WinKernl.HookRuns

/- One hook whose writes may fail (`khook.rs`).

   Correspondence (Rust ↔ Lean):
     `enable`, `disable` with the write they ask for ↔ `enableProg`, `disableProg`
     `enable`, `disable` as calls on a hook          ↔ `HookCall`
     the life of one `KHook` value                   ↔ `Life`, `LifeState.step`
   `write_to_read_only_memory` succeeds or leaves memory as it was, and each call says
   which. The flag is set after the write in both operations, so it never lies. `drop`
   does not look at what `disable` returns, and the stub, a field, is freed behind it:
   after a failed restore the code jumps into a hook whose trampoline is gone. -/
namespace WinKernl
open ByteMem Ask Runs

/-- A call of `write_to_read_only_memory`. -/
structure CodeWrite where
  dst : BitVec 64
  src : List Byte
  deriving DecidableEq, Repr

/-- Memory after the writes `ws`, all of which end as `ok` says. -/
def CodeWrite.all (ok : Bool) (ws : List CodeWrite) (mem : Mem 64) : Mem 64 :=
  ws.foldl (fun m w => (KHook.writeToReadOnlyMemory ok w.dst w.src m).2) mem

namespace KHook

def enableProg (h : KHook) : Prog CodeWrite (fun _ => Bool) Empty (Option Unit × KHook) :=
  if h.enabled then .ok (some (), h) else
  .ask ⟨h.src.val, h.jump⟩ fun written =>
    if written then .ok (some (), { h with enabled := true }) else .ok (none, h)

def disableProg (h : KHook) : Prog CodeWrite (fun _ => Bool) Empty (Option Unit × KHook) :=
  if h.enabled then
    .ask ⟨h.src.val, h.originalBytes⟩ fun written =>
      if written then .ok (some (), { h with enabled := false }) else .ok (none, h)
  else .ok (some (), { h with enabled := false })

/-- `enable` is its program, with the writes carried out. -/
theorem enable_eq_prog (ok : Bool) (h : KHook) (mem : Mem 64) :
    h.enableProg.result (fun _ => ok) = .ok ((h.enable ok mem).1, (h.enable ok mem).2.1) ∧
      (h.enable ok mem).2.2 = CodeWrite.all ok (h.enableProg.trace fun _ => ok) mem := by
  unfold enable enableProg
  cases h.enabled <;> cases ok <;> exact ⟨rfl, rfl⟩

theorem disable_eq_prog (ok : Bool) (h : KHook) (mem : Mem 64) :
    h.disableProg.result (fun _ => ok) = .ok ((h.disable ok mem).1, (h.disable ok mem).2.1) ∧
      (h.disable ok mem).2.2 = CodeWrite.all ok (h.disableProg.trace fun _ => ok) mem := by
  unfold disable disableProg
  cases h.enabled <;> cases ok <;> exact ⟨rfl, rfl⟩

/-- A failed write leaves the hook and memory as they were. -/
theorem enable_failed {h : KHook} (he : h.enabled = false) (mem : Mem 64) :
    h.enable false mem = (none, h, mem) := by
  rw [enable, he]
  rfl

theorem disable_failed {h : KHook} (he : h.enabled = true) (mem : Mem 64) :
    h.disable false mem = (none, h, mem) := by
  rw [disable, he]
  rfl

end KHook

/-! Calls on one hook. -/

/-- `enable` where `on` is set, else `disable`; `ok` says whether its write succeeds. -/
structure HookCall where
  on : Bool
  ok : Bool
  deriving DecidableEq, Repr

namespace HookCall

def run (c : HookCall) (h : KHook) (mem : Mem 64) : Option Unit × KHook × Mem 64 :=
  if c.on then h.enable c.ok mem else h.disable c.ok mem

/-- The writes the call asks for. -/
def writes (c : HookCall) (h : KHook) : List CodeWrite :=
  (if c.on then h.enableProg else h.disableProg).trace fun _ => c.ok

def step (s : KHook × Mem 64) (c : HookCall) : KHook × Mem 64 := (c.run s.1 s.2).2

/-- The memory effect of a call is that of the writes it asks for. -/
theorem run_mem (c : HookCall) (h : KHook) (mem : Mem 64) :
    (c.run h mem).2.2 = CodeWrite.all c.ok (c.writes h) mem := by
  unfold run writes
  split
  · exact (KHook.enable_eq_prog c.ok h mem).2
  · exact (KHook.disable_eq_prog c.ok h mem).2

end HookCall

/-- What the call writes when it has something to write. -/
def HookCall.bytes (c : HookCall) (h : KHook) : List Byte :=
  if c.on then h.jump else h.originalBytes

/-- The ways a call can end, with the writes it asks for: the state it asks for holds
    already, its write succeeds, its write fails. -/
inductive CallRun (c : HookCall) (h : KHook) (mem : Mem 64) :
    Option Unit × KHook × Mem 64 → List CodeWrite → Prop where
  | held (hon : h.enabled = c.on) : CallRun c h mem (some (), h, mem) []
  | written (hon : h.enabled = !c.on) (hok : c.ok = true) :
      CallRun c h mem (some (), { h with enabled := c.on }, write mem h.src.val (c.bytes h))
        [⟨h.src.val, c.bytes h⟩]
  | failed (hon : h.enabled = !c.on) (hok : c.ok = false) :
      CallRun c h mem (none, h, mem) [⟨h.src.val, c.bytes h⟩]

theorem HookCall.run_cases (c : HookCall) (h : KHook) (mem : Mem 64) :
    CallRun c h mem (c.run h mem) (c.writes h) := by
  obtain ⟨on, ok⟩ := c
  obtain ⟨src, dst, stub, bytes, enabled⟩ := h
  cases on with
  | true =>
    cases enabled with
    | true => exact .held rfl
    | false =>
      cases ok with
      | true => exact .written rfl rfl
      | false => exact .failed rfl rfl
  | false =>
    cases enabled with
    | true =>
      cases ok with
      | true => exact .written rfl rfl
      | false => exact .failed rfl rfl
    | false => exact .held rfl

/-- A call keeps everything but the flag. -/
theorem HookCall.run_keeps (c : HookCall) (h : KHook) (mem : Mem 64) :
    ∃ on, (c.run h mem).2.1 = { h with enabled := on } := by
  have hrun := c.run_cases h mem
  generalize c.run h mem = r, c.writes h = ws at hrun
  cases hrun with
  | held hon => exact ⟨h.enabled, rfl⟩
  | written hon hok => exact ⟨c.on, rfl⟩
  | failed hon hok => exact ⟨h.enabled, rfl⟩

/-- A call succeeds exactly when the hook is then in the state it asks for. -/
theorem HookCall.run_some_iff (c : HookCall) (h : KHook) (mem : Mem 64) :
    (c.run h mem).1 = some () ↔ (c.run h mem).2.1.enabled = c.on := by
  have hrun := c.run_cases h mem
  generalize c.run h mem = r, c.writes h = ws at hrun
  cases hrun with
  | held hon => exact iff_of_true rfl hon
  | written hon hok => exact iff_of_true rfl rfl
  | failed hon hok =>
    apply iff_of_false nofun
    dsimp only
    rw [hon]
    cases c.on <;> decide

/-- A call whose state holds already asks for no write. -/
theorem HookCall.writes_held {c : HookCall} {h : KHook} (hon : h.enabled = c.on) (mem : Mem 64) :
    c.writes h = [] := by
  have hrun := c.run_cases h mem
  generalize c.run h mem = r, c.writes h = ws at hrun
  cases hrun with
  | held _ => rfl
  | written hoff hok => exact absurd (hon.symm.trans hoff) (Bool.eq_not_self c.on).mp
  | failed hoff hok => exact absurd (hon.symm.trans hoff) (Bool.eq_not_self c.on).mp

/-- Memory is the memory `m₀` at creation, with the jump over it while the hook is
    enabled; the hook keeps the window of `m₀`. -/
structure Overlaid (m₀ : Mem 64) (h : KHook) (mem : Mem 64) : Prop where
  window : h.originalBytes = read m₀ h.src.val KHook.windowSize
  mem_eq : mem = if h.enabled then write m₀ h.src.val h.jump else m₀

theorem KHook.jump_le_window (h : KHook) : h.jump.length ≤ KHook.windowSize := by
  rw [KHook.jump, createAssemblyJump_length, KHook.windowSize, maxHookSize, hookSizeAbsolute]
  split <;> omega

namespace Overlaid

variable {m₀ mem : Mem 64} {h : KHook}

theorem of_new {env : Env} {src : VirtAddr} {dst : BitVec 64}
    (hn : KHook.new env src dst m₀ = (.ok h, mem)) : Overlaid mem h mem := by
  obtain ⟨insns, copied, res, hb⟩ := KHook.new_ok hn
  rw [hb.hook_eq]
  exact ⟨rfl, rfl⟩

theorem call (hov : Overlaid m₀ h mem) (c : HookCall) :
    Overlaid m₀ (c.run h mem).2.1 (c.run h mem).2.2 := by
  have hrun := c.run_cases h mem
  generalize c.run h mem = r, c.writes h = ws at hrun
  obtain ⟨hwindow, hmem⟩ := hov
  cases hrun with
  | held hon => exact ⟨hwindow, hmem⟩
  | failed hon hok => exact ⟨hwindow, hmem⟩
  | written hon hok =>
    refine ⟨hwindow, ?_⟩
    cases hc : c.on with
    | true =>
      -- the jump goes over memory as it was at creation
      have hclear : mem = m₀ := by rw [hmem, hon, hc]; rfl
      dsimp only
      rw [hclear, HookCall.bytes, hc]
      rfl
    | false =>
      -- the window goes over the jump
      have hjump : mem = write m₀ h.src.val h.jump := by rw [hmem, hon, hc]; rfl
      dsimp only
      rw [hjump, HookCall.bytes, hc, if_neg Bool.false_ne_true, hwindow,
        write_back m₀ h.src.val h.jump_le_window]
      rfl

end Overlaid

/-- Calls on a hook keep the overlay and everything but the flag. -/
theorem Overlaid.calls {m₀ : Mem 64} {s : KHook × Mem 64} (hov : Overlaid m₀ s.1 s.2)
    (cs : List HookCall) :
    Overlaid m₀ (final HookCall.step s cs).1 (final HookCall.step s cs).2 ∧
      ∃ on, (final HookCall.step s cs).1 = { s.1 with enabled := on } := by
  induction cs generalizing s with
  | nil => exact ⟨hov, s.1.enabled, rfl⟩
  | cons c cs ih =>
    obtain ⟨hend, on, hflag⟩ := @ih (HookCall.step s c) (hov.call c)
    obtain ⟨on', hstep⟩ := c.run_keeps s.1 s.2
    refine ⟨hend, on, hflag.trans ?_⟩
    rw [HookCall.step, hstep]

/-- **The flag tells the truth.** After every call of every sequence of calls on a new
    hook memory is the memory at creation, with the jump over it exactly while the flag is
    set; a call succeeds exactly when the state it asks for then holds, and where it held
    before, it writes nothing. Creation changed nothing but the stub. -/
theorem enabled_flag_truthful {env : Env} {src : VirtAddr} {dst : BitVec 64} {mem mem' : Mem 64}
    {h : KHook} (hn : KHook.new env src dst mem = (.ok h, mem')) (calls : List HookCall)
    (c : HookCall) :
    (∀ x, ¬ Within h.originalStub.ptr h.originalStub.len x → mem' x = mem x) ∧
      ∀ k m, final HookCall.step (h, mem') calls = (k, m) →
        ((c.run k m).2.2 =
          if (c.run k m).2.1.enabled then write mem' src.val (createAssemblyJump src.val dst)
          else mem') ∧
        ((c.run k m).1 = some () ↔ (c.run k m).2.1.enabled = c.on) ∧
        (k.enabled = c.on → c.writes k = []) := by
  obtain ⟨insns, copied, res, hb⟩ := KHook.new_ok hn
  have hlen : h.originalStub.len = copied + hookSizeAbsolute := by rw [hb.hook_eq]
  have hsrc : h.src = src := by rw [hb.hook_eq]
  have hdst : h.dst = dst := by rw [hb.hook_eq]
  constructor
  · intro x hx
    rw [hlen] at hx
    exact hb.frame hx
  · intro k m hfinal
    obtain ⟨hk, on, hkeep⟩ := @Overlaid.calls mem' (h, mem') (Overlaid.of_new hn) calls
    rw [hfinal] at hk hkeep
    subst hkeep
    obtain ⟨on', hrun⟩ := c.run_keeps { h with enabled := on } m
    refine ⟨?_, c.run_some_iff _ m, fun hon => HookCall.writes_held hon m⟩
    have hmem := (hk.call c).mem_eq
    rw [hrun, KHook.jump, hsrc, hdst] at hmem
    rw [hmem, hrun]

/-- The jump fails to go in, goes in, and fails to come out. -/
def failingCalls : List HookCall := [⟨true, false⟩, ⟨true, true⟩, ⟨false, false⟩]

theorem failingCalls_final {h : KHook} (hoff : h.enabled = false) (mem : Mem 64) :
    final HookCall.step (h, mem) failingCalls =
      ({ h with enabled := true }, write mem h.src.val h.jump) := by
  have hin : h.enable true mem =
      (some (), { h with enabled := true }, write mem h.src.val h.jump) := by
    rw [KHook.enable, hoff]
    rfl
  have hon : ({ h with enabled := true } : KHook).enabled = true := rfl
  calc final HookCall.step (h, mem) failingCalls
    _ = final HookCall.step (h.enable false mem).2 failingCalls.tail := rfl
    _ = final HookCall.step (h.enable true mem).2 [⟨false, false⟩] := by
      rw [KHook.enable_failed hoff]
      rfl
    _ = (({ h with enabled := true } : KHook).disable false (write mem h.src.val h.jump)).2 := by
      rw [hin]
      rfl
    _ = ({ h with enabled := true }, write mem h.src.val h.jump) := by
      rw [KHook.disable_failed hon]

open KHook in
/-- Then it comes out. -/
theorem enabled_flag_truthful_fixture :
    (∀ x, ¬ Within firstHook.originalStub.ptr firstHook.originalStub.len x →
        (new firstEnv hookVa detour nopMem).2 x = nopMem x) ∧
      ∃ k m, final HookCall.step (firstHook, (new firstEnv hookVa detour nopMem).2)
          failingCalls = (k, m) ∧ k.enabled = true ∧
        ((⟨false, true⟩ : HookCall).run k m).1 = some () ∧
        ((⟨false, true⟩ : HookCall).run k m).2.1.enabled = false ∧
        ((⟨false, true⟩ : HookCall).run k m).2.2 = (new firstEnv hookVa detour nopMem).2 := by
  obtain ⟨hmade, hcall⟩ :=
    @enabled_flag_truthful firstEnv hookVa detour nopMem _ firstHook (Prod.ext new_firstHook rfl)
      failingCalls ⟨false, true⟩
  have hfinal := @failingCalls_final firstHook rfl (new firstEnv hookVa detour nopMem).2
  obtain ⟨hmem, hsome, -⟩ := hcall _ _ hfinal
  have hoff : ∀ m, ((⟨false, true⟩ : HookCall).run
      { firstHook with enabled := true } m).2.1.enabled = false := fun _ => rfl
  replace hmem := hmem.trans (if_neg fun h => Bool.false_ne_true ((hoff _).symm.trans h))
  exact ⟨hmade, _, _, hfinal, rfl, hsome.mpr (hoff _), hoff _, hmem⟩

/-! The life of one hook. -/

/-- A dropped hook's stub is back with the pool. -/
inductive Life where
  | unborn
  | live (h : KHook)
  | dropped (h : KHook)
  deriving DecidableEq

structure LifeState where
  mem : Mem 64
  life : Life

inductive LifeOp where
  | new (env : Env) (src : VirtAddr) (dst : BitVec 64)
  | call (c : HookCall)
  | drop (ok : Bool)

/-- Calls need a live hook, and the value is created and dropped once. The stub is freed
    behind `drop`, however its write ended. -/
def LifeState.step (s : LifeState) : LifeOp → LifeState
  | .new env src dst =>
    match s.life with
    | .unborn =>
      match KHook.new env src dst s.mem with
      | (.ok h, mem) => ⟨mem, .live h⟩
      | (_, mem) => ⟨mem, .unborn⟩
    | _ => s
  | .call c =>
    match s.life with
    | .live h => ⟨(c.run h s.mem).2.2, .live (c.run h s.mem).2.1⟩
    | _ => s
  | .drop ok =>
    match s.life with
    | .live h => ⟨h.drop ok s.mem, .dropped h⟩
    | _ => s

def LifeState.init (mem : Mem 64) : LifeState := ⟨mem, .unborn⟩

/-- The bytes at `src` are the jump to `dst`. -/
def KHook.InPlace (h : KHook) (mem : Mem 64) : Prop := read mem h.src.val h.jump.length = h.jump

instance (h : KHook) (mem : Mem 64) : Decidable (h.InPlace mem) :=
  inferInstanceAs (Decidable (_ = _))

/-- The stub of a hook in place has not been freed. -/
def StubKept (s : LifeState) : Prop := ∀ h, s.life = .dropped h → ¬ h.InPlace s.mem

/-- The hook is disabled or its restore succeeds, and what it restores is not the jump. -/
def Removes (s : LifeState) : LifeOp → Prop
  | .drop ok => ∀ h, s.life = .live h →
      (h.enabled = true → ok = true) ∧ ¬ h.jump <+: h.originalBytes
  | _ => True

/-- A live hook overlays the memory of its creation. -/
def LifeInv (s : LifeState) : Prop := ∀ h, s.life = .live h → ∃ m₀, Overlaid m₀ h s.mem

theorem Overlaid.inPlace_iff {m₀ mem : Mem 64} {h : KHook} (hov : Overlaid m₀ h mem) :
    h.InPlace m₀ ↔ h.jump <+: h.originalBytes := by
  rw [hov.window, List.prefix_iff_eq_take, read_take _ _ h.jump_le_window, KHook.InPlace]
  exact eq_comm

/-- A dropped hook is in place when its restore failed, or restored the jump. -/
theorem Overlaid.drop_iff {m₀ mem : Mem 64} {h : KHook} (hov : Overlaid m₀ h mem) (ok : Bool) :
    ¬ h.InPlace (h.drop ok mem) ↔
      (h.enabled = true → ok = true) ∧ ¬ h.jump <+: h.originalBytes := by
  have hmem := hov.mem_eq
  rw [← hov.inPlace_iff, KHook.drop]
  cases he : h.enabled with
  | false =>
    have hclear : mem = m₀ := by rw [hmem, he]; rfl
    rw [KHook.disable_idle he, hclear]
    exact (and_iff_right nofun).symm
  | true =>
    have hjump : mem = write m₀ h.src.val h.jump := by rw [hmem, he]; rfl
    cases ok with
    | true =>
      rw [KHook.disable_ok he, hjump, hov.window, write_back _ _ h.jump_le_window]
      exact (and_iff_right fun _ => rfl).symm
    | false =>
      have hsize : h.jump.length ≤ 2^64 :=
        Nat.le_trans h.jump_le_window (by decide)
      rw [KHook.disable_failed he, hjump]
      apply iff_of_false
      · exact fun hgone => hgone (read_write m₀ h.src.val h.jump hsize)
      · exact fun hcond => absurd (hcond.1 rfl) Bool.false_ne_true

theorem stubKept_step_iff {s : LifeState} {o : LifeOp} (hinv : LifeInv s) (hs : StubKept s) :
    StubKept (s.step o) ↔ Removes s o := by
  obtain ⟨mem, life⟩ := s
  cases o with
  | new env src dst =>
    refine iff_of_true ?_ trivial
    cases life with
    | unborn =>
      intro h hl
      simp only [LifeState.step] at hl
      split at hl <;> cases hl
    | live k => exact hs
    | dropped k => exact hs
  | call c =>
    refine iff_of_true ?_ trivial
    cases life with
    | unborn => exact hs
    | live k => exact fun h hl => nomatch hl
    | dropped k => exact hs
  | drop ok =>
    cases life with
    | unborn => exact iff_of_true hs nofun
    | dropped k => exact iff_of_true hs nofun
    | live k =>
      obtain ⟨m₀, hov⟩ := hinv k rfl
      have hiff := hov.drop_iff ok
      constructor
      · intro hkept h hl
        cases hl
        exact hiff.mp (hkept k rfl)
      · intro hrem h hl
        cases hl
        exact hiff.mpr (hrem k rfl)

theorem lifeInv_step {s : LifeState} (o : LifeOp) (hinv : LifeInv s) : LifeInv (s.step o) := by
  obtain ⟨mem, life⟩ := s
  cases o with
  | new env src dst =>
    cases life with
    | unborn =>
      intro h hl
      simp only [LifeState.step] at hl ⊢
      split at hl
      · next k mem' hn =>
        cases hl
        exact ⟨mem', Overlaid.of_new hn⟩
      · cases hl
    | live k => exact hinv
    | dropped k => exact hinv
  | call c =>
    cases life with
    | unborn => exact hinv
    | dropped k => exact hinv
    | live k =>
      intro h hl
      cases hl
      obtain ⟨m₀, hov⟩ := hinv k rfl
      exact ⟨m₀, hov.call c⟩
  | drop ok =>
    cases life with
    | unborn => exact hinv
    | dropped k => exact hinv
    | live k => exact fun h hl => nomatch hl

/-- **When a trampoline outlives its hook.** Along a run on one hook no stub is freed with
    the jump of its hook in place exactly when every drop of an enabled hook restores the
    code, and the code it restores is not itself the jump. -/
theorem stub_kept_iff (mem : Mem 64) (ops : List LifeOp) :
    Always LifeState.step StubKept (.init mem) ops ↔
      Guarded LifeState.step Removes (.init mem) ops := by
  apply always_iff_guarded (I := LifeInv) (L := fun _ _ => True)
  · exact fun s o hinv hs _ => stubKept_step_iff hinv hs
  · exact fun s o hinv _ _ _ => lifeInv_step o hinv
  · exact fun h hl => nomatch hl
  · exact fun h hl => nomatch hl
  · exact guarded_true

open KHook in
/-- The restore of an enabled hook fails, and the stub is freed under the jump. -/
theorem drop_frees_live_stub :
    ¬ Always LifeState.step StubKept (.init nopMem)
      [.new firstEnv hookVa detour, .call ⟨true, true⟩, .drop false] := by
  intro h
  have hdropped : (final LifeState.step (.init nopMem)
      [.new firstEnv hookVa detour, .call ⟨true, true⟩, .drop false]).life =
      .dropped { firstHook with enabled := true } := by decide
  exact h.last _ hdropped (by decide)

end WinKernl
