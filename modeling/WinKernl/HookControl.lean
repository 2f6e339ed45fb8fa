import WinKernl.HookLedger
import WinKernl.HookFailures

/- Where control goes in hooked code (`khook.rs`).

   Correspondence (Rust ↔ Lean):
     calling the function at `src`      ↔ `run` from `h.src`
     calling what `original` returns    ↔ `run` from the address of `h.original 8`
     `KHook::is_enabled`                ↔ `KHook.isEnabled`

   The client hooks functions whose 29-byte windows do not overlap, off the pool, and
   everything that can fail may. `Placed` is what then holds of the code between two
   operations: each window is its original bytes, with the jump over their first ones
   exactly where the flag is set. With `Sound`, which has the stubs, this says where every
   call goes (`hooks_control`). What the CPU does is said of code that runs straight on: a
   prologue that branches, or that has pointers put between its copy and the jump back, is
   followed only as far as its bytes and its jump. -/
namespace WinKernl
open ByteMem Ask X86 Runs

namespace HookKernel
open KHook (windowSize)

/-- The window as it is with the flag as it is. -/
def shown (h : KHook) : List Byte :=
  if h.isEnabled then h.jump ++ h.originalBytes.drop h.jump.length else h.originalBytes

/-- What `original` returns: the code that the encoder has made of the prologue, and behind
    it a jump back into the function, with RAX lost where the way is far. Where that code is
    straight-line, and no pointers stand between it and the jump, control comes back with
    the effects of its instructions. -/
structure CallsBack (isa : Isa) (env : Env) (h : KHook) (mem : Mem 64) (insns : List Insn)
    (copied : Nat) (res : BlockEncoderResult) (p : BitVec 64) : Prop where
  prologue : decodePrologue env h.src.val h.originalBytes = .ok (insns, copied)
  ptr : h.original 8 = .ok p
  encode : env.encode insns p = some res
  code : read mem p res.codeBuffer.length = res.codeBuffer
  jump : let jumpIp := p + BitVec.ofNat 64 res.codeBuffer.length
    let target := h.src.val + BitVec.ofNat 64 copied
    ∀ c, run isa mem (jumpSteps jumpIp target) ⟨jumpIp, c⟩ =
      some ⟨target, if Near jumpIp target then c else c.setReg .rax target⟩
  moved : res.pointers = [] → ∀ fs, Block isa p res.insns fs →
    let jumpIp := p + BitVec.ofNat 64 res.codeBuffer.length
    let target := h.src.val + BitVec.ofNat 64 copied
    ∀ c, run isa mem (res.insns.length + jumpSteps jumpIp target) ⟨p, c⟩ =
      some ⟨target, if Near jumpIp target then applyAll fs c
        else (applyAll fs c).setReg .rax target⟩

/-- Where the calls go that concern a hook. Its function goes to its destination where the
    hook is enabled, and has its original bytes where it is not: a straight-line prologue
    then runs in place. -/
structure Directs (isa : Isa) (env : Env) (h : KHook) (mem : Mem 64) : Prop where
  enabled : h.isEnabled = true → ∀ c, run isa mem (jumpSteps h.src.val h.dst) ⟨h.src.val, c⟩ =
    some ⟨h.dst, if Near h.src.val h.dst then c else c.setReg .rax h.dst⟩
  disabled : h.isEnabled = false → read mem h.src.val windowSize = h.originalBytes
  inPlace : h.isEnabled = false → ∀ insns copied fs,
    decodePrologue env h.src.val h.originalBytes = .ok (insns, copied) →
    Block isa h.src.val (insns.map Insn.bytes) fs → ∀ c,
      run isa mem insns.length ⟨h.src.val, c⟩ =
        some ⟨h.src.val + BitVec.ofNat 64 copied, applyAll fs c⟩
  original : ∃ insns copied res p, CallsBack isa env h mem insns copied res p

/-- A new hook is for code of `hooked`, off the pool and the windows of the live hooks. -/
def Separate (pool hooked : BitVec 64 → Prop) (s : Hooks × Kernel) : Use → Prop
  | .new id src dst => Allowed pool s (.new id src dst) ∧
      (∀ x, Within src.val windowSize x → hooked x) ∧
      ∀ i h, s.1 i = some h → ∀ x, Within h.src.val windowSize x → ¬ Within src.val windowSize x
  | _ => True

structure Placed (pool hooked : BitVec 64 → Prop) (mem₀ : Mem 64) (hooks : Hooks) (mem : Mem 64) :
    Prop where
  apart : ∀ i j h k, i ≠ j → hooks i = some h → hooks j = some k →
    ∀ x, Within h.src.val windowSize x → ¬ Within k.src.val windowSize x
  inside : ∀ i h, hooks i = some h → ∀ x, Within h.src.val windowSize x → hooked x
  windows : ∀ i h, hooks i = some h → read mem h.src.val windowSize = shown h
  untouched : ∀ x, ¬ pool x → ¬ hooked x → mem x = mem₀ x

section
variable {env : Env} {pool hooked : BitVec 64 → Prop} {mem₀ : Mem 64}

theorem Separate.allowed {s : Hooks × Kernel} {o : Use} (h : Separate pool hooked s o) :
    Allowed pool s o := by
  cases o with
  | new id src dst => exact h.1
  | _ => trivial

/-! The window of one hook. -/

theorem read_jump {h : KHook} (mem : Mem 64) :
    read (write mem h.src.val h.jump) h.src.val windowSize =
      h.jump ++ (read mem h.src.val windowSize).drop h.jump.length := by
  have hfit : 0 + h.jump.length ≤ windowSize := by
    rw [Nat.zero_add]
    exact h.jump_le_window
  have hwrite := @read_write_inside 64 mem h.src.val h.jump 0 windowSize hfit (by decide)
  simpa using hwrite

/-- A failed write leaves the flag, and a write that succeeds sets it with the jump. -/
theorem enable_shown {h : KHook} (ok : Bool) {mem : Mem 64}
    (hs : read mem h.src.val windowSize = shown h) :
    read (h.enable ok mem).2.2 h.src.val windowSize = shown (h.enable ok mem).2.1 := by
  cases hon : h.enabled with
  | true => rw [KHook.enable_idle hon, hs]
  | false =>
    have hbytes : read mem h.src.val windowSize = h.originalBytes := by
      rw [hs, shown, KHook.isEnabled, hon, if_neg Bool.false_ne_true]
    cases ok with
    | false => rw [KHook.enable_failed hon, hs]
    | true =>
      rw [KHook.enable_ok hon, read_jump, hbytes]
      rfl

theorem disable_shown {h : KHook} (hlen : h.originalBytes.length = windowSize) (ok : Bool)
    {mem : Mem 64} (hs : read mem h.src.val windowSize = shown h) :
    read (h.disable ok mem).2.2 h.src.val windowSize = shown (h.disable ok mem).2.1 := by
  cases hon : h.enabled with
  | false => rw [KHook.disable_idle hon, hs]
  | true =>
    cases ok with
    | false => rw [KHook.disable_failed hon, hs]
    | true =>
      rw [KHook.disable_ok hon]
      show read (write mem h.src.val h.originalBytes) h.src.val windowSize = h.originalBytes
      rw [← hlen]
      exact read_write _ _ _ (by rw [hlen]; decide)

/-! All windows. -/

/-- One hook is patched or gone: memory has changed in its window. -/
theorem Placed.set {hooks : Hooks} {mem mem' : Mem 64} (hp : Placed pool hooked mem₀ hooks mem)
    {id : Nat} {h : KHook} (hid : hooks id = some h) {o : Option KHook}
    (ho : ∀ k, o = some k → k.src = h.src ∧ read mem' h.src.val windowSize = shown k)
    (hmem : ∀ x, ¬ Within h.src.val windowSize x → mem' x = mem x) :
    Placed pool hooked mem₀ (Function.update hooks id o) mem' := by
  have hold : ∀ i k, Function.update hooks id o i = some k →
      ∃ k', hooks i = some k' ∧ k.src = k'.src := by
    intro i k hk
    rcases update_eq_some.mp hk with ⟨rfl, hnew⟩ | ⟨-, hold⟩
    · exact ⟨h, hid, (ho k hnew).1⟩
    · exact ⟨k, hold, rfl⟩
  constructor
  · intro i j k l hij hk hl
    obtain ⟨k', hk', hsrc⟩ := hold i k hk
    obtain ⟨l', hl', hsrc'⟩ := hold j l hl
    rw [hsrc, hsrc']
    exact hp.apart i j k' l' hij hk' hl'
  · intro i k hk
    obtain ⟨k', hk', hsrc⟩ := hold i k hk
    rw [hsrc]
    exact hp.inside i k' hk'
  · intro i k hk
    rcases update_eq_some.mp hk with ⟨-, hnew⟩ | ⟨hne, hold⟩
    · obtain ⟨hsrc, hread⟩ := ho k hnew
      rw [hsrc, hread]
    · rw [← hp.windows i k hold]
      exact read_congr fun x hx => hmem x (hp.apart i id k h hne hold hid x hx)
  · intro x hpool hx
    rw [hmem x fun hin => hx (hp.inside id h hid x hin)]
    exact hp.untouched x hpool hx

/-- Memory has changed on the pool. -/
theorem Placed.congr {hooks : Hooks} {mem mem' : Mem 64} (hp : Placed pool hooked mem₀ hooks mem)
    (hoff : ∀ i h, hooks i = some h → ∀ x, Within h.src.val windowSize x → ¬ pool x)
    (hmem : ∀ x, ¬ pool x → mem' x = mem x) : Placed pool hooked mem₀ hooks mem' := by
  refine ⟨hp.apart, hp.inside, fun i h hi => ?_, fun x hpool hx => ?_⟩
  · rw [← hp.windows i h hi]
    exact read_congr fun x hx => hmem x (hoff i h hi x hx)
  · rw [hmem x hpool]
    exact hp.untouched x hpool hx

/-- A hook that is not enabled is there, with the window as it was found. -/
theorem Placed.add {hooks : Hooks} {mem : Mem 64} (hp : Placed pool hooked mem₀ hooks mem)
    {id : Nat} {h : KHook} (hread : read mem h.src.val windowSize = shown h)
    (hin : ∀ x, Within h.src.val windowSize x → hooked x)
    (hapart : ∀ i k, hooks i = some k → ∀ x, Within k.src.val windowSize x →
      ¬ Within h.src.val windowSize x) :
    Placed pool hooked mem₀ (Function.update hooks id (some h)) mem := by
  constructor
  · intro i j k l hij hk hl x hx hx'
    rcases update_eq_some.mp hk with ⟨hi, hnew⟩ | ⟨-, hold⟩
    · rcases update_eq_some.mp hl with ⟨hj, -⟩ | ⟨-, hold'⟩
      · exact hij (hi.trans hj.symm)
      · obtain rfl := Option.some.inj hnew
        exact hapart j l hold' x hx' hx
    · rcases update_eq_some.mp hl with ⟨-, hnew⟩ | ⟨-, hold'⟩
      · obtain rfl := Option.some.inj hnew
        exact hapart i k hold x hx hx'
      · exact hp.apart i j k l hij hold hold' x hx hx'
  · intro i k hk
    rcases update_eq_some.mp hk with ⟨-, hnew⟩ | ⟨-, hold⟩
    · exact Option.some.inj hnew ▸ hin
    · exact hp.inside i k hold
  · intro i k hk
    rcases update_eq_some.mp hk with ⟨-, hnew⟩ | ⟨-, hold⟩
    · exact Option.some.inj hnew ▸ hread
    · exact hp.windows i k hold
  · exact hp.untouched

/-! One operation. -/

theorem new_placed {t : HookState} (hp : Placed pool hooked mem₀ t.hooks t.mem)
    {id : Nat} {env' : Env} {src : VirtAddr} {dst : BitVec 64}
    (hoff : ∀ i h, t.hooks i = some h → ∀ x, Within h.src.val windowSize x → ¬ pool x)
    (hstub : ∀ n stub, env'.alloc n = some stub → ∀ x, Within stub n x → pool x)
    (hin : ∀ x, Within src.val windowSize x → hooked x)
    (hapart : ∀ i k, t.hooks i = some k → ∀ x, Within k.src.val windowSize x →
      ¬ Within src.val windowSize x) :
    Placed pool hooked mem₀ (t.step (.new id env' src dst)).hooks
      (t.step (.new id env' src dst)).mem := by
  have hframe : ∀ x, ¬ pool x → (KHook.new env' src dst t.mem).2 x = t.mem x := fun x hx =>
    KHook.new_frame env' src dst t.mem fun n stub ha hw => hx (hstub n stub ha x hw)
  have hkept := hp.congr hoff hframe
  rcases step_new t id env' src dst with ⟨h, mem, hn, hs⟩ | hs
  · rw [hn] at hkept
    obtain ⟨insns, copied, res, hb⟩ := KHook.new_ok hn
    have hsrc : h.src = src := by rw [hb.hook_eq]
    rw [hs]
    refine hkept.add ?_ (hsrc ▸ hin) (hsrc ▸ hapart)
    rw [hb.hook_eq]
    rfl
  · rw [hs]
    exact hkept

theorem placed_step {t : HookState} {s : Hooks × Kernel} {o : Use} {a : HookOp}
    (ht : t.hooks = s.1) (hp : Placed pool hooked mem₀ t.hooks t.mem)
    (hwindow : ∀ i h, t.hooks i = some h → h.originalBytes.length = windowSize ∧
      ∀ x, Within h.src.val windowSize x → ¬ pool x)
    (hsep : Separate pool hooked s o) (hdoes : Does env pool o a) :
    Placed pool hooked mem₀ (t.step a).hooks (t.step a).mem := by
  cases hdoes with
  | @new id src dst size p hpool =>
    obtain ⟨-, hin, hapart⟩ := hsep
    refine new_placed hp (fun i h hi => (hwindow i h hi).2) (fun n stub ha => ?_) hin (ht ▸ hapart)
    -- the pool answers for blocks of one size only
    unfold answering at ha
    dsimp only at ha
    split at ha
    · next hn => exact hn ▸ hpool stub ha
    · cases ha
  | enable id ok =>
    cases hid : t.hooks id with
    | none => rwa [HookState.step, hid]
    | some h =>
      rw [HookState.step, hid]
      refine hp.set hid (fun k hk => ?_) fun x hx => enable_frame hx
      obtain rfl := Option.some.inj hk
      obtain ⟨on, hkeep⟩ := KHook.enable_keeps ok h t.mem
      exact ⟨by rw [hkeep], enable_shown ok (hp.windows id h hid)⟩
  | disable id ok =>
    cases hid : t.hooks id with
    | none => rwa [HookState.step, hid]
    | some h =>
      obtain ⟨hlen, -⟩ := hwindow id h hid
      rw [HookState.step, hid]
      refine hp.set hid (fun k hk => ?_) fun x hx => disable_frame hlen hx
      obtain rfl := Option.some.inj hk
      obtain ⟨on, hkeep⟩ := KHook.disable_keeps ok h t.mem
      exact ⟨by rw [hkeep], disable_shown hlen ok (hp.windows id h hid)⟩
  | drop id ok =>
    cases hid : t.hooks id with
    | none => rwa [HookState.step, hid]
    | some h =>
      rw [HookState.step, hid]
      exact hp.set hid (fun k hk => by cases hk) fun x hx => disable_frame (hwindow id h hid).1 hx

/-- What holds between two operations. -/
structure Standing (env : Env) (pool hooked : BitVec 64 → Prop) (mem₀ : Mem 64)
    (s : Hooks × Kernel) : Prop where
  sound : Sound env pool s
  placed : Placed pool hooked mem₀ s.1 s.2.mem

/-- The program does what an operation of the model does, off the pool. -/
theorem perform_standing {s : Hooks × Kernel} {o : Use} (hs : Standing env pool hooked mem₀ s)
    (hsep : Separate pool hooked s o) : (perform env o s.1).Wp (Serves pool) Permits
      (Leaves (Standing env pool hooked mem₀) fun _ => Overflows env pool s o) s.2 := by
  obtain ⟨hs, hp⟩ := hs
  refine Prog.Wp.mono (fun _ _ h => h) (fun r k hk => ?_) (perform_kept hs hsep.allowed)
  cases r with
  | err e => exact e.elim
  | panic => exact hk.2 rfl
  | ok hooks =>
    obtain ⟨hsound, hfollows⟩ := hk.1 hooks rfl
    obtain ⟨a, hdoes, hhooks, hmem⟩ := hfollows ⟨s.2.mem, s.1⟩ ⟨rfl, fun _ _ => rfl⟩
    have hstep := placed_step (t := ⟨s.2.mem, s.1⟩) rfl hp hs.window hsep hdoes
    rw [hhooks] at hstep
    refine ⟨hsound, hstep.congr (fun i h hi => (hsound.window i h hi).2) fun x hx => ?_⟩
    exact (hmem x hx).symm

/-! Executing what is there. -/

/-- Where the window holds the original bytes, a straight-line prologue runs in place. -/
theorem run_prologue {isa : Isa} {src : BitVec 64} {bytes : List Byte} {insns : List Insn}
    {copied : Nat} {fs : List (Cpu → Cpu)} {mem : Mem 64}
    (hd : decodePrologue env src bytes = .ok (insns, copied))
    (hblock : Block isa src (insns.map Insn.bytes) fs) (hlen : bytes.length = windowSize)
    (hread : read mem src windowSize = bytes) (c : Cpu) :
    run isa mem insns.length ⟨src, c⟩ = some ⟨src + BitVec.ofNat 64 copied, applyAll fs c⟩ := by
  obtain ⟨-, -, hwin, hbytes⟩ := decodePrologue_spec hd
  have hcopied : (insns.map Insn.bytes).flatten.length = copied := by
    rw [hbytes, List.length_take, Nat.min_eq_left hwin]
  have hfront : read mem src (insns.map Insn.bytes).flatten.length =
      (insns.map Insn.bytes).flatten := by
    rw [hcopied, hbytes, ← hread, read_take _ _ (by rwa [hlen] at hwin)]
  have hrun := run_block hblock hfront c
  rwa [List.length_map, hcopied] at hrun

/-- Straight-line code with a jump behind it ends where the jump goes. -/
theorem run_then_jump {isa : Isa} {p target : BitVec 64} {bss : List (List Byte)}
    {fs : List (Cpu → Cpu)} {mem : Mem 64} (hblock : Block isa p bss fs)
    (hcode : read mem p bss.flatten.length = bss.flatten)
    (hjump : ∀ c, run isa mem (jumpSteps (p + BitVec.ofNat 64 bss.flatten.length) target)
        ⟨p + BitVec.ofNat 64 bss.flatten.length, c⟩ =
      some ⟨target, if Near (p + BitVec.ofNat 64 bss.flatten.length) target then c
        else c.setReg .rax target⟩) (c : Cpu) :
    run isa mem (bss.length + jumpSteps (p + BitVec.ofNat 64 bss.flatten.length) target) ⟨p, c⟩ =
      some ⟨target, if Near (p + BitVec.ofNat 64 bss.flatten.length) target then applyAll fs c
        else (applyAll fs c).setReg .rax target⟩ := by
  rw [run_add, run_block hblock hcode, Option.bind_some, hjump]

/-- With its window and its stub in place, a hook directs the calls. -/
theorem directs {isa : Isa} {h : KHook} {mem : Mem 64} (ht : Trampoline env h mem)
    (hlen : h.originalBytes.length = windowSize)
    (hwindow : read mem h.src.val windowSize = shown h) : Directs isa env h mem := by
  have hoff : h.isEnabled = false → read mem h.src.val windowSize = h.originalBytes := by
    intro hoff
    rw [hwindow, shown, hoff, if_neg Bool.false_ne_true]
  obtain ⟨insns, copied, res, hd, he, -, -, hcode, hback⟩ := ht
  refine ⟨fun hon c => ?_, hoff, fun hdis insns copied fs hd hblock c =>
    run_prologue hd hblock hlen (hoff hdis) c, insns, copied, res, h.originalStub.ptr,
    ⟨hd, rfl, he, hcode, run_jump hback, fun hnone fs hblock c => ?_⟩⟩
  · rw [shown, if_pos hon] at hwindow
    apply run_jump
    show read mem h.src.val h.jump.length = h.jump
    rw [← read_take _ _ h.jump_le_window, hwindow, List.take_left' rfl]
  · have hbuffer : res.codeBuffer = res.insns.flatten := by
      rw [BlockEncoderResult.codeBuffer, hnone, List.append_nil]
    have hjump := fun c => @run_jump isa _ _ _ hback c
    rw [hbuffer] at hcode hjump ⊢
    exact run_then_jump hblock hcode hjump c

/-! Runs. -/

theorem placed_start (mem : Mem 64) :
    Placed pool hooked mem (startKernel mem).1 (startKernel mem).2.mem := by
  have hnone : ∀ i h, (startKernel mem).1 i ≠ some h := fun _ _ => nofun
  exact ⟨fun i _ h _ _ hi => absurd hi (hnone i h), fun i h hi => absurd hi (hnone i h),
    fun i h hi => absurd hi (hnone i h), fun _ _ _ => rfl⟩

/-- **Where control goes.** Between any two operations of any run, whatever has failed, the
    calls of every live hook go where they should, and code that nothing was hooked in is
    as it was. -/
theorem hooks_control (isa : Isa) (env : Env) (pool hooked : BitVec 64 → Prop) (mem : Mem 64)
    (ops : List Use) (s : Hooks × Kernel) (hrun : Steps (Serves pool) (Separate pool hooked)
      (perform env) (startKernel mem) ops s) :
    (∀ i h, s.1 i = some h → Directs isa env h s.2.mem) ∧
      ∀ x, ¬ pool x → ¬ hooked x → s.2.mem x = mem x := by
  have hstart : Standing env pool hooked mem (startKernel mem) :=
    ⟨sound_start mem, placed_start mem⟩
  obtain ⟨hs, hp⟩ : Standing env pool hooked mem s := by
    refine steps_inv (fun s o hI hsep => Prog.Wp.mono (fun _ _ h => h) (fun r k hk hooks hr => ?_)
      (perform_standing hI hsep)) hstart hrun
    subst hr
    exact hk
  refine ⟨fun i h hi => ?_, hp.untouched⟩
  exact directs (hs.trampoline i h hi) (hs.window i h hi).1 (hp.windows i h hi)

end

/-! The hook in a function that begins with two `mov`s. -/

open KHook (hookVa detour codePage movMem movBytes movInsns movEffects nearStub prologue_mov
  mov_block mov_relocates Relocates)

theorem oneHook_separate : Separate stubPage codePage (startKernel movMem) (.new 0 hookVa detour) :=
  ⟨oneHook_allowed, fun x hx => hx.mono (by decide), fun i h hi => by cases hi⟩

/-- A CPU that has `nop` beside what is modelled. -/
def nopIsa : Isa := fun _ bs => if bs.take 1 = [0x90] then some (1, id) else none

/-- While the hook is disabled the `mov`s are executed in place. When it is enabled again its
    function goes to the destination, and the `mov`s are executed in the stub. -/
theorem hooks_control_oneHook : ∃ s₃ s,
    Steps (Serves stubPage) (Separate stubPage codePage) (perform movEnv) (startKernel movMem)
        restored s₃ ∧
      Steps (Serves stubPage) (Separate stubPage codePage) (perform movEnv) (startKernel movMem)
        oneHook s ∧
      s₃.1 0 = some liveHook ∧ s.1 0 = some { liveHook with enabled := true } ∧
      Relocates nopIsa hookVa.val nearStub movInsns ⟨movBytes, []⟩ movEffects ∧
      (∀ c, run nopIsa s₃.2.mem 2 ⟨hookVa.val, c⟩ =
        some ⟨hookVa.val + 20#64, applyAll movEffects c⟩) ∧
      (∀ c, run nopIsa s.2.mem 1 ⟨hookVa.val, c⟩ = some ⟨detour, c⟩) ∧
      (∀ c, run nopIsa s.2.mem 3 ⟨nearStub, c⟩ =
        some ⟨hookVa.val + 20#64, applyAll movEffects c⟩) ∧
      ∀ x, ¬ stubPage x → ¬ codePage x → s.2.mem x = movMem x := by
  obtain ⟨s₃, s, hrestored, hrun, hdisabled, hlive, -⟩ :=
    oneHook_steps oneHook_separate (fun _ => trivial) fun _ => trivial
  obtain ⟨hbefore, -⟩ := hooks_control nopIsa movEnv stubPage codePage movMem restored s₃ hrestored
  obtain ⟨hdirects, hrest⟩ := hooks_control nopIsa movEnv stubPage codePage movMem oneHook s hrun
  have hplace := (hbefore 0 _ hdisabled).inPlace rfl movInsns 20 movEffects
    (prologue_mov nearStub) (mov_block _ _)
  have hd := hdirects 0 _ hlive
  obtain ⟨insns, copied, res, p, hback⟩ := hd.original
  -- the code is what was found
  obtain ⟨rfl, rfl⟩ : movInsns = insns ∧ 20 = copied :=
    Prod.mk.inj (Except.ok.inj ((prologue_mov nearStub).symm.trans hback.prologue))
  obtain rfl : nearStub = p := Outcome.ok.inj hback.ptr
  obtain rfl : ⟨movBytes, []⟩ = res := Option.some.inj hback.encode
  exact ⟨s₃, s, hrestored, hrun, hdisabled, hlive, mov_relocates _ _ _, hplace, hd.enabled rfl,
    hback.moved rfl movEffects (mov_block _ _), hrest⟩

end HookKernel
end WinKernl
