import WinKernl.HookReturns

/- What any use of hooks leaves in the kernel (`khook.rs`).

   The kernel may fail every call that can fail, and may choose every address it gives; the
   client creates, enables, disables and drops hooks in any order, where what is hooked lies
   off the pool. `Sound` is what then holds between two operations: there is no descriptor
   list, the pool blocks in use are the stubs of the live hooks, each once, and every live
   hook has its trampoline. `hooks_sound` adds that nothing is ever asked that is not
   permitted, `hooks_simulate` that the code is, at every moment, as in a run of the model
   in which a write succeeds or fails. -/
namespace WinKernl
open ByteMem Ask Runs

namespace HookKernel
open KHook (windowSize returnJump)

/-- A handle that is free, for code off the pool. -/
def Allowed (pool : BitVec 64 → Prop) (s : Hooks × Kernel) : Use → Prop
  | .new id src _ => s.1 id = none ∧ ∀ x, Within src.val windowSize x → ¬ pool x
  | _ => True

/-- The stub holds the instructions that the saved bytes begin with, relocated, and the jump
    back behind them. -/
def Trampoline (env : Env) (h : KHook) (mem : Mem 64) : Prop :=
  ∃ insns copied res,
    decodePrologue env h.src.val h.originalBytes = .ok (insns, copied) ∧
    env.encode insns h.originalStub.ptr = some res ∧
    h.originalStub.len = copied + hookSizeAbsolute ∧
    res.codeBuffer.length + (returnJump h.originalStub.ptr res h.src copied).length ≤
      h.originalStub.len ∧
    read mem h.originalStub.ptr res.codeBuffer.length = res.codeBuffer ∧
    read mem (h.originalStub.ptr + BitVec.ofNat 64 res.codeBuffer.length)
      (returnJump h.originalStub.ptr res h.src copied).length =
        returnJump h.originalStub.ptr res h.src copied

structure Sound (env : Env) (pool : BitVec 64 → Prop) (s : Hooks × Kernel) : Prop where
  ledger : s.2.ledger = .empty
  owned : ∀ p n, s.2.blocks p = some n ↔ ∃ i h, s.1 i = some h ∧ h.originalStub = ⟨p, n⟩
  unshared : ∀ i j h h', s.1 i = some h → s.1 j = some h' →
    h.originalStub.ptr = h'.originalStub.ptr → i = j
  inPool : ∀ p n, s.2.blocks p = some n → ∀ x, Within p n x → pool x
  apart : ∀ p n q m, p ≠ q → s.2.blocks p = some n → s.2.blocks q = some m →
    ∀ x, Within p n x → ¬ Within q m x
  window : ∀ i h, s.1 i = some h → h.originalBytes.length = windowSize ∧
    ∀ x, Within h.src.val windowSize x → ¬ pool x
  trampoline : ∀ i h, s.1 i = some h → Trampoline env h s.2.mem

section
variable {env : Env} {pool : BitVec 64 → Prop}

/-! What the operations touch. -/

theorem Trampoline.congr {h : KHook} {mem mem' : Mem 64} (ht : Trampoline env h mem)
    (hmem : ∀ x, Within h.originalStub.ptr h.originalStub.len x → mem' x = mem x) :
    Trampoline env h mem' := by
  obtain ⟨insns, copied, res, hd, he, hlen, hfit, hcode, hjump⟩ := ht
  refine ⟨insns, copied, res, hd, he, hlen, hfit, ?_, ?_⟩
  · rw [read_congr fun x hx => hmem x (hx.mono (by omega))]
    exact hcode
  · rw [read_congr fun x hx => hmem x (hx.of_add hfit)]
    exact hjump

/-- A hook that is built has its trampoline. -/
theorem built_trampoline {src : VirtAddr} {dst : BitVec 64} {mem mem' : Mem 64} {h : KHook}
    {insns : List Insn} {copied : Nat} {res : BlockEncoderResult} {size : Nat}
    {p : Option (BitVec 64)}
    (hb : KHook.Built (answering env size p) src dst mem h mem' insns copied res)
    (hwindow : ∀ x, Within src.val windowSize x → mem' x = mem x) : Trampoline env h mem' := by
  have hsrc : h.src = src := by rw [hb.hook_eq]
  have hlen : h.originalStub.len = copied + hookSizeAbsolute := by rw [hb.hook_eq]
  have hbytes : h.originalBytes = read mem src.val windowSize := by
    rw [hb.hook_eq]
    exact read_congr hwindow
  refine ⟨insns, copied, res, ?_, hb.encode, hlen, ?_, ?_⟩
  · rw [hsrc, hbytes, ← decodePrologue_answering env size p]
    exact hb.prologue
  · rw [hsrc, hlen]
    exact hb.fits
  · rw [hsrc]
    exact hb.read_stub

/-- Bytes behind the window stay. -/
theorem enable_frame {h : KHook} {ok : Bool} {mem : Mem 64} {x : BitVec 64}
    (hx : ¬ Within h.src.val windowSize x) : (h.enable ok mem).2.2 x = mem x := by
  unfold KHook.enable
  split
  · rfl
  · cases ok with
    | false => rfl
    | true => exact write_outside fun hp => hx (KHook.Patched.within hp)

theorem disable_frame {h : KHook} (hlen : h.originalBytes.length = windowSize) {ok : Bool}
    {mem : Mem 64} {x : BitVec 64} (hx : ¬ Within h.src.val windowSize x) :
    (h.disable ok mem).2.2 x = mem x := by
  unfold KHook.disable
  split
  · cases ok with
    | false => rfl
    | true => exact write_outside (by rwa [hlen])
  · rfl

/-- A stub is off the window of every hook. -/
theorem Sound.stub_off_window {s : Hooks × Kernel} (hs : Sound env pool s) {i j : Nat}
    {h k : KHook} (hi : s.1 i = some h) (hj : s.1 j = some k) {x : BitVec 64}
    (hx : Within h.originalStub.ptr h.originalStub.len x) : ¬ Within k.src.val windowSize x :=
  fun hw => (hs.window j k hj).2 x hw (hs.inPool _ _ ((hs.owned _ _).mpr ⟨i, h, hi, rfl⟩) x hx)

/-! One operation. -/

theorem update_eq_some {ι β : Type} [DecidableEq ι] {f : ι → Option β} {id i : ι} {o : Option β}
    {k : β} : Function.update f id o i = some k ↔ (i = id ∧ o = some k) ∨ (i ≠ id ∧ f i = some k) := by
  by_cases hi : i = id
  · subst hi
    simp
  · simp [hi]

/-- Code is written: only a flag and memory off the stubs change. -/
theorem Sound.patch {s : Hooks × Kernel} (hs : Sound env pool s) {id : Nat} {h : KHook} {on : Bool}
    (hid : s.1 id = some h) {mem : Mem 64}
    (hmem : ∀ x, ¬ Within h.src.val windowSize x → mem x = s.2.mem x) :
    Sound env pool (Function.update s.1 id (some { h with enabled := on }),
      { s.2 with mem := mem }) := by
  -- every hook is one of before, but for its flag
  have hold : ∀ i k, Function.update s.1 id (some { h with enabled := on }) i = some k →
      ∃ k' b, s.1 i = some k' ∧ k = { k' with enabled := b } := by
    intro i k hk
    rcases update_eq_some.mp hk with ⟨rfl, hnew⟩ | ⟨-, hold⟩
    · exact ⟨h, on, hid, (Option.some.inj hnew).symm⟩
    · exact ⟨k, k.enabled, hold, rfl⟩
  refine ⟨hs.ledger, fun p n => (hs.owned p n).trans ⟨fun hp => ?_, fun hp => ?_⟩, ?_, hs.inPool,
    hs.apart, ?_, ?_⟩
  · obtain ⟨i, k, hk, hstub⟩ := hp
    by_cases hi : i = id
    · subst hi
      obtain rfl := Option.some.inj (hid.symm.trans hk)
      exact ⟨i, _, Function.update_self .., hstub⟩
    · exact ⟨i, k, (Function.update_of_ne hi ..).trans hk, hstub⟩
  · obtain ⟨i, k, hk, hstub⟩ := hp
    obtain ⟨k', b, hk', rfl⟩ := hold i k hk
    exact ⟨i, k', hk', hstub⟩
  · intro i j k l hk hl hptr
    obtain ⟨k', b, hk', rfl⟩ := hold i k hk
    obtain ⟨l', b', hl', rfl⟩ := hold j l hl
    exact hs.unshared i j k' l' hk' hl' hptr
  · intro i k hk
    obtain ⟨k', b, hk', rfl⟩ := hold i k hk
    exact hs.window i k' hk'
  · intro i k hk
    obtain ⟨k', b, hk', rfl⟩ := hold i k hk
    exact (hs.trampoline i k' hk').congr fun x hx => hmem x (hs.stub_off_window hk' hid hx)

/-- A hook is gone with its stub. -/
theorem Sound.remove {s : Hooks × Kernel} (hs : Sound env pool s) {id : Nat} {h : KHook}
    (hid : s.1 id = some h) {k : Kernel} (hledger : k.ledger = .empty)
    (hblocks : k.blocks = Function.update s.2.blocks h.originalStub.ptr none)
    (hmem : ∀ x, ¬ Within h.src.val windowSize x →
      ¬ Within h.originalStub.ptr h.originalStub.len x → k.mem x = s.2.mem x) :
    Sound env pool (Function.update s.1 id none, k) := by
  have hhooks : ∀ i k, Function.update s.1 id none i = some k ↔ i ≠ id ∧ s.1 i = some k := by
    intro i k
    rw [update_eq_some]
    simp
  have hin : ∀ p n, k.blocks p = some n ↔ p ≠ h.originalStub.ptr ∧ s.2.blocks p = some n := by
    intro p n
    rw [hblocks]
    by_cases hp : p = h.originalStub.ptr
    · simp [hp]
    · simp [hp]
  refine ⟨hledger, fun p n => ?_, ?_, fun p n hp => hs.inPool p n ((hin p n).mp hp).2,
    fun p n q m hpq hp hq => hs.apart p n q m hpq ((hin p n).mp hp).2 ((hin q m).mp hq).2, ?_, ?_⟩
  · rw [hin, hs.owned]
    constructor
    · intro hp
      obtain ⟨hne, i, k, hk, hstub⟩ := hp
      refine ⟨i, k, (hhooks i k).mpr ⟨fun hi => hne ?_, hk⟩, hstub⟩
      subst hi
      obtain rfl := Option.some.inj (hid.symm.trans hk)
      rw [hstub]
    · intro hp
      obtain ⟨i, k, hk, hstub⟩ := hp
      obtain ⟨hne, hk⟩ := (hhooks i k).mp hk
      refine ⟨fun heq => hne (hs.unshared i id k h hk hid ?_), i, k, hk, hstub⟩
      rw [hstub]
      exact heq
  · exact fun i j k l hk hl => hs.unshared i j k l ((hhooks i k).mp hk).2 ((hhooks j l).mp hl).2
  · exact fun i k hk => hs.window i k ((hhooks i k).mp hk).2
  · intro i k hk
    obtain ⟨hne, hk⟩ := (hhooks i k).mp hk
    refine (hs.trampoline i k hk).congr fun x hx => hmem x (hs.stub_off_window hk hid hx) ?_
    -- the other stubs are in other blocks
    exact hs.apart _ _ _ _ (fun heq => hne (hs.unshared i id k h hk hid heq))
      ((hs.owned _ _).mpr ⟨i, k, hk, rfl⟩) ((hs.owned _ _).mpr ⟨id, h, hid, rfl⟩) x hx

/-- Memory has changed in a block of the pool that is not in use. -/
theorem Sound.frame {s : Hooks × Kernel} (hs : Sound env pool s) {n : Nat} {p : BitVec 64}
    (hfresh : Fresh pool s.2 n p) {k : Kernel} (hledger : k.ledger = s.2.ledger)
    (hblocks : k.blocks = s.2.blocks) (hmem : ∀ x, ¬ Within p n x → k.mem x = s.2.mem x) :
    Sound env pool (s.1, k) := by
  refine ⟨hledger.trans hs.ledger, ?_, hs.unshared, ?_, ?_, hs.window, fun i h hi => ?_⟩
  · rw [hblocks]
    exact hs.owned
  · rw [hblocks]
    exact hs.inPool
  · rw [hblocks]
    exact hs.apart
  · refine (hs.trampoline i h hi).congr fun x hx => hmem x ?_
    exact hfresh.apart _ _ ((hs.owned _ _).mpr ⟨i, h, hi, rfl⟩) x hx

/-- A hook is there with its stub. -/
theorem Sound.add {s : Hooks × Kernel} (hs : Sound env pool s) {id : Nat} {src : VirtAddr}
    {dst : BitVec 64} (hfree : s.1 id = none)
    (hoff : ∀ x, Within src.val windowSize x → ¬ pool x) {h : KHook} {mem : Mem 64}
    {insns : List Insn} {copied : Nat} {res : BlockEncoderResult}
    (hfresh : Fresh pool s.2 (copied + hookSizeAbsolute) h.originalStub.ptr)
    (hb : KHook.Built (answering env (copied + hookSizeAbsolute) (some h.originalStub.ptr)) src dst
      s.2.mem h mem insns copied res) : Sound env pool (Function.update s.1 id (some h), ⟨mem, s.2.ledger,
        Function.update s.2.blocks h.originalStub.ptr (some (copied + hookSizeAbsolute))⟩) := by
  have hstub : h.originalStub = ⟨h.originalStub.ptr, copied + hookSizeAbsolute⟩ := by
    rw [hb.hook_eq]
  have hframe : ∀ x, ¬ Within h.originalStub.ptr (copied + hookSizeAbsolute) x →
      mem x = s.2.mem x := fun x hx => hb.frame hx
  have hwindow : ∀ x, Within src.val windowSize x → mem x = s.2.mem x := fun x hx =>
    hframe x fun hin => hoff x hx (hfresh.inPool x hin)
  -- the stubs there were are in blocks in use
  have hused : ∀ i k, s.1 i = some k → s.2.blocks k.originalStub.ptr = some k.originalStub.len :=
    fun i k hk => (hs.owned _ _).mpr ⟨i, k, hk, rfl⟩
  have hother : ∀ i k, s.1 i = some k → k.originalStub.ptr ≠ h.originalStub.ptr := by
    intro i k hk heq
    have := hused i k hk
    rw [heq, hfresh.unused] at this
    cases this
  have hne : ∀ i k, s.1 i = some k → i ≠ id := by
    intro i k hk heq
    subst heq
    rw [hfree] at hk
    cases hk
  refine ⟨hs.ledger, fun p n => ?_, fun i j k l hk hl hptr => ?_, fun p n hp => ?_,
    fun p n q m hpq hp hq => ?_, fun i k hk => ?_, fun i k hk => ?_⟩
  · dsimp only
    rw [update_eq_some, hs.owned, Option.some.injEq]
    constructor
    · intro hp
      rcases hp with ⟨rfl, rfl⟩ | ⟨-, i, k, hk, hkstub⟩
      · exact ⟨id, h, Function.update_self .., hstub⟩
      · exact ⟨i, k, update_eq_some.mpr (.inr ⟨hne i k hk, hk⟩), hkstub⟩
    · intro hp
      obtain ⟨i, k, hk, hkstub⟩ := hp
      rcases update_eq_some.mp hk with ⟨-, hnew⟩ | ⟨-, hold⟩
      · obtain rfl := Option.some.inj hnew
        rw [hstub, Stub.mk.injEq] at hkstub
        exact .inl ⟨hkstub.1.symm, hkstub.2⟩
      · refine .inr ⟨fun heq => hother i k hold ?_, i, k, hold, hkstub⟩
        rw [hkstub]
        exact heq
  · rcases update_eq_some.mp hk with ⟨hi, hnew⟩ | ⟨-, hold⟩
    · rcases update_eq_some.mp hl with ⟨hj, -⟩ | ⟨-, hold'⟩
      · exact hi.trans hj.symm
      · obtain rfl := Option.some.inj hnew
        exact absurd hptr.symm (hother j l hold')
    · rcases update_eq_some.mp hl with ⟨hj, hnew⟩ | ⟨-, hold'⟩
      · obtain rfl := Option.some.inj hnew
        exact absurd hptr (hother i k hold)
      · exact hs.unshared i j k l hold hold' hptr
  · rcases update_eq_some.mp hp with ⟨rfl, hnew⟩ | ⟨-, hold⟩
    · obtain rfl := Option.some.inj hnew
      exact hfresh.inPool
    · exact hs.inPool p n hold
  · rcases update_eq_some.mp hp with ⟨rfl, hnew⟩ | ⟨-, hold⟩
    · obtain rfl := Option.some.inj hnew
      rcases update_eq_some.mp hq with ⟨rfl, -⟩ | ⟨-, hold'⟩
      · exact absurd rfl hpq
      · exact fun x hx hx' => hfresh.apart q m hold' x hx' hx
    · rcases update_eq_some.mp hq with ⟨rfl, hnew⟩ | ⟨-, hold'⟩
      · obtain rfl := Option.some.inj hnew
        exact hfresh.apart p n hold
      · exact hs.apart p n q m hpq hold hold'
  · rcases update_eq_some.mp hk with ⟨-, hnew⟩ | ⟨-, hold⟩
    · obtain rfl := Option.some.inj hnew
      rw [hb.hook_eq]
      exact ⟨read_length _ _ _, hoff⟩
    · exact hs.window i k hold
  · rcases update_eq_some.mp hk with ⟨-, hnew⟩ | ⟨-, hold⟩
    · obtain rfl := Option.some.inj hnew
      exact built_trampoline hb hwindow
    · exact (hs.trampoline i k hold).congr fun x hx =>
        hframe x (hfresh.apart _ _ (hused i k hold) x hx)

/-! The same operation in the model in which a write succeeds or fails. -/

/-- The operation is `a`, for what the pool and the writes turn out to do. -/
inductive Does (env : Env) (pool : BitVec 64 → Prop) : Use → HookOp → Prop where
  | new (id : Nat) (src : VirtAddr) (dst : BitVec 64) {size : Nat} {p : Option (BitVec 64)}
      (hp : ∀ stub, p = some stub → ∀ x, Within stub size x → pool x) :
      Does env pool (.new id src dst) (.new id (answering env size p) src dst)
  | enable (id : Nat) (ok : Bool) : Does env pool (.enable id) (.enable id ok)
  | disable (id : Nat) (ok : Bool) : Does env pool (.disable id) (.disable id ok)
  | drop (id : Nat) (ok : Bool) : Does env pool (.drop id) (.drop id ok)

/-- The model has the same hooks, and the same memory off the pool. -/
def Shows (pool : BitVec 64 → Prop) (t : HookState) (s : Hooks × Kernel) : Prop :=
  t.hooks = s.1 ∧ ∀ x, ¬ pool x → t.mem x = s.2.mem x

/-- What the operation does here, one of its kind does in the model. -/
def Follows (env : Env) (pool : BitVec 64 → Prop) (o : Use) (s s' : Hooks × Kernel) : Prop :=
  ∀ t, Shows pool t s → ∃ a, Does env pool o a ∧ Shows pool (t.step a) s'

theorem set_eq_update {t : HookState} {hooks : Hooks} (h : t.hooks = hooks) {id : Nat}
    {o : Option KHook} : t.set id o = Function.update hooks id o := by
  rw [HookState.set, h]

theorem write_at {m m' : Mem 64} {a x : BitVec 64} {bs : List Byte} (h : m x = m' x) :
    write m a bs x = write m' a bs x := by
  simp only [write, h]

theorem enable_congr (h : KHook) (ok : Bool) (m m' : Mem 64) :
    (h.enable ok m).2.1 = (h.enable ok m').2.1 ∧
      ∀ x, m x = m' x → (h.enable ok m).2.2 x = (h.enable ok m').2.2 x := by
  unfold KHook.enable
  split
  · exact ⟨rfl, fun _ hx => hx⟩
  · cases ok with
    | false => exact ⟨rfl, fun _ hx => hx⟩
    | true => exact ⟨rfl, fun _ hx => write_at hx⟩

theorem disable_congr (h : KHook) (ok : Bool) (m m' : Mem 64) :
    (h.disable ok m).2.1 = (h.disable ok m').2.1 ∧
      ∀ x, m x = m' x → (h.disable ok m).2.2 x = (h.disable ok m').2.2 x := by
  unfold KHook.disable
  split
  · cases ok with
    | false => exact ⟨rfl, fun _ hx => hx⟩
    | true => exact ⟨rfl, fun _ hx => write_at hx⟩
  · exact ⟨rfl, fun _ hx => hx⟩

/-- What `Built` says is what `new` returns. -/
theorem new_of_built {env : Env} {src : VirtAddr} {dst : BitVec 64} {mem mem' : Mem 64} {h : KHook}
    {insns : List Insn} {copied : Nat} {res : BlockEncoderResult}
    (hb : KHook.Built env src dst mem h mem' insns copied res) :
    KHook.new env src dst mem = (.ok h, mem') := by
  have hrun := KHook.new_run env src dst mem
  generalize KHook.new env src dst mem = r at hrun
  cases hrun with
  | invalid hd => cases hb.prologue.symm.trans hd
  | unallocated hd ha =>
    cases hb.prologue.symm.trans hd
    cases hb.alloc.symm.trans ha
  | unencoded hd ha he =>
    cases hb.prologue.symm.trans hd
    cases hb.alloc.symm.trans ha
    cases hb.encode.symm.trans he
  | noRoom hd ha he hfit =>
    cases hb.prologue.symm.trans hd
    cases hb.alloc.symm.trans ha
    cases hb.encode.symm.trans he
    exact absurd hb.fits (Nat.not_le_of_lt hfit)
  | built hb' =>
    cases hb.prologue.symm.trans hb'.prologue
    have hptr := Option.some.inj (hb'.alloc.symm.trans hb.alloc)
    have hencode := hb'.encode
    rw [hptr] at hencode
    cases hb.encode.symm.trans hencode
    have hmem := hb'.mem_eq
    rw [hptr, ← hb.mem_eq] at hmem
    have hhook := hb'.hook_eq
    rw [hptr, hmem, ← hb.hook_eq] at hhook
    rw [hhook, hmem]

/-- Memory that agrees off the pool has the same hook built, in the same stub. -/
theorem built_transfer {src : VirtAddr} {dst : BitVec 64} {mem mem' m : Mem 64} {h : KHook}
    {env' : Env} {insns : List Insn} {copied : Nat} {res : BlockEncoderResult}
    (hb : KHook.Built env' src dst mem h mem' insns copied res)
    (hoff : ∀ x, Within src.val windowSize x → ¬ pool x)
    (hm : ∀ x, ¬ pool x → m x = mem x) :
    ∃ m', KHook.Built env' src dst m h m' insns copied res ∧ ∀ x, ¬ pool x → m' x = mem' x := by
  have hwritten : ∀ x, ¬ pool x → write (write m h.originalStub.ptr
      (List.replicate (copied + hookSizeAbsolute) 0)) h.originalStub.ptr
      (res.codeBuffer ++ returnJump h.originalStub.ptr res src copied) x = mem' x := by
    intro x hx
    rw [hb.mem_eq]
    exact write_at (write_at (hm x hx))
  refine ⟨_, ⟨?_, hb.alloc, hb.encode, hb.fits, rfl, ?_⟩, hwritten⟩
  · rw [read_congr fun x hx => hm x (hoff x hx)]
    exact hb.prologue
  · rw [read_congr fun x hx => hwritten x (hoff x hx)]
    exact hb.hook_eq

/-! Every operation. -/

/-- The operation is a `new` that can get a stub for which the encoder returns more than it
    has room for. -/
def Overflows (env : Env) (pool : BitVec 64 → Prop) (s : Hooks × Kernel) : Use → Prop
  | .new _ src _ => ∃ insns copied p res,
      decodePrologue env src.val (read s.2.mem src.val windowSize) = .ok (insns, copied) ∧
      Fresh pool s.2 (copied + hookSizeAbsolute) p ∧ env.encode insns p = some res ∧
      copied + hookSizeAbsolute < res.codeBuffer.length + (returnJump p res src copied).length
  | _ => False

/-- What an operation that comes back leaves, and why it may not come back. -/
def Kept (env : Env) (pool : BitVec 64 → Prop) (o : Use) (s : Hooks × Kernel)
    (r : Outcome Empty Hooks) (k : Kernel) : Prop :=
  (∀ hooks, r = .ok hooks → Sound env pool (hooks, k) ∧ Follows env pool o s (hooks, k)) ∧
    (r = .panic → Overflows env pool s o)

theorem Kept.ok {o : Use} {s : Hooks × Kernel} {hooks : Hooks} {k : Kernel}
    (hs : Sound env pool (hooks, k)) (hf : Follows env pool o s (hooks, k)) :
    Kept env pool o s (.ok hooks) k := by
  refine ⟨fun hooks' h => ?_, nofun⟩
  obtain rfl := Outcome.ok.inj h
  exact ⟨hs, hf⟩

/-- A `new` that returns an error. -/
theorem follows_err {s : Hooks × Kernel} {k : Kernel} {id : Nat} {src : VirtAddr} {dst : BitVec 64}
    (size : Nat) (p : Option (BitVec 64))
    (hp : ∀ stub, p = some stub → ∀ x, Within stub size x → pool x)
    (h : ∀ t, Shows pool t s → ∃ e m, KHook.new (answering env size p) src dst t.mem = (.err e, m) ∧
      ∀ x, ¬ pool x → m x = k.mem x) : Follows env pool (.new id src dst) s (s.1, k) := by
  intro t ht
  obtain ⟨e, m, hnew, hm⟩ := h t ht
  refine ⟨_, .new id src dst hp, ?_⟩
  rw [HookState.step, hnew]
  exact ⟨ht.1, hm⟩

theorem new_kept {s : Hooks × Kernel} (hs : Sound env pool s) {id : Nat} {src : VirtAddr}
    {dst : BitVec 64} (hfree : s.1 id = none) (hoff : ∀ x, Within src.val windowSize x → ¬ pool x) :
    (perform env (.new id src dst) s.1).Wp (Serves pool) Permits
      (Kept env pool (.new id src dst) s) s.2 := by
  refine Prog.wp_bind.mpr (Prog.wp_attempt.mpr (Prog.Wp.mono (fun _ _ h => h) (fun o k hk => ?_)
    new_wp))
  have hwindow : ∀ t, Shows pool t s → read t.mem src.val windowSize =
      read s.2.mem src.val windowSize := fun t ht => read_congr fun x hx => ht.2 x (hoff x hx)
  cases hk with
  | @invalid e hd =>
    refine .ok hs (follows_err 0 none nofun fun t ht => ⟨e, t.mem, ?_, ht.2⟩)
    rw [KHook.new, decodePrologue_answering, hwindow t ht, hd]
  | unallocated hd =>
    refine .ok hs (follows_err 0 none nofun fun t ht => ⟨.allocationFailed, t.mem, ?_, ht.2⟩)
    rw [KHook.new, decodePrologue_answering, hwindow t ht, hd]
    simp only [answering, ite_self]
  | @unencoded insns copied p k hd hfresh he hledger hblocks hmem =>
    refine .ok (hs.frame hfresh hledger hblocks hmem)
      (follows_err (copied + hookSizeAbsolute) (some p) (fun stub h => ?_) fun t ht => ⟨.blockInsn,
        write t.mem p (List.replicate (copied + hookSizeAbsolute) 0), ?_, fun x hx => ?_⟩)
    · cases h
      exact hfresh.inPool
    · rw [KHook.new, decodePrologue_answering, hwindow t ht, hd]
      simp only [answering, if_true, he]
    · -- what the block holds is not seen
      have hout : ¬ Within p (copied + hookSizeAbsolute) x := fun h => hx (hfresh.inPool x h)
      rw [hmem x hout, write_outside (by rwa [List.length_replicate])]
      exact ht.2 x hx
  | noRoom hd hfresh he hfit => exact ⟨nofun, fun _ => ⟨_, _, _, _, hd, hfresh, he, hfit⟩⟩
  | @built h mem' insns copied res hfresh hb =>
    have hdoes : Does env pool (.new id src dst) (.new id
        (answering env (copied + hookSizeAbsolute) (some h.originalStub.ptr)) src dst) := by
      refine .new id src dst fun stub hstub => ?_
      cases hstub
      exact hfresh.inPool
    refine .ok (hs.add hfree hoff hfresh hb) fun t ht => ⟨_, hdoes, ?_⟩
    obtain ⟨m', hb', hm'⟩ := built_transfer hb hoff ht.2
    rw [HookState.step, new_of_built hb']
    exact ⟨set_eq_update ht.1, hm'⟩

/-- A call on a handle without a hook does nothing, here and in the model. -/
theorem idle_kept {s : Hooks × Kernel} (hs : Sound env pool s) {o : Use} {a : HookOp}
    (hdoes : Does env pool o a) (hidle : ∀ t : HookState, t.hooks = s.1 → t.step a = t) :
    (.ok s.1 : HookProg Empty Hooks).Wp (Serves pool) Permits (Kept env pool o s) s.2 := by
  refine .ok hs fun t ht => ⟨a, hdoes, ?_⟩
  rw [hidle t ht.1]
  exact ht

theorem enable_kept {s : Hooks × Kernel} (hs : Sound env pool s) (id : Nat) :
    (perform env (.enable id) s.1).Wp (Serves pool) Permits (Kept env pool (.enable id) s) s.2 := by
  rw [perform]
  cases hid : s.1 id with
  | none =>
    refine idle_kept hs (.enable id true) fun t ht => ?_
    rw [HookState.step, ht, hid]
  | some h =>
    refine Prog.Wp.bind (enable_wp hs.ledger) (fun r k hr => ?_) (fun e => e.elim)
      fun k hr => by cases hr.choose_spec.1
    obtain ⟨ok, hr, rfl⟩ := hr
    obtain rfl := Outcome.ok.inj hr
    obtain ⟨on, hkeep⟩ := KHook.enable_keeps ok h s.2.mem
    refine .ok ?_ fun t ht => ⟨_, .enable id ok, ?_⟩
    · rw [hkeep]
      exact hs.patch hid fun x hx => enable_frame hx
    · obtain ⟨hhook, hmem⟩ := enable_congr h ok t.mem s.2.mem
      rw [HookState.step, ht.1, hid]
      refine ⟨?_, fun x hx => hmem x (ht.2 x hx)⟩
      dsimp only
      rw [hhook]
      exact set_eq_update ht.1

theorem disable_kept {s : Hooks × Kernel} (hs : Sound env pool s) (id : Nat) :
    (perform env (.disable id) s.1).Wp (Serves pool) Permits (Kept env pool (.disable id) s)
      s.2 := by
  rw [perform]
  cases hid : s.1 id with
  | none =>
    refine idle_kept hs (.disable id true) fun t ht => ?_
    rw [HookState.step, ht, hid]
  | some h =>
    have hlen := (hs.window id h hid).1
    refine Prog.Wp.bind (disable_wp hlen hs.ledger) (fun r k hr => ?_) (fun e => e.elim)
      fun k hr => by cases hr.choose_spec.1
    obtain ⟨ok, hr, rfl⟩ := hr
    obtain rfl := Outcome.ok.inj hr
    obtain ⟨on, hkeep⟩ := KHook.disable_keeps ok h s.2.mem
    refine .ok ?_ fun t ht => ⟨_, .disable id ok, ?_⟩
    · rw [hkeep]
      exact hs.patch hid fun x hx => disable_frame hlen hx
    · obtain ⟨hhook, hmem⟩ := disable_congr h ok t.mem s.2.mem
      rw [HookState.step, ht.1, hid]
      refine ⟨?_, fun x hx => hmem x (ht.2 x hx)⟩
      dsimp only
      rw [hhook]
      exact set_eq_update ht.1

theorem drop_kept {s : Hooks × Kernel} (hs : Sound env pool s) (id : Nat) :
    (perform env (.drop id) s.1).Wp (Serves pool) Permits (Kept env pool (.drop id) s) s.2 := by
  rw [perform]
  cases hid : s.1 id with
  | none =>
    refine idle_kept hs (.drop id true) fun t ht => ?_
    rw [HookState.step, ht, hid]
  | some h =>
    have hlen := (hs.window id h hid).1
    have hstub : s.2.blocks h.originalStub.ptr = some h.originalStub.len :=
      (hs.owned _ _).mpr ⟨id, h, hid, rfl⟩
    refine Prog.Wp.bind (drop_wp hlen hs.ledger hstub) (fun r k hr => ?_) (fun e => e.elim)
      fun k hr => by cases hr.1
    obtain ⟨-, hledger, hblocks, ok, hmem⟩ := hr
    refine .ok (hs.remove hid hledger hblocks fun x hx hout => ?_) fun t ht =>
      ⟨_, .drop id ok, ?_⟩
    · rw [hmem x hout]
      exact disable_frame hlen hx
    · rw [HookState.step, ht.1, hid]
      refine ⟨set_eq_update ht.1, fun x hx => ?_⟩
      rw [hmem x fun h => hx (hs.inPool _ _ hstub x h)]
      exact (disable_congr h ok t.mem s.2.mem).2 x (ht.2 x hx)

theorem perform_kept {s : Hooks × Kernel} {o : Use} (hs : Sound env pool s)
    (ho : Allowed pool s o) :
    (perform env o s.1).Wp (Serves pool) Permits (Kept env pool o s) s.2 := by
  cases o with
  | new id src dst => exact new_kept hs ho.1 ho.2
  | enable id => exact enable_kept hs id
  | disable id => exact disable_kept hs id
  | drop id => exact drop_kept hs id

/-! Runs. -/

/-- No hook, no descriptor list and no block. -/
def startKernel (mem : Mem 64) : Hooks × Kernel := (fun _ => none, ⟨mem, .empty, fun _ => none⟩)

theorem sound_start (mem : Mem 64) : Sound env pool (startKernel mem) := by
  have hnone : ∀ i h, (startKernel mem).1 i ≠ some h := fun _ _ => nofun
  refine ⟨rfl, fun p n => iff_of_false nofun fun h => ?_, fun i _ h _ hi => absurd hi (hnone i h),
    fun _ _ => nofun, fun _ _ _ _ _ => nofun, fun i h hi => absurd hi (hnone i h),
    fun i h hi => absurd hi (hnone i h)⟩
  obtain ⟨i, h, hi, -⟩ := h
  exact hnone i h hi

/-- An operation panics exactly where the pool can give it a stub without room. -/
theorem panics_iff {s : Hooks × Kernel} {o : Use} (hs : Sound env pool s) (ho : Allowed pool s o) :
    (∃ k, (perform env o s.1).Exec (Serves pool) s.2 .panic k) ↔ Overflows env pool s o := by
  constructor
  · intro h
    obtain ⟨k, hexec⟩ := h
    exact ((Prog.wp_iff.mp (perform_kept hs ho)).2 _ _ hexec).2 rfl
  · intro h
    cases o with
    | new id src dst =>
      obtain ⟨insns, copied, p, res, hd, hfresh, he, hfit⟩ := h
      obtain ⟨k, hexec⟩ := @new_panics pool s.2 env src dst insns copied p res hd hfresh he hfit
      have htried : (perform env (.new id src dst) s.1).Exec (ServesNew pool) s.2 .panic k :=
        Prog.Exec.bind_panic hexec.attempt
      exact ⟨k, htried.mono fun _ _ _ _ h => h.1⟩
    | enable id => exact h.elim
    | disable id => exact h.elim
    | drop id => exact h.elim

/-- **Hooks leave nothing behind.** Whatever fails, between any two operations of any run
    there is no descriptor list, the pool blocks in use are the stubs of the live hooks, and
    each live hook has its trampoline. The next operation, whichever it is, asks for
    nothing that is not permitted, and panics exactly where it is a `new` that can get a stub
    without room for what the encoder returns. -/
theorem hooks_sound (env : Env) (pool : BitVec 64 → Prop) (mem : Mem 64) (ops : List Use)
    (s : Hooks × Kernel)
    (hrun : Steps (Serves pool) (Allowed pool) (perform env) (startKernel mem) ops s) :
    Sound env pool s ∧ ∀ o, Allowed pool s o →
      (∀ k q, (perform env o s.1).Poses (Serves pool) s.2 k q → Permits k q) ∧
      ((∃ k, (perform env o s.1).Exec (Serves pool) s.2 .panic k) ↔ Overflows env pool s o) := by
  have hs : Sound env pool s := steps_inv (fun s o hs ho => Prog.Wp.mono (fun _ _ h => h)
    (fun r k hk c hc => (hk.1 c hc).1) (perform_kept hs ho)) (sound_start mem) hrun
  exact ⟨hs, fun o ho => ⟨(Prog.wp_iff.mp (perform_kept hs ho)).1, panics_iff hs ho⟩⟩

/-- **Hooks as the model has them.** A run is a run of the model in which every write
    succeeds or fails as a whole: the same hooks, and the same memory off the pool. -/
theorem hooks_simulate (env : Env) (pool : BitVec 64 → Prop) (mem : Mem 64) (ops : List Use)
    (s : Hooks × Kernel)
    (hrun : Steps (Serves pool) (Allowed pool) (perform env) (startKernel mem) ops s) :
    ∃ as, List.Forall₂ (Does env pool) ops as ∧
      Shows pool (final HookState.step (.init mem) as) s := by
  have hsim : ∃ as, List.Forall₂ (Does env pool) ops as ∧
      (Sound env pool s ∧ Shows pool (final HookState.step (.init mem) as) s) := by
    refine steps_simulate (S := fun s t => Sound env pool s ∧ Shows pool t s)
      (fun s o t hst ho => Prog.Wp.mono (fun _ _ h => h) (fun r k hk c hc => ?_)
        (perform_kept hst.1 ho)) ⟨sound_start mem, rfl, fun _ _ => rfl⟩ hrun
    obtain ⟨hsound, hfollows⟩ := hk.1 c hc
    obtain ⟨a, ha, hshows⟩ := hfollows t hst.2
    exact ⟨a, ha, hsound, hshows⟩
  obtain ⟨as, hdoes, -, hshows⟩ := hsim
  exact ⟨as, hdoes, hshows⟩

end

/-! One hook in a function that begins with two `mov`s. -/

open KHook (hookVa detour movMem movBytes movInsns nearStub moveBytes fixtureEnv)

def stubPage (x : BitVec 64) : Prop := Within nearStub 4096 x

def movEnv : Env := fixtureEnv nearStub moveBytes

def liveHook : KHook :=
  ⟨hookVa, detour, ⟨nearStub, 33⟩, read movMem hookVa.val windowSize, false⟩

theorem liveHook_built : ∃ mem', KHook.Built (answering movEnv 33 (some nearStub)) hookVa detour
    movMem liveHook mem' movInsns 20 ⟨movBytes, []⟩ := by
  have hnew : (KHook.new (answering movEnv 33 (some nearStub)) hookVa detour movMem).1 =
      .ok liveHook := by decide
  exact ⟨_, .of_new (Prod.ext hnew rfl) rfl rfl⟩

/-- Code that is only moved is as long as the bytes it was decoded from. -/
theorem moveBytes_fits {stub : BitVec 64} {pool : BitVec 64 → Prop} {s : Hooks × Kernel} {o : Use} :
    ¬ Overflows (fixtureEnv stub moveBytes) pool s o := by
  intro h
  cases o with
  | new id src dst =>
    obtain ⟨insns, copied, p, res, hd, -, he, hfit⟩ := h
    obtain ⟨-, -, hlen, hbytes⟩ := decodePrologue_spec hd
    cases he
    have hcode : (⟨insns.map Insn.bytes, []⟩ : BlockEncoderResult).codeBuffer.length = copied := by
      rw [BlockEncoderResult.codeBuffer, List.append_nil, hbytes, List.length_take,
        Nat.min_eq_left hlen]
    rw [hcode, returnJump, createAssemblyJump_length] at hfit
    unfold hookSizeAbsolute at hfit
    split at hfit <;> omega
  | enable id => exact h
  | disable id => exact h
  | drop id => exact h

/-- The hook is made, enabled and disabled. -/
def restored : List Use := [.new 0 hookVa detour, .enable 0, .disable 0]

/-- Then it is enabled again. -/
def oneHook : List Use := [.new 0 hookVa detour, .enable 0, .disable 0, .enable 0]

/-- The pool has room for the stub. -/
theorem liveHook_made : ∃ s : Hooks × Kernel,
    (perform movEnv (.new 0 hookVa detour) (startKernel movMem).1).Exec (ServesNew stubPage)
      (startKernel movMem).2 (.ok s.1) s.2 ∧ s.1 0 = some liveHook ∧ s.2.ledger = .empty := by
  obtain ⟨mem', hb⟩ := liveHook_built
  have hfresh : Fresh stubPage (startKernel movMem).2 (20 + hookSizeAbsolute)
      liveHook.originalStub.ptr :=
    ⟨by decide, rfl, fun x hx => hx.mono (by decide), fun _ _ h => by cases h⟩
  exact ⟨(Function.update (startKernel movMem).1 0 (some liveHook), _),
    perform_new_exec hb hfresh _ 0, by simp, rfl⟩

theorem liveHook_enables {s : Hooks × Kernel} (hid : s.1 0 = some liveHook)
    (hledger : s.2.ledger = .empty) : ∃ t : Hooks × Kernel,
      (perform movEnv (.enable 0) s.1).Exec (ServesNew stubPage) s.2 (.ok t.1) t.2 ∧
        t.1 0 = some { liveHook with enabled := true } ∧ t.2.ledger = .empty ∧
        read t.2.mem hookVa.val liveHook.jump.length = liveHook.jump :=
  ⟨(Function.update s.1 0 (some { liveHook with enabled := true }), _),
    perform_enable_exec movEnv hid rfl (by decide) hledger, by simp, hledger,
    read_write _ _ _ (by decide)⟩

theorem liveHook_disables {s : Hooks × Kernel}
    (hid : s.1 0 = some { liveHook with enabled := true }) (hledger : s.2.ledger = .empty) :
    ∃ t : Hooks × Kernel,
      (perform movEnv (.disable 0) s.1).Exec (ServesNew stubPage) s.2 (.ok t.1) t.2 ∧
        t.1 0 = some liveHook ∧ t.2.ledger = .empty :=
  ⟨(Function.update s.1 0 (some liveHook), _),
    perform_disable_exec movEnv hid rfl (by decide) (read_length _ _ _) hledger, by simp, hledger⟩

/-- All three writes are made. -/
theorem oneHook_steps {L : Hooks × Kernel → Use → Prop}
    (hnew : L (startKernel movMem) (.new 0 hookVa detour)) (henable : ∀ s, L s (.enable 0))
    (hdisable : ∀ s, L s (.disable 0)) : ∃ s₃ s,
      Steps (Serves stubPage) L (perform movEnv) (startKernel movMem) restored s₃ ∧
      Steps (Serves stubPage) L (perform movEnv) (startKernel movMem) oneHook s ∧
        s₃.1 0 = some liveHook ∧ s.1 0 = some { liveHook with enabled := true } ∧
        read s.2.mem hookVa.val liveHook.jump.length = liveHook.jump := by
  obtain ⟨s₁, h₁, hid₁, hl₁⟩ := liveHook_made
  obtain ⟨s₂, h₂, hid₂, hl₂, -⟩ := liveHook_enables hid₁ hl₁
  obtain ⟨s₃, h₃, hid₃, hl₃⟩ := liveHook_disables hid₂ hl₂
  obtain ⟨s₄, h₄, hid₄, -, hjump⟩ := liveHook_enables hid₃ hl₃
  have hrestored : Steps (ServesNew stubPage) L (perform movEnv) (startKernel movMem) restored s₃ :=
    ⟨hnew, s₁, h₁, henable _, s₂, h₂, hdisable _, s₃, h₃, rfl⟩
  have hsteps : Steps (ServesNew stubPage) L (perform movEnv) (startKernel movMem) oneHook s₄ :=
    ⟨hnew, s₁, h₁, henable _, s₂, h₂, hdisable _, s₃, h₃, henable _, s₄, h₄, rfl⟩
  exact ⟨s₃, s₄, hrestored.mono fun _ _ _ _ h => h.1, hsteps.mono fun _ _ _ _ h => h.1, hid₃, hid₄,
    hjump⟩

theorem oneHook_allowed : Allowed stubPage (startKernel movMem) (.new 0 hookVa detour) :=
  ⟨rfl, fun x hx => Within.off hx (by decide) (by decide)⟩

theorem hooks_sound_oneHook : ∃ s,
    Steps (Serves stubPage) (Allowed stubPage) (perform movEnv) (startKernel movMem) oneHook s ∧
      s.1 0 = some { liveHook with enabled := true } ∧
      read s.2.mem hookVa.val liveHook.jump.length = liveHook.jump ∧
      Sound movEnv stubPage s ∧ ∀ o, Allowed stubPage s o →
        (∀ k q, (perform movEnv o s.1).Poses (Serves stubPage) s.2 k q → Permits k q) ∧
        ∀ k, ¬ (perform movEnv o s.1).Exec (Serves stubPage) s.2 .panic k := by
  obtain ⟨-, s, -, hrun, -, hlive, hjump⟩ :=
    oneHook_steps oneHook_allowed (fun _ => trivial) fun _ => trivial
  obtain ⟨hs, hnext⟩ := hooks_sound movEnv stubPage movMem oneHook s hrun
  exact ⟨s, hrun, hlive, hjump, hs, fun o ho =>
    ⟨(hnext o ho).1, fun k h => moveBytes_fits ((hnext o ho).2.mp ⟨k, h⟩)⟩⟩

theorem hooks_simulate_oneHook : ∃ s as,
    Steps (Serves stubPage) (Allowed stubPage) (perform movEnv) (startKernel movMem) oneHook s ∧
      s.1 0 = some { liveHook with enabled := true } ∧
      read s.2.mem hookVa.val liveHook.jump.length = liveHook.jump ∧
      List.Forall₂ (Does movEnv stubPage) oneHook as ∧
      Shows stubPage (final HookState.step (.init movMem) as) s := by
  obtain ⟨-, s, -, hrun, -, hlive, hjump⟩ :=
    oneHook_steps oneHook_allowed (fun _ => trivial) fun _ => trivial
  obtain ⟨as, hdoes, hshows⟩ := hooks_simulate movEnv stubPage movMem oneHook s hrun
  exact ⟨s, as, hrun, hlive, hjump, hdoes, hshows⟩

end HookKernel
end WinKernl
