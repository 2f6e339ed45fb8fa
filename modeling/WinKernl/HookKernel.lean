import WinKernl.Lib.Server
import WinKernl.HookRuns
import WinKernl.MemorySlice
import WinKernl.ReadOnlyWrite

/- Hooks with everything they ask of the kernel (`khook.rs`, `memory/rw.rs`, `memory/mdl.rs`,
   `kalloc/pool.rs`).

   Correspondence (Rust ↔ Lean):
     `KHook::new`, its part behind the allocation ↔ `new`, `relocate`
     `enable`, `disable`, `drop`                  ↔ `enable`, `disable`, `drop`
     what a client does with a hook               ↔ `Use`, `perform`
     memory, descriptor lists and pool blocks     ↔ `Kernel`, `Serves`
   The stub is a `PoolMemorySlice`, and code is written by `write_to_read_only_memory`: both
   are the programs of these modules, and the kernel answers their requests, and fails them,
   as it likes. `Permits` says what may be asked: the protocol of the descriptor lists, no
   copy that is longer than its list, no write to the pool outside a block in use, and no
   block freed that is not in use. The vectors of `new` and `enable` (the instructions, the
   code buffer, the bytes of a jump, `originalBytes`) are values here: the blocks that the
   global allocator has for them are not among `Kernel.blocks`, and it does not fail. -/
namespace WinKernl
open ByteMem Ask

namespace HookKernel
open KHook (windowSize returnJump)

inductive HookReq where
  | read (ptr : BitVec 64) (n : Nat)
  | write (ptr : BitVec 64) (bytes : List Byte)
  | slice (q : SliceReq Byte)
  | exFreePool (ptr : BitVec 64)
  | mdl (q : MdlReq)

abbrev HookReq.Answer : HookReq → Type
  | .read _ _ => List Byte
  | .write _ _ => Unit
  | .slice q => q.Answer
  | .exFreePool _ => Unit
  | .mdl q => q.Answer

abbrev HookProg (ε α : Type) := Prog HookReq HookReq.Answer ε α

def onSlice {ε α : Type} (p : SliceProg Byte α) : HookProg ε α :=
  (p.mapErr Empty.elim).via fun q => .ask (.slice q) fun r => .ok r

def onMdl {ε α : Type} (p : MdlProg α) : HookProg ε α :=
  (p.mapErr Empty.elim).via fun q => .ask (.mdl q) fun r => .ok r

def nonPagedPoolExecute : PoolType := 0

/-- The part of `new` that has the stub: it is dropped where the encoder fails. -/
def relocate (env : Env) (src : VirtAddr) (dst : BitVec 64) (insnBlock : List Insn) (copied : Nat)
    (originalStub : MemorySlice PoolType) : HookProg KhookErr KHook :=
  match env.encode insnBlock originalStub.ptr with
  | none => .ask (.exFreePool originalStub.ptr) fun _ => .err .blockInsn
  | some newInsn =>
    let encodedLen := newInsn.codeBuffer.length
    if originalStub.len.toNat < encodedLen then .panic else
    .ask (.write originalStub.ptr newInsn.codeBuffer) fun _ =>
    let jumpIp := originalStub.ptr + BitVec.ofNat 64 encodedLen
    let targetJump := src.val + BitVec.ofNat 64 copied
    let asmJump := createAssemblyJump jumpIp targetJump
    if originalStub.len.toNat < encodedLen + asmJump.length then .panic else
    .ask (.write jumpIp asmJump) fun _ =>
    .ask (.read src.val windowSize) fun originalBytes =>
    .ok ⟨src, dst, ⟨originalStub.ptr, originalStub.len.toNat⟩, originalBytes, false⟩

def new (env : Env) (src : VirtAddr) (dst : BitVec 64) : HookProg KhookErr KHook :=
  .ask (.read src.val windowSize) fun srcSlice =>
  match decodePrologue env src.val srcSlice with
  | .error e => .err e
  | .ok (insnBlock, copied) =>
    onSlice (PoolMemorySlice.newWithPoolType 1#64 0#8 (BitVec.ofNat 64 (copied + hookSizeAbsolute))
      nonPagedPoolExecute) >>= fun originalStub =>
    match originalStub with
    | none => .err .allocationFailed
    | some originalStub => relocate env src dst insnBlock copied originalStub

def enable (h : KHook) : HookProg Empty (Option Unit × KHook) :=
  if h.enabled then .ok (some (), h) else
  onMdl (writeToReadOnlyMemory h.src h.jump) >>= fun written =>
  match written with
  | false => .ok (none, h)
  | true => .ok (some (), { h with enabled := true })

def disable (h : KHook) : HookProg Empty (Option Unit × KHook) :=
  if h.enabled then
    onMdl (writeToReadOnlyMemory h.src h.originalBytes) >>= fun written =>
    match written with
    | false => .ok (none, h)
    | true => .ok (some (), { h with enabled := false })
  else .ok (some (), { h with enabled := false })

/-- `Drop for KHook`, and then its field `original_stub`. -/
def drop (h : KHook) : HookProg Empty Unit :=
  disable h >>= fun _ => .ask (.exFreePool h.originalStub.ptr) .ok

/-! What a client does. -/

inductive Use where
  | new (id : Nat) (src : VirtAddr) (dst : BitVec 64)
  | enable (id : Nat)
  | disable (id : Nat)
  | drop (id : Nat)

abbrev Hooks := Nat → Option KHook

def perform (env : Env) : Use → Hooks → HookProg Empty Hooks
  | .new id src dst, hooks => (new env src dst).attempt >>= fun h =>
    match h with
    | .ok h => .ok (Function.update hooks id (some h))
    | .error _ => .ok hooks
  | .enable id, hooks =>
    match hooks id with
    | none => .ok hooks
    | some h => enable h >>= fun r => .ok (Function.update hooks id (some r.2))
  | .disable id, hooks =>
    match hooks id with
    | none => .ok hooks
    | some h => disable h >>= fun r => .ok (Function.update hooks id (some r.2))
  | .drop id, hooks =>
    match hooks id with
    | none => .ok hooks
    | some h => drop h >>= fun _ => .ok (Function.update hooks id none)

/-! The kernel's side. -/

/-- Memory, the descriptor lists, and the pool blocks in use with their sizes. -/
structure Kernel where
  mem : Mem 64
  ledger : Ledger
  blocks : BitVec 64 → Option Nat

/-- `n` bytes of the pool, in no block in use. -/
structure Fresh (pool : BitVec 64 → Prop) (k : Kernel) (n : Nat) (p : BitVec 64) : Prop where
  nonnull : p ≠ 0
  unused : k.blocks p = none
  inPool : ∀ x, Within p n x → pool x
  apart : ∀ q m, k.blocks q = some m → ∀ x, Within q m x → ¬ Within p n x

/-- A new block; what is in it is not known. -/
def Allocates (pool : BitVec 64 → Prop) (k : Kernel) (n : Nat) (p : BitVec 64) (k' : Kernel) :
    Prop :=
  Fresh pool k n p ∧ k'.ledger = k.ledger ∧ k'.blocks = Function.update k.blocks p (some n) ∧
  ∀ x, ¬ Within p n x → k'.mem x = k.mem x

/-- A new block with `bs` at its front. -/
def Kernel.withBlock (k : Kernel) (p : BitVec 64) (n : Nat) (bs : List Byte) : Kernel :=
  ⟨ByteMem.write k.mem p bs, k.ledger, Function.update k.blocks p (some n)⟩

@[simp] theorem Kernel.withBlock_mem (k : Kernel) (p : BitVec 64) (n : Nat) (bs : List Byte) :
    (k.withBlock p n bs).mem = ByteMem.write k.mem p bs := rfl

@[simp] theorem Kernel.withBlock_ledger (k : Kernel) (p : BitVec 64) (n : Nat) (bs : List Byte) :
    (k.withBlock p n bs).ledger = k.ledger := rfl

@[simp] theorem Kernel.withBlock_self (k : Kernel) (p : BitVec 64) (n : Nat) (bs : List Byte) :
    (k.withBlock p n bs).blocks p = some n := Function.update_self ..

def Serves (pool : BitVec 64 → Prop) : (k : Kernel) → (q : HookReq) → q.Answer → Kernel → Prop
  | k, .read p n, bs, k' => bs = ByteMem.read k.mem p n ∧ k' = k
  | k, .write p bs, _, k' => k' = { k with mem := ByteMem.write k.mem p bs }
  | k, .slice (.alloc a), p, k' =>
    p = (0 : BitVec 64) ∧ k' = k ∨ Allocates pool k a.bytes.toNat p k'
  | k, .slice (.clone val), v, k' => v = val ∧ k' = k
  | k, .slice (.write p val), _, k' => k' = { k with mem := ByteMem.write k.mem p [val] }
  | k, .slice (.writeBytes p n), _, k' =>
    k' = { k with mem := ByteMem.write k.mem p (List.replicate n 0) }
  | k, .slice (.drop _), _, k' => k' = k
  | k, .exFreePool p, _, k' =>
    k'.ledger = k.ledger ∧ k'.blocks = Function.update k.blocks p none ∧
    ∀ x, (∀ n, k.blocks p = some n → ¬ Within p n x) → k'.mem x = k.mem x
  | k, .mdl q, r, k' =>
    k'.ledger = k.ledger.step ⟨q, r⟩ ∧ k'.blocks = k.blocks ∧
    ∀ m, k.ledger.store ⟨q, r⟩ k.mem = some m → k'.mem = m

/-- The bytes lie in a block in use. -/
def Kernel.Owns (k : Kernel) (p : BitVec 64) (n : Nat) : Prop :=
  ∃ b m, k.blocks b = some m ∧ ∀ x, Within p n x → Within b m x

def Permits : Kernel → HookReq → Prop
  | _, .read _ _ => True
  | k, .write p bs => k.Owns p bs.length
  | k, .slice (.write p _) => k.Owns p 1
  | k, .slice (.writeBytes p n) => k.Owns p n
  | _, .slice _ => True
  | k, .exFreePool p => (k.blocks p).isSome
  | k, .mdl q => ∀ r, k.ledger.Allows ⟨q, r⟩ ∧ k.ledger.Covers ⟨q, r⟩

section
variable {ε α : Type} {pool : BitVec 64 → Prop} {k : Kernel}

/-! Writes to code. -/

/-- A program of `memory/mdl.rs` among all that the kernel serves. -/
abbrev MdlWp (pool : BitVec 64 → Prop) (post : Outcome Empty α → Kernel → Prop) (p : MdlProg α)
    (k : Kernel) : Prop :=
  p.Wp (fun k q r k' => Serves pool k (.mdl q) r k') (fun k q => Permits k (.mdl q)) post k

theorem wp_onMdl {p : MdlProg α} {post : Outcome ε α → Kernel → Prop} :
    (onMdl p).Wp (Serves pool) Permits post k ↔
      MdlWp pool (fun o k' => post (o.mapErr Empty.elim) k') p k := by
  rw [onMdl, Prog.wp_via_ask, Prog.wp_mapErr]
  simp only [exists_eq_right]

/-- A call that is allowed, and does to memory what `store` says. -/
theorem mdlWp_ask {q : MdlReq} {f : q.Answer → MdlProg α} {post : Outcome Empty α → Kernel → Prop}
    {l : Ledger} {mem : Mem 64} {blocks : BitVec 64 → Option Nat}
    (hallows : ∀ r, l.Allows ⟨q, r⟩ ∧ l.Covers ⟨q, r⟩)
    (hf : ∀ r, ∃ m, l.store ⟨q, r⟩ mem = some m ∧
      MdlWp pool post (f r) ⟨m, l.step ⟨q, r⟩, blocks⟩) :
    MdlWp pool post (.ask q f) ⟨mem, l, blocks⟩ := by
  refine ⟨hallows, fun r k hk => ?_⟩
  obtain ⟨m, hm, hrest⟩ := hf r
  obtain ⟨mem', l', blocks'⟩ := k
  obtain ⟨hl, hblocks, hmem⟩ := hk
  obtain rfl : mem' = m := hmem m hm
  obtain rfl : l' = _ := hl
  obtain rfl : blocks' = _ := hblocks
  exact hrest

/-- The write is made, or nothing is; it keeps the protocol and leaves no list. -/
theorem write_wp {dst : VirtAddr} {src : List Byte} (hlen : src.length < 2^32)
    (hledger : k.ledger = .empty) : (onMdl (writeToReadOnlyMemory dst src) : HookProg ε Bool).Wp
      (Serves pool) Permits (fun o k' => o = .ok false ∧ k' = k ∨
        o = .ok true ∧ k' = { k with mem := write k.mem dst.val src }) k := by
  rw [wp_onMdl]
  by_cases h0 : dst.val = 0 ∨ src.length = 0
  · rw [writeToReadOnlyMemory, if_pos h0]
    exact .inl ⟨rfl, rfl⟩
  rw [write_eq dst src h0]
  obtain ⟨mem, ledger, blocks⟩ := k
  obtain rfl : ledger = .empty := hledger
  refine mdlWp_ask (fun _ => ⟨trivial, trivial⟩) fun mdl => ⟨_, rfl, ?_⟩
  refine .ite (fun h => ?_) fun h => ?_
  · rw [Ledger.step, if_pos h]
    exact .inl ⟨rfl, rfl⟩
  rw [Ledger.step_allocate h]
  refine mdlWp_ask (fun _ => ⟨by simp [Ledger.Allows], trivial⟩) fun _ => ⟨_, rfl, ?_⟩
  rw [Ledger.step_lock]
  refine mdlWp_ask (fun _ => ⟨by simp [Ledger.Allows], trivial⟩) fun base => ⟨_, rfl, ?_⟩
  refine .ite (fun hm => ?_) fun hm => ?_
  · rw [Ledger.step_map_null _ hm]
    refine mdlWp_ask (fun _ => ⟨by simp [Ledger.Allows], trivial⟩) fun _ => ⟨_, rfl, ?_⟩
    rw [Ledger.step_unlock]
    refine mdlWp_ask (fun _ => ⟨by simp [Ledger.Allows], trivial⟩) fun _ => ⟨_, rfl, ?_⟩
    rw [Ledger.step_free]
    exact .inl ⟨rfl, rfl⟩
  rw [Ledger.step_map _ _ _ hm]
  refine mdlWp_ask (fun _ => ⟨trivial, trivial⟩) fun _ => ⟨_, rfl, ?_⟩
  rw [Ledger.step_protect]
  have hfits : src.length ≤ (mdlLength src).toNat := (length_le_mdlLength src).mpr hlen
  refine mdlWp_ask (fun _ => ⟨by simp [Ledger.Allows], ⟨_, Ledger.target_one _ _ _ _, hfits⟩⟩)
    fun _ => ⟨write mem dst.val src, by simp [Ledger.store, hfits], ?_⟩
  rw [Ledger.step_copy]
  refine mdlWp_ask (fun _ => ⟨by simp [Ledger.Allows], trivial⟩) fun _ => ⟨_, rfl, ?_⟩
  rw [Ledger.step_unmap]
  refine mdlWp_ask (fun _ => ⟨by simp [Ledger.Allows], trivial⟩) fun _ => ⟨_, rfl, ?_⟩
  rw [Ledger.step_unlock]
  refine mdlWp_ask (fun _ => ⟨by simp [Ledger.Allows], trivial⟩) fun _ => ⟨_, rfl, ?_⟩
  rw [Ledger.step_free]
  exact .inr ⟨rfl, rfl⟩

/-! The stub. -/

/-- A program of `kalloc/pool.rs` among all that the kernel serves. -/
abbrev SliceWp (pool : BitVec 64 → Prop) (post : Outcome Empty α → Kernel → Prop)
    (p : SliceProg Byte α) (k : Kernel) : Prop :=
  p.Wp (fun k q r k' => Serves pool k (.slice q) r k') (fun k q => Permits k (.slice q)) post k

theorem wp_onSlice {p : SliceProg Byte α} {post : Outcome ε α → Kernel → Prop} :
    (onSlice p).Wp (Serves pool) Permits post k ↔
      SliceWp pool (fun o k' => post (o.mapErr Empty.elim) k') p k := by
  rw [onSlice, Prog.wp_via_ask, Prog.wp_mapErr]
  simp only [exists_eq_right]

/-- The loop writes a value to each byte, from index `i` on, of a block in use. -/
theorem writeClones_wp {k : Kernel} {ptr : BitVec 64} {val : Byte} {m n i : Nat} (hm : i + n ≤ m)
    (hsize : m ≤ 2^64) (hblock : k.blocks ptr = some m) :
    SliceWp pool (fun o k' => o = .ok () ∧
      k' = { k with mem := write k.mem (ptr + BitVec.ofNat 64 i) (List.replicate n val) })
      (writeClones 1#64 ptr val n i) k := by
  induction n generalizing i k with
  | zero =>
    refine ⟨rfl, ?_⟩
    rw [List.replicate_zero, write_nil]
  | succ n ih =>
    refine ⟨trivial, fun v k₁ hv => ?_⟩
    obtain ⟨hv, rfl⟩ := hv
    have hat : ptr + BitVec.ofNat 64 i * 1#64 = ptr + BitVec.ofNat 64 i := by rw [BitVec.mul_one]
    refine ⟨⟨ptr, m, hblock, fun x hx => ?_⟩, fun _ k₂ hk => ?_⟩
    · rw [hat] at hx
      exact hx.of_add (by omega)
    · obtain rfl := hk
      refine Prog.Wp.mono (fun _ _ h => h) (fun o k' h => ⟨h.1, h.2.trans ?_⟩)
        (ih (i := i + 1) (by omega) hblock)
      -- the bytes written so far, and the next one
      dsimp only
      rw [hat, hv, show ptr + BitVec.ofNat 64 (i + 1) = ptr + BitVec.ofNat 64 i + BitVec.ofNat 64 1 by
        rw [BitVec.ofNat_add, BitVec.add_assoc]]
      have hjoin := write_append k₁.mem (ptr + BitVec.ofNat 64 i) [val] (List.replicate n val)
        (by rw [List.length_singleton, List.length_replicate]; omega)
      rw [List.length_singleton] at hjoin
      rw [hjoin]
      rfl

/-- What follows the answer to the call for the block. -/
theorem clones_eq (val : Byte) (count : BitVec 64) (t : PoolType) (p : BitVec 64) :
    ((match (nonNull p).bind nonNull with
      | none => dropVal val >>= fun _ => .ok none
      | some ptr => writeClones 1#64 ptr val count.toNat 0 >>= fun _ =>
          dropVal val >>= fun _ => .ok (some ⟨ptr, count, t⟩)) :
        SliceProg Byte (Option (MemorySlice PoolType))) =
      if p = 0 then .ask (.drop val) fun _ => .ok none
      else writeClones 1#64 p val count.toNat 0 >>= fun _ =>
        .ask (.drop val) fun _ => .ok (some ⟨p, count, t⟩) := by
  by_cases h : p = 0
  · rw [if_pos h, nonNull, if_pos h]
    rfl
  · have hsome : nonNull p = some p := if_neg h
    rw [if_neg h, hsome, Option.bind_some, hsome]
    rfl

theorem newWithPoolType_eq (val : Byte) (count : BitVec 64) (t : PoolType) :
    PoolMemorySlice.newWithPoolType 1#64 val count t =
      .ask (.alloc (.pool t (count * 1#64))) fun p : BitVec 64 =>
        if p = 0 then .ask (.drop val) fun _ => .ok none
        else writeClones 1#64 p val count.toNat 0 >>= fun _ =>
          .ask (.drop val) fun _ => .ok (some ⟨p, count, t⟩) :=
  congrArg (Prog.ask (SliceReq.alloc (AllocReq.pool t (count * 1#64))))
    (funext (clones_eq val count t))

theorem newWithPoolType_wp {val : Byte} {count : BitVec 64} {t : PoolType} :
    SliceWp pool (fun o k' => o = .ok none ∧ k' = k ∨
      ∃ p, o = .ok (some ⟨p, count, t⟩) ∧ Fresh pool k count.toNat p ∧
        k' = k.withBlock p count.toNat (List.replicate count.toNat val))
      (PoolMemorySlice.newWithPoolType 1#64 val count t) k := by
  rw [newWithPoolType_eq]
  have hbytes : (AllocReq.pool t (count * 1#64)).bytes.toNat = count.toNat := by
    rw [AllocReq.bytes, BitVec.mul_one]
  refine ⟨trivial, fun (p : BitVec 64) k₁ hp => ?_⟩
  refine .ite (fun h => ?_) fun h => ?_
  · -- null is an answer only where nothing was allocated
    rcases hp with ⟨-, rfl⟩ | ⟨hfresh, -⟩
    · refine ⟨trivial, fun _ k₂ hk => ?_⟩
      obtain rfl := hk
      exact .inl ⟨rfl, rfl⟩
    · exact absurd h hfresh.nonnull
  · rcases hp with ⟨hnull, -⟩ | ⟨hfresh, hledger, hblocks, hmem⟩
    · exact absurd hnull h
    rw [hbytes] at hfresh hblocks hmem
    have hblock : k₁.blocks p = some count.toNat := by rw [hblocks, Function.update_self]
    refine Prog.Wp.bind (writeClones_wp (i := 0) (Nat.le_of_eq (Nat.zero_add _)) count.isLt.le hblock)
      (fun _ k₂ hk => ?_) (fun e => e.elim) (fun k₂ hk => by cases hk.1)
    obtain ⟨-, rfl⟩ := hk
    refine ⟨trivial, fun _ k₃ hk => ?_⟩
    obtain rfl := hk
    refine .inr ⟨p, rfl, hfresh, ?_⟩
    rw [hledger, hblocks, BitVec.add_zero]
    rw [write_covers fun x hx => hmem x (by rwa [List.length_replicate] at hx)]
    rfl

theorem stub_wp {val : Byte} {count : BitVec 64} {t : PoolType} :
    (onSlice (PoolMemorySlice.newWithPoolType 1#64 val count t) :
      HookProg ε (Option (MemorySlice PoolType))).Wp (Serves pool) Permits
        (fun o k' => o = .ok none ∧ k' = k ∨
          ∃ p, o = .ok (some ⟨p, count, t⟩) ∧ Fresh pool k count.toNat p ∧
            k' = k.withBlock p count.toNat (List.replicate count.toNat val)) k := by
  refine wp_onSlice.mpr (Prog.Wp.mono (fun _ _ h => h) (fun o k' h => ?_) newWithPoolType_wp)
  rcases h with ⟨rfl, h⟩ | ⟨p, rfl, h⟩
  · exact .inl ⟨rfl, h⟩
  · exact .inr ⟨p, rfl, h⟩

/-! A hook that is built. -/

/-- The decoder and the encoder, with a pool that answers `p` to the call for `size` bytes. -/
def answering (env : Env) (size : Nat) (p : Option (BitVec 64)) : Env :=
  { env with alloc := fun n => if n = size then p else none }

theorem decodePrologue_answering (env : Env) (size : Nat) (p : Option (BitVec 64))
    (src : BitVec 64) (srcSlice : List Byte) :
    decodePrologue (answering env size p) src srcSlice = decodePrologue env src srcSlice := by
  have hloop : ∀ fuel copied h block, decodeLoop (answering env size p) src srcSlice fuel copied h block =
      decodeLoop env src srcSlice fuel copied h block := by
    intro fuel
    induction fuel with
    | zero => exact fun _ _ _ => rfl
    | succ fuel ih =>
      intro copied h block
      rw [decodeLoop, decodeLoop]
      simp only [ih]
      rfl
  exact hloop _ _ _ _

/-- The ways in which `new` can end. -/
inductive NewEnds (pool : BitVec 64 → Prop) (env : Env) (src : VirtAddr) (dst : BitVec 64)
    (k : Kernel) : Outcome KhookErr KHook → Kernel → Prop where
  | invalid {e : KhookErr}
      (hd : decodePrologue env src.val (read k.mem src.val windowSize) = .error e) :
      NewEnds pool env src dst k (.err e) k
  | unallocated {insns : List Insn} {copied : Nat}
      (hd : decodePrologue env src.val (read k.mem src.val windowSize) = .ok (insns, copied)) :
      NewEnds pool env src dst k (.err .allocationFailed) k
  | unencoded {insns : List Insn} {copied : Nat} {p : BitVec 64} {k' : Kernel}
      (hd : decodePrologue env src.val (read k.mem src.val windowSize) = .ok (insns, copied))
      (hfresh : Fresh pool k (copied + hookSizeAbsolute) p) (he : env.encode insns p = none)
      (hledger : k'.ledger = k.ledger) (hblocks : k'.blocks = k.blocks)
      (hmem : ∀ x, ¬ Within p (copied + hookSizeAbsolute) x → k'.mem x = k.mem x) :
      NewEnds pool env src dst k (.err .blockInsn) k'
  | noRoom {insns : List Insn} {copied : Nat} {p : BitVec 64} {res : BlockEncoderResult}
      {k' : Kernel}
      (hd : decodePrologue env src.val (read k.mem src.val windowSize) = .ok (insns, copied))
      (hfresh : Fresh pool k (copied + hookSizeAbsolute) p) (he : env.encode insns p = some res)
      (hfit : copied + hookSizeAbsolute <
        res.codeBuffer.length + (returnJump p res src copied).length) :
      NewEnds pool env src dst k .panic k'
  | built {h : KHook} {mem' : Mem 64} {insns : List Insn} {copied : Nat} {res : BlockEncoderResult}
      (hfresh : Fresh pool k (copied + hookSizeAbsolute) h.originalStub.ptr)
      (hb : KHook.Built (answering env (copied + hookSizeAbsolute) (some h.originalStub.ptr)) src
        dst k.mem h mem' insns copied res) :
      NewEnds pool env src dst k (.ok h) ⟨mem', k.ledger,
        Function.update k.blocks h.originalStub.ptr (some (copied + hookSizeAbsolute))⟩

variable {env : Env} {src : VirtAddr} {dst : BitVec 64}

/-- The stub is returned to the pool where nothing can be put into it. -/
theorem unencoded_wp {insns : List Insn} {copied : Nat} {p : BitVec 64} {bs : List Byte}
    (hd : decodePrologue env src.val (read k.mem src.val windowSize) = .ok (insns, copied))
    (hfresh : Fresh pool k (copied + hookSizeAbsolute) p) (he : env.encode insns p = none)
    (hbs : bs.length = copied + hookSizeAbsolute) :
    (.ask (.exFreePool p) fun _ => .err .blockInsn : HookProg KhookErr KHook).Wp (Serves pool)
      Permits (NewEnds pool env src dst k) (k.withBlock p (copied + hookSizeAbsolute) bs) := by
  refine ⟨?_, fun _ k' hk => ?_⟩
  · rw [Permits, Kernel.withBlock_self]
    rfl
  · obtain ⟨hledger, hblocks, hmem⟩ := hk
    refine .unencoded hd hfresh he hledger ?_ fun x hx => ?_
    · rw [hblocks, Kernel.withBlock, Function.update_idem, ← hfresh.unused, Function.update_eq_self]
    · rw [hmem x, Kernel.withBlock_mem, write_outside (by rwa [hbs])]
      intro n hn
      rw [Kernel.withBlock_self, Option.some.injEq] at hn
      rwa [← hn]

theorem relocate_wp {insns : List Insn} {copied : Nat} {stub : MemorySlice PoolType}
    (hd : decodePrologue env src.val (read k.mem src.val windowSize) = .ok (insns, copied))
    (hfresh : Fresh pool k (copied + hookSizeAbsolute) stub.ptr)
    (hlen : stub.len.toNat = copied + hookSizeAbsolute) :
    (relocate env src dst insns copied stub).Wp (Serves pool) Permits (NewEnds pool env src dst k)
      (k.withBlock stub.ptr (copied + hookSizeAbsolute)
        (List.replicate (copied + hookSizeAbsolute) 0)) := by
  rw [relocate]
  cases he : env.encode insns stub.ptr with
  | none => exact unencoded_wp hd hfresh he List.length_replicate
  | some res =>
    dsimp only
    rw [hlen]
    refine .ite (fun hcode => .noRoom hd hfresh he (Nat.lt_add_right _ hcode)) fun hcode => ?_
    refine ⟨⟨stub.ptr, _, Kernel.withBlock_self .., fun x hx => hx.mono (by omega)⟩,
      fun _ k₁ hk => ?_⟩
    obtain rfl := hk
    refine .ite (fun hjump => .noRoom hd hfresh he hjump) fun hjump => ?_
    refine ⟨⟨stub.ptr, _, Function.update_self .., fun x hx => hx.of_add (by omega)⟩,
      fun _ k₂ hk => ?_⟩
    obtain rfl := hk
    refine ⟨trivial, fun bytes k₃ hk => ?_⟩
    obtain ⟨hbytes, rfl⟩ := hk
    have hfit := Nat.le_of_not_lt hjump
    refine @NewEnds.built _ _ _ _ _ ⟨src, dst, ⟨stub.ptr, _⟩, bytes, false⟩ _ insns copied res hfresh
      ⟨?_, if_pos rfl, he, hfit, ?_, ?_⟩
    · rw [decodePrologue_answering]
      exact hd
    · exact write_append _ _ _ _ (Nat.le_trans hfit (stubSize_le hd))
    · rw [hbytes]

/-- `new` asks for nothing that is not permitted, and ends in one of these ways. -/
theorem new_wp : (new env src dst).Wp (Serves pool) Permits (NewEnds pool env src dst k) k := by
  refine ⟨trivial, fun srcSlice k₁ hk => ?_⟩
  obtain ⟨hslice, rfl⟩ := hk
  rw [hslice]
  dsimp only
  cases hd : decodePrologue env src.val (read k₁.mem src.val windowSize) with
  | error e => exact NewEnds.invalid hd
  | ok r =>
    obtain ⟨insns, copied⟩ := r
    refine Prog.Wp.bind stub_wp (fun stub k₂ hstub => ?_) (fun e k₂ hstub => ?_) fun k₂ hstub => ?_
    · rcases hstub with ⟨hnone, rfl⟩ | ⟨p, hsome, hfresh, rfl⟩
      · cases hnone
        exact NewEnds.unallocated hd
      · cases hsome
        rw [stubSize_toNat hd] at hfresh ⊢
        exact relocate_wp hd hfresh (stubSize_toNat hd)
    · rcases hstub with ⟨hnone, -⟩ | ⟨p, hsome, -⟩
      · cases hnone
      · cases hsome
    · rcases hstub with ⟨hnone, -⟩ | ⟨p, hsome, -⟩
      · cases hnone
      · cases hsome

/-! Hooks in and out: as the boolean model has them, for one of its answers. -/

theorem jump_length_lt (h : KHook) : h.jump.length < 2^32 := by
  rw [KHook.jump, createAssemblyJump_length]
  split <;> omega

theorem enable_wp {h : KHook} (hledger : k.ledger = .empty) :
    (enable h).Wp (Serves pool) Permits (fun o k' => ∃ ok,
      o = .ok ((h.enable ok k.mem).1, (h.enable ok k.mem).2.1) ∧
        k' = { k with mem := (h.enable ok k.mem).2.2 }) k := by
  refine .ite (fun hon => ⟨true, ?_⟩) fun hoff => ?_
  · rw [KHook.enable_idle hon]
    exact ⟨rfl, rfl⟩
  · have hoff : h.enabled = false := by simpa using hoff
    refine Prog.Wp.bind (write_wp (jump_length_lt h) hledger) (fun written k₁ hw => ?_)
      (fun e => e.elim) fun k₁ hw => ?_
    · rcases hw with ⟨hw, rfl⟩ | ⟨hw, rfl⟩
      · cases hw
        refine ⟨false, ?_⟩
        rw [KHook.enable, hoff]
        exact ⟨rfl, rfl⟩
      · cases hw
        refine ⟨true, ?_⟩
        rw [KHook.enable_ok hoff]
        exact ⟨rfl, rfl⟩
    · rcases hw with ⟨hw, -⟩ | ⟨hw, -⟩ <;> cases hw

theorem disable_wp {h : KHook} (hlen : h.originalBytes.length = windowSize)
    (hledger : k.ledger = .empty) :
    (disable h).Wp (Serves pool) Permits (fun o k' => ∃ ok,
      o = .ok ((h.disable ok k.mem).1, (h.disable ok k.mem).2.1) ∧
        k' = { k with mem := (h.disable ok k.mem).2.2 }) k := by
  refine .ite (fun hon => ?_) fun hoff => ⟨true, ?_⟩
  · have hlt : h.originalBytes.length < 2^32 := by
      rw [hlen]
      decide
    refine Prog.Wp.bind (write_wp hlt hledger) (fun written k₁ hw => ?_)
      (fun e => e.elim) fun k₁ hw => ?_
    · rcases hw with ⟨hw, rfl⟩ | ⟨hw, rfl⟩
      · cases hw
        refine ⟨false, ?_⟩
        rw [KHook.disable, hon]
        exact ⟨rfl, rfl⟩
      · cases hw
        refine ⟨true, ?_⟩
        rw [KHook.disable_ok hon]
        exact ⟨rfl, rfl⟩
    · rcases hw with ⟨hw, -⟩ | ⟨hw, -⟩ <;> cases hw
  · have hoff : h.enabled = false := by simpa using hoff
    rw [KHook.disable, hoff]
    exact ⟨rfl, rfl⟩

/-- Whatever becomes of the write, the stub is freed. -/
theorem drop_wp {h : KHook} (hlen : h.originalBytes.length = windowSize)
    (hledger : k.ledger = .empty) (hstub : k.blocks h.originalStub.ptr = some h.originalStub.len) :
    (drop h).Wp (Serves pool) Permits (fun o k' => o = .ok () ∧ k'.ledger = .empty ∧
      k'.blocks = Function.update k.blocks h.originalStub.ptr none ∧
      ∃ ok, ∀ x, ¬ Within h.originalStub.ptr h.originalStub.len x →
        k'.mem x = h.drop ok k.mem x) k := by
  refine Prog.Wp.bind (disable_wp hlen hledger) (fun r k₁ hr => ?_) (fun e => e.elim)
    fun k₁ hr => ?_
  · obtain ⟨ok, -, rfl⟩ := hr
    refine ⟨by rw [Permits, hstub]; rfl, fun _ k₂ hk => ?_⟩
    obtain ⟨hledger', hblocks, hmem⟩ := hk
    refine ⟨rfl, hledger'.trans hledger, hblocks, ok, fun x hx => hmem x fun n hn => ?_⟩
    obtain rfl : h.originalStub.len = n := Option.some.inj (hstub.symm.trans hn)
    exact hx
  · obtain ⟨ok, hr, -⟩ := hr
    cases hr

end

end HookKernel
end WinKernl
