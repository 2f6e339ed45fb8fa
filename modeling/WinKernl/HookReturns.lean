import WinKernl.HookKernel
import WinKernl.SharedLedger

/- Hooks where nothing fails (`khook.rs`).

   `HookKernel.lean` says in which ways an operation can end. Here are the kernel's answers
   with which it ends in the ways that are meant: the stub is where the pool has room,
   descriptor lists and mappings get names that are not in use (`ServesNew`), and the write
   succeeds. Only a stub without room makes `new` panic, and any such stub does
   (`new_panics`). -/
namespace WinKernl
open ByteMem Ask

namespace HookKernel
open KHook (windowSize returnJump)

/-- What `Ledger.NewName` says, of a request to the kernel. -/
def NewName (l : Ledger) : (q : HookReq) → q.Answer → Prop
  | .mdl q, r => l.NewName ⟨q, r⟩
  | _, _ => True

def ServesNew (pool : BitVec 64 → Prop) : Server Kernel HookReq HookReq.Answer :=
  fun k q r k' => Serves pool k q r k' ∧ NewName k.ledger q r

section
variable {ε : Type} {pool : BitVec 64 → Prop} {k : Kernel}

/-! Writes to code. -/

theorem exec_mdl {α : Type} {q : MdlReq} {r : q.Answer} {f : q.Answer → MdlProg α}
    {l : Ledger} {mem m : Mem 64} {blocks : BitVec 64 → Option Nat} {o : Outcome Empty α}
    {k' : Kernel} (hname : l.NewName ⟨q, r⟩) (hm : l.store ⟨q, r⟩ mem = some m)
    (h : (f r).Exec (fun k q r k' => ServesNew pool k (.mdl q) r k')
      ⟨m, l.step ⟨q, r⟩, blocks⟩ o k') :
    (.ask q f : MdlProg α).Exec (fun k q r k' => ServesNew pool k (.mdl q) r k')
      ⟨mem, l, blocks⟩ o k' := by
  refine ⟨r, ⟨m, l.step ⟨q, r⟩, blocks⟩, ⟨⟨rfl, rfl, fun m' hm' => ?_⟩, hname⟩, h⟩
  exact Option.some.inj (hm.symm.trans hm')

/-- The write can be made. -/
theorem write_exec {dst : VirtAddr} {src : List Byte} (h0 : ¬ (dst.val = 0 ∨ src.length = 0))
    (hlen : src.length < 2^32) (hledger : k.ledger = .empty) :
    (onMdl (writeToReadOnlyMemory dst src) : HookProg ε Bool).Exec (ServesNew pool) k (.ok true)
      { k with mem := write k.mem dst.val src } := by
  obtain ⟨mem, ledger, blocks⟩ := k
  obtain rfl : ledger = .empty := hledger
  refine Prog.Exec.via_ask (Prog.Exec.mapErr (o := .ok true) Empty.elim ?_)
  simp only [exists_eq_right]
  rw [write_eq dst src h0]
  have hfits : src.length ≤ (mdlLength src).toNat := (length_le_mdlLength src).mpr hlen
  -- the list, the lock and the mapping
  refine exec_mdl (r := 1#64) (fun _ => rfl) rfl (.ite_neg (by decide) ?_)
  rw [Ledger.step_allocate (by decide)]
  refine exec_mdl (r := ()) trivial rfl ?_
  rw [Ledger.step_lock]
  refine exec_mdl (r := 1#64) (fun _ => List.not_mem_nil) rfl (.ite_neg (by decide) ?_)
  rw [Ledger.step_map _ _ _ (by decide)]
  refine exec_mdl (r := 0#32) trivial rfl ?_
  rw [Ledger.step_protect]
  refine exec_mdl (r := ()) (m := write mem dst.val src) trivial
    (by simp [Ledger.store, hfits]) ?_
  rw [Ledger.step_copy]
  -- and back
  refine exec_mdl (r := ()) trivial rfl ?_
  rw [Ledger.step_unmap]
  refine exec_mdl (r := ()) trivial rfl ?_
  rw [Ledger.step_unlock]
  refine exec_mdl (r := ()) trivial rfl ?_
  rw [Ledger.step_free]
  exact ⟨rfl, rfl⟩

/-! The stub. -/

theorem writeClones_exec {k : Kernel} {ptr : BitVec 64} {val : Byte} {n i : Nat}
    (hsize : i + n ≤ 2^64) :
    (writeClones 1#64 ptr val n i).Exec (fun k q r k' => ServesNew pool k (.slice q) r k') k
      (.ok ()) { k with mem := write k.mem (ptr + BitVec.ofNat 64 i) (List.replicate n val) } := by
  induction n generalizing i k with
  | zero => exact ⟨rfl, by rw [List.replicate_zero, write_nil]⟩
  | succ n ih =>
    refine ⟨val, k, ⟨⟨rfl, rfl⟩, trivial⟩, (), _, ⟨rfl, trivial⟩, ?_⟩
    have hrest := @ih { k with mem := write k.mem (ptr + BitVec.ofNat 64 i * 1#64) [val] } (i + 1)
      (by omega)
    rw [BitVec.mul_one, BitVec.ofNat_add, ← BitVec.add_assoc] at hrest
    have hjoin := write_append k.mem (ptr + BitVec.ofNat 64 i) [val] (List.replicate n val)
      (by rw [List.length_singleton, List.length_replicate]; omega)
    rw [List.length_singleton] at hjoin
    rw [BitVec.mul_one]
    dsimp only at hrest
    rwa [hjoin] at hrest

/-- The pool can give any room it has. -/
theorem stub_exec {val : Byte} {count : BitVec 64} {t : PoolType} {p : BitVec 64}
    (hfresh : Fresh pool k count.toNat p) :
    (onSlice (PoolMemorySlice.newWithPoolType 1#64 val count t) :
      HookProg ε (Option (MemorySlice PoolType))).Exec (ServesNew pool) k
        (.ok (some ⟨p, count, t⟩))
        (k.withBlock p count.toNat (List.replicate count.toNat val)) := by
  refine Prog.Exec.via_ask (Prog.Exec.mapErr (o := .ok _) Empty.elim ?_)
  simp only [exists_eq_right]
  rw [newWithPoolType_eq]
  have hbytes : (AllocReq.pool t (count * 1#64)).bytes.toNat = count.toNat := by
    rw [AllocReq.bytes, BitVec.mul_one]
  refine ⟨p, ⟨k.mem, k.ledger, Function.update k.blocks p (some count.toNat)⟩,
    ⟨.inr ?_, trivial⟩, ?_⟩
  · rw [hbytes]
    exact ⟨hfresh, rfl, rfl, fun _ _ => rfl⟩
  · refine Prog.Exec.ite_neg hfresh.nonnull (Prog.Exec.bind (writeClones_exec (i := 0) ?_) ?_)
    · have := count.isLt
      omega
    · rw [BitVec.add_zero]
      exact ⟨(), _, ⟨rfl, trivial⟩, rfl, rfl⟩

/-! A hook that is built. -/

section
variable {env : Env} {src : VirtAddr} {dst : BitVec 64} {insns : List Insn} {copied : Nat}

/-- The way of `new` up to the stub. -/
theorem new_exec_of {p : BitVec 64} {o : Outcome KhookErr KHook} {k' : Kernel}
    (hd : decodePrologue env src.val (read k.mem src.val windowSize) = .ok (insns, copied))
    (hfresh : Fresh pool k (copied + hookSizeAbsolute) p)
    (h : (relocate env src dst insns copied
        ⟨p, BitVec.ofNat 64 (copied + hookSizeAbsolute), nonPagedPoolExecute⟩).Exec (ServesNew pool)
      (k.withBlock p (copied + hookSizeAbsolute)
        (List.replicate (copied + hookSizeAbsolute) 0)) o k') :
    (new env src dst).Exec (ServesNew pool) k o k' := by
  refine ⟨_, k, ⟨⟨rfl, rfl⟩, trivial⟩, ?_⟩
  dsimp only
  rw [hd]
  rw [← stubSize_toNat hd] at hfresh
  refine Prog.Exec.bind (stub_exec hfresh) ?_
  rw [stubSize_toNat hd]
  exact h

/-- What is built for a stub in the pool, `new` can return. -/
theorem new_exec {h : KHook} {mem' : Mem 64} {res : BlockEncoderResult} {size : Nat}
    {a : Option (BitVec 64)}
    (hb : KHook.Built (answering env size a) src dst k.mem h mem' insns copied res)
    (hfresh : Fresh pool k (copied + hookSizeAbsolute) h.originalStub.ptr) :
    (new env src dst).Exec (ServesNew pool) k (.ok h) ⟨mem', k.ledger,
      Function.update k.blocks h.originalStub.ptr (some (copied + hookSizeAbsolute))⟩ := by
  have hd := hb.prologue
  rw [decodePrologue_answering] at hd
  refine new_exec_of hd hfresh ?_
  have hfits := hb.fits
  rw [relocate, show env.encode insns h.originalStub.ptr = some res from hb.encode]
  dsimp only
  rw [stubSize_toNat hd]
  refine .ite_neg (by omega) ⟨(), _, ⟨rfl, trivial⟩, .ite_neg (Nat.not_lt.mpr hfits) ?_⟩
  refine ⟨(), _, ⟨rfl, trivial⟩, _, _, ⟨⟨rfl, rfl⟩, trivial⟩, ?_⟩
  have hmem := write_append (write k.mem h.originalStub.ptr
      (List.replicate (copied + hookSizeAbsolute) 0)) h.originalStub.ptr res.codeBuffer
    (returnJump h.originalStub.ptr res src copied) (Nat.le_trans hfits (stubSize_le hd))
  have hhook := hb.hook_eq
  rw [hb.mem_eq, ← hmem] at hhook
  refine ⟨congrArg _ hhook, ?_⟩
  rw [hb.mem_eq, ← hmem]
  rfl

/-- A stub without room makes `new` panic. -/
theorem new_panics {p : BitVec 64} {res : BlockEncoderResult}
    (hd : decodePrologue env src.val (read k.mem src.val windowSize) = .ok (insns, copied))
    (hfresh : Fresh pool k (copied + hookSizeAbsolute) p) (he : env.encode insns p = some res)
    (hfit : copied + hookSizeAbsolute <
      res.codeBuffer.length + (returnJump p res src copied).length) :
    ∃ k', (new env src dst).Exec (ServesNew pool) k .panic k' := by
  suffices h : ∃ k', (relocate env src dst insns copied
        ⟨p, BitVec.ofNat 64 (copied + hookSizeAbsolute), nonPagedPoolExecute⟩).Exec (ServesNew pool)
      (k.withBlock p (copied + hookSizeAbsolute)
        (List.replicate (copied + hookSizeAbsolute) 0)) .panic k' by
    obtain ⟨k', h⟩ := h
    exact ⟨k', new_exec_of hd hfresh h⟩
  rw [relocate, he]
  dsimp only
  rw [stubSize_toNat hd]
  by_cases hcode : copied + hookSizeAbsolute < res.codeBuffer.length
  · exact ⟨_, .ite_pos hcode ⟨rfl, rfl⟩⟩
  · exact ⟨_, .ite_neg hcode ⟨(), _, ⟨rfl, trivial⟩, .ite_pos hfit ⟨rfl, rfl⟩⟩⟩

end

/-! Hooks in and out. -/

theorem enable_exec {h : KHook} (hoff : h.enabled = false) (hsrc : h.src.val ≠ 0)
    (hledger : k.ledger = .empty) : (enable h).Exec (ServesNew pool) k
      (.ok (some (), { h with enabled := true }))
      { k with mem := write k.mem h.src.val h.jump } := by
  have hjump : h.jump.length ≠ 0 := by
    rw [KHook.jump, createAssemblyJump_length]
    split <;> decide
  refine .ite_neg (by rw [hoff]; decide) (Prog.Exec.bind (write_exec ?_ (jump_length_lt h) hledger)
    ⟨rfl, rfl⟩)
  exact not_or.mpr ⟨hsrc, hjump⟩

theorem disable_exec {h : KHook} (hon : h.enabled = true) (hsrc : h.src.val ≠ 0)
    (hlen : h.originalBytes.length = windowSize) (hledger : k.ledger = .empty) :
    (disable h).Exec (ServesNew pool) k (.ok (some (), { h with enabled := false }))
      { k with mem := write k.mem h.src.val h.originalBytes } := by
  refine .ite_pos hon (Prog.Exec.bind (write_exec (not_or.mpr ⟨hsrc, ?_⟩) ?_ hledger) ⟨rfl, rfl⟩)
  · rw [hlen]
    decide
  · rw [hlen]
    decide

/-! What a client does. -/

theorem perform_new_exec {env : Env} {src : VirtAddr} {dst : BitVec 64} {insns : List Insn}
    {copied : Nat} {h : KHook} {mem' : Mem 64} {res : BlockEncoderResult} {size : Nat}
    {a : Option (BitVec 64)}
    (hb : KHook.Built (answering env size a) src dst k.mem h mem' insns copied res)
    (hfresh : Fresh pool k (copied + hookSizeAbsolute) h.originalStub.ptr) (hooks : Hooks)
    (id : Nat) : (perform env (.new id src dst) hooks).Exec (ServesNew pool) k
      (.ok (Function.update hooks id (some h))) ⟨mem', k.ledger,
        Function.update k.blocks h.originalStub.ptr (some (copied + hookSizeAbsolute))⟩ :=
  Prog.Exec.bind (new_exec hb hfresh).attempt ⟨rfl, rfl⟩

theorem perform_enable_exec (env : Env) {hooks : Hooks} {id : Nat} {h : KHook}
    (hid : hooks id = some h) (hoff : h.enabled = false) (hsrc : h.src.val ≠ 0)
    (hledger : k.ledger = .empty) : (perform env (.enable id) hooks).Exec (ServesNew pool) k
      (.ok (Function.update hooks id (some { h with enabled := true })))
      { k with mem := write k.mem h.src.val h.jump } := by
  rw [perform, hid]
  exact Prog.Exec.bind (enable_exec hoff hsrc hledger) ⟨rfl, rfl⟩

theorem perform_disable_exec (env : Env) {hooks : Hooks} {id : Nat} {h : KHook}
    (hid : hooks id = some h) (hon : h.enabled = true) (hsrc : h.src.val ≠ 0)
    (hlen : h.originalBytes.length = windowSize) (hledger : k.ledger = .empty) :
    (perform env (.disable id) hooks).Exec (ServesNew pool) k
      (.ok (Function.update hooks id (some { h with enabled := false })))
      { k with mem := write k.mem h.src.val h.originalBytes } := by
  rw [perform, hid]
  exact Prog.Exec.bind (disable_exec hon hsrc hlen hledger) ⟨rfl, rfl⟩

end

end HookKernel
end WinKernl
