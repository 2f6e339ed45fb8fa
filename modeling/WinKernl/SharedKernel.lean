import WinKernl.HookControl
import WinKernl.SharedAllocator
import WinKernl.SharedLedger

/- The kernel that several threads with hooks share (`khook.rs`, `memory/mdl.rs`).

   It is the kernel of `HookKernel.lean`; here it also keeps, for each pool block and each
   descriptor list, which thread asked for it. That is nothing it decides by: it serves a
   request as before, and gives a new list and a new mapping a name that is not in use. A
   thread's part is its blocks, its lists, and the code `mine` that only it writes; where
   the code of two threads is apart and off the pool, a request of one is nothing to the
   part of the other (`SharedKernel.splits`). -/
namespace WinKernl
open ByteMem Ask Interleave Shares

namespace HookKernel
open GlobalAlloc.SharedPool (Apart fresh_off)

structure SharedKernel (ι : Type) where
  mem : Mem 64
  ledger : Ledger
  blocks : BitVec 64 → Option (ι × Nat)
  owners : Pmdl → Option ι

namespace SharedKernel
variable {ι : Type}

/-- The kernel, whoever its blocks and lists are for. -/
def all (s : SharedKernel ι) : Kernel := ⟨s.mem, s.ledger, fun p => (s.blocks p).map Prod.snd⟩

def blocksAfter (s : SharedKernel ι) (i : ι) :
    (q : HookReq) → q.Answer → BitVec 64 → Option (ι × Nat)
  | .slice (.alloc a), (p : BitVec 64) =>
    if p = 0 then s.blocks else Function.update s.blocks p (some (i, a.bytes.toNat))
  | .exFreePool p, _ => Function.update s.blocks p none
  | _, _ => s.blocks

def ownersAfter (s : SharedKernel ι) (i : ι) : (q : HookReq) → q.Answer → Pmdl → Option ι
  | .mdl q, r => Ledger.ownersAfter s.owners i ⟨q, r⟩
  | _, _ => s.owners

def Serves (pool : BitVec 64 → Prop) (i : ι) : Server (SharedKernel ι) HookReq HookReq.Answer :=
  fun s q r s' => HookKernel.Serves pool s.all q r s'.all ∧ NewName s.ledger q r ∧
    s'.blocks = s.blocksAfter i q r ∧ s'.owners = s.ownersAfter i q r

/-- No two blocks share a byte, all are in the pool, and every list is for a thread. -/
structure Whole (pool : BitVec 64 → Prop) (s : SharedKernel ι) : Prop where
  apart : Apart s.blocks
  inPool : ∀ p e, s.blocks p = some e → ∀ x, Within p e.2 x → pool x
  owned : s.ledger.Owned s.owners

end SharedKernel

/-- The bytes of a thread: its code, and its blocks. -/
def Has (mine : BitVec 64 → Prop) (t : Kernel) (x : BitVec 64) : Prop :=
  mine x ∨ ∃ p n, t.blocks p = some n ∧ Within p n x

/-- A request that reads, and describes for writing, only code of the thread. -/
def Stays (mine : BitVec 64 → Prop) : HookReq → Prop
  | .read p n => ∀ x, Within p n x → mine x
  | .mdl (.ioAllocateMdl dest length _ _ _) => ∀ x, Within dest length.toNat x → mine x
  | _ => True

/-- The code of the threads is off the pool, and no two threads have code in common. -/
structure Regions {ι : Type} (pool : BitVec 64 → Prop) (mine : ι → BitVec 64 → Prop) : Prop where
  off : ∀ i x, mine i x → ¬ pool x
  apart : ∀ i j x, i ≠ j → mine i x → ¬ mine j x

/-- What thread `i` has of the kernel. -/
structure Part {ι : Type} [DecidableEq ι] (mine : ι → BitVec 64 → Prop) (i : ι)
    (s : SharedKernel ι) (t : Kernel) : Prop where
  blocks : ∀ p n, t.blocks p = some n ↔ s.blocks p = some (i, n)
  ledger : t.ledger = s.ledger.of i s.owners
  described : ∀ m r, t.ledger.mdls m = some r → ∀ x, Within r.start r.length.toNat x → mine i x
  mem : ∀ x, Has (mine i) t x → t.mem x = s.mem x

theorem all_blocks {ι : Type} {s : SharedKernel ι} {p : BitVec 64} {n : Nat} :
    s.all.blocks p = some n ↔ ∃ j, s.blocks p = some (j, n) := by
  simp [SharedKernel.all]

theorem SharedKernel.eq_of_all {ι : Type} {s s' : SharedKernel ι} {m : Mem 64}
    (hall : s'.all = { s.all with mem := m }) (hblocks : s'.blocks = s.blocks)
    (howners : s'.owners = s.owners) : s' = { s with mem := m } := by
  obtain ⟨mem', ledger', blocks', owners'⟩ := s'
  obtain rfl : mem' = m := congrArg Kernel.mem hall
  obtain rfl : ledger' = s.ledger := congrArg Kernel.ledger hall
  obtain rfl : blocks' = s.blocks := hblocks
  obtain rfl : owners' = s.owners := howners
  rfl

theorem write_frame {ι : Type} {s s' : SharedKernel ι} {t : Kernel} {m : BitVec 64 → Prop}
    {p x : BitVec 64} {bs : List Byte}
    (hin : ∀ y, Within p bs.length y → Has m t y)
    (hmem : s'.mem = ByteMem.write s.mem p bs) : s'.mem x = s.mem x ∨ Has m t x := by
  by_cases hx : Within p bs.length x
  · exact .inr (hin x hx)
  · exact .inl (by rw [hmem, write_outside hx])

theorem SharedKernel.all_alloc {ι : Type} (i : ι) (s : SharedKernel ι) (a : AllocReq)
    (p : BitVec 64) : (fun x => (s.blocksAfter i (.slice (.alloc a)) p x).map Prod.snd) =
      if p = 0 then s.all.blocks else Function.update s.all.blocks p (some a.bytes.toNat) := by
  funext x
  by_cases h : p = 0
  · simp [SharedKernel.blocksAfter, SharedKernel.all, h]
  · simp only [SharedKernel.blocksAfter, if_neg h, SharedKernel.all, Function.update_apply]
    split <;> rfl

/-- What the kernel can do, it can do for any thread. -/
theorem SharedKernel.serves_of_all {ι : Type} {pool : BitVec 64 → Prop} (i : ι)
    (s : SharedKernel ι) {q : HookReq} {r : q.Answer} {k : Kernel}
    (h : ServesNew pool s.all q r k) :
    ∃ s', SharedKernel.Serves pool i s q r s' ∧ s'.all = k := by
  obtain ⟨hserved, hname⟩ := h
  have hblocks : (fun p => (s.blocksAfter i q r p).map Prod.snd) = k.blocks := by
    cases q with
    | read p n => exact (congrArg Kernel.blocks hserved.2).symm
    | write p bs => exact (congrArg Kernel.blocks hserved).symm
    | mdl q => exact hserved.2.1.symm
    | exFreePool p =>
      rw [hserved.2.1]
      funext x
      simp only [SharedKernel.blocksAfter, SharedKernel.all, Function.update_apply]
      split <;> rfl
    | slice q =>
      cases q with
      | clone val => exact (congrArg Kernel.blocks hserved.2).symm
      | write p val => exact (congrArg Kernel.blocks hserved).symm
      | writeBytes p n => exact (congrArg Kernel.blocks hserved).symm
      | drop val => exact (congrArg Kernel.blocks hserved).symm
      | alloc a =>
        refine (SharedKernel.all_alloc i s a r).trans ?_
        rcases hserved with ⟨hnull, hsame⟩ | ⟨hfresh, -, hnew, -⟩
        · exact (if_pos hnull).trans (congrArg Kernel.blocks hsame).symm
        · exact (if_neg hfresh.nonnull).trans hnew.symm
  have hall : (⟨k.mem, k.ledger, s.blocksAfter i q r, s.ownersAfter i q r⟩ :
      SharedKernel ι).all = k :=
    congrArg (Kernel.mk k.mem k.ledger) hblocks
  exact ⟨_, ⟨hall.symm ▸ hserved, hname, rfl, rfl⟩, hall⟩

/-- A thread can run to any end of its program while the others wait. -/
theorem SharedKernel.turns_of_exec {ι ε α : Type} [DecidableEq ι] {pool : BitVec 64 → Prop} {i : ι}
    {s : State ι (SharedKernel ι) HookReq HookReq.Answer ε α} {k : Kernel} {o : Outcome ε α}
    (h : (s.threads i).Exec (ServesNew pool) s.shared.all o k) : ∃ n t,
      Turns (SharedKernel.Serves pool) s (List.replicate n i) t ∧ t.threads i = ended o := by
  have hserves : ∀ (k : Kernel) (s : SharedKernel ι) (q : HookReq) (r : q.Answer) (k' : Kernel),
      s.all = k → ServesNew pool k q r k' →
        ∃ s', SharedKernel.Serves pool i s q r s' ∧ s'.all = k' := by
    intro k s q r k' hs hr
    subst hs
    exact SharedKernel.serves_of_all i s hr
  obtain ⟨s', hexec, -⟩ := h.sim hserves rfl
  obtain ⟨n, hturns⟩ := turns_alone (K := SharedKernel.Serves pool) hexec rfl
  exact ⟨n, _, hturns, Function.update_self ..⟩

/-- Only calls on descriptor lists change these. -/
theorem lists_quiet {ι : Type} {pool : BitVec 64 → Prop} {i : ι} {s s' : SharedKernel ι}
    {q : HookReq} {r : q.Answer} (hc : ∀ c, q ≠ .mdl c) (h : SharedKernel.Serves pool i s q r s') :
    s'.ledger = s.ledger ∧ s'.owners = s.owners := by
  obtain ⟨hall, -, -, howners⟩ := h
  cases q with
  | read p n => exact ⟨congrArg Kernel.ledger hall.2, howners⟩
  | write p bs => exact ⟨congrArg Kernel.ledger hall, howners⟩
  | exFreePool p => exact ⟨hall.1, howners⟩
  | mdl q => exact absurd rfl (hc q)
  | slice q =>
    refine ⟨?_, howners⟩
    cases q with
    | alloc a =>
      rcases hall with ⟨-, hsame⟩ | ⟨-, hledger, -⟩
      · exact congrArg Kernel.ledger hsame
      · exact hledger
    | clone val => exact congrArg Kernel.ledger hall.2
    | write p val => exact congrArg Kernel.ledger hall
    | writeBytes p n => exact congrArg Kernel.ledger hall
    | drop val => exact congrArg Kernel.ledger hall

section
variable {ι : Type} [DecidableEq ι] {pool : BitVec 64 → Prop} {mine : ι → BitVec 64 → Prop}
  {i j : ι} {s s' : SharedKernel ι} {t u : Kernel} {q : HookReq} {r : q.Answer}

theorem Part.block (hp : Part mine i s t) {p : BitVec 64} {n : Nat} (h : t.blocks p = some n) :
    s.all.blocks p = some n :=
  all_blocks.mpr ⟨i, (hp.blocks p n).mp h⟩

theorem Part.owns (hp : Part mine i s t) {p : BitVec 64} {n : Nat} (h : t.Owns p n) :
    s.all.Owns p n := by
  obtain ⟨b, m, hb, hx⟩ := h
  exact ⟨b, m, hp.block hb, hx⟩

/-- What a thread may ask of its part, it may ask of the whole. -/
theorem Part.permits (hp : Part mine i s t) (hw : s.Whole pool) (h : Permits t q) :
    Permits s.all q := by
  cases q with
  | read p n => trivial
  | write p bs => exact hp.owns h
  | exFreePool p =>
    obtain ⟨n, hn⟩ := Option.isSome_iff_exists.mp h
    exact Option.isSome_iff_exists.mpr ⟨n, hp.block hn⟩
  | slice q =>
    cases q with
    | write p val => exact hp.owns h
    | writeBytes p n => exact hp.owns h
    | _ => trivial
  | mdl q =>
    intro r
    obtain ⟨hallows, hcovers⟩ := h r
    rw [hp.ledger] at hallows hcovers
    exact ⟨hw.owned.allows hallows, hw.owned.covers hcovers⟩

/-! One request, and the bytes it changes. -/

theorem has_of_owns {m : BitVec 64 → Prop} {p x : BitVec 64} {n : Nat} (h : t.Owns p n)
    (hx : Within p n x) : Has m t x := by
  obtain ⟨b, k, hb, hsub⟩ := h
  exact .inr ⟨b, k, hb, hsub x hx⟩

/-- What a list of the thread describes is its own code, also where the list is new. -/
theorem Part.step_described (hp : Part mine i s t) {q : MdlReq} {r : q.Answer}
    (hstay : Stays (mine i) (.mdl q)) {m : Pmdl} {e : MdlRecord}
    (he : (t.ledger.step ⟨q, r⟩).mdls m = some e) :
    ∀ x, Within e.start e.length.toNat x → mine i x := by
  rcases Ledger.step_mdls he with ⟨e', hold, hstart, hlength⟩ | ⟨sb, cq, irp, hq⟩
  · rw [← hstart, ← hlength]
    exact hp.described m e' hold
  · have hq : q = .ioAllocateMdl e.start e.length sb cq irp := hq
    subst hq
    exact hstay

/-- Memory changes in bytes of the thread, and in pool bytes that are in no block. -/
theorem Part.frame (hp : Part mine i s t) (hw : s.Whole pool) (hq : Permits t q)
    (h : SharedKernel.Serves pool i s q r s') (x : BitVec 64) : s'.mem x = s.mem x ∨
      Has (mine i) t x ∨ pool x ∧ ∀ p e, s.blocks p = some e → ¬ Within p e.2 x := by
  obtain ⟨hall, -⟩ := h
  cases q with
  | read p n => exact .inl (congrFun (congrArg Kernel.mem hall.2) x)
  | write p bs =>
    exact (write_frame (fun y hy => has_of_owns hq hy) (congrArg Kernel.mem hall)).imp_right .inl
  | exFreePool p =>
    obtain ⟨n, hn⟩ := Option.isSome_iff_exists.mp hq
    by_cases hx : Within p n x
    · exact .inr (.inl (.inr ⟨p, n, hn, hx⟩))
    · refine .inl (hall.2.2 x fun m hm => ?_)
      rwa [Option.some.inj (hm.symm.trans (hp.block hn))]
  | slice q =>
    cases q with
    | alloc a =>
      rcases hall with ⟨-, hsame⟩ | ⟨hfresh, -, -, hmem⟩
      · exact .inl (congrFun (congrArg Kernel.mem hsame) x)
      by_cases hx : Within r a.bytes.toNat x
      · refine .inr (.inr ⟨hfresh.inPool x hx, fun p e he hin => ?_⟩)
        exact hfresh.apart p e.2 (all_blocks.mpr ⟨e.1, he⟩) x hin hx
      · exact .inl (hmem x hx)
    | clone val => exact .inl (congrFun (congrArg Kernel.mem hall.2) x)
    | write p val =>
      exact (write_frame (fun y hy => has_of_owns hq hy) (congrArg Kernel.mem hall)).imp_right .inl
    | writeBytes p n =>
      refine (write_frame (fun y hy => has_of_owns hq ?_) (congrArg Kernel.mem hall)).imp_right .inl
      rwa [List.length_replicate] at hy
    | drop val => exact .inl (congrFun (congrArg Kernel.mem hall) x)
  | mdl q =>
    have hcovers := (hq r).2
    rw [hp.ledger] at hcovers
    rcases Ledger.store_cases hcovers (fun _ _ h => hw.owned.target h) with hno | hcopy
    · exact .inl (congrFun (hall.2.2 _ (hno s.mem).2) x)
    · obtain ⟨m, e, bs, he, hlen, hstore⟩ := hcopy
      refine (write_frame (fun y hy => .inl ?_) (hall.2.2 _ (hstore s.mem).2)).imp_right .inl
      rw [← hp.ledger] at he
      exact hp.described m e he y (hy.mono hlen)

/-- The bytes of another thread are none of these. -/
theorem Part.off_other (hp : Part mine i s t) (hu : Part mine j s u) (hR : Regions pool mine)
    (hw : s.Whole pool) (hij : j ≠ i) {x : BitVec 64} (hx : Has (mine j) u x) :
    ¬ Has (mine i) t x ∧ ¬ (pool x ∧ ∀ p e, s.blocks p = some e → ¬ Within p e.2 x) := by
  have hblock : ∀ p n, t.blocks p = some n → Within p n x → pool x := fun p n h hin =>
    hw.inPool p (i, n) ((hp.blocks p n).mp h) x hin
  rcases hx with hcode | ⟨p, n, hpn, hin⟩
  · refine ⟨fun h => ?_, fun h => hR.off j x hcode h.1⟩
    rcases h with hcode' | ⟨p, n, hpn, hin⟩
    · exact hR.apart j i x hij hcode hcode'
    · exact hR.off j x hcode (hblock p n hpn hin)
  · have hown := (hu.blocks p n).mp hpn
    refine ⟨fun h => ?_, fun h => h.2 p (j, n) hown hin⟩
    rcases h with hcode | ⟨p', n', hpn', hin'⟩
    · exact hR.off i x hcode (hw.inPool p (j, n) hown x hin)
    · have hown' := (hp.blocks p' n').mp hpn'
      obtain rfl := hw.apart p _ p' _ hown hown' x hin hin'
      exact hij (congrArg Prod.fst (Option.some.inj (hown.symm.trans hown')))

/-! What a request is to the part of the thread that makes it. -/

/-- The answer names no new block, list or place. -/
theorem Part.write (hp : Part mine i s t) (p : BitVec 64) (bs : List Byte) :
    Part mine i { s with mem := ByteMem.write s.mem p bs }
      { t with mem := ByteMem.write t.mem p bs } :=
  ⟨hp.blocks, hp.ledger, hp.described, fun x hx => write_at (hp.mem x hx)⟩

/-- A block comes or goes. -/
theorem Part.update_blocks (hp : Part mine i s t) {p : BitVec 64} {o : Option Nat}
    (hblocks : s'.blocks = Function.update s.blocks p (o.map fun n => (i, n))) :
    ∀ p' n, Function.update t.blocks p o p' = some n ↔ s'.blocks p' = some (i, n) := by
  intro p' n
  rw [hblocks]
  by_cases hp' : p' = p
  · subst hp'
    simp
  · rw [Function.update_of_ne hp', Function.update_of_ne hp']
    exact hp.blocks p' n

theorem Part.fresh (hp : Part mine i s t) {n : Nat} {p : BitVec 64} (h : Fresh pool s.all n p) :
    Fresh pool t n p := by
  refine ⟨h.nonnull, ?_, h.inPool, fun q m hm => h.apart q m (hp.block hm)⟩
  by_contra hsome
  obtain ⟨m, hm⟩ := Option.ne_none_iff_exists'.mp hsome
  exact Option.some_ne_none m ((hp.block hm).symm.trans h.unused)

theorem Part.alloc (hp : Part mine i s t) {n : Nat} {p : BitVec 64}
    (h : Allocates pool s.all n p s'.all) (howners : s'.owners = s.owners)
    (hblocks : s'.blocks = Function.update s.blocks p (some (i, n))) :
    ∃ t', Allocates pool t n p t' ∧ Part mine i s' t' := by
  obtain ⟨hfresh, hledger, -, hmem⟩ := h
  have hledger : s'.ledger = s.ledger := hledger
  refine ⟨⟨fun x => if Within p n x then s'.mem x else t.mem x, t.ledger,
    Function.update t.blocks p (some n)⟩, ⟨hp.fresh hfresh, rfl, rfl, fun x hx => if_neg hx⟩,
    hp.update_blocks hblocks, ?_, hp.described, fun x hx => ?_⟩
  · rw [hledger, howners]
    exact hp.ledger
  · dsimp only
    split
    · rfl
    · next hout =>
      refine (hp.mem x ?_).trans (hmem x hout).symm
      rcases hx with hcode | ⟨p', n', hp', hin⟩
      · exact .inl hcode
      rcases update_eq_some.mp hp' with ⟨rfl, hnew⟩ | ⟨-, hold⟩
      · exact absurd (Option.some.inj hnew ▸ hin) hout
      · exact .inr ⟨p', n', hold, hin⟩

/-- A block that is released is not among the bytes the thread still has. -/
theorem Part.free (hp : Part mine i s t) (hR : Regions pool mine) (hw : s.Whole pool)
    {p : BitVec 64} (hq : (t.blocks p).isSome) {u : Unit} (howners : s'.owners = s.owners)
    (h : HookKernel.Serves pool s.all (.exFreePool p) u s'.all)
    (hblocks : s'.blocks = Function.update s.blocks p none) :
    Part mine i s' { t with blocks := Function.update t.blocks p none } := by
  obtain ⟨hledger, -, hmem⟩ := h
  have hledger : s'.ledger = s.ledger := hledger
  obtain ⟨n, hn⟩ := Option.isSome_iff_exists.mp hq
  have hown := (hp.blocks p n).mp hn
  refine ⟨hp.update_blocks hblocks, ?_, hp.described, fun x hx => ?_⟩
  · rw [hledger, howners]
    exact hp.ledger
  · have hleft : Has (mine i) t x ∧ ¬ Within p n x := by
      rcases hx with hcode | ⟨p', n', hp', hin⟩
      · exact ⟨.inl hcode, fun hin => hR.off i x hcode (hw.inPool p _ hown x hin)⟩
      rcases update_eq_some.mp hp' with ⟨-, hnew⟩ | ⟨hne, hold⟩
      · cases hnew
      refine ⟨.inr ⟨p', n', hold, hin⟩, fun hin' => hne ?_⟩
      exact hw.apart p' _ p _ ((hp.blocks p' n').mp hold) hown x hin hin'
    refine (hp.mem x hleft.1).trans (hmem x fun m hm => ?_).symm
    obtain rfl := Option.some.inj (hm.symm.trans (hp.block hn))
    exact hleft.2

theorem Part.mdl (hp : Part mine i s t) (hw : s.Whole pool) {q : MdlReq} {r : q.Answer}
    (hq : Permits t (.mdl q)) (hstay : Stays (mine i) (.mdl q))
    (h : SharedKernel.Serves pool i s (.mdl q) r s') :
    ∃ t', HookKernel.Serves pool t (.mdl q) r t' ∧ Part mine i s' t' := by
  obtain ⟨⟨hledger, -, hmem⟩, hname, hblocks, howners⟩ := h
  have hledger : s'.ledger = s.ledger.step ⟨q, r⟩ := hledger
  have hblocks : s'.blocks = s.blocks := hblocks
  have howners : s'.owners = Ledger.ownersAfter s.owners i ⟨q, r⟩ := howners
  obtain ⟨hallows, hcovers⟩ := hq r
  have hstep : t.ledger.step ⟨q, r⟩ = s'.ledger.of i s'.owners := by
    rw [hp.ledger] at hallows
    rw [hledger, howners, hp.ledger, hw.owned.step_of hallows hname]
  -- the same is written in both, if anything is
  have hboth : ∃ m, t.ledger.store ⟨q, r⟩ t.mem = some m ∧
      ∀ x, Has (mine i) t x → m x = s'.mem x := by
    have htarget : ∀ base e, t.ledger.target base = some e → s.ledger.target base = some e := by
      rw [hp.ledger]
      exact fun _ _ h => hw.owned.target h
    rcases Ledger.store_cases hcovers htarget with hno | hcopy
    · refine ⟨t.mem, (hno t.mem).1, fun x hx => (hp.mem x hx).trans ?_⟩
      exact (congrFun (hmem _ (hno s.mem).2) x).symm
    · obtain ⟨m, e, bs, -, -, hstore⟩ := hcopy
      refine ⟨ByteMem.write t.mem e.start bs, (hstore t.mem).1, fun x hx => ?_⟩
      exact (write_at (hp.mem x hx)).trans (congrFun (hmem _ (hstore s.mem).2) x).symm
  obtain ⟨m, hstore, hm⟩ := hboth
  refine ⟨⟨m, t.ledger.step ⟨q, r⟩, t.blocks⟩, ⟨rfl, rfl, fun m' hm' => ?_⟩, ?_, hstep,
    fun m e he => hp.step_described hstay he, hm⟩
  · exact Option.some.inj (hstore.symm.trans hm')
  · rw [hblocks]
    exact hp.blocks

theorem Part.serves (hp : Part mine i s t) (hR : Regions pool mine) (hw : s.Whole pool)
    (hq : Permits t q) (hstay : Stays (mine i) q) (h : SharedKernel.Serves pool i s q r s') :
    ∃ t', HookKernel.Serves pool t q r t' ∧ Part mine i s' t' := by
  obtain ⟨hall, -, hblocks, howners⟩ := id h
  cases q with
  | read p n =>
    obtain ⟨hread, hsame⟩ := hall
    obtain rfl : s' = s := SharedKernel.eq_of_all hsame hblocks howners
    refine ⟨t, ⟨hread.trans ?_, rfl⟩, hp⟩
    exact read_congr fun x hx => (hp.mem x (.inl (hstay x hx))).symm
  | write p bs =>
    obtain rfl := SharedKernel.eq_of_all hall hblocks howners
    exact ⟨_, rfl, hp.write p bs⟩
  | exFreePool p =>
    exact ⟨{ t with blocks := Function.update t.blocks p none }, ⟨rfl, rfl, fun _ _ => rfl⟩,
      hp.free hR hw hq howners hall hblocks⟩
  | slice q =>
    cases q with
    | alloc a =>
      rcases hall with ⟨hnull, hsame⟩ | halloc
      · have hnull : r = (0 : BitVec 64) := hnull
        subst hnull
        obtain rfl : s' = s := SharedKernel.eq_of_all hsame hblocks howners
        exact ⟨t, .inl ⟨rfl, rfl⟩, hp⟩
      · have hnew : s'.blocks = Function.update s.blocks r (some (i, a.bytes.toNat)) := by
          rw [hblocks]
          exact if_neg halloc.1.nonnull
        obtain ⟨t', ht', hp'⟩ := hp.alloc halloc howners hnew
        exact ⟨t', .inr ht', hp'⟩
    | clone val =>
      obtain ⟨hval, hsame⟩ := hall
      obtain rfl : s' = s := SharedKernel.eq_of_all hsame hblocks howners
      exact ⟨t, ⟨hval, rfl⟩, hp⟩
    | write p val =>
      obtain rfl := SharedKernel.eq_of_all hall hblocks howners
      exact ⟨_, rfl, hp.write p [val]⟩
    | writeBytes p n =>
      obtain rfl := SharedKernel.eq_of_all hall hblocks howners
      exact ⟨_, rfl, hp.write p (List.replicate n 0)⟩
    | drop val =>
      obtain rfl : s' = s := SharedKernel.eq_of_all hall hblocks howners
      exact ⟨t, rfl, hp⟩
  | mdl q => exact hp.mdl hw hq hstay h

/-! What it is to the part of another, and to the whole. -/

/-- A new block was nobody's, and one that is released was the thread's own. -/
theorem Part.blocks_other (hp : Part mine i s t) (hu : Part mine j s u) (hij : j ≠ i)
    (hq : Permits t q) (h : SharedKernel.Serves pool i s q r s') (p : BitVec 64) (n : Nat) :
    u.blocks p = some n ↔ s'.blocks p = some (j, n) := by
  obtain ⟨hall, -, hblocks, -⟩ := h
  rw [hu.blocks p n, hblocks]
  have hupdate : ∀ {a : BitVec 64} {o : Option (ι × Nat)}, s.blocks a ≠ some (j, n) →
      o ≠ some (j, n) → (s.blocks p = some (j, n) ↔
        Function.update s.blocks a o p = some (j, n)) := by
    intro a o hold hnew
    by_cases hpa : p = a
    · subst hpa
      rw [Function.update_self]
      exact iff_of_false hold hnew
    · rw [Function.update_of_ne hpa]
  cases q with
  | exFreePool a =>
    obtain ⟨m, hm⟩ := Option.isSome_iff_exists.mp hq
    refine hupdate (fun h => hij ?_) nofun
    exact congrArg Prod.fst (Option.some.inj (h.symm.trans ((hp.blocks a m).mp hm)))
  | slice q =>
    cases q with
    | alloc a =>
      rcases hall with ⟨hnull, -⟩ | ⟨hfresh, -⟩
      · have hnull : r = (0 : BitVec 64) := hnull
        subst hnull
        rfl
      · simp only [SharedKernel.blocksAfter, if_neg hfresh.nonnull]
        refine hupdate (fun h => ?_) fun h => hij (congrArg Prod.fst (Option.some.inj h)).symm
        exact Option.some_ne_none n ((all_blocks.mpr ⟨j, h⟩).symm.trans hfresh.unused)
    | _ => exact Iff.rfl
  | _ => exact Iff.rfl

theorem Part.ledger_other (hp : Part mine i s t) (hu : Part mine j s u) (hw : s.Whole pool)
    (hij : j ≠ i) (hq : Permits t q) (h : SharedKernel.Serves pool i s q r s') :
    u.ledger = s'.ledger.of j s'.owners := by
  by_cases hc : ∃ c, q = .mdl c
  · obtain ⟨c, rfl⟩ := hc
    obtain ⟨⟨hledger, -⟩, hname, -, howners⟩ := h
    have hledger : s'.ledger = s.ledger.step ⟨c, r⟩ := hledger
    have howners : s'.owners = Ledger.ownersAfter s.owners i ⟨c, r⟩ := howners
    obtain ⟨hallows, -⟩ := hq r
    rw [hp.ledger] at hallows
    rw [hledger, howners, hw.owned.step_of_other hij hallows hname]
    exact hu.ledger
  · obtain ⟨hledger, howners⟩ := lists_quiet (fun c h => hc ⟨c, h⟩) h
    rw [hledger, howners]
    exact hu.ledger

theorem Part.other (hp : Part mine i s t) (hu : Part mine j s u) (hR : Regions pool mine)
    (hw : s.Whole pool) (hij : j ≠ i) (hq : Permits t q)
    (h : SharedKernel.Serves pool i s q r s') : Part mine j s' u := by
  refine ⟨hp.blocks_other hu hij hq h, hp.ledger_other hu hw hij hq h, hu.described, fun x hx => ?_⟩
  obtain ⟨hnot, hfree⟩ := hp.off_other hu hR hw hij hx
  rcases hp.frame hw hq h x with hsame | hhas | hnew
  · exact (hu.mem x hx).trans hsame.symm
  · exact absurd hhas hnot
  · exact absurd hnew hfree

theorem Part.owned (hp : Part mine i s t) (hw : s.Whole pool) (hq : Permits t q)
    (h : SharedKernel.Serves pool i s q r s') : s'.ledger.Owned s'.owners := by
  by_cases hc : ∃ c, q = .mdl c
  · obtain ⟨c, rfl⟩ := hc
    obtain ⟨⟨hledger, -⟩, hname, -, howners⟩ := h
    have hledger : s'.ledger = s.ledger.step ⟨c, r⟩ := hledger
    have howners : s'.owners = Ledger.ownersAfter s.owners i ⟨c, r⟩ := howners
    obtain ⟨hallows, -⟩ := hq r
    rw [hp.ledger] at hallows
    rw [hledger, howners]
    exact hw.owned.step hallows hname
  · obtain ⟨hledger, howners⟩ := lists_quiet (fun c h => hc ⟨c, h⟩) h
    rw [hledger, howners]
    exact hw.owned

theorem Part.whole (hp : Part mine i s t) (hw : s.Whole pool) (hq : Permits t q)
    (h : SharedKernel.Serves pool i s q r s') : s'.Whole pool := by
  have howned := hp.owned hw hq h
  have hsame : s'.blocks = s.blocks → s'.Whole pool := fun hblocks =>
    ⟨hblocks ▸ hw.apart, hblocks ▸ hw.inPool, howned⟩
  obtain ⟨hall, -, hblocks, -⟩ := h
  cases q with
  | exFreePool p =>
    have hblocks : s'.blocks = Function.update s.blocks p none := hblocks
    refine ⟨hblocks ▸ hw.apart.erase p, fun p' e he => ?_, howned⟩
    rw [hblocks] at he
    rcases update_eq_some.mp he with ⟨-, hnew⟩ | ⟨-, hold⟩
    · cases hnew
    · exact hw.inPool p' e hold
  | slice q =>
    cases q with
    | alloc a =>
      rcases hall with ⟨hnull, -⟩ | ⟨hfresh, -⟩
      · have hnull : r = (0 : BitVec 64) := hnull
        subst hnull
        exact hsame hblocks
      have hblocks : s'.blocks = Function.update s.blocks r (some (i, a.bytes.toNat)) :=
        hblocks.trans (if_neg hfresh.nonnull)
      refine ⟨hblocks ▸ hw.apart.insert fun p e he x hx => ?_, fun p e he => ?_, howned⟩
      · exact hfresh.apart p e.2 (all_blocks.mpr ⟨e.1, he⟩) x hx
      · rw [hblocks] at he
        rcases update_eq_some.mp he with ⟨rfl, hnew⟩ | ⟨-, hold⟩
        · obtain rfl := Option.some.inj hnew
          exact hfresh.inPool
        · exact hw.inPool p e hold
    | _ => exact hsame hblocks
  | _ => exact hsame hblocks

/-- Code of no thread stays as it is. -/
theorem Part.untouched (hp : Part mine i s t) (hw : s.Whole pool) (hq : Permits t q)
    (h : SharedKernel.Serves pool i s q r s') {x : BitVec 64} (hpool : ¬ pool x)
    (hx : ∀ i, ¬ mine i x) : s'.mem x = s.mem x := by
  rcases hp.frame hw hq h x with hsame | hhas | hnew
  · exact hsame
  · rcases hhas with hcode | ⟨p, n, hpn, hin⟩
    · exact absurd hcode (hx i)
    · exact absurd (hw.inPool p _ ((hp.blocks p n).mp hpn) x hin) hpool
  · exact absurd hnew.1 hpool

/-- The parts of threads whose code is apart are apart, and so are their requests. -/
theorem SharedKernel.splits (hR : Regions pool mine) (mem₀ : Mem 64) :
    Splits (SharedKernel.Serves pool) (HookKernel.Serves pool)
      (fun i t q => Permits t q ∧ Stays (mine i) q) (Part mine)
      (fun s => s.Whole pool ∧ ∀ x, ¬ pool x → (∀ i, ¬ mine i x) → s.mem x = mem₀ x) := by
  intro i s v q r s' hI hp hq h
  obtain ⟨hw, hmem⟩ := hI
  refine ⟨⟨(hp i).whole hw hq.1 h, fun x hpool hx => ?_⟩, (hp i).serves hR hw hq.1 hq.2 h,
    fun j hij => (hp i).other (hp j) hR hw hij hq.1 h⟩
  exact ((hp i).untouched hw hq.1 h hpool hx).trans (hmem x hpool hx)

end
end HookKernel
end WinKernl
