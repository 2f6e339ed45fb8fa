import WinKernl.Lib.ByteMem
import WinKernl.Lib.Runs
import Mathlib.Data.List.Pairwise
import Mathlib.Tactic.IntervalCases

/- `KernelAllocator` (`kalloc/mod.rs`) over whole runs.

   Correspondence (Rust ↔ Lean):
     `Layout`                              ↔ `Layout`, its validity as fields
     `KernelAllocator::alloc`, `dealloc`   ↔ `KernelAllocator.alloc`, `dealloc`
     `ExAllocatePool`, `ExFreePool`        ↔ functions an operation carries: the block
                                             and memory after the call
   The pool may write wherever no live block is. `alloc` keeps the base of the
   block in the eight bytes below the pointer it returns, and `dealloc` reads them
   back, so the run invariant says where that header is and that it still holds
   the base. -/
namespace WinKernl
open ByteMem Runs

/-- `core::alloc::Layout`: the alignment is a power of two, and the size rounded up
    to it is at most `isize::MAX`. -/
structure Layout where
  size : BitVec 64
  align : BitVec 64
  align_pow2 : ∃ k, align.toNat = 2^k
  size_le : (size.toNat + align.toNat - 1) / align.toNat * align.toNat ≤ 2^63 - 1

/-- `usize::saturating_sub`. -/
def saturatingSub (a b : BitVec 64) : BitVec 64 := if b ≤ a then a - b else 0

/-- `<*mut u8>::align_offset`: the least distance to a multiple of `align`. -/
def alignOffset (p align : BitVec 64) : BitVec 64 :=
  BitVec.ofNat 64 ((align.toNat - p.toNat % align.toNat) % align.toNat)

def Layout.ext (l : Layout) : BitVec 64 := saturatingSub l.align 1#64 + 8#64

/-- The number of bytes `alloc` requests. -/
def Layout.request (l : Layout) : BitVec 64 := l.size + l.ext

/-- The pointer `alloc` makes of a block. -/
def Layout.place (l : Layout) (base : BitVec 64) : BitVec 64 :=
  let start := base + 8#64
  start + alignOffset start l.align

namespace KernelAllocator

/-- `KernelAllocator::alloc`: the pointer it returns, and memory afterwards. -/
def alloc (exAllocatePool : BitVec 64 → BitVec 64 × Mem 64) (layout : Layout) :
    BitVec 64 × Mem 64 :=
  let (base, mem) := exAllocatePool layout.request
  if base = 0 then (0, mem) else
  let ptr := layout.place base
  (ptr, writeWord mem (ptr - 8#64) base)

/-- `KernelAllocator::dealloc`: what it passes to `ExFreePool`, and memory afterwards. -/
def dealloc (exFreePool : BitVec 64 → Mem 64) (ptr : BitVec 64) (mem : Mem 64) :
    Option (BitVec 64) × Mem 64 :=
  if ptr = 0 then (none, mem) else
  let base := readWord mem (ptr - 8#64)
  (some base, exFreePool base)

end KernelAllocator

/-! Runs. -/

/-- An allocation: the layout asked for, the block the pool gave, the pointer returned. -/
structure Allocation where
  layout : Layout
  base : BitVec 64
  ptr : BitVec 64

/-- `x` lies in the pool block. -/
def Allocation.Block (a : Allocation) (x : BitVec 64) : Prop :=
  Within a.base a.layout.request.toNat x

/-- `x` lies in the eight bytes below the pointer. -/
def Allocation.Header (a : Allocation) (x : BitVec 64) : Prop := Within (a.ptr - 8#64) 8 x

/-- `x` lies in the client's bytes. -/
def Allocation.Data (a : Allocation) (x : BitVec 64) : Prop :=
  Within a.ptr a.layout.size.toNat x

def Allocation.Apart (a b : Allocation) : Prop := ∀ x, a.Block x → ¬ b.Block x

instance : Std.Symm Allocation.Apart := ⟨fun _ _ h x hx hx' => h x hx' hx⟩

structure AllocState where
  mem : Mem 64
  live : List Allocation

/-- A call of the allocator, or a client's write of `bs` at `ptr + off`. -/
inductive AllocOp where
  | alloc (layout : Layout) (exAllocatePool : BitVec 64 → BitVec 64 × Mem 64)
  | dealloc (ptr : BitVec 64) (exFreePool : BitVec 64 → Mem 64)
  | write (ptr : BitVec 64) (off : Nat) (bs : List Byte)

def AllocState.step (s : AllocState) : AllocOp → AllocState
  | .alloc layout exAllocatePool =>
    let (ptr, mem) := KernelAllocator.alloc exAllocatePool layout
    if ptr = 0 then ⟨mem, s.live⟩
    else ⟨mem, ⟨layout, (exAllocatePool layout.request).1, ptr⟩ :: s.live⟩
  | .dealloc ptr exFreePool =>
    ⟨(KernelAllocator.dealloc exFreePool ptr s.mem).2, s.live.filter (·.ptr ≠ ptr)⟩
  | .write ptr off bs => ⟨write s.mem (ptr + BitVec.ofNat 64 off) bs, s.live⟩

/-- What `ExAllocatePool` promises of a block: 16-byte alignment, no wrap. -/
structure PoolBlock (base : BitVec 64) (n : Nat) : Prop where
  aligned : base.toNat % 16 = 0
  no_wrap : base.toNat + n ≤ 2^64

/-- The pool gives blocks off the live ones and writes off the live ones; a pointer is
    released while it is live; a client writes inside its own bytes. -/
def AllocLegal (s : AllocState) : AllocOp → Prop
  | .alloc layout exAllocatePool =>
    let (base, mem) := exAllocatePool layout.request
    (∀ a ∈ s.live, ∀ x, a.Block x → mem x = s.mem x) ∧
    (base ≠ 0 → PoolBlock base layout.request.toNat ∧
      ∀ a ∈ s.live, ∀ x, a.Block x → ¬ Within base layout.request.toNat x)
  | .dealloc ptr exFreePool =>
    (∃ a ∈ s.live, a.ptr = ptr) ∧
    ∀ a ∈ s.live, a.ptr = ptr → ∀ b ∈ s.live, b.ptr ≠ ptr → ∀ x, b.Block x →
      exFreePool a.base x = s.mem x
  | .write ptr off bs => ∃ a ∈ s.live, a.ptr = ptr ∧ off + bs.length ≤ a.layout.size.toNat

/-- The pointer is aligned, and header and data lie in the block, apart. -/
structure Allocation.Correct (a : Allocation) : Prop where
  nonnull : a.ptr ≠ 0
  aligned : a.ptr.toNat % a.layout.align.toNat = 0
  header_in : ∀ x, a.Header x → a.Block x
  data_in : ∀ x, a.Data x → a.Block x
  apart : ∀ x, a.Header x → ¬ a.Data x

/-- Every live allocation is correct, live blocks are disjoint, and every header holds
    the base of its block. -/
structure AllocCorrect (s : AllocState) : Prop where
  each : ∀ a ∈ s.live, a.Correct
  disjoint : s.live.Pairwise Allocation.Apart
  header : ∀ a ∈ s.live, readWord s.mem (a.ptr - 8#64) = a.base

/-- A request is exact and its answer null only where the pool's is; a release passes
    on the base of the block. -/
def AllocOpCorrect (s : AllocState) : AllocOp → Prop
  | .alloc layout exAllocatePool =>
    layout.size.toNat + (layout.align.toNat - 1 + 8) < 2^64 ∧
    layout.request.toNat = layout.size.toNat + (layout.align.toNat - 1 + 8) ∧
    ((KernelAllocator.alloc exAllocatePool layout).1 = 0 ↔ (exAllocatePool layout.request).1 = 0)
  | .dealloc ptr exFreePool => ∀ a ∈ s.live, a.ptr = ptr →
    (KernelAllocator.dealloc exFreePool ptr s.mem).1 = some a.base
  | .write _ _ _ => True

/-! Layouts. -/

theorem Layout.align_pos (l : Layout) : 0 < l.align.toNat := by
  obtain ⟨k, hk⟩ := l.align_pow2
  rw [hk]
  exact Nat.two_pow_pos k

/-- An alignment is at most `2^63`, and a multiple of it below `2^63` leaves room for
    one more. -/
theorem Layout.size_add_align (l : Layout) : l.size.toNat + l.align.toNat ≤ 2^63 := by
  obtain ⟨k, hk⟩ := l.align_pow2
  have hpos := l.align_pos
  have hk63 : k ≤ 63 := by
    have hlt := l.align.isLt
    rw [hk] at hlt
    exact Nat.le_of_lt_succ ((Nat.pow_lt_pow_iff_right (by omega)).mp hlt)
  have hdvd : 2^63 = l.align.toNat * 2^(63 - k) := by
    rw [hk, ← Nat.pow_add]
    congr 1
    omega
  have hle := l.size_le
  -- The rounded size is `q` alignments, and `2^63` is more than `q` of them.
  have hround : l.size.toNat ≤ (l.size.toNat + l.align.toNat - 1) / l.align.toNat *
      l.align.toNat := by
    have := Nat.div_add_mod (l.size.toNat + l.align.toNat - 1) l.align.toNat
    have := Nat.mod_lt (l.size.toNat + l.align.toNat - 1) hpos
    rw [Nat.mul_comm]
    omega
  generalize (l.size.toNat + l.align.toNat - 1) / l.align.toNat = q at hle hround
  have hq : q < 2^(63 - k) := by
    rw [Nat.mul_comm] at hle
    exact Nat.lt_of_mul_lt_mul_left (Nat.lt_of_le_of_lt hle (by omega))
  have hnext : l.align.toNat * (q + 1) ≤ l.align.toNat * 2^(63 - k) :=
    Nat.mul_le_mul_left _ hq
  rw [Nat.mul_add, Nat.mul_one, Nat.mul_comm] at hnext
  omega

theorem Layout.ext_toNat (l : Layout) : l.ext.toNat = l.align.toNat - 1 + 8 := by
  have hpos := l.align_pos
  have hle := l.size_add_align
  have hsat : (saturatingSub l.align 1#64).toNat = l.align.toNat - 1 := by
    rw [saturatingSub, if_pos (by rw [BitVec.le_def, BitVec.toNat_ofNat]; omega), BitVec.toNat_sub,
      BitVec.toNat_ofNat]
    omega
  rw [Layout.ext, BitVec.toNat_add, hsat, BitVec.toNat_ofNat]
  omega

/-- The request does not overflow. -/
theorem Layout.request_toNat (l : Layout) :
    l.request.toNat = l.size.toNat + (l.align.toNat - 1) + 8 := by
  have := l.size_add_align
  have := l.align_pos
  rw [Layout.request, BitVec.toNat_add, l.ext_toNat]
  omega

/-! Placement. -/

theorem alignOffset_toNat (l : Layout) (p : BitVec 64) : (alignOffset p l.align).toNat =
    (l.align.toNat - p.toNat % l.align.toNat) % l.align.toNat := by
  have := Nat.mod_lt (l.align.toNat - p.toNat % l.align.toNat) l.align_pos
  have := l.align.isLt
  rw [alignOffset, BitVec.toNat_ofNat, Nat.mod_eq_of_lt (by omega)]

/-- From eight past a multiple of sixteen, the next multiple of a power of two is
    there or at least eight short of one whole alignment away. -/
theorem offset_bound {k s : Nat} (hs : s % 16 = 8) :
    (s + (2^k - s % 2^k) % 2^k) % 2^k = 0 ∧
      ((2^k - s % 2^k) % 2^k = 0 ∨ (2^k - s % 2^k) % 2^k + 8 ≤ 2^k) := by
  rcases Nat.lt_or_ge k 4 with hk | hk
  · interval_cases k <;> omega
  · obtain ⟨j, rfl⟩ := Nat.exists_eq_add_of_le hk
    have h16 : s % 2^(4 + j) % 16 = 8 := by
      rw [Nat.mod_mod_of_dvd _ (by rw [Nat.pow_add]; exact Nat.dvd_mul_right _ _), hs]
    have hlt := Nat.mod_lt s (Nat.two_pow_pos (4 + j))
    have hoff : (2^(4 + j) - s % 2^(4 + j)) % 2^(4 + j) = 2^(4 + j) - s % 2^(4 + j) :=
      Nat.mod_eq_of_lt (by omega)
    rw [hoff]
    refine ⟨?_, .inr (by omega)⟩
    have hsum : s + (2^(4 + j) - s % 2^(4 + j)) = 2^(4 + j) * (s / 2^(4 + j) + 1) := by
      have hdiv := Nat.div_add_mod s (2^(4 + j))
      calc s + (2^(4 + j) - s % 2^(4 + j))
          _ = 2^(4 + j) * (s / 2^(4 + j)) + 2^(4 + j) := by omega
          _ = 2^(4 + j) * (s / 2^(4 + j) + 1) := by rw [Nat.mul_add, Nat.mul_one]
    rw [hsum, Nat.mul_mod_right]

/-- Where the pointer lies in its block. -/
theorem place_spec (l : Layout) {base : BitVec 64} (hb : PoolBlock base l.request.toNat) :
    ∃ o, (l.place base).toNat = base.toNat + 8 + o ∧ o + 1 ≤ l.align.toNat ∧
      (l.place base).toNat % l.align.toNat = 0 := by
  obtain ⟨k, hk⟩ := l.align_pow2
  have hwrap := hb.no_wrap
  have h16 := hb.aligned
  rw [l.request_toNat] at hwrap
  have hpos := l.align_pos
  have hstart : (base + 8#64).toNat = base.toNat + 8 := by
    rw [BitVec.toNat_add, BitVec.toNat_ofNat]
    omega
  obtain ⟨hmod, hbound⟩ := offset_bound (k := k) (s := base.toNat + 8) (by omega)
  rw [← hk] at hmod hbound
  have hlt := Nat.mod_lt (l.align.toNat - (base.toNat + 8) % l.align.toNat) hpos
  have hplace : (l.place base).toNat = base.toNat + 8 +
      (l.align.toNat - (base.toNat + 8) % l.align.toNat) % l.align.toNat := by
    rw [Layout.place, BitVec.toNat_add, alignOffset_toNat, hstart]
    omega
  refine ⟨_, hplace, hlt, ?_⟩
  rw [hplace]
  exact hmod

/-- Header and data lie in the block as offsets of it. -/
theorem place_correct (l : Layout) {base : BitVec 64} (hb : PoolBlock base l.request.toNat) :
    (⟨l, base, l.place base⟩ : Allocation).Correct := by
  obtain ⟨o, hplace, ho, haligned⟩ := place_spec l hb
  have hwrap := hb.no_wrap
  have hreq := l.request_toNat
  have hpos := l.align_pos
  have hlt := (l.place base).isLt
  have hdata : l.place base = base + BitVec.ofNat 64 (8 + o) := by
    apply BitVec.eq_of_toNat_eq
    rw [BitVec.toNat_add, BitVec.toNat_ofNat, hplace]
    omega
  have hheader : l.place base - 8#64 = base + BitVec.ofNat 64 o := by
    apply BitVec.eq_of_toNat_eq
    rw [BitVec.toNat_add, BitVec.toNat_ofNat, BitVec.toNat_sub, BitVec.toNat_ofNat, hplace]
    omega
  refine ⟨?_, haligned, fun x hx => ?_, fun x hx => ?_, fun x hx => ?_⟩
  · intro h
    have hne : (l.place base).toNat ≠ 0 := by omega
    exact hne (congrArg BitVec.toNat h)
  · rw [Allocation.Header, hheader] at hx
    have hin : o + 8 ≤ l.request.toNat := by omega
    exact hx.of_add hin
  · rw [Allocation.Data, hdata] at hx
    have hin : 8 + o + l.size.toNat ≤ l.request.toNat := by omega
    exact hx.of_add hin
  · refine Within.off hx ?_ ?_
    · dsimp only
      rw [hheader, hdata, BitVec.toNat_sub, BitVec.toNat_add, BitVec.toNat_add, BitVec.toNat_ofNat,
        BitVec.toNat_ofNat]
      omega
    · dsimp only
      rw [hheader, hdata, BitVec.toNat_sub, BitVec.toNat_add, BitVec.toNat_add, BitVec.toNat_ofNat,
        BitVec.toNat_ofNat]
      omega

/-! One legal step. -/

/-- Memory that agrees on a block agrees on its header. -/
theorem header_frame {a : Allocation} (ha : a.Correct) {m m' : Mem 64}
    (h : ∀ x, a.Block x → m' x = m x) :
    readWord m' (a.ptr - 8#64) = readWord m (a.ptr - 8#64) :=
  readWord_congr fun x hx => h x (ha.header_in x hx)

theorem alloc_null {p : BitVec 64 → BitVec 64 × Mem 64} {l : Layout}
    (h : (p l.request).1 = 0) : KernelAllocator.alloc p l = (0, (p l.request).2) :=
  if_pos h

theorem alloc_placed {p : BitVec 64 → BitVec 64 × Mem 64} {l : Layout}
    (h : (p l.request).1 ≠ 0) : KernelAllocator.alloc p l =
      (l.place (p l.request).1,
        writeWord (p l.request).2 (l.place (p l.request).1 - 8#64) (p l.request).1) :=
  if_neg h

section
variable {s : AllocState}

theorem correct_alloc {l : Layout} {p : BitVec 64 → BitVec 64 × Mem 64} (hs : AllocCorrect s)
    (hl : AllocLegal s (.alloc l p)) : AllocCorrect (s.step (.alloc l p)) := by
  obtain ⟨hframe, hblock⟩ := hl
  by_cases h0 : (p l.request).1 = 0
  · rw [AllocState.step, alloc_null h0]
    refine ⟨hs.each, hs.disjoint, fun a ha => ?_⟩
    exact (header_frame (hs.each a ha) (hframe a ha)).trans (hs.header a ha)
  · obtain ⟨hpool, hoff⟩ := hblock h0
    have hnew := place_correct l hpool
    rw [AllocState.step, alloc_placed h0]
    dsimp only
    rw [if_neg hnew.nonnull]
    constructor
    · exact List.forall_mem_cons.mpr ⟨hnew, hs.each⟩
    · exact List.pairwise_cons.mpr ⟨fun b hb x hx hx' => hoff b hb x hx' hx, hs.disjoint⟩
    · refine List.forall_mem_cons.mpr ⟨readWord_writeWord _ _ _ (by norm_num), fun a ha => ?_⟩
      -- The new header lies in the new block, off the block of `a`.
      refine (header_frame (hs.each a ha) fun x hx => ?_).trans (hs.header a ha)
      have hout : ¬ Within (l.place (p l.request).1 - 8#64) 8 x :=
        fun h => hoff a ha x hx (hnew.header_in x h)
      exact (writeWord_outside hout).trans (hframe a ha x hx)

/-- `dealloc` finds the base in the header. -/
theorem dealloc_base {free : BitVec 64 → Mem 64} (hs : AllocCorrect s) {a : Allocation}
    (ha : a ∈ s.live) : KernelAllocator.dealloc free a.ptr s.mem = (some a.base, free a.base) := by
  rw [KernelAllocator.dealloc, if_neg (hs.each a ha).nonnull, hs.header a ha]

theorem correct_dealloc {ptr : BitVec 64} {free : BitVec 64 → Mem 64} (hs : AllocCorrect s)
    (hl : AllocLegal s (.dealloc ptr free)) : AllocCorrect (s.step (.dealloc ptr free)) := by
  obtain ⟨⟨a, ha, rfl⟩, hframe⟩ := hl
  rw [AllocState.step, dealloc_base hs ha]
  have hlive : ∀ {b}, b ∈ s.live.filter (·.ptr ≠ a.ptr) → b ∈ s.live ∧ b.ptr ≠ a.ptr := by
    intro b hb
    simpa using hb
  refine ⟨fun b hb => hs.each b (hlive hb).1, hs.disjoint.filter _, fun b hb => ?_⟩
  obtain ⟨hb, hne⟩ := hlive hb
  exact (header_frame (hs.each b hb) (hframe a ha rfl b hb hne)).trans (hs.header b hb)

theorem correct_write {ptr : BitVec 64} {off : Nat} {bs : List Byte} (hs : AllocCorrect s)
    (hl : AllocLegal s (.write ptr off bs)) : AllocCorrect (s.step (.write ptr off bs)) := by
  obtain ⟨a, ha, rfl, hin⟩ := hl
  refine ⟨hs.each, hs.disjoint, fun b hb => ?_⟩
  have hkeep : ∀ x, b.Header x → write s.mem (a.ptr + BitVec.ofNat 64 off) bs x = s.mem x := by
    intro x hx
    apply write_outside
    intro hw
    have hdata : a.Data x := hw.of_add hin
    -- A header is off its own data, and off the data of every other block.
    by_cases hab : a = b
    · subst hab
      exact (hs.each a ha).apart x hx hdata
    · exact hs.disjoint.forall ha hb hab x ((hs.each a ha).data_in x hdata)
        ((hs.each b hb).header_in x hx)
  exact (readWord_congr hkeep).trans (hs.header b hb)

theorem allocCorrect_step {o : AllocOp} (hs : AllocCorrect s) (hl : AllocLegal s o) :
    AllocCorrect (s.step o) := by
  cases o with
  | alloc l p => exact correct_alloc hs hl
  | dealloc ptr free => exact correct_dealloc hs hl
  | write ptr off bs => exact correct_write hs hl

theorem allocOpCorrect {o : AllocOp} (hs : AllocCorrect s) (hl : AllocLegal s o) :
    AllocOpCorrect s o := by
  cases o with
  | alloc l p =>
    have hreq := l.request_toNat
    have hlt := l.request.isLt
    refine ⟨by omega, by omega, ?_⟩
    by_cases h0 : (p l.request).1 = 0
    · rw [alloc_null h0]
      exact iff_of_true rfl h0
    · rw [alloc_placed h0]
      exact iff_of_false (place_correct l (hl.2 h0).1).nonnull h0
  | dealloc ptr free =>
    intro a ha heq
    subst heq
    rw [dealloc_base hs ha]
  | write ptr off bs => trivial

end

/-- **The allocator.** Along every run of legal calls and client writes every live
    allocation is correct, and so is every call. -/
theorem kernelAllocator_correct (mem : Mem 64) (ops : List AllocOp)
    (hlegal : Guarded AllocState.step AllocLegal ⟨mem, []⟩ ops) :
    Always AllocState.step AllocCorrect ⟨mem, []⟩ ops ∧
      Guarded AllocState.step AllocOpCorrect ⟨mem, []⟩ ops := by
  have hempty : AllocCorrect ⟨mem, []⟩ :=
    ⟨fun a ha => (nomatch ha), List.Pairwise.nil, fun a ha => (nomatch ha)⟩
  have halways := always_of_guarded (fun s o => allocCorrect_step) hempty hlegal
  exact ⟨halways, halways.guarded (fun s o => allocOpCorrect) hlegal⟩

/-! A page-aligned allocation, written to and released. -/

def pageLayout : Layout := ⟨100#64, 4096#64, ⟨12, rfl⟩, by decide⟩

def zeroMem : Mem 64 := fun _ => 0

def pageAlloc : AllocOp := .alloc pageLayout fun _ => (0x10010#64, zeroMem)

def pageRun : List AllocOp :=
  [pageAlloc, .write 0x11000#64 0 (List.replicate 100 0xFF#8), .dealloc 0x11000#64 fun _ => zeroMem]

theorem pageAlloc_live :
    (AllocState.step ⟨zeroMem, []⟩ pageAlloc).live = [⟨pageLayout, 0x10010#64, 0x11000#64⟩] := by
  rfl

theorem kernelAllocator_page :
    Always AllocState.step AllocCorrect ⟨zeroMem, []⟩ pageRun ∧
      Guarded AllocState.step AllocOpCorrect ⟨zeroMem, []⟩ pageRun := by
  refine kernelAllocator_correct zeroMem pageRun ⟨⟨fun a ha => (nomatch ha), fun _ => ⟨⟨by decide,
    by decide⟩, fun a ha => (nomatch ha)⟩⟩, ?_, ⟨?_, ?_⟩, trivial⟩
  · exact ⟨_, pageAlloc_live ▸ List.mem_cons_self, rfl, by decide⟩
  · exact ⟨_, pageAlloc_live ▸ List.mem_cons_self, rfl⟩
  · intro a _ _ b hb hne
    obtain rfl := List.mem_singleton.mp (pageAlloc_live ▸ hb)
    exact absurd rfl hne

end WinKernl
