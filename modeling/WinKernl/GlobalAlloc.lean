import WinKernl.Lib.Server
import WinKernl.Lib.Table
import WinKernl.KernelAllocator

/- The global allocator (`kalloc/mod.rs`) as its clients see it, request by request.

   Correspondence (Rust ↔ Lean):
     `GlobalAlloc::alloc`, `dealloc` for `KernelAllocator`  ↔ `alloc`, `dealloc`
     `GlobalAlloc::alloc_zeroed`, `realloc` (as provided)   ↔ `allocZeroed`, `realloc`
     a client of the allocator                              ↔ a program of `CallReq`s
   `KernelAllocator.lean` has a call as one step; here it is a program whose requests go to
   the pool (`Pool`, `Serves`), which may fail, gives any block that is off those in use, and
   does what it likes with all other memory. What the allocator is for is `Heap`: chunks of
   bytes by pointer, each with its layout. The kernel represents a heap when its blocks in
   use are those of the chunks; whatever a client does that is safe on the heap is then safe
   on the kernel, and ends there only as it can on the heap. -/
namespace WinKernl.GlobalAlloc
open ByteMem Ask Table

/-! The calls. -/

inductive PoolReq where
  | exAllocatePool (numberOfBytes : BitVec 64)
  | exFreePool (p : BitVec 64)
  | load (a : BitVec 64) (n : Nat)
  | store (a : BitVec 64) (bs : List Byte)

abbrev PoolReq.Answer : PoolReq → Type
  | .exAllocatePool _ => BitVec 64
  | .exFreePool _ => Unit
  | .load _ _ => List Byte
  | .store _ _ => Unit

abbrev PoolProg (ε α : Type) := Prog PoolReq PoolReq.Answer ε α

def alloc {ε : Type} (layout : Layout) : PoolProg ε (BitVec 64) :=
  .ask (.exAllocatePool layout.request) fun base : BitVec 64 =>
    if base = 0 then .ok 0 else
    let ptr := layout.place base
    .ask (.store (ptr - 8#64) (toLE 8 base.toNat)) fun _ => .ok ptr

def dealloc {ε : Type} (ptr : BitVec 64) (_layout : Layout) : PoolProg ε Unit :=
  if ptr = 0 then .ok () else
  .ask (.load (ptr - 8#64) 8) fun base : List Byte =>
  .ask (.exFreePool (BitVec.ofNat 64 (ofLE base))) fun _ => .ok ()

/-- `GlobalAlloc::alloc_zeroed`. -/
def allocZeroed {ε : Type} (layout : Layout) : PoolProg ε (BitVec 64) :=
  alloc layout >>= fun ptr =>
    if ptr ≠ 0 then
      .ask (.store ptr (List.replicate layout.size.toNat 0)) fun _ => .ok ptr
    else .ok ptr

/-- The layout that `realloc` makes of the new size: valid by the caller's promise. -/
def resized (layout : Layout) (newSize : BitVec 64)
    (h : (newSize.toNat + layout.align.toNat - 1) / layout.align.toNat * layout.align.toNat ≤
      2^63 - 1) : Layout :=
  ⟨newSize, layout.align, layout.align_pow2, h⟩

/-- `GlobalAlloc::realloc`: where no block is found, the old one stays. -/
def realloc {ε : Type} (ptr : BitVec 64) (layout newLayout : Layout) :
    PoolProg ε (BitVec 64) :=
  alloc newLayout >>= fun newPtr =>
    if newPtr ≠ 0 then
      .ask (.load ptr (min layout.size.toNat newLayout.size.toNat)) fun bs : List Byte =>
      .ask (.store newPtr bs) fun _ =>
      dealloc ptr layout >>= fun _ => .ok newPtr
    else .ok newPtr

/-- What a client asks: a call of the allocator, or an access at an offset of a pointer. -/
inductive CallReq where
  | alloc (layout : Layout)
  | allocZeroed (layout : Layout)
  | dealloc (ptr : BitVec 64) (layout : Layout)
  | realloc (ptr : BitVec 64) (layout : Layout) (newSize : BitVec 64)
      (h : (newSize.toNat + layout.align.toNat - 1) / layout.align.toNat * layout.align.toNat ≤
        2^63 - 1)
  | load (ptr : BitVec 64) (off n : Nat)
  | store (ptr : BitVec 64) (off : Nat) (bs : List Byte)

abbrev CallReq.Answer : CallReq → Type
  | .alloc _ => BitVec 64
  | .allocZeroed _ => BitVec 64
  | .dealloc _ _ => Unit
  | .realloc _ _ _ _ => BitVec 64
  | .load _ _ _ => List Byte
  | .store _ _ _ => Unit

abbrev Client (ε α : Type) := Prog CallReq CallReq.Answer ε α

def perform {ε : Type} : (q : CallReq) → PoolProg ε q.Answer
  | .alloc layout => GlobalAlloc.alloc layout
  | .allocZeroed layout => GlobalAlloc.allocZeroed layout
  | .dealloc ptr layout => GlobalAlloc.dealloc ptr layout
  | .realloc ptr layout newSize h => GlobalAlloc.realloc ptr layout (resized layout newSize h)
  | .load ptr off n => .ask (.load (ptr + BitVec.ofNat 64 off) n) fun bs => .ok bs
  | .store ptr off bs => .ask (.store (ptr + BitVec.ofNat 64 off) bs) fun _ => .ok ()

/-! A call as one step. -/

/-- The pool as the functions that an operation of `KernelAllocator.lean` carries. -/
def Alone (exAllocatePool : BitVec 64 → BitVec 64 × Mem 64) (exFreePool : BitVec 64 → Mem 64) :
    Server (Mem 64) PoolReq PoolReq.Answer
  | _, .exAllocatePool n, (p : BitVec 64), m' => (p, m') = exAllocatePool n
  | _, .exFreePool p, _, m' => m' = exFreePool p
  | m, .load a n, (bs : List Byte), m' => bs = read m a n ∧ m' = m
  | m, .store a bs, _, m' => m' = write m a bs

theorem alloc_exec {ε : Type} {exAllocatePool : BitVec 64 → BitVec 64 × Mem 64}
    {exFreePool : BitVec 64 → Mem 64} {l : Layout} {m m' : Mem 64} {o : Outcome ε (BitVec 64)} :
    (alloc l : PoolProg ε (BitVec 64)).Exec (Alone exAllocatePool exFreePool) m o m' ↔
      o = .ok (KernelAllocator.alloc exAllocatePool l).1 ∧
        m' = (KernelAllocator.alloc exAllocatePool l).2 := by
  constructor
  · intro hexec
    obtain ⟨(base : BitVec 64), m₁, hbase, hexec⟩ := hexec
    have hans : exAllocatePool l.request = (base, m₁) := hbase.symm
    dsimp only at hexec
    by_cases h0 : base = 0
    · rw [if_pos h0] at hexec
      rw [alloc_null (by rw [hans]; exact h0), hans]
      exact hexec
    · rw [if_neg h0] at hexec
      obtain ⟨_, m₂, rfl, hexec⟩ := hexec
      rw [alloc_placed (by rw [hans]; exact h0), hans]
      exact hexec
  · intro h
    obtain ⟨rfl, rfl⟩ := h
    refine ⟨(exAllocatePool l.request).1, (exAllocatePool l.request).2, rfl, ?_⟩
    dsimp only
    by_cases h0 : (exAllocatePool l.request).1 = 0
    · rw [if_pos h0, alloc_null h0]
      exact ⟨rfl, rfl⟩
    · rw [if_neg h0, alloc_placed h0]
      exact ⟨(), _, rfl, rfl, rfl⟩

theorem dealloc_exec {ε : Type} {exAllocatePool : BitVec 64 → BitVec 64 × Mem 64}
    {exFreePool : BitVec 64 → Mem 64} {ptr : BitVec 64} {l : Layout} {m m' : Mem 64}
    {o : Outcome ε Unit} :
    (dealloc ptr l : PoolProg ε Unit).Exec (Alone exAllocatePool exFreePool) m o m' ↔
      o = .ok () ∧ m' = (KernelAllocator.dealloc exFreePool ptr m).2 := by
  by_cases h0 : ptr = 0
  · rw [dealloc, if_pos h0, KernelAllocator.dealloc, if_pos h0]
    exact Iff.rfl
  · rw [dealloc, if_neg h0, KernelAllocator.dealloc, if_neg h0]
    constructor
    · intro hexec
      obtain ⟨_, _, ⟨rfl, rfl⟩, _, _, rfl, hexec⟩ := hexec
      exact hexec
    · intro h
      exact ⟨_, m, ⟨rfl, rfl⟩, (), _, rfl, h⟩

/-! The pool. -/

/-- Memory, and the pool blocks in use with their sizes. -/
structure Pool where
  mem : Mem 64
  blocks : BitVec 64 → Option Nat

/-- `x` lies in a block in use. -/
def Pool.InUse (k : Pool) (x : BitVec 64) : Prop := ∃ base n, k.blocks base = some n ∧ Within base n x

/-- The run is inside one block in use. -/
def Pool.Inside (k : Pool) (a : BitVec 64) (n : Nat) : Prop :=
  ∃ base m, k.blocks base = some m ∧ ∀ x, Within a n x → Within base m x

/-- What `ExAllocatePool` promises of a block it gives. -/
structure Pool.Fresh (k : Pool) (n : Nat) (p : BitVec 64) : Prop extends PoolBlock p n where
  nonnull : p ≠ 0
  unused : k.blocks p = none
  off : ∀ x, k.InUse x → ¬ Within p n x

/-- What is left of the blocks in use holds what `m` does. -/
def Pool.Holds (k : Pool) (m : Mem 64) : Prop := ∀ x, k.InUse x → k.mem x = m x

/-- How the pool and the memory answer. -/
def Pool.Serves : Server Pool PoolReq PoolReq.Answer
  | k, .exAllocatePool n, (p : BitVec 64), k' =>
    p = 0 ∧ k'.blocks = k.blocks ∧ k'.Holds k.mem ∨
      k.Fresh n.toNat p ∧ k'.blocks = Function.update k.blocks p (some n.toNat) ∧
        ∀ x, k.InUse x → k'.mem x = k.mem x
  | k, .exFreePool p, _, k' => k'.blocks = Function.update k.blocks p none ∧ k'.Holds k.mem
  | k, .load a n, (bs : List Byte), k' =>
    bs = read k.mem a n ∧ k'.blocks = k.blocks ∧ k'.Holds k.mem
  | k, .store a bs, _, k' => k'.blocks = k.blocks ∧ k'.Holds (write k.mem a bs)

/-- No access outside a block in use, and no release of what is not in use. -/
def Pool.Permits : Pool → PoolReq → Prop
  | _, .exAllocatePool _ => True
  | k, .exFreePool p => k.blocks p ≠ none
  | k, .load a n => k.Inside a n
  | k, .store a bs => k.Inside a bs.length

/-! What the allocator is for. -/

/-- The bytes behind a pointer, as many as its layout says. -/
structure Chunk where
  layout : Layout
  bytes : List Byte
  length_eq : bytes.length = layout.size.toNat

abbrev Heap := BitVec 64 → Option Chunk

def Heap.empty : Heap := fun _ => none

/-- A pointer for a new chunk: aligned, in one piece, and off the other chunks. -/
structure Heap.Room (h : Heap) (layout : Layout) (p : BitVec 64) : Prop where
  nonnull : p ≠ 0
  aligned : p.toNat % layout.align.toNat = 0
  no_wrap : p.toNat + layout.size.toNat ≤ 2^64
  new : h p = none
  off : ∀ q c, h q = some c → ∀ x, Within q c.layout.size.toNat x → ¬ Within p layout.size.toNat x

/-- A call for a chunk whose bytes are as `init` says: it is made, or nothing changes. -/
def Heap.Gives (h : Heap) (layout : Layout) (init : List Byte → Prop) (gone : Heap)
    (p : BitVec 64) (h' : Heap) : Prop :=
  p = 0 ∧ h' = h ∨
    h.Room layout p ∧ ∃ c : Chunk, c.layout = layout ∧ init c.bytes ∧
      h' = Function.update gone p (some c)

def Heap.Serves : Server Heap CallReq CallReq.Answer
  | h, .alloc layout, p, h' => h.Gives layout (fun _ => True) h p h'
  | h, .allocZeroed layout, p, h' =>
    h.Gives layout (fun bs => bs = List.replicate layout.size.toNat 0) h p h'
  | h, .dealloc ptr _, _, h' => h' = if ptr = 0 then h else Function.update h ptr none
  | h, .realloc ptr layout newSize valid, p, h' => ∃ old, h ptr = some old ∧
      h.Gives (resized layout newSize valid)
        (fun bs => bs.take layout.size.toNat = old.bytes.take newSize.toNat)
        (Function.update h ptr none) p h'
  | h, .load ptr off n, bs, h' => h' = h ∧ ∃ c, h ptr = some c ∧ bs = (c.bytes.drop off).take n
  | h, .store ptr off bs, _, h' => ∃ c c' : Chunk, h ptr = some c ∧ c'.layout = c.layout ∧
      c'.bytes = c.bytes.take off ++ bs ++ c.bytes.drop (off + bs.length) ∧
      h' = Function.update h ptr (some c')

/-- A pointer is released or resized while it is live and with its layout, and accesses
    stay inside its bytes. -/
def Heap.Permits : Heap → CallReq → Prop
  | _, .alloc _ => True
  | _, .allocZeroed _ => True
  | h, .dealloc ptr layout => ptr = 0 ∨ ∃ c, h ptr = some c ∧ c.layout = layout
  | h, .realloc ptr layout _ _ => ∃ c, h ptr = some c ∧ c.layout = layout
  | h, .load ptr off n => ∃ c, h ptr = some c ∧ off + n ≤ c.layout.size.toNat
  | h, .store ptr off bs => ∃ c, h ptr = some c ∧ off + bs.length ≤ c.layout.size.toNat

/-! How the kernel represents a heap. -/

/-- The chunk of an allocation: what its bytes hold. -/
def chunkOf (m : Mem 64) (a : Allocation) : Chunk :=
  ⟨a.layout, read m a.ptr a.layout.size.toNat, read_length m a.ptr _⟩

/-- The blocks in use are those of the allocations, and the chunks are what these hold. -/
structure Shows (live : List Allocation) (h : Heap) (k : Pool) : Prop where
  correct : AllocCorrect ⟨k.mem, live⟩
  blocks : Lists k.blocks live Allocation.base fun a => a.layout.request.toNat
  chunks : Lists h live Allocation.ptr (chunkOf k.mem)

def Represents (k : Pool) (h : Heap) : Prop := ∃ live, Shows live h k

theorem chunkOf_congr {a : Allocation} (ha : a.Correct) {m m' : Mem 64}
    (h : ∀ x, a.Block x → m' x = m x) : chunkOf m' a = chunkOf m a := by
  have hbytes : read m' a.ptr a.layout.size.toNat = read m a.ptr a.layout.size.toNat :=
    read_congr fun x hx => h x (ha.data_in x hx)
  simp only [chunkOf, hbytes]

theorem allocCorrect_congr {m m' : Mem 64} {live : List Allocation} (h : AllocCorrect ⟨m, live⟩)
    (hm : ∀ a ∈ live, ∀ x, a.Block x → m' x = m x) : AllocCorrect ⟨m', live⟩ :=
  ⟨h.each, h.disjoint, fun a ha =>
    (header_frame (h.each a ha) (hm a ha)).trans (h.header a ha)⟩

theorem request_pos (l : Layout) : 0 < l.request.toNat := by
  rw [l.request_toNat]
  omega

/-- Two live allocations that share a byte are one. -/
theorem eq_of_shared {s : AllocState} (hs : AllocCorrect s) {a b : Allocation} (ha : a ∈ s.live)
    (hb : b ∈ s.live) {x : BitVec 64} (hax : a.Block x) (hbx : b.Block x) : a = b := by
  by_contra hne
  exact hs.disjoint.forall ha hb hne x hax hbx

theorem within_self {n : Nat} (hn : 0 < n) (a : BitVec 64) : Within a n a := by
  rw [Within, BitVec.sub_self]
  exact hn

section
variable {live : List Allocation} {h : Heap} {k k' : Pool} {a b : Allocation}

theorem Shows.eq_of_base (hs : Shows live h k) (ha : a ∈ live) (hb : b ∈ live)
    (heq : a.base = b.base) : a = b :=
  eq_of_shared hs.correct ha hb (within_self (request_pos a.layout) a.base)
    (heq ▸ within_self (request_pos b.layout) b.base)

theorem Shows.eq_of_ptr (hs : Shows live h k) (ha : a ∈ live) (hb : b ∈ live)
    (heq : a.ptr = b.ptr) : a = b := by
  have hself : ∀ c : Allocation, c.Header (c.ptr - 8#64) :=
    fun c => within_self (by norm_num) (c.ptr - 8#64)
  exact eq_of_shared hs.correct ha hb ((hs.correct.each a ha).header_in _ (hself a))
    ((hs.correct.each b hb).header_in _ (heq ▸ hself b))

theorem Shows.inUse (hs : Shows live h k) (ha : a ∈ live) {x : BitVec 64} (hx : a.Block x) :
    k.InUse x :=
  ⟨a.base, _, hs.blocks.mem ha, hx⟩

/-- A run inside a live block. -/
theorem Shows.inside (hs : Shows live h k) (ha : a ∈ live) {p : BitVec 64} {n : Nat}
    (hin : ∀ x, Within p n x → a.Block x) : k.Inside p n :=
  ⟨a.base, _, hs.blocks.mem ha, hin⟩

/-- The client's bytes are a run inside the block. -/
theorem Shows.inside_data (hs : Shows live h k) (ha : a ∈ live) {off n : Nat}
    (hn : off + n ≤ a.layout.size.toNat) : k.Inside (a.ptr + BitVec.ofNat 64 off) n :=
  hs.inside ha fun x hx => (hs.correct.each a ha).data_in x (hx.of_add hn)

/-- Nothing happened to the blocks in use. -/
theorem Shows.congr (hs : Shows live h k) (hblocks : k'.blocks = k.blocks)
    (hmem : k'.Holds k.mem) : Shows live h k' := by
  have hkeep : ∀ a ∈ live, ∀ x, a.Block x → k'.mem x = k.mem x := by
    intro a ha x hx
    obtain ⟨base, n, hbase, hin⟩ := hs.inUse ha hx
    exact hmem x ⟨base, n, hblocks ▸ hbase, hin⟩
  exact ⟨allocCorrect_congr hs.correct hkeep, hblocks ▸ hs.blocks,
    hs.chunks.congr fun a ha => chunkOf_congr (hs.correct.each a ha) (hkeep a ha)⟩

/-- A new allocation, with its header, in a block off those in use. -/
theorem Shows.add (hs : Shows live h k) {l : Layout} {base : BitVec 64} {m : Mem 64}
    (hfresh : k.Fresh l.request.toNat base) (hm : ∀ x, k.InUse x → m x = k.mem x)
    (hblocks : k'.blocks = Function.update k.blocks base (some l.request.toNat))
    (hmem : k'.Holds (writeWord m (l.place base - 8#64) base)) :
    h.Room l (l.place base) ∧ Shows (⟨l, base, l.place base⟩ :: live)
      (Function.update h (l.place base) (some (chunkOf k'.mem ⟨l, base, l.place base⟩))) k' := by
  have hnew := place_correct l hfresh.toPoolBlock
  -- the call as a legal step of the allocator's state
  have hstep := correct_alloc (l := l) (p := fun _ => (base, m)) hs.correct
    ⟨fun a ha x hx => hm x (hs.inUse ha hx), fun _ => ⟨hfresh.toPoolBlock,
      fun a ha x hx => hfresh.off x (hs.inUse ha hx)⟩⟩
  rw [AllocState.step, alloc_placed hfresh.nonnull] at hstep
  dsimp only at hstep
  rw [if_neg hnew.nonnull] at hstep
  have hoff : ∀ a ∈ live, ∀ x, a.Block x → ¬ Within base l.request.toNat x :=
    fun a ha x hx => hfresh.off x (hs.inUse ha hx)
  have hne : ∀ a ∈ live, a.base ≠ base := by
    intro a ha heq
    exact hoff a ha base (heq ▸ within_self (request_pos a.layout) a.base)
      (within_self (request_pos l) base)
  have hinUse : ∀ a ∈ (⟨l, base, l.place base⟩ : Allocation) :: live, ∀ x, a.Block x →
      k'.InUse x := by
    intro a ha x hx
    rcases List.mem_cons.mp ha with rfl | ha
    · exact ⟨base, _, by rw [hblocks, Function.update_self], hx⟩
    · exact ⟨a.base, _, by rw [hblocks, Function.update_of_ne (hne a ha), hs.blocks.mem ha], hx⟩
  have hcorrect : AllocCorrect ⟨k'.mem, ⟨l, base, l.place base⟩ :: live⟩ :=
    allocCorrect_congr hstep fun a ha x hx => hmem x (hinUse a ha x hx)
  have hptr : ∀ a ∈ live, a.ptr ≠ l.place base := by
    intro a ha heq
    have hx : Within (l.place base - 8#64) 8 (l.place base - 8#64) :=
      within_self (by norm_num) _
    exact hoff a ha _ ((hs.correct.each a ha).header_in _ (heq ▸ hx)) (hnew.header_in _ hx)
  have hkeep : ∀ a ∈ live, chunkOf k'.mem a = chunkOf k.mem a := by
    intro a ha
    refine chunkOf_congr (hs.correct.each a ha) fun x hx => ?_
    have hout : ¬ Within (l.place base - 8#64) 8 x :=
      fun hx' => hoff a ha x hx (hnew.header_in x hx')
    calc k'.mem x
        _ = writeWord m (l.place base - 8#64) base x :=
          hmem x (hinUse a (List.mem_cons_of_mem _ ha) x hx)
        _ = m x := writeWord_outside hout
        _ = k.mem x := hm x (hs.inUse ha hx)
  have hlists : Lists k'.blocks (⟨l, base, l.place base⟩ :: live) Allocation.base
      fun a => a.layout.request.toNat := by
    rw [hblocks]
    exact hs.blocks.cons (x := ⟨l, base, l.place base⟩) hne
  refine ⟨?_, hcorrect, hlists,
    (hs.chunks.congr hkeep).cons (x := ⟨l, base, l.place base⟩) hptr⟩
  obtain ⟨o, hplace, ho, haligned⟩ := place_spec l hfresh.toPoolBlock
  have hwrap := hfresh.no_wrap
  have hreq := l.request_toNat
  refine ⟨hnew.nonnull, haligned, by omega, ?_, fun q c hq x hx hx' => ?_⟩
  · by_contra hsome
    obtain ⟨c, hc⟩ := Option.ne_none_iff_exists'.mp hsome
    obtain ⟨a, ha, heq, -⟩ := (hs.chunks _ _).mp hc
    exact hptr a ha heq
  · obtain ⟨a, ha, rfl, rfl⟩ := (hs.chunks _ _).mp hq
    exact hoff a ha x ((hs.correct.each a ha).data_in x hx) (hnew.data_in x hx')

/-- The allocation at a pointer is released. -/
theorem Shows.remove (hs : Shows live h k) (ha : a ∈ live)
    (hblocks : k'.blocks = Function.update k.blocks a.base none) (hmem : k'.Holds k.mem) :
    Shows (live.filter (·.ptr ≠ a.ptr)) (Function.update h a.ptr none) k' := by
  have hlive : ∀ b ∈ live.filter (·.ptr ≠ a.ptr), b ∈ live ∧ b.ptr ≠ a.ptr := by
    intro b hb
    simpa using hb
  have hkeep : ∀ b ∈ live, b.ptr ≠ a.ptr → ∀ x, b.Block x → k'.mem x = k.mem x := by
    intro b hb hne x hx
    refine hmem x ⟨b.base, b.layout.request.toNat, ?_, hx⟩
    rw [hblocks, Function.update_of_ne, hs.blocks.mem hb]
    intro hbase
    exact hne (congrArg Allocation.ptr (hs.eq_of_base hb ha hbase))
  have hcorrect : AllocCorrect ⟨k.mem, live.filter (·.ptr ≠ a.ptr)⟩ :=
    ⟨fun b hb => hs.correct.each b (hlive b hb).1, hs.correct.disjoint.filter _,
      fun b hb => hs.correct.header b (hlive b hb).1⟩
  refine ⟨allocCorrect_congr hcorrect fun b hb => hkeep b (hlive b hb).1 (hlive b hb).2, ?_, ?_⟩
  · rw [hblocks]
    refine hs.blocks.erase fun b hb => ?_
    rw [decide_eq_true_eq]
    refine not_congr ⟨fun hptr => ?_, fun hbase => ?_⟩
    · exact congrArg Allocation.base (hs.eq_of_ptr hb ha hptr)
    · exact congrArg Allocation.ptr (hs.eq_of_base hb ha hbase)
  · refine (hs.chunks.erase fun b hb => decide_eq_true_iff).congr fun b hb => ?_
    obtain ⟨hb, hne⟩ := hlive b hb
    exact chunkOf_congr (hs.correct.each b hb) (hkeep b hb hne)

/-- Bytes are written inside a chunk. -/
theorem Shows.store (hs : Shows live h k) (ha : a ∈ live) {off : Nat} {bs : List Byte}
    (hn : off + bs.length ≤ a.layout.size.toNat) (hblocks : k'.blocks = k.blocks)
    (hmem : k'.Holds (write k.mem (a.ptr + BitVec.ofNat 64 off) bs)) :
    (chunkOf k'.mem a).bytes = (chunkOf k.mem a).bytes.take off ++ bs ++
      (chunkOf k.mem a).bytes.drop (off + bs.length) ∧
    Shows live (Function.update h a.ptr (some (chunkOf k'.mem a))) k' := by
  have hholds : ∀ b ∈ live, ∀ x, b.Block x →
      k'.mem x = write k.mem (a.ptr + BitVec.ofNat 64 off) bs x := by
    intro b hb x hx
    obtain ⟨base, n, hbase, hin⟩ := hs.inUse hb hx
    exact hmem x ⟨base, n, hblocks ▸ hbase, hin⟩
  have hstep : AllocCorrect ⟨write k.mem (a.ptr + BitVec.ofNat 64 off) bs, live⟩ :=
    correct_write hs.correct ⟨a, ha, rfl, hn⟩
  refine ⟨?_, allocCorrect_congr hstep hholds, hblocks ▸ hs.blocks, ?_⟩
  · calc (chunkOf k'.mem a).bytes
        _ = (chunkOf (write k.mem (a.ptr + BitVec.ofNat 64 off) bs) a).bytes := by
          rw [chunkOf_congr (hs.correct.each a ha) (hholds a ha)]
        _ = _ := read_write_inside hn a.layout.size.isLt.le
  · refine hs.chunks.set ha (fun b hb hptr => hs.eq_of_ptr hb ha hptr) fun b hb hne => ?_
    refine chunkOf_congr (hs.correct.each b hb) fun x hx => (hholds b hb x hx).trans ?_
    apply write_outside
    intro hin
    exact hne (eq_of_shared hs.correct hb ha hx ((hs.correct.each a ha).data_in x (hin.of_add hn)))

/-! One call. -/

theorem alloc_wp {ε : Type} (hs : Shows live h k) (l : Layout) :
    (alloc l : PoolProg ε (BitVec 64)).Wp Pool.Serves Pool.Permits (fun o k' =>
      o = .ok 0 ∧ Shows live h k' ∨ ∃ base p, o = .ok p ∧ h.Room l p ∧
        Shows (⟨l, base, p⟩ :: live)
          (Function.update h p (some (chunkOf k'.mem ⟨l, base, p⟩))) k') k := by
  refine ⟨trivial, fun (base : BitVec 64) k₁ hk => .ite (fun h0 => ?_) fun h0 => ?_⟩
  · rcases hk with ⟨-, hblocks, hmem⟩ | ⟨hfresh, -⟩
    · exact .inl ⟨rfl, hs.congr hblocks hmem⟩
    · exact absurd h0 hfresh.nonnull
  · rcases hk with ⟨hnull, -⟩ | ⟨hfresh, hblocks, hmem⟩
    · exact absurd hnull h0
    have hheader : k₁.Inside (l.place base - 8#64) (toLE 8 base.toNat).length := by
      rw [toLE_length]
      exact ⟨base, _, by rw [hblocks, Function.update_self],
        (place_correct l hfresh.toPoolBlock).header_in⟩
    refine ⟨hheader, fun _ k₂ hk => ?_⟩
    exact .inr ⟨base, _, rfl, hs.add hfresh hmem (hk.1.trans hblocks) hk.2⟩

theorem dealloc_wp {ε : Type} (hs : Shows live h k) (ha : a ∈ live) (l : Layout) :
    (dealloc a.ptr l : PoolProg ε Unit).Wp Pool.Serves Pool.Permits (fun o k' =>
      o = .ok () ∧ Shows (live.filter (·.ptr ≠ a.ptr)) (Function.update h a.ptr none) k') k := by
  rw [dealloc, if_neg (hs.correct.each a ha).nonnull]
  refine ⟨hs.inside ha (hs.correct.each a ha).header_in, fun (bs : List Byte) k₁ hk => ?_⟩
  obtain ⟨rfl, hblocks, hmem⟩ := hk
  have hs₁ := hs.congr hblocks hmem
  -- the header holds the base
  have hbase : BitVec.ofNat 64 (ofLE (read k.mem (a.ptr - 8#64) 8)) = a.base :=
    hs.correct.header a ha
  dsimp only
  rw [hbase]
  have hused : k₁.blocks a.base ≠ none := by
    rw [hs₁.blocks.mem ha]
    exact Option.some_ne_none _
  exact ⟨hused, fun _ k₂ hk => ⟨rfl, hs₁.remove ha hk.1 hk.2⟩⟩

/-- Bytes are written inside a chunk, and the program goes on. -/
theorem store_wp {ε α : Type} {f : Unit → PoolProg ε α} {post : Outcome ε α → Pool → Prop}
    (hs : Shows live h k) (ha : a ∈ live) {off : Nat} {bs : List Byte}
    (hn : off + bs.length ≤ a.layout.size.toNat)
    (hf : ∀ (k' : Pool) (c : Chunk), c.layout = a.layout →
      c.bytes = (chunkOf k.mem a).bytes.take off ++ bs ++
        (chunkOf k.mem a).bytes.drop (off + bs.length) →
      Shows live (Function.update h a.ptr (some c)) k' →
      (f ()).Wp Pool.Serves Pool.Permits post k') :
    (Prog.ask (.store (a.ptr + BitVec.ofNat 64 off) bs) f : PoolProg ε α).Wp
      Pool.Serves Pool.Permits post k := by
  refine ⟨hs.inside_data ha hn, fun _ k' hk => ?_⟩
  obtain ⟨hbytes, hs'⟩ := hs.store ha hn hk.1 hk.2
  exact hf k' _ rfl hbytes hs'

/-- All the bytes of a chunk, or the front of them, are written. -/
theorem store_front_wp {ε α : Type} {f : Unit → PoolProg ε α} {post : Outcome ε α → Pool → Prop}
    (hs : Shows live h k) (ha : a ∈ live) {bs : List Byte}
    (hn : bs.length ≤ a.layout.size.toNat)
    (hf : ∀ (k' : Pool) (c : Chunk), c.layout = a.layout → c.bytes.take bs.length = bs →
      Shows live (Function.update h a.ptr (some c)) k' →
      (f ()).Wp Pool.Serves Pool.Permits post k') :
    (Prog.ask (.store a.ptr bs) f : PoolProg ε α).Wp Pool.Serves Pool.Permits post k := by
  have hzero : a.ptr = a.ptr + BitVec.ofNat 64 0 := (BitVec.add_zero _).symm
  rw [hzero]
  refine store_wp hs ha (by omega) fun k' c hlayout hbytes hs' => hf k' c hlayout ?_ hs'
  rw [hbytes, List.take_zero, List.nil_append, List.take_left' rfl]

/-- Two runs that agree as far as both go. -/
theorem take_of_front {bs cs : List Byte} {n m : Nat} (hbs : bs.length = m) (hcs : cs.length = n)
    (h : bs.take (min n m) = cs.take (min n m)) : bs.take n = cs.take m :=
  calc bs.take n
      _ = bs.take (min n m) := by rw [List.take_eq_take_min, hbs]
      _ = cs.take (min n m) := h
      _ = cs.take m := by rw [Nat.min_comm, ← hcs, ← List.take_eq_take_min]

theorem allocZeroed_wp {ε : Type} (hs : Shows live h k) (l : Layout) :
    (allocZeroed l : PoolProg ε (BitVec 64)).Wp Pool.Serves Pool.Permits (fun o k' =>
      ∃ p h', o = .ok p ∧ Heap.Serves h (.allocZeroed l) p h' ∧ Represents k' h') k := by
  refine .bind (alloc_wp hs l) (fun p k₁ hp => ?_) (fun e k₁ hp => ?_) fun k₁ hp => ?_
  · rcases hp with ⟨hp, hs₁⟩ | ⟨base, q, hp, hroom, hs₁⟩
    · obtain rfl := Outcome.ok.inj hp
      exact ⟨0, h, rfl, .inl ⟨rfl, rfl⟩, live, hs₁⟩
    · obtain rfl := Outcome.ok.inj hp
      rw [if_pos hroom.nonnull]
      have hlen : (List.replicate l.size.toNat (0 : Byte)).length = l.size.toNat :=
        List.length_replicate
      refine store_front_wp hs₁ List.mem_cons_self hlen.le fun k₂ c hlayout hbytes hs₂ => ?_
      rw [Function.update_idem] at hs₂
      refine ⟨p, _, rfl, .inr ⟨hroom, c, hlayout, ?_, rfl⟩, _, hs₂⟩
      rw [List.take_of_length_le (by rw [hlen, c.length_eq, hlayout])] at hbytes
      exact hbytes
  · rcases hp with ⟨hp, -⟩ | ⟨base, q, hp, -⟩ <;> cases hp
  · rcases hp with ⟨hp, -⟩ | ⟨base, q, hp, -⟩ <;> cases hp

theorem realloc_wp {ε : Type} (hs : Shows live h k) (ha : a ∈ live) {newSize : BitVec 64}
    (valid : (newSize.toNat + a.layout.align.toNat - 1) / a.layout.align.toNat *
      a.layout.align.toNat ≤ 2^63 - 1) :
    (realloc a.ptr a.layout (resized a.layout newSize valid) : PoolProg ε (BitVec 64)).Wp
      Pool.Serves Pool.Permits (fun o k' => ∃ p h', o = .ok p ∧
        Heap.Serves h (.realloc a.ptr a.layout newSize valid) p h' ∧ Represents k' h') k := by
  refine .bind (alloc_wp hs _) (fun p k₁ hp => ?_) (fun e k₁ hp => ?_) fun k₁ hp => ?_
  · rcases hp with ⟨hp, hs₁⟩ | ⟨base, q, hp, hroom, hs₁⟩
    · obtain rfl := Outcome.ok.inj hp
      exact ⟨0, h, rfl, ⟨_, hs.chunks.mem ha, .inl ⟨rfl, rfl⟩⟩, live, hs₁⟩
    · obtain rfl := Outcome.ok.inj hp
      rw [if_pos hroom.nonnull]
      have hne : a.ptr ≠ p := by
        intro heq
        exact Option.some_ne_none _ ((hs.chunks.mem ha).symm.trans (heq ▸ hroom.new))
      have ha₁ : a ∈ (⟨resized a.layout newSize valid, base, p⟩ : Allocation) :: live :=
        List.mem_cons_of_mem _ ha
      have hold : chunkOf k₁.mem a = chunkOf k.mem a := by
        have h₁ := hs₁.chunks.mem ha₁
        rw [Function.update_of_ne hne, hs.chunks.mem ha] at h₁
        exact (Option.some.inj h₁).symm
      have hfront : (chunkOf k₁.mem a).bytes.take (min a.layout.size.toNat newSize.toNat) =
          read k₁.mem a.ptr (min a.layout.size.toNat newSize.toNat) :=
        read_take k₁.mem a.ptr (Nat.min_le_left _ _)
      refine ⟨hs₁.inside ha₁ fun x hx => (hs.correct.each a ha).data_in x
        (hx.mono (Nat.min_le_left _ _)), fun (bs : List Byte) k₂ hk => ?_⟩
      obtain ⟨hbs, hblocks, hmem⟩ := hk
      rw [resized, ← hfront, hold] at hbs
      have hlen : bs.length = min a.layout.size.toNat newSize.toNat := by
        rw [hbs, List.length_take, (chunkOf k.mem a).length_eq]
        exact Nat.min_eq_left (Nat.min_le_left _ _)
      refine store_front_wp (hs₁.congr hblocks hmem) List.mem_cons_self
        (hlen.trans_le (Nat.min_le_right _ _)) fun k₃ c hlayout hbytes hs₃ => ?_
      rw [Function.update_idem] at hs₃
      refine .bind (dealloc_wp hs₃ ha₁ a.layout) (fun _ k₄ hk => ?_) (fun e k₄ hk => ?_)
        fun k₄ hk => ?_
      · refine ⟨p, _, rfl, ⟨_, hs.chunks.mem ha, .inr ⟨hroom, c, hlayout, ?_,
          Function.update_comm hne.symm _ _ _⟩⟩, _, hk.2⟩
        exact take_of_front (by rw [c.length_eq, hlayout, resized]) (chunkOf k.mem a).length_eq
          (by rw [← hbs, ← hlen, hbytes])
      · cases hk.1
      · cases hk.1
  · rcases hp with ⟨hp, -⟩ | ⟨base, q, hp, -⟩ <;> cases hp
  · rcases hp with ⟨hp, -⟩ | ⟨base, q, hp, -⟩ <;> cases hp

/-- What a call does on the kernel, it does on the heap that the kernel represents. -/
theorem perform_wp {ε : Type} {k : Pool} {h : Heap} (q : CallReq) (hR : Represents k h)
    (hq : h.Permits q) : (perform q : PoolProg ε q.Answer).Wp Pool.Serves Pool.Permits
      (fun o k' => ∃ r h', o = .ok r ∧ h.Serves q r h' ∧ Represents k' h') k := by
  obtain ⟨live, hs⟩ := hR
  cases q with
  | alloc l =>
    refine Prog.Wp.mono (fun _ _ h => h) (fun o k' hp => ?_) (alloc_wp hs l)
    rcases hp with ⟨rfl, hs'⟩ | ⟨base, p, rfl, hroom, hs'⟩
    · exact ⟨0, h, rfl, .inl ⟨rfl, rfl⟩, live, hs'⟩
    · exact ⟨p, _, rfl, .inr ⟨hroom, _, rfl, trivial, rfl⟩, _, hs'⟩
  | allocZeroed l => exact allocZeroed_wp hs l
  | dealloc ptr l =>
    by_cases h0 : ptr = 0
    · rw [perform, dealloc, if_pos h0]
      exact ⟨(), h, rfl, (if_pos h0).symm, live, hs⟩
    · obtain ⟨c, hc, -⟩ := hq.resolve_left h0
      obtain ⟨a, ha, rfl, -⟩ := (hs.chunks _ _).mp hc
      refine Prog.Wp.mono (fun _ _ h => h) (fun o k' hk => ?_) (dealloc_wp hs ha l)
      exact ⟨(), _, hk.1, (if_neg h0).symm, _, hk.2⟩
  | realloc ptr l newSize valid =>
    obtain ⟨c, hc, rfl⟩ := hq
    obtain ⟨a, ha, rfl, rfl⟩ := (hs.chunks _ _).mp hc
    exact realloc_wp hs ha valid
  | load ptr off n =>
    obtain ⟨c, hc, hn⟩ := hq
    obtain ⟨a, ha, rfl, rfl⟩ := (hs.chunks _ _).mp hc
    refine ⟨hs.inside_data ha hn, fun (bs : List Byte) k' hk => ?_⟩
    obtain ⟨rfl, hblocks, hmem⟩ := hk
    refine ⟨_, h, rfl, ⟨rfl, _, hs.chunks.mem ha, ?_⟩, live, hs.congr hblocks hmem⟩
    have hoff : off ≤ a.layout.size.toNat := Nat.le_of_add_right_le hn
    calc read k.mem (a.ptr + BitVec.ofNat 64 off) n
        _ = (read k.mem (a.ptr + BitVec.ofNat 64 off) (a.layout.size.toNat - off)).take n :=
          (read_take k.mem _ (Nat.le_sub_of_add_le' hn)).symm
        _ = ((chunkOf k.mem a).bytes.drop off).take n :=
          congrArg (List.take n) (read_drop k.mem a.ptr hoff).symm
  | store ptr off bs =>
    obtain ⟨c, hc, hn⟩ := hq
    obtain ⟨a, ha, rfl, rfl⟩ := (hs.chunks _ _).mp hc
    refine store_wp hs ha hn fun k' c hlayout hbytes hs' => ?_
    exact ⟨(), _, rfl, ⟨_, c, hs.chunks.mem ha, hlayout, hbytes, rfl⟩, _, hs'⟩

end

/-! A client. -/

/-- Where no chunk is left, no block of the pool is in use. -/
theorem Represents.empty {k : Pool} (hR : Represents k Heap.empty) (base : BitVec 64) :
    k.blocks base = none := by
  obtain ⟨live, hs⟩ := hR
  cases live with
  | nil => exact hs.blocks.nil base
  | cons a live =>
    have hsome := hs.chunks.mem (x := a) List.mem_cons_self
    exact absurd hsome.symm (Option.some_ne_none _)

theorem represents_start (mem : Mem 64) : Represents ⟨mem, fun _ => none⟩ Heap.empty :=
  ⟨[], ⟨fun _ ha => absurd ha List.not_mem_nil, .nil, fun _ ha => absurd ha List.not_mem_nil⟩,
    fun _ _ => iff_of_false (Option.some_ne_none _).symm fun h => absurd h.choose_spec.1
      List.not_mem_nil,
    fun _ _ => iff_of_false (Option.some_ne_none _).symm fun h => absurd h.choose_spec.1
      List.not_mem_nil⟩

/-- **The allocator is a heap.** A client that is safe on the heap asks nothing of the pool
    through the allocator that is not permitted, and ends as it can on the heap; where it
    leaves no chunk, it leaves no block. -/
theorem client_refines {ε α : Type} (client : Client ε α) {h : Heap} {k : Pool}
    (hR : Represents k h)
    (hsafe : ∀ h' q, client.Poses Heap.Serves h h' q → h'.Permits q) :
    (∀ k' q, (client.via perform).Poses Pool.Serves k k' q → k'.Permits q) ∧
    ∀ o k', (client.via perform).Exec Pool.Serves k o k' →
      ∃ h', client.Exec Heap.Serves h o h' ∧ Represents k' h' ∧
        (h' = Heap.empty → ∀ base, k'.blocks base = none) := by
  have hclient : client.Wp Heap.Serves Heap.Permits (fun o h' => client.Exec Heap.Serves h o h') h :=
    Prog.wp_iff.mpr ⟨hsafe, fun o h' hexec => hexec⟩
  obtain ⟨hposes, hends⟩ := Prog.wp_iff.mp
    (Prog.Wp.via (fun k h q hR hq => perform_wp q hR hq) hR hclient)
  refine ⟨hposes, fun o k' hexec => ?_⟩
  obtain ⟨h', hexec', hR'⟩ := hends o k' hexec
  exact ⟨h', hexec', hR', fun hempty => (hempty ▸ hR').empty⟩

/-! A client that fills a chunk, has it grown, and reads it back. -/

def smallLayout : Layout := ⟨16#64, 8#64, ⟨3, rfl⟩, by decide⟩

theorem grown_valid : ((32#64).toNat + smallLayout.align.toNat - 1) / smallLayout.align.toNat *
    smallLayout.align.toNat ≤ 2^63 - 1 := by
  decide

def grownLayout : Layout := resized smallLayout 32#64 grown_valid

def grow (bs : List Byte) : Client Empty (Option (List Byte)) :=
  .ask (.alloc smallLayout) fun p : BitVec 64 =>
  if p = 0 then .ok none else
  .ask (.store p 0 bs) fun _ =>
  .ask (.realloc p smallLayout 32#64 grown_valid) fun q : BitVec 64 =>
  if q = 0 then .ask (.dealloc p smallLayout) fun _ => .ok none else
  .ask (.load q 0 bs.length) fun out : List Byte =>
  .ask (.dealloc q grownLayout) fun _ => .ok (some out)

theorem update_erase (h : Heap) {p : BitVec 64} (hp : h p = none) (c : Option Chunk) :
    Function.update (Function.update h p c) p none = h := by
  rw [Function.update_idem, ← hp, Function.update_eq_self]

theorem grow_wp {bs : List Byte} (hbs : bs.length ≤ smallLayout.size.toNat) :
    (grow bs).Wp Heap.Serves Heap.Permits
    (fun o h' => (o = .ok none ∨ o = .ok (some bs)) ∧ h' = Heap.empty) Heap.empty := by
  refine ⟨trivial, fun (p : BitVec 64) h₁ h => .ite (fun h0 => ?_) fun h0 => ?_⟩
  · rcases h with ⟨-, rfl⟩ | ⟨hroom, -⟩
    · exact ⟨.inl rfl, rfl⟩
    · exact absurd h0 hroom.nonnull
  rcases h with ⟨hnull, -⟩ | ⟨hroom, c, hlayout, -, rfl⟩
  · exact absurd hnull h0
  refine ⟨⟨c, Function.update_self .., ?_⟩, fun _ h₂ h => ?_⟩
  · rw [hlayout, Nat.zero_add]
    exact hbs
  obtain ⟨c₀, c₁, hc₀, hlayout₁, hbytes, rfl⟩ := h
  obtain rfl := Option.some.inj (hc₀.symm.trans (Function.update_self ..))
  rw [Function.update_idem]
  rw [List.take_zero, List.nil_append, Nat.zero_add] at hbytes
  refine ⟨⟨c₁, Function.update_self .., hlayout₁.trans hlayout⟩, fun (q : BitVec 64) h₃ h => ?_⟩
  obtain ⟨c₂, hc₂, h⟩ := h
  obtain rfl := Option.some.inj (hc₂.symm.trans (Function.update_self ..))
  refine .ite (fun hq0 => ?_) fun hq0 => ?_
  · rcases h with ⟨-, rfl⟩ | ⟨hroom', -⟩
    · refine ⟨.inr ⟨c₂, hc₂, hlayout₁.trans hlayout⟩, fun _ h₄ h => ⟨.inl rfl, ?_⟩⟩
      rw [h, if_neg h0, update_erase _ rfl]
    · exact absurd hq0 hroom'.nonnull
  rcases h with ⟨hnull, -⟩ | ⟨-, c₃, hlayout₃, hfront, rfl⟩
  · exact absurd hnull hq0
  rw [update_erase _ rfl]
  refine ⟨⟨c₃, Function.update_self .., ?_⟩, fun (out : List Byte) h₄ h => ?_⟩
  · rw [hlayout₃, Nat.zero_add]
    exact hbs.trans (by decide)
  obtain ⟨rfl, c₄, hc₄, hout⟩ := h
  obtain rfl := Option.some.inj (hc₄.symm.trans (Function.update_self ..))
  refine ⟨.inr ⟨c₄, hc₄, hlayout₃⟩, fun _ h₅ h => ⟨.inr ?_, ?_⟩⟩
  · have hout' : out = bs :=
      calc out
          _ = c₄.bytes.take bs.length := hout
          _ = (c₄.bytes.take smallLayout.size.toNat).take bs.length := by
            rw [List.take_take, Nat.min_eq_left hbs]
          _ = c₂.bytes.take bs.length := by
            rw [hfront, List.take_take, Nat.min_eq_left (hbs.trans (by decide))]
          _ = bs := by rw [hbytes, List.take_left' rfl]
    rw [hout']
  · rw [h, if_neg hq0, update_erase _ rfl]

theorem client_refines_grow : (∀ k q, ((grow [1#8, 2#8, 3#8]).via perform).Poses
      Pool.Serves ⟨zeroMem, fun _ => none⟩ k q → k.Permits q) ∧
    ∀ o k, ((grow [1#8, 2#8, 3#8]).via perform).Exec Pool.Serves ⟨zeroMem, fun _ => none⟩ o k →
      (o = .ok none ∨ o = .ok (some [1#8, 2#8, 3#8])) ∧ ∀ base, k.blocks base = none := by
  obtain ⟨hsafe, hheap⟩ := Prog.wp_iff.mp (@grow_wp [1#8, 2#8, 3#8] (by decide))
  obtain ⟨hposes, hends⟩ := client_refines (grow [1#8, 2#8, 3#8])
    (represents_start zeroMem) hsafe
  refine ⟨hposes, fun o k hexec => ?_⟩
  obtain ⟨h', hexec', -, hempty⟩ := hends o k hexec
  obtain ⟨ho, hh'⟩ := hheap o h' hexec'
  exact ⟨ho, hempty hh'⟩

end WinKernl.GlobalAlloc
