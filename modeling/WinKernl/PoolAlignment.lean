import WinKernl.KernelAllocator
import WinKernl.OwnedOperations

/- Alignment of the pool wrappers (`kalloc/pool.rs`).

   `KernelAllocator` asks for more than the layout's size and moves the pointer up to a
   multiple of its alignment. The pool wrappers pass the size alone down through
   `alloc_pool_t` and `alloc_pool` and keep the address that comes back, so they are as
   aligned as the pool's blocks: to 16 bytes, and to a page from a page on. -/
namespace WinKernl.Kalloc

/-- What the layout of a Rust type is: a power-of-two alignment, which divides the size. -/
structure ElementType where
  size : BitVec 64
  align : BitVec 64
  align_pow2 : ∃ k, align.toNat = 2^k
  align_dvd : size.toNat % align.toNat = 0

/-- What `ExAllocatePool` promises of a block of `n` bytes. -/
structure PoolAligned (p : BitVec 64) (n : Nat) : Prop where
  block : p.toNat % 16 = 0
  page : 4096 ≤ n → p.toNat % 4096 = 0

/-- A smaller power of two divides what a larger one divides. -/
theorem mod_pow2_of_le {p a k b : Nat} (ha : a = 2^k) (hb : ∃ j, b = 2^j) (hle : a ≤ b)
    (h : p % b = 0) : p % a = 0 := by
  obtain ⟨j, rfl⟩ := hb
  subst ha
  have hkj : k ≤ j := (Nat.pow_le_pow_iff_right (by decide)).mp hle
  exact Nat.mod_eq_zero_of_dvd (Nat.dvd_trans (Nat.pow_dvd_pow 2 hkj) (Nat.dvd_of_mod_eq_zero h))

/-- The pointer of a new wrapper is the pool's answer. -/
theorem Ctor.run_ptr {c : Ctor} {size p : BitVec 64} {h : Heap} {o : Owner}
    (ho : (c.run size p h).1 = some o) : o.ptr = p := by
  rw [Ctor.run_fst] at ho
  obtain ⟨q, hq, rfl⟩ := Option.map_eq_some_iff.mp ho
  obtain ⟨-, hp⟩ := Option.ite_none_left_eq_some.mp hq
  rw [owner_ptr]
  exact (Option.some.inj hp).symm

/-- A pool that answers makes a wrapper. -/
theorem Ctor.run_some (c : Ctor) (size : BitVec 64) {p : BitVec 64} (hp : p ≠ 0) (h : Heap) :
    ∃ o, (c.run size p h).1 = some o := by
  rw [Ctor.run_fst, nonNull, if_neg hp]
  exact ⟨_, rfl⟩

/-- Whatever block the pool gives, the wrapper that the constructor makes of it is
    aligned for the type. -/
def AlwaysAligned (c : Ctor) (t : ElementType) : Prop :=
  ∀ p h o, PoolAligned p (c.shape.bytes t.size).toNat → (c.run t.size p h).1 = some o →
    o.ptr.toNat % t.align.toNat = 0

/-- **Aligned wrappers.** The constructor's wrappers are aligned for the type exactly when
    it asks for no more than 16 bytes, or for no more than a page and the request has a
    page at least. -/
theorem poolWrapper_aligned_iff (poolType : PoolType) (shape : Shape) (fill : Fill)
    (t : ElementType) : AlwaysAligned ⟨.pool poolType, shape, fill⟩ t ↔
      t.align.toNat ≤ 16 ∨ (4096 ≤ (shape.bytes t.size).toNat ∧ t.align.toNat ≤ 4096) := by
  obtain ⟨k, hk⟩ := t.align_pow2
  constructor
  · intro h
    by_contra hnot
    obtain ⟨hbig, hsmall⟩ := not_or.mp hnot
    -- a block that the pool may give, below the alignment
    have hbad : ∀ p : BitVec 64, p ≠ 0 → p.toNat < t.align.toNat →
        ¬ PoolAligned p (shape.bytes t.size).toNat := by
      intro p hp hlt hpool
      obtain ⟨o, ho⟩ := Ctor.run_some ⟨.pool poolType, shape, fill⟩ t.size hp Heap.empty
      have hmod := h p Heap.empty o hpool ho
      rw [Ctor.run_ptr ho, Nat.mod_eq_of_lt hlt] at hmod
      exact hp (BitVec.eq_of_toNat_eq hmod)
    by_cases hpage : 4096 ≤ (shape.bytes t.size).toNat
    · have halign : 4096 < t.align.toNat := Nat.not_le.mp fun hle => hsmall ⟨hpage, hle⟩
      exact hbad 4096#64 (by decide) halign ⟨by decide, fun _ => by decide⟩
    · exact hbad 16#64 (by decide) (Nat.not_le.mp hbig) ⟨by decide, fun hn => absurd hn hpage⟩
  · intro h p heap o hpool ho
    rw [Ctor.run_ptr ho]
    rcases h with hle | ⟨hpage, hle⟩
    · exact mod_pow2_of_le hk ⟨4, rfl⟩ hle hpool.block
    · exact mod_pow2_of_le hk ⟨12, rfl⟩ hle (hpool.page hpage)

/-- The allocator aligns every layout on the same promise. -/
theorem allocator_aligned (l : Layout) {base : BitVec 64} {mem : ByteMem.Mem 64}
    (hb : PoolBlock base l.request.toNat) (hbase : base ≠ 0) :
    (KernelAllocator.alloc (fun _ => (base, mem)) l).1.toNat % l.align.toNat = 0 := by
  obtain ⟨o, -, -, haligned⟩ := place_spec l hb
  rw [KernelAllocator.alloc]
  dsimp only
  rw [if_neg hbase]
  exact haligned

/-- Thirty-two bytes, aligned to as many. -/
def wideType : ElementType := ⟨32, 32, ⟨5, rfl⟩, by decide⟩

/-- A block at 16 bytes behind a multiple of 32. -/
def oddBlock : BitVec 64 := 0xFFFFA00000000010#64

/-- The pool keeps its promise with a block that is not aligned for the type. -/
theorem poolMemory_misaligned : PoolAligned oddBlock 32 ∧
    oddBlock.toNat % wideType.align.toNat = 16 ∧
    ¬ AlwaysAligned (PoolMemory.newWithPoolType nonPagedPool) wideType ∧
    ¬ AlwaysAligned (PoolMemorySlice.newWithPoolType 3 nonPagedPool) wideType := by
  have hpool : ∀ n < 4096, PoolAligned oddBlock n :=
    fun n hn => ⟨by decide, fun hpage => absurd hn (Nat.not_lt.mpr hpage)⟩
  have hbad : ∀ c : Ctor, (c.shape.bytes wideType.size).toNat < 4096 →
      ¬ AlwaysAligned c wideType := by
    intro c hsmall h
    obtain ⟨o, ho⟩ := c.run_some wideType.size (p := oddBlock) (by decide) Heap.empty
    have hmod := h oddBlock Heap.empty o (hpool _ hsmall) ho
    rw [Ctor.run_ptr ho] at hmod
    exact absurd hmod (by decide)
  exact ⟨hpool 32 (by decide), by decide, hbad _ (by decide), hbad _ (by decide)⟩

end WinKernl.Kalloc
