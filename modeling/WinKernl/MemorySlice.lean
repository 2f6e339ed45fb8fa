import WinKernl.Lib.Ask
import WinKernl.Lib.ByteMem

/- The slice constructors of `kalloc/pool.rs` and `kalloc/contiguous.rs`.

   Correspondence (Rust ↔ Lean):
     `alloc_pool`, `alloc_contiguous_memory`      ↔ `allocPool`, `allocContiguousMemory`
     `PoolMemorySlice::new*_with_pool_type`       ↔ `PoolMemorySlice.new*WithPoolType`
     `ContiguousMemorySlice::new*_with_caching_type`
                                                  ↔ `ContiguousMemorySlice.new*WithCachingType`
     kernel calls, element writes, clones, drops  ↔ the requests `SliceReq`
   `T` is any element type and `sz` its `size_of`. The byte count is a product of
   two `usize`, and `usize` arithmetic wraps. -/
namespace WinKernl
open Ask

abbrev PoolType := BitVec 32
abbrev CachingType := BitVec 32

/-- A call for memory and its byte count. -/
inductive AllocReq where
  | pool (poolType : PoolType) (bytes : BitVec 64)
  | contiguous (bytes : BitVec 64) (caching : CachingType)
  deriving DecidableEq

def AllocReq.bytes : AllocReq → BitVec 64
  | .pool _ n => n
  | .contiguous n _ => n

/-- What a constructor does: ask for memory, clone, write or drop an element, or set
    `len` bytes to zero. -/
inductive SliceReq (T : Type) where
  | alloc (a : AllocReq)
  | clone (val : T)
  | write (ptr : BitVec 64) (val : T)
  | writeBytes (ptr : BitVec 64) (len : Nat)
  | drop (val : T)

/-- A call for memory is answered by an address, null for failure. -/
def SliceReq.Answer {T : Type} : SliceReq T → Type
  | .alloc _ => BitVec 64
  | .clone _ => T
  | _ => Unit

abbrev SliceProg (T α : Type) := Prog (SliceReq T) SliceReq.Answer Empty α

/-- `PoolMemorySlice<T>` and `ContiguousMemorySlice<T>`: `kind` is the pool or the
    caching type. -/
@[ext] structure MemorySlice (K : Type) where
  ptr : BitVec 64
  len : BitVec 64
  kind : K
  deriving DecidableEq

section
variable {T : Type} {K : Type} (sz : BitVec 64)

def askAlloc (a : AllocReq) : SliceProg T (BitVec 64) := Prog.call (SliceReq.alloc a)
def cloneVal (val : T) : SliceProg T T := Prog.call (SliceReq.clone val)
def writeVal (ptr : BitVec 64) (val : T) : SliceProg T Unit := Prog.call (SliceReq.write ptr val)
def dropVal (val : T) : SliceProg T Unit := Prog.call (SliceReq.drop val)
def writeBytes (ptr : BitVec 64) (len : Nat) : SliceProg T Unit :=
  Prog.call (SliceReq.writeBytes ptr len)

def nonNull (p : BitVec 64) : Option (BitVec 64) := if p = 0 then none else some p

def allocPool (poolType : PoolType) (size : BitVec 64) : SliceProg T (Option (BitVec 64)) := do
  let mem ← askAlloc (.pool poolType size)
  pure (nonNull mem)

/-- `alloc_contiguous_memory` clears what it asked for. -/
def allocContiguousMemory (size : BitVec 64) (caching : CachingType) :
    SliceProg T (Option (BitVec 64)) := do
  let mem ← askAlloc (.contiguous size caching)
  if mem = 0 then pure none else do
  writeBytes mem size.toNat
  pure (some mem)

/-- `for i in 0..count { ptr.add(i).write(val.clone()) }`, from index `i` on. -/
def writeClones (ptr : BitVec 64) (val : T) : (n i : Nat) → SliceProg T Unit
  | 0, _ => pure ()
  | n + 1, i => do
    let v ← cloneVal val
    writeVal (ptr + BitVec.ofNat 64 i * sz) v
    writeClones ptr val n (i + 1)

/-- `ptr.write_bytes(0, count)`: `count` elements of zeros. -/
def zeroElements (ptr count : BitVec 64) : SliceProg T Unit :=
  writeBytes ptr (count.toNat * sz.toNat)

/-- The shape of a constructor: ask, give up on null, initialise, wrap; `atEnd` is what
    leaves scope on either way out. -/
def newSlice (alloc : SliceProg T (Option (BitVec 64))) (init : BitVec 64 → SliceProg T Unit)
    (atEnd : SliceProg T Unit) (len : BitVec 64) (kind : K) :
    SliceProg T (Option (MemorySlice K)) := do
  match (← alloc).bind nonNull with
  | none => do
    atEnd
    pure none
  | some ptr => do
    init ptr
    atEnd
    pure (some ⟨ptr, len, kind⟩)

namespace PoolMemorySlice

def newWithPoolType (val : T) (count : BitVec 64) (poolType : PoolType) :
    SliceProg T (Option (MemorySlice PoolType)) :=
  newSlice (allocPool poolType (count * sz)) (fun ptr => writeClones sz ptr val count.toNat 0)
    (dropVal val) count poolType

def newUninitWithPoolType (len : BitVec 64) (poolType : PoolType) :
    SliceProg T (Option (MemorySlice PoolType)) :=
  newSlice (allocPool poolType (sz * len)) (fun ptr => zeroElements sz ptr len) (pure ()) len
    poolType

def newZeroedWithPoolType (count : BitVec 64) (poolType : PoolType) :
    SliceProg T (Option (MemorySlice PoolType)) :=
  newSlice (allocPool poolType (count * sz)) (fun ptr => zeroElements sz ptr count) (pure ()) count
    poolType

end PoolMemorySlice

namespace ContiguousMemorySlice

/-- Here the elements are written before the pointer is checked again. -/
def newWithCachingType (val : T) (count : BitVec 64) (cachingType : CachingType) :
    SliceProg T (Option (MemorySlice CachingType)) := do
  match ← allocContiguousMemory (count * sz) cachingType with
  | none => do
    dropVal val
    pure none
  | some memTarget => do
    writeClones sz memTarget val count.toNat 0
    dropVal val
    match nonNull memTarget with
    | none => pure none
    | some ptr => pure (some ⟨ptr, count, cachingType⟩)

def newUninitWithCachingType (mmCaching : CachingType) (len : BitVec 64) :
    SliceProg T (Option (MemorySlice CachingType)) :=
  newSlice (allocContiguousMemory (len * sz) mmCaching) (fun ptr => zeroElements sz ptr len)
    (pure ()) len mmCaching

def newZeroedWithCachingType (len : BitVec 64) (mmCaching : CachingType) :
    SliceProg T (Option (MemorySlice CachingType)) :=
  newSlice (allocContiguousMemory (len * sz) mmCaching) (fun ptr => zeroElements sz ptr len)
    (pure ()) len mmCaching

end ContiguousMemorySlice

/-! What a constructor is to guarantee. -/

/-- The run of bytes a request writes. -/
def SliceReq.written : SliceReq T → Option (BitVec 64 × Nat)
  | .write ptr _ => some (ptr, sz.toNat)
  | .writeBytes ptr len => some (ptr, len)
  | _ => none

/-- The answer to a call for memory. -/
def address (ans : (q : SliceReq T) → q.Answer) (a : AllocReq) : BitVec 64 := ans (.alloc a)

/-- The constructor gives up without writing, or returns `count` elements in a block
    asked for with enough bytes, every write inside the block. -/
def Sound (ans : (q : SliceReq T) → q.Answer) (count : BitVec 64)
    (p : SliceProg T (Option (MemorySlice K))) : Prop :=
  (p.result ans = .ok none ∧ ∀ q ∈ p.trace ans, q.written sz = none) ∨
  ∃ s a, p.result ans = .ok (some s) ∧ .alloc a ∈ p.trace ans ∧ address ans a = s.ptr ∧
    s.len = count ∧ count.toNat * sz.toNat ≤ a.bytes.toNat ∧
    ∀ q ∈ p.trace ans, ∀ ptr len, q.written sz = some (ptr, len) →
      (ptr - s.ptr).toNat + len ≤ a.bytes.toNat

/-! The parts of a constructor. -/

variable (ans : (q : SliceReq T) → q.Answer)

/-- The call for memory, and at most a clearing of what it asked for. -/
structure Allocates (alloc : SliceProg T (Option (BitVec 64))) (a : AllocReq) : Prop where
  result : alloc.result ans = .ok (nonNull (address ans a))
  asked : .alloc a ∈ alloc.trace ans
  only : ∀ a', .alloc a' ∈ alloc.trace ans → a' = a
  quiet : address ans a = 0 → ∀ q ∈ alloc.trace ans, q.written sz = none
  inside : ∀ q ∈ alloc.trace ans, ∀ ptr len, q.written sz = some (ptr, len) →
    (ptr - address ans a).toNat + len ≤ a.bytes.toNat

/-- An initialisation that asks for nothing and stays within `n` bytes of `base`. -/
structure Fills (base : BitVec 64) (n : Nat) (p : SliceProg T Unit) : Prop where
  result : p.result ans = .ok ()
  no_alloc : ∀ a, .alloc a ∉ p.trace ans
  inside : ∀ q ∈ p.trace ans, ∀ ptr len, q.written sz = some (ptr, len) →
    (ptr - base).toNat + len ≤ n

/-- What leaves scope writes nothing. -/
structure Quiet (p : SliceProg T Unit) : Prop where
  result : p.result ans = .ok ()
  no_alloc : ∀ a, .alloc a ∉ p.trace ans
  no_write : ∀ q ∈ p.trace ans, q.written sz = none

theorem allocPool_allocates (t : PoolType) (n : BitVec 64) :
    Allocates sz ans (allocPool t n) (.pool t n) := by
  refine ⟨rfl, List.mem_cons_self, fun a' h => ?_, fun _ q h => ?_, fun q h ptr len hw => ?_⟩
  · have := List.mem_singleton.mp h
    exact SliceReq.alloc.inj this
  · rw [List.mem_singleton.mp h]
    rfl
  · rw [List.mem_singleton.mp h] at hw
    cases hw

theorem allocContiguousMemory_run (n : BitVec 64) (c : CachingType) :
    (allocContiguousMemory n c).result ans = .ok (nonNull (address ans (.contiguous n c))) ∧
    (allocContiguousMemory n c).trace ans = .alloc (.contiguous n c) ::
      if address ans (.contiguous n c) = 0 then []
      else [.writeBytes (address ans (.contiguous n c)) n.toNat] := by
  generalize ha : address ans (.contiguous n c) = mem
  have hrest : (allocContiguousMemory n c).result ans = (if mem = 0 then pure none else do
        writeBytes mem n.toNat
        pure (some mem) : SliceProg T (Option (BitVec 64))).result ans ∧
      (allocContiguousMemory n c).trace ans = .alloc (.contiguous n c) ::
        (if mem = 0 then pure none else do
          writeBytes mem n.toNat
          pure (some mem) : SliceProg T (Option (BitVec 64))).trace ans := by
    rw [← ha]
    exact ⟨rfl, rfl⟩
  rw [hrest.1, hrest.2, nonNull]
  by_cases h0 : mem = 0
  · simp [h0]
  · simp only [if_neg h0]
    exact ⟨rfl, rfl⟩

theorem allocContiguousMemory_allocates (n : BitVec 64) (c : CachingType) :
    Allocates sz ans (allocContiguousMemory n c) (.contiguous n c) := by
  obtain ⟨hresult, htrace⟩ := allocContiguousMemory_run ans n c
  have hmem : ∀ q ∈ (allocContiguousMemory n c).trace ans, q = .alloc (.contiguous n c) ∨
      (address ans (.contiguous n c) ≠ 0 ∧
        q = .writeBytes (address ans (.contiguous n c)) n.toNat) := by
    intro q hq
    rw [htrace, List.mem_cons] at hq
    rcases hq with h | h
    · exact .inl h
    · split at h
      · cases h
      · next h0 => exact .inr ⟨h0, List.mem_singleton.mp h⟩
  refine ⟨hresult, ?_, fun a' h => ?_, fun h0 q hq => ?_, fun q hq ptr len hw => ?_⟩
  · rw [htrace]
    exact List.mem_cons_self
  · rcases hmem _ h with h | ⟨-, h⟩
    · exact SliceReq.alloc.inj h
    · cases h
  · rcases hmem q hq with rfl | ⟨hne, -⟩
    · rfl
    · exact absurd h0 hne
  · rcases hmem q hq with rfl | ⟨-, rfl⟩
    · cases hw
    · cases hw
      simp [AllocReq.bytes]

theorem writeClones_trace (ptr : BitVec 64) (val : T) (n i : Nat) :
    ∀ q ∈ (writeClones sz ptr val n i).trace ans, q = .clone val ∨
      ∃ j v, j < i + n ∧ q = .write (ptr + BitVec.ofNat 64 j * sz) v := by
  induction n generalizing i with
  | zero => exact fun q h => (nomatch h)
  | succ n ih =>
    intro q hq
    rcases List.mem_cons.mp hq with rfl | hq
    · exact .inl rfl
    rcases List.mem_cons.mp hq with rfl | hq
    · exact .inr ⟨i, _, by omega, rfl⟩
    rcases ih (i + 1) q hq with h | ⟨j, v, hj, h⟩
    · exact .inl h
    · exact .inr ⟨j, v, by omega, h⟩

theorem writeClones_result (ptr : BitVec 64) (val : T) (n i : Nat) :
    (writeClones sz ptr val n i).result ans = .ok () := by
  induction n generalizing i with
  | zero => rfl
  | succ n ih => exact ih (i + 1)

/-- Element `j` lies, in `usize` arithmetic, no further from the first than in exact
    arithmetic. -/
theorem element_offset (ptr : BitVec 64) (j : Nat) :
    (ptr + BitVec.ofNat 64 j * sz - ptr).toNat ≤ j * sz.toNat := by
  rw [BitVec.add_comm, BitVec.add_sub_cancel, BitVec.toNat_mul, BitVec.toNat_ofNat]
  exact Nat.le_trans (Nat.mod_le _ _) (Nat.mul_le_mul_right _ (Nat.mod_le _ _))

theorem writeClones_fills (ptr : BitVec 64) (val : T) (n : Nat) :
    Fills sz ans ptr (n * sz.toNat) (writeClones sz ptr val n 0) := by
  refine ⟨writeClones_result sz ans ptr val n 0, fun a h => ?_, fun q hq p len hw => ?_⟩
  · rcases writeClones_trace sz ans ptr val n 0 _ h with h | ⟨j, v, -, h⟩ <;> cases h
  · rcases writeClones_trace sz ans ptr val n 0 q hq with rfl | ⟨j, v, hj, rfl⟩
    · cases hw
    · cases hw
      have hoff := element_offset sz ptr j
      have hnext : (j + 1) * sz.toNat ≤ n * sz.toNat := Nat.mul_le_mul_right _ (by omega)
      rw [Nat.add_mul, Nat.one_mul] at hnext
      omega

theorem zeroElements_fills (ptr count : BitVec 64) :
    Fills sz ans ptr (count.toNat * sz.toNat) (zeroElements sz ptr count) := by
  refine ⟨rfl, fun a h => ?_, fun q hq p len hw => ?_⟩
  · cases List.mem_singleton.mp h
  · rw [List.mem_singleton.mp hq] at hw
    cases hw
    simp

theorem dropVal_quiet (val : T) : Quiet sz ans (dropVal val) := by
  refine ⟨rfl, fun a h => ?_, fun q hq => ?_⟩
  · cases List.mem_singleton.mp h
  · rw [List.mem_singleton.mp hq]
    rfl

theorem pure_quiet : Quiet sz ans (pure ()) :=
  ⟨rfl, fun _ h => (nomatch h), fun _ h => (nomatch h)⟩

/-! Constructors. -/

variable {sz ans}

/-- The byte count is exact, or the call for memory fails. -/
def Exact (ans : (q : SliceReq T) → q.Answer) (sz count : BitVec 64) (a : AllocReq) : Prop :=
  count.toNat * sz.toNat < 2^64 ∨ address ans a = 0

theorem newSlice_null {alloc : SliceProg T (Option (BitVec 64))} {a : AllocReq}
    (init : BitVec 64 → SliceProg T Unit) {atEnd : SliceProg T Unit} (count : BitVec 64) (kind : K)
    (ha : Allocates sz ans alloc a) (hend : Quiet sz ans atEnd)
    (h0 : address ans a = 0) :
    (newSlice alloc init atEnd count kind).result ans = .ok none ∧
      (newSlice alloc init atEnd count kind).trace ans = alloc.trace ans ++ atEnd.trace ans := by
  rw [newSlice, Prog.result_bind, Prog.trace_bind, ha.result, nonNull, if_pos h0]
  simp [Outcome.bind, hend.result]

theorem newSlice_some {alloc : SliceProg T (Option (BitVec 64))} {a : AllocReq}
    (init : BitVec 64 → SliceProg T Unit) {atEnd : SliceProg T Unit} (count : BitVec 64) (kind : K)
    {n : Nat} (ha : Allocates sz ans alloc a)
    (hinit : Fills sz ans (address ans a) n (init (address ans a)))
    (hend : Quiet sz ans atEnd) (h0 : address ans a ≠ 0) :
    (newSlice alloc init atEnd count kind).result ans = .ok (some ⟨address ans a, count, kind⟩) ∧
      (newSlice alloc init atEnd count kind).trace ans =
        alloc.trace ans ++ ((init (address ans a)).trace ans ++ atEnd.trace ans) := by
  have hp : nonNull (address ans a) = some (address ans a) := if_neg h0
  rw [newSlice, Prog.result_bind, Prog.trace_bind, ha.result, hp]
  simp only [Outcome.bind, Prog.traceAfter_ok, Option.bind_some, hp]
  simp [Outcome.bind, hend.result, hinit.result]

/-- A constructor is sound exactly when its byte count is exact, unless it gets no
    memory anyway. -/
theorem newSlice_sound_iff {alloc : SliceProg T (Option (BitVec 64))} {a : AllocReq}
    {init : BitVec 64 → SliceProg T Unit} {atEnd : SliceProg T Unit} {count : BitVec 64} {kind : K}
    (ha : Allocates sz ans alloc a) (hbytes : a.bytes = count * sz)
    (hinit : ∀ ptr, Fills sz ans ptr (count.toNat * sz.toNat) (init ptr))
    (hend : Quiet sz ans atEnd) :
    Sound sz ans count (newSlice alloc init atEnd count kind) ↔ Exact ans sz count a := by
  have hwrap : a.bytes.toNat = count.toNat * sz.toNat % 2^64 := by rw [hbytes, BitVec.toNat_mul]
  by_cases h0 : address ans a = 0
  · refine iff_of_true (.inl ?_) (.inr h0)
    obtain ⟨hresult, htrace⟩ := newSlice_null init count kind ha hend h0
    refine ⟨hresult, fun q hq => ?_⟩
    rw [htrace] at hq
    rcases List.mem_append.mp hq with hq | hq
    · exact ha.quiet h0 q hq
    · exact hend.no_write q hq
  · obtain ⟨hresult, htrace⟩ := newSlice_some init count kind ha (hinit (address ans a))
      hend h0
    have hmem : ∀ q ∈ (newSlice alloc init atEnd count kind).trace ans, q ∈ alloc.trace ans ∨
        q ∈ (init (address ans a)).trace ans ∨ q ∈ atEnd.trace ans := by
      intro q hq
      rwa [htrace, List.mem_append, List.mem_append] at hq
    constructor
    · intro hsound
      rcases hsound with ⟨hnone, -⟩ | ⟨s, a', -, hasked, -, -, henough, -⟩
      · rw [hresult] at hnone
        cases hnone
      · -- There is only one call for memory, and what it asked for fits 64 bits.
        obtain rfl : a' = a := by
          rcases hmem _ hasked with h | h | h
          · exact ha.only a' h
          · exact absurd h ((hinit _).no_alloc a')
          · exact absurd h (hend.no_alloc a')
        exact .inl (Nat.lt_of_le_of_lt henough a'.bytes.isLt)
    · intro hexact
      rcases hexact with hexact | hnull
      · rw [Nat.mod_eq_of_lt hexact] at hwrap
        refine .inr ⟨_, a, hresult, ?_, rfl, rfl, Nat.le_of_eq hwrap.symm, ?_⟩
        · rw [htrace]
          exact List.mem_append_left _ ha.asked
        · intro q hq ptr len hw
          rcases hmem q hq with h | h | h
          · exact ha.inside q h ptr len hw
          · rw [hwrap]
            exact (hinit _).inside q h ptr len hw
          · rw [hend.no_write q h] at hw
            cases hw
      · exact absurd hnull h0

theorem Sound.congr {p q : SliceProg T (Option (MemorySlice K))} {count : BitVec 64}
    (hr : p.result ans = q.result ans) (ht : p.trace ans = q.trace ans) :
    Sound sz ans count p ↔ Sound sz ans count q := by
  rw [Sound, Sound, hr, ht]

/-- Checking the pointer after the loop instead of before it makes no difference. -/
theorem newWithCachingType_run (sz : BitVec 64) (ans : (q : SliceReq T) → q.Answer) (val : T)
    (count : BitVec 64) (c : CachingType) :
    let p := ContiguousMemorySlice.newWithCachingType sz val count c
    let q := newSlice (allocContiguousMemory (count * sz) c)
      (fun ptr => writeClones sz ptr val count.toNat 0) (dropVal val) count c
    p.result ans = q.result ans ∧ p.trace ans = q.trace ans := by
  have ha := allocContiguousMemory_allocates sz ans (count * sz) c
  have hend := dropVal_quiet sz ans val
  dsimp only
  rw [ContiguousMemorySlice.newWithCachingType, Prog.result_bind, Prog.trace_bind, ha.result]
  by_cases h0 : address ans (.contiguous (count * sz) c) = 0
  · obtain ⟨hr, ht⟩ := newSlice_null
      (fun ptr => writeClones sz ptr val count.toNat 0) count c ha hend h0
    rw [hr, ht, nonNull, if_pos h0]
    simp [Outcome.bind, hend.result]
  · have hinit := writeClones_fills sz ans (address ans (.contiguous (count * sz) c)) val
      count.toNat
    obtain ⟨hr, ht⟩ := newSlice_some
      (fun ptr => writeClones sz ptr val count.toNat 0) count c ha hinit hend h0
    have hp : nonNull (address ans (.contiguous (count * sz) c)) =
        some (address ans (.contiguous (count * sz) c)) := if_neg h0
    rw [hr, ht, hp]
    simp only [Outcome.bind, Prog.traceAfter_ok, hp]
    simp [Outcome.bind, hend.result, hinit.result]

theorem PoolMemorySlice.newWithPoolType_sound_iff (val : T) (count : BitVec 64) (t : PoolType) :
    Sound sz ans count (PoolMemorySlice.newWithPoolType sz val count t) ↔
      Exact ans sz count (.pool t (count * sz)) :=
  newSlice_sound_iff (allocPool_allocates sz ans t _) rfl
    (fun ptr => writeClones_fills sz ans ptr val _) (dropVal_quiet sz ans val)

/-- **Byte counts.** Each of the six constructors is sound exactly when the product of
    count and element size fits 64 bits, or the request for the wrapped product fails. -/
theorem slice_constructors_sound_iff (sz : BitVec 64) (ans : (q : SliceReq T) → q.Answer) (val : T)
    (count : BitVec 64) (t : PoolType) (c : CachingType) :
    (Sound sz ans count (PoolMemorySlice.newWithPoolType sz val count t) ↔
      Exact ans sz count (.pool t (count * sz))) ∧
    (Sound sz ans count (PoolMemorySlice.newUninitWithPoolType sz count t) ↔
      Exact ans sz count (.pool t (count * sz))) ∧
    (Sound sz ans count (PoolMemorySlice.newZeroedWithPoolType sz count t) ↔
      Exact ans sz count (.pool t (count * sz))) ∧
    (Sound sz ans count (ContiguousMemorySlice.newWithCachingType sz val count c) ↔
      Exact ans sz count (.contiguous (count * sz) c)) ∧
    (Sound sz ans count (ContiguousMemorySlice.newUninitWithCachingType sz c count) ↔
      Exact ans sz count (.contiguous (count * sz) c)) ∧
    (Sound sz ans count (ContiguousMemorySlice.newZeroedWithCachingType sz count c) ↔
      Exact ans sz count (.contiguous (count * sz) c)) := by
  have hpool := allocPool_allocates sz ans t (count * sz)
  have hcontiguous := allocContiguousMemory_allocates sz ans (count * sz) c
  have hzero := fun ptr => zeroElements_fills sz ans ptr count
  refine ⟨PoolMemorySlice.newWithPoolType_sound_iff val count t, ?_, ?_, ?_, ?_, ?_⟩
  · rw [PoolMemorySlice.newUninitWithPoolType, BitVec.mul_comm sz count]
    exact newSlice_sound_iff hpool rfl hzero (pure_quiet sz ans)
  · exact newSlice_sound_iff hpool rfl hzero (pure_quiet sz ans)
  · obtain ⟨hr, ht⟩ := newWithCachingType_run sz ans val count c
    rw [Sound.congr hr ht]
    exact newSlice_sound_iff hcontiguous rfl (fun ptr => writeClones_fills sz ans ptr val _)
      (dropVal_quiet sz ans val)
  · exact newSlice_sound_iff hcontiguous rfl hzero (pure_quiet sz ans)
  · exact newSlice_sound_iff hcontiguous rfl hzero (pure_quiet sz ans)

/-- A pool that gives the block at 0x10000 to every request. -/
def lavish : (q : SliceReq (BitVec 64)) → q.Answer
  | .alloc _ => (0x10000#64 : BitVec 64)
  | .clone val => val
  | .write _ _ => ()
  | .writeBytes _ _ => ()
  | .drop _ => ()

/-- `2^61 + 1` elements of eight bytes are asked for with eight bytes. -/
theorem newWithPoolType_wraps :
    (0x2000000000000001#64 * 8#64) = 8#64 ∧
      ¬ Sound 8#64 lavish 0x2000000000000001#64
        (PoolMemorySlice.newWithPoolType 8#64 (0#64 : BitVec 64) 0x2000000000000001#64 1#32) := by
  refine ⟨by decide, ?_⟩
  rw [PoolMemorySlice.newWithPoolType_sound_iff]
  intro hexact
  rcases hexact with h | h
  · exact absurd h (by decide)
  · exact absurd h (by decide)

end
end WinKernl
