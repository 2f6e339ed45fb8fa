import WinKernl.Lib.Elements
import WinKernl.MemorySlice

/- The owning wrappers of `kalloc/pool.rs` and `kalloc/contiguous.rs`.

   Correspondence (Rust ↔ Lean):
     `PoolMemory`, `ContiguousMemory`             ↔ `PoolMemory`, `ContiguousMemory`
     `PoolMemorySlice`, `ContiguousMemorySlice`   ↔ `MemorySlice`
     a wrapper and its element type               ↔ `Owner`
     a constructor                                ↔ a `Ctor`, run by `Ctor.run`
     `assume_init`, `leak`, `Drop`                ↔ `Owner.assumeInit`, `Owner.leak`, `Owner.drop`
   Every constructor asks for one block, fills it and wraps it. What differs is where
   the block comes from, how many elements it has, and how they come to be: these are
   the fields of `Ctor`, and each constructor is a `Ctor` under its own name.

   Values of type `T` are numbered as they appear, so that each has an identity.
   `entered` lists those that have been a `T` someone had to drop: an argument, a clone,
   an element zeroed in place, an element declared initialised. A value put in a
   `MaybeUninit` is not one of them yet. -/
namespace WinKernl.Kalloc
open ByteMem Elements

def nonPagedPool : PoolType := 0
def pagedPool : PoolType := 1
def mmCached : CachingType := 1

def DEFAULT_POOL_TYPE : PoolType := nonPagedPool
def DEFAULT_CACHING : CachingType := mmCached

/-! Memory. -/

/-- A block, and the call that it answered. -/
structure Block where
  base : BitVec 64
  req : AllocReq
  deriving DecidableEq

def Block.isPool (b : Block) : Bool :=
  match b.req with
  | .pool _ _ => true
  | .contiguous _ _ => false

/-- The blocks in use, and all that were obtained and freed; the elements in memory; the
    values that appeared, those dropped, and what was leaked. `corrupt` is set when an
    element is dropped that is not there, or a block is freed other than as obtained. -/
structure Heap where
  blocks : List Block
  obtained : List Block
  freed : List Block
  slots : Slots 64 Nat
  next : Nat
  entered : List Nat
  dropped : List Nat
  leakedBlocks : List (BitVec 64)
  leakedVals : List Nat
  corrupt : Bool

namespace Heap

def empty : Heap := ⟨[], [], [], fun _ _ => none, 0, [], [], [], [], false⟩

/-- A new value, not yet of type `T`. -/
def mint (h : Heap) : Heap := { h with next := h.next + 1 }

/-- Values that are of type `T` from now on. -/
def enter (vs : List Nat) (h : Heap) : Heap := { h with entered := vs ++ h.entered }

/-- A new value of type `T`: it is `h.next`. -/
def birth (h : Heap) : Heap := (h.enter [h.next]).mint

def dropVal (v : Nat) (h : Heap) : Heap := { h with dropped := v :: h.dropped }

/-- `ptr.add(i).write(v)`. -/
def write (p : BitVec 64) (size i : Nat) (v : Nat) (h : Heap) : Heap :=
  { h with slots := Elements.write h.slots p size i v }

/-- `write_bytes(0, n)`: no element is left in these bytes. -/
def clear (p : BitVec 64) (n : Nat) (h : Heap) : Heap :=
  { h with slots := Elements.clear h.slots p n }

/-- A block that was just obtained holds no elements. -/
def addBlock (b : Block) (h : Heap) : Heap :=
  { h with
    blocks := b :: h.blocks
    obtained := b :: h.obtained
    slots := fun q i => if q = b.base then none else h.slots q i }

/-- Take the value out of a place, to drop it. -/
def dropInPlace (p : BitVec 64) (h : Heap) (i : Nat) : Heap :=
  match h.slots p i with
  | some e =>
    { h with
      slots := fun q j => if q = p ∧ j = i then none else h.slots q j
      dropped := e.val :: h.dropped }
  | none => { h with corrupt := true }

/-- `drop_in_place` of `n` elements in order. -/
def dropElements (p : BitVec 64) (n : Nat) (h : Heap) : Heap :=
  (List.range n).foldl (dropInPlace p) h

def release (b : Block) (h : Heap) : Heap :=
  { h with blocks := h.blocks.erase b, freed := b :: h.freed }

/-- `ExFreePool` is given the address alone. -/
def freePool (p : BitVec 64) (h : Heap) : Heap :=
  match h.blocks.find? fun b => b.base == p && b.isPool with
  | some b => h.release b
  | none => { h with corrupt := true }

/-- `MmFreeContiguousMemorySpecifyCache` is given the size and the caching type too. -/
def freeContiguous (p n : BitVec 64) (c : CachingType) (h : Heap) : Heap :=
  if ⟨p, .contiguous n c⟩ ∈ h.blocks then h.release ⟨p, .contiguous n c⟩
  else { h with corrupt := true }

/-- The value in a place. -/
def valAt (h : Heap) (p : BitVec 64) (i : Nat) : Option Nat := (h.slots p i).map Stored.val

end Heap

/-! Wrappers. -/

structure PoolMemory where
  mem : BitVec 64
  deriving DecidableEq

structure ContiguousMemory where
  mem : BitVec 64
  mmCaching : CachingType
  deriving DecidableEq

inductive Wrapper where
  | poolMemory (m : PoolMemory)
  | poolMemorySlice (s : MemorySlice PoolType)
  | contiguousMemory (m : ContiguousMemory)
  | contiguousMemorySlice (s : MemorySlice CachingType)
  deriving DecidableEq

def Wrapper.ptr : Wrapper → BitVec 64
  | .poolMemory m => m.mem
  | .poolMemorySlice s => s.ptr
  | .contiguousMemory m => m.mem
  | .contiguousMemorySlice s => s.ptr

/-- The number of elements. -/
def Wrapper.len : Wrapper → Nat
  | .poolMemory _ => 1
  | .poolMemorySlice s => s.len.toNat
  | .contiguousMemory _ => 1
  | .contiguousMemorySlice s => s.len.toNat

/-- A wrapper of elements `T`, or `MaybeUninit<T>`, with the `size_of` of `T`. -/
structure Owner where
  wrapper : Wrapper
  size : BitVec 64
  uninit : Bool
  deriving DecidableEq

namespace Owner

def ptr (o : Owner) : BitVec 64 := o.wrapper.ptr
def len (o : Owner) : Nat := o.wrapper.len

/-- The values in the places of the elements. -/
def elements (o : Owner) (h : Heap) : List Nat := (List.range o.len).filterMap (h.valAt o.ptr)

/-- Those that are its to drop. -/
def ownedVals (h : Heap) (o : Owner) : List Nat := if o.uninit then [] else o.elements h

/-- `assume_init`: a wrapper made of the fields of this one, which is forgotten. -/
def assumeInit (o : Owner) : Owner := { o with uninit := false }

/-- `mem::forget`: the block and the elements stay as they are. -/
def leak (o : Owner) (h : Heap) : Heap :=
  { h with
    leakedBlocks := o.ptr :: h.leakedBlocks
    leakedVals := o.ownedVals h ++ h.leakedVals }

/-- The last statement of each `Drop`. -/
def free (o : Owner) (h : Heap) : Heap :=
  match o.wrapper with
  | .poolMemory m => h.freePool m.mem
  | .poolMemorySlice s => h.freePool s.ptr
  | .contiguousMemory m => h.freeContiguous m.mem o.size m.mmCaching
  | .contiguousMemorySlice s => h.freeContiguous s.ptr (s.len * o.size) s.kind

/-- `Drop`: dropping a `MaybeUninit` does nothing. -/
def drop (o : Owner) (h : Heap) : Heap :=
  o.free (if o.uninit then h else h.dropElements o.ptr o.len)

/-- `MaybeUninit::write` of a new value to element `i`. -/
def writeElement (o : Owner) (h : Heap) (i : Nat) : Heap :=
  h.mint.write o.ptr o.size.toNat i h.next

end Owner

/-! Constructors. -/

inductive Kind where
  | pool (poolType : PoolType)
  | contiguous (caching : CachingType)
  deriving DecidableEq

inductive Shape where
  | one
  | slice (count : BitVec 64)
  deriving DecidableEq

/-- How the elements come to be: from a value passed in, left uninitialised, from zero
    bytes, or by a closure that writes the elements listed. -/
inductive Fill where
  | value
  | uninit
  | zeroed
  | initializer (writes : List Nat)
  deriving DecidableEq

structure Ctor where
  kind : Kind
  shape : Shape
  fill : Fill
  deriving DecidableEq

def Shape.len : Shape → Nat
  | .one => 1
  | .slice count => count.toNat

/-- The byte count asked for; `usize` arithmetic wraps. -/
def Shape.bytes (size : BitVec 64) : Shape → BitVec 64
  | .one => size
  | .slice count => count * size

def Kind.request (k : Kind) (n : BitVec 64) : AllocReq :=
  match k with
  | .pool t => .pool t n
  | .contiguous c => .contiguous n c

def wrap (k : Kind) (s : Shape) (p : BitVec 64) : Wrapper :=
  match k, s with
  | .pool _, .one => .poolMemory ⟨p⟩
  | .pool t, .slice count => .poolMemorySlice ⟨p, count, t⟩
  | .contiguous c, .one => .contiguousMemory ⟨p, c⟩
  | .contiguous c, .slice count => .contiguousMemorySlice ⟨p, count, c⟩

/-- The call for memory, answered by `p`: `alloc_contiguous_memory` clears the block. -/
def Kind.allocate (k : Kind) (n p : BitVec 64) (h : Heap) : Option (BitVec 64) × Heap :=
  if p = 0 then (none, h) else
  match k with
  | .pool _ => (some p, h.addBlock ⟨p, k.request n⟩)
  | .contiguous _ => (some p, (h.addBlock ⟨p, k.request n⟩).clear p n.toNat)

/-- Write a new value of type `T`. -/
def writeNew (p : BitVec 64) (size : Nat) (h : Heap) (i : Nat) : Heap :=
  h.birth.write p size i h.next

/-- `for i in 0..n { ptr.add(i).write(val.clone()) }`. -/
def writeClones (p : BitVec 64) (size n : Nat) (h : Heap) : Heap :=
  (List.range n).foldl (writeNew p size) h

/-- `write_bytes(0, n)` to elements whose zero bytes are a `T`. -/
def zeroElements (p : BitVec 64) (size n : Nat) (h : Heap) : Heap :=
  writeClones p size n (h.clear p (n * size))

namespace Ctor
variable (c : Ctor) (size p : BitVec 64) (h : Heap)

def owner (uninit : Bool) (p : BitVec 64) : Owner := ⟨wrap c.kind c.shape p, size, uninit⟩

def allocate : Option (BitVec 64) × Heap := c.kind.allocate (c.shape.bytes size) p h

/-- From `val`, which was born before the call. A single value is moved into the block; a
    slice is filled with clones, and `val` is dropped at the end. -/
def newValue (val : Nat) : Option Owner × Heap :=
  match c.allocate size p h with
  | (none, h) => (none, h.dropVal val)
  | (some p, h) =>
    match c.shape with
    | .one => (some (c.owner size false p), h.write p size.toNat 0 val)
    | .slice count =>
      (some (c.owner size false p), (writeClones p size.toNat count.toNat h).dropVal val)

/-- Only `PoolMemory::new_uninit` leaves the bytes as they are. -/
def newUninit : Option Owner × Heap :=
  match c.allocate size p h with
  | (none, h) => (none, h)
  | (some p, h) =>
    match c.kind, c.shape with
    | .pool _, .one => (some (c.owner size true p), h)
    | _, _ => (some (c.owner size true p), h.clear p (c.shape.len * size.toNat))

def newZeroed : Option Owner × Heap :=
  match c.allocate size p h with
  | (none, h) => (none, h)
  | (some p, h) => (some (c.owner size false p), zeroElements p size.toNat c.shape.len h)

/-- The closure gets the uninitialised wrapper, and `assume_init` follows. -/
def newWithInitializer (writes : List Nat) : Option Owner × Heap :=
  match c.newUninit size p h with
  | (none, h) => (none, h)
  | (some o, h) =>
    let h := writes.foldl o.writeElement h
    (some o.assumeInit, h.enter (o.elements h))

/-- A constructor of elements of `size` bytes, where the call for memory answers `p`. -/
def run : Option Owner × Heap :=
  match c.fill with
  | .value => c.newValue size p h.birth h.next
  | .uninit => c.newUninit size p h
  | .zeroed => c.newZeroed size p h
  | .initializer writes => c.newWithInitializer size p h writes

end Ctor

namespace PoolMemory

def newUninitWithPoolType (poolType : PoolType) : Ctor := ⟨.pool poolType, .one, .uninit⟩
def newUninit : Ctor := newUninitWithPoolType DEFAULT_POOL_TYPE
def newWithPoolType (poolType : PoolType) : Ctor := ⟨.pool poolType, .one, .value⟩
def new : Ctor := newWithPoolType DEFAULT_POOL_TYPE
def newZeroedWithPoolType (poolType : PoolType) : Ctor := ⟨.pool poolType, .one, .zeroed⟩
def newZeroed : Ctor := newZeroedWithPoolType pagedPool
def newWithInitializerAndPoolType (poolType : PoolType) (writes : List Nat) : Ctor :=
  ⟨.pool poolType, .one, .initializer writes⟩
def newWithInitializer (writes : List Nat) : Ctor :=
  newWithInitializerAndPoolType DEFAULT_POOL_TYPE writes

end PoolMemory

namespace PoolMemorySlice

def newWithPoolType (count : BitVec 64) (poolType : PoolType) : Ctor :=
  ⟨.pool poolType, .slice count, .value⟩
def new (count : BitVec 64) : Ctor := newWithPoolType count pagedPool
def newUninitWithPoolType (len : BitVec 64) (poolType : PoolType) : Ctor :=
  ⟨.pool poolType, .slice len, .uninit⟩
def newUninit (len : BitVec 64) : Ctor := newUninitWithPoolType len pagedPool
def newZeroedWithPoolType (count : BitVec 64) (poolType : PoolType) : Ctor :=
  ⟨.pool poolType, .slice count, .zeroed⟩
def newZeroed (count : BitVec 64) : Ctor := newZeroedWithPoolType count pagedPool
def newWithInitializerAndPoolType (len : BitVec 64) (poolType : PoolType) (writes : List Nat) :
    Ctor := ⟨.pool poolType, .slice len, .initializer writes⟩
def newWithInitializer (len : BitVec 64) (writes : List Nat) : Ctor :=
  newWithInitializerAndPoolType len DEFAULT_POOL_TYPE writes

end PoolMemorySlice

namespace ContiguousMemory

def newUninitZeroedWithCachingType (mmCaching : CachingType) : Ctor :=
  ⟨.contiguous mmCaching, .one, .uninit⟩
def newUninitWithCachingType (mmCaching : CachingType) : Ctor :=
  newUninitZeroedWithCachingType mmCaching
def newUninitZeroed : Ctor := newUninitWithCachingType DEFAULT_CACHING
def newUninit : Ctor := newUninitWithCachingType DEFAULT_CACHING
def newWithCachingType (cacheType : CachingType) : Ctor := ⟨.contiguous cacheType, .one, .value⟩
def new : Ctor := newWithCachingType DEFAULT_CACHING
def newWithInitializerAndCachingType (mmCaching : CachingType) (writes : List Nat) : Ctor :=
  ⟨.contiguous mmCaching, .one, .initializer writes⟩
def newWithInitializer (writes : List Nat) : Ctor :=
  newWithInitializerAndCachingType DEFAULT_CACHING writes
def newZeroedWithCachingType (mmCaching : CachingType) : Ctor :=
  ⟨.contiguous mmCaching, .one, .zeroed⟩
def newZeroed : Ctor := newZeroedWithCachingType DEFAULT_CACHING

end ContiguousMemory

namespace ContiguousMemorySlice

def newUninitWithCachingType (mmCaching : CachingType) (len : BitVec 64) : Ctor :=
  ⟨.contiguous mmCaching, .slice len, .uninit⟩
def newUninit (len : BitVec 64) : Ctor := newUninitWithCachingType DEFAULT_CACHING len
def newWithCachingType (count : BitVec 64) (cachingType : CachingType) : Ctor :=
  ⟨.contiguous cachingType, .slice count, .value⟩
def new (count : BitVec 64) : Ctor := newWithCachingType count DEFAULT_CACHING
def newZeroedWithCachingType (len : BitVec 64) (mmCaching : CachingType) : Ctor :=
  ⟨.contiguous mmCaching, .slice len, .zeroed⟩
def newZeroed (len : BitVec 64) : Ctor := newZeroedWithCachingType len DEFAULT_CACHING
def newWithInitializerAndCachingType (mmCaching : CachingType) (len : BitVec 64)
    (writes : List Nat) : Ctor := ⟨.contiguous mmCaching, .slice len, .initializer writes⟩
def newWithInitializer (len : BitVec 64) (writes : List Nat) : Ctor :=
  newWithInitializerAndCachingType DEFAULT_CACHING len writes

end ContiguousMemorySlice

/-! The slice constructors, here and as programs over kernel calls. -/

def Ctor.request (c : Ctor) (size : BitVec 64) : AllocReq := c.kind.request (c.shape.bytes size)

theorem Ctor.allocate_fst (c : Ctor) (size : BitVec 64) {p : BitVec 64} (hp : p ≠ 0) (h : Heap) :
    ∃ h', c.allocate size p h = (some p, h') := by
  unfold Ctor.allocate Kind.allocate
  rw [if_neg hp]
  cases c.kind <;> exact ⟨_, rfl⟩

/-- Only `new_uninit` returns elements that are `MaybeUninit`. -/
theorem Ctor.run_fst (c : Ctor) (size p : BitVec 64) (h : Heap) :
    (c.run size p h).1 = (nonNull p).map (c.owner size (c.fill == .uninit)) := by
  obtain ⟨kind, shape, fill⟩ := c
  by_cases hp : p = 0
  · subst hp
    cases fill <;> rfl
  have halloc (fill : Fill) := Ctor.allocate_fst ⟨kind, shape, fill⟩ size hp
  rw [nonNull, if_neg hp, Option.map_some]
  cases fill with
  | value =>
    obtain ⟨h', hh⟩ := halloc .value h.birth
    dsimp only [Ctor.run, Ctor.newValue]
    rw [hh]
    cases shape <;> rfl
  | uninit =>
    obtain ⟨h', hh⟩ := halloc .uninit h
    dsimp only [Ctor.run, Ctor.newUninit]
    rw [hh]
    cases kind <;> cases shape <;> rfl
  | zeroed =>
    obtain ⟨h', hh⟩ := halloc .zeroed h
    dsimp only [Ctor.run, Ctor.newZeroed]
    rw [hh]
    rfl
  | initializer writes =>
    obtain ⟨h', hh⟩ := halloc (.initializer writes) h
    dsimp only [Ctor.run, Ctor.newWithInitializer, Ctor.newUninit]
    rw [hh]
    cases kind <;> cases shape <;> rfl

section
variable {T K : Type} {sz : BitVec 64} {ans : (q : SliceReq T) → q.Answer}

/-- The constructor asks for the block its program asks for, and returns the slice it
    returns. -/
structure Agrees (ans : (q : SliceReq T) → q.Answer) (sz : BitVec 64)
    (prog : SliceProg T (Option (MemorySlice K))) (w : MemorySlice K → Wrapper) (c : Ctor) :
    Prop where
  asked : ∀ a, .alloc a ∈ prog.trace ans ↔ a = c.request sz
  returned : ∃ r, prog.result ans = .ok r ∧
    ∀ h, (c.run sz (address ans (c.request sz)) h).1.map Owner.wrapper = r.map w

theorem newSlice_agrees {alloc : SliceProg T (Option (BitVec 64))}
    {init : BitVec 64 → SliceProg T Unit} {atEnd : SliceProg T Unit} {count : BitVec 64} {kind : K}
    {w : MemorySlice K → Wrapper} {c : Ctor} {n : Nat} (ha : Allocates sz ans alloc (c.request sz))
    (hinit : ∀ ptr, Fills sz ans ptr n (init ptr)) (hend : Quiet sz ans atEnd)
    (hw : ∀ p, wrap c.kind c.shape p = w ⟨p, count, kind⟩) :
    Agrees ans sz (newSlice alloc init atEnd count kind) w c := by
  have hasks {rest : List (SliceReq T)} (hrest : ∀ a, .alloc a ∉ rest) (a : AllocReq) :
      .alloc a ∈ alloc.trace ans ++ rest ↔ a = c.request sz := by
    rw [List.mem_append, or_iff_left (hrest a)]
    exact ⟨ha.only a, fun h => h ▸ ha.asked⟩
  by_cases h0 : address ans (c.request sz) = 0
  · obtain ⟨hresult, htrace⟩ := newSlice_null init count kind ha hend h0
    refine ⟨?_, none, hresult, fun h => ?_⟩
    · rw [htrace]
      exact hasks hend.no_alloc
    · rw [Ctor.run_fst, nonNull, if_pos h0]
      rfl
  · obtain ⟨hresult, htrace⟩ := newSlice_some init count kind ha (hinit _) hend h0
    refine ⟨?_, _, hresult, fun h => ?_⟩
    · rw [htrace]
      apply hasks
      intro a hmem
      rcases List.mem_append.mp hmem with hmem | hmem
      · exact (hinit _).no_alloc a hmem
      · exact hend.no_alloc a hmem
    · rw [Ctor.run_fst, nonNull, if_neg h0]
      exact congrArg some (hw _)

theorem Agrees.congr {p q : SliceProg T (Option (MemorySlice K))} {w : MemorySlice K → Wrapper}
    {c : Ctor} (hr : p.result ans = q.result ans) (ht : p.trace ans = q.trace ans)
    (h : Agrees ans sz q w c) : Agrees ans sz p w c := by
  constructor
  · rw [ht]
    exact h.asked
  · rw [hr]
    exact h.returned

/-- Each of the six slice constructors is the same in both forms. -/
theorem slice_constructors_agree (sz : BitVec 64) (ans : (q : SliceReq T) → q.Answer) (val : T)
    (count : BitVec 64) (t : PoolType) (c : CachingType) :
    Agrees ans sz (WinKernl.PoolMemorySlice.newWithPoolType sz val count t) .poolMemorySlice
      (PoolMemorySlice.newWithPoolType count t) ∧
    Agrees ans sz (WinKernl.PoolMemorySlice.newUninitWithPoolType sz count t) .poolMemorySlice
      (PoolMemorySlice.newUninitWithPoolType count t) ∧
    Agrees ans sz (WinKernl.PoolMemorySlice.newZeroedWithPoolType sz count t) .poolMemorySlice
      (PoolMemorySlice.newZeroedWithPoolType count t) ∧
    Agrees ans sz (WinKernl.ContiguousMemorySlice.newWithCachingType sz val count c)
      .contiguousMemorySlice (ContiguousMemorySlice.newWithCachingType count c) ∧
    Agrees ans sz (WinKernl.ContiguousMemorySlice.newUninitWithCachingType sz c count)
      .contiguousMemorySlice (ContiguousMemorySlice.newUninitWithCachingType c count) ∧
    Agrees ans sz (WinKernl.ContiguousMemorySlice.newZeroedWithCachingType sz count c)
      .contiguousMemorySlice (ContiguousMemorySlice.newZeroedWithCachingType count c) := by
  have hpool := allocPool_allocates sz ans t (count * sz)
  have hcontiguous := allocContiguousMemory_allocates sz ans (count * sz) c
  have hclones := fun ptr => writeClones_fills sz ans ptr val count.toNat
  have hzero := fun ptr => zeroElements_fills sz ans ptr count
  have hdrop := dropVal_quiet sz ans val
  have hpure := pure_quiet sz ans
  refine ⟨newSlice_agrees hpool hclones hdrop fun _ => rfl, ?_,
    newSlice_agrees hpool hzero hpure fun _ => rfl, ?_,
    newSlice_agrees hcontiguous hzero hpure fun _ => rfl,
    newSlice_agrees hcontiguous hzero hpure fun _ => rfl⟩
  · rw [WinKernl.PoolMemorySlice.newUninitWithPoolType, BitVec.mul_comm sz count]
    exact newSlice_agrees hpool hzero hpure fun _ => rfl
  · obtain ⟨hr, ht⟩ := newWithCachingType_run sz ans val count c
    exact (newSlice_agrees hcontiguous hclones hdrop fun _ => rfl).congr hr ht

end

end WinKernl.Kalloc
