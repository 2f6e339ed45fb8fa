import WinKernl.Lib.Runs
import WinKernl.OwnedOperations

/- Runs over any number of owning wrappers.

   The ledger of a run is a conservation law: every block obtained is freed, leaked or
   in the hands of one owner, and every value of type `T` was dropped once, leaked, or
   is an element of one owner (`Conserved`).

   All of it rests on slices that lie in their blocks. Where the byte count wraps they do
   not, and a slice can even overwrite itself (`newWithPoolType_overlaps`). -/
namespace WinKernl.Kalloc
open ByteMem Elements Runs

variable {h : Heap}

/-! Runs. -/

structure KallocState where
  heap : Heap
  owners : List Owner

/-- What a client can do. A constructor is given the answer to its call for memory, and the
    other operations an owner, which its pointer tells from the others. -/
inductive KallocOp where
  | new (c : Ctor) (size p : BitVec 64)
  | write (o : Owner) (i : Nat)
  | assumeInit (o : Owner)
  | leak (o : Owner)
  | drop (o : Owner)

namespace KallocState

def start : KallocState := ⟨.empty, []⟩

def step (s : KallocState) : KallocOp → KallocState
  | .new c size p =>
    let r := c.run size p s.heap
    ⟨r.2, r.1.toList ++ s.owners⟩
  | .write o i => ⟨o.writeElement s.heap i, s.owners⟩
  | .assumeInit o => ⟨s.heap.enter (o.elements s.heap), o.assumeInit :: s.owners.erase o⟩
  | .leak o => ⟨o.leak s.heap, s.owners.erase o⟩
  | .drop o => ⟨o.drop s.heap, s.owners.erase o⟩

/-- The kernel answers null or with a block that is free, an initializer writes every
    element, `assume_init` is called when every element was written, and a client uses
    the owners it has. -/
def Legal (s : KallocState) : KallocOp → Prop
  | .new c size p => (p ≠ 0 → Fresh s.heap (c.block size p)) ∧ c.Covers
  | .write o i => o ∈ s.owners ∧ o.uninit = true ∧ i < o.len
  | .assumeInit o => o ∈ s.owners ∧ o.uninit = true ∧
    ∀ i < o.len, (s.heap.slots o.ptr i).isSome
  | .leak o => o ∈ s.owners
  | .drop o => o ∈ s.owners

/-- The elements of an array that gets a block take less than `2^64` bytes. -/
def InRange (_ : KallocState) : KallocOp → Prop
  | .new c size p => p ≠ 0 → c.InRange size
  | _ => True

instance (s : KallocState) : (op : KallocOp) → Decidable (s.Legal op)
  | .new _ _ _ => inferInstanceAs (Decidable (_ ∧ _))
  | .write _ _ => inferInstanceAs (Decidable (_ ∧ _))
  | .assumeInit _ => inferInstanceAs (Decidable (_ ∧ _))
  | .leak _ => inferInstanceAs (Decidable (_ ∈ _))
  | .drop _ => inferInstanceAs (Decidable (_ ∈ _))

instance (s : KallocState) : (op : KallocOp) → Decidable (s.InRange op)
  | .new _ _ p => inferInstanceAs (Decidable (p ≠ 0 → _ < _))
  | .write _ _ => .isTrue trivial
  | .assumeInit _ => .isTrue trivial
  | .leak _ => .isTrue trivial
  | .drop _ => .isTrue trivial

/-- The ledger of a run. A block that was obtained was freed once, or is in use: leaked, or
    with one owner. A value of type `T` was dropped once, was leaked, or is an element of
    one owner of `T`. No element of a `MaybeUninit` wrapper was dropped. -/
structure Conserved (s : KallocState) : Prop where
  intact : s.heap.corrupt = false
  freed : s.heap.obtained.Perm (s.heap.freed ++ s.heap.blocks)
  blocks : (s.heap.blocks.map Block.base).Perm (s.owners.map Owner.ptr ++ s.heap.leakedBlocks)
  nodup : s.heap.entered.Nodup
  values : s.heap.entered.Perm (s.heap.dropped ++
    (s.heap.leakedVals ++ s.owners.flatMap (Owner.ownedVals s.heap)))
  uninit : ∀ o ∈ s.owners, o.uninit = true → ∀ v ∈ o.elements s.heap, v ∉ s.heap.dropped

/-- A constructor that returns `None` leaves no block. -/
def NoneLeavesNothing (s : KallocState) : KallocOp → Prop
  | .new c size p => (c.run size p s.heap).1 = none → (c.run size p s.heap).2.blocks = s.heap.blocks
  | _ => True

theorem conserved_of_inv {s : KallocState} (hi : Inv s.heap s.owners) : s.Conserved where
  intact := hi.intact
  freed := hi.blocks.freed
  blocks := hi.blocks.bases
  nodup := hi.vals.nodup
  values := hi.vals.values
  uninit := by
    intro o ho hu v hv hdropped
    obtain ⟨i, hlt, e, he, rfl⟩ := mem_elements.mp hv
    apply (hi.vals.pending o ho hu i hlt e he).2
    exact hi.vals.values.mem_iff.mpr (List.mem_append_left _ hdropped)

theorem inv_step {s : KallocState} {op : KallocOp} (hi : Inv s.heap s.owners) (hl : s.Legal op)
    (hr : s.InRange op) : Inv (s.step op).heap (s.step op).owners := by
  have hfirst {o : Owner} (ho : o ∈ s.owners) : Inv s.heap (o :: s.owners.erase o) :=
    hi.perm (List.perm_cons_erase ho)
  cases op with
  | new c size p => exact (constructs_run hi hr hl.1 hl.2).inv
  | write o i => exact hi.write hl.1 hl.2.1 hl.2.2
  | assumeInit o => exact (hfirst hl.1).assumeInit hl.2.1 hl.2.2
  | leak o => exact (hfirst hl).leak
  | drop o => exact (hfirst hl).drop

theorem inv_start : Inv start.heap start.owners where
  intact := rfl
  blocks := ⟨List.Perm.refl _, List.Perm.refl _, List.Pairwise.nil, by simp [start, Heap.empty],
    by simp [start], by simp [start]⟩
  vals := ⟨by simp [start], by simp [start, Heap.empty], List.nodup_nil, List.Perm.refl _,
    by simp [start], by simp [start]⟩

end KallocState

open KallocState

/-- **Ledger.** Along every run whose arrays are in range the ledger is kept, and a
    constructor that fails leaves no block. -/
theorem kalloc_conserved {ops : List KallocOp} (hl : Guarded step Legal start ops)
    (hr : Guarded step InRange start ops) :
    Always step Conserved start ops ∧ Guarded step NoneLeavesNothing start ops := by
  have hstep : ∀ s op, Inv s.heap s.owners → Legal s op ∧ InRange s op →
      Inv (step s op).heap (step s op).owners := fun _ _ hi hg => inv_step hi hg.1 hg.2
  have hinv : Always step (fun s => Inv s.heap s.owners) start ops :=
    always_of_guarded (P := fun s => Inv s.heap s.owners) hstep inv_start (hl.and hr)
  refine ⟨hinv.mono fun _ => conserved_of_inv, hinv.guarded ?_ (hl.and hr)⟩
  intro s op hi hg
  cases op with
  | new c size p => exact (constructs_run hi hg.2 hg.1.1 hg.1.2).none
  | _ => trivial

/-- The array of a driver: made in place, beside a value whose allocation fails, and
    dropped when another array was leaked. -/
def arrayRun : List KallocOp :=
  let array := (ContiguousMemorySlice.newUninit 2).owner 8 true 0x1000
  let other := (PoolMemorySlice.new 3).owner 4 false 0x2000
  [.new (ContiguousMemorySlice.newUninit 2) 8 0x1000, .write array 1, .write array 0,
    .new (PoolMemorySlice.new 3) 4 0x2000, .assumeInit array, .new PoolMemory.new 16 0,
    .leak other, .drop array.assumeInit]

theorem arrayRun_conserved :
    Always step Conserved start arrayRun ∧ Guarded step NoneLeavesNothing start arrayRun :=
  kalloc_conserved (by decide +kernel) (by decide +kernel)

/-! Where the byte count wraps. -/

/-- An owner with an empty place does not have all its elements. -/
theorem elements_short {o : Owner} (hlen : 0 < o.len) (hfirst : h.slots o.ptr 0 = none) :
    (o.elements h).length < o.len := by
  have hshort : (o.elements h).length < (List.range o.len).length := by
    apply List.length_filterMap_lt_length_iff_exists.mpr
    exact ⟨0, List.mem_range.mpr hlen, by rw [Heap.valAt, hfirst]; rfl⟩
  rwa [List.length_range] at hshort

/-- A slice of clones whose last element lies on its first: the place that was written
    first is empty at the end. -/
theorem newWithPoolType_overlaps {count size p : BitVec 64} (t : PoolType) {n : Nat} (hp : p ≠ 0)
    (hsize : 0 < size.toNat) (hn : 0 < n) (hcount : count.toNat = n + 1)
    (hwrap : n * size.toNat % 2^64 = 0) : ∃ h o,
      start.step (.new (PoolMemorySlice.newWithPoolType count t) size p) = ⟨h, [o]⟩ ∧
      o.len = n + 1 ∧ h.slots o.ptr 0 = none ∧
      h.entered.length = n + 2 ∧ h.dropped = [0] ∧ h.leakedVals = [] := by
  have hrun : (PoolMemorySlice.newWithPoolType count t).run size p Heap.empty =
      (some ((PoolMemorySlice.newWithPoolType count t).owner size false p),
        (writeClones p size.toNat (n + 1)
          (Heap.empty.birth.addBlock ⟨p, .pool t (count * size)⟩)).dropVal 0) := by
    unfold Ctor.run Ctor.newValue Ctor.allocate Kind.allocate
    rw [if_neg hp, ← hcount]
    rfl
  rw [step, start, hrun, Heap.writeClones_eq]
  refine ⟨_, _, rfl, hcount, writeArray_wraps (fun _ => if_pos rfl) hsize hn hwrap, ?_, rfl, rfl⟩
  change (((List.range (n + 1)).map _).reverse ++ [0]).length = n + 2
  rw [List.length_append, List.length_reverse, List.length_map, List.length_range]
  rfl

/-- The clone that was there is not dropped, and no element any more. -/
theorem newWithPoolType_loses {count size p : BitVec 64} (t : PoolType) {n : Nat} (hp : p ≠ 0)
    (hsize : 0 < size.toNat) (hn : 0 < n) (hcount : count.toNat = n + 1)
    (hwrap : n * size.toNat % 2^64 = 0) :
    ¬ (start.step (.new (PoolMemorySlice.newWithPoolType count t) size p)).Conserved := by
  obtain ⟨h, o, hstep, hlen, hfirst, hentered, hdropped, hleaked⟩ :=
    newWithPoolType_overlaps t hp hsize hn hcount hwrap
  rw [hstep]
  intro hconserved
  have hshort : (o.elements h).length < n + 1 := by
    rw [← hlen]
    exact elements_short (by omega) hfirst
  have howned : (o.ownedVals h).length ≤ (o.elements h).length := by
    unfold Owner.ownedVals
    split
    · exact Nat.zero_le _
    · exact Nat.le_refl _
  -- Of `n + 2` values one was dropped and at most `n` are elements.
  have hledger : h.entered.length =
      (h.dropped ++ (h.leakedVals ++ [o].flatMap (Owner.ownedVals h))).length :=
    hconserved.values.length_eq
  rw [hentered, hdropped, hleaked, List.flatMap_singleton, List.nil_append, List.length_append,
    List.length_singleton] at hledger
  omega

/-- `2^61 + 1` elements of 8 bytes, for which 8 bytes are asked. -/
def overflowRun : List KallocOp :=
  [.new (PoolMemorySlice.new 0x2000000000000001) 8 0x1000]

theorem overflow_loses_clone : Guarded step Legal start overflowRun ∧
    ¬ Always step Conserved start overflowRun := by
  refine ⟨by decide, fun halways => ?_⟩
  apply newWithPoolType_loses pagedPool (n := 0x2000000000000000) _ _ _ _ _ halways.2
  all_goals decide

end WinKernl.Kalloc
