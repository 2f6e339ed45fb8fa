import WinKernl.OwnedMemory
import Mathlib.Data.List.Nodup
import Mathlib.Data.List.Pairwise
import Mathlib.Data.List.Perm.Basic

/- What holds of the memory behind any number of owning wrappers.

   Two invariants carry the ledger of a run. `Blocks` keeps the blocks in use apart, so
   that filling a new one does not touch the elements of another. `Values` says that an
   owner of `T` has a value in every place and that a value in a `MaybeUninit` is in one
   place only, and is nobody's to drop. `Made` is what a constructor has to do for a new
   owner to join the others. -/
namespace WinKernl.Kalloc
open ByteMem Elements

def Block.bytes (b : Block) : Nat := b.req.bytes.toNat

/-- Two blocks in use at one time. -/
def Block.Apart (b b' : Block) : Prop :=
  b.base ≠ b'.base ∧ Elements.Apart b.base b.bytes b'.base b'.bytes

instance (b b' : Block) : Decidable (b.Apart b') := inferInstanceAs (Decidable (_ ∧ _))

/-- The block an owner was given, as its `Drop` will free it. -/
def Owner.Owns (o : Owner) (b : Block) : Prop :=
  b.base = o.ptr ∧
    match o.wrapper with
    | .poolMemory _ => b.isPool = true
    | .poolMemorySlice _ => b.isPool = true
    | .contiguousMemory m => b.req = .contiguous o.size m.mmCaching
    | .contiguousMemorySlice s => b.req = .contiguous (s.len * o.size) s.kind

/-! The parts of an operation. -/

namespace Heap

theorem writeClones_eq (p : BitVec 64) (size n : Nat) (h : Heap) : writeClones p size n h =
    { h with
      slots := writeArray h.slots p size (h.next + ·) n
      next := h.next + n
      entered := ((List.range n).map (h.next + ·)).reverse ++ h.entered } := by
  induction n with
  | zero => rfl
  | succ n ih =>
    have hstep : writeClones p size (n + 1) h = writeNew p size (writeClones p size n h) n := by
      rw [writeClones, List.range_succ, List.foldl_append]
      rfl
    rw [hstep, ih, writeArray_succ, List.range_succ, List.map_append, List.reverse_append]
    rfl

theorem dropInPlace_eq {p : BitVec 64} {h : Heap} {i : Nat} {e : Stored Nat}
    (he : h.slots p i = some e) : dropInPlace p h i =
    { h with
      slots := fun q j => if q = p ∧ j = i then none else h.slots q j
      dropped := e.val :: h.dropped } := by
  unfold dropInPlace
  rw [he]

/-- Dropping elements that are all there. -/
theorem dropElements_eq (p : BitVec 64) {n : Nat} {h : Heap}
    (hfull : ∀ i < n, (h.slots p i).isSome) : h.dropElements p n =
    { h with
      slots := fun q j => if q = p ∧ j < n then none else h.slots q j
      dropped := ((List.range n).filterMap (h.valAt p)).reverse ++ h.dropped } := by
  induction n with
  | zero => simp [dropElements]
  | succ n ih =>
    have hstep : h.dropElements p (n + 1) = dropInPlace p (h.dropElements p n) n := by
      rw [dropElements, List.range_succ, List.foldl_append]
      rfl
    obtain ⟨e, he⟩ := Option.isSome_iff_exists.mp (hfull n (Nat.lt_succ_self n))
    have hval : h.valAt p n = some e.val := congrArg (Option.map Stored.val) he
    have hslot : (if p = p ∧ n < n then none else h.slots p n) = some e := by
      rw [if_neg fun hn => Nat.lt_irrefl n hn.2, he]
    rw [hstep, ih fun i hi => hfull i (Nat.lt_succ_of_lt hi), dropInPlace_eq hslot]
    have hslots : (fun q j => if q = p ∧ j = n then none else
        if q = p ∧ j < n then none else h.slots q j) =
          fun q j => if q = p ∧ j < n + 1 then none else h.slots q j := by
      funext q j
      by_cases hq : q = p
      · rcases Nat.lt_trichotomy j n with hj | hj | hj
        · simp [hq, hj, Nat.lt_succ_of_lt hj]
        · simp [hq, hj]
        · have hlt : ¬ j < n := by omega
          have hlt' : ¬ j < n + 1 := by omega
          have hne : j ≠ n := by omega
          simp [hlt, hlt', hne]
      · simp [hq]
    simp only [hslots, List.range_succ, List.filterMap_append, List.filterMap_cons, hval,
      List.filterMap_nil, List.reverse_append, List.reverse_singleton, List.cons_append,
      List.nil_append]

end Heap

/-- An owner's `Drop` frees the block it was given. -/
theorem Owner.free_eq {o : Owner} {h : Heap} {b : Block} (hown : o.Owns b) (hb : b ∈ h.blocks)
    (huniq : ∀ b' ∈ h.blocks, b'.base = b.base → b' = b) : o.free h = h.release b := by
  have hpool {p : BitVec 64} (hp : b.base = p) (hkind : b.isPool = true) :
      h.freePool p = h.release b := by
    have hfound : (h.blocks.find? fun b' => b'.base == p && b'.isPool) = some b := by
      cases hf : h.blocks.find? fun b' => b'.base == p && b'.isPool with
      | none =>
        have := List.find?_eq_none.mp hf b hb
        simp [hp, hkind] at this
      | some b' =>
        have hprop := List.find?_some hf
        simp only [Bool.and_eq_true, beq_iff_eq] at hprop
        rw [huniq b' (List.mem_of_find?_eq_some hf) (hprop.1.trans hp.symm)]
    rw [Heap.freePool, hfound]
  have hcontiguous {p n : BitVec 64} {c : CachingType} (hp : b.base = p)
      (hreq : b.req = .contiguous n c) : h.freeContiguous p n c = h.release b := by
    obtain ⟨base, req⟩ := b
    obtain rfl : base = p := hp
    obtain rfl : req = .contiguous n c := hreq
    exact if_pos hb
  obtain ⟨w, size, uninit⟩ := o
  obtain ⟨hbase, hkind⟩ := hown
  cases w with
  | poolMemory m => exact hpool hbase hkind
  | poolMemorySlice s => exact hpool hbase hkind
  | contiguousMemory m => exact hcontiguous hbase hkind
  | contiguousMemorySlice s => exact hcontiguous hbase hkind

/-! The invariants. -/

/-- The blocks in use are apart, each is in the hands of one owner or leaked, and an owner
    has elements of its own size in it. -/
structure Blocks (h : Heap) (os : List Owner) : Prop where
  freed : h.obtained.Perm (h.freed ++ h.blocks)
  bases : (h.blocks.map Block.base).Perm (os.map Owner.ptr ++ h.leakedBlocks)
  apart : h.blocks.Pairwise Block.Apart
  fits : ∀ b ∈ h.blocks, Fits b.base b.bytes
  owned : ∀ o ∈ os, ∃ b ∈ h.blocks, o.Owns b ∧ o.len * o.size.toNat ≤ b.bytes
  sized : ∀ o ∈ os, ∀ i < o.len, ∀ e, h.slots o.ptr i = some e → e.size = o.size.toNat

/-- Owners of `T` have all their elements, a value in a `MaybeUninit` is in one place and
    not yet a `T`, and every value that is a `T` is accounted for. -/
structure Values (h : Heap) (os : List Owner) : Prop where
  full : ∀ o ∈ os, o.uninit = false → ∀ i < o.len, (h.slots o.ptr i).isSome
  fresh : ∀ v ∈ h.entered, v < h.next
  nodup : h.entered.Nodup
  values : h.entered.Perm (h.dropped ++ (h.leakedVals ++ os.flatMap (Owner.ownedVals h)))
  pending : ∀ o ∈ os, o.uninit = true → ∀ i < o.len, ∀ e, h.slots o.ptr i = some e →
    e.val < h.next ∧ e.val ∉ h.entered
  distinct : ∀ o ∈ os, o.uninit = true → ∀ o' ∈ os, o'.uninit = true → ∀ i < o.len,
    ∀ i' < o'.len, ∀ e e', h.slots o.ptr i = some e → h.slots o'.ptr i' = some e' →
    e.val = e'.val → o = o' ∧ i = i'

structure Inv (h : Heap) (os : List Owner) : Prop where
  intact : h.corrupt = false
  blocks : Blocks h os
  vals : Values h os

instance : Std.Symm Block.Apart := ⟨fun _ _ h => ⟨h.1.symm, h.2.symm⟩⟩

variable {h : Heap} {os : List Owner}

theorem Blocks.unique (hb : Blocks h os) {b b' : Block} (hm : b ∈ h.blocks) (hm' : b' ∈ h.blocks)
    (hbase : b'.base = b.base) : b' = b := by
  by_contra hne
  exact (hb.apart.forall hm' hm hne).1 hbase

/-- No two owners have the same pointer. -/
theorem Blocks.ptr_nodup (hb : Blocks h os) : (os.map Owner.ptr).Nodup := by
  have hbases : (h.blocks.map Block.base).Nodup :=
    List.pairwise_map.mpr (hb.apart.imp fun hab => hab.1)
  exact (List.nodup_append.mp ((hb.bases.nodup_iff).mp hbases)).1

/-- The array of an owner, in its block. -/
theorem Blocks.inBlock (hb : Blocks h os) {o : Owner} {b : Block} (hm : b ∈ h.blocks)
    (hown : o.Owns b) (hlen : o.len * o.size.toNat ≤ b.bytes) :
    InBlock o.ptr b.bytes o.len o.size.toNat := by
  refine ⟨?_, hlen⟩
  rw [← hown.1]
  exact hb.fits b hm

/-! What the values depend on. -/

/-- The places of the owners are as they were. -/
def Same (h h' : Heap) (os : List Owner) : Prop :=
  ∀ o ∈ os, ∀ i < o.len, h'.slots o.ptr i = h.slots o.ptr i

theorem elements_congr {h' : Heap} {o : Owner}
    (hs : ∀ i < o.len, h'.slots o.ptr i = h.slots o.ptr i) : o.elements h' = o.elements h := by
  apply List.filterMap_congr
  intro i hi
  rw [Heap.valAt, Heap.valAt, hs i (List.mem_range.mp hi)]

theorem Same.ownedVals {h' : Heap} (hs : Same h h' os) {o : Owner} (ho : o ∈ os) :
    o.ownedVals h' = o.ownedVals h := by
  unfold Owner.ownedVals
  rw [elements_congr (hs o ho)]

theorem Same.flatMap {h' : Heap} (hs : Same h h' os) :
    os.flatMap (Owner.ownedVals h') = os.flatMap (Owner.ownedVals h) :=
  List.flatMap_congr fun _ ho => hs.ownedVals ho

/-- Every pending value of the owners is in one place: what `Values.distinct` says. -/
def Distinct (h : Heap) (os : List Owner) : Prop :=
  ∀ o ∈ os, o.uninit = true → ∀ o' ∈ os, o'.uninit = true → ∀ i < o.len,
    ∀ i' < o'.len, ∀ e e', h.slots o.ptr i = some e → h.slots o'.ptr i' = some e' →
    e.val = e'.val → o = o' ∧ i = i'

theorem Distinct.congr {h' : Heap} (hd : Distinct h os) (hs : Same h h' os) : Distinct h' os := by
  intro o₁ ho₁ hu₁ o₂ ho₂ hu₂ i₁ hi₁ i₂ hi₂ e₁ e₂ he₁ he₂
  rw [hs o₁ ho₁ i₁ hi₁] at he₁
  rw [hs o₂ ho₂ i₂ hi₂] at he₂
  exact hd o₁ ho₁ hu₁ o₂ ho₂ hu₂ i₁ hi₁ i₂ hi₂ e₁ e₂ he₁ he₂

/-- An owner with no pending value joins. -/
theorem Distinct.cons {o : Owner} (hd : Distinct h os)
    (hnone : o.uninit = true → ∀ i < o.len, h.slots o.ptr i = none) : Distinct h (o :: os) := by
  intro o₁ ho₁ hu₁ o₂ ho₂ hu₂ i₁ hi₁ i₂ hi₂ e₁ e₂ he₁ he₂
  rcases List.mem_cons.mp ho₁ with rfl | ho₁
  · rw [hnone hu₁ i₁ hi₁] at he₁
    cases he₁
  rcases List.mem_cons.mp ho₂ with rfl | ho₂
  · rw [hnone hu₂ i₂ hi₂] at he₂
    cases he₂
  exact hd o₁ ho₁ hu₁ o₂ ho₂ hu₂ i₁ hi₁ i₂ hi₂ e₁ e₂ he₁ he₂

theorem Distinct.tail {o : Owner} (hd : Distinct h (o :: os)) : Distinct h os :=
  fun o₁ ho₁ hu₁ o₂ ho₂ =>
    hd o₁ (List.mem_cons_of_mem o ho₁) hu₁ o₂ (List.mem_cons_of_mem o ho₂)

/-- Invariants do not depend on the order of the owners. -/
theorem Inv.perm {os' : List Owner} (hi : Inv h os) (hp : os.Perm os') : Inv h os' where
  intact := hi.intact
  blocks :=
    { freed := hi.blocks.freed
      bases := hi.blocks.bases.trans ((hp.map _).append_right _)
      apart := hi.blocks.apart
      fits := hi.blocks.fits
      owned := fun o ho => hi.blocks.owned o (hp.mem_iff.mpr ho)
      sized := fun o ho => hi.blocks.sized o (hp.mem_iff.mpr ho) }
  vals :=
    { full := fun o ho => hi.vals.full o (hp.mem_iff.mpr ho)
      fresh := hi.vals.fresh
      nodup := hi.vals.nodup
      values := hi.vals.values.trans
        (((hp.flatMap_right _).append_left _).append_left _)
      pending := fun o ho => hi.vals.pending o (hp.mem_iff.mpr ho)
      distinct := fun o ho hu o' ho' =>
        hi.vals.distinct o (hp.mem_iff.mpr ho) hu o' (hp.mem_iff.mpr ho') }

/-! A new block and its elements. -/

/-- A block that can be handed out: it does not wrap, and it is apart from those in use. -/
structure Fresh (h : Heap) (b : Block) : Prop where
  apart : ∀ b' ∈ h.blocks, b.Apart b'
  fits : Fits b.base b.bytes

instance (h : Heap) (b : Block) : Decidable (Fresh h b) :=
  decidable_of_iff ((∀ b' ∈ h.blocks, b.Apart b') ∧ Fits b.base b.bytes)
    ⟨fun hf => ⟨hf.1, hf.2⟩, fun hf => ⟨hf.apart, hf.fits⟩⟩

/-- No element at `p`, and the places of the owners as in `h`. -/
structure Untouched (h : Heap) (os : List Owner) (p : BitVec 64) (s : Slots 64 Nat) : Prop where
  none : ∀ j, s p j = .none
  same : ∀ o ∈ os, ∀ i < o.len, s o.ptr i = h.slots o.ptr i

variable {b : Block} {s : Slots 64 Nat}

theorem Fresh.ne_ptr (hf : Fresh h b) (hb : Blocks h os) {o : Owner} (ho : o ∈ os) :
    o.ptr ≠ b.base := by
  obtain ⟨b', hm, hown, -⟩ := hb.owned o ho
  rw [← hown.1]
  exact (hf.apart b' hm).1.symm

theorem Fresh.untouched (hf : Fresh h b) (hb : Blocks h os) :
    Untouched h os b.base (h.addBlock b).slots where
  none := fun _ => if_pos rfl
  same := fun _ ho _ _ => if_neg (hf.ne_ptr hb ho)

theorem Untouched.clear (hu : Untouched h os b.base s) (hf : Fresh h b) (hb : Blocks h os)
    {k : Nat} (hk : k ≤ b.bytes) : Untouched h os b.base (Elements.clear s b.base k) where
  none := fun j => by rw [Elements.clear, hu.none j]; rfl
  same := by
    intro o ho i hlt
    obtain ⟨b', hm, hown, hlen⟩ := hb.owned o ho
    rw [clear_eq, hu.same o ho i hlt]
    intro e he
    rw [hu.same o ho i hlt] at he
    rw [hb.sized o ho i hlt e he]
    have hapart : Elements.Apart b.base k o.ptr b'.bytes := by
      have hbb := (hf.apart b' hm).2
      rw [hown.1] at hbb
      exact hbb.mono (i := 0) (j := 0) rfl (by omega) rfl (by omega)
    have hfits : Fits b.base k := by
      have := hf.fits
      unfold Fits at *
      omega
    exact (hb.inBlock hm hown hlen).not_meets hfits hapart hlt

theorem Untouched.writeArray_same (hu : Untouched h os b.base s) (hf : Fresh h b)
    (hb : Blocks h os)
    {len size : Nat} (hlen : len * size ≤ b.bytes) (vals : Nat → Nat) :
    ∀ o ∈ os, ∀ i < o.len, writeArray s b.base size vals len o.ptr i = h.slots o.ptr i := by
  intro o ho i hlt
  obtain ⟨b', hm, hown, hlen'⟩ := hb.owned o ho
  have hapart : Elements.Apart b.base b.bytes o.ptr b'.bytes := by
    rw [← hown.1]
    exact (hf.apart b' hm).2
  rw [writeArray_other ⟨hf.fits, hlen⟩ (hb.inBlock hm hown hlen') hapart
    (hf.ne_ptr hb ho) (Nat.le_refl len) hlt, hu.same o ho i hlt]
  intro e he
  rw [hu.same o ho i hlt] at he
  exact hb.sized o ho i hlt e he

/-- A constructor's work on a heap `h`: the block `b` obtained for `o` and filled, the values
    `vs` that became a `T`, and those of them, `ds`, that were dropped. -/
structure Made (h h' : Heap) (os : List Owner) (b : Block) (o : Owner) (vs ds : List Nat) :
    Prop where
  corrupt : h'.corrupt = h.corrupt
  blocks : h'.blocks = b :: h.blocks
  obtained : h'.obtained = b :: h.obtained
  freed : h'.freed = h.freed
  leakedBlocks : h'.leakedBlocks = h.leakedBlocks
  leakedVals : h'.leakedVals = h.leakedVals
  owns : o.Owns b
  inside : o.len * o.size.toNat ≤ b.bytes
  same : Same h h' os
  next : h.next ≤ h'.next
  entered : h'.entered = vs ++ h.entered
  dropped : h'.dropped = ds ++ h.dropped
  nodup : vs.Nodup
  new : ∀ v ∈ vs, h.next ≤ v ∧ v < h'.next
  account : vs.Perm (ds ++ o.ownedVals h')
  elements : ∀ i < o.len, if o.uninit then h'.slots o.ptr i = none
    else ∃ v, h'.slots o.ptr i = some ⟨o.size.toNat, v⟩

variable {h' : Heap} {o : Owner} {vs ds : List Nat}

theorem Made.blocks_inv (hm : Made h h' os b o vs ds) (hf : Fresh h b) (hb : Blocks h os) :
    Blocks h' (o :: os) where
  freed := by
    rw [hm.obtained, hm.freed, hm.blocks]
    exact (hb.freed.cons b).trans List.perm_middle.symm
  bases := by
    rw [hm.blocks, hm.leakedBlocks, List.map_cons, List.map_cons, hm.owns.1]
    exact hb.bases.cons _
  apart := by
    rw [hm.blocks]
    exact List.pairwise_cons.mpr ⟨hf.apart, hb.apart⟩
  fits := by
    rw [hm.blocks]
    exact List.forall_mem_cons.mpr ⟨hf.fits, hb.fits⟩
  owned := by
    rw [hm.blocks]
    intro o' ho'
    rcases List.mem_cons.mp ho' with rfl | ho'
    · exact ⟨b, List.mem_cons_self, hm.owns, hm.inside⟩
    · obtain ⟨b', hb', hown⟩ := hb.owned o' ho'
      exact ⟨b', List.mem_cons_of_mem _ hb', hown⟩
  sized := by
    refine List.forall_mem_cons.mpr ⟨?_, ?_⟩
    · intro i hi e he
      have hslot := hm.elements i hi
      rw [he] at hslot
      split at hslot
      · cases hslot
      · obtain ⟨v, hv⟩ := hslot
        rw [Option.some.inj hv]
    · intro o' ho' i hi e he
      rw [hm.same o' ho' i hi] at he
      exact hb.sized o' ho' i hi e he

theorem Made.vals_inv (hm : Made h h' os b o vs ds) (hv : Values h os) :
    Values h' (o :: os) := by
  -- The new owner has no pending value.
  have hempty : o.uninit = true → ∀ i < o.len, h'.slots o.ptr i = none := by
    intro hu i hi
    have := hm.elements i hi
    rwa [if_pos hu] at this
  have hinit : o.uninit = false → ∀ i < o.len, ∃ v, h'.slots o.ptr i = some ⟨o.size.toNat, v⟩ := by
    intro hu i hi
    have := hm.elements i hi
    rwa [if_neg (by rw [hu]; exact Bool.false_ne_true)] at this
  refine ⟨?_, ?_, ?_, ?_, ?_, ?_⟩
  · -- the owners of `T` are full
    refine List.forall_mem_cons.mpr ⟨?_, ?_⟩
    · intro hu i hi
      obtain ⟨v, hslot⟩ := hinit hu i hi
      rw [hslot]
      rfl
    · intro o' ho' hu i hi
      rw [hm.same o' ho' i hi]
      exact hv.full o' ho' hu i hi
  · -- values are older than the next
    rw [hm.entered]
    intro v hmem
    rcases List.mem_append.mp hmem with hmem | hmem
    · exact (hm.new v hmem).2
    · exact Nat.lt_of_lt_of_le (hv.fresh v hmem) hm.next
  · -- no value became a `T` twice
    rw [hm.entered]
    refine List.nodup_append.mpr ⟨hm.nodup, hv.nodup, ?_⟩
    intro v hnew _ hold heq
    subst heq
    exact Nat.not_le_of_lt (hv.fresh v hold) (hm.new v hnew).1
  · -- every value is accounted for
    rw [hm.entered, hm.dropped, hm.leakedVals, List.flatMap_cons, hm.same.flatMap]
    rw [List.perm_iff_count]
    intro v
    have haccount := hm.account.count_eq v
    have hvalues := hv.values.count_eq v
    simp only [List.count_append] at haccount hvalues ⊢
    omega
  · -- pending values are not a `T` yet
    refine List.forall_mem_cons.mpr ⟨?_, ?_⟩
    · intro hu i hi e he
      rw [hempty hu i hi] at he
      cases he
    · intro o' ho' hu i hi e he
      rw [hm.same o' ho' i hi] at he
      obtain ⟨hlt, hnot⟩ := hv.pending o' ho' hu i hi e he
      refine ⟨Nat.lt_of_lt_of_le hlt hm.next, ?_⟩
      rw [hm.entered]
      intro hmem
      rcases List.mem_append.mp hmem with hmem | hmem
      · exact Nat.not_le_of_lt hlt (hm.new _ hmem).1
      · exact hnot hmem
  · -- pending values are in one place
    exact (Distinct.congr hv.distinct hm.same).cons hempty

/-- A new owner joins the others. -/
theorem Made.inv (hm : Made h h' os b o vs ds) (hf : Fresh h b) (hi : Inv h os) :
    Inv h' (o :: os) :=
  ⟨hm.corrupt.trans hi.intact, hm.blocks_inv hf hi.blocks, hm.vals_inv hi.vals⟩

end WinKernl.Kalloc
