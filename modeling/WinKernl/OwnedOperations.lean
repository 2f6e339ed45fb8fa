import WinKernl.OwnedInvariant

/- The operations on owning wrappers keep the invariants.

   A constructor fills the block it was given (`made_uninit`, `made_filled`,
   `made_moved`), which needs the elements to lie in it (`Ctor.InRange`). The other
   operations take the owner they are about to the front of the list. -/
namespace WinKernl.Kalloc
open ByteMem Elements

variable {h h' : Heap} {os : List Owner} {b : Block} {s : Slots 64 Nat} {o : Owner}
  {vs ds : List Nat}

/-! The constructors. -/

/-- The bytes of the elements, without wrapping. -/
def Ctor.InRange (c : Ctor) (size : BitVec 64) : Prop := c.shape.len * size.toNat < 2^64

/-- The block that a constructor gets when its call for memory answers `p`. -/
def Ctor.block (c : Ctor) (size p : BitVec 64) : Block := ⟨p, c.request size⟩

variable {c : Ctor} {size p : BitVec 64}

theorem owner_len (u : Bool) : (c.owner size u p).len = c.shape.len := by
  obtain ⟨kind, shape, fill⟩ := c
  cases kind <;> cases shape <;> rfl

theorem owner_ptr (u : Bool) : (c.owner size u p).ptr = p := by
  obtain ⟨kind, shape, fill⟩ := c
  cases kind <;> cases shape <;> rfl

theorem owner_owns (u : Bool) : (c.owner size u p).Owns (c.block size p) := by
  obtain ⟨kind, shape, fill⟩ := c
  cases kind <;> cases shape <;> exact ⟨rfl, rfl⟩

theorem block_bytes : (c.block size p).bytes = (c.shape.bytes size).toNat := by
  obtain ⟨kind, shape, fill⟩ := c
  cases kind <;> rfl

/-- In range, the elements lie in the block. -/
theorem Ctor.InRange.inside (hr : c.InRange size) :
    c.shape.len * size.toNat ≤ (c.block size p).bytes := by
  rw [block_bytes]
  unfold InRange at hr
  cases hs : c.shape with
  | one => exact Nat.le_of_eq (Nat.one_mul _)
  | slice count =>
    rw [hs] at hr
    change count.toNat * size.toNat < 2^64 at hr
    change count.toNat * size.toNat ≤ (count * size).toNat
    rw [BitVec.toNat_mul, Nat.mod_eq_of_lt hr]

theorem allocate_some (hp : p ≠ 0) (hf : Fresh h (c.block size p)) (hb : Blocks h os) :
    ∃ s, c.allocate size p h = (some p, { h.addBlock (c.block size p) with slots := s }) ∧
      Untouched h os p s := by
  have hu := hf.untouched hb
  unfold Ctor.allocate Kind.allocate
  rw [if_neg hp]
  unfold Ctor.block Ctor.request at *
  cases hk : c.kind with
  | pool t => exact ⟨_, rfl, hu⟩
  | contiguous caching =>
    rw [hk] at hf hu
    exact ⟨_, rfl, hu.clear hf hb (Nat.le_refl _)⟩

theorem ownedVals_eq {o : Owner} (ho : o.uninit = false) (vals : Nat → Nat)
    (hs : ∀ i < o.len, h.slots o.ptr i = some ⟨o.size.toNat, vals i⟩) :
    o.ownedVals h = (List.range o.len).map vals := by
  have hval : ∀ i ∈ List.range o.len, h.valAt o.ptr i = (some ∘ vals) i := by
    intro i hi
    exact congrArg (Option.map Stored.val) (hs i (List.mem_range.mp hi))
  rw [Owner.ownedVals, ho, Owner.elements, List.filterMap_congr hval, List.filterMap_eq_map]
  rfl

/-- A block whose elements are left uninitialised. -/
theorem made_uninit (hr : c.InRange size) (hu : Untouched h os p s) :
    Made h { h.addBlock (c.block size p) with slots := s } os (c.block size p)
      (c.owner size true p) [] [] where
  corrupt := rfl
  blocks := rfl
  obtained := rfl
  freed := rfl
  leakedBlocks := rfl
  leakedVals := rfl
  owns := owner_owns true
  inside := by
    rw [owner_len]
    exact hr.inside
  same := hu.same
  next := Nat.le_refl _
  entered := rfl
  dropped := rfl
  nodup := List.nodup_nil
  new := fun v hv => absurd hv List.not_mem_nil
  account := List.Perm.refl _
  elements := by
    intro i hi
    rw [owner_ptr]
    exact hu.none i

/-- A block filled with new values, where `vs` became a `T` before and were dropped, and
    `k` values were minted. -/
theorem made_filled (hr : c.InRange size) (hf : Fresh h (c.block size p)) (hb : Blocks h os)
    (hu : Untouched h os p s) (vs : List Nat) (k : Nat) (hvs : vs.Nodup)
    (hnew : ∀ v ∈ vs, h.next ≤ v ∧ v < h.next + k) :
    Made h
      (writeClones p size.toNat c.shape.len
        { h.addBlock (c.block size p) with
          slots := s
          next := h.next + k
          entered := vs ++ h.entered
          dropped := vs ++ h.dropped })
      os (c.block size p) (c.owner size false p)
      (((List.range c.shape.len).map (h.next + k + ·)).reverse ++ vs) vs := by
  rw [Heap.writeClones_eq]
  have hin : InBlock p (c.block size p).bytes c.shape.len size.toNat := ⟨hf.fits, hr.inside⟩
  have hslots : ∀ i < (c.owner size false p).len,
      writeArray s p size.toNat (h.next + k + ·) c.shape.len (c.owner size false p).ptr i =
        some ⟨size.toNat, h.next + k + i⟩ := by
    rw [owner_ptr, owner_len]
    exact fun i hi => writeArray_self hin (Nat.le_refl _) hi
  have hclone : ∀ v ∈ ((List.range c.shape.len).map (h.next + k + ·)).reverse,
      h.next + k ≤ v ∧ v < h.next + k + c.shape.len := by
    intro v hv
    obtain ⟨i, hi, rfl⟩ := List.mem_map.mp (List.mem_reverse.mp hv)
    have := List.mem_range.mp hi
    omega
  refine ⟨rfl, rfl, rfl, rfl, rfl, rfl, owner_owns false, ?_, ?_, ?_, ?_, rfl, ?_, ?_, ?_, ?_⟩
  · -- the elements lie in the block
    rw [owner_len]
    exact hr.inside
  · -- the other owners keep their elements
    exact hu.writeArray_same hf hb hr.inside _
  · dsimp only
    omega
  · exact (List.append_assoc _ _ _).symm
  · -- clones are new, and not among `vs`
    refine List.nodup_append.mpr ⟨?_, hvs, ?_⟩
    · refine List.nodup_reverse.mpr (List.nodup_range.map ?_)
      intro i j hij
      exact Nat.add_left_cancel hij
    · intro v hv _ hold heq
      subst heq
      exact Nat.not_lt_of_le (hclone v hv).1 (hnew v hold).2
  · intro v hv
    dsimp only
    rcases List.mem_append.mp hv with hv | hv
    · have := hclone v hv
      omega
    · have := hnew v hv
      omega
  · -- `vs` were dropped, the clones are the elements
    rw [ownedVals_eq rfl (h.next + k + ·) hslots, owner_len]
    exact ((List.reverse_perm _).append_right _).trans List.perm_append_comm
  · exact fun i hi => ⟨_, hslots i hi⟩

/-- A single value moved into its block. -/
theorem made_moved (hshape : c.shape = .one) (hr : c.InRange size)
    (hf : Fresh h (c.block size p)) (hb : Blocks h os) (hu : Untouched h os p s) :
    Made h
      ({ h.birth.addBlock (c.block size p) with slots := s }.write p size.toNat 0 h.next)
      os (c.block size p) (c.owner size false p) [h.next] [] := by
  have hlen : c.shape.len = 1 := by rw [hshape]; rfl
  have hinside : 1 * size.toNat ≤ (c.block size p).bytes := by
    rw [← hlen]
    exact hr.inside
  have hslots : ∀ i < (c.owner size false p).len,
      writeArray s p size.toNat (fun _ => h.next) 1 (c.owner size false p).ptr i =
        some ⟨size.toNat, h.next⟩ := by
    rw [owner_ptr, owner_len, hlen]
    exact fun i hi => writeArray_self (n := (c.block size p).bytes) ⟨hf.fits, hinside⟩
      (Nat.le_refl _) hi
  refine ⟨rfl, rfl, rfl, rfl, rfl, rfl, owner_owns false, ?_, ?_, Nat.le_succ _, rfl, rfl,
    List.nodup_singleton _, ?_, ?_, ?_⟩
  · rw [owner_len]
    exact hr.inside
  · exact hu.writeArray_same hf hb hinside fun _ => h.next
  · intro v hv
    rw [List.mem_singleton.mp hv]
    exact ⟨Nat.le_refl _, Nat.lt_succ_self _⟩
  · rw [ownedVals_eq rfl (fun _ => h.next) hslots, owner_len, hlen]
    exact List.Perm.refl _
  · exact fun i hi => ⟨_, hslots i hi⟩

/-! The operations. -/

/-- A value that is dropped before anything holds it. -/
theorem Inv.drop_born (hi : Inv h os) : Inv (h.birth.dropVal h.next) os where
  intact := hi.intact
  blocks := ⟨hi.blocks.freed, hi.blocks.bases, hi.blocks.apart, hi.blocks.fits, hi.blocks.owned,
    hi.blocks.sized⟩
  vals :=
    { full := hi.vals.full
      fresh := List.forall_mem_cons.mpr
        ⟨Nat.lt_succ_self _, fun v hv => Nat.lt_succ_of_lt (hi.vals.fresh v hv)⟩
      nodup := List.nodup_cons.mpr ⟨fun hv => Nat.lt_irrefl _ (hi.vals.fresh _ hv), hi.vals.nodup⟩
      values := hi.vals.values.cons h.next
      pending := by
        intro o ho hu i hlt e he
        obtain ⟨hlt', hnot⟩ := hi.vals.pending o ho hu i hlt e he
        refine ⟨Nat.lt_succ_of_lt hlt', fun hmem => ?_⟩
        rcases List.mem_cons.mp hmem with heq | hmem
        · exact Nat.ne_of_lt hlt' heq
        · exact hnot hmem
      distinct := hi.vals.distinct }

theorem Blocks.owner_eq (hb : Blocks h os) {o o' : Owner} (ho : o ∈ os) (ho' : o' ∈ os)
    (hptr : o'.ptr = o.ptr) : o' = o :=
  List.inj_on_of_nodup_map hb.ptr_nodup ho' ho hptr

/-- A write to one element of an owner leaves every other place. -/
theorem Blocks.write_slot (hb : Blocks h os) {o o' : Owner} (ho : o ∈ os) (ho' : o' ∈ os)
    {i j : Nat} (hi : i < o.len) (hj : j < o'.len) (hne : ¬ (o' = o ∧ j = i)) (v : Nat) :
    Elements.write h.slots o.ptr o.size.toNat i v o'.ptr j = h.slots o'.ptr j := by
  obtain ⟨b, hm, hown, hlen⟩ := hb.owned o ho
  have hin := hb.inBlock hm hown hlen
  by_cases heq : o' = o
  · subst heq
    exact write_next hin hi hj (fun h => hne ⟨rfl, h⟩) (hb.sized o' ho' j hj)
  · obtain ⟨b', hm', hown', hlen'⟩ := hb.owned o' ho'
    have hptr : o'.ptr ≠ o.ptr := fun h => heq (hb.owner_eq ho ho' h)
    have hbne : b ≠ b' := by
      intro heq
      subst heq
      exact hptr (hown'.1.symm.trans hown.1)
    have hapart := (hb.apart.forall hm hm' hbne).2
    rw [hown.1, hown'.1] at hapart
    exact write_other hin (hb.inBlock hm' hown' hlen') hapart hptr hi hj (hb.sized o' ho' j hj)

/-- After an element is put in, a place holds the new value, or what it held. -/
theorem Blocks.writeElement_cases (hb : Blocks h os) {o o' : Owner} (ho : o ∈ os) (ho' : o' ∈ os)
    {i j : Nat} (hi : i < o.len) (hj : j < o'.len) {e : Stored Nat}
    (he : (o.writeElement h i).slots o'.ptr j = some e) :
    (o' = o ∧ j = i ∧ e = ⟨o.size.toNat, h.next⟩) ∨ h.slots o'.ptr j = some e := by
  have hself : (o.writeElement h i).slots o.ptr i = some ⟨o.size.toNat, h.next⟩ :=
    write_self _ _ _ _ _
  by_cases hplace : o' = o ∧ j = i
  · obtain ⟨rfl, rfl⟩ := hplace
    rw [hself] at he
    exact .inl ⟨rfl, rfl, (Option.some.inj he).symm⟩
  · exact .inr ((hb.write_slot ho ho' hi hj hplace h.next).symm.trans he)

/-- An element put in a `MaybeUninit` is no value of the owners of `T`. -/
theorem Blocks.writeElement_ownedVals (hb : Blocks h os) {o : Owner} (ho : o ∈ os)
    (hu : o.uninit = true) {i : Nat} (hi : i < o.len) :
    os.flatMap (Owner.ownedVals (o.writeElement h i)) = os.flatMap (Owner.ownedVals h) := by
  apply List.flatMap_congr
  intro o' ho'
  unfold Owner.ownedVals
  cases hu' : o'.uninit with
  | true => rfl
  | false =>
    have hne : o' ≠ o := by
      intro heq
      subst heq
      rw [hu] at hu'
      cases hu'
    exact elements_congr fun j hj => hb.write_slot ho ho' hi hj (fun h => hne h.1) h.next

/-- A new value put in a `MaybeUninit`. -/
theorem Inv.write (hi : Inv h os) {o : Owner} (ho : o ∈ os) (hu : o.uninit = true) {i : Nat}
    (hlt : i < o.len) : Inv (o.writeElement h i) os := by
  have hother : ∀ o' ∈ os, ∀ j < o'.len, ¬ (o' = o ∧ j = i) →
      (o.writeElement h i).slots o'.ptr j = h.slots o'.ptr j :=
    fun o' ho' j hj hne => hi.blocks.write_slot ho ho' hlt hj hne h.next
  refine ⟨hi.intact, ⟨hi.blocks.freed, hi.blocks.bases, hi.blocks.apart, hi.blocks.fits,
    hi.blocks.owned, ?_⟩, ⟨?_, ?_, hi.vals.nodup, ?_, ?_, ?_⟩⟩
  · -- the new element has the size of the others
    intro o' ho' j hj e he
    rcases hi.blocks.writeElement_cases ho ho' hlt hj he with ⟨rfl, rfl, rfl⟩ | he
    · rfl
    · exact hi.blocks.sized o' ho' j hj e he
  · -- an owner of `T` is another owner
    intro o' ho' hu' j hj
    rw [hother o' ho' j hj]
    · exact hi.vals.full o' ho' hu' j hj
    · intro hplace
      obtain ⟨rfl, -⟩ := hplace
      rw [hu] at hu'
      cases hu'
  · exact fun v hv => Nat.lt_succ_of_lt (hi.vals.fresh v hv)
  · -- no value is a `T` that was not
    rw [hi.blocks.writeElement_ownedVals ho hu hlt]
    exact hi.vals.values
  · -- the new value is no `T`
    intro o' ho' hu' j hj e he
    rcases hi.blocks.writeElement_cases ho ho' hlt hj he with ⟨rfl, rfl, rfl⟩ | he
    · exact ⟨Nat.lt_succ_self _, fun hv => Nat.lt_irrefl _ (hi.vals.fresh _ hv)⟩
    · obtain ⟨hlt', hnot⟩ := hi.vals.pending o' ho' hu' j hj e he
      exact ⟨Nat.lt_succ_of_lt hlt', hnot⟩
  · -- the new value is in one place
    intro o₁ ho₁ hu₁ o₂ ho₂ hu₂ i₁ hi₁ i₂ hi₂ e₁ e₂ he₁ he₂ hval
    rcases hi.blocks.writeElement_cases ho ho₁ hlt hi₁ he₁ with ⟨rfl, rfl, rfl⟩ | hold₁ <;>
      rcases hi.blocks.writeElement_cases ho ho₂ hlt hi₂ he₂ with ⟨rfl, rfl, rfl⟩ | hold₂
    · exact ⟨rfl, rfl⟩
    · exact absurd hval.symm (Nat.ne_of_lt (hi.vals.pending o₂ ho₂ hu₂ i₂ hi₂ e₂ hold₂).1)
    · exact absurd hval (Nat.ne_of_lt (hi.vals.pending o₁ ho₁ hu₁ i₁ hi₁ e₁ hold₁).1)
    · exact hi.vals.distinct o₁ ho₁ hu₁ o₂ ho₂ hu₂ i₁ hi₁ i₂ hi₂ e₁ e₂ hold₁ hold₂ hval

theorem mem_elements {o : Owner} {v : Nat} :
    v ∈ o.elements h ↔ ∃ i < o.len, ∃ e, h.slots o.ptr i = some e ∧ e.val = v := by
  simp [Owner.elements, Heap.valAt]

/-- The pending values of one owner are different values. -/
theorem Values.elements_nodup (hv : Values h os) {o : Owner} (ho : o ∈ os) (hu : o.uninit = true) :
    (o.elements h).Nodup := by
  rw [Owner.elements, List.Nodup, List.pairwise_filterMap]
  refine List.nodup_range.imp_of_mem fun {i j} hi hj hne => ?_
  intro _ hi' _ hj' heq
  subst heq
  obtain ⟨e, he, hval⟩ := Option.map_eq_some_iff.mp hi'
  obtain ⟨e', he', hval'⟩ := Option.map_eq_some_iff.mp hj'
  exact hne (hv.distinct o ho hu o ho hu i (List.mem_range.mp hi) j (List.mem_range.mp hj) e e' he
    he' (hval.trans hval'.symm)).2

/-- The values of a `MaybeUninit` wrapper become values of type `T`. -/
theorem Inv.assumeInit {o : Owner} (hi : Inv h (o :: os)) (hu : o.uninit = true)
    (hfull : ∀ i < o.len, (h.slots o.ptr i).isSome) :
    Inv (h.enter (o.elements h)) (o.assumeInit :: os) := by
  have hmem : o ∈ o :: os := List.mem_cons_self
  have hsub : ∀ o' ∈ os, o' ∈ o :: os := fun _ => List.mem_cons_of_mem o
  have hne : ∀ o' ∈ os, o' ≠ o := by
    intro _ ho' heq
    subst heq
    exact (List.nodup_cons.mp hi.blocks.ptr_nodup).1 (List.mem_map_of_mem ho')
  refine ⟨hi.intact, ⟨hi.blocks.freed, hi.blocks.bases, hi.blocks.apart, hi.blocks.fits, ?_, ?_⟩,
    ⟨?_, ?_, ?_, ?_, ?_, ?_⟩⟩
  · exact List.forall_mem_cons.mpr
      ⟨hi.blocks.owned o hmem, fun o' ho' => hi.blocks.owned o' (hsub o' ho')⟩
  · exact List.forall_mem_cons.mpr
      ⟨hi.blocks.sized o hmem, fun o' ho' => hi.blocks.sized o' (hsub o' ho')⟩
  · -- the owner is full by assumption
    exact List.forall_mem_cons.mpr
      ⟨fun _ => hfull, fun o' ho' => hi.vals.full o' (hsub o' ho')⟩
  · -- pending values are older than the next
    intro v hv
    rcases List.mem_append.mp hv with hv | hv
    · obtain ⟨i, hlt, e, he, rfl⟩ := mem_elements.mp hv
      exact (hi.vals.pending o hmem hu i hlt e he).1
    · exact hi.vals.fresh v hv
  · -- pending values were no `T` before
    refine List.nodup_append.mpr ⟨hi.vals.elements_nodup hmem hu, hi.vals.nodup, ?_⟩
    intro v hv _ hold heq
    subst heq
    obtain ⟨i, hlt, e, he, rfl⟩ := mem_elements.mp hv
    exact (hi.vals.pending o hmem hu i hlt e he).2 hold
  · -- what was pending is now owned
    have hvalues := hi.vals.values
    rw [List.flatMap_cons, Owner.ownedVals, if_pos hu, List.nil_append] at hvalues
    change (o.elements h ++ h.entered).Perm (h.dropped ++ (h.leakedVals ++
      (o.elements h ++ os.flatMap (Owner.ownedVals h))))
    rw [List.perm_iff_count]
    intro v
    have hcount := hvalues.count_eq v
    simp only [List.count_append] at hcount ⊢
    omega
  · -- pending values of the others are in other places
    refine List.forall_mem_cons.mpr ⟨fun h => (by cases h), ?_⟩
    intro o' ho' hu' i hlt e he
    obtain ⟨hlt', hnot⟩ := hi.vals.pending o' (hsub o' ho') hu' i hlt e he
    refine ⟨hlt', fun hv => ?_⟩
    rcases List.mem_append.mp hv with hv | hv
    · obtain ⟨j, hj, e', he', hval⟩ := mem_elements.mp hv
      exact hne o' ho' (hi.vals.distinct o' (hsub o' ho') hu' o hmem hu i hlt j hj e e' he he'
        hval.symm).1
    · exact hnot hv
  · exact (Distinct.tail hi.vals.distinct).cons fun hinit => (by cases hinit)

/-- What is known of the owners behind the first. -/
theorem Values.tail {o : Owner} (hv : Values h (o :: os)) {h' : Heap} (hs : Same h h' os)
    (hnext : h'.next = h.next) (hent : h'.entered = h.entered)
    (hvals : h.entered.Perm (h'.dropped ++ (h'.leakedVals ++ os.flatMap (Owner.ownedVals h)))) :
    Values h' os := by
  have hsub : ∀ o' ∈ os, o' ∈ o :: os := fun _ => List.mem_cons_of_mem o
  refine ⟨?_, ?_, ?_, ?_, ?_, ?_⟩
  · intro o' ho' hu' i hlt
    rw [hs o' ho' i hlt]
    exact hv.full o' (hsub o' ho') hu' i hlt
  · rw [hent, hnext]
    exact hv.fresh
  · rw [hent]
    exact hv.nodup
  · rw [hent, hs.flatMap]
    exact hvals
  · intro o' ho' hu' i hlt e he
    rw [hs o' ho' i hlt] at he
    rw [hnext, hent]
    exact hv.pending o' (hsub o' ho') hu' i hlt e he
  · exact (Distinct.tail hv.distinct).congr hs

theorem Inv.leak {o : Owner} (hi : Inv h (o :: os)) : Inv (o.leak h) os := by
  have hsub : ∀ o' ∈ os, o' ∈ o :: os := fun _ => List.mem_cons_of_mem o
  refine ⟨hi.intact, ⟨hi.blocks.freed, ?_, hi.blocks.apart, hi.blocks.fits,
    fun o' ho' => hi.blocks.owned o' (hsub o' ho'), fun o' ho' => hi.blocks.sized o' (hsub o' ho')⟩,
    hi.vals.tail (fun _ _ _ _ => rfl) rfl rfl ?_⟩
  · exact hi.blocks.bases.trans List.perm_middle.symm
  · have hvalues := hi.vals.values
    change h.entered.Perm (h.dropped ++ ((o.ownedVals h ++ h.leakedVals) ++
      os.flatMap (Owner.ownedVals h)))
    rw [List.perm_iff_count]
    intro v
    have hcount := hvalues.count_eq v
    simp only [List.flatMap_cons, List.count_append] at hcount ⊢
    omega

/-- The first part of `Drop`: the elements of type `T` are dropped, nothing else changes. -/
theorem drop_elements {o : Owner} (hi : Inv h (o :: os)) :
    ∃ s ds, (if o.uninit then h else h.dropElements o.ptr o.len) =
        { h with slots := s, dropped := ds ++ h.dropped } ∧
      ds.Perm (o.ownedVals h) ∧ ∀ o' ∈ os, ∀ i < o'.len, s o'.ptr i = h.slots o'.ptr i := by
  cases hu : o.uninit with
  | true =>
    refine ⟨h.slots, [], rfl, ?_, fun _ _ _ _ => rfl⟩
    rw [Owner.ownedVals, if_pos hu]
  | false =>
    refine ⟨_, _, Heap.dropElements_eq o.ptr (hi.vals.full o List.mem_cons_self hu), ?_, ?_⟩
    · rw [Owner.ownedVals, hu]
      exact List.reverse_perm _
    · intro o' ho' i _
      have hptr : o'.ptr ≠ o.ptr := fun heq =>
        (List.nodup_cons.mp hi.blocks.ptr_nodup).1 (heq ▸ List.mem_map_of_mem ho')
      exact if_neg fun hq => hptr hq.1

/-- The other part: the block of the owner is freed. -/
theorem Blocks.release {o : Owner} (hb : Blocks h (o :: os)) {b : Block} (hm : b ∈ h.blocks)
    (hown : o.Owns b) : Blocks (h.release b) os where
  freed := by
    have hback : (h.freed ++ h.blocks).Perm (h.freed ++ b :: h.blocks.erase b) :=
      (List.perm_cons_erase hm).append_left _
    exact (hb.freed.trans hback).trans List.perm_middle
  bases := by
    have hsplit : (h.blocks.map Block.base).Perm (o.ptr :: (h.blocks.erase b).map Block.base) := by
      rw [← hown.1]
      exact (List.perm_cons_erase hm).map Block.base
    exact (hsplit.symm.trans hb.bases).cons_inv
  apart := hb.apart.sublist List.erase_sublist
  fits := fun b' hb' => hb.fits b' (List.mem_of_mem_erase hb')
  owned := by
    intro o' ho'
    obtain ⟨b', hm', hown', hlen'⟩ := hb.owned o' (List.mem_cons_of_mem o ho')
    refine ⟨b', ?_, hown', hlen'⟩
    apply (List.mem_erase_of_ne ?_).mpr hm'
    intro heq
    subst heq
    have hptr : o'.ptr = o.ptr := hown'.1.symm.trans hown.1
    exact (List.nodup_cons.mp hb.ptr_nodup).1 (hptr ▸ List.mem_map_of_mem ho')
  sized := fun o' ho' => hb.sized o' (List.mem_cons_of_mem o ho')

theorem Inv.drop {o : Owner} (hi : Inv h (o :: os)) : Inv (o.drop h) os := by
  obtain ⟨b, hm, hown, -⟩ := hi.blocks.owned o List.mem_cons_self
  obtain ⟨s, ds, hdrop, hds, hslots⟩ := drop_elements hi
  have hfree : o.drop h = { h with slots := s, dropped := ds ++ h.dropped }.release b := by
    rw [Owner.drop, hdrop]
    exact Owner.free_eq hown hm fun _ hm' hbase => hi.blocks.unique hm hm' hbase
  have hblocks := hi.blocks.release hm hown
  rw [hfree]
  refine ⟨hi.intact, ⟨hblocks.freed, hblocks.bases, hblocks.apart, hblocks.fits, hblocks.owned, ?_⟩,
    hi.vals.tail hslots rfl rfl ?_⟩
  · intro o' ho' i hlt e he
    change s o'.ptr i = some e at he
    rw [hslots o' ho' i hlt] at he
    exact hblocks.sized o' ho' i hlt e he
  · change h.entered.Perm ((ds ++ h.dropped) ++ (h.leakedVals ++
      os.flatMap (Owner.ownedVals h)))
    rw [List.perm_iff_count]
    intro v
    have hcount := hi.vals.values.count_eq v
    have hdropped := hds.count_eq v
    simp only [List.flatMap_cons, List.count_append] at hcount ⊢
    omega

/-! A constructor, from call to return. -/

/-- The heap and the owners after a constructor: a new owner with its block, or no block. -/
structure Constructs (h : Heap) (os : List Owner) (r : Option Owner × Heap) : Prop where
  inv : Inv r.2 (r.1.toList ++ os)
  none : r.1 = .none → r.2.blocks = h.blocks

theorem newUninit_some (hp : p ≠ 0) (hr : c.InRange size) (hf : Fresh h (c.block size p))
    (hb : Blocks h os) : ∃ s, c.newUninit size p h =
        (some (c.owner size true p), { h.addBlock (c.block size p) with slots := s }) ∧
      Untouched h os p s := by
  obtain ⟨s, halloc, hu⟩ := allocate_some hp hf hb
  have hclear := hu.clear hf hb hr.inside
  unfold Ctor.newUninit
  rw [halloc]
  dsimp only
  split
  · exact ⟨s, rfl, hu⟩
  · exact ⟨_, rfl, hclear⟩

theorem constructs_uninit (hi : Inv h os) (hr : p ≠ 0 → c.InRange size)
    (hf : p ≠ 0 → Fresh h (c.block size p)) : Constructs h os (c.newUninit size p h) := by
  by_cases hp : p = 0
  · subst hp
    exact ⟨hi, fun _ => rfl⟩
  · obtain ⟨s, hrun, hu⟩ := newUninit_some hp (hr hp) (hf hp) hi.blocks
    rw [hrun]
    exact ⟨(made_uninit (hr hp) hu).inv (hf hp) hi, fun h => by cases h⟩

theorem constructs_zeroed (hi : Inv h os) (hr : p ≠ 0 → c.InRange size)
    (hf : p ≠ 0 → Fresh h (c.block size p)) : Constructs h os (c.newZeroed size p h) := by
  by_cases hp : p = 0
  · subst hp
    exact ⟨hi, fun _ => rfl⟩
  · obtain ⟨s, halloc, hu⟩ := allocate_some hp (hf hp) hi.blocks
    have hclear := hu.clear (hf hp) hi.blocks (hr hp).inside
    unfold Ctor.newZeroed
    rw [halloc]
    have hmade := made_filled (hr hp) (hf hp) hi.blocks hclear [] 0 List.nodup_nil
      fun v hv => absurd hv List.not_mem_nil
    exact ⟨hmade.inv (hf hp) hi, fun h => by cases h⟩

theorem constructs_value (hi : Inv h os) (hr : p ≠ 0 → c.InRange size)
    (hf : p ≠ 0 → Fresh h (c.block size p)) :
    Constructs h os (c.newValue size p h.birth h.next) := by
  by_cases hp : p = 0
  · subst hp
    exact ⟨hi.drop_born, fun _ => rfl⟩
  · have hb : Blocks h.birth os := ⟨hi.blocks.freed, hi.blocks.bases, hi.blocks.apart,
      hi.blocks.fits, hi.blocks.owned, hi.blocks.sized⟩
    obtain ⟨s, halloc, hu⟩ := allocate_some (h := h.birth) hp ⟨(hf hp).apart, (hf hp).fits⟩ hb
    have hu' : Untouched h os p s := ⟨hu.none, hu.same⟩
    unfold Ctor.newValue
    rw [halloc]
    dsimp only
    cases hs : c.shape with
    | one =>
      exact ⟨(made_moved hs (hr hp) (hf hp) hi.blocks hu').inv (hf hp) hi, fun h => by cases h⟩
    | slice count =>
      have hmade := made_filled (hr hp) (hf hp) hi.blocks hu' [h.next] 1
        (List.nodup_singleton _) (List.forall_mem_singleton.mpr ⟨Nat.le_refl _, Nat.lt_succ_self _⟩)
      rw [Heap.writeClones_eq, hs] at hmade
      dsimp only
      rw [Heap.writeClones_eq]
      exact ⟨hmade.inv (hf hp) hi, fun h => by cases h⟩

/-- The writes of an initializer. -/
theorem Inv.writes {o : Owner} (ho : o ∈ os) (hu : o.uninit = true) (ws : List Nat) {h : Heap}
    (hi : Inv h os) (hws : ∀ i ∈ ws, i < o.len) : Inv (ws.foldl o.writeElement h) os ∧
      (∀ i < o.len, i ∈ ws ∨ (h.slots o.ptr i).isSome →
        ((ws.foldl o.writeElement h).slots o.ptr i).isSome) ∧
      (ws.foldl o.writeElement h).blocks = h.blocks := by
  induction ws generalizing h with
  | nil => exact ⟨hi, fun i _ h => h.resolve_left List.not_mem_nil, rfl⟩
  | cons j ws ih =>
    have hj : j < o.len := hws j List.mem_cons_self
    obtain ⟨hinv, hfull, hblocks⟩ := ih (hi.write ho hu hj) fun i hm =>
      hws i (List.mem_cons_of_mem j hm)
    refine ⟨hinv, fun i hlt hsome => hfull i hlt ?_, hblocks⟩
    by_cases hij : i = j
    · subst hij
      refine .inr ?_
      rw [show (o.writeElement h i).slots o.ptr i = _ from write_self _ _ _ _ _]
      rfl
    · rcases hsome with hm | hsome
      · exact .inl ((List.mem_cons.mp hm).resolve_left hij)
      · refine .inr ?_
        rw [show (o.writeElement h j).slots o.ptr i = _ from
          hi.blocks.write_slot ho ho hj hlt (fun h => hij h.2) h.next]
        exact hsome

/-- An initializer writes elements of the array, and all of them. -/
def Ctor.Covers (c : Ctor) : Prop :=
  match c.fill with
  | .initializer writes => (∀ i ∈ writes, i < c.shape.len) ∧ ∀ i < c.shape.len, i ∈ writes
  | _ => True

instance : (c : Ctor) → Decidable c.Covers
  | ⟨_, _, .initializer _⟩ => inferInstanceAs (Decidable (_ ∧ _))
  | ⟨_, _, .value⟩ => .isTrue trivial
  | ⟨_, _, .uninit⟩ => .isTrue trivial
  | ⟨_, _, .zeroed⟩ => .isTrue trivial

theorem constructs_initializer (hi : Inv h os) (hr : p ≠ 0 → c.InRange size)
    (hf : p ≠ 0 → Fresh h (c.block size p)) {ws : List Nat} (hws : ∀ i ∈ ws, i < c.shape.len)
    (hall : ∀ i < c.shape.len, i ∈ ws) :
    Constructs h os (c.newWithInitializer size p h ws) := by
  by_cases hp : p = 0
  · subst hp
    exact ⟨hi, fun _ => rfl⟩
  · obtain ⟨s, hrun, hu⟩ := newUninit_some hp (hr hp) (hf hp) hi.blocks
    have hnew := (made_uninit (hr hp) hu).inv (hf hp) hi
    rw [← owner_len (p := p) true] at hws hall
    obtain ⟨hinv, hfull, -⟩ := Inv.writes List.mem_cons_self rfl ws hnew hws
    unfold Ctor.newWithInitializer
    rw [hrun]
    exact ⟨hinv.assumeInit rfl fun i hlt => hfull i hlt (.inl (hall i hlt)), fun h => by cases h⟩

theorem constructs_run (hi : Inv h os) (hr : p ≠ 0 → c.InRange size)
    (hf : p ≠ 0 → Fresh h (c.block size p)) (hc : c.Covers) :
    Constructs h os (c.run size p h) := by
  unfold Ctor.run
  unfold Ctor.Covers at hc
  cases hfill : c.fill with
  | value => exact constructs_value hi hr hf
  | uninit => exact constructs_uninit hi hr hf
  | zeroed => exact constructs_zeroed hi hr hf
  | initializer ws =>
    rw [hfill] at hc
    exact constructs_initializer hi hr hf hc.1 hc.2

end WinKernl.Kalloc
