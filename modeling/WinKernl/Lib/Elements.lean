import WinKernl.Lib.ByteMem

/- Typed elements in byte-addressed memory.

   A place is an element of an array: a pointer and an index. `Slots` says which
   places hold a value, and of what size. Writing an element destroys every other
   one whose bytes it overlaps, so nothing is assumed about where arrays lie. What
   is proved is that arrays inside blocks that do not wrap and do not overlap keep
   out of each other's way, as do two elements of one array. Elements of size zero
   have a place but no bytes. -/
namespace Elements
open ByteMem

universe u

variable {w : Nat} {α : Type u}

structure Stored (α : Type u) where
  size : Nat
  val : α

abbrev Slots (w : Nat) (α : Type u) := BitVec w → Nat → Option (Stored α)

/-- The address of element `i` of an array at `p`. -/
def addr (p : BitVec w) (size i : Nat) : BitVec w := p + BitVec.ofNat w (i * size)

/-- The `n` bytes from `a` and the `m` bytes from `b` have one in common. -/
def Meets (a : BitVec w) (n : Nat) (b : BitVec w) (m : Nat) : Prop :=
  0 < n ∧ 0 < m ∧ (Within a n b ∨ Within b m a)

instance (a : BitVec w) (n : Nat) (b : BitVec w) (m : Nat) : Decidable (Meets a n b m) :=
  inferInstanceAs (Decidable (_ ∧ _ ∧ _))

/-- Destroy what overlaps the `n` bytes from `a`. -/
def clear (s : Slots w α) (a : BitVec w) (n : Nat) : Slots w α := fun q j =>
  (s q j).filter fun e => !decide (Meets a n (addr q e.size j) e.size)

def write (s : Slots w α) (p : BitVec w) (size i : Nat) (v : α) : Slots w α := fun q j =>
  if q = p ∧ j = i then some ⟨size, v⟩ else clear s (addr p size i) size q j

/-- `n` bytes from `a` that do not wrap. -/
def Fits (a : BitVec w) (n : Nat) : Prop := a.toNat + n ≤ 2^w

/-- Two runs of bytes, one behind the other. -/
def Apart (a : BitVec w) (n : Nat) (b : BitVec w) (m : Nat) : Prop :=
  a.toNat + n ≤ b.toNat ∨ b.toNat + m ≤ a.toNat

instance (a : BitVec w) (n : Nat) : Decidable (Fits a n) :=
  inferInstanceAs (Decidable (_ ≤ _))

instance (a : BitVec w) (n : Nat) (b : BitVec w) (m : Nat) : Decidable (Apart a n b m) :=
  inferInstanceAs (Decidable (_ ∨ _))

theorem Apart.not_meets {a b : BitVec w} {n m : Nat} (h : Apart a n b m) (ha : Fits a n)
    (hb : Fits b m) : ¬ Meets a n b m := by
  intro hmeets
  obtain ⟨hn, hm, hin⟩ := hmeets
  unfold Apart at h
  unfold Fits at ha hb
  unfold Within at hin
  have := sub_toNat_cases b a
  have := sub_toNat_cases a b
  have := a.isLt
  have := b.isLt
  omega

theorem Apart.mono {a b : BitVec w} {n n' m m' i j : Nat} {a' b' : BitVec w}
    (h : Apart a n b m) (ha : a'.toNat = a.toNat + i) (hi : i + n' ≤ n)
    (hb : b'.toNat = b.toNat + j) (hj : j + m' ≤ m) : Apart a' n' b' m' := by
  unfold Apart at *
  omega

/-- An element in its array. -/
theorem index_fits {len size n i : Nat} (hn : len * size ≤ n) (hi : i < len) :
    i * size + size ≤ n := by
  calc i * size + size = (i + 1) * size := (Nat.succ_mul i size).symm
    _ ≤ len * size := Nat.mul_le_mul_right size hi
    _ ≤ n := hn

theorem addr_toNat {p : BitVec w} {n size i : Nat} (hp : Fits p n) (hi : i * size + size ≤ n)
    (hs : 0 < size) : (addr p size i).toNat = p.toNat + i * size := by
  unfold Fits at hp
  rw [addr, BitVec.toNat_add, BitVec.toNat_ofNat, Nat.mod_eq_of_lt (by omega : i * size < 2^w),
    Nat.mod_eq_of_lt (by omega)]

/-! What a write leaves. -/

@[simp] theorem write_self (s : Slots w α) (p : BitVec w) (size i : Nat) (v : α) :
    write s p size i v p i = some ⟨size, v⟩ :=
  if_pos ⟨rfl, rfl⟩

theorem clear_eq {s : Slots w α} {a q : BitVec w} {n j : Nat}
    (h : ∀ e, s q j = some e → ¬ Meets a n (addr q e.size j) e.size) : clear s a n q j = s q j := by
  unfold clear
  cases he : s q j with
  | none => rfl
  | some e => simp [h e he]

theorem write_eq {s : Slots w α} {p q : BitVec w} {size i j : Nat} {v : α}
    (hne : ¬ (q = p ∧ j = i))
    (h : ∀ e, s q j = some e → ¬ Meets (addr p size i) size (addr q e.size j) e.size) :
    write s p size i v q j = s q j := by
  rw [write, if_neg hne, clear_eq h]

/-- An array of `len` elements inside a block of `n` bytes at `p`. -/
structure InBlock (p : BitVec w) (n len size : Nat) : Prop where
  fits : Fits p n
  inside : len * size ≤ n

/-- An element of an array does not meet a run of bytes apart from the block. -/
theorem InBlock.not_meets {p a : BitVec w} {n len size k i : Nat} (h : InBlock p n len size)
    (ha : Fits a k) (hapart : Apart a k p n) (hi : i < len) :
    ¬ Meets a k (addr p size i) size := by
  intro hmeets
  obtain ⟨hk, hs, hin⟩ := hmeets
  have hfit := index_fits h.inside hi
  have haddr := addr_toNat h.fits hfit hs
  have hapart' : Apart a k (addr p size i) size :=
    hapart.mono (by omega : a.toNat = a.toNat + 0) (by omega) haddr hfit
  have hfits : Fits (addr p size i) size := by
    have := h.fits
    unfold Fits at *
    omega
  exact hapart'.not_meets ha hfits ⟨hk, hs, hin⟩

/-- A write to one array leaves the elements of another. -/
theorem write_other {s : Slots w α} {p q : BitVec w} {n m len len' size size' i j : Nat} {v : α}
    (hp : InBlock p n len size) (hq : InBlock q m len' size') (hapart : Apart p n q m)
    (hne : q ≠ p) (hi : i < len) (hj : j < len') (hsize : ∀ e, s q j = some e → e.size = size') :
    write s p size i v q j = s q j := by
  apply write_eq (fun h => hne h.1)
  intro e he
  rw [hsize e he]
  by_cases hs : 0 < size
  · have hfit := index_fits hp.inside hi
    have haddr := addr_toNat hp.fits hfit hs
    have hfits : Fits (addr p size i) size := by
      have := hp.fits
      unfold Fits at *
      omega
    exact hq.not_meets hfits (hapart.mono haddr hfit (by omega : q.toNat = q.toNat + 0) (by omega))
      hj
  · exact fun h => hs h.1

/-- A write to one element of an array leaves the others. -/
theorem write_next {s : Slots w α} {p : BitVec w} {n len size i j : Nat} {v : α}
    (hp : InBlock p n len size) (hi : i < len) (hj : j < len) (hne : j ≠ i)
    (hsize : ∀ e, s p j = some e → e.size = size) : write s p size i v p j = s p j := by
  apply write_eq (fun h => hne h.2)
  intro e he
  rw [hsize e he]
  intro hmeets
  obtain ⟨hs, -, hin⟩ := hmeets
  have hfiti := index_fits hp.inside hi
  have hfitj := index_fits hp.inside hj
  have haddri := addr_toNat hp.fits hfiti hs
  have haddrj := addr_toNat hp.fits hfitj hs
  have hfits := hp.fits
  unfold Fits at hfits
  refine Apart.not_meets (a := addr p size i) (b := addr p size j) ?_ ?_ ?_ ⟨hs, hs, hin⟩
  · unfold Apart
    rcases Nat.lt_or_gt_of_ne hne with h | h
    · have := Nat.mul_le_mul_right size (Nat.succ_le_of_lt h)
      rw [Nat.succ_mul] at this
      omega
    · have := Nat.mul_le_mul_right size (Nat.succ_le_of_lt h)
      rw [Nat.succ_mul] at this
      omega
  · unfold Fits
    omega
  · unfold Fits
    omega

/-! Filling an array. -/

/-- `vals 0`, ..., `vals (n - 1)` written to the first elements in order. -/
def writeArray (s : Slots w α) (p : BitVec w) (size : Nat) (vals : Nat → α) (n : Nat) :
    Slots w α :=
  (List.range n).foldl (fun s i => write s p size i (vals i)) s

theorem writeArray_succ (s : Slots w α) (p : BitVec w) (size : Nat) (vals : Nat → α) (n : Nat) :
    writeArray s p size vals (n + 1) =
      write (writeArray s p size vals n) p size n (vals n) := by
  rw [writeArray, List.range_succ, List.foldl_append]
  rfl

theorem writeArray_self {s : Slots w α} {p : BitVec w} {n len size k i : Nat} {vals : Nat → α}
    (hp : InBlock p n len size) (hk : k ≤ len) (hi : i < k) :
    writeArray s p size vals k p i = some ⟨size, vals i⟩ := by
  induction k with
  | zero => omega
  | succ k ih =>
    rw [writeArray_succ]
    by_cases h : i = k
    · subst h
      exact write_self _ _ _ _ _
    · have hprev := ih (by omega) (by omega)
      rw [write_next hp (by omega) (by omega) h, hprev]
      intro e he
      rw [hprev] at he
      rw [← Option.some.inj he]

theorem writeArray_other {s : Slots w α} {p q : BitVec w} {n m len len' size size' k j : Nat}
    {vals : Nat → α} (hp : InBlock p n len size) (hq : InBlock q m len' size')
    (hapart : Apart p n q m) (hne : q ≠ p) (hk : k ≤ len) (hj : j < len')
    (hsize : ∀ e, s q j = some e → e.size = size') :
    writeArray s p size vals k q j = s q j := by
  induction k with
  | zero => rfl
  | succ k ih =>
    have hprev := ih (by omega)
    rw [writeArray_succ, write_other hp hq hapart hne (by omega) hj, hprev]
    intro e he
    exact hsize e (hprev.symm.trans he)

theorem write_meets {s : Slots w α} {p q : BitVec w} {size i j : Nat} {v : α}
    (hne : ¬ (q = p ∧ j = i))
    (h : ∀ e, s q j = some e → Meets (addr p size i) size (addr q e.size j) e.size) :
    write s p size i v q j = none := by
  rw [write, if_neg hne, clear]
  cases he : s q j with
  | none => rfl
  | some e => simp [h e he]

theorem writeArray_sized {s : Slots w α} {p : BitVec w} {size : Nat} {vals : Nat → α}
    (hs : ∀ j, s p j = none) (n j : Nat) {e : Stored α}
    (he : writeArray s p size vals n p j = some e) : e.size = size := by
  induction n with
  | zero =>
    rw [show writeArray s p size vals 0 p j = s p j from rfl, hs j] at he
    cases he
  | succ n ih =>
    rw [writeArray_succ, write] at he
    split at he
    · rw [← Option.some.inj he]
    · exact ih (Option.filter_eq_some_iff.mp he).1

/-- Where an element starts `2^w` bytes behind the first, it overwrites the first. -/
theorem writeArray_wraps {s : Slots w α} {p : BitVec w} {size n : Nat} {vals : Nat → α}
    (hs : ∀ j, s p j = none) (hsize : 0 < size) (hn : 0 < n) (hwrap : n * size % 2^w = 0) :
    writeArray s p size vals (n + 1) p 0 = none := by
  rw [writeArray_succ]
  apply write_meets (fun h => Nat.ne_of_lt hn h.2)
  intro e he
  rw [writeArray_sized hs n 0 he]
  have hfirst : addr p size 0 = p := by
    rw [addr, Nat.zero_mul, BitVec.add_zero]
  have hlast : addr p size n = p := by
    have hzero : BitVec.ofNat w (n * size) = 0#w := by
      apply BitVec.eq_of_toNat_eq
      rw [BitVec.toNat_ofNat, hwrap]
      rfl
    rw [addr, hzero, BitVec.add_zero]
  rw [hfirst, hlast]
  refine ⟨hsize, hsize, .inl ?_⟩
  rw [Within, BitVec.sub_self]
  exact hsize

end Elements
