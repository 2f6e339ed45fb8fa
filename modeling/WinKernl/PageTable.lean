import WinKernl.Lib.ByteMem
import Mathlib.Tactic.IntervalCases

/- The address and page-table types of the `x86_64` crate (0.15.4), as far as the
   page walker uses them.

   A physical address has 52 bits and a virtual address is canonical; both carry
   that as a field. `PhysAddr::new` and `PhysAddr + u64` panic when the result has
   a bit above 51 set, so both return `none` there. `join k e v` is the physical
   address the hardware forms from a frame and an offset: bits 51..k of `e` over
   bits k-1..0 of `v`. The lemmas say when the crate's masked addition is that
   address. -/
namespace WinKernl

/-- `PhysAddr`: a 64-bit integer whose bits 52 to 63 are clear. -/
@[ext] structure PhysAddr where
  val : BitVec 64
  valid : val.toNat < 2^52
  deriving DecidableEq

/-- `VirtAddr`: bits 48 to 63 repeat bit 47. -/
@[ext] structure VirtAddr where
  val : BitVec 64
  canonical : (val.setWidth 48).signExtend 64 = val
  deriving DecidableEq

/-- `PhysAddr::new`. -/
def PhysAddr.new (v : BitVec 64) : Option PhysAddr :=
  if h : v.toNat < 2^52 then some ⟨v, h⟩ else none

/-- `impl Add<u64> for PhysAddr`. -/
def PhysAddr.add (p : PhysAddr) (n : BitVec 64) : Option PhysAddr :=
  if p.val.toNat + n.toNat < 2^64 then PhysAddr.new (p.val + n) else none

/-- 4 KiB alignment. -/
def PhysAddr.Aligned (p : PhysAddr) : Prop := p.val.toNat % 4096 = 0

instance (p : PhysAddr) : Decidable p.Aligned := inferInstanceAs (Decidable (_ = _))

@[ext] structure PageTableEntry where
  entry : BitVec 64
  deriving DecidableEq, Repr

/-! `PageTableFlags`: the bits outside the frame field. -/

abbrev PageTableFlags := BitVec 64

def PageTableFlags.PRESENT : PageTableFlags := 1#64
def PageTableFlags.HUGE_PAGE : PageTableFlags := 0x80#64
def PageTableFlags.contains (f g : PageTableFlags) : Bool := f &&& g == g

/-- `PageTableEntry::flags`. -/
def PageTableEntry.flags (e : PageTableEntry) : PageTableFlags := e.entry &&& 0xfff0000000000fff#64

theorem frame_mask (x : BitVec 64) :
    (x &&& 0x000ffffffffff000#64).toNat = x.toNat / 2^12 % 2^40 * 2^12 := by
  have h : x &&& 0x000ffffffffff000#64 = (x.extractLsb' 12 40).setWidth 64 <<< 12 := by
    apply BitVec.eq_of_getLsbD_eq
    intro i hi
    have hm : (0x000ffffffffff000#64).getLsbD i = (decide (12 ≤ i) && decide (i < 52)) := by
      interval_cases i <;> rfl
    rw [BitVec.getLsbD_and, hm, BitVec.getLsbD_shiftLeft, BitVec.getLsbD_setWidth,
      BitVec.getLsbD_extractLsb']
    by_cases h1 : i < 12
    · simp [h1]
    · rw [show 12 + (i - 12) = i by omega]
      simp only [hi, h1, show i - 12 < 64 by omega, decide_true, decide_false, Bool.true_and,
        Bool.not_false, show decide (12 ≤ i) = true by simp; omega]
      rw [Bool.and_comm]
      congr 1
      rw [decide_eq_decide]
      omega
  rw [h, BitVec.toNat_shiftLeft, BitVec.toNat_setWidth, BitVec.extractLsb'_toNat,
    Nat.shiftRight_eq_div_pow, Nat.shiftLeft_eq]
  omega

/-- `PageTableEntry::addr`: the entry masked to bits 51..12. -/
def PageTableEntry.addr (e : PageTableEntry) : PhysAddr :=
  ⟨e.entry &&& 0x000ffffffffff000#64, by rw [frame_mask]; omega⟩

/-! `VirtAddr::pN_index`: nine bits of the address for each level. -/

def VirtAddr.p4Index (va : VirtAddr) : BitVec 9 := (va.val >>> 39).setWidth 9
def VirtAddr.p3Index (va : VirtAddr) : BitVec 9 := (va.val >>> 30).setWidth 9
def VirtAddr.p2Index (va : VirtAddr) : BitVec 9 := (va.val >>> 21).setWidth 9
def VirtAddr.p1Index (va : VirtAddr) : BitVec 9 := (va.val >>> 12).setWidth 9

/-! Flags as bits. -/

/-- Bit 0. -/
def PageTableEntry.present (e : PageTableEntry) : Bool := e.entry.getLsbD 0

/-- Bit 7: at a PDPTE or a PDE, the entry maps a page. -/
def PageTableEntry.huge (e : PageTableEntry) : Bool := e.entry.getLsbD 7

/-- Bit 12: at an entry that maps a huge page, an attribute (PAT) and no frame bit. -/
def PageTableEntry.pat (e : PageTableEntry) : Bool := e.entry.getLsbD 12

theorem contains_twoPow (f : PageTableFlags) {i : Nat} (hi : i < 64) :
    f.contains (BitVec.twoPow 64 i) = f.getLsbD i := by
  have hne : (0#64 == BitVec.twoPow 64 i) = false := by
    rw [beq_eq_false_iff_ne]
    intro h
    have := congrArg (fun x => BitVec.getLsbD x i) h
    simp [hi] at this
  rw [PageTableFlags.contains, BitVec.and_twoPow]
  cases f.getLsbD i
  · simpa using hne
  · simp

theorem contains_present (e : PageTableEntry) :
    e.flags.contains PageTableFlags.PRESENT = e.present := by
  rw [show PageTableFlags.PRESENT = BitVec.twoPow 64 0 from rfl, contains_twoPow _ (by omega),
    PageTableEntry.flags, BitVec.getLsbD_and]
  exact Bool.and_true _

theorem contains_huge (e : PageTableEntry) :
    e.flags.contains PageTableFlags.HUGE_PAGE = e.huge := by
  rw [show PageTableFlags.HUGE_PAGE = BitVec.twoPow 64 7 from rfl, contains_twoPow _ (by omega),
    PageTableEntry.flags, BitVec.getLsbD_and]
  exact Bool.and_true _

/-! Addresses as a frame and an offset. -/

theorem join_lt {k : Nat} (hk : k ≤ 52) (e v : BitVec 64) :
    ((e.extractLsb' k (52 - k) ++ v.extractLsb' 0 k).setWidth 64).toNat < 2^52 := by
  have h : (e.extractLsb' k (52 - k) ++ v.extractLsb' 0 k).toNat < 2^52 :=
    Nat.lt_of_lt_of_eq (BitVec.isLt _) (congrArg (2^·) (Nat.sub_add_cancel hk))
  rw [BitVec.toNat_setWidth]
  exact Nat.lt_of_le_of_lt (Nat.mod_le _ _) h

/-- Bits 51..k of `e` joined with bits k-1..0 of `v`. -/
def PhysAddr.join (k : Nat) (hk : k ≤ 52) (e v : BitVec 64) : PhysAddr :=
  ⟨(e.extractLsb' k (52 - k) ++ v.extractLsb' 0 k).setWidth 64, join_lt hk e v⟩

theorem join_toNat {k : Nat} (hk : k ≤ 52) (e v : BitVec 64) :
    (PhysAddr.join k hk e v).val.toNat = e.toNat / 2^k % 2^(52 - k) * 2^k + v.toNat % 2^k := by
  have hlow : v.toNat % 2^k < 2^k := Nat.mod_lt _ (Nat.two_pow_pos k)
  have happ : (e.extractLsb' k (52 - k) ++ v.extractLsb' 0 k).toNat =
      e.toNat / 2^k % 2^(52 - k) * 2^k + v.toNat % 2^k := by
    rw [BitVec.toNat_append, BitVec.extractLsb'_toNat, BitVec.extractLsb'_toNat, Nat.shiftRight_zero,
      ← Nat.shiftLeft_add_eq_or_of_lt hlow, Nat.shiftLeft_eq, Nat.shiftRight_eq_div_pow]
  rw [PhysAddr.join, BitVec.toNat_setWidth, Nat.mod_eq_of_lt, happ]
  exact Nat.lt_of_lt_of_le (BitVec.isLt _) (Nat.pow_le_pow_right (by omega) (by omega))

theorem addr_toNat (e : PageTableEntry) :
    e.addr.val.toNat = e.entry.toNat / 2^12 % 2^40 * 2^12 := frame_mask e.entry

theorem addr_aligned (e : PageTableEntry) : e.addr.Aligned := by
  unfold PhysAddr.Aligned
  rw [addr_toNat]; omega

/-- Addition of an offset that stays below `2^52` does not panic. -/
theorem add_of_lt {p : PhysAddr} {n : BitVec 64} (h : p.val.toNat + n.toNat < 2^52) :
    ∃ a, p.add n = some a ∧ a.val.toNat = p.val.toNat + n.toNat := by
  have hs : (p.val + n).toNat = p.val.toNat + n.toNat := by
    rw [BitVec.toNat_add]; omega
  refine ⟨⟨p.val + n, by omega⟩, ?_, hs⟩
  rw [PhysAddr.add, if_pos (by omega), PhysAddr.new, dif_pos]

/-- Addition past `2^52` panics. -/
theorem add_of_ge {p : PhysAddr} {n : BitVec 64} (h : 2^52 ≤ p.val.toNat + n.toNat) :
    p.add n = none := by
  unfold PhysAddr.add
  split
  · have hs : (p.val + n).toNat = p.val.toNat + n.toNat := by
      rw [BitVec.toNat_add]; omega
    rw [PhysAddr.new, dif_neg (by omega)]
  · rfl

theorem PhysAddr.ext_toNat {p q : PhysAddr} (h : p.val.toNat = q.val.toNat) : p = q :=
  PhysAddr.ext (BitVec.eq_of_toNat_eq h)

/-- Addition is the joined address exactly when the sum is its value. -/
theorem add_eq_join {p : PhysAddr} {n : BitVec 64} {k : Nat} (hk : k ≤ 52) (e v : BitVec 64) :
    p.add n = some (PhysAddr.join k hk e v) ↔
      p.val.toNat + n.toNat = e.toNat / 2^k % 2^(52 - k) * 2^k + v.toNat % 2^k := by
  have hj := join_toNat hk e v
  have hlt := (PhysAddr.join k hk e v).valid
  rcases Nat.lt_or_ge (p.val.toNat + n.toNat) (2^52) with h | h
  · obtain ⟨a, ha, hav⟩ := add_of_lt h
    rw [ha, ← hav, ← hj]
    exact ⟨fun h => by rw [Option.some.inj h], fun h => by rw [PhysAddr.ext_toNat h]⟩
  · rw [add_of_ge h]
    exact ⟨fun h => absurd h (by simp), fun hsum => by omega⟩

theorem low_mask (x : BitVec 64) (k : Nat) (m : BitVec 64) (hm : m.toNat = 2^k - 1) :
    (x &&& m).toNat = x.toNat % 2^k := by
  rw [BitVec.toNat_and, hm, Nat.and_two_pow_sub_one_eq_mod]

/-- The address of entry `i` of the table in the frame of `t` (bits 51..12). -/
def entryAt (t : BitVec 64) (i : BitVec 9) : PhysAddr :=
  PhysAddr.join 12 (by decide) t (i.setWidth 64 <<< 3)

theorem entryAt_toNat (t : BitVec 64) (i : BitVec 9) :
    (entryAt t i).val.toNat = t.toNat / 2^12 % 2^40 * 2^12 + i.toNat * 8 := by
  have hi := i.isLt
  rw [entryAt, join_toNat, BitVec.toNat_shiftLeft, BitVec.toNat_setWidth, Nat.shiftLeft_eq]
  omega

/-- `addr()` keeps the frame. -/
theorem entryAt_addr (e : PageTableEntry) (i : BitVec 9) :
    entryAt e.addr.val i = entryAt e.entry i := by
  apply PhysAddr.ext_toNat
  rw [entryAt_toNat, entryAt_toNat, addr_toNat]
  omega

/-- `table + u64::from(idx) * 8` does not panic on an aligned table. -/
theorem add_index {t : PhysAddr} (ht : t.Aligned) (i : BitVec 9) :
    t.add (i.setWidth 64 * 8#64) = some (entryAt t.val i) := by
  have hi := i.isLt
  have htl := t.valid
  have hmul : (i.setWidth 64 * 8#64).toNat = i.toNat * 8 := by
    rw [BitVec.toNat_mul, BitVec.toNat_setWidth, BitVec.toNat_ofNat]; omega
  unfold PhysAddr.Aligned at ht
  obtain ⟨a, ha, hav⟩ := add_of_lt (p := t) (n := i.setWidth 64 * 8#64) (by omega)
  rw [ha, Option.some.injEq]
  apply PhysAddr.ext_toNat
  rw [hav, hmul, entryAt_toNat]
  omega

/-- `e.addr() + (va & 0xFFF)` is the 4 KiB page's address. -/
theorem add_page (e : PageTableEntry) (v : BitVec 64) :
    e.addr.add (v &&& 0xFFF#64) = some (PhysAddr.join 12 (by decide) e.entry v) := by
  rw [add_eq_join, addr_toNat, low_mask v 12 _ rfl]

end WinKernl
