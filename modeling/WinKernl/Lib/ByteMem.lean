import Mathlib.Tactic.Ring
import Mathlib.Data.Nat.ModEq

/- Byte-addressed memory over `w`-bit addresses.

   A memory is a total map from addresses to bytes; reading and writing a run of
   bytes wraps at `2^w`, so a run is named by its first address and its length
   (`Within`) and needs no side condition on where it lies. What is proved is what
   a client of such a memory needs: a write is read back, a write off a run does
   not change it, two adjacent writes are one write, and the little-endian bytes
   of a number read back as that number. -/
namespace ByteMem

abbrev Byte := BitVec 8
abbrev Mem (w : Nat) := BitVec w → Byte

variable {w : Nat}

/-- `x` is one of the `n` addresses from `a` on. -/
def Within (a : BitVec w) (n : Nat) (x : BitVec w) : Prop := (x - a).toNat < n

instance (a : BitVec w) (n : Nat) (x : BitVec w) : Decidable (Within a n x) :=
  inferInstanceAs (Decidable ((x - a).toNat < n))

/-- The `n` bytes from `a` on. -/
def read (m : Mem w) (a : BitVec w) (n : Nat) : List Byte :=
  (List.range n).map fun i => m (a + BitVec.ofNat w i)

/-- `m` with `bs` stored from `a` on. -/
def write (m : Mem w) (a : BitVec w) (bs : List Byte) : Mem w :=
  fun x => bs.getD (x - a).toNat (m x)

/-! Runs of addresses. -/

theorem offset_add (a : BitVec w) {i : Nat} (hi : i < 2^w) :
    (a + BitVec.ofNat w i - a).toNat = i := by
  rw [BitVec.add_comm, BitVec.add_sub_cancel, BitVec.toNat_ofNat, Nat.mod_eq_of_lt hi]

theorem within_add (a : BitVec w) {i n : Nat} (hi : i < n) :
    Within a n (a + BitVec.ofNat w i) := by
  unfold Within
  rw [BitVec.add_comm, BitVec.add_sub_cancel, BitVec.toNat_ofNat]
  exact Nat.lt_of_le_of_lt (Nat.mod_le _ _) hi

theorem Within.mono {a x : BitVec w} {n k : Nat} (h : Within a n x) (hnk : n ≤ k) : Within a k x :=
  Nat.lt_of_lt_of_le h hnk

theorem Within.eq_add {a x : BitVec w} {n : Nat} (_h : Within a n x) :
    x = a + BitVec.ofNat w (x - a).toNat := by
  rw [BitVec.ofNat_toNat, BitVec.setWidth_eq, BitVec.add_comm, BitVec.sub_add_cancel]

/-- A run inside another, given by its offset. -/
theorem Within.of_add {a x : BitVec w} {i k n : Nat} (h : Within (a + BitVec.ofNat w i) k x)
    (hn : i + k ≤ n) : Within a n x := by
  unfold Within at *
  have hsplit : x - a = x - (a + BitVec.ofNat w i) + BitVec.ofNat w i := by
    rw [← BitVec.sub_sub, BitVec.sub_add_cancel]
  have hi : (BitVec.ofNat w i).toNat ≤ i := by
    rw [BitVec.toNat_ofNat]
    exact Nat.mod_le _ _
  rw [hsplit, BitVec.toNat_add]
  exact Nat.lt_of_le_of_lt (Nat.mod_le _ _) (by omega)

/-- A difference of addresses, as a number. -/
theorem sub_toNat_cases (x a : BitVec w) :
    (x - a).toNat + a.toNat = x.toNat ∨ (x - a).toNat + a.toNat = x.toNat + 2^w := by
  have ha := a.isLt
  have hx := x.isLt
  rw [BitVec.toNat_sub]
  rcases Nat.lt_or_ge x.toNat a.toNat with h | h
  · rw [Nat.mod_eq_of_lt (by omega)]
    omega
  · rw [Nat.mod_eq_sub_mod (by omega), Nat.mod_eq_of_lt (by omega)]
    omega

/-- Two runs are disjoint when neither begins inside the other. -/
theorem Within.off {a b x : BitVec w} {n k : Nat} (hx : Within a n x) (hab : n ≤ (b - a).toNat)
    (hba : k ≤ (a - b).toNat) : ¬ Within b k x := by
  unfold Within at *
  have := (x - a).isLt
  have := (x - b).isLt
  have := (b - a).isLt
  have := (a - b).isLt
  have := sub_toNat_cases x a
  have := sub_toNat_cases x b
  have := sub_toNat_cases b a
  have := sub_toNat_cases a b
  omega

/-! Reads. -/

@[simp] theorem read_length (m : Mem w) (a : BitVec w) (n : Nat) : (read m a n).length = n := by
  simp [read]

theorem read_getElem? (m : Mem w) (a : BitVec w) {i n : Nat} (hi : i < n) :
    (read m a n)[i]? = some (m (a + BitVec.ofNat w i)) := by
  simp [read, hi]

theorem read_congr {m m' : Mem w} {a : BitVec w} {n : Nat}
    (h : ∀ x, Within a n x → m x = m' x) : read m a n = read m' a n := by
  apply List.map_congr_left
  intro i hi
  exact h _ (within_add a (List.mem_range.mp hi))

/-- A run is its first `i` bytes and the `j` bytes behind them. -/
theorem read_add (m : Mem w) (a : BitVec w) (i j : Nat) :
    read m a (i + j) = read m a i ++ read m (a + BitVec.ofNat w i) j := by
  unfold read
  rw [List.range_add, List.map_append, List.map_map]
  congr 1
  apply List.map_congr_left
  intro k _
  simp only [Function.comp, BitVec.ofNat_add, BitVec.add_assoc]

theorem read_take (m : Mem w) (a : BitVec w) {i n : Nat} (h : i ≤ n) :
    (read m a n).take i = read m a i := by
  obtain ⟨j, rfl⟩ := Nat.exists_eq_add_of_le h
  rw [read_add, List.take_left' (read_length m a i)]

theorem read_drop (m : Mem w) (a : BitVec w) {i n : Nat} (h : i ≤ n) :
    (read m a n).drop i = read m (a + BitVec.ofNat w i) (n - i) := by
  obtain ⟨j, rfl⟩ := Nat.exists_eq_add_of_le h
  rw [read_add, List.drop_left' (read_length m a i), Nat.add_sub_cancel_left]

/-! Writes. -/

theorem write_within {m : Mem w} {a x : BitVec w} {bs : List Byte} (h : Within a bs.length x) :
    write m a bs x = bs.get ⟨(x - a).toNat, h⟩ := by
  have hi : bs[(x - a).toNat]? = some (bs.get ⟨(x - a).toNat, h⟩) := List.getElem?_eq_getElem h
  simp only [write, List.getD_eq_getElem?_getD, hi, Option.getD_some]

theorem write_outside {m : Mem w} {a x : BitVec w} {bs : List Byte} (h : ¬ Within a bs.length x) :
    write m a bs x = m x := by
  simp only [write, List.getD_eq_getElem?_getD, List.getElem?_eq_none (Nat.le_of_not_lt h),
    Option.getD_none]

/-- A write leaves nothing of what was there. -/
theorem write_covers {m m' : Mem w} {a : BitVec w} {bs : List Byte}
    (h : ∀ x, ¬ Within a bs.length x → m x = m' x) : write m a bs = write m' a bs := by
  funext x
  by_cases hx : Within a bs.length x
  · rw [write_within hx, write_within hx]
  · rw [write_outside hx, write_outside hx, h x hx]

@[simp] theorem write_nil (m : Mem w) (a : BitVec w) : write m a [] = m := by
  funext x; simp [write]

/-- What is written is read back. -/
theorem read_write (m : Mem w) (a : BitVec w) (bs : List Byte) (h : bs.length ≤ 2^w) :
    read (write m a bs) a bs.length = bs := by
  apply List.ext_getElem?
  intro i
  by_cases hi : i < bs.length
  · rw [read_getElem? _ _ hi, List.getElem?_eq_getElem hi, write_within (within_add a hi)]
    simp only [List.get_eq_getElem, offset_add a (Nat.lt_of_lt_of_le hi h)]
  · rw [List.getElem?_eq_none (by simp; omega), List.getElem?_eq_none (by omega)]

/-- A write off a run leaves the run as it was. -/
theorem read_write_off {m : Mem w} {a b : BitVec w} {bs : List Byte} {n : Nat}
    (h : ∀ x, Within b n x → ¬ Within a bs.length x) :
    read (write m a bs) b n = read m b n :=
  read_congr (fun x hx => write_outside (h x hx))

/-- A write inside a run, as the run is read afterwards. -/
theorem read_write_inside {m : Mem w} {a : BitVec w} {bs : List Byte} {i n : Nat}
    (h : i + bs.length ≤ n) (hn : n ≤ 2^w) : read (write m (a + BitVec.ofNat w i) bs) a n =
      (read m a n).take i ++ bs ++ (read m a n).drop (i + bs.length) := by
  by_cases hbs : bs.length = 0
  · rw [List.length_eq_zero_iff.mp hbs, write_nil, List.append_nil, List.length_nil, Nat.add_zero,
      List.take_append_drop]
  have hb : (a + BitVec.ofNat w i - a).toNat = i := offset_add a (by omega)
  have hbcases := sub_toNat_cases (a + BitVec.ofNat w i) a
  have hblt := (a + BitVec.ofNat w i).isLt
  apply List.ext_getElem?
  intro j
  by_cases hj : j < n
  · have hx : (a + BitVec.ofNat w j - a).toNat = j := offset_add a (by omega)
    have hxcases := sub_toNat_cases (a + BitVec.ofNat w j) a
    have hxblt := (a + BitVec.ofNat w j - (a + BitVec.ofNat w i)).isLt
    have hxbcases := sub_toNat_cases (a + BitVec.ofNat w j) (a + BitVec.ofNat w i)
    rw [read_getElem? _ _ hj, List.append_assoc]
    rcases Nat.lt_or_ge j i with hji | hji
    · rw [write_outside (by unfold Within; omega), List.getElem?_append_left (by simp; omega),
        List.getElem?_take_of_lt hji, read_getElem? _ _ hj]
    have htake : ((read m a n).take i).length = i := by simp; omega
    rw [List.getElem?_append_right (by omega), htake]
    rcases Nat.lt_or_ge (j - i) bs.length with hin | hout
    · rw [List.getElem?_append_left hin]
      have hwithin : Within (a + BitVec.ofNat w i) bs.length (a + BitVec.ofNat w j) := by
        unfold Within
        omega
      have hindex : (a + BitVec.ofNat w j - (a + BitVec.ofNat w i)).toNat = j - i := by omega
      rw [write_within hwithin, List.getElem?_eq_getElem hin, List.get_eq_getElem]
      simp only [hindex]
    · rw [List.getElem?_append_right hout, List.getElem?_drop, write_outside (by unfold Within; omega),
        read_getElem? _ _ (by omega)]
      congr 4
      omega
  · rw [List.getElem?_eq_none (by simp; omega), List.getElem?_eq_none (by simp; omega)]

/-- Two adjacent writes are one write. -/
theorem write_append (m : Mem w) (a : BitVec w) (bs cs : List Byte)
    (h : bs.length + cs.length ≤ 2^w) :
    write (write m a bs) (a + BitVec.ofNat w bs.length) cs = write m a (bs ++ cs) := by
  funext x
  have hx : (x - a).toNat < 2^w := (x - a).isLt
  have split : (x - (a + BitVec.ofNat w bs.length)).toNat =
      (2^w - bs.length % 2^w + (x - a).toNat) % 2^w := by
    rw [← BitVec.sub_sub, BitVec.toNat_sub, BitVec.toNat_ofNat]
  simp only [write, List.getD_eq_getElem?_getD, split]
  rcases Nat.lt_or_ge (x - a).toNat bs.length with hlt | hge
  · have hoff : cs.length ≤ (2^w - bs.length % 2^w + (x - a).toNat) % 2^w := by
      rcases Nat.eq_or_lt_of_le (show bs.length ≤ 2^w by omega) with heq | hl
      · omega
      · rw [Nat.mod_eq_of_lt hl, Nat.mod_eq_of_lt (by omega)]; omega
    rw [List.getElem?_eq_none hoff, List.getElem?_append_left hlt]
    simp
  · have hl : bs.length < 2^w := by omega
    have hoff : (2^w - bs.length % 2^w + (x - a).toNat) % 2^w = (x - a).toNat - bs.length := by
      rw [Nat.mod_eq_of_lt hl, Nat.mod_eq_sub_mod (by omega), Nat.mod_eq_of_lt (by omega)]
      omega
    rw [hoff, List.getElem?_append_right hge, List.getElem?_eq_none hge]
    simp

/-- Writing a run back undoes a write inside it. -/
theorem write_back (m : Mem w) (a : BitVec w) {bs : List Byte} {n : Nat} (h : bs.length ≤ n) :
    write (write m a bs) a (read m a n) = m := by
  funext x
  by_cases hx : Within a n x
  · have hbyte := read_getElem? m a hx
    rw [← hx.eq_add] at hbyte
    rw [write, List.getD_eq_getElem?_getD, hbyte, Option.getD_some]
  · have hoff : ¬ Within a bs.length x := fun hb => hx (hb.mono h)
    rw [write_outside (by rwa [read_length]), write_outside hoff]

/-! Little-endian numbers. -/

/-- The `n` low bytes of `v`, least significant first. -/
def toLE : Nat → Nat → List Byte
  | 0, _ => []
  | n + 1, v => BitVec.ofNat 8 v :: toLE n (v / 256)

/-- The number whose bytes, least significant first, are `bs`. -/
def ofLE : List Byte → Nat
  | [] => 0
  | b :: bs => b.toNat + 256 * ofLE bs

@[simp] theorem toLE_length (n v : Nat) : (toLE n v).length = n := by
  induction n generalizing v with
  | zero => rfl
  | succ n ih => simp [toLE, ih]

theorem ofLE_toLE (n v : Nat) : ofLE (toLE n v) = v % 256^n := by
  induction n generalizing v with
  | zero => simp [toLE, ofLE, Nat.mod_one]
  | succ n ih =>
    have h8 : (2 : Nat)^8 = 256 := by norm_num
    rw [toLE, ofLE, ih, BitVec.toNat_ofNat, h8, pow_succ, Nat.mul_comm (256^n), Nat.mod_mul]

theorem ofLE_lt (bs : List Byte) : ofLE bs < 256^bs.length := by
  induction bs with
  | nil => exact Nat.one_pos
  | cons b bs ih =>
    have hb := b.isLt
    rw [ofLE, List.length_cons, pow_succ]
    omega

theorem toLE_ofLE (bs : List Byte) : toLE bs.length (ofLE bs) = bs := by
  induction bs with
  | nil => rfl
  | cons b bs ih =>
    have hb := b.isLt
    have hlow : BitVec.ofNat 8 (b.toNat + 256 * ofLE bs) = b := by
      apply BitVec.eq_of_toNat_eq
      rw [BitVec.toNat_ofNat]
      omega
    have hhigh : (b.toNat + 256 * ofLE bs) / 256 = ofLE bs := by omega
    rw [List.length_cons, toLE, ofLE, hlow, hhigh, ih]

/-- The 64-bit little-endian word at `a`. -/
def readWord (m : Mem w) (a : BitVec w) : BitVec 64 := BitVec.ofNat 64 (ofLE (read m a 8))

/-- `m` with the 64-bit little-endian word `v` stored at `a`. -/
def writeWord (m : Mem w) (a : BitVec w) (v : BitVec 64) : Mem w := write m a (toLE 8 v.toNat)

theorem writeWord_outside {m : Mem w} {a x : BitVec w} {v : BitVec 64} (h : ¬ Within a 8 x) :
    writeWord m a v x = m x :=
  write_outside (by rw [toLE_length]; exact h)

theorem ofLE_word (v : BitVec 64) : BitVec.ofNat 64 (ofLE (toLE 8 v.toNat)) = v := by
  rw [ofLE_toLE, show (256 : Nat)^8 = 2^64 by norm_num, Nat.mod_eq_of_lt v.isLt,
    BitVec.ofNat_toNat, BitVec.setWidth_eq]

theorem read_writeWord (m : Mem w) (a : BitVec w) (v : BitVec 64) (hw : 8 ≤ 2^w) :
    read (writeWord m a v) a 8 = toLE 8 v.toNat := by
  have h := read_write m a (toLE 8 v.toNat) (by rw [toLE_length]; exact hw)
  rwa [toLE_length] at h

/-- A stored word is read back. -/
theorem readWord_writeWord (m : Mem w) (a : BitVec w) (v : BitVec 64) (hw : 8 ≤ 2^w) :
    readWord (writeWord m a v) a = v := by
  rw [readWord, read_writeWord m a v hw, ofLE_word]

/-- A word determines its bytes. -/
theorem read_word (m : Mem w) (a : BitVec w) : read m a 8 = toLE 8 (readWord m a).toNat := by
  have hlt := ofLE_lt (read m a 8)
  have hbytes := toLE_ofLE (read m a 8)
  rw [read_length] at hlt hbytes
  rw [show (256 : Nat)^8 = 2^64 by norm_num] at hlt
  rw [readWord, BitVec.toNat_ofNat, Nat.mod_eq_of_lt hlt, hbytes]

theorem readWord_congr {m m' : Mem w} {a : BitVec w} (h : ∀ x, Within a 8 x → m x = m' x) :
    readWord m a = readWord m' a := by
  rw [readWord, readWord, read_congr h]

end ByteMem
