import WinKernl.Lib.ByteMem

/- Values of a fixed size as bytes.

   A `Codec` is a bijection between a type and the byte strings of one length; it carries
   the proofs, so that records built from codecs (`pair`, `map`) are read back as they were
   written, and hold nothing but their fields. `encodeAll` is an array of such values,
   without gaps, and `decodeAll` reads one. -/
namespace ByteMem

universe u v

structure Codec (α : Type u) where
  size : Nat
  encode : α → List Byte
  decode : List Byte → α
  encode_length : ∀ a, (encode a).length = size
  decode_encode : ∀ a, decode (encode a) = a
  encode_decode : ∀ bs, bs.length = size → encode (decode bs) = bs

namespace Codec

/-- A little-endian number of `n` bytes. -/
def word (n : Nat) {w : Nat} (hw : w = 8 * n) : Codec (BitVec w) where
  size := n
  encode v := toLE n v.toNat
  decode bs := BitVec.ofNat w (ofLE bs)
  encode_length v := toLE_length n v.toNat
  decode_encode v := by
    have hlt : v.toNat < 256 ^ n := by
      calc v.toNat < 2 ^ w := v.isLt
        _ = 256 ^ n := by rw [hw, pow_mul]; rfl
    rw [ofLE_toLE, Nat.mod_eq_of_lt hlt, BitVec.ofNat_toNat, BitVec.setWidth_eq]
  encode_decode bs hbs := by
    have hlt : ofLE bs < 2 ^ w := by
      calc ofLE bs < 256 ^ bs.length := ofLE_lt bs
        _ = 2 ^ w := by rw [hw, hbs, pow_mul]; rfl
    rw [BitVec.toNat_ofNat, Nat.mod_eq_of_lt hlt, ← hbs, toLE_ofLE]

def ofByte (b : Byte) : UInt8 := UInt8.ofBitVec b

/-- `n` bytes. -/
def bytes (n : Nat) : Codec (Vector UInt8 n) where
  size := n
  encode v := v.toList.map UInt8.toBitVec
  decode bs := Vector.ofFn fun i : Fin n => ofByte (bs.getD i 0)
  encode_length v := by simp
  decode_encode v := by
    apply Vector.ext
    intro i hi
    simp [ofByte]
  encode_decode bs hbs := by
    apply List.ext_getElem
    · simp [hbs]
    · intro i hi hi'
      simp [ofByte, hi']

variable {α : Type u} {β : Type v}

/-- One value behind the other. -/
def pair (c : Codec α) (d : Codec β) : Codec (α × β) where
  size := c.size + d.size
  encode p := c.encode p.1 ++ d.encode p.2
  decode bs := (c.decode (bs.take c.size), d.decode (bs.drop c.size))
  encode_length p := by rw [List.length_append, c.encode_length, d.encode_length]
  decode_encode p := by
    rw [List.take_left' (c.encode_length _), List.drop_left' (c.encode_length _), c.decode_encode,
      d.decode_encode]
  encode_decode bs hbs := by
    have htake : (bs.take c.size).length = c.size := by
      rw [List.length_take]
      omega
    have hdrop : (bs.drop c.size).length = d.size := by
      rw [List.length_drop]
      omega
    rw [c.encode_decode _ htake, d.encode_decode _ hdrop, List.take_append_drop]

/-- The values of another type, one for one. -/
def map (c : Codec α) (f : α → β) (g : β → α) (hfg : ∀ b, f (g b) = b) (hgf : ∀ a, g (f a) = a) :
    Codec β where
  size := c.size
  encode b := c.encode (g b)
  decode bs := f (c.decode bs)
  encode_length b := c.encode_length (g b)
  decode_encode b := by rw [c.decode_encode, hfg]
  encode_decode bs hbs := by rw [hgf, c.encode_decode bs hbs]

variable (c : Codec α)

def encodeAll (as : List α) : List Byte := as.flatMap c.encode

/-- The first `n` values. -/
def decodeAll : Nat → List Byte → List α
  | 0, _ => []
  | n + 1, bs => c.decode (bs.take c.size) :: decodeAll n (bs.drop c.size)

theorem encodeAll_cons (a : α) (as : List α) : c.encodeAll (a :: as) = c.encode a ++ c.encodeAll as :=
  List.flatMap_cons

theorem encodeAll_length (as : List α) : (c.encodeAll as).length = as.length * c.size := by
  induction as with
  | nil => rw [encodeAll, List.flatMap_nil, List.length_nil, List.length_nil, Nat.zero_mul]
  | cons a as ih =>
    rw [encodeAll_cons, List.length_append, c.encode_length, ih, List.length_cons, Nat.succ_mul,
      Nat.add_comm]

/-- An array is read back, whatever is behind it. -/
theorem decodeAll_encodeAll (as : List α) (rest : List Byte) :
    c.decodeAll as.length (c.encodeAll as ++ rest) = as := by
  induction as with
  | nil => rfl
  | cons a as ih =>
    rw [List.length_cons, decodeAll, encodeAll_cons, List.append_assoc,
      List.take_left' (c.encode_length a), List.drop_left' (c.encode_length a), c.decode_encode, ih]

theorem decodeAll_length (n : Nat) (bs : List Byte) : (c.decodeAll n bs).length = n := by
  induction n generalizing bs with
  | zero => rfl
  | succ n ih => rw [decodeAll, List.length_cons, ih]

/-- Bytes that are read as an array are its bytes. -/
theorem encodeAll_decodeAll {n : Nat} {bs : List Byte} (h : n * c.size ≤ bs.length) :
    c.encodeAll (c.decodeAll n bs) = bs.take (n * c.size) := by
  induction n generalizing bs with
  | zero => rw [decodeAll, encodeAll, List.flatMap_nil, Nat.zero_mul, List.take_zero]
  | succ n ih =>
    rw [Nat.succ_mul] at h ⊢
    have hdrop : n * c.size ≤ (bs.drop c.size).length := by
      rw [List.length_drop]
      omega
    have htake : (bs.take c.size).length = c.size := by
      rw [List.length_take]
      omega
    rw [decodeAll, encodeAll_cons, c.encode_decode _ htake, ih hdrop, Nat.add_comm, List.take_add]

end Codec
end ByteMem
