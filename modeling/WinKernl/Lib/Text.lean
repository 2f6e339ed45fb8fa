import Mathlib.Data.String.Basic

/- Text as lists of characters: UTF-8, byte positions, lowercase.

   `decode` reads UTF-8, `getFrom` is the text from a byte position on, where that is the
   start of a character or the end. Lowercase maps each character by a table, with one
   exception: a capital sigma becomes the final sigma at the end of a word, and what the
   end of a word is depends on the text on both sides of it. So lowercase does not
   distribute over concatenation; `lowerIn` is a part's lowercase within a text, and
   does (`lowerIn_append`). It has as many bytes as the character-wise `lower`. -/
namespace Text
open String (utf8Len utf8EncodeChar)

/-! Bytes. -/

/-- The text whose UTF-8 is `bs`. -/
def decode (bs : List UInt8) : Option (List Char) := bs.toByteArray.utf8Decode?.map Array.toList

theorem decode_encode (s : List Char) : decode (s.flatMap utf8EncodeChar) = some s := by
  have h : s.utf8Encode.utf8Decode? = some s.toArray := List.utf8Decode?_utf8Encode
  rw [List.utf8Encode] at h
  rw [decode, h, Option.map_some]

/-- The character of an ASCII byte. -/
def ofByte (b : UInt8) : Char := Char.ofNat b.toNat

theorem ofByte_toNat {b : UInt8} (hb : b < 128) : (ofByte b).toNat = b.toNat := by
  have hlt : b.toNat < 128 := UInt8.lt_iff_toNat_lt.mp hb
  have hvalid : b.toNat.isValidChar := .inl (by omega)
  rw [ofByte, Char.ofNat, dif_pos hvalid]
  rfl

theorem encode_ofByte {b : UInt8} (hb : b < 128) : utf8EncodeChar (ofByte b) = [b] := by
  have hval : (ofByte b).val.toNat = b.toNat := ofByte_toNat hb
  have hlt : b.toNat < 128 := UInt8.lt_iff_toNat_lt.mp hb
  have hsize : (ofByte b).utf8Size = 1 := by
    rw [Char.utf8Size_eq_one_iff, UInt32.le_iff_toNat_le, hval]
    exact Nat.le_of_lt_succ hlt
  rw [String.utf8EncodeChar_eq_singleton hsize]
  congr 1
  apply UInt8.toNat_inj.mp
  rw [UInt32.toNat_toUInt8, hval, Nat.mod_eq_of_lt (by omega)]

theorem decode_ascii {bs : List UInt8} (h : ∀ b ∈ bs, b < 128) :
    decode bs = some (bs.map ofByte) := by
  have hbytes : (bs.map ofByte).flatMap utf8EncodeChar = bs := by
    induction bs with
    | nil => rfl
    | cons b bs ih =>
      rw [List.map_cons, List.flatMap_cons, encode_ofByte (h b List.mem_cons_self),
        ih fun x hx => h x (List.mem_cons_of_mem b hx)]
      rfl
  rw [← decode_encode (bs.map ofByte), hbytes]

/-! Positions. -/

/-- The text from byte `n` on, where a character starts there or the text ends. -/
def getFrom : List Char → Nat → Option (List Char)
  | s, 0 => some s
  | [], _ + 1 => none
  | c :: s, n + 1 => if c.utf8Size ≤ n + 1 then getFrom s (n + 1 - c.utf8Size) else none

theorem getFrom_cons {c : Char} {s : List Char} {n : Nat} (h : c.utf8Size ≤ n) :
    getFrom (c :: s) n = getFrom s (n - c.utf8Size) := by
  cases n with
  | zero => exact absurd (c.utf8Size_pos) (by omega)
  | succ n => rw [getFrom, if_pos h]

theorem getFrom_append (r s : List Char) : getFrom (r ++ s) (utf8Len r) = some s := by
  induction r with
  | nil => simp [getFrom]
  | cons c r ih =>
    rw [List.cons_append, String.utf8Len_cons, getFrom_cons (Nat.le_add_left _ _),
      Nat.add_sub_cancel, ih]

theorem getFrom_eq_some {s t : List Char} {n : Nat} (h : getFrom s n = some t) :
    ∃ r, s = r ++ t ∧ utf8Len r = n := by
  induction s generalizing n with
  | nil =>
    cases n with
    | zero => exact ⟨[], Option.some.inj h, rfl⟩
    | succ n => cases h
  | cons c s ih =>
    cases n with
    | zero => exact ⟨[], Option.some.inj h, rfl⟩
    | succ n =>
      rw [getFrom] at h
      split at h
      · next hle =>
        obtain ⟨r, hs, hlen⟩ := ih h
        refine ⟨c :: r, by rw [hs]; rfl, ?_⟩
        rw [String.utf8Len_cons, hlen, Nat.sub_add_cancel hle]
      · cases h

/-- Two ways to cut a text at one byte position are the same. -/
theorem append_inj_utf8Len {r r' s s' : List Char} (h : r ++ s = r' ++ s')
    (hlen : utf8Len r = utf8Len r') : r = r' ∧ s = s' := by
  -- what follows the cut is the same text, read from the same byte
  have hs := getFrom_append r s
  rw [h, hlen, getFrom_append] at hs
  obtain rfl : s' = s := Option.some.inj hs
  exact ⟨List.append_cancel_right h, rfl⟩

/-! ASCII. -/

/-- Every character is ASCII. -/
def Ascii (s : List Char) : Prop := ∀ c ∈ s, c.toNat < 128

theorem ascii_ofByte {bs : List UInt8} (h : ∀ b ∈ bs, b < 128) : Ascii (bs.map ofByte) := by
  intro c hc
  obtain ⟨b, hb, rfl⟩ := List.mem_map.mp hc
  rw [ofByte_toNat (h b hb)]
  exact UInt8.lt_iff_toNat_lt.mp (h b hb)

theorem Ascii.drop {s : List Char} (h : Ascii s) (n : Nat) : Ascii (s.drop n) :=
  fun c hc => h c (List.mem_of_mem_drop hc)

theorem toLower_toNat_lt {c : Char} (h : c.toNat < 128) : c.toLower.toNat < 128 := by
  unfold Char.toLower
  split
  · next hupper =>
    have hle : c.val.toNat ≤ 90 := UInt32.le_iff_toNat_le.mp hupper.2
    show (c.val + ('a'.val - 'A'.val)).toNat < 128
    rw [UInt32.toNat_add, show ('a'.val - 'A'.val).toNat = 32 from rfl]
    omega
  · exact h

theorem Ascii.map_toLower {s : List Char} (h : Ascii s) : Ascii (s.map Char.toLower) := by
  intro c hc
  obtain ⟨d, hd, rfl⟩ := List.mem_map.mp hc
  exact toLower_toNat_lt (h d hd)

theorem Ascii.utf8Len {s : List Char} (h : Ascii s) : String.utf8Len s = s.length := by
  induction s with
  | nil => rfl
  | cons c s ih =>
    have hc : c.val.toNat < 128 := h c List.mem_cons_self
    have hsize : c.utf8Size = 1 := by
      rw [Char.utf8Size_eq_one_iff, UInt32.le_iff_toNat_le]
      exact Nat.le_of_lt_succ hc
    rw [String.utf8Len_cons, hsize, ih fun x hx => h x (List.mem_cons_of_mem c hx)]
    rfl

/-- Byte positions of an ASCII text are those of its characters. -/
theorem Ascii.getFrom {s : List Char} (h : Ascii s) {n : Nat} (hn : n ≤ s.length) :
    Text.getFrom s n = some (s.drop n) := by
  have htake : Ascii (s.take n) := fun c hc => h c (List.mem_of_mem_take hc)
  have hcut := getFrom_append (s.take n) (s.drop n)
  rwa [List.take_append_drop, htake.utf8Len, List.length_take, Nat.min_eq_left hn] at hcut

/-! Lowercase. -/

def capitalSigma : Char := 'Σ'
def smallSigma : Char := 'σ'
def finalSigma : Char := 'ς'

/-- The tables of the standard. -/
structure Unicode where
  toLower : Char → List Char
  cased : Char → Bool
  caseIgnorable : Char → Bool
  toLower_ne_nil : ∀ c, toLower c ≠ []
  toLower_ascii : ∀ c : Char, c.toNat < 128 → toLower c = [c.toLower]
  toLower_sigma : toLower capitalSigma = [smallSigma]

namespace Unicode
variable (u : Unicode)

/-- Character by character. -/
def lower (s : List Char) : List Char := s.flatMap u.toLower

def caseIgnorableThenCased (s : List Char) : Bool :=
  match s.dropWhile u.caseIgnorable with
  | [] => false
  | c :: _ => u.cased c

/-- What a capital sigma becomes between `before`, read backwards, and `behind`. -/
def mapUppercaseSigma (before behind : List Char) : Char :=
  if u.caseIgnorableThenCased before && !u.caseIgnorableThenCased behind then finalSigma
  else smallSigma

def lowerCharIn (before : List Char) (c : Char) (behind : List Char) : List Char :=
  if c = capitalSigma then [u.mapUppercaseSigma before behind] else u.toLower c

/-- The lowercase of a part of a text, between `before`, read backwards, and `behind`. -/
def lowerIn : (before part behind : List Char) → List Char
  | _, [], _ => []
  | before, c :: part, behind =>
    u.lowerCharIn before c (part ++ behind) ++ lowerIn (c :: before) part behind

/-- `str::to_lowercase`. -/
def toLowercase (s : List Char) : List Char := u.lowerIn [] s []

variable {u}

theorem lowerIn_append (before r s behind : List Char) :
    u.lowerIn before (r ++ s) behind =
      u.lowerIn before r (s ++ behind) ++ u.lowerIn (r.reverse ++ before) s behind := by
  induction r generalizing before with
  | nil => rfl
  | cons c r ih =>
    rw [List.cons_append, lowerIn, lowerIn, ih, List.append_assoc, List.append_assoc,
      List.reverse_cons, List.append_assoc]
    rfl

theorem utf8Len_lowerCharIn (before : List Char) (c : Char) (behind : List Char) :
    utf8Len (u.lowerCharIn before c behind) = utf8Len (u.toLower c) := by
  unfold lowerCharIn
  split
  · next hc =>
    rw [hc, u.toLower_sigma, mapUppercaseSigma]
    split <;> rfl
  · rfl

/-- The context of a part does not change its length in bytes. -/
theorem utf8Len_lowerIn (before s behind : List Char) :
    utf8Len (u.lowerIn before s behind) = utf8Len (u.lower s) := by
  induction s generalizing before with
  | nil => rfl
  | cons c s ih =>
    rw [lowerIn, String.utf8Len_append, utf8Len_lowerCharIn, ih, lower, lower,
      List.flatMap_cons, String.utf8Len_append]

theorem lower_append (r s : List Char) : u.lower (r ++ s) = u.lower r ++ u.lower s :=
  List.flatMap_append

theorem lower_eq_nil {s : List Char} : u.lower s = [] ↔ s = [] := by
  rw [lower, List.flatMap_eq_nil_iff]
  constructor
  · intro h
    cases s with
    | nil => rfl
    | cons c s => exact absurd (h c List.mem_cons_self) (u.toLower_ne_nil c)
  · intro h
    rw [h]
    exact fun c hc => nomatch hc

theorem lowerIn_ascii {s : List Char} (h : Ascii s) (before behind : List Char) :
    u.lowerIn before s behind = s.map Char.toLower := by
  induction s generalizing before with
  | nil => rfl
  | cons c s ih =>
    have hc : c.toNat < 128 := h c List.mem_cons_self
    have hsigma : c ≠ capitalSigma := fun heq => absurd (heq ▸ hc) (by decide)
    rw [lowerIn, lowerCharIn, if_neg hsigma, u.toLower_ascii c hc,
      ih fun x hx => h x (List.mem_cons_of_mem c hx)]
    rfl

theorem toLowercase_ascii {s : List Char} (h : Ascii s) : u.toLowercase s = s.map Char.toLower :=
  lowerIn_ascii h [] []

end Unicode
end Text
