import WinKernl.SystemModules

/- The two readings of a module's file name (`lib.rs`, `memory/module.rs`).

   `filenameFromInfo` is `filename_from_info`; the other reading is `comparedFile`.
   `query_system_module` takes the file name out of the path, which ends at the first
   NUL. `filename_from_info` takes it out of the array and asks only that it begin
   inside the array, so between the two ends it hands out what lies behind the path. -/
namespace WinKernl
open Text
open String (utf8Len)

/-- A slice of the 256 bytes of a path. -/
structure PathSlice where
  start : Nat
  len : Nat
  inside : start + len ≤ 256

def PathSlice.bytes (s : PathSlice) (m : ModuleInformation) : List UInt8 :=
  (m.fullPathName.toList.drop s.start).take s.len

theorem findIdx?_le {bs : List UInt8} {pos n : Nat} (h : bs.findIdx? (· == 0) = some pos)
    (hn : bs.length = n) : pos ≤ n := by
  obtain ⟨hlt, -⟩ := List.findIdx?_eq_some_iff_getElem.mp h
  omega

theorem fullPathName_length (m : ModuleInformation) : m.fullPathName.toList.length = 256 :=
  Vector.length_toList

/-- The bytes from `off` up to the first NUL, or to the end. -/
def untilNul (m : ModuleInformation) (off : Nat) (hoff : off ≤ 256) : PathSlice :=
  match h : (m.fullPathName.toList.drop off).findIdx? (· == 0) with
  | some pos => ⟨off, pos, by
      have := findIdx?_le h (List.length_drop.trans (by rw [fullPathName_length]))
      omega⟩
  | none => ⟨off, 256 - off, by omega⟩

def filenameFromInfo (info : ModuleInformation) : PathSlice :=
  let off := info.offsetToFileName.toNat
  if h : 256 ≤ off then untilNul info 0 (Nat.zero_le _) else untilNul info off (by omega)

/-! Where a slice ends. -/

theorem findIdx?_append_zero {xs ys : List UInt8} (h : 0 ∉ xs) :
    (xs ++ 0 :: ys).findIdx? (· == 0) = some xs.length := by
  induction xs with
  | nil => rfl
  | cons x xs ih =>
    have hx : (x == 0) = false := beq_false_of_ne fun heq => h (heq ▸ List.mem_cons_self)
    rw [List.cons_append, List.findIdx?_cons, hx, if_neg Bool.false_ne_true,
      ih fun hmem => h (List.mem_cons_of_mem x hmem)]
    rfl

theorem takeWhile_split {xs : List UInt8} (h : 0 ∈ xs) :
    ∃ rest, xs = xs.takeWhile (· ≠ 0) ++ 0 :: rest := by
  induction xs with
  | nil => cases h
  | cons x xs ih =>
    by_cases hx : x = 0
    · subst hx
      exact ⟨xs, by simp⟩
    · obtain ⟨rest, hrest⟩ := ih ((List.mem_cons.mp h).resolve_left fun heq => hx heq.symm)
      refine ⟨rest, ?_⟩
      rw [List.takeWhile_cons_of_pos (by simpa using hx), List.cons_append, ← hrest]

section
variable {m : ModuleInformation}

theorem zero_not_mem_pathBytes : 0 ∉ m.pathBytes := by
  intro h
  have hall : m.pathBytes.all (· ≠ 0) = true := List.all_takeWhile
  exact absurd (List.all_eq_true.mp hall 0 h) (by decide)

/-- A terminated path and what stands behind its terminator. -/
theorem pathBytes_split (hnul : 0 ∈ m.fullPathName.toList) :
    ∃ rest, m.fullPathName.toList = m.pathBytes ++ 0 :: rest :=
  takeWhile_split hnul

theorem pathBytes_length_lt (hnul : 0 ∈ m.fullPathName.toList) : m.pathBytes.length < 256 := by
  obtain ⟨rest, hrest⟩ := pathBytes_split hnul
  have hlen := congrArg List.length hrest
  rw [fullPathName_length, List.length_append, List.length_cons] at hlen
  omega

theorem untilNul_start {off : Nat} (hoff : off ≤ 256) : (untilNul m off hoff).start = off := by
  unfold untilNul
  split <;> rfl

/-- From inside the path the slice goes to its end. -/
theorem untilNul_path (hnul : 0 ∈ m.fullPathName.toList) {off : Nat} (hoff : off ≤ 256)
    (hle : off ≤ m.pathBytes.length) :
    (untilNul m off hoff).len = m.pathBytes.length - off := by
  obtain ⟨rest, hrest⟩ := pathBytes_split hnul
  have hfind : (m.fullPathName.toList.drop off).findIdx? (· == 0) =
      some (m.pathBytes.length - off) := by
    rw [hrest, List.drop_append_of_le_length hle, findIdx?_append_zero, List.length_drop]
    exact fun hmem => zero_not_mem_pathBytes (List.mem_of_mem_drop hmem)
  unfold untilNul
  split
  · next pos h =>
    exact (Option.some.inj (hfind.symm.trans h)).symm
  · next h => rw [hfind] at h; cases h

/-- A slice is empty exactly when it begins at a NUL. -/
theorem untilNul_len_eq_zero {off : Nat} (hlt : off < 256) :
    (untilNul m off (Nat.le_of_lt hlt)).len = 0 ↔ m.fullPathName.toList[off]? = some 0 := by
  have hlen : off < m.fullPathName.toList.length := by rwa [fullPathName_length]
  have hcons := List.drop_eq_getElem_cons hlen
  rw [List.getElem?_eq_getElem hlen, Option.some.injEq]
  generalize m.fullPathName.toList[off] = b at hcons
  unfold untilNul
  split
  · next pos h =>
    rw [hcons, List.findIdx?_cons] at h
    by_cases hb : b = 0
    · rw [hb] at h
      obtain rfl := Option.some.inj h
      exact iff_of_true rfl hb
    · rw [beq_false_of_ne hb, if_neg Bool.false_ne_true] at h
      obtain ⟨k, -, rfl⟩ := Option.map_eq_some_iff.mp h
      exact iff_of_false (Nat.succ_ne_zero k) hb
  · next h =>
    rw [hcons, List.findIdx?_cons] at h
    by_cases hb : b = 0
    · rw [hb] at h
      cases h
    · refine iff_of_false ?_ hb
      dsimp only
      omega

theorem filenameFromInfo_outside (h : 256 ≤ m.offsetToFileName.toNat) :
    filenameFromInfo m = untilNul m 0 (Nat.zero_le _) :=
  dif_pos h

theorem filenameFromInfo_inside (h : m.offsetToFileName.toNat < 256) :
    filenameFromInfo m = untilNul m m.offsetToFileName.toNat (Nat.le_of_lt h) :=
  dif_neg (Nat.not_le.mpr h)

/-- A slice that ends where the path ends. -/
theorem PathSlice.bytes_of_end (hnul : 0 ∈ m.fullPathName.toList) {s : PathSlice}
    (hend : s.start + s.len = m.pathBytes.length) : s.bytes m = m.pathBytes.drop s.start := by
  obtain ⟨rest, hrest⟩ := pathBytes_split hnul
  have hlen : s.len = (m.pathBytes.drop s.start).length := by
    rw [List.length_drop]
    omega
  rw [PathSlice.bytes, hrest, List.drop_append_of_le_length (by omega), hlen, List.take_left]

/-- An offset inside the path gives the rest of it. -/
theorem filenameFromInfo_rest (hnul : 0 ∈ m.fullPathName.toList)
    (hin : m.offsetToFileName.toNat < m.pathBytes.length) :
    (filenameFromInfo m).start + (filenameFromInfo m).len = m.pathBytes.length ∧
      (filenameFromInfo m).bytes m = m.pathBytes.drop m.offsetToFileName.toNat := by
  have hlt : m.offsetToFileName.toNat < 256 := Nat.lt_trans hin (pathBytes_length_lt hnul)
  have hstart : (filenameFromInfo m).start = m.offsetToFileName.toNat := by
    rw [filenameFromInfo_inside hlt, untilNul_start]
  have hlen : (filenameFromInfo m).len = m.pathBytes.length - m.offsetToFileName.toNat := by
    rw [filenameFromInfo_inside hlt, untilNul_path hnul _ (Nat.le_of_lt hin)]
  have hend : (filenameFromInfo m).start + (filenameFromInfo m).len = m.pathBytes.length := by
    omega
  exact ⟨hend, hstart ▸ PathSlice.bytes_of_end hnul hend⟩

/-- Behind the path the slice is the whole path, or empty, only from an offset outside the
    array or at a NUL. -/
theorem filenameFromInfo_behind (hnul : 0 ∈ m.fullPathName.toList)
    (hge : m.pathBytes.length ≤ m.offsetToFileName.toNat) :
    ((filenameFromInfo m).start = 0 ∧ (filenameFromInfo m).len = m.pathBytes.length) ∨
        (filenameFromInfo m).len = 0 ↔
      256 ≤ m.offsetToFileName.toNat ∨
        m.fullPathName.toList[m.offsetToFileName.toNat]? = some 0 := by
  by_cases hout : 256 ≤ m.offsetToFileName.toNat
  · refine iff_of_true (.inl ?_) (.inl hout)
    rw [filenameFromInfo_outside hout, untilNul_start, untilNul_path hnul _ (Nat.zero_le _)]
    exact ⟨rfl, Nat.sub_zero _⟩
  · -- inside the array the slice begins at the offset
    have hlt := Nat.not_le.mp hout
    rw [or_iff_right hout, ← untilNul_len_eq_zero hlt, filenameFromInfo_inside hlt,
      untilNul_start]
    refine ⟨fun h => ?_, .inr⟩
    rcases h with ⟨hstart, hwhole⟩ | hempty
    · -- the whole of an empty path
      omega
    · exact hempty

/-- On an ASCII path the part compared is the lowercase of the path from the offset on. -/
theorem comparedFile_ascii {u : Unicode} {bs : List UInt8} (h : ∀ b ∈ bs, b < 128) {off : Nat}
    (hoff : off < bs.length) :
    comparedFile off (u.toLowercase (bs.map ofByte)) =
      some (u.toLowercase ((bs.drop off).map ofByte)) := by
  have hascii := ascii_ofByte h
  have hlower := hascii.map_toLower
  have hlen : ((bs.map ofByte).map Char.toLower).length = bs.length := by
    rw [List.length_map, List.length_map]
  rw [Unicode.toLowercase_ascii hascii, comparedFile, hlower.utf8Len, hlen, if_pos hoff,
    hlower.getFrom (by omega), List.map_drop, Unicode.toLowercase_ascii (hascii.drop off),
    List.map_drop]

end

/-- What the two readings owe each other. -/
structure FilenameAgrees (u : Unicode) (m : ModuleInformation) : Prop where
  suffix : m.offsetToFileName.toNat < m.pathBytes.length →
    (filenameFromInfo m).start + (filenameFromInfo m).len = m.pathBytes.length ∧
    (filenameFromInfo m).bytes m <:+ m.pathBytes ∧
    ∃ path file, m.path = some path ∧ decode ((filenameFromInfo m).bytes m) = some file ∧
      comparedFile m.offsetToFileName.toNat (u.toLowercase path) = some (u.toLowercase file)
  outside : m.pathBytes.length ≤ m.offsetToFileName.toNat →
    ((filenameFromInfo m).start = 0 ∧ (filenameFromInfo m).len = m.pathBytes.length) ∨
      (filenameFromInfo m).len = 0

/-- **The two file names.** On an ASCII path the two readings agree, and stay inside the
    path, exactly when the offset lies inside the path, or outside the array, or at a NUL. -/
theorem filenameFromInfo_agrees_iff (u : Unicode) (m : ModuleInformation)
    (hnul : 0 ∈ m.fullPathName.toList) (hascii : ∀ b ∈ m.pathBytes, b < 128) :
    FilenameAgrees u m ↔ m.offsetToFileName.toNat < m.pathBytes.length ∨
      256 ≤ m.offsetToFileName.toNat ∨
      m.fullPathName.toList[m.offsetToFileName.toNat]? = some 0 := by
  by_cases hin : m.offsetToFileName.toNat < m.pathBytes.length
  · refine iff_of_true ?_ (.inl hin)
    obtain ⟨hend, hbytes⟩ := filenameFromInfo_rest hnul hin
    refine ⟨fun _ => ⟨hend, hbytes ▸ List.drop_suffix _ _, _, _, decode_ascii hascii, ?_,
      comparedFile_ascii hascii hin⟩, fun hge => absurd hin (Nat.not_lt.mpr hge)⟩
    rw [hbytes]
    exact decode_ascii fun b hb => hascii b (List.mem_of_mem_drop hb)
  · have hge := Nat.not_lt.mp hin
    rw [or_iff_right hin, ← filenameFromInfo_behind hnul hge]
    exact ⟨fun h => h.outside hge, fun h => ⟨fun hlt => absurd hlt hin, fun _ => h⟩⟩

/-- `\a\B`, with the file name at byte 3. -/
def plainModule : ModuleInformation := fixtureModule ['\\', 'a', '\\', 'B'] 3

theorem plainModule_ascii : ∀ b ∈ plainModule.pathBytes, b < 128 := by
  have hall : plainModule.pathBytes.all (· < 128) = true := by decide
  exact fun b hb => of_decide_eq_true (List.all_eq_true.mp hall b hb)

theorem filenameFromInfo_agrees_plain : FilenameAgrees fixtureUnicode plainModule :=
  (filenameFromInfo_agrees_iff fixtureUnicode plainModule (by decide) plainModule_ascii).mpr
    (.inl (by decide))

/-- The path `a`, a byte left behind its NUL, and an offset that points there. -/
def staleModule : ModuleInformation := fixtureModule ['a', Char.ofNat 0, 'b'] 2

/-- The file name is the byte behind the NUL. -/
theorem filenameFromInfo_stale : 0 ∈ staleModule.fullPathName.toList ∧
    staleModule.pathBytes = [0x61] ∧ (filenameFromInfo staleModule).bytes staleModule = [0x62] ∧
    ¬ FilenameAgrees fixtureUnicode staleModule := by
  refine ⟨by decide, by decide, by decide, fun h => ?_⟩
  have hslice := h.outside (by decide)
  revert hslice
  decide

end WinKernl
