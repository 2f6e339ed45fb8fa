import Mathlib.Order.Bounds.Defs
import WinKernl.Lib.Ask
import WinKernl.Lib.ByteMem

/- Byte patterns in a memory region (`memory/mod.rs`).

   Correspondence (Rust ↔ Lean):
     `pattern_search`                 ↔ `patternSearch`
     its inner and outer `for`        ↔ `windowLoop`, `searchLoop`
     `*start.add(j)`                  ↔ a request, answered with the byte there
   A wildcard is `none`; its byte is read and not looked at. The outer loop runs over
   the windows of the region, the last one included, and stops at the first that fits. -/
namespace WinKernl
open ByteMem Ask

abbrev ByteProg (α : Type) := Prog (BitVec 64) (fun _ => Byte) Empty α

/-- The inner loop, from byte `j` of the pattern on: `finded`. -/
def windowLoop (start : BitVec 64) : (j : Nat) → List (Option Byte) → ByteProg Bool
  | _, [] => .ok true
  | j, pat :: rest =>
    .ask (start + BitVec.ofNat 64 j) fun memByte =>
      match pat with
      | some b => if memByte ≠ b then .ok false else windowLoop start (j + 1) rest
      | none => windowLoop start (j + 1) rest

/-- The outer loop, from window `i` on, with `left` windows left. -/
def searchLoop (base : BitVec 64) (pattern : List (Option Byte)) :
    (left i : Nat) → ByteProg (Option (BitVec 64))
  | 0, _ => .ok none
  | left + 1, i =>
    windowLoop (base + BitVec.ofNat 64 i) 0 pattern >>= fun finded =>
      if finded then .ok (some (base + BitVec.ofNat 64 i)) else
      searchLoop base pattern left (i + 1)

def patternSearch (base imgSize : BitVec 64) (pattern : List (Option Byte)) :
    ByteProg (Option (BitVec 64)) :=
  let plen := pattern.length
  if plen = 0 ∨ imgSize.toNat < plen then .ok none else
  let last := imgSize.toNat - plen
  searchLoop base pattern (last + 1) 0

/-! One window. -/

/-- Every exact byte of the pattern, from byte `j` on, is the byte at its place. -/
def FitsFrom (mem : Mem 64) (start : BitVec 64) (j : Nat) (pats : List (Option Byte)) : Prop :=
  ∀ k b, pats[k]? = some (some b) → mem (start + BitVec.ofNat 64 (j + k)) = b

theorem fitsFrom_cons {mem : Mem 64} {start : BitVec 64} {j : Nat} {pat : Option Byte}
    {rest : List (Option Byte)} : FitsFrom mem start j (pat :: rest) ↔
      (∀ b, pat = some b → mem (start + BitVec.ofNat 64 j) = b) ∧
        FitsFrom mem start (j + 1) rest := by
  constructor
  · intro h
    refine ⟨fun b hb => h 0 b (by rw [hb]; rfl), fun k b hk => ?_⟩
    rw [Nat.add_assoc, Nat.add_comm 1]
    exact h (k + 1) b hk
  · intro h k b hk
    obtain ⟨hfirst, hrest⟩ := h
    cases k with
    | zero => exact hfirst b (Option.some.inj hk)
    | succ k =>
      rw [Nat.add_comm k, ← Nat.add_assoc]
      exact hrest k b hk

/-- The inner loop finds out whether the window fits. -/
theorem windowLoop_result (mem : Mem 64) (start : BitVec 64) (j : Nat)
    (pats : List (Option Byte)) :
    ((windowLoop start j pats).result mem = .ok true ∧ FitsFrom mem start j pats) ∨
      ((windowLoop start j pats).result mem = .ok false ∧ ¬ FitsFrom mem start j pats) := by
  induction pats generalizing j with
  | nil => exact .inl ⟨rfl, fun k b hk => nomatch hk⟩
  | cons pat rest ih =>
    rw [fitsFrom_cons, windowLoop, Prog.result_ask]
    cases pat with
    | none =>
      have hfirst : ∀ b, (none : Option Byte) = some b →
          mem (start + BitVec.ofNat 64 j) = b := fun b hb => nomatch hb
      rw [and_iff_right hfirst]
      exact ih (j + 1)
    | some b =>
      have hfirst : (∀ b', some b = some b' → mem (start + BitVec.ofNat 64 j) = b') ↔
          mem (start + BitVec.ofNat 64 j) = b := by
        constructor
        · exact fun h => h b rfl
        · intro h b' hb'
          rw [h, Option.some.inj hb']
      rw [hfirst]
      dsimp only
      by_cases heq : mem (start + BitVec.ofNat 64 j) = b
      · rw [if_neg (not_not.mpr heq), and_iff_right heq]
        exact ih (j + 1)
      · rw [if_pos heq]
        exact .inr ⟨rfl, fun h => heq h.1⟩

/-- The inner loop reads inside the window, whatever it finds there. -/
theorem windowLoop_asks (start : BitVec 64) (j : Nat) (pats : List (Option Byte)) :
    (windowLoop start j pats).Asks fun q =>
      ∃ k, j ≤ k ∧ k < j + pats.length ∧ q = start + BitVec.ofNat 64 k := by
  induction pats generalizing j with
  | nil => trivial
  | cons pat rest ih =>
    have hrest : (windowLoop start (j + 1) rest).Asks fun q =>
        ∃ k, j ≤ k ∧ k < j + (pat :: rest).length ∧ q = start + BitVec.ofNat 64 k := by
      refine Prog.Asks.mono (fun q hq => ?_) (ih (j + 1))
      obtain ⟨k, hlo, hhi, hq⟩ := hq
      exact ⟨k, by omega, by rw [List.length_cons]; omega, hq⟩
    refine ⟨⟨j, Nat.le_refl j, by rw [List.length_cons]; omega, rfl⟩, fun r => ?_⟩
    cases pat with
    | none => exact hrest
    | some b => exact Prog.Asks.ite (Prog.Asks.ok false) hrest

/-! All windows. -/

/-- The outer loop returns the first window that fits. -/
theorem searchLoop_result (mem : Mem 64) (base : BitVec 64) (pattern : List (Option Byte))
    (left i : Nat) :
    ((searchLoop base pattern left i).result mem = .ok none ∧
        ∀ k, i ≤ k → k < i + left → ¬ FitsFrom mem (base + BitVec.ofNat 64 k) 0 pattern) ∨
      ∃ k, i ≤ k ∧ k < i + left ∧
        (searchLoop base pattern left i).result mem = .ok (some (base + BitVec.ofNat 64 k)) ∧
        FitsFrom mem (base + BitVec.ofNat 64 k) 0 pattern ∧
        ∀ k', i ≤ k' → k' < k → ¬ FitsFrom mem (base + BitVec.ofNat 64 k') 0 pattern := by
  induction left generalizing i with
  | zero => exact .inl ⟨rfl, fun k hlo hhi => absurd hhi (by omega)⟩
  | succ left ih =>
    rcases windowLoop_result mem (base + BitVec.ofNat 64 i) 0 pattern with
      ⟨hwindow, hfits⟩ | ⟨hwindow, hnot⟩
    · -- window `i` fits, and the loop stops there
      have hstop : (searchLoop base pattern (left + 1) i).result mem =
          .ok (some (base + BitVec.ofNat 64 i)) := by
        rw [searchLoop, Prog.result_bind, hwindow]
        rfl
      exact .inr ⟨i, Nat.le_refl i, by omega, hstop, hfits,
        fun k' hlo hhi => absurd hhi (by omega)⟩
    · have hgo : (searchLoop base pattern (left + 1) i).result mem =
          (searchLoop base pattern left (i + 1)).result mem := by
        rw [searchLoop, Prog.result_bind, hwindow]
        rfl
      -- window `i` does not fit, so what holds from `i + 1` on holds from `i` on
      have hfrom : ∀ n, (∀ k, i + 1 ≤ k → k < n →
          ¬ FitsFrom mem (base + BitVec.ofNat 64 k) 0 pattern) →
          ∀ k, i ≤ k → k < n → ¬ FitsFrom mem (base + BitVec.ofNat 64 k) 0 pattern := by
        intro n hrest k hlo hhi
        rcases Nat.eq_or_lt_of_le hlo with rfl | hlt
        · exact hnot
        · exact hrest k hlt hhi
      rw [hgo]
      rcases ih (i + 1) with ⟨hnone, hrest⟩ | ⟨k, hlo, hhi, hsome, hfits, hrest⟩
      · exact .inl ⟨hnone, hfrom _ fun k hlo hhi => hrest k hlo (by omega)⟩
      · exact .inr ⟨k, by omega, by omega, hsome, hfits, hfrom k hrest⟩

theorem searchLoop_asks (base : BitVec 64) (pattern : List (Option Byte)) (left i : Nat) :
    (searchLoop base pattern left i).Asks fun q =>
      ∃ k, k + 1 < i + left + pattern.length ∧ q = base + BitVec.ofNat 64 k := by
  induction left generalizing i with
  | zero => trivial
  | succ left ih =>
    refine Prog.Asks.bind (Prog.Asks.mono (fun q hq => ?_) (windowLoop_asks _ 0 pattern))
      fun finded => Prog.Asks.ite (Prog.Asks.ok _)
        (Prog.Asks.mono (fun q hq => ?_) (ih (i + 1)))
    · obtain ⟨k, -, hk, hq⟩ := hq
      refine ⟨i + k, by omega, ?_⟩
      rw [hq, BitVec.add_assoc, BitVec.ofNat_add]
    · obtain ⟨k, hk, hq⟩ := hq
      exact ⟨k, by omega, hq⟩

/-! The search. -/

/-- The pattern fits at `a`, and lies in the region there. -/
structure FitsAt (mem : Mem 64) (base imgSize : BitVec 64) (pattern : List (Option Byte))
    (a : BitVec 64) : Prop where
  low : base.toNat ≤ a.toNat
  high : a.toNat + pattern.length ≤ base.toNat + imgSize.toNat
  fits : ∀ j b, pattern[j]? = some (some b) → mem (a + BitVec.ofNat 64 j) = b

section
variable {mem : Mem 64} {base imgSize : BitVec 64} {pattern : List (Option Byte)}

theorem window_toNat (h : base.toNat + imgSize.toNat ≤ 2^64) {k : Nat} (hk : k < imgSize.toNat) :
    (base + BitVec.ofNat 64 k).toNat = base.toNat + k := by
  rw [BitVec.toNat_add, BitVec.toNat_ofNat, Nat.add_mod_mod, Nat.mod_eq_of_lt (by omega)]

/-- The pattern fits at the windows of the region and nowhere else. -/
theorem fitsAt_iff (h : base.toNat + imgSize.toNat ≤ 2^64) (hpos : 0 < pattern.length)
    (hle : pattern.length ≤ imgSize.toNat) {a : BitVec 64} :
    FitsAt mem base imgSize pattern a ↔
      ∃ k, k < imgSize.toNat - pattern.length + 1 ∧ a = base + BitVec.ofNat 64 k ∧
        FitsFrom mem (base + BitVec.ofNat 64 k) 0 pattern := by
  constructor
  · intro hfits
    obtain ⟨hlow, hhigh, hbytes⟩ := hfits
    -- the window begins as far behind the base as the address lies
    have ha : a = base + BitVec.ofNat 64 (a.toNat - base.toNat) := by
      apply BitVec.eq_of_toNat_eq
      rw [window_toNat h (by omega)]
      omega
    refine ⟨a.toNat - base.toNat, by omega, ha, fun j b hj => ?_⟩
    rw [← ha, Nat.zero_add]
    exact hbytes j b hj
  · intro hwindow
    obtain ⟨k, hk, rfl, hfits⟩ := hwindow
    have hnat := window_toNat h (k := k) (by omega)
    refine ⟨by omega, by omega, fun j b hj => ?_⟩
    have hbyte := hfits j b hj
    rwa [Nat.zero_add] at hbyte

/-- The two ways the search can end. -/
theorem patternSearch_cases (mem : Mem 64) (h : base.toNat + imgSize.toNat ≤ 2^64) :
    ((patternSearch base imgSize pattern).result mem = .ok none ∧
        (pattern = [] ∨ ∀ a, ¬ FitsAt mem base imgSize pattern a)) ∨
      ∃ a, (patternSearch base imgSize pattern).result mem = .ok (some a) ∧ pattern ≠ [] ∧
        IsLeast {a | FitsAt mem base imgSize pattern a} a := by
  rw [patternSearch]
  by_cases hsmall : pattern.length = 0 ∨ imgSize.toNat < pattern.length
  · rw [if_pos hsmall]
    refine .inl ⟨rfl, ?_⟩
    rcases hsmall with hnil | hshort
    · exact .inl (List.length_eq_zero_iff.mp hnil)
    · refine .inr fun a hfits => ?_
      have := hfits.low
      have := hfits.high
      omega
  · rw [if_neg hsmall]
    obtain ⟨hnil, hshort⟩ := not_or.mp hsmall
    have hiff := fun a => @fitsAt_iff mem base imgSize pattern h (by omega) (by omega) a
    rcases searchLoop_result mem base pattern (imgSize.toNat - pattern.length + 1) 0 with
      ⟨hnone, hno⟩ | ⟨k, -, hk, hsome, hfits, hno⟩
    · refine .inl ⟨hnone, .inr fun a hfits => ?_⟩
      obtain ⟨k, hk, -, hwindow⟩ := (hiff a).mp hfits
      exact hno k (Nat.zero_le k) (by omega) hwindow
    · refine .inr ⟨_, hsome, fun hp => hnil (congrArg List.length hp), ?_, fun a hfits' => ?_⟩
      · exact (hiff _).mpr ⟨k, by omega, rfl, hfits⟩
      · -- a window in front of the first that fits
        obtain ⟨k', hk', rfl, hwindow⟩ := (hiff a).mp hfits'
        have hle : k ≤ k' := by
          by_contra hlt
          exact hno k' (Nat.zero_le k') (by omega) hwindow
        rw [BitVec.le_def, window_toNat h (by omega), window_toNat h (by omega)]
        omega

end

/-- **The lowest match.** In a region that does not wrap the search returns the lowest
    address where a pattern that is not empty fits, and `None` where there is none; what
    it reads lies in the region. -/
theorem patternSearch_lowest (mem : Mem 64) (base imgSize : BitVec 64)
    (h : base.toNat + imgSize.toNat ≤ 2^64) (pattern : List (Option Byte)) :
    (∀ a, (patternSearch base imgSize pattern).result mem = .ok (some a) ↔
      pattern ≠ [] ∧ IsLeast {a | FitsAt mem base imgSize pattern a} a) ∧
    ((patternSearch base imgSize pattern).result mem = .ok none ↔
      pattern = [] ∨ ∀ a, ¬ FitsAt mem base imgSize pattern a) ∧
    ∀ q ∈ (patternSearch base imgSize pattern).trace mem,
      base.toNat ≤ q.toNat ∧ q.toNat < base.toNat + imgSize.toNat := by
  refine ⟨fun a => ?_, ?_, fun q hq => ?_⟩
  · rcases patternSearch_cases mem h with ⟨hnone, hno⟩ | ⟨x, hsome, hne, hleast⟩
    · rw [hnone]
      refine iff_of_false nofun fun hfits => ?_
      rcases hno with hnil | hno
      · exact hfits.1 hnil
      · exact hno a hfits.2.1
    · rw [hsome, Outcome.ok.injEq, Option.some.injEq]
      constructor
      · intro hx
        exact hx ▸ ⟨hne, hleast⟩
      · intro hfits
        exact BitVec.le_antisymm (hleast.2 hfits.2.1) (hfits.2.2 hleast.1)
  · rcases patternSearch_cases mem h with ⟨hnone, hno⟩ | ⟨x, hsome, hne, hleast⟩
    · exact iff_of_true hnone hno
    · rw [hsome]
      refine iff_of_false nofun fun hno => ?_
      rcases hno with hnil | hno
      · exact hne hnil
      · exact hno x hleast.1
  · rw [patternSearch] at hq
    by_cases hsmall : pattern.length = 0 ∨ imgSize.toNat < pattern.length
    · rw [if_pos hsmall] at hq
      cases hq
    · rw [if_neg hsmall] at hq
      obtain ⟨k, hk, rfl⟩ := Prog.Asks.trace mem (searchLoop_asks _ _ _ _) q hq
      rw [window_toNat h (by omega)]
      omega

/-- Each byte is the low byte of its address. -/
def addressBytes : Mem 64 := fun a => a.setWidth 8

/-- The last four bytes of the address space, of which the third is the first to fit. -/
theorem patternSearch_lowest_top :
    (patternSearch (-4) 4 [some 0xFE#8, none]).result addressBytes = .ok (some (-2)) ∧
      IsLeast {a | FitsAt addressBytes (-4) 4 [some 0xFE#8, none] a} (-2) ∧
      (∀ q ∈ (patternSearch (-4) 4 [some 0xFE#8, none]).trace addressBytes,
        (-4 : BitVec 64).toNat ≤ q.toNat ∧
          q.toNat < (-4 : BitVec 64).toNat + (4 : BitVec 64).toNat) ∧
      ∀ a, ¬ FitsAt addressBytes (-4) 4 [some 0xFD#8, none, some 0xFE#8] a := by
  have hfound : (patternSearch (-4) 4 [some 0xFE#8, none]).result addressBytes =
      .ok (some (-2)) := by
    decide
  have hnot : (patternSearch (-4) 4 [some 0xFD#8, none, some 0xFE#8]).result addressBytes =
      .ok none := by
    decide
  obtain ⟨hleast, -, hreads⟩ :=
    patternSearch_lowest addressBytes (-4) 4 (by decide) [some 0xFE#8, none]
  obtain ⟨-, hnone, -⟩ :=
    patternSearch_lowest addressBytes (-4) 4 (by decide) [some 0xFD#8, none, some 0xFE#8]
  exact ⟨hfound, ((hleast _).mp hfound).2, hreads, (hnone.mp hnot).resolve_left nofun⟩

end WinKernl
