import Mathlib.Data.List.Pairwise
import Mathlib.Order.Nat

/- A walk along a list whose elements come and go.

   Each element has a link to the one behind it, the last one to the first. `lists t` is the
   list at time `t`, in the order of a rank that never changes, and who has left the list
   keeps the link it had. A walk that follows the links may stand on an element that is gone.
   Even so it only goes on in the order of the ranks, comes only to elements that have been
   in the list since it set out, and passes none that has been there all along
   (`Period.next_cases`, `Clear.go`). -/
namespace ListWalk

universe u

section
variable {α : Type u}

/-- Each element's `next` is the one behind it, and the last one's is `start`. -/
def Follows (start : α) (next : α → α) : List α → Prop
  | [] => True
  | [x] => next x = start
  | x :: y :: l => next x = y ∧ Follows start next (y :: l)

theorem Follows.next_eq {start x : α} {next : α → α} {l r : List α}
    (h : Follows start next (l ++ x :: r)) : next x = r.headD start := by
  induction l with
  | nil =>
    cases r with
    | nil => exact h
    | cons y r => exact h.1
  | cons z l ih =>
    cases l with
    | nil => exact ih h.2
    | cons w l => exact ih h.2

/-- The lists from time 0 to time `T`. -/
structure Period (T : Nat) (start : α) (rank : α → Nat) (lists : Nat → List α)
    (next : Nat → α → α) : Prop where
  first : ∀ t ≤ T, ∃ l, lists t = start :: l
  sorted : ∀ t ≤ T, (lists t).Pairwise (rank · < rank ·)
  follows : ∀ t ≤ T, Follows start (next t) (lists t)
  kept : ∀ t < T, ∀ u ≤ t, ∀ x ∈ lists u, x ∉ lists (t + 1) → next (t + 1) x = next t x

/-- `x` has been in the list at some time from `s` to `t`. -/
def Seen (lists : Nat → List α) (s t : Nat) (x : α) : Prop := ∃ u, s ≤ u ∧ u ≤ t ∧ x ∈ lists u

/-- `x` is in the list at all times from `s` to `t`. -/
def Stays (lists : Nat → List α) (s t : Nat) (x : α) : Prop := ∀ u, s ≤ u → u ≤ t → x ∈ lists u

/-- Nothing wanted that has stayed is behind the walk, which is at `x`. -/
def Clear (rank : α → Nat) (lists : Nat → List α) (wanted : α → Prop) (s t : Nat) (x : α) : Prop :=
  ∀ z, wanted z → Stays lists s t z → rank x ≤ rank z

variable {T s t t' : Nat} {start x z : α} {rank : α → Nat} {lists : Nat → List α}
  {next : Nat → α → α} {wanted : α → Prop}

theorem Seen.mono (h : Seen lists s t x) (ht : t ≤ t') : Seen lists s t' x := by
  obtain ⟨u, hsu, hut, hx⟩ := h
  exact ⟨u, hsu, hut.trans ht, hx⟩

theorem Stays.mono (h : Stays lists s t' x) (ht : t ≤ t') : Stays lists s t x :=
  fun u hsu hut => h u hsu (hut.trans ht)

theorem Clear.mono (h : Clear rank lists wanted s t x) (ht : t ≤ t') :
    Clear rank lists wanted s t' x :=
  fun z hz hstays => h z hz (hstays.mono ht)

namespace Period
variable (hp : Period T start rank lists next)
include hp

theorem start_mem (ht : t ≤ T) : start ∈ lists t := by
  obtain ⟨l, hl⟩ := hp.first t ht
  rw [hl]
  exact List.mem_cons_self

/-- The first element has the least rank. -/
theorem start_le (ht : t ≤ T) (hx : x ∈ lists t) : rank start ≤ rank x := by
  obtain ⟨l, hl⟩ := hp.first t ht
  have hsorted := hp.sorted t ht
  rw [hl] at hx hsorted
  rcases List.mem_cons.mp hx with rfl | hx
  · exact Nat.le_refl _
  · exact (List.rel_of_pairwise_cons hsorted hx).le

/-- The list around an element of it. -/
theorem around (ht : t ≤ T) (hx : x ∈ lists t) : ∃ l r, lists t = l ++ x :: r ∧
    (∀ y ∈ l, rank y < rank x) ∧ (∀ y ∈ r, rank x < rank y) ∧ r.Pairwise (rank · < rank ·) := by
  obtain ⟨l, r, hlr⟩ := List.append_of_mem hx
  have hsorted := hp.sorted t ht
  rw [hlr, List.pairwise_append] at hsorted
  obtain ⟨-, hr, hlt⟩ := hsorted
  rw [List.pairwise_cons] at hr
  exact ⟨l, r, hlr, fun y hy => hlt y hy x List.mem_cons_self, hr.1, hr.2⟩

theorem eq_of_rank (ht : t ≤ T) (hx : x ∈ lists t) (hz : z ∈ lists t) (h : rank x = rank z) :
    x = z := by
  obtain ⟨l, r, hlr, hl, hr, -⟩ := hp.around ht hx
  rw [hlr, List.mem_append, List.mem_cons] at hz
  rcases hz with hz | rfl | hz
  · exact absurd h (hl z hz).ne'
  · rfl
  · exact absurd h (hr z hz).ne

/-- The link of an element is the one it had when it was last in the list. -/
theorem last_listed (ht : t ≤ T) (hx : Seen lists s t x) :
    ∃ u, s ≤ u ∧ u ≤ t ∧ x ∈ lists u ∧ next t x = next u x := by
  induction t with
  | zero =>
    obtain ⟨u, hsu, hut, hx⟩ := hx
    obtain rfl := Nat.le_zero.mp hut
    exact ⟨0, hsu, hut, hx, rfl⟩
  | succ t ih =>
    by_cases hnow : x ∈ lists (t + 1)
    · obtain ⟨u, hsu, hut, -⟩ := hx
      exact ⟨t + 1, hsu.trans hut, Nat.le_refl _, hnow, rfl⟩
    · obtain ⟨u, hsu, hut, hx⟩ := hx
      have hle : u ≤ t := by
        rcases Nat.lt_or_ge t u with hlt | hle
        · exact absurd (Nat.le_antisymm hut hlt ▸ hx) hnow
        · exact hle
      obtain ⟨v, hsv, hvt, hxv, hnext⟩ := ih (Nat.le_of_succ_le ht) ⟨u, hsu, hle, hx⟩
      exact ⟨v, hsv, Nat.le_succ_of_le hvt, hxv, (hp.kept t ht u hle x hx hnow).trans hnext⟩

/-- Where the walk goes from `x`: to the first element, and then all that has stayed is
    behind it, or on, and then it passes nothing that has stayed. -/
theorem next_cases (ht : t ≤ T) (hx : Seen lists s t x) :
    (next t x = start ∧ ∀ z, Stays lists s t z → rank z ≤ rank x) ∨
    (Seen lists s t (next t x) ∧ rank x < rank (next t x) ∧
      ∀ z, Stays lists s t z → rank x < rank z → rank (next t x) ≤ rank z) := by
  obtain ⟨u, hsu, hut, hxu, hnext⟩ := hp.last_listed ht hx
  have hu := hut.trans ht
  obtain ⟨l, r, hlr, hl, hr, hsorted⟩ := hp.around hu hxu
  have hmem : ∀ z, Stays lists s t z → z ∈ l ∨ z = x ∨ z ∈ r := by
    intro z hz
    have hzu := hz u hsu hut
    rwa [hlr, List.mem_append, List.mem_cons] at hzu
  have hfollows := hp.follows u hu
  rw [hlr] at hfollows
  rw [hnext, hfollows.next_eq]
  cases r with
  | nil =>
    refine .inl ⟨rfl, fun z hz => ?_⟩
    rcases hmem z hz with hz | rfl | hz
    · exact (hl z hz).le
    · exact Nat.le_refl _
    · cases hz
  | cons y r =>
    refine .inr ⟨⟨u, hsu, hut, ?_⟩, hr y List.mem_cons_self, fun z hz hlt => ?_⟩
    · rw [hlr]
      exact List.mem_append_right _ (List.mem_cons_of_mem _ List.mem_cons_self)
    · rcases hmem z hz with hz | rfl | hz
      · exact absurd (hl z hz) hlt.asymm
      · exact absurd hlt (Nat.lt_irrefl _)
      · rcases List.mem_cons.mp hz with rfl | hz
        · exact Nat.le_refl _
        · exact (List.rel_of_pairwise_cons hsorted hz).le

theorem clear_start (hs : s ≤ T) : Clear rank lists wanted s s start :=
  fun _ _ hz => hp.start_le hs (hz s (Nat.le_refl _) (Nat.le_refl _))

/-- An element that is not wanted is left behind. -/
theorem clear_lt (ht : t ≤ T) (hc : Clear rank lists wanted s t x) (hx : Seen lists s t x)
    (hnot : ¬ wanted x) (hz : wanted z) (hstays : Stays lists s t z) : rank x < rank z := by
  obtain ⟨u, hsu, hut, hxu⟩ := hx
  refine Nat.lt_of_le_of_ne (hc z hz hstays) fun heq => hnot ?_
  rw [hp.eq_of_rank (hut.trans ht) hxu (hstays u hsu hut) heq]
  exact hz

/-- The walk goes on from an element that is not wanted: it is back at the first element,
    and then nothing wanted has stayed, or it has passed nothing wanted that has. -/
theorem clear_go (ht : t ≤ T) (hc : Clear rank lists wanted s t x) (hx : Seen lists s t x)
    (hnot : ¬ wanted x) :
    (next t x = start ∧ ∀ z, wanted z → ¬ Stays lists s t z) ∨
    (next t x ≠ start ∧ Seen lists s t (next t x) ∧ rank x < rank (next t x) ∧
      Clear rank lists wanted s t (next t x)) := by
  rcases hp.next_cases ht hx with ⟨hstart, hall⟩ | ⟨hseen, hlt, hpass⟩
  · refine .inl ⟨hstart, fun z hz hstays => ?_⟩
    exact absurd (hp.clear_lt ht hc hx hnot hz hstays) (hall z hstays).not_gt
  · refine .inr ⟨fun heq => ?_, hseen, hlt, fun z hz hstays => ?_⟩
    · obtain ⟨u, -, hut, hxu⟩ := hx
      rw [heq] at hlt
      exact absurd hlt (hp.start_le (hut.trans ht) hxu).not_gt
    · exact hpass z hstays (hp.clear_lt ht hc hx hnot hz hstays)

end Period

end
end ListWalk
