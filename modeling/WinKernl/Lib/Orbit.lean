import Mathlib.Data.Finset.Card
import Mathlib.Logic.Function.Iterate

/- Searches along an orbit.

   A loop that goes from `a` to `f a` until it meets a point that stops it ends when
   some point of the orbit of `a` does. On a finite set of points there is one way not
   to end: the orbit comes back to a point it has passed, and none of the points up to
   there stops it (`Circles`). -/
namespace Orbit

universe u

variable {α : Type u} (f : α → α) (stop : α → Prop) (a : α)

/-- The orbit comes back to a point, and no point before that stops. -/
def Circles : Prop := ∃ i j, i < j ∧ f^[i] a = f^[j] a ∧ ∀ m < j, ¬ stop (f^[m] a)

variable {f stop a}

/-- Behind its first return an orbit has no new points. -/
theorem exists_lt_of_return {i j : Nat} (hij : i < j) (h : f^[i] a = f^[j] a) (n : Nat) :
    ∃ m < j, f^[m] a = f^[n] a := by
  induction n using Nat.strong_induction_on with
  | _ n ih =>
    rcases Nat.lt_or_ge n j with hlt | hge
    · exact ⟨n, hlt, rfl⟩
    · obtain ⟨k, rfl⟩ := Nat.exists_eq_add_of_le' hge
      obtain ⟨m, hm, hmk⟩ := ih (k + i) (by omega)
      refine ⟨m, hm, ?_⟩
      rw [hmk, Function.iterate_add_apply, Function.iterate_add_apply, h]

theorem Circles.never_stops (h : Circles f stop a) (n : Nat) : ¬ stop (f^[n] a) := by
  obtain ⟨i, j, hij, heq, hno⟩ := h
  obtain ⟨m, hm, hmn⟩ := exists_lt_of_return hij heq n
  exact hmn ▸ hno m hm

/-- In a finite set an orbit comes back within as many steps as the set has points. -/
theorem exists_return {s : Finset α} (hs : ∀ n, f^[n] a ∈ s) :
    ∃ i j, i < j ∧ j ≤ s.card ∧ f^[i] a = f^[j] a := by
  have hcard : s.card < (Finset.range (s.card + 1)).card := by
    rw [Finset.card_range]
    exact Nat.lt_succ_self _
  obtain ⟨x, hx, y, hy, hxy, heq⟩ := Finset.exists_ne_map_eq_of_card_lt_of_maps_to hcard
    (f := fun n => f^[n] a) (fun n _ => hs n)
  rw [Finset.mem_range] at hx hy
  rcases Nat.lt_or_gt_of_ne hxy with hlt | hgt
  · exact ⟨x, y, hlt, by omega, heq⟩
  · exact ⟨y, x, hgt, by omega, heq.symm⟩

/-- An orbit in a finite set that does not circle stops within its size. -/
theorem stops_of_not_circles {s : Finset α} (hs : ∀ n, f^[n] a ∈ s) (h : ¬ Circles f stop a) :
    ∃ n < s.card, stop (f^[n] a) := by
  by_contra hnone
  obtain ⟨i, j, hij, hj, heq⟩ := exists_return hs
  exact h ⟨i, j, hij, heq, fun m hm hstop => hnone ⟨m, by omega, hstop⟩⟩

end Orbit
