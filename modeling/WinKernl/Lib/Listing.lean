import Mathlib.Logic.Basic

/- Code as a listing: the decoded instructions, entered at the first.

   An instruction changes the state and says where control goes. `run` follows it
   through the listing until an instruction returns, for as many instructions as it has
   fuel; `Reaches` is the same walk as a relation, with the places it passes. A walk
   that reaches an instruction which returns is a run (`finishes_of_reaches`), and code
   returns in one way at most (`finishes_unique`). -/
namespace Listing

universe u v

/-- Where control goes: on, to another place of the listing, out of it, to the caller. -/
inductive Flow where
  | next
  | goto (k : Nat)
  | leave
  | ret
  deriving DecidableEq, Repr

section
variable {I : Type u} {C : Type v} (exec : I → C → C × Flow) (code : List I)

/-- The state in which the code returns, when it does so within `fuel` instructions. -/
def run : (fuel k : Nat) → C → Option C
  | 0, _, _ => none
  | fuel + 1, k, c =>
    match code[k]? with
    | none => none
    | some i =>
      match exec i c with
      | (c', .next) => run fuel (k + 1) c'
      | (c', .goto j) => run fuel j c'
      | (_, .leave) => none
      | (c', .ret) => some c'

/-- The code, entered in `c`, returns in `c'`. -/
def Finishes (c c' : C) : Prop := ∃ fuel, run exec code fuel 0 c = some c'

/-- Control comes from instruction `k` in state `c` to instruction `k'` in state `c'`. -/
inductive Reaches : Nat → C → Nat → C → Prop where
  | refl (k : Nat) (c : C) : Reaches k c k c
  | next {i : I} {k k' : Nat} {c c₁ c' : C} (hk : code[k]? = some i)
      (hi : exec i c = (c₁, .next)) (h : Reaches (k + 1) c₁ k' c') : Reaches k c k' c'
  | goto {i : I} {j k k' : Nat} {c c₁ c' : C} (hk : code[k]? = some i)
      (hi : exec i c = (c₁, .goto j)) (h : Reaches j c₁ k' c') : Reaches k c k' c'

variable {exec code}

theorem Reaches.trans {k k₁ k' : Nat} {c c₁ c' : C} (h : Reaches exec code k c k₁ c₁)
    (h' : Reaches exec code k₁ c₁ k' c') : Reaches exec code k c k' c' := by
  induction h with
  | refl k c => exact h'
  | next hk hi _ ih => exact .next hk hi (ih h')
  | goto hk hi _ ih => exact .goto hk hi (ih h')

/-- A walk to an instruction that returns is a run. -/
theorem run_of_reaches {i : I} {k k' : Nat} {c c₁ c' : C} (h : Reaches exec code k c k' c₁)
    (hk : code[k']? = some i) (hi : exec i c₁ = (c', .ret)) :
    ∃ fuel, run exec code fuel k c = some c' := by
  induction h with
  | refl k c => exact ⟨1, by rw [run, hk]; simp only [hi]⟩
  | next hk₁ hi₁ _ ih =>
    obtain ⟨fuel, hrun⟩ := ih hk hi
    exact ⟨fuel + 1, by rw [run, hk₁]; simp only [hi₁, hrun]⟩
  | goto hk₁ hi₁ _ ih =>
    obtain ⟨fuel, hrun⟩ := ih hk hi
    exact ⟨fuel + 1, by rw [run, hk₁]; simp only [hi₁, hrun]⟩

theorem finishes_of_reaches {i : I} {k : Nat} {c c₁ c' : C} (h : Reaches exec code 0 c k c₁)
    (hk : code[k]? = some i) (hi : exec i c₁ = (c', .ret)) : Finishes exec code c c' :=
  run_of_reaches h hk hi

/-- More fuel does not change where the code returns. -/
theorem run_mono {fuel fuel' k : Nat} {c c' : C} (h : run exec code fuel k c = some c')
    (hle : fuel ≤ fuel') : run exec code fuel' k c = some c' := by
  induction fuel generalizing fuel' k c with
  | zero => cases h
  | succ fuel ih =>
    obtain ⟨fuel', rfl⟩ := Nat.exists_eq_add_of_le hle
    rw [Nat.add_right_comm]
    rw [run] at h ⊢
    cases hk : code[k]? with
    | none => rw [hk] at h; cases h
    | some i =>
      rw [hk] at h
      dsimp only at h ⊢
      -- the same instruction is executed; only what follows it has more fuel
      generalize exec i c = r at h
      obtain ⟨c₁, flow⟩ := r
      cases flow with
      | next => exact ih h (Nat.le_add_right _ _)
      | goto j => exact ih h (Nat.le_add_right _ _)
      | leave => cases h
      | ret => exact h

theorem finishes_unique {c c' c'' : C} (h : Finishes exec code c c') (h' : Finishes exec code c c'') :
    c' = c'' := by
  obtain ⟨fuel, h⟩ := h
  obtain ⟨fuel', h'⟩ := h'
  -- both runs fit in the longer one
  have hmax := run_mono h (Nat.le_max_left fuel fuel')
  have hmax' := run_mono h' (Nat.le_max_right fuel fuel')
  exact Option.some.inj (hmax.symm.trans hmax')

end
end Listing
