import Mathlib.Logic.Basic

/- Loops that may not end.

   One turn of a loop goes on from a state (`inl`) or leaves the loop with a result
   (`inr`). `loop turn n` is what the first `n` turns give, `none` while the loop is
   still going. `loop_total` is total correctness by an invariant and a variant;
   `loop_lockstep` is for two loops whose states stay related and which leave
   together. -/
namespace WhileLoop

universe u v w

section
variable {σ : Type u} {τ : Type w} {ρ : Type v}

def loop (turn : σ → σ ⊕ ρ) : Nat → σ → Option ρ
  | 0, _ => none
  | n + 1, s =>
    match turn s with
    | .inl s' => loop turn n s'
    | .inr r => some r

variable {turn : σ → σ ⊕ ρ} {turn' : τ → τ ⊕ ρ}

theorem loop_inl {s s' : σ} (h : turn s = .inl s') (n : Nat) :
    loop turn (n + 1) s = loop turn n s' := by
  rw [loop, h]

theorem loop_inr {s : σ} {r : ρ} (h : turn s = .inr r) (n : Nat) :
    loop turn (n + 1) s = some r := by
  rw [loop, h]

/-- From a state in the invariant the loop ends within as many turns as the variant
    says and one more, and its result meets the postcondition. -/
theorem loop_total {Inv : σ → Prop} {Post : ρ → Prop} {variant : σ → Nat}
    (hgo : ∀ s s', Inv s → turn s = .inl s' → Inv s' ∧ variant s' < variant s)
    (hleave : ∀ s r, Inv s → turn s = .inr r → Post r)
    {n : Nat} {s : σ} (hs : Inv s) (hn : variant s < n) :
    ∃ r, loop turn n s = some r ∧ Post r := by
  induction n generalizing s with
  | zero => omega
  | succ n ih =>
    cases hturn : turn s with
    | inl s' =>
      obtain ⟨hs', hlt⟩ := hgo s s' hs hturn
      rw [loop_inl hturn]
      exact ih hs' (by omega)
    | inr r => exact ⟨r, loop_inr hturn n, hleave s r hs hturn⟩

/-- Loops that keep step give the same result in the same number of turns. -/
theorem loop_lockstep {R : σ → τ → Prop}
    (h : ∀ s t, R s t → Sum.LiftRel R Eq (turn s) (turn' t)) {s : σ} {t : τ} (hst : R s t)
    (n : Nat) : loop turn n s = loop turn' n t := by
  induction n generalizing s t with
  | zero => rfl
  | succ n ih =>
    have hturns := h s t hst
    generalize hs : turn s = x at hturns
    generalize ht : turn' t = y at hturns
    cases hturns with
    | inl hst' =>
      rw [loop_inl hs, loop_inl ht]
      exact ih hst'
    | inr hr => rw [loop_inr hs, loop_inr ht, hr]

end
end WhileLoop
