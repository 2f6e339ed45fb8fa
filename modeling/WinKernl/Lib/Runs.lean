import Mathlib.Logic.Basic

/- Runs of a system under a sequence of operations.

   `Always P` says that `P` holds in every state a run passes through, the first
   and the last included. `Guarded G` says that every operation of the run meets
   `G` in the state it is applied to. `always_of_guarded` is induction along a
   run; `always_iff_guarded` is for a property that holds along the legal runs
   whose operations meet a further condition, and along no others. -/
namespace Runs

universe u v

section
variable {S : Type u} {O : Type v} (step : S → O → S)

/-- The state a run ends in. -/
def final (s : S) (os : List O) : S := os.foldl step s

/-- `P` holds in every state of the run. -/
def Always (P : S → Prop) : S → List O → Prop
  | s, [] => P s
  | s, o :: os => P s ∧ Always P (step s o) os

/-- Every operation of the run meets `G` where it is applied. -/
def Guarded (G : S → O → Prop) : S → List O → Prop
  | _, [] => True
  | s, o :: os => G s o ∧ Guarded G (step s o) os

instance decidableGuarded {G : S → O → Prop} [∀ s o, Decidable (G s o)] :
    ∀ s os, Decidable (Guarded step G s os)
  | _, [] => .isTrue trivial
  | s, o :: os =>
    have : Decidable (Guarded step G (step s o) os) := decidableGuarded (step s o) os
    inferInstanceAs (Decidable (G s o ∧ Guarded step G (step s o) os))

variable {step}

theorem final_append (s : S) (os os' : List O) :
    final step s (os ++ os') = final step (final step s os) os' :=
  List.foldl_append

theorem guarded_append {G : S → O → Prop} {s : S} {os os' : List O} :
    Guarded step G s (os ++ os') ↔ Guarded step G s os ∧ Guarded step G (final step s os) os' := by
  induction os generalizing s with
  | nil => exact (iff_of_eq (true_and _)).symm
  | cons o os ih =>
    rw [List.cons_append, Guarded, Guarded, ih, and_assoc]
    rfl

theorem Guarded.and {G H : S → O → Prop} {s : S} {os : List O} (hg : Guarded step G s os)
    (hh : Guarded step H s os) : Guarded step (fun s o => G s o ∧ H s o) s os := by
  induction os generalizing s with
  | nil => trivial
  | cons o os ih => exact ⟨⟨hg.1, hh.1⟩, ih hg.2 hh.2⟩

theorem Always.mono {P P' : S → Prop} (h : ∀ s, P s → P' s) {s : S} {os : List O}
    (hp : Always step P s os) : Always step P' s os := by
  induction os generalizing s with
  | nil => exact h s hp
  | cons o os ih => exact ⟨h s hp.1, ih hp.2⟩

theorem Always.first {P : S → Prop} {s : S} {os : List O} (h : Always step P s os) : P s := by
  cases os with
  | nil => exact h
  | cons o os => exact h.1

theorem Always.last {P : S → Prop} {s : S} {os : List O} (h : Always step P s os) :
    P (final step s os) := by
  induction os generalizing s with
  | nil => exact h
  | cons o os ih => exact ih h.2

/-- An invariant of the guarded steps holds along the guarded runs. -/
theorem always_of_guarded {P : S → Prop} {G : S → O → Prop}
    (hstep : ∀ s o, P s → G s o → P (step s o)) {s : S} {os : List O} (hs : P s)
    (hg : Guarded step G s os) : Always step P s os := by
  induction os generalizing s with
  | nil => exact hs
  | cons o os ih => exact ⟨hs, ih (hstep s o hs hg.1) hg.2⟩

theorem guarded_true {s : S} {os : List O} : Guarded step (fun _ _ => True) s os := by
  induction os generalizing s with
  | nil => trivial
  | cons o os ih => exact ⟨trivial, ih⟩

/-- A condition that the guard gives in good states is met along the guarded runs. -/
theorem Always.guarded {P : S → Prop} {G C : S → O → Prop} (hC : ∀ s o, P s → G s o → C s o)
    {s : S} {os : List O} (h : Always step P s os) (hg : Guarded step G s os) :
    Guarded step C s os := by
  induction os generalizing s with
  | nil => trivial
  | cons o os ih => exact ⟨hC s o h.1 hg.1, ih h.2 hg.2⟩

/-- Where two conditions on an operation agree, they agree along a run. The invariant
    `I` need only be preserved by the steps that meet them. -/
theorem guarded_iff_guarded {I : S → Prop} {L K C : S → O → Prop}
    (hiff : ∀ s o, I s → L s o → (K s o ↔ C s o))
    (hinv : ∀ s o, I s → L s o → C s o → I (step s o)) {s : S} {os : List O} (hI : I s)
    (hL : Guarded step L s os) : Guarded step K s os ↔ Guarded step C s os := by
  induction os generalizing s with
  | nil => exact Iff.rfl
  | cons o os ih =>
    constructor
    · intro hG
      obtain ⟨hK, hrest⟩ := hG
      have hC := (hiff s o hI hL.1).mp hK
      exact ⟨hC, (ih (hinv s o hI hL.1 hC) hL.2).mp hrest⟩
    · intro hG
      obtain ⟨hC, hrest⟩ := hG
      exact ⟨(hiff s o hI hL.1).mpr hC, (ih (hinv s o hI hL.1 hC) hL.2).mpr hrest⟩

/-- Where a legal step from a good state ends in a good state exactly under `C`, a
    legal run stays in good states exactly when all its steps meet `C`. The
    invariant `I` need only be preserved by the steps that meet `C`. -/
theorem always_iff_guarded {P I : S → Prop} {L C : S → O → Prop}
    (hiff : ∀ s o, I s → P s → L s o → (P (step s o) ↔ C s o))
    (hinv : ∀ s o, I s → P s → L s o → C s o → I (step s o))
    {s : S} {os : List O} (hI : I s) (hP : P s) (hL : Guarded step L s os) :
    Always step P s os ↔ Guarded step C s os := by
  induction os generalizing s with
  | nil => exact iff_of_true hP trivial
  | cons o os ih =>
    have hfirst := hiff s o hI hP hL.1
    constructor
    · intro halways
      obtain ⟨-, hrest⟩ := halways
      have hC := hfirst.mp hrest.first
      exact ⟨hC, (ih (hinv s o hI hP hL.1 hC) hrest.first hL.2).mp hrest⟩
    · intro hguarded
      obtain ⟨hC, hrest⟩ := hguarded
      have hP' := hfirst.mpr hC
      exact ⟨hP, (ih (hinv s o hI hP hL.1 hC) hP' hL.2).mpr hrest⟩

end
end Runs
