import Mathlib.Data.List.Basic
import Mathlib.Logic.Function.Basic

/- A table of the members of a list.

   `Lists t l key val`: the entries of `t` are the values of the members of `l`, each under
   its key. There is one lemma for each way in which list and table change together: a member
   that is added, one that is taken out, values that stay and one value that changes. -/
namespace Table

universe u v w

variable {κ : Type u} {ν : Type v} {A : Type w}

def Lists (t : κ → Option ν) (l : List A) (key : A → κ) (val : A → ν) : Prop :=
  ∀ k v, t k = some v ↔ ∃ a ∈ l, key a = k ∧ val a = v

variable {t : κ → Option ν} {l : List A} {key : A → κ} {val val' : A → ν} {x : A}

theorem Lists.mem (h : Lists t l key val) (hx : x ∈ l) : t (key x) = some (val x) :=
  (h _ _).mpr ⟨x, hx, rfl, rfl⟩

theorem Lists.nil (h : Lists t [] key val) (k : κ) : t k = none := by
  cases hk : t k with
  | none => rfl
  | some v =>
    obtain ⟨a, ha, -⟩ := (h k v).mp hk
    exact absurd ha List.not_mem_nil

theorem Lists.congr (h : Lists t l key val) (hval : ∀ a ∈ l, val' a = val a) :
    Lists t l key val' := by
  intro k v
  rw [h k v]
  exact exists_congr fun a => and_congr_right fun ha => by rw [hval a ha]

variable [DecidableEq κ]

/-- A member under a key that is not in use. -/
theorem Lists.cons (h : Lists t l key val) (hnew : ∀ a ∈ l, key a ≠ key x) :
    Lists (Function.update t (key x) (some (val x))) (x :: l) key val := by
  intro k v
  rw [List.exists_mem_cons_iff]
  by_cases hk : k = key x
  · subst hk
    rw [Function.update_self, Option.some.injEq]
    refine ⟨fun hv => .inl ⟨rfl, hv⟩, fun hv => ?_⟩
    rcases hv with ⟨-, hv⟩ | ⟨a, ha, hkey, -⟩
    · exact hv
    · exact absurd hkey (hnew a ha)
  · rw [Function.update_of_ne hk, h k v]
    exact (or_iff_right fun hx => hk hx.1.symm).symm

/-- The members under one key are taken out. -/
theorem Lists.erase (h : Lists t l key val) {p : A → Bool} {k₀ : κ}
    (hp : ∀ a ∈ l, p a = true ↔ key a ≠ k₀) :
    Lists (Function.update t k₀ none) (l.filter p) key val := by
  intro k v
  by_cases hk : k = k₀
  · subst hk
    rw [Function.update_self]
    refine iff_of_false (Option.some_ne_none v).symm fun hv => ?_
    obtain ⟨a, ha, hkey, -⟩ := hv
    obtain ⟨ha, hpa⟩ := List.mem_filter.mp ha
    exact (hp a ha).mp hpa hkey
  · rw [Function.update_of_ne hk, h k v]
    refine exists_congr fun a => ?_
    rw [List.mem_filter]
    refine ⟨fun ha => ⟨⟨ha.1, (hp a ha.1).mpr fun hkey => hk (ha.2.1.symm.trans hkey)⟩, ha.2⟩,
      fun ha => ⟨ha.1.1, ha.2⟩⟩

/-- The value of one member changes. -/
theorem Lists.set (h : Lists t l key val) (hx : x ∈ l) (hinj : ∀ a ∈ l, key a = key x → a = x)
    (hval : ∀ a ∈ l, a ≠ x → val' a = val a) :
    Lists (Function.update t (key x) (some (val' x))) l key val' := by
  intro k v
  by_cases hk : k = key x
  · subst hk
    rw [Function.update_self, Option.some.injEq]
    refine ⟨fun hv => ⟨x, hx, rfl, hv⟩, fun hv => ?_⟩
    obtain ⟨a, ha, hkey, hv⟩ := hv
    obtain rfl := hinj a ha hkey
    exact hv
  · rw [Function.update_of_ne hk, h k v]
    refine exists_congr fun a => and_congr_right fun ha => and_congr_right fun hkey => ?_
    have hne : a ≠ x := by
      intro hax
      exact hk (hkey.symm.trans (congrArg key hax))
    rw [hval a ha hne]

end Table
