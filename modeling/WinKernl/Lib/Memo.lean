import Mathlib.Logic.Function.Basic
import WinKernl.Lib.Ask
import WinKernl.Lib.Runs

/- Results that are kept in a table.

   `memoize` looks a key up. An entry other than `empty` is what it returns; for an entry
   that is `empty` it runs the key's program and stores the value this finds. So `empty`
   stands for a value that is not known, and a program may find it all the same: such a
   value is looked for again each time. `Filled` is what a table holds once keys were
   looked up, and `served_iff` says which filled tables serve every later lookup. -/
namespace Memo
open Ask Runs

universe u v

section
variable {Q : Type u} {R : Q → Type v} {ε ε' κ V : Type v}

/-- A lookup, with the table it leaves. -/
abbrev Look (Q : Type u) (R : Q → Type v) (ε ε' κ V : Type v) :=
  κ → (κ → V) → Prog Q R ε' (Except ε (Option V) × (κ → V))

/-- A key, and how the requests are answered when it is looked up. -/
abbrev Call (Q : Type u) (R : Q → Type v) (κ : Type v) := κ × ((q : Q) → R q)

/-- What a lookup returns. -/
def returned (look : Look Q R ε ε' κ V) (c : κ → V) (call : Call Q R κ) :
    Outcome ε' (Except ε (Option V)) :=
  ((look call.1 c).result call.2).bind fun r => .ok r.1

/-- The table after a lookup. -/
def after (look : Look Q R ε ε' κ V) (c : κ → V) (call : Call Q R κ) : κ → V :=
  match (look call.1 c).result call.2 with
  | .ok r => r.2
  | .err _ => c
  | .panic => c

/-- The lookup makes no request, and returns what the one in `c₀` returned under `ans`. -/
def Served (look : Look Q R ε ε' κ V) (c₀ : κ → V) (ans : (q : Q) → R q) (c : κ → V)
    (call : Call Q R κ) : Prop :=
  (look call.1 c).trace call.2 = [] ∧ returned look c call = returned look c₀ (call.1, ans)

variable (empty : V) (find : κ → Prog Q R ε (Option V))

def memoize [DecidableEq κ] [DecidableEq V] : Look Q R ε ε' κ V := fun k c =>
  if c k ≠ empty then .ok (.ok (some (c k)), c) else
  (find k).attempt >>= fun found =>
  match found with
  | .error e => .ok (.error e, c)
  | .ok none => .ok (.ok none, c)
  | .ok (some v) => .ok (.ok (some v), Function.update c k v)

/-- `v` is what a lookup of `k` in `c` finds. -/
def Finds (ans : (q : Q) → R q) (c : κ → V) (k : κ) (v : V) : Prop :=
  c k ≠ empty ∧ v = c k ∨ c k = empty ∧ (find k).result ans = .ok (some v)

/-- `c'` has what lookups in `c` find for the keys `ks`, and is `c` elsewhere. -/
structure Filled (ans : (q : Q) → R q) (ks : List κ) (c c' : κ → V) : Prop where
  finds : ∀ k ∈ ks, Finds empty find ans c k (c' k)
  keeps : ∀ k, k ∉ ks → c' k = c k

variable {empty find} {k : κ} {c c' : κ → V} {ans : (q : Q) → R q} {v : V}

theorem finds_hit (h : c k ≠ empty) : Finds empty find ans c k v ↔ v = c k := by
  rw [Finds, and_iff_right h, or_iff_left fun hmiss => h hmiss.1]

theorem finds_miss (h : c k = empty) :
    Finds empty find ans c k v ↔ (find k).result ans = .ok (some v) := by
  rw [Finds, and_iff_right h, or_iff_right fun hhit => hhit.1 h]

/-- Only a key that was `empty`, and whose program finds `empty`, has `empty` found. -/
theorem finds_empty_iff (h : Finds empty find ans c k v) :
    v = empty ↔ c k = empty ∧ (find k).result ans = .ok (some empty) := by
  rcases h with ⟨hc, rfl⟩ | ⟨hc, hfind⟩
  · exact iff_of_false hc fun h => hc h.1
  · rw [hfind, Outcome.ok.injEq, Option.some.injEq]
    exact (and_iff_right hc).symm

theorem filled_nil : Filled empty find ans [] c c' ↔ c' = c := by
  constructor
  · intro h
    exact funext fun k => h.keeps k List.not_mem_nil
  · intro h
    subst h
    exact ⟨fun k hk => absurd hk List.not_mem_nil, fun _ _ => rfl⟩

variable [DecidableEq κ]

/-- What a lookup has stored changes nothing that is found. -/
theorem finds_update {k' : κ} {v' : V} (h : Finds empty find ans c k v) :
    Finds empty find ans (Function.update c k v) k' v' ↔ Finds empty find ans c k' v' := by
  by_cases hk : k' = k
  · subst hk
    by_cases hv : v = empty
    · -- the value is looked for again, and found again
      obtain ⟨hc, -⟩ := (finds_empty_iff h).mp hv
      rw [finds_miss hc, finds_miss (by rw [Function.update_self, hv])]
    · -- the value is stored, and is what was found before it was
      rw [finds_hit (by rwa [Function.update_self]), Function.update_self]
      rcases h with ⟨hc, rfl⟩ | ⟨hc, hfind⟩
      · rw [finds_hit hc]
      · rw [finds_miss hc, hfind, Outcome.ok.injEq, Option.some.injEq, eq_comm]
  · rw [Finds, Finds, Function.update_of_ne hk]

theorem filled_cons {ks : List κ} : Filled empty find ans (k :: ks) c c' ↔
    ∃ v, Finds empty find ans c k v ∧ Filled empty find ans ks (Function.update c k v) c' := by
  constructor
  · intro h
    have hfirst := h.finds k List.mem_cons_self
    -- the value of `k` in the last table is what the first lookup stored
    refine ⟨c' k, hfirst, fun x hx => ?_, fun x hx => ?_⟩
    · exact (finds_update hfirst).mpr (h.finds x (List.mem_cons_of_mem k hx))
    · by_cases hxk : x = k
      · rw [hxk, Function.update_self]
      · rw [Function.update_of_ne hxk]
        exact h.keeps x fun hmem => (List.mem_cons.mp hmem).elim hxk hx
  · intro h
    obtain ⟨v, hfirst, hrest⟩ := h
    refine ⟨fun x hx => ?_, fun x hx => ?_⟩
    · -- a key that comes again is found by its last lookup
      by_cases hmem : x ∈ ks
      · exact (finds_update hfirst).mp (hrest.finds x hmem)
      · obtain rfl := (List.mem_cons.mp hx).resolve_right hmem
        rwa [hrest.keeps x hmem, Function.update_self]
    · obtain ⟨hxk, hmem⟩ := not_or.mp (mt List.mem_cons.mpr hx)
      rw [hrest.keeps x hmem, Function.update_of_ne hxk]

theorem filled_append {ks ks' : List κ} : Filled empty find ans (ks ++ ks') c c' ↔
    ∃ c₁, Filled empty find ans ks c c₁ ∧ Filled empty find ans ks' c₁ c' := by
  induction ks generalizing c with
  | nil => simp [filled_nil]
  | cons k ks ih =>
    simp only [List.cons_append, filled_cons, ih]
    constructor
    · intro h
      obtain ⟨v, hv, c₁, h₁, h₂⟩ := h
      exact ⟨c₁, ⟨v, hv, h₁⟩, h₂⟩
    · intro h
      obtain ⟨c₁, ⟨v, hv, h₁⟩, h₂⟩ := h
      exact ⟨v, hv, c₁, h₁, h₂⟩

/-! One lookup. -/

variable [DecidableEq V]

theorem memoize_hit (h : c k ≠ empty) :
    (memoize empty find k c : Prog Q R ε' _) = .ok (.ok (some (c k)), c) := if_pos h

theorem memoize_miss_trace (h : c k = empty) :
    (memoize empty find k c : Prog Q R ε' _).trace ans = (find k).trace ans := by
  rw [memoize, if_neg (not_not_intro h), Prog.trace_bind, Prog.trace_attempt, Prog.result_attempt]
  cases (find k).result ans with
  | ok found => cases found <;> exact List.append_nil _
  | err e => exact List.append_nil _
  | panic => exact List.append_nil _

/-- A lookup returns a value exactly when it finds it, and it has stored it then. -/
theorem memoize_eq_some :
    (memoize empty find k c : Prog Q R ε' _).result ans = .ok (.ok (some v), c') ↔
      Finds empty find ans c k v ∧ c' = Function.update c k v := by
  by_cases hc : c k = empty
  · rw [finds_miss hc, memoize, if_neg (not_not_intro hc), Prog.result_bind, Prog.result_attempt]
    cases (find k).result ans with
    | ok found =>
      cases found with
      | none => simp [Outcome.attempt, Outcome.bind]
      | some found =>
        simp only [Outcome.attempt, Outcome.bind, Prog.result_ok, Outcome.ok.injEq, Prod.mk.injEq,
          Except.ok.injEq, Option.some.injEq]
        -- the value stored is the value returned
        constructor
        · intro h
          exact ⟨h.1, h.1 ▸ h.2.symm⟩
        · intro h
          exact ⟨h.1, h.1 ▸ h.2.symm⟩
    | err e => simp [Outcome.attempt, Outcome.bind]
    | panic => simp [Outcome.attempt, Outcome.bind]
  · rw [finds_hit hc, memoize_hit hc, Prog.result_ok, Outcome.ok.injEq, Prod.mk.injEq,
      Except.ok.injEq, Option.some.injEq]
    constructor
    · intro h
      obtain ⟨rfl, rfl⟩ := h
      exact ⟨rfl, (Function.update_eq_self k c).symm⟩
    · intro h
      obtain ⟨rfl, rfl⟩ := h
      exact ⟨rfl, (Function.update_eq_self k c).symm⟩

theorem Finds.returned (h : Finds empty find ans c k v) :
    returned (memoize empty find : Look Q R ε ε' κ V) c (k, ans) = .ok (.ok (some v)) := by
  rw [Memo.returned, memoize_eq_some.mpr ⟨h, rfl⟩]
  rfl

/-! Later lookups. -/

/-- Where every key has its value found, later lookups are all served exactly when no
    value found is `empty`. -/
theorem served_iff (hasks : ∀ k ans, (find k).trace ans ≠ [])
    (hfound : ∀ k, Finds empty find ans c k (c' k)) :
    (∀ calls, Guarded (after (memoize empty find : Look Q R ε ε' κ V))
        (Served (memoize empty find : Look Q R ε ε' κ V) c ans) c' calls) ↔
      ∀ k, c k = empty → (find k).result ans ≠ .ok (some empty) := by
  constructor
  · intro h k hc hfind
    -- one lookup of `k` is run that is not served
    obtain ⟨⟨htrace, -⟩, -⟩ := h [(k, ans)]
    rw [memoize_miss_trace ((finds_empty_iff (hfound k)).mpr ⟨hc, hfind⟩)] at htrace
    exact hasks k ans htrace
  · intro h calls
    have hne : ∀ k, c' k ≠ empty := fun k hempty =>
      let found := (finds_empty_iff (hfound k)).mp hempty
      h k found.1 found.2
    -- the table does not change any more
    have halways : Always (after (memoize empty find : Look Q R ε ε' κ V)) (· = c') c' calls := by
      refine always_of_guarded (fun s call hs _ => ?_) rfl guarded_true
      subst hs
      rw [after, memoize_hit (hne call.1)]
      rfl
    refine halways.guarded (fun s call hs _ => ?_) guarded_true
    subst hs
    refine ⟨by rw [memoize_hit (hne call.1)]; rfl, ?_⟩
    rw [(hfound call.1).returned, returned, memoize_hit (hne call.1)]
    rfl

end
end Memo
