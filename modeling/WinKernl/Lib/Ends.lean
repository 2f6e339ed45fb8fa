import WinKernl.Lib.Ask

/- What a program can end in.

   `Ends A P p` is the weakest precondition of a program: whatever answers it gets,
   as long as `A` allows them, it ends as `P` says. `Errs A E p` is the case where
   only the errors matter. `Within cost n p` bounds what the requests cost in all, on
   every path of a program without a panic. There is one rule for each way a program is
   put together, `via` included, which answers the requests of one program by another. -/
namespace Ask
namespace Prog

universe u u' v

section
variable {Q : Type u} {R : Q → Type v} {Q' : Type u'} {R' : Q' → Type v} {ε ε' α β : Type v}

/-- Answer each request by a program. -/
def via (h : (q : Q) → Prog Q' R' ε (R q)) : Prog Q R ε α → Prog Q' R' ε α
  | .ok a => .ok a
  | .err e => .err e
  | .panic => .panic
  | .ask q k => h q >>= fun r => via h (k r)

variable (A : (q : Q) → R q → Prop)

/-- Under every answer that `A` allows, the program ends as `P` says. -/
def Ends (P : Outcome ε α → Prop) : Prog Q R ε α → Prop
  | .ok a => P (.ok a)
  | .err e => P (.err e)
  | .panic => P .panic
  | .ask q k => ∀ r, A q r → Ends P (k r)

/-- What has to hold after the first part of a program for the rest to end as `P` says. -/
def Before (P : Outcome ε β → Prop) (f : α → Prog Q R ε β) : Outcome ε α → Prop
  | .ok a => (f a).Ends A P
  | .err e => P (.err e)
  | .panic => P .panic

/-- The errors under the answers that `A` allows are those of `E`. -/
def Errs (E : ε → Prop) (p : Prog Q R ε α) : Prop := p.Ends A fun o => ∀ e, o = .err e → E e

variable {A}

theorem Ends.mono {P P' : Outcome ε α → Prop} (h : ∀ o, P o → P' o) {p : Prog Q R ε α}
    (hp : p.Ends A P) : p.Ends A P' := by
  induction p with
  | ok a => exact h _ hp
  | err e => exact h _ hp
  | panic => exact h _ hp
  | ask q k ih => exact fun r hr => ih r (hp r hr)

/-- The run with one function of answers is one of those that are meant. -/
theorem Ends.result {P : Outcome ε α → Prop} {p : Prog Q R ε α} (hp : p.Ends A P)
    {ans : (q : Q) → R q} (hans : ∀ c ∈ p.calls ans, A c.1 c.2) : P (p.result ans) := by
  induction p with
  | ok a => exact hp
  | err e => exact hp
  | panic => exact hp
  | ask q k ih =>
    rw [calls_ask, List.forall_mem_cons] at hans
    exact ih _ (hp _ hans.1) hans.2

theorem ends_bind {P : Outcome ε β → Prop} {p : Prog Q R ε α} {f : α → Prog Q R ε β} :
    (p >>= f).Ends A P ↔ p.Ends A (Before A P f) := by
  induction p with
  | ok a => exact Iff.rfl
  | err e => exact Iff.rfl
  | panic => exact Iff.rfl
  | ask q k ih => exact forall_congr' fun r => forall_congr' fun _ => ih r

theorem ends_mapErr {P : Outcome ε' α → Prop} {g : ε → ε'} {p : Prog Q R ε α} :
    (p.mapErr g).Ends A P ↔ p.Ends A fun o => P (o.mapErr g) := by
  induction p with
  | ok a => exact Iff.rfl
  | err e => exact Iff.rfl
  | panic => exact Iff.rfl
  | ask q k ih => exact forall_congr' fun r => forall_congr' fun _ => ih r

theorem ends_attempt {P : Outcome ε' (Except ε α) → Prop} {p : Prog Q R ε α} :
    (p.attempt : Prog Q R ε' (Except ε α)).Ends A P ↔ p.Ends A fun o => P o.attempt := by
  induction p with
  | ok a => exact Iff.rfl
  | err e => exact Iff.rfl
  | panic => exact Iff.rfl
  | ask q k ih => exact forall_congr' fun r => forall_congr' fun _ => ih r

/-- A program whose requests are answered by programs: what those return is allowed, and
    where they do not return the whole ends with them. -/
theorem Ends.via {A' : (q : Q') → R' q → Prop} {P : Outcome ε α → Prop} {p : Prog Q R ε α}
    {h : (q : Q) → Prog Q' R' ε (R q)} (hp : p.Ends A P)
    (hok : ∀ q, (h q).Ends A' fun o => (∀ r, o = .ok r → A q r) ∧
      (∀ e, o = .err e → P (.err e)) ∧ (o = .panic → P .panic)) :
    (p.via h).Ends A' P := by
  induction p with
  | ok a => exact hp
  | err e => exact hp
  | panic => exact hp
  | ask q k ih =>
    refine ends_bind.mpr ((hok q).mono ?_)
    intro o ho
    obtain ⟨hret, herr, hpanic⟩ := ho
    cases o with
    | ok r => exact ih r (hp r (hret r rfl))
    | err e => exact herr e rfl
    | panic => exact hpanic rfl

/-- A program asks what its requests are answered by asking. -/
theorem Asks.via {P : Q → Prop} {P' : Q' → Prop} {h : (q : Q) → Prog Q' R' ε (R q)}
    (hserve : ∀ q, P q → (h q).Asks P') {p : Prog Q R ε α} (hp : p.Asks P) : (p.via h).Asks P' := by
  induction p with
  | ok a => trivial
  | err e => trivial
  | panic => trivial
  | ask q k ih => exact (hserve q hp.1).bind fun r => ih r (hp.2 r)

/-! Errors. -/

variable {E : ε → Prop}

theorem Errs.ok (a : α) : (ok a : Prog Q R ε α).Errs A E := fun e he => by cases he

theorem Errs.err {e : ε} (h : E e) : (err e : Prog Q R ε α).Errs A E := by
  intro e' he'
  cases he'
  exact h

theorem Errs.ask {q : Q} {k : R q → Prog Q R ε α} (h : ∀ r, A q r → (k r).Errs A E) :
    (ask q k).Errs A E := h

theorem Errs.bind {p : Prog Q R ε α} {f : α → Prog Q R ε β} (hp : p.Errs A E)
    (hf : ∀ a, (f a).Errs A E) : (p >>= f).Errs A E := by
  refine ends_bind.mpr (hp.mono ?_)
  intro o ho
  cases o with
  | ok a => exact hf a
  | err e =>
    intro e' he'
    cases he'
    exact ho e rfl
  | panic => exact fun e he => by cases he

theorem Errs.ite {c : Prop} [Decidable c] {p q : Prog Q R ε α} (hp : c → p.Errs A E)
    (hq : ¬ c → q.Errs A E) : (if c then p else q).Errs A E :=
  iteInduction (motive := fun r : Prog Q R ε α => r.Errs A E) hp hq

theorem Errs.orPanic (o : Option α) : (orPanic o : Prog Q R ε α).Errs A E := by
  cases o with
  | none => exact fun e he => by cases he
  | some a => exact .ok a

theorem Errs.mapErr {E' : ε' → Prop} {g : ε → ε'} (h : ∀ e, E e → E' (g e)) {p : Prog Q R ε α}
    (hp : p.Errs A E) : (p.mapErr g).Errs A E' := by
  refine ends_mapErr.mpr (hp.mono ?_)
  intro o ho e he
  cases o with
  | ok a => cases he
  | err x =>
    cases he
    exact h x (ho x rfl)
  | panic => cases he

/-- Where the answers are results of programs that are tried, the errors of those are the
    ones that come as answers. -/
theorem Errs.via_attempt {F : Type v} {A' : (q : Q') → R' q → Prop} {E' : F → Prop}
    {p : Prog Q (fun _ => Except F β) ε α} {h : Q → Prog Q' R' F β}
    (hp : p.Errs (fun _ r => ∀ e, r = .error e → E' e) E) (hh : ∀ q, (h q).Errs A' E') :
    (p.via fun q => (h q).attempt).Errs A' E := by
  refine Ends.via hp fun q => ends_attempt.mpr ((hh q).mono ?_)
  intro o ho
  cases o with
  | ok b =>
    refine ⟨fun r hr e he => ?_, nofun, nofun⟩
    cases hr
    cases he
  | err x =>
    refine ⟨fun r hr e he => ?_, nofun, nofun⟩
    cases hr
    cases he
    exact ho x rfl
  | panic => exact ⟨nofun, nofun, nofun⟩

/-! What a program costs. -/

/-- On every path the requests cost at most `n` in all, and there is no panic. -/
def Within (cost : Q → Nat) : Prog Q R ε α → Nat → Prop
  | .ok _, _ => True
  | .err _, _ => True
  | .panic, _ => False
  | .ask q k, n => cost q ≤ n ∧ ∀ r, Within cost (k r) (n - cost q)

variable {cost : Q → Nat} {n m : Nat}

theorem Within.mono {p : Prog Q R ε α} (hp : p.Within cost n) (h : n ≤ m) : p.Within cost m := by
  induction p generalizing n m with
  | ok a => trivial
  | err e => trivial
  | panic => exact hp
  | ask q k ih =>
    exact ⟨Nat.le_trans hp.1 h, fun r => ih r (hp.2 r) (Nat.sub_le_sub_right h (cost q))⟩

theorem Within.ask {q : Q} {k : R q → Prog Q R ε α} (hk : ∀ r, (k r).Within cost n) :
    (ask q k).Within cost (n + cost q) := by
  refine ⟨Nat.le_add_left _ _, fun r => ?_⟩
  rw [Nat.add_sub_cancel]
  exact hk r

theorem Within.ite {c : Prop} [Decidable c] {p q : Prog Q R ε α} (hp : c → p.Within cost n)
    (hq : ¬ c → q.Within cost n) : (if c then p else q).Within cost n :=
  iteInduction (motive := fun r : Prog Q R ε α => r.Within cost n) hp hq

theorem Within.bind {p : Prog Q R ε α} {f : α → Prog Q R ε β} (hp : p.Within cost n)
    (hf : ∀ a, (f a).Within cost m) : (p >>= f).Within cost (n + m) := by
  induction p generalizing n with
  | ok a => exact (hf a).mono (Nat.le_add_left _ _)
  | err e => trivial
  | panic => exact hp
  | ask q k ih =>
    refine ⟨Nat.le_trans hp.1 (Nat.le_add_right _ _), fun r => ?_⟩
    rw [Nat.sub_add_comm hp.1]
    exact ih r (hp.2 r)

theorem Within.mapErr {g : ε → ε'} {p : Prog Q R ε α} (hp : p.Within cost n) :
    (p.mapErr g).Within cost n := by
  induction p generalizing n with
  | ok a => trivial
  | err e => trivial
  | panic => exact hp
  | ask q k ih => exact ⟨hp.1, fun r => ih r (hp.2 r)⟩

theorem Within.attempt {p : Prog Q R ε α} (hp : p.Within cost n) :
    (p.attempt : Prog Q R ε' (Except ε α)).Within cost n := by
  induction p generalizing n with
  | ok a => trivial
  | err e => trivial
  | panic => exact hp
  | ask q k ih => exact ⟨hp.1, fun r => ih r (hp.2 r)⟩

/-- Where each request is answered by a program within what it costs, so is the whole. -/
theorem Within.via {cost' : Q' → Nat} {h : (q : Q) → Prog Q' R' ε (R q)} {p : Prog Q R ε α}
    (hp : p.Within cost n) (hh : ∀ q, (h q).Within cost' (cost q)) :
    (p.via h).Within cost' n := by
  induction p generalizing n with
  | ok a => trivial
  | err e => trivial
  | panic => exact hp
  | ask q k ih =>
    rw [← Nat.add_sub_of_le hp.1]
    exact (hh q).bind fun r => ih r (hp.2 r)

end
end Prog
end Ask
