import WinKernl.Lib.Ends
import WinKernl.Lib.Interleave

/- What the threads of a run may take for granted.

   In a run the answers a thread gets depend on what the others have done. `Meets A P`
   says the same of the program alone: under the answers that `A` allows it asks only
   what `P` allows, and ends as it should. Where every request of `P` keeps the shared
   state in order, and a state in order answers as `A` says, threads that meet `A` and
   `P` alone do so in every order of their steps (`rely_run`): nothing is left to prove
   about the order.

   `Sees A P ans X` is the case in which the freedom in the answers makes no difference:
   the program ends as under `ans`, or with an error of `X`. There is one rule for each
   way a program is put together. -/
namespace Ask
namespace Prog

universe u u' v

section
variable {Q : Type u} {R : Q → Type v} {Q' : Type u'} {R' : Q' → Type v} {ε ε' α β : Type v}

/-- Under every answer that `A` allows, the program asks what `P` allows and ends as
    `post` says. -/
def Meets (A : (q : Q) → R q → Prop) (P : Q → Prop) (post : Outcome ε α → Prop) :
    Prog Q R ε α → Prop
  | .ok a => post (.ok a)
  | .err e => post (.err e)
  | .panic => post .panic
  | .ask q k => P q ∧ ∀ r, A q r → Meets A P post (k r)

variable {A A' : (q : Q) → R q → Prop} {P : Q → Prop}

theorem Meets.mono {post post' : Outcome ε α → Prop} (hA : ∀ q r, A' q r → A q r)
    (h : ∀ o, post o → post' o) {p : Prog Q R ε α} (hp : p.Meets A P post) :
    p.Meets A' P post' := by
  induction p with
  | ok a => exact h _ hp
  | err e => exact h _ hp
  | panic => exact h _ hp
  | ask q k ih => exact ⟨hp.1, fun r hr => ih r (hp.2 r (hA q r hr))⟩

/-- The rest of a program goes on from wherever its first part ends. -/
theorem Meets.bind {first : Outcome ε α → Prop} {post : Outcome ε β → Prop} {p : Prog Q R ε α}
    {f : α → Prog Q R ε β} (hp : p.Meets A P first)
    (hok : ∀ a, first (.ok a) → (f a).Meets A P post)
    (herr : ∀ e, first (.err e) → post (.err e)) (hpanic : first .panic → post .panic) :
    (p >>= f).Meets A P post := by
  induction p with
  | ok a => exact hok a hp
  | err e => exact herr e hp
  | panic => exact hpanic hp
  | ask q k ih => exact ⟨hp.1, fun r hr => ih r (hp.2 r hr)⟩

theorem meets_mapErr {post : Outcome ε' α → Prop} {g : ε → ε'} {p : Prog Q R ε α} :
    (p.mapErr g).Meets A P post ↔ p.Meets A P fun o => post (o.mapErr g) := by
  induction p with
  | ok a => exact Iff.rfl
  | err e => exact Iff.rfl
  | panic => exact Iff.rfl
  | ask q k ih =>
    exact and_congr_right fun _ => forall_congr' fun r => forall_congr' fun _ => ih r

theorem meets_attempt {post : Outcome ε' (Except ε α) → Prop} {p : Prog Q R ε α} :
    (p.attempt : Prog Q R ε' (Except ε α)).Meets A P post ↔
      p.Meets A P fun o => post o.attempt := by
  induction p with
  | ok a => exact Iff.rfl
  | err e => exact Iff.rfl
  | panic => exact Iff.rfl
  | ask q k ih =>
    exact and_congr_right fun _ => forall_congr' fun r => forall_congr' fun _ => ih r

/-- A program whose requests are answered by programs: what those return is allowed, and
    where they do not return the whole ends with them. -/
theorem Meets.via {A' : (q : Q') → R' q → Prop} {P' : Q' → Prop} {post : Outcome ε α → Prop}
    {p : Prog Q R ε α} {h : (q : Q) → Prog Q' R' ε (R q)} (hp : p.Ends A post)
    (hh : ∀ q, (h q).Meets A' P' fun o => (∀ r, o = .ok r → A q r) ∧
      (∀ e, o = .err e → post (.err e)) ∧ (o = .panic → post .panic)) :
    (p.via h).Meets A' P' post := by
  induction p with
  | ok a => exact hp
  | err e => exact hp
  | panic => exact hp
  | ask q k ih =>
    refine (hh q).bind (fun r hr => ?_) (fun e he => he.2.1 e rfl) (fun he => he.2.2 rfl)
    exact ih r (hp r (hr.1 r rfl))

theorem ends_true {p : Prog Q R ε α} : p.Ends A fun _ => True := by
  induction p with
  | ok a => trivial
  | err e => trivial
  | panic => trivial
  | ask q k ih => exact fun r _ => ih r

/-! Programs that end as under one function of answers. -/

variable {ans : (q : Q) → R q} {X : ε → Prop}

/-- Whatever answers of `A` it gets, the program ends as under `ans`, or with an error of
    `X`. -/
def Sees (A : (q : Q) → R q → Prop) (P : Q → Prop) (ans : (q : Q) → R q) (X : ε → Prop)
    (p : Prog Q R ε α) : Prop :=
  p.Meets A P fun o => o = p.result ans ∨ ∃ e, o = .err e ∧ X e

theorem Sees.mono {X' : ε → Prop} {p : Prog Q R ε α} (hp : p.Sees A P ans X)
    (hX : ∀ e, X e → X' e) : p.Sees A P ans X' := by
  refine Meets.mono (fun _ _ h => h) (fun o ho => ?_) hp
  rcases ho with ho | ⟨e, he, hXe⟩
  · exact .inl ho
  · exact .inr ⟨e, he, hX e hXe⟩

theorem Sees.ok (a : α) : (ok a : Prog Q R ε α).Sees A P ans X := .inl rfl

theorem Sees.err (e : ε) : (err e : Prog Q R ε α).Sees A P ans X := .inl rfl

/-- A request with one answer. -/
theorem Sees.ask {q : Q} {k : R q → Prog Q R ε α} (hq : P q) (hA : ∀ r, A q r → r = ans q)
    (hk : (k (ans q)).Sees A P ans X) : (ask q k).Sees A P ans X :=
  ⟨hq, fun r hr => hA r hr ▸ hk⟩

theorem Sees.ite {c : Prop} [Decidable c] {p q : Prog Q R ε α} (hp : c → p.Sees A P ans X)
    (hq : ¬ c → q.Sees A P ans X) : (if c then p else q).Sees A P ans X :=
  iteInduction (motive := fun r : Prog Q R ε α => r.Sees A P ans X) hp hq

theorem Sees.bind {p : Prog Q R ε α} {f : α → Prog Q R ε β} (hp : p.Sees A P ans X)
    (hf : ∀ a, p.result ans = .ok a → (f a).Sees A P ans X) : (p >>= f).Sees A P ans X := by
  refine Meets.bind hp (fun a ha => ?_) (fun e he => ?_) (fun hpanic => ?_)
  · have ha : p.result ans = .ok a := by
      rcases ha with ha | ⟨e, he, -⟩
      · exact ha.symm
      · cases he
    refine Meets.mono (fun _ _ h => h) (fun o ho => ?_) (hf a ha)
    rw [result_bind, ha]
    exact ho
  · rcases he with he | ⟨x, hx, hX⟩
    · left
      rw [result_bind, ← he]
      rfl
    · cases hx
      exact .inr ⟨e, rfl, hX⟩
  · rcases hpanic with hpanic | ⟨x, hx, -⟩
    · left
      rw [result_bind, ← hpanic]
      rfl
    · cases hx

theorem Sees.mapErr {X' : ε' → Prop} {g : ε → ε'} {p : Prog Q R ε α} (hp : p.Sees A P ans X)
    (hX : ∀ e, X e → X' (g e)) : (p.mapErr g).Sees A P ans X' := by
  refine meets_mapErr.mpr (Meets.mono (fun _ _ h => h) (fun o ho => ?_) hp)
  rw [result_mapErr]
  rcases ho with ho | ⟨e, he, hXe⟩
  · exact .inl (congrArg (Outcome.mapErr g) ho)
  · exact .inr ⟨g e, congrArg (Outcome.mapErr g) he, hX e hXe⟩

/-- Without errors of its own a program that is tried ends as under `ans`. -/
theorem Sees.attempt {X' : ε' → Prop} {p : Prog Q R ε α} (hp : p.Sees A P ans fun _ => False) :
    (p.attempt : Prog Q R ε' (Except ε α)).Sees A P ans X' := by
  refine meets_attempt.mpr (Meets.mono (fun _ _ h => h) (fun o ho => ?_) hp)
  rw [result_attempt]
  rcases ho with ho | ⟨e, -, hfalse⟩
  · exact .inl (congrArg Outcome.attempt ho)
  · exact hfalse.elim

theorem Sees.via {A' : (q : Q') → R' q → Prop} {P' : Q' → Prop} {ans' : (q : Q') → R' q}
    {p : Prog Q R ε α} {h : (q : Q) → Prog Q' R' ε (R q)} (hh : ∀ q, (h q).Sees A' P' ans' X) :
    (p.via h).Sees A' P' ans' X := by
  induction p with
  | ok a => exact .ok a
  | err e => exact .err e
  | panic => exact .inl rfl
  | ask q k ih => exact (hh q).bind fun r _ => ih r

end
end Prog
end Ask

/-! Threads. -/

namespace Interleave
open Ask Runs

universe u v w x y

section
variable {Q : Type u} {R : Q → Type v} {ε α : Type v} {ι : Type w} {σ : Type x} {C : Type y}
  {serve : σ → C → (q : Q) → R q × σ} {I : σ → Prop} {G : σ → σ → Prop}
  {A : (q : Q) → R q → Prop} {P : Q → Prop}

/-- A thread that meets `A` and `P` keeps the invariant, and gets answers of `A`. -/
theorem keeps_of_meets {post : Outcome ε α → Prop}
    (hserve : ∀ s c q, I s → P q → A q (serve s c q).1 ∧ I (serve s c q).2 ∧ G s (serve s c q).2)
    {h : List (Own σ Q R)} {p : Prog Q R ε α} (hp : p.Meets A P post)
    (hh : ∀ o ∈ h, A o.req o.answer) :
    Keeps serve I G (fun h _ => ∀ o ∈ h, A o.req o.answer) h p := by
  induction p generalizing h with
  | ok a => exact hh
  | err e => exact hh
  | panic => exact hh
  | ask q k ih =>
    refine ⟨hh, fun s c hI => ?_⟩
    obtain ⟨hA, hI', hG⟩ := hserve s c q hI hp.1
    refine ⟨hI', hG, ih _ (hp.2 _ hA) ?_⟩
    intro o ho
    rcases List.mem_append.mp ho with ho | ho
    · exact hh o ho
    · obtain rfl : o = _ := List.mem_singleton.mp ho
      exact hA

variable [DecidableEq ι] {post : ι → Outcome ε α → Prop}

/-- The rest of a thread meets what the thread met, as long as its answers are of `A`. -/
theorem own_meets {i : ι} {post : Outcome ε α → Prop} {s : State ι σ Q R ε α}
    (hp : (s.threads i).Meets A P post) {ts : List (Turn ι C)}
    (hown : ∀ o ∈ own serve i s ts, A o.req o.answer) :
    ((final (step serve) s ts).threads i).Meets A P post := by
  induction ts generalizing s with
  | nil => exact hp
  | cons t ts ih =>
    rw [own, List.forall_mem_append] at hown
    refine ih ?_ hown.2
    by_cases hask : Asking (s.threads t.thread)
    · obtain ⟨q, k, hq⟩ := hask
      rw [step_ask hq]
      dsimp only
      by_cases hi : t.thread = i
      · subst hi
        rw [Function.update_self]
        rw [hq] at hp
        refine hp.2 _ ?_
        have hfirst := hown.1
        rw [ownAt_ask hq, if_pos rfl] at hfirst
        exact hfirst _ (List.mem_singleton_self _)
      · rw [Function.update_of_ne (Ne.symm hi)]
        exact hp
    · rw [step_idle hask]
      exact hp

/-- Threads that meet `A` and `P` alone do so together: the shared state keeps its
    invariant and changes only as `G` says, every answer is of `A`, and what is left of a
    thread ends as it would alone. -/
theorem rely_run {s : State ι σ Q R ε α}
    (hserve : ∀ s c q, I s → P q → A q (serve s c q).1 ∧ I (serve s c q).2 ∧ G s (serve s c q).2)
    (hI : I s.shared) (hp : ∀ i, (s.threads i).Meets A P (post i)) (ts : List (Turn ι C)) :
    Always (step serve) (fun s => I s.shared) s ts ∧
      Guarded (step serve) (fun s t =>
        G s.shared (step serve s t).shared ∨ (step serve s t).shared = s.shared) s ts ∧
      ∀ i, (∀ o ∈ own serve i s ts, A o.req o.answer) ∧
        ((final (step serve) s ts).threads i).Meets A P (post i) := by
  have hkeeps : ∀ i, Keeps serve I G (fun h _ => ∀ o ∈ h, A o.req o.answer) [] (s.threads i) :=
    fun i => keeps_of_meets hserve (hp i) (by simp)
  obtain ⟨halways, hguarded⟩ := always_run hI hkeeps ts
  obtain ⟨-, hend⟩ := keeps_run hI hkeeps ts
  refine ⟨halways, hguarded, fun i => ?_⟩
  have hown : ∀ o ∈ own serve i s ts, A o.req o.answer := by
    simpa using (hend i).now
  exact ⟨hown, own_meets (hp i) hown⟩

theorem ended_of_idle {n : Nat} {p : Prog Q R ε α} (hp : p.Within (fun _ => 1) n)
    (hidle : ¬ Asking p) : (∃ a, p = .ok a) ∨ ∃ e, p = .err e := by
  cases p with
  | ok a => exact .inl ⟨a, rfl⟩
  | err e => exact .inr ⟨e, rfl⟩
  | panic => exact hp.elim
  | ask q k => exact absurd ⟨q, k, rfl⟩ hidle

/-- A thread that asks no more than `n` requests has ended once it has had `n` turns, whatever
    the others do. -/
theorem ended_of_within {i : ι} {n : Nat} {s : State ι σ Q R ε α}
    (hp : (s.threads i).Within (fun _ => 1) n) {ts : List (Turn ι C)}
    (hturns : n ≤ (ts.map Turn.thread).count i) :
    (∃ a, (final (step serve) s ts).threads i = .ok a) ∨
      ∃ e, (final (step serve) s ts).threads i = .err e := by
  induction ts generalizing s n with
  | nil =>
    refine ended_of_idle hp fun hask => ?_
    obtain ⟨q, k, hq⟩ := hask
    rw [final, List.foldl_nil] at hq
    rw [hq] at hp
    exact absurd (Nat.le_trans hp.1 hturns) (Nat.not_succ_le_zero 0)
  | cons t ts ih =>
    by_cases hask : Asking (s.threads i)
    · rw [List.map_cons] at hturns
      by_cases hi : t.thread = i
      · -- its own turn is one of the requests it has left
        subst hi
        obtain ⟨q, k, hq⟩ := hask
        rw [hq] at hp
        rw [List.count_cons_self] at hturns
        have hrest : ((step serve s t).threads t.thread).Within (fun _ => 1) (n - 1) := by
          rw [step_ask hq]
          dsimp only
          rw [Function.update_self]
          exact hp.2 _
        exact ih hrest (Nat.sub_le_of_le_add hturns)
      · rw [List.count_cons_of_ne hi] at hturns
        exact ih ((step_other hi).symm ▸ hp) hturns
    · rw [final_ended hask]
      exact ended_of_idle hp hask

end
end Interleave
