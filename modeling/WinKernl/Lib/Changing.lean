import WinKernl.Lib.Server

/- A program whose answers change from request to request.

   `runFrom ans n` answers the first request by `ans n`, the second by `ans (n + 1)`, and so
   on. Where one function `f` gives each of its requests the answer it got, the run is a run
   against `f` (`runFrom_of_reads`, `runFrom_of_trace`): what was asked is then all that
   matters of what changed. A server that keeps count of its requests runs a program so
   (`via_runFrom`). -/
namespace Ask.Prog

universe u v w x

section
variable {Q : Type u} {R : Q → Type v} {ε α : Type v}

/-- How the program ends, and what it asks. -/
def runFrom (ans : Nat → (q : Q) → R q) : Nat → Prog Q R ε α → Outcome ε α × List Q
  | _, .ok a => (.ok a, [])
  | _, .err e => (.err e, [])
  | _, .panic => (.panic, [])
  | n, .ask q k =>
    let r := runFrom ans (n + 1) (k (ans n q))
    (r.1, q :: r.2)

variable {ans : Nat → (q : Q) → R q} {f : (q : Q) → R q}

theorem runFrom_of_reads {n : Nat} {p : Prog Q R ε α}
    (h : ∀ i q, (p.runFrom ans n).2[i]? = some q → f q = ans (n + i) q) :
    p.runFrom ans n = (p.result f, p.trace f) := by
  induction p generalizing n with
  | ok a => rfl
  | err e => rfl
  | panic => rfl
  | ask q k ih =>
    have hq : f q = ans n q := h 0 q rfl
    have hrest := ih (ans n q) (n := n + 1) fun i q' hi => by
      rw [Nat.add_assoc, Nat.add_comm 1 i]
      exact h (i + 1) q' hi
    rw [runFrom, result_ask, trace_ask, hq, hrest]

theorem runFrom_of_trace {n : Nat} {p : Prog Q R ε α}
    (h : ∀ i q, (p.trace f)[i]? = some q → f q = ans (n + i) q) :
    p.runFrom ans n = (p.result f, p.trace f) := by
  induction p generalizing n with
  | ok a => rfl
  | err e => rfl
  | panic => rfl
  | ask q k ih =>
    rw [trace_ask] at h
    have hq : f q = ans n q := h 0 q rfl
    have hrest := ih (ans n q) (n := n + 1) fun i q' hi => by
      rw [Nat.add_assoc, Nat.add_comm 1 i]
      exact h (i + 1) q' (by rwa [hq, List.getElem?_cons_succ])
    rw [runFrom, result_ask, trace_ask, hq, hrest]

theorem Asks.runFrom {P : Q → Prop} {p : Prog Q R ε α} (hp : p.Asks P) (n : Nat) :
    ∀ q ∈ (p.runFrom ans n).2, P q := by
  induction p generalizing n with
  | ok a => exact fun q hq => absurd hq List.not_mem_nil
  | err e => exact fun q hq => absurd hq List.not_mem_nil
  | panic => exact fun q hq => absurd hq List.not_mem_nil
  | ask q k ih => exact List.forall_mem_cons.mpr ⟨hp.1, ih (ans n q) (hp.2 _) (n + 1)⟩

end

section
variable {σ : Type w} {Q : Type u} {R : Q → Type v} {Q' : Type x} {R' : Q' → Type v}
  {ε α : Type v} {K : Server σ Q' R'} {G : σ → Q' → Prop}

theorem via_runFrom (ans : Nat → (q : Q) → R q) (time : σ → Nat) {h : (q : Q) → Prog Q' R' ε (R q)} {P : Q → Prop}
    (hserve : ∀ s q, P q → (h q).Wp K G
      (fun o s' => o = .ok (ans (time s) q) ∧ time s' = time s + 1) s)
    {p : Prog Q R ε α} (hp : p.Asks P) (s : σ) :
    (p.via h).Wp K G (fun o s' => o = (p.runFrom ans (time s)).1 ∧
      time s' = time s + (p.runFrom ans (time s)).2.length) s := by
  induction p generalizing s with
  | ok a => exact ⟨rfl, rfl⟩
  | err e => exact ⟨rfl, rfl⟩
  | panic => exact ⟨rfl, rfl⟩
  | ask q k ih =>
    refine .bind (hserve s q hp.1) (fun r s' hr => ?_) (fun e s' hr => ?_) fun s' hr => ?_
    · obtain ⟨hr, htime⟩ := hr
      obtain rfl := Outcome.ok.inj hr
      refine Wp.mono (fun _ _ h => h) (fun o t ho => ?_) (ih (ans (time s) q) (hp.2 _) s')
      rw [htime] at ho
      refine ⟨ho.1, ho.2.trans ?_⟩
      rw [runFrom, List.length_cons, Nat.add_assoc, Nat.add_comm 1]
    · cases hr.1
    · cases hr.1

end
end Ask.Prog
