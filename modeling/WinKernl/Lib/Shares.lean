import WinKernl.Lib.Server
import WinKernl.Lib.Interleave

/- Threads that each have a part of what one server holds.

   The server is shared, and who asks matters to it (`K i`) and to what may be asked (`G i`).
   Thread `i` knows its part of the state: `part i s t` says that in `s` this part is as in
   `t`, a state of a server `L` of one thread alone. `Splits` is what has to be shown of a
   server: a permitted request of a thread is to its own part what `L` does, and is nothing to
   the parts of the others. Then what each thread is on its own part (`Prog.Wp`) it stays in
   any interleaving (`turns_kept`). -/
namespace Shares
open Ask Interleave

universe u v w x y

section
variable {ι : Type w} {σ τ : Type x} {Q : Type u} {R : Q → Type v} {ε α : Type v}

/-- A thread that has come to an end. -/
def ended : Outcome ε α → Prog Q R ε α
  | .ok a => .ok a
  | .err e => .err e
  | .panic => .panic

variable (K : ι → Server σ Q R)

/-- Thread `i` has a request answered. -/
def Turn [DecidableEq ι] (s : State ι σ Q R ε α) (i : ι) (s' : State ι σ Q R ε α) : Prop :=
  ∃ q k r, s.threads i = .ask q k ∧ K i s.shared q r s'.shared ∧
    s'.threads = Function.update s.threads i (k r)

def Turns [DecidableEq ι] : State ι σ Q R ε α → List ι → State ι σ Q R ε α → Prop
  | s, [], s' => s' = s
  | s, i :: is, s' => ∃ t, Turn K s i t ∧ Turns t is s'

variable {K} in
theorem Turns.snoc [DecidableEq ι] {s t u : State ι σ Q R ε α} {is : List ι} {i : ι}
    (hrun : Turns K s is t) (hturn : Turn K t i u) : Turns K s (is ++ [i]) u := by
  induction is generalizing s with
  | nil =>
    obtain rfl := hrun
    exact ⟨u, hturn, rfl⟩
  | cons j is ih =>
    obtain ⟨v, hfirst, hrest⟩ := hrun
    exact ⟨v, hfirst, ih hrest⟩

/-- The parts are apart. -/
def Splits (L : Server τ Q R) (G : ι → τ → Q → Prop) (part : ι → σ → τ → Prop)
    (I : σ → Prop) : Prop :=
  ∀ (i : ι) (s : σ) (v : ι → τ) (q : Q) (r : R q) (s' : σ), I s → (∀ j, part j s (v j)) →
    G i (v i) q → K i s q r s' →
      I s' ∧ (∃ t, L (v i) q r t ∧ part i s' t) ∧ ∀ j, j ≠ i → part j s' (v j)

/-- A thread can run to its end while the others wait. -/
theorem turns_alone [DecidableEq ι] {i : ι} {p : Prog Q R ε α} {s s' : σ} {o : Outcome ε α}
    (hp : p.Exec (K i) s o s') {threads : ι → Prog Q R ε α} (hi : threads i = p) : ∃ n,
      Turns K ⟨s, threads⟩ (List.replicate n i) ⟨s', Function.update threads i (ended o)⟩ := by
  induction p generalizing s threads with
  | ok a =>
    obtain ⟨rfl, rfl⟩ := hp
    exact ⟨0, by rw [ended, ← hi, Function.update_eq_self]; rfl⟩
  | err e =>
    obtain ⟨rfl, rfl⟩ := hp
    exact ⟨0, by rw [ended, ← hi, Function.update_eq_self]; rfl⟩
  | panic =>
    obtain ⟨rfl, rfl⟩ := hp
    exact ⟨0, by rw [ended, ← hi, Function.update_eq_self]; rfl⟩
  | ask q k ih =>
    obtain ⟨r, t, hr, hp⟩ := hp
    have hnext : Function.update threads i (k r) i = k r := Function.update_self ..
    obtain ⟨n, hrest⟩ := ih r hp hnext
    rw [Function.update_idem] at hrest
    exact ⟨n + 1, ⟨t, Function.update threads i (k r)⟩, ⟨q, k, r, hi, hr, rfl⟩, hrest⟩

variable {K} {L : Server τ Q R} {G : ι → τ → Q → Prop} {part : ι → σ → τ → Prop} {I : σ → Prop}
  {post : ι → Outcome ε α → τ → Prop}

/-- What is kept: every thread has its part, and is right on it. -/
def EachRight (L : Server τ Q R) (G : ι → τ → Q → Prop) (part : ι → σ → τ → Prop) (I : σ → Prop)
    (post : ι → Outcome ε α → τ → Prop) (s : State ι σ Q R ε α) : Prop :=
  I s.shared ∧ ∃ v : ι → τ, ∀ j, part j s.shared (v j) ∧ (s.threads j).Wp L (G j) (post j) (v j)

theorem turn_kept [DecidableEq ι] (hsplits : Splits K L G part I) {s s' : State ι σ Q R ε α} {i : ι}
    (hs : EachRight L G part I post s) (hturn : Turn K s i s') : EachRight L G part I post s' := by
  obtain ⟨hI, v, hv⟩ := hs
  obtain ⟨q, k, r, hask, hserved, hthreads⟩ := hturn
  have hi := (hv i).2
  rw [hask] at hi
  obtain ⟨hI', ⟨t, ht, hpart⟩, hothers⟩ := hsplits i _ v q r _ hI (fun j => (hv j).1) hi.1 hserved
  refine ⟨hI', Function.update v i t, fun j => ?_⟩
  rw [hthreads]
  by_cases hj : j = i
  · subst hj
    rw [Function.update_self, Function.update_self]
    exact ⟨hpart, hi.2 r t ht⟩
  · rw [Function.update_of_ne hj, Function.update_of_ne hj]
    exact ⟨hothers j hj, (hv j).2⟩

theorem turns_kept [DecidableEq ι] (hsplits : Splits K L G part I) {s s' : State ι σ Q R ε α}
    {is : List ι}
    (hs : EachRight L G part I post s) (hrun : Turns K s is s') : EachRight L G part I post s' := by
  induction is generalizing s with
  | nil => exact hrun ▸ hs
  | cons i is ih =>
    obtain ⟨t, hturn, hrest⟩ := hrun
    exact ih (turn_kept hsplits hs hturn) hrest

/-- What a thread is about to ask, it may ask of its part. -/
theorem EachRight.asking {s : State ι σ Q R ε α} (hs : EachRight L G part I post s) {i : ι} {q : Q}
    {k : R q → Prog Q R ε α} (hask : s.threads i = .ask q k) :
    ∃ t, part i s.shared t ∧ G i t q := by
  obtain ⟨-, v, hv⟩ := hs
  obtain ⟨hpart, hwp⟩ := hv i
  rw [hask] at hwp
  exact ⟨v i, hpart, hwp.1⟩

/-- A thread that has ended has ended as it does on its part. -/
theorem EachRight.ended {s : State ι σ Q R ε α} (hs : EachRight L G part I post s) {i : ι}
    {o : Outcome ε α} (hend : s.threads i = ended o) : ∃ t, part i s.shared t ∧ post i o t := by
  obtain ⟨-, v, hv⟩ := hs
  obtain ⟨hpart, hwp⟩ := hv i
  rw [hend] at hwp
  refine ⟨v i, hpart, ?_⟩
  cases o <;> exact hwp

end
end Shares
