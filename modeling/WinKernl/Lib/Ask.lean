import Mathlib.Tactic.Ring

/- Programs that call back out.

   A function that takes a callback, or that calls an interface it does not
   implement, is a tree: it ends in a value, in an error it returns, or in a
   panic, or it asks a request and goes on with the answer. `result` and `trace`
   answer every request by one function and give how the program ends and what it
   asked, in order. Two facts carry the proofs about such programs: a program is
   its first part followed by the rest (`result_bind`, `trace_bind`), and it
   depends on the answers to the requests it asks and on no other
   (`result_congr`). `Asks` bounds the requests on every path, whatever the
   answers are. -/
namespace Ask

universe u v

/-- How a program ends. -/
inductive Outcome (ε α : Type v) where
  | ok (a : α)
  | err (e : ε)
  | panic
  deriving DecidableEq, Repr

inductive Prog (Q : Type u) (R : Q → Type v) (ε α : Type v) where
  | ok (a : α)
  | err (e : ε)
  | panic
  | ask (q : Q) (k : R q → Prog Q R ε α)

def Outcome.bind {ε α β : Type v} : Outcome ε α → (α → Outcome ε β) → Outcome ε β
  | .ok a, f => f a
  | .err e, _ => .err e
  | .panic, _ => .panic

def Outcome.mapErr {ε ε' α : Type v} (f : ε → ε') : Outcome ε α → Outcome ε' α
  | .ok a => .ok a
  | .err e => .err (f e)
  | .panic => .panic

/-- An error as a value. -/
def Outcome.attempt {ε ε' α : Type v} : Outcome ε α → Outcome ε' (Except ε α)
  | .ok a => .ok (.ok a)
  | .err e => .ok (.error e)
  | .panic => .panic

def Outcome.isOk {ε α : Type v} : Outcome ε α → Bool
  | .ok _ => true
  | .err _ => false
  | .panic => false

def Outcome.getD {ε α : Type v} : Outcome ε α → α → α
  | .ok a, _ => a
  | .err _, a => a
  | .panic, a => a

/-- A value that may be missing, where a missing one is a panic. -/
def Outcome.orPanic {ε α : Type v} : Option α → Outcome ε α
  | some a => .ok a
  | none => .panic

section
variable {Q : Type u} {R : Q → Type v} {ε ε' α β γ : Type v}

theorem Outcome.bind_eq_ok {o : Outcome ε α} {f : α → Outcome ε β} {b : β} :
    o.bind f = .ok b ↔ ∃ a, o = .ok a ∧ f a = .ok b := by
  cases o <;> simp [Outcome.bind]

theorem Outcome.mapErr_eq_ok {f : ε → ε'} {o : Outcome ε α} {a : α} :
    o.mapErr f = .ok a ↔ o = .ok a := by
  cases o <;> simp [Outcome.mapErr]

namespace Prog

def bind : Prog Q R ε α → (α → Prog Q R ε β) → Prog Q R ε β
  | .ok a, f => f a
  | .err e, _ => .err e
  | .panic, _ => .panic
  | .ask q k, f => .ask q (fun r => bind (k r) f)

instance : Monad (Prog Q R ε) where
  pure := .ok
  bind := bind

/-- Convert the error a program returns. -/
def mapErr (f : ε → ε') : Prog Q R ε α → Prog Q R ε' α
  | .ok a => .ok a
  | .err e => .err (f e)
  | .panic => .panic
  | .ask q k => .ask q (fun r => mapErr f (k r))

/-- Go on with the error a program returns as a value. -/
def attempt : Prog Q R ε α → Prog Q R ε' (Except ε α)
  | .ok a => .ok (.ok a)
  | .err e => .ok (.error e)
  | .panic => .panic
  | .ask q k => .ask q (fun r => attempt (k r))

def orPanic : Option α → Prog Q R ε α
  | some a => .ok a
  | none => .panic

/-- One request, and its answer. -/
def call (q : Q) : Prog Q R ε (R q) := .ask q .ok

/-! Laws of the bind. -/

theorem err_bind (e : ε) (f : α → Prog Q R ε β) : (err e >>= f) = err e := rfl

theorem bind_pure (p : Prog Q R ε α) : p >>= pure = p := by
  induction p with
  | ok a => rfl
  | err e => rfl
  | panic => rfl
  | ask q k ih => exact congrArg (ask q) (funext ih)

theorem bind_assoc (p : Prog Q R ε α) (f : α → Prog Q R ε β) (g : β → Prog Q R ε γ) :
    p >>= f >>= g = p >>= fun a => f a >>= g := by
  induction p with
  | ok a => rfl
  | err e => rfl
  | panic => rfl
  | ask q k ih => exact congrArg (ask q) (funext ih)

theorem attempt_bind (p : Prog Q R ε α) (f : α → Prog Q R ε β) :
    ((p >>= f).attempt : Prog Q R ε' (Except ε β)) = p.attempt >>= fun r =>
      match r with
      | .ok a => (f a).attempt
      | .error e => .ok (.error e) := by
  induction p with
  | ok a => rfl
  | err e => rfl
  | panic => rfl
  | ask q k ih => exact congrArg (ask q) (funext ih)

theorem ite_bind (c : Prop) [Decidable c] (p q : Prog Q R ε α) (f : α → Prog Q R ε β) :
    (if c then p else q) >>= f = if c then p >>= f else q >>= f := by
  split <;> rfl

variable (ans : (q : Q) → R q)

/-- How the program ends when `ans` answers. -/
def result : Prog Q R ε α → Outcome ε α
  | .ok a => .ok a
  | .err e => .err e
  | .panic => .panic
  | .ask q k => result (k (ans q))

/-- What the program asks when `ans` answers, in order. -/
def trace : Prog Q R ε α → List Q
  | .ok _ => []
  | .err _ => []
  | .panic => []
  | .ask q k => q :: trace (k (ans q))

@[simp] theorem result_ok (a : α) : (ok a : Prog Q R ε α).result ans = .ok a := rfl
@[simp] theorem result_pure (a : α) : (pure a : Prog Q R ε α).result ans = .ok a := rfl
@[simp] theorem result_err (e : ε) : (err e : Prog Q R ε α).result ans = .err e := rfl
@[simp] theorem result_panic : (panic : Prog Q R ε α).result ans = .panic := rfl
@[simp] theorem result_ask (q : Q) (k : R q → Prog Q R ε α) :
    (ask q k).result ans = (k (ans q)).result ans := rfl

@[simp] theorem trace_ok (a : α) : (ok a : Prog Q R ε α).trace ans = [] := rfl
@[simp] theorem trace_pure (a : α) : (pure a : Prog Q R ε α).trace ans = [] := rfl
@[simp] theorem trace_err (e : ε) : (err e : Prog Q R ε α).trace ans = [] := rfl
@[simp] theorem trace_panic : (panic : Prog Q R ε α).trace ans = [] := rfl
@[simp] theorem trace_ask (q : Q) (k : R q → Prog Q R ε α) :
    (ask q k).trace ans = q :: (k (ans q)).trace ans := rfl

@[simp] theorem result_bind (p : Prog Q R ε α) (f : α → Prog Q R ε β) :
    (p >>= f).result ans = (p.result ans).bind (fun a => (f a).result ans) := by
  induction p with
  | ok a => rfl
  | err e => rfl
  | panic => rfl
  | ask q k ih => exact ih (ans q)

/-- What the rest of a program asks, once its first part has ended in `o`. -/
def traceAfter (o : Outcome ε α) (f : α → Prog Q R ε β) : List Q :=
  match o with
  | .ok a => (f a).trace ans
  | .err _ => []
  | .panic => []

@[simp] theorem traceAfter_ok (a : α) (f : α → Prog Q R ε β) :
    traceAfter ans (.ok a) f = (f a).trace ans := rfl
@[simp] theorem traceAfter_err (e : ε) (f : α → Prog Q R ε β) :
    traceAfter ans (.err e) f = [] := rfl
@[simp] theorem traceAfter_panic (f : α → Prog Q R ε β) :
    traceAfter ans (.panic : Outcome ε α) f = [] := rfl

@[simp] theorem trace_bind (p : Prog Q R ε α) (f : α → Prog Q R ε β) :
    (p >>= f).trace ans = p.trace ans ++ traceAfter ans (p.result ans) f := by
  induction p with
  | ok a => rfl
  | err e => rfl
  | panic => rfl
  | ask q k ih => exact congrArg (q :: ·) (ih (ans q))

theorem result_ite (c : Prop) [Decidable c] (p q : Prog Q R ε α) :
    (if c then p else q).result ans = if c then p.result ans else q.result ans := by
  split <;> rfl

theorem trace_ite (c : Prop) [Decidable c] (p q : Prog Q R ε α) :
    (if c then p else q).trace ans = if c then p.trace ans else q.trace ans := by
  split <;> rfl

@[simp] theorem result_mapErr (g : ε → ε') (p : Prog Q R ε α) :
    (p.mapErr g).result ans = (p.result ans).mapErr g := by
  induction p with
  | ok a => rfl
  | err e => rfl
  | panic => rfl
  | ask q k ih => exact ih (ans q)

@[simp] theorem trace_mapErr (g : ε → ε') (p : Prog Q R ε α) :
    (p.mapErr g).trace ans = p.trace ans := by
  induction p with
  | ok a => rfl
  | err e => rfl
  | panic => rfl
  | ask q k ih => exact congrArg (q :: ·) (ih (ans q))

@[simp] theorem result_attempt (p : Prog Q R ε α) :
    (p.attempt : Prog Q R ε' (Except ε α)).result ans = (p.result ans).attempt := by
  induction p with
  | ok a => rfl
  | err e => rfl
  | panic => rfl
  | ask q k ih => exact ih (ans q)

@[simp] theorem trace_attempt (p : Prog Q R ε α) :
    (p.attempt : Prog Q R ε' (Except ε α)).trace ans = p.trace ans := by
  induction p with
  | ok a => rfl
  | err e => rfl
  | panic => rfl
  | ask q k ih => exact congrArg (q :: ·) (ih (ans q))

@[simp] theorem result_orPanic (o : Option α) :
    (orPanic o : Prog Q R ε α).result ans = Outcome.orPanic o := by
  cases o <;> rfl

@[simp] theorem trace_orPanic (o : Option α) : (orPanic o : Prog Q R ε α).trace ans = [] := by
  cases o <;> rfl

/-- What the program asks, each request with its answer. -/
def calls (p : Prog Q R ε α) : List (Sigma R) := (p.trace ans).map fun q => ⟨q, ans q⟩

@[simp] theorem calls_ok (a : α) : (ok a : Prog Q R ε α).calls ans = [] := rfl
@[simp] theorem calls_err (e : ε) : (err e : Prog Q R ε α).calls ans = [] := rfl
@[simp] theorem calls_ask (q : Q) (k : R q → Prog Q R ε α) :
    (ask q k).calls ans = ⟨q, ans q⟩ :: (k (ans q)).calls ans := rfl

/-- The program ends in the value `a`, after the calls `cs`. -/
def RunsTo (p : Prog Q R ε α) (a : α) (cs : List (Sigma R)) : Prop :=
  p.result ans = .ok a ∧ p.calls ans = cs

variable {ans}

theorem RunsTo.ok (a : α) : (ok a : Prog Q R ε α).RunsTo ans a [] := ⟨rfl, rfl⟩

theorem RunsTo.ask {q : Q} {k : R q → Prog Q R ε α} {a : α} {cs : List (Sigma R)}
    (h : (k (ans q)).RunsTo ans a cs) : (ask q k).RunsTo ans a (⟨q, ans q⟩ :: cs) :=
  ⟨h.1, congrArg (_ :: ·) h.2⟩

theorem RunsTo.ite_pos {c : Prop} [Decidable c] {p q : Prog Q R ε α} {a : α}
    {cs : List (Sigma R)} (hc : c) (h : p.RunsTo ans a cs) :
    (if c then p else q).RunsTo ans a cs := by
  rwa [if_pos hc]

theorem RunsTo.ite_neg {c : Prop} [Decidable c] {p q : Prog Q R ε α} {a : α}
    {cs : List (Sigma R)} (hc : ¬ c) (h : q.RunsTo ans a cs) :
    (if c then p else q).RunsTo ans a cs := by
  rwa [if_neg hc]

variable (ans)

/-- A program's run depends on the answers to what it asks, and on no other. -/
theorem run_congr {ans ans' : (q : Q) → R q} (p : Prog Q R ε α)
    (h : ∀ q ∈ p.trace ans, ans' q = ans q) :
    p.result ans' = p.result ans ∧ p.trace ans' = p.trace ans := by
  induction p with
  | ok a => exact ⟨rfl, rfl⟩
  | err e => exact ⟨rfl, rfl⟩
  | panic => exact ⟨rfl, rfl⟩
  | ask q k ih =>
    have hq : ans' q = ans q := h q List.mem_cons_self
    obtain ⟨hr, ht⟩ := ih (ans q) (fun x hx => h x (List.mem_cons_of_mem q hx))
    refine ⟨?_, ?_⟩
    · rw [result_ask, result_ask, hq, hr]
    · rw [trace_ask, trace_ask, hq, ht]

/-- How a program ends is settled by the calls it has made. -/
theorem result_of_calls {ans ans' : (q : Q) → R q} {p : Prog Q R ε α}
    (h : p.calls ans' = p.calls ans) : p.result ans' = p.result ans := by
  induction p with
  | ok a => rfl
  | err e => rfl
  | panic => rfl
  | ask q k ih =>
    rw [calls_ask, calls_ask] at h
    obtain ⟨hcall, hrest⟩ := List.cons.inj h
    have hq : ans' q = ans q := eq_of_heq (Sigma.mk.inj hcall).2
    rw [hq] at hrest
    rw [result_ask, result_ask, hq, ih _ hrest]

/-! What a program can ask, whatever the answers. -/

/-- Every request on every path satisfies `P`. -/
def Asks (P : Q → Prop) : Prog Q R ε α → Prop
  | .ok _ => True
  | .err _ => True
  | .panic => True
  | .ask q k => P q ∧ ∀ r, Asks P (k r)

theorem Asks.ok {P : Q → Prop} (a : α) : (ok a : Prog Q R ε α).Asks P := trivial

theorem Asks.err {P : Q → Prop} (e : ε) : (err e : Prog Q R ε α).Asks P := trivial

theorem Asks.mono {P P' : Q → Prop} (h : ∀ q, P q → P' q) {p : Prog Q R ε α} (hp : p.Asks P) :
    p.Asks P' := by
  induction p with
  | ok a => trivial
  | err e => trivial
  | panic => trivial
  | ask q k ih => exact ⟨h q hp.1, fun r => ih r (hp.2 r)⟩

theorem Asks.bind {P : Q → Prop} {p : Prog Q R ε α} {f : α → Prog Q R ε β}
    (hp : p.Asks P) (hf : ∀ a, (f a).Asks P) : (p >>= f).Asks P := by
  induction p with
  | ok a => exact hf a
  | err e => trivial
  | panic => trivial
  | ask q k ih => exact ⟨hp.1, fun r => ih r (hp.2 r)⟩

theorem Asks.ite {P : Q → Prop} {c : Prop} [Decidable c] {p q : Prog Q R ε α}
    (hp : p.Asks P) (hq : q.Asks P) : (if c then p else q).Asks P := by
  by_cases h : c
  · rwa [if_pos h]
  · rwa [if_neg h]

theorem Asks.mapErr {P : Q → Prop} (g : ε → ε') {p : Prog Q R ε α} (hp : p.Asks P) :
    (p.mapErr g).Asks P := by
  induction p with
  | ok a => trivial
  | err e => trivial
  | panic => trivial
  | ask q k ih => exact ⟨hp.1, fun r => ih r (hp.2 r)⟩

theorem Asks.attempt {P : Q → Prop} {p : Prog Q R ε α} (hp : p.Asks P) :
    (p.attempt : Prog Q R ε' (Except ε α)).Asks P := by
  induction p with
  | ok a => trivial
  | err e => trivial
  | panic => trivial
  | ask q k ih => exact ⟨hp.1, fun r => ih r (hp.2 r)⟩

/-- Where every request will do, every program does. -/
theorem asks_of_forall {P : Q → Prop} (h : ∀ q, P q) (p : Prog Q R ε α) : p.Asks P := by
  induction p with
  | ok a => trivial
  | err e => trivial
  | panic => trivial
  | ask q k ih => exact ⟨h q, ih⟩

theorem Asks.trace {P : Q → Prop} {p : Prog Q R ε α} (hp : p.Asks P) :
    ∀ q ∈ p.trace ans, P q := by
  induction p with
  | ok a => simp
  | err e => simp
  | panic => simp
  | ask q k ih =>
    intro x hx
    rcases List.mem_cons.mp hx with rfl | hx
    · exact hp.1
    · exact ih (ans q) (hp.2 _) x hx

end Prog
end
end Ask
