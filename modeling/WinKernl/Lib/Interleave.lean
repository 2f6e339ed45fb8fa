import Mathlib.Logic.Function.Basic
import WinKernl.Lib.Ask
import WinKernl.Lib.Runs

/- Threads on one shared state.

   A thread is a program whose requests read and write the shared state; a request
   is one step, and the threads take their steps in any order. `serve` gives the
   answer to a request and the state it leaves, and takes a choice where the answer
   is open. `own i` is what thread `i` has asked in a run, each request with the
   state before and after it.

   `Keeps` is the proof obligation of one thread: in every state that meets the
   invariant its next request restores it, and what is left of the thread goes on
   so. It says nothing about the others, and holds of the rest of a thread wherever
   it is between two requests; `keeps_run` puts any number of threads together. -/
namespace Interleave
open Ask Runs

universe u v w x y

section
variable {Q : Type u} {R : Q → Type v} {ε α : Type v} {ι : Type w} {σ : Type x} {C : Type y}

/-- The shared state, and what is left of each thread. -/
structure State (ι : Type w) (σ : Type x) (Q : Type u) (R : Q → Type v) (ε α : Type v) where
  shared : σ
  threads : ι → Prog Q R ε α

/-- Whose step it is, and the choice that goes into the answer. -/
structure Turn (ι : Type w) (C : Type y) where
  thread : ι
  choice : C

/-- A request of a thread, and the shared state before and after it. -/
structure Own (σ : Type x) (Q : Type u) (R : Q → Type v) where
  before : σ
  req : Q
  answer : R req
  after : σ

variable (serve : σ → C → (q : Q) → R q × σ)

def served (s : σ) (c : C) (q : Q) : Own σ Q R := ⟨s, q, (serve s c q).1, (serve s c q).2⟩

variable [DecidableEq ι]

/-- A thread that has ended does nothing in its turn. -/
def step (s : State ι σ Q R ε α) (t : Turn ι C) : State ι σ Q R ε α :=
  match s.threads t.thread with
  | .ask q k =>
    let r := serve s.shared t.choice q
    ⟨r.2, Function.update s.threads t.thread (k r.1)⟩
  | _ => s

/-- What thread `i` asks in one turn. -/
def ownAt (i : ι) (s : State ι σ Q R ε α) (t : Turn ι C) : List (Own σ Q R) :=
  if t.thread = i then
    match s.threads i with
    | .ask q _ => [served serve s.shared t.choice q]
    | _ => []
  else []

/-- What thread `i` asks in a run. -/
def own (i : ι) : State ι σ Q R ε α → List (Turn ι C) → List (Own σ Q R)
  | _, [] => []
  | s, t :: ts => ownAt serve i s t ++ own i (step serve s t) ts

/-- What is left of a thread that has asked `h` keeps the invariant `I` of the shared
    state, changes it only as `G` says, and satisfies `J` after each of its steps. -/
def Keeps (I : σ → Prop) (G : σ → σ → Prop) (J : List (Own σ Q R) → Prog Q R ε α → Prop) :
    List (Own σ Q R) → Prog Q R ε α → Prop
  | h, .ok a => J h (.ok a)
  | h, .err e => J h (.err e)
  | h, .panic => J h .panic
  | h, .ask q k => J h (.ask q k) ∧ ∀ s c, I s → I (serve s c q).2 ∧ G s (serve s c q).2 ∧
      Keeps I G J (h ++ [served serve s c q]) (k (serve s c q).1)

variable {serve} {I : σ → Prop} {G : σ → σ → Prop}
  {J : List (Own σ Q R) → Prog Q R ε α → Prop}

/-! One turn. -/

/-- The thread has a request left. -/
def Asking (p : Prog Q R ε α) : Prop := ∃ q k, p = .ask q k

section
variable {s : State ι σ Q R ε α} {t : Turn ι C}

theorem step_ask {q : Q} {k : R q → Prog Q R ε α} (h : s.threads t.thread = .ask q k) :
    step serve s t = ⟨(serve s.shared t.choice q).2,
      Function.update s.threads t.thread (k (serve s.shared t.choice q).1)⟩ := by
  rw [step, h]

theorem step_idle (h : ¬ Asking (s.threads t.thread)) : step serve s t = s := by
  unfold step
  split
  · next q k hask => exact absurd ⟨q, k, hask⟩ h
  · rfl

/-- A turn of another thread. -/
theorem step_other {i : ι} (h : t.thread ≠ i) : (step serve s t).threads i = s.threads i := by
  by_cases hask : Asking (s.threads t.thread)
  · obtain ⟨q, k, hq⟩ := hask
    rw [step_ask hq]
    exact Function.update_of_ne (Ne.symm h) _ _
  · rw [step_idle hask]

theorem ownAt_ask {q : Q} {k : R q → Prog Q R ε α} (h : s.threads t.thread = .ask q k) (i : ι) :
    ownAt serve i s t = if t.thread = i then [served serve s.shared t.choice q] else [] := by
  unfold ownAt
  split
  · next hi =>
    subst hi
    rw [h]
  · rfl

theorem ownAt_idle (h : ¬ Asking (s.threads t.thread)) (i : ι) : ownAt serve i s t = [] := by
  unfold ownAt
  split
  · next hi =>
    subst hi
    split
    · next q k hask => exact absurd ⟨q, k, hask⟩ h
    · rfl
  · rfl

theorem Keeps.now {h : List (Own σ Q R)} {p : Prog Q R ε α} (hk : Keeps serve I G J h p) :
    J h p := by
  cases p with
  | ok a => exact hk
  | err e => exact hk
  | panic => exact hk
  | ask q k => exact hk.1

/-- A turn of one thread keeps the invariant, changes the shared state as `G` says or not
    at all, and leaves every thread with its obligation. -/
theorem keeps_step {h : ι → List (Own σ Q R)} (hI : I s.shared)
    (hk : ∀ i, Keeps serve I G J (h i) (s.threads i)) (t : Turn ι C) :
    I (step serve s t).shared ∧
      (G s.shared (step serve s t).shared ∨ (step serve s t).shared = s.shared) ∧
      ∀ i, Keeps serve I G J (h i ++ ownAt serve i s t) ((step serve s t).threads i) := by
  by_cases hask : Asking (s.threads t.thread)
  · obtain ⟨q, k, hq⟩ := hask
    have hown := hk t.thread
    rw [hq] at hown
    obtain ⟨hI', hG, hrest⟩ := hown.2 s.shared t.choice hI
    rw [step_ask hq]
    refine ⟨hI', .inl hG, fun i => ?_⟩
    rw [ownAt_ask hq]
    dsimp only
    by_cases hi : t.thread = i
    · subst hi
      rw [if_pos rfl, Function.update_self]
      exact hrest
    · -- The others have not moved.
      rw [if_neg hi, Function.update_of_ne (Ne.symm hi), List.append_nil]
      exact hk i
  · rw [step_idle hask]
    refine ⟨hI, .inr rfl, fun i => ?_⟩
    rw [ownAt_idle hask, List.append_nil]
    exact hk i

end

/-! Runs. -/

/-- In a run of threads that keep their obligations, each keeps them to its end. -/
theorem keeps_run {h : ι → List (Own σ Q R)} {s : State ι σ Q R ε α} (hI : I s.shared)
    (hk : ∀ i, Keeps serve I G J (h i) (s.threads i)) (ts : List (Turn ι C)) :
    I (final (step serve) s ts).shared ∧
      ∀ i, Keeps serve I G J (h i ++ own serve i s ts) ((final (step serve) s ts).threads i) := by
  induction ts generalizing s h with
  | nil =>
    refine ⟨hI, fun i => ?_⟩
    rw [own, List.append_nil]
    exact hk i
  | cons t ts ih =>
    obtain ⟨hI', -, hk'⟩ := keeps_step hI hk t
    obtain ⟨hIe, hke⟩ := ih hI' hk'
    refine ⟨hIe, fun i => ?_⟩
    rw [own, ← List.append_assoc]
    exact hke i

/-- Along the run the shared state meets the invariant, and its changes are those of `G`. -/
theorem always_run {h : ι → List (Own σ Q R)} {s : State ι σ Q R ε α} (hI : I s.shared)
    (hk : ∀ i, Keeps serve I G J (h i) (s.threads i)) (ts : List (Turn ι C)) :
    Always (step serve) (fun s => I s.shared) s ts ∧
      Guarded (step serve) (fun s t =>
        G s.shared (step serve s t).shared ∨ (step serve s t).shared = s.shared) s ts := by
  have hall : Always (step serve) (fun s => I s.shared ∧
      ∃ h : ι → List (Own σ Q R), ∀ i, Keeps serve I G J (h i) (s.threads i)) s ts := by
    refine always_of_guarded (G := fun _ _ => True) (fun s t hs _ => ?_) ⟨hI, h, hk⟩ guarded_true
    obtain ⟨hI, h, hk⟩ := hs
    obtain ⟨hI', -, hk'⟩ := keeps_step hI hk t
    exact ⟨hI', _, hk'⟩
  refine ⟨hall.mono fun _ hs => hs.1, hall.guarded (G := fun _ _ => True) ?_ guarded_true⟩
  intro s t hs _
  obtain ⟨hI, h, hk⟩ := hs
  exact (keeps_step hI hk t).2.1

/-! Progress. -/

/-- A thread that has ended stays so. -/
theorem final_ended {i : ι} {s : State ι σ Q R ε α} (h : ¬ Asking (s.threads i))
    (ts : List (Turn ι C)) : (final (step serve) s ts).threads i = s.threads i := by
  induction ts generalizing s with
  | nil => rfl
  | cons t ts ih =>
    have hsame : (step serve s t).threads i = s.threads i := by
      by_cases hi : t.thread = i
      · subst hi
        rw [step_idle h]
      · exact step_other hi
    rw [← hsame] at h ⊢
    exact ih h

/-- A thread that has not ended has asked in each of its turns. -/
theorem own_length {i : ι} {s : State ι σ Q R ε α} {ts : List (Turn ι C)}
    (h : Asking ((final (step serve) s ts).threads i)) :
    (own serve i s ts).length = (ts.map Turn.thread).count i := by
  induction ts generalizing s with
  | nil => rfl
  | cons t ts ih =>
    have hasking : Asking (s.threads i) := by
      by_contra hnot
      rw [final_ended hnot] at h
      exact hnot h
    rw [own, List.length_append, ih h, List.map_cons, List.count_cons, Nat.add_comm]
    congr 1
    by_cases hi : t.thread = i
    · subst hi
      obtain ⟨q, k, hq⟩ := hasking
      simp [ownAt_ask hq]
    · simp [ownAt, hi]

end
end Interleave
