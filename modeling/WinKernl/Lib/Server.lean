import WinKernl.Lib.Ends
import WinKernl.Lib.Runs

/- Programs against a server that has a state.

   `result` answers every request by one function. Here a request is answered by a server,
   whose answers depend on what it was asked before, and which may choose: it is a relation
   between a state, a request, an answer and the state behind it. `Exec` is one way that a
   program can go. `Wp` is what has to hold in a state for the program to ask nothing there
   that is not permitted, and to end as `post` says, whichever way it goes; `wp_iff` says that
   it means this, and the rules follow the ways in which programs are put together.
   `Steps` is a run of operations, each a program that takes the client's state and returns
   it, and only where the client may use it; a run that does not come back from an
   operation has no steps behind it. -/
namespace Ask

universe u v w x y

abbrev Server (σ : Type w) (Q : Type u) (R : Q → Type v) := σ → (q : Q) → R q → σ → Prop

namespace Prog

section
variable {σ : Type w} {Q : Type u} {R : Q → Type v} {ε α β : Type v} (K : Server σ Q R)

/-- The program, started in `s`, can end as `o` in `s'`. -/
def Exec : Prog Q R ε α → σ → Outcome ε α → σ → Prop
  | .ok a, s, o, s' => o = .ok a ∧ s' = s
  | .err e, s, o, s' => o = .err e ∧ s' = s
  | .panic, s, o, s' => o = .panic ∧ s' = s
  | .ask q k, s, o, s' => ∃ r t, K s q r t ∧ Exec (k r) t o s'

/-- The program, started in `s`, can come to ask `q` in `t`. -/
def Poses : Prog Q R ε α → (s t : σ) → Q → Prop
  | .ask q k, s, t, q' => (t = s ∧ q' = q) ∨ ∃ r s', K s q r s' ∧ Poses (k r) s' t q'
  | _, _, _, _ => False

variable (G : σ → Q → Prop)

def Wp (post : Outcome ε α → σ → Prop) : Prog Q R ε α → σ → Prop
  | .ok a, s => post (.ok a) s
  | .err e, s => post (.err e) s
  | .panic, s => post .panic s
  | .ask q k, s => G s q ∧ ∀ r s', K s q r s' → Wp post (k r) s'

variable {K G}

theorem wp_iff {post : Outcome ε α → σ → Prop} {p : Prog Q R ε α} {s : σ} :
    p.Wp K G post s ↔
      (∀ t q, p.Poses K s t q → G t q) ∧ ∀ o s', p.Exec K s o s' → post o s' := by
  induction p generalizing s with
  | ok a => simp [Wp, Poses, Exec]
  | err e => simp [Wp, Poses, Exec]
  | panic => simp [Wp, Poses, Exec]
  | ask q k ih =>
    simp only [Wp, ih]
    constructor
    · intro h
      obtain ⟨hG, hrest⟩ := h
      refine ⟨fun t q' hpose => ?_, fun o s' hexec => ?_⟩
      · rcases hpose with ⟨rfl, rfl⟩ | ⟨r, s', hr, hpose⟩
        · exact hG
        · exact (hrest r s' hr).1 t q' hpose
      · obtain ⟨r, t, hr, hexec⟩ := hexec
        exact (hrest r t hr).2 o s' hexec
    · intro h
      obtain ⟨hposes, hends⟩ := h
      refine ⟨hposes s q (.inl ⟨rfl, rfl⟩), fun r s' hr =>
        ⟨fun t q' hpose => ?_, fun o t hexec => ?_⟩⟩
      · exact hposes t q' (.inr ⟨r, s', hr, hpose⟩)
      · exact hends o t ⟨r, s', hr, hexec⟩

/-- Where every request that is permitted has an answer, the program comes to an end. -/
theorem exec_of_wp (htotal : ∀ s q, G s q → ∃ r s', K s q r s')
    {post : Outcome ε α → σ → Prop} {p : Prog Q R ε α} {s : σ} (hp : p.Wp K G post s) :
    ∃ o s', p.Exec K s o s' ∧ post o s' := by
  induction p generalizing s with
  | ok a => exact ⟨_, s, ⟨rfl, rfl⟩, hp⟩
  | err e => exact ⟨_, s, ⟨rfl, rfl⟩, hp⟩
  | panic => exact ⟨_, s, ⟨rfl, rfl⟩, hp⟩
  | ask q k ih =>
    obtain ⟨r, t, hr⟩ := htotal s q hp.1
    obtain ⟨o, s', hexec, hpost⟩ := ih r (hp.2 r t hr)
    exact ⟨o, s', ⟨r, t, hr, hexec⟩, hpost⟩

theorem Wp.mono {G' : σ → Q → Prop} {post post' : Outcome ε α → σ → Prop}
    (hG : ∀ s q, G s q → G' s q) (hpost : ∀ o s, post o s → post' o s) {p : Prog Q R ε α} {s : σ}
    (hp : p.Wp K G post s) : p.Wp K G' post' s := by
  induction p generalizing s with
  | ok a => exact hpost _ _ hp
  | err e => exact hpost _ _ hp
  | panic => exact hpost _ _ hp
  | ask q k ih => exact ⟨hG _ _ hp.1, fun r s' hr => ih r (hp.2 r s' hr)⟩

/-- What a program asks on no path, it does not ask here. -/
theorem Wp.asks {P : Q → Prop} {post : Outcome ε α → σ → Prop} {p : Prog Q R ε α} {s : σ}
    (hp : p.Wp K G post s) (hasks : p.Asks P) : p.Wp K (fun s q => G s q ∧ P q) post s := by
  induction p generalizing s with
  | ok a => exact hp
  | err e => exact hp
  | panic => exact hp
  | ask q k ih => exact ⟨⟨hp.1, hasks.1⟩, fun r s' hr => ih r (hp.2 r s' hr) (hasks.2 r)⟩

/-- A program ends in a way in which it can end. -/
theorem Wp.exec {post : Outcome ε α → σ → Prop} {p : Prog Q R ε α} {s : σ}
    (hp : p.Wp K G post s) : p.Wp K G (fun o t => post o t ∧ p.Exec K s o t) s := by
  obtain ⟨hposes, hends⟩ := wp_iff.mp hp
  exact wp_iff.mpr ⟨hposes, fun o t hexec => ⟨hends o t hexec, hexec⟩⟩

theorem Wp.ite {c : Prop} [Decidable c] {post : Outcome ε α → σ → Prop} {p q : Prog Q R ε α}
    {s : σ} (hp : c → p.Wp K G post s) (hq : ¬ c → q.Wp K G post s) :
    (if c then p else q).Wp K G post s :=
  iteInduction (motive := fun r : Prog Q R ε α => r.Wp K G post s) hp hq

/-- What has to hold after the first part of a program. -/
def andThen (G : σ → Q → Prop) (K : Server σ Q R) (f : α → Prog Q R ε β)
    (post : Outcome ε β → σ → Prop) : Outcome ε α → σ → Prop
  | .ok a, s => (f a).Wp K G post s
  | .err e, s => post (.err e) s
  | .panic, s => post .panic s

theorem wp_bind {p : Prog Q R ε α} {f : α → Prog Q R ε β} {post : Outcome ε β → σ → Prop} {s : σ} :
    (p >>= f).Wp K G post s ↔ p.Wp K G (andThen G K f post) s := by
  induction p generalizing s with
  | ok a => exact Iff.rfl
  | err e => exact Iff.rfl
  | panic => exact Iff.rfl
  | ask q k ih => exact and_congr_right fun _ => forall_congr' fun r => forall_congr' fun s' =>
      imp_congr_right fun _ => ih r

/-- The rule in the form in which it is used: the first part by a lemma about it. -/
theorem Wp.bind {p : Prog Q R ε α} {f : α → Prog Q R ε β} {post : Outcome ε β → σ → Prop}
    {mid : Outcome ε α → σ → Prop} {s : σ} (hp : p.Wp K G mid s)
    (hok : ∀ a t, mid (.ok a) t → (f a).Wp K G post t)
    (herr : ∀ e t, mid (.err e) t → post (.err e) t)
    (hpanic : ∀ t, mid .panic t → post .panic t) : (p >>= f).Wp K G post s := by
  refine wp_bind.mpr (Wp.mono (fun _ _ h => h) (fun o t ho => ?_) hp)
  cases o with
  | ok a => exact hok a t ho
  | err e => exact herr e t ho
  | panic => exact hpanic t ho

theorem wp_mapErr {ε' : Type v} {g : ε → ε'} {p : Prog Q R ε α} {post : Outcome ε' α → σ → Prop}
    {s : σ} : (p.mapErr g).Wp K G post s ↔ p.Wp K G (fun o t => post (o.mapErr g) t) s := by
  induction p generalizing s with
  | ok a => exact Iff.rfl
  | err e => exact Iff.rfl
  | panic => exact Iff.rfl
  | ask q k ih => exact and_congr_right fun _ => forall_congr' fun r => forall_congr' fun s' =>
      imp_congr_right fun _ => ih r

theorem wp_attempt {ε' : Type v} {p : Prog Q R ε α}
    {post : Outcome ε' (Except ε α) → σ → Prop} {s : σ} :
    p.attempt.Wp K G post s ↔ p.Wp K G (fun o t => post o.attempt t) s := by
  induction p generalizing s with
  | ok a => exact Iff.rfl
  | err e => exact Iff.rfl
  | panic => exact Iff.rfl
  | ask q k ih => exact and_congr_right fun _ => forall_congr' fun r => forall_congr' fun s' =>
      imp_congr_right fun _ => ih r

/-! Ways in which a program can go. -/

theorem Exec.bind {p : Prog Q R ε α} {f : α → Prog Q R ε β} {s t s' : σ} {a : α}
    {o : Outcome ε β} (hp : p.Exec K s (.ok a) t) (hf : (f a).Exec K t o s') :
    (p >>= f).Exec K s o s' := by
  induction p generalizing s with
  | ok b =>
    obtain ⟨hb, rfl⟩ := hp
    obtain rfl := Outcome.ok.inj hb
    exact hf
  | err e => cases hp.1
  | panic => cases hp.1
  | ask q k ih =>
    obtain ⟨r, s₁, hr, hp⟩ := hp
    exact ⟨r, s₁, hr, ih r hp⟩

theorem Exec.bind_panic {p : Prog Q R ε α} {f : α → Prog Q R ε β} {s t : σ}
    (hp : p.Exec K s .panic t) : (p >>= f).Exec K s .panic t := by
  induction p generalizing s with
  | ok a => cases hp.1
  | err e => cases hp.1
  | panic => exact ⟨rfl, hp.2⟩
  | ask q k ih =>
    obtain ⟨r, s₁, hr, hp⟩ := hp
    exact ⟨r, s₁, hr, ih r hp⟩

theorem Exec.ite_pos {c : Prop} [Decidable c] {p q : Prog Q R ε α} {s t : σ} {o : Outcome ε α}
    (hc : c) (hp : p.Exec K s o t) : (if c then p else q).Exec K s o t := by
  rwa [if_pos hc]

theorem Exec.ite_neg {c : Prop} [Decidable c] {p q : Prog Q R ε α} {s t : σ} {o : Outcome ε α}
    (hc : ¬ c) (hq : q.Exec K s o t) : (if c then p else q).Exec K s o t := by
  rwa [if_neg hc]

theorem Exec.mapErr {ε' : Type v} (g : ε → ε') {p : Prog Q R ε α} {s t : σ} {o : Outcome ε α}
    (hp : p.Exec K s o t) : (p.mapErr g).Exec K s (o.mapErr g) t := by
  induction p generalizing s with
  | ok a => exact ⟨congrArg _ hp.1, hp.2⟩
  | err e => exact ⟨congrArg _ hp.1, hp.2⟩
  | panic => exact ⟨congrArg _ hp.1, hp.2⟩
  | ask q k ih =>
    obtain ⟨r, s₁, hr, hp⟩ := hp
    exact ⟨r, s₁, hr, ih r hp⟩

theorem Exec.attempt {ε' : Type v} {p : Prog Q R ε α} {s t : σ} {o : Outcome ε α}
    (hp : p.Exec K s o t) :
    (p.attempt : Prog Q R ε' (Except ε α)).Exec K s o.attempt t := by
  induction p generalizing s with
  | ok a => exact ⟨congrArg _ hp.1, hp.2⟩
  | err e => exact ⟨congrArg _ hp.1, hp.2⟩
  | panic => exact ⟨congrArg _ hp.1, hp.2⟩
  | ask q k ih =>
    obtain ⟨r, s₁, hr, hp⟩ := hp
    exact ⟨r, s₁, hr, ih r hp⟩

/-- What a program does on one server, it does on another that can do the same. -/
theorem Exec.sim {τ : Type y} {K' : Server τ Q R} {S : σ → τ → Prop}
    (hsim : ∀ s t q r s', S s t → K s q r s' → ∃ t', K' t q r t' ∧ S s' t') {p : Prog Q R ε α}
    {s s' : σ} {t : τ} {o : Outcome ε α} (hS : S s t) (hp : p.Exec K s o s') :
    ∃ t', p.Exec K' t o t' ∧ S s' t' := by
  induction p generalizing s t with
  | ok a => exact ⟨t, ⟨hp.1, rfl⟩, hp.2 ▸ hS⟩
  | err e => exact ⟨t, ⟨hp.1, rfl⟩, hp.2 ▸ hS⟩
  | panic => exact ⟨t, ⟨hp.1, rfl⟩, hp.2 ▸ hS⟩
  | ask q k ih =>
    obtain ⟨r, s₁, hr, hp⟩ := hp
    obtain ⟨t₁, hr', hS₁⟩ := hsim s t q r s₁ hS hr
    obtain ⟨t', hp', hS'⟩ := ih r hS₁ hp
    exact ⟨t', ⟨r, t₁, hr', hp'⟩, hS'⟩

theorem Exec.mono {K' : Server σ Q R} (h : ∀ s q r s', K s q r s' → K' s q r s')
    {p : Prog Q R ε α} {s s' : σ} {o : Outcome ε α} (hp : p.Exec K s o s') :
    p.Exec K' s o s' := by
  obtain ⟨t, hexec, rfl⟩ :=
    hp.sim (S := (· = ·)) (fun s t q r s' hs hr => ⟨s', hs ▸ h s q r s' hr, rfl⟩) rfl
  exact hexec

end

section
variable {σ : Type w} {Q : Type u} {R : Q → Type v} {Q' : Type x} {R' : Q' → Type v}
  {ε α : Type v} {K : Server σ Q' R'} {G : σ → Q' → Prop}

/-- A program whose requests are put into those of another interface. -/
theorem wp_via_ask {g : Q → Q'} {f : (q : Q) → R' (g q) → R q} {p : Prog Q R ε α}
    {post : Outcome ε α → σ → Prop} {s : σ} :
    (p.via fun q => .ask (g q) fun r => .ok (f q r)).Wp K G post s ↔
      p.Wp (fun s q r t => ∃ r', K s (g q) r' t ∧ f q r' = r) (fun s q => G s (g q)) post s := by
  induction p generalizing s with
  | ok a => exact Iff.rfl
  | err e => exact Iff.rfl
  | panic => exact Iff.rfl
  | ask q k ih =>
    refine and_congr_right fun _ => ⟨fun h r t hr => ?_, fun h r' t hr => ?_⟩
    · obtain ⟨r', hr, rfl⟩ := hr
      exact (ih _).mp (h r' t hr)
    · exact (ih _).mpr (h _ t ⟨r', hr, rfl⟩)

theorem Exec.via_ask {g : Q → Q'} {f : (q : Q) → R' (g q) → R q} {p : Prog Q R ε α} {s t : σ}
    {o : Outcome ε α} (hp : p.Exec (fun s q r t => ∃ r', K s (g q) r' t ∧ f q r' = r) s o t) :
    (p.via fun q => .ask (g q) fun r => .ok (f q r)).Exec K s o t := by
  induction p generalizing s with
  | ok a => exact hp
  | err e => exact hp
  | panic => exact hp
  | ask q k ih =>
    obtain ⟨-, s₁, ⟨r, hr, rfl⟩, hp⟩ := hp
    exact ⟨r, s₁, hr, ih _ hp⟩

/-- A program that is right for one server is right for another on which each of its
    permitted requests is served by a program that does what the first server does. -/
theorem Wp.via {τ : Type y} {Q : Type u} {R : Q → Type v} {K' : Server τ Q R} {G' : τ → Q → Prop}
    {S : σ → τ → Prop} {h : (q : Q) → Prog Q' R' ε (R q)}
    (hserve : ∀ s t q, S s t → G' t q → (h q).Wp K G
      (fun o s' => ∃ r t', o = .ok r ∧ K' t q r t' ∧ S s' t') s)
    {post : Outcome ε α → τ → Prop} {p : Prog Q R ε α} {s : σ} {t : τ} (hS : S s t)
    (hp : p.Wp K' G' post t) :
    (p.via h).Wp K G (fun o s' => ∃ t', post o t' ∧ S s' t') s := by
  induction p generalizing s t with
  | ok a => exact ⟨t, hp, hS⟩
  | err e => exact ⟨t, hp, hS⟩
  | panic => exact ⟨t, hp, hS⟩
  | ask q k ih =>
    refine .bind (hserve s t q hS hp.1) (fun r s' hr => ?_) (fun e s' hr => ?_) fun s' hr => ?_
    · obtain ⟨r', t', hr, hserved, hS'⟩ := hr
      obtain rfl := Outcome.ok.inj hr
      exact ih r hS' (hp.2 r t' hserved)
    · obtain ⟨r', t', hr, -⟩ := hr
      cases hr
    · obtain ⟨r', t', hr, -⟩ := hr
      cases hr

end
end Prog

/-! Runs of operations. -/

section
variable {σ : Type w} {Q : Type u} {R : Q → Type v} {ε τ : Type v} {O : Type y}
  (K : Server σ Q R) (L : τ × σ → O → Prop) (perform : O → τ → Prog Q R ε τ)

/-- The operations can lead from `s` to `s'`. -/
def Steps : τ × σ → List O → τ × σ → Prop
  | s, [], s' => s' = s
  | s, o :: os, s' => L s o ∧ ∃ t, (perform o s.1).Exec K s.2 (.ok t.1) t.2 ∧ Steps t os s'

variable {K L perform}

theorem Steps.mono {K' : Server σ Q R} (hK : ∀ s q r s', K s q r s' → K' s q r s') {s s' : τ × σ}
    {os : List O} (hrun : Steps K L perform s os s') : Steps K' L perform s os s' := by
  induction os generalizing s with
  | nil => exact hrun
  | cons o os ih =>
    obtain ⟨hLo, t, hexec, hrest⟩ := hrun
    exact ⟨hLo, t, hexec.mono hK, ih hrest⟩

/-- An invariant that every operation keeps, whichever way it goes, holds at the end. -/
theorem steps_inv {I : τ × σ → Prop} {G : σ → Q → Prop}
    (hop : ∀ s o, I s → L s o →
      (perform o s.1).Wp K G (fun r t => ∀ c, r = .ok c → I (c, t)) s.2)
    {s s' : τ × σ} {os : List O} (hI : I s) (hrun : Steps K L perform s os s') : I s' := by
  induction os generalizing s with
  | nil => exact hrun ▸ hI
  | cons o os ih =>
    obtain ⟨hL, t, hexec, hrest⟩ := hrun
    exact ih ((Prog.wp_iff.mp (hop s o hI hL)).2 _ _ hexec _ rfl) hrest

/-- Where every operation does what an operation of an abstract machine does, a run does
    what a run of the machine does. -/
theorem steps_simulate {T : Type w} {A : Type y} {step : T → A → T} {S : τ × σ → T → Prop}
    {does : O → A → Prop} {G : σ → Q → Prop}
    (hop : ∀ s o t, S s t → L s o → (perform o s.1).Wp K G
      (fun r s' => ∀ c, r = .ok c → ∃ a, does o a ∧ S (c, s') (step t a)) s.2)
    {s s' : τ × σ} {os : List O} {t : T} (hS : S s t) (hrun : Steps K L perform s os s') :
    ∃ as, List.Forall₂ does os as ∧ S s' (Runs.final step t as) := by
  induction os generalizing s t with
  | nil => exact ⟨[], .nil, hrun ▸ hS⟩
  | cons o os ih =>
    obtain ⟨hL, s₁, hexec, hrest⟩ := hrun
    obtain ⟨a, hdoes, hS'⟩ := (Prog.wp_iff.mp (hop s o t hS hL)).2 _ _ hexec _ rfl
    obtain ⟨as, hall, hend⟩ := ih hS' hrest
    exact ⟨a :: as, .cons hdoes hall, hend⟩

end

/-! A client that chooses each operation by what the ones before have left. -/

inductive Plan (O : Type u) (τ : Type v) where
  | stop
  | act (o : O) (next : τ → Plan O τ)

section
variable {σ : Type w} {Q : Type u} {R : Q → Type v} {ε τ : Type v} {O : Type y}

def Plan.program (perform : O → τ → Prog Q R ε τ) : Plan O τ → τ → Prog Q R ε τ
  | .stop, c => .ok c
  | .act o next, c => perform o c >>= fun c => (next c).program perform c

variable (K : Server σ Q R) (L : τ × σ → O → Prop) (perform : O → τ → Prog Q R ε τ)

/-- However the operations go, each is one that the client may use. -/
def Safely : τ × σ → Plan O τ → Prop
  | _, .stop => True
  | s, .act o next =>
    L s o ∧ ∀ t : τ × σ, (perform o s.1).Exec K s.2 (.ok t.1) t.2 → Safely t (next t.1)

/-- The plan can come to the operation `o` in the state `t`. -/
def Plan.Comes : τ × σ → Plan O τ → τ × σ → O → Prop
  | _, .stop, _, _ => False
  | s, .act o next, t, o' => (t = s ∧ o' = o) ∨
    ∃ s' : τ × σ, (perform o s.1).Exec K s.2 (.ok s'.1) s'.2 ∧ Plan.Comes s' (next s'.1) t o'

variable {K L perform}

/-- The state satisfies `I`, or there is none and the program has ended as `E` says. -/
def Leaves (I : τ × σ → Prop) (E : Outcome ε τ → Prop) : Outcome ε τ → σ → Prop
  | .ok c, t => I (c, t)
  | .err e, _ => E (.err e)
  | .panic, _ => E .panic

/-- What every operation keeps that the client may use, a plan keeps. Where it does not come
    back, that is from an operation that it has come to. -/
theorem Plan.program_wp {I : τ × σ → Prop} {E : τ × σ → O → Outcome ε τ → Prop} {G : σ → Q → Prop}
    (hop : ∀ s o, I s → L s o → (perform o s.1).Wp K G (Leaves I (E s o)) s.2) {s : τ × σ}
    {p : Plan O τ} (hI : I s) (hsafe : Safely K L perform s p) :
    (p.program perform s.1).Wp K G
      (Leaves I fun r => ∃ t o, Plan.Comes K perform s p t o ∧ E t o r) s.2 := by
  induction p generalizing s with
  | stop => exact hI
  | act o next ih =>
    obtain ⟨hL, hrest⟩ := hsafe
    have hhere : Plan.Comes K perform s (.act o next) s o := .inl ⟨rfl, rfl⟩
    refine Prog.Wp.bind (hop s o hI hL).exec (fun c t h => ?_) (fun e _ h => ⟨s, o, hhere, h.1⟩)
      fun _ h => ⟨s, o, hhere, h.1⟩
    refine .mono (fun _ _ h => h) (fun r s' hr => ?_)
      (ih c (s := (c, t)) h.1 (hrest (c, t) h.2))
    -- an operation that is come to later
    have hlater : ∀ r, (∃ t' o', Plan.Comes K perform (c, t) (next c) t' o' ∧ E t' o' r) →
        ∃ t' o', Plan.Comes K perform s (.act o next) t' o' ∧ E t' o' r := by
      intro r hr
      obtain ⟨t', o', hcomes, hE⟩ := hr
      exact ⟨t', o', .inr ⟨(c, t), h.2, hcomes⟩, hE⟩
    cases r with
    | ok c' => exact hr
    | err e => exact hlater _ hr
    | panic => exact hlater _ hr

end
end Ask
