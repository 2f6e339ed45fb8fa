import WinKernl.Lib.Runs
import WinKernl.Trampoline

/- Runs over any number of hooks.

   The state is memory and the live hooks; an operation is one call on one of them.
   `Truthful` is what the enabled flags promise of the code, `Legal` what a run has
   to respect: trampolines off the code, patched ranges of live hooks disjoint.
   `disable` writes back a window of 29 bytes where `enable` wrote 5 or 12, so it
   also writes the bytes behind the patch, as they were when the hook was created.
   `Restores` says that these are the bytes which are there now. -/
namespace WinKernl
open ByteMem Ask Runs

structure HookState where
  mem : Mem 64
  hooks : Nat → Option KHook

/-- A call; `ok` says whether its write succeeds. -/
inductive HookOp where
  | new (id : Nat) (env : Env) (src : VirtAddr) (dst : BitVec 64)
  | enable (id : Nat) (ok : Bool)
  | disable (id : Nat) (ok : Bool)
  | drop (id : Nat) (ok : Bool)

namespace HookState

def set (s : HookState) (id : Nat) (o : Option KHook) : Nat → Option KHook :=
  Function.update s.hooks id o

def step (s : HookState) : HookOp → HookState
  | .new id env src dst =>
    match KHook.new env src dst s.mem with
    | (.ok h, mem) => ⟨mem, s.set id (some h)⟩
    | (_, mem) => ⟨mem, s.hooks⟩
  | .enable id ok =>
    match s.hooks id with
    | none => s
    | some h => ⟨(h.enable ok s.mem).2.2, s.set id (some (h.enable ok s.mem).2.1)⟩
  | .disable id ok =>
    match s.hooks id with
    | none => s
    | some h => ⟨(h.disable ok s.mem).2.2, s.set id (some (h.disable ok s.mem).2.1)⟩
  | .drop id ok =>
    match s.hooks id with
    | none => s
    | some h => ⟨h.drop ok s.mem, s.set id none⟩

end HookState

/-- `x` is one of the bytes `enable` writes. -/
def KHook.Patched (h : KHook) (x : BitVec 64) : Prop := Within h.src.val h.jump.length x

instance (h : KHook) (x : BitVec 64) : Decidable (h.Patched x) :=
  inferInstanceAs (Decidable (Within _ _ _))

section
variable (code : BitVec 64 → Prop) (pristine : Mem 64)

/-- `x` lies in the patch of the enabled hook `h`. -/
def HookState.Covers (s : HookState) (x : BitVec 64) (i : Nat) (h : KHook) : Prop :=
  s.hooks i = some h ∧ h.enabled = true ∧ h.Patched x

/-- A code byte is the byte of the jump of the enabled hook whose patch it lies in,
    and the pristine byte where there is none. -/
def Truthful (s : HookState) : Prop :=
  ∀ x, code x →
    (∀ i h, s.Covers x i h → h.jump[(x - h.src.val).toNat]? = some (s.mem x)) ∧
    ((∀ i h, ¬ s.Covers x i h) → s.mem x = pristine x)

/-- Trampolines lie off the code, a new hook has a free handle and a patch disjoint
    from those of the live hooks, and writes succeed. -/
def Legal (s : HookState) : HookOp → Prop
  | .new id env src dst =>
    s.hooks id = none ∧
    (∀ n stub, env.alloc n = some stub → ∀ x, code x → ¬ Within stub n x) ∧
    ∀ i h, s.hooks i = some h → ∀ x, h.Patched x →
      ¬ Within src.val (createAssemblyJump src.val dst).length x
  | .enable _ ok => ok = true
  | .disable _ ok => ok = true
  | .drop _ ok => ok = true

/-- The window of `h` holds, behind the patch, what memory holds. -/
def KHook.TailCurrent (h : KHook) (mem : Mem 64) : Prop :=
  ∀ x, code x → Within h.src.val KHook.windowSize x → ¬ h.Patched x →
    h.originalBytes[(x - h.src.val).toNat]? = some (mem x)

/-- A hook that is taken out restores no byte but its own patch. -/
def Restores (s : HookState) : HookOp → Prop
  | .new _ _ _ _ => True
  | .enable _ _ => True
  | .disable id _ => ∀ h, s.hooks id = some h → h.enabled = true → h.TailCurrent code s.mem
  | .drop id _ => ∀ h, s.hooks id = some h → h.enabled = true → h.TailCurrent code s.mem

/-- A hook's window is a snapshot of full length, pristine on the hook's own patch. -/
def KHook.Snapshot (h : KHook) : Prop :=
  h.originalBytes.length = KHook.windowSize ∧
    ∀ x, code x → h.Patched x → h.originalBytes[(x - h.src.val).toNat]? = some (pristine x)

/-- What a legal run keeps of the hooks. -/
structure HookInv (s : HookState) : Prop where
  snapshot : ∀ i h, s.hooks i = some h → h.Snapshot code pristine
  apart : ∀ i j h k, i ≠ j → s.hooks i = some h → s.hooks j = some k →
    ∀ x, h.Patched x → ¬ k.Patched x

variable {code pristine}

/-! What a step does to the hooks. -/

theorem KHook.Patched.within {h : KHook} {x : BitVec 64} (hx : h.Patched x) :
    Within h.src.val KHook.windowSize x := by
  refine Within.mono hx ?_
  rw [KHook.jump, createAssemblyJump_length]
  unfold KHook.windowSize maxHookSize hookSizeAbsolute
  split <;> omega

theorem set_some {s : HookState} {id i : Nat} {o : Option KHook} {k : KHook} :
    s.set id o i = some k ↔ (i = id ∧ o = some k) ∨ (i ≠ id ∧ s.hooks i = some k) := by
  unfold HookState.set
  by_cases hi : i = id
  · subst hi
    simp
  · simp [hi]

theorem covers_set {s : HookState} {m : Mem 64} {id : Nat} {o : Option KHook} {x : BitVec 64}
    {i : Nat} {k : KHook} : (⟨m, s.set id o⟩ : HookState).Covers x i k ↔
      (i = id ∧ o = some k ∧ k.enabled = true ∧ k.Patched x) ∨ (i ≠ id ∧ s.Covers x i k) := by
  unfold HookState.Covers
  rw [set_some, or_and_right, and_assoc, and_assoc]

theorem HookState.Covers.eq {s : HookState} {x : BitVec 64} {i : Nat} {h k : KHook}
    (hk : s.Covers x i k) (hi : s.hooks i = some h) : k = h :=
  Option.some.inj (hk.1.symm.trans hi)

/-- Replacing a hook by one that is not enabled only uncovers. -/
theorem covers_set_off {s : HookState} {m : Mem 64} {id : Nat} {o : Option KHook}
    (ho : ∀ k, o = some k → k.enabled = false) {x : BitVec 64} {i : Nat} {k : KHook} :
    (⟨m, s.set id o⟩ : HookState).Covers x i k ↔ i ≠ id ∧ s.Covers x i k := by
  rw [covers_set]
  refine ⟨fun h => ?_, .inr⟩
  rcases h with ⟨-, hk, hen, -⟩ | h
  · rw [ho k hk] at hen
    cases hen
  · exact h

/-- Replacing a hook that is not enabled by one that is not enabled covers the same. -/
theorem covers_set_idle {s : HookState} {m : Mem 64} {id : Nat} {o : Option KHook}
    (ho : ∀ k, o = some k → k.enabled = false) (hs : ∀ k, s.hooks id = some k → k.enabled = false)
    {x : BitVec 64} {i : Nat} {k : KHook} :
    (⟨m, s.set id o⟩ : HookState).Covers x i k ↔ s.Covers x i k := by
  rw [covers_set_off ho]
  refine ⟨And.right, fun h => ⟨?_, h⟩⟩
  intro heq
  subst heq
  have hon := h.2.1
  rw [hs k h.1] at hon
  cases hon

/-! Truthfulness of one step. -/

theorem truthful_frame {s s' : HookState} (hmem : ∀ x, code x → s'.mem x = s.mem x)
    (hcov : ∀ x i h, s'.Covers x i h ↔ s.Covers x i h) (ht : Truthful code pristine s) :
    Truthful code pristine s' := by
  intro x hx
  simp only [hmem x hx, hcov]
  exact ht x hx

theorem truthful_install {s : HookState} {id : Nat} {h : KHook} (hid : s.hooks id = some h)
    (hinv : HookInv code pristine s) (ht : Truthful code pristine s) :
    Truthful code pristine
      ⟨write s.mem h.src.val h.jump, s.set id (some { h with enabled := true })⟩ := by
  intro x hx
  obtain ⟨hcover, hpristine⟩ := ht x hx
  constructor
  · intro i k hk
    rcases covers_set.mp hk with ⟨-, hk, -, hpatch⟩ | ⟨hne, hk⟩
    · obtain rfl := Option.some.inj hk
      change Within h.src.val h.jump.length x at hpatch
      change h.jump[(x - h.src.val).toNat]? = some (write s.mem h.src.val h.jump x)
      rw [write_within hpatch]
      exact List.getElem?_eq_getElem hpatch
    · have hoff : ¬ h.Patched x := hinv.apart i id k h hne hk.1 hid x hk.2.2
      dsimp only
      rw [write_outside hoff]
      exact hcover i k hk
  · intro hnone
    have hoff : ¬ h.Patched x := fun hp =>
      hnone id { h with enabled := true } (covers_set.mpr (.inl ⟨rfl, rfl, rfl, hp⟩))
    dsimp only
    rw [write_outside hoff]
    apply hpristine
    intro i k hk
    by_cases hi : i = id
    · subst hi
      obtain rfl := hk.eq hid
      exact hoff hk.2.2
    · exact hnone i k (covers_set.mpr (.inr ⟨hi, hk⟩))

/-- Taking out an enabled hook leaves the state truthful exactly when its window is
    current behind its patch. -/
theorem truthful_restore_iff {s : HookState} {id : Nat} {h : KHook} {o : Option KHook}
    (hid : s.hooks id = some h) (ho : ∀ k, o = some k → k.enabled = false)
    (hinv : HookInv code pristine s) (ht : Truthful code pristine s) :
    Truthful code pristine ⟨write s.mem h.src.val h.originalBytes, s.set id o⟩ ↔
      h.TailCurrent code s.mem := by
  obtain ⟨hlen, hsnap⟩ := hinv.snapshot id h hid
  -- Off the patch, what covers `x` does not depend on `h`.
  have hcov : ∀ {x}, ¬ h.Patched x → ∀ i k,
      (⟨write s.mem h.src.val h.originalBytes, s.set id o⟩ : HookState).Covers x i k ↔
        s.Covers x i k := by
    intro x hoff i k
    rw [covers_set_off ho]
    refine ⟨And.right, fun hk => ⟨?_, hk⟩⟩
    intro heq
    subst heq
    obtain rfl := hk.eq hid
    exact hoff hk.2.2
  constructor
  · intro ht' x hx hwin hoff
    have hval : h.originalBytes[(x - h.src.val).toNat]? =
        some (write s.mem h.src.val h.originalBytes x) := by
      rw [← hlen] at hwin
      rw [write_within hwin]
      exact List.getElem?_eq_getElem hwin
    obtain ⟨hcover, hpristine⟩ := ht x hx
    obtain ⟨hcover', hpristine'⟩ := ht' x hx
    rw [hval]
    by_cases hk : ∃ i k, s.Covers x i k
    · obtain ⟨i, k, hk⟩ := hk
      exact (hcover' i k ((hcov hoff i k).mpr hk)).symm.trans (hcover i k hk)
    · have hnone : ∀ i k, ¬ s.Covers x i k := fun i k h => hk ⟨i, k, h⟩
      have hnone' := hpristine' fun i k h => hnone i k ((hcov hoff i k).mp h)
      dsimp only at hnone'
      rw [hnone', hpristine hnone]
  · intro htail x hx
    obtain ⟨hcover, hpristine⟩ := ht x hx
    by_cases hp : h.Patched x
    · -- On the patch the snapshot is pristine, and no other hook covers.
      have hmem : write s.mem h.src.val h.originalBytes x = pristine x := by
        have := hsnap x hx hp
        simp only [write, List.getD_eq_getElem?_getD, this, Option.getD_some]
      refine ⟨fun i k hk => ?_, fun _ => hmem⟩
      obtain ⟨hne, hk⟩ := (covers_set_off ho).mp hk
      exact absurd hp (hinv.apart i id k h hne hk.1 hid x hk.2.2)
    · have hmem : write s.mem h.src.val h.originalBytes x = s.mem x := by
        by_cases hwin : Within h.src.val KHook.windowSize x
        · have := htail x hx hwin hp
          simp only [write, List.getD_eq_getElem?_getD, this, Option.getD_some]
        · exact write_outside (by rw [hlen]; exact hwin)
      dsimp only
      simp only [hmem, hcov hp]
      exact ⟨hcover, hpristine⟩

/-! One legal step. -/

theorem hookInv_set {s : HookState} {m : Mem 64} {id : Nat} {h : KHook} {o : Option KHook}
    (hinv : HookInv code pristine s) (hid : s.hooks id = some h)
    (ho : ∀ k, o = some k → k.src = h.src ∧ k.dst = h.dst ∧ k.originalBytes = h.originalBytes) :
    HookInv code pristine ⟨m, s.set id o⟩ := by
  -- Every hook of the new state is, but for its flag, a hook of the old one.
  have hold : ∀ i k, s.set id o i = some k → ∃ k', s.hooks i = some k' ∧
      k.src = k'.src ∧ k.dst = k'.dst ∧ k.originalBytes = k'.originalBytes := by
    intro i k hk
    rcases set_some.mp hk with ⟨rfl, hnew⟩ | ⟨-, hold⟩
    · exact ⟨h, hid, ho k hnew⟩
    · exact ⟨k, hold, rfl, rfl, rfl⟩
  have hpatch : ∀ {k k' : KHook}, k.src = k'.src → k.dst = k'.dst → ∀ x,
      k.Patched x ↔ k'.Patched x := by
    intro k k' hsrc hdst x
    rw [KHook.Patched, KHook.Patched, KHook.jump, KHook.jump, hsrc, hdst]
  constructor
  · intro i k hk
    obtain ⟨k', hk', hsrc, hdst, hbytes⟩ := hold i k hk
    obtain ⟨hlen, hsnap⟩ := hinv.snapshot i k' hk'
    refine ⟨by rw [hbytes, hlen], fun x hx hp => ?_⟩
    rw [hbytes, hsrc]
    exact hsnap x hx ((hpatch hsrc hdst x).mp hp)
  · intro i j k l hij hk hl x hp
    obtain ⟨k', hk', hsrc, hdst, -⟩ := hold i k hk
    obtain ⟨l', hl', hsrc', hdst', -⟩ := hold j l hl
    rw [hpatch hsrc' hdst']
    exact hinv.apart i j k' l' hij hk' hl' x ((hpatch hsrc hdst x).mp hp)

section
variable {s : HookState} {id : Nat} {env : Env} {src : VirtAddr} {dst : BitVec 64}

/-- A `new` that succeeds adds its hook; one that fails only writes memory. -/
theorem step_new (s : HookState) (id : Nat) (env : Env) (src : VirtAddr) (dst : BitVec 64) :
    (∃ h mem, KHook.new env src dst s.mem = (.ok h, mem) ∧
      s.step (.new id env src dst) = ⟨mem, s.set id (some h)⟩) ∨
    s.step (.new id env src dst) = ⟨(KHook.new env src dst s.mem).2, s.hooks⟩ := by
  rw [HookState.step]
  obtain ⟨o, mem⟩ := KHook.new env src dst s.mem
  cases o with
  | ok h => exact .inl ⟨h, mem, rfl, rfl⟩
  | err e => exact .inr rfl
  | panic => exact .inr rfl

theorem new_code_frame (hl : Legal code s (.new id env src dst)) :
    ∀ x, code x → (KHook.new env src dst s.mem).2 x = s.mem x :=
  fun x hx => KHook.new_frame env src dst s.mem fun n stub ha => hl.2.1 n stub ha x hx

theorem truthful_new (hl : Legal code s (.new id env src dst)) (ht : Truthful code pristine s) :
    Truthful code pristine (s.step (.new id env src dst)) := by
  have hframe := new_code_frame hl
  rcases step_new s id env src dst with ⟨h, mem, hn, hs⟩ | hs
  · rw [hn] at hframe
    obtain ⟨insns, copied, res, hb⟩ := KHook.new_ok hn
    rw [hs]
    refine truthful_frame hframe (fun x i k => covers_set_idle ?_ ?_) ht
    · intro k hk
      obtain rfl := Option.some.inj hk
      rw [hb.hook_eq]
    · intro k hk
      rw [hl.1] at hk
      cases hk
  · rw [hs]
    exact truthful_frame hframe (fun x i k => Iff.rfl) ht

theorem hookInv_new (hl : Legal code s (.new id env src dst)) (ht : Truthful code pristine s)
    (hinv : HookInv code pristine s) : HookInv code pristine (s.step (.new id env src dst)) := by
  have hframe := new_code_frame hl
  obtain ⟨hfree, -, hapart⟩ := hl
  rcases step_new s id env src dst with ⟨h, mem, hn, hs⟩ | hs
  · rw [hn] at hframe
    rw [hs]
    obtain ⟨insns, copied, res, hb⟩ := KHook.new_ok hn
    have hsrc : h.src = src := by rw [hb.hook_eq]
    have hdst : h.dst = dst := by rw [hb.hook_eq]
    have hbytes : h.originalBytes = read mem src.val KHook.windowSize := by rw [hb.hook_eq]
    have hpatch : ∀ x, h.Patched x ↔ Within src.val (createAssemblyJump src.val dst).length x := by
      intro x
      rw [KHook.Patched, KHook.jump, hsrc, hdst]
    -- No live hook covers the new hook's patch, so the snapshot is pristine there.
    have hnew : h.Snapshot code pristine := by
      refine ⟨by rw [hbytes, read_length], fun x hx hp => ?_⟩
      have hwin := hp.within
      rw [hsrc] at hwin ⊢
      have hmem : mem x = s.mem x := hframe x hx
      rw [hbytes, read_getElem? _ _ hwin, ← hwin.eq_add, hmem]
      congr 1
      apply (ht x hx).2
      intro i k hk
      exact hapart i k hk.1 x hk.2.2 ((hpatch x).mp hp)
    constructor
    · intro i k hk
      rcases set_some.mp hk with ⟨-, hk⟩ | ⟨-, hk⟩
      · exact Option.some.inj hk ▸ hnew
      · exact hinv.snapshot i k hk
    · intro i j k l hij hk hl x hp hp'
      rcases set_some.mp hk with ⟨hi, hk'⟩ | ⟨-, hk'⟩
      · rcases set_some.mp hl with ⟨hj, -⟩ | ⟨-, hl'⟩
        · exact hij (hi.trans hj.symm)
        · obtain rfl := Option.some.inj hk'
          exact hapart j l hl' x hp' ((hpatch x).mp hp)
      · rcases set_some.mp hl with ⟨-, hl'⟩ | ⟨-, hl'⟩
        · obtain rfl := Option.some.inj hl'
          exact hapart i k hk' x hp ((hpatch x).mp hp')
        · exact hinv.apart i j k l hij hk' hl' x hp hp'
  · rw [hs]
    exact ⟨hinv.snapshot, hinv.apart⟩

end

theorem truthful_enable {s : HookState} {id : Nat} (hinv : HookInv code pristine s)
    (ht : Truthful code pristine s) : Truthful code pristine (s.step (.enable id true)) := by
  rw [HookState.step]
  cases hid : s.hooks id with
  | none => exact ht
  | some h =>
    dsimp only
    cases he : h.enabled with
    | true =>
      rw [KHook.enable_idle he]
      refine truthful_frame (s := s) (fun x _ => rfl) (fun x i k => ?_) ht
      rw [HookState.set, ← hid, Function.update_eq_self]
    | false =>
      rw [KHook.enable_ok he]
      exact truthful_install hid hinv ht

/-- `disable` and `drop` differ in what they leave of the hook, and it is not enabled. -/
theorem truthful_takeOut_iff {s : HookState} {id : Nat} {h : KHook} {o : Option KHook}
    (hid : s.hooks id = some h) (ho : ∀ k, o = some k → k.enabled = false)
    (hinv : HookInv code pristine s) (ht : Truthful code pristine s) :
    Truthful code pristine ⟨(h.disable true s.mem).2.2, s.set id o⟩ ↔
      ∀ k, some h = some k → k.enabled = true → k.TailCurrent code s.mem := by
  cases he : h.enabled with
  | false =>
    rw [KHook.disable_idle he]
    refine iff_of_true (truthful_frame (s := s) (fun x _ => rfl) (fun x i k => ?_) ht) ?_
    · refine covers_set_idle ho (fun k hk => ?_)
      rw [← Option.some.inj (hid.symm.trans hk), he]
    · intro k hk hon
      rw [← Option.some.inj hk, he] at hon
      cases hon
  | true =>
    rw [KHook.disable_ok he, truthful_restore_iff hid ho hinv ht]
    simp [he]

theorem truthful_disable_iff {s : HookState} {id : Nat} (hinv : HookInv code pristine s)
    (ht : Truthful code pristine s) : Truthful code pristine (s.step (.disable id true)) ↔
      Restores code s (.disable id true) := by
  rw [HookState.step, Restores]
  cases hid : s.hooks id with
  | none => exact iff_of_true ht (fun h hh => nomatch hh)
  | some h =>
    refine truthful_takeOut_iff hid (fun k hk => ?_) hinv ht
    rw [← Option.some.inj hk]
    cases he : h.enabled with
    | false => rw [KHook.disable_idle he, he]
    | true => rw [KHook.disable_ok he]

theorem truthful_drop_iff {s : HookState} {id : Nat} (hinv : HookInv code pristine s)
    (ht : Truthful code pristine s) : Truthful code pristine (s.step (.drop id true)) ↔
      Restores code s (.drop id true) := by
  rw [HookState.step, Restores]
  cases hid : s.hooks id with
  | none => exact iff_of_true ht (fun h hh => nomatch hh)
  | some h => exact truthful_takeOut_iff hid (fun k hk => by cases hk) hinv ht

/-- One legal step from a truthful state ends in a truthful state exactly when it
    restores no byte but the hook's own patch. -/
theorem truthful_step_iff {s : HookState} {o : HookOp} (hinv : HookInv code pristine s)
    (ht : Truthful code pristine s) (hl : Legal code s o) :
    Truthful code pristine (s.step o) ↔ Restores code s o := by
  cases o with
  | new id env src dst => exact iff_of_true (truthful_new hl ht) trivial
  | enable id ok =>
    obtain rfl : ok = true := hl
    exact iff_of_true (truthful_enable hinv ht) trivial
  | disable id ok =>
    obtain rfl : ok = true := hl
    exact truthful_disable_iff hinv ht
  | drop id ok =>
    obtain rfl : ok = true := hl
    exact truthful_drop_iff hinv ht

theorem hookInv_step {s : HookState} {o : HookOp} (hinv : HookInv code pristine s)
    (ht : Truthful code pristine s) (hl : Legal code s o) : HookInv code pristine (s.step o) := by
  cases o with
  | new id env src dst => exact hookInv_new hl ht hinv
  | enable id ok =>
    rw [HookState.step]
    cases hid : s.hooks id with
    | none => exact hinv
    | some h =>
      refine hookInv_set hinv hid fun k hk => ?_
      obtain ⟨on, hkeep⟩ := KHook.enable_keeps ok h s.mem
      rw [← Option.some.inj hk, hkeep]
      exact ⟨rfl, rfl, rfl⟩
  | disable id ok =>
    rw [HookState.step]
    cases hid : s.hooks id with
    | none => exact hinv
    | some h =>
      refine hookInv_set hinv hid fun k hk => ?_
      obtain ⟨on, hkeep⟩ := KHook.disable_keeps ok h s.mem
      rw [← Option.some.inj hk, hkeep]
      exact ⟨rfl, rfl, rfl⟩
  | drop id ok =>
    rw [HookState.step]
    cases hid : s.hooks id with
    | none => exact hinv
    | some h => exact hookInv_set hinv hid (fun k hk => absurd hk (by simp))

/-- No hook yet: the code is pristine. -/
def HookState.init (pristine : Mem 64) : HookState := ⟨pristine, fun _ => none⟩

/-- **Independence.** Along a legal run the code shows the enabled hooks, and nothing
    else, at every moment exactly when every hook that is taken out finds the bytes
    behind its patch as its snapshot has them. -/
theorem hooks_independent_iff (code : BitVec 64 → Prop) (pristine : Mem 64) (ops : List HookOp)
    (hlegal : Guarded HookState.step (Legal code) (.init pristine) ops) :
    Always HookState.step (Truthful code pristine) (.init pristine) ops ↔
      Guarded HookState.step (Restores code) (.init pristine) ops := by
  refine always_iff_guarded (I := HookInv code pristine) ?_ ?_ ?_ ?_ hlegal
  · exact fun s o hinv ht hl => truthful_step_iff hinv ht hl
  · exact fun s o hinv ht hl _ => hookInv_step hinv ht hl
  · exact ⟨fun i h hi => (nomatch hi), fun i j h k _ hi => (nomatch hi)⟩
  · exact fun x _ => ⟨fun i h hc => (nomatch hc.1), fun _ => rfl⟩

/-! Two hooks sixteen bytes apart. -/

theorem tailCurrent_of_window {h : KHook} {mem : Mem 64}
    (hw : ∀ i < KHook.windowSize, h.jump.length ≤ i →
      h.originalBytes[i]? = some (mem (h.src.val + BitVec.ofNat 64 i))) (code : BitVec 64 → Prop) :
    h.TailCurrent code mem := by
  intro x _ hwin hoff
  have := hw _ hwin (Nat.le_of_not_lt hoff)
  rwa [← hwin.eq_add] at this

theorem step_new_ok {s : HookState} {id : Nat} {env : Env} {src : VirtAddr} {dst : BitVec 64}
    {h : KHook} (hn : (KHook.new env src dst s.mem).1 = .ok h) :
    s.step (.new id env src dst) = ⟨(KHook.new env src dst s.mem).2, s.set id (some h)⟩ := by
  rw [HookState.step, show KHook.new env src dst s.mem = (.ok h, (KHook.new env src dst s.mem).2)
    from Prod.ext hn rfl]

namespace KHook

def neighbourVa : VirtAddr := ⟨0xFFFFF80000001010#64, by decide⟩
def detour : BitVec 64 := 0xFFFFF80000200000#64
def nopMem : Mem 64 := fun _ => 0x90#8

/-- A page of code. -/
def codePage (x : BitVec 64) : Prop := Within hookVa.val 4096 x

instance (x : BitVec 64) : Decidable (codePage x) := inferInstanceAs (Decidable (Within _ _ _))

def firstEnv : Env := fixtureEnv 0xFFFFF80000100000#64 moveBytes
def secondEnv : Env := fixtureEnv 0xFFFFF80000100100#64 moveBytes

def firstHook : KHook :=
  ⟨hookVa, detour, ⟨0xFFFFF80000100000#64, 26⟩, List.replicate 29 0x90#8, false⟩
def secondHook : KHook :=
  ⟨neighbourVa, detour, ⟨0xFFFFF80000100100#64, 26⟩, List.replicate 29 0x90#8, false⟩

/-- Create and enable both hooks, then `last`. -/
def neighbours (last : HookOp) : List HookOp :=
  [.new 0 firstEnv hookVa detour, .new 1 secondEnv neighbourVa detour, .enable 0 true,
    .enable 1 true, last]

theorem codePage_off_stub {stub : BitVec 64} (hfar : 4096 ≤ (stub - hookVa.val).toNat)
    (hback : 64 ≤ (hookVa.val - stub).toNat) {n : Nat} {a x : BitVec 64}
    (ha : (fixtureEnv stub moveBytes).alloc n = some a) (hx : codePage x) : ¬ Within a n x := by
  simp only [fixtureEnv, Option.ite_none_right_eq_some, Option.some.injEq] at ha
  obtain ⟨hn, rfl⟩ := ha
  exact Within.off hx hfar (Nat.le_trans hn hback)

theorem new_firstHook : (new firstEnv hookVa detour nopMem).1 = .ok firstHook := by decide

theorem neighbours_legal (id : Nat) : Guarded HookState.step (Legal codePage) (.init nopMem)
    (neighbours (.disable id true)) := by
  refine ⟨⟨rfl, fun n a ha x hx => ?_, fun i h hi => (nomatch hi)⟩, ?_, rfl, rfl, rfl, trivial⟩
  · exact codePage_off_stub (by decide) (by decide) ha hx
  · rw [step_new_ok new_firstHook]
    refine ⟨rfl, fun n a ha x hx => codePage_off_stub (by decide) (by decide) ha hx, ?_⟩
    intro i h hi x hp
    rcases set_some.mp hi with ⟨-, hi⟩ | ⟨-, hi⟩
    · obtain rfl := Option.some.inj hi
      exact Within.off hp (by decide) (by decide)
    · cases hi

/-- Both hooks enabled. -/
def bothEnabled : HookState :=
  final HookState.step (.init nopMem) ((neighbours (.disable 0 true)).take 4)

theorem bothEnabled_second :
    bothEnabled.hooks 1 = some { secondHook with enabled := true } := by
  decide

end KHook

open KHook

theorem hooks_independent_second :
    Always HookState.step (Truthful codePage nopMem) (.init nopMem)
      (neighbours (.disable 1 true)) := by
  refine (hooks_independent_iff codePage nopMem _ (neighbours_legal 1)).mpr
    ⟨trivial, trivial, trivial, trivial, ?_, trivial⟩
  intro h hid _
  obtain rfl := Option.some.inj (hid.symm.trans bothEnabled_second)
  exact tailCurrent_of_window (by decide) codePage

/-- Disabling the first hook writes its window over the second hook's jump. -/
theorem disable_unhooks_neighbour :
    Guarded HookState.step (Legal codePage) (.init nopMem) (neighbours (.disable 0 true)) ∧
      ¬ Always HookState.step (Truthful codePage nopMem) (.init nopMem)
        (neighbours (.disable 0 true)) := by
  refine ⟨neighbours_legal 0, fun h => ?_⟩
  have hcover : (bothEnabled.step (.disable 0 true)).Covers neighbourVa.val 1
      { secondHook with enabled := true } := ⟨by decide, rfl, by decide⟩
  have hbyte := (h.last neighbourVa.val (by decide)).1 1 _ hcover
  exact absurd hbyte (by decide)

end
end WinKernl
