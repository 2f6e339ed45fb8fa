import WinKernl.HookRuns

/- Nested hooks.

   A hook that lives inside the life of another one sees the other's jump as code,
   and may share bytes with it. `WellNested` is the grammar of such programs: a
   block creates a hook, then runs nested programs with the hook enabled or not,
   and drops it. The snapshot is taken once, at creation, and every nested program
   leaves the code as it found it, so the snapshot stays good for every disable of
   the block (`Ready`). -/
namespace WinKernl
open ByteMem Ask Runs

section
variable (code : BitVec 64 → Prop)

/-- The pool gives the trampolines blocks off the code. -/
def Env.OffCode (env : Env) : Prop :=
  ∀ n stub, env.alloc n = some stub → ∀ x, code x → ¬ Within stub n x

/-- Operations that nest, where the hooks `live` are in use. Without a hook they are a
    sequence of blocks, and with the hook `id` they are the rest of its block. -/
inductive WellNested : Option Nat → List Nat → List HookOp → Prop
  | nil {live : List Nat} : WellNested none live []
  | block {id : Nat} {live : List Nat} {env : Env} {src : VirtAddr} {dst : BitVec 64}
      {body rest : List HookOp} (hid : id ∉ live) (henv : env.OffCode code)
      (hbody : WellNested (some id) (id :: live) body) (hrest : WellNested none live rest) :
      WellNested none live (.new id env src dst :: (body ++ rest))
  | nested {id : Nat} {live : List Nat} {inner rest : List HookOp}
      (hinner : WellNested none live inner) (hrest : WellNested (some id) live rest) :
      WellNested (some id) live (inner ++ rest)
  | patched {id : Nat} {live : List Nat} {inner rest : List HookOp}
      (hinner : WellNested none live inner) (hrest : WellNested (some id) live rest) :
      WellNested (some id) live (.enable id true :: (inner ++ .disable id true :: rest))
  | drop {id : Nat} {live : List Nat} : WellNested (some id) live [.drop id true]
  | dropEnabled {id : Nat} {live : List Nat} {inner : List HookOp}
      (hinner : WellNested none live inner) :
      WellNested (some id) live (.enable id true :: (inner ++ [.drop id true]))

/-- The hooks, and for each of them memory just before it was last enabled. -/
structure TracedState where
  state : HookState
  before : Nat → Mem 64

def TracedState.step (t : TracedState) (o : HookOp) : TracedState :=
  ⟨t.state.step o, match o with
    | .enable id _ => Function.update t.before id t.state.mem
    | _ => t.before⟩

/-- A disable leaves the code as it was just before the matching enable. -/
def Undoes (t : TracedState) : HookOp → Prop
  | .disable id ok => ∀ x, code x → (t.state.step (.disable id ok)).mem x = t.before id x
  | _ => True

/-- The window of `h` holds the code of `mem`. -/
def KHook.Window (h : KHook) (mem : Mem 64) : Prop :=
  h.originalBytes.length = KHook.windowSize ∧
    ∀ x, code x → Within h.src.val KHook.windowSize x →
      h.originalBytes[(x - h.src.val).toNat]? = some (mem x)

/-- The hook `id`, if there is one, is disabled, and its window holds the code. -/
def Ready (s : HookState) (id : Nat) : Prop :=
  ∀ h, s.hooks id = some h → h.enabled = false ∧ h.Window code s.mem

/-- Every hook outside `live` is free. -/
def Free (live : List Nat) (s : HookState) : Prop := ∀ i, i ∉ live → s.hooks i = none

variable {code}

/-! One hook put in and taken out. -/

/-- The restored window undoes the jump, whatever kept the code in between. -/
theorem restore_jump {h : KHook} {mem mem' : Mem 64} (hw : h.Window code mem)
    (hkeep : ∀ x, code x → mem' x = write mem h.src.val h.jump x) {x : BitVec 64} (hx : code x) :
    write mem' h.src.val h.originalBytes x = mem x := by
  obtain ⟨hlen, hbytes⟩ := hw
  by_cases hwin : Within h.src.val KHook.windowSize x
  · simp only [write, List.getD_eq_getElem?_getD, hbytes x hx hwin, Option.getD_some]
  · have hoff : ¬ h.Patched x := fun hp => hwin hp.within
    rw [write_outside (by rw [hlen]; exact hwin), hkeep x hx, write_outside hoff]

/-- `t'` has the code of `t`, these hooks, and for the hooks in `keep` the same memory
    before their last enable; the disables on the way undo their enables. -/
structure Settles (code : BitVec 64 → Prop) (t : TracedState) (os : List HookOp)
    (hooks : Nat → Option KHook) (keep : Nat → Prop) : Prop where
  mem : ∀ x, code x → (final TracedState.step t os).state.mem x = t.state.mem x
  hooks : (final TracedState.step t os).state.hooks = hooks
  before : ∀ i, keep i → (final TracedState.step t os).before i = t.before i
  undoes : Guarded TracedState.step (Undoes code) t os

theorem Settles.append {t : TracedState} {os os' : List HookOp} {mid hooks : Nat → Option KHook}
    {keep : Nat → Prop} (h : Settles code t os mid keep)
    (h' : Settles code (final TracedState.step t os) os' hooks keep) :
    Settles code t (os ++ os') hooks keep := by
  constructor
  · intro x hx
    rw [final_append, h'.mem x hx, h.mem x hx]
  · rw [final_append, h'.hooks]
  · intro i hi
    rw [final_append, h'.before i hi, h.before i hi]
  · exact guarded_append.mpr ⟨h.undoes, h'.undoes⟩

theorem Settles.mono {t : TracedState} {os : List HookOp} {hooks : Nat → Option KHook}
    {keep keep' : Nat → Prop} (h : Settles code t os hooks keep) (hk : ∀ i, keep' i → keep i) :
    Settles code t os hooks keep' :=
  ⟨h.mem, h.hooks, fun i hi => h.before i (hk i hi), h.undoes⟩

theorem Ready.congr {s s' : HookState} {id : Nat} (h : Ready code s id)
    (hhooks : s'.hooks = s.hooks) (hmem : ∀ x, code x → s'.mem x = s.mem x) :
    Ready code s' id := by
  intro k hk
  rw [hhooks] at hk
  obtain ⟨hoff, hlen, hbytes⟩ := h k hk
  refine ⟨hoff, hlen, fun x hx hwin => ?_⟩
  rw [hbytes x hx hwin, hmem x hx]

/-! A patch and what it encloses. -/

/-- `o` takes the hook `id` out and puts `leave` in its place. -/
structure TakesOut (code : BitVec 64 → Prop) (id : Nat) (o : HookOp)
    (leave : KHook → Option KHook) : Prop where
  idle : ∀ s : HookState, s.hooks id = none → s.step o = s
  restores : ∀ (s : HookState) (h : KHook), s.hooks id = some h → h.enabled = true →
    s.step o = ⟨write s.mem h.src.val h.originalBytes, s.set id (leave h)⟩
  before : ∀ t : TracedState, (t.step o).before = t.before
  undoes : ∀ t : TracedState, (∀ x, code x → (t.state.step o).mem x = t.before id x) →
    Undoes code t o

theorem disable_takesOut (id : Nat) :
    TakesOut code id (.disable id true) (fun h => some { h with enabled := false }) := by
  refine ⟨fun s hs => ?_, fun s h hs he => ?_, fun t => rfl, fun t h => h⟩
  · rw [HookState.step, hs]
  · rw [HookState.step, hs]
    dsimp only
    rw [KHook.disable_ok he]

theorem drop_takesOut (id : Nat) : TakesOut code id (.drop id true) (fun _ => none) := by
  refine ⟨fun s hs => ?_, fun s h hs he => ?_, fun t => rfl, fun t _ => trivial⟩
  · rw [HookState.step, hs]
  · rw [HookState.step, hs]
    dsimp only
    rw [KHook.drop, KHook.disable_ok he]

theorem enable_ready {s : HookState} {id : Nat} (hr : Ready code s id) :
    (s.hooks id = none ∧ s.step (.enable id true) = s) ∨
    ∃ h, s.hooks id = some h ∧ h.enabled = false ∧ h.Window code s.mem ∧
      s.step (.enable id true) =
        ⟨write s.mem h.src.val h.jump, s.set id (some { h with enabled := true })⟩ := by
  cases hid : s.hooks id with
  | none => exact .inl ⟨rfl, by rw [HookState.step, hid]⟩
  | some h =>
    obtain ⟨hoff, hw⟩ := hr h hid
    refine .inr ⟨h, rfl, hoff, hw, ?_⟩
    rw [HookState.step, hid]
    dsimp only
    rw [KHook.enable_ok hoff]

/-- An enable, a program that puts everything back, and an operation that takes the
    hook out put the code back. -/
theorem patch_settles {t : TracedState} {id : Nat} {inner : List HookOp} {o : HookOp}
    {leave : KHook → Option KHook} {keep : Nat → Prop} (hr : Ready code t.state id)
    (ho : TakesOut code id o leave) (hkeep : keep id)
    (hinner : Settles code (t.step (.enable id true)) inner (t.step (.enable id true)).state.hooks
      keep) :
    Settles code t (.enable id true :: (inner ++ [o]))
      (match t.state.hooks id with
        | none => t.state.hooks
        | some h => t.state.set id (leave { h with enabled := true }))
      (fun i => keep i ∧ i ≠ id) := by
  obtain ⟨hmem, hhooks, hbefore, hundoes⟩ := hinner
  let t' := final TracedState.step (t.step (.enable id true)) inner
  have hfinal : final TracedState.step t (.enable id true :: (inner ++ [o])) = t'.step o :=
    final_append _ _ _
  -- The hook, if there is one, is still there, and its window restores the code.
  have hout : (∀ x, code x → (t'.state.step o).mem x = t.state.mem x) ∧
      (t'.state.step o).hooks = match t.state.hooks id with
        | none => t.state.hooks
        | some h => t.state.set id (leave { h with enabled := true }) := by
    rcases enable_ready hr with ⟨hid, hon⟩ | ⟨h, hid, hoff, hw, hon⟩
    · have hsame : (t.step (.enable id true)).state = t.state := hon
      rw [hsame] at hmem hhooks
      rw [ho.idle t'.state (by rw [hhooks, hid]), hid]
      exact ⟨hmem, hhooks⟩
    · have hput : (t.step (.enable id true)).state = _ := hon
      rw [hput] at hmem hhooks
      rw [ho.restores t'.state { h with enabled := true }
        (by rw [hhooks]; exact set_some.mpr (.inl ⟨rfl, rfl⟩)) rfl, hid]
      refine ⟨fun x hx => restore_jump hw hmem hx, ?_⟩
      unfold HookState.set
      rw [hhooks, HookState.set, Function.update_idem]
  constructor
  · rw [hfinal]
    exact hout.1
  · rw [hfinal]
    exact hout.2
  · intro i hlive
    obtain ⟨hi, hne⟩ := hlive
    rw [hfinal, ho.before, hbefore i hi]
    exact Function.update_of_ne hne _ _
  · refine ⟨trivial, guarded_append.mpr ⟨hundoes, ho.undoes _ fun x hx => ?_, trivial⟩⟩
    rw [hbefore id hkeep, hout.1 x hx]
    exact (congrFun (Function.update_self id t.state.mem t.before) x).symm

/-! A whole program. -/

/-- A new hook is ready, and nothing else of the hooks or the code has changed. -/
theorem new_ready {s : HookState} {id : Nat} {env : Env} {src : VirtAddr} {dst : BitVec 64}
    (hid : s.hooks id = none) (henv : env.OffCode code) :
    Ready code (s.step (.new id env src dst)) id ∧
      (∀ x, code x → (s.step (.new id env src dst)).mem x = s.mem x) ∧
      Function.update (s.step (.new id env src dst)).hooks id none = s.hooks := by
  have hframe : ∀ x, code x → (KHook.new env src dst s.mem).2 x = s.mem x :=
    fun x hx => KHook.new_frame env src dst s.mem fun n stub ha => henv n stub ha x hx
  have hfree : Function.update s.hooks id none = s.hooks := by
    rw [← hid, Function.update_eq_self]
  rcases step_new s id env src dst with ⟨h, mem, hn, hs⟩ | hs
  · rw [hn] at hframe
    obtain ⟨insns, copied, res, hb⟩ := KHook.new_ok hn
    rw [hs]
    refine ⟨fun k hk => ?_, hframe, ?_⟩
    · obtain rfl : h = k := by simpa [HookState.set] using hk
      rw [hb.hook_eq]
      refine ⟨rfl, read_length _ _ _, fun x hx hwin => ?_⟩
      rw [read_getElem? _ _ hwin, ← hwin.eq_add]
    · rw [HookState.set, Function.update_idem, hfree]
  · rw [hs]
    refine ⟨fun k hk => ?_, hframe, hfree⟩
    rw [hid] at hk
    cases hk

theorem free_enable {t : TracedState} {live : List Nat} {id : Nat} (hfree : Free live t.state)
    (hid : id ∈ live) (hr : Ready code t.state id) :
    Free live (t.step (.enable id true)).state := by
  intro i hi
  rcases enable_ready hr with ⟨-, hs⟩ | ⟨h, -, -, -, hs⟩
  · rw [TracedState.step, hs]
    exact hfree i hi
  · have hne : i ≠ id := by
      intro heq
      subst heq
      exact hi hid
    rw [TracedState.step, hs]
    exact (Function.update_of_ne hne _ _).trans (hfree i hi)

theorem free_new {s s' : HookState} {live : List Nat} {id : Nat} (hfree : Free live s)
    (hhooks : Function.update s'.hooks id none = s.hooks) : Free (id :: live) s' := by
  intro i hi
  obtain ⟨hne, hi⟩ := not_or.mp (mt List.mem_cons.mpr hi)
  have hsame := congrFun hhooks i
  rw [Function.update_of_ne hne] at hsame
  exact hsame.trans (hfree i hi)

/-- Enabled and disabled again, a ready hook is what it was. -/
theorem patch_disabled {s : HookState} {id : Nat} (hr : Ready code s id) :
    (match s.hooks id with
      | none => s.hooks
      | some h => s.set id (some { h with enabled := false })) = s.hooks := by
  split
  · rfl
  · next h hid =>
    obtain ⟨hoff, -⟩ := hr h hid
    have hsame : { h with enabled := false } = h := by rw [← hoff]
    rw [HookState.set, hsame, ← hid, Function.update_eq_self]

/-- Dropped while enabled, a hook is gone. -/
theorem patch_dropped {s : HookState} {id : Nat} :
    (match s.hooks id with
      | none => s.hooks
      | some _ => s.set id none) = Function.update s.hooks id none := by
  split
  · next hid => rw [← hid, Function.update_eq_self]
  · rfl

/-- A ready hook is disabled, so its drop writes nothing. -/
theorem drop_ready {s : HookState} {id : Nat} (hr : Ready code s id) :
    s.step (.drop id true) = ⟨s.mem, Function.update s.hooks id none⟩ := by
  rw [HookState.step]
  cases hid : s.hooks id with
  | none =>
    have hsame : Function.update s.hooks id none = s.hooks := by
      rw [← hid, Function.update_eq_self]
    rw [hsame]
  | some h =>
    dsimp only
    rw [KHook.drop, KHook.disable_idle (hr h hid).1, HookState.set]

/-- By induction on the nesting: a program puts everything back, and the rest of a
    block puts everything back but its hook, which is gone. -/
theorem wellNested_settles {kind : Option Nat} {live : List Nat} {os : List HookOp}
    (hw : WellNested code kind live os) (t : TracedState) (hfree : Free live t.state)
    (hready : ∀ id, kind = some id → id ∈ live ∧ Ready code t.state id) :
    Settles code t os
      (match kind with | none => t.state.hooks | some id => Function.update t.state.hooks id none)
      (fun i => i ∈ live ∧ kind ≠ some i) := by
  induction hw generalizing t with
  | nil => exact ⟨fun _ _ => rfl, rfl, fun _ _ => rfl, trivial⟩
  | @block id live env src dst body rest hid henv hbody hrest ihbody ihrest =>
    obtain ⟨hnew, hmem, hhooks⟩ := @new_ready code t.state id env src dst (hfree id hid) henv
    -- The block ends without its hook, so the program behind it starts from the same hooks.
    have hb := ihbody (t.step (.new id env src dst)) (free_new hfree hhooks) fun i hi => by
      obtain rfl := Option.some.inj hi
      exact ⟨List.mem_cons_self, hnew⟩
    have hgone : (final TracedState.step (t.step (.new id env src dst)) body).state.hooks =
        t.state.hooks := hb.hooks.trans hhooks
    have hr := ihrest (final TracedState.step (t.step (.new id env src dst)) body)
      (fun i hi => by rw [hgone]; exact hfree i hi) (fun i hi => by cases hi)
    obtain ⟨hmem', hhooks', hbefore', hundoes'⟩ :=
      (hb.mono fun i hi => ⟨List.mem_cons_of_mem _ hi.1, fun h => by
        obtain rfl := Option.some.inj h
        exact hid hi.1⟩).append hr
    exact ⟨fun x hx => (hmem' x hx).trans (hmem x hx), hhooks'.trans hgone, hbefore',
      trivial, hundoes'⟩
  | @nested id live inner rest hinner hrest ihinner ihrest =>
    obtain ⟨hlive, hr⟩ := hready id rfl
    -- The inner program puts everything back, so the hook is still ready.
    have hi := ihinner t hfree (fun i h => by cases h)
    have hrest' := ihrest (final TracedState.step t inner)
      (fun i h => by rw [hi.hooks]; exact hfree i h) fun i h => by
        obtain rfl := Option.some.inj h
        exact ⟨hlive, hr.congr hi.hooks hi.mem⟩
    have h := (hi.mono fun i h => ⟨h.1, fun h => by cases h⟩).append hrest'
    rwa [hi.hooks] at h
  | @patched id live inner rest hinner hrest ihinner ihrest =>
    obtain ⟨hlive, hr⟩ := hready id rfl
    have hi := ihinner (t.step (.enable id true)) (free_enable hfree hlive hr)
      (fun i h => by cases h)
    have hpatch := patch_settles hr (disable_takesOut id) ⟨hlive, fun h => by cases h⟩ hi
    have hback : (final TracedState.step t
        (.enable id true :: (inner ++ [.disable id true]))).state.hooks = t.state.hooks :=
      hpatch.hooks.trans (patch_disabled hr)
    have hrest' := ihrest _ (fun i h => by rw [hback]; exact hfree i h) fun i h => by
      obtain rfl := Option.some.inj h
      exact ⟨hlive, hr.congr hback hpatch.mem⟩
    have h := (hpatch.mono fun i h => ⟨⟨h.1, fun h => by cases h⟩,
      fun he => h.2 (congrArg some he.symm)⟩).append hrest'
    rw [hback] at h
    simpa using h
  | @drop id live =>
    obtain ⟨-, hr⟩ := hready id rfl
    have hstep := drop_ready hr
    refine ⟨fun x _ => ?_, congrArg HookState.hooks hstep, fun _ _ => rfl, trivial, trivial⟩
    exact congrFun (congrArg HookState.mem hstep) x
  | @dropEnabled id live inner hinner ihinner =>
    obtain ⟨hlive, hr⟩ := hready id rfl
    have hi := ihinner (t.step (.enable id true)) (free_enable hfree hlive hr)
      (fun i h => by cases h)
    have hpatch := patch_settles hr (drop_takesOut id) ⟨hlive, fun h => by cases h⟩ hi
    -- Dropped while enabled, the hook takes its jump out first.
    have hgone := @patch_dropped t.state id
    rw [hgone] at hpatch
    exact hpatch.mono fun i h => ⟨⟨h.1, fun h => by cases h⟩, fun he => h.2 (congrArg some he.symm)⟩

/-- **Nesting.** A program of nested blocks leaves the code as it found it, byte for
    byte, and each of its disables leaves it as it was just before the matching enable,
    whatever bytes the hooks share. -/
theorem wellNested_restores (code : BitVec 64 → Prop) {live : List Nat} {ops : List HookOp}
    (hw : WellNested code none live ops) (t : TracedState) (hfree : Free live t.state) :
    (∀ x, code x → (final TracedState.step t ops).state.mem x = t.state.mem x) ∧
      Guarded TracedState.step (Undoes code) t ops := by
  have h := wellNested_settles hw t hfree (fun id hid => by cases hid)
  exact ⟨h.mem, h.undoes⟩

end

namespace KHook

theorem firstEnv_offCode : firstEnv.OffCode codePage :=
  fun _ _ ha _ hx => codePage_off_stub (by decide) (by decide) ha hx

theorem secondEnv_offCode : secondEnv.OffCode codePage :=
  fun _ _ ha _ hx => codePage_off_stub (by decide) (by decide) ha hx

/-- A hook on a function that is hooked already, dropped while it is enabled. -/
def sameFunction : List HookOp :=
  [.new 0 firstEnv hookVa detour, .enable 0 true, .new 1 secondEnv hookVa detour, .enable 1 true,
    .drop 1 true, .disable 0 true, .drop 0 true]

theorem sameFunction_nested : WellNested codePage none [] sameFunction := by
  have hinner : WellNested codePage none [0]
      [.new 1 secondEnv hookVa detour, .enable 1 true, .drop 1 true] :=
    .block (by decide) secondEnv_offCode (.dropEnabled .nil) .nil
  exact .block (by decide) firstEnv_offCode (.patched hinner .drop) .nil

theorem wellNested_restores_same :
    (∀ x, codePage x → (final TracedState.step ⟨.init nopMem, fun _ => nopMem⟩
        sameFunction).state.mem x = nopMem x) ∧
      Guarded TracedState.step (Undoes codePage) ⟨.init nopMem, fun _ => nopMem⟩ sameFunction :=
  wellNested_restores codePage sameFunction_nested ⟨.init nopMem, fun _ => nopMem⟩
    (fun _ _ => rfl)

end KHook
end WinKernl
