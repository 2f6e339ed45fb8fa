import WinKernl.Lib.Shares
import WinKernl.GlobalAlloc

/- Threads that share the global allocator (`kalloc/mod.rs`).

   The pool is the one of `GlobalAlloc.lean`; here it also keeps, for each block in use, which
   thread asked for it. That is nothing the pool decides by: it serves a request as before
   (`SharedPool.Serves`). The calls of the threads are cut into their requests, which come in
   any order. A thread's part of the pool is its own blocks, so each thread is as it is alone,
   on a heap of its own. -/
namespace WinKernl.GlobalAlloc
open ByteMem Ask Interleave Shares

/-- Memory, and the blocks in use, each with the thread it is for and its size. -/
structure SharedPool (ι : Type) where
  mem : Mem 64
  blocks : BitVec 64 → Option (ι × Nat)

/-- A table of blocks after a request; `new` is the entry for a block of a size. -/
def blocksAfter {β : Type} (t : BitVec 64 → Option β) (new : Nat → β) :
    (q : PoolReq) → q.Answer → BitVec 64 → Option β
  | .exAllocatePool n, (p : BitVec 64) =>
    if p = 0 then t else Function.update t p (some (new n.toNat))
  | .exFreePool p, _ => Function.update t p none
  | .load _ _, _ => t
  | .store _ _, _ => t

namespace SharedPool
variable {ι : Type}

/-- The pool, whoever its blocks are for. -/
def all (s : SharedPool ι) : Pool := ⟨s.mem, fun base => (s.blocks base).map Prod.snd⟩

def Serves (i : ι) : Server (SharedPool ι) PoolReq PoolReq.Answer := fun s q r s' =>
  s.all.Serves q r s'.all ∧ s'.blocks = blocksAfter s.blocks (fun n => (i, n)) q r

/-- The blocks of thread `i`. -/
def Owns (i : ι) (s : SharedPool ι) (t : Pool) : Prop :=
  ∀ base n, t.blocks base = some n ↔ s.blocks base = some (i, n)

/-- What thread `i` has: its blocks, and what is in them. -/
def Part (i : ι) (s : SharedPool ι) (t : Pool) : Prop :=
  Owns i s t ∧ ∀ x, t.InUse x → t.mem x = s.mem x

/-- No two blocks of the table share a byte. -/
def Apart (t : BitVec 64 → Option (ι × Nat)) : Prop :=
  ∀ base e base' e', t base = some e → t base' = some e' →
    ∀ x, Within base e.2 x → Within base' e'.2 x → base = base'

variable {i j : ι} {s s' : SharedPool ι} {t : Pool}

theorem all_blocks {base : BitVec 64} {n : Nat} :
    s.all.blocks base = some n ↔ ∃ j, s.blocks base = some (j, n) := by
  simp [all]

theorem Owns.block (ho : Owns i s t) {base : BitVec 64} {n : Nat} (h : t.blocks base = some n) :
    s.all.blocks base = some n :=
  all_blocks.mpr ⟨i, (ho _ _).mp h⟩

theorem Owns.inUse (ho : Owns i s t) {x : BitVec 64} (h : t.InUse x) : s.all.InUse x := by
  obtain ⟨base, n, hbase, hx⟩ := h
  exact ⟨base, n, ho.block hbase, hx⟩

theorem Owns.inside (ho : Owns i s t) {a : BitVec 64} {n : Nat} (h : t.Inside a n) :
    s.all.Inside a n := by
  obtain ⟨base, m, hbase, hx⟩ := h
  exact ⟨base, m, ho.block hbase, hx⟩

/-- What a thread may ask of its part, it may ask of the whole. -/
theorem Owns.permits (ho : Owns i s t) {q : PoolReq} (h : t.Permits q) : s.all.Permits q := by
  cases q with
  | exAllocatePool n => trivial
  | exFreePool p =>
    obtain ⟨n, hn⟩ := Option.ne_none_iff_exists'.mp h
    have hall : s.all.blocks p = some n := ho.block hn
    show s.all.blocks p ≠ none
    rw [hall]
    exact Option.some_ne_none n
  | load a n => exact ho.inside h
  | store a bs => exact ho.inside h

/-! One request. -/

/-- A byte that thread `i` writes is not in a block of another thread. -/
theorem Apart.off (hs : Apart s.blocks) {u : Pool} (ho : Owns i s t) (hu : Owns j s u)
    (hij : j ≠ i) {a x : BitVec 64} {n : Nat} (h : t.Inside a n) (hx : u.InUse x) :
    ¬ Within a n x := by
  intro hin
  obtain ⟨base, m, hbase, hsub⟩ := h
  obtain ⟨base', m', hbase', hx⟩ := hx
  have hown := (ho _ _).mp hbase
  have hown' := (hu _ _).mp hbase'
  obtain rfl := hs _ _ _ _ hown hown' x (hsub x hin) hx
  exact hij (congrArg Prod.fst (Option.some.inj (hown'.symm.trans hown)))

theorem Apart.insert {t : BitVec 64 → Option (ι × Nat)} (hs : Apart t) {p : BitVec 64}
    {e : ι × Nat} (hoff : ∀ base e', t base = some e' → ∀ x, Within base e'.2 x →
      ¬ Within p e.2 x) : Apart (Function.update t p (some e)) := by
  intro base e₁ base' e₂ h₁ h₂ x hx hx'
  by_cases hb : base = p
  · subst hb
    rw [Function.update_self] at h₁
    obtain rfl := Option.some.inj h₁
    by_contra hne
    rw [Function.update_of_ne (Ne.symm hne)] at h₂
    exact hoff base' e₂ h₂ x hx' hx
  rw [Function.update_of_ne hb] at h₁
  by_cases hb' : base' = p
  · subst hb'
    rw [Function.update_self] at h₂
    obtain rfl := Option.some.inj h₂
    exact absurd hx' (hoff base e₁ h₁ x hx)
  · rw [Function.update_of_ne hb'] at h₂
    exact hs base e₁ base' e₂ h₁ h₂ x hx hx'

theorem Apart.erase {t : BitVec 64 → Option (ι × Nat)} (hs : Apart t) (p : BitVec 64) :
    Apart (Function.update t p none) := by
  have hkeep : ∀ base e, Function.update t p none base = some e → t base = some e := by
    intro base e h
    by_cases hb : base = p
    · subst hb
      rw [Function.update_self] at h
      cases h
    · rwa [Function.update_of_ne hb] at h
  intro base e base' e' h h'
  exact hs base e base' e' (hkeep base e h) (hkeep base' e' h')

/-- A block that the pool gives is off the blocks of every thread. -/
theorem fresh_off {p : BitVec 64} {n : Nat} (h : s.all.Fresh n p) {base : BitVec 64} {e : ι × Nat}
    (he : s.blocks base = some e) {x : BitVec 64} (hx : Within base e.2 x) : ¬ Within p n x :=
  h.off x ⟨base, e.2, all_blocks.mpr ⟨e.1, he⟩, hx⟩

theorem serves_apart (hs : Apart s.blocks) {q : PoolReq} {r : q.Answer} (h : Serves i s q r s') :
    Apart s'.blocks := by
  obtain ⟨hall, hblocks⟩ := h
  rw [hblocks]
  cases q with
  | exAllocatePool n =>
    rcases hall with ⟨rfl, -⟩ | ⟨hfresh, -⟩
    · exact hs
    · rw [blocksAfter, if_neg hfresh.nonnull]
      exact hs.insert fun base e he x hx => fresh_off hfresh he hx
  | exFreePool p => exact hs.erase p
  | load a n => exact hs
  | store a bs => exact hs

theorem owns_own (ho : Owns i s t) (q : PoolReq) (r : q.Answer) (m : Mem 64)
    (hblocks : s'.blocks = blocksAfter s.blocks (fun n => (i, n)) q r) :
    Owns i s' ⟨m, blocksAfter t.blocks id q r⟩ := by
  intro base n
  rw [hblocks]
  cases q with
  | exAllocatePool size =>
    by_cases h0 : (r : BitVec 64) = 0
    · simp only [blocksAfter, if_pos h0]
      exact ho base n
    simp only [blocksAfter, if_neg h0]
    by_cases hb : base = (r : BitVec 64)
    · subst hb
      simp
    · rw [Function.update_of_ne hb, Function.update_of_ne hb]
      exact ho base n
  | exFreePool p =>
    simp only [blocksAfter]
    by_cases hb : base = p
    · subst hb
      simp
    · rw [Function.update_of_ne hb, Function.update_of_ne hb]
      exact ho base n
  | load a k => exact ho base n
  | store a bs => exact ho base n

/-- A block that is given was nobody's, and one that is released was the thread's own. -/
theorem owns_other (ho : Owns i s t) {u : Pool} (hu : Owns j s u) (hij : j ≠ i) {q : PoolReq}
    {r : q.Answer} (hq : t.Permits q) (h : Serves i s q r s') : Owns j s' u := by
  intro base n
  obtain ⟨hall, hblocks⟩ := h
  rw [hblocks, hu base n]
  cases q with
  | exAllocatePool size =>
    rcases hall with ⟨rfl, -⟩ | ⟨hfresh, -⟩
    · rfl
    simp only [blocksAfter, if_neg hfresh.nonnull]
    by_cases hb : base = (r : BitVec 64)
    · subst hb
      have hnone : s.blocks base = none := Option.map_eq_none_iff.mp hfresh.unused
      rw [hnone, Function.update_self]
      simp [hij.symm]
    · rw [Function.update_of_ne hb]
  | exFreePool p =>
    simp only [blocksAfter]
    by_cases hb : base = p
    · subst hb
      obtain ⟨m, hm⟩ := Option.ne_none_iff_exists'.mp hq
      rw [(ho _ _).mp hm, Function.update_self]
      simp [hij.symm]
    · rw [Function.update_of_ne hb]
  | load a k => rfl
  | store a bs => rfl

/-- What a request is to the part of the thread that makes it. -/
theorem serves_own (hp : Part i s t) {q : PoolReq} {r : q.Answer} (hq : t.Permits q)
    (h : Serves i s q r s') : ∃ t', t.Serves q r t' ∧ Part i s' t' := by
  obtain ⟨hall, hblocks⟩ := h
  have ho := owns_own hp.1 q r s'.mem hblocks
  refine ⟨_, ?_, ho, fun _ _ => rfl⟩
  cases q with
  | exAllocatePool n =>
    rcases hall with ⟨rfl, -, hmem⟩ | ⟨hfresh, -, hmem⟩
    · refine .inl ⟨rfl, rfl, fun x hx => ?_⟩
      exact (hmem x (ho.inUse hx)).trans (hp.2 x hx).symm
    · refine .inr ⟨⟨hfresh.toPoolBlock, hfresh.nonnull, ?_, fun x hx => hfresh.off x (hp.1.inUse hx)⟩,
        ?_, fun x hx => ?_⟩
      · by_contra hsome
        obtain ⟨m, hm⟩ := Option.ne_none_iff_exists'.mp hsome
        exact Option.some_ne_none m ((hp.1.block hm).symm.trans hfresh.unused)
      · simp only [blocksAfter, if_neg hfresh.nonnull, id]
      · exact (hmem x (hp.1.inUse hx)).trans (hp.2 x hx).symm
  | exFreePool p =>
    refine ⟨rfl, fun x hx => (hall.2 x (ho.inUse hx)).trans (hp.2 x ?_).symm⟩
    obtain ⟨base, n, hbase, hx⟩ := hx
    refine ⟨base, n, ?_, hx⟩
    by_cases hb : base = p
    · subst hb
      simp [blocksAfter] at hbase
    · simpa only [blocksAfter, Function.update_of_ne hb] using hbase
  | load a n =>
    obtain ⟨hread, -, hmem⟩ := hall
    refine ⟨?_, rfl, fun x hx => (hmem x (ho.inUse hx)).trans (hp.2 x hx).symm⟩
    obtain ⟨base, m, hbase, hin⟩ := hq
    exact hread.trans (read_congr fun x hx => (hp.2 x ⟨base, m, hbase, hin x hx⟩).symm)
  | store a bs =>
    refine ⟨rfl, fun x hx => (hall.2 x (ho.inUse hx)).trans ?_⟩
    exact congrArg (bs.getD (x - a).toNat) (hp.2 x hx).symm

/-- What it is to the part of another. -/
theorem serves_other (hs : Apart s.blocks) (hp : Part i s t) {u : Pool} (hu : Part j s u)
    (hij : j ≠ i) {q : PoolReq} {r : q.Answer} (hq : t.Permits q) (h : Serves i s q r s') :
    Part j s' u := by
  have ho := owns_other hp.1 hu.1 hij hq h
  refine ⟨ho, fun x hx => (hu.2 x hx).trans ?_⟩
  obtain ⟨hall, -⟩ := h
  cases q with
  | exAllocatePool n =>
    rcases hall with ⟨-, -, hmem⟩ | ⟨-, -, hmem⟩
    · exact (hmem x (ho.inUse hx)).symm
    · exact (hmem x (hu.1.inUse hx)).symm
  | exFreePool p => exact (hall.2 x (ho.inUse hx)).symm
  | load a n => exact (hall.2.2 x (ho.inUse hx)).symm
  | store a bs =>
    refine ((hall.2 x (ho.inUse hx)).trans (write_outside ?_)).symm
    exact hs.off hp.1 hu.1 hij hq hx

/-- The blocks of the threads are apart, and so are their requests. -/
theorem splits : Splits Serves Pool.Serves (fun _ => Pool.Permits) Part
    fun s : SharedPool ι => Apart s.blocks :=
  fun _ _ _ _ _ _ hs hp hq h => ⟨serves_apart hs h, serves_own (hp _) hq h,
    fun j hij => serves_other hs (hp _) (hp j) hij hq h⟩

end SharedPool

/-! Clients on many threads. -/

section
variable {ι : Type} {ε α : Type}

/-- No block is in use, and no client has begun. -/
def startThreads (mem : Mem 64) (clients : ι → Client ε α) :
    State ι (SharedPool ι) PoolReq PoolReq.Answer ε α :=
  ⟨⟨mem, fun _ => none⟩, fun i => (clients i).via perform⟩

/-- The client has ended, in a heap that its blocks hold. -/
def EndsOnHeap (client : Client ε α) (o : Outcome ε α) (k : Pool) : Prop :=
  ∃ h, client.Exec Heap.Serves Heap.empty o h ∧ Represents k h

theorem kept_start {clients : ι → Client ε α}
    (hsafe : ∀ i h q, (clients i).Poses Heap.Serves Heap.empty h q → h.Permits q) (mem : Mem 64) :
    EachRight Pool.Serves (fun _ => Pool.Permits) SharedPool.Part (fun s => SharedPool.Apart s.blocks)
      (fun i => EndsOnHeap (clients i)) (startThreads mem clients) := by
  have hnone : ∀ (i : ι) (base : BitVec 64) (n : Nat),
      (startThreads mem clients).shared.blocks base ≠ some (i, n) :=
    fun i base n => (Option.some_ne_none (i, n)).symm
  refine ⟨fun base e _ _ h => absurd h (hnone e.1 base e.2), fun _ => ⟨mem, fun _ => none⟩,
    fun j => ⟨⟨fun base n => ?_, fun _ _ => rfl⟩, ?_⟩⟩
  · exact iff_of_false (Option.some_ne_none n).symm (hnone j base n)
  · exact Prog.Wp.via (fun k h q hR hq => perform_wp q hR hq) (represents_start mem)
      (Prog.wp_iff.mpr ⟨hsafe j, fun o h hexec => hexec⟩)

/-- **Threads that share the allocator.** Where each client is safe on a heap of its own, no
    request of any of them is one the pool does not permit, in whatever order they come, and
    no two blocks overlap. A client that has ended has ended as it can on its heap, and its
    blocks hold what is left of it: none, where nothing is. -/
theorem threads_refine [DecidableEq ι] (clients : ι → Client ε α)
    (hsafe : ∀ i h q, (clients i).Poses Heap.Serves Heap.empty h q → h.Permits q) (mem : Mem 64)
    (turns : List ι) (s : State ι (SharedPool ι) PoolReq PoolReq.Answer ε α)
    (hrun : Turns SharedPool.Serves (startThreads mem clients) turns s) :
    (∀ i q k, s.threads i = .ask q k → s.shared.all.Permits q) ∧
    SharedPool.Apart s.shared.blocks ∧
    ∀ i o, s.threads i = ended o → ∃ h k, (clients i).Exec Heap.Serves Heap.empty o h ∧
      SharedPool.Part i s.shared k ∧ Represents k h ∧
      (h = Heap.empty → ∀ base n, s.shared.blocks base ≠ some (i, n)) := by
  have hkept := turns_kept SharedPool.splits (kept_start hsafe mem) hrun
  refine ⟨fun i q k hask => ?_, hkept.1, fun i o hend => ?_⟩
  · obtain ⟨t, hpart, hq⟩ := hkept.asking hask
    exact hpart.1.permits hq
  · obtain ⟨k, hpart, h, hexec, hR⟩ := hkept.ended hend
    refine ⟨h, k, hexec, hpart, hR, fun hempty base n hown => ?_⟩
    have hnone : k.blocks base = none := (hempty ▸ hR).empty base
    exact Option.some_ne_none n (((hpart.1 base n).mpr hown).symm.trans hnone)

end

/-! Two threads, one of which gets no block. -/

def growers : Bool → Client Empty (Option (List Byte)) := fun _ => grow [1#8, 2#8, 3#8]

theorem growers_safe : ∀ i h q, (growers i).Poses Heap.Serves Heap.empty h q → h.Permits q :=
  fun _ => (Prog.wp_iff.mp (@grow_wp [1#8, 2#8, 3#8] (by decide))).1

def oneGrower : SharedPool Bool :=
  ⟨zeroMem, Function.update (fun _ => none) 0x1000#64 (some (false, 31))⟩

theorem oneGrower_serves : SharedPool.Serves false ⟨zeroMem, fun _ => none⟩
    (.exAllocatePool smallLayout.request) (0x1000#64 : BitVec 64) oneGrower := by
  refine ⟨.inr ⟨⟨⟨by decide, by decide⟩, by decide, rfl, fun x hx => ?_⟩, ?_, fun _ _ => rfl⟩, ?_⟩
  · obtain ⟨base, n, hbase, -⟩ := hx
    exact absurd hbase.symm (Option.some_ne_none n)
  · funext base
    by_cases hb : base = 0x1000#64
    · subst hb
      rfl
    · simp only [SharedPool.all, oneGrower, Function.update_of_ne hb, Option.map_none]
  · rfl

theorem nothing_serves : SharedPool.Serves true oneGrower (.exAllocatePool smallLayout.request)
    (0#64 : BitVec 64) oneGrower :=
  ⟨.inl ⟨rfl, rfl, fun _ _ => rfl⟩, rfl⟩

theorem growers_run : ∃ s, Turns SharedPool.Serves (startThreads zeroMem growers) [false, true] s ∧
    s.threads true = ended (.ok none) :=
  ⟨⟨oneGrower, _⟩, ⟨⟨oneGrower, _⟩, ⟨.exAllocatePool smallLayout.request, _, 0x1000#64, rfl,
    oneGrower_serves, rfl⟩, ⟨oneGrower, _⟩, ⟨.exAllocatePool smallLayout.request, _, 0#64, rfl,
    nothing_serves, rfl⟩, rfl⟩, rfl⟩

theorem threads_refine_growers : ∃ s, Turns SharedPool.Serves (startThreads zeroMem growers)
    [false, true] s ∧ (∀ i q k, s.threads i = .ask q k → s.shared.all.Permits q) ∧
      ∀ base n, s.shared.blocks base ≠ some (true, n) := by
  obtain ⟨s, hrun, hend⟩ := growers_run
  obtain ⟨hasking, -, hends⟩ := threads_refine growers growers_safe zeroMem [false, true] s hrun
  obtain ⟨h, k, hexec, -, -, hempty⟩ := hends true (.ok none) hend
  have hgrow := (Prog.wp_iff.mp (@grow_wp [1#8, 2#8, 3#8] (by decide))).2
  exact ⟨s, hrun, hasking, hempty (hgrow _ h hexec).2⟩

end WinKernl.GlobalAlloc
