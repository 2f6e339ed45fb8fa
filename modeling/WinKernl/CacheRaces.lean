import WinKernl.Lib.Interleave
import WinKernl.OffsetCache

/- Callers of `search_cached_offset` that race on one cache.

   Correspondence (Rust ↔ Lean):
     `cache.load`, `cache.store`, `find_offset_from_routine` ↔ `CacheReq`
     `search_cached_offset`                                  ↔ `searchCall`
   A load, a resolution and a store are one step each; the `AtomicU64` is the shared state.
   Its accesses are relaxed, but a single location changes in one order for all threads. A
   caller that calls again is another thread here.
   `find_structure_offset` reads the routine's code, which does not change, so what the
   resolution finds is one value `r`; whether it can resolve the routine at all is open each
   time. `runOn_searchCall` says that a call with nothing in between its steps is
   `searchCachedOffset`. -/
namespace WinKernl
open Ask Runs Interleave

namespace OffsetCache

inductive CacheReq where
  | load
  | resolve
  | store (offset : BitVec 64)
  deriving DecidableEq

abbrev CacheReq.Answer : CacheReq → Type
  | .load => BitVec 64
  | .resolve => Except SearchError (Option (BitVec 64))
  | .store _ => Unit

abbrev CacheProg (α : Type) := Prog CacheReq CacheReq.Answer Empty α

def searchCall : CacheProg (Except SearchError (Option (BitVec 64))) :=
  .ask .load fun cachedOffset =>
  if cachedOffset ≠ 0 then .ok (.ok (some cachedOffset)) else
  .ask .resolve fun offset =>
  match offset with
  | .error e => .ok (.error e)
  | .ok none => .ok (.ok none)
  | .ok (some offset) => .ask (.store offset) fun _ => .ok (.ok (some offset))

/-- The `AtomicU64`, and a routine in which `r` is found. The choice is for a resolution:
    the error it meets, if it meets one. -/
def serveCache (r : Option (BitVec 64)) (cache : BitVec 64) (c : Option SearchError) :
    (q : CacheReq) → q.Answer × BitVec 64
  | .load => (cache, cache)
  | .resolve =>
    match c with
    | none => (.ok r, cache)
    | some e => (.error e, cache)
  | .store offset => ((), offset)

/-- The callers before their first steps, and the cache as the program starts with it. -/
def racing (ι : Type) :
    State ι (BitVec 64) CacheReq CacheReq.Answer Empty (Except SearchError (Option (BitVec 64))) :=
  ⟨0, fun _ => searchCall⟩

/-- The error that a step of a call met. -/
def failure : Own (BitVec 64) CacheReq CacheReq.Answer → Option SearchError
  | ⟨_, .resolve, .error e, _⟩ => some e
  | _ => none

/-! A call alone is the lookup. -/

/-- Run a call on one of the caches, without a break. -/
def runOn {α : Type} (find : SystemProg SearchError (Option (BitVec 64))) (cache : Cache) :
    CacheProg α → Caches → SystemProg Empty (α × Caches)
  | .ok a, c => .ok (a, c)
  | .err e, _ => .err e
  | .panic, _ => .panic
  | .ask .load k, c => runOn find cache (k (c cache)) c
  | .ask .resolve k, c => find.attempt >>= fun offset => runOn find cache (k offset) c
  | .ask (.store offset) k, c => runOn find cache (k ()) (Function.update c cache offset)

theorem runOn_searchCall (u : Text.Unicode) (dec : StructureOffset.InstructionDecoder)
    (cache : Cache) (moduleName routineName : List Char) (c : Caches) :
    runOn (findOffsetFromRoutine u dec moduleName routineName) cache searchCall c =
      searchCachedOffset u dec cache moduleName routineName c := by
  rw [searchCall, runOn, searchCachedOffset]
  split
  · rfl
  · rw [runOn]
    congr 1
    funext offset
    rcases offset with e | _ | offset <;> rfl

/-! A call among others. -/

/-- The cache is empty, or holds what is found in the routine. -/
def CacheHolds (r : Option (BitVec 64)) (cache : BitVec 64) : Prop := cache = 0 ∨ r = some cache

/-- A call that has taken the steps `h`, and what is left of it. -/
structure CallInv (r : Option (BitVec 64)) (h : List (Own (BitVec 64) CacheReq CacheReq.Answer))
    (p : CacheProg (Except SearchError (Option (BitVec 64)))) : Prop where
  found : (∀ o ∈ h, failure o = none) → ∀ a, p = .ok a → a = .ok r
  failed : ∀ o ∈ h, ∀ e, failure o = some e →
    p = .ok (.error e) ∧ ∀ o ∈ h, o.after = o.before
  ends : (∃ a, p = .ok a) ∨ Asking p ∧ h.length < 3

section
variable {r : Option (BitVec 64)} {h : List (Own (BitVec 64) CacheReq CacheReq.Answer)}
  {p : CacheProg (Except SearchError (Option (BitVec 64)))}

theorem CallInv.asking (hp : Asking p) (hno : ∀ o ∈ h, failure o = none) (hlen : h.length < 3) :
    CallInv r h p where
  found _ a ha := by
    obtain ⟨q, k, hq⟩ := hp
    rw [ha] at hq
    cases hq
  failed o ho e he := by
    rw [hno o ho] at he
    cases he
  ends := .inr ⟨hp, hlen⟩

theorem CallInv.returned (hno : ∀ o ∈ h, failure o = none) : CallInv r h (.ok (.ok r)) where
  found _ a ha := by
    cases ha
    rfl
  failed o ho e he := by
    rw [hno o ho] at he
    cases he
  ends := .inl ⟨_, rfl⟩

/-- A call that met an error in its last step. -/
theorem CallInv.refused {e : SearchError} {o : Own (BitVec 64) CacheReq CacheReq.Answer}
    (ho : failure o = some e) (hno : ∀ o ∈ h, failure o = none)
    (hsame : ∀ x ∈ h ++ [o], x.after = x.before) : CallInv r (h ++ [o]) (.ok (.error e)) where
  found hnone := by
    rw [hnone o (List.mem_append_right h (List.mem_singleton_self o))] at ho
    cases ho
  failed x hx e' he' := by
    rcases List.mem_append.mp hx with hx | hx
    · rw [hno x hx] at he'
      cases he'
    · obtain rfl : x = o := List.mem_singleton.mp hx
      rw [ho] at he'
      cases he'
      exact ⟨rfl, hsame⟩
  ends := .inl ⟨_, rfl⟩

theorem searchCall_keeps (r : Option (BitVec 64)) :
    Keeps (serveCache r) (CacheHolds r) (fun before after => before ≠ 0 → after ≠ 0) (CallInv r)
      [] searchCall := by
  refine ⟨.asking ⟨_, _, rfl⟩ (by simp) (by simp), fun cache c hcache => ⟨hcache, id, ?_⟩⟩
  dsimp only [serveCache]
  split
  · next hne =>
    -- The cache was filled, by any call.
    obtain rfl : r = some cache := hcache.resolve_left hne
    exact .returned (by simp [failure, served])
  · refine ⟨.asking ⟨_, _, rfl⟩ (by simp [failure, served]) (by simp),
      fun cache c hcache => ?_⟩
    rcases c with _ | e
    · -- The cache may have been filled since the load.
      refine ⟨hcache, id, ?_⟩
      dsimp only [serveCache]
      rcases r with _ | offset
      · exact .returned (by simp [failure, served, serveCache])
      · refine ⟨.asking ⟨_, _, rfl⟩ (by simp [failure, served, serveCache]) (by simp),
          fun cache c hcache => ⟨.inr rfl, fun hne => ?_, ?_⟩⟩
        · obtain h : some offset = some cache := hcache.resolve_left hne
          cases h
          exact hne
        · exact .returned (by simp [failure, served, serveCache])
    · refine ⟨hcache, id, ?_⟩
      exact .refused rfl (by simp [failure, served]) (by simp [served, serveCache])

end

/-- **Racing callers.** The cache holds nothing but 0 and what is found in the routine, and
    is not emptied. A call ends within three steps of its own: with the error that it met,
    and then it has left the cache as it was, and else with what is found. -/
theorem racing_transparent (ι : Type) [DecidableEq ι] (r : Option (BitVec 64))
    (turns : List (Turn ι (Option SearchError))) :
    Always (step (serveCache r)) (fun s => s.shared = 0 ∨ r = some s.shared) (racing ι) turns ∧
    Guarded (step (serveCache r)) (fun s t => s.shared ≠ 0 →
      (step (serveCache r) s t).shared ≠ 0) (racing ι) turns ∧
    ∀ i,
      let call := (final (step (serveCache r)) (racing ι) turns).threads i
      let steps := own (serveCache r) i (racing ι) turns
      (3 ≤ (turns.map Turn.thread).count i → ∃ a, call = .ok a) ∧
      ((∀ o ∈ steps, failure o = none) → ∀ a, call = .ok a → a = .ok r) ∧
      ∀ o ∈ steps, ∀ e, failure o = some e →
        call = .ok (.error e) ∧ ∀ o ∈ steps, o.after = o.before := by
  have hkeeps : ∀ i, Keeps (serveCache r) (CacheHolds r) (fun before after =>
      before ≠ 0 → after ≠ 0) (CallInv r) [] ((racing ι).threads i) := fun _ => searchCall_keeps r
  obtain ⟨halways, hguarded⟩ := always_run (.inl rfl) hkeeps turns
  obtain ⟨-, hend⟩ := keeps_run (.inl rfl) hkeeps turns
  refine ⟨halways, ?_, fun i => ?_⟩
  · refine halways.guarded ?_ hguarded
    intro s t _ hchange hne
    rcases hchange with hchange | hsame
    · exact hchange hne
    · rwa [hsame]
  · have hcall := (hend i).now
    rw [List.nil_append] at hcall
    refine ⟨fun hturns => ?_, hcall.found, hcall.failed⟩
    rcases hcall.ends with hended | ⟨hasking, hlen⟩
    · exact hended
    · rw [own_length hasking] at hlen
      omega

/-- Two callers find the cache empty; one cannot resolve the routine, the other stores. -/
example : (final (step (serveCache (some 0x448))) (racing Bool)
    [⟨false, none⟩, ⟨true, none⟩, ⟨true, some .unknownFunction⟩, ⟨false, none⟩,
      ⟨false, none⟩]).shared = 0x448 := rfl

end OffsetCache
end WinKernl
