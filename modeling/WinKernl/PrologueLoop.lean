import WinKernl.Lib.WhileLoop
import WinKernl.Trampoline

/- The `while` of `KHook::new` as the source runs it: the decoder has a position of
   its own, and nothing bounds the number of turns.

   Correspondence (Rust ↔ Lean):
     `Decoder::with_ip`, `decode`     ↔ `Decoder.withIp`, `Decoder.decode`
     one turn of the `while`          ↔ `scanTurn`
     `decoder`, `copied`, `insn_block` ↔ `Scan`

   `decodePrologue`, which `KHook.new` uses, takes at most `maxHookSize` turns and
   decodes at `copied`; `prologueLoop_eq` says that this is the loop. -/
namespace WinKernl
open ByteMem WhileLoop

/-- `iced_x86::Decoder`. -/
structure Decoder where
  data : List Byte
  position : Nat
  ip : BitVec 64
  deriving DecidableEq, Repr

namespace Decoder

def withIp (data : List Byte) (ip : BitVec 64) : Decoder := ⟨data, 0, ip⟩

/-- `none` is an invalid instruction, behind which nothing is decoded. -/
def decode (env : Env) (d : Decoder) : Option Insn × Decoder :=
  let rest := d.data.drop d.position
  match env.decode d.ip rest with
  | none => (none, d)
  | some n =>
    (some ⟨d.ip, rest.take n⟩, ⟨d.data, d.position + n, d.ip + BitVec.ofNat 64 n⟩)

end Decoder

/-- The locals of the loop. -/
structure Scan where
  decoder : Decoder
  copied : Nat
  insnBlock : List Insn
  deriving DecidableEq, Repr

def Scan.start (src : BitVec 64) (srcSlice : List Byte) : Scan :=
  ⟨.withIp srcSlice src, 0, []⟩

def scanTurn (env : Env) (s : Scan) : Scan ⊕ Except KhookErr (List Insn × Nat) :=
  if s.copied < maxHookSize then
    match s.decoder.decode env with
    | (none, _) => .inr (.error .invalidInsn)
    | (some inst, decoder) =>
      .inl ⟨decoder, s.copied + inst.bytes.length, s.insnBlock ++ [inst]⟩
  else .inr (.ok (s.insnBlock, s.copied))

/-- The first turns of the loop. -/
def prologueLoop (env : Env) (src : BitVec 64) (srcSlice : List Byte) (turns : Nat) :
    Option (Except KhookErr (List Insn × Nat)) :=
  loop (scanTurn env) turns (.start src srcSlice)

/-- The decoder reads an instruction byte by byte. With more bytes behind the same
    ones it reports the same, and no instruction that is longer than its bytes. -/
def Env.ReadsInsn (env : Env) : Prop :=
  ∀ ip bs more, (env.decode ip bs).map Subtype.val =
    ((env.decode ip (bs ++ more)).map Subtype.val).filter (· ≤ bs.length)

/-! One turn. -/

/-- Where the decoder stands. -/
def Scan.At (src : BitVec 64) (srcSlice : List Byte) (s : Scan) : Prop :=
  s.decoder = ⟨srcSlice, s.copied, src + BitVec.ofNat 64 s.copied⟩

section
variable {env : Env} {src : BitVec 64} {srcSlice : List Byte} {s : Scan}

/-- What a turn does: leave with the block, leave with an error, or take the
    instruction at `copied`. -/
inductive ScanTurn (env : Env) (src : BitVec 64) (srcSlice : List Byte) (s : Scan) :
    Scan ⊕ Except KhookErr (List Insn × Nat) → Prop where
  | done (hge : maxHookSize ≤ s.copied) :
      ScanTurn env src srcSlice s (.inr (.ok (s.insnBlock, s.copied)))
  | invalid (hlt : s.copied < maxHookSize)
      (hn : env.decode (src + BitVec.ofNat 64 s.copied) (srcSlice.drop s.copied) = none) :
      ScanTurn env src srcSlice s (.inr (.error .invalidInsn))
  | taken (hlt : s.copied < maxHookSize) (n : InsnLen (srcSlice.drop s.copied))
      (hn : env.decode (src + BitVec.ofNat 64 s.copied) (srcSlice.drop s.copied) = some n) :
      ScanTurn env src srcSlice s (.inl
        ⟨⟨srcSlice, s.copied + n, src + BitVec.ofNat 64 (s.copied + n)⟩, s.copied + n,
          s.insnBlock ++ [⟨src + BitVec.ofNat 64 s.copied, (srcSlice.drop s.copied).take n⟩]⟩)

theorem scanTurn_done (hge : maxHookSize ≤ s.copied) :
    scanTurn env s = .inr (.ok (s.insnBlock, s.copied)) :=
  if_neg (Nat.not_lt.mpr hge)

theorem scanTurn_invalid (hs : s.At src srcSlice) (hlt : s.copied < maxHookSize)
    (hn : env.decode (src + BitVec.ofNat 64 s.copied) (srcSlice.drop s.copied) = none) :
    scanTurn env s = .inr (.error .invalidInsn) := by
  rw [scanTurn, if_pos hlt, hs, Decoder.decode]
  dsimp only
  rw [hn]

theorem scanTurn_taken (hs : s.At src srcSlice) (hlt : s.copied < maxHookSize)
    {n : InsnLen (srcSlice.drop s.copied)}
    (hn : env.decode (src + BitVec.ofNat 64 s.copied) (srcSlice.drop s.copied) = some n) :
    scanTurn env s = .inl
      ⟨⟨srcSlice, s.copied + n, src + BitVec.ofNat 64 (s.copied + n)⟩, s.copied + n,
        s.insnBlock ++ [⟨src + BitVec.ofNat 64 s.copied, (srcSlice.drop s.copied).take n⟩]⟩ := by
  have hlen : ((srcSlice.drop s.copied).take n).length = n := by
    rw [List.length_take, Nat.min_eq_left n.2.2.2]
  rw [scanTurn, if_pos hlt, hs, Decoder.decode]
  dsimp only
  rw [hn]
  dsimp only
  rw [hlen, BitVec.add_assoc, ← BitVec.ofNat_add]

theorem scanTurn_turn (env : Env) (hs : s.At src srcSlice) :
    ScanTurn env src srcSlice s (scanTurn env s) := by
  rcases Nat.lt_or_ge s.copied maxHookSize with hlt | hge
  · cases hn : env.decode (src + BitVec.ofNat 64 s.copied) (srcSlice.drop s.copied) with
    | none =>
      rw [scanTurn_invalid hs hlt hn]
      exact .invalid hlt hn
    | some n =>
      rw [scanTurn_taken hs hlt hn]
      exact .taken hlt n hn
  · rw [scanTurn_done hge]
    exact .done hge

/-! The bounded loop is the loop. -/

theorem decodeLoop_done {fuel copied : Nat} {h : maxHookSize ≤ copied + fuel} {block : List Insn}
    (hge : maxHookSize ≤ copied) :
    decodeLoop env src srcSlice fuel copied h block = .ok (block, copied) := by
  cases fuel with
  | zero => rfl
  | succ fuel => exact if_neg (Nat.not_lt.mpr hge)

theorem decodeLoop_invalid {fuel copied : Nat} {h : maxHookSize ≤ copied + (fuel + 1)}
    {block : List Insn} (hlt : copied < maxHookSize)
    (hn : env.decode (src + BitVec.ofNat 64 copied) (srcSlice.drop copied) = none) :
    decodeLoop env src srcSlice (fuel + 1) copied h block = .error .invalidInsn := by
  rw [decodeLoop, if_pos hlt]
  dsimp only
  rw [hn]

/-- An instruction pays for its turn. -/
theorem fuel_taken {bs : List Byte} {fuel copied : Nat} (h : maxHookSize ≤ copied + (fuel + 1))
    (n : InsnLen bs) : maxHookSize ≤ copied + n + fuel := by
  have hpos := n.2.1
  omega

theorem decodeLoop_taken {fuel copied : Nat} {h : maxHookSize ≤ copied + (fuel + 1)}
    {block : List Insn} (hlt : copied < maxHookSize) {n : InsnLen (srcSlice.drop copied)}
    (hn : env.decode (src + BitVec.ofNat 64 copied) (srcSlice.drop copied) = some n) :
    decodeLoop env src srcSlice (fuel + 1) copied h block =
      decodeLoop env src srcSlice fuel (copied + n) (fuel_taken h n)
        (block ++ [⟨src + BitVec.ofNat 64 copied, (srcSlice.drop copied).take n⟩]) := by
  rw [decodeLoop, if_pos hlt]
  dsimp only
  rw [hn]

theorem loop_eq_decodeLoop {fuel turns : Nat} (hs : s.At src srcSlice)
    (h : maxHookSize ≤ s.copied + fuel) (hturns : fuel < turns) :
    loop (scanTurn env) turns s =
      some (decodeLoop env src srcSlice fuel s.copied h s.insnBlock) := by
  induction turns generalizing s fuel with
  | zero => omega
  | succ turns ih =>
    have hturn := scanTurn_turn env hs
    generalize hr : scanTurn env s = r at hturn
    cases hturn with
    | done hge => rw [loop_inr hr, decodeLoop_done hge]
    | invalid hlt hn =>
      obtain ⟨fuel, rfl⟩ := Nat.exists_eq_succ_of_ne_zero (n := fuel) (by omega)
      rw [loop_inr hr, decodeLoop_invalid hlt hn]
    | taken hlt n hn =>
      obtain ⟨fuel, rfl⟩ := Nat.exists_eq_succ_of_ne_zero (n := fuel) (by omega)
      rw [loop_inl hr, decodeLoop_taken hlt hn]
      refine ih ?_ _ (by omega)
      rfl

theorem Scan.start_at (src : BitVec 64) (srcSlice : List Byte) :
    (Scan.start src srcSlice).At src srcSlice := by
  simp [Scan.At, Scan.start, Decoder.withIp]

/-- The loop ends, whatever the bytes and the decoder. -/
theorem prologueLoop_eq (env : Env) (src : BitVec 64) (srcSlice : List Byte) {turns : Nat}
    (h : maxHookSize < turns) :
    prologueLoop env src srcSlice turns = some (decodePrologue env src srcSlice) :=
  loop_eq_decodeLoop (Scan.start_at src srcSlice) _ h

/-! What the loop collects. -/

/-- The instructions `insns` lie one behind the other from offset `start` of the bytes to
    offset `stop`, each as the decoder reports it there. -/
def Decoded (env : Env) (src : BitVec 64) (srcSlice : List Byte) : Nat → List Insn → Nat → Prop
  | start, [], stop => start = stop
  | start, i :: insns, stop =>
    (∃ n, env.decode (src + BitVec.ofNat 64 start) (srcSlice.drop start) = some n ∧
      i = ⟨src + BitVec.ofNat 64 start, (srcSlice.drop start).take n⟩) ∧
    Decoded env src srcSlice (start + i.bytes.length) insns stop

theorem Decoded.append {insns insns' : List Insn} {start mid stop : Nat}
    (h : Decoded env src srcSlice start insns mid) (h' : Decoded env src srcSlice mid insns' stop) :
    Decoded env src srcSlice start (insns ++ insns') stop := by
  induction insns generalizing start with
  | nil =>
    obtain rfl : start = mid := h
    exact h'
  | cons i insns ih => exact ⟨h.1, ih h.2⟩

theorem Decoded.stop_eq {insns : List Insn} {start stop : Nat}
    (h : Decoded env src srcSlice start insns stop) :
    stop = start + (insns.map (·.bytes.length)).sum := by
  induction insns generalizing start with
  | nil => exact h.symm
  | cons i insns ih =>
    rw [ih h.2, List.map_cons, List.sum_cons, Nat.add_assoc]

theorem Decoded.single {start : Nat} {n : InsnLen (srcSlice.drop start)}
    (hn : env.decode (src + BitVec.ofNat 64 start) (srcSlice.drop start) = some n) :
    Decoded env src srcSlice start
      [⟨src + BitVec.ofNat 64 start, (srcSlice.drop start).take n⟩] (start + n) := by
  refine ⟨⟨n, hn, rfl⟩, ?_⟩
  rw [Decoded, List.length_take, Nat.min_eq_left n.2.2.2]

/-- The invariant of the loop. -/
structure Scan.Collects (env : Env) (src : BitVec 64) (srcSlice : List Byte) (s : Scan) :
    Prop where
  stands : s.At src srcSlice
  decoded : Decoded env src srcSlice 0 s.insnBlock s.copied
  copied_le : s.copied ≤ maxHookSize + 14
  inside : s.copied ≤ srcSlice.length

theorem Scan.start_collects (env : Env) (src : BitVec 64) (srcSlice : List Byte) :
    (Scan.start src srcSlice).Collects env src srcSlice :=
  ⟨start_at src srcSlice, rfl, Nat.zero_le _, Nat.zero_le _⟩

theorem Scan.Collects.turn {s' : Scan} (hs : s.Collects env src srcSlice)
    (hturn : scanTurn env s = .inl s') :
    s'.Collects env src srcSlice ∧ maxHookSize - s'.copied < maxHookSize - s.copied := by
  have h := scanTurn_turn env hs.stands
  rw [hturn] at h
  cases h with
  | taken hlt n hn =>
    obtain ⟨hpos, hle, hfit⟩ := n.2
    have hrest : (srcSlice.drop s.copied).length = srcSlice.length - s.copied := List.length_drop
    refine ⟨⟨rfl, hs.decoded.append (.single hn), ?_, ?_⟩, ?_⟩
    all_goals dsimp only; omega

/-- A prologue that is found: its instructions fill it, it is long enough, and it ends
    inside the bytes. -/
structure Prologue (env : Env) (src : BitVec 64) (srcSlice : List Byte) (insns : List Insn)
    (copied : Nat) : Prop where
  le_copied : maxHookSize ≤ copied
  copied_le : copied ≤ maxHookSize + 14
  inside : copied ≤ srcSlice.length
  decoded : Decoded env src srcSlice 0 insns copied

theorem Scan.Collects.leave {r : Except KhookErr (List Insn × Nat)}
    (hs : s.Collects env src srcSlice) (hturn : scanTurn env s = .inr r) :
    ∀ insns copied, r = .ok (insns, copied) → Prologue env src srcSlice insns copied := by
  have h := scanTurn_turn env hs.stands
  rw [hturn] at h
  intro insns copied hr
  subst hr
  cases h with
  | done hge => exact ⟨hge, hs.copied_le, hs.inside, hs.decoded⟩

theorem decodePrologue_covers {insns : List Insn} {copied : Nat}
    (hd : decodePrologue env src srcSlice = .ok (insns, copied)) :
    Prologue env src srcSlice insns copied := by
  obtain ⟨r, hr, hpost⟩ := loop_total (fun _ _ => Scan.Collects.turn)
    (fun _ _ => Scan.Collects.leave) (Scan.start_collects env src srcSlice) (Nat.lt_succ_self _)
  have hloop := prologueLoop_eq env src srcSlice (Nat.lt_succ_self maxHookSize)
  exact hpost _ _ ((Option.some.inj (hr.symm.trans hloop)).trans hd)

/-! A longer window. -/

/-- Where fifteen bytes are left, more of them change nothing. -/
theorem Env.ReadsInsn.more (henv : env.ReadsInsn) (ip : BitVec 64) {bs : List Byte}
    (hbs : 15 ≤ bs.length) (more : List Byte) :
    (env.decode ip (bs ++ more)).map Subtype.val = (env.decode ip bs).map Subtype.val := by
  rw [henv ip bs more]
  cases hn : env.decode ip (bs ++ more) with
  | none => rfl
  | some n =>
    have hle : n.val ≤ bs.length := Nat.le_trans n.2.2.1 hbs
    rw [Option.map_some, Option.filter_some, if_pos (decide_eq_true hle)]

/-- Two loops, the second on a longer window. -/
structure Scan.Longer (src : BitVec 64) (srcSlice more : List Byte) (s t : Scan) : Prop where
  stands : s.At src srcSlice
  stands' : t.At src (srcSlice ++ more)
  copied_eq : t.copied = s.copied
  block_eq : t.insnBlock = s.insnBlock

/-- A turn that decodes has at least fifteen bytes of the window in front of it. -/
theorem decode_longer (henv : env.ReadsInsn) (hlen : maxHookSize + 14 ≤ srcSlice.length)
    {copied : Nat} (hlt : copied < maxHookSize) (ip : BitVec 64) (more : List Byte) :
    (env.decode ip ((srcSlice ++ more).drop copied)).map Subtype.val =
      (env.decode ip (srcSlice.drop copied)).map Subtype.val := by
  have hrest : 15 ≤ (srcSlice.drop copied).length := by
    rw [List.length_drop]
    omega
  rw [List.drop_append_of_le_length (by omega)]
  exact henv.more ip hrest more

theorem scanTurn_longer (henv : env.ReadsInsn) (hlen : maxHookSize + 14 ≤ srcSlice.length)
    {more : List Byte} {t : Scan} (h : Scan.Longer src srcSlice more s t) :
    Sum.LiftRel (Scan.Longer src srcSlice more) Eq (scanTurn env s) (scanTurn env t) := by
  obtain ⟨hs, ht, hcopied, hblock⟩ := h
  obtain ⟨decoder, copied, block⟩ := t
  obtain rfl : copied = s.copied := hcopied
  obtain rfl : block = s.insnBlock := hblock
  have hturn := scanTurn_turn env hs
  generalize scanTurn env s = r at hturn
  cases hturn with
  | done hge =>
    rw [@scanTurn_done env ⟨decoder, s.copied, s.insnBlock⟩ hge]
    exact .inr rfl
  | invalid hlt hn =>
    have hlonger := decode_longer henv hlen hlt (src + BitVec.ofNat 64 s.copied) more
    rw [hn, Option.map_none, Option.map_eq_none_iff] at hlonger
    rw [scanTurn_invalid ht hlt hlonger]
    exact .inr rfl
  | taken hlt n hn =>
    have hlonger := decode_longer henv hlen hlt (src + BitVec.ofNat 64 s.copied) more
    rw [hn, Option.map_some, Option.map_eq_some_iff] at hlonger
    obtain ⟨n', hn', hval⟩ := hlonger
    have hinside : s.copied ≤ srcSlice.length := by omega
    rw [scanTurn_taken ht hlt hn']
    dsimp only
    rw [hval, List.drop_append_of_le_length hinside, List.take_append_of_le_length n.2.2.2]
    exact .inl ⟨rfl, rfl, rfl, rfl⟩

/-- No instruction is refused for want of bytes behind the window. -/
theorem decodePrologue_longer (henv : env.ReadsInsn)
    (hlen : maxHookSize + 14 ≤ srcSlice.length) (more : List Byte) :
    decodePrologue env src (srcSlice ++ more) = decodePrologue env src srcSlice := by
  have hloop := loop_lockstep (fun _ _ => scanTurn_longer henv hlen)
    (Scan.Longer.mk (Scan.start_at src srcSlice) (Scan.start_at src (srcSlice ++ more)) rfl rfl)
    (maxHookSize + 1)
  have h := prologueLoop_eq env src srcSlice (Nat.lt_succ_self maxHookSize)
  have h' := prologueLoop_eq env src (srcSlice ++ more) (Nat.lt_succ_self maxHookSize)
  exact Option.some.inj (h'.symm.trans (hloop.symm.trans h))

/-! The patch. -/

theorem createAssemblyJump_length_le (a t : BitVec 64) :
    (createAssemblyJump a t).length ≤ maxHookSize := by
  rw [createAssemblyJump_length]
  unfold maxHookSize hookSizeAbsolute
  split <;> omega

/-- What lies behind the jump stays. -/
theorem KHook.enable_behind (h : KHook) (ok : Bool) (mem : Mem 64) {k : Nat}
    (hk : h.jump.length ≤ k) (hlt : k < 2^64) :
    (h.enable ok mem).2.2 (h.src.val + BitVec.ofNat 64 k) = mem (h.src.val + BitVec.ofNat 64 k) := by
  cases he : h.enabled with
  | true => rw [enable_idle he]
  | false =>
    cases ok with
    | false =>
      rw [enable, he]
      rfl
    | true =>
      rw [enable_ok he]
      apply write_outside
      rw [Within, offset_add _ hlt]
      omega

end

/-! The decoder of the fixtures reads byte by byte. -/

namespace KHook

theorem fixtureDecode_val (ip : BitVec 64) (bs : List Byte) :
    (fixtureDecode ip bs).map Subtype.val =
      if 0 < fixtureLen bs ∧ fixtureLen bs ≤ 15 ∧ fixtureLen bs ≤ bs.length then
        some (fixtureLen bs) else none := by
  unfold fixtureDecode
  split <;> rfl

/-- An instruction whose bytes are not all there is not reported. -/
theorem fixtureLen_append (bs more : List Byte) :
    fixtureLen (bs ++ more) = fixtureLen bs ∨
      fixtureLen bs = 0 ∧ (0 < fixtureLen (bs ++ more) → bs.length < fixtureLen (bs ++ more)) := by
  match bs, more with
  | b :: c :: bs, more => exact .inl rfl
  | bs, [] => exact .inl (by rw [List.append_nil])
  | [], c :: more => exact .inr ⟨rfl, fun h => h⟩
  | [b], c :: more =>
    simp only [fixtureLen, List.singleton_append, List.take, List.map]
    generalize b.toNat = x
    generalize c.toNat = y
    by_cases hone : x = 0x90 ∨ x = 0x74 ∨ x = 0xE8
    · rcases hone with rfl | rfl | rfl <;> exact .inl rfl
    · -- The two-byte opcodes are the first of at least six bytes.
      right
      constructor
      · split <;> simp_all
      · split <;> simp_all
        split <;> omega

theorem fixtureEnv_readsInsn (stub : BitVec 64)
    (encode : List Insn → BitVec 64 → Option BlockEncoderResult) :
    (fixtureEnv stub encode).ReadsInsn := by
  intro ip bs more
  show (fixtureDecode ip bs).map Subtype.val =
    ((fixtureDecode ip (bs ++ more)).map Subtype.val).filter (· ≤ bs.length)
  rw [fixtureDecode_val, fixtureDecode_val, List.length_append]
  rcases fixtureLen_append bs more with hsame | ⟨hzero, hlong⟩
  · rw [hsame]
    by_cases h : 0 < fixtureLen bs ∧ fixtureLen bs ≤ 15 ∧ fixtureLen bs ≤ bs.length
    · obtain ⟨hpos, hle, hfit⟩ := h
      rw [if_pos ⟨hpos, hle, hfit⟩, if_pos ⟨hpos, hle, by omega⟩, Option.filter_some,
        if_pos (decide_eq_true hfit)]
    · rw [if_neg h]
      split
      · next h' =>
        rw [Option.filter_some, if_neg]
        exact fun hfit => h ⟨h'.1, h'.2.1, of_decide_eq_true hfit⟩
      · rfl
  · rw [hzero, if_neg (by omega)]
    split
    · next h' =>
      rw [Option.filter_some, if_neg]
      exact fun hfit => Nat.not_lt.mpr (of_decide_eq_true hfit) (hlong h'.1)
    · rfl

/-- **The loop of `new`.** It ends, a longer window would not change what it finds, and the
    prologue it finds is cut into whole instructions and has room for any jump. -/
theorem prologueLoop_covers (env : Env) (henv : env.ReadsInsn) (src : VirtAddr)
    (srcSlice : List Byte) (hlen : srcSlice.length = windowSize) :
    (∀ turns > maxHookSize, prologueLoop env src.val srcSlice turns =
      some (decodePrologue env src.val srcSlice)) ∧
    (∀ more, decodePrologue env src.val (srcSlice ++ more) =
      decodePrologue env src.val srcSlice) ∧
    ∀ insns copied, decodePrologue env src.val srcSlice = .ok (insns, copied) →
      maxHookSize ≤ copied ∧ copied ≤ maxHookSize + 14 ∧
      copied = (insns.map (·.bytes.length)).sum ∧ copied ≤ srcSlice.length ∧
      Decoded env src.val srcSlice 0 insns copied ∧
      ∀ dst, (createAssemblyJump src.val dst).length ≤ copied ∧
        ∀ (h : KHook) (ok : Bool) (mem : Mem 64) (k : Nat), h.src = src → h.dst = dst →
          copied ≤ k → k < 2^64 → (h.enable ok mem).2.2 (src.val + BitVec.ofNat 64 k) =
            mem (src.val + BitVec.ofNat 64 k) := by
  have hroom : maxHookSize + 14 ≤ srcSlice.length := by
    rw [hlen, windowSize]
    omega
  refine ⟨fun turns => prologueLoop_eq env src.val srcSlice,
    decodePrologue_longer henv hroom, fun insns copied hd => ?_⟩
  have hp := decodePrologue_covers hd
  have hsum := hp.decoded.stop_eq
  rw [Nat.zero_add] at hsum
  refine ⟨hp.le_copied, hp.copied_le, hsum, hp.inside, hp.decoded, fun dst => ?_⟩
  have hjump : (createAssemblyJump src.val dst).length ≤ copied :=
    Nat.le_trans (createAssemblyJump_length_le _ _) hp.le_copied
  refine ⟨hjump, fun h ok mem k hsrc hdst hk hlt => ?_⟩
  subst hsrc hdst
  exact h.enable_behind ok mem (Nat.le_trans hjump hk) hlt

/-- The two `mov`s: twenty bytes. -/
theorem prologueLoop_covers_mov :
    prologueLoop (fixtureEnv nearStub moveBytes) hookVa.val
      (read movMem hookVa.val windowSize) 14 = some (.ok (movInsns, 20)) ∧
    20 = (movInsns.map (·.bytes.length)).sum ∧
    ∀ dst, (createAssemblyJump hookVa.val dst).length ≤ 20 := by
  obtain ⟨hend, -, hok⟩ := prologueLoop_covers (fixtureEnv nearStub moveBytes)
    (fixtureEnv_readsInsn _ _) hookVa _ (read_length movMem hookVa.val windowSize)
  obtain ⟨-, -, hsum, -, -, hjump⟩ := hok _ _ (prologue_mov nearStub)
  refine ⟨?_, hsum, fun dst => (hjump dst).1⟩
  rw [hend 14 (by decide), prologue_mov]

end KHook
end WinKernl
