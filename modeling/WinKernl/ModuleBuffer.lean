import WinKernl.Lib.Codec
import WinKernl.Lib.Server
import WinKernl.FileNames

/- The module list as bytes (`memory/module.rs`, `lib.rs`).

   Correspondence (Rust ↔ Lean):
     the layout of `RTL_PROCESS_MODULE_INFORMATION`   ↔ `moduleCodec`
     `modules_from_ptr`, `module_base_and_name`       ↔ `modulesFromPtr`, `moduleBaseAndName`
     `CStr::from_ptr`                                 ↔ `cStrFromPtr`
     `query_system_module`, its `for`                 ↔ `querySystemModuleIn`, `searchEntries`
     calls, and reads of the buffer                   ↔ the requests `BufferReq`
   `querySystemModule` takes the modules as the kernel's answer. Here the kernel writes into
   a buffer, and the function casts it: a count, four bytes of padding, and the entries.
   `CStr::from_ptr` looks for a NUL and for no end of the array. `vec![0; req_size]` leaves the
   type of its elements open, so they are `i32`, and the buffer has four times the bytes that
   the kernel is told of; the others stay zero, which is what stops `CStr::from_ptr`. The
   lowercase strings are values: the memory that the allocator has for them is not counted,
   and does not run out. -/
namespace WinKernl
open ByteMem Ask Text
open String (utf8Len)

/-! The layout. -/

/-- The fields in their order, without padding. -/
def moduleCodec : Codec ModuleInformation :=
  ((Codec.word 8 (w := 64) rfl).pair <| (Codec.word 8 (w := 64) rfl).pair <|
    (Codec.word 8 (w := 64) rfl).pair <| (Codec.word 4 (w := 32) rfl).pair <|
    (Codec.word 4 (w := 32) rfl).pair <| (Codec.word 2 (w := 16) rfl).pair <|
    (Codec.word 2 (w := 16) rfl).pair <| (Codec.word 2 (w := 16) rfl).pair <|
    (Codec.word 2 (w := 16) rfl).pair <| Codec.bytes 256).map
  (fun p => ⟨p.1, p.2.1, p.2.2.1, p.2.2.2.1, p.2.2.2.2.1, p.2.2.2.2.2.1, p.2.2.2.2.2.2.1,
    p.2.2.2.2.2.2.2.1, p.2.2.2.2.2.2.2.2.1, p.2.2.2.2.2.2.2.2.2⟩)
  (fun m => (m.sectionHandle, m.mappedBase, m.imageBase, m.imageSize, m.flags, m.loadOrderIndex,
    m.initOrderIndex, m.loadCount, m.offsetToFileName, m.fullPathName))
  (fun _ => rfl) fun _ => rfl

/-- `size_of::<RTL_PROCESS_MODULE_INFORMATION>()`, and where the fields lie that are read. -/
def moduleSize : Nat := 296
def offsetToFileNameAt : Nat := 38
def fullPathNameAt : Nat := 40

theorem encode_module_length (m : ModuleInformation) : (moduleCodec.encode m).length = moduleSize :=
  moduleCodec.encode_length m

/-- `NumberOfModules`, the padding, and the entries. -/
def modulesAt : Nat := 8

def modulesFromPtr (mem : Mem 64) (ptr : BitVec 64) : List ModuleInformation :=
  if ptr = 0 then [] else
  let count := ofLE (read mem ptr 4)
  let first := ptr + BitVec.ofNat 64 modulesAt
  moduleCodec.decodeAll count (read mem first (count * moduleSize))

def moduleBaseAndName (info : ModuleInformation) : BitVec 64 × PathSlice :=
  (info.imageBase, filenameFromInfo info)

/-! The query. -/

inductive BufferReq where
  | zwQuerySystemInformation (buffer : BitVec 64) (length : BitVec 32)
  | vec (length : BitVec 32)
  | load (address : BitVec 64) (length : Nat)
  | dropVec (buffer : BitVec 64)

/-- The status, and the length that the kernel wants. -/
structure QueryStatus where
  status : NtStatus
  returnLength : BitVec 32

/-- A `vec` without memory answers null. -/
abbrev BufferReq.Answer : BufferReq → Type
  | .zwQuerySystemInformation .. => QueryStatus
  | .vec _ => BitVec 64
  | .load _ n => { bs : List Byte // bs.length = n }
  | .dropVec _ => Unit

abbrev BufferProg (ε α : Type) := Prog BufferReq BufferReq.Answer ε α

/-- The bytes in front of the NUL; `none` when there is none among the first `fuel`. -/
def cStrFromPtr {ε : Type} : (fuel : Nat) → (ptr : BitVec 64) → BufferProg ε (Option (List UInt8))
  | 0, _ => .ok none
  | fuel + 1, ptr =>
    .ask (.load ptr 1) fun b =>
    if Codec.ofByte (b.val.getD 0 0) = 0 then .ok (some []) else
    cStrFromPtr fuel (ptr + 1) >>= fun rest =>
    .ok (rest.map (Codec.ofByte (b.val.getD 0 0) :: ·))

section
variable (u : Unicode)

/-- `*module`. -/
def copyModule {ε : Type} (module : BitVec 64) : BufferProg ε (Option (Option ModuleInformation)) :=
  .ask (.load module moduleSize) fun bs => .ok (some (some (moduleCodec.decode bs.val)))

/-- One turn of the loop, which goes on with `next`; `none` when the path has no NUL among its
    first `fuel` bytes. -/
def searchEntry {ε : Type} (fuel : Nat) (target : List Char) (module : BitVec 64)
    (next : BufferProg ε (Option (Option ModuleInformation))) :
    BufferProg ε (Option (Option ModuleInformation)) :=
  cStrFromPtr fuel (module + BitVec.ofNat 64 fullPathNameAt) >>= fun bytes =>
  match bytes with
  | none => .ok none
  | some bytes =>
    match decode bytes with
    | none => next
    | some path =>
      let path := u.toLowercase path
      if path = target then copyModule module else
      .ask (.load (module + BitVec.ofNat 64 offsetToFileNameAt) 2) fun offset =>
      match comparedFile (ofLE offset.val) path with
      | none => next
      | some file => if file = target then copyModule module else next

/-- The loop over the entries. -/
def searchEntries {ε : Type} (fuel : Nat) (target : List Char) :
    (left : Nat) → (module : BitVec 64) → BufferProg ε (Option (Option ModuleInformation))
  | 0, _ => .ok (some none)
  | left + 1, module => searchEntry u fuel target module
      (searchEntries fuel target left (module + BitVec.ofNat 64 moduleSize))

/-- The part of `query_system_module` behind the second query. -/
def searchBuffer {ε : Type} (fuel : Nat) (target : List Char) (buffer : BitVec 64) :
    BufferProg ε (Option (Option ModuleInformation)) :=
  .ask (.load buffer 4) fun count =>
  searchEntries u fuel target (ofLE count.val) (buffer + BitVec.ofNat 64 modulesAt) >>= fun found =>
  match found with
  | none => .ok none
  | some found => .ask (.dropVec buffer) fun _ => .ok (some found)

/-- `query_system_module`; `none` when it still reads a path after `fuel` bytes. -/
def querySystemModuleIn (fuel : Nat) (moduleName : List Char) :
    BufferProg NtStatus (Option (Option ModuleInformation)) :=
  if moduleName = [] then .err statusInvalidParameter else
  let target := u.toLowercase moduleName
  .ask (.zwQuerySystemInformation 0 0) fun probe =>
  if probe.status ≠ statusInfoLengthMismatch ∧ ntSuccess probe.status = false then
    .err probe.status else
  .ask (.vec probe.returnLength) fun buffer =>
  if buffer = 0 then .panic else
  .ask (.zwQuerySystemInformation buffer probe.returnLength) fun reply =>
  if ntSuccess reply.status = false then
    .ask (.dropVec buffer) fun _ => .err reply.status else
  searchBuffer u fuel target buffer

end

/-! The kernel and the buffer. -/

/-- The buffer in use, and the modules that were last written. What has been answered is kept:
    the queries, as the calls of `SystemModules.lean`, and whether a `vec` had no memory. -/
structure Buffered where
  block : Option (BitVec 64 × List Byte)
  listed : List ModuleInformation
  answered : List (Sigma SystemReq.Answer)
  refused : Bool

def Buffered.start (ms : List ModuleInformation) : Buffered := ⟨none, ms, [], false⟩

/-- A query without a buffer, and one with a buffer, as the modules are what it writes. -/
def probed (probe : QueryStatus) : Sigma SystemReq.Answer :=
  ⟨.zwQuerySystemInformation none, ⟨probe.status, probe.returnLength, []⟩⟩

def replied (length : BitVec 32) (reply : QueryStatus) (ms : List ModuleInformation) :
    Sigma SystemReq.Answer :=
  ⟨.zwQuerySystemInformation (some length), ⟨reply.status, reply.returnLength, ms⟩⟩

/-- Bytes that begin with the count and the entries. -/
def Holds (bytes : List Byte) (ms : List ModuleInformation) : Prop :=
  bytes.take 4 = toLE 4 ms.length ∧ ms.length < 2^32 ∧
    ∃ rest, bytes.drop modulesAt = moduleCodec.encodeAll ms ++ rest

/-- A query changes no more of the buffer than it is told of, and one that succeeds writes a
    list that fits. -/
def Buffered.Serves : Server Buffered BufferReq BufferReq.Answer
  | s, .zwQuerySystemInformation buffer length, (r : QueryStatus), s' =>
    if buffer = 0 then s' = { s with answered := s.answered ++ [probed r] } else
    s'.answered = s.answered ++ [replied length r s'.listed] ∧ s'.refused = s.refused ∧
    ∃ bytes bytes', s.block = some (buffer, bytes) ∧ s'.block = some (buffer, bytes') ∧
      bytes'.length = bytes.length ∧ bytes'.drop length.toNat = bytes.drop length.toNat ∧
      (ntSuccess r.status = true → Holds (bytes'.take length.toNat) s'.listed)
  | s, .vec length, (p : BitVec 64), s' =>
    if p = 0 then s' = { s with refused := true } else
      s' = { s with block := some (p, List.replicate (4 * length.toNat) 0) }
  | s, .load a n, r, s' => s' = s ∧
    ∃ p bytes, s.block = some (p, bytes) ∧ r.val = (bytes.drop (a - p).toNat).take n
  | s, .dropVec _, _, s' => s' = { s with block := none }

/-- A read stays in the buffer, and the buffer is freed as it was obtained. -/
def Buffered.Permits : Buffered → BufferReq → Prop
  | s, .zwQuerySystemInformation buffer length => buffer = 0 ∨
    ∃ bytes, s.block = some (buffer, bytes) ∧ length.toNat ≤ bytes.length
  | s, .vec _ => s.block = none
  | s, .load a n => ∃ p bytes, s.block = some (p, bytes) ∧ (a - p).toNat + n ≤ bytes.length
  | s, .dropVec p => ∃ bytes, s.block = some (p, bytes)

/-! Reads of an entry. -/

/-- The offset of the file name and the path are the last of an entry's bytes. -/
theorem moduleCodec_encode (m : ModuleInformation) : ∃ front, front.length = offsetToFileNameAt ∧
    moduleCodec.encode m =
      front ++ (toLE 2 m.offsetToFileName.toNat ++ m.fullPathName.toList.map UInt8.toBitVec) := by
  refine ⟨toLE 8 m.sectionHandle.toNat ++ toLE 8 m.mappedBase.toNat ++ toLE 8 m.imageBase.toNat ++
    toLE 4 m.imageSize.toNat ++ toLE 4 m.flags.toNat ++ toLE 2 m.loadOrderIndex.toNat ++
    toLE 2 m.initOrderIndex.toNat ++ toLE 2 m.loadCount.toNat, ?_, ?_⟩
  · simp only [List.length_append, toLE_length]
    rfl
  · simp only [List.append_assoc]
    rfl

section
variable {m : ModuleInformation} {bytes rest : List Byte} {o : Nat}

theorem drop_path (h : bytes.drop o = moduleCodec.encode m ++ rest) :
    bytes.drop (o + fullPathNameAt) = m.fullPathName.toList.map UInt8.toBitVec ++ rest := by
  obtain ⟨front, hfront, hencode⟩ := moduleCodec_encode m
  rw [← List.drop_drop, h, hencode, ← List.append_assoc front, List.append_assoc,
    List.drop_left' (by rw [List.length_append, hfront, toLE_length]; rfl)]

theorem take_offset (h : bytes.drop o = moduleCodec.encode m ++ rest) :
    ofLE ((bytes.drop (o + offsetToFileNameAt)).take 2) = m.offsetToFileName.toNat := by
  obtain ⟨front, hfront, hencode⟩ := moduleCodec_encode m
  rw [← List.drop_drop, h, hencode, List.append_assoc, List.drop_left' hfront, List.append_assoc,
    List.take_left' (toLE_length _ _), ofLE_toLE]
  exact Nat.mod_eq_of_lt m.offsetToFileName.isLt

theorem drop_next (h : bytes.drop o = moduleCodec.encode m ++ rest) :
    bytes.drop (o + moduleSize) = rest := by
  rw [← List.drop_drop, h, List.drop_left' (encode_module_length m)]

theorem take_module (h : bytes.drop o = moduleCodec.encode m ++ rest) :
    moduleCodec.decode ((bytes.drop o).take moduleSize) = m := by
  rw [h, List.take_left' (encode_module_length m), moduleCodec.decode_encode]

theorem entry_inside (h : bytes.drop o = moduleCodec.encode m ++ rest) :
    o + moduleSize + rest.length = bytes.length := by
  have hlen := congrArg List.length h
  rw [List.length_drop, List.length_append, encode_module_length] at hlen
  have hsize : moduleSize = 296 := rfl
  omega

end

/-- The bytes in front of the first zero. -/
def untilZero (bs : List Byte) : List UInt8 := (bs.takeWhile (· ≠ 0)).map Codec.ofByte

theorem ofByte_eq_zero {b : Byte} : Codec.ofByte b = 0 ↔ b = 0 :=
  ⟨fun h => congrArg UInt8.toBitVec h, fun h => congrArg UInt8.ofBitVec h⟩

theorem untilZero_path {m : ModuleInformation} (h : 0 ∈ m.fullPathName.toList) (rest : List Byte) :
    untilZero (m.fullPathName.toList.map UInt8.toBitVec ++ rest) = m.pathBytes := by
  obtain ⟨tail, hsplit⟩ := pathBytes_split h
  have hnonzero : ∀ b ∈ m.pathBytes.map UInt8.toBitVec, decide (b ≠ 0) = true := by
    intro b hb
    obtain ⟨x, hx, rfl⟩ := List.mem_map.mp hb
    refine decide_eq_true fun hzero => zero_not_mem_pathBytes (?_ : (0 : UInt8) ∈ m.pathBytes)
    rwa [← ofByte_eq_zero.mpr hzero]
  rw [untilZero, hsplit, List.map_append, List.append_assoc,
    List.takeWhile_append_of_pos hnonzero, List.map_cons, List.cons_append,
    List.takeWhile_cons_of_neg (by decide), List.append_nil, List.map_map]
  exact List.map_id _

/-! The query against the kernel. -/

section
variable {ε : Type} {s : Buffered} {p : BitVec 64} {bytes : List Byte}
  (hblock : s.block = some (p, bytes)) (hfits : bytes.length < 2^64)
include hblock hfits

/-- A read inside the buffer answers with its bytes. -/
theorem load_wp {α : Type} {a : BitVec 64} {o n : Nat} (ha : a = p + BitVec.ofNat 64 o)
    (hin : o + n ≤ bytes.length)
    {post : Outcome ε α → Buffered → Prop}
    {k : { bs : List Byte // bs.length = n } → BufferProg ε α}
    (h : ∀ bs, bs.val = (bytes.drop o).take n → (k bs).Wp Buffered.Serves Buffered.Permits post s) :
    (Prog.ask (.load a n) k : BufferProg ε α).Wp Buffered.Serves Buffered.Permits post s := by
  have hoff : (a - p).toNat = o := by
    rw [ha]
    exact offset_add p (by omega)
  refine ⟨⟨p, bytes, hblock, by rwa [hoff]⟩, fun bs s' hserved => ?_⟩
  obtain ⟨rfl, p', bytes', hblock', hbs⟩ := hserved
  obtain ⟨rfl, rfl⟩ := Prod.mk.inj (Option.some.inj (hblock'.symm.trans hblock))
  rw [hoff] at hbs
  exact h bs hbs

/-- Where the bytes from `o` on have a zero, a C string is what is in front of it. -/
theorem cStrFromPtr_wp {fuel o : Nat} (hzero : 0 ∈ bytes.drop o) :
    (cStrFromPtr fuel (p + BitVec.ofNat 64 o) : BufferProg ε _).Wp Buffered.Serves Buffered.Permits
      (fun out s' => s' = s ∧ out = .ok (if (untilZero (bytes.drop o)).length < fuel then
        some (untilZero (bytes.drop o)) else none)) s := by
  induction fuel generalizing o with
  | zero => exact ⟨rfl, rfl⟩
  | succ fuel ih =>
    have hlt : o < bytes.length := by
      rw [← not_le, ← List.drop_eq_nil_iff]
      exact List.ne_nil_of_mem hzero
    have hcons : bytes.drop o = bytes[o] :: bytes.drop (o + 1) := List.drop_eq_getElem_cons hlt
    refine load_wp hblock hfits rfl hlt fun b hb => ?_
    have hfirst : b.val.getD 0 0 = bytes[o] := by
      rw [hb, hcons]
      rfl
    rw [hfirst]
    refine .ite (fun hnul => ⟨rfl, ?_⟩) fun hnul => ?_
    · have hnone : untilZero (bytes.drop o) = [] := by
        rw [hcons, untilZero, List.takeWhile_cons_of_neg (by simpa using ofByte_eq_zero.mp hnul)]
        rfl
      rw [hnone]
      exact congrArg Outcome.ok (if_pos (Nat.succ_pos fuel)).symm
    · have hne : bytes[o] ≠ 0 := fun h => hnul (ofByte_eq_zero.mpr h)
      have hrest : 0 ∈ bytes.drop (o + 1) := by
        rw [hcons] at hzero
        exact (List.mem_cons.mp hzero).resolve_left hne.symm
      have hsome : untilZero (bytes.drop o) =
          Codec.ofByte bytes[o] :: untilZero (bytes.drop (o + 1)) := by
        rw [hcons, untilZero, List.takeWhile_cons_of_pos (by simpa using hne)]
        rfl
      have hnext : p + BitVec.ofNat 64 o + 1 = p + BitVec.ofNat 64 (o + 1) := by
        rw [BitVec.add_assoc, BitVec.ofNat_add]
        rfl
      rw [hnext, hsome]
      refine .bind (ih hrest) (fun res t hres => ?_) (fun e t h => by cases h.2)
        fun t h => by cases h.2
      obtain ⟨rfl, hres⟩ := hres
      rw [Outcome.ok.inj hres]
      refine ⟨rfl, congrArg Outcome.ok ?_⟩
      rw [List.length_cons]
      by_cases hshort : (untilZero (bytes.drop (o + 1))).length < fuel
      · rw [if_pos hshort, if_pos (Nat.succ_lt_succ hshort), Option.map_some]
      · rw [if_neg hshort, if_neg fun h => hshort (Nat.lt_of_succ_lt_succ h), Option.map_none]

theorem copyModule_wp {m : ModuleInformation} {rest : List Byte} {o : Nat}
    (hentry : bytes.drop o = moduleCodec.encode m ++ rest) :
    (copyModule (p + BitVec.ofNat 64 o) : BufferProg ε _).Wp Buffered.Serves Buffered.Permits
      (fun out s' => s' = s ∧ out = .ok (some (some m))) s := by
  have hinside := entry_inside hentry
  refine load_wp hblock hfits rfl (by omega) fun bs hbs => ⟨rfl, ?_⟩
  rw [hbs, take_module hentry]

end

/-- `moduleMatches` on the bytes that the code takes for the path. -/
def moduleMatchesBytes (u : Unicode) (target : List Char) (path : List UInt8) (offset : Nat) :
    Bool :=
  match decode path with
  | none => false
  | some path =>
    let path := u.toLowercase path
    if path = target then true else
    match comparedFile offset path with
    | none => false
    | some file => file = target

theorem untilZero_length_le (bs : List Byte) : (untilZero bs).length ≤ bs.length := by
  rw [untilZero, List.length_map]
  exact (List.takeWhile_sublist _).length_le

section
variable {ε : Type} {s : Buffered} {p : BitVec 64} {bytes rest : List Byte} {u : Unicode}
  {target : List Char} {m : ModuleInformation} {ms : List ModuleInformation} {fuel o : Nat}

/-- One turn at the entry of `m`. What the code takes for the path is the path where that is
    terminated, and else goes on behind it. -/
theorem searchEntry_wp (hblock : s.block = some (p, bytes)) (hfits : bytes.length < 2^64)
    (hzero : 0 ∈ rest) (hentry : bytes.drop o = moduleCodec.encode m ++ rest)
    {next : BufferProg ε (Option (Option ModuleInformation))}
    {post : Outcome ε (Option (Option ModuleInformation)) → Buffered → Prop}
    (hmiss : (0 ∈ m.fullPathName.toList → moduleMatches u target m = false) →
      next.Wp Buffered.Serves Buffered.Permits post s)
    (hhit : (0 ∈ m.fullPathName.toList → moduleMatches u target m = true) →
      post (.ok (some (some m))) s)
    (hlong : fuel < bytes.length → (0 ∈ m.fullPathName.toList → fuel < 256) →
      post (.ok none) s) :
    (searchEntry u fuel target (p + BitVec.ofNat 64 o) next).Wp Buffered.Serves
      Buffered.Permits post s := by
  have hinside := entry_inside hentry
  have hpath := drop_path hentry
  have hpathAt : fullPathNameAt = 40 := rfl
  have hoffsetAt : offsetToFileNameAt = 38 := rfl
  have hsize : moduleSize = 296 := rfl
  have hadd : ∀ i, p + BitVec.ofNat 64 o + BitVec.ofNat 64 i = p + BitVec.ofNat 64 (o + i) := by
    intro i
    rw [BitVec.add_assoc, BitVec.ofNat_add]
  have hnul : 0 ∈ bytes.drop (o + fullPathNameAt) := by
    rw [hpath]
    exact List.mem_append_right _ hzero
  have hread : 0 ∈ m.fullPathName.toList →
      untilZero (bytes.drop (o + fullPathNameAt)) = m.pathBytes := by
    intro h
    rw [hpath]
    exact untilZero_path h rest
  -- the comparison is that of the path, where there is one
  have hmatch : 0 ∈ m.fullPathName.toList → moduleMatches u target m = moduleMatchesBytes u target
      (untilZero (bytes.drop (o + fullPathNameAt))) m.offsetToFileName.toNat := by
    intro h
    rw [hread h]
    rfl
  have hfound : moduleMatchesBytes u target (untilZero (bytes.drop (o + fullPathNameAt)))
      m.offsetToFileName.toNat = true → (copyModule (p + BitVec.ofNat 64 o) :
        BufferProg ε _).Wp Buffered.Serves Buffered.Permits post s := by
    intro h
    refine Prog.Wp.mono (fun _ _ h => h) (fun out s' hout => ?_)
      (copyModule_wp hblock hfits hentry)
    rw [hout.1, hout.2]
    exact hhit fun hterm => (hmatch hterm).trans h
  have hnext : moduleMatchesBytes u target (untilZero (bytes.drop (o + fullPathNameAt)))
      m.offsetToFileName.toNat = false → next.Wp Buffered.Serves Buffered.Permits post s :=
    fun h => hmiss fun hterm => (hmatch hterm).trans h
  rw [searchEntry, hadd fullPathNameAt]
  refine .bind (cStrFromPtr_wp hblock hfits hnul) (fun found t h => ?_) (fun e t h => by cases h.2)
    fun t h => by cases h.2
  obtain ⟨rfl, hfound'⟩ := h
  rw [Outcome.ok.inj hfound']
  by_cases hshort : (untilZero (bytes.drop (o + fullPathNameAt))).length < fuel
  · rw [if_pos hshort]
    dsimp only
    cases hdecode : decode (untilZero (bytes.drop (o + fullPathNameAt))) with
    | none => exact hnext (by rw [moduleMatchesBytes, hdecode])
    | some path =>
      refine .ite (fun heq => hfound ?_) fun hne => ?_
      · rw [moduleMatchesBytes, hdecode]
        exact if_pos heq
      · rw [hadd offsetToFileNameAt]
        refine load_wp hblock hfits rfl (by omega) fun bs hbs => ?_
        rw [hbs, take_offset hentry]
        cases hfile : comparedFile m.offsetToFileName.toNat (u.toLowercase path) with
        | none =>
          refine hnext ?_
          rw [moduleMatchesBytes, hdecode]
          dsimp only
          rw [if_neg hne, hfile]
        | some file =>
          have hcompare : moduleMatchesBytes u target
              (untilZero (bytes.drop (o + fullPathNameAt))) m.offsetToFileName.toNat =
                decide (file = target) := by
            rw [moduleMatchesBytes, hdecode]
            dsimp only
            rw [if_neg hne, hfile]
          exact .ite (fun h => hfound (hcompare.trans (decide_eq_true h))) fun h =>
            hnext (hcompare.trans (decide_eq_false h))
  · rw [if_neg hshort]
    refine hlong ?_ fun hterm => ?_
    · have hlen := untilZero_length_le (bytes.drop (o + fullPathNameAt))
      rw [List.length_drop] at hlen
      omega
    · rw [hread hterm] at hshort
      exact (Nat.le_of_not_lt hshort).trans_lt (pathBytes_length_lt hterm)

end

/-- What a search among `ms` may return. -/
structure Searched (u : Unicode) (target : List Char) (ms : List ModuleInformation)
    (fuel total : Nat) (res : Option (Option ModuleInformation)) : Prop where
  returns : total ≤ fuel → res ≠ none
  member : ∀ m, res = some (some m) → m ∈ ms
  exact : 256 ≤ fuel → (∀ m ∈ ms, 0 ∈ m.fullPathName.toList) →
    res = some (ms.find? (moduleMatches u target))

section
variable {u : Unicode} {target : List Char} {m : ModuleInformation}
  {ms : List ModuleInformation} {fuel total : Nat}

theorem Searched.miss {res : Option (Option ModuleInformation)}
    (hm : 0 ∈ m.fullPathName.toList → moduleMatches u target m = false)
    (h : Searched u target ms fuel total res) : Searched u target (m :: ms) fuel total res where
  returns := h.returns
  member m' hres := List.mem_cons_of_mem m (h.member m' hres)
  exact hfuel hnuls := by
    rw [List.find?_cons, hm (hnuls m List.mem_cons_self)]
    exact h.exact hfuel fun m' hm' => hnuls m' (List.mem_cons_of_mem m hm')

theorem Searched.hit (hm : 0 ∈ m.fullPathName.toList → moduleMatches u target m = true) :
    Searched u target (m :: ms) fuel total (some (some m)) where
  returns _ h := by cases h
  member m' hres := by
    rw [← Option.some.inj (Option.some.inj hres)]
    exact List.mem_cons_self
  exact _ hnuls := by rw [List.find?_cons, hm (hnuls m List.mem_cons_self)]

theorem Searched.long (hfuel : fuel < total) (hm : 0 ∈ m.fullPathName.toList → fuel < 256) :
    Searched u target (m :: ms) fuel total none where
  returns h := absurd h (Nat.not_le_of_lt hfuel)
  member _ h := by cases h
  exact hlarge hnuls := absurd hlarge (Nat.not_le_of_lt (hm (hnuls m List.mem_cons_self)))

theorem searchEntries_wp {ε : Type} {s : Buffered} {p : BitVec 64} {bytes rest : List Byte}
    {o : Nat} (hblock : s.block = some (p, bytes)) (hfits : bytes.length < 2^64)
    (hzero : 0 ∈ rest) (hentries : bytes.drop o = moduleCodec.encodeAll ms ++ rest) :
    (searchEntries u fuel target ms.length (p + BitVec.ofNat 64 o) : BufferProg ε _).Wp
      Buffered.Serves Buffered.Permits (fun out s' => s' = s ∧ ∃ res, out = .ok res ∧
        Searched u target ms fuel bytes.length res) s := by
  induction ms generalizing o with
  | nil => exact ⟨rfl, _, rfl, (fun _ h => by cases h), fun m h => (by cases h), fun _ _ => rfl⟩
  | cons m ms ih =>
    rw [Codec.encodeAll_cons, List.append_assoc] at hentries
    refine searchEntry_wp hblock hfits (List.mem_append_right _ hzero) hentries (fun hmiss => ?_)
      (fun hhit => ⟨rfl, _, rfl, .hit hhit⟩) fun hlong hterm => ⟨rfl, _, rfl, .long hlong hterm⟩
    rw [BitVec.add_assoc, ← BitVec.ofNat_add]
    refine Prog.Wp.mono (fun _ _ h => h) (fun out s' h => ?_) (ih (drop_next hentries))
    obtain ⟨rfl, res, rfl, hres⟩ := h
    exact ⟨rfl, res, rfl, hres.miss hmiss⟩

end

/-! The bytes that a query has written. -/

section
variable {bytes : List Byte} {len : Nat} {ms : List ModuleInformation}

theorem Holds.count (h : Holds (bytes.take len) ms) :
    bytes.take 4 = toLE 4 ms.length ∧ 4 ≤ len := by
  have hlen := congrArg List.length h.1
  rw [toLE_length, List.length_take, List.length_take] at hlen
  have hle : 4 ≤ len := by omega
  have hcount := h.1
  rw [List.take_take, Nat.min_eq_left hle] at hcount
  exact ⟨hcount, hle⟩

theorem Holds.entries (h : Holds (bytes.take len) ms) (hlen : len ≤ bytes.length) :
    bytes.drop modulesAt = moduleCodec.encodeAll ms ++
      bytes.drop (modulesAt + ms.length * moduleSize) ∧
      modulesAt + ms.length * moduleSize ≤ max len modulesAt := by
  obtain ⟨-, -, rest, hrest⟩ := h
  have hsize : (moduleCodec.encodeAll ms).length = ms.length * moduleSize :=
    moduleCodec.encodeAll_length ms
  have hlengths := congrArg List.length hrest
  rw [List.length_drop, List.length_take, Nat.min_eq_left hlen, List.length_append,
    hsize] at hlengths
  have hentries : (bytes.drop modulesAt).take (ms.length * moduleSize) =
      moduleCodec.encodeAll ms := by
    rw [List.drop_take] at hrest
    have htake := congrArg (List.take (ms.length * moduleSize)) hrest
    rwa [List.take_take, Nat.min_eq_left (by omega), List.take_left' hsize] at htake
  refine ⟨?_, by omega⟩
  rw [← List.drop_drop, ← hentries, List.take_append_drop]

/-- The bytes that the kernel was not told of end every path. -/
theorem zero_behind {k : Nat} (hzeros : bytes.drop len = List.replicate (3 * len) 0)
    (hlen : bytes.length = 4 * len) (hk : k < bytes.length) : 0 ∈ bytes.drop k := by
  have hlast : 0 ∈ bytes.drop (max k len) := by
    rw [show max k len = len + (k - len) by omega, ← List.drop_drop, hzeros, List.drop_replicate]
    exact List.mem_replicate.mpr ⟨by omega, rfl⟩
  exact List.drop_subset_drop_left bytes (Nat.le_max_left k len) hlast

end

/-- The search of a buffer that holds `ms`, which is then freed. -/
theorem searchBuffer_wp {ε : Type} {u : Unicode} {target : List Char} {fuel : Nat} {s : Buffered}
    {p : BitVec 64} {bytes : List Byte} {len : Nat} {ms : List ModuleInformation}
    (hblock : s.block = some (p, bytes)) (hsame : bytes.length = 4 * len)
    (hfits : bytes.length < 2^64) (hzeros : bytes.drop len = List.replicate (3 * len) 0)
    (hholds : Holds (bytes.take len) ms) : (searchBuffer u fuel target p : BufferProg ε _).Wp
      Buffered.Serves Buffered.Permits (fun o s' => ∃ res, o = .ok res ∧
        Searched u target ms fuel bytes.length res ∧
        s' = if res = none then s else { s with block := none }) s := by
  obtain ⟨hcount, hlen⟩ := hholds.count
  obtain ⟨hentries, hend⟩ := hholds.entries (by omega)
  refine load_wp hblock hfits (o := 0) (by simp) (by omega) fun count hcount' => ?_
  have hnumber : ofLE count.val = ms.length := by
    rw [hcount', List.drop_zero, hcount, ofLE_toLE]
    exact Nat.mod_eq_of_lt hholds.2.1
  rw [hnumber]
  have hat : modulesAt = 8 := rfl
  have hzero : 0 ∈ bytes.drop (modulesAt + ms.length * moduleSize) :=
    zero_behind hzeros hsame (by omega)
  refine .bind (searchEntries_wp hblock hfits hzero hentries) (fun found t h => ?_)
    (fun e t h => ?_) fun t h => ?_
  · obtain ⟨rfl, res, hres, hsearched⟩ := h
    obtain rfl := Outcome.ok.inj hres
    cases found with
    | none => exact ⟨none, rfl, hsearched, rfl⟩
    | some found => exact ⟨⟨_, hblock⟩, fun _ t ht => ⟨some found, rfl, hsearched, ht⟩⟩
  · obtain ⟨-, res, hres, -⟩ := h
    cases hres
  · obtain ⟨-, res, hres, -⟩ := h
    cases hres

/-! The query on the list of modules. -/

/-- The kernel's answers, with the modules it wrote. -/
def listAnswers (probe reply : QueryStatus) (ms : List ModuleInformation) :
    (q : SystemReq) → q.Answer
  | .zwQuerySystemInformation none => ⟨probe.status, probe.returnLength, []⟩
  | .zwQuerySystemInformation (some _) => ⟨reply.status, reply.returnLength, ms⟩
  | .rtlFindExportedRoutineByName .. => 0#64
  | .readPointer _ => 0#64
  | .copy _ n => ⟨List.replicate n 0#8, List.length_replicate⟩

section
variable {u : Unicode} {name : List Char} {probe reply : QueryStatus} {ms : List ModuleInformation}

theorem querySystemModule_refused (hname : name ≠ [])
    (hfail : probe.status ≠ statusInfoLengthMismatch ∧ ntSuccess probe.status = false) :
    (querySystemModule u name).calls (listAnswers probe reply ms) = [probed probe] ∧
      (querySystemModule u name).result (listAnswers probe reply ms) = .err probe.status := by
  rw [querySystemModule, if_neg hname, Prog.calls_ask, Prog.result_ask]
  constructor
  · exact congrArg (_ :: Prog.calls _ ·) (if_pos hfail)
  · exact congrArg (Prog.result _) (if_pos hfail)

theorem querySystemModule_listAnswers (hname : name ≠ [])
    (hprobe : ¬ (probe.status ≠ statusInfoLengthMismatch ∧ ntSuccess probe.status = false)) :
    (querySystemModule u name).calls (listAnswers probe reply ms) =
        [probed probe, replied probe.returnLength reply ms] ∧
      (querySystemModule u name).result (listAnswers probe reply ms) =
        if ntSuccess reply.status = false then .err reply.status else
        .ok (ms.find? (moduleMatches u (u.toLowercase name))) := by
  rw [querySystemModule, if_neg hname, Prog.calls_ask, Prog.result_ask]
  constructor
  · refine (congrArg (_ :: Prog.calls _ ·) (if_neg hprobe)).trans ?_
    rw [Prog.calls_ask]
    refine congrArg (fun cs => probed probe :: replied probe.returnLength reply ms :: cs) ?_
    split <;> rfl
  · refine (congrArg (Prog.result _) (if_neg hprobe)).trans ?_
    rw [Prog.result_ask]
    exact Prog.result_ite _ _ _ _

end

/-- What the query may return, and what it leaves. Where it does not panic, it has had the
    answers that `ans` gives to the query on the list of modules. -/
structure Queried (u : Unicode) (name : List Char) (fuel : Nat)
    (o : Outcome NtStatus (Option (Option ModuleInformation))) (s : Buffered) : Prop where
  returns : 2^34 ≤ fuel → o ≠ .ok none
  freed : o ≠ .ok none → s.block = none
  member : ∀ m, o = .ok (some (some m)) → m ∈ s.listed
  panics : o = .panic ↔ s.refused = true
  exact : o ≠ .panic → ∃ ans, (querySystemModule u name).calls ans = s.answered ∧
    (∀ e, o = .err e ↔ (querySystemModule u name).result ans = .err e) ∧
    (256 ≤ fuel → (∀ m ∈ s.listed, 0 ∈ m.fullPathName.toList) →
      o = ((querySystemModule u name).result ans).bind fun found => .ok (some found))

theorem Queried.of_err {u : Unicode} {name : List Char} {fuel : Nat} {e : NtStatus} {s : Buffered}
    {ans : (q : SystemReq) → q.Answer} (hs : s.block = none) (hrefused : s.refused = false)
    (hcalls : (querySystemModule u name).calls ans = s.answered)
    (h : (querySystemModule u name).result ans = .err e) : Queried u name fuel (.err e) s where
  returns _ h := by cases h
  freed _ := hs
  member _ h := by cases h
  panics := iff_of_false (fun h => by cases h) (by rw [hrefused]; decide)
  exact _ := ⟨ans, hcalls, fun _ => by rw [h, Outcome.err.injEq, Outcome.err.injEq],
    fun _ _ => by rw [h]; rfl⟩

theorem querySystemModuleIn_wp (u : Unicode) (name : List Char) (fuel : Nat)
    (ms : List ModuleInformation) : (querySystemModuleIn u fuel name).Wp Buffered.Serves
      Buffered.Permits (Queried u name fuel) (.start ms) := by
  refine .ite (fun hname => ?_) fun hname => ⟨.inl rfl, fun (probe : QueryStatus) s₁ h₁ => ?_⟩
  · refine @Queried.of_err u name fuel _ _ (listAnswers ⟨0, 0⟩ ⟨0, 0⟩ []) rfl rfl ?_ ?_
    · rw [querySystemModule, if_pos hname]
      rfl
    · rw [querySystemModule, if_pos hname, Prog.result_err]
  obtain rfl : s₁ = ⟨none, ms, [probed probe], false⟩ := h₁
  refine .ite (fun hfail => ?_) fun hprobe => ⟨rfl, fun (p : BitVec 64) s₂ h₂ => ?_⟩
  · obtain ⟨hcalls, hresult⟩ :=
      @querySystemModule_refused u name probe ⟨0, 0⟩ [] hname hfail
    exact .of_err rfl rfl hcalls hresult
  refine .ite (fun hp => ?_) fun hp => ?_
  · obtain rfl := (if_pos hp).mp h₂
    exact ⟨fun _ h => (by cases h), fun _ => rfl, fun _ h => (by cases h),
      iff_of_true rfl rfl, fun h => absurd rfl h⟩
  obtain rfl := (if_neg hp).mp h₂
  have hzeros : (List.replicate (4 * probe.returnLength.toNat) (0 : Byte)).length =
      4 * probe.returnLength.toNat := List.length_replicate
  refine ⟨.inr ⟨_, rfl, by omega⟩, fun (reply : QueryStatus) s₃ h₃ => ?_⟩
  obtain ⟨hanswered, hrefused, bytes, bytes', hblock, hblock', hsame, hrest, hholds⟩ :=
    (if_neg hp).mp h₃
  obtain ⟨-, rfl⟩ := Prod.mk.inj (Option.some.inj hblock)
  rw [hzeros] at hsame
  rw [List.drop_replicate] at hrest
  obtain ⟨hcalls, hresult⟩ :=
    @querySystemModule_listAnswers u name probe reply s₃.listed hname hprobe
  replace hcalls := hcalls.trans hanswered.symm
  refine .ite (fun hfail => ⟨⟨_, hblock'⟩, fun _ s₄ h₄ => ?_⟩) fun hok => ?_
  · obtain rfl := h₄
    exact .of_err rfl hrefused hcalls (hresult.trans (if_pos hfail))
  have hlt := probe.returnLength.isLt
  have hend := @searchBuffer_wp NtStatus u (u.toLowercase name) fuel _ _ _ _ _ hblock' hsame
    (by omega) (hrest.trans (by congr 1; omega)) (hholds (by simpa using hok))
  refine .mono (fun _ _ h => h) (fun o s₄ h => ?_) hend
  obtain ⟨res, rfl, hsearched, rfl⟩ := h
  rw [if_neg hok] at hresult
  have hkept : (if res = none then s₃ else { s₃ with block := none }).listed = s₃.listed ∧
      (if res = none then s₃ else { s₃ with block := none }).answered = s₃.answered ∧
      (if res = none then s₃ else { s₃ with block := none }).refused = false := by
    split <;> exact ⟨rfl, rfl, hrefused⟩
  obtain ⟨hlisted, hanswers, hnone⟩ := hkept
  constructor
  · intro hfuel h
    exact hsearched.returns (by omega) (Outcome.ok.inj h)
  · intro h
    rw [if_neg fun hres => h (by rw [hres])]
  · intro m h
    rw [hlisted]
    exact hsearched.member m (Outcome.ok.inj h)
  · exact iff_of_false (fun h => by cases h) (by rw [hnone]; decide)
  · intro _
    refine ⟨_, hcalls.trans hanswers.symm, fun e => ?_, fun hfuel hnuls => ?_⟩
    · rw [hresult]
      exact iff_of_false (fun h => by cases h) fun h => by cases h
    · rw [hlisted] at hnuls
      rw [hresult, hsearched.exact hfuel hnuls]
      rfl

/-- **The module list as bytes.** Whatever the kernel writes, the query reads the buffer only,
    and frees it on every path. It panics where the `vec` has no memory. Else its calls are
    those of the query on the list of modules, and it fails as that does. With terminated
    paths it returns what that returns; without, every path still ends in the buffer, and
    what is returned is one of the entries. -/
theorem querySystemModuleIn_refines (u : Unicode) (name : List Char) (fuel : Nat)
    (ms : List ModuleInformation) :
    (∀ t q, (querySystemModuleIn u fuel name).Poses Buffered.Serves (.start ms) t q →
      t.Permits q) ∧
    ∀ o s, (querySystemModuleIn u fuel name).Exec Buffered.Serves (.start ms) o s →
      (2^34 ≤ fuel → o ≠ .ok none) ∧ (o ≠ .ok none → s.block = none) ∧
      (∀ m, o = .ok (some (some m)) → m ∈ s.listed) ∧ (o = .panic ↔ s.refused = true) ∧
      (o ≠ .panic → ∃ ans, (querySystemModule u name).calls ans = s.answered ∧
        (∀ e, o = .err e ↔ (querySystemModule u name).result ans = .err e) ∧
        (256 ≤ fuel → (∀ m ∈ s.listed, 0 ∈ m.fullPathName.toList) →
          o = ((querySystemModule u name).result ans).bind fun found => .ok (some found))) := by
  obtain ⟨hposes, hexec⟩ := Prog.wp_iff.mp (querySystemModuleIn_wp u name fuel ms)
  refine ⟨hposes, fun o s h => ?_⟩
  have hqueried := hexec o s h
  exact ⟨hqueried.returns, hqueried.freed, hqueried.member, hqueried.panics, hqueried.exact⟩

theorem buffered_total (s : Buffered) (q : BufferReq) (h : s.Permits q) :
    ∃ r s', s.Serves q r s' := by
  cases q with
  | zwQuerySystemInformation buffer length =>
    by_cases hnull : buffer = 0
    · exact ⟨⟨0, 304⟩, _, (if_pos hnull).mpr rfl⟩
    · obtain ⟨bytes, hblock, -⟩ := h.resolve_left hnull
      have hfailed : ntSuccess statusInvalidParameter ≠ true := by decide
      let reply : QueryStatus := ⟨statusInvalidParameter, 304⟩
      exact ⟨reply, { s with answered := s.answered ++ [replied length reply s.listed] },
        (if_neg hnull).mpr ⟨rfl, rfl, bytes, bytes, hblock, hblock, rfl, rfl,
          fun h => absurd h hfailed⟩⟩
  | vec length => exact ⟨(0 : BitVec 64), { s with refused := true }, rfl⟩
  | load a n =>
    obtain ⟨p, bytes, hblock, hin⟩ := h
    have hlen : ((bytes.drop (a - p).toNat).take n).length = n := by
      rw [List.length_take, List.length_drop]
      omega
    exact ⟨⟨_, hlen⟩, s, rfl, p, bytes, hblock, rfl⟩
  | dropVec p => exact ⟨(), _, rfl⟩

/-! Two modules, of which the second is named. -/

def listedModules : List ModuleInformation :=
  [fixtureModule ['\\', 'a'] 1, fixtureModule kelvinPath 5]

theorem listedModules_find : listedModules.find? (moduleMatches fixtureUnicode
    (fixtureUnicode.toLowercase kelvinPath)) = some (fixtureModule kelvinPath 5) := by
  have hfirst : moduleMatches fixtureUnicode (fixtureUnicode.toLowercase kelvinPath)
      (fixtureModule ['\\', 'a'] 1) = false := by
    rw [moduleMatches, fixtureModule_path (by decide)]
    decide
  have hsecond : moduleMatches fixtureUnicode (fixtureUnicode.toLowercase kelvinPath)
      (fixtureModule kelvinPath 5) = true := by
    rw [moduleMatches, kelvin_path]
    decide
  rw [listedModules, List.find?_cons, hfirst, List.find?_cons, hsecond]

theorem listedModules_terminated : ∀ m ∈ listedModules, 0 ∈ m.fullPathName.toList := by
  intro m hm
  rcases List.mem_cons.mp hm with rfl | hm
  · decide
  · obtain rfl := List.mem_singleton.mp hm
    exact kelvin_wellNamed.1

/-- What the kernel writes. -/
def listedBytes : List Byte :=
  toLE 4 2 ++ (List.replicate 4 0 ++ moduleCodec.encodeAll listedModules)

theorem listedBytes_length : listedBytes.length = 600 := by
  rw [listedBytes, List.length_append, List.length_append, toLE_length, List.length_replicate,
    moduleCodec.encodeAll_length]
  rfl

theorem listedBytes_holds : Holds listedBytes listedModules :=
  ⟨List.take_left' (toLE_length _ _), by decide, [], by
    rw [listedBytes, ← List.append_assoc, List.append_nil]
    exact List.drop_left' (by rw [List.length_append, toLE_length]; rfl)⟩

def listedProbe : QueryStatus := ⟨statusInfoLengthMismatch, 600⟩
def listedReply : QueryStatus := ⟨0, 600⟩

/-- The list is in the buffer, whose other three quarters the kernel was not told of. -/
def listedBuffer : Buffered :=
  ⟨some (0x1000#64, listedBytes ++ List.replicate 1800 0), listedModules,
    [probed listedProbe, replied 600 listedReply listedModules], false⟩

/-- The kernel can answer so. -/
theorem listedBuffer_reached {o : Outcome NtStatus (Option (Option ModuleInformation))}
    {s : Buffered} {fuel : Nat} (hrest : (searchBuffer fixtureUnicode fuel
      (fixtureUnicode.toLowercase kelvinPath) 0x1000#64).Exec Buffered.Serves listedBuffer o s) :
    (querySystemModuleIn fixtureUnicode fuel kelvinPath).Exec Buffered.Serves (.start []) o s := by
  have hzeros : (List.replicate 2400 (0 : Byte)).drop 600 = List.replicate 1800 0 :=
    List.drop_replicate
  refine .ite_neg (by decide) ⟨listedProbe, ⟨none, [], [probed listedProbe], false⟩, rfl, ?_⟩
  refine .ite_neg (by decide) ⟨0x1000#64,
    ⟨some (0x1000#64, List.replicate 2400 0), [], [probed listedProbe], false⟩, rfl, ?_⟩
  refine .ite_neg (by decide) ⟨listedReply, listedBuffer, ?_, .ite_neg (by decide) hrest⟩
  refine ⟨rfl, rfl, List.replicate 2400 0, listedBytes ++ List.replicate 1800 0, rfl, rfl, ?_, ?_,
    fun _ => ?_⟩
  · rw [List.length_append, listedBytes_length, List.length_replicate, List.length_replicate]
  · exact (List.drop_left' listedBytes_length).trans hzeros.symm
  · exact (List.take_left' listedBytes_length).symm ▸ listedBytes_holds

theorem querySystemModuleIn_refines_kelvin : ∃ s,
    (querySystemModuleIn fixtureUnicode (2^34) kelvinPath).Exec Buffered.Serves (.start [])
        (.ok (some (some (fixtureModule kelvinPath 5)))) s ∧
      s.listed = listedModules ∧ s.refused = false ∧ s.block = none := by
  have hlen : (listedBytes ++ List.replicate 1800 (0 : Byte)).length = 4 * 600 := by
    rw [List.length_append, listedBytes_length, List.length_replicate]
  obtain ⟨o, s, hrest, res, rfl, hsearched, hs⟩ := Prog.exec_of_wp buffered_total
    (@searchBuffer_wp NtStatus fixtureUnicode (fixtureUnicode.toLowercase kelvinPath) (2^34)
      listedBuffer _ _ _ _ rfl hlen
      (by rw [hlen]; decide) (List.drop_left' listedBytes_length)
      (by rw [List.take_left' listedBytes_length]; exact listedBytes_holds))
  have hexec := listedBuffer_reached hrest
  obtain ⟨-, hends⟩ := querySystemModuleIn_refines fixtureUnicode kelvinPath (2^34) []
  obtain ⟨hreturns, hfreed, -, hpanics, hexact⟩ := hends _ s hexec
  rw [if_neg fun h => hreturns (Nat.le_refl _) (by rw [h])] at hs
  subst hs
  -- the answers were those of this kernel
  obtain ⟨ans, hcalls, -, hresult⟩ := hexact fun h => by cases h
  obtain ⟨hlisted, hfound⟩ := @querySystemModule_listAnswers fixtureUnicode kelvinPath listedProbe
    listedReply listedModules (by decide) (by decide)
  rw [Prog.result_of_calls (hcalls.trans hlisted.symm), hfound, if_neg (by decide),
    listedModules_find] at hresult
  obtain rfl : res = some (some (fixtureModule kelvinPath 5)) :=
    Outcome.ok.inj (hresult (by norm_num) listedModules_terminated)
  exact ⟨_, hexec, rfl, rfl, hfreed (hreturns (Nat.le_refl _))⟩

/-! The list at a pointer. -/

/-- **The entries behind a pointer.** They are `ms` exactly where the memory has their number
    and their bytes. -/
theorem modulesFromPtr_iff (mem : Mem 64) (ptr : BitVec 64) (hptr : ptr ≠ 0)
    (ms : List ModuleInformation) : modulesFromPtr mem ptr = ms ↔
      read mem ptr 4 = toLE 4 ms.length ∧ ms.length < 2^32 ∧
        read mem (ptr + BitVec.ofNat 64 modulesAt) (ms.length * moduleSize) =
          moduleCodec.encodeAll ms := by
  have hbytes := read_length mem (ptr + BitVec.ofNat 64 modulesAt)
  rw [modulesFromPtr, if_neg hptr]
  constructor
  · intro h
    have hcount : ms.length = ofLE (read mem ptr 4) := by
      rw [← h, Codec.decodeAll_length]
    have hlt := ofLE_lt (read mem ptr 4)
    have hheader := toLE_ofLE (read mem ptr 4)
    rw [read_length] at hlt hheader
    refine ⟨?_, ?_, ?_⟩
    · rw [hcount, hheader]
    · rw [hcount]
      exact hlt
    · have hall := moduleCodec.encodeAll_decodeAll (n := ofLE (read mem ptr 4))
        (hbytes (ofLE (read mem ptr 4) * moduleSize)).ge
      rw [h] at hall
      rw [hall, hcount]
      exact (List.take_of_length_le (hbytes _).le).symm
  · intro h
    obtain ⟨hheader, hlt, hentries⟩ := h
    have hcount : ofLE (read mem ptr 4) = ms.length := by
      rw [hheader, ofLE_toLE]
      exact Nat.mod_eq_of_lt hlt
    dsimp only
    rw [hcount, hentries]
    have hback := moduleCodec.decodeAll_encodeAll ms []
    rwa [List.append_nil] at hback

/-- A list of one module at `0x1000`. -/
def oneModuleMem : Mem 64 :=
  write (write (fun _ => 0) 0x1008#64 (moduleCodec.encodeAll [fixtureModule kelvinPath 5]))
    0x1000#64 (toLE 4 1)

theorem modulesFromPtr_iff_one :
    modulesFromPtr oneModuleMem 0x1000#64 = [fixtureModule kelvinPath 5] := by
  have hlen : (moduleCodec.encodeAll [fixtureModule kelvinPath 5]).length = 1 * moduleSize :=
    moduleCodec.encodeAll_length _
  refine (modulesFromPtr_iff oneModuleMem 0x1000#64 (by decide) _).mpr ⟨?_, by decide, ?_⟩
  · exact read_write _ _ _ (by decide)
  · have hoff : ∀ x, Within 0x1008#64 (1 * moduleSize) x → ¬ Within 0x1000#64 4 x :=
      fun x hx => hx.off (by decide) (by decide)
    calc read oneModuleMem 0x1008#64 (1 * moduleSize)
        _ = read (write (fun _ => 0) 0x1008#64 (moduleCodec.encodeAll [fixtureModule kelvinPath 5]))
            0x1008#64 (1 * moduleSize) := read_congr fun x hx => write_outside (hoff x hx)
        _ = moduleCodec.encodeAll [fixtureModule kelvinPath 5] := by
          rw [← hlen]
          exact read_write _ _ _ (by rw [hlen]; decide)

end WinKernl
