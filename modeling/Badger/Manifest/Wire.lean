import Badger.Manifest.Basic

/-!
# Record framing and the change-set codec

* `beU32` / `readU32`: `write_u32` and `read_u32::<BigEndian>` of `byteorder`/tokio.
* `crc32`: `crc32fast::hash`, CRC-32 with the reflected IEEE polynomial `0xEDB88320`. A shift
  of its register is linear in exclusive or and sends only zero to zero, so two payloads that
  differ in one byte have different CRCs (`crc32_set_ne`).
* `frameRecord`: one manifest record, `u32 BE length | u32 BE CRC32 | payload`
  (manifest.rs:81-85 and :128-132).
* `encodeChangeSet` / `parseChangeSet`: `write_to_bytes` and `parse_from_bytes` of the generated
  protobuf code, which is not in the sources. Modelled from the spec's schema
  `ChangeSet { repeated Change changes = 1 }`, `Change { uint64 Id = 1; Op op = 2; uint32 Level = 3 }`
  in protobuf's wire format: proto3 omits zero fields, a parser skips fields it does not know
  (groups are rejected), `uint32`/`int32` take the low 32 bits of the varint. The main result is
  `parseChangeSet_encodeChangeSet`.
-/

namespace Badger

/-! ## Big-endian `u32` -/

@[simp] theorem toNat_ofNat_u8 (n : Nat) : (UInt8.ofNat n).toNat = n % 256 := BitVec.toNat_ofNat n 8

@[simp] theorem toNat_ofNat_u32 (n : Nat) : (UInt32.ofNat n).toNat = n % 2 ^ 32 := BitVec.toNat_ofNat n 32

def beU32 (v : UInt32) : List UInt8 :=
  [UInt8.ofNat (v.toNat / 2 ^ 24), UInt8.ofNat (v.toNat / 2 ^ 16), UInt8.ofNat (v.toNat / 2 ^ 8),
    UInt8.ofNat v.toNat]

/-- `read_u32::<BigEndian>`: `none` when fewer than four bytes are left (an `UnexpectedEof`). -/
def readU32 : List UInt8 → Option (UInt32 × List UInt8)
  | b0 :: b1 :: b2 :: b3 :: rest =>
    some (UInt32.ofNat (b0.toNat * 2 ^ 24 + b1.toNat * 2 ^ 16 + b2.toNat * 2 ^ 8 + b3.toNat), rest)
  | _ => none

@[simp] theorem length_beU32 (v : UInt32) : (beU32 v).length = 4 := rfl

@[simp] theorem readU32_beU32 (v : UInt32) (rest : List UInt8) :
    readU32 (beU32 v ++ rest) = some (v, rest) := by
  have hv := v.toNat_lt_size
  simp only [beU32, readU32, List.cons_append, List.nil_append, Option.some.injEq, Prod.mk.injEq, and_true]
  apply UInt32.toNat.inj
  simp only [toNat_ofNat_u8, toNat_ofNat_u32]
  simp only [UInt32.size] at hv
  omega

theorem readU32_eq_none {bs : List UInt8} : readU32 bs = none ↔ bs.length < 4 := by
  match bs with
  | [] | [_] | [_, _] | [_, _, _] => simp [readU32]
  | _ :: _ :: _ :: _ :: _ => simp [readU32]

theorem readU32_eq_some {bs rest : List UInt8} {v : UInt32} (h : readU32 bs = some (v, rest)) :
    bs = bs.take 4 ++ rest := by
  match bs, h with
  | _ :: _ :: _ :: _ :: _, h => simp only [readU32, Option.some.injEq, Prod.mk.injEq] at h; simp [h.2]

/-- `read_u32` reads back the four bytes it parsed. -/
theorem readU32_eq_beU32 {bs rest : List UInt8} {v : UInt32} (h : readU32 bs = some (v, rest)) :
    bs = beU32 v ++ rest := by
  match bs, h with
  | b0 :: b1 :: b2 :: b3 :: _, h =>
    simp only [readU32, Option.some.injEq, Prod.mk.injEq] at h
    obtain ⟨rfl, rfl⟩ := h
    have h0 := b0.toNat_lt_size; have h1 := b1.toNat_lt_size
    have h2 := b2.toNat_lt_size; have h3 := b3.toNat_lt_size
    simp only [UInt8.size] at h0 h1 h2 h3
    simp only [beU32, toNat_ofNat_u32, List.cons_append, List.nil_append, List.cons.injEq, and_true]
    refine ⟨?_, ?_, ?_, ?_⟩ <;> apply UInt8.toNat.inj <;> simp only [toNat_ofNat_u8] <;> omega

/-! ## CRC-32 -/

/-- One bit of the reflected shift register. -/
def crc32Shift (c : UInt32) : UInt32 := if c &&& 1 = 1 then (c >>> 1) ^^^ 0xEDB88320 else c >>> 1

/-- One byte into the register. -/
def crc32Update (crc : UInt32) (b : UInt8) : UInt32 := crc32Shift^[8] (crc ^^^ b.toUInt32)

/-- `crc32fast::hash`. -/
def crc32 (bs : List UInt8) : UInt32 := bs.foldl crc32Update 0xFFFFFFFF ^^^ 0xFFFFFFFF

example : crc32 [] = 0 := by decide

/-! ## CRC-32 detects a changed byte -/

theorem toBitVec_xor_u32 (a b : UInt32) : (a ^^^ b).toBitVec = a.toBitVec ^^^ b.toBitVec := rfl

theorem toBitVec_and_u32 (a b : UInt32) : (a &&& b).toBitVec = a.toBitVec &&& b.toBitVec := rfl

theorem and_one_eq_one_u32 (c : UInt32) : c &&& 1 = 1 ↔ c.toBitVec.getLsbD 0 = true := by
  constructor
  · intro h
    have := congrArg (fun x : UInt32 => x.toBitVec.getLsbD 0) h
    simpa [toBitVec_and_u32] using this
  · intro h
    apply UInt32.eq_of_toBitVec_eq
    apply BitVec.eq_of_getLsbD_eq
    intro ⟨i, hi⟩
    rw [toBitVec_and_u32]
    rcases Nat.eq_zero_or_pos i with rfl | hi0
    · simp [h]
    · simp [Nat.pos_iff_ne_zero.1 hi0]

/-- `crc32Shift` on the bits. -/
theorem crc32Shift_toBitVec (c : UInt32) : (crc32Shift c).toBitVec =
    if c.toBitVec.getLsbD 0 then (c.toBitVec >>> 1) ^^^ (0xEDB88320 : UInt32).toBitVec else c.toBitVec >>> 1 := by
  unfold crc32Shift
  by_cases h : c.toBitVec.getLsbD 0 = true
  · rw [if_pos ((and_one_eq_one_u32 c).2 h), if_pos h]; rfl
  · rw [if_neg (mt (and_one_eq_one_u32 c).1 h), if_neg h]; rfl

theorem xor_cancel_bv (a b p : BitVec 32) : a ^^^ p ^^^ (b ^^^ p) = a ^^^ b := by
  rw [BitVec.xor_assoc a p (b ^^^ p), ← BitVec.xor_assoc p b p, BitVec.xor_comm p b,
    BitVec.xor_assoc b p p, BitVec.xor_self, BitVec.xor_zero]

/-- A shift of the register is linear in exclusive or. -/
theorem crc32Shift_xor (a b : UInt32) : crc32Shift (a ^^^ b) = crc32Shift a ^^^ crc32Shift b := by
  apply UInt32.eq_of_toBitVec_eq
  simp only [crc32Shift_toBitVec, toBitVec_xor_u32, BitVec.getLsbD_xor, BitVec.ushiftRight_xor_distrib]
  cases a.toBitVec.getLsbD 0 <;> cases b.toBitVec.getLsbD 0 <;> simp <;>
    first | ac_rfl | exact (xor_cancel_bv _ _ _).symm

/-- Only the zero register shifts to zero: the top bit of `0xEDB88320` is set. -/
theorem crc32Shift_eq_zero {a : UInt32} (h : crc32Shift a = 0) : a = 0 := by
  have hb := congrArg UInt32.toBitVec h
  rw [crc32Shift_toBitVec] at hb
  apply UInt32.eq_of_toBitVec_eq
  split at hb
  · have := congrArg (fun x : BitVec 32 => x.getLsbD 31) hb
    simp at this
  · next h0 =>
    apply BitVec.eq_of_getLsbD_eq
    intro ⟨i, hi⟩
    rcases i with _ | i
    · simpa using h0
    · have := congrArg (fun x : BitVec 32 => x.getLsbD i) hb
      simp only [BitVec.getLsbD_ushiftRight] at this
      simpa [Nat.add_comm] using this

theorem crc32Shift_iterate_xor (n : Nat) (a b : UInt32) :
    crc32Shift^[n] (a ^^^ b) = crc32Shift^[n] a ^^^ crc32Shift^[n] b := by
  induction n with
  | zero => rfl
  | succ n ih => simp only [Function.iterate_succ_apply', ih, crc32Shift_xor]

theorem crc32Shift_iterate_eq_zero {n : Nat} {a : UInt32} (h : crc32Shift^[n] a = 0) : a = 0 := by
  induction n with
  | zero => exact h
  | succ n ih => exact ih (crc32Shift_eq_zero (by rwa [Function.iterate_succ_apply'] at h))

theorem xor_eq_zero_u32 {a b : UInt32} (h : a ^^^ b = 0) : a = b := by
  have hb := congrArg UInt32.toBitVec h
  apply UInt32.eq_of_toBitVec_eq
  rw [toBitVec_xor_u32] at hb
  calc a.toBitVec = a.toBitVec ^^^ b.toBitVec ^^^ b.toBitVec := by
        rw [BitVec.xor_assoc, BitVec.xor_self, BitVec.xor_zero]
    _ = b.toBitVec := by rw [hb]; exact BitVec.zero_xor

/-- Two registers fed the same byte differ by eight shifts of their difference. -/
theorem crc32Update_xor (u u' : UInt32) (c : UInt8) :
    crc32Update u c ^^^ crc32Update u' c = crc32Shift^[8] (u ^^^ u') := by
  rw [crc32Update, crc32Update, ← crc32Shift_iterate_xor]
  congr 1
  apply UInt32.eq_of_toBitVec_eq
  exact xor_cancel_bv _ _ _

/-- Two registers fed the same bytes differ by the shifts of their difference. -/
theorem foldl_crc32Update_xor (bs : List UInt8) : ∀ u u' : UInt32,
    bs.foldl crc32Update u ^^^ bs.foldl crc32Update u' = crc32Shift^[8 * bs.length] (u ^^^ u') := by
  induction bs with
  | nil => intro u u'; rfl
  | cons c bs ih =>
    intro u u'
    rw [List.foldl_cons, List.foldl_cons, ih, crc32Update_xor, ← Function.iterate_add_apply,
      List.length_cons, Nat.mul_succ]

/-- One register fed two bytes: eight shifts of the difference of the bytes. -/
theorem crc32Update_xor_byte (u : UInt32) (b c : UInt8) :
    crc32Update u b ^^^ crc32Update u c = crc32Shift^[8] (b.toUInt32 ^^^ c.toUInt32) := by
  rw [crc32Update, crc32Update, ← crc32Shift_iterate_xor]
  congr 1
  apply UInt32.eq_of_toBitVec_eq
  simp only [toBitVec_xor_u32]
  rw [BitVec.xor_comm u.toBitVec, BitVec.xor_comm u.toBitVec]
  exact xor_cancel_bv _ _ _

theorem toUInt32_inj_u8 {a b : UInt8} (h : a.toUInt32 = b.toUInt32) : a = b :=
  UInt8.toNat.inj (congrArg UInt32.toNat h)

/-- **CRC-32 tells apart two payloads that differ in one byte.** After the changed byte the two
registers differ by eight shifts of the difference of the bytes, every later byte shifts that
difference eight more times, and a shift sends only zero to zero. -/
theorem crc32_set_ne (bs : List UInt8) {k : Nat} (hk : k < bs.length) {b : UInt8} (hb : b ≠ bs[k]) :
    crc32 (bs.set k b) ≠ crc32 bs := by
  intro h
  have hsplit : bs = bs.take k ++ bs[k] :: bs.drop (k + 1) := by
    rw [← List.drop_eq_getElem_cons hk, List.take_append_drop]
  have hset : bs.set k b = bs.take k ++ b :: bs.drop (k + 1) := by
    rw [List.set_eq_take_append_cons_drop, if_pos hk]
  have hregs : (bs.set k b).foldl crc32Update 0xFFFFFFFF ^^^ bs.foldl crc32Update 0xFFFFFFFF = 0 := by
    have := congrArg UInt32.toBitVec h
    apply UInt32.eq_of_toBitVec_eq
    simp only [crc32, toBitVec_xor_u32] at this ⊢
    rw [← xor_cancel_bv _ _ (0xFFFFFFFF : UInt32).toBitVec, this, BitVec.xor_self]
    rfl
  rw [hset, congrArg (List.foldl crc32Update 0xFFFFFFFF) hsplit, List.foldl_append, List.foldl_append, List.foldl_cons, List.foldl_cons, foldl_crc32Update_xor,
    crc32Update_xor_byte] at hregs
  exact hb (toUInt32_inj_u8 (xor_eq_zero_u32 (crc32Shift_iterate_eq_zero (crc32Shift_iterate_eq_zero hregs))))

/-- One record as `add_changes` and `help_rewrite` write it. -/
def frameRecord (payload : List UInt8) : List UInt8 :=
  beU32 (UInt32.ofNat payload.length) ++ beU32 (crc32 payload) ++ payload

/-! ## Varints -/

/-- Base-128 digits, low first; `fuel` bounds the number of digits. -/
def varintAux : Nat → Nat → List UInt8
  | 0, n => [UInt8.ofNat n]
  | fuel + 1, n => if n < 128 then [UInt8.ofNat n] else UInt8.ofNat (n % 128 + 128) :: varintAux fuel (n / 128)

def varint (n : Nat) : List UInt8 := varintAux n n

def decodeVarint : List UInt8 → Option (Nat × List UInt8)
  | [] => none
  | b :: bs =>
    if b.toNat < 128 then some (b.toNat, bs)
    else (decodeVarint bs).map fun p => (b.toNat - 128 + 128 * p.1, p.2)

theorem decodeVarint_varintAux (rest : List UInt8) :
    ∀ fuel n, n ≤ fuel → decodeVarint (varintAux fuel n ++ rest) = some (n, rest)
  | 0, n, h => by
    obtain rfl : n = 0 := by omega
    rfl
  | fuel + 1, n, h => by
    unfold varintAux
    split
    · simp [decodeVarint, Nat.mod_eq_of_lt (show n < 256 by omega), *]
    · have hn : (n % 128 + 128) % 256 = n % 128 + 128 := Nat.mod_eq_of_lt (by omega)
      simp only [List.cons_append, List.append_eq, decodeVarint, toNat_ofNat_u8, hn,
        decodeVarint_varintAux rest fuel (n / 128) (by omega), show ¬n % 128 + 128 < 128 by omega,
        if_false, Option.map_some', Option.some.injEq, Prod.mk.injEq, and_true]
      omega

@[simp] theorem decodeVarint_varint (n : Nat) (rest : List UInt8) :
    decodeVarint (varint n ++ rest) = some (n, rest) :=
  decodeVarint_varintAux rest n n (Nat.le_refl n)

theorem length_varint_pos (n : Nat) : 0 < (varint n).length := by
  unfold varint; cases n <;> simp only [varintAux]
  · simp
  · split <;> simp

/-! ## The change-set codec -/

/-- A protobuf `int32` on the wire: a negative value is sign-extended to 64 bits. -/
def int32Wire (v : UInt32) : Nat := if v.toNat < 2 ^ 31 then v.toNat else v.toNat + (2 ^ 64 - 2 ^ 32)

/-- A varint field, left out when its value is zero (proto3). -/
def encodeVarintField (tag v : Nat) : List UInt8 := if v = 0 then [] else varint tag ++ varint v

def encodeChange (c : ManifestChange) : List UInt8 :=
  encodeVarintField 8 c.id.toNat ++ encodeVarintField 16 (int32Wire c.op) ++
    encodeVarintField 24 c.level.toNat

/-- `ManifestChangeSet::write_to_bytes`: every change as field 1, length-delimited. -/
def encodeChangeSet (mfSet : ManifestChangeSet) : List UInt8 :=
  mfSet.changes.flatMap fun c => varint 10 ++ varint (encodeChange c).length ++ encodeChange c

@[simp] theorem encodeChangeSet_append (xs ys : List ManifestChange) :
    encodeChangeSet ⟨xs ++ ys⟩ = encodeChangeSet ⟨xs⟩ ++ encodeChangeSet ⟨ys⟩ := by
  simp [encodeChangeSet]

/-- A batch of `n` copies of the same changes encodes to `n` times their bytes. -/
theorem length_encodeChangeSet_replicate (xs : List ManifestChange) (n : Nat) :
    (encodeChangeSet ⟨(List.replicate n xs).flatten⟩).length = n * (encodeChangeSet ⟨xs⟩).length := by
  induction n with
  | zero => simp [encodeChangeSet]
  | succ n ih =>
    rw [List.replicate_succ, List.flatten_cons, encodeChangeSet_append, List.length_append, ih, Nat.succ_mul]
    omega

/-- Skips the value of a field the message does not know, by its wire type. -/
def skipField (wireType : Nat) (bs : List UInt8) : Option (List UInt8) :=
  match wireType with
  | 0 => (decodeVarint bs).map (·.2)
  | 1 => if 8 ≤ bs.length then some (bs.drop 8) else none
  | 2 => (decodeVarint bs).bind fun p => if p.1 ≤ p.2.length then some (p.2.drop p.1) else none
  | 5 => if 4 ≤ bs.length then some (bs.drop 4) else none
  | _ => none


/-- The known fields of `ManifestChange::merge_from`: `Id` (tag 8), `Op` (16), `Level` (24). -/
def setChangeField (tag v : Nat) (c : ManifestChange) : ManifestChange :=
  if tag = 8 then { c with id := UInt64.ofNat v }
  else if tag = 16 then { c with op := UInt32.ofNat v }
  else { c with level := UInt32.ofNat v }


def parseChangeFields : Nat → List UInt8 → ManifestChange → Option ManifestChange
  | _, [], c => some c
  | 0, _ :: _, _ => none
  | fuel + 1, b :: bs, c =>
    match decodeVarint (b :: bs) with
    | none => none
    | some (tag, r) =>
      if tag = 8 ∨ tag = 16 ∨ tag = 24 then
        match decodeVarint r with
        | none => none
        | some (v, r2) => parseChangeFields fuel r2 (setChangeField tag v c)
      else if tag < 8 then none
      else
        match skipField (tag % 8) r with
        | none => none
        | some r3 => parseChangeFields fuel r3 c

def parseChange (bs : List UInt8) : Option ManifestChange := parseChangeFields bs.length bs ⟨0, 0, 0⟩

def parseChangeSetFields : Nat → List UInt8 → List ManifestChange → Option (List ManifestChange)
  | _, [], acc => some acc
  | 0, _ :: _, _ => none
  | fuel + 1, b :: bs, acc =>
    match decodeVarint (b :: bs) with
    | none => none
    | some (tag, r) =>
      if tag = 10 then
        match decodeVarint r with
        | none => none
        | some (n, r2) =>
          if n ≤ r2.length then
            match parseChange (r2.take n) with
            | none => none
            | some c => parseChangeSetFields fuel (r2.drop n) (acc ++ [c])
          else none
      else if tag < 8 then none
      else
        match skipField (tag % 8) r with
        | none => none
        | some r3 => parseChangeSetFields fuel r3 acc

/-- `ManifestChangeSet::parse_from_bytes`. The field loops take `bs.length` as fuel: every field
consumes a byte at least. -/
def parseChangeSet (bs : List UInt8) : Option ManifestChangeSet :=
  (parseChangeSetFields bs.length bs []).map (⟨·⟩)

/-- A list that starts with a varint is a cons, so the field loops take a step on it. -/
theorem exists_cons_of_varint (n : Nat) (rest : List UInt8) : ∃ b bs, varint n ++ rest = b :: bs := by
  have := length_varint_pos n
  cases h : varint n ++ rest with
  | nil => have := congrArg List.length h; simp only [List.length_append, List.length_nil] at this; omega
  | cons b bs => exact ⟨b, bs, rfl⟩

theorem parseChangeFields_nil (fuel : Nat) (c : ManifestChange) : parseChangeFields fuel [] c = some c := by
  cases fuel <;> rfl

theorem parseChangeFields_encodeVarintField {tag : Nat} (htag : tag = 8 ∨ tag = 16 ∨ tag = 24)
    (v : Nat) (rest : List UInt8) (c : ManifestChange) (fuel : Nat)
    (hf : (encodeVarintField tag v ++ rest).length ≤ fuel) :
    ∃ fuel', rest.length ≤ fuel' ∧ parseChangeFields fuel (encodeVarintField tag v ++ rest) c =
      parseChangeFields fuel' rest (if v = 0 then c else setChangeField tag v c) := by
  unfold encodeVarintField at hf ⊢
  split
  · exact ⟨fuel, by simpa [*] using hf, by simp [*]⟩
  · rename_i hv
    have hlen := length_varint_pos tag
    simp only [hv, if_false, List.length_append] at hf
    obtain ⟨f, rfl⟩ : ∃ f, fuel = f + 1 := ⟨fuel - 1, by omega⟩
    refine ⟨f, by omega, ?_⟩
    obtain ⟨b, bs, hb⟩ := exists_cons_of_varint tag (varint v ++ rest)
    have hd := decodeVarint_varint tag (varint v ++ rest)
    rw [hb] at hd
    rw [List.append_assoc, hb, parseChangeFields, hd]
    simp [htag, hv]

@[simp] theorem toNat_ofNat_u64 (n : Nat) : (UInt64.ofNat n).toNat = n % 2 ^ 64 := BitVec.toNat_ofNat n 64

theorem ofNat_int32Wire (v : UInt32) : UInt32.ofNat (int32Wire v) = v := by
  apply UInt32.toNat.inj
  have := v.toNat_lt_size
  simp only [UInt32.size] at this
  unfold int32Wire; split <;> simp <;> omega

theorem parseChange_encodeChange (c : ManifestChange) : parseChange (encodeChange c) = some c := by
  unfold parseChange
  generalize hL : (encodeChange c).length = L
  rw [encodeChange, List.append_assoc]
  obtain ⟨f1, h1, e1⟩ := parseChangeFields_encodeVarintField (.inl rfl) c.id.toNat
    (encodeVarintField 16 (int32Wire c.op) ++ encodeVarintField 24 c.level.toNat) ⟨0, 0, 0⟩ L
    (by rw [← hL]; simp [encodeChange, Nat.add_assoc])
  obtain ⟨f2, h2, e2⟩ := parseChangeFields_encodeVarintField (.inr (.inl rfl)) _ _ _ _ h1
  obtain ⟨f3, -, e3⟩ := parseChangeFields_encodeVarintField (.inr (.inr rfl)) _ [] _ _
    (by simpa using h2)
  rw [e1, e2, ← List.append_nil (encodeVarintField 24 _), e3, parseChangeFields_nil]
  have keep : ∀ tag {v} {c : ManifestChange}, setChangeField tag 0 c = c →
      (if v = 0 then c else setChangeField tag v c) = setChangeField tag v c := by
    intro tag v c h; split <;> simp_all
  rw [keep 8 rfl, keep 16 rfl, keep 24 rfl]
  obtain ⟨id, op, level⟩ := c
  have hid : UInt64.ofNat id.toNat = id := UInt64.toNat.inj (by simp [Nat.mod_eq_of_lt id.toNat_lt_size])
  have hlv : UInt32.ofNat level.toNat = level :=
    UInt32.toNat.inj (by simp [Nat.mod_eq_of_lt level.toNat_lt_size])
  simp [setChangeField, ofNat_int32Wire, hid, hlv]

theorem encodeChangeSet_cons (c : ManifestChange) (cs : List ManifestChange) :
    encodeChangeSet ⟨c :: cs⟩ =
      varint 10 ++ (varint (encodeChange c).length ++ (encodeChange c ++ encodeChangeSet ⟨cs⟩)) := by
  simp [encodeChangeSet]

theorem parseChangeSetFields_encode (cs acc : List ManifestChange) (fuel : Nat)
    (hf : (encodeChangeSet ⟨cs⟩).length ≤ fuel) :
    parseChangeSetFields fuel (encodeChangeSet ⟨cs⟩) acc = some (acc ++ cs) := by
  induction cs generalizing acc fuel with
  | nil => cases fuel <;> simp [encodeChangeSet, parseChangeSetFields]
  | cons c cs ih =>
    rw [encodeChangeSet_cons] at hf ⊢
    simp only [List.length_append] at hf
    have hlen := length_varint_pos 10
    obtain ⟨f, rfl⟩ : ∃ f, fuel = f + 1 := ⟨fuel - 1, by omega⟩
    obtain ⟨b, bs, hb⟩ := exists_cons_of_varint 10
      (varint (encodeChange c).length ++ (encodeChange c ++ encodeChangeSet ⟨cs⟩))
    have hd := decodeVarint_varint 10
      (varint (encodeChange c).length ++ (encodeChange c ++ encodeChangeSet ⟨cs⟩))
    rw [hb] at hd
    rw [hb, parseChangeSetFields, hd]
    simp [parseChange_encodeChange, ih _ f (by omega)]

theorem parseChangeSet_encodeChangeSet (mfSet : ManifestChangeSet) :
    parseChangeSet (encodeChangeSet mfSet) = some mfSet := by
  simp [parseChangeSet, parseChangeSetFields_encode _ _ _ (Nat.le_refl _)]

end Badger
