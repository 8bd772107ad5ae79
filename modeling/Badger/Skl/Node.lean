import Mathlib.Data.List.Basic
import Mathlib.Algebra.Order.Ring.Nat

/-!
# The skiplist's data: `Node`, the arena and `SkipList` (skl/mod.rs:22-216, 477-483)

| here | there |
| --- | --- |
| `compareBytes` | `key.cmp(next_key.get_data())`, `Ord` of `[u8]` |
| `Node` | `Node` (mod.rs:28-51) |
| `Node.key` | `Node::key` (mod.rs:96-99): `get_key(key_offset, key_size)` |
| `encodeValue` / `decodeValue` | `Node::encode_value` / `Node::decode_value` (mod.rs:144-152) |
| `SkipList` | `SkipList` (mod.rs:156-161), with its arena |
| `Node.new` | `Node::new` (mod.rs:67-84) |
| `SkipList.new` | `SkipList::new` (mod.rs:168-178) |
| `randomHeight` | `SkipList::random_height` (mod.rs:477-483) |
| `SkipList.getVal` | `arena.get_val(value_offset, value_size)` (mod.rs:463) |

The arena (`skl::arena`) and `y::ValueStruct` are not in the sources and are modelled from the
spec: node offset `o ≥ 1` is the `o`-th node allocation and offset 0 is null, the head being the
first; `put_key` keeps all the bytes of a key, and `get_key(offset, size)` reads `size` of them;
a fresh node's tower is zero. The arena is taken large enough for every allocation.
-/

namespace Badger.Skl

/-- `MAX_HEIGHT`. -/
def maxHeight : Nat := 20

/-- `HEIGHT_INCREASE`, `u32::MAX / 3`. -/
def heightIncrease : UInt32 := 0xFFFFFFFF / 3

/-! ## Keys -/

/-- `Ord::cmp` of byte slices: lexicographic, a proper prefix first. -/
def compareBytes : List UInt8 → List UInt8 → Ordering
  | [], [] => .eq
  | [], _ :: _ => .lt
  | _ :: _, [] => .gt
  | a :: as, b :: bs => if a < b then .lt else if b < a then .gt else compareBytes as bs

/-- `a < b` as byte slices. -/
def KeyLt (a b : List UInt8) : Prop := compareBytes a b = .lt

instance (a b : List UInt8) : Decidable (KeyLt a b) := inferInstanceAs (Decidable (_ = _))

theorem lt_iff_toNat_lt_u8 {a b : UInt8} : a < b ↔ a.toNat < b.toNat := Iff.rfl

theorem eq_of_not_lt_u8 {a b : UInt8} (h1 : ¬ a < b) (h2 : ¬ b < a) : a = b := by
  rw [lt_iff_toNat_lt_u8] at h1 h2
  exact UInt8.toNat.inj (by omega)

theorem ne_of_lt_u8 {a b : UInt8} (h : a < b) : a ≠ b := fun e => by
  rw [lt_iff_toNat_lt_u8, e] at h; omega

theorem compareBytes_swap : ∀ a b : List UInt8, compareBytes b a = (compareBytes a b).swap
  | [], [] | [], _ :: _ | _ :: _, [] => rfl
  | a :: as, b :: bs => by
    simp only [compareBytes]
    by_cases h1 : a < b
    · have h2 : ¬ b < a := by rw [lt_iff_toNat_lt_u8] at *; omega
      simp [h1, h2, Ordering.swap]
    · by_cases h2 : b < a
      · simp [h1, h2, Ordering.swap]
      · simp [h1, h2, compareBytes_swap as bs]

@[simp] theorem compareBytes_eq_iff : ∀ {a b : List UInt8}, compareBytes a b = .eq ↔ a = b
  | [], [] | [], _ :: _ | _ :: _, [] => by simp [compareBytes]
  | a :: as, b :: bs => by
    simp only [compareBytes, List.cons.injEq]
    by_cases h1 : a < b
    · simp [h1, ne_of_lt_u8 h1]
    · by_cases h2 : b < a
      · simp [h1, h2, (ne_of_lt_u8 h2).symm]
      · simp [h1, h2, compareBytes_eq_iff, eq_of_not_lt_u8 h1 h2]

theorem compareBytes_gt_iff {a b : List UInt8} : compareBytes a b = .gt ↔ KeyLt b a := by
  rw [KeyLt, compareBytes_swap a b]
  cases compareBytes a b <;> simp [Ordering.swap]

theorem keyLt_cons_cons {a b : UInt8} {as bs : List UInt8} :
    KeyLt (a :: as) (b :: bs) ↔ a < b ∨ a = b ∧ KeyLt as bs := by
  simp only [KeyLt, compareBytes]
  by_cases h1 : a < b
  · simp [h1]
  · by_cases h2 : b < a
    · simp [h1, h2, (ne_of_lt_u8 h2).symm]
    · simp [h1, h2, eq_of_not_lt_u8 h1 h2]

theorem KeyLt.irrefl (a : List UInt8) : ¬ KeyLt a a := by
  simp [KeyLt, compareBytes_eq_iff.2 rfl]

/-- No key is below the empty one. -/
theorem not_keyLt_nil (a : List UInt8) : ¬ KeyLt a [] := by
  cases a <;> simp [KeyLt, compareBytes]

theorem KeyLt.trans : ∀ {a b c : List UInt8}, KeyLt a b → KeyLt b c → KeyLt a c
  | [], [], _, h, _ | _ :: _, [], _, h, _ | [], _ :: _, [], _, h | _ :: _, _ :: _, [], _, h => by
    simp [KeyLt, compareBytes] at h
  | [], _ :: _, _ :: _, _, _ => rfl
  | a :: as, b :: bs, c :: cs, h1, h2 => by
    rw [keyLt_cons_cons] at *
    rcases h1 with h1 | ⟨rfl, h1⟩ <;> rcases h2 with h2 | ⟨rfl, h2⟩
    · exact .inl (by rw [lt_iff_toNat_lt_u8] at *; omega)
    · exact .inl h1
    · exact .inl h2
    · exact .inr ⟨rfl, KeyLt.trans h1 h2⟩

/-! ## Nodes and the arena -/

/-- Modelled from the spec: `y::ValueStruct`, the value bytes and three metadata fields. -/
structure ValueStruct where
  value : List UInt8
  meta : UInt8
  userMeta : UInt8
  version : UInt64
deriving DecidableEq, Repr

instance : Inhabited ValueStruct := ⟨⟨[], 0, 0, 0⟩⟩

/-- A node. `keyBytes` are the bytes `put_key` copied into the arena; the tower holds the next
offsets of levels `0 .. height`. -/
structure Node where
  keyBytes : List UInt8
  keySize : UInt16
  height : Nat
  value : UInt64
  tower : List Nat
deriving DecidableEq, Repr

/-- `Node::key`: the `key_size` bytes at `key_offset`. -/
def Node.key (n : Node) : List UInt8 := n.keyBytes.take n.keySize.toNat

/-- `Node::encode_value`. -/
def encodeValue (valueOffset : UInt32) (valueSize : UInt16) : UInt64 :=
  (valueSize.toUInt64 <<< 32) ||| valueOffset.toUInt64

/-- `Node::decode_value`. -/
def decodeValue (value : UInt64) : UInt32 × UInt16 := (value.toUInt32, (value >>> 32).toUInt16)

theorem encodeValue_toBitVec (valueOffset : UInt32) (valueSize : UInt16) :
    (encodeValue valueOffset valueSize).toBitVec =
      valueSize.toUInt64.toBitVec <<< 32 ||| valueOffset.toUInt64.toBitVec := by
  have hs : ((32 : UInt64).mod 64).toBitVec.toNat = 32 := rfl
  show valueSize.toUInt64.toBitVec <<< ((32 : UInt64).mod 64).toBitVec ||| _ = _
  rw [BitVec.shiftLeft_eq', hs]

theorem ushiftRight_32_toBitVec (x : UInt64) : (x >>> 32).toBitVec = x.toBitVec >>> 32 := by
  have hs : ((32 : UInt64).mod 64).toBitVec.toNat = 32 := rfl
  show x.toBitVec >>> ((32 : UInt64).mod 64).toBitVec = _
  rw [BitVec.ushiftRight_eq', hs]

theorem UInt32.getLsbD_toUInt64 (a : UInt32) (i : Nat) :
    a.toUInt64.toBitVec.getLsbD i = a.toBitVec.getLsbD i := rfl

theorem UInt16.getLsbD_toUInt64 (a : UInt16) (i : Nat) :
    a.toUInt64.toBitVec.getLsbD i = a.toBitVec.getLsbD i := rfl

/-- `decode_value` gives back the offset and size that `encode_value` packed: the size sits in
bits `32 .. 48` and the offset in bits `0 .. 32`, which do not overlap. -/
theorem decodeValue_encodeValue (valueOffset : UInt32) (valueSize : UInt16) :
    decodeValue (encodeValue valueOffset valueSize) = (valueOffset, valueSize) := by
  refine Prod.ext (UInt32.eq_of_toBitVec_eq (BitVec.eq_of_getLsbD_eq fun i => ?_))
    (UInt16.eq_of_toBitVec_eq (BitVec.eq_of_getLsbD_eq fun i => ?_))
  · have low : (encodeValue valueOffset valueSize).toUInt32.toBitVec =
        BitVec.ofNat 32 (encodeValue valueOffset valueSize).toBitVec.toNat := rfl
    simp only [decodeValue, low, BitVec.getLsbD_ofNat, BitVec.testBit_toNat, encodeValue_toBitVec,
      BitVec.getLsbD_or, BitVec.getLsbD_shiftLeft, UInt32.getLsbD_toUInt64]
    simp [i.isLt]
  · have high : (encodeValue valueOffset valueSize >>> 32).toUInt16.toBitVec =
        BitVec.ofNat 16 (encodeValue valueOffset valueSize >>> 32).toBitVec.toNat := rfl
    have hi : 32 + (i : Nat) < 64 := by omega
    simp only [decodeValue, high, BitVec.getLsbD_ofNat, BitVec.testBit_toNat,
      ushiftRight_32_toBitVec, BitVec.getLsbD_ushiftRight, encodeValue_toBitVec, BitVec.getLsbD_or,
      BitVec.getLsbD_shiftLeft, UInt32.getLsbD_toUInt64, UInt16.getLsbD_toUInt64]
    simp [i.isLt, hi, BitVec.getLsbD_ge valueOffset.toBitVec (32 + i) (by omega)]

/-- The skiplist and its arena: the list height, the nodes by offset and the stored values. -/
structure SkipList where
  height : Nat
  nodes : List Node
  vals : List ValueStruct
deriving DecidableEq, Repr

/-- The head's offset: the first allocation. -/
def headOffset : Nat := 1

/-- Modelled from the spec: `Arena::get_node`, `None` at offset 0. -/
def SkipList.getNode (s : SkipList) (o : Nat) : Option Node := if o = 0 then none else s.nodes[o - 1]?

/-- `nd.get_next_offset(h)`; `none` past the node's tower. -/
def SkipList.nextOffset (s : SkipList) (o h : Nat) : Option Nat := (s.getNode o).bind (·.tower[h]?)

/-- `SkipList::get_next`: `none` past the node's tower, `some none` for a null next. -/
def SkipList.getNext (s : SkipList) (o h : Nat) : Option (Option Nat) :=
  (s.nextOffset o h).map fun m => if (s.getNode m).isSome then some m else none

/-- The key of the node at an offset. -/
def SkipList.keyOf (s : SkipList) (o : Nat) : List UInt8 := ((s.getNode o).map Node.key).getD []

/-! ## Values in the arena -/

/-- The low `k` bytes of `n`, most significant first. -/
def beBytes : Nat → Nat → List UInt8
  | 0, _ => []
  | k + 1, n => beBytes k (n / 256) ++ [UInt8.ofNat n]

/-- The number bytes spell, most significant first. -/
def ofBeBytes (bs : List UInt8) : Nat := bs.foldl (fun acc b => acc * 256 + b.toNat) 0

@[simp] theorem length_beBytes : ∀ k n, (beBytes k n).length = k
  | 0, _ => rfl
  | k + 1, n => by simp [beBytes, length_beBytes k]

theorem ofBeBytes_append_byte (bs : List UInt8) (b : UInt8) :
    ofBeBytes (bs ++ [b]) = ofBeBytes bs * 256 + b.toNat := by
  simp [ofBeBytes, List.foldl_append]

/-- Reading back `k` big-endian bytes gives the number modulo `256^k`. -/
theorem ofBeBytes_beBytes : ∀ k n, ofBeBytes (beBytes k n) = n % 256 ^ k
  | 0, _ => by simp [beBytes, ofBeBytes, Nat.mod_one]
  | k + 1, n => by
    rw [beBytes, ofBeBytes_append_byte, ofBeBytes_beBytes k, Nat.pow_succ, Nat.mul_comm (256 ^ k),
      Nat.mod_mul]
    have : (UInt8.ofNat n).toNat = n % 256 := BitVec.toNat_ofNat n 8
    omega

/-- Modelled from the spec: the layout `put_value` copies into the arena, the meta byte, the
user-meta byte, the big-endian version, then the value bytes. -/
def ValueStruct.encode (v : ValueStruct) : List UInt8 :=
  v.meta :: v.userMeta :: beBytes 8 v.version.toNat ++ v.value

/-- Modelled from the spec: the value read from a view of the arena by the layout of `encode`.
The spec leaves a view shorter than the ten bytes of the fields open; here it reads what bytes
there are. -/
def ValueStruct.decode (bs : List UInt8) : ValueStruct :=
  ⟨bs.drop 10, bs.getD 0 0, bs.getD 1 0, UInt64.ofNat (ofBeBytes ((bs.drop 2).take 8))⟩

/-- Modelled from the spec: the size of a value in the arena, its bytes and three fields. -/
def ValueStruct.encodedSize (v : ValueStruct) : Nat := v.value.length + 10

@[simp] theorem ValueStruct.length_encode (v : ValueStruct) : v.encode.length = v.encodedSize := by
  simp [ValueStruct.encode, ValueStruct.encodedSize]
  omega

/-- The layout reads back the value it was written from. -/
@[simp] theorem ValueStruct.decode_encode (v : ValueStruct) : ValueStruct.decode v.encode = v := by
  have h8 : (beBytes 8 v.version.toNat).length = 8 := length_beBytes 8 _
  have hlt : v.version.toNat < 256 ^ 8 := v.version.toNat_lt_size
  have hver : UInt64.ofNat (ofBeBytes (beBytes 8 v.version.toNat)) = v.version := by
    rw [ofBeBytes_beBytes, Nat.mod_eq_of_lt hlt]
    exact UInt64.toNat.inj ((BitVec.toNat_ofNat _ 64).trans (Nat.mod_eq_of_lt v.version.toNat_lt_size))
  simp only [ValueStruct.decode, ValueStruct.encode, List.cons_append, List.drop_succ_cons, List.drop_zero,
    List.drop_left' h8, List.take_left' h8, hver]
  rfl

/-- Modelled from the spec: `Arena::put_val`, the offset and size of the stored value. -/
def SkipList.putVal (s : SkipList) (v : ValueStruct) : SkipList × UInt32 × Nat :=
  ({ s with vals := s.vals ++ [v] }, UInt32.ofNat s.vals.length, v.encodedSize)

/-- Modelled from the spec: `Arena::get_val(offset, size)`, the value read from the first `size`
bytes of the value stored at the offset, as `get_key` reads `key_size` bytes. -/
def SkipList.getVal (s : SkipList) (valueOffset : UInt32) (valueSize : UInt16) : ValueStruct :=
  ValueStruct.decode ((s.vals.getD valueOffset.toNat default).encode.take valueSize.toNat)

/-- A value whose layout is shorter than `2^16` bytes reads back whole through the `u16` size
`set_value` packs (mod.rs:103). -/
theorem SkipList.getVal_of_encodedSize_lt {s : SkipList} {valueOffset : UInt32} {v : ValueStruct}
    (hv : s.vals.getD valueOffset.toNat default = v) (hsz : v.encodedSize < 2 ^ 16) :
    s.getVal valueOffset (UInt16.ofNat v.encodedSize) = v := by
  rw [SkipList.getVal, hv, UInt16.toNat_ofNat_of_lt hsz, ← v.length_encode, List.take_length,
    ValueStruct.decode_encode]

/-- Node `o` changed by `f`. -/
def SkipList.modifyNode (s : SkipList) (o : Nat) (f : Node → Node) : SkipList :=
  { s with nodes := s.nodes.modify f (o - 1) }

/-- `Node::set_value`: the value is stored and the slot rewritten. -/
def SkipList.setValue (s : SkipList) (o : Nat) (v : ValueStruct) : SkipList :=
  let (s, valueOffset, valueSize) := s.putVal v
  s.modifyNode o fun n => { n with value := encodeValue valueOffset (UInt16.ofNat valueSize) }

/-- `tower[h].store(val)`. -/
def SkipList.setNext (s : SkipList) (o h val : Nat) : SkipList :=
  s.modifyNode o fun n => { n with tower := n.tower.set h val }

/-- `Node::cas_next_offset`: `none` past the node's tower. -/
def SkipList.casNextOffset (s : SkipList) (o h old val : Nat) : Option (SkipList × Bool) :=
  (s.nextOffset o h).map fun cur => if cur = old then (s.setNext o h val, true) else (s, false)

/-- `Node::new`: a node of `height` levels with a zero tower, its key and its value. -/
def Node.new (s : SkipList) (key : List UInt8) (v : ValueStruct) (height : Nat) : SkipList × Nat :=
  let (s', valueOffset, valueSize) := s.putVal v
  ({ s' with nodes := s'.nodes ++
      [⟨key, UInt16.ofNat key.length, height, encodeValue valueOffset (UInt16.ofNat valueSize),
        List.replicate height 0⟩] }, s.nodes.length + 1)

/-- `SkipList::new`: the head, of key `b""` and `MAX_HEIGHT` levels, and height 1. -/
def SkipList.new : SkipList := { (Node.new ⟨0, [], []⟩ [] default maxHeight).1 with height := 1 }

/-- `SkipList::random_height` on the values `random::<u32>()` returns; past the end of `draws`
the loop stops. -/
def randomHeightAux : Nat → List UInt32 → Nat
  | h, [] => h
  | h, r :: rs => if h < maxHeight ∧ r ≤ heightIncrease then randomHeightAux (h + 1) rs else h

def randomHeight (draws : List UInt32) : Nat := randomHeightAux 1 draws

theorem randomHeightAux_bounds : ∀ (h : Nat) (draws : List UInt32), h ≤ maxHeight →
    h ≤ randomHeightAux h draws ∧ randomHeightAux h draws ≤ maxHeight
  | h, [], hh => ⟨le_refl h, hh⟩
  | h, r :: rs, hh => by
    unfold randomHeightAux
    split
    · next hc =>
      have := randomHeightAux_bounds (h + 1) rs hc.1
      exact ⟨by omega, this.2⟩
    · exact ⟨le_refl h, hh⟩

/-- `random_height` returns a height in `1 ..= MAX_HEIGHT`. -/
theorem randomHeight_bounds (draws : List UInt32) :
    1 ≤ randomHeight draws ∧ randomHeight draws ≤ maxHeight :=
  randomHeightAux_bounds 1 draws (by decide)

end Badger.Skl
