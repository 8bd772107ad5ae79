import Badger.Skl.FindNear

/-!
# `SkipList::_put` as a thread of atomic steps (skl/mod.rs:297-427)

A `put` runs as a thread: `PutThread.step` takes one atomic step of it on the shared skiplist,
the steps being those of the source: a load of the height, one tower load per turn of
`find_splice_for_level`, the allocation of the node, the height CAS, the tower store, the tower
CAS and the store of a value. The thread's locals are the `prev` and `next` arrays (offsets,
0 for null), the drawn height and the new node `x`.

| here | there |
| --- | --- |
| `spliceStep` | one turn of the loop of `SkipList::find_splice_for_level` (mod.rs:301-327) |
| `findSpliceForLevel` | `SkipList::find_splice_for_level` (mod.rs:297-328), the whole loop |
| `PutPc.start` | `let list_height = self.get_height()` (mod.rs:343-347) |
| `PutPc.descend` | the first loop, over levels `list_height - 1 ..= 0` (mod.rs:348-360) |
| `PutPc.alloc` | `random_height()` and `Node::new` (mod.rs:363-364) |
| `PutPc.loadHeight`, `PutPc.casHeight` | the height CAS loop (mod.rs:367-380) |
| `PutPc.link` | the top of the `loop` of level `i` (mod.rs:385-399) |
| `PutPc.fromHead` | the search from the head past the old height (mod.rs:391-398) |
| `PutPc.store`, `PutPc.cas` | `x.tower[i].store` and `cas_next_offset` (mod.rs:401-410) |
| `PutPc.research` | the search after a failed CAS (mod.rs:415-424) |
| `PutPc.setValue` | `set_value` on the node holding the key (mod.rs:353, 422) |
| `SkipList.put` | `SkipList::put` with no other thread running (mod.rs:334-337) |
| `SkipList.get` | `SkipList::get` (mod.rs:454-464) |

A failed `unwrap`, `assert!` or `assert_eq!` ends the thread in `panicked`; a tower read past a
node's height ends it in `fault`.
-/

namespace Badger.Skl

/-- One turn of `find_splice_for_level` at `before`: move right to `inl`, or the splice
`inr (before, next)`, which is `(next, next)` on an equal key. -/
def spliceStep (s : SkipList) (key : List UInt8) (before level : Nat) : Option (Nat ⊕ (Nat × Nat)) :=
  (s.getNext before level).map fun
    | none => .inr (before, 0)
    | some nx =>
      match compareBytes key (s.keyOf nx) with
      | .eq => .inr (nx, nx)
      | .lt => .inr (before, nx)
      | .gt => .inl nx

/-- `SkipList::find_splice_for_level(key, before, level)`: turns of `spliceStep` from `before`
until one stops, for up to `fuel` turns; `none` is a run out of fuel or a read past a tower. -/
def findSpliceForLevel (s : SkipList) (key : List UInt8) : Nat → Nat → Nat → Option (Nat × Nat)
  | _, _, 0 => none
  | before, level, fuel + 1 =>
    match spliceStep s key before level with
    | none => none
    | some (.inl nx) => findSpliceForLevel s key nx level fuel
    | some (.inr r) => some r

/-- Where a `put` stands between two atomic steps. -/
inductive PutPc
  | start
  | descend (i before : Nat)
  | alloc
  | loadHeight
  | casHeight (listHeight : Nat)
  | link (i : Nat)
  | fromHead (i before : Nat)
  | store (i : Nat)
  | cas (i : Nat)
  | research (i before : Nat)
  | setValue (o : Nat)
  | done
  | panicked
  | fault
deriving DecidableEq, Repr

/-- A `put(key, value)` in progress. -/
structure PutThread where
  key : List UInt8
  value : ValueStruct
  pc : PutPc
  prev : List Nat
  next : List Nat
  height : Nat
  x : Nat
deriving DecidableEq, Repr

/-- A `put` about to start: `prev` and `next` are `MAX_HEIGHT + 1` nulls. -/
def PutThread.init (key : List UInt8) (value : ValueStruct) : PutThread :=
  ⟨key, value, .start, List.replicate (maxHeight + 1) 0, List.replicate (maxHeight + 1) 0, 0, 0⟩

/-- `prev[i]` (null past the end). -/
def PutThread.prevAt (t : PutThread) (i : Nat) : Nat := t.prev.getD i 0

/-- `next[i]` (null past the end). -/
def PutThread.nextAt (t : PutThread) (i : Nat) : Nat := t.next.getD i 0

/-- The thread at another place. -/
def PutThread.goto (t : PutThread) (pc : PutPc) : PutThread := { t with pc }

@[simp] theorem PutThread.goto_pc (t : PutThread) (pc : PutPc) : (t.goto pc).pc = pc := rfl
@[simp] theorem PutThread.goto_key (t : PutThread) (pc : PutPc) : (t.goto pc).key = t.key := rfl
@[simp] theorem PutThread.goto_x (t : PutThread) (pc : PutPc) : (t.goto pc).x = t.x := rfl
@[simp] theorem PutThread.goto_height (t : PutThread) (pc : PutPc) : (t.goto pc).height = t.height := rfl

/-- The end of a turn of the first loop at level `i` that found no equal key. -/
def PutThread.descended (t : PutThread) (i pre nxt : Nat) : PutThread :=
  let t := { t with prev := t.prev.set i pre, next := if nxt ≠ 0 then t.next.set i nxt else t.next }
  if i = 0 then t.goto .alloc else t.goto (.descend (i - 1) pre)

/-- One atomic step of a `put` on the skiplist; `draws` are the values `random::<u32>()` returns
to `random_height` when the step is the allocation. -/
def PutThread.step (s : SkipList) (t : PutThread) (draws : List UInt32) : SkipList × PutThread :=
  match t.pc with
  | .start =>
    let lh := s.height
    let t := { t with prev := t.prev.set lh headOffset, next := t.next.set lh 0 }
    (s, if lh = 0 then t.goto .alloc else t.goto (.descend (lh - 1) headOffset))
  | .descend i before =>
    match spliceStep s t.key before i with
    | none => (s, t.goto .fault)
    | some (.inl nx) => (s, t.goto (.descend i nx))
    | some (.inr (pre, nxt)) =>
      if nxt ≠ 0 ∧ pre = nxt then
        (s, if t.prevAt i = 0 then t.goto .panicked else t.goto (.setValue (t.prevAt i)))
      else (s, t.descended i pre nxt)
  | .alloc =>
    let h := randomHeight draws
    let (s, x) := Node.new s t.key t.value h
    (s, { t with pc := .loadHeight, height := h, x })
  | .loadHeight =>
    (s, if s.height < t.height then t.goto (.casHeight s.height) else t.goto (.link 0))
  | .casHeight lh =>
    if s.height = lh then ({ s with height := t.height }, t.goto (.link 0))
    else (s, t.goto .loadHeight)
  | .link i =>
    if t.height ≤ i then (s, t.goto .done)
    else if t.prevAt i = 0 then
      (s, if 1 < i then t.goto (.fromHead i headOffset) else t.goto .panicked)
    else (s, t.goto (.store i))
  | .fromHead i before =>
    match spliceStep s t.key before i with
    | none => (s, t.goto .fault)
    | some (.inl nx) => (s, t.goto (.fromHead i nx))
    | some (.inr (pre, nxt)) =>
      let t := { t with prev := t.prev.set i pre, next := t.next.set i nxt }
      (s, if nxt = 0 ∨ pre = nxt then t.goto .panicked else t.goto (.store i))
  | .store i => (s.setNext t.x i (t.nextAt i), t.goto (.cas i))
  | .cas i =>
    match s.casNextOffset (t.prevAt i) i (t.nextAt i) t.x with
    | none => (s, t.goto .fault)
    | some (s, true) => (s, t.goto (.link (i + 1)))
    | some (s, false) => (s, t.goto (.research i (t.prevAt i)))
  | .research i before =>
    match spliceStep s t.key before i with
    | none => (s, t.goto .fault)
    | some (.inl nx) => (s, t.goto (.research i nx))
    | some (.inr (pre, nxt)) =>
      let t := { t with prev := t.prev.set i pre, next := t.next.set i nxt }
      (s, if nxt = 0 then t.goto .panicked
        else if pre = nxt then (if i = 0 then t.goto (.setValue pre) else t.goto .panicked)
        else t.goto (.link i))
  | .setValue o => (s.setValue o t.value, t.goto .done)
  | .done | .panicked | .fault => (s, t)

/-- A thread that takes no more steps. -/
def PutPc.Finished : PutPc → Prop
  | .done | .panicked | .fault => True
  | _ => False

instance (pc : PutPc) : Decidable pc.Finished := by
  cases pc <;> simp only [PutPc.Finished] <;> infer_instance

/-- A `put` run alone for up to `fuel` steps. -/
def PutThread.run (draws : List UInt32) : Nat → SkipList → PutThread → SkipList × PutThread
  | 0, s, t => (s, t)
  | fuel + 1, s, t =>
    if t.pc.Finished then (s, t)
    else
      let (s, t) := t.step s draws
      PutThread.run draws fuel s t

/-- `SkipList::put` with no other thread running: the list after it and where it ended. -/
def SkipList.put (s : SkipList) (key : List UInt8) (v : ValueStruct) (draws : List UInt32)
    (fuel : Nat) : SkipList × PutPc :=
  let (s, t) := PutThread.run draws fuel s (PutThread.init key v)
  (s, t.pc)

/-- `SkipList::get`: the value of the node `find_near(key, false, true)` returns when it found
`key`; `none` when the search runs out of fuel. -/
def SkipList.get (s : SkipList) (key : List UInt8) (fuel : Nat) : Option (Option ValueStruct) :=
  (findNear s key false true fuel).map fun (node, found) =>
    if found then (node.bind s.getNode).map fun n =>
      let (valueOffset, valueSize) := decodeValue n.value
      s.getVal valueOffset valueSize
    else none

/-- **A second `put` of a key panics, and so does a `put` drawing a height two above the list's.**
On the empty list `put(b"k", v1)` returns and `get(b"k")` finds `v1`; `put(b"k", v2)` then finds `b"k"` at level 0 in its
first loop, where `prev[0]` is still null, and its `prev[i].as_ref().unwrap()` panics. A `put`
whose height is drawn as 3 on the empty list links levels 0 and 1 and then searches level 2
from the head, where `next[i] = _next.unwrap()` panics on the null link. -/
theorem put_twice_panics :
    (SkipList.new.put [0x6b] ⟨[1], 0, 0, 0⟩ [] 20).2 = .done ∧
    (SkipList.new.put [0x6b] ⟨[1], 0, 0, 0⟩ [] 20).1.get [0x6b] 20 = some (some ⟨[1], 0, 0, 0⟩) ∧
    ((SkipList.new.put [0x6b] ⟨[1], 0, 0, 0⟩ [] 20).1.put [0x6b] ⟨[2], 0, 0, 0⟩ [] 20).2 = .panicked ∧
    randomHeight [0, 0] = 3 ∧ (SkipList.new.put [0x6b] ⟨[1], 0, 0, 0⟩ [0, 0] 20).2 = .panicked :=
  ⟨rfl, rfl, rfl, rfl, rfl⟩

end Badger.Skl
