import Badger.Skl.Levels

/-!
# The writes of a `put`

A `put` changes the list by four kinds of write (skl/mod.rs:67-117, 367-410): `Node::new`
appends a node with a zero tower, `set_value` rewrites the value slot of a node, a tower store
or a tower CAS rewrites one link, and the height CAS raises the height. This module says what
each write does to the nodes, the links and the level lists, and when it keeps `SkipList.Wf`.

| here | there |
| --- | --- |
| `getNode_new_of_ne`, `getNode_new_self`, `SkipList.Wf.new` | `Node::new` (mod.rs:67-84) |
| `nextOffset_setNext`, `SkipList.Wf.of_relinks` | `tower[h].store`, `cas_next_offset` (mod.rs:114-117) |
| `getNode_setValue` | `Node::set_value` (mod.rs:100-106) |

`SkipList.Le s s'` is what every write keeps: each node with its key and height, each node of
each level list, and a height that does not go down.
-/

namespace Badger.Skl

/-- A link the invariant allows: from `o` at level `L` to a node taller than `L`, not the head,
whose key is above that of `o` (or `o` is the head). -/
def SkipList.LinkOk (s : SkipList) (o L m : Nat) : Prop :=
  ∃ nm, s.getNode m = some nm ∧ L < nm.height ∧ m ≠ headOffset ∧
    (o = headOffset ∨ KeyLt (s.keyOf o) nm.key)

/-- What every write of a `put` keeps. -/
structure SkipList.Le (s s' : SkipList) : Prop where
  node : ∀ o n, s.getNode o = some n → ∃ n', s'.getNode o = some n' ∧ n'.key = n.key ∧ n'.height = n.height
  onLevel : ∀ L n, OnLevel s L n → OnLevel s' L n
  height : s.height ≤ s'.height

section Le
variable {s s' : SkipList}

theorem SkipList.Le.refl (s : SkipList) : s.Le s :=
  ⟨fun _ n h => ⟨n, h, rfl, rfl⟩, fun _ _ h => h, le_rfl⟩

theorem SkipList.Le.keyOf (h : s.Le s') {o : Nat} {n : Node} (hn : s.getNode o = some n) :
    s'.keyOf o = s.keyOf o := by
  obtain ⟨n', hn', hk, -⟩ := h.node o n hn
  rw [SkipList.keyOf_eq hn, SkipList.keyOf_eq hn', hk]

theorem SkipList.Le.inTower (h : s.Le s') {o L : Nat} (ho : s.InTower o L) : s'.InTower o L :=
  let ⟨n, hn, hlt⟩ := ho
  let ⟨n', hn', _, hh⟩ := h.node o n hn
  ⟨n', hn', hh ▸ hlt⟩

theorem SkipList.Le.trans {s'' : SkipList} (h : s.Le s') (h' : s'.Le s'') : s.Le s'' where
  node o n hn :=
    let ⟨n', hn', hk, hh⟩ := h.node o n hn
    let ⟨n'', hn'', hk', hh'⟩ := h'.node o n' hn'
    ⟨n'', hn'', hk'.trans hk, hh'.trans hh⟩
  onLevel L n hn := h'.onLevel L n (h.onLevel L n hn)
  height := h.height.trans h'.height

end Le

/-! ## Paths across a write -/

section Reach
variable {s s' : SkipList} {L : Nat}

/-- A path survives a write that keeps each of its links as a path. -/
theorem Reach.mono {a b : Nat}
    (h : ∀ q m, Reach s L a q → Reach s' L a q → s.nextOffset q L = some m → m ≠ 0 → Reach s' L q m)
    (hr : Reach s L a b) : Reach s' L a b := by
  induction hr with
  | refl => exact .refl
  | tail hq hn h0 ih => exact ih.trans (h _ _ hq ih hn h0)

theorem reach_iff_of_nextOffset (h : ∀ q, s'.nextOffset q L = s.nextOffset q L) {a b : Nat} :
    Reach s' L a b ↔ Reach s L a b :=
  ⟨Reach.mono fun q _ _ _ hn h0 => .single (by rwa [h q] at hn) h0,
    Reach.mono fun q _ _ _ hn h0 => .single (by rwa [h q]) h0⟩

end Reach

/-! ## Rewriting a node -/

section Modify
variable {s : SkipList}

theorem getNode_modifyNode (o q : Nat) (f : Node → Node) :
    (s.modifyNode o f).getNode q = (s.getNode q).map fun n => if o - 1 = q - 1 then f n else n := by
  unfold SkipList.getNode SkipList.modifyNode
  split <;> simp [List.getElem?_modify]

/-- The key, height and tower length of a node: all the invariant reads of it but its links. -/
def Node.shape (n : Node) : List UInt8 × Nat × Nat := (n.key, n.height, n.tower.length)

/-- `s'` has the nodes of `s`, with their keys, heights and tower lengths, and maybe other links. -/
def SkipList.Relinks (s s' : SkipList) : Prop :=
  ∀ q, (s'.getNode q).map Node.shape = (s.getNode q).map Node.shape

variable {s' : SkipList}

theorem SkipList.Relinks.getNode (h : s.Relinks s') {q : Nat} {n' : Node} (hn : s'.getNode q = some n') :
    ∃ n, s.getNode q = some n ∧ n'.shape = n.shape := by
  have := h q
  rw [hn, Option.map_some', eq_comm, Option.map_eq_some'] at this
  obtain ⟨n, hn, he⟩ := this
  exact ⟨n, hn, he.symm⟩

theorem SkipList.Relinks.getNode' (h : s.Relinks s') {q : Nat} {n : Node} (hn : s.getNode q = some n) :
    ∃ n', s'.getNode q = some n' ∧ n'.shape = n.shape := by
  have := h q
  rw [hn, Option.map_some', Option.map_eq_some'] at this
  exact this

theorem SkipList.Relinks.keyOf (h : s.Relinks s') (q : Nat) : s'.keyOf q = s.keyOf q := by
  have := congrArg (Option.map Prod.fst) (h q)
  simpa [SkipList.keyOf, Option.map_map, Function.comp_def, Node.shape] using congrArg (·.getD []) this

/-- A write that keeps every node's shape and the level lists, and does not lower the height,
keeps what `Le` asks. -/
theorem SkipList.Relinks.le (h : s.Relinks s') (hl : ∀ L n, OnLevel s L n → OnLevel s' L n)
    (hh : s.height ≤ s'.height) : s.Le s' where
  node o n hn := by
    obtain ⟨n', hn', he⟩ := h.getNode' hn
    exact ⟨n', hn', congrArg Prod.fst he, congrArg (·.2.1) he⟩
  onLevel := hl
  height := hh

/-- **A relinked list keeps the shape** when its new links lead to taller nodes other than the
head and its levels nest. -/
theorem SkipList.Shape.of_relinks (hs : s.Shape) (hr : s.Relinks s') (hh0 : 0 < s'.height)
    (hh : s'.height ≤ maxHeight)
    (hlink : ∀ q L m, s'.nextOffset q L = some m → m ≠ 0 →
      s.nextOffset q L = some m ∨ (s.InTower m L ∧ m ≠ headOffset))
    (hsub : ∀ L n, OnLevel s' (L + 1) n → OnLevel s' L n) : s'.Shape where
  height_pos := hh0
  height_le := hh
  head := by
    obtain ⟨hd, hhd, hh⟩ := hs.head
    obtain ⟨hd', hhd', he⟩ := hr.getNode' hhd
    exact ⟨hd', hhd', (congrArg (·.2.1) he).trans hh⟩
  node q n' hn' := by
    obtain ⟨n, hn, he⟩ := hr.getNode hn'
    have hwf := hs.node q n hn
    have h1 : n'.height = n.height := congrArg (·.2.1) he
    have h2 : n'.tower.length = n.tower.length := congrArg (·.2.2) he
    exact ⟨h1 ▸ hwf.height_pos, h1 ▸ hwf.height_le, by rw [h1, h2, hwf.tower_length]⟩
  link q L m hn h0 := by
    obtain ⟨⟨nm, hm, hlt⟩, hne⟩ : s.InTower m L ∧ m ≠ headOffset := (hlink q L m hn h0).elim
      (fun h => let ⟨nm, hm, hlt, hne⟩ := hs.link q L m h h0; ⟨⟨nm, hm, hlt⟩, hne⟩) id
    obtain ⟨nm', hm', he⟩ := hr.getNode' hm
    have hh' : nm'.height = nm.height := congrArg (·.2.1) he
    exact ⟨nm', hm', hh' ▸ hlt, hne⟩
  sublist := hsub

/-- **A relinked list keeps the invariant** when its new links are allowed and its levels nest. -/
theorem SkipList.Wf.of_relinks (hw : s.Wf) (hr : s.Relinks s') (hh0 : 0 < s'.height)
    (hh : s'.height ≤ maxHeight)
    (hlink : ∀ q L m, s'.nextOffset q L = some m → m ≠ 0 → s.nextOffset q L = some m ∨ s.LinkOk q L m)
    (hsub : ∀ L n, OnLevel s' (L + 1) n → OnLevel s' L n) : s'.Wf :=
  have hs := hw.shape.of_relinks hr hh0 hh
    (fun q L m hn h0 => (hlink q L m hn h0).imp_right fun ⟨nm, hm, hlt, hne, _⟩ => ⟨⟨nm, hm, hlt⟩, hne⟩) hsub
  ⟨hh0, hh, hs.head, hs.node, fun q L m hn h0 => by
    obtain ⟨nm, hm, hlt, hne, hk⟩ : s.LinkOk q L m := (hlink q L m hn h0).elim (hw.link q L m · h0) id
    obtain ⟨nm', hm', he⟩ := hr.getNode' hm
    have hkey : nm'.key = nm.key := congrArg Prod.fst he
    have hh' : nm'.height = nm.height := congrArg (·.2.1) he
    exact ⟨nm', hm', hh' ▸ hlt, hne, by rwa [hr.keyOf, hkey]⟩, hsub⟩

end Modify

/-! ## `Node::new` -/

section New
variable (s : SkipList) (key : List UInt8) (v : ValueStruct) (h : Nat)

theorem getNode_new_of_ne {q : Nat} (hq : q ≠ s.nodes.length + 1) :
    (Node.new s key v h).1.getNode q = s.getNode q := by
  simp only [Node.new, SkipList.putVal, SkipList.getNode]
  split
  · rfl
  · rcases Nat.lt_or_ge (q - 1) s.nodes.length with hl | hl
    · exact List.getElem?_append_left hl
    · rw [List.getElem?_append_right hl, List.getElem?_eq_none (by simp; omega),
        List.getElem?_eq_none (by omega)]

theorem getNode_new_self : ∃ value, (Node.new s key v h).1.getNode (s.nodes.length + 1) =
    some ⟨key, UInt16.ofNat key.length, h, value, List.replicate h 0⟩ :=
  ⟨encodeValue (UInt32.ofNat s.vals.length) (UInt16.ofNat v.encodedSize),
    by simp [Node.new, SkipList.putVal, SkipList.getNode]⟩

@[simp] theorem Node.new_offset : (Node.new s key v h).2 = s.nodes.length + 1 := rfl

@[simp] theorem Node.new_height : (Node.new s key v h).1.height = s.height := rfl

theorem nextOffset_new_of_ne {q : Nat} (hq : q ≠ s.nodes.length + 1) (L : Nat) :
    (Node.new s key v h).1.nextOffset q L = s.nextOffset q L := by
  simp only [SkipList.nextOffset, getNode_new_of_ne s key v h hq]

theorem nextOffset_new_self {L m : Nat} (hm : (Node.new s key v h).1.nextOffset (s.nodes.length + 1) L = some m) :
    m = 0 := by
  obtain ⟨_, hn⟩ := getNode_new_self s key v h
  simp only [SkipList.nextOffset, hn, Option.some_bind, List.getElem?_replicate] at hm
  split at hm
  · exact (Option.some.inj hm).symm
  · cases hm

variable {s key v h}

/-- A link of the list after `Node::new` is a link of the list before, or zero. -/
theorem nextOffset_new_of_ne_zero {q L m : Nat} (hm : (Node.new s key v h).1.nextOffset q L = some m)
    (h0 : m ≠ 0) : s.nextOffset q L = some m := by
  by_cases hq : q = s.nodes.length + 1
  · exact absurd (nextOffset_new_self s key v h (hq ▸ hm)) h0
  · rwa [nextOffset_new_of_ne s key v h hq] at hm

theorem ne_new_of_getNode {q : Nat} {n : Node} (hn : s.getNode q = some n) :
    q ≠ s.nodes.length + 1 := (lt_length_of_getNode hn).ne

section Shape
variable (hs : s.Shape)
include hs

/-- No link of a list with the shape points past its last node. -/
theorem SkipList.Shape.nextOffset_ne_new (q L : Nat) : s.nextOffset q L ≠ some (s.nodes.length + 1) :=
  fun hn =>
  have ⟨_, hm, _⟩ := hs.link q L _ hn (by omega)
  ne_new_of_getNode hm rfl

theorem SkipList.Shape.onLevel_new_iff {L b : Nat} :
    OnLevel (Node.new s key v h).1 L b ↔ OnLevel s L b := by
  constructor
  · exact Reach.mono fun q m _ _ hn h0 => .single (nextOffset_new_of_ne_zero hn h0) h0
  · refine Reach.mono fun q m hq _ hn h0 => .single ?_ h0
    obtain ⟨_, hqn⟩ := hs.onLevel_getNode hq
    rwa [nextOffset_new_of_ne s key v h (ne_new_of_getNode hqn)]

theorem SkipList.Shape.le_new : s.Le (Node.new s key v h).1 where
  node q n hn := ⟨n, by rw [getNode_new_of_ne s key v h (ne_new_of_getNode hn), hn], rfl, rfl⟩
  onLevel _ _ hb := hs.onLevel_new_iff.2 hb
  height := le_rfl

/-- **`Node::new` keeps the shape** for a height in `1 ..= MAX_HEIGHT`. -/
theorem SkipList.Shape.new (h1 : 0 < h) (h2 : h ≤ maxHeight) : (Node.new s key v h).1.Shape where
  height_pos := hs.height_pos
  height_le := hs.height_le
  head := by
    obtain ⟨hd, hhd, hh⟩ := hs.head
    exact ⟨hd, by rw [getNode_new_of_ne s key v h (ne_new_of_getNode hhd), hhd], hh⟩
  node q n hn := by
    by_cases hq : q = s.nodes.length + 1
    · obtain ⟨_, hnew⟩ := getNode_new_self s key v h
      rw [hq, hnew] at hn
      cases hn
      exact ⟨h1, h2, List.length_replicate _ _⟩
    · rw [getNode_new_of_ne s key v h hq] at hn
      exact hs.node q n hn
  link q L m hn h0 := by
    obtain ⟨nm, hm, hlt, hne⟩ := hs.link q L m (nextOffset_new_of_ne_zero hn h0) h0
    exact ⟨nm, by rw [getNode_new_of_ne s key v h (ne_new_of_getNode hm), hm], hlt, hne⟩
  sublist L n hn := hs.onLevel_new_iff.2 (hs.sublist L n (hs.onLevel_new_iff.1 hn))

end Shape

variable (hw : s.Wf)
include hw

/-- No link of a list with the invariant points past its last node. -/
theorem SkipList.Wf.nextOffset_ne_new (q L : Nat) : s.nextOffset q L ≠ some (s.nodes.length + 1) :=
  hw.shape.nextOffset_ne_new q L

theorem reach_new_iff {L b : Nat} :
    OnLevel (Node.new s key v h).1 L b ↔ OnLevel s L b :=
  hw.shape.onLevel_new_iff

theorem SkipList.Wf.le_new : s.Le (Node.new s key v h).1 :=
  hw.shape.le_new

/-- **`Node::new` keeps the invariant** for a height in `1 ..= MAX_HEIGHT`. -/
theorem SkipList.Wf.new (h1 : 0 < h) (h2 : h ≤ maxHeight) : (Node.new s key v h).1.Wf :=
  have hs := hw.shape.new h1 h2
  ⟨hs.height_pos, hs.height_le, hs.head, hs.node, fun q L m hn h0 => by
    have hn := nextOffset_new_of_ne_zero hn h0
    obtain ⟨nm, hm, hlt, hne, hk⟩ := hw.link q L m hn h0
    obtain ⟨nq, hnq, -⟩ := Option.bind_eq_some.1 hn
    refine ⟨nm, by rw [getNode_new_of_ne s key v h (ne_new_of_getNode hm), hm], hlt, hne, ?_⟩
    rwa [SkipList.keyOf, getNode_new_of_ne s key v h (ne_new_of_getNode hnq)], hs.sublist⟩

end New

/-! ## A tower store or CAS, a value store, the height CAS -/

section SetNext
variable {s : SkipList} {o L v : Nat}

theorem nextOffset_setNext (ho : o ≠ 0) (q L' : Nat) :
    (s.setNext o L v).nextOffset q L' =
      if q = o ∧ L' = L then (s.nextOffset q L').map fun _ => v else s.nextOffset q L' := by
  simp only [SkipList.setNext, SkipList.nextOffset, getNode_modifyNode]
  by_cases hq : q = o
  · subst hq
    cases s.getNode q with
    | none => simp
    | some nd =>
      by_cases hL : L' = L
      · subst hL; simp [List.getElem?_set']; rfl
      · simp [List.getElem?_set', hL, Ne.symm hL]
  · rcases Nat.eq_zero_or_pos q with rfl | hq0
    · simp [SkipList.getNode]
    · have : ¬ o - 1 = q - 1 := by omega
      simp [this, hq]

theorem nextOffset_setNext_of_ne (ho : o ≠ 0) {q L' : Nat} (h : ¬ (q = o ∧ L' = L)) :
    (s.setNext o L v).nextOffset q L' = s.nextOffset q L' := by
  rw [nextOffset_setNext ho, if_neg h]

/-- A link after a tower store is the stored one or one the list had. -/
theorem nextOffset_setNext_some (ho : o ≠ 0) {q L' m : Nat} (hn : (s.setNext o L v).nextOffset q L' = some m) :
    (q = o ∧ L' = L ∧ m = v) ∨ s.nextOffset q L' = some m := by
  rw [nextOffset_setNext ho] at hn
  split at hn
  · next h =>
    obtain ⟨_, -, rfl⟩ := Option.map_eq_some'.1 hn
    exact .inl ⟨h.1, h.2, rfl⟩
  · exact .inr hn

theorem SkipList.relinks_setNext : s.Relinks (s.setNext o L v) := fun q => by
  simp only [SkipList.setNext, getNode_modifyNode, Option.map_map]
  congr 1
  funext n
  split <;> simp [Node.shape, Node.key]

theorem onLevel_setNext_of_ne (ho : o ≠ 0) {L' b : Nat} (hL : L' ≠ L) :
    OnLevel (s.setNext o L v) L' b ↔ OnLevel s L' b :=
  reach_iff_of_nextOffset fun _ => nextOffset_setNext_of_ne ho fun h => hL h.2

/-- A link rewritten at a node off its level leaves the level lists as they are. -/
theorem onLevel_setNext_iff (ho : o ≠ 0) (hoff : ¬ OnLevel s L o) {L' b : Nat} :
    OnLevel (s.setNext o L v) L' b ↔ OnLevel s L' b := by
  by_cases hL : L' = L
  · subst hL
    have hne : ∀ q, OnLevel s L' q → ¬ (q = o ∧ L' = L') := fun q hq h => hoff (h.1 ▸ hq)
    exact ⟨Reach.mono fun q m _ hq hn h0 => .single (by rwa [nextOffset_setNext_of_ne ho (hne q hq)] at hn) h0,
      Reach.mono fun q m hq _ hn h0 => .single (by rwa [nextOffset_setNext_of_ne ho (hne q hq)]) h0⟩
  · exact onLevel_setNext_of_ne ho hL

/-- A tower store at a node off its level keeps the shape when it writes a null or a link to a
taller node other than the head. -/
theorem SkipList.Shape.setNext (hs : s.Shape) (ho : o ≠ 0) (hoff : ¬ OnLevel s L o)
    (hv : v ≠ 0 → s.InTower v L ∧ v ≠ headOffset) : (s.setNext o L v).Shape :=
  hs.of_relinks SkipList.relinks_setNext hs.height_pos hs.height_le
    (fun _ _ _ hn h0 => (nextOffset_setNext_some ho hn).elim (fun ⟨rfl, rfl, rfl⟩ => .inr (hv h0)) .inl)
    (fun L' n hn => (onLevel_setNext_iff ho hoff).2 (hs.sublist L' n ((onLevel_setNext_iff ho hoff).1 hn)))

/-- **A tower store at a node off its level keeps the invariant** when the link it writes is
allowed. -/
theorem SkipList.Wf.setNext (hw : s.Wf) (ho : o ≠ 0) (hoff : ¬ OnLevel s L o)
    (hv : v ≠ 0 → s.LinkOk o L v) : (s.setNext o L v).Wf :=
  hw.of_relinks SkipList.relinks_setNext hw.height_pos hw.height_le
    (fun _ _ _ hn h0 => (nextOffset_setNext_some ho hn).elim (fun ⟨rfl, rfl, rfl⟩ => .inr (hv h0)) .inl)
    (fun L' n hn => (onLevel_setNext_iff ho hoff).2 (hw.sublist L' n ((onLevel_setNext_iff ho hoff).1 hn)))

end SetNext

section Link
variable {s : SkipList} {p L x n : Nat} (hp0 : p ≠ 0) (hp : OnLevel s L p)
  (hpn : s.nextOffset p L = some n) (hxn : s.nextOffset x L = some n) (hx : ¬ OnLevel s L x)
include hp0 hp hpn hxn hx

/-- The CAS that links `x` after `p`, where `x` already links to `p`'s successor: the level gains
`x` and nothing else. -/
theorem onLevel_link (hx0 : x ≠ 0) {b : Nat} :
    OnLevel (s.setNext p L x) L b ↔ OnLevel s L b ∨ b = x := by
  have hxp : x ≠ p := fun e => hx (e ▸ hp)
  have hpx : (s.setNext p L x).nextOffset p L = some x := by
    rw [nextOffset_setNext hp0, if_pos ⟨rfl, rfl⟩, hpn, Option.map_some']
  have hxn' : (s.setNext p L x).nextOffset x L = some n := by
    rw [nextOffset_setNext_of_ne hp0 fun h => hxp h.1, hxn]
  have hold : ∀ {b}, OnLevel s L b → OnLevel (s.setNext p L x) L b := Reach.mono fun q m _ _ hn h0 => by
    by_cases hq : q = p
    · subst hq
      rw [hpn] at hn
      cases hn
      exact .tail (.single hpx hx0) hxn' h0
    · exact .single (by rwa [nextOffset_setNext_of_ne hp0 fun h => hq h.1]) h0
  constructor
  · intro hb
    induction hb with
    | refl => exact .inl .refl
    | @tail q m _ hn h0 ih =>
      rcases ih with hq | rfl
      · by_cases e : q = p
        · subst e
          rw [hpx] at hn
          exact .inr (Option.some.inj hn).symm
        · exact .inl (hq.next (by rwa [nextOffset_setNext_of_ne hp0 fun h => e h.1] at hn) h0)
      · rw [hxn'] at hn
        cases hn
        exact .inl (hp.next hpn h0)
  · rintro (hb | rfl)
    · exact hold hb
    · exact (hold hp).next hpx hx0

/-- The levels still nest after the CAS that links `x`, when `x` is already on the level below. -/
theorem sublist_link (hx0 : x ≠ 0) (hsub : ∀ L n, OnLevel s (L + 1) n → OnLevel s L n)
    (hbelow : ∀ L', L' + 1 = L → OnLevel s L' x) (L' b : Nat)
    (hb : OnLevel (s.setNext p L x) (L' + 1) b) : OnLevel (s.setNext p L x) L' b := by
  by_cases h1 : L' + 1 = L
  · subst h1
    have hL : L' ≠ L' + 1 := by omega
    rw [onLevel_setNext_of_ne hp0 hL]
    rcases (onLevel_link hp0 hp hpn hxn hx hx0).1 hb with hb | rfl
    · exact hsub L' b hb
    · exact hbelow L' rfl
  · by_cases h2 : L' = L
    · subst h2
      rw [onLevel_setNext_of_ne hp0 (by omega)] at hb
      exact (onLevel_link hp0 hp hpn hxn hx hx0).2 (.inl (hsub L' b hb))
    · rw [onLevel_setNext_of_ne hp0 h1] at hb
      exact (onLevel_setNext_of_ne hp0 h2).2 (hsub L' b hb)

/-- **The CAS that links `x` keeps the invariant** when the link is allowed and `x` is already
on the level below. -/
theorem SkipList.Wf.link_cas (hw : s.Wf) (hx0 : x ≠ 0) (hok : s.LinkOk p L x)
    (hbelow : ∀ L', L' + 1 = L → OnLevel s L' x) : (s.setNext p L x).Wf :=
  hw.of_relinks SkipList.relinks_setNext hw.height_pos hw.height_le
    (fun _ _ _ hn _ => (nextOffset_setNext_some hp0 hn).elim (fun ⟨rfl, rfl, rfl⟩ => .inr hok) .inl)
    (sublist_link hp0 hp hpn hxn hx hx0 hw.sublist hbelow)

/-- The CAS that links `x` keeps the shape when `x` is taller than the level, not the head, and
already on the level below. -/
theorem SkipList.Shape.link_cas (hs : s.Shape) (hx0 : x ≠ 0) (hok : s.InTower x L ∧ x ≠ headOffset)
    (hbelow : ∀ L', L' + 1 = L → OnLevel s L' x) : (s.setNext p L x).Shape :=
  hs.of_relinks SkipList.relinks_setNext hs.height_pos hs.height_le
    (fun _ _ _ hn _ => (nextOffset_setNext_some hp0 hn).elim (fun ⟨rfl, rfl, rfl⟩ => .inr hok) .inl)
    (sublist_link hp0 hp hpn hxn hx hx0 hs.sublist hbelow)

end Link

section SetValue
variable {s : SkipList} {o : Nat} {val : ValueStruct}

theorem getNode_setValue (q : Nat) : (s.setValue o val).getNode q =
    (s.getNode q).map fun n => if o - 1 = q - 1 then
      { n with value := encodeValue (UInt32.ofNat s.vals.length) (UInt16.ofNat val.encodedSize) } else n :=
  getNode_modifyNode o q _

@[simp] theorem nextOffset_setValue (q L : Nat) : (s.setValue o val).nextOffset q L = s.nextOffset q L := by
  simp only [SkipList.nextOffset, getNode_setValue]
  cases s.getNode q <;> simp only [Option.map_none', Option.map_some', Option.none_bind, Option.some_bind]
  split <;> rfl

theorem SkipList.relinks_setValue : s.Relinks (s.setValue o val) := fun q => by
  simp only [getNode_setValue, Option.map_map]
  congr 1
  funext n
  split <;> rfl

theorem onLevel_setValue_iff {L b : Nat} : OnLevel (s.setValue o val) L b ↔ OnLevel s L b :=
  reach_iff_of_nextOffset fun q => nextOffset_setValue q L

/-- `set_value` keeps the invariant. -/
theorem SkipList.Wf.setValue (hw : s.Wf) : (s.setValue o val).Wf :=
  hw.of_relinks SkipList.relinks_setValue hw.height_pos hw.height_le
    (fun q L m hn _ => .inl (by rwa [nextOffset_setValue] at hn))
    (fun L b hb => onLevel_setValue_iff.2 (hw.sublist L b (onLevel_setValue_iff.1 hb)))

theorem SkipList.Shape.setValue (hs : s.Shape) : (s.setValue o val).Shape :=
  hs.of_relinks SkipList.relinks_setValue hs.height_pos hs.height_le
    (fun q L m hn _ => .inl (by rwa [nextOffset_setValue] at hn))
    (fun L b hb => onLevel_setValue_iff.2 (hs.sublist L b (onLevel_setValue_iff.1 hb)))

end SetValue

/-! ## The height CAS -/

/-- The height CAS moves no link. -/
theorem onLevel_setHeight_iff {s : SkipList} {h L b : Nat} :
    OnLevel ({ s with height := h } : SkipList) L b ↔ OnLevel s L b :=
  @reach_iff_of_nextOffset s { s with height := h } L (fun _ => rfl) headOffset b

theorem SkipList.le_setHeight {s : SkipList} {h : Nat} (hle : s.height ≤ h) : s.Le { s with height := h } :=
  SkipList.Relinks.le (fun _ => rfl) (fun _ _ hb => onLevel_setHeight_iff.2 hb) hle

/-- The height CAS keeps the invariant for a height in `1 ..= MAX_HEIGHT`. -/
theorem SkipList.Wf.setHeight {s : SkipList} (hw : s.Wf) {h : Nat} (h1 : 0 < h) (h2 : h ≤ maxHeight) :
    ({ s with height := h } : SkipList).Wf :=
  hw.of_relinks (fun _ => rfl) h1 h2 (fun _ _ _ hn _ => .inl hn)
    fun L b hb => onLevel_setHeight_iff.2 (hw.sublist L b (onLevel_setHeight_iff.1 hb))

/-- The height CAS keeps the shape for a height in `1 ..= MAX_HEIGHT`. -/
theorem SkipList.Shape.setHeight {s : SkipList} (hs : s.Shape) {h : Nat} (h1 : 0 < h) (h2 : h ≤ maxHeight) :
    ({ s with height := h } : SkipList).Shape :=
  hs.of_relinks (fun _ => rfl) h1 h2 (fun _ _ _ hn _ => .inl hn)
    fun L b hb => onLevel_setHeight_iff.2 (hs.sublist L b (onLevel_setHeight_iff.1 hb))

end Badger.Skl
