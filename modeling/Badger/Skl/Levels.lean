import Badger.Skl.Node

/-!
# The level lists and the structural invariant

`Reach s L a b`: `b` is reached from `a` by following level-`L` links; the level-`L` list is
what the head reaches. `SkipList.Wf` is the structural invariant the searches rely on:

* the list height is in `1 ..= MAX_HEIGHT`, the head has `MAX_HEIGHT` levels, every node has a
  height in `1 ..= MAX_HEIGHT` and a tower of that length;
* a non-zero `tower[L]` of a node refers to a node taller than `L`, never the head, whose key is
  above the node's (the head is below every key);
* every node of level `L + 1` is on level `L`.

A level is then a chain of strictly increasing keys (`Wf.reach_keyLt`) and two nodes of one level
are in one order or the other (`onLevel_total`).
-/

namespace Badger.Skl

/-- `b` is reached from `a` by level-`L` links. -/
inductive Reach (s : SkipList) (L : Nat) (a : Nat) : Nat → Prop
  | refl : Reach s L a a
  | tail {o m : Nat} : Reach s L a o → s.nextOffset o L = some m → m ≠ 0 → Reach s L a m

/-- `n` is on the level-`L` list from the head. -/
def OnLevel (s : SkipList) (L n : Nat) : Prop := Reach s L headOffset n

/-- A node of the arena: height in `1 ..= MAX_HEIGHT`, tower of that length. -/
structure Node.Wf (n : Node) : Prop where
  height_pos : 0 < n.height
  height_le : n.height ≤ maxHeight
  tower_length : n.tower.length = n.height

/-- The structural invariant. -/
structure SkipList.Wf (s : SkipList) : Prop where
  height_pos : 0 < s.height
  height_le : s.height ≤ maxHeight
  head : ∃ hd, s.getNode headOffset = some hd ∧ hd.height = maxHeight
  node : ∀ o n, s.getNode o = some n → n.Wf
  link : ∀ o L m, s.nextOffset o L = some m → m ≠ 0 →
    ∃ nm, s.getNode m = some nm ∧ L < nm.height ∧ m ≠ headOffset ∧
      (o = headOffset ∨ KeyLt (s.keyOf o) nm.key)
  sublist : ∀ L n, OnLevel s (L + 1) n → OnLevel s L n

/-- The shape half of the structural invariant: the heights and towers, links to taller nodes
other than the head, nested levels; no order of keys. -/
structure SkipList.Shape (s : SkipList) : Prop where
  height_pos : 0 < s.height
  height_le : s.height ≤ maxHeight
  head : ∃ hd, s.getNode headOffset = some hd ∧ hd.height = maxHeight
  node : ∀ o n, s.getNode o = some n → n.Wf
  link : ∀ o L m, s.nextOffset o L = some m → m ≠ 0 →
    ∃ nm, s.getNode m = some nm ∧ L < nm.height ∧ m ≠ headOffset
  sublist : ∀ L n, OnLevel s (L + 1) n → OnLevel s L n

/-- Slot `L` of node `o`'s tower is one `Node::new` allocated: `L` is below the node's height. -/
def SkipList.InTower (s : SkipList) (o L : Nat) : Prop := ∃ n, s.getNode o = some n ∧ L < n.height

theorem SkipList.Wf.shape {s : SkipList} (hw : s.Wf) : s.Shape where
  height_pos := hw.height_pos
  height_le := hw.height_le
  head := hw.head
  node := hw.node
  link o L m hm h0 := let ⟨nm, hnm, hlt, hne, _⟩ := hw.link o L m hm h0; ⟨nm, hnm, hlt, hne⟩
  sublist := hw.sublist

/-! ## Paths -/

section Paths
variable {s : SkipList} {L : Nat}

theorem Reach.trans {a b c : Nat} (h1 : Reach s L a b) (h2 : Reach s L b c) : Reach s L a c := by
  induction h2 with
  | refl => exact h1
  | tail _ hn h0 ih => exact .tail ih hn h0

theorem Reach.single {a m : Nat} (hn : s.nextOffset a L = some m) (h0 : m ≠ 0) : Reach s L a m :=
  .tail .refl hn h0

/-- A path leaves `a` by its one link. -/
theorem Reach.cases_head {a b : Nat} (h : Reach s L a b) :
    a = b ∨ ∃ m, s.nextOffset a L = some m ∧ m ≠ 0 ∧ Reach s L m b := by
  induction h with
  | refl => exact .inl rfl
  | tail _ hn h0 ih =>
    rcases ih with rfl | ⟨m, hm, hm0, hr⟩
    · exact .inr ⟨_, hn, h0, .refl⟩
    · exact .inr ⟨m, hm, hm0, .tail hr hn h0⟩

/-- Of two nodes a path from `a` reaches, one reaches the other. -/
theorem Reach.total {a b c : Nat} (hb : Reach s L a b) (hc : Reach s L a c) :
    Reach s L b c ∨ Reach s L c b := by
  induction hc with
  | refl => exact .inr hb
  | tail _ hn h0 ih =>
    rcases ih with h | h
    · exact .inl (.tail h hn h0)
    · rcases h.cases_head with rfl | ⟨m, hm, _, hr⟩
      · exact .inl (.single hn h0)
      · rw [hn] at hm; cases hm; exact .inr hr

theorem onLevel_total {b c : Nat} (hb : OnLevel s L b) (hc : OnLevel s L c) :
    Reach s L b c ∨ Reach s L c b :=
  Reach.total hb hc

/-- Around a link `a → b` of a level, a node of the level is at or before `a`, or at or after `b`. -/
theorem onLevel_split {a b m : Nat} (ha : OnLevel s L a) (hm : OnLevel s L m)
    (hb : s.nextOffset a L = some b) : Reach s L m a ∨ (b ≠ 0 ∧ Reach s L b m) := by
  rcases onLevel_total hm ha with h | h
  · exact .inl h
  · rcases h.cases_head with rfl | ⟨b', hb', hb0, hr⟩
    · exact .inl .refl
    · rw [hb] at hb'; cases hb'; exact .inr ⟨hb0, hr⟩

theorem Reach.eq_or_link {a b : Nat} (h : Reach s L a b) : a = b ∨ ∃ o, s.nextOffset o L = some b := by
  cases h with
  | refl => exact .inl rfl
  | tail _ hn _ => exact .inr ⟨_, hn⟩

theorem OnLevel.ne_zero {n : Nat} (h : OnLevel s L n) : n ≠ 0 := by
  cases h with
  | refl => decide
  | tail _ _ h0 => exact h0

theorem OnLevel.next {o m : Nat} (h : OnLevel s L o) (hn : s.nextOffset o L = some m) (h0 : m ≠ 0) :
    OnLevel s L m :=
  Reach.tail h hn h0

end Paths

/-! ## Consequences of the invariant -/

theorem lt_length_of_getNode {s : SkipList} {o : Nat} {n : Node} (h : s.getNode o = some n) :
    o < s.nodes.length + 1 := by
  unfold SkipList.getNode at h
  split at h
  · cases h
  · have := (List.getElem?_eq_some_iff.1 h).1; omega

theorem SkipList.keyOf_eq {s : SkipList} {m : Nat} {nm : Node} (h : s.getNode m = some nm) :
    s.keyOf m = nm.key := by
  simp [SkipList.keyOf, h]

namespace SkipList.Shape
variable {s : SkipList} (hs : s.Shape) {L : Nat}
include hs

theorem onLevel_getNode {n : Nat} (h : OnLevel s L n) : ∃ nn, s.getNode n = some nn := by
  cases h with
  | refl => obtain ⟨hd, hhd, -⟩ := hs.head; exact ⟨hd, hhd⟩
  | tail _ hn h0 => obtain ⟨nm, hm, -⟩ := hs.link _ L _ hn h0; exact ⟨nm, hm⟩

/-- `get_next` is `None` exactly at a zero link. -/
theorem getNext_eq {o m : Nat} (hn : s.nextOffset o L = some m) :
    s.getNext o L = some (if m = 0 then none else some m) := by
  simp only [SkipList.getNext, hn, Option.map_some', Option.some.injEq]
  by_cases h0 : m = 0
  · simp [SkipList.getNode, h0]
  · obtain ⟨nm, hm, -⟩ := hs.link o L m hn h0
    simp [hm, h0]

theorem getNext_some {o : Nat} {g : Option Nat} (h : s.getNext o L = some g) :
    ∃ m, s.nextOffset o L = some m ∧ g = if m = 0 then none else some m := by
  obtain ⟨m, hm, -⟩ := Option.map_eq_some'.1 h
  rw [hs.getNext_eq hm] at h
  exact ⟨m, hm, (Option.some.inj h).symm⟩

/-- A node on a level is on every level below. -/
theorem onLevel_le {n : Nat} : ∀ {L L'}, L' ≤ L → OnLevel s L n → OnLevel s L' n
  | L, L', hle, h => by
    induction L with
    | zero => exact Nat.le_zero.1 hle ▸ h
    | succ L ih =>
      rcases Nat.lt_or_ge L' (L + 1) with hl | hl
      · exact ih (by omega) (hs.sublist L n h)
      · exact (show L' = L + 1 by omega) ▸ h

/-- Nothing links back to the head. -/
theorem reach_head {a : Nat} (h : Reach s L a headOffset) : a = headOffset :=
  (Reach.eq_or_link h).elim id fun ⟨o, hn⟩ => absurd rfl (hs.link o L _ hn (by decide)).choose_spec.2.2

/-- A slot of a tower holds a link. -/
theorem nextOffset_of_inTower {n : Nat} (h : s.InTower n L) : ∃ m, s.nextOffset n L = some m := by
  obtain ⟨nn, hnn, hlt⟩ := h
  have hlen := (hs.node n nn hnn).tower_length
  exact ⟨nn.tower.get ⟨L, by omega⟩, by simp [SkipList.nextOffset, hnn]⟩

/-- **A node on level `L` below `MAX_HEIGHT` has slot `L` in its tower**: the head has
`MAX_HEIGHT` levels, and a link of level `L` leads to a node taller than `L`. -/
theorem inTower_of_onLevel {n : Nat} (h : OnLevel s L n) (hL : L < maxHeight) : s.InTower n L := by
  cases h with
  | refl => obtain ⟨hd, hhd, hh⟩ := hs.head; exact ⟨hd, hhd, hh ▸ hL⟩
  | tail _ hn h0 => obtain ⟨nm, hm, hlt, -⟩ := hs.link _ L _ hn h0; exact ⟨nm, hm, hlt⟩

theorem onLevel_nextOffset {n : Nat} (h : OnLevel s L n) (hL : L < maxHeight) :
    ∃ m, s.nextOffset n L = some m :=
  hs.nextOffset_of_inTower (hs.inTower_of_onLevel h hL)

end SkipList.Shape

namespace SkipList.Wf
variable {s : SkipList} (hw : s.Wf) {L : Nat}
include hw

/-- A link goes up in key, to a node taller than its level that is not the head. -/
theorem next_key {o m : Nat} (hn : s.nextOffset o L = some m) (h0 : m ≠ 0) :
    m ≠ headOffset ∧ (o = headOffset ∨ KeyLt (s.keyOf o) (s.keyOf m)) := by
  obtain ⟨nm, hm, -, hne, hk⟩ := hw.link o L m hn h0
  exact ⟨hne, SkipList.keyOf_eq hm ▸ hk⟩

/-- Keys go up along a level. -/
theorem reach_keyLt {a b : Nat} (h : Reach s L a b) :
    a = b ∨ (b ≠ headOffset ∧ (a = headOffset ∨ KeyLt (s.keyOf a) (s.keyOf b))) := by
  induction h with
  | refl => exact .inl rfl
  | tail _ hn h0 ih =>
    obtain ⟨hne, hk⟩ := hw.next_key hn h0
    refine .inr ⟨hne, ?_⟩
    rcases ih with rfl | ⟨hoh, ha | ha⟩
    · exact hk
    · exact .inl ha
    · rcases hk with hk | hk
      · exact absurd hk hoh
      · exact .inr (ha.trans hk)

/-- A path between two nodes other than the head goes up in key. -/
theorem reach_keyLt_of_ne {a b : Nat} (h : Reach s L a b) (hab : a ≠ b) (ha : a ≠ headOffset) :
    KeyLt (s.keyOf a) (s.keyOf b) := by
  rcases hw.reach_keyLt h with rfl | ⟨-, h | h⟩
  · exact absurd rfl hab
  · exact absurd h ha
  · exact h

/-- Nothing links back to the head. -/
theorem reach_head {a : Nat} (h : Reach s L a headOffset) : a = headOffset := by
  rcases hw.reach_keyLt h with rfl | ⟨h, -⟩
  · rfl
  · exact absurd rfl h

/-- Keys do not go down along a level from a node other than the head. -/
theorem reach_keyLe {a b : Nat} (h : Reach s L a b) (ha : a ≠ headOffset) :
    KeyLt (s.keyOf a) (s.keyOf b) ∨ s.keyOf a = s.keyOf b := by
  rcases hw.reach_keyLt h with rfl | ⟨-, h | h⟩
  · exact .inr rfl
  · exact absurd h ha
  · exact .inl h

theorem onLevel_getNode {n : Nat} (h : OnLevel s L n) : ∃ nn, s.getNode n = some nn :=
  hw.shape.onLevel_getNode h

/-- `get_next` is `None` exactly at a zero link. -/
theorem getNext_eq {o m : Nat} (hn : s.nextOffset o L = some m) :
    s.getNext o L = some (if m = 0 then none else some m) :=
  hw.shape.getNext_eq hn

/-- A node on a level is on every level below. -/
theorem onLevel_le {n : Nat} : ∀ {L L'}, L' ≤ L → OnLevel s L n → OnLevel s L' n :=
  hw.shape.onLevel_le

/-- A node on level `L` below `MAX_HEIGHT` has a level-`L` link to read. -/
theorem onLevel_nextOffset {n : Nat} (h : OnLevel s L n) (hL : L < maxHeight) :
    ∃ m, s.nextOffset n L = some m :=
  hw.shape.onLevel_nextOffset h hL

end SkipList.Wf

/-! ## The empty list -/

theorem getNode_new {o : Nat} {n : Node} (h : SkipList.new.getNode o = some n) :
    o = headOffset ∧ n.height = maxHeight ∧ n.tower = List.replicate maxHeight 0 := by
  rcases o with _ | _ | o <;> simp [SkipList.getNode, SkipList.new, Node.new, SkipList.putVal] at h
  subst h; exact ⟨rfl, rfl, rfl⟩

theorem nextOffset_new {o L m : Nat} (h : SkipList.new.nextOffset o L = some m) : m = 0 := by
  obtain ⟨n, hn, ht⟩ := Option.bind_eq_some.1 h
  rw [(getNode_new hn).2.2, List.getElem?_replicate] at ht
  split at ht
  · exact (Option.some.inj ht).symm
  · cases ht

theorem reach_new {L n : Nat} (h : OnLevel SkipList.new L n) : n = headOffset := by
  induction h with
  | refl => rfl
  | tail _ hn h0 => exact absurd (nextOffset_new hn) h0

/-- `SkipList::new` has the structural invariant. -/
theorem SkipList.wf_new : SkipList.new.Wf where
  height_pos := by decide
  height_le := by decide
  head := ⟨_, rfl, rfl⟩
  node o n h := by
    obtain ⟨-, hh, ht⟩ := getNode_new h
    exact ⟨by rw [hh]; decide, hh.le, by rw [ht, hh, List.length_replicate]⟩
  link o L m h h0 := absurd (nextOffset_new h) h0
  sublist L n h := reach_new h ▸ .refl
end Badger.Skl
