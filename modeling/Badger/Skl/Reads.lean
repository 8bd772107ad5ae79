import Badger.Skl.FindLast
import Badger.Skl.Put

/-!
# The searches read no tower slot past a node's height

`Node::new` (skl/mod.rs:67-84) allocates a node's tower only up to its height; a read at a level
at or above it lands in the next allocation of the arena. `SkipList.pad s junk` is the arena of
`s` with the offsets `junk o` stored past the tower of the node at each offset `o`: what such a
read would find. On a list with the shape (`SkipList.Shape`), `find_near`, `find_last`, `get` and
`find_splice_for_level` from a node of a level below `MAX_HEIGHT` return on `s.pad junk` what they
return on `s`, for every `junk` and every fuel: what they return does not depend on anything past
the towers. With enough fuel they do return (`findNear_spec`, `findLast_spec`), and a read past a
tower is `none` in the model, so none of their reads is past a tower. Each proof follows the
search along the level it stands on: a node on level `L` below `MAX_HEIGHT` has slot `L`
(`SkipList.Shape.inTower_of_onLevel`), and there the two arenas agree (`getNext_pad`).

| here | there |
| --- | --- |
| `SkipList.pad` | the arena past `put_node(height)`'s allocation |
| `findNearLoop_pad`, `findNear_pad` | `SkipList::find_near` (mod.rs:224-295) |
| `findSpliceForLevel_pad` | `SkipList::find_splice_for_level` (mod.rs:297-328) |
| `findLastLoop_pad`, `findLast_pad` | `SkipList::find_last` (mod.rs:435-452) |
| `get_pad` | `SkipList::get` (mod.rs:454-464) |
-/

namespace Badger.Skl

/-- The arena of `s` with the offsets `junk o` past the tower of the node at each offset `o`: what
a read at or above a node's height finds there. -/
def SkipList.pad (s : SkipList) (junk : Nat → List Nat) : SkipList :=
  { s with nodes := s.nodes.mapIdx fun i n => { n with tower := n.tower ++ junk (i + 1) } }

section Pad
variable (s : SkipList) (junk : Nat → List Nat)

@[simp] theorem SkipList.pad_height : (s.pad junk).height = s.height := rfl

@[simp] theorem SkipList.pad_getVal : (s.pad junk).getVal = s.getVal := rfl

theorem getNode_pad (o : Nat) :
    (s.pad junk).getNode o = (s.getNode o).map fun n => { n with tower := n.tower ++ junk o } := by
  unfold SkipList.getNode SkipList.pad
  split
  · rfl
  · next h => simp only [List.getElem?_mapIdx, Nat.sub_add_cancel (Nat.pos_of_ne_zero h)]

@[simp] theorem keyOf_pad (o : Nat) : (s.pad junk).keyOf o = s.keyOf o := by
  unfold SkipList.keyOf
  rw [getNode_pad]
  cases s.getNode o <;> rfl

variable {s} (hs : s.Shape)
include hs

/-- Below a node's height the padded arena holds the same link. -/
theorem nextOffset_pad {o L : Nat} (h : s.InTower o L) : (s.pad junk).nextOffset o L = s.nextOffset o L := by
  obtain ⟨n, hn, hlt⟩ := h
  have := (hs.node o n hn).tower_length
  simp only [SkipList.nextOffset, getNode_pad, hn, Option.map_some', Option.some_bind]
  exact List.getElem?_append_left (by omega)

theorem getNext_pad {o L : Nat} (h : s.InTower o L) : (s.pad junk).getNext o L = s.getNext o L := by
  simp only [SkipList.getNext, nextOffset_pad junk hs h, getNode_pad, Option.isSome_map']

end Pad

/-! ## A turn of `find_splice_for_level`, whatever the key -/

section Search
variable {s : SkipList} (hs : s.Shape) {key : List UInt8} {L : Nat}
include hs

/-- A turn from a node of a level below `MAX_HEIGHT` reads a slot of its tower. -/
theorem spliceStep_isSome {before : Nat} (hb : OnLevel s L before) (hL : L < maxHeight) :
    ∃ r, spliceStep s key before L = some r := by
  obtain ⟨m, hm⟩ := hs.onLevel_nextOffset hb hL
  exact ⟨_, by rw [spliceStep, hs.getNext_eq hm, Option.map_some']⟩

/-- A turn that moves right goes to a node of the level. -/
theorem spliceStep_inl_onLevel {before nx : Nat} (hb : OnLevel s L before)
    (h : spliceStep s key before L = some (.inl nx)) : OnLevel s L nx := by
  obtain ⟨g, hg, hr⟩ := Option.map_eq_some'.1 h
  obtain ⟨m, hm, rfl⟩ := hs.getNext_some hg
  by_cases h0 : m = 0
  · simp [h0] at hr
  · simp only [h0, if_false] at hr
    rcases hc : compareBytes key (s.keyOf m) <;> simp only [hc, reduceCtorEq, Sum.inl.injEq] at hr
    exact hr ▸ hb.next hm h0

/-- A turn that stops gives a node of the level, and a null or a node of the level other than
the head. -/
theorem spliceStep_inr_onLevel {before pre nxt : Nat} (hb : OnLevel s L before)
    (h : spliceStep s key before L = some (.inr (pre, nxt))) :
    OnLevel s L pre ∧ (nxt ≠ 0 → OnLevel s L nxt ∧ nxt ≠ headOffset) := by
  obtain ⟨g, hg, hr⟩ := Option.map_eq_some'.1 h
  obtain ⟨m, hm, rfl⟩ := hs.getNext_some hg
  by_cases h0 : m = 0
  · simp only [h0, if_true, Sum.inr.injEq, Prod.mk.injEq] at hr
    obtain ⟨rfl, rfl⟩ := hr
    exact ⟨hb, fun h => absurd rfl h⟩
  · have hm' : OnLevel s L m ∧ m ≠ headOffset :=
      ⟨hb.next hm h0, let ⟨_, _, _, hne⟩ := hs.link _ L m hm h0; hne⟩
    simp only [h0, if_false] at hr
    rcases hc : compareBytes key (s.keyOf m) <;>
      simp only [hc, reduceCtorEq, Sum.inr.injEq, Prod.mk.injEq] at hr <;> obtain ⟨rfl, rfl⟩ := hr
    · exact ⟨hb, fun _ => hm'⟩
    · exact ⟨hm'.1, fun _ => hm'⟩

end Search


/-! ## The searches -/

section Searches
variable {s : SkipList} (junk : Nat → List Nat) (hs : s.Shape) (key : List UInt8)
include hs

theorem spliceStep_pad {L before : Nat} (hb : OnLevel s L before) (hL : L < maxHeight) :
    spliceStep (s.pad junk) key before L = spliceStep s key before L := by
  simp only [spliceStep, getNext_pad junk hs (hs.inTower_of_onLevel hb hL), keyOf_pad]

/-- `find_splice_for_level` from a node of level `L` below `MAX_HEIGHT` reads no slot past a
tower. -/
theorem findSpliceForLevel_pad {L : Nat} (hL : L < maxHeight) : ∀ fuel before, OnLevel s L before →
    findSpliceForLevel (s.pad junk) key before L fuel = findSpliceForLevel s key before L fuel
  | 0, _, _ => rfl
  | fuel + 1, before, hb => by
    rw [findSpliceForLevel, findSpliceForLevel, spliceStep_pad junk hs key hb hL]
    rcases h : spliceStep s key before L with _ | nx | r
    · rfl
    · exact findSpliceForLevel_pad hL fuel nx (spliceStep_inl_onLevel hs hb h)
    · rfl

theorem findNearLoop_pad (less allowEqual : Bool) : ∀ fuel x level, level < s.height → OnLevel s level x →
    findNearLoop (s.pad junk) key less allowEqual fuel x level = findNearLoop s key less allowEqual fuel x level
  | 0, _, _, _, _ => rfl
  | fuel + 1, x, level, hl, hx => by
    have ih := findNearLoop_pad less allowEqual fuel
    have hL : level < maxHeight := by have := hs.height_le; omega
    have hdown : 0 < level → OnLevel s (level - 1) x := fun _ => hs.onLevel_le (by omega) hx
    rw [findNearLoop, findNearLoop, getNext_pad junk hs (hs.inTower_of_onLevel hx hL)]
    rcases hg : s.getNext x level with _ | _ | nx
    · rfl
    · dsimp only
      split_ifs <;> first | rfl | exact ih x (level - 1) (by omega) (hdown ‹_›)
    · obtain ⟨m, hm, hmx⟩ := hs.getNext_some hg
      have hnx : OnLevel s level nx := by
        by_cases h0 : m = 0 <;> simp only [h0, if_true, if_false, Option.some.injEq, reduceCtorEq] at hmx
        exact hmx ▸ hx.next hm h0
      dsimp only
      rw [keyOf_pad]
      rcases compareBytes key (s.keyOf nx) <;> dsimp only
      · split_ifs <;> first | rfl | exact ih x (level - 1) (by omega) (hdown ‹_›)
      · rw [getNext_pad junk hs (hs.inTower_of_onLevel (hs.onLevel_le (Nat.zero_le _) hnx) (by decide))]
        split_ifs <;> first | rfl | exact ih x (level - 1) (by omega) (hdown ‹_›)
      · exact ih nx level hl hnx

theorem findNear_pad (less allowEqual : Bool) (fuel : Nat) :
    findNear (s.pad junk) key less allowEqual fuel = findNear s key less allowEqual fuel :=
  findNearLoop_pad junk hs key less allowEqual fuel headOffset (s.height - 1) (by have := hs.height_pos; omega) .refl

theorem findLastLoop_pad : ∀ fuel n level, level < s.height → OnLevel s level n →
    findLastLoop (s.pad junk) fuel n level = findLastLoop s fuel n level
  | 0, _, _, _, _ => rfl
  | fuel + 1, n, level, hl, hn => by
    have hL : level < maxHeight := by have := hs.height_le; omega
    rw [findLastLoop, findLastLoop, getNext_pad junk hs (hs.inTower_of_onLevel hn hL)]
    rcases hg : s.getNext n level with _ | _ | nx
    · rfl
    · dsimp only
      split_ifs <;> first | rfl | exact findLastLoop_pad fuel n (level - 1) (by omega) (hs.onLevel_le (by omega) hn)
    · obtain ⟨m, hm, hmx⟩ := hs.getNext_some hg
      have hnx : OnLevel s level nx := by
        by_cases h0 : m = 0 <;> simp only [h0, if_true, if_false, Option.some.injEq, reduceCtorEq] at hmx
        exact hmx ▸ hn.next hm h0
      exact findLastLoop_pad fuel nx level hl hnx

theorem findLast_pad (fuel : Nat) : findLast (s.pad junk) fuel = findLast s fuel :=
  findLastLoop_pad junk hs fuel headOffset (s.height - 1) (by have := hs.height_pos; omega) .refl

theorem get_pad (fuel : Nat) : (s.pad junk).get key fuel = s.get key fuel := by
  rw [SkipList.get, SkipList.get, findNear_pad junk hs]
  congr 1
  funext r
  rcases r with ⟨_ | o, _ | _⟩ <;> try rfl
  simp only [if_true, Option.some_bind, getNode_pad]
  cases s.getNode o <;> rfl

end Searches

end Badger.Skl
