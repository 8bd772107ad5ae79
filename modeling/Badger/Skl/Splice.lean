import Badger.Skl.Invariant

/-!
# `SkipList::find_splice_for_level` on one sorted level (skl/mod.rs:297-328)

`findSpliceForLevel` walks level `i` from `before` while the next key is below `key`. It needs
only that level: `SkipList.SortedLevel s i` says that keys go up strictly along the level-`i` list
from the head, the head's key included, and that each node of the list has its level-`i` link
(a read past a tower is a fault of the model, see `SkipList.nextOffset`).

`findSpliceForLevel_spec`: from `before`, the head or a node of the level below `key`, the loop
ends within `nodes + 2` turns, with `(n, n)` when some node `n` after `before` has key `key`,
and otherwise with a splice `(p, next)` around `key`. The turns are enough because each one moves
to a larger key (`rank_lt_of_keyLt`). When `p` is `before` and that is the head, `p`'s key need
not be below `key`: the head of `SkipList::new` has key `b""` (`splice_returns_head_at_empty_key`).
-/

namespace Badger.Skl

/-- The level-`i` list from the head as `find_splice_for_level` walks it: each of its nodes has
its level-`i` link, and keys go up strictly along each link, from the head's key on. -/
structure SkipList.SortedLevel (s : SkipList) (i : Nat) : Prop where
  link : ∀ a, OnLevel s i a → ∃ m, s.nextOffset a i = some m
  sorted : ∀ a b, OnLevel s i a → s.nextOffset a i = some b → b ≠ 0 → KeyLt (s.keyOf a) (s.keyOf b)

theorem getNode_of_nextOffset {s : SkipList} {o L m : Nat} (h : s.nextOffset o L = some m) :
    ∃ n, s.getNode o = some n :=
  let ⟨n, hn, _⟩ := Option.bind_eq_some.1 h
  ⟨n, hn⟩

theorem mem_drop_one_of_getNode {s : SkipList} {o : Nat} {n : Node} (h : s.getNode o = some n)
    (ho : o ≠ headOffset) : n ∈ s.nodes.drop 1 := by
  unfold SkipList.getNode at h
  split_ifs at h with h0
  refine List.mem_iff_getElem?.2 ⟨o - 2, ?_⟩
  rw [List.getElem?_drop, show 1 + (o - 2) = o - 1 by unfold headOffset at ho; omega, h]

/-- A well-formed list whose head's key is below every other node's key has each level below
`MAX_HEIGHT` sorted. -/
theorem SkipList.Wf.sortedLevel {s : SkipList} (hw : s.Wf) {i : Nat} (hi : i < maxHeight)
    (hhead : ∀ n ∈ s.nodes.drop 1, KeyLt (s.keyOf headOffset) n.key) : s.SortedLevel i where
  link _ ha := hw.onLevel_nextOffset ha hi
  sorted a b _ hb h0 := by
    obtain ⟨nm, hnm, -, hne, hk⟩ := hw.link a i b hb h0
    rw [SkipList.keyOf_eq hnm]
    rcases hk with rfl | hk
    exacts [hhead nm (mem_drop_one_of_getNode hnm hne), hk]

section Sorted
variable {s : SkipList} {i : Nat} (hs : s.SortedLevel i)
include hs

/-- Keys go up along the level. -/
theorem SkipList.SortedLevel.reach_keyLt {a b : Nat} (ha : OnLevel s i a) (h : Reach s i a b) :
    a = b ∨ KeyLt (s.keyOf a) (s.keyOf b) := by
  induction h with
  | refl => exact .inl rfl
  | tail hr hn h0 ih =>
    have hk := hs.sorted _ _ (ha.trans hr) hn h0
    rcases ih with rfl | ih
    · exact .inr hk
    · exact .inr (ih.trans hk)

theorem SkipList.SortedLevel.keyLe {a b : Nat} (ha : OnLevel s i a) (h : Reach s i a b) :
    KeyLt (s.keyOf a) (s.keyOf b) ∨ s.keyOf a = s.keyOf b :=
  (hs.reach_keyLt ha h).elim (fun e => .inr (congrArg _ e)) .inl

/-- Nothing on the level leads back to the head. -/
theorem SkipList.SortedLevel.reach_head {a : Nat} (ha : OnLevel s i a) (h : Reach s i a headOffset) :
    a = headOffset := by
  rcases hs.reach_keyLt ha h with e | h1
  · exact e
  rcases hs.reach_keyLt .refl ha with e | h2
  · exact e.symm
  · exact absurd (h2.trans h1) (KeyLt.irrefl _)

/-- Two nodes of the level with one key are one node. -/
theorem SkipList.SortedLevel.eq_of_keyOf_eq {a b : Nat} (ha : OnLevel s i a) (hb : OnLevel s i b)
    (h : s.keyOf a = s.keyOf b) : a = b := by
  rcases onLevel_total ha hb with hr | hr
  · exact (hs.reach_keyLt ha hr).resolve_right fun hk => KeyLt.irrefl _ (h ▸ hk)
  · exact ((hs.reach_keyLt hb hr).resolve_right fun hk => KeyLt.irrefl _ (h ▸ hk)).symm

/-- A link of the level leads to a node of the arena. -/
theorem SkipList.SortedLevel.getNode_next {o m : Nat} (ho : OnLevel s i o)
    (hm : s.nextOffset o i = some m) (h0 : m ≠ 0) : ∃ nm, s.getNode m = some nm := by
  have hk := hs.sorted _ _ ho hm h0
  cases h : s.getNode m with
  | none =>
    simp only [SkipList.keyOf, h, Option.map_none', Option.getD_none] at hk
    exact absurd hk (not_keyLt_nil _)
  | some nm => exact ⟨nm, rfl⟩

/-- `get_next` on the level is `None` exactly at a zero link. -/
theorem SkipList.SortedLevel.getNext_eq {o m : Nat} (ho : OnLevel s i o) (hm : s.nextOffset o i = some m) :
    s.getNext o i = some (if m = 0 then none else some m) := by
  simp only [SkipList.getNext, hm, Option.map_some', Option.some.injEq]
  by_cases h0 : m = 0
  · simp [SkipList.getNode, h0]
  · obtain ⟨nm, hnm⟩ := hs.getNode_next ho hm h0
    simp [hnm, h0]

/-- No link of the level leads to the head. -/
theorem SkipList.SortedLevel.ne_head {o m : Nat} (ho : OnLevel s i o) (hm : s.nextOffset o i = some m)
    (h0 : m ≠ 0) : m ≠ headOffset := by
  rintro rfl
  obtain rfl := hs.reach_head ho (.single hm h0)
  exact KeyLt.irrefl _ (hs.sorted _ _ ho hm h0)

/-- A link of the level moves right. -/
theorem SkipList.SortedLevel.rank_lt {o m : Nat} (ho : OnLevel s i o) (hm : s.nextOffset o i = some m)
    (h0 : m ≠ 0) : rank s o < rank s m :=
  rank_lt_of_keyLt (getNode_of_nextOffset hm) (hs.ne_head ho hm h0) (.inr (hs.sorted _ _ ho hm h0))

/-- What the loop returns from `x`: the node of `key` after `x` twice, or a node at or after `x`
below `key` (or the head) and its link, above `key` unless null. -/
theorem findSpliceForLevel_loop {key : List UInt8} :
    ∀ fuel x, Before s key i x → s.nodes.length + 1 - rank s x < fuel →
      ∃ p nxt, findSpliceForLevel s key x i fuel = some (p, nxt) ∧
        ((nxt ≠ 0 ∧ p = nxt ∧ Reach s i x nxt ∧ nxt ≠ x ∧ s.keyOf nxt = key) ∨
          (Reach s i x p ∧ Before s key i p ∧ s.nextOffset p i = some nxt ∧ (nxt ≠ 0 → KeyLt key (s.keyOf nxt))))
  | 0, _, _, hμ => absurd hμ (Nat.not_lt_zero _)
  | fuel + 1, x, hb, hμ => by
    obtain ⟨m, hm⟩ := hs.link x hb.1
    simp only [findSpliceForLevel, spliceStep, hs.getNext_eq hb.1 hm, Option.map_some']
    by_cases h0 : m = 0
    · subst h0
      exact ⟨_, _, rfl, .inr ⟨.refl, hb, hm, fun h => absurd rfl h⟩⟩
    simp only [h0, if_false]
    have hk := hs.sorted _ _ hb.1 hm h0
    rcases hc : compareBytes key (s.keyOf m)
    · exact ⟨_, _, rfl, .inr ⟨.refl, hb, hm, fun _ => hc⟩⟩
    · exact ⟨_, _, rfl, .inl ⟨h0, rfl, .single hm h0, fun e => KeyLt.irrefl _ (e ▸ hk),
        (compareBytes_eq_iff.1 hc).symm⟩⟩
    · have hr := hs.rank_lt hb.1 hm h0
      have := rank_le s m
      obtain ⟨p, nxt, e, h⟩ := findSpliceForLevel_loop fuel m
        ⟨hb.1.next hm h0, .inr (compareBytes_gt_iff.1 hc)⟩ (by omega)
      refine ⟨p, nxt, e, ?_⟩
      rcases h with ⟨h1, h2, h3, -, h5⟩ | ⟨h1, h2, h3, h4⟩
      · refine .inl ⟨h1, h2, (Reach.single hm h0).trans h3, fun e => ?_, h5⟩
        subst e
        exact KeyLt.irrefl _ (keyLt_of_lt_of_le hk (hs.keyLe (hb.1.next hm h0) h3))
      · exact .inr ⟨(Reach.single hm h0).trans h1, h2, h3, h4⟩

end Sorted

/-- **`find_splice_for_level`.** On a level whose list from the head has strictly increasing keys
(each of its nodes with its level-`i` link), from `before` the head or a node of the level below
`key`, the loop ends within `nodes + 2` turns: with `(n, n)` when a node `n` after `before` on
the level has key `key`, and otherwise with `(p, next)`: `p` on the level at or after `before`,
the head or below `key`, `next` its level-`i` link, above `key` unless null, and null exactly when
`p` is the last node of the level. -/
theorem findSpliceForLevel_spec (s : SkipList) (i : Nat) (hs : s.SortedLevel i) (key : List UInt8)
    (before : Nat) (hb : Before s key i before) (fuel : Nat) (hf : s.nodes.length + 2 ≤ fuel) :
    ∃ p nxt, findSpliceForLevel s key before i fuel = some (p, nxt) ∧
      (∀ n, Reach s i before n → n ≠ before → s.keyOf n = key → p = n ∧ nxt = n) ∧
      ((¬ ∃ n, Reach s i before n ∧ n ≠ before ∧ s.keyOf n = key) →
        Reach s i before p ∧ (p = headOffset ∨ KeyLt (s.keyOf p) key) ∧ s.nextOffset p i = some nxt ∧
        (nxt ≠ 0 → KeyLt key (s.keyOf nxt)) ∧ (nxt = 0 ↔ ∀ m, Reach s i p m → m = p)) := by
  have := rank_le s before
  obtain ⟨p, nxt, e, h⟩ := findSpliceForLevel_loop hs fuel before hb (by omega)
  refine ⟨p, nxt, e, fun n hn hne hk => ?_, fun hno => ?_⟩
  · have hnl : OnLevel s i n := hb.1.trans hn
    rcases h with ⟨-, rfl, h3, -, h5⟩ | ⟨h1, h2, h3, h4⟩
    · have := hs.eq_of_keyOf_eq hnl (hb.1.trans h3) (hk.trans h5.symm)
      exact ⟨this.symm, this.symm⟩
    · exfalso
      rcases onLevel_split (hb.1.trans h1) hnl h3 with hnp | ⟨hn0, hnx⟩
      · rcases h2.2 with rfl | hpk
        · exact hne ((hs.reach_head hnl hnp).trans (hs.reach_head hb.1 h1).symm)
        · exact KeyLt.irrefl _ (hk ▸ keyLt_of_le_of_lt (hs.keyLe hnl hnp) hpk)
      · exact KeyLt.irrefl _ (hk ▸ keyLt_of_lt_of_le (h4 hn0) (hs.keyLe (OnLevel.next (hb.1.trans h1) h3 hn0) hnx))
  · rcases h with ⟨h1, -, h3, h4, h5⟩ | ⟨h1, h2, h3, h4⟩
    · exact absurd ⟨nxt, h3, h4, h5⟩ hno
    refine ⟨h1, h2.2, h3, h4, ⟨fun h0 m hm => ?_, fun hlast => ?_⟩⟩
    · rcases hm.cases_head with rfl | ⟨m', hm', hm0, -⟩
      · rfl
      · rw [h3, h0] at hm'; exact absurd (Option.some.inj hm').symm hm0
    · by_contra h0
      have hpn := hlast nxt (.single h3 h0)
      exact KeyLt.irrefl _ (hpn ▸ hs.sorted _ _ (hb.1.trans h1) h3 h0)

theorem sortedLevel_new : SkipList.new.SortedLevel 0 where
  link a ha := ⟨0, by rw [reach_new ha]; rfl⟩
  sorted _ _ _ hb h0 := absurd (nextOffset_new hb) h0

/-- On the list of `put(b"b")` and `put(b"a")`, `find_splice_for_level(b"b", head, 0)` returns
the node of `b"b"` twice. -/
theorem findSpliceForLevel_two_puts :
    twoPuts.list.SortedLevel 0 ∧ Before twoPuts.list [0x62] 0 headOffset ∧ twoPuts.list.nodes.length + 2 ≤ 5 ∧
      findSpliceForLevel twoPuts.list [0x62] headOffset 0 5 = some (2, 2) ∧
      ∃ p nxt, findSpliceForLevel twoPuts.list [0x62] headOffset 0 5 = some (p, nxt) ∧
        (∀ n, Reach twoPuts.list 0 headOffset n → n ≠ headOffset → twoPuts.list.keyOf n = [0x62] →
          p = n ∧ nxt = n) ∧
        ((¬ ∃ n, Reach twoPuts.list 0 headOffset n ∧ n ≠ headOffset ∧ twoPuts.list.keyOf n = [0x62]) →
          Reach twoPuts.list 0 headOffset p ∧ (p = headOffset ∨ KeyLt (twoPuts.list.keyOf p) [0x62]) ∧
          twoPuts.list.nextOffset p 0 = some nxt ∧ (nxt ≠ 0 → KeyLt [0x62] (twoPuts.list.keyOf nxt)) ∧
          (nxt = 0 ↔ ∀ m, Reach twoPuts.list 0 p m → m = p)) :=
  have hs : twoPuts.list.SortedLevel 0 := twoPuts_wf.sortedLevel (by decide) (by decide)
  ⟨hs, before_head _ _ _, by decide, by decide,
    findSpliceForLevel_spec _ _ hs _ _ (before_head _ _ _) 5 (by decide)⟩

/-- `find_splice_for_level(b"", head, 0)` on `SkipList::new`: the level is sorted and no node
after the head has key `b""`, and the loop returns the head, whose key `b""` is not below `b""`. -/
theorem splice_returns_head_at_empty_key :
    SkipList.new.SortedLevel 0 ∧ Before SkipList.new [] 0 headOffset ∧
      findSpliceForLevel SkipList.new [] headOffset 0 3 = some (headOffset, 0) ∧
      (¬ ∃ n, Reach SkipList.new 0 headOffset n ∧ n ≠ headOffset ∧ SkipList.new.keyOf n = []) ∧
      ¬ KeyLt (SkipList.new.keyOf headOffset) [] :=
  ⟨sortedLevel_new, before_head _ _ _, rfl, fun ⟨_, hn, hne, _⟩ => hne (reach_new hn), not_keyLt_nil _⟩

end Badger.Skl
