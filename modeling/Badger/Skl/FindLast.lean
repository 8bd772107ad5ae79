import Badger.Skl.Invariant

/-!
# `SkipList::find_last` and `SkipList::empty` (skl/mod.rs:429-452)

The loop moves right while the next node is not null and otherwise steps down a level, from the
head at `height - 1`; at level 0 it returns the node it stands on, or `None` at the head.

| here | there |
| --- | --- |
| `findLastLoop` | the `loop` of `find_last` (mod.rs:438-451) |
| `findLast` | `SkipList::find_last` (mod.rs:435-452) |
| `SkipList.empty` | `SkipList::empty` (mod.rs:429-431) |

`findLast_spec`: on a list with the structural invariant and with `height * (nodes + 2)` turns,
`find_last` returns the last node of level 0, which has the greatest key, and `None` exactly when
level 0 holds no node but the head; `empty` is then true exactly when the head's level-0 link is
null. The stop at level 0 is the last node because every node met on a level above is on level 0.
-/

namespace Badger.Skl

/-- The loop of `SkipList::find_last` at node `n` and `level`; `none` is a run out of fuel or a
read past a tower. -/
def findLastLoop (s : SkipList) : Nat → Nat → Nat → Option (Option Nat)
  | 0, _, _ => none
  | fuel + 1, n, level =>
    match s.getNext n level with
    | none => none
    | some (some nx) => findLastLoop s fuel nx level
    | some none =>
      if level = 0 then some (if n = headOffset then none else some n)
      else findLastLoop s fuel n (level - 1)

/-- `SkipList::find_last`. -/
def findLast (s : SkipList) (fuel : Nat) : Option (Option Nat) :=
  findLastLoop s fuel headOffset (s.height - 1)

/-- `SkipList::empty`: `find_last` returns `None`. -/
def SkipList.empty (s : SkipList) (fuel : Nat) : Option Bool := (findLast s fuel).map Option.isNone

/-- What `find_last` returns: a node of level 0 other than the head whose level-0 link is null,
or `None` when level 0 holds only the head. -/
def LastSpec (s : SkipList) : Option Nat → Prop
  | none => ∀ m, OnLevel s 0 m → m = headOffset
  | some n => OnLevel s 0 n ∧ n ≠ headOffset ∧ s.nextOffset n 0 = some 0

/-- A node of level 0 whose link is null is the last one: every node of the level reaches it. -/
theorem reach_last {s : SkipList} {n m : Nat} (hn : OnLevel s 0 n) (hn0 : s.nextOffset n 0 = some 0)
    (hm : OnLevel s 0 m) : Reach s 0 m n :=
  (onLevel_split hn hm hn0).resolve_right fun h => h.1 rfl

section Loop
variable {s : SkipList} (hw : s.Wf)
include hw

theorem findLastLoop_spec : ∀ fuel n level, level < s.height → OnLevel s level n →
    level * (s.nodes.length + 2) + (s.nodes.length + 1 - rank s n) < fuel →
    ∃ r, findLastLoop s fuel n level = some r ∧ LastSpec s r
  | 0, _, _, _, _, hμ => absurd hμ (Nat.not_lt_zero _)
  | fuel + 1, n, level, hlv, hn, hμ => by
    have hrank := rank_le s n
    obtain ⟨nx, hnx⟩ := hw.onLevel_nextOffset hn (by have := hw.height_le; omega)
    rw [findLastLoop, hw.getNext_eq hnx]
    by_cases h0 : nx = 0
    · subst h0
      simp only [if_true]
      split
      · next hl =>
        subst hl
        refine ⟨_, rfl, ?_⟩
        split
        · next hh => exact fun m hm => hw.reach_head (hh ▸ reach_last hn hnx hm)
        · next hh => exact ⟨hn, hh, hnx⟩
      · obtain ⟨l, rfl⟩ : ∃ l, level = l + 1 := ⟨level - 1, by omega⟩
        rw [Nat.succ_mul] at hμ
        exact findLastLoop_spec fuel n l (by omega) (hw.onLevel_le (Nat.le_succ l) hn) (by omega)
    · simp only [if_neg h0]
      have := rank_lt_next hw hn hnx h0
      have := rank_le s nx
      exact findLastLoop_spec fuel nx level hlv (hn.next hnx h0) (by omega)

end Loop

/-- **`find_last` and `empty`.** On a skiplist with the structural invariant, `find_last` ends
within `height * (nodes + 2)` turns. It returns `None` exactly when level 0 holds no node but the
head, and otherwise a node of level 0, never the head, that is last on the level and has the
greatest key of it. `empty` is true exactly when no node is linked at level 0, the head's link
being null. -/
theorem findLast_spec (s : SkipList) (hw : s.Wf) (fuel : Nat) (hf : s.height * (s.nodes.length + 2) ≤ fuel) :
    ∃ r, findLast s fuel = some r ∧
      (r = none ↔ ∀ m, OnLevel s 0 m → m = headOffset) ∧
      (∀ n, r = some n → OnLevel s 0 n ∧ n ≠ headOffset ∧ s.nextOffset n 0 = some 0 ∧
        ∀ m, OnLevel s 0 m → m ≠ headOffset → m ≠ n → KeyLt (s.keyOf m) (s.keyOf n)) ∧
      (s.empty fuel = some true ↔ s.nextOffset headOffset 0 = some 0) := by
  obtain ⟨h, hh⟩ : ∃ h, s.height = h + 1 := ⟨s.height - 1, by have := hw.height_pos; omega⟩
  obtain ⟨r, e, hr⟩ := findLastLoop_spec hw fuel headOffset (s.height - 1) (by omega)
    (.refl) (by rw [hh, Nat.succ_mul] at hf; simp only [rank, if_pos, hh, Nat.add_sub_cancel]; omega)
  have hnone : r = none ↔ ∀ m, OnLevel s 0 m → m = headOffset := by
    cases r with
    | none => exact ⟨fun _ => hr, fun _ => rfl⟩
    | some n => exact ⟨fun h => Option.noConfusion h, fun h => absurd (h n hr.1) hr.2.1⟩
  have hhead : (∀ m, OnLevel s 0 m → m = headOffset) ↔ s.nextOffset headOffset 0 = some 0 := by
    obtain ⟨m, hm⟩ := hw.onLevel_nextOffset (show OnLevel s 0 headOffset from .refl) (by decide)
    refine ⟨fun h => ?_, fun h m hm' => hw.reach_head (reach_last .refl h hm')⟩
    by_contra h0
    have hm0 : m ≠ 0 := fun e => h0 (e ▸ hm)
    exact (hw.next_key hm hm0).1 (h m (OnLevel.next .refl hm hm0))
  refine ⟨r, e, hnone, fun n hn => ?_, ?_⟩
  · subst hn
    obtain ⟨hn, hne, hn0⟩ := hr
    exact ⟨hn, hne, hn0, fun m hm hmh hmn => hw.reach_keyLt_of_ne (reach_last hn hn0 hm) hmn hmh⟩
  · rw [← hhead, ← hnone, SkipList.empty, findLast, e, Option.map_some', Option.some.injEq, Option.isNone_iff_eq_none]

/-- The list of `put(b"b")` and `put(b"a")`: `find_last` returns the node of `b"b"`, the last of
level 0, and the list is not empty. -/
theorem findLast_two_puts :
    twoPuts.list.Wf ∧ twoPuts.list.height * (twoPuts.list.nodes.length + 2) ≤ 10 ∧
      findLast twoPuts.list 10 = some (some 2) ∧ twoPuts.list.keyOf 2 = [0x62] ∧
      twoPuts.list.empty 10 = some false ∧
      ∃ r, findLast twoPuts.list 10 = some r ∧
        (r = none ↔ ∀ m, OnLevel twoPuts.list 0 m → m = headOffset) ∧
        (∀ n, r = some n → OnLevel twoPuts.list 0 n ∧ n ≠ headOffset ∧ twoPuts.list.nextOffset n 0 = some 0 ∧
          ∀ m, OnLevel twoPuts.list 0 m → m ≠ headOffset → m ≠ n →
            KeyLt (twoPuts.list.keyOf m) (twoPuts.list.keyOf n)) ∧
        (twoPuts.list.empty 10 = some true ↔ twoPuts.list.nextOffset headOffset 0 = some 0) :=
  ⟨twoPuts_wf, by decide, by decide, by decide, by decide, findLast_spec _ twoPuts_wf 10 (by decide)⟩

end Badger.Skl
