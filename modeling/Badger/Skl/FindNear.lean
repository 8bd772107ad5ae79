import Mathlib.Data.Finset.Card
import Badger.Skl.Levels

/-!
# `SkipList::find_near` (skl/mod.rs:218-295)

The loop walks right while the next key is below `key` and steps down a level otherwise, from the
head at `height - 1`. `findNearLoop` gives it `fuel` turns; `none` is a run out of fuel or a read
past a tower.

`findNear_nearSpec`: on a list with the structural invariant and with `height * (nodes + 2)`
turns, `find_near` returns what its comment promises, `NearSpec`: among the nodes of level 0 other than
the head, the leftmost whose key is above `key` (or equal, with `allow_equal`), or with `less`
the rightmost below it, or `None` when there is none; the flag says whether the key is `key`.
The turns are enough because each one moves right to a larger key or down a level.
-/

namespace Badger.Skl

/-- `return (Some(x), false)` unless `x` is the head. -/
def lastBelow (x : Nat) : Option Nat × Bool := if x = headOffset then (none, false) else (some x, false)

/-- The loop of `SkipList::find_near` at node `x` and `level`. -/
def findNearLoop (s : SkipList) (key : List UInt8) (less allowEqual : Bool) :
    Nat → Nat → Nat → Option (Option Nat × Bool)
  | 0, _, _ => none
  | fuel + 1, x, level =>
    match s.getNext x level with
    | none => none
    | some none =>
      if 0 < level then findNearLoop s key less allowEqual fuel x (level - 1)
      else if !less then some (none, false)
      else some (lastBelow x)
    | some (some nx) =>
      match compareBytes key (s.keyOf nx) with
      | .gt => findNearLoop s key less allowEqual fuel nx level
      | .eq =>
        if allowEqual then some (some nx, true)
        else if !less then (s.getNext nx 0).map fun n => (n, false)
        else if 0 < level then findNearLoop s key less allowEqual fuel x (level - 1)
        else some (lastBelow x)
      | .lt =>
        if 0 < level then findNearLoop s key less allowEqual fuel x (level - 1)
        else if !less then some (some nx, false)
        else some (lastBelow x)

/-- `SkipList::find_near`. -/
def findNear (s : SkipList) (key : List UInt8) (less allowEqual : Bool) (fuel : Nat) :
    Option (Option Nat × Bool) :=
  findNearLoop s key less allowEqual fuel headOffset (s.height - 1)

/-- The keys `find_near` may return: below `key` with `less`, above it otherwise, or equal to it
with `allow_equal`. -/
def Candidate (key : List UInt8) (less allowEqual : Bool) (k : List UInt8) : Prop :=
  (if less then KeyLt k key else KeyLt key k) ∨ (allowEqual = true ∧ k = key)

/-- What `find_near` returns, after its comment: the leftmost candidate of level 0 (the rightmost
with `less`) other than the head, or `None` when there is none, and whether its key is `key`. -/
def NearSpec (s : SkipList) (key : List UInt8) (less allowEqual : Bool) : Option Nat × Bool → Prop
  | (none, found) =>
    found = false ∧ ∀ m, OnLevel s 0 m → m ≠ headOffset → ¬ Candidate key less allowEqual (s.keyOf m)
  | (some n, found) =>
    OnLevel s 0 n ∧ n ≠ headOffset ∧ Candidate key less allowEqual (s.keyOf n) ∧
      (∀ m, OnLevel s 0 m → m ≠ headOffset → Candidate key less allowEqual (s.keyOf m) →
        if less then Reach s 0 m n else Reach s 0 n m) ∧
      (found = true ↔ s.keyOf n = key)

@[simp] theorem candidate_true {key k : List UInt8} {allowEqual : Bool} :
    Candidate key true allowEqual k ↔ KeyLt k key ∨ (allowEqual = true ∧ k = key) := Iff.rfl

@[simp] theorem candidate_false {key k : List UInt8} {allowEqual : Bool} :
    Candidate key false allowEqual k ↔ KeyLt key k ∨ (allowEqual = true ∧ k = key) := Iff.rfl

theorem KeyLt.asymm {a b : List UInt8} (h : KeyLt a b) : ¬ KeyLt b a := fun h' =>
  KeyLt.irrefl a (h.trans h')

theorem KeyLt.ne {a b : List UInt8} (h : KeyLt a b) : a ≠ b := fun e => KeyLt.irrefl a (e ▸ h)

/-! ## The answers the loop gives -/

section Answers
variable {s : SkipList} (hw : s.Wf) {key : List UInt8} {allowEqual : Bool}
include hw

/-- With `less`: `x`, unless it is the head, when no candidate lies after it on level 0. -/
theorem nearSpec_lastBelow {x : Nat} (hx : OnLevel s 0 x) (hxk : x = headOffset ∨ KeyLt (s.keyOf x) key)
    (hup : ∀ m, OnLevel s 0 m → m ≠ headOffset → ¬ Reach s 0 m x →
      ¬ Candidate key true allowEqual (s.keyOf m)) :
    NearSpec s key true allowEqual (lastBelow x) := by
  unfold lastBelow
  split
  · next hh => exact ⟨rfl, fun m hm hne => hup m hm hne fun h => hne (hw.reach_head (hh ▸ h))⟩
  · next hh =>
    have hlt := hxk.resolve_left hh
    refine ⟨hx, hh, .inl hlt, fun m hm hne hc => ?_, ?_⟩
    · show Reach s 0 m x
      by_contra h; exact hup m hm hne h hc
    · simpa using hlt.ne

/-- Without `less`: the successor `b` of `a` on level 0, or `None`, when no candidate lies at or
before `a` and `b` is one. -/
theorem nearSpec_next {a b : Nat} (ha : OnLevel s 0 a) (hb : s.nextOffset a 0 = some b)
    (hlow : ∀ m, OnLevel s 0 m → m ≠ headOffset → Reach s 0 m a →
      ¬ Candidate key false allowEqual (s.keyOf m))
    (hbc : b ≠ 0 → KeyLt key (s.keyOf b)) :
    NearSpec s key false allowEqual (if b = 0 then none else some b, false) := by
  split
  · next hb0 =>
    refine ⟨rfl, fun m hm hne hc => ?_⟩
    rcases onLevel_split ha hm hb with h | ⟨h, -⟩
    · exact hlow m hm hne h hc
    · exact h hb0
  · next hb0 =>
    have hlt := hbc hb0
    refine ⟨ha.next hb hb0, (hw.next_key hb hb0).1, .inl hlt, fun m hm hne hc => ?_, ?_⟩
    · show Reach s 0 b m
      rcases onLevel_split ha hm hb with h | ⟨-, h⟩
      · exact absurd hc (hlow m hm hne h)
      · exact h
    · simpa using hlt.ne.symm

/-- With `allow_equal`: a node of level 0 whose key is `key`. -/
theorem nearSpec_equal {less : Bool} {n : Nat} (hn : OnLevel s 0 n) (hne : n ≠ headOffset)
    (hk : s.keyOf n = key) : NearSpec s key less true (some n, true) := by
  refine ⟨hn, hne, .inr ⟨rfl, hk⟩, fun m hm hme hc => ?_, by simpa using hk⟩
  by_cases hmn : m = n
  · subst hmn; cases less <;> exact .refl
  have above : Reach s 0 n m → KeyLt key (s.keyOf m) := fun h =>
    hk ▸ hw.reach_keyLt_of_ne h (Ne.symm hmn) hne
  have below : Reach s 0 m n → KeyLt (s.keyOf m) key := fun h =>
    hk ▸ hw.reach_keyLt_of_ne h hmn hme
  cases less
  · rcases onLevel_total hn hm with h | h
    · exact h
    · simp only [candidate_false] at hc
      rcases hc with hc | ⟨-, hc⟩
      · exact absurd hc (below h).asymm
      · exact absurd hc (below h).ne
  · rcases onLevel_total hm hn with h | h
    · exact h
    · simp only [candidate_true] at hc
      rcases hc with hc | ⟨-, hc⟩
      · exact absurd hc (above h).asymm
      · exact absurd hc (above h).ne.symm

end Answers

theorem keyLt_of_le_of_lt {a b c : List UInt8} (h1 : KeyLt a b ∨ a = b) (h2 : KeyLt b c) : KeyLt a c := by
  rcases h1 with h1 | rfl
  · exact h1.trans h2
  · exact h2

theorem keyLt_of_lt_of_le {a b c : List UInt8} (h1 : KeyLt a b) (h2 : KeyLt b c ∨ b = c) : KeyLt a c := by
  rcases h2 with h2 | rfl
  · exact h1.trans h2
  · exact h1

/-- A key at or below one under `key` (or equal to it, without `allow_equal`) is no candidate
without `less`. -/
theorem not_candidate_false {key k k0 : List UInt8} {allowEqual : Bool} (hk : KeyLt k k0 ∨ k = k0)
    (h0 : KeyLt k0 key ∨ (allowEqual = false ∧ k0 = key)) : ¬ Candidate key false allowEqual k := by
  rintro (hc | ⟨ha, rfl⟩) <;> rcases h0 with h0 | ⟨ha', rfl⟩
  · exact KeyLt.irrefl _ (hc.trans (keyLt_of_le_of_lt hk h0))
  · exact KeyLt.irrefl _ (keyLt_of_lt_of_le hc hk)
  · exact KeyLt.irrefl _ (keyLt_of_le_of_lt hk h0)
  · exact absurd ha (by simp [ha'])

/-- A key at or above one over `key` (or equal to it, without `allow_equal`) is no candidate with
`less`. -/
theorem not_candidate_true {key k k0 : List UInt8} {allowEqual : Bool} (hk : KeyLt k0 k ∨ k0 = k)
    (h0 : KeyLt key k0 ∨ (allowEqual = false ∧ k0 = key)) : ¬ Candidate key true allowEqual k := by
  rintro (hc | ⟨ha, rfl⟩) <;> rcases h0 with h0 | ⟨ha', rfl⟩
  · exact KeyLt.irrefl _ (hc.trans (keyLt_of_lt_of_le h0 hk))
  · exact KeyLt.irrefl _ (keyLt_of_le_of_lt hk hc)
  · exact KeyLt.irrefl _ (keyLt_of_lt_of_le h0 hk)
  · exact absurd ha (by simp [ha'])

/-! ## Termination -/

/-- The nodes other than the head whose keys are below that of `x`. -/
def keysBelow (s : SkipList) (x : Nat) : Finset Nat :=
  (Finset.range (s.nodes.length + 1)).filter fun o =>
    o ≠ headOffset ∧ (s.getNode o).isSome ∧ KeyLt (s.keyOf o) (s.keyOf x)

/-- How far right `x` stands: 0 at the head. -/
def rank (s : SkipList) (x : Nat) : Nat := if x = headOffset then 0 else (keysBelow s x).card + 1

theorem rank_le (s : SkipList) (x : Nat) : rank s x ≤ s.nodes.length + 1 := by
  have hsub : keysBelow s x ⊆ (Finset.range (s.nodes.length + 1)).erase 0 := fun o ho => by
    simp only [keysBelow, Finset.mem_filter] at ho
    refine Finset.mem_erase.2 ⟨fun h => ?_, ho.1⟩
    simp [h, SkipList.getNode] at ho
  have := Finset.card_le_card hsub
  rw [Finset.card_erase_of_mem (by simp), Finset.card_range] at this
  unfold rank; split <;> omega

/-- A step from a node of the arena to a node of larger key, not the head, moves right. -/
theorem rank_lt_of_keyLt {s : SkipList} {x nx : Nat} (hx : ∃ nn, s.getNode x = some nn)
    (hne : nx ≠ headOffset) (hk : x = headOffset ∨ KeyLt (s.keyOf x) (s.keyOf nx)) : rank s x < rank s nx := by
  unfold rank
  rw [if_neg hne]
  split
  · omega
  · next hxh =>
    have hk := hk.resolve_left hxh
    obtain ⟨nn, hnn⟩ := hx
    have hlt : keysBelow s x ⊂ keysBelow s nx := by
      refine (Finset.ssubset_iff_of_subset fun o ho => ?_).2 ⟨x, ?_, ?_⟩
      · simp only [keysBelow, Finset.mem_filter] at ho ⊢
        exact ⟨ho.1, ho.2.1, ho.2.2.1, ho.2.2.2.trans hk⟩
      · simp [keysBelow, hxh, hnn, hk, lt_length_of_getNode hnn]
      · simp [keysBelow, KeyLt.irrefl]
    have := Finset.card_lt_card hlt
    omega

/-- A link moves right. -/
theorem rank_lt_next {s : SkipList} (hw : s.Wf) {L x nx : Nat} (hx : OnLevel s L x)
    (hn : s.nextOffset x L = some nx) (h0 : nx ≠ 0) : rank s x < rank s nx :=
  let ⟨hne, hk⟩ := hw.next_key hn h0
  rank_lt_of_keyLt (hw.onLevel_getNode hx) hne hk

/-! ## The loop -/

/-- Where the loop stands between turns: `x` on level `level`, below `key` unless it is the head. -/
def NearInv (s : SkipList) (key : List UInt8) (x level : Nat) : Prop :=
  level < s.height ∧ OnLevel s level x ∧ (x = headOffset ∨ KeyLt (s.keyOf x) key)

theorem findNearLoop_spec {s : SkipList} (hw : s.Wf) (key : List UInt8) (less allowEqual : Bool) :
    ∀ fuel x level, NearInv s key x level →
      level * (s.nodes.length + 2) + (s.nodes.length + 1 - rank s x) < fuel →
      ∃ r, findNearLoop s key less allowEqual fuel x level = some r ∧ NearSpec s key less allowEqual r
  | 0, _, _, _, hμ => absurd hμ (Nat.not_lt_zero _)
  | fuel + 1, x, level, ⟨hlv, hx, hxk⟩, hμ => by
    have hx0 : OnLevel s 0 x := hw.onLevel_le (Nat.zero_le _) hx
    have hrank := rank_le s x
    -- go down a level, or answer `E` at level 0
    have down : ∀ E, (level = 0 → ∃ r, E = some r ∧ NearSpec s key less allowEqual r) →
        ∃ r, (if 0 < level then findNearLoop s key less allowEqual fuel x (level - 1) else E) = some r ∧
          NearSpec s key less allowEqual r := fun E hE => by
      split
      · refine findNearLoop_spec hw key less allowEqual fuel x (level - 1)
          ⟨by omega, hw.onLevel_le (Nat.sub_le _ _) hx, hxk⟩ ?_
        obtain ⟨l, rfl⟩ : ∃ l, level = l + 1 := ⟨level - 1, by omega⟩
        rw [Nat.succ_mul] at hμ
        simpa using (by omega : l * (s.nodes.length + 2) + (s.nodes.length + 1 - rank s x) < fuel)
      · exact hE (by omega)
    -- a node at or before `x` on level 0 is below `key`
    have lowX : ∀ m, m ≠ headOffset → Reach s 0 m x → KeyLt (s.keyOf m) key := fun m hm h => by
      have hxh : x ≠ headOffset := fun e => hm (hw.reach_head (e ▸ h))
      exact keyLt_of_le_of_lt (hw.reach_keyLe h hm) (hxk.resolve_left hxh)
    obtain ⟨nx, hn⟩ := hw.onLevel_nextOffset hx (by have := hw.height_le; omega)
    rw [findNearLoop, hw.getNext_eq hn]
    by_cases h0 : nx = 0
    · -- `x` is last on its level
      subst h0
      simp only [if_pos]
      refine down _ fun hl => ?_
      subst hl
      cases less
      · refine ⟨_, rfl, ?_⟩
        simpa using nearSpec_next hw hx0 hn
          (fun m _ hm h => not_candidate_false (.inr rfl) (.inl (lowX m hm h))) (fun h => absurd rfl h)
      · exact ⟨_, rfl, nearSpec_lastBelow hw hx0 hxk fun m hm _ h => by
          rcases onLevel_split hx0 hm hn with h' | ⟨h', -⟩
          · exact absurd h' h
          · exact absurd rfl h'⟩
    · simp only [if_neg h0]
      have hnx : OnLevel s level nx := hx.next hn h0
      have hnx0 : OnLevel s 0 nx := hw.onLevel_le (Nat.zero_le _) hnx
      obtain ⟨hne, -⟩ := hw.next_key hn h0
      -- a node after `nx` on level 0 is at or above its key
      have highNx : level = 0 → ∀ m, OnLevel s 0 m → ¬ Reach s 0 m x →
          KeyLt (s.keyOf nx) (s.keyOf m) ∨ s.keyOf nx = s.keyOf m := fun hl m hm h => by
        subst hl
        rcases onLevel_split hx0 hm hn with h' | ⟨-, h'⟩
        · exact absurd h' h
        · exact hw.reach_keyLe h' hne
      rcases hc : compareBytes key (s.keyOf nx)
      · -- `x.key < key < next.key`
        dsimp only
        refine down _ fun hl => ?_
        subst hl
        cases less
        · refine ⟨_, rfl, ?_⟩
          simpa [h0] using nearSpec_next hw hx0 hn
            (fun m _ hm h => not_candidate_false (.inr rfl) (.inl (lowX m hm h))) fun _ => hc
        · exact ⟨_, rfl, nearSpec_lastBelow hw hx0 hxk fun m hm _ h =>
            not_candidate_true (highNx rfl m hm h) (.inl hc)⟩
      · -- `key == next.key`
        have e : s.keyOf nx = key := (compareBytes_eq_iff.1 hc).symm
        dsimp only
        cases allowEqual
        · cases less
          · obtain ⟨b, hb⟩ := hw.onLevel_nextOffset hnx0 (by decide)
            simp only [Bool.false_eq_true, if_false, Bool.not_false, if_true, hw.getNext_eq hb,
              Option.map_some', Option.some.injEq, exists_eq_left']
            exact nearSpec_next hw hnx0 hb
              (fun m _ hm h => not_candidate_false (hw.reach_keyLe h hm) (.inr ⟨rfl, e⟩))
              fun hb0 => e ▸ (hw.next_key hb hb0).2.resolve_left hne
          · simp only [Bool.false_eq_true, if_false, Bool.not_true]
            refine down _ fun hl => ?_
            subst hl
            exact ⟨_, rfl, nearSpec_lastBelow hw hx0 hxk fun m hm _ h =>
              not_candidate_true (highNx rfl m hm h) (.inr ⟨rfl, e⟩)⟩
        · exact ⟨_, rfl, nearSpec_equal hw hnx0 hne e⟩
      · -- `x.key < next.key < key`: move right
        have hrank := rank_lt_next hw hx hn h0
        have := rank_le s nx
        exact findNearLoop_spec hw key less allowEqual fuel nx level
          ⟨hlv, hnx, .inr (compareBytes_gt_iff.1 hc)⟩ (by omega)

/-- From the head at the top level, with `height * (nodes + 2)` turns, `find_near` answers as
`NearSpec` says. -/
theorem findNear_nearSpec {s : SkipList} (hw : s.Wf) (key : List UInt8) (less allowEqual : Bool)
    {fuel : Nat} (hf : s.height * (s.nodes.length + 2) ≤ fuel) :
    ∃ r, findNear s key less allowEqual fuel = some r ∧ NearSpec s key less allowEqual r := by
  refine findNearLoop_spec hw key less allowEqual fuel headOffset (s.height - 1)
    ⟨by have := hw.height_pos; omega, .refl, .inl rfl⟩ ?_
  obtain ⟨h, hh⟩ : ∃ h, s.height = h + 1 := ⟨s.height - 1, by have := hw.height_pos; omega⟩
  rw [hh, Nat.succ_mul] at hf
  simp only [rank, if_pos, hh, Nat.add_sub_cancel]
  omega

end Badger.Skl
