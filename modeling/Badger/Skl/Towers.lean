import Mathlib.Logic.Relation
import Badger.Skl.Invariant
import Badger.Skl.Reads

/-!
# A `put` touches no tower slot past its node's height

`Node::new` (skl/mod.rs:67-84) takes `put_node(height)`, which leaves the `MAX_HEIGHT - height`
top slots of `tower` out of the allocation: a read or a CAS at a level at or above the node's
height lands in the next allocation of the arena. The model reads such a slot as `none`, and a
`put` that meets one goes to `.fault`.

Under every interleaving of `put`s of any keys, from a list with the shape half of the
structural invariant (`SkipList.Shape`), every `put` is at a place with `PutThread.Safe`. From it
(`PutThread.Safe.slot_inTower`, `PutThread.Safe.indices_lt`): the tower slot its next step reads
or writes (`PutThread.slot`: a turn of `find_splice_for_level`, the tower store of its node, the
CAS at `prev[i]`) is below that node's height, and the entries of `prev` and `next` it indexes
(`PutThread.indices`) are below `MAX_HEIGHT + 1`. Keys play no part: `Safe` is `Inv` without
them, so it holds also where long keys break the order of the invariant.

| here | there |
| --- | --- |
| `PutThread.slot` | the tower slots of `_put` (mod.rs:339-427): `find_splice_for_level` at `prev[i + 1]`, at the head and at `prev[i]`, `x.tower[i].store`, `prev[i].cas_next_offset(i, ..)` |
| `PutThread.indices` | `prev[list_height]`, `prev[i + 1]`, `prev[i]`, `next[i]` (mod.rs:343-419) |
-/

namespace Badger.Skl

/-! ## What a `put` knows whatever its key -/

/-- What a `put` keeps of `prev` and `next` whatever the keys: `MAX_HEIGHT + 1` entries each, a
non-null `prev[j]` on level `j`, and a non-null `next[j]` on level `j` and not the head. -/
structure PutThread.Links (s : SkipList) (t : PutThread) : Prop where
  prev_length : t.prev.length = maxHeight + 1
  next_length : t.next.length = maxHeight + 1
  prev : ∀ j, t.prevAt j ≠ 0 → OnLevel s j (t.prevAt j)
  next : ∀ j, t.nextAt j ≠ 0 → OnLevel s j (t.nextAt j) ∧ t.nextAt j ≠ headOffset

/-- The key-free invariant of a `put` at each of its places: a search stands on its level, below
the list's height or below its node's; the node it allocated is held; the tower store and the CAS
of level `i` have a non-null `prev[i]`. No place is `.fault`. -/
def PutThread.Safe (s : SkipList) (t : PutThread) : Prop :=
  match t.pc with
  | .start | .alloc => t.Links s
  | .descend i before => t.Links s ∧ i < s.height ∧ OnLevel s i before
  | .loadHeight => t.Links s ∧ t.Holds s 0
  | .casHeight lh => t.Links s ∧ t.Holds s 0 ∧ lh < t.height
  | .link i => t.Links s ∧ t.Holds s i ∧ i ≤ t.height
  | .fromHead i before | .research i before =>
    t.Links s ∧ t.Holds s i ∧ i < t.height ∧ OnLevel s i before
  | .store i => t.Links s ∧ t.Holds s i ∧ i < t.height ∧ t.prevAt i ≠ 0
  | .cas i => t.Links s ∧ t.Holds s i ∧ i < t.height ∧ t.prevAt i ≠ 0 ∧
    s.nextOffset t.x i = some (t.nextAt i)
  | .setValue _ | .done | .panicked => True
  | .fault => False

/-- The tower slot, as (node, level), that the next step of a `put` reads or writes: a turn of
`find_splice_for_level` reads `before`'s link, the tower store writes its node's, the CAS
`prev[i]`'s. -/
def PutThread.slot (t : PutThread) : Option (Nat × Nat) :=
  match t.pc with
  | .descend i before | .fromHead i before | .research i before => some (before, i)
  | .store i => some (t.x, i)
  | .cas i => some (t.prevAt i, i)
  | _ => none

/-- The entries of `prev` and `next` that the next step of a `put` indexes. -/
def PutThread.indices (s : SkipList) (t : PutThread) : List Nat :=
  match t.pc with
  | .start => [s.height]
  | .descend i _ => [i + 1, i]
  | .link i => if t.height ≤ i then [] else [i]
  | .fromHead i _ | .store i | .cas i | .research i _ => [i]
  | _ => []

section Links
variable {s s' : SkipList} {t : PutThread}

theorem PutThread.Links.mono (hl : s.Le s') (h : t.Links s) : t.Links s' :=
  ⟨h.prev_length, h.next_length, fun j hj => hl.onLevel j _ (h.prev j hj),
    fun j hj => ⟨hl.onLevel j _ (h.next j hj).1, (h.next j hj).2⟩⟩

theorem PutThread.Links.goto (h : t.Links s) (pc : PutPc) : (t.goto pc).Links s :=
  ⟨h.prev_length, h.next_length, h.prev, h.next⟩

theorem PutThread.Holds.goto {i : Nat} (h : t.Holds s i) (pc : PutPc) : (t.goto pc).Holds s i :=
  ⟨h.node, h.ne_head, h.below, h.above⟩

theorem PutThread.Links.setPrev (h : t.Links s) {i pre : Nat} (hp : pre ≠ 0 → OnLevel s i pre) :
    ({ t with prev := t.prev.set i pre } : PutThread).Links s :=
  ⟨(List.length_set ..).trans h.prev_length, h.next_length,
    @forall_getD_set (OnLevel s) t.prev i pre h.prev hp, h.next⟩

theorem PutThread.Links.setNext (h : t.Links s) {i nxt : Nat}
    (hn : nxt ≠ 0 → OnLevel s i nxt ∧ nxt ≠ headOffset) :
    ({ t with next := t.next.set i nxt } : PutThread).Links s :=
  ⟨h.prev_length, (List.length_set ..).trans h.next_length, h.prev,
    @forall_getD_set (fun j n => OnLevel s j n ∧ n ≠ headOffset) t.next i nxt h.next hn⟩

/-- `prev[i] = pre` is read back below `MAX_HEIGHT + 1`. -/
theorem PutThread.Links.getD_prev_set (h : t.Links s) {i : Nat} (hi : i < maxHeight + 1) (pre : Nat) :
    (t.prev.set i pre).getD i 0 = pre := by
  simp [List.getD_eq_getElem?_getD, h.prev_length, hi]

theorem PutThread.links_init (s : SkipList) (key : List UInt8) (v : ValueStruct) :
    (PutThread.init key v).Links s :=
  ⟨List.length_replicate .., List.length_replicate .., fun j h => absurd (getD_replicate_zero _ j) h,
    fun j h => absurd (getD_replicate_zero _ j) h⟩

end Links

/-! ## A `put`'s own step -/

/-- What a step of a `put` keeps whatever the keys: the shape, an `Effect` at the node it holds
after the step, `Safe`, and that node: the one it held, or a new one past the list's last node. -/
structure SafeOk (s : SkipList) (t : PutThread) (s' : SkipList) (t' : PutThread) : Prop where
  shape : s'.Shape
  effect : Effect t'.owned s s'
  safe : t'.Safe s'
  owned : t'.pc.owns → (t.pc.owns ∧ t'.x = t.x) ∨ t'.x = s.nodes.length + 1

section Step
variable {s : SkipList} {t : PutThread}

/-- A step that leaves the list as it is. -/
theorem SafeOk.stay (hs : s.Shape) {t' : PutThread} (ht' : t'.Safe s)
    (hx : t'.pc.owns → t.pc.owns ∧ t'.x = t.x) : SafeOk s t s t' :=
  ⟨hs, Effect.of_nextOffset_eq (SkipList.Le.refl s) (fun _ _ => rfl) _, ht', fun h => .inl (hx h)⟩

variable (hs : s.Shape) (draws : List UInt32)
include hs

theorem safeOk_start (hpc : t.pc = .start) (ht : t.Safe s) :
    SafeOk s t (t.step s draws).1 (t.step s draws).2 := by
  simp only [PutThread.Safe, hpc] at ht
  have hL : ({ t with prev := t.prev.set s.height headOffset, next := t.next.set s.height 0 } : PutThread).Links s :=
    (ht.setPrev fun _ => .refl).setNext fun h => absurd rfl h
  simp only [PutThread.step, hpc]
  split
  · exact SafeOk.stay hs (hL.goto _) (by simp [PutPc.owns])
  · exact SafeOk.stay hs ⟨hL.goto _, by omega, .refl⟩ (by simp [PutPc.owns])

theorem safeOk_descend {i before : Nat} (hpc : t.pc = .descend i before) (ht : t.Safe s) :
    SafeOk s t (t.step s draws).1 (t.step s draws).2 := by
  simp only [PutThread.Safe, hpc] at ht
  obtain ⟨hL, hi, hb⟩ := ht
  simp only [PutThread.step, hpc]
  obtain ⟨r, hr⟩ : ∃ r, spliceStep s t.key before i = some r :=
    spliceStep_isSome hs hb (by have := hs.height_le; omega)
  rw [hr]
  rcases r with nx | ⟨pre, nxt⟩
  · exact SafeOk.stay hs ⟨hL.goto _, hi, spliceStep_inl_onLevel hs hb hr⟩ (by simp [PutPc.owns])
  · obtain ⟨hpre, hnxt⟩ := spliceStep_inr_onLevel hs hb hr
    dsimp only
    split
    · split <;> exact SafeOk.stay hs trivial (by simp [PutPc.owns])
    · have hfin : ∀ T : PutThread, T.Links s →
          SafeOk s t s (if i = 0 then T.goto .alloc else T.goto (.descend (i - 1) pre)) := fun T hT => by
        split
        · exact SafeOk.stay hs (hT.goto _) (by simp [PutPc.owns])
        · exact SafeOk.stay hs ⟨hT.goto _, by omega, hs.onLevel_le (by omega) hpre⟩ (by simp [PutPc.owns])
      have hP : PutThread.Links s { t with prev := t.prev.set i pre } := hL.setPrev fun _ => hpre
      unfold PutThread.descended
      split
      · exact hfin _ (hP.setNext hnxt)
      · exact hfin _ hP

theorem safeOk_alloc (hpc : t.pc = .alloc) (ht : t.Safe s) :
    SafeOk s t (t.step s draws).1 (t.step s draws).2 := by
  simp only [PutThread.Safe, hpc] at ht
  simp only [PutThread.step, hpc]
  obtain ⟨h1, h2⟩ := randomHeight_bounds draws
  obtain ⟨value, hnew⟩ := getNode_new_self s t.key t.value (randomHeight draws)
  have hlen : headOffset < s.nodes.length + 1 := by
    obtain ⟨_, hhd, -⟩ := hs.head
    exact lt_length_of_getNode hhd
  have hL := ht.mono (hs.le_new : s.Le (Node.new s t.key t.value (randomHeight draws)).1)
  refine ⟨hs.new h1 h2, hs.effect_new, ⟨⟨hL.prev_length, hL.next_length, hL.prev, hL.next⟩,
    ⟨_, hnew, rfl⟩, show s.nodes.length + 1 ≠ headOffset by omega, fun j hj => absurd hj (Nat.not_lt_zero j),
    fun o j _ hn => ?_⟩, fun _ => .inr rfl⟩
  by_cases ho : o = s.nodes.length + 1
  · subst ho
    exact absurd (nextOffset_new_self s t.key t.value _ hn) (show s.nodes.length + 1 ≠ 0 by omega)
  · rw [nextOffset_new_of_ne s t.key t.value _ ho] at hn
    exact hs.nextOffset_ne_new o j hn

theorem safeOk_loadHeight (hpc : t.pc = .loadHeight) (ht : t.Safe s) :
    SafeOk s t (t.step s draws).1 (t.step s draws).2 := by
  simp only [PutThread.Safe, hpc] at ht
  simp only [PutThread.step, hpc]
  split
  · next hlt => exact SafeOk.stay hs ⟨ht.1.goto _, ht.2.goto _, hlt⟩ (by simp [PutPc.owns, hpc])
  · exact SafeOk.stay hs ⟨ht.1.goto _, ht.2.goto _, Nat.zero_le _⟩ (by simp [PutPc.owns, hpc])

theorem safeOk_casHeight {lh : Nat} (hpc : t.pc = .casHeight lh) (ht : t.Safe s) :
    SafeOk s t (t.step s draws).1 (t.step s draws).2 := by
  simp only [PutThread.Safe, hpc] at ht
  obtain ⟨hL, hH, hlt⟩ := ht
  simp only [PutThread.step, hpc]
  split
  · obtain ⟨h1, h2⟩ := hH.height_bounds hs
    have hl : s.Le { s with height := t.height } := SkipList.le_setHeight (by omega)
    have he : ∀ x, Effect x s { s with height := t.height } := Effect.of_nextOffset_eq hl fun _ _ => rfl
    exact ⟨hs.setHeight h1 h2, he _, ⟨(hL.mono hl).goto _, (hH.frame (he 0) hH.x_ne_zero).goto _,
      Nat.zero_le _⟩, fun _ => .inl ⟨by simp [PutPc.owns, hpc], rfl⟩⟩
  · exact SafeOk.stay hs ⟨hL.goto _, hH.goto _⟩ (by simp [PutPc.owns, hpc])

theorem safeOk_link {i : Nat} (hpc : t.pc = .link i) (ht : t.Safe s) :
    SafeOk s t (t.step s draws).1 (t.step s draws).2 := by
  simp only [PutThread.Safe, hpc] at ht
  obtain ⟨hL, hH, hle⟩ := ht
  simp only [PutThread.step, hpc]
  split
  · exact SafeOk.stay hs trivial (by simp [PutPc.owns])
  · next hlt =>
    split
    · split
      · exact SafeOk.stay hs ⟨hL.goto _, hH.goto _, Nat.lt_of_not_le hlt, .refl⟩ (by simp [PutPc.owns, hpc])
      · exact SafeOk.stay hs trivial (by simp [PutPc.owns])
    · next hp => exact SafeOk.stay hs ⟨hL.goto _, hH.goto _, Nat.lt_of_not_le hlt, hp⟩ (by simp [PutPc.owns, hpc])

theorem safeOk_fromHead {i before : Nat} (hpc : t.pc = .fromHead i before) (ht : t.Safe s) :
    SafeOk s t (t.step s draws).1 (t.step s draws).2 := by
  simp only [PutThread.Safe, hpc] at ht
  obtain ⟨hL, hH, hlt, hb⟩ := ht
  have hi := (hH.height_bounds hs).2
  simp only [PutThread.step, hpc]
  obtain ⟨r, hr⟩ : ∃ r, spliceStep s t.key before i = some r := spliceStep_isSome hs hb (by omega)
  rw [hr]
  rcases r with nx | ⟨pre, nxt⟩
  · exact SafeOk.stay hs ⟨hL.goto _, hH.goto _, hlt, spliceStep_inl_onLevel hs hb hr⟩ (by simp [PutPc.owns, hpc])
  · obtain ⟨hpre, hnxt⟩ := spliceStep_inr_onLevel hs hb hr
    have hP := hL.setPrev fun _ => hpre
    dsimp only
    split
    · exact SafeOk.stay hs trivial (by simp [PutPc.owns])
    · have hp0 : (t.prev.set i pre).getD i 0 ≠ 0 := by
        rw [hL.getD_prev_set (show i < maxHeight + 1 by omega)]; exact hpre.ne_zero
      exact SafeOk.stay hs ⟨(hP.setNext hnxt).goto _, ⟨hH.node, hH.ne_head, hH.below, hH.above⟩, hlt, hp0⟩
        (by simp [PutPc.owns, hpc])

theorem safeOk_store {i : Nat} (hpc : t.pc = .store i) (ht : t.Safe s) :
    SafeOk s t (t.step s draws).1 (t.step s draws).2 := by
  simp only [PutThread.Safe, hpc] at ht
  obtain ⟨hL, hH, hlt, hp0⟩ := ht
  have hi := (hH.height_bounds hs).2
  simp only [PutThread.step, hpc]
  have hx0 := hH.x_ne_zero
  have hoff := hH.not_onLevel (le_refl i)
  have he := effect_store hx0 hoff fun h0 => (hL.next i h0).1
  obtain ⟨m, hm⟩ := hs.nextOffset_of_inTower (hH.inTower hlt)
  refine ⟨hs.setNext hx0 hoff fun h0 => ⟨hs.inTower_of_onLevel (hL.next i h0).1 (by omega), (hL.next i h0).2⟩,
    he, ⟨(hL.mono he.le).goto _, (hH.store fun h0 => (hL.next i h0).1).goto _, hlt, hp0, ?_⟩,
    fun _ => .inl ⟨by simp [PutPc.owns, hpc], rfl⟩⟩
  rw [PutThread.goto_x, nextOffset_setNext hx0, if_pos ⟨rfl, rfl⟩, hm]
  rfl

theorem safeOk_cas {i : Nat} (hpc : t.pc = .cas i) (ht : t.Safe s) :
    SafeOk s t (t.step s draws).1 (t.step s draws).2 := by
  simp only [PutThread.Safe, hpc] at ht
  obtain ⟨hL, hH, hlt, hp0, hxn⟩ := ht
  have hi := (hH.height_bounds hs).2
  have hp := hL.prev i hp0
  obtain ⟨cur, hpn⟩ := hs.onLevel_nextOffset hp (by omega)
  simp only [PutThread.step, hpc, SkipList.casNextOffset, hpn, Option.map_some']
  by_cases hc : cur = t.nextAt i
  swap
  · simp only [hc, if_false]
    exact SafeOk.stay hs ⟨hL.goto _, hH.goto _, hlt, hp⟩ (by simp [PutPc.owns, hpc])
  subst hc
  simp only [if_true]
  have hx := hH.not_onLevel (le_refl i)
  have he := effect_link hp0 hp hpn hxn hx hH.x_ne_zero
  exact ⟨hs.link_cas hp0 hp hpn hxn hx hH.x_ne_zero ⟨hH.inTower hlt, hH.ne_head⟩
      fun L' hL' => hH.below L' (by omega), he,
    ⟨(hL.mono he.le).goto _, (hH.link hp0 hp hpn hxn).goto _, show i + 1 ≤ t.height by omega⟩,
    fun _ => .inl ⟨by simp [PutPc.owns, hpc], rfl⟩⟩

theorem safeOk_research {i before : Nat} (hpc : t.pc = .research i before) (ht : t.Safe s) :
    SafeOk s t (t.step s draws).1 (t.step s draws).2 := by
  simp only [PutThread.Safe, hpc] at ht
  obtain ⟨hL, hH, hlt, hb⟩ := ht
  have hi := (hH.height_bounds hs).2
  simp only [PutThread.step, hpc]
  obtain ⟨r, hr⟩ : ∃ r, spliceStep s t.key before i = some r := spliceStep_isSome hs hb (by omega)
  rw [hr]
  rcases r with nx | ⟨pre, nxt⟩
  · exact SafeOk.stay hs ⟨hL.goto _, hH.goto _, hlt, spliceStep_inl_onLevel hs hb hr⟩ (by simp [PutPc.owns, hpc])
  · obtain ⟨hpre, hnxt⟩ := spliceStep_inr_onLevel hs hb hr
    dsimp only
    split
    · exact SafeOk.stay hs trivial (by simp [PutPc.owns])
    · split
      · split <;> exact SafeOk.stay hs trivial (by simp [PutPc.owns])
      · exact SafeOk.stay hs ⟨((hL.setPrev fun _ => hpre).setNext hnxt).goto _,
          ⟨hH.node, hH.ne_head, hH.below, hH.above⟩, Nat.le_of_lt hlt⟩ (by simp [PutPc.owns, hpc])

theorem safeOk_setValue {o : Nat} (hpc : t.pc = .setValue o) :
    SafeOk s t (t.step s draws).1 (t.step s draws).2 := by
  simp only [PutThread.step, hpc]
  have hl : s.Le (s.setValue o t.value) :=
    SkipList.relinks_setValue.le (fun _ _ hb => onLevel_setValue_iff.2 hb) le_rfl
  exact ⟨hs.setValue, Effect.of_nextOffset_eq hl (fun _ _ => nextOffset_setValue _ _) _, trivial,
    by simp [PutPc.owns]⟩

end Step

/-- **A step of a `put` keeps its key-free invariant and the shape**, whatever its key. -/
theorem PutThread.safeOk {s : SkipList} {t : PutThread} (hs : s.Shape) (ht : t.Safe s) (draws : List UInt32) :
    SafeOk s t (t.step s draws).1 (t.step s draws).2 := by
  cases hpc : t.pc with
  | start => exact safeOk_start hs draws hpc ht
  | descend => exact safeOk_descend hs draws hpc ht
  | alloc => exact safeOk_alloc hs draws hpc ht
  | loadHeight => exact safeOk_loadHeight hs draws hpc ht
  | casHeight => exact safeOk_casHeight hs draws hpc ht
  | link => exact safeOk_link hs draws hpc ht
  | fromHead => exact safeOk_fromHead hs draws hpc ht
  | store => exact safeOk_store hs draws hpc ht
  | cas => exact safeOk_cas hs draws hpc ht
  | research => exact safeOk_research hs draws hpc ht
  | setValue => exact safeOk_setValue hs draws hpc
  | done | panicked =>
    rw [show t.step s draws = (s, t) by simp [PutThread.step, hpc]]
    exact SafeOk.stay hs ht fun h => ⟨h, rfl⟩
  | fault => simp only [PutThread.Safe, hpc] at ht

/-- **Another `put`'s step keeps a `put`'s key-free invariant**, when the node it holds is not
that `put`'s. -/
theorem PutThread.Safe.frame {s s' : SkipList} {t : PutThread} {x : Nat} (he : Effect x s s')
    (ht : t.Safe s) (hx : t.pc.owns → t.x ≠ x) : t.Safe s' := by
  have hL : t.Links s → t.Links s' := fun h => h.mono he.le
  unfold PutThread.Safe at ht ⊢
  split at ht <;> rename_i hpc <;> simp only [hpc, PutPc.owns, forall_const] at hx ⊢
  · exact hL ht
  · exact hL ht
  · exact ⟨hL ht.1, Nat.lt_of_lt_of_le ht.2.1 he.le.height, he.le.onLevel _ _ ht.2.2⟩
  · exact ⟨hL ht.1, ht.2.frame he hx⟩
  · exact ⟨hL ht.1, ht.2.1.frame he hx, ht.2.2⟩
  · exact ⟨hL ht.1, ht.2.1.frame he hx, ht.2.2⟩
  · exact ⟨hL ht.1, ht.2.1.frame he hx, ht.2.2.1, he.le.onLevel _ _ ht.2.2.2⟩
  · exact ⟨hL ht.1, ht.2.1.frame he hx, ht.2.2.1, he.le.onLevel _ _ ht.2.2.2⟩
  · exact ⟨hL ht.1, ht.2.1.frame he hx, ht.2.2⟩
  · obtain ⟨h1, h2, h3, h4, h5⟩ := ht
    exact ⟨hL h1, h2.frame he hx, h3, h4, by rw [he.nextOffset_eq hx (h2.not_onLevel le_rfl), h5]⟩
  all_goals exact ht

theorem PutThread.Safe.holds {s : SkipList} {t : PutThread} (h : t.Safe s) (ho : t.pc.owns) :
    ∃ i, t.Holds s i := by
  unfold PutThread.Safe at h
  split at h <;> rename_i hpc <;> simp only [hpc, PutPc.owns] at ho
  all_goals first
    | exact ⟨_, h.2⟩
    | exact ⟨_, h.2.1⟩
    | cases ho

/-! ## Every interleaving -/

/-- The key-free invariant of the system: the shape, each `put`'s `Safe`, and pairwise distinct
held nodes. -/
structure Sys.Safe (sys : Sys) : Prop where
  shape : sys.list.Shape
  thread : ∀ t ∈ sys.threads, t.Safe sys.list
  owned : (sys.threads.filterMap PutThread.ownedNode).Nodup

/-- **Every step of the system keeps its key-free invariant**, whatever keys it admits. -/
theorem Sys.Safe.step {Admit : List PutThread → List UInt8 → Prop} {a b : Sys} (h : a.Safe)
    (hs : Sys.Step Admit a b) : b.Safe := by
  cases hs with
  | spawn s ts key v _ =>
    refine ⟨h.shape, List.forall_mem_append.2 ⟨h.thread, List.forall_mem_singleton.2 (PutThread.links_init s key v)⟩, ?_⟩
    simpa [List.filterMap_append, PutThread.ownedNode, PutThread.init, PutPc.owns] using h.owned
  | run s pre post t draws =>
    have hmem : t ∈ pre ++ t :: post := List.mem_append_cons_self
    have hother : ∀ u ∈ pre ++ post, u ∈ pre ++ t :: post := fun u hu =>
      List.perm_middle.mem_iff.2 (List.mem_cons_of_mem _ hu)
    have hok := PutThread.safeOk h.shape (h.thread t hmem) draws
    have hold : ∀ u ∈ pre ++ post, u.pc.owns → u.x < s.nodes.length + 1 ∧ u.x ≠ 0 := fun u hu ho => by
      obtain ⟨i, hi⟩ := (h.thread u (hother u hu)).holds ho
      obtain ⟨_, hn, -⟩ := hi.node
      exact ⟨lt_length_of_getNode hn, hi.x_ne_zero⟩
    refine ⟨hok.shape, fun u hu => ?_, nodup_owned_step h.owned (fun u hu ho => (hold u hu ho).1) hok.owned⟩
    rcases List.mem_cons.1 (List.perm_middle.mem_iff.1 hu) with rfl | hu
    · exact hok.safe
    · exact (h.thread u (hother u hu)).frame hok.effect (owned_ne_step h.owned hold hok.owned u hu)

/-- From a list with the shape and no `put` running, every interleaving keeps the key-free
invariant. -/
theorem Sys.Safe.of_steps {Admit : List PutThread → List UInt8 → Prop} {s : SkipList} (hs : s.Shape)
    {sys : Sys} (h : Relation.ReflTransGen (Sys.Step Admit) ⟨s, []⟩ sys) : sys.Safe := by
  induction h with
  | refl => exact ⟨hs, by simp, by simp⟩
  | tail _ hst ih => exact ih.step hst

/-! ## What a `put` touches -/

theorem PutThread.Safe.pc_ne_fault {s : SkipList} {t : PutThread} (ht : t.Safe s) : t.pc ≠ .fault :=
  fun hpc => by simp only [PutThread.Safe, hpc] at ht

section Touches
variable {s : SkipList} {t : PutThread} (hs : s.Shape) (ht : t.Safe s)
include hs ht

/-- **The tower slot a `put` reads or writes next is below its node's height.** -/
theorem PutThread.Safe.slot_inTower {o L : Nat} (h : t.slot = some (o, L)) : s.InTower o L := by
  have hsh := hs.height_le
  cases hpc : t.pc <;>
    simp only [PutThread.slot, hpc, reduceCtorEq, Option.some.injEq, Prod.mk.injEq] at h <;>
    simp only [PutThread.Safe, hpc] at ht <;> obtain ⟨rfl, rfl⟩ := h
  case descend => exact hs.inTower_of_onLevel ht.2.2 (by omega)
  case fromHead => exact hs.inTower_of_onLevel ht.2.2.2 (by have := (ht.2.1.height_bounds hs).2; omega)
  case store => exact ht.2.1.inTower ht.2.2.1
  case cas =>
    exact hs.inTower_of_onLevel (ht.1.prev _ ht.2.2.2.1) (by have := (ht.2.1.height_bounds hs).2; omega)
  case research => exact hs.inTower_of_onLevel ht.2.2.2 (by have := (ht.2.1.height_bounds hs).2; omega)

/-- **The entries of `prev` and `next` a `put` indexes next are below `MAX_HEIGHT + 1`.** -/
theorem PutThread.Safe.indices_lt {j : Nat} (hj : j ∈ t.indices s) : j < maxHeight + 1 := by
  have hsh := hs.height_le
  cases hpc : t.pc <;>
    simp only [PutThread.indices, hpc, List.mem_cons, List.mem_singleton, List.not_mem_nil, or_false] at hj <;>
    simp only [PutThread.Safe, hpc] at ht
  case start => omega
  case descend => omega
  case link i =>
    split at hj
    · cases hj
    · have := (ht.2.1.height_bounds hs).2
      rw [List.mem_singleton] at hj
      omega
  all_goals have := (ht.2.1.height_bounds hs).2; omega

end Touches

/-! ## The searches and the `put`s -/

/-- **No search and no `put` touches a tower slot past its node's height.** On a list with the
structural invariant and for every key: `find_near`, `find_last`, `get`, and
`find_splice_for_level` from a node of a level below `MAX_HEIGHT`, return the same whatever the
arena holds past the towers; and in every interleaving of `put`s of
any keys from that list, no `put` is at the fault of a read past a tower, the slot its next step
reads, stores or CASes is below its node's height, and the entries of `prev` and `next` it indexes
are below `MAX_HEIGHT + 1`. -/
theorem towers_in_range (s : SkipList) (hw : s.Wf) (key : List UInt8) :
    (∀ junk less allowEqual fuel,
      findNear (s.pad junk) key less allowEqual fuel = findNear s key less allowEqual fuel) ∧
    (∀ junk L before fuel, L < maxHeight → OnLevel s L before →
      findSpliceForLevel (s.pad junk) key before L fuel = findSpliceForLevel s key before L fuel) ∧
    (∀ junk fuel, findLast (s.pad junk) fuel = findLast s fuel) ∧
    (∀ junk fuel, (s.pad junk).get key fuel = s.get key fuel) ∧
    ∀ sys, Relation.ReflTransGen (Sys.Step fun _ _ => True) ⟨s, []⟩ sys → ∀ t ∈ sys.threads,
      t.pc ≠ .fault ∧ (∀ o L, t.slot = some (o, L) → sys.list.InTower o L) ∧
        ∀ j ∈ t.indices sys.list, j < maxHeight + 1 := by
  have hs := hw.shape
  refine ⟨fun junk => findNear_pad junk hs key, fun junk L before fuel hL hb => findSpliceForLevel_pad junk hs key hL fuel before hb,
    fun junk => findLast_pad junk hs, fun junk => get_pad junk hs key, fun sys h t hmem => ?_⟩
  have hsys := Sys.Safe.of_steps hs h
  have ht := hsys.thread t hmem
  exact ⟨ht.pc_ne_fault, fun _ _ => ht.slot_inTower hsys.shape, fun _ => ht.indices_lt hsys.shape⟩

/-- The searches on the list of `put(b"b")` and `put(b"a")`, and every interleaving of `put`s
from it, stay inside the towers. -/
theorem towers_in_range_two_puts :
    twoPuts.list.Wf ∧
    (∀ junk less allowEqual fuel,
      findNear (twoPuts.list.pad junk) [0x62] less allowEqual fuel = findNear twoPuts.list [0x62] less allowEqual fuel) ∧
    (∀ junk L before fuel, L < maxHeight → OnLevel twoPuts.list L before →
      findSpliceForLevel (twoPuts.list.pad junk) [0x62] before L fuel =
        findSpliceForLevel twoPuts.list [0x62] before L fuel) ∧
    (∀ junk fuel, findLast (twoPuts.list.pad junk) fuel = findLast twoPuts.list fuel) ∧
    (∀ junk fuel, (twoPuts.list.pad junk).get [0x62] fuel = twoPuts.list.get [0x62] fuel) ∧
    ∀ sys, Relation.ReflTransGen (Sys.Step fun _ _ => True) ⟨twoPuts.list, []⟩ sys → ∀ t ∈ sys.threads,
      t.pc ≠ .fault ∧ (∀ o L, t.slot = some (o, L) → sys.list.InTower o L) ∧
        ∀ j ∈ t.indices sys.list, j < maxHeight + 1 :=
  ⟨twoPuts_wf, towers_in_range twoPuts.list twoPuts_wf [0x62]⟩

end Badger.Skl
