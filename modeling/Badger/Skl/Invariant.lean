import Mathlib.Data.List.Nodup
import Badger.Skl.Frame
import Badger.Skl.Concurrent

/-!
# The structural invariant under concurrent `put`s

`SkipList.Wf` holds in every state that `put`s of keys shorter than 2^16 bytes reach from
`SkipList::new`, under every interleaving of their atomic steps, and no step lowers the height
(`wf_reachable`). The proof is an invariant of the whole system, `Sys.Inv`:

* the list has `SkipList.Wf`;
* every `put` has `PutThread.Inv` at its place: its `prev[j]` are nodes of level `j` below its key
  and its `next[j]` nodes of level `j` above it (`Splices`); a search stands below the key
  (`Before`); the node it allocated holds its key and height, is on the levels it has linked and
  reached by no link of the others (`Owns`), and, between the tower store and the CAS of level
  `i`, links to `next[i]`;
* the nodes the `put`s hold are pairwise distinct.

A step of a `put` keeps its own invariant (`StepOk`, one lemma per place) and changes the links
only at its own node or at a node of the link's level (`Effect`), which keeps every other `put`'s
invariant (`PutThread.Inv.frame`). The bound on the key is what makes `Node::key` read back the
key: `key_size` is `key.len() as u16` (skl/mod.rs:77).
-/

namespace Badger.Skl

/-! ## Searches -/

/-- A search for `key` on level `L` stands at `before`: a node of the level whose key is below
`key`, or the head. -/
def Before (s : SkipList) (key : List UInt8) (L before : Nat) : Prop :=
  OnLevel s L before ∧ (before = headOffset ∨ KeyLt (s.keyOf before) key)

/-- `next` is a node of level `L`, not the head, taller than `L`, whose key is above `key`. -/
def After (s : SkipList) (key : List UInt8) (L next : Nat) : Prop :=
  OnLevel s L next ∧ next ≠ headOffset ∧ ∃ nm, s.getNode next = some nm ∧ L < nm.height ∧ KeyLt key nm.key

theorem before_head (s : SkipList) (key : List UInt8) (L : Nat) : Before s key L headOffset :=
  ⟨.refl, .inl rfl⟩

section Search
variable {s : SkipList} (hw : s.Wf) {key : List UInt8} {L : Nat}
include hw

theorem SkipList.Wf.getNext_some {o : Nat} {g : Option Nat} (h : s.getNext o L = some g) :
    ∃ m, s.nextOffset o L = some m ∧ g = if m = 0 then none else some m :=
  hw.shape.getNext_some h

/-- A turn of `find_splice_for_level` that moves right stays below `key`. -/
theorem spliceStep_inl {before nx : Nat} (hb : Before s key L before)
    (h : spliceStep s key before L = some (.inl nx)) : Before s key L nx := by
  obtain ⟨g, hg, hr⟩ := Option.map_eq_some'.1 h
  obtain ⟨m, hm, rfl⟩ := hw.getNext_some hg
  by_cases h0 : m = 0
  · simp [h0] at hr
  · simp only [h0, if_false] at hr
    rcases hc : compareBytes key (s.keyOf m) <;> simp only [hc, reduceCtorEq, Sum.inl.injEq] at hr
    subst hr
    exact ⟨hb.1.next hm h0, .inr (compareBytes_gt_iff.1 hc)⟩

theorem SkipList.Wf.after {o m : Nat} (ho : OnLevel s L o) (hm : s.nextOffset o L = some m) (h0 : m ≠ 0)
    (hk : KeyLt key (s.keyOf m)) : After s key L m := by
  obtain ⟨nm, hnm, hlt, hne, -⟩ := hw.link o L m hm h0
  exact ⟨ho.next hm h0, hne, nm, hnm, hlt, SkipList.keyOf_eq hnm ▸ hk⟩

/-- A turn of `find_splice_for_level` that stops gives the node of `key` twice, or a node below
`key` (or the head) and a null or a node above `key`. -/
theorem spliceStep_inr {before pre nxt : Nat} (hb : Before s key L before)
    (h : spliceStep s key before L = some (.inr (pre, nxt))) :
    (nxt ≠ 0 ∧ pre = nxt ∧ s.keyOf nxt = key) ∨ (Before s key L pre ∧ (nxt ≠ 0 → After s key L nxt)) := by
  obtain ⟨g, hg, hr⟩ := Option.map_eq_some'.1 h
  obtain ⟨m, hm, rfl⟩ := hw.getNext_some hg
  by_cases h0 : m = 0
  · simp only [h0, if_true, Sum.inr.injEq, Prod.mk.injEq] at hr
    obtain ⟨rfl, rfl⟩ := hr
    exact .inr ⟨hb, fun h => absurd rfl h⟩
  · simp only [h0, if_false] at hr
    rcases hc : compareBytes key (s.keyOf m) <;>
      simp only [hc, reduceCtorEq, Sum.inr.injEq, Prod.mk.injEq] at hr <;> obtain ⟨rfl, rfl⟩ := hr
    · exact .inr ⟨hb, fun _ => hw.after hb.1 hm h0 hc⟩
    · exact .inl ⟨h0, rfl, (compareBytes_eq_iff.1 hc).symm⟩

end Search

/-! ## What a `put` knows -/

/-- The places where a `put` holds the node it allocated, not yet linked on every level. -/
def PutPc.owns : PutPc → Bool
  | .loadHeight | .casHeight _ | .link _ | .fromHead _ _ | .store _ | .cas _ | .research _ _ => true
  | _ => false

/-- The node a `put` holds, or null. -/
def PutThread.owned (t : PutThread) : Nat := if t.pc.owns then t.x else 0

/-- What a `put` keeps about `prev` and `next`: a non-null `prev[j]` is a node of level `j` below
the key or the head, a non-null `next[j]` a node of level `j` above the key. -/
structure PutThread.Splices (s : SkipList) (t : PutThread) : Prop where
  prev : ∀ j, t.prevAt j ≠ 0 → Before s t.key j (t.prevAt j)
  next : ∀ j, t.nextAt j ≠ 0 → After s t.key j (t.nextAt j)

/-- The node a `put` allocated, linked on the levels below `i`: it holds the key and the height
of the `put`, is on each level below `i`, and no link of level `i` or above reaches it yet. -/
structure PutThread.Owns (s : SkipList) (t : PutThread) (i : Nat) : Prop where
  node : ∃ nx, s.getNode t.x = some nx ∧ nx.key = t.key ∧ nx.height = t.height
  ne_head : t.x ≠ headOffset
  below : ∀ j < i, OnLevel s j t.x
  above : ∀ o j, i ≤ j → s.nextOffset o j ≠ some t.x

/-- The key-free half of `Owns`: the node has the `put`'s height, is on each level below `i`, and
no link of level `i` or above reaches it yet. -/
structure PutThread.Holds (s : SkipList) (t : PutThread) (i : Nat) : Prop where
  node : ∃ nx, s.getNode t.x = some nx ∧ nx.height = t.height
  ne_head : t.x ≠ headOffset
  below : ∀ j < i, OnLevel s j t.x
  above : ∀ o j, i ≤ j → s.nextOffset o j ≠ some t.x

/-- The invariant of a `put` at each of its places. -/
def PutThread.Inv (s : SkipList) (t : PutThread) : Prop :=
  match t.pc with
  | .start | .alloc => t.Splices s
  | .descend i before => t.Splices s ∧ Before s t.key i before
  | .loadHeight => t.Splices s ∧ t.Owns s 0
  | .casHeight lh => t.Splices s ∧ t.Owns s 0 ∧ lh < t.height
  | .link i => t.Splices s ∧ t.Owns s i ∧ i ≤ t.height
  | .fromHead i before | .research i before =>
    t.Splices s ∧ t.Owns s i ∧ i < t.height ∧ Before s t.key i before
  | .store i => t.Splices s ∧ t.Owns s i ∧ i < t.height
  | .cas i => t.Splices s ∧ t.Owns s i ∧ i < t.height ∧ s.nextOffset t.x i = some (t.nextAt i)
  | .setValue o => o ≠ 0
  | .done | .panicked | .fault => True

/-- What a step of the `put` holding node `x` (null for none) may do to the links besides what
`Le` keeps: rewrite a link only at `x` or at a node of the link's level, and add a link only to
`x` or to a node of the link's level. -/
structure Effect (x : Nat) (s s' : SkipList) : Prop where
  le : s.Le s'
  changed : ∀ q j, s'.nextOffset q j ≠ s.nextOffset q j → q = x ∨ OnLevel s j q
  added : ∀ q j m, s'.nextOffset q j = some m → m ≠ 0 → s.nextOffset q j ≠ some m →
    m = x ∨ OnLevel s j m

/-! ## A later list keeps what a `put` knows -/

section Mono
variable {s s' : SkipList} {key : List UInt8} {L : Nat}

theorem After.mono (hl : s.Le s') {n : Nat} (h : After s key L n) : After s' key L n := by
  obtain ⟨hn, hne, nm, hnm, hlt, hk⟩ := h
  obtain ⟨nm', hnm', hk', hh'⟩ := hl.node _ _ hnm
  exact ⟨hl.onLevel L n hn, hne, nm', hnm', hh' ▸ hlt, hk' ▸ hk⟩

variable (hw : s.Wf) (hl : s.Le s')
include hw hl

theorem Before.mono {b : Nat} (h : Before s key L b) : Before s' key L b := by
  obtain ⟨nb, hnb⟩ := hw.onLevel_getNode h.1
  exact ⟨hl.onLevel L b h.1, by rw [hl.keyOf hnb]; exact h.2⟩

theorem PutThread.Splices.mono {t : PutThread} (h : t.Splices s) : t.Splices s' :=
  ⟨fun j hj => (h.prev j hj).mono hw hl, fun j hj => (h.next j hj).mono hl⟩

end Mono

section Owns
variable {s s' : SkipList} {t : PutThread} {i : Nat}

theorem PutThread.Owns.holds (h : t.Owns s i) : t.Holds s i :=
  ⟨let ⟨nx, hnx, _, hh⟩ := h.node; ⟨nx, hnx, hh⟩, h.ne_head, h.below, h.above⟩

theorem PutThread.Holds.x_ne_zero (h : t.Holds s i) : t.x ≠ 0 := fun e => by
  obtain ⟨_, hn, -⟩ := h.node
  rw [e] at hn
  cases hn

/-- The node a `put` holds is on no level it has not linked. -/
theorem PutThread.Holds.not_onLevel (h : t.Holds s i) {j : Nat} (hj : i ≤ j) : ¬ OnLevel s j t.x :=
  fun hx => (Reach.eq_or_link hx).elim (fun e => h.ne_head e.symm) fun ⟨o, hn⟩ => h.above o j hj hn

theorem PutThread.Holds.inTower (h : t.Holds s i) {j : Nat} (hj : j < t.height) : s.InTower t.x j :=
  let ⟨nx, hnx, hh⟩ := h.node; ⟨nx, hnx, hh ▸ hj⟩

theorem PutThread.Holds.height_bounds (hs : s.Shape) (h : t.Holds s i) :
    0 < t.height ∧ t.height ≤ maxHeight := by
  obtain ⟨nx, hnx, hh⟩ := h.node
  have := hs.node _ _ hnx
  exact hh ▸ ⟨this.height_pos, this.height_le⟩

theorem PutThread.Owns.x_ne_zero (h : t.Owns s i) : t.x ≠ 0 := h.holds.x_ne_zero

theorem PutThread.Owns.not_onLevel (h : t.Owns s i) {j : Nat} (hj : i ≤ j) : ¬ OnLevel s j t.x :=
  h.holds.not_onLevel hj

theorem PutThread.Owns.nextOffset (hw : s.Wf) (h : t.Owns s i) {j : Nat} (hj : j < t.height) :
    ∃ m, s.nextOffset t.x j = some m :=
  hw.shape.nextOffset_of_inTower (h.holds.inTower hj)

theorem Effect.nextOffset_eq {x : Nat} (he : Effect x s s') {q j : Nat} (hq : q ≠ x)
    (hoff : ¬ OnLevel s j q) : s'.nextOffset q j = s.nextOffset q j := by
  by_contra hne
  exact (he.changed q j hne).elim hq hoff

/-- A later list keeps the key and height of the node a `put` holds. -/
theorem PutThread.Owns.node_le (h : t.Owns s i) (hl : s.Le s') :
    ∃ nx, s'.getNode t.x = some nx ∧ nx.key = t.key ∧ nx.height = t.height := by
  obtain ⟨nx, hnx, hk, hh⟩ := h.node
  obtain ⟨nx', hnx', hk', hh'⟩ := hl.node _ _ hnx
  exact ⟨nx', hnx', hk'.trans hk, hh'.trans hh⟩

theorem PutThread.Holds.node_le (h : t.Holds s i) (hl : s.Le s') :
    ∃ nx, s'.getNode t.x = some nx ∧ nx.height = t.height := by
  obtain ⟨nx, hnx, hh⟩ := h.node
  obtain ⟨nx', hnx', -, hh'⟩ := hl.node _ _ hnx
  exact ⟨nx', hnx', hh'.trans hh⟩

/-- Another `put`'s step keeps the node a `put` holds. -/
theorem PutThread.Holds.frame {x : Nat} (he : Effect x s s') (h : t.Holds s i) (hx : t.x ≠ x) :
    t.Holds s' i where
  node := h.node_le he.le
  ne_head := h.ne_head
  below j hj := he.le.onLevel j _ (h.below j hj)
  above o j hj hn := by
    by_cases hold : s.nextOffset o j = some t.x
    · exact h.above o j hj hold
    · exact (he.added o j t.x hn h.x_ne_zero hold).elim hx (h.not_onLevel hj)

theorem PutThread.Owns.frame {x : Nat} (he : Effect x s s') (h : t.Owns s i) (hx : t.x ≠ x) :
    t.Owns s' i :=
  have h' := h.holds.frame he hx
  ⟨h.node_le he.le, h'.ne_head, h'.below, h'.above⟩

/-- **Another `put`'s step keeps a `put`'s invariant**, when the node it holds is not that
`put`'s. -/
theorem PutThread.Inv.frame (hw : s.Wf) {x : Nat} (he : Effect x s s') (ht : t.Inv s)
    (hx : t.pc.owns → t.x ≠ x) : t.Inv s' := by
  have hS : t.Splices s → t.Splices s' := fun h => h.mono hw he.le
  have hB : ∀ {L b}, Before s t.key L b → Before s' t.key L b := fun h => h.mono hw he.le
  unfold PutThread.Inv at ht ⊢
  split at ht <;> rename_i hpc <;> simp only [hpc, PutPc.owns, forall_const] at hx ⊢
  · exact hS ht
  · exact hS ht
  · exact ⟨hS ht.1, hB ht.2⟩
  · exact ⟨hS ht.1, ht.2.frame he hx⟩
  · exact ⟨hS ht.1, ht.2.1.frame he hx, ht.2.2⟩
  · exact ⟨hS ht.1, ht.2.1.frame he hx, ht.2.2⟩
  · exact ⟨hS ht.1, ht.2.1.frame he hx, ht.2.2.1, hB ht.2.2.2⟩
  · exact ⟨hS ht.1, ht.2.1.frame he hx, ht.2.2.1, hB ht.2.2.2⟩
  · exact ⟨hS ht.1, ht.2.1.frame he hx, ht.2.2⟩
  · obtain ⟨h1, h2, h3, h4⟩ := ht
    exact ⟨hS h1, h2.frame he hx, h3, by rw [he.nextOffset_eq hx (h2.not_onLevel le_rfl), h4]⟩
  all_goals exact ht

end Owns

/-! ## A `put`'s own step -/

theorem Effect.of_nextOffset_eq {s s' : SkipList} (hl : s.Le s') (h : ∀ q j, s'.nextOffset q j = s.nextOffset q j)
    (x : Nat) : Effect x s s' where
  le := hl
  changed q j hne := absurd (h q j) hne
  added q j _ hm _ hne := absurd (h q j ▸ hm) hne

section Writes
variable {s : SkipList} {t : PutThread} {i : Nat}

/-- The tower store of `x` on a level `x` is not on yet writes one link, from `x` to a node of the
level or null. -/
theorem effect_store {x L v : Nat} (hx0 : x ≠ 0) (hoff : ¬ OnLevel s L x) (hv : v ≠ 0 → OnLevel s L v) :
    Effect x s (s.setNext x L v) where
  le := SkipList.relinks_setNext.le (fun _ _ hb => (onLevel_setNext_iff hx0 hoff).2 hb) le_rfl
  changed _ _ hne := .inl (Classical.byContradiction fun hq => hne (nextOffset_setNext_of_ne hx0 fun h => hq h.1))
  added q j m hm h0 hne := by
    obtain ⟨-, rfl, rfl⟩ := (nextOffset_setNext_some hx0 hm).resolve_right hne
    exact .inr (hv h0)

/-- The CAS that links `x` after `p` on level `L`, both linking to `n`, rewrites one link of the
level, to `x`. -/
theorem effect_link {p L x n : Nat} (hp0 : p ≠ 0) (hp : OnLevel s L p) (hpn : s.nextOffset p L = some n)
    (hxn : s.nextOffset x L = some n) (hx : ¬ OnLevel s L x) (hx0 : x ≠ 0) : Effect x s (s.setNext p L x) where
  le := SkipList.relinks_setNext.le (fun L' b hb => by
    by_cases hL : L' = L
    · subst hL; exact (onLevel_link hp0 hp hpn hxn hx hx0).2 (.inl hb)
    · exact (onLevel_setNext_of_ne hp0 hL).2 hb) le_rfl
  changed q j hne := .inr (by
    obtain ⟨rfl, rfl⟩ : q = p ∧ j = L :=
      Classical.byContradiction fun h => hne (nextOffset_setNext_of_ne hp0 h)
    exact hp)
  added _ _ _ hm _ hne := .inl ((nextOffset_setNext_some hp0 hm).resolve_right hne).2.2

/-- The tower store of level `i` keeps what the `put` holds: it links from its node, to a node of
the level. -/
theorem PutThread.Holds.store (h : t.Holds s i) (hv : t.nextAt i ≠ 0 → OnLevel s i (t.nextAt i)) :
    t.Holds (s.setNext t.x i (t.nextAt i)) i :=
  have hoff := h.not_onLevel le_rfl
  have hl := (effect_store h.x_ne_zero hoff hv).le
  ⟨h.node_le hl, h.ne_head, fun j hj => hl.onLevel j _ (h.below j hj), fun o j hj hn => by
    by_cases hold : s.nextOffset o j = some t.x
    · exact h.above o j hj hold
    · obtain ⟨-, rfl, he⟩ := (nextOffset_setNext_some h.x_ne_zero hn).resolve_right hold
      exact hoff (he ▸ hv (he ▸ h.x_ne_zero))⟩

/-- The CAS of level `i` puts the `put`'s node on level `i`. -/
theorem PutThread.Holds.link (h : t.Holds s i) (hp0 : t.prevAt i ≠ 0) (hp : OnLevel s i (t.prevAt i))
    (hpn : s.nextOffset (t.prevAt i) i = some (t.nextAt i)) (hxn : s.nextOffset t.x i = some (t.nextAt i)) :
    t.Holds (s.setNext (t.prevAt i) i t.x) (i + 1) :=
  have hx := h.not_onLevel le_rfl
  have hl := (effect_link hp0 hp hpn hxn hx h.x_ne_zero).le
  ⟨h.node_le hl, h.ne_head, fun j hj => by
    rcases Nat.lt_succ_iff_lt_or_eq.1 hj with hj | rfl
    · exact hl.onLevel j _ (h.below j hj)
    · exact (onLevel_link hp0 hp hpn hxn hx h.x_ne_zero).2 (.inr rfl),
   fun o j hj hn => h.above o j (by omega) (by rwa [nextOffset_setNext_of_ne hp0 fun e => by omega] at hn)⟩

/-- `Node::new` changes links only at the new node and adds none. -/
theorem SkipList.Shape.effect_new (hs : s.Shape) {key : List UInt8} {v : ValueStruct} {h : Nat} :
    Effect (s.nodes.length + 1) s (Node.new s key v h).1 where
  le := hs.le_new
  changed q j hne := by
    by_cases hq : q = s.nodes.length + 1
    · exact .inl hq
    · exact absurd (nextOffset_new_of_ne s key v h hq j) hne
  added _ _ _ hm h0 hne := absurd (nextOffset_new_of_ne_zero hm h0) hne

end Writes

/-- What a step of a `put` keeps: the invariant of the list and of the `put`, an `Effect` at the
node it holds after the step, its key, and that node: the one it held, or a new one past the
list's last node. -/
structure StepOk (s : SkipList) (t : PutThread) (s' : SkipList) (t' : PutThread) : Prop where
  wf : s'.Wf
  effect : Effect t'.owned s s'
  inv : t'.Inv s'
  key : t'.key = t.key
  owned : t'.pc.owns → (t.pc.owns ∧ t'.x = t.x) ∨ t'.x = s.nodes.length + 1

section Step
variable {s : SkipList} {t : PutThread}

theorem PutThread.Splices.goto (h : t.Splices s) (pc : PutPc) : (t.goto pc).Splices s :=
  ⟨h.prev, h.next⟩

theorem PutThread.Owns.goto {i : Nat} (h : t.Owns s i) (pc : PutPc) : (t.goto pc).Owns s i :=
  ⟨h.node, h.ne_head, h.below, h.above⟩

theorem getD_set_eq (l : List Nat) (i j v : Nat) :
    (l.set i v).getD j 0 = v ∧ i = j ∨ (l.set i v).getD j 0 = l.getD j 0 := by
  simp only [List.getD_eq_getElem?_getD, List.getElem?_set]
  by_cases hij : i = j
  · subst hij
    by_cases hl : i < l.length
    · simp [hl]
    · simp [hl, List.getElem?_eq_none (Nat.le_of_not_lt hl)]
  · simp [hij]

/-- Writing `v` at `i` keeps a property of every non-null entry when `v` has it. -/
theorem forall_getD_set {P : Nat → Nat → Prop} {l : List Nat} {i v : Nat}
    (h : ∀ j, l.getD j 0 ≠ 0 → P j (l.getD j 0)) (hv : v ≠ 0 → P i v) (j : Nat)
    (hj : (l.set i v).getD j 0 ≠ 0) : P j ((l.set i v).getD j 0) := by
  rcases getD_set_eq l i j v with ⟨e, rfl⟩ | e <;> rw [e] at hj ⊢
  · exact hv hj
  · exact h j hj

theorem PutThread.Splices.setPrev (h : t.Splices s) {i pre : Nat} (hp : pre ≠ 0 → Before s t.key i pre) :
    ({ t with prev := t.prev.set i pre } : PutThread).Splices s :=
  ⟨@forall_getD_set (Before s t.key) t.prev i pre h.prev hp, h.next⟩

theorem PutThread.Splices.setNext (h : t.Splices s) {i nxt : Nat} (hn : nxt ≠ 0 → After s t.key i nxt) :
    ({ t with next := t.next.set i nxt } : PutThread).Splices s :=
  ⟨h.prev, @forall_getD_set (After s t.key) t.next i nxt h.next hn⟩

/-- A step that leaves the list as it is. -/
theorem StepOk.stay (hw : s.Wf) {t' : PutThread} (ht' : t'.Inv s) (hk : t'.key = t.key)
    (hx : t'.pc.owns → t.pc.owns ∧ t'.x = t.x) : StepOk s t s t' :=
  ⟨hw, Effect.of_nextOffset_eq (SkipList.Le.refl s) (fun _ _ => rfl) _, ht', hk, fun h => .inl (hx h)⟩

/-- `Node::key` reads back a key shorter than 2^16 bytes. -/
theorem key_new {key : List UInt8} (hk : key.length < 2 ^ 16) (h : Nat) (value : UInt64) (tower : List Nat) :
    (⟨key, UInt16.ofNat key.length, h, value, tower⟩ : Node).key = key := by
  simp [Node.key, UInt16.toNat_ofNat_of_lt hk]

variable (hw : s.Wf) (draws : List UInt32)
include hw

theorem stepOk_start (hpc : t.pc = .start) (ht : t.Inv s) :
    StepOk s t (t.step s draws).1 (t.step s draws).2 := by
  simp only [PutThread.Inv, hpc] at ht
  have hS : ({ t with prev := t.prev.set s.height headOffset, next := t.next.set s.height 0 } : PutThread).Splices s :=
    (ht.setPrev fun _ => before_head s t.key _).setNext fun h => absurd rfl h
  simp only [PutThread.step, hpc]
  split
  · exact StepOk.stay hw (hS.goto _) rfl (by simp [PutPc.owns])
  · exact StepOk.stay hw ⟨hS.goto _, before_head _ _ _⟩ rfl (by simp [PutPc.owns])

theorem stepOk_descend {i before : Nat} (hpc : t.pc = .descend i before) (ht : t.Inv s) :
    StepOk s t (t.step s draws).1 (t.step s draws).2 := by
  simp only [PutThread.Inv, hpc] at ht
  obtain ⟨hS, hb⟩ := ht
  simp only [PutThread.step, hpc]
  rcases hsp : spliceStep s t.key before i with _ | nx | ⟨pre, nxt⟩
  · exact StepOk.stay hw trivial rfl (by simp [PutPc.owns])
  · exact StepOk.stay hw ⟨hS.goto _, spliceStep_inl hw hb hsp⟩ rfl (by simp [PutPc.owns])
  · dsimp only
    split
    · split
      · exact StepOk.stay hw trivial rfl (by simp [PutPc.owns])
      · next h0 => exact StepOk.stay hw h0 rfl (by simp [PutPc.owns])
    · next hc =>
      obtain ⟨hpre, hnxt⟩ := (spliceStep_inr hw hb hsp).resolve_left fun h => hc ⟨h.1, h.2.1⟩
      have hfin : ∀ T : PutThread, T.Splices s → T.key = t.key →
          StepOk s t s (if i = 0 then T.goto .alloc else T.goto (.descend (i - 1) pre)) := fun T hT hk => by
        split
        · exact StepOk.stay hw (hT.goto _) hk (by simp [PutPc.owns])
        · refine StepOk.stay hw ⟨hT.goto _, ?_⟩ hk (by simp [PutPc.owns])
          rw [PutThread.goto_key, hk]
          exact ⟨hw.onLevel_le (by omega) hpre.1, hpre.2⟩
      have hP : PutThread.Splices s { t with prev := t.prev.set i pre } := hS.setPrev fun _ => hpre
      unfold PutThread.descended
      split
      · exact hfin _ (hP.setNext hnxt) rfl
      · exact hfin _ hP rfl

theorem SkipList.Wf.effect_new {key : List UInt8} {v : ValueStruct} {h : Nat} :
    Effect (s.nodes.length + 1) s (Node.new s key v h).1 :=
  hw.shape.effect_new

theorem stepOk_alloc (hpc : t.pc = .alloc) (ht : t.Inv s) (hk : t.key.length < 2 ^ 16) :
    StepOk s t (t.step s draws).1 (t.step s draws).2 := by
  simp only [PutThread.Inv, hpc] at ht
  simp only [PutThread.step, hpc]
  obtain ⟨h1, h2⟩ := randomHeight_bounds draws
  obtain ⟨value, hnew⟩ := getNode_new_self s t.key t.value (randomHeight draws)
  have hlen : headOffset < s.nodes.length + 1 := by
    obtain ⟨_, hhd, -⟩ := hw.head
    exact lt_length_of_getNode hhd
  have hS := ht.mono hw (hw.le_new : s.Le (Node.new s t.key t.value (randomHeight draws)).1)
  refine ⟨hw.new h1 h2, hw.effect_new, ⟨⟨hS.prev, hS.next⟩, ?_⟩, rfl, fun _ => .inr rfl⟩
  refine ⟨⟨_, hnew, key_new hk _ _ _, rfl⟩, show s.nodes.length + 1 ≠ headOffset by omega,
    fun j hj => absurd hj (Nat.not_lt_zero j),
    fun o j _ hn => ?_⟩
  by_cases ho : o = s.nodes.length + 1
  · subst ho
    exact absurd (nextOffset_new_self s t.key t.value _ hn) (show s.nodes.length + 1 ≠ 0 by omega)
  · rw [nextOffset_new_of_ne s t.key t.value _ ho] at hn
    exact hw.nextOffset_ne_new o j hn

theorem stepOk_loadHeight (hpc : t.pc = .loadHeight) (ht : t.Inv s) :
    StepOk s t (t.step s draws).1 (t.step s draws).2 := by
  simp only [PutThread.Inv, hpc] at ht
  simp only [PutThread.step, hpc]
  split
  · next hlt => exact StepOk.stay hw ⟨ht.1.goto _, ht.2.goto _, hlt⟩ rfl (by simp [PutPc.owns, hpc])
  · exact StepOk.stay hw ⟨ht.1.goto _, ht.2.goto _, Nat.zero_le _⟩ rfl (by simp [PutPc.owns, hpc])

theorem PutThread.Owns.height_bounds {i : Nat} (h : t.Owns s i) : 0 < t.height ∧ t.height ≤ maxHeight :=
  h.holds.height_bounds hw.shape

theorem stepOk_casHeight {lh : Nat} (hpc : t.pc = .casHeight lh) (ht : t.Inv s) :
    StepOk s t (t.step s draws).1 (t.step s draws).2 := by
  simp only [PutThread.Inv, hpc] at ht
  obtain ⟨hS, hO, hlt⟩ := ht
  simp only [PutThread.step, hpc]
  split
  · have hl : s.Le { s with height := t.height } := SkipList.le_setHeight (by omega)
    have he' : ∀ x, Effect x s { s with height := t.height } := Effect.of_nextOffset_eq hl fun _ _ => rfl
    obtain ⟨h1, h2⟩ := hO.height_bounds hw
    exact ⟨hw.setHeight h1 h2, he' _, ⟨(hS.mono hw hl).goto _, (hO.frame (he' 0) hO.x_ne_zero).goto _,
      Nat.zero_le _⟩, rfl, fun _ => .inl ⟨by simp [PutPc.owns, hpc], rfl⟩⟩
  · exact StepOk.stay hw ⟨hS.goto _, hO.goto _⟩ rfl (by simp [PutPc.owns, hpc])

theorem stepOk_link {i : Nat} (hpc : t.pc = .link i) (ht : t.Inv s) :
    StepOk s t (t.step s draws).1 (t.step s draws).2 := by
  simp only [PutThread.Inv, hpc] at ht
  obtain ⟨hS, hO, hle⟩ := ht
  simp only [PutThread.step, hpc]
  split
  · exact StepOk.stay hw trivial rfl (by simp [PutPc.owns])
  · next hlt =>
    split
    · split
      · exact StepOk.stay hw ⟨hS.goto _, hO.goto _, by simp only [PutThread.goto_height]; omega,
          before_head _ _ _⟩ rfl (by simp [PutPc.owns, hpc])
      · exact StepOk.stay hw trivial rfl (by simp [PutPc.owns])
    · exact StepOk.stay hw ⟨hS.goto _, hO.goto _, by simp only [PutThread.goto_height]; omega⟩ rfl
        (by simp [PutPc.owns, hpc])

theorem stepOk_fromHead {i before : Nat} (hpc : t.pc = .fromHead i before) (ht : t.Inv s) :
    StepOk s t (t.step s draws).1 (t.step s draws).2 := by
  simp only [PutThread.Inv, hpc] at ht
  obtain ⟨hS, hO, hlt, hb⟩ := ht
  simp only [PutThread.step, hpc]
  rcases hsp : spliceStep s t.key before i with _ | nx | ⟨pre, nxt⟩
  · exact StepOk.stay hw trivial rfl (by simp [PutPc.owns])
  · exact StepOk.stay hw ⟨hS.goto _, hO.goto _, hlt, spliceStep_inl hw hb hsp⟩ rfl
      (by simp [PutPc.owns, hpc])
  · dsimp only
    split
    · exact StepOk.stay hw trivial rfl (by simp [PutPc.owns])
    · next hc =>
      obtain ⟨hpre, hnxt⟩ := (spliceStep_inr hw hb hsp).resolve_left fun h => hc (.inr h.2.1)
      exact StepOk.stay hw ⟨((hS.setPrev fun _ => hpre).setNext hnxt).goto _,
        ⟨hO.node, hO.ne_head, hO.below, hO.above⟩, hlt⟩ rfl (by simp [PutPc.owns, hpc])

theorem stepOk_store {i : Nat} (hpc : t.pc = .store i) (ht : t.Inv s) :
    StepOk s t (t.step s draws).1 (t.step s draws).2 := by
  simp only [PutThread.Inv, hpc] at ht
  obtain ⟨hS, hO, hlt⟩ := ht
  simp only [PutThread.step, hpc]
  have hx0 := hO.x_ne_zero
  have hoff := hO.not_onLevel (le_refl i)
  obtain ⟨nx, hnx, hkx, -⟩ := hO.node
  have hok : t.nextAt i ≠ 0 → s.LinkOk t.x i (t.nextAt i) := fun h0 => by
    obtain ⟨-, hne, nm, hnm, hlt', hk⟩ := hS.next i h0
    exact ⟨nm, hnm, hlt', hne, .inr (by rw [SkipList.keyOf_eq hnx, hkx]; exact hk)⟩
  have he := effect_store hx0 hoff fun h0 => (hS.next i h0).1
  have hH := hO.holds.store fun h0 => (hS.next i h0).1
  obtain ⟨m, hm⟩ := hO.nextOffset hw hlt
  refine ⟨hw.setNext hx0 hoff hok, he, ⟨(hS.mono hw he.le).goto _,
    ⟨hO.node_le he.le, hH.ne_head, hH.below, hH.above⟩, hlt, ?_⟩, rfl, fun _ => .inl ⟨by simp [PutPc.owns, hpc], rfl⟩⟩
  rw [PutThread.goto_x, nextOffset_setNext hx0, if_pos ⟨rfl, rfl⟩, hm]
  rfl

theorem stepOk_cas {i : Nat} (hpc : t.pc = .cas i) (ht : t.Inv s) :
    StepOk s t (t.step s draws).1 (t.step s draws).2 := by
  simp only [PutThread.Inv, hpc] at ht
  obtain ⟨hS, hO, hlt, hxn⟩ := ht
  simp only [PutThread.step, hpc, SkipList.casNextOffset]
  rcases hpn : s.nextOffset (t.prevAt i) i with _ | cur
  · exact StepOk.stay hw trivial rfl (by simp [PutPc.owns])
  have hp0 : t.prevAt i ≠ 0 := fun h => by simp [h, SkipList.nextOffset, SkipList.getNode] at hpn
  obtain ⟨hp, hpk⟩ := hS.prev i hp0
  by_cases hc : cur = t.nextAt i
  swap
  · simp only [Option.map_some', hc, if_false]
    exact StepOk.stay hw ⟨hS.goto _, hO.goto _, hlt, hp, hpk⟩ rfl (by simp [PutPc.owns, hpc])
  subst hc
  simp only [Option.map_some', if_true]
  have hx0 := hO.x_ne_zero
  have hx := hO.not_onLevel (le_refl i)
  obtain ⟨nx, hnx, hkx, hhx⟩ := hO.node
  have hok : s.LinkOk (t.prevAt i) i t.x :=
    ⟨nx, hnx, hhx ▸ hlt, hO.ne_head, hpk.imp_right (hkx ▸ id)⟩
  have he := effect_link hp0 hp hpn hxn hx hx0
  have hH := hO.holds.link hp0 hp hpn hxn
  exact ⟨hw.link_cas hp0 hp hpn hxn hx hx0 hok fun L' hL' => hO.below L' (by omega), he,
    ⟨(hS.mono hw he.le).goto _, ⟨hO.node_le he.le, hH.ne_head, hH.below, hH.above⟩, show i + 1 ≤ t.height by omega⟩,
    rfl, fun _ => .inl ⟨by simp [PutPc.owns, hpc], rfl⟩⟩

theorem stepOk_research {i before : Nat} (hpc : t.pc = .research i before) (ht : t.Inv s) :
    StepOk s t (t.step s draws).1 (t.step s draws).2 := by
  simp only [PutThread.Inv, hpc] at ht
  obtain ⟨hS, hO, hlt, hb⟩ := ht
  simp only [PutThread.step, hpc]
  rcases hsp : spliceStep s t.key before i with _ | nx | ⟨pre, nxt⟩
  · exact StepOk.stay hw trivial rfl (by simp [PutPc.owns])
  · exact StepOk.stay hw ⟨hS.goto _, hO.goto _, hlt, spliceStep_inl hw hb hsp⟩ rfl
      (by simp [PutPc.owns, hpc])
  · dsimp only
    split
    · exact StepOk.stay hw trivial rfl (by simp [PutPc.owns])
    · next h0 =>
      split
      · next he =>
        split
        · exact StepOk.stay hw (show pre ≠ 0 from he ▸ h0) rfl (by simp [PutPc.owns])
        · exact StepOk.stay hw trivial rfl (by simp [PutPc.owns])
      · next he =>
        obtain ⟨hpre, hnxt⟩ := (spliceStep_inr hw hb hsp).resolve_left fun h => he h.2.1
        exact StepOk.stay hw ⟨((hS.setPrev fun _ => hpre).setNext hnxt).goto _,
          ⟨hO.node, hO.ne_head, hO.below, hO.above⟩, hlt.le⟩ rfl (by simp [PutPc.owns, hpc])

theorem stepOk_setValue {o : Nat} (hpc : t.pc = .setValue o) :
    StepOk s t (t.step s draws).1 (t.step s draws).2 := by
  simp only [PutThread.step, hpc]
  have hl : s.Le (s.setValue o t.value) :=
    SkipList.relinks_setValue.le (fun _ _ hb => onLevel_setValue_iff.2 hb) le_rfl
  exact ⟨hw.setValue, Effect.of_nextOffset_eq hl (fun _ _ => nextOffset_setValue _ _) _, trivial, rfl,
    by simp [PutPc.owns]⟩

end Step

/-- **A `put`'s step keeps its own invariant and the list's.** -/
theorem PutThread.stepOk {s : SkipList} {t : PutThread} (hw : s.Wf) (ht : t.Inv s)
    (hk : t.key.length < 2 ^ 16) (draws : List UInt32) :
    StepOk s t (t.step s draws).1 (t.step s draws).2 := by
  cases hpc : t.pc with
  | start => exact stepOk_start hw draws hpc ht
  | descend => exact stepOk_descend hw draws hpc ht
  | alloc => exact stepOk_alloc hw draws hpc ht hk
  | loadHeight => exact stepOk_loadHeight hw draws hpc ht
  | casHeight => exact stepOk_casHeight hw draws hpc ht
  | link => exact stepOk_link hw draws hpc ht
  | fromHead => exact stepOk_fromHead hw draws hpc ht
  | store => exact stepOk_store hw draws hpc ht
  | cas => exact stepOk_cas hw draws hpc ht
  | research => exact stepOk_research hw draws hpc ht
  | setValue => exact stepOk_setValue hw draws hpc
  | done | panicked | fault =>
    rw [show t.step s draws = (s, t) by simp [PutThread.step, hpc]]
    exact StepOk.stay hw ht rfl fun h => ⟨h, rfl⟩

/-! ## Every interleaving -/

/-- The node a `put` holds, when it holds one. -/
def PutThread.ownedNode (t : PutThread) : Option Nat := if t.pc.owns then some t.x else none

/-- The invariant of the system: the list's, each `put`'s, keys that `key_size` holds, and
pairwise distinct held nodes. -/
structure Sys.Inv (sys : Sys) : Prop where
  wf : sys.list.Wf
  thread : ∀ t ∈ sys.threads, t.Inv sys.list
  key : ∀ t ∈ sys.threads, t.key.length < 2 ^ 16
  owned : (sys.threads.filterMap PutThread.ownedNode).Nodup

theorem getD_replicate_zero (n j : Nat) : (List.replicate n 0).getD j 0 = 0 := by
  rw [List.getD_eq_getElem?_getD, List.getElem?_replicate]
  split <;> rfl

theorem PutThread.inv_init (s : SkipList) (key : List UInt8) (v : ValueStruct) :
    (PutThread.init key v).Inv s :=
  ⟨fun j h => absurd (getD_replicate_zero _ j) h, fun j h => absurd (getD_replicate_zero _ j) h⟩

theorem PutThread.Inv.owns {s : SkipList} {t : PutThread} (h : t.Inv s) (ho : t.pc.owns) :
    ∃ i, t.Owns s i := by
  unfold PutThread.Inv at h
  split at h <;> rename_i hpc <;> simp only [hpc, PutPc.owns] at ho
  all_goals first
    | exact ⟨_, h.2⟩
    | exact ⟨_, h.2.1⟩
    | cases ho

/-- The held nodes stay pairwise distinct when one `put` keeps its node or takes a node past all
the others. -/
theorem nodup_owned_step {pre post : List PutThread} {t t' : PutThread} {n : Nat}
    (h : ((pre ++ t :: post).filterMap PutThread.ownedNode).Nodup)
    (hfresh : ∀ u ∈ pre ++ post, u.pc.owns → u.x < n)
    (ht' : t'.pc.owns → (t.pc.owns ∧ t'.x = t.x) ∨ t'.x = n) :
    ((pre ++ t' :: post).filterMap PutThread.ownedNode).Nodup := by
  simp only [List.filterMap_append, List.filterMap_cons] at h ⊢
  have hAB : (pre.filterMap PutThread.ownedNode ++ post.filterMap PutThread.ownedNode).Nodup := by
    split at h
    · exact h
    · exact h.sublist ((List.sublist_cons_self _ _).append_left _)
  by_cases ho' : t'.pc.owns
  · have e : t'.ownedNode = some t'.x := by simp [PutThread.ownedNode, ho']
    rw [e]
    rcases ht' ho' with ⟨ho, hx⟩ | hx
    · have e' : t.ownedNode = some t.x := by simp [PutThread.ownedNode, ho]
      rw [e'] at h
      rwa [hx]
    · refine List.nodup_middle.2 (List.nodup_cons.2 ⟨fun hm => ?_, hAB⟩)
      rw [← List.filterMap_append, List.mem_filterMap] at hm
      obtain ⟨u, hu, hux⟩ := hm
      simp only [PutThread.ownedNode] at hux
      split at hux
      · next huo => exact absurd (Option.some.inj hux ▸ hx ▸ hfresh u hu huo) (lt_irrefl _)
      · cases hux
  · have e : t'.ownedNode = none := by simp [PutThread.ownedNode, ho']
    rw [e]
    exact hAB

/-- A node one `put` holds is not the node another `put` holds. -/
theorem owned_ne_of_nodup {pre post : List PutThread} {t u : PutThread}
    (h : ((pre ++ t :: post).filterMap PutThread.ownedNode).Nodup) (ht : t.pc.owns)
    (hu : u ∈ pre ++ post) (huo : u.pc.owns) : u.x ≠ t.x := fun e => by
  simp only [List.filterMap_append, List.filterMap_cons, PutThread.ownedNode, ht, if_true] at h
  have hmem : u.x ∈ pre.filterMap PutThread.ownedNode ++ post.filterMap PutThread.ownedNode := by
    rw [← List.filterMap_append, List.mem_filterMap]
    exact ⟨u, hu, by simp [PutThread.ownedNode, huo]⟩
  exact (List.nodup_cons.1 (List.nodup_middle.1 h)).1 (e ▸ hmem)

/-- After a step of one `put`, no other `put` holds the node it holds: it kept its own node, or
took one past every node the others hold. -/
theorem owned_ne_step {n : Nat} {pre post : List PutThread} {t t' : PutThread}
    (h : ((pre ++ t :: post).filterMap PutThread.ownedNode).Nodup)
    (hfresh : ∀ u ∈ pre ++ post, u.pc.owns → u.x < n ∧ u.x ≠ 0)
    (ht' : t'.pc.owns → (t.pc.owns ∧ t'.x = t.x) ∨ t'.x = n) :
    ∀ u ∈ pre ++ post, u.pc.owns → u.x ≠ t'.owned := fun u hu ho e => by
  unfold PutThread.owned at e
  split at e
  · next ho' =>
    rcases ht' ho' with ⟨hto, hx⟩ | hx
    · exact owned_ne_of_nodup h hto hu ho (e.trans hx)
    · exact Nat.ne_of_lt (hfresh u hu ho).1 (e.trans hx)
  · exact (hfresh u hu ho).2 e

/-- **Every step of the system keeps its invariant**, and no step lowers the height. -/
theorem Sys.Inv.step {a b : Sys} (h : a.Inv) (hs : Sys.Step ShortKeys a b) :
    b.Inv ∧ a.list.height ≤ b.list.height := by
  cases hs with
  | spawn s ts key v hk =>
    refine ⟨⟨h.wf, List.forall_mem_append.2 ⟨h.thread, List.forall_mem_singleton.2 (PutThread.inv_init s key v)⟩,
      List.forall_mem_append.2 ⟨h.key, List.forall_mem_singleton.2 hk⟩, ?_⟩, le_rfl⟩
    simpa [List.filterMap_append, PutThread.ownedNode, PutThread.init, PutPc.owns] using h.owned
  | run s pre post t draws =>
    have hmem : t ∈ pre ++ t :: post := List.mem_append_cons_self
    have hother : ∀ u ∈ pre ++ post, u ∈ pre ++ t :: post := fun u hu =>
      List.perm_middle.mem_iff.2 (List.mem_cons_of_mem _ hu)
    have hok := PutThread.stepOk h.wf (h.thread t hmem) (h.key t hmem) draws
    /- A node another `put` holds is an old one, and not the one this `put` holds. -/
    have hold : ∀ u ∈ pre ++ post, u.pc.owns → u.x < s.nodes.length + 1 ∧ u.x ≠ 0 := fun u hu ho => by
      obtain ⟨i, hi⟩ := (h.thread u (hother u hu)).owns ho
      obtain ⟨_, hn, -⟩ := hi.node
      exact ⟨lt_length_of_getNode hn, hi.x_ne_zero⟩
    refine ⟨⟨hok.wf, fun u hu => ?_, fun u hu => ?_,
      nodup_owned_step h.owned (fun u hu ho => (hold u hu ho).1) hok.owned⟩, hok.effect.le.height⟩
    · rcases List.mem_cons.1 (List.perm_middle.mem_iff.1 hu) with rfl | hu
      · exact hok.inv
      · exact (h.thread u (hother u hu)).frame h.wf hok.effect (owned_ne_step h.owned hold hok.owned u hu)
    · rcases List.mem_cons.1 (List.perm_middle.mem_iff.1 hu) with rfl | hu
      · exact hok.key ▸ h.key t hmem
      · exact h.key u (hother u hu)

theorem Sys.Inv.reachable {sys : Sys} (h : sys.Reachable ShortKeys) : sys.Inv := by
  induction h with
  | init => exact ⟨SkipList.wf_new, by simp, by simp, by simp⟩
  | step _ hs ih => exact (ih.step hs).1

/-- **The structural invariant holds under every interleaving of `put`s of keys shorter than
2^16 bytes, and the height never goes down.** In every state reached from `SkipList::new`, the
height and every node's height are in `1 ..= MAX_HEIGHT`, every non-zero link of level `L` leads
to a node taller than `L` whose key is above the linking node's (the head is below every key),
and every node of level `L + 1` is on level `L`; a step from such a state does not lower the
height. -/
theorem wf_reachable (sys : Sys) (h : sys.Reachable ShortKeys) :
    sys.list.Wf ∧ ∀ b, Sys.Step ShortKeys sys b → sys.list.height ≤ b.list.height :=
  ⟨(Sys.Inv.reachable h).wf, fun _ hs => ((Sys.Inv.reachable h).step hs).2⟩

/-- The interleaving of `puts_distinct_keys_panic` keeps the invariant, though `put(b"b")`
panicked in it. -/
theorem wf_after_failed_cas :
    let sys := (⟨SkipList.new, [PutThread.init [0x61] default, PutThread.init [0x62] default]⟩ : Sys).runSchedule
      ([(0, []), (0, []), (1, []), (1, [])] ++ List.replicate 6 (0, []) ++ List.replicate 7 (1, []))
    Sys.Reachable ShortKeys sys ∧ sys.threads.map (·.pc) = [.done, .panicked] ∧
      (sys.list.Wf ∧ ∀ b, Sys.Step ShortKeys sys b → sys.list.height ≤ b.list.height) :=
  have h : Sys.Reachable ShortKeys ⟨SkipList.new, [PutThread.init [0x61] default, PutThread.init [0x62] default]⟩ :=
    (Sys.Reachable.init.spawn (by decide) default).spawn (by decide) default
  ⟨h.runSchedule _, by decide, wf_reachable _ (h.runSchedule _)⟩

/-- `put(b"b")` and then `put(b"a")` drawing height 2, run one after the other from
`SkipList::new`: a list of height 2 with `b"a"` on both levels and `b"b"` after it on level 0. -/
def twoPuts : Sys :=
  (⟨SkipList.new, [PutThread.init [0x62] ⟨[1], 0, 0, 0⟩, PutThread.init [0x61] ⟨[2], 0, 0, 0⟩]⟩ : Sys).runSchedule
    (List.replicate 8 (0, []) ++ List.replicate 12 (1, [0, 0xFFFFFFFF]))

theorem twoPuts_reachable : twoPuts.Reachable ShortKeys := by
  unfold twoPuts
  exact ((Sys.Reachable.init.spawn (by decide) _).spawn (by decide) _).runSchedule _

theorem twoPuts_wf : twoPuts.list.Wf := (Sys.Inv.reachable twoPuts_reachable).wf

/-- A key of 2^16 bytes, `5, 0, 0, ..., 0`: `key_size` holds its length as 0. -/
def longKey : List UInt8 := 5 :: List.replicate 65535 0

/-- **With a key of 2^16 bytes the invariant breaks.** `put([5, 0])` and then `put(longKey)`,
one after the other: `longKey` is above `[5, 0]`, so its node is linked after that node, but
`Node::key` reads it back as the empty key, which is below `[5, 0]`. -/
theorem long_key_breaks_order : ∃ sys, Sys.Reachable (fun _ _ => True) sys ∧ ¬ sys.list.Wf := by
  have h1 : Sys.Reachable (fun _ _ => True) ⟨SkipList.new, [] ++ [PutThread.init [5, 0] default]⟩ :=
    Sys.Reachable.init.spawn trivial default
  have h2 : Sys.Reachable (fun _ _ => True) ⟨_, _ ++ [PutThread.init longKey default]⟩ :=
    (h1.runSchedule (List.replicate 8 (0, []))).spawn trivial default
  refine ⟨_, h2.runSchedule (List.replicate 8 (1, [])), fun hw => ?_⟩
  obtain ⟨nm, hnm, -, -, hk⟩ := hw.link 2 0 3 (by decide) (by decide)
  have hkb : some nm.keyBytes = some longKey := by
    rw [← Option.map_some' nm Node.keyBytes, ← hnm]; rfl
  have hks : some nm.keySize = some (UInt16.ofNat longKey.length) := by
    rw [← Option.map_some' nm Node.keySize, ← hnm]; rfl
  have hlen : longKey.length = 65536 := by rw [longKey, List.length_cons, List.length_replicate]
  have hkey : nm.key = [] := by
    rw [Node.key, Option.some.inj hkb, Option.some.inj hks, hlen]; rfl
  rw [hkey] at hk
  rcases hk with hk | hk
  · exact absurd hk (by decide)
  · exact not_keyLt_nil _ hk

end Badger.Skl
