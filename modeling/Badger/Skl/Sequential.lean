import Badger.Skl.Durable

/-!
# `put` alone (skl/mod.rs:334-427)

`SkipList.put` runs one `put` with no other thread: the steps of `PutThread.step`, one after
another. On a list that `put`s have built (`SkipList.Good`: the structural invariant, empty levels
above the height, value slots naming stored values) its outcome depends only on whether the key is
already on level 0 and on the drawn height:

* a key already in the list: the first loop finds it on the highest level holding it, where
  `prev[i]` is still null, and panics before any write (`put_present_panics`);
* a new key: the node is inserted, so that `get(key)` is `v` and `get` of every other key is
  unchanged, and the `put` returns exactly when the drawn height is at most one above the list
  height; above that, the search from the head at the first level past the old height finds a
  null link and `_next.unwrap()` panics (`put_fresh_key`).

So `put`s of distinct keys one after another from `SkipList::new`, each drawing a height that
fits, all return, and `get` then answers the map they built (`putAll_new`).

The run is cut as the source is: the first step (`run_start`), the first loop level by level
(`run_walk`, `run_descend_level`, `run_descent`), the allocation and height CAS
(`run_alloc`), and the second loop, three steps a level (`run_link`, `run_links`); `run_add` joins
the pieces and `run_of_le` says more fuel changes nothing.

| here | there |
| --- | --- |
| `run_descent`, `Descended` | the first loop (mod.rs:348-360) |
| `run_alloc` | `random_height`, `Node::new` and the height CAS loop (mod.rs:363-380) |
| `run_links`, `Linked` | the second loop when every CAS succeeds (mod.rs:384-410) |
| `SkipList.putAll` | `put` called again and again, each call returning before the next |
-/

namespace Badger.Skl

section Run
variable (draws : List UInt32)

theorem PutThread.run_finished {t : PutThread} (h : t.pc.Finished) :
    ∀ n s, PutThread.run draws n s t = (s, t)
  | 0, _ => rfl
  | _ + 1, _ => if_pos h

theorem PutThread.run_succ {t : PutThread} (h : ¬ t.pc.Finished) (n : Nat) (s : SkipList) :
    PutThread.run draws (n + 1) s t = PutThread.run draws n (t.step s draws).1 (t.step s draws).2 :=
  if_neg h

theorem PutThread.run_add : ∀ m n s t, PutThread.run draws (m + n) s t =
    PutThread.run draws n (PutThread.run draws m s t).1 (PutThread.run draws m s t).2
  | 0, n, s, t => by rw [Nat.zero_add]; rfl
  | m + 1, n, s, t => by
    by_cases h : t.pc.Finished
    · simp only [PutThread.run_finished draws h]
    · rw [Nat.add_right_comm, PutThread.run_succ draws h, PutThread.run_succ draws h, PutThread.run_add m n]

theorem PutThread.run_one {t : PutThread} (h : ¬ t.pc.Finished) (s : SkipList) :
    PutThread.run draws 1 s t = t.step s draws :=
  PutThread.run_succ draws h 0 s

/-- More fuel changes nothing once the `put` has stopped. -/
theorem PutThread.run_of_le {k fuel : Nat} {s s' : SkipList} {t t' : PutThread}
    (h : PutThread.run draws k s t = (s', t')) (hf : t'.pc.Finished) (hk : k ≤ fuel) :
    PutThread.run draws fuel s t = (s', t') := by
  rw [← Nat.add_sub_cancel' hk, PutThread.run_add, h, PutThread.run_finished draws hf]

end Run

@[simp] theorem PutThread.goto_goto (t : PutThread) (a b : PutPc) : (t.goto a).goto b = t.goto b := rfl
@[simp] theorem PutThread.goto_value (t : PutThread) (pc : PutPc) : (t.goto pc).value = t.value := rfl
@[simp] theorem PutThread.goto_prevAt (t : PutThread) (pc : PutPc) (i : Nat) :
    (t.goto pc).prevAt i = t.prevAt i := rfl
@[simp] theorem PutThread.goto_nextAt (t : PutThread) (pc : PutPc) (i : Nat) :
    (t.goto pc).nextAt i = t.nextAt i := rfl
theorem PutThread.goto_self (t : PutThread) : t.goto t.pc = t := rfl
@[simp] theorem PutThread.descended_goto (t : PutThread) (pc : PutPc) (i p nxt : Nat) :
    (t.goto pc).descended i p nxt = t.descended i p nxt := rfl


/-- What the first loop leaves at level `j`: `prev[j]` on the level, below `key` or the head, and
`next[j]` its link there, above `key` unless null. -/
def SpliceAt (s : SkipList) (key : List UInt8) (j p nxt : Nat) : Prop :=
  Before s key j p ∧ s.nextOffset p j = some nxt ∧ (nxt ≠ 0 → KeyLt key (s.keyOf nxt))

section Descend
variable {s : SkipList} (hw : s.Wf) (draws : List UInt32)
include hw

/-- A stop of the splice search is not a self-link. -/
theorem SpliceAt.ne {key : List UInt8} {i p nxt : Nat} (h : SpliceAt s key i p nxt) (h0 : nxt ≠ 0) :
    p ≠ nxt := by
  rintro rfl
  obtain ⟨hne, hk⟩ := hw.next_key h.2.1 h0
  rcases h.1.2 with hp | hp
  · exact hne hp
  · exact (h.2.2 h0).asymm hp

/-- A turn of `find_splice_for_level` from a node below `key`: it moves right to a node below
`key`, it finds the node holding `key`, or it stops at `before` with its link. -/
theorem spliceStep_cases {key : List UInt8} {i before : Nat} (hi : i < maxHeight)
    (hb : Before s key i before) :
    (∃ nx, spliceStep s key before i = some (.inl nx) ∧ Before s key i nx ∧
        rank s before < rank s nx) ∨
      (∃ m, spliceStep s key before i = some (.inr (m, m)) ∧ m ≠ 0 ∧ OnLevel s i m ∧
        m ≠ headOffset ∧ s.keyOf m = key) ∨
      ∃ nxt, spliceStep s key before i = some (.inr (before, nxt)) ∧ SpliceAt s key i before nxt := by
  obtain ⟨m, hm⟩ := hw.onLevel_nextOffset hb.1 hi
  by_cases h0 : m = 0
  · subst h0
    exact .inr (.inr ⟨0, by simp [spliceStep, hw.getNext_eq hm], hb, hm, fun h => absurd rfl h⟩)
  have hon := hb.1.next hm h0
  rcases hc : compareBytes key (s.keyOf m)
  · exact .inr (.inr ⟨m, by simp [spliceStep, hw.getNext_eq hm, h0, hc], hb, hm, fun _ => hc⟩)
  · exact .inr (.inl ⟨m, by simp [spliceStep, hw.getNext_eq hm, h0, hc], h0, hon, (hw.next_key hm h0).1,
      (compareBytes_eq_iff.1 hc).symm⟩)
  · exact .inl ⟨m, by simp [spliceStep, hw.getNext_eq hm, h0, hc],
      ⟨hon, .inr (compareBytes_gt_iff.1 hc)⟩, rank_lt_next hw hb.1 hm h0⟩

/-- The turns of a search loop of `_put` at level `i` that move right (the first loop, the search
from the head, the search again after a failed CAS), up to the one that finds `key` or stops at
a splice. -/
theorem run_walk (t : PutThread) {i : Nat} (hi : i < maxHeight) {P : Nat → PutPc}
    (hP : ∀ b nx, spliceStep s t.key b i = some (.inl nx) →
      (t.goto (P b)).step s draws = (s, t.goto (P nx)))
    (hfin : ∀ b, ¬ (P b).Finished) :
    ∀ fuel x, Before s t.key i x → s.nodes.length + 1 - rank s x < fuel →
      ∃ k < fuel, ∃ y, PutThread.run draws k s (t.goto (P x)) = (s, t.goto (P y)) ∧
        Before s t.key i y ∧
        ((∃ m, spliceStep s t.key y i = some (.inr (m, m)) ∧ m ≠ 0 ∧ OnLevel s i m ∧
          m ≠ headOffset ∧ s.keyOf m = t.key) ∨
        ∃ nxt, spliceStep s t.key y i = some (.inr (y, nxt)) ∧ SpliceAt s t.key i y nxt)
  | 0, _, _, hμ => absurd hμ (Nat.not_lt_zero _)
  | fuel + 1, x, hb, hμ => by
    rcases spliceStep_cases hw hi hb with ⟨nx, hs, hnx, hr⟩ | hstop
    · have := rank_le s nx
      obtain ⟨k, hk, y, hrun, hy⟩ := run_walk t hi hP hfin fuel nx hnx (by omega)
      refine ⟨k + 1, by omega, y, ?_, hy⟩
      rw [Nat.add_comm, PutThread.run_add, PutThread.run_one draws (hfin x), hP x nx hs]
      exact hrun
    · exact ⟨0, by omega, x, rfl, hb, hstop⟩

end Descend

/-- `prev` and `next` of a `put` in its first loop with the levels from `i` up to the list
height searched: below `i` still null, at each searched level a splice, at the list height the
head and null, and above it null. -/
structure Descended (s : SkipList) (t : PutThread) (i : Nat) : Prop where
  length : t.prev.length = maxHeight + 1 ∧ t.next.length = maxHeight + 1
  fresh : ∀ j < i, t.prevAt j = 0 ∧ t.nextAt j = 0
  spliced : ∀ j, i ≤ j → j < s.height → SpliceAt s t.key j (t.prevAt j) (t.nextAt j)
  top : t.prevAt s.height = headOffset ∧ t.nextAt s.height = 0
  above : ∀ j, s.height < j → t.prevAt j = 0

theorem getD_set_self {l : List Nat} {i : Nat} (hi : i < l.length) (v : Nat) : (l.set i v).getD i 0 = v := by
  simp [List.getD_eq_getElem?_getD, hi]

@[simp] theorem PutThread.descended_key (t : PutThread) (i p nxt : Nat) :
    (t.descended i p nxt).key = t.key := by
  unfold PutThread.descended; split_ifs <;> rfl

@[simp] theorem PutThread.descended_value (t : PutThread) (i p nxt : Nat) :
    (t.descended i p nxt).value = t.value := by
  unfold PutThread.descended; split_ifs <;> rfl

theorem PutThread.descended_pc (t : PutThread) (i p nxt : Nat) :
    (t.descended i p nxt).pc = if i = 0 then .alloc else .descend (i - 1) p := by
  unfold PutThread.descended; split_ifs <;> rfl

theorem PutThread.descended_prevAt (t : PutThread) (i p nxt j : Nat) :
    (t.descended i p nxt).prevAt j = (t.prev.set i p).getD j 0 := by
  unfold PutThread.descended; split_ifs <;> rfl

theorem PutThread.descended_nextAt (t : PutThread) (i p nxt j : Nat) :
    (t.descended i p nxt).nextAt j = (if nxt ≠ 0 then t.next.set i nxt else t.next).getD j 0 := by
  unfold PutThread.descended; split_ifs <;> rfl

theorem PutThread.descended_length (t : PutThread) (i p nxt : Nat) :
    (t.descended i p nxt).prev.length = t.prev.length ∧
      (t.descended i p nxt).next.length = t.next.length := by
  unfold PutThread.descended; split_ifs <;> simp [PutThread.goto]

/-- The end of a level's search records its splice. -/
theorem Descended.descended {s : SkipList} (hw : s.Wf) {t : PutThread} {i p nxt : Nat}
    (h : Descended s t (i + 1)) (hi : i < s.height) (hsp : SpliceAt s t.key i p nxt) :
    Descended s (t.descended i p nxt) i := by
  have hp : ∀ j, (t.descended i p nxt).prevAt j = if i = j then p else t.prevAt j := fun j => by
    rw [PutThread.descended_prevAt]
    split_ifs with e
    · subst e; exact getD_set_self (by have := hw.height_le; rw [h.length.1]; omega) p
    · exact getD_set_of_ne p e
  have hn : ∀ j, (t.descended i p nxt).nextAt j = if i = j then nxt else t.nextAt j := fun j => by
    rw [PutThread.descended_nextAt]
    split_ifs with h0 e e
    · subst e; exact getD_set_self (by have := hw.height_le; rw [h.length.2]; omega) nxt
    · exact getD_set_of_ne nxt e
    · subst e; exact ((h.fresh i (by omega)).2).trans (not_not.1 h0).symm
    · rfl
  refine ⟨⟨(PutThread.descended_length t i p nxt).1.trans h.length.1,
    (PutThread.descended_length t i p nxt).2.trans h.length.2⟩, fun j hj => ?_, fun j hj hjs => ?_, ?_,
    fun j hj => ?_⟩
  · rw [hp, hn, if_neg (by omega), if_neg (by omega)]; exact h.fresh j (by omega)
  · rw [hp, hn, PutThread.descended_key]
    rcases Nat.eq_or_lt_of_le hj with rfl | hj
    · simpa using hsp
    · rw [if_neg (by omega), if_neg (by omega)]; exact h.spliced j hj hjs
  · rw [hp, hn, if_neg (by omega), if_neg (by omega)]; exact h.top
  · rw [hp, if_neg (by omega)]; exact h.above j hj

section Descent
variable {s : SkipList} (hw : s.Wf) (draws : List UInt32)
include hw

/-- One level of the first loop: the search finds the node holding `key`, and the `put` panics on
the still null `prev[i]`, or it records a splice and moves on. -/
theorem run_descend_level {t : PutThread} {i b : Nat} (hpc : t.pc = .descend i b)
    (hb : Before s t.key i b) (hi : i < s.height) (hd : Descended s t (i + 1)) :
    ∃ k ≤ s.nodes.length + 2,
      (PutThread.run draws k s t = (s, t.goto .panicked) ∧
        ∃ m, OnLevel s i m ∧ m ≠ headOffset ∧ s.keyOf m = t.key) ∨
      ∃ p nxt, PutThread.run draws k s t = (s, t.descended i p nxt) ∧ SpliceAt s t.key i p nxt := by
  have hi' : i < maxHeight := by have := hw.height_le; omega
  have := rank_le s b
  obtain ⟨k, hk, y, hrun, -, hy⟩ := @run_walk s hw draws t i hi' (.descend i ·)
    (fun b nx hs => by simp [PutThread.step, hs]) (fun _ => by simp [PutPc.Finished])
    (s.nodes.length + 2) b hb (by omega)
  rw [← hpc, PutThread.goto_self] at hrun
  refine ⟨k + 1, by omega, ?_⟩
  rw [PutThread.run_add, hrun, PutThread.run_one draws (by simp [PutPc.Finished])]
  rcases hy with ⟨m, hs, hm0, hm, hmh, hmk⟩ | ⟨nxt, hs, hsp⟩
  · exact .inl ⟨by simp [PutThread.step, hs, hm0, (hd.fresh i (by omega)).1], m, hm, hmh, hmk⟩
  · have hne : ¬ (nxt ≠ 0 ∧ y = nxt) := fun h => hsp.ne hw h.1 h.2
    exact .inr ⟨y, nxt, by simp [PutThread.step, hs, hne], hsp⟩

/-- **The first loop.** From level `i` down, it panics on finding `key` on a level, or it
reaches the allocation with a splice recorded at every level below the list height. -/
theorem run_descent (i : Nat) : ∀ (t : PutThread) (b : Nat), t.pc = .descend i b → Before s t.key i b →
    i < s.height → Descended s t (i + 1) →
    ∃ k ≤ (i + 1) * (s.nodes.length + 2),
      ((∃ t', PutThread.run draws k s t = (s, t') ∧ t'.pc = .panicked) ∧
        ∃ m, OnLevel s 0 m ∧ m ≠ headOffset ∧ s.keyOf m = t.key) ∨
      ∃ t', PutThread.run draws k s t = (s, t') ∧ t'.pc = .alloc ∧ Descended s t' 0 ∧
        t'.key = t.key ∧ t'.value = t.value := by
  induction i with
  | zero =>
    intro t b hpc hb hi hd
    obtain ⟨k, hk, ⟨hrun, m, hm, hmh, hmk⟩ | ⟨p, nxt, hrun, hsp⟩⟩ :=
      run_descend_level hw draws hpc hb hi hd
    · exact ⟨k, by omega, .inl ⟨⟨_, hrun, rfl⟩, m, hm, hmh, hmk⟩⟩
    · exact ⟨k, by omega, .inr ⟨_, hrun, by simp [PutThread.descended_pc], hd.descended hw hi hsp,
        by simp, by simp⟩⟩
  | succ i ih =>
    intro t b hpc hb hi hd
    obtain ⟨k, hk, ⟨hrun, m, hm, hmh, hmk⟩ | ⟨p, nxt, hrun, hsp⟩⟩ :=
      run_descend_level hw draws hpc hb hi hd
    · exact ⟨k, by rw [Nat.succ_mul]; omega,
        .inl ⟨⟨_, hrun, rfl⟩, m, hw.onLevel_le (Nat.zero_le _) hm, hmh, hmk⟩⟩
    have hb' : Before s (t.descended (i + 1) p nxt).key i p := by
      rw [PutThread.descended_key]; exact ⟨hw.sublist i p hsp.1.1, hsp.1.2⟩
    obtain ⟨k', hk', h'⟩ := ih _ p (by simp [PutThread.descended_pc]) hb' (by omega)
      (hd.descended hw hi hsp)
    refine ⟨k + k', by rw [Nat.succ_mul]; omega, ?_⟩
    rw [PutThread.run_add, hrun]
    simpa using h'

end Descent

/-- A splice of level 0 rules out a node holding `key` on that level. -/
theorem SpliceAt.absent {s : SkipList} (hw : s.Wf) {key : List UInt8} {p nxt : Nat}
    (h : SpliceAt s key 0 p nxt) : ∀ n, OnLevel s 0 n → n ≠ headOffset → s.keyOf n ≠ key := by
  intro n hn hnh hk
  subst hk
  rcases onLevel_split h.1.1 hn h.2.1 with hnp | ⟨h0, hr⟩
  · rcases h.1.2 with rfl | hp
    · exact hnh (hw.reach_head hnp)
    · rcases hw.reach_keyLe hnp hnh with hlt | he
      · exact hlt.asymm hp
      · exact KeyLt.irrefl _ (he ▸ hp)
  · rcases hw.reach_keyLe hr (hw.next_key h.2.1 h0).1 with hlt | he
    · exact hlt.asymm (h.2.2 h0)
    · exact KeyLt.irrefl _ (he ▸ h.2.2 h0)

/-- The first step of a `put`: `prev` and `next` at the list height are the head and null, and
the first loop starts at the top level from the head. -/
theorem run_start {s : SkipList} (hw : s.Wf) (draws : List UInt32) (key : List UInt8)
    (v : ValueStruct) :
    ∃ t, PutThread.run draws 1 s (PutThread.init key v) = (s, t) ∧
      t.pc = .descend (s.height - 1) headOffset ∧ t.key = key ∧ t.value = v ∧
      Descended s t s.height := by
  have hlt : s.height < (List.replicate (maxHeight + 1) 0).length := by
    have := hw.height_le; simp; omega
  have hr : ∀ (a j : Nat), s.height ≠ j →
      ((List.replicate (maxHeight + 1) 0).set s.height a).getD j 0 = 0 := fun _ j hj =>
    (getD_set_of_ne _ hj).trans (getD_replicate_zero _ j)
  refine ⟨_, by rw [PutThread.run_one draws (by simp [PutThread.init, PutPc.Finished])]; rfl, ?_⟩
  simp only [PutThread.step, PutThread.init, if_neg hw.height_pos.ne']
  refine ⟨rfl, rfl, rfl, ⟨by simp [PutThread.goto], by simp [PutThread.goto]⟩,
    fun j hj => ⟨hr _ j (by omega), hr _ j (by omega)⟩, fun j hj hj' => absurd hj' (by omega),
    ⟨getD_set_self hlt _, getD_set_self hlt _⟩, fun j hj => hr _ j (by omega)⟩

/-! ## The allocation and the second loop -/

/-- The allocation and the height CAS, with no other `put` running: the node is allocated with
the drawn height, and the list height is raised to it when it is above. -/
theorem run_alloc {s : SkipList} (draws : List UInt32) {t : PutThread} (hpc : t.pc = .alloc) :
    ∃ k ≤ 3, PutThread.run draws k s t =
      ({ (Node.new s t.key t.value (randomHeight draws)).1 with height := max s.height (randomHeight draws) },
        { t with pc := .link 0, height := randomHeight draws, x := s.nodes.length + 1 }) := by
  by_cases hlt : s.height < randomHeight draws
  · refine ⟨3, le_rfl, ?_⟩
    simp [PutThread.run, PutThread.step, PutPc.Finished, hpc, hlt, PutThread.goto, max_eq_right hlt.le]
  · refine ⟨2, by omega, ?_⟩
    simp [PutThread.run, PutThread.step, PutPc.Finished, hpc, hlt, PutThread.goto,
      max_eq_left (Nat.not_lt.1 hlt)]
    rfl

/-- Three steps of the second loop at level `j` when nothing else moves: the tower store of
`next[j]` into the node and the CAS of `prev[j]`'s link from `next[j]` to the node, which
succeeds. -/
theorem run_link {s : SkipList} (draws : List UInt32) {t : PutThread} {j : Nat} (hpc : t.pc = .link j)
    (hj : j < t.height) (hp0 : t.prevAt j ≠ 0) (hpx : t.prevAt j ≠ t.x) (hx0 : t.x ≠ 0)
    (hpn : s.nextOffset (t.prevAt j) j = some (t.nextAt j)) :
    PutThread.run draws 3 s t =
      ((s.setNext t.x j (t.nextAt j)).setNext (t.prevAt j) j t.x, t.goto (.link (j + 1))) := by
  have hcas : (s.setNext t.x j (t.nextAt j)).casNextOffset (t.prevAt j) j (t.nextAt j) t.x =
      some ((s.setNext t.x j (t.nextAt j)).setNext (t.prevAt j) j t.x, true) := by
    simp [SkipList.casNextOffset, nextOffset_setNext_of_ne hx0 (fun h => hpx h.1), hpn]
  simp [PutThread.run, PutThread.step, PutPc.Finished, hpc, Nat.not_le.2 hj, hp0, hcas]

/-- The key and the value slot of a node: what `get` reads of it. -/
def Node.entry (n : Node) : List UInt8 × UInt64 := (n.key, n.value)

section SetNextFrame
variable {s : SkipList} (o L v : Nat)

theorem entry_setNext (q : Nat) :
    ((s.setNext o L v).getNode q).map Node.entry = (s.getNode q).map Node.entry := by
  simp only [SkipList.setNext, getNode_modifyNode, Option.map_map]
  congr 1
  funext n
  split <;> rfl

@[simp] theorem SkipList.setNext_nodes_length : (s.setNext o L v).nodes.length = s.nodes.length := by
  simp [SkipList.setNext, SkipList.modifyNode]

@[simp] theorem SkipList.setNext_vals : (s.setNext o L v).vals = s.vals := rfl

@[simp] theorem SkipList.setNext_height : (s.setNext o L v).height = s.height := rfl

end SetNextFrame

/-- The list after the second loop of a `put` alone has linked its node `x` on the levels below
`j`, from the list `s` it started from: the nodes' keys and values, the values stored and the
height are those of `s`, the links of level `j` and above are untouched, and once level 0 is
linked its list is that of `s` with `x`. -/
structure Linked (s s' : SkipList) (x j : Nat) : Prop where
  entry : ∀ q, (s'.getNode q).map Node.entry = (s.getNode q).map Node.entry
  nodes : s'.nodes.length = s.nodes.length
  vals : s'.vals = s.vals
  height : s'.height = s.height
  untouched : ∀ q k, j ≤ k → s'.nextOffset q k = s.nextOffset q k
  level0 : 0 < j → ∀ n, OnLevel s' 0 n ↔ OnLevel s 0 n ∨ n = x

theorem Linked.refl (s : SkipList) (x : Nat) : Linked s s x 0 :=
  ⟨fun _ => rfl, rfl, rfl, rfl, fun _ _ _ => rfl, fun h => absurd h (Nat.lt_irrefl 0)⟩

/-- What the second loop needs at level `j` of the list it started from: `prev[j]` on the level
with `next[j]` as its link, and the node off the level with a slot there. -/
structure ReadyAt (s : SkipList) (t : PutThread) (j : Nat) : Prop where
  onLevel : OnLevel s j (t.prevAt j)
  prev_ne_x : t.prevAt j ≠ t.x
  link : s.nextOffset (t.prevAt j) j = some (t.nextAt j)
  x_off : ¬ OnLevel s j t.x
  x_slot : ∃ m, s.nextOffset t.x j = some m

/-- Linking one more level keeps `Linked`. -/
theorem Linked.link {s sj : SkipList} {t : PutThread} {j : Nat} (h : Linked s sj t.x j) (hr : ReadyAt s t j)
    (hx0 : t.x ≠ 0) :
    Linked s ((sj.setNext t.x j (t.nextAt j)).setNext (t.prevAt j) j t.x) t.x (j + 1) := by
  have hp0 := hr.onLevel.ne_zero
  refine ⟨fun q => by rw [entry_setNext, entry_setNext, h.entry], by simp [h.nodes], h.vals, h.height,
    fun q k hk => ?_, fun _ n => ?_⟩
  · rw [nextOffset_setNext_of_ne hp0 (by omega), nextOffset_setNext_of_ne hx0 (by omega),
      h.untouched q k (by omega)]
  rcases Nat.eq_zero_or_pos j with rfl | hj
  · have hsame : ∀ {b}, OnLevel sj 0 b ↔ OnLevel s 0 b :=
      reach_iff_of_nextOffset fun q => h.untouched q 0 le_rfl
    have hx : ¬ OnLevel sj 0 t.x := fun hx => hr.x_off (hsame.1 hx)
    have hstore : ∀ {b}, OnLevel (sj.setNext t.x 0 (t.nextAt 0)) 0 b ↔ OnLevel s 0 b :=
      (onLevel_setNext_iff hx0 hx).trans hsame
    obtain ⟨m, hm⟩ := hr.x_slot
    have hpn : (sj.setNext t.x 0 (t.nextAt 0)).nextOffset (t.prevAt 0) 0 = some (t.nextAt 0) := by
      rw [nextOffset_setNext_of_ne hx0 fun e => hr.prev_ne_x e.1, h.untouched _ 0 le_rfl, hr.link]
    have hxn : (sj.setNext t.x 0 (t.nextAt 0)).nextOffset t.x 0 = some (t.nextAt 0) := by
      rw [nextOffset_setNext hx0, if_pos ⟨rfl, rfl⟩, h.untouched _ 0 le_rfl, hm, Option.map_some']
    rw [onLevel_link hp0 (hstore.2 hr.onLevel) hpn hxn (fun h => hr.x_off (hstore.1 h)) hx0, hstore]
  · rw [onLevel_setNext_of_ne hp0 (by omega), onLevel_setNext_of_ne hx0 (by omega)]
    exact h.level0 hj n

/-- **The second loop of a `put` alone.** From `link 0`, with every level below `m` ready, each
level takes three steps and the CAS succeeds. -/
theorem run_links {s : SkipList} (draws : List UInt32) {t : PutThread} (hpc : t.pc = .link 0) (hx0 : t.x ≠ 0)
    {m : Nat} (hm : m ≤ t.height) (hready : ∀ j < m, ReadyAt s t j) :
    ∀ j ≤ m, ∃ sj, PutThread.run draws (3 * j) s t = (sj, t.goto (.link j)) ∧ Linked s sj t.x j
  | 0, _ => ⟨s, by rw [← hpc, PutThread.goto_self]; rfl, Linked.refl s t.x⟩
  | j + 1, hj => by
    obtain ⟨sj, hrun, hl⟩ := run_links draws hpc hx0 hm hready j (by omega)
    have hr := hready j (by omega)
    refine ⟨_, ?_, hl.link hr hx0⟩
    rw [Nat.mul_succ, PutThread.run_add, hrun, run_link draws rfl (by simp; omega)
      (by simpa using hr.onLevel.ne_zero) (by simpa using hr.prev_ne_x) (by simpa using hx0)
      (by simpa [hl.untouched _ j le_rfl] using hr.link)]
    simp

/-! ## Lists a `put` alone starts from -/

/-- The head links nothing at or above the list height: those levels are empty. -/
def SkipList.Capped (s : SkipList) : Prop :=
  ∀ L m, s.height ≤ L → s.nextOffset headOffset L = some m → m = 0

/-- Every node's value slot names a stored value. -/
def SkipList.ValsStored (s : SkipList) : Prop :=
  ∀ o n, s.getNode o = some n → (decodeValue n.value).1.toNat < s.vals.length

/-- The lists `put`s made one after another keep: the structural invariant, empty levels above
the height, and value slots that name stored values. -/
structure SkipList.Good (s : SkipList) : Prop where
  wf : s.Wf
  capped : s.Capped
  stored : s.ValsStored

theorem SkipList.good_new : SkipList.new.Good where
  wf := SkipList.wf_new
  capped _ _ _ h := nextOffset_new h
  stored o n h := by
    rcases o with _ | _ | o <;> simp [SkipList.getNode, SkipList.new, Node.new, SkipList.putVal] at h
    subst h
    simp [SkipList.new, Node.new, SkipList.putVal, decodeValue_encodeValue]

theorem onLevel_alloc {s : SkipList} (hw : s.Wf) {key : List UInt8} {v : ValueStruct} {h H L b : Nat} :
    OnLevel { (Node.new s key v h).1 with height := H } L b ↔ OnLevel s L b :=
  onLevel_setHeight_iff.trans (reach_new_iff hw)

/-- After the first loop, every level below the drawn height and at most the list height is
ready for the second loop. -/
theorem Descended.ready {s : SkipList} (hw : s.Wf) (hc : s.Capped) {t : PutThread} (hd : Descended s t 0)
    {h H j : Nat} (hh : h ≤ maxHeight) (hj : j < h) (hjl : j ≤ s.height) :
    ReadyAt { (Node.new s t.key t.value h).1 with height := H }
      { t with pc := .link 0, height := h, x := s.nodes.length + 1 } j := by
  have hoff : ¬ OnLevel s j (s.nodes.length + 1) := fun h' =>
    let ⟨_, hn⟩ := hw.onLevel_getNode h'
    ne_new_of_getNode hn rfl
  obtain ⟨value, hnew⟩ := getNode_new_self s t.key t.value h
  have hslot : (Node.new s t.key t.value h).1.nextOffset (s.nodes.length + 1) j = some 0 := by
    simp [SkipList.nextOffset, hnew, List.getElem?_replicate, hj]
  have hready : ∀ p n, OnLevel s j p → s.nextOffset p j = some n →
      OnLevel { (Node.new s t.key t.value h).1 with height := H } j p ∧ p ≠ s.nodes.length + 1 ∧
        (Node.new s t.key t.value h).1.nextOffset p j = some n := fun p n hp hpn =>
    let ⟨_, hq⟩ := hw.onLevel_getNode hp
    ⟨(onLevel_alloc hw).2 hp, ne_new_of_getNode hq,
      (nextOffset_new_of_ne s t.key t.value h (ne_new_of_getNode hq) j).trans hpn⟩
  rcases Nat.lt_or_ge j s.height with hjs | hjs
  · have hsp := hd.spliced j (Nat.zero_le j) hjs
    obtain ⟨h1, h2, h3⟩ := hready _ _ hsp.1.1 hsp.2.1
    exact ⟨h1, h2, h3, fun h' => hoff ((onLevel_alloc hw).1 h'), ⟨0, hslot⟩⟩
  · obtain rfl : j = s.height := by omega
    obtain ⟨m, hm⟩ : ∃ m, s.nextOffset headOffset s.height = some m :=
      hw.onLevel_nextOffset .refl (by omega)
    have hhead : s.nextOffset headOffset s.height = some (t.nextAt s.height) := by
      rw [hm, hc _ _ le_rfl hm, hd.top.2]
    obtain ⟨h1, h2, h3⟩ := hready _ _ .refl hhead
    refine ⟨?_, ?_, ?_, fun h' => hoff ((onLevel_alloc hw).1 h'), ⟨0, hslot⟩⟩ <;>
      simp only [PutThread.prevAt, PutThread.nextAt] at * <;>
      rw [show t.prev.getD s.height 0 = headOffset from hd.top.1]
    · exact h1
    · exact h2
    · exact h3

/-! ## A `put` alone, from start to end -/

/-- A run of a `put` alone keeps the structural invariant. -/
theorem PutThread.run_wf (draws : List UInt32) :
    ∀ n {s : SkipList} {t : PutThread}, s.Wf → t.Inv s → t.key.length < 2 ^ 16 →
      (PutThread.run draws n s t).1.Wf
  | 0, _, _, hw, _, _ => hw
  | n + 1, s, t, hw, ht, hk => by
    by_cases hf : t.pc.Finished
    · rwa [PutThread.run_finished draws hf]
    · have h := PutThread.stepOk hw ht hk draws
      rw [PutThread.run_succ draws hf]
      exact PutThread.run_wf draws n h.wf h.inv (h.key ▸ hk)

/-- From the start to the second loop, for a key on no node of level 0: the first loop records a
splice on every level, and the node is allocated. -/
theorem run_to_link {s : SkipList} (hw : s.Wf) (draws : List UInt32) (key : List UInt8) (v : ValueStruct)
    (habs : ∀ n, OnLevel s 0 n → n ≠ headOffset → s.keyOf n ≠ key) :
    ∃ k ≤ s.height * (s.nodes.length + 2) + 4, ∃ t, PutThread.run draws k s (PutThread.init key v) =
      ({ (Node.new s t.key t.value (randomHeight draws)).1 with height := max s.height (randomHeight draws) },
        { t with pc := .link 0, height := randomHeight draws, x := s.nodes.length + 1 }) ∧
      Descended s t 0 ∧ t.key = key ∧ t.value = v := by
  obtain ⟨t0, h0, hpc0, hk0, hv0, hd0⟩ := run_start hw draws key v
  have hh := hw.height_pos
  obtain ⟨k1, hk1, ⟨-, m, hm, hmh, hmk⟩ | ⟨t1, h1, hpc1, hd1, hkey1, hv1⟩⟩ :=
    run_descent hw draws (s.height - 1) t0 headOffset hpc0 (before_head _ _ _) (by omega)
      (by rwa [Nat.sub_add_cancel hh])
  · exact absurd hmk (hk0 ▸ habs m hm hmh)
  obtain ⟨k2, hk2, h2⟩ := @run_alloc s draws _ hpc1
  refine ⟨1 + k1 + k2, by rw [Nat.sub_add_cancel hh] at hk1; omega, t1, ?_, hd1, hkey1.trans hk0,
    hv1.trans hv0⟩
  rw [PutThread.run_add, PutThread.run_add, h0, h1, h2]

/-- What a `put` of a key on no node of level 0 leaves, from `s`: a well-formed list whose level 0
is that of `s` with the new node `x`, past the last node of `s`; the other nodes keep their keys
and value slots, the new one holds `key` and a slot naming `v`, stored after the values of `s`;
the height is raised to the node's height `h` when below, and the levels above the height are
still empty. -/
structure Inserted (s s' : SkipList) (key : List UInt8) (v : ValueStruct) (h : Nat) : Prop where
  wf : s'.Wf
  level0 : ∀ n, OnLevel s' 0 n ↔ OnLevel s 0 n ∨ n = s.nodes.length + 1
  entry : ∀ q, q ≠ s.nodes.length + 1 → (s'.getNode q).map Node.entry = (s.getNode q).map Node.entry
  entry_new : (s'.getNode (s.nodes.length + 1)).map Node.entry =
    some (key, encodeValue (UInt32.ofNat s.vals.length) (UInt16.ofNat v.encodedSize))
  vals : s'.vals = s.vals ++ [v]
  nodes : s'.nodes.length = s.nodes.length + 1
  height : s'.height = max s.height h
  capped : s'.Capped

theorem getNode_new_eq (s : SkipList) (key : List UInt8) (v : ValueStruct) (h : Nat) :
    (Node.new s key v h).1.getNode (s.nodes.length + 1) =
      some ⟨key, UInt16.ofNat key.length, h,
        encodeValue (UInt32.ofNat s.vals.length) (UInt16.ofNat v.encodedSize), List.replicate h 0⟩ := by
  simp [Node.new, SkipList.putVal, SkipList.getNode]

/-- The second loop, once it has linked level 0 and at most the drawn height, has inserted the
node. -/
theorem Linked.inserted {s s' : SkipList} (hw : s.Wf) (hc : s.Capped) {key : List UInt8}
    (hk : key.length < 2 ^ 16) {v : ValueStruct} {h m : Nat}
    (hl : Linked { (Node.new s key v h).1 with height := max s.height h } s' (s.nodes.length + 1) m)
    (hm1 : 0 < m) (hmh : m ≤ h) (hw' : s'.Wf) : Inserted s s' key v h := by
  obtain ⟨hd, hhd, -⟩ := hw.head
  have hhx : headOffset ≠ s.nodes.length + 1 := ne_new_of_getNode hhd
  refine ⟨hw', fun n => (hl.level0 hm1 n).trans (or_congr_left (onLevel_alloc hw)), fun q hq => ?_, ?_,
    hl.vals, by rw [hl.nodes]; simp [Node.new, SkipList.putVal], hl.height,
    fun L mm hL hmm => ?_⟩
  · rw [hl.entry]
    exact congrArg _ (getNode_new_of_ne s key v h hq)
  · rw [hl.entry]
    show ((Node.new s key v h).1.getNode (s.nodes.length + 1)).map Node.entry = _
    rw [getNode_new_eq]
    simp [Node.entry, key_new hk]
  · have hL' : max s.height h ≤ L := by rw [hl.height] at hL; exact hL
    rw [hl.untouched _ _ (hmh.trans ((le_max_right _ _).trans hL'))] at hmm
    rw [show ({ (Node.new s key v h).1 with height := max s.height h } : SkipList).nextOffset headOffset L =
      s.nextOffset headOffset L from nextOffset_new_of_ne s key v h hhx L] at hmm
    exact hc L mm ((le_max_left _ _).trans hL') hmm

/-- **A `put` alone of a key on no node of level 0.** It inserts its node on level 0, and it
returns when the drawn height is at most one above the list height; above that, it links the
levels up to the old height and then panics on the null link of the head at the next level
(`next[i] = _next.unwrap()`, skl/mod.rs:397). -/
theorem run_put_absent {s : SkipList} (hg : s.Good) (key : List UInt8) (hk : key.length < 2 ^ 16)
    (habs : ∀ n, OnLevel s 0 n → n ≠ headOffset → s.keyOf n ≠ key) (v : ValueStruct)
    (draws : List UInt32) :
    ∃ k ≤ s.height * (s.nodes.length + 2) + 3 * maxHeight + 6, ∃ s' t',
      PutThread.run draws k s (PutThread.init key v) = (s', t') ∧
      t'.pc = (if randomHeight draws ≤ s.height + 1 then .done else .panicked) ∧
      Inserted s s' key v (randomHeight draws) := by
  obtain ⟨k1, hk1, t, h1, hd, hkey, hval⟩ := run_to_link hg.wf draws key v habs
  obtain ⟨hh1, hh2⟩ := randomHeight_bounds draws
  have hlh := hg.wf.height_pos
  have hready : ∀ j < min (randomHeight draws) (s.height + 1),
      ReadyAt
        { (Node.new s t.key t.value (randomHeight draws)).1 with
          height := max s.height (randomHeight draws) }
        { t with pc := .link 0, height := randomHeight draws, x := s.nodes.length + 1 } j := fun j hj =>
    @Descended.ready s hg.wf hg.capped t hd (randomHeight draws) (max s.height (randomHeight draws)) j
      hh2 (by omega) (by omega)
  obtain ⟨s3, h3, hl⟩ := run_links draws
    (show ({ t with pc := .link 0, height := randomHeight draws, x := s.nodes.length + 1 } : PutThread).pc =
      .link 0 from rfl) (by simp) (by simp) hready _ le_rfl
  have hrun : PutThread.run draws (k1 + 3 * min (randomHeight draws) (s.height + 1)) s (PutThread.init key v) =
      (s3, ({ t with pc := .link 0, height := randomHeight draws, x := s.nodes.length + 1 } : PutThread).goto
        (.link (min (randomHeight draws) (s.height + 1)))) := by
    rw [PutThread.run_add, h1, h3]
  have hw3 : s3.Wf := by
    have := PutThread.run_wf draws (k1 + 3 * min (randomHeight draws) (s.height + 1)) hg.wf
      (PutThread.inv_init s key v) hk
    rwa [hrun] at this
  have hins : Inserted s s3 key v (randomHeight draws) :=
    hkey ▸ hval ▸ hl.inserted hg.wf hg.capped (hkey ▸ hk) (by omega) (by omega) hw3
  by_cases hle : randomHeight draws ≤ s.height + 1
  · rw [min_eq_left hle] at hrun
    refine ⟨k1 + 3 * randomHeight draws + 1, by omega, s3,
      ({ t with pc := .link 0, height := randomHeight draws, x := s.nodes.length + 1 } : PutThread).goto .done,
      ?_, by simp [hle], hins⟩
    rw [PutThread.run_add, hrun]
    simp [PutThread.run, PutThread.step, PutPc.Finished, PutThread.goto]
  · rw [min_eq_right (by omega)] at hrun hl
    obtain ⟨hdn, hhd, -⟩ := hg.wf.head
    obtain ⟨mm, hmm⟩ :=
      hg.wf.onLevel_nextOffset (show OnLevel s (s.height + 1) headOffset from .refl) (by omega)
    have hs3 : s3.nextOffset headOffset (s.height + 1) = some 0 := by
      rw [hl.untouched _ _ le_rfl, ← hg.capped _ _ (by omega) hmm, ← hmm]
      exact nextOffset_new_of_ne s _ _ _ (ne_new_of_getNode hhd) _
    have hsp : spliceStep s3 t.key headOffset (s.height + 1) = some (.inr (headOffset, 0)) := by
      simp [spliceStep, SkipList.getNext, hs3, SkipList.getNode]
    set t2 : PutThread := { t with pc := .link 0, height := randomHeight draws, x := s.nodes.length + 1 }
    have e1 : (t2.goto (.link (s.height + 1))).step s3 draws =
        (s3, t2.goto (.fromHead (s.height + 1) headOffset)) := by
      have hp : (t2.goto (.link (s.height + 1))).prevAt (s.height + 1) = 0 := hd.above (s.height + 1) (by omega)
      simp only [PutThread.step, PutThread.goto_pc]
      rw [if_neg (show ¬ (t2.goto _).height ≤ s.height + 1 from hle), if_pos hp, if_pos (by omega)]
      rfl
    have e2 : ((t2.goto (.fromHead (s.height + 1) headOffset)).step s3 draws).1 = s3 ∧
        ((t2.goto (.fromHead (s.height + 1) headOffset)).step s3 draws).2.pc = .panicked := by
      simp [PutThread.step, t2, hsp]
    have h4 : (PutThread.run draws 2 s3 (t2.goto (.link (s.height + 1)))).1 = s3 ∧
        (PutThread.run draws 2 s3 (t2.goto (.link (s.height + 1)))).2.pc = .panicked := by
      rw [PutThread.run_succ draws (by simp [PutPc.Finished]), e1,
        PutThread.run_one draws (by simp [PutPc.Finished])]
      exact e2
    refine ⟨k1 + 3 * (s.height + 1) + 2, by omega, s3, _, ?_, by simpa [hle] using h4.2, hins⟩
    rw [PutThread.run_add, hrun]
    exact Prod.ext h4.1 rfl

section Inserted
variable {s s' : SkipList} {key : List UInt8} {v : ValueStruct} {h : Nat} (hi : Inserted s s' key v h)
include hi

theorem Inserted.keyOf {q : Nat} (hq : q ≠ s.nodes.length + 1) : s'.keyOf q = s.keyOf q := by
  have := congrArg (Option.map Prod.fst) (hi.entry q hq)
  simp only [Option.map_map] at this
  exact congrArg (·.getD []) this

theorem Inserted.keyOf_new : s'.keyOf (s.nodes.length + 1) = key := by
  have := congrArg (Option.map Prod.fst) hi.entry_new
  simp only [Option.map_map, Option.map_some'] at this
  exact congrArg (·.getD []) this

/-- An old node reads the same value after the insertion, its slot naming a value stored before. -/
theorem Inserted.value {q : Nat} (hq : q ≠ s.nodes.length + 1) (hst : s.ValsStored) :
    (s'.getNode q).map (fun nd => s'.getVal (decodeValue nd.value).1 (decodeValue nd.value).2) =
      (s.getNode q).map (fun nd => s.getVal (decodeValue nd.value).1 (decodeValue nd.value).2) := by
  have he := hi.entry q hq
  cases hn : s.getNode q with
  | none => rw [hn, Option.map_none'] at he; simpa using he
  | some n =>
    rw [hn, Option.map_some'] at he
    obtain ⟨n', hn', he'⟩ := Option.map_eq_some'.1 he
    have hlt := hst q n hn
    simp only [Node.entry, Prod.mk.injEq] at he'
    simp [hn', he'.2, SkipList.getVal, hi.vals, List.getD_eq_getElem?_getD, List.getElem?_append_left hlt]

/-- The new node reads back `v`, when the values stored before are fewer than `2^32` and the
layout of `v` is shorter than `2^16` bytes. -/
theorem Inserted.value_new (hv : s.vals.length < 2 ^ 32) (hsz : v.encodedSize < 2 ^ 16) :
    (s'.getNode (s.nodes.length + 1)).map
      (fun nd => s'.getVal (decodeValue nd.value).1 (decodeValue nd.value).2) = some v := by
  have he := hi.entry_new
  obtain ⟨n', hn', he'⟩ := Option.map_eq_some'.1 he
  simp only [Node.entry, Prod.mk.injEq] at he'
  have hoff : (UInt32.ofNat s.vals.length).toNat = s.vals.length :=
    (BitVec.toNat_ofNat _ 32).trans (Nat.mod_eq_of_lt hv)
  rw [hn', Option.map_some', he'.2, decodeValue_encodeValue,
    SkipList.getVal_of_encodedSize_lt (by simp [hi.vals, hoff]) hsz]

/-- An insertion keeps the lists `put`s made one after another keep. -/
theorem Inserted.good (hg : s.Good) : s'.Good := by
  refine ⟨hi.wf, hi.capped, fun o n' hn' => ?_⟩
  rw [hi.vals, List.length_append, List.length_singleton]
  by_cases ho : o = s.nodes.length + 1
  · subst ho
    have he := hi.entry_new
    rw [hn', Option.map_some', Option.some.injEq, Node.entry, Prod.mk.injEq] at he
    rw [he.2, decodeValue_encodeValue]
    exact (BitVec.toNat_ofNat _ 32).trans_lt (Nat.lt_succ_of_le (Nat.mod_le _ _))
  · have he := hi.entry o ho
    rw [hn', Option.map_some'] at he
    obtain ⟨n, hn, he'⟩ := Option.map_eq_some'.1 he.symm
    simp only [Node.entry, Prod.mk.injEq] at he'
    rw [← he'.2]
    exact Nat.lt_succ_of_lt (hg.stored o n hn)

/-- **`get` after an insertion.** The new key reads back `v`; every other key reads what it read
before. -/
theorem Inserted.get (hg : s.Good) (habs : ∀ n, OnLevel s 0 n → n ≠ headOffset → s.keyOf n ≠ key)
    (hv : s.vals.length < 2 ^ 32) (hsz : v.encodedSize < 2 ^ 16) (k : List UInt8) {fuel : Nat}
    (hf : s'.height * (s'.nodes.length + 2) ≤ fuel) :
    s'.get k fuel = if k = key then some (some v) else s.get k fuel := by
  have hf0 : s.height * (s.nodes.length + 2) ≤ fuel :=
    le_trans (Nat.mul_le_mul (hi.height ▸ le_max_left _ _) (by rw [hi.nodes]; omega)) hf
  obtain ⟨hd, hhd, -⟩ := hg.wf.head
  have hx : s.nodes.length + 1 ≠ headOffset := (ne_new_of_getNode hhd).symm
  have hold : ∀ {n}, OnLevel s 0 n → n ≠ s.nodes.length + 1 := fun hn =>
    let ⟨_, hq⟩ := hg.wf.onLevel_getNode hn
    ne_new_of_getNode hq
  split_ifs with hk
  · subst hk
    rw [get_eq_of_onLevel hi.wf hf ((hi.level0 _).2 (.inr rfl)) hx hi.keyOf_new, hi.value_new hv hsz]
  by_cases hex : ∃ n, OnLevel s 0 n ∧ n ≠ headOffset ∧ s.keyOf n = k
  · obtain ⟨n, hn, hnh, hnk⟩ := hex
    rw [get_eq_of_onLevel hi.wf hf ((hi.level0 n).2 (.inl hn)) hnh ((hi.keyOf (hold hn)).trans hnk),
      get_eq_of_onLevel hg.wf hf0 hn hnh hnk, hi.value (hold hn) hg.stored]
  · push_neg at hex
    rw [get_eq_none hg.wf hf0 hex, get_eq_none hi.wf hf fun n hn hnh => ?_]
    rcases (hi.level0 n).1 hn with hn | rfl
    · rw [hi.keyOf (hold hn)]; exact hex n hn hnh
    · rw [hi.keyOf_new]; exact Ne.symm hk

end Inserted

/-! ## `SkipList::put` -/

/-- `put` of a key on no node of level 0, with fuel for the whole run: it ends as the drawn height
says and inserts its node. -/
theorem put_inserted {s : SkipList} (hg : s.Good) {key : List UInt8} (hk : key.length < 2 ^ 16)
    (habs : ∀ n, OnLevel s 0 n → n ≠ headOffset → s.keyOf n ≠ key) (v : ValueStruct)
    (draws : List UInt32) {fuel : Nat} (hf : s.height * (s.nodes.length + 2) + 3 * maxHeight + 6 ≤ fuel) :
    (s.put key v draws fuel).2 = (if randomHeight draws ≤ s.height + 1 then .done else .panicked) ∧
      Inserted s (s.put key v draws fuel).1 key v (randomHeight draws) := by
  obtain ⟨k, hk', s', t', hrun, hpc, hins⟩ := run_put_absent hg key hk habs v draws
  have hfin : PutThread.run draws fuel s (PutThread.init key v) = (s', t') :=
    PutThread.run_of_le draws hrun (by rw [hpc]; split <;> trivial) (by omega)
  simp only [SkipList.put, hfin]
  exact ⟨hpc, hins⟩

/-- **`put` of a new key.** On a list `put`s have built, `put(key, v)` alone of a key on no node
of level 0 returns exactly when `random_height` draws at most one above the list height, and
panics otherwise; either way it has inserted `key`: afterwards `get(key)` is `v`, `get` of every
other key is what it was, and the list is still one `put`s build. `v` must be stored at an offset
that `u32` holds, and its layout must be shorter than `2^16` bytes, the reach of the `u16` size
that `get` reads it through. -/
theorem put_fresh_key (s : SkipList) (hg : s.Good) (key : List UInt8) (hk : key.length < 2 ^ 16)
    (habs : ∀ n, OnLevel s 0 n → n ≠ headOffset → s.keyOf n ≠ key) (v : ValueStruct)
    (hv : s.vals.length < 2 ^ 32) (hsz : v.encodedSize < 2 ^ 16) (draws : List UInt32) (fuel : Nat)
    (hf : s.height * (s.nodes.length + 2) + 3 * maxHeight + 6 ≤ fuel) :
    (s.put key v draws fuel).2 = (if randomHeight draws ≤ s.height + 1 then .done else .panicked) ∧
      (s.put key v draws fuel).1.Good ∧
      ∀ k fuel', (s.put key v draws fuel).1.height * ((s.put key v draws fuel).1.nodes.length + 2) ≤ fuel' →
        (s.put key v draws fuel).1.get k fuel' = if k = key then some (some v) else s.get k fuel' :=
  let h := put_inserted hg hk habs v draws hf
  ⟨h.1, h.2.good hg, fun k _ hf' => h.2.get hg habs hv hsz k hf'⟩

/-- `put(b"a", v)` on the empty list returns, and `get(b"a")` then reads `v`. -/
theorem put_fresh_key_new :
    SkipList.new.Good ∧ [0x61].length < 2 ^ 16 ∧
      (∀ n, OnLevel SkipList.new 0 n → n ≠ headOffset → SkipList.new.keyOf n ≠ [0x61]) ∧
      SkipList.new.vals.length < 2 ^ 32 ∧ (⟨[1], 0, 0, 0⟩ : ValueStruct).encodedSize < 2 ^ 16 ∧
      SkipList.new.height * (SkipList.new.nodes.length + 2) + 3 * maxHeight + 6 ≤ 100 ∧
      (SkipList.new.put [0x61] ⟨[1], 0, 0, 0⟩ [] 100).2 =
        (if randomHeight [] ≤ SkipList.new.height + 1 then .done else .panicked) ∧
      (SkipList.new.put [0x61] ⟨[1], 0, 0, 0⟩ [] 100).1.Good ∧
      ∀ k fuel', (SkipList.new.put [0x61] ⟨[1], 0, 0, 0⟩ [] 100).1.height *
          ((SkipList.new.put [0x61] ⟨[1], 0, 0, 0⟩ [] 100).1.nodes.length + 2) ≤ fuel' →
        (SkipList.new.put [0x61] ⟨[1], 0, 0, 0⟩ [] 100).1.get k fuel' =
          if k = [0x61] then some (some ⟨[1], 0, 0, 0⟩) else SkipList.new.get k fuel' :=
  have habs : ∀ n, OnLevel SkipList.new 0 n → n ≠ headOffset → SkipList.new.keyOf n ≠ [0x61] :=
    fun n hn hnh => absurd (reach_new hn) hnh
  ⟨SkipList.good_new, by decide, habs, by decide, by decide, by decide,
    put_fresh_key _ SkipList.good_new _ (by decide) habs _ (by decide) (by decide) [] 100 (by decide)⟩

/-- **A `put` of a key already in the list panics and changes nothing.** On a well-formed list,
`put(key, v)` alone finds `key` on the highest level that holds it, where `prev[i]` is still
null, and the `unwrap` of `prev[i].as_ref()` panics before any write, whatever height
`random_height` would draw (skl/mod.rs:351-353). -/
theorem put_present_panics (s : SkipList) (hw : s.Wf) (key : List UInt8) (n : Nat) (hn : OnLevel s 0 n)
    (hnh : n ≠ headOffset) (hk : s.keyOf n = key) (v : ValueStruct) (draws : List UInt32) (fuel : Nat)
    (hf : s.height * (s.nodes.length + 2) < fuel) :
    s.put key v draws fuel = (s, .panicked) := by
  obtain ⟨t0, h0, hpc0, hk0, -, hd0⟩ := run_start hw draws key v
  have hh := hw.height_pos
  obtain ⟨k, hk', ⟨⟨t', hrun, hpan⟩, -⟩ | ⟨t', -, -, hd', hkey', -⟩⟩ :=
    run_descent hw draws (s.height - 1) t0 headOffset hpc0 (before_head _ _ _) (by omega)
      (by rwa [Nat.sub_add_cancel hh])
  · rw [Nat.sub_add_cancel hh] at hk'
    have hr : PutThread.run draws (1 + k) s (PutThread.init key v) = (s, t') := by
      rw [PutThread.run_add, h0, hrun]
    have hfin : PutThread.run draws fuel s (PutThread.init key v) = (s, t') :=
      PutThread.run_of_le draws hr (by simp [hpan, PutPc.Finished]) (by omega)
    simp [SkipList.put, hfin, hpan]
  · exact absurd (hk.trans (hkey'.trans hk0).symm) ((hd'.spliced 0 le_rfl hh).absent hw n hn hnh)


/-- A second `put(b"k")` panics on the list the first one built, whatever the height it draws. -/
theorem put_present_panics_twice :
    (SkipList.new.put [0x6b] ⟨[1], 0, 0, 0⟩ [] 100).1.Wf ∧
      OnLevel (SkipList.new.put [0x6b] ⟨[1], 0, 0, 0⟩ [] 100).1 0 2 ∧ 2 ≠ headOffset ∧
      (SkipList.new.put [0x6b] ⟨[1], 0, 0, 0⟩ [] 100).1.keyOf 2 = [0x6b] ∧
      (SkipList.new.put [0x6b] ⟨[1], 0, 0, 0⟩ [] 100).1.height *
        ((SkipList.new.put [0x6b] ⟨[1], 0, 0, 0⟩ [] 100).1.nodes.length + 2) < 100 ∧
      (SkipList.new.put [0x6b] ⟨[1], 0, 0, 0⟩ [] 100).1.put [0x6b] ⟨[2], 0, 0, 0⟩ [0, 0] 100 =
        ((SkipList.new.put [0x6b] ⟨[1], 0, 0, 0⟩ [] 100).1, .panicked) := by
  have hw : (SkipList.new.put [0x6b] ⟨[1], 0, 0, 0⟩ [] 100).1.Wf :=
    ((put_inserted SkipList.good_new (by decide) (fun n hn hnh => absurd (reach_new hn) hnh) _ []
      (by decide)).2.good SkipList.good_new).wf
  have hn : OnLevel (SkipList.new.put [0x6b] ⟨[1], 0, 0, 0⟩ [] 100).1 0 2 :=
    .tail .refl (by decide) (by decide)
  exact ⟨hw, hn, by decide, by decide, by decide,
    put_present_panics _ hw _ 2 hn (by decide) (by decide) _ _ _ (by decide)⟩

/-! ## `put`s one after another -/

/-- `put`s made one after another, each `(key, value, draws)` run alone for up to `fuel` steps:
the list after them and where each ended. -/
def SkipList.putAll (s : SkipList) : List (List UInt8 × ValueStruct × List UInt32) → Nat →
    SkipList × List PutPc
  | [], _ => (s, [])
  | (key, v, draws) :: ops, fuel =>
    let r := (s.put key v draws fuel).1.putAll ops fuel
    (r.1, (s.put key v draws fuel).2 :: r.2)

/-- Each height drawn at most one above the list height before it, from height `h`. -/
def HeightsFit : Nat → List Nat → Prop
  | _, [] => True
  | h, d :: ds => d ≤ h + 1 ∧ HeightsFit (max h d) ds

instance : ∀ h ds, Decidable (HeightsFit h ds)
  | _, [] => isTrue trivial
  | h, d :: ds => @instDecidableAnd _ _ (Nat.decLe _ _) (instDecidableHeightsFit (max h d) ds)

/-- `put`s of distinct new keys one after another, each drawing a height that fits: each returns,
and `get` then answers the value of the `put` of its key, or what it answered before. -/
theorem putAll_spec : ∀ (ops : List (List UInt8 × ValueStruct × List UInt32)) (s : SkipList), s.Good →
    (ops.map (·.1)).Nodup → (∀ op ∈ ops, op.1.length < 2 ^ 16) → (∀ op ∈ ops, op.2.1.encodedSize < 2 ^ 16) →
    (∀ op ∈ ops, ∀ n, OnLevel s 0 n → n ≠ headOffset → s.keyOf n ≠ op.1) →
    HeightsFit s.height (ops.map fun op => randomHeight op.2.2) → s.vals.length + ops.length ≤ 2 ^ 32 →
    ∀ fuel, maxHeight * (s.nodes.length + ops.length + 2) + 3 * maxHeight + 6 ≤ fuel →
    (s.putAll ops fuel).2 = ops.map (fun _ => .done) ∧ (s.putAll ops fuel).1.Good ∧
      s.height ≤ (s.putAll ops fuel).1.height ∧
      (s.putAll ops fuel).1.nodes.length = s.nodes.length + ops.length ∧
      ∀ k fuel', (s.putAll ops fuel).1.height * ((s.putAll ops fuel).1.nodes.length + 2) ≤ fuel' →
        (s.putAll ops fuel).1.get k fuel' =
          match ops.find? (·.1 = k) with
          | some op => some (some op.2.1)
          | none => s.get k fuel'
  | [], s, hg, _, _, _, _, _, _, fuel, _ => ⟨rfl, hg, le_rfl, rfl, fun _ _ _ => rfl⟩
  | (key, v, draws) :: ops, s, hg, hkeys, hshort, hsz, habs, hfit, hv, fuel, hf => by
    obtain ⟨hkey, hkeys⟩ := List.nodup_cons.1 hkeys
    obtain ⟨hd, hfit⟩ := hfit
    have hh := hg.wf.height_le
    have hf1 : s.height * (s.nodes.length + 2) + 3 * maxHeight + 6 ≤ fuel := by
      have h1 := Nat.mul_le_mul_right (s.nodes.length + 2) hh
      have h2 : maxHeight * (s.nodes.length + 2) ≤ maxHeight * (s.nodes.length + (ops.length + 1) + 2) :=
        Nat.mul_le_mul_left _ (by omega)
      simp only [List.length_cons] at hf
      omega
    have hk0 : key.length < 2 ^ 16 := hshort _ (List.mem_cons_self _ _)
    have habs0 : ∀ n, OnLevel s 0 n → n ≠ headOffset → s.keyOf n ≠ key :=
      habs _ (List.mem_cons_self _ _)
    obtain ⟨hpc, hi⟩ := put_inserted hg hk0 habs0 v draws hf1
    simp only [List.length_cons] at hv hf
    have hold : ∀ {n}, OnLevel s 0 n → n ≠ s.nodes.length + 1 := fun hn =>
      let ⟨_, hq⟩ := hg.wf.onLevel_getNode hn
      ne_new_of_getNode hq
    have habs1 : ∀ op ∈ ops, ∀ n, OnLevel (s.put key v draws fuel).1 0 n → n ≠ headOffset →
        (s.put key v draws fuel).1.keyOf n ≠ op.1 := fun op hop n hn hnh => by
      rcases (hi.level0 n).1 hn with hn | rfl
      · rw [hi.keyOf (hold hn)]; exact habs op (List.mem_cons_of_mem _ hop) n hn hnh
      · rw [hi.keyOf_new]; exact fun e => hkey (List.mem_map.2 ⟨op, hop, e.symm⟩)
    obtain ⟨hpcs, hg2, hh2, hn2, hget⟩ := putAll_spec ops _ (hi.good hg) hkeys
      (fun op hop => hshort op (List.mem_cons_of_mem _ hop)) (fun op hop => hsz op (List.mem_cons_of_mem _ hop)) habs1 (by rw [hi.height]; exact hfit)
      (by rw [hi.vals, List.length_append, List.length_singleton]; omega) fuel
      (by rw [hi.nodes, show s.nodes.length + 1 + ops.length = s.nodes.length + (ops.length + 1) by omega]
          omega)
    have hh1 : s.height ≤ (s.put key v draws fuel).1.height := hi.height ▸ le_max_left _ _
    have e : s.putAll ((key, v, draws) :: ops) fuel = (((s.put key v draws fuel).1.putAll ops fuel).1,
        (s.put key v draws fuel).2 :: ((s.put key v draws fuel).1.putAll ops fuel).2) := rfl
    rw [e]
    refine ⟨by simp [hpc, hd, hpcs], hg2, hh1.trans hh2, by rw [hn2, hi.nodes, List.length_cons]; omega,
      fun k fuel' hf' => ?_⟩
    dsimp only at hf' ⊢
    have hf1' : (s.put key v draws fuel).1.height * ((s.put key v draws fuel).1.nodes.length + 2) ≤ fuel' :=
      le_trans (Nat.mul_le_mul hh2 (by omega)) hf'
    have hs1 := hi.get hg habs0 (by omega) (hsz _ (List.mem_cons_self _ _)) k hf1'
    rw [hget k fuel' hf', List.find?_cons]
    by_cases hk : key = k
    · subst hk
      have hnone : ops.find? (·.1 = key) = none :=
        List.find?_eq_none.2 fun op hop e => hkey (List.mem_map.2 ⟨op, hop, of_decide_eq_true e⟩)
      simp [hnone, hs1]
    · simp only [hk, decide_False]
      cases ops.find? (·.1 = k) with
      | some op => rfl
      | none => simp [hs1, Ne.symm hk]

/-- **`put`s one after another from `SkipList::new`.** For `put`s of pairwise distinct keys
shorter than `2^16` bytes, of values whose layout is shorter than `2^16` bytes, each drawing a
height at most one above the list height before it: every `put` returns, and `get(k)` then
answers the value of the `put` of `k`, or `None` for a key never put. -/
theorem putAll_new (ops : List (List UInt8 × ValueStruct × List UInt32)) (hkeys : (ops.map (·.1)).Nodup)
    (hshort : ∀ op ∈ ops, op.1.length < 2 ^ 16) (hsz : ∀ op ∈ ops, op.2.1.encodedSize < 2 ^ 16) (hfit : HeightsFit 1 (ops.map fun op => randomHeight op.2.2))
    (hlen : ops.length < 2 ^ 32) (fuel : Nat) (hf : maxHeight * (ops.length + 3) + 3 * maxHeight + 6 ≤ fuel) :
    (SkipList.new.putAll ops fuel).2 = ops.map (fun _ => .done) ∧
      ∀ k fuel', maxHeight * (ops.length + 3) ≤ fuel' →
        (SkipList.new.putAll ops fuel).1.get k fuel' = some ((ops.find? (·.1 = k)).map (·.2.1)) := by
  have hempty : ∀ n, OnLevel SkipList.new 0 n → n ≠ headOffset → ∀ k, SkipList.new.keyOf n ≠ k :=
    fun n hn hnh => absurd (reach_new hn) hnh
  have hn1 : SkipList.new.nodes.length = 1 := rfl
  have hv1 : SkipList.new.vals.length = 1 := rfl
  obtain ⟨hpcs, hg, -, hn, hget⟩ := putAll_spec ops SkipList.new SkipList.good_new hkeys hshort hsz
    (fun op _ n hn hnh => hempty n hn hnh op.1) hfit (by rw [hv1]; omega) fuel
    (by rw [hn1, show 1 + ops.length + 2 = ops.length + 3 by omega]; exact hf)
  refine ⟨hpcs, fun k fuel' hf' => ?_⟩
  have hb : (SkipList.new.putAll ops fuel).1.height *
      ((SkipList.new.putAll ops fuel).1.nodes.length + 2) ≤ fuel' :=
    le_trans (Nat.mul_le_mul hg.wf.height_le (by rw [hn, hn1]; omega)) hf'
  rw [hget k fuel' hb]
  cases ops.find? (·.1 = k) with
  | some op => rfl
  | none =>
    have h3 : SkipList.new.height * (SkipList.new.nodes.length + 2) ≤ maxHeight * (ops.length + 3) := by
      rw [hn1, show SkipList.new.height = 1 from rfl]; simp only [maxHeight]; omega
    exact get_eq_none SkipList.wf_new (h3.trans hf') fun n hn hnh => hempty n hn hnh k

/-- `put(b"b")` then `put(b"a")` with height 2, on the empty list: both return, and `get` reads
each value back and `None` for another key. -/
theorem putAll_new_two :
    (([([0x62], ⟨[1], 0, 0, 0⟩, []), ([0x61], ⟨[2], 0, 0, 0⟩, [0, 0xFFFFFFFF])] :
      List (List UInt8 × ValueStruct × List UInt32)).map (·.1)).Nodup ∧
    (∀ op ∈ ([([0x62], ⟨[1], 0, 0, 0⟩, []), ([0x61], ⟨[2], 0, 0, 0⟩, [0, 0xFFFFFFFF])] :
      List (List UInt8 × ValueStruct × List UInt32)), op.1.length < 2 ^ 16) ∧
    (∀ op ∈ ([([0x62], ⟨[1], 0, 0, 0⟩, []), ([0x61], ⟨[2], 0, 0, 0⟩, [0, 0xFFFFFFFF])] :
      List (List UInt8 × ValueStruct × List UInt32)), op.2.1.encodedSize < 2 ^ 16) ∧
    HeightsFit 1 ([randomHeight [], randomHeight [0, 0xFFFFFFFF]]) ∧
    (SkipList.new.putAll [([0x62], ⟨[1], 0, 0, 0⟩, []), ([0x61], ⟨[2], 0, 0, 0⟩, [0, 0xFFFFFFFF])] 200).2 =
      [.done, .done] ∧
    ∀ k fuel', maxHeight * (2 + 3) ≤ fuel' →
      (SkipList.new.putAll [([0x62], ⟨[1], 0, 0, 0⟩, []), ([0x61], ⟨[2], 0, 0, 0⟩, [0, 0xFFFFFFFF])] 200).1.get
        k fuel' = some ((([([0x62], ⟨[1], 0, 0, 0⟩, []), ([0x61], ⟨[2], 0, 0, 0⟩, [0, 0xFFFFFFFF])] :
          List (List UInt8 × ValueStruct × List UInt32)).find? (·.1 = k)).map (·.2.1)) :=
  have h := putAll_new [([0x62], ⟨[1], 0, 0, 0⟩, []), ([0x61], ⟨[2], 0, 0, 0⟩, [0, 0xFFFFFFFF])]
    (by decide) (by decide) (by decide) (by decide) (by decide) 200 (by decide)
  ⟨by decide, by decide, by decide, by decide, h.1, h.2⟩

end Badger.Skl
