import Mathlib.Algebra.Order.BigOperators.Group.List
import Mathlib.Algebra.Order.Ring.Nat
import Badger.Skl.Progress

/-!
# Every interleaving of `put`s ends (skl/mod.rs:297-427)

A `put` run alone stops (`put_alone_finishes`). Beside other `put`s it may have to do more: a
CAS of a tower link fails when another `put` linked a node at the same place first, and the
search again costs up to a level's length; a height CAS fails when another `put` raised the
height. But each such failure is paid by a CAS that succeeded, and a `put` wins at most
`MAX_HEIGHT + 3` CASes. So, with no new `put` started, the steps that all the `put`s of a
system still take, in any interleaving, are bounded: `Sys.budget` counts each `put`'s
`PutThread.budget` (its steps left if the others held still) and, for each CAS it may still
win, a search again for every `put`. Every step of a `put` that has not stopped lowers it
(`Sys.budget_run`), and every schedule moves the `put`s for at most that many steps
(`puts_finish_any_interleaving`).

The budget of a search is the key rank of the node it stands on: a turn moves right, and another
`put` can only add nodes, which keeps or raises the rank. The budget of a CAS is one step while
the splice found is still the list's, and a search again once another `put` changed it.

| here | there |
| --- | --- |
| `PutThread.budget` | the steps left in `_put` (mod.rs:339-427) |
| `PutThread.Wins` | a `compare_and_swap` of `height` (mod.rs:369-372) or a `cas_next_offset` (mod.rs:403-407) that succeeds |
| `Sys.busySteps` | the steps of a schedule that move a `put` still running |
-/

namespace Badger.Skl

/-- Steps left in the second loop from the top of level `j`, when a level takes at most `M + 8`:
its turn, a failed store and CAS, a search of at most `M + 1` turns, and the store and CAS after
it. -/
def linkBudget (M j : Nat) : Nat := (maxHeight + 2 - j) * (M + 8)

/-- Steps left to a `put` about to start: one level of the first loop at most `M + 3`. -/
def startBudget (M : Nat) : Nat := maxHeight * (M + 3) + 4 + linkBudget M 0

/-- Steps left from a search of level `i` again from `b`. -/
def researchBudget (M : Nat) (s : SkipList) (i b : Nat) : Nat :=
  (M + 1 - rank s b) + 4 + linkBudget M (i + 1)

/-- Steps left from the CAS of level `i`: one while `prev[i]` still links to `next[i]`, and else
a search again from `prev[i]`. -/
def PutThread.casBudget (M : Nat) (s : SkipList) (t : PutThread) (i : Nat) : Nat :=
  if s.nextOffset (t.prevAt i) i = some (t.nextAt i) then 1 + linkBudget M (i + 1)
  else 1 + researchBudget M s i (t.prevAt i)

/-- The steps a `put` has left if no other thread moves, `M` bounding the nodes of the list. -/
def PutThread.budget (M : Nat) (s : SkipList) (t : PutThread) : Nat :=
  match t.pc with
  | .start => startBudget M
  | .descend i b => i * (M + 3) + (M + 1 - rank s b) + 5 + linkBudget M 0
  | .alloc => 3 + linkBudget M 0
  | .loadHeight => 2 + linkBudget M 0
  | .casHeight lh => (if s.height = lh then 1 else 3) + linkBudget M 0
  | .link i =>
    if t.height ≤ i then 1
    else if t.prevAt i = 0 then (if 1 < i then M + 5 + linkBudget M (i + 1) else 1)
    else 2 + t.casBudget M s i
  | .fromHead i b => (M + 1 - rank s b) + 3 + linkBudget M (i + 1)
  | .store i => 1 + t.casBudget M s i
  | .cas i => t.casBudget M s i
  | .research i b => researchBudget M s i b
  | .setValue _ => 1
  | .done | .panicked | .fault => 0

/-- The CASes a `put` may still win: the height CAS, and one a level. -/
def PutThread.casesLeft (t : PutThread) : Nat :=
  match t.pc with
  | .start | .descend _ _ | .alloc | .loadHeight | .casHeight _ => maxHeight + 3
  | .link i | .fromHead i _ | .store i | .cas i | .research i _ => maxHeight + 2 - i
  | .setValue _ | .done | .panicked | .fault => 0

/-- The next step of a `put` is a CAS that succeeds. -/
def PutThread.Wins (s : SkipList) (t : PutThread) : Prop :=
  match t.pc with
  | .casHeight lh => s.height = lh
  | .cas i => s.nextOffset (t.prevAt i) i = some (t.nextAt i)
  | _ => False

/-- The places before `Node::new`. -/
def PutPc.beforeAlloc : PutPc → Bool
  | .start | .descend _ _ | .alloc => true
  | _ => false

/-- The steps the `put`s of a system have left: each one's own, and for each CAS it may still
win, a search again for every `put`. -/
def Sys.budget (M : Nat) (sys : Sys) : Nat :=
  (sys.threads.map fun t => t.budget M sys.list + sys.threads.length * (M + 5) * t.casesLeft).sum

/-- The steps of a schedule that move a `put` that has not stopped. -/
def Sys.busySteps (sys : Sys) : List (Nat × List UInt32) → Nat
  | [] => 0
  | (k, draws) :: rest =>
    (match sys.threads[k]? with
      | some t => if t.pc.Finished then 0 else 1
      | none => 0) + (sys.runThread k draws).busySteps rest

/-- The `put`s of a system that have not yet added their node. -/
def Sys.pending (sys : Sys) : Nat := sys.threads.countP (·.pc.beforeAlloc)

/-! ## What a step does to the list -/

/-- **What a step of a `put` writes**: nothing, the new node, the height, its node's tower link,
a tower link by a winning CAS, or a value. -/
theorem PutThread.step_list (s : SkipList) (t : PutThread) (draws : List UInt32) :
    (t.step s draws).1 = s ∨
      (t.pc = .alloc ∧ (t.step s draws).1 = (Node.new s t.key t.value (randomHeight draws)).1) ∨
      (∃ lh, t.pc = .casHeight lh ∧ s.height = lh ∧
        (t.step s draws).1 = { s with height := t.height }) ∨
      (∃ i, t.pc = .store i ∧ (t.step s draws).1 = s.setNext t.x i (t.nextAt i)) ∨
      (∃ i, t.pc = .cas i ∧ s.nextOffset (t.prevAt i) i = some (t.nextAt i) ∧
        (t.step s draws).1 = s.setNext (t.prevAt i) i t.x) ∨
      (∃ o, t.pc = .setValue o ∧ (t.step s draws).1 = s.setValue o t.value) := by
  cases hpc : t.pc with
  | alloc => exact .inr (.inl ⟨rfl, by simp [PutThread.step, hpc]⟩)
  | casHeight lh =>
    by_cases he : s.height = lh
    · exact .inr (.inr (.inl ⟨lh, rfl, he, by simp [PutThread.step, hpc, he]⟩))
    · exact .inl (by simp [PutThread.step, hpc, he])
  | store i => exact .inr (.inr (.inr (.inl ⟨i, rfl, by simp [PutThread.step, hpc]⟩)))
  | cas i =>
    rcases hc : s.nextOffset (t.prevAt i) i with _ | cur
    · exact .inl (by simp [PutThread.step, hpc, SkipList.casNextOffset, hc])
    by_cases he : cur = t.nextAt i
    · subst he
      exact .inr (.inr (.inr (.inr (.inl ⟨i, rfl, hc,
        by simp [PutThread.step, hpc, SkipList.casNextOffset, hc]⟩))))
    · exact .inl (by simp [PutThread.step, hpc, SkipList.casNextOffset, hc, he])
  | setValue o => exact .inr (.inr (.inr (.inr (.inr ⟨o, rfl, by simp [PutThread.step, hpc]⟩))))
  | _ =>
    left
    simp only [PutThread.step, hpc]
    repeat' split
    all_goals rfl

@[simp] theorem SkipList.setValue_height (s : SkipList) (o : Nat) (v : ValueStruct) :
    (s.setValue o v).height = s.height := rfl

@[simp] theorem SkipList.setValue_nodes_length (s : SkipList) (o : Nat) (v : ValueStruct) :
    (s.setValue o v).nodes.length = s.nodes.length := by
  simp [SkipList.setValue, SkipList.modifyNode, SkipList.putVal]

section Writes
variable {s : SkipList} {u : PutThread} (draws : List UInt32)

/-- **A step of a `put` changes the link of a node of the link's level only by a winning CAS**:
its tower store writes its own node, on no level it stores at, and `Node::new` a node past the
list's. -/
theorem PutThread.step_links_wins (hs : s.Shape) (hu : u.Safe s) {q j : Nat} (hq : OnLevel s j q)
    (hne : (u.step s draws).1.nextOffset q j ≠ s.nextOffset q j) : u.Wins s := by
  rcases u.step_list s draws with e | ⟨-, e⟩ | ⟨lh, hpc, he, -⟩ | ⟨i, hpc, e⟩ | ⟨i, hpc, hf, -⟩ |
      ⟨o, -, e⟩
  · exact absurd (by rw [e]) hne
  · obtain ⟨n, hn⟩ := hs.onLevel_getNode hq
    exact absurd (by rw [e, nextOffset_new_of_ne _ _ _ _ (ne_of_lt (lt_length_of_getNode hn)) j]) hne
  · simpa only [PutThread.Wins, hpc] using he
  · have hh : u.Holds s i := by simp only [PutThread.Safe, hpc] at hu; exact hu.2.1
    have hqx : ¬ (q = u.x ∧ j = i) := by
      rintro ⟨rfl, rfl⟩
      exact hh.not_onLevel le_rfl hq
    exact absurd (by rw [e, nextOffset_setNext_of_ne hh.x_ne_zero hqx]) hne
  · simpa only [PutThread.Wins, hpc] using hf
  · exact absurd (by rw [e, nextOffset_setValue]) hne

/-- **A step of a `put` changes the height only by a winning height CAS.** -/
theorem PutThread.step_height_wins (hne : (u.step s draws).1.height ≠ s.height) : u.Wins s := by
  rcases u.step_list s draws with e | ⟨-, e⟩ | ⟨lh, hpc, he, -⟩ | ⟨i, -, e⟩ | ⟨i, hpc, hf, -⟩ |
      ⟨o, -, e⟩
  · exact absurd (by rw [e]) hne
  · exact absurd (by rw [e, Node.new_height]) hne
  · simpa only [PutThread.Wins, hpc] using he
  · exact absurd (by rw [e, SkipList.setNext_height]) hne
  · simpa only [PutThread.Wins, hpc] using hf
  · exact absurd (by rw [e, SkipList.setValue_height]) hne

end Writes

/-- Another `put`'s nodes only add keys below a node's: its rank keeps or grows. -/
theorem rank_le_of_le {s s' : SkipList} (hl : s.Le s') {b : Nat} (hb : ∃ n, s.getNode b = some n) :
    rank s b ≤ rank s' b := by
  unfold rank
  split
  · exact le_rfl
  refine Nat.succ_le_succ (Finset.card_le_card fun o ho => ?_)
  simp only [keysBelow, Finset.mem_filter, Finset.mem_range] at ho ⊢
  obtain ⟨-, hoh, hos, hk⟩ := ho
  obtain ⟨n, hn⟩ := Option.isSome_iff_exists.1 hos
  obtain ⟨n', hn', -⟩ := hl.node o n hn
  obtain ⟨nb, hnb⟩ := hb
  refine ⟨lt_length_of_getNode hn', hoh, by simp [hn'], ?_⟩
  rw [hl.keyOf hn, hl.keyOf hnb]
  exact hk

/-! ## Another `put`'s step -/

section Frame
variable {M d : Nat} {s s' : SkipList} {t : PutThread} (hs : s.Shape) (hl : s.Le s')
  (hlink : ∀ q j, OnLevel s j q → s'.nextOffset q j ≠ s.nextOffset q j → M + 5 ≤ d)
include hs hl hlink

/-- The budget of a CAS grows by a search again at most, and only when its link changed. -/
theorem PutThread.casBudget_frame {i : Nat} (hp : OnLevel s i (t.prevAt i)) :
    t.casBudget M s' i ≤ t.casBudget M s i + d := by
  have hrank := rank_le_of_le hl (hs.onLevel_getNode hp)
  unfold PutThread.casBudget researchBudget
  by_cases h' : s'.nextOffset (t.prevAt i) i = some (t.nextAt i)
  · rw [if_pos h']
    split_ifs <;> omega
  · rw [if_neg h']
    by_cases h : s.nextOffset (t.prevAt i) i = some (t.nextAt i)
    · have := hlink _ _ hp (by rw [h]; exact h')
      rw [if_pos h]
      omega
    · rw [if_neg h]
      omega

/-- **Another `put`'s step raises a `put`'s budget only by what a winning CAS allows**: the
budget of a search keeps or falls as nodes are added, that of a CAS grows by a search again when
its link changed, and that of the height CAS by two when the height changed. -/
theorem PutThread.budget_frame (ht : t.Safe s) (hh : s'.height ≠ s.height → M + 5 ≤ d) :
    t.budget M s' ≤ t.budget M s + d := by
  have hrank : ∀ {i b}, OnLevel s i b → rank s b ≤ rank s' b := fun hb =>
    rank_le_of_le hl (hs.onLevel_getNode hb)
  have hcas : ∀ {i}, t.prevAt i ≠ 0 → t.Links s → t.casBudget M s' i ≤ t.casBudget M s i + d :=
    fun hp0 hL => t.casBudget_frame hs hl hlink (hL.prev _ hp0)
  cases hpc : t.pc with
  | descend i b =>
    simp only [PutThread.Safe, hpc] at ht
    have := hrank ht.2.2
    simp only [PutThread.budget, hpc]
    omega
  | casHeight lh =>
    simp only [PutThread.budget, hpc]
    by_cases he : s'.height = s.height
    · rw [he]; omega
    · have := hh he
      split_ifs <;> omega
  | link i =>
    simp only [PutThread.Safe, hpc] at ht
    simp only [PutThread.budget, hpc]
    by_cases hp0 : t.prevAt i = 0
    · simp only [hp0, if_true]
      omega
    · have := hcas hp0 ht.1
      simp only [hp0, if_false]
      split_ifs <;> omega
  | fromHead i b =>
    simp only [PutThread.Safe, hpc] at ht
    have := hrank ht.2.2.2
    simp only [PutThread.budget, hpc]
    omega
  | store i =>
    simp only [PutThread.Safe, hpc] at ht
    have := hcas ht.2.2.2 ht.1
    simp only [PutThread.budget, hpc]
    omega
  | cas i =>
    simp only [PutThread.Safe, hpc] at ht
    simpa only [PutThread.budget, hpc] using hcas ht.2.2.2.1 ht.1
  | research i b =>
    simp only [PutThread.Safe, hpc] at ht
    have := hrank ht.2.2.2
    simp only [PutThread.budget, researchBudget, hpc]
    omega
  | _ => simp [PutThread.budget, hpc]

end Frame

/-! ## A `put`'s own step -/

theorem SkipList.keyOf_setNext (s : SkipList) (o L v q : Nat) :
    (s.setNext o L v).keyOf q = s.keyOf q := by
  have h := congrArg (Option.map Prod.fst) (@entry_setNext s o L v q)
  simp only [Option.map_map] at h
  exact congrArg (Option.getD · []) h

theorem SkipList.isSome_getNode_setNext (s : SkipList) (o L v q : Nat) :
    ((s.setNext o L v).getNode q).isSome = (s.getNode q).isSome := by
  simpa using congrArg Option.isSome (@entry_setNext s o L v q)

/-- A tower store moves no node: ranks stay. -/
theorem rank_setNext (s : SkipList) (o L v b : Nat) : rank (s.setNext o L v) b = rank s b := by
  simp only [rank, keysBelow, SkipList.setNext_nodes_length, SkipList.keyOf_setNext,
    SkipList.isSome_getNode_setNext]

theorem linkBudget_succ (M : Nat) {j : Nat} (hj : j ≤ maxHeight + 1) :
    linkBudget M j = M + 8 + linkBudget M (j + 1) := by
  unfold linkBudget
  rw [show maxHeight + 2 - j = maxHeight + 2 - (j + 1) + 1 by omega, Nat.succ_mul]
  omega

theorem PutThread.casBudget_bounds (M : Nat) (s : SkipList) (t : PutThread) (i : Nat) :
    1 + linkBudget M (i + 1) ≤ t.casBudget M s i ∧
      t.casBudget M s i ≤ M + 6 + linkBudget M (i + 1) := by
  unfold PutThread.casBudget researchBudget
  split_ifs <;> omega

/-- At the top of level `i` of the second loop, a `put`'s budget is at most the levels' left. -/
theorem PutThread.budget_link_le {M : Nat} {s : SkipList} {t : PutThread} {i : Nat}
    (hpc : t.pc = .link i) (hi : i ≤ maxHeight + 1) : t.budget M s ≤ linkBudget M i := by
  have := linkBudget_succ M hi
  have := (t.casBudget_bounds M s i).2
  simp only [PutThread.budget, hpc]
  split_ifs <;> omega

@[simp] theorem PutThread.casBudget_goto (M : Nat) (s : SkipList) (t : PutThread) (pc : PutPc)
    (i : Nat) : (t.goto pc).casBudget M s i = t.casBudget M s i := rfl

section Plain
variable {M : Nat} {s : SkipList} {t : PutThread} (draws : List UInt32)

theorem budget_step_alloc (hpc : t.pc = .alloc) :
    (t.step s draws).2.budget M (t.step s draws).1 + 1 ≤ t.budget M s := by
  simp [PutThread.step, hpc, PutThread.budget]
  omega

theorem budget_step_loadHeight (hpc : t.pc = .loadHeight) :
    (t.step s draws).2.budget M (t.step s draws).1 + 1 ≤ t.budget M s := by
  by_cases hlt : s.height < t.height
  · simp [PutThread.step, hpc, hlt, PutThread.budget]
    omega
  · have := @PutThread.budget_link_le M s (t.goto (.link 0)) 0 rfl (Nat.zero_le _)
    simp only [PutThread.step, hpc, hlt, if_false, PutThread.budget] at this ⊢
    omega

theorem budget_step_casHeight {lh : Nat} (hpc : t.pc = .casHeight lh) :
    (t.step s draws).2.budget M (t.step s draws).1 + 1 ≤ t.budget M s := by
  by_cases he : s.height = lh
  · have := @PutThread.budget_link_le M { s with height := t.height } (t.goto (.link 0)) 0 rfl
      (Nat.zero_le _)
    simp only [PutThread.step, hpc, he, if_true, PutThread.budget] at this ⊢
    omega
  · simp [PutThread.step, hpc, he, PutThread.budget]
    omega

theorem budget_step_link {i : Nat} (hpc : t.pc = .link i) :
    (t.step s draws).2.budget M (t.step s draws).1 + 1 ≤ t.budget M s := by
  by_cases hh : t.height ≤ i
  · simp [PutThread.step, PutThread.budget, hpc, hh]
  by_cases hp0 : t.prevAt i = 0
  · by_cases h1 : 1 < i
    · simp [PutThread.step, PutThread.budget, hpc, hh, hp0, h1, rank]
      omega
    · simp [PutThread.step, PutThread.budget, hpc, hh, hp0, h1]
  · simp [PutThread.step, PutThread.budget, hpc, hh, hp0]
    omega

theorem budget_step_setValue {o : Nat} (hpc : t.pc = .setValue o) :
    (t.step s draws).2.budget M (t.step s draws).1 + 1 ≤ t.budget M s := by
  simp [PutThread.step, PutThread.budget, hpc]

end Plain

section Own
variable {M : Nat} {s : SkipList} {t : PutThread} (draws : List UInt32) (hr : t.Ready s)
include hr

theorem budget_step_start (hpc : t.pc = .start) :
    (t.step s draws).2.budget M (t.step s draws).1 + 1 ≤ t.budget M s := by
  have h1 := hr.wf.height_pos
  have hmul : (s.height - 1) * (M + 3) + (M + 3) ≤ maxHeight * (M + 3) := by
    rw [← Nat.succ_mul]
    exact Nat.mul_le_mul_right _ (by have := hr.wf.height_le; omega)
  simp [PutThread.step, hpc, PutThread.budget, startBudget, h1.ne', rank]
  omega

theorem budget_step_descend (hn : s.nodes.length ≤ M) {i b : Nat} (hpc : t.pc = .descend i b) :
    (t.step s draws).2.budget M (t.step s draws).1 + 1 ≤ t.budget M s := by
  have hinv := hr.inv
  have hsafe := hr.safe
  simp only [PutThread.Inv, hpc] at hinv
  simp only [PutThread.Safe, hpc] at hsafe
  have hi : i < maxHeight := by have := hr.wf.height_le; omega
  have := rank_le s b
  rcases spliceStep_cases hr.wf hi hinv.2 with ⟨nx, hs, -, hlt⟩ | ⟨m, hs, hm0, -⟩ | ⟨nxt, hs, hsp⟩
  · have := rank_le s nx
    simp [PutThread.step, hpc, hs, PutThread.budget]
    omega
  · simp only [PutThread.step, hpc, hs, ne_eq, hm0, not_false_eq_true, and_self, if_true]
    split_ifs <;> simp [PutThread.budget, hpc] <;> omega
  · have hne : ¬ (nxt ≠ 0 ∧ b = nxt) := fun h => hsp.ne hr.wf h.1 h.2
    simp only [PutThread.step, hpc, hs, hne, if_false]
    rcases i with _ | i
    · simp [PutThread.descended_pc, PutThread.budget, hpc]
      omega
    · have := Nat.add_mul i 1 (M + 3)
      simp [PutThread.descended_pc, PutThread.budget, hpc]
      omega

theorem budget_step_store {i : Nat} (hpc : t.pc = .store i) :
    (t.step s draws).2.budget M (t.step s draws).1 + 1 ≤ t.budget M s := by
  have hsafe := hr.safe
  simp only [PutThread.Safe, hpc] at hsafe
  obtain ⟨hl, hh, -, hp0⟩ := hsafe
  have hpx : t.prevAt i ≠ t.x := fun e => hh.not_onLevel le_rfl (e ▸ hl.prev i hp0)
  have hc : t.casBudget M (s.setNext t.x i (t.nextAt i)) i = t.casBudget M s i := by
    simp only [PutThread.casBudget, researchBudget, rank_setNext,
      nextOffset_setNext_of_ne hh.x_ne_zero (fun h => hpx h.1)]
  simp [PutThread.step, PutThread.budget, hpc, hc]
  omega

theorem budget_step_cas {i : Nat} (hpc : t.pc = .cas i) :
    (t.step s draws).2.budget M (t.step s draws).1 + 1 ≤ t.budget M s := by
  have hinv := hr.inv
  simp only [PutThread.Inv, hpc] at hinv
  have hi := (hinv.2.1.height_bounds hr.wf).2
  rcases hc : s.nextOffset (t.prevAt i) i with _ | cur
  · have := (t.casBudget_bounds M s i).1
    simp [PutThread.step, hpc, SkipList.casNextOffset, hc, PutThread.budget]
    omega
  by_cases he : cur = t.nextAt i
  · subst he
    have := @PutThread.budget_link_le M (s.setNext (t.prevAt i) i t.x) (t.goto (.link (i + 1)))
      (i + 1) rfl (by omega)
    simp [PutThread.step, hpc, SkipList.casNextOffset, hc, PutThread.budget,
      PutThread.casBudget] at this ⊢
    omega
  · simp [PutThread.step, hpc, SkipList.casNextOffset, hc, he, PutThread.budget,
      PutThread.casBudget]
    omega

theorem budget_step_research (hn : s.nodes.length ≤ M) {i b : Nat}
    (hpc : t.pc = .research i b) :
    (t.step s draws).2.budget M (t.step s draws).1 + 1 ≤ t.budget M s := by
  have hinv := hr.inv
  have hsafe := hr.safe
  simp only [PutThread.Inv, hpc] at hinv
  simp only [PutThread.Safe, hpc] at hsafe
  have hi : i < maxHeight := by have := (hinv.2.1.height_bounds hr.wf).2; omega
  have := rank_le s b
  rcases spliceStep_cases hr.wf hi hinv.2.2.2 with ⟨nx, hs, -, hlt⟩ | ⟨m, hs, hm0, -⟩ |
      ⟨nxt, hs, hsp⟩
  · have := rank_le s nx
    simp [PutThread.step, hpc, hs, PutThread.budget, researchBudget]
    omega
  · by_cases hi0 : i = 0
    · subst hi0
      simp [PutThread.step, hpc, hs, hm0, PutThread.budget, researchBudget]
      omega
    · simp [PutThread.step, hpc, hs, hm0, hi0, PutThread.budget, researchBudget]
      omega
  · by_cases h0 : nxt = 0
    · simp [PutThread.step, hpc, hs, h0, PutThread.budget, researchBudget]
      omega
    have hlp : i < t.prev.length := by rw [hsafe.1.prev_length]; omega
    have hln : i < t.next.length := by rw [hsafe.1.next_length]; omega
    simp [PutThread.step, hpc, hs, h0, hsp.ne hr.wf h0, PutThread.budget, PutThread.casBudget,
      researchBudget, PutThread.goto, PutThread.prevAt, PutThread.nextAt, List.getElem?_set, hlp,
      hln, Nat.not_le.2 hinv.2.2.1, hsp.1.1.ne_zero, hsp.2.1]
    omega

theorem budget_step_fromHead (hn : s.nodes.length ≤ M) {i b : Nat}
    (hpc : t.pc = .fromHead i b) :
    (t.step s draws).2.budget M (t.step s draws).1 + 1 ≤ t.budget M s := by
  have hinv := hr.inv
  have hsafe := hr.safe
  simp only [PutThread.Inv, hpc] at hinv
  simp only [PutThread.Safe, hpc] at hsafe
  have hi : i < maxHeight := by have := (hinv.2.1.height_bounds hr.wf).2; omega
  have := rank_le s b
  rcases spliceStep_cases hr.wf hi hinv.2.2.2 with ⟨nx, hs, -, hlt⟩ | ⟨m, hs, -⟩ | ⟨nxt, hs, hsp⟩
  · have := rank_le s nx
    simp [PutThread.step, hpc, hs, PutThread.budget]
    omega
  · simp [PutThread.step, hpc, hs, PutThread.budget]
    omega
  · by_cases h0 : nxt = 0
    · simp [PutThread.step, hpc, hs, h0, PutThread.budget]
      omega
    have hlp : i < t.prev.length := by rw [hsafe.1.prev_length]; omega
    have hln : i < t.next.length := by rw [hsafe.1.next_length]; omega
    simp [PutThread.step, hpc, hs, h0, hsp.ne hr.wf h0, PutThread.budget, PutThread.casBudget,
      PutThread.goto, PutThread.prevAt, PutThread.nextAt, List.getElem?_set, hlp, hln, hsp.2.1]
    omega

end Own

/-- **A step of a `put` that has not stopped lowers its budget**, while `M` bounds the nodes. -/
theorem PutThread.budget_step {M : Nat} {s : SkipList} {t : PutThread} (draws : List UInt32)
    (hr : t.Ready s) (hn : s.nodes.length ≤ M) (hf : ¬ t.pc.Finished) :
    (t.step s draws).2.budget M (t.step s draws).1 + 1 ≤ t.budget M s := by
  cases hpc : t.pc with
  | start => exact budget_step_start draws hr hpc
  | descend => exact budget_step_descend draws hr hn hpc
  | alloc => exact budget_step_alloc draws hpc
  | loadHeight => exact budget_step_loadHeight draws hpc
  | casHeight => exact budget_step_casHeight draws hpc
  | link => exact budget_step_link draws hpc
  | fromHead => exact budget_step_fromHead draws hr hn hpc
  | store => exact budget_step_store draws hr hpc
  | cas => exact budget_step_cas draws hr hpc
  | research => exact budget_step_research draws hr hn hpc
  | setValue => exact budget_step_setValue draws hpc
  | done | panicked | fault => simp [hpc, PutPc.Finished] at hf

/-! ## The CASes a `put` may still win -/

@[simp] theorem PutThread.casesLeft_descended (t : PutThread) (i p nxt : Nat) :
    (t.descended i p nxt).casesLeft = maxHeight + 3 := by
  unfold PutThread.descended
  split_ifs <;> rfl

/-- A step of a `put` never adds a CAS it may win. -/
theorem PutThread.casesLeft_step (s : SkipList) (t : PutThread) (draws : List UInt32) :
    (t.step s draws).2.casesLeft ≤ t.casesLeft := by
  cases hpc : t.pc <;> simp only [PutThread.step, hpc] <;> (repeat' split) <;>
    (try rw [PutThread.casesLeft_descended]) <;>
    simp only [PutThread.casesLeft, PutThread.goto_pc, hpc] <;> omega

/-- A winning CAS uses up one of the CASes a `put` may still win. -/
theorem PutThread.casesLeft_step_wins {s : SkipList} {t : PutThread} (hs : s.Shape)
    (ht : t.Safe s) (hw : t.Wins s) (draws : List UInt32) :
    (t.step s draws).2.casesLeft + 1 ≤ t.casesLeft := by
  cases hpc : t.pc with
  | casHeight lh =>
    simp only [PutThread.Wins, hpc] at hw
    simp [PutThread.step, hpc, hw, PutThread.casesLeft]
  | cas i =>
    simp only [PutThread.Wins, hpc] at hw
    simp only [PutThread.Safe, hpc] at ht
    have := (ht.2.1.height_bounds hs).2
    simp [PutThread.step, hpc, SkipList.casNextOffset, hw, PutThread.casesLeft]
    omega
  | _ => simp [PutThread.Wins, hpc] at hw

theorem PutThread.casesLeft_le (t : PutThread) : t.casesLeft ≤ maxHeight + 3 := by
  unfold PutThread.casesLeft
  split <;> omega

/-! ## The nodes a system may still add -/

/-- A `put` past `Node::new` never comes back before it. -/
theorem PutThread.beforeAlloc_of_step (s : SkipList) (t : PutThread) (draws : List UInt32)
    (h : (t.step s draws).2.pc.beforeAlloc) : t.pc.beforeAlloc := by
  revert h
  cases hpc : t.pc <;> simp only [PutThread.step, hpc] <;> (repeat' split) <;>
    simp [PutPc.beforeAlloc, PutThread.descended_pc]

/-- A step of a `put` adds a node only as it leaves the places before `Node::new`. -/
theorem PutThread.step_nodes_pending (s : SkipList) (t : PutThread) (draws : List UInt32) :
    (t.step s draws).1.nodes.length + (if (t.step s draws).2.pc.beforeAlloc then 1 else 0) ≤
      s.nodes.length + (if t.pc.beforeAlloc then 1 else 0) := by
  have hb : (if (t.step s draws).2.pc.beforeAlloc then 1 else 0) ≤
      (if t.pc.beforeAlloc then 1 else 0) := by
    have := t.beforeAlloc_of_step s draws
    split_ifs <;> simp_all
  rcases t.step_list s draws with e | ⟨hpc, e⟩ | ⟨lh, -, -, e⟩ | ⟨i, -, e⟩ | ⟨i, -, -, e⟩ |
      ⟨o, -, e⟩
  · rw [e]; omega
  · simp [e, PutThread.step, hpc, PutPc.beforeAlloc]
  all_goals rw [e]; simpa using hb

/-! ## The system's budget -/

/-- The budgets of the other `put`s rise by at most `d` each when a step writes only links and
a height that cost `d`. -/
theorem sum_budget_frame {M : Nat} {s s' : SkipList} (hs : s.Shape) (hl : s.Le s') (d c : Nat)
    (hlink : ∀ q j, OnLevel s j q → s'.nextOffset q j ≠ s.nextOffset q j → M + 5 ≤ d)
    (hh : s'.height ≠ s.height → M + 5 ≤ d) :
    ∀ l : List PutThread, (∀ u ∈ l, u.Safe s) →
      (l.map fun u => u.budget M s' + c * u.casesLeft).sum ≤
        (l.map fun u => u.budget M s + c * u.casesLeft).sum + l.length * d
  | [], _ => by simp
  | u :: l, h => by
    have hu := PutThread.budget_frame hs hl hlink (h u (List.mem_cons_self _ _)) hh
    have ih := sum_budget_frame hs hl d c hlink hh l fun v hv => h v (List.mem_cons_of_mem _ hv)
    simp only [List.map_cons, List.sum_cons, List.length_cons, Nat.succ_mul]
    omega

/-- **Every step of a `put` that has not stopped lowers the system's budget.** A winning CAS may
cost every other `put` a search again, and pays for it from its own reserve. -/
theorem Sys.budget_run {M : Nat} {s : SkipList} {pre post : List PutThread} {t : PutThread}
    (hsafe : Sys.Safe ⟨s, pre ++ t :: post⟩) (hinv : Sys.Inv ⟨s, pre ++ t :: post⟩)
    (hn : s.nodes.length ≤ M) (hf : ¬ t.pc.Finished) (draws : List UInt32) :
    Sys.budget M ⟨(t.step s draws).1, pre ++ (t.step s draws).2 :: post⟩ + 1 ≤
      Sys.budget M ⟨s, pre ++ t :: post⟩ := by
  have hmem : t ∈ pre ++ t :: post := List.mem_append_cons_self
  have hother : ∀ u ∈ pre ++ post, u.Safe s := fun u hu =>
    hsafe.thread u (List.perm_middle.mem_iff.2 (List.mem_cons_of_mem _ hu))
  have hr : t.Ready s := ⟨hinv.wf, hinv.thread t hmem, hsafe.thread t hmem, hinv.key t hmem⟩
  have hs : s.Shape := hsafe.shape
  have hl : s.Le (t.step s draws).1 := (PutThread.safeOk hs hr.safe draws).effect.le
  obtain ⟨d, hd, hlink, hh⟩ : ∃ d, (d = 0 ∨ d = M + 5 ∧
      (t.step s draws).2.casesLeft + 1 ≤ t.casesLeft) ∧
      (∀ q j, OnLevel s j q → (t.step s draws).1.nextOffset q j ≠ s.nextOffset q j → M + 5 ≤ d) ∧
      ((t.step s draws).1.height ≠ s.height → M + 5 ≤ d) := by
    by_cases hw : t.Wins s
    · exact ⟨M + 5, .inr ⟨rfl, t.casesLeft_step_wins hs hr.safe hw draws⟩,
        fun _ _ _ _ => le_rfl, fun _ => le_rfl⟩
    · exact ⟨0, .inl rfl,
        fun _ _ hq hne => absurd (t.step_links_wins draws hs hr.safe hq hne) hw,
        fun hne => absurd (t.step_height_wins draws hne) hw⟩
  have hown := PutThread.budget_step draws hr hn hf
  have hK := Nat.mul_le_mul_left ((pre.length + (post.length + 1)) * (M + 5))
    (t.casesLeft_step s draws)
  have hpre := sum_budget_frame hs hl d ((pre.length + (post.length + 1)) * (M + 5))
    hlink hh pre fun u hu => hother u (List.mem_append_left _ hu)
  have hpost := sum_budget_frame hs hl d ((pre.length + (post.length + 1)) * (M + 5))
    hlink hh post fun u hu => hother u (List.mem_append_right _ hu)
  simp only [Sys.budget, List.map_append, List.map_cons, List.sum_append, List.sum_cons,
    List.length_append, List.length_cons]
  rcases hd with rfl | ⟨rfl, hwin⟩
  · simp only [Nat.mul_zero, Nat.add_zero] at hpre hpost
    omega
  · have hpay := Nat.mul_le_mul_left ((pre.length + (post.length + 1)) * (M + 5)) hwin
    have hc : (pre.length + (post.length + 1)) * (M + 5) =
        pre.length * (M + 5) + post.length * (M + 5) + (M + 5) := by
      simp only [Nat.add_mul, Nat.one_mul]; omega
    rw [Nat.mul_add, Nat.mul_one] at hpay
    omega

/-- A step of the `put`s adds a node only for a `put` that leaves the places before
`Node::new`: the nodes and the nodes still to come never grow. -/
theorem Sys.runThread_nodes_pending (sys : Sys) (k : Nat) (draws : List UInt32) :
    (sys.runThread k draws).list.nodes.length + (sys.runThread k draws).pending ≤
      sys.list.nodes.length + sys.pending := by
  rcases hk : sys.threads[k]? with _ | t
  · simp [Sys.runThread, hk]
  obtain ⟨pre, post, hsplit, e⟩ := Sys.runThread_split hk draws
  have := t.step_nodes_pending sys.list draws
  simp only [e, Sys.pending, hsplit, List.countP_append, List.countP_cons]
  omega

/-- **No schedule moves the `put`s of a reachable system for more steps than its budget**, while
`M` bounds its nodes and the nodes its `put`s may still add. -/
theorem Sys.busySteps_le (M : Nat) :
    ∀ (sched : List (Nat × List UInt32)) (sys : Sys), sys.Reachable ShortKeys →
      sys.list.nodes.length + sys.pending ≤ M → sys.busySteps sched ≤ sys.budget M
  | [], _, _, _ => Nat.zero_le _
  | (k, draws) :: rest, sys, h, hM => by
    have ih := Sys.busySteps_le M rest (sys.runThread k draws) (h.runThread k draws)
      ((sys.runThread_nodes_pending k draws).trans hM)
    rcases hk : sys.threads[k]? with _ | t
    · have e : sys.runThread k draws = sys := by simp [Sys.runThread, hk]
      simpa [Sys.busySteps, hk, e] using ih
    obtain ⟨pre, post, hsplit, e⟩ := Sys.runThread_split hk draws
    have hsafe := Sys.Safe.reachable h
    have hinv := Sys.Inv.reachable h
    obtain ⟨s, ts⟩ := sys
    subst hsplit
    simp only [Sys.busySteps, hk, e] at ih ⊢
    by_cases hf : t.pc.Finished
    · simpa only [PutThread.step_finished hf, hf, if_true, Nat.zero_add] using ih
    simp only [Sys.pending, List.countP_append, List.countP_cons] at hM
    have := Sys.budget_run hsafe hinv (show s.nodes.length ≤ M by split at hM <;> omega) hf draws
    simp only [hf, if_false]
    omega

/-- The steps left to a `put` never exceed those of one about to start. -/
theorem PutThread.budget_le_start {M : Nat} {s : SkipList} {t : PutThread} (hs : s.Shape)
    (ht : t.Safe s) : t.budget M s ≤ startBudget M := by
  have hL (j : Nat) : linkBudget M j ≤ linkBudget M 0 := Nat.mul_le_mul_right _ (by omega)
  have hc (i : Nat) := (t.casBudget_bounds M s i).2
  cases hpc : t.pc with
  | descend i b =>
    simp only [PutThread.Safe, hpc] at ht
    have : (i + 1) * (M + 3) ≤ maxHeight * (M + 3) :=
      Nat.mul_le_mul_right _ (by have := hs.height_le; omega)
    rw [Nat.succ_mul] at this
    simp only [PutThread.budget, hpc, startBudget]
    omega
  | link i =>
    simp only [PutThread.Safe, hpc] at ht
    have := (ht.2.1.height_bounds hs).2
    have := @PutThread.budget_link_le M s t i hpc (by omega)
    have := hL i
    simp only [startBudget]
    omega
  | fromHead i b | research i b =>
    simp only [PutThread.Safe, hpc] at ht
    have := (ht.2.1.height_bounds hs).2
    have := linkBudget_succ M (show i ≤ maxHeight + 1 by omega)
    have := hL i
    simp only [PutThread.budget, hpc, researchBudget, startBudget]
    omega
  | store i | cas i =>
    simp only [PutThread.Safe, hpc] at ht
    have := (ht.2.1.height_bounds hs).2
    have := linkBudget_succ M (show i ≤ maxHeight + 1 by omega)
    have := hL i
    have := hc i
    simp only [PutThread.budget, hpc, startBudget]
    omega
  | casHeight lh =>
    simp only [PutThread.budget, hpc, startBudget]
    split_ifs <;> omega
  | _ => simp only [PutThread.budget, hpc, startBudget]; omega

/-- The budget of a system is at most that of as many `put`s about to start. -/
theorem Sys.budget_le {M : Nat} {sys : Sys} (h : sys.Safe) :
    sys.budget M ≤
      sys.threads.length * (startBudget M + sys.threads.length * (M + 5) * (maxHeight + 3)) := by
  have := List.sum_le_card_nsmul
    (sys.threads.map fun t => t.budget M sys.list + sys.threads.length * (M + 5) * t.casesLeft)
    (startBudget M + sys.threads.length * (M + 5) * (maxHeight + 3)) <| by
      simp only [List.mem_map]
      rintro _ ⟨u, hu, rfl⟩
      have := @PutThread.budget_le_start M _ _ h.shape (h.thread u hu)
      have := Nat.mul_le_mul_left (sys.threads.length * (M + 5)) u.casesLeft_le
      omega
  simpa [Sys.budget] using this

/-- **Every interleaving of `put`s ends.** In a state that `put`s of keys shorter than 2^16 bytes
reach from `SkipList::new` under any interleaving, with `n` `put`s and no new one started, a
schedule moves a `put` that has not returned or panicked at most
`n * (startBudget M + n * (M + 5) * (MAX_HEIGHT + 3))` times, where `M` is the nodes and `n`:
however the steps interleave, the `put`s all stop, so some `put` always makes progress. -/
theorem puts_finish_any_interleaving (sys : Sys) (h : sys.Reachable ShortKeys)
    (sched : List (Nat × List UInt32)) :
    sys.busySteps sched ≤ sys.threads.length *
      (startBudget (sys.list.nodes.length + sys.threads.length) + sys.threads.length *
        (sys.list.nodes.length + sys.threads.length + 5) * (maxHeight + 3)) :=
  (Sys.busySteps_le _ sched sys h (Nat.add_le_add_left (List.countP_le_length _) _)).trans
    (Sys.budget_le (Sys.Safe.reachable h))

/-- Two `put`s started on an empty list and moved in turn: between them they take 17 steps before
they stop (the second one panics, its splice gone stale), within the bound of 1468. -/
theorem puts_finish_two_in_turn :
    let sys : Sys := ⟨SkipList.new, [PutThread.init [0x61] default, PutThread.init [0x62] default]⟩
    sys.Reachable ShortKeys ∧ sys.busySteps (List.replicate 12 [(0, []), (1, [])]).flatten = 17 ∧
      sys.busySteps (List.replicate 12 [(0, []), (1, [])]).flatten ≤ 1468 :=
  have h : Sys.Reachable ShortKeys
      ⟨SkipList.new, [PutThread.init [0x61] default, PutThread.init [0x62] default]⟩ :=
    (Sys.Reachable.init.spawn (by decide) _).spawn (by decide) _
  ⟨h, by decide, le_of_le_of_eq (puts_finish_any_interleaving _ h _) (by decide)⟩

end Badger.Skl
