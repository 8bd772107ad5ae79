import Badger.Skl.Readers
import Badger.Skl.LockFree

/-!
# A `get` beside `put`s is wait-free (skl/mod.rs:224-297, :456-465)

A `get` run alone returns (`get_alone_returns`). Beside `put`s it returns too, within a bound on
its own steps that no interleaving can stretch. `put`s only add nodes and links, so the node a
`get` stands on keeps or raises its rank, and what is left of the search never grows.

`GetThread.budget` counts the steps a `get` has left, `M` bounding the nodes the list will ever
have. Each of its own steps lowers it (`GetThread.budget_step`), a step of the `put`s never
raises it (`GetThread.budget_frame`), and the nodes with the nodes still to come never grow
(`Sys.runThread_nodes_pending`). So every schedule moves a `get`, before it returns, at most
`MAX_HEIGHT * (M + 2) + 3` times (`get_wait_free`).

| here | there |
| --- | --- |
| `GetThread.budget` | the turns left in `find_near(key, false, true)` and the value load of `get` |
| `RwSys.getSteps` | the steps of a schedule that move one `get` before it returns |
-/

namespace Badger.Skl

/-! ## The steps a `get` has left -/

/-- A `get` that has returned, or read past a tower, takes no more steps. -/
def GetPc.Finished : GetPc → Prop
  | .returned _ | .fault => True
  | _ => False

instance (pc : GetPc) : Decidable pc.Finished := by
  cases pc <;> simp only [GetPc.Finished] <;> infer_instance

theorem GetThread.step_finished {g : GetThread} (h : g.pc.Finished) (s : SkipList) :
    g.step s = g := by
  obtain ⟨key, pc⟩ := g
  cases pc <;> simp_all [GetPc.Finished, GetThread.step]

/-- The steps a `get` has left, `M` bounding the nodes of the list: a level of the loop takes at
most `M + 2` turns, and from the node it stands on at most `M + 1 - rank` more on its level. -/
def GetThread.budget (M : Nat) (s : SkipList) (g : GetThread) : Nat :=
  match g.pc with
  | .start => maxHeight * (M + 2) + 3
  | .search x level => level * (M + 2) + (M + 1 - rank s x) + 2
  | .load _ => 1
  | .returned _ | .fault => 0

/-- **A step of a `get` that has not returned lowers its budget.** -/
theorem GetThread.budget_step {M : Nat} {sys : Sys} (hw : sys.list.Wf)
    (hn : sys.list.nodes.length ≤ M) {g : GetThread} (h : g.Inv sys) (hf : ¬ g.pc.Finished) :
    (g.step sys.list).budget M sys.list + 1 ≤ g.budget M sys.list := by
  obtain ⟨key, pc⟩ := g
  cases pc with
  | start =>
    have h1 := hw.height_pos
    have : (sys.list.height - 1) * (M + 2) + (M + 2) ≤ maxHeight * (M + 2) := by
      rw [← Nat.succ_mul]
      exact Nat.mul_le_mul_right _ (by have := hw.height_le; omega)
    simp [GetThread.step, GetThread.budget, rank]
    omega
  | search x level =>
    obtain ⟨hb, hlt⟩ := h
    have := rank_le sys.list x
    rcases GetThread.step_search_cases hw (by have := hw.height_le; omega) hb with
      ⟨nx, he, -, hr⟩ | ⟨m, he, -⟩ | ⟨nxt, he, -⟩ <;> rw [he]
    · have := rank_le sys.list nx
      simp only [GetThread.budget]
      omega
    · simp only [GetThread.budget]
      omega
    · rcases level with _ | level
      · simp [GetThread.budget]
      · have := Nat.add_mul level 1 (M + 2)
        simp [GetThread.budget]
        omega
  | load n =>
    simp only [GetThread.step]
    split <;> simp [GetThread.budget]
  | returned | fault => simp [GetPc.Finished] at hf

/-- **A step of the `put`s never raises a `get`'s budget**: it only adds nodes and links, and
the node the `get` stands on keeps or raises its rank. -/
theorem GetThread.budget_frame {M : Nat} {a b : Sys} (hi : a.Inv) (hs : Sys.Step ShortKeys a b)
    {g : GetThread} (h : g.Inv a) : g.budget M b.list ≤ g.budget M a.list := by
  obtain ⟨key, pc⟩ := g
  cases pc with
  | search x level =>
    have := rank_le_of_le (hi.le_step hs) (hi.wf.onLevel_getNode h.1.1)
    simp only [GetThread.budget]
    omega
  | _ => simp [GetThread.budget]

/-- A `get` knows it stands below the height: its budget is at most that of one about to
start. -/
theorem GetThread.budget_le {M : Nat} {sys : Sys} (hw : sys.list.Wf) {g : GetThread}
    (h : g.Inv sys) : g.budget M sys.list ≤ maxHeight * (M + 2) + 3 := by
  obtain ⟨key, pc⟩ := g
  cases pc with
  | search x level =>
    have := Nat.mul_le_mul_right (M + 2) (show level + 1 ≤ maxHeight by
      have := hw.height_le; have := h.2; omega)
    rw [Nat.succ_mul] at this
    simp only [GetThread.budget]
    omega
  | _ => simp only [GetThread.budget]; omega

/-! ## Every schedule -/

/-- Whether a step of a schedule moves `get` number `i` before it has returned: 1 if so. -/
def RwSys.getMoved (i : Nat) (r : RwSys) : RwEvent → Nat
  | .get j =>
    match r.gets[i]? with
    | some g => if j = i ∧ ¬ g.pc.Finished then 1 else 0
    | none => 0
  | .put _ _ => 0

/-- The steps of a schedule that move `get` number `i` before it has returned. -/
def RwSys.getSteps (i : Nat) (r : RwSys) : List RwEvent → Nat
  | [] => 0
  | e :: es => r.getMoved i e + (r.runEvent e).getSteps i es

/-- The steps `get` number `i` has left; none when there is no such `get`. -/
def RwSys.getBudget (M i : Nat) (r : RwSys) : Nat :=
  match r.gets[i]? with
  | some g => g.budget M r.sys.list
  | none => 0

/-- A step of a schedule that moves `get` number `i` lowers its budget, and no other step raises
it. -/
theorem RwSys.getBudget_runEvent {M i : Nat} {r : RwSys} (h : r.Reachable ShortKeys)
    (hn : r.sys.list.nodes.length ≤ M) :
    ∀ e, r.getMoved i e + (r.runEvent e).getBudget M i ≤ r.getBudget M i
  | .put k draws => by
    simp only [RwSys.getMoved, RwSys.runEvent, RwSys.getBudget, Nat.zero_add]
    rcases hg : r.gets[i]? with _ | g
    · exact le_rfl
    rcases Sys.runThread_step r.sys k draws with e | hs
    · rw [e]
    · exact g.budget_frame (Sys.Inv.reachable h.sys) hs
        (RwSys.Inv.reachable h g (List.getElem?_mem hg))
  | .get j => by
    by_cases hji : j = i
    · subst hji
      rcases hg : r.gets[j]? with _ | g
      · simp [RwSys.getMoved, RwSys.runEvent, RwSys.getBudget, hg]
      have hlt := (List.getElem?_eq_some_iff.1 hg).1
      by_cases hf : g.pc.Finished
      · simp [RwSys.getMoved, RwSys.runEvent, RwSys.getBudget, hg, hf,
          GetThread.step_finished hf, List.getElem?_set_self hlt]
      · have := g.budget_step (Sys.Inv.reachable h.sys).wf hn
          (RwSys.Inv.reachable h g (List.getElem?_mem hg)) hf
        simpa [RwSys.getMoved, RwSys.runEvent, RwSys.getBudget, hg, hf,
          List.getElem?_set_self hlt, Nat.add_comm] using this
    · have h0 : r.getMoved i (.get j) = 0 := by
        simp only [RwSys.getMoved]
        split <;> simp [hji]
      have hs : (r.runEvent (.get j)).gets[i]? = r.gets[i]? ∧ (r.runEvent (.get j)).sys = r.sys := by
        simp only [RwSys.runEvent]
        split <;> simp [List.getElem?_set_ne hji]
      rw [h0, Nat.zero_add, RwSys.getBudget, RwSys.getBudget, hs.1, hs.2]

/-- **No schedule moves a `get` of a reachable system for more steps than its budget**, while `M`
bounds the nodes and the nodes the `put`s may still add. -/
theorem RwSys.getSteps_le (M i : Nat) :
    ∀ (sched : List RwEvent) (r : RwSys), r.Reachable ShortKeys →
      r.sys.list.nodes.length + r.sys.pending ≤ M → r.getSteps i sched ≤ r.getBudget M i
  | [], _, _, _ => Nat.zero_le _
  | e :: es, r, h, hM => by
    have hM' : (r.runEvent e).sys.list.nodes.length + (r.runEvent e).sys.pending ≤ M := by
      cases e with
      | put k draws => exact (r.sys.runThread_nodes_pending k draws).trans hM
      | get j => simp only [RwSys.runEvent]; split <;> exact hM
    have := RwSys.getSteps_le M i es _ (h.run (r.reflTransGen_runEvent e)) hM'
    have := @RwSys.getBudget_runEvent M i r h (by omega) e
    simp only [RwSys.getSteps]
    omega

/-- **A `get` beside `put`s is wait-free.** In every state that `put`s of keys shorter than
2^16 bytes and `get`s reach from `SkipList::new` under any interleaving, every schedule of steps
of the `put`s started and the `get`s moves `get` number `i`, before it returns, at most
`MAX_HEIGHT * (M + 2) + 3` times, `M` being the nodes plus the `put`s: whatever the `put`s do,
a `get` returns within that many of its own steps. -/
theorem get_wait_free (r : RwSys) (h : r.Reachable ShortKeys) (i : Nat) (sched : List RwEvent) :
    r.getSteps i sched ≤ maxHeight * (r.sys.list.nodes.length + r.sys.threads.length + 2) + 3 := by
  refine (RwSys.getSteps_le _ i sched r h
    (Nat.add_le_add_left (List.countP_le_length _) _)).trans ?_
  unfold RwSys.getBudget
  split
  · next g hg =>
    exact GetThread.budget_le (Sys.Inv.reachable h.sys).wf
      (RwSys.Inv.reachable h g (List.getElem?_mem hg))
  · exact Nat.zero_le _

/-- `get(b"b")` loads the height before `put(b"a")` runs, then walks past the new node and
returns `None`: three steps of its own, within the bound of 83. -/
theorem get_wait_free_past_put :
    let r : RwSys := ⟨⟨SkipList.new, [PutThread.init [0x61] ⟨[1], 0, 0, 0⟩]⟩, [⟨[0x62], .start⟩]⟩
    let sched := RwEvent.get 0 :: List.replicate 14 (.put 0 []) ++ List.replicate 6 (.get 0)
    r.Reachable ShortKeys ∧ r.getSteps 0 sched = 3 ∧ r.getSteps 0 sched ≤ 83 :=
  have h : RwSys.Reachable ShortKeys
      ⟨⟨SkipList.new, [PutThread.init [0x61] ⟨[1], 0, 0, 0⟩]⟩, [⟨[0x62], .start⟩]⟩ :=
    (RwSys.Reachable.init.step (.put [] (.spawn _ [] [0x61] _ (by decide)))).step
      (.spawn _ [] [0x62])
  ⟨h, by decide, le_of_le_of_eq (get_wait_free _ h 0 _) (by decide)⟩

end Badger.Skl
