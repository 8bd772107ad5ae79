import Badger.Skl.Invariant
import Badger.Skl.Get
import Badger.Skl.Reads

/-!
# Inserts are not lost (skl/mod.rs:339-427, 456-465)

Under every interleaving of `put`s of keys shorter than 2^16 bytes:

* no step undoes another: every later state keeps each node with its key and height, each node
  on every level it is on, and a height at least as large (`reachable_run_le`);
* once a `put(key, v)` has returned, `get(key)` finds the key (`get_after_put_returned`).

The second rests on `PutThread.Lands`, what a `put` knows of where its key lands. The `set_value`
of the first loop (mod.rs:353) plays no part in it: when the first loop finds the key at level
`i`, `prev[i]` is still null and the `unwrap` panics before it, whatever the keys
(`PutThread.PrevClear`, `first_loop_never_sets_value`).

| here | there |
| --- | --- |
| `PutThread.Lands` | the first loop (mod.rs:348-360), the `set_value` after a failed CAS (mod.rs:420-424), the return of `_put` |
| `get_after_put_returned` | `SkipList::get` (mod.rs:456-465) after `SkipList::put` has returned |
-/

namespace Badger.Skl

/-! ## Runs -/

/-- The states of a run from a reachable state are reachable. -/
theorem Sys.Reachable.run {Admit : List PutThread → List UInt8 → Prop} {a b : Sys}
    (ha : a.Reachable Admit) (hr : Relation.ReflTransGen (Sys.Step Admit) a b) : b.Reachable Admit := by
  induction hr with
  | refl => exact ha
  | tail _ hs ih => exact .step ih hs

/-- The steps of an interleaving are a run. -/
theorem Sys.reflTransGen_runSchedule {Admit : List PutThread → List UInt8 → Prop} (sys : Sys) :
    ∀ sched, Relation.ReflTransGen (Sys.Step Admit) sys (sys.runSchedule sched)
  | [] => .refl
  | (k, draws) :: rest => by
    refine Relation.ReflTransGen.trans ?_ (Sys.reflTransGen_runSchedule _ rest)
    rcases Sys.runThread_step sys k draws with e | hs
    · rw [e]
    · exact .single hs

/-- A step of the system keeps `Le` of the list: a step of a `put` has an `Effect`. -/
theorem Sys.Inv.le_step {a b : Sys} (h : a.Inv) (hs : Sys.Step ShortKeys a b) : a.list.Le b.list := by
  cases hs with
  | spawn => exact .refl _
  | run s pre post t draws =>
    have hmem : t ∈ pre ++ t :: post := List.mem_append_cons_self
    exact (PutThread.stepOk h.wf (h.thread t hmem) (h.key t hmem) draws).effect.le

/-- **No interleaving undoes a step.** From every state that `put`s of keys shorter than 2^16
bytes reach from `SkipList::new`, every state a run of further steps reaches keeps each node
with its key and height, keeps each node on every level it is on, and has a height at least as
large. -/
theorem reachable_run_le {a b : Sys} (ha : a.Reachable ShortKeys)
    (hr : Relation.ReflTransGen (Sys.Step ShortKeys) a b) : a.list.Le b.list := by
  induction hr with
  | refl => exact .refl _
  | tail hab hbc ih => exact ih.trans ((Sys.Inv.reachable (ha.run hab)).le_step hbc)

/-- `put(b"a")` started on the empty list and run to its end: it links its node after the head,
and the list it leaves keeps everything the empty list had. -/
theorem reachable_run_le_linked :
    Sys.Reachable ShortKeys ⟨SkipList.new, [PutThread.init [0x61] default]⟩ ∧
      Relation.ReflTransGen (Sys.Step ShortKeys) ⟨SkipList.new, [PutThread.init [0x61] default]⟩
        ((⟨SkipList.new, [PutThread.init [0x61] default]⟩ : Sys).runSchedule (List.replicate 8 (0, []))) ∧
      ((⟨SkipList.new, [PutThread.init [0x61] default]⟩ : Sys).runSchedule
        (List.replicate 8 (0, []))).list.nextOffset headOffset 0 = some 2 ∧
      SkipList.new.Le ((⟨SkipList.new, [PutThread.init [0x61] default]⟩ : Sys).runSchedule
        (List.replicate 8 (0, []))).list :=
  have ha : Sys.Reachable ShortKeys ⟨SkipList.new, [PutThread.init [0x61] default]⟩ :=
    Sys.Reachable.init.spawn (by decide) default
  have hr := @Sys.reflTransGen_runSchedule ShortKeys ⟨SkipList.new, [PutThread.init [0x61] default]⟩
    (List.replicate 8 (0, []))
  ⟨ha, hr, by decide, reachable_run_le ha hr⟩

/-! ## Where a key lands -/

/-- Node `o` of level 0, not the head, holds `key`. -/
def HoldsKey (s : SkipList) (key : List UInt8) (o : Nat) : Prop :=
  OnLevel s 0 o ∧ o ≠ headOffset ∧ s.keyOf o = key

theorem HoldsKey.mono {s s' : SkipList} (hw : s.Wf) (hl : s.Le s') {key : List UInt8} {o : Nat}
    (h : HoldsKey s key o) : HoldsKey s' key o :=
  let ⟨_, hn⟩ := hw.onLevel_getNode h.1
  ⟨hl.onLevel 0 o h.1, h.2.1, (hl.keyOf hn).trans h.2.2⟩

/-- Before and in the first loop at level `i`, `prev[0..=i]` are null: the first loop sets no
`prev` at or below the level it searches. -/
def PutThread.PrevClear (t : PutThread) : Prop :=
  match t.pc with
  | .start => ∀ j, t.prevAt j = 0
  | .descend i _ => ∀ j ≤ i, t.prevAt j = 0
  | _ => True

/-- What a `put` knows of where its key lands: the node whose value it is about to set holds its
key on level 0; once it has returned, a node of level 0 holds its key; before that,
`PrevClear`. -/
def PutThread.Lands (s : SkipList) (t : PutThread) : Prop :=
  match t.pc with
  | .setValue o => HoldsKey s t.key o
  | .done => ∃ o, HoldsKey s t.key o
  | _ => t.PrevClear

theorem PutThread.Lands.prevClear {s : SkipList} {t : PutThread} (h : t.Lands s) : t.PrevClear := by
  cases hpc : t.pc <;> simp only [PutThread.Lands, PutThread.PrevClear, hpc] at h ⊢ <;> trivial

theorem getD_set_of_ne {l : List Nat} {i j : Nat} (v : Nat) (h : i ≠ j) :
    (l.set i v).getD j 0 = l.getD j 0 := by
  simp [List.getD_eq_getElem?_getD, List.getElem?_set_ne h]

/-- A turn of `find_splice_for_level` that stops at `(n, n)`, `n` not null, has found the node of
level `L` holding `key`. -/
theorem spliceStep_found {s : SkipList} (hw : s.Wf) {key : List UInt8} {L before n : Nat}
    (hb : Before s key L before) (h : spliceStep s key before L = some (.inr (n, n))) (hn : n ≠ 0) :
    OnLevel s L n ∧ n ≠ headOffset ∧ s.keyOf n = key := by
  obtain ⟨hon, hnxt⟩ := spliceStep_inr_onLevel hw.shape hb.1 h
  refine ⟨hon, (hnxt hn).2, ?_⟩
  rcases spliceStep_inr hw hb h with ⟨-, -, hk⟩ | ⟨⟨-, hpre⟩, hnext⟩
  · exact hk
  · obtain ⟨hnh, nm, hnm, -, hlt⟩ := (hnext hn).2
    rw [← SkipList.keyOf_eq hnm] at hlt
    exact absurd hlt (hpre.resolve_left hnh).asymm

theorem PutThread.Lands.mono {s s' : SkipList} (hw : s.Wf) (hl : s.Le s') {t : PutThread}
    (h : t.Lands s) : t.Lands s' := by
  cases hpc : t.pc <;> simp only [PutThread.Lands, PutThread.PrevClear, hpc] at h ⊢
  all_goals first
    | exact h
    | exact h.mono hw hl
    | exact h.imp fun _ ho => ho.mono hw hl

/-- The start of `_put` sets `prev[height]` alone. -/
theorem lands_start {s : SkipList} {t : PutThread} (draws : List UInt32) (hpc : t.pc = .start)
    (h : t.Lands s) : (t.step s draws).2.Lands (t.step s draws).1 := by
  simp only [PutThread.Lands, PutThread.PrevClear, hpc] at h
  simp only [PutThread.step, hpc]
  split
  · simp [PutThread.Lands, PutThread.PrevClear]
  · simp only [PutThread.Lands, PutThread.PrevClear, PutThread.goto_pc]
    intro j hj
    simp only [PutThread.prevAt, PutThread.goto] at h ⊢
    rw [getD_set_of_ne _ (by omega), h j]

/-- The first loop keeps `prev[0..=i]` null: it has set no `prev` below the level it searches,
so on its key it panics and never reaches `set_value`. -/
theorem lands_descend {s : SkipList} {t : PutThread} (draws : List UInt32) {i before : Nat}
    (hpc : t.pc = .descend i before) (h : t.Lands s) :
    (t.step s draws).2.Lands (t.step s draws).1 := by
  simp only [PutThread.Lands, PutThread.PrevClear, hpc] at h
  simp only [PutThread.step, hpc]
  rcases spliceStep s t.key before i with _ | nx | ⟨pre, nxt⟩
  · simp [PutThread.Lands, PutThread.PrevClear]
  · simpa [PutThread.Lands, PutThread.PrevClear, PutThread.prevAt, PutThread.goto] using h
  · simp only
    split
    · rw [if_pos (h i le_rfl)]
      simp [PutThread.Lands, PutThread.PrevClear]
    · unfold PutThread.descended
      by_cases hi0 : i = 0
      · simp [hi0, PutThread.Lands, PutThread.PrevClear]
      · simp only [hi0, if_false, PutThread.Lands, PutThread.PrevClear, PutThread.goto_pc]
        intro j hj
        simp only [PutThread.prevAt, PutThread.goto] at h ⊢
        rw [getD_set_of_ne _ (by omega), h j (by omega)]

/-- A step keeps `PrevClear`, on any list: `prev` is the thread's own. -/
theorem PutThread.PrevClear.step (s : SkipList) {t : PutThread} (draws : List UInt32) (h : t.PrevClear) :
    (t.step s draws).2.PrevClear := by
  cases hpc : t.pc with
  | start => exact (lands_start draws hpc (by simp only [PutThread.Lands, hpc]; exact h)).prevClear
  | descend => exact (lands_descend draws hpc (by simp only [PutThread.Lands, hpc]; exact h)).prevClear
  | alloc | loadHeight | casHeight | link | fromHead | store | cas | research | setValue | done
  | panicked | fault =>
    simp only [PutThread.step, hpc]
    repeat' split
    all_goals simp [PutThread.PrevClear, hpc]

section Step
variable {s : SkipList} {t : PutThread} (hw : s.Wf) (draws : List UInt32)
include hw

theorem lands_research {i before : Nat} (hpc : t.pc = .research i before) (hi : t.Inv s) :
    (t.step s draws).2.Lands (t.step s draws).1 := by
  simp only [PutThread.Inv, hpc] at hi
  simp only [PutThread.step, hpc]
  rcases hsp : spliceStep s t.key before i with _ | nx | ⟨pre, nxt⟩
  · simp [PutThread.Lands, PutThread.PrevClear]
  · simp [PutThread.Lands, PutThread.PrevClear]
  · simp only
    split_ifs with h0 hpn hi0 <;> simp only [PutThread.Lands, PutThread.PrevClear, PutThread.goto_pc, PutThread.goto_key]
    subst hpn hi0
    exact spliceStep_found hw hi.2.2.2 hsp h0

theorem lands_link {i : Nat} (hpc : t.pc = .link i) (hi : t.Inv s) :
    (t.step s draws).2.Lands (t.step s draws).1 := by
  simp only [PutThread.Inv, hpc] at hi
  obtain ⟨-, hO, -⟩ := hi
  simp only [PutThread.step, hpc]
  split
  · next hhi =>
    obtain ⟨nx, hnx, hk, -⟩ := hO.node
    have := (hO.height_bounds hw).1
    exact ⟨t.x, hO.below 0 (by omega), hO.ne_head, (SkipList.keyOf_eq hnx).trans hk⟩
  · split_ifs <;> simp [PutThread.Lands, PutThread.PrevClear]

/-- A step of a `put` keeps what it knows of where its key lands. -/
theorem PutThread.Lands.step (hi : t.Inv s) (h : t.Lands s) :
    (t.step s draws).2.Lands (t.step s draws).1 := by
  cases hpc : t.pc with
  | start => exact lands_start draws hpc h
  | descend => exact lands_descend draws hpc h
  | research => exact lands_research hw draws hpc hi
  | link => exact lands_link hw draws hpc hi
  | setValue o =>
    simp only [PutThread.Lands, hpc] at h
    simp only [PutThread.step, hpc, PutThread.Lands, PutThread.goto_pc, PutThread.goto_key]
    exact ⟨o, (onLevel_setValue_iff).2 h.1, h.2.1, (SkipList.relinks_setValue.keyOf o).trans h.2.2⟩
  | done => simpa [PutThread.step, hpc] using h
  | alloc | loadHeight | casHeight | fromHead | store | cas | panicked | fault =>
    simp only [PutThread.step, hpc]
    repeat' split
    all_goals simp [PutThread.Lands, PutThread.PrevClear, hpc]

end Step

/-- Every `put` of the system knows where its key lands. -/
def Sys.Lands (sys : Sys) : Prop := ∀ t ∈ sys.threads, t.Lands sys.list

theorem Sys.Lands.step {a b : Sys} (hi : a.Inv) (h : a.Lands) (hs : Sys.Step ShortKeys a b) : b.Lands := by
  have hle := hi.le_step hs
  cases hs with
  | spawn s ts key v _ =>
    exact List.forall_mem_append.2 ⟨h, List.forall_mem_singleton.2 fun j => getD_replicate_zero _ j⟩
  | run s pre post t draws =>
    have hmem : t ∈ pre ++ t :: post := List.mem_append_cons_self
    intro u hu
    rcases List.mem_cons.1 (List.perm_middle.mem_iff.1 hu) with rfl | hu
    · exact (h t hmem).step hi.wf draws (hi.thread t hmem)
    · exact (h u (List.perm_middle.mem_iff.2 (List.mem_cons_of_mem _ hu))).mono hi.wf hle

theorem Sys.Lands.reachable {sys : Sys} (h : sys.Reachable ShortKeys) : sys.Lands := by
  induction h with
  | init => simp [Sys.Lands]
  | step ha hs ih => exact ih.step (Sys.Inv.reachable ha) hs

/-- **A returned `put` is seen by `get`.** In every state that `put`s of keys shorter than 2^16
bytes reach from `SkipList::new`, under any interleaving, `get` of the key of a `put` that has
returned, with fuel for the descent, finds a value. -/
theorem get_after_put_returned (sys : Sys) (h : sys.Reachable ShortKeys) (t : PutThread)
    (ht : t ∈ sys.threads) (hd : t.pc = .done) (fuel : Nat)
    (hf : sys.list.height * (sys.list.nodes.length + 2) ≤ fuel) :
    ∃ v, sys.list.get t.key fuel = some (some v) := by
  have hl := Sys.Lands.reachable h t ht
  simp only [PutThread.Lands, hd] at hl
  obtain ⟨o, ho, hoh, hk⟩ := hl
  have hw := (Sys.Inv.reachable h).wf
  obtain ⟨nd, hnd⟩ := hw.onLevel_getNode ho
  exact ⟨_, by rw [get_eq_of_onLevel hw hf ho hoh hk, hnd, Option.map_some']⟩

/-- `put(b"a")` run alone on the empty list returns, and `get(b"a")` finds it. -/
theorem get_after_put_returned_one :
    let sys := (⟨SkipList.new, [PutThread.init [0x61] default]⟩ : Sys).runSchedule
      (List.replicate 8 (0, []))
    Sys.Reachable ShortKeys sys ∧ sys.threads.map (·.pc) = [.done] ∧
      ∀ t ∈ sys.threads, t.pc = .done → ∃ v, sys.list.get t.key 40 = some (some v) :=
  have h : Sys.Reachable ShortKeys ((⟨SkipList.new, [PutThread.init [0x61] default]⟩ : Sys).runSchedule
      (List.replicate 8 (0, []))) :=
    (Sys.Reachable.init.spawn (by decide) default).runSchedule _
  ⟨h, by decide, fun t ht hd => get_after_put_returned _ h t ht hd 40 (by decide)⟩

/-- Every `put` of every reachable system, whatever keys the `put`s are admitted with, has
`prev[0..=i]` null before and in its first loop. -/
theorem Sys.prevClear_reachable {Admit : List PutThread → List UInt8 → Prop} {sys : Sys}
    (h : sys.Reachable Admit) : ∀ t ∈ sys.threads, t.PrevClear := by
  induction h with
  | init => simp
  | step _ hs ih =>
    cases hs with
    | spawn s ts key v _ =>
      exact List.forall_mem_append.2 ⟨ih, List.forall_mem_singleton.2 fun j => getD_replicate_zero _ j⟩
    | run s pre post t draws =>
      intro u hu
      rcases List.mem_cons.1 (List.perm_middle.mem_iff.1 hu) with rfl | hu
      · exact (ih t List.mem_append_cons_self).step s draws
      · exact ih u (List.perm_middle.mem_iff.2 (List.mem_cons_of_mem _ hu))

/-- **The first loop never sets a value.** In every state that `put`s of any keys reach from
`SkipList::new`, under any interleaving, a `put` whose first loop stops on a node holding its
key, at any level, panics: `prev[i]` is still null there, and `prev[i].as_ref().unwrap()` fails
before `set_value` (mod.rs:352-354). -/
theorem first_loop_never_sets_value (sys : Sys) (h : sys.Reachable fun _ _ => True) (t : PutThread)
    (ht : t ∈ sys.threads) {i before n : Nat} (hpc : t.pc = .descend i before) (hn : n ≠ 0)
    (hs : spliceStep sys.list t.key before i = some (.inr (n, n))) (draws : List UInt32) :
    t.step sys.list draws = (sys.list, t.goto .panicked) := by
  have hl := Sys.prevClear_reachable h t ht
  simp only [PutThread.PrevClear, hpc] at hl
  simp [PutThread.step, hpc, hs, hn, hl i le_rfl]

/-- Two `put(b"k")`s: the first returns, and the first loop of the second stops on its node. -/
theorem first_loop_never_sets_value_twice :
    let sys := (⟨SkipList.new, [PutThread.init [0x6b] default, PutThread.init [0x6b] default]⟩ : Sys).runSchedule
      (List.replicate 8 (0, []) ++ [(1, [])])
    Sys.Reachable (fun _ _ => True) sys ∧ sys.threads.map (·.pc) = [.done, .descend 0 headOffset] ∧
      sys.threads.map (fun t => spliceStep sys.list t.key headOffset 0) =
        [some (.inr (2, 2)), some (.inr (2, 2))] ∧
      ∀ t ∈ sys.threads, t.pc = .descend 0 headOffset →
        spliceStep sys.list t.key headOffset 0 = some (.inr (2, 2)) →
        t.step sys.list [] = (sys.list, t.goto .panicked) :=
  have h : Sys.Reachable (fun _ _ => True) ((⟨SkipList.new, [PutThread.init [0x6b] default,
      PutThread.init [0x6b] default]⟩ : Sys).runSchedule (List.replicate 8 (0, []) ++ [(1, [])])) :=
    ((Sys.Reachable.init.spawn trivial default).spawn trivial default).runSchedule _
  ⟨h, by decide, by decide, fun t ht hpc hs => first_loop_never_sets_value _ h t ht hpc (by decide) hs []⟩

end Badger.Skl
