import Badger.Skl.Values

/-!
# `get`s running beside the `put`s (skl/mod.rs:224-295, 456-465)

`get` reads the list without a lock: `find_near(key, false, true)` loads the height once, then
each turn of its loop loads one tower slot (`get_next`) and reads the key of the node it leads
to, which `Node::new` wrote before the node was linked and nothing writes again; a found node's
value slot is loaded last (`get_value_offset`). `GetThread.step` is that `get`, one load a step,
and `RwSys` runs such `get`s and the `put`s of `Sys` in any interleaving.

* Run alone, the `get` of one load a step returns what `SkipList::get` returns
  (`get_thread_alone`).
* Beside any `put`s it never reads past a tower, and a value it returns, with at most `2^32`
  values stored and layouts shorter than `2^16` bytes, was written by a `put` of its key
  (`get_concurrent_value_was_put`): a read may see the list as it was at any of its steps, but
  it returns nothing a `put` did not write.
* A `get` started after a `put` of its key has returned never returns `None`, however the
  `put`s that run meanwhile interleave with it (`get_after_put_returned_never_none`). The
  search keeps standing below its key on its level, and a node holding the key stays on level
  0, so the loop cannot reach the end of level 0 or a larger key before it.
* At any point of any interleaving, a `get` that then runs alone returns within
  `height * (nodes + 2) + 3` of its steps (`get_alone_returns`): `get` is obstruction-free.

| here | there |
| --- | --- |
| `GetThread.step` | `SkipList::get` (mod.rs:456-465) over `find_near` (mod.rs:224-295), one atomic load a step |
| `RwSys.Step` | threads calling `put` and `get` on one `SkipList` |
-/

namespace Badger.Skl

/-! ## One load a step -/

/-- Where a `get` is: before the height load, in the loop of `find_near` at `x` on `level`,
at the load of a found node's value slot, returned, or past a tower. -/
inductive GetPc
  | start
  | search (x level : Nat)
  | load (n : Nat)
  | returned (r : Option ValueStruct)
  | fault
deriving DecidableEq, Repr

/-- A `get` of `key`. -/
structure GetThread where
  key : List UInt8
  pc : GetPc
deriving DecidableEq, Repr

/-- One atomic step of `get(key)`: `find_near(key, false, true)` loads the height and starts at
the head; a turn of its loop; the `get_value_offset` of the found node and `get_val`. -/
def GetThread.step (s : SkipList) (g : GetThread) : GetThread :=
  match g.pc with
  | .start => { g with pc := .search headOffset (s.height - 1) }
  | .search x level =>
    match s.getNext x level with
    | none => { g with pc := .fault }
    | some none => { g with pc := if 0 < level then .search x (level - 1) else .returned none }
    | some (some nx) =>
      match compareBytes g.key (s.keyOf nx) with
      | .gt => { g with pc := .search nx level }
      | .eq => { g with pc := .load nx }
      | .lt => { g with pc := if 0 < level then .search x (level - 1) else .returned none }
  | .load n =>
    match s.getNode n with
    | none => { g with pc := .fault }
    | some nd =>
      { g with pc := .returned (some (s.getVal (decodeValue nd.value).1 (decodeValue nd.value).2)) }
  | .returned _ | .fault => g

@[simp] theorem GetThread.step_key (s : SkipList) (g : GetThread) : (g.step s).key = g.key := by
  unfold GetThread.step
  repeat' split
  all_goals rfl

/-- A `get` run alone for `fuel` steps. -/
def GetThread.run (s : SkipList) : Nat → GetThread → GetThread
  | 0, g => g
  | n + 1, g => GetThread.run s n (g.step s)

theorem GetThread.run_succ (s : SkipList) (n : Nat) (g : GetThread) :
    GetThread.run s (n + 1) g = GetThread.run s n (g.step s) := rfl

theorem GetThread.run_returned (s : SkipList) (key : List UInt8) (r : Option ValueStruct) :
    ∀ n, GetThread.run s n ⟨key, .returned r⟩ = ⟨key, .returned r⟩
  | 0 => rfl
  | n + 1 => GetThread.run_returned s key r n

/-- What `get` makes of the answer of `find_near` (mod.rs:457-463). -/
def getAnswer (s : SkipList) : Option Nat × Bool → Option ValueStruct
  | (node, found) =>
    if found then (node.bind s.getNode).map fun n =>
      s.getVal (decodeValue n.value).1 (decodeValue n.value).2
    else none

theorem SkipList.get_eq_map (s : SkipList) (key : List UInt8) (fuel : Nat) :
    s.get key fuel = (findNear s key false true fuel).map (getAnswer s) := by
  unfold SkipList.get
  congr 1

theorem getNode_of_getNext {s : SkipList} {o L m : Nat} (h : s.getNext o L = some (some m)) :
    ∃ nd, s.getNode m = some nd := by
  obtain ⟨m', -, he⟩ := Option.map_eq_some'.1 h
  split_ifs at he with hm
  cases he
  exact Option.isSome_iff_exists.1 hm

/-- **The loop, a turn a step.** When the loop of `find_near(key, false, true)` answers within
`fuel` turns, the `get` run alone returns what `get` makes of the answer within `fuel + 2`
steps. -/
theorem GetThread.run_search (s : SkipList) (key : List UInt8) :
    ∀ fuel x level r, findNearLoop s key false true fuel x level = some r →
      GetThread.run s (fuel + 2) ⟨key, .search x level⟩ = ⟨key, .returned (getAnswer s r)⟩
  | 0, _, _, _, h => by cases h
  | fuel + 1, x, level, r, h => by
    rw [GetThread.run_succ]
    unfold findNearLoop at h
    rcases hg : s.getNext x level with _ | _ | nx <;> simp only [hg] at h
    · cases h
    · by_cases hl : 0 < level
      · simpa [GetThread.step, hg, hl] using
          GetThread.run_search s key fuel x (level - 1) r (by simpa [hl] using h)
      · simp only [hl, if_false, Bool.not_false, if_true, Option.some.injEq] at h
        subst h
        simp [GetThread.step, hg, hl, getAnswer, GetThread.run_returned]
    · rcases hc : compareBytes key (s.keyOf nx) <;> simp only [hc] at h
      · by_cases hl : 0 < level
        · simpa [GetThread.step, hg, hc, hl] using
            GetThread.run_search s key fuel x (level - 1) r (by simpa [hl] using h)
        · simp only [hl, if_false, Bool.not_false, if_true, Option.some.injEq] at h
          subst h
          simp [GetThread.step, hg, hc, hl, getAnswer, GetThread.run_returned]
      · simp only [if_true, Option.some.injEq] at h
        subst h
        obtain ⟨nd, hnd⟩ := getNode_of_getNext hg
        simp [GetThread.step, hg, hc, hnd, getAnswer, GetThread.run, GetThread.run_returned]
      · simpa [GetThread.step, hg, hc] using GetThread.run_search s key fuel nx level r h

/-- **Run alone, the `get` of one load a step is `SkipList::get`.** On every well-formed list,
with fuel for the descent, `get(key)` taking one atomic load a step returns, within `fuel + 3`
steps, exactly what `SkipList::get` returns. -/
theorem get_thread_alone (s : SkipList) (hw : s.Wf) (key : List UInt8) (fuel : Nat)
    (hf : s.height * (s.nodes.length + 2) ≤ fuel) :
    ∃ r, s.get key fuel = some r ∧ GetThread.run s (fuel + 3) ⟨key, .start⟩ = ⟨key, .returned r⟩ := by
  obtain ⟨a, ha, -⟩ := findNear_nearSpec hw key false true hf
  exact ⟨getAnswer s a, by rw [SkipList.get_eq_map, ha]; rfl,
    GetThread.run_search s key fuel headOffset (s.height - 1) a ha⟩

/-- `get(b"b")` alone on the list of `put(b"b")` and `put(b"a")` returns the value of its `put`,
as `SkipList::get` does. -/
theorem get_thread_alone_two_puts :
    twoPuts.list.Wf ∧ twoPuts.list.height * (twoPuts.list.nodes.length + 2) ≤ 10 ∧
      GetThread.run twoPuts.list (10 + 3) ⟨[0x62], .start⟩ = ⟨[0x62], .returned (some ⟨[1], 0, 0, 0⟩)⟩ ∧
      ∃ r, twoPuts.list.get [0x62] 10 = some r ∧
        GetThread.run twoPuts.list (10 + 3) ⟨[0x62], .start⟩ = ⟨[0x62], .returned r⟩ :=
  ⟨twoPuts_wf, by decide, by decide, get_thread_alone _ twoPuts_wf _ _ (by decide)⟩

/-! ## A turn beside the `put`s -/

/-- A turn of the loop from a node of its level below `key`: it moves right to a node below
`key`, further right by key, it finds the node holding `key`, or it stands at a splice and steps down, or returns
`None` at level 0. -/
theorem GetThread.step_search_cases {s : SkipList} (hw : s.Wf) {key : List UInt8} {x level : Nat}
    (hl : level < maxHeight) (hb : Before s key level x) :
    (∃ nx, (⟨key, .search x level⟩ : GetThread).step s = ⟨key, .search nx level⟩ ∧
        Before s key level nx ∧ rank s x < rank s nx) ∨
      (∃ m, (⟨key, .search x level⟩ : GetThread).step s = ⟨key, .load m⟩ ∧ OnLevel s level m ∧
        m ≠ headOffset ∧ s.keyOf m = key) ∨
      ∃ nxt, (⟨key, .search x level⟩ : GetThread).step s =
        ⟨key, if 0 < level then .search x (level - 1) else .returned none⟩ ∧
        SpliceAt s key level x nxt := by
  obtain ⟨m, hm⟩ := hw.onLevel_nextOffset hb.1 hl
  have hg := hw.getNext_eq hm
  by_cases h0 : m = 0
  · subst h0
    exact .inr (.inr ⟨0, by simp [GetThread.step, hg], hb, hm, fun h => absurd rfl h⟩)
  have hon := hb.1.next hm h0
  rcases hc : compareBytes key (s.keyOf m)
  · exact .inr (.inr ⟨m, by simp [GetThread.step, hg, h0, hc], hb, hm, fun _ => hc⟩)
  · exact .inr (.inl ⟨m, by simp [GetThread.step, hg, h0, hc], hon, (hw.next_key hm h0).1,
      (compareBytes_eq_iff.1 hc).symm⟩)
  · exact .inl ⟨m, by simp [GetThread.step, hg, h0, hc], ⟨hon, .inr (compareBytes_gt_iff.1 hc)⟩,
      rank_lt_next hw hb.1 hm h0⟩

/-- What a `get` knows of the list: in the loop it stands on its level at a node below its key,
or at the head, below the height; at the load, the node holds its key on level 0; a value it
returned, with at most `2^32` values stored and values whose layout is shorter than `2^16`
bytes, was written by a `put` of its key; and it is never past a tower. -/
def GetThread.Inv (sys : Sys) (g : GetThread) : Prop :=
  match g.pc with
  | .start | .returned none => True
  | .search x level => Before sys.list g.key level x ∧ level < sys.list.height
  | .load n => HoldsKey sys.list g.key n
  | .returned (some w) =>
    sys.list.vals.length ≤ 2 ^ 32 → (∀ c ∈ sys.threads.map PutThread.call, c.2.encodedSize < 2 ^ 16) →
      (g.key, w) ∈ sys.threads.map PutThread.call
  | .fault => False

/-- A step of a `get` keeps what it knows. -/
theorem GetThread.Inv.step {sys : Sys} (hw : sys.list.Wf) (hs : sys.SlotsPut) {g : GetThread}
    (h : g.Inv sys) : (g.step sys.list).Inv sys := by
  rcases g with ⟨key, _ | ⟨x, level⟩ | n | _ | _⟩ <;> simp only [GetThread.Inv] at h
  · exact ⟨before_head _ _ _, by have := hw.height_pos; simp; omega⟩
  · obtain ⟨hb, hlt⟩ := h
    rcases GetThread.step_search_cases hw (by have := hw.height_le; omega) hb with
      ⟨nx, he, hnx, -⟩ | ⟨m, he, hm, hmh, hmk⟩ | ⟨nxt, he, -⟩ <;> rw [he]
    · exact ⟨hnx, hlt⟩
    · exact ⟨hw.onLevel_le (Nat.zero_le _) hm, hmh, hmk⟩
    · split_ifs
      · exact ⟨⟨hw.onLevel_le (Nat.sub_le _ _) hb.1, hb.2⟩, by omega⟩
      · trivial
  · obtain ⟨nd, hnd⟩ := hw.onLevel_getNode h.1
    have hm := fun hv hsz => (hs n nd hnd h.2.1).getVal hv hsz
    rw [← SkipList.keyOf_eq hnd, h.2.2] at hm
    simpa [GetThread.step, GetThread.Inv, hnd] using hm
  · exact h

/-- A step of the `put`s grows the stored values and keeps the calls made. -/
theorem Sys.Step.vals_le {Admit : List PutThread → List UInt8 → Prop} {a b : Sys}
    (hs : Sys.Step Admit a b) :
    a.list.vals.length ≤ b.list.vals.length ∧
      a.threads.map PutThread.call ⊆ b.threads.map PutThread.call := by
  cases hs with
  | spawn => exact ⟨le_rfl, by rw [List.map_append]; exact List.subset_append_left _ _⟩
  | run s pre post t draws =>
    refine ⟨?_, by simp [List.subset_def]⟩
    rcases PutThread.step_slots s t draws with he | ⟨h, he⟩ | ⟨o, -, he⟩
    · rw [he.1]
    · simp [he]
    · simp [he]

/-- A step of the `put`s keeps what a `get` knows. -/
theorem GetThread.Inv.frame {a b : Sys} (hi : a.Inv) (hs : Sys.Step ShortKeys a b) {g : GetThread}
    (h : g.Inv a) : g.Inv b := by
  have hl := hi.le_step hs
  rcases g with ⟨key, _ | ⟨x, level⟩ | n | (_ | w) | _⟩ <;> simp only [GetThread.Inv] at h ⊢
  · exact ⟨h.1.mono hi.wf hl, h.2.trans_le hl.height⟩
  · exact h.mono hi.wf hl
  · exact fun hv hsz => hs.vals_le.2 (h (hs.vals_le.1.trans hv) fun c hc => hsz c (hs.vals_le.2 hc))

/-! ## Every interleaving of `put`s and `get`s -/

/-- The `put`s, and the `get`s started beside them on the same list. -/
structure RwSys where
  sys : Sys
  gets : List GetThread

/-- A step: of the `put`s, a new `get`, or a step of `get` number `i`. -/
inductive RwSys.Step (Admit : List PutThread → List UInt8 → Prop) : RwSys → RwSys → Prop
  | put {a b : Sys} (gs : List GetThread) : Sys.Step Admit a b → RwSys.Step Admit ⟨a, gs⟩ ⟨b, gs⟩
  | spawn (sys : Sys) (gs : List GetThread) (key : List UInt8) :
      RwSys.Step Admit ⟨sys, gs⟩ ⟨sys, gs ++ [⟨key, .start⟩]⟩
  | get (sys : Sys) (gs : List GetThread) (i : Nat) (g : GetThread) :
      gs[i]? = some g → RwSys.Step Admit ⟨sys, gs⟩ ⟨sys, gs.set i (g.step sys.list)⟩

/-- The states reached from `SkipList::new` with nothing started. -/
inductive RwSys.Reachable (Admit : List PutThread → List UInt8 → Prop) : RwSys → Prop
  | init : RwSys.Reachable Admit ⟨⟨SkipList.new, []⟩, []⟩
  | step {a b : RwSys} : RwSys.Reachable Admit a → RwSys.Step Admit a b → RwSys.Reachable Admit b

section Rw
variable {Admit : List PutThread → List UInt8 → Prop}

theorem RwSys.Reachable.sys {r : RwSys} (h : r.Reachable Admit) : r.sys.Reachable Admit := by
  induction h with
  | init => exact .init
  | step _ hs ih =>
    cases hs with
    | put gs hs => exact .step ih hs
    | spawn | get => exact ih

theorem RwSys.Reachable.run {a b : RwSys} (ha : a.Reachable Admit)
    (hr : Relation.ReflTransGen (RwSys.Step Admit) a b) : b.Reachable Admit := by
  induction hr with
  | refl => exact ha
  | tail _ hs ih => exact .step ih hs

/-- One step of an interleaving: thread `k` of the `put`s with its draws, or `get` number `i`. -/
inductive RwEvent
  | put (k : Nat) (draws : List UInt32)
  | get (i : Nat)

def RwSys.runEvent (r : RwSys) : RwEvent → RwSys
  | .put k draws => ⟨r.sys.runThread k draws, r.gets⟩
  | .get i =>
    match r.gets[i]? with
    | none => r
    | some g => ⟨r.sys, r.gets.set i (g.step r.sys.list)⟩

/-- The steps of an interleaving, in order. -/
def RwSys.runSchedule (r : RwSys) : List RwEvent → RwSys
  | [] => r
  | e :: es => (r.runEvent e).runSchedule es

theorem RwSys.reflTransGen_runEvent (r : RwSys) :
    ∀ e, Relation.ReflTransGen (RwSys.Step Admit) r (r.runEvent e)
  | .put k draws => by
    obtain ⟨sys, gs⟩ := r
    show Relation.ReflTransGen (RwSys.Step Admit) _ ⟨sys.runThread k draws, gs⟩
    rcases Sys.runThread_step sys k draws with e | hs
    · rw [e]
    · exact .single (.put gs hs)
  | .get i => by
    cases hg : r.gets[i]? with
    | none => simp only [RwSys.runEvent, hg]; exact .refl
    | some g => simp only [RwSys.runEvent, hg]; exact .single (.get r.sys r.gets i g hg)

theorem RwSys.reflTransGen_runSchedule (r : RwSys) :
    ∀ es, Relation.ReflTransGen (RwSys.Step Admit) r (r.runSchedule es)
  | [] => .refl
  | e :: es => (r.reflTransGen_runEvent e).trans (RwSys.reflTransGen_runSchedule _ es)

end Rw

/-- Every `get` of the system knows what `GetThread.Inv` says. -/
def RwSys.Inv (r : RwSys) : Prop := ∀ g ∈ r.gets, g.Inv r.sys

theorem RwSys.Inv.reachable {r : RwSys} (h : r.Reachable ShortKeys) : r.Inv := by
  induction h with
  | init => intro g hg; cases hg
  | step ha hs ih =>
    have hsys := ha.sys
    cases hs with
    | put gs hs => exact fun g hg => (ih g hg).frame (Sys.Inv.reachable hsys) hs
    | spawn sys gs key =>
      exact List.forall_mem_append.2 ⟨ih, List.forall_mem_singleton.2 trivial⟩
    | get sys gs i g hg =>
      intro u hu
      rcases List.mem_or_eq_of_mem_set hu with hu | rfl
      · exact ih u hu
      · exact (ih g (List.getElem?_mem hg)).step (Sys.Inv.reachable hsys).wf
          (Sys.SlotsPut.reachable hsys)

/-- **A `get` beside the `put`s returns only what a `put` of its key wrote.** In every state
that `put`s of keys shorter than 2^16 bytes and `get`s reach from `SkipList::new`, under any
interleaving, no `get` has read past a tower, and a value a `get` of `key` has returned, with
at most `2^32` values stored and values whose layout is shorter than `2^16` bytes, is the value
of some `put(key, _)` started on the list. -/
theorem get_concurrent_value_was_put (r : RwSys) (h : r.Reachable ShortKeys) (g : GetThread)
    (hg : g ∈ r.gets) :
    g.pc ≠ .fault ∧ ∀ w, g.pc = .returned (some w) → r.sys.list.vals.length ≤ 2 ^ 32 →
      (∀ t ∈ r.sys.threads, t.value.encodedSize < 2 ^ 16) →
      ∃ t ∈ r.sys.threads, t.key = g.key ∧ t.value = w := by
  have hi := RwSys.Inv.reachable h g hg
  refine ⟨fun hf => by simp [GetThread.Inv, hf] at hi, fun w hw hv hsz => ?_⟩
  simp only [GetThread.Inv, hw] at hi
  obtain ⟨t, ht, he⟩ := List.mem_map.1 (hi hv (Sys.call_sizes hsz))
  exact ⟨t, ht, congrArg Prod.fst he, congrArg Prod.snd he⟩

/-- `get(b"a")` takes its first step, `put(b"a", v)` then runs to its end, and the `get`
finds the node and returns `v`. -/
theorem get_concurrent_value_was_put_overlap :
    let r := (⟨⟨SkipList.new, [PutThread.init [0x61] ⟨[1], 0, 0, 0⟩]⟩, [⟨[0x61], .start⟩]⟩ :
      RwSys).runSchedule (.get 0 :: List.replicate 8 (.put 0 []) ++ List.replicate 2 (.get 0))
    r.Reachable ShortKeys ∧ r.gets.map (·.pc) = [.returned (some ⟨[1], 0, 0, 0⟩)] ∧
      r.sys.list.vals.length ≤ 2 ^ 32 ∧ (∀ t ∈ r.sys.threads, t.value.encodedSize < 2 ^ 16) ∧
      ∀ g ∈ r.gets, g.pc ≠ .fault ∧ ∀ w, g.pc = .returned (some w) →
        r.sys.list.vals.length ≤ 2 ^ 32 → (∀ t ∈ r.sys.threads, t.value.encodedSize < 2 ^ 16) →
          ∃ t ∈ r.sys.threads, t.key = g.key ∧ t.value = w :=
  have h0 : RwSys.Reachable ShortKeys
      ⟨⟨SkipList.new, [PutThread.init [0x61] ⟨[1], 0, 0, 0⟩]⟩, [⟨[0x61], .start⟩]⟩ :=
    (RwSys.Reachable.init.step (.put [] (.spawn _ [] [0x61] _ (by decide)))).step (.spawn _ [] [0x61])
  have h := h0.run (RwSys.reflTransGen_runSchedule _ _)
  ⟨h, by decide, by decide, by decide, fun g hg => get_concurrent_value_was_put _ h g hg⟩

/-! ## A returned `put` is never missed -/

/-- A step of a `get` whose key a node of level 0 holds does not return `None`: at level 0
the search stands below the key, and the end of the level or a larger key right after it
would put the key nowhere on the level. -/
theorem GetThread.step_ne_none {sys : Sys} (hw : sys.list.Wf) {g : GetThread} (h : g.Inv sys)
    (hpc : g.pc ≠ .returned none) {o : Nat} (ho : HoldsKey sys.list g.key o) :
    (g.step sys.list).pc ≠ .returned none := by
  rcases g with ⟨key, _ | ⟨x, level⟩ | n | _ | _⟩ <;> simp only [GetThread.Inv] at h
  · simp [GetThread.step]
  · obtain ⟨hb, hlt⟩ := h
    rcases GetThread.step_search_cases hw (by have := hw.height_le; omega) hb with
      ⟨nx, he, -⟩ | ⟨m, he, -⟩ | ⟨nxt, he, hsp⟩ <;> rw [he]
    · simp
    · simp
    · split_ifs with hl
      · simp
      · obtain rfl : level = 0 := by omega
        exact absurd ho.2.2 (hsp.absent hw o ho.1 ho.2.1)
  · obtain ⟨nd, hnd⟩ := hw.onLevel_getNode h.1
    simp [GetThread.step, hnd]
  · exact hpc

/-- Along a run from a state where a node of level 0 holds `key`, a `get` of `key` that has not
returned `None` never does, and a node still holds `key`. -/
theorem RwSys.never_none_run {a b : RwSys} (ha : a.Reachable ShortKeys)
    (hab : Relation.ReflTransGen (RwSys.Step ShortKeys) a b) {key : List UInt8} {o : Nat}
    (ho : HoldsKey a.sys.list key o) {i : Nat} {g : GetThread} (hg : a.gets[i]? = some g)
    (hk : g.key = key) (hpc : g.pc ≠ .returned none) :
    (∃ g', b.gets[i]? = some g' ∧ g'.key = key ∧ g'.pc ≠ .returned none) ∧
      ∃ o, HoldsKey b.sys.list key o := by
  induction hab with
  | refl => exact ⟨⟨g, hg, hk, hpc⟩, o, ho⟩
  | tail hab hs ih =>
    obtain ⟨⟨g', hg', hk', hpc'⟩, o', ho'⟩ := ih
    have hb := ha.run hab
    cases hs with
    | put gs hs =>
      have hi := Sys.Inv.reachable hb.sys
      exact ⟨⟨g', hg', hk', hpc'⟩, o', ho'.mono hi.wf (hi.le_step hs)⟩
    | spawn sys gs key' =>
      refine ⟨⟨g', ?_, hk', hpc'⟩, o', ho'⟩
      rw [List.getElem?_append_left (List.getElem?_eq_some_iff.1 hg').1]
      exact hg'
    | get sys gs j u hu =>
      refine ⟨?_, o', ho'⟩
      by_cases hji : j = i
      · subst hji
        obtain rfl : u = g' := Option.some.inj (hu.symm.trans hg')
        refine ⟨u.step sys.list, List.getElem?_set_self (List.getElem?_eq_some_iff.1 hu).1,
          by rw [GetThread.step_key, hk'], ?_⟩
        exact GetThread.step_ne_none (Sys.Inv.reachable hb.sys).wf
          (RwSys.Inv.reachable hb u (List.getElem?_mem hu)) hpc' (hk' ▸ ho')
      · exact ⟨g', by rw [List.getElem?_set_ne hji]; exact hg', hk', hpc'⟩

/-- **A `get` started after a `put` of its key returned never returns `None`.** In every state
that `put`s of keys shorter than 2^16 bytes and `get`s reach from `SkipList::new`: when a
`put(key, _)` has returned and `get(key)` number `i` has not started, then along every run of
further steps of `put`s and `get`s, in any interleaving, that `get` does not return `None`. -/
theorem get_after_put_returned_never_none (a b : RwSys) (ha : a.Reachable ShortKeys)
    (hab : Relation.ReflTransGen (RwSys.Step ShortKeys) a b) (t : PutThread) (ht : t ∈ a.sys.threads)
    (hd : t.pc = .done) (i : Nat) (g : GetThread) (hg : a.gets[i]? = some g) (hk : g.key = t.key)
    (hpc : g.pc = .start) :
    ∃ g', b.gets[i]? = some g' ∧ g'.key = t.key ∧ g'.pc ≠ .returned none := by
  have hl := Sys.Lands.reachable ha.sys t ht
  simp only [PutThread.Lands, hd] at hl
  obtain ⟨o, ho⟩ := hl
  exact (RwSys.never_none_run ha hab ho hg hk (by simp [hpc])).1

/-- `put(b"a", v)` returns; `get(b"a")` then takes its first step, `put(b"\x60")` links a node
in front of `b"a"`, and the `get` walks past it, finds `b"a"` and returns `v`. -/
theorem get_after_put_returned_never_none_overlap :
    let a := (⟨⟨SkipList.new, [PutThread.init [0x61] ⟨[1], 0, 0, 0⟩,
      PutThread.init [0x60] ⟨[2], 0, 0, 0⟩]⟩, [⟨[0x61], .start⟩]⟩ : RwSys).runSchedule
        (List.replicate 8 (.put 0 []))
    let b := a.runSchedule ([.get 0] ++ List.replicate 8 (.put 1 []) ++ List.replicate 3 (.get 0))
    a.Reachable ShortKeys ∧ Relation.ReflTransGen (RwSys.Step ShortKeys) a b ∧
      a.sys.threads.map (·.pc) = [.done, .start] ∧ a.gets[0]? = some ⟨[0x61], .start⟩ ∧
      b.gets.map (·.pc) = [.returned (some ⟨[1], 0, 0, 0⟩)] ∧
      ∀ t ∈ a.sys.threads, t.pc = .done → t.key = [0x61] →
        ∃ g', b.gets[0]? = some g' ∧ g'.key = t.key ∧ g'.pc ≠ .returned none :=
  have h0 : RwSys.Reachable ShortKeys ⟨⟨SkipList.new, [PutThread.init [0x61] ⟨[1], 0, 0, 0⟩,
      PutThread.init [0x60] ⟨[2], 0, 0, 0⟩]⟩, [⟨[0x61], .start⟩]⟩ :=
    ((RwSys.Reachable.init.step (.put [] (.spawn _ [] [0x61] _ (by decide)))).step
      (.put [] (.spawn _ _ [0x60] _ (by decide)))).step (.spawn _ [] [0x61])
  have ha := h0.run (RwSys.reflTransGen_runSchedule _ _)
  have hab := @RwSys.reflTransGen_runSchedule ShortKeys _ _
  ⟨ha, hab, by decide, by decide, by decide, fun t ht hd hk =>
    get_after_put_returned_never_none _ _ ha hab t ht hd 0 ⟨[0x61], .start⟩ (by decide) hk.symm rfl⟩

/-! ## A `get` alone returns -/

theorem GetThread.run_add (s : SkipList) :
    ∀ m n g, GetThread.run s (m + n) g = GetThread.run s n (GetThread.run s m g)
  | 0, n, g => by rw [Nat.zero_add]; rfl
  | m + 1, n, g => by rw [Nat.add_right_comm]; exact GetThread.run_add s m n (g.step s)

/-- From what it knows, a `get` run alone returns within `height * (nodes + 2) + 3` steps. -/
theorem GetThread.Inv.run_alone {sys : Sys} (hw : sys.list.Wf) {g : GetThread} (h : g.Inv sys) :
    ∃ r, GetThread.run sys.list (sys.list.height * (sys.list.nodes.length + 2) + 3) g =
      ⟨g.key, .returned r⟩ := by
  rcases g with ⟨key, _ | ⟨x, level⟩ | n | r | _⟩ <;> simp only [GetThread.Inv] at h
  · obtain ⟨a, ha, -⟩ := findNear_nearSpec hw key false true le_rfl
    exact ⟨_, GetThread.run_search sys.list key _ headOffset (sys.list.height - 1) a ha⟩
  · obtain ⟨hb, hlt⟩ := h
    obtain ⟨a, ha, -⟩ := findNearLoop_spec hw key false true
      (sys.list.height * (sys.list.nodes.length + 2)) x level ⟨hlt, hb.1, hb.2⟩ (by
        have := rank_le sys.list x
        have := Nat.mul_le_mul_right (sys.list.nodes.length + 2) (show level + 1 ≤ sys.list.height by omega)
        rw [Nat.succ_mul] at this
        omega)
    refine ⟨getAnswer sys.list a,
      (GetThread.run_add sys.list (sys.list.height * (sys.list.nodes.length + 2) + 2) 1 _).trans ?_⟩
    rw [GetThread.run_search sys.list key _ x level a ha]
    rfl
  · obtain ⟨nd, hnd⟩ := hw.onLevel_getNode h.1
    have hs : GetThread.step sys.list ⟨key, .load n⟩ =
        ⟨key, .returned (some (sys.list.getVal (decodeValue nd.value).1 (decodeValue nd.value).2))⟩ := by
      simp [GetThread.step, hnd]
    exact ⟨_, by rw [GetThread.run_succ, hs, GetThread.run_returned]⟩
  · exact ⟨r, GetThread.run_returned _ _ _ _⟩

/-- Steps of `get` number `i` alone: the list stays, and the `get` runs alone. -/
theorem RwSys.runSchedule_get :
    ∀ (n : Nat) (r : RwSys) (i : Nat) (g : GetThread), r.gets[i]? = some g →
      (r.runSchedule (List.replicate n (.get i))).sys = r.sys ∧
        (r.runSchedule (List.replicate n (.get i))).gets[i]? = some (GetThread.run r.sys.list n g)
  | 0, _, _, _, hg => ⟨rfl, hg⟩
  | n + 1, r, i, g, hg => by
    have e : r.runEvent (.get i) = ⟨r.sys, r.gets.set i (g.step r.sys.list)⟩ := by
      simp [RwSys.runEvent, hg]
    have hg' : (r.runEvent (.get i)).gets[i]? = some (g.step r.sys.list) := by
      rw [e]; exact List.getElem?_set_self (List.getElem?_eq_some_iff.1 hg).1
    have ih := RwSys.runSchedule_get n _ i _ hg'
    rw [List.replicate_succ, RwSys.runSchedule, e]
    rw [e] at ih
    exact ih

/-- **A `get` alone returns.** In every state that `put`s of keys shorter than 2^16 bytes and
`get`s reach from `SkipList::new`, under any interleaving, each `get` that then runs alone, the
other threads paused, returns within `height * (nodes + 2) + 3` of its steps: no `get` is left
in a state from which it cannot finish. -/
theorem get_alone_returns (r : RwSys) (h : r.Reachable ShortKeys) (i : Nat) (g : GetThread)
    (hg : r.gets[i]? = some g) :
    ∃ res, (r.runSchedule (List.replicate (r.sys.list.height * (r.sys.list.nodes.length + 2) + 3)
      (.get i))).gets[i]? = some ⟨g.key, .returned res⟩ := by
  obtain ⟨res, hres⟩ := (RwSys.Inv.reachable h g (List.getElem?_mem hg)).run_alone
    (Sys.Inv.reachable h.sys).wf
  exact ⟨res, by rw [(RwSys.runSchedule_get _ r i g hg).2, hres]⟩

/-- `get(b"a")` takes its first step while `put(b"a")` is paused before its tower store at
level 0; run alone, the `get` returns. -/
theorem get_alone_returns_mid_put :
    let r := (⟨⟨SkipList.new, [PutThread.init [0x61] ⟨[1], 0, 0, 0⟩]⟩, [⟨[0x61], .start⟩]⟩ :
      RwSys).runSchedule (.get 0 :: List.replicate 5 (.put 0 []))
    r.Reachable ShortKeys ∧ r.sys.threads.map (·.pc) = [.store 0] ∧
      r.gets[0]? = some ⟨[0x61], .search headOffset 0⟩ ∧
      ∃ res, (r.runSchedule (List.replicate (r.sys.list.height * (r.sys.list.nodes.length + 2) + 3)
        (.get 0))).gets[0]? = some ⟨[0x61], .returned res⟩ :=
  have h0 : RwSys.Reachable ShortKeys
      ⟨⟨SkipList.new, [PutThread.init [0x61] ⟨[1], 0, 0, 0⟩]⟩, [⟨[0x61], .start⟩]⟩ :=
    (RwSys.Reachable.init.step (.put [] (.spawn _ [] [0x61] _ (by decide)))).step (.spawn _ [] [0x61])
  have h := h0.run (RwSys.reflTransGen_runSchedule _ _)
  ⟨h, by decide, by decide, get_alone_returns _ h 0 ⟨[0x61], .search headOffset 0⟩ (by decide)⟩

end Badger.Skl
