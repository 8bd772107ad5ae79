import Badger.Skl.Put

/-!
# `put`s running at once

The system is the shared list and the `put`s started on it. A step starts a new `put`, or lets
one of them take its next atomic step (`PutThread.step`); a `put` that has returned, panicked
or read past a tower takes no more steps. Every order of these steps is an interleaving: the
source's atomics are `SeqCst`, or `Acquire` and `Release` on a single location, and each step
reads or writes one location. `Admit ts key` says which `put`s may start while `ts` have
started: with pairwise distinct keys (`DistinctKeys`), with any keys, or with keys short enough
for `key_size`.

| here | there |
| --- | --- |
| `Sys` | one `SkipList` shared by the threads calling `put` (skl/mod.rs:131-178, 334-337) |
| `Sys.Step.spawn` | a thread calls `SkipList::put` |
| `Sys.Step.run` | one atomic step of `SkipList::_put` (mod.rs:339-427) |
| `Sys.runSchedule` | a given interleaving, thread by thread |
-/

namespace Badger.Skl

/-- The shared list and the `put`s started on it. -/
structure Sys where
  list : SkipList
  threads : List PutThread

/-- One step of the system. -/
inductive Sys.Step (Admit : List PutThread → List UInt8 → Prop) : Sys → Sys → Prop
  | spawn (s : SkipList) (ts : List PutThread) (key : List UInt8) (v : ValueStruct) :
      Admit ts key → Sys.Step Admit ⟨s, ts⟩ ⟨s, ts ++ [PutThread.init key v]⟩
  | run (s : SkipList) (pre post : List PutThread) (t : PutThread) (draws : List UInt32) :
      Sys.Step Admit ⟨s, pre ++ t :: post⟩ ⟨(t.step s draws).1, pre ++ (t.step s draws).2 :: post⟩

/-- The states reached from `SkipList::new` with no `put` started. -/
inductive Sys.Reachable (Admit : List PutThread → List UInt8 → Prop) : Sys → Prop
  | init : Sys.Reachable Admit ⟨SkipList.new, []⟩
  | step {a b : Sys} : Sys.Reachable Admit a → Sys.Step Admit a b → Sys.Reachable Admit b

/-- `put`s of pairwise distinct keys. -/
def DistinctKeys (ts : List PutThread) (key : List UInt8) : Prop := key ∉ ts.map (·.key)

instance (ts : List PutThread) (key : List UInt8) : Decidable (DistinctKeys ts key) :=
  inferInstanceAs (Decidable (_ ∉ _))

/-- `put`s of keys whose length `key_size`, a `u16`, holds. -/
def ShortKeys (_ : List PutThread) (key : List UInt8) : Prop := key.length < 2 ^ 16

instance (ts : List PutThread) (key : List UInt8) : Decidable (ShortKeys ts key) :=
  inferInstanceAs (Decidable (_ < _))

/-- Thread `k` takes a step, `draws` being what `random::<u32>()` returns to it. -/
def Sys.runThread (sys : Sys) (k : Nat) (draws : List UInt32) : Sys :=
  match sys.threads[k]? with
  | none => sys
  | some t => ⟨(t.step sys.list draws).1, sys.threads.set k (t.step sys.list draws).2⟩

/-- The steps of an interleaving, in order. -/
def Sys.runSchedule (sys : Sys) : List (Nat × List UInt32) → Sys
  | [] => sys
  | (k, draws) :: rest => (sys.runThread k draws).runSchedule rest

section Runs
variable {Admit : List PutThread → List UInt8 → Prop}

theorem Sys.Reachable.spawn {sys : Sys} (h : sys.Reachable Admit) {key : List UInt8}
    (ha : Admit sys.threads key) (v : ValueStruct) :
    Sys.Reachable Admit ⟨sys.list, sys.threads ++ [PutThread.init key v]⟩ :=
  .step h (.spawn sys.list sys.threads key v ha)

/-- Thread `k` is a `put` amid the others, and its step changes the list and it alone. -/
theorem Sys.runThread_split {sys : Sys} {k : Nat} {t : PutThread} (hk : sys.threads[k]? = some t)
    (draws : List UInt32) :
    ∃ pre post, sys.threads = pre ++ t :: post ∧
      sys.runThread k draws = ⟨(t.step sys.list draws).1, pre ++ (t.step sys.list draws).2 :: post⟩ := by
  obtain ⟨hlt, rfl⟩ := List.getElem?_eq_some_iff.1 hk
  refine ⟨sys.threads.take k, sys.threads.drop (k + 1), ?_, ?_⟩
  · conv_lhs => rw [← List.take_append_drop k sys.threads]
    rw [List.drop_eq_getElem_cons hlt]
  · simp only [Sys.runThread, hk]
    rw [List.set_eq_take_append_cons_drop, if_pos hlt]

/-- A step of thread `k` is a step of the system, or nothing when there is no thread `k`. -/
theorem Sys.runThread_step (sys : Sys) (k : Nat) (draws : List UInt32) :
    sys.runThread k draws = sys ∨ Sys.Step Admit sys (sys.runThread k draws) := by
  rcases hk : sys.threads[k]? with _ | t
  · exact .inl (by simp [Sys.runThread, hk])
  obtain ⟨pre, post, hsplit, e⟩ := Sys.runThread_split hk draws
  obtain ⟨s, ts⟩ := sys
  subst hsplit
  rw [e]
  exact .inr (.run s pre post t draws)

theorem Sys.Reachable.runThread {sys : Sys} (h : sys.Reachable Admit) (k : Nat) (draws : List UInt32) :
    (sys.runThread k draws).Reachable Admit :=
  (Sys.runThread_step sys k draws).elim (fun e => by rw [e]; exact h) (.step h)

theorem Sys.Reachable.runSchedule {sys : Sys} (h : sys.Reachable Admit) :
    ∀ sched, (sys.runSchedule sched).Reachable Admit
  | [] => h
  | (k, draws) :: rest => (h.runThread k draws).runSchedule rest

end Runs

/-- **Two `put`s of distinct keys on the empty list, and one of them panics.** `put(b"a")` and
`put(b"b")` both search level 0 and find the null link of the head. `a` links its node there.
The CAS of `b` then fails, and its search again from the head stops at `a`'s node, whose link
is null: the `next[i] = _next.unwrap()` after the failed CAS panics (skl/mod.rs:417-419). -/
theorem puts_distinct_keys_panic :
    ∃ sys, Sys.Reachable DistinctKeys sys ∧ sys.threads.map (·.pc) = [.done, .panicked] := by
  have h : Sys.Reachable DistinctKeys ⟨SkipList.new, [PutThread.init [0x61] default, PutThread.init [0x62] default]⟩ :=
    (Sys.Reachable.init.spawn (by decide) default).spawn (by decide) default
  exact ⟨_, h.runSchedule ([(0, []), (0, []), (1, []), (1, [])] ++ List.replicate 6 (0, []) ++
    List.replicate 7 (1, [])), by decide⟩

end Badger.Skl
