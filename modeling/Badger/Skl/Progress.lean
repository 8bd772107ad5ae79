import Badger.Skl.Sequential
import Badger.Skl.Towers

/-!
# A `put` running alone returns (skl/mod.rs:297-427)

`_put` has three loops that other threads can keep turning: the search of
`find_splice_for_level`, the height CAS loop, and the loop of each level of the second loop,
which searches again after every failed CAS. No lock is held, so a thread paused between two
atomic steps holds up no other; what is left to show is that the loops end once the other
threads hold still. From every state that interleaved `put`s reach, a `put` whose next steps are
all its own returns or panics within `(2 * MAX_HEIGHT + 3) * (nodes + 10)` of them, whatever
heights it draws, and never reads past a tower (`put_alone_finishes`).

Each turn of a search moves right on its level, so a search stops within the number of nodes
(`run_walk`). A search that stops finds the splice as the list has it, so the tower store and the
CAS after it succeed (`within_store_fresh`), and each turn of the second loop links one more level
(`within_link`): a failed CAS costs one search again.

| here | there |
| --- | --- |
| `PutThread.Ready` | what a `put` knows at each of its places: `Inv` and `Safe` |
| `PutThread.Within` | the `put` reaches a place within a number of its own steps |
| `within_descend` | the first loop (mod.rs:348-360) |
| `within_alloc`, `within_casHeight` | `Node::new` and the height CAS loop (mod.rs:363-380) |
| `within_link`, `within_links` | the second loop (mod.rs:384-426) |
| `within_research` | the search after a failed CAS (mod.rs:415-424) |
| `Sys.runSchedule_alone` | one thread of the system scheduled alone |
-/

namespace Badger.Skl

/-- What a `put` knows at its place: the list's invariant, its own and its key-free one, and a
key that `key_size` holds. -/
structure PutThread.Ready (s : SkipList) (t : PutThread) : Prop where
  wf : s.Wf
  inv : t.Inv s
  safe : t.Safe s
  key : t.key.length < 2 ^ 16

/-- The `put` reaches a place where `Q` holds within `B` of its own steps. -/
def PutThread.Within (t : PutThread) (draws : List UInt32) (B : Nat) (s : SkipList)
    (Q : SkipList → PutThread → Prop) : Prop :=
  ∃ k ≤ B, Q (PutThread.run draws k s t).1 (PutThread.run draws k s t).2

section Within
variable (draws : List UInt32)

theorem PutThread.Ready.step {s : SkipList} {t : PutThread} (h : t.Ready s) :
    (t.step s draws).2.Ready (t.step s draws).1 :=
  have hok := PutThread.stepOk h.wf h.inv h.key draws
  ⟨hok.wf, hok.inv, (PutThread.safeOk h.wf.shape h.safe draws).safe, hok.key ▸ h.key⟩

theorem PutThread.Ready.run : ∀ n {s : SkipList} {t : PutThread}, t.Ready s →
    (PutThread.run draws n s t).2.Ready (PutThread.run draws n s t).1
  | 0, _, _, h => h
  | n + 1, s, t, h => by
    by_cases hf : t.pc.Finished
    · rw [PutThread.run_finished draws hf]; exact h
    · rw [PutThread.run_succ draws hf]; exact PutThread.Ready.run n (h.step draws)

variable {draws} {s s' : SkipList} {t t' : PutThread} {B B' : Nat}
  {Q R : SkipList → PutThread → Prop}

theorem PutThread.Ready.of_run {k : Nat} (hr : t.Ready s)
    (hrun : PutThread.run draws k s t = (s', t')) : t'.Ready s' := by
  have h := hr.run draws k
  rw [hrun] at h
  exact h

theorem PutThread.Within.here (h : Q s t) : t.Within draws B s Q := ⟨0, Nat.zero_le _, h⟩

theorem PutThread.Within.mono (h : t.Within draws B s Q) (hB : B ≤ B')
    (hQ : ∀ s t, Q s t → R s t) : t.Within draws B' s R :=
  let ⟨k, hk, hq⟩ := h; ⟨k, hk.trans hB, hQ _ _ hq⟩

/-- A step of the `put`, then the rest. -/
theorem PutThread.Within.step (hf : ¬ t.pc.Finished)
    (h : (t.step s draws).2.Within draws B (t.step s draws).1 Q) : t.Within draws (B + 1) s Q :=
  let ⟨k, hk, hq⟩ := h
  ⟨k + 1, by omega, by rw [PutThread.run_succ draws hf]; exact hq⟩

/-- A step of the `put`, then the rest, knowing what the `put` knows after the step. -/
theorem PutThread.Within.next (hr : t.Ready s) (hf : ¬ t.pc.Finished)
    (h : (t.step s draws).2.Ready (t.step s draws).1 →
      (t.step s draws).2.Within draws B (t.step s draws).1 Q) : t.Within draws (B + 1) s Q :=
  .step hf (h (hr.step draws))

/-- Some steps of the `put`, then the rest. -/
theorem PutThread.Within.run {k : Nat} (hrun : PutThread.run draws k s t = (s', t'))
    (h : t'.Within draws B s' Q) : t.Within draws (k + B) s Q :=
  let ⟨k', hk', hq⟩ := h
  ⟨k + k', by omega, by rw [PutThread.run_add, hrun]; exact hq⟩

/-- Two stretches of the `put`, the second from wherever the first ends. -/
theorem PutThread.Within.bind (hr : t.Ready s) (h : t.Within draws B s Q)
    (h' : ∀ s' t', t'.Ready s' → Q s' t' → t'.Within draws B' s' R) :
    t.Within draws (B + B') s R :=
  let ⟨k, hk, hq⟩ := h
  let ⟨k', hk', hr'⟩ := h' _ _ (hr.run draws k) hq
  ⟨k + k', by omega, by rw [PutThread.run_add]; exact hr'⟩

/-- Within `B` steps the `put` has stopped. -/
theorem PutThread.Within.finished (h : t.Within draws B s fun _ t => t.pc.Finished) :
    (PutThread.run draws B s t).2.pc.Finished :=
  let ⟨k, hk, hq⟩ := h
  (PutThread.run_of_le draws (show PutThread.run draws k s t = ((PutThread.run draws k s t).1,
    (PutThread.run draws k s t).2) from rfl) hq hk) ▸ hq

end Within

theorem PutThread.step_finished {s : SkipList} {t : PutThread} (h : t.pc.Finished)
    (draws : List UInt32) : t.step s draws = (s, t) := by
  cases hpc : t.pc <;> simp only [PutPc.Finished, hpc] at h <;> simp [PutThread.step, hpc]

theorem SkipList.casNextOffset_cases {s s' : SkipList} {o L old v : Nat} {b : Bool}
    (h : s.casNextOffset o L old v = some (s', b)) :
    (b = true ∧ s' = s.setNext o L v) ∨ (b = false ∧ s' = s) := by
  obtain ⟨cur, -, hc⟩ := Option.map_eq_some'.1 h
  split_ifs at hc <;> cases hc
  exacts [.inl ⟨rfl, rfl⟩, .inr ⟨rfl, rfl⟩]

/-! ## The second loop -/

section Link
variable (draws : List UInt32) {s : SkipList} {t : PutThread}

/-- What a turn of the second loop at level `i` reaches: the `put` stopped, or the next level with
no node allocated. -/
def LinkedNext (s : SkipList) (i : Nat) (s' : SkipList) (t' : PutThread) : Prop :=
  t'.pc.Finished ∨ t'.pc = .link (i + 1) ∧ s'.nodes.length = s.nodes.length

/-- The tower store and the CAS of level `i` after a search that found the splice as the list has
it: the CAS succeeds. -/
theorem within_store_fresh {i : Nat} (hr : t.Ready s) (hpc : t.pc = .store i)
    (hpn : s.nextOffset (t.prevAt i) i = some (t.nextAt i)) :
    t.Within draws 2 s (LinkedNext s i) := by
  have hsafe := hr.safe
  simp only [PutThread.Safe, hpc] at hsafe
  obtain ⟨hl, hh, -, hp0⟩ := hsafe
  have hpx : t.prevAt i ≠ t.x := fun e => hh.not_onLevel le_rfl (e ▸ hl.prev i hp0)
  have hcas : (s.setNext t.x i (t.nextAt i)).casNextOffset (t.prevAt i) i (t.nextAt i) t.x =
      some ((s.setNext t.x i (t.nextAt i)).setNext (t.prevAt i) i t.x, true) := by
    simp [SkipList.casNextOffset, nextOffset_setNext_of_ne hh.x_ne_zero (fun h => hpx h.1), hpn]
  exact ⟨2, le_rfl, .inr (by simp [PutThread.run, PutThread.step, PutPc.Finished, hpc, hcas])⟩

/-- The splice a search of level `i` stopped at, recorded in `prev[i]` and `next[i]`. -/
theorem PutThread.Links.set_splice (hl : t.Links s) {i : Nat} (hi : i < maxHeight + 1)
    (y nxt : Nat) :
    ({ t with prev := t.prev.set i y, next := t.next.set i nxt } : PutThread).prevAt i = y ∧
      ({ t with prev := t.prev.set i y, next := t.next.set i nxt } : PutThread).nextAt i = nxt :=
  ⟨getD_set_self (by rw [hl.prev_length]; exact hi) y,
    getD_set_self (by rw [hl.next_length]; exact hi) nxt⟩

/-- A search of `_put` at level `i` (the first loop, from the head, or again after a failed CAS):
the turns that move right, then the turn that stops, at the node holding the key or at a
splice. -/
theorem within_search {i b : Nat} {P : Nat → PutPc} (hr : t.Ready s) (hpc : t.pc = P b)
    (hP : ∀ b nx, spliceStep s t.key b i = some (.inl nx) →
      (t.goto (P b)).step s draws = (s, t.goto (P nx)))
    (hfin : ∀ b, ¬ (P b).Finished) (hi : i < maxHeight) (hb : Before s t.key i b) (B : Nat)
    {Q : SkipList → PutThread → Prop}
    (hfound : ∀ y m, (t.goto (P y)).Ready s → spliceStep s t.key y i = some (.inr (m, m)) →
      m ≠ 0 → (t.goto (P y)).Within draws B s Q)
    (hsplice : ∀ y nxt, (t.goto (P y)).Ready s →
      spliceStep s t.key y i = some (.inr (y, nxt)) → SpliceAt s t.key i y nxt →
      (t.goto (P y)).Within draws B s Q) :
    t.Within draws (s.nodes.length + 1 + B) s Q := by
  have := rank_le s b
  obtain ⟨k, hk, y, hrun, -, hstop⟩ :=
    run_walk hr.wf draws t hi hP hfin (s.nodes.length + 2) b hb (by omega)
  rw [← hpc, PutThread.goto_self] at hrun
  have hr' := hr.of_run hrun
  suffices h : (t.goto (P y)).Within draws B s Q from
    (PutThread.Within.run hrun h).mono (by omega) fun _ _ => id
  rcases hstop with ⟨m, hs, hm0, -⟩ | ⟨nxt, hs, hsp⟩
  exacts [hfound y m hr' hs hm0, hsplice y nxt hr' hs hsp]

/-- The top of the loop of level `i` with the list's splice in `prev[i]` and `next[i]`: the tower
store and the CAS succeed. -/
theorem within_link_fresh {i : Nat} (hr : t.Ready s) (hpc : t.pc = .link i) (hit : i < t.height)
    (hp0 : t.prevAt i ≠ 0) (hpn : s.nextOffset (t.prevAt i) i = some (t.nextAt i)) :
    t.Within draws 3 s (LinkedNext s i) :=
  .next hr (by simp [hpc, PutPc.Finished]) fun hr' => by
    have hst : t.step s draws = (s, t.goto (.store i)) := by
      simp [PutThread.step, hpc, Nat.not_le.2 hit, hp0]
    simp only [hst] at hr' ⊢
    exact within_store_fresh draws hr' rfl hpn

/-- The turn of the search after a failed CAS that stops. -/
theorem PutThread.step_research_stop {i b pre nxt : Nat}
    (hs : spliceStep s t.key b i = some (.inr (pre, nxt))) :
    (t.goto (.research i b)).step s draws =
      (s, let t := { t with prev := t.prev.set i pre, next := t.next.set i nxt }
        if nxt = 0 then t.goto .panicked
        else if pre = nxt then (if i = 0 then t.goto (.setValue pre) else t.goto .panicked)
        else t.goto (.link i)) := by
  simp only [PutThread.step, PutThread.goto_pc, PutThread.goto_key, hs]
  rfl

/-- The turn of the search from the head that stops. -/
theorem PutThread.step_fromHead_stop {i b pre nxt : Nat}
    (hs : spliceStep s t.key b i = some (.inr (pre, nxt))) :
    (t.goto (.fromHead i b)).step s draws =
      (s, let t := { t with prev := t.prev.set i pre, next := t.next.set i nxt }
        if nxt = 0 ∨ pre = nxt then t.goto .panicked else t.goto (.store i)) := by
  simp only [PutThread.step, PutThread.goto_pc, PutThread.goto_key, hs]
  rfl

/-- **The search after a failed CAS** (mod.rs:415-424), and what follows it: the splice it
stops at is the list's, so the tower store and the CAS of level `i` succeed; or it finds the key,
and the `put` stores the value at level 0 and panics above. -/
theorem within_research {i b : Nat} (hr : t.Ready s) (hpc : t.pc = .research i b) :
    t.Within draws (s.nodes.length + 5) s (LinkedNext s i) := by
  have hinv := hr.inv
  have hsafe := hr.safe
  simp only [PutThread.Inv, hpc] at hinv
  simp only [PutThread.Safe, hpc] at hsafe
  have hi : i < maxHeight := by have := (hinv.2.1.height_bounds hr.wf).2; omega
  refine (within_search draws hr hpc (fun b nx hs => by simp [PutThread.step, hs])
    (fun _ => by simp [PutPc.Finished]) hi hinv.2.2.2 4 (fun y m hr1 hs hm0 => ?_)
    (fun y nxt hr1 hs hsp => ?_)).mono (by omega) fun _ _ => id
  · refine .next hr1 (by simp [PutPc.Finished]) fun _ => ?_
    rw [PutThread.step_research_stop draws hs]
    simp only [if_neg hm0, if_true]
    split_ifs
    · exact .step (by simp [PutPc.Finished])
        (.here (.inl (by simp [PutThread.step, PutPc.Finished])))
    · exact .here (.inl (by simp [PutPc.Finished]))
  · refine .next hr1 (by simp [PutPc.Finished]) fun hr' => ?_
    rw [PutThread.step_research_stop draws hs] at hr' ⊢
    by_cases h0 : nxt = 0
    · simp only [if_pos h0]
      exact .here (.inl (by simp [PutPc.Finished]))
    simp only [if_neg h0, if_neg (hsp.ne hr.wf h0)] at hr' ⊢
    obtain ⟨hpy, hpn⟩ := hsafe.1.set_splice (show i < maxHeight + 1 by omega) y nxt
    exact (within_link_fresh draws hr' rfl hinv.2.2.1 (by simpa [hpy] using hsp.1.1.ne_zero)
      (by simpa [hpy, hpn] using hsp.2.1)).mono (by omega) fun _ _ => id

/-- **The search from the head** past the old list height (mod.rs:391-398): it panics on the
key or on a null link, and else the tower store and the CAS of level `i` succeed. -/
theorem within_fromHead {i b : Nat} (hr : t.Ready s) (hpc : t.pc = .fromHead i b) :
    t.Within draws (s.nodes.length + 4) s (LinkedNext s i) := by
  have hinv := hr.inv
  have hsafe := hr.safe
  simp only [PutThread.Inv, hpc] at hinv
  simp only [PutThread.Safe, hpc] at hsafe
  have hi : i < maxHeight := by have := (hinv.2.1.height_bounds hr.wf).2; omega
  refine within_search draws hr hpc (fun b nx hs => by simp [PutThread.step, hs])
    (fun _ => by simp [PutPc.Finished]) hi hinv.2.2.2 3 (fun y m hr1 hs _ => ?_)
    (fun y nxt hr1 hs hsp => ?_)
  · refine .next hr1 (by simp [PutPc.Finished]) fun _ => ?_
    rw [PutThread.step_fromHead_stop draws hs]
    exact .here (.inl (by simp [PutPc.Finished]))
  · refine .next hr1 (by simp [PutPc.Finished]) fun hr' => ?_
    rw [PutThread.step_fromHead_stop draws hs] at hr' ⊢
    by_cases h0 : nxt = 0
    · simp only [h0, true_or, if_true]
      exact .here (.inl (by simp [PutPc.Finished]))
    simp only [if_neg (not_or.2 ⟨h0, hsp.ne hr.wf h0⟩)] at hr' ⊢
    obtain ⟨hpy, hpn⟩ := hsafe.1.set_splice (show i < maxHeight + 1 by omega) y nxt
    exact within_store_fresh draws hr' rfl (by simpa [hpy, hpn] using hsp.2.1)

/-- **The CAS of level `i`** (mod.rs:402-413): it links the node, or it fails and the search
again finds the splice as the list has it. -/
theorem within_cas {i : Nat} (hr : t.Ready s) (hpc : t.pc = .cas i) :
    t.Within draws (s.nodes.length + 6) s (LinkedNext s i) := by
  refine .next hr (by simp [hpc, PutPc.Finished]) fun hr' => ?_
  rcases hc : s.casNextOffset (t.prevAt i) i (t.nextAt i) t.x with _ | ⟨s', _ | _⟩
  · exact .here (.inl (by simp [PutThread.step, hpc, hc, PutPc.Finished]))
  · obtain ⟨-, hs'⟩ := (SkipList.casNextOffset_cases hc).resolve_left (by simp)
    rw [hs'] at hc
    have hst : t.step s draws = (s, t.goto (.research i (t.prevAt i))) := by
      simp [PutThread.step, hpc, hc]
    simp only [hst] at hr' ⊢
    exact within_research draws hr' rfl
  · obtain ⟨-, hs'⟩ := (SkipList.casNextOffset_cases hc).resolve_right (by simp)
    rw [hs'] at hc
    exact .here (.inr (by simp [PutThread.step, hpc, hc]))

/-- The tower store of level `i` (mod.rs:401), then the CAS. -/
theorem within_store {i : Nat} (hr : t.Ready s) (hpc : t.pc = .store i) :
    t.Within draws (s.nodes.length + 7) s (LinkedNext s i) := by
  refine .next hr (by simp [hpc, PutPc.Finished]) fun hr' => ?_
  have hst : t.step s draws = (s.setNext t.x i (t.nextAt i), t.goto (.cas i)) := by
    simp [PutThread.step, hpc]
  simp only [hst] at hr' ⊢
  exact (within_cas draws hr' rfl).mono (by simp) fun _ _ h => by simpa [LinkedNext] using h

/-- **A turn of the second loop at level `i`** (mod.rs:385-426): the `put` returns past its
height, panics on a null `prev[i]` at level 0 or 1, and else links level `i`. -/
theorem within_link {i : Nat} (hr : t.Ready s) (hpc : t.pc = .link i) :
    t.Within draws (s.nodes.length + 8) s (LinkedNext s i) := by
  refine .next hr (by simp [hpc, PutPc.Finished]) fun hr' => ?_
  by_cases hh : t.height ≤ i
  · exact .here (.inl (by simp [PutThread.step, hpc, hh, PutPc.Finished]))
  by_cases hp0 : t.prevAt i = 0
  · by_cases h1 : 1 < i
    · have hst : t.step s draws = (s, t.goto (.fromHead i headOffset)) := by
        simp [PutThread.step, hpc, hh, hp0, h1]
      simp only [hst] at hr' ⊢
      exact (within_fromHead draws hr' rfl).mono (by omega) fun _ _ => id
    · exact .here (.inl (by simp [PutThread.step, hpc, hh, hp0, h1, PutPc.Finished]))
  · have hst : t.step s draws = (s, t.goto (.store i)) := by simp [PutThread.step, hpc, hh, hp0]
    simp only [hst] at hr' ⊢
    exact within_store draws hr' rfl

/-- **The second loop** (mod.rs:384-426): from the top of level `i`, the `put` stops within
`(MAX_HEIGHT + 1 - i) * (nodes + 8)` of its steps. -/
theorem within_links : ∀ j {s : SkipList} {t : PutThread} {i : Nat}, t.Ready s →
    t.pc = .link i → maxHeight + 1 - i ≤ j →
    t.Within draws (j * (s.nodes.length + 8)) s fun _ t => t.pc.Finished
  | 0, s, t, i, hr, hpc, hj => by
    have hinv := hr.inv
    simp only [PutThread.Inv, hpc] at hinv
    have := (hinv.2.1.height_bounds hr.wf).2
    omega
  | j + 1, s, t, i, hr, hpc, hj => by
    rw [Nat.succ_mul, Nat.add_comm]
    refine (within_link draws hr hpc).bind hr fun s' t' hr' h => ?_
    rcases h with hf | ⟨hpc', hl⟩
    · exact .here hf
    · rw [← hl]
      exact within_links j hr' hpc' (by omega)

end Link

/-! ## The first loop and the allocation -/

section Descend
variable (draws : List UInt32) {s : SkipList} {t : PutThread}

/-- The turn of the first loop that stops. -/
theorem PutThread.step_descend_stop {i b pre nxt : Nat}
    (hs : spliceStep s t.key b i = some (.inr (pre, nxt))) :
    (t.goto (.descend i b)).step s draws =
      (s, if nxt ≠ 0 ∧ pre = nxt then
          (if t.prevAt i = 0 then t.goto .panicked else t.goto (.setValue (t.prevAt i)))
        else t.descended i pre nxt) := by
  simp only [PutThread.step, PutThread.goto_pc, PutThread.goto_key, hs, PutThread.goto_prevAt,
    PutThread.goto_goto, PutThread.descended_goto]
  split <;> rfl

/-- **One level of the first loop** (mod.rs:348-360): the `put` stops on finding the key, or it
moves on to the level below, or to the allocation after level 0, with the list as it was. -/
theorem within_descend_level {i b : Nat} (hr : t.Ready s) (hpc : t.pc = .descend i b) :
    t.Within draws (s.nodes.length + 3) s fun s' t' => t'.pc.Finished ∨
      s' = s ∧ (i = 0 ∧ t'.pc = .alloc ∨ ∃ b', 0 < i ∧ t'.pc = .descend (i - 1) b') := by
  have hinv := hr.inv
  have hsafe := hr.safe
  simp only [PutThread.Inv, hpc] at hinv
  simp only [PutThread.Safe, hpc] at hsafe
  refine within_search draws hr hpc (fun b nx hs => by simp [PutThread.step, hs])
    (fun _ => by simp [PutPc.Finished]) (by have := hr.wf.height_le; omega) hinv.2 2
    (fun y m hr1 hs hm0 => ?_) (fun y nxt hr1 hs hsp => ?_)
  · refine .next hr1 (by simp [PutPc.Finished]) fun _ => ?_
    rw [PutThread.step_descend_stop draws hs, if_pos ⟨hm0, rfl⟩]
    split_ifs
    · exact .here (.inl (by simp [PutPc.Finished]))
    · exact .step (by simp [PutPc.Finished])
        (.here (.inl (by simp [PutThread.step, PutPc.Finished])))
  · refine .next hr1 (by simp [PutPc.Finished]) fun _ => ?_
    rw [PutThread.step_descend_stop draws hs, if_neg (fun h => hsp.ne hr.wf h.1 h.2)]
    refine .here (.inr ⟨rfl, ?_⟩)
    simp only [PutThread.descended_pc]
    split_ifs with hi0
    · exact .inl ⟨hi0, rfl⟩
    · exact .inr ⟨y, Nat.pos_of_ne_zero hi0, rfl⟩

/-- **The first loop** (mod.rs:348-360): from level `i`, the `put` stops, or it reaches the
allocation within `(i + 1) * (nodes + 3)` of its steps with the list as it was. -/
theorem within_descend : ∀ i {s : SkipList} {t : PutThread} {b : Nat}, t.Ready s →
    t.pc = .descend i b →
    t.Within draws ((i + 1) * (s.nodes.length + 3)) s fun s' t' =>
      t'.pc.Finished ∨ s' = s ∧ t'.pc = .alloc
  | 0, _, _, _, hr, hpc => (within_descend_level draws hr hpc).mono (by omega) fun _ _ h =>
    h.imp_right fun ⟨e, h⟩ =>
      ⟨e, h.elim And.right fun ⟨_, h, _⟩ => absurd h (lt_irrefl 0)⟩
  | i + 1, s, t, b, hr, hpc => by
    rw [Nat.succ_mul, Nat.add_comm]
    refine (within_descend_level draws hr hpc).bind hr fun s' t' hr' h => ?_
    rcases h with hf | ⟨rfl, ⟨h0, -⟩ | ⟨b', -, hpc'⟩⟩
    · exact .here (.inl hf)
    · exact absurd h0 (Nat.succ_ne_zero i)
    · exact within_descend i hr' (by simpa using hpc')

theorem within_loadHeight (hpc : t.pc = .loadHeight) :
    t.Within draws 2 s fun s' t' => t'.pc = .link 0 ∧ s'.nodes.length = s.nodes.length := by
  by_cases hlt : s.height < t.height
  · exact ⟨2, le_rfl, by simp [PutThread.run, PutThread.step, PutPc.Finished, hpc, hlt]⟩
  · exact ⟨1, by omega, by simp [PutThread.run, PutThread.step, PutPc.Finished, hpc, hlt]⟩

/-- **The height CAS loop** (mod.rs:367-380): it succeeds, or it reads the height again and
the CAS after that succeeds. -/
theorem within_casHeight {lh : Nat} (hpc : t.pc = .casHeight lh) :
    t.Within draws 3 s fun s' t' => t'.pc = .link 0 ∧ s'.nodes.length = s.nodes.length := by
  by_cases he : s.height = lh
  · exact ⟨1, by omega, by simp [PutThread.run, PutThread.step, PutPc.Finished, hpc, he]⟩
  · have hst : t.step s draws = (s, t.goto .loadHeight) := by simp [PutThread.step, hpc, he]
    refine .step (by simp [hpc, PutPc.Finished]) ?_
    simp only [hst]
    exact within_loadHeight draws rfl

@[simp] theorem Node.new_nodes_length (s : SkipList) (key : List UInt8) (v : ValueStruct)
    (h : Nat) :    (Node.new s key v h).1.nodes.length = s.nodes.length + 1 := by
  simp [Node.new, SkipList.putVal]

/-- `Node::new` and the height CAS loop (mod.rs:363-380). -/
theorem within_alloc (hpc : t.pc = .alloc) :
    t.Within draws 3 s fun s' t' => t'.pc = .link 0 ∧ s'.nodes.length = s.nodes.length + 1 := by
  obtain ⟨k, hk, hrun⟩ := @run_alloc s draws t hpc
  exact ⟨k, hk, by rw [hrun]; simp⟩

end Descend

/-! ## A `put` alone -/

section Alone
variable (draws : List UInt32) {s : SkipList} {t : PutThread}

/-- The second loop from its top at level 0, with at most one node more than the list had. -/
theorem within_after_link0 {B : Nat} (hr : t.Ready s)
    (h : t.Within draws B s fun s' t' =>
      t'.pc = .link 0 ∧ s'.nodes.length ≤ s.nodes.length + 1) :
    t.Within draws (B + (maxHeight + 1) * (s.nodes.length + 9)) s fun _ t => t.pc.Finished :=
  h.bind hr fun _ _ hr' ⟨hpc, hl⟩ =>
    (within_links draws (maxHeight + 1) hr' hpc (by omega)).mono
      (Nat.mul_le_mul_left _ (by omega)) fun _ _ => id

/-- The second loop from inside its turn at level `i`. -/
theorem within_after_level {B i : Nat} (hr : t.Ready s) (h : t.Within draws B s (LinkedNext s i)) :
    t.Within draws (B + (maxHeight + 1) * (s.nodes.length + 8)) s fun _ t => t.pc.Finished :=
  h.bind hr fun _ _ hr' h => h.elim (fun hf => .here hf) fun ⟨hpc, hl⟩ => by
    rw [← hl]
    exact within_links draws (maxHeight + 1) hr' hpc (by omega)

theorem within_from_alloc (hr : t.Ready s) (hpc : t.pc = .alloc) :
    t.Within draws (3 + (maxHeight + 1) * (s.nodes.length + 9)) s fun _ t => t.pc.Finished :=
  within_after_link0 draws hr ((within_alloc draws hpc).mono le_rfl fun _ _ h => ⟨h.1, h.2.le⟩)

theorem within_from_descend {i b : Nat} (hr : t.Ready s) (hpc : t.pc = .descend i b) :
    t.Within draws (maxHeight * (s.nodes.length + 3) + (3 + (maxHeight + 1) * (s.nodes.length + 9)))
      s fun _ t => t.pc.Finished := by
  have hsafe := hr.safe
  simp only [PutThread.Safe, hpc] at hsafe
  have hi : i + 1 ≤ maxHeight := by have := hr.wf.height_le; omega
  refine ((within_descend draws i hr hpc).mono (Nat.mul_le_mul_right _ hi) fun _ _ => id).bind hr
    fun _ _ hr' h => ?_
  rcases h with hf | ⟨rfl, hpc'⟩
  · exact .here hf
  · exact within_from_alloc draws hr' hpc'

/-- **A `put` alone stops**: from each of its places, with what it knows there, it returns,
panics or faults within `(2 * MAX_HEIGHT + 3) * (nodes + 10)` of its steps. -/
theorem within_finished (hr : t.Ready s) :
    t.Within draws ((2 * maxHeight + 3) * (s.nodes.length + 10)) s fun _ t => t.pc.Finished := by
  have hB : ∀ {B}, t.Within draws B s (fun _ t => t.pc.Finished) →
      B ≤ (2 * maxHeight + 3) * (s.nodes.length + 10) →
      t.Within draws ((2 * maxHeight + 3) * (s.nodes.length + 10)) s fun _ t => t.pc.Finished :=
    fun h hB => h.mono hB fun _ _ => id
  cases hpc : t.pc with
  | start =>
    have hst : (t.step s draws).1 = s ∧
        (t.step s draws).2.pc = .descend (s.height - 1) headOffset := by
      simp [PutThread.step, hpc, hr.wf.height_pos.ne']
    have h : t.Within draws (maxHeight * (s.nodes.length + 3) +
        (3 + (maxHeight + 1) * (s.nodes.length + 9)) + 1) s fun _ t => t.pc.Finished :=
      .next hr (by simp [hpc, PutPc.Finished]) fun hr' => by
        rw [hst.1] at hr' ⊢
        exact within_from_descend draws hr' hst.2
    exact hB h (by simp only [maxHeight]; omega)
  | descend i b =>
    exact hB (within_from_descend draws hr hpc) (by simp only [maxHeight]; omega)
  | alloc => exact hB (within_from_alloc draws hr hpc) (by simp only [maxHeight]; omega)
  | loadHeight =>
    exact hB (within_after_link0 draws hr ((within_loadHeight draws hpc).mono le_rfl
      fun _ _ h => ⟨h.1, by omega⟩))
      (by simp only [maxHeight]; omega)
  | casHeight lh =>
    exact hB (within_after_link0 draws hr ((within_casHeight draws hpc).mono le_rfl
      fun _ _ h => ⟨h.1, by omega⟩))
      (by simp only [maxHeight]; omega)
  | link i =>
    exact hB (within_links draws (maxHeight + 1) hr hpc (by omega))
      (by simp only [maxHeight]; omega)
  | fromHead i b =>
    exact hB (within_after_level draws hr (within_fromHead draws hr hpc))
      (by simp only [maxHeight]; omega)
  | store i =>
    exact hB (within_after_level draws hr (within_store draws hr hpc))
      (by simp only [maxHeight]; omega)
  | cas i =>
    exact hB (within_after_level draws hr (within_cas draws hr hpc))
      (by simp only [maxHeight]; omega)
  | research i b =>
    exact hB (within_after_level draws hr (within_research draws hr hpc))
      (by simp only [maxHeight]; omega)
  | setValue o =>
    have h : t.Within draws (0 + 1) s fun _ t => t.pc.Finished :=
      .step (by simp [hpc, PutPc.Finished]) (.here (by simp [PutThread.step, hpc, PutPc.Finished]))
    exact hB h (by simp only [maxHeight]; omega)
  | done | panicked | fault => exact .here (by simp [hpc, PutPc.Finished])

end Alone

/-! ## In the system -/

theorem Sys.Safe.reachable {Admit : List PutThread → List UInt8 → Prop} {sys : Sys}
    (h : sys.Reachable Admit) : sys.Safe := by
  induction h with
  | init => exact ⟨SkipList.wf_new.shape, by simp, by simp⟩
  | step _ hs ih => exact ih.step hs

/-- Steps of thread `k` alone: the `put` runs alone. -/
theorem Sys.runSchedule_alone (draws : List UInt32) (k : Nat) :
    ∀ (n : Nat) (sys : Sys) (t : PutThread), sys.threads[k]? = some t →
      (sys.runSchedule (List.replicate n (k, draws))).list =
          (PutThread.run draws n sys.list t).1 ∧
        (sys.runSchedule (List.replicate n (k, draws))).threads[k]? =
          some (PutThread.run draws n sys.list t).2
  | 0, _, _, hk => ⟨rfl, hk⟩
  | n + 1, sys, t, hk => by
    have e : sys.runThread k draws =
        ⟨(t.step sys.list draws).1, sys.threads.set k (t.step sys.list draws).2⟩ := by
      simp [Sys.runThread, hk]
    have ih := Sys.runSchedule_alone draws k n _ _
      (show (sys.runThread k draws).threads[k]? = some (t.step sys.list draws).2 by
        rw [e]; exact List.getElem?_set_self (List.getElem?_eq_some_iff.1 hk).1)
    rw [List.replicate_succ, Sys.runSchedule]
    rw [e] at ih ⊢
    by_cases hf : t.pc.Finished
    · simp only [PutThread.step_finished hf, PutThread.run_finished draws hf] at ih ⊢
      exact ih
    · rw [PutThread.run_succ draws hf]
      exact ih

/-- **A `put` alone returns or panics.** In every state that `put`s of keys shorter than 2^16
bytes reach from `SkipList::new` under any interleaving, a `put` that then runs alone, the others
paused, returns or panics within `(2 * MAX_HEIGHT + 3) * (nodes + 10)` of its steps, whatever
`random::<u32>()` returns to it: no loop of `_put` turns forever once the other threads hold
still, and the `put` does not read past a tower. -/
theorem put_alone_finishes (sys : Sys) (h : sys.Reachable ShortKeys) (k : Nat) (t : PutThread)
    (hk : sys.threads[k]? = some t) (draws : List UInt32) :
    ∃ t', (sys.runSchedule (List.replicate ((2 * maxHeight + 3) * (sys.list.nodes.length + 10))
      (k, draws))).threads[k]? = some t' ∧ (t'.pc = .done ∨ t'.pc = .panicked) := by
  have hinv := Sys.Inv.reachable h
  have hmem := List.getElem?_mem hk
  have hr : t.Ready sys.list :=
    ⟨hinv.wf, hinv.thread t hmem, (Sys.Safe.reachable h).thread t hmem, hinv.key t hmem⟩
  have hfin := (within_finished draws hr).finished
  obtain ⟨-, ht'⟩ := Sys.runSchedule_alone draws k _ sys t hk
  refine ⟨_, ht', ?_⟩
  have hne := ((Sys.Safe.reachable (h.runSchedule _)).thread _ (List.getElem?_mem ht')).pc_ne_fault
  revert hfin hne
  cases (PutThread.run draws _ sys.list t).2.pc <;> simp [PutPc.Finished]

/-- `put(b"b")` paused at its CAS of level 0 after `put(b"a")` linked its node there: the CAS is
stale, and `put(b"b")` run alone still stops. -/
theorem put_alone_finishes_stale_cas :
    let sys := (⟨SkipList.new, [PutThread.init [0x61] default, PutThread.init [0x62] default]⟩ :
      Sys).runSchedule ([(0, []), (0, []), (1, []), (1, [])] ++ List.replicate 4 (0, []) ++
        List.replicate 4 (1, []) ++ List.replicate 2 (0, []))
    sys.Reachable ShortKeys ∧ sys.threads.map (·.pc) = [.done, .cas 0] ∧
      ∃ t', (sys.runSchedule (List.replicate ((2 * maxHeight + 3) * (sys.list.nodes.length + 10))
        (1, []))).threads[1]? = some t' ∧ (t'.pc = .done ∨ t'.pc = .panicked) :=
  have h : Sys.Reachable ShortKeys ((⟨SkipList.new, [PutThread.init [0x61] default,
      PutThread.init [0x62] default]⟩ : Sys).runSchedule ([(0, []), (0, []), (1, []), (1, [])] ++
        List.replicate 4 (0, []) ++ List.replicate 4 (1, []) ++ List.replicate 2 (0, []))) :=
    ((Sys.Reachable.init.spawn (by decide) _).spawn (by decide) _).runSchedule _
  ⟨h, by decide, put_alone_finishes _ h 1 _ rfl []⟩

end Badger.Skl
