import Mathlib.Tactic.Ring
import Mathlib.Data.BitVec

/-!
# The reference count of a `SkipList` (skl/mod.rs:155-197, 466-470)

`_ref: AtomicI32` starts at 1 in `SkipList::new`. `incr_ref` (called by `new_cursor`) adds 1,
and `decr_ref` (also called by `close`) subtracts 1 and resets the arena unless the count it
replaced was above 1. What this is for (`Held`): the list is held by some holders, each call is
made by one of them, a new cursor is a new holder, and the arena is given back once, when the
last holder lets go. The count refines it: along every sequence of calls the holders may make,
the `i32` count is the number of holders and the arena has been reset exactly once if none is
left, and never before (`decrRef_resets_once`).

The `i32` is why `Held` admits at most `2^31 - 1` holders: one more `incr_ref` wraps the count
to `i32::MIN`, and the next `decr_ref` resets the arena while every holder still holds it
(`incrRef_decrRef_wraps`).

| here | there |
| --- | --- |
| `RefCount` | `SkipList::_ref` (mod.rs:159, 176), with the `Arena::reset` calls counted |
| `RefCount.incrRef` | `SkipList::incr_ref` (mod.rs:181-183) |
| `RefCount.decrRef` | `SkipList::decr_ref` (mod.rs:186-192) |
| `RefCount.close` | `SkipList::close` (mod.rs:194-197) |
-/

namespace Badger.Skl

/-- The reference count of a `SkipList`, and how many times `Arena::reset` was called on its
arena. -/
structure RefCount where
  ref : BitVec 32
  resets : Nat
deriving DecidableEq, Repr

/-- `SkipList::new`: one reference, the arena never reset. -/
def RefCount.new : RefCount := ⟨1, 0⟩

/-- `incr_ref`: `fetch_add(1, SeqCst)`, which wraps. -/
def RefCount.incrRef (r : RefCount) : RefCount := { r with ref := r.ref + 1 }

/-- `decr_ref`: `fetch_sub(1, SeqCst)`; unless the count before was above 1 as an `i32`, the
arena is reset. -/
def RefCount.decrRef (r : RefCount) : RefCount :=
  let old := r.ref
  let r := { r with ref := old - 1 }
  if BitVec.slt 1 old then r else { r with resets := r.resets + 1 }

/-- `close`: `decr_ref`, and `Ok(())` always. -/
def RefCount.close (r : RefCount) : RefCount := r.decrRef

/-- The calls that change the count. -/
inductive RefCall
  | incrRef
  | decrRef
  | close
deriving DecidableEq, Repr

/-- One call; the atomics are `SeqCst`, so calls from any threads run one after another. -/
def RefCount.call (r : RefCount) : RefCall → RefCount
  | .incrRef => r.incrRef
  | .decrRef => r.decrRef
  | .close => r.close

/-- Calls one after another. -/
def RefCount.run (r : RefCount) (cs : List RefCall) : RefCount := cs.foldl RefCount.call r

/-! ## What the count is for -/

/-- The holders of a list: fewer than `2^31`, what an `i32` counts. -/
structure Held where
  holders : Nat
  lt : holders < 2 ^ 31

/-- The list as `SkipList::new` returns it: held once. -/
def Held.new : Held := ⟨1, by decide⟩

/-- A call by a holder: `incr_ref` adds a holder, `decr_ref` and `close` let one go. There is no
call once no holder is left, and no holder past `2^31 - 1`. -/
def Held.call (h : Held) : RefCall → Option Held
  | .incrRef =>
    if h.holders = 0 then none
    else if hl : h.holders + 1 < 2 ^ 31 then some ⟨h.holders + 1, hl⟩ else none
  | .decrRef | .close =>
    if h.holders = 0 then none else some ⟨h.holders - 1, by have := h.lt; omega⟩

/-- Calls by holders one after another; `none` if one of them is not a holder's. -/
def Held.run (h : Held) : List RefCall → Option Held
  | [] => some h
  | c :: cs => (h.call c).bind fun h' => h'.run cs

/-- The count is the number of holders, and the arena has been reset once if none is left, and
never before. -/
def RefCount.Refines (r : RefCount) (h : Held) : Prop :=
  r.ref.toInt = h.holders ∧ r.resets = if h.holders = 0 then 1 else 0

theorem toInt_eq_natCast_iff {x : BitVec 32} {n : Nat} (hn : n < 2 ^ 31) :
    x.toInt = n ↔ x.toNat = n := by
  rw [BitVec.toInt_eq_toNat_cond]
  have := x.isLt
  split <;> omega

/-- `decr_ref` by a holder: the arena is reset exactly when it was the last. -/
theorem RefCount.decrRef_of_toNat {r : RefCount} {n : Nat} (hr : r.ref.toNat = n) (h1 : 1 ≤ n)
    (hn : n < 2 ^ 31) :
    r.decrRef = ⟨r.ref - 1, if n = 1 then r.resets + 1 else r.resets⟩ := by
  have hslt : BitVec.slt 1 r.ref = decide (1 < n) := by
    have h1bv : (1 : BitVec 32).toNat = 1 := rfl
    rw [BitVec.slt, BitVec.toInt_eq_toNat_cond, BitVec.toInt_eq_toNat_cond, hr, h1bv,
      if_pos (by omega), if_pos (by omega)]
    simp only [decide_eq_decide]
    omega
  simp only [RefCount.decrRef, hslt, decide_eq_true_eq]
  split_ifs <;> first | rfl | omega

/-- **One call keeps the refinement.** -/
theorem RefCount.Refines.call {r : RefCount} {h h' : Held} (hr : r.Refines h) {c : RefCall}
    (hc : h.call c = some h') : (r.call c).Refines h' := by
  obtain ⟨href, hres⟩ := hr
  rw [toInt_eq_natCast_iff h.lt] at href
  cases c with
  | incrRef =>
    simp only [Held.call] at hc
    split_ifs at hc with h0 hl
    cases hc
    refine ⟨(toInt_eq_natCast_iff hl).2 ?_, by simp [RefCount.call, RefCount.incrRef, hres, h0]⟩
    simp only [RefCount.call, RefCount.incrRef]
    bv_omega
  | decrRef | close =>
    simp only [Held.call] at hc
    split_ifs at hc with h0
    cases hc
    simp only [RefCount.call, RefCount.close, RefCount.decrRef_of_toNat href (by omega) h.lt]
    refine ⟨(toInt_eq_natCast_iff (Held.lt _)).2 (by bv_omega), ?_⟩
    simp only [hres, if_neg h0]
    split_ifs <;> omega

/-- A run of calls by holders keeps the refinement. -/
theorem RefCount.Refines.run : ∀ (cs : List RefCall) {r : RefCount} {h h' : Held},
    r.Refines h → h.run cs = some h' → (r.run cs).Refines h'
  | [], _, _, _, hr, hh => by cases hh; exact hr
  | c :: cs, r, h, _, hr, hh => by
    obtain ⟨h1, hc, hrun⟩ := Option.bind_eq_some.1 hh
    exact RefCount.Refines.run cs (hr.call hc) hrun

/-- **The arena is reset once, when the last holder lets go.** Along every sequence of
`incr_ref`, `decr_ref` and `close` calls from `SkipList::new` in which each call is made by a
holder of the list and fewer than `2^31` holders hold it at once, the `i32` count is the number
of holders, and the arena has been reset exactly once if no holder is left and never while one
is. -/
theorem decrRef_resets_once (cs : List RefCall) (h : Held) (hh : Held.new.run cs = some h) :
    (RefCount.new.run cs).ref.toInt = h.holders ∧
      (RefCount.new.run cs).resets = if h.holders = 0 then 1 else 0 :=
  RefCount.Refines.run cs (show RefCount.new.Refines Held.new from ⟨by decide, rfl⟩) hh

/-- A cursor opened and closed around a `decr_ref` of the list, as in the test `t_empty`: the
arena is reset by the last call. -/
theorem decrRef_resets_once_cursor :
    Held.new.run [.incrRef, .decrRef, .close] = some ⟨0, by decide⟩ ∧
      (RefCount.new.run [.incrRef, .decrRef, .close]).ref.toInt = 0 ∧
      (RefCount.new.run [.incrRef, .decrRef, .close]).resets = if 0 = 0 then 1 else 0 :=
  ⟨rfl, decrRef_resets_once [.incrRef, .decrRef, .close] ⟨0, by decide⟩ rfl⟩

/-- Past `i32::MAX` the count wraps: with `2^31 - 1` holders, one more `incr_ref` and a
`decr_ref` reset the arena though every holder still holds it. -/
theorem incrRef_decrRef_wraps (r : RefCount) (hr : r.ref.toInt = 2 ^ 31 - 1) :
    r.incrRef.decrRef = ⟨r.ref, r.resets + 1⟩ := by
  have hn : r.ref.toNat = 2 ^ 31 - 1 :=
    (toInt_eq_natCast_iff (show 2 ^ 31 - 1 < 2 ^ 31 by decide)).1 hr
  have hslt : BitVec.slt 1 (r.ref + 1) = false := by
    rw [BitVec.slt, BitVec.toInt_eq_toNat_cond, BitVec.toInt_eq_toNat_cond, BitVec.toNat_add, hn]
    decide
  simp only [RefCount.decrRef, RefCount.incrRef]
  rw [hslt, if_neg Bool.false_ne_true, BitVec.add_sub_cancel]

end Badger.Skl
