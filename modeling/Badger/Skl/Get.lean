import Badger.Skl.Invariant

/-!
# `SkipList::get` against level 0 (skl/mod.rs:454-464)

`get` runs `find_near(key, false, true)`, which descends from the top level and only uses the
upper levels to skip ahead. On a well-formed list it answers what a scan of level 0 would: the
value decoded from the one level-0 node holding `key`, and `None` when no node of level 0 other
than the head holds it (`get_spec`). Level 0 holds each key at most once, as
its keys strictly increase, so "the" node is well defined.

`find_near` itself returns what its comment promises on every well-formed list
(`findNear_spec`, from `findNear_nearSpec`).

| here | there |
| --- | --- |
| `findNear_spec` | `SkipList::find_near` (mod.rs:224-295) |
| `get_spec` | `SkipList::get` (mod.rs:456-465) over `find_near` (mod.rs:224-295) |
-/

namespace Badger.Skl

/-- **`find_near`.** On a skiplist with the structural invariant, for every key and each `less`
and `allow_equal`, `find_near` ends within `height * (nodes + 2)` turns, with the leftmost
candidate of level 0 (the rightmost with `less`) other than the head, or `None`. -/
theorem findNear_spec (s : SkipList) (hw : s.Wf) (key : List UInt8) (less allowEqual : Bool)
    (fuel : Nat) (hf : s.height * (s.nodes.length + 2) ≤ fuel) :
    ∃ r, findNear s key less allowEqual fuel = some r ∧ NearSpec s key less allowEqual r :=
  findNear_nearSpec hw key less allowEqual hf

/-- On the list of `put(b"b")` and `put(b"a")`, `find_near(b"b", false, true)` descends from
`b"a"` on level 1 and returns the node of `b"b"`, found. -/
theorem findNear_two_puts :
    twoPuts.list.Wf ∧ twoPuts.list.height * (twoPuts.list.nodes.length + 2) ≤ 10 ∧
      findNear twoPuts.list [0x62] false true 10 = some (some 2, true) ∧
      ∃ r, findNear twoPuts.list [0x62] false true 10 = some r ∧
        NearSpec twoPuts.list [0x62] false true r :=
  ⟨twoPuts_wf, by decide, by decide, findNear_spec _ twoPuts_wf [0x62] false true 10 (by decide)⟩

section Get
variable {s : SkipList} (hw : s.Wf) {key : List UInt8} {fuel : Nat}
  (hf : s.height * (s.nodes.length + 2) ≤ fuel)
include hw hf

/-- `get` finds the node of level 0 holding `key` and decodes its value. -/
theorem get_eq_of_onLevel {n : Nat} (hn' : OnLevel s 0 n) (hnh' : n ≠ headOffset) (hk : s.keyOf n = key) :
    s.get key fuel = some ((s.getNode n).map fun nd =>
      s.getVal (decodeValue nd.value).1 (decodeValue nd.value).2) := by
  obtain ⟨⟨_ | m, found⟩, hr, hspec⟩ : ∃ r, findNear s key false true fuel = some r ∧
      NearSpec s key false true r := findNear_nearSpec hw key false true hf
  · exact absurd (.inr ⟨rfl, hk⟩) (hspec.2 n hn' hnh')
  · obtain ⟨hm, hmh, hc, hleft, hfound⟩ := hspec
    /- `n` is a candidate, so the leftmost candidate `m` is at or before it, and a node before
    `n` has a key below `key`, which no candidate has. -/
    have hmn : m = n := by
      by_contra hne
      have hlt : KeyLt (s.keyOf m) key :=
        hk ▸ hw.reach_keyLt_of_ne (hleft n hn' hnh' (.inr ⟨rfl, hk⟩)) hne hmh
      rcases candidate_false.1 hc with hc | ⟨-, hc⟩
      · exact hc.asymm hlt
      · exact hlt.ne hc
    subst hmn
    simp [SkipList.get, hr, hfound.2 hk]

/-- `get` of a key that no node of level 0 holds is `None`. -/
theorem get_eq_none (habs : ∀ n, OnLevel s 0 n → n ≠ headOffset → s.keyOf n ≠ key) :
    s.get key fuel = some none := by
  obtain ⟨⟨_ | m, found⟩, hr, hspec⟩ : ∃ r, findNear s key false true fuel = some r ∧
      NearSpec s key false true r := findNear_nearSpec hw key false true hf
  · simp [SkipList.get, hr, hspec.1]
  · have : found = false := by
      cases found
      · rfl
      · exact absurd (hspec.2.2.2.2.1 rfl) (habs m hspec.1 hspec.2.1)
    simp [SkipList.get, hr, this]

end Get

/-- **`get` agrees with level 0.** On a well-formed list, with fuel for the descent, `get(key)`
returns the value decoded from the node of level 0 whose key is `key`, and `None` when no node
of level 0 other than the head has that key. -/
theorem get_spec (s : SkipList) (hw : s.Wf) (key : List UInt8) (fuel : Nat)
    (hf : s.height * (s.nodes.length + 2) ≤ fuel) :
    (∀ n, OnLevel s 0 n → n ≠ headOffset → s.keyOf n = key →
      s.get key fuel = some ((s.getNode n).map fun nd =>
        s.getVal (decodeValue nd.value).1 (decodeValue nd.value).2)) ∧
    ((∀ n, OnLevel s 0 n → n ≠ headOffset → s.keyOf n ≠ key) → s.get key fuel = some none) :=
  ⟨fun _ hn hnh hk => get_eq_of_onLevel hw hf hn hnh hk, get_eq_none hw hf⟩

/-- On the list of `put(b"b")` and `put(b"a")`, `get(b"b")` reads the value of its `put`. -/
theorem get_spec_two_puts :
    twoPuts.list.Wf ∧ twoPuts.list.height * (twoPuts.list.nodes.length + 2) ≤ 10 ∧
      twoPuts.list.get [0x62] 10 = some (some ⟨[1], 0, 0, 0⟩) ∧
      ((∀ n, OnLevel twoPuts.list 0 n → n ≠ headOffset → twoPuts.list.keyOf n = [0x62] →
        twoPuts.list.get [0x62] 10 = some ((twoPuts.list.getNode n).map fun nd =>
          twoPuts.list.getVal (decodeValue nd.value).1 (decodeValue nd.value).2)) ∧
      ((∀ n, OnLevel twoPuts.list 0 n → n ≠ headOffset → twoPuts.list.keyOf n ≠ [0x62]) →
        twoPuts.list.get [0x62] 10 = some none)) :=
  ⟨twoPuts_wf, by decide, by decide, get_spec _ twoPuts_wf _ _ (by decide)⟩

end Badger.Skl
