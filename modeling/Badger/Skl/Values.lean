import Badger.Skl.Sequential

/-!
# What `get` reads was written by a `put` of its key (skl/mod.rs:67-121, 339-427, 456-465)

A node's value slot is written in two places: by `Node::new` (mod.rs:67-84), with the offset of
the value the allocating `put` stored, and by `set_value` after a failed CAS (mod.rs:101-107,
420-424), with the offset of the value the setting `put` stored. Both `put`s hold the node's
key: the first allocated the node with it, the second found the node holding it
(`PutThread.Lands`). So under every interleaving of `put`s of keys shorter than 2^16 bytes,
every node's slot but the head's names, modulo 2^32, a stored value that a `put` of the node's
key was called with, with the `u16` size of its layout (`Sys.SlotsPut`). With at most 2^32
values stored the `u32` offset is exact, with layouts shorter than 2^16 bytes the size is, and:

* `get(key)` returns only a value some `put(key, _)` was called with: never a value of another
  key, and never one no `put` wrote (`get_value_was_put`);
* with pairwise distinct keys, once `put(key, v)` has returned, `get(key)` returns `v`
  (`get_after_put_returned_value`).

| here | there |
| --- | --- |
| `PutThread.step_slots` | the writes of `_put` to a slot or to the stored values: `Node::new` (mod.rs:365), `set_value` (mod.rs:422) |
| `Sys.SlotsPut` | the value slots of the nodes `_put` allocated |
| `get_value_was_put` | `SkipList::get` (mod.rs:456-465) under concurrent `put`s |
| `get_after_put_returned_value` | `SkipList::get` after `SkipList::put` has returned |
-/

namespace Badger.Skl

/-! ## What a step writes to the slots -/

/-- What a `put` was called with. -/
def PutThread.call (t : PutThread) : List UInt8 × ValueStruct := (t.key, t.value)

@[simp] theorem PutThread.descended_call (t : PutThread) (i p nxt : Nat) :
    (t.descended i p nxt).call = t.call := by
  simp [PutThread.call]

/-- A step of a `put` keeps its key and its value. -/
@[simp] theorem PutThread.step_call (s : SkipList) (t : PutThread) (draws : List UInt32) :
    (t.step s draws).2.call = t.call := by
  cases hpc : t.pc <;> simp only [PutThread.step, hpc] <;> repeat' split
  all_goals simp [PutThread.call, PutThread.goto]

/-- `s'` has the keys, the value slots and the stored values of `s`. -/
def SkipList.SameSlots (s s' : SkipList) : Prop :=
  s'.vals = s.vals ∧ ∀ q, (s'.getNode q).map Node.entry = (s.getNode q).map Node.entry

theorem SkipList.SameSlots.refl (s : SkipList) : s.SameSlots s := ⟨rfl, fun _ => rfl⟩

theorem SkipList.sameSlots_setNext (s : SkipList) (o L v : Nat) : s.SameSlots (s.setNext o L v) :=
  ⟨rfl, entry_setNext o L v⟩

theorem SkipList.sameSlots_cas {s s' : SkipList} {o L old val : Nat} {b : Bool}
    (h : s.casNextOffset o L old val = some (s', b)) : s.SameSlots s' := by
  obtain ⟨cur, -, hc⟩ := Option.map_eq_some'.1 h
  split_ifs at hc <;> cases hc
  · exact s.sameSlots_setNext o L val
  · exact .refl s

/-- **What a step writes to the slots.** A step of a `put` keeps every key, slot and stored
value, allocates its node, or sets the value of a node. -/
theorem PutThread.step_slots (s : SkipList) (t : PutThread) (draws : List UInt32) :
    s.SameSlots (t.step s draws).1 ∨ (∃ h, (t.step s draws).1 = (Node.new s t.key t.value h).1) ∨
      ∃ o, t.pc = .setValue o ∧ (t.step s draws).1 = s.setValue o t.value := by
  cases hpc : t.pc with
  | alloc => exact .inr (.inl ⟨randomHeight draws, by simp [PutThread.step, hpc]⟩)
  | setValue o => exact .inr (.inr ⟨o, rfl, by simp [PutThread.step, hpc]⟩)
  | store i => exact .inl (by simpa [PutThread.step, hpc] using s.sameSlots_setNext t.x i (t.nextAt i))
  | cas i =>
    refine .inl ?_
    simp only [PutThread.step, hpc]
    split
    · exact .refl s
    · next heq => exact SkipList.sameSlots_cas heq
    · next heq => exact SkipList.sameSlots_cas heq
  | casHeight lh =>
    refine .inl ?_
    simp only [PutThread.step, hpc]
    split_ifs
    exacts [⟨rfl, fun _ => rfl⟩, .refl s]
  | start | descend | loadHeight | link | fromHead | research | done | panicked | fault =>
    refine .inl ?_
    simp only [PutThread.step, hpc]
    repeat' split
    all_goals exact .refl s

@[simp] theorem Node.new_vals (s : SkipList) (key : List UInt8) (v : ValueStruct) (h : Nat) :
    (Node.new s key v h).1.vals = s.vals ++ [v] := rfl

@[simp] theorem SkipList.setValue_vals (s : SkipList) (o : Nat) (v : ValueStruct) :
    (s.setValue o v).vals = s.vals ++ [v] := rfl

/-! ## Slots that name a value a `put` of the key wrote -/

/-- Node `n`'s value slot names, modulo `2^32`, a value stored in `s` that one of `calls` wrote
under the node's key, with the `u16` size `set_value` packs for it. -/
def SlotPut (s : SkipList) (calls : List (List UInt8 × ValueStruct)) (n : Node) : Prop :=
  ∃ i w, (decodeValue n.value).1.toNat = i % 2 ^ 32 ∧ (decodeValue n.value).2 = UInt16.ofNat w.encodedSize ∧
    s.vals[i]? = some w ∧ (n.key, w) ∈ calls

section SlotPut
variable {s s' : SkipList} {calls : List (List UInt8 × ValueStruct)} {n : Node}

theorem SlotPut.mono (h : SlotPut s calls n) {calls'} (hc : calls ⊆ calls') : SlotPut s calls' n :=
  let ⟨i, w, ho, hs, hw, hm⟩ := h
  ⟨i, w, ho, hs, hw, hc hm⟩

/-- A slot keeps naming its value when more values are stored. -/
theorem SlotPut.append (h : SlotPut s calls n) {v : ValueStruct} (hv : s'.vals = s.vals ++ [v]) :
    SlotPut s' calls n :=
  let ⟨i, w, ho, hs, hw, hm⟩ := h
  ⟨i, w, ho, hs, by rw [hv, List.getElem?_append_left (List.getElem?_eq_some_iff.1 hw).1, hw], hm⟩

theorem SlotPut.of_entry (h : SlotPut s calls n) {n' : Node} (he : n'.entry = n.entry)
    (hv : s'.vals = s.vals) : SlotPut s' calls n' := by
  simp only [Node.entry, Prod.mk.injEq] at he
  obtain ⟨i, w, ho, hs, hw, hm⟩ := h
  exact ⟨i, w, he.2 ▸ ho, he.2 ▸ hs, hv ▸ hw, he.1 ▸ hm⟩

/-- The slot of the value just stored, by `Node::new` or `set_value`, names it. -/
theorem slotPut_stored {v : ValueStruct} (hv : s'.vals = s.vals ++ [v])
    (hn : n.value = encodeValue (UInt32.ofNat s.vals.length) (UInt16.ofNat v.encodedSize))
    (hm : (n.key, v) ∈ calls) : SlotPut s' calls n :=
  ⟨s.vals.length, v, by rw [hn, decodeValue_encodeValue]; exact BitVec.toNat_ofNat _ 32,
    by rw [hn, decodeValue_encodeValue], by rw [hv, List.getElem?_concat_length], hm⟩

/-- With at most `2^32` values stored, and values whose layout is shorter than `2^16` bytes, `get`
reads through the slot the value it names. -/
theorem SlotPut.getVal (h : SlotPut s calls n) (hv : s.vals.length ≤ 2 ^ 32)
    (hsz : ∀ c ∈ calls, c.2.encodedSize < 2 ^ 16) :
    (n.key, s.getVal (decodeValue n.value).1 (decodeValue n.value).2) ∈ calls := by
  obtain ⟨i, w, ho, hs, hw, hm⟩ := h
  have hi : i < 2 ^ 32 := (List.getElem?_eq_some_iff.1 hw).1.trans_le hv
  have hoff : s.vals.getD (decodeValue n.value).1.toNat default = w := by
    rw [ho, Nat.mod_eq_of_lt hi, List.getD_eq_getElem?_getD, hw]
    rfl
  rwa [hs, SkipList.getVal_of_encodedSize_lt hoff (hsz _ hm)]

end SlotPut

/-! ## A step keeps the slots -/

/-- Every node's slot but the head's names a value one of `calls` wrote under its key. -/
def SkipList.SlotsPut (s : SkipList) (calls : List (List UInt8 × ValueStruct)) : Prop :=
  ∀ o n, s.getNode o = some n → o ≠ headOffset → SlotPut s calls n

section Step
variable {s : SkipList} {calls : List (List UInt8 × ValueStruct)}

theorem SkipList.SlotsPut.sameSlots (h : s.SlotsPut calls) {s' : SkipList} (hs : s.SameSlots s') :
    s'.SlotsPut calls := fun o n' hn' ho => by
  have he := hs.2 o
  rw [hn', Option.map_some', eq_comm] at he
  obtain ⟨n, hn, he⟩ := Option.map_eq_some'.1 he
  exact (h o n hn ho).of_entry he.symm hs.1

/-- The allocation of a node of key `t.key` and value `t.value`. -/
theorem SkipList.SlotsPut.new (h : s.SlotsPut calls) {t : PutThread} (hk : t.key.length < 2 ^ 16)
    (hc : t.call ∈ calls) (ht : Nat) : (Node.new s t.key t.value ht).1.SlotsPut calls := fun o n hn ho => by
  by_cases hx : o = s.nodes.length + 1
  · subst hx
    rw [getNode_new_eq, Option.some.injEq] at hn
    subst hn
    exact slotPut_stored rfl rfl (by rw [key_new hk]; exact hc)
  · rw [getNode_new_of_ne s _ _ _ hx] at hn
    exact (h o n hn ho).append rfl

/-- The `set_value` of a node holding `t.key`, to `t.value`. -/
theorem SkipList.SlotsPut.setValue (h : s.SlotsPut calls) {t : PutThread} {o' : Nat}
    (hl : HoldsKey s t.key o') (hc : t.call ∈ calls) : (s.setValue o' t.value).SlotsPut calls :=
  fun o n' hn' ho => by
  rw [getNode_setValue] at hn'
  obtain ⟨n, hn, rfl⟩ := Option.map_eq_some'.1 hn'
  split_ifs with he
  · have hoo : o' = o := by
      have := hl.1.ne_zero
      have : o ≠ 0 := fun e => by simp [e, SkipList.getNode] at hn
      omega
    subst hoo
    exact slotPut_stored rfl rfl
      (show (n.key, t.value) ∈ calls by rw [← SkipList.keyOf_eq hn, hl.2.2]; exact hc)
  · exact (h o n hn ho).append rfl

/-- **A step of a `put` keeps the slots naming values of its calls.** -/
theorem SkipList.SlotsPut.step (h : s.SlotsPut calls) {t : PutThread} (hk : t.key.length < 2 ^ 16)
    (hl : t.Lands s) (hc : t.call ∈ calls) (draws : List UInt32) :
    (t.step s draws).1.SlotsPut calls := by
  rcases PutThread.step_slots s t draws with hs | ⟨ht, hs⟩ | ⟨o, hpc, hs⟩
  · exact h.sameSlots hs
  · rw [hs]; exact h.new hk hc ht
  · simp only [PutThread.Lands, hpc] at hl
    rw [hs]; exact h.setValue hl hc

end Step

/-! ## Every interleaving -/

/-- Every node's slot but the head's names, modulo `2^32`, a stored value that a `put` of the
node's key was called with. -/
def Sys.SlotsPut (sys : Sys) : Prop := sys.list.SlotsPut (sys.threads.map PutThread.call)

theorem Sys.SlotsPut.step {a b : Sys} (hi : a.Inv) (hl : a.Lands) (h : a.SlotsPut)
    (hs : Sys.Step ShortKeys a b) : b.SlotsPut := by
  cases hs with
  | spawn s ts key v _ =>
    exact fun o n hn ho =>
      (h o n hn ho).mono (by rw [List.map_append]; exact List.subset_append_left _ _)
  | run s pre post t draws =>
    have hmem : t ∈ pre ++ t :: post := List.mem_append_cons_self
    have hcalls : (pre ++ (t.step s draws).2 :: post).map PutThread.call =
        (pre ++ t :: post).map PutThread.call := by simp
    unfold Sys.SlotsPut
    rw [hcalls]
    exact SkipList.SlotsPut.step h (hi.key t hmem) (hl t hmem) (List.mem_map_of_mem _ hmem) draws

theorem SkipList.slotsPut_new (calls : List (List UInt8 × ValueStruct)) : SkipList.new.SlotsPut calls
  | 0, _, hn, _ => by simp [SkipList.getNode] at hn
  | 1, _, _, ho => absurd rfl ho
  | o + 2, _, hn, _ => by simp [SkipList.getNode, SkipList.new, Node.new, SkipList.putVal] at hn

theorem Sys.SlotsPut.reachable {sys : Sys} (h : sys.Reachable ShortKeys) : sys.SlotsPut := by
  induction h with
  | init => exact SkipList.slotsPut_new _
  | step ha hs ih => exact ih.step (Sys.Inv.reachable ha) (Sys.Lands.reachable ha) hs

/-- The value `get` reads on a node holding `key`, when the slots name values of `calls`. -/
theorem SkipList.SlotsPut.get {s : SkipList} {calls : List (List UInt8 × ValueStruct)}
    (h : s.SlotsPut calls) (hw : s.Wf) (hv : s.vals.length ≤ 2 ^ 32)
    (hsz : ∀ c ∈ calls, c.2.encodedSize < 2 ^ 16) {key : List UInt8} {o : Nat}
    (ho : HoldsKey s key o) {fuel : Nat} (hf : s.height * (s.nodes.length + 2) ≤ fuel) :
    ∃ w, s.get key fuel = some (some w) ∧ (key, w) ∈ calls := by
  obtain ⟨n, hn⟩ := hw.onLevel_getNode ho.1
  have hm := (h o n hn ho.2.1).getVal hv hsz
  rw [← SkipList.keyOf_eq hn, ho.2.2] at hm
  exact ⟨_, by rw [get_eq_of_onLevel hw hf ho.1 ho.2.1 ho.2.2, hn, Option.map_some'], hm⟩

/-- The sizes of the values of the `put`s, as calls. -/
theorem Sys.call_sizes {sys : Sys} (hsz : ∀ t ∈ sys.threads, t.value.encodedSize < 2 ^ 16) :
    ∀ c ∈ sys.threads.map PutThread.call, c.2.encodedSize < 2 ^ 16 := by
  simpa [PutThread.call] using hsz

/-- **`get` returns only what a `put` of its key wrote.** In every state that `put`s of keys
shorter than 2^16 bytes reach from `SkipList::new`, under any interleaving, with at most `2^32`
values stored, values whose layout is shorter than `2^16` bytes and fuel for the descent: a
value `get(key)` returns is the value of some `put(key, _)` started on the list. This holds also
when several `put`s of `key` race and one sets its value on the node of another
(mod.rs:420-424). -/
theorem get_value_was_put (sys : Sys) (h : sys.Reachable ShortKeys)
    (hv : sys.list.vals.length ≤ 2 ^ 32) (hsz : ∀ t ∈ sys.threads, t.value.encodedSize < 2 ^ 16)
    (key : List UInt8) (fuel : Nat)
    (hf : sys.list.height * (sys.list.nodes.length + 2) ≤ fuel) (w : ValueStruct)
    (hg : sys.list.get key fuel = some (some w)) :
    ∃ t ∈ sys.threads, t.key = key ∧ t.value = w := by
  have hw := (Sys.Inv.reachable h).wf
  by_cases hex : ∃ o, HoldsKey sys.list key o
  · obtain ⟨o, ho⟩ := hex
    obtain ⟨w', hg', hm⟩ := (Sys.SlotsPut.reachable h).get hw hv (Sys.call_sizes hsz) ho hf
    obtain ⟨t, ht, he⟩ := List.mem_map.1 (Option.some.inj (Option.some.inj (hg.symm.trans hg')) ▸ hm)
    exact ⟨t, ht, congrArg Prod.fst he, congrArg Prod.snd he⟩
  · rw [get_eq_none hw hf fun n hn hnh hk => hex ⟨n, hn, hnh, hk⟩] at hg
    cases hg

/-- Two `put(b"k")`s race on the empty list: the second finds the node of the first after its
CAS fails, and sets its own value there; `get(b"k")` reads the second `put`'s value. -/
theorem get_value_was_put_race :
    let sys := (⟨SkipList.new, [PutThread.init [0x6b] ⟨[1], 0, 0, 0⟩,
      PutThread.init [0x6b] ⟨[2], 0, 0, 0⟩]⟩ : Sys).runSchedule (List.replicate 3 (0, []) ++
        List.replicate 3 (1, []) ++ List.replicate 5 (0, []) ++ List.replicate 6 (1, []))
    Sys.Reachable ShortKeys sys ∧ sys.list.vals.length ≤ 2 ^ 32 ∧
      (∀ t ∈ sys.threads, t.value.encodedSize < 2 ^ 16) ∧
      sys.list.height * (sys.list.nodes.length + 2) ≤ 40 ∧
      sys.list.get [0x6b] 40 = some (some ⟨[2], 0, 0, 0⟩) ∧
      ∃ t ∈ sys.threads, t.key = [0x6b] ∧ t.value = ⟨[2], 0, 0, 0⟩ :=
  have h : Sys.Reachable ShortKeys ((⟨SkipList.new, [PutThread.init [0x6b] ⟨[1], 0, 0, 0⟩,
      PutThread.init [0x6b] ⟨[2], 0, 0, 0⟩]⟩ : Sys).runSchedule (List.replicate 3 (0, []) ++
        List.replicate 3 (1, []) ++ List.replicate 5 (0, []) ++ List.replicate 6 (1, []))) :=
    ((Sys.Reachable.init.spawn (by decide) _).spawn (by decide) _).runSchedule _
  ⟨h, by decide, by decide, by decide, by decide,
    get_value_was_put _ h (by decide) (by decide) _ 40 (by decide) _ (by decide)⟩

/-! ## Distinct keys -/

theorem Sys.Reachable.mono {A B : List PutThread → List UInt8 → Prop}
    (hAB : ∀ ts key, A ts key → B ts key) {sys : Sys} (h : sys.Reachable A) : sys.Reachable B := by
  induction h with
  | init => exact .init
  | step _ hs ih =>
    cases hs with
    | spawn s ts key v ha => exact .step ih (.spawn s ts key v (hAB ts key ha))
    | run s pre post t draws => exact .step ih (.run s pre post t draws)

/-- Under `DistinctKeys` no two `put`s of the system have the same key. -/
theorem Sys.keys_nodup {Admit : List PutThread → List UInt8 → Prop}
    (hA : ∀ ts key, Admit ts key → DistinctKeys ts key) {sys : Sys} (h : sys.Reachable Admit) :
    (sys.threads.map PutThread.key).Nodup := by
  induction h with
  | init => exact List.nodup_nil
  | step _ hs ih =>
    cases hs with
    | spawn s ts key v ha =>
      rw [List.map_append, List.map_singleton, List.nodup_append]
      exact ⟨ih, List.nodup_singleton _, List.disjoint_singleton.2 (hA ts key ha)⟩
    | run s pre post t draws =>
      have hk : (t.step s draws).2.key = t.key := congrArg Prod.fst (PutThread.step_call s t draws)
      simpa [hk] using ih

/-- **With distinct keys, a returned `put` is read back exactly.** In every state that `put`s of
pairwise distinct keys shorter than 2^16 bytes reach from `SkipList::new`, under any
interleaving, with at most `2^32` values stored, values whose layout is shorter than `2^16` bytes
and fuel for the descent: once `put(key, v)` has returned, `get(key)` returns `v`. -/
theorem get_after_put_returned_value (sys : Sys)
    (h : sys.Reachable fun ts key => ShortKeys ts key ∧ DistinctKeys ts key)
    (hv : sys.list.vals.length ≤ 2 ^ 32) (hsz : ∀ t ∈ sys.threads, t.value.encodedSize < 2 ^ 16)
    (t : PutThread) (ht : t ∈ sys.threads) (hd : t.pc = .done)
    (fuel : Nat) (hf : sys.list.height * (sys.list.nodes.length + 2) ≤ fuel) :
    sys.list.get t.key fuel = some (some t.value) := by
  have hs : sys.Reachable ShortKeys := h.mono fun _ _ => And.left
  have hl := Sys.Lands.reachable hs t ht
  simp only [PutThread.Lands, hd] at hl
  obtain ⟨o, ho⟩ := hl
  obtain ⟨w, hg, hm⟩ := (Sys.SlotsPut.reachable hs).get (Sys.Inv.reachable hs).wf hv (Sys.call_sizes hsz) ho hf
  obtain ⟨u, hu, he⟩ := List.mem_map.1 hm
  have hut : u = t :=
    List.inj_on_of_nodup_map (Sys.keys_nodup (fun _ _ => And.right) h) hu ht (congrArg Prod.fst he)
  subst hut
  rw [hg, show w = u.value from (congrArg Prod.snd he).symm]

/-- `put(b"b")` and `put(b"a")` interleaved on the empty list: the CAS of `b"a"` fails once,
both return, and `get` reads each value back. -/
theorem get_after_put_returned_value_two :
    let sys := (⟨SkipList.new, [PutThread.init [0x62] ⟨[1], 0, 0, 0⟩,
      PutThread.init [0x61] ⟨[2], 0, 0, 0⟩]⟩ : Sys).runSchedule (List.replicate 3 (0, []) ++
        List.replicate 3 (1, []) ++ List.replicate 5 (0, []) ++ List.replicate 9 (1, []))
    Sys.Reachable (fun ts key => ShortKeys ts key ∧ DistinctKeys ts key) sys ∧
      sys.list.vals.length ≤ 2 ^ 32 ∧ (∀ t ∈ sys.threads, t.value.encodedSize < 2 ^ 16) ∧
      sys.threads.map (·.pc) = [.done, .done] ∧
      sys.list.height * (sys.list.nodes.length + 2) ≤ 40 ∧
      ∀ t ∈ sys.threads, t.pc = .done → sys.list.get t.key 40 = some (some t.value) :=
  have h : Sys.Reachable (fun ts key => ShortKeys ts key ∧ DistinctKeys ts key)
      ((⟨SkipList.new, [PutThread.init [0x62] ⟨[1], 0, 0, 0⟩,
        PutThread.init [0x61] ⟨[2], 0, 0, 0⟩]⟩ : Sys).runSchedule (List.replicate 3 (0, []) ++
          List.replicate 3 (1, []) ++ List.replicate 5 (0, []) ++ List.replicate 9 (1, []))) :=
    ((Sys.Reachable.init.spawn (by decide) _).spawn (by decide) _).runSchedule _
  ⟨h, by decide, by decide, by decide, by decide,
    fun t ht hd => get_after_put_returned_value _ h (by decide) (by decide) t ht hd 40 (by decide)⟩

end Badger.Skl
