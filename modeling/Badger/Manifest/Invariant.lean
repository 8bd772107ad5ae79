import Badger.Manifest.Basic

/-!
# Reachable manifests: level sets, counters, and batches that fail half-way

`Reachable` closes `Manifest::new` under successful `apply_manifest_change` calls (replay and
`add_changes` make no other changes to a manifest) and under the counter reset of
`ManifestFile::rewrite`.

* `Reachable.wf`: every live table lies in exactly one level set, no level set holds a dead id,
  and the level a `TableManifest` records is the low byte of that set's index: `CREATE` files the
  table under `tc.Level as usize` but records `tc.Level as u8` (manifest.rs:338-346), so a level
  of 256 or more is recorded as another one (`level_recorded_mod_256`).
* `Reachable.counters`: `DELETE` (manifest.rs:355-368) never adds to `deletions`, so after
  any delete `creations - deletions` is no longer the live count (`deletions_never_counted`).
* `applyManifestChanges_error_iff`: a batch stops at its first failing change and the manifest
  keeps the changes before it.
-/

namespace Badger

/-- The manifests a run of the manifest code can hold in memory. -/
inductive Reachable : Manifest → Prop
  | new : Reachable Manifest.new
  | apply {m m' : Manifest} (tc : ManifestChange) :
      Reachable m → applyManifestChange m tc = (m', .ok ()) → Reachable m'
  | rewrite {m : Manifest} : Reachable m → Reachable m.rewritten

/-- The level sets agree with `tables`. -/
structure Manifest.Wf (m : Manifest) : Prop where
  /-- An id lies in at most one level set. -/
  unique : ∀ id l l', id ∈ m.levelTables l → id ∈ m.levelTables l' → l = l'
  /-- An id in level set `l` is live, recorded at level `l as u8`. -/
  live : ∀ id l, id ∈ m.levelTables l → ∃ t, m.tables.lookup id = some t ∧ t.level = l.toUInt8
  /-- A live id lies in some level set. -/
  placed : ∀ id, id ∈ m.tables → ∃ l, id ∈ m.levelTables l

/-- The level sets as the spec states them: an id lies in level set `l` exactly when its
`TableManifest` records level `l`. -/
def Manifest.LevelsExact (m : Manifest) : Prop :=
  ∀ id l, id ∈ m.levelTables l ↔ ∃ t, m.tables.lookup id = some t ∧ t.level.toNat = l

section Step
variable {m m' : Manifest} {tc : ManifestChange}

theorem mem_levelTables_create
    (hl : ∀ l, m'.levelTables l =
      if tc.level.toNat = l then insert tc.id (m.levelTables l) else m.levelTables l)
    (id : UInt64) (l : Nat) :
    id ∈ m'.levelTables l ↔ (tc.level.toNat = l ∧ id = tc.id) ∨ id ∈ m.levelTables l := by
  rw [hl]; split_ifs <;> simp [*]

theorem mem_levelTables_delete
    (hl : ∀ l, m'.levelTables l =
      if tc.level.toNat = l then (m.levelTables l).erase tc.id else m.levelTables l)
    (id : UInt64) (l : Nat) :
    id ∈ m'.levelTables l ↔ id ∈ m.levelTables l ∧ ¬(tc.level.toNat = l ∧ id = tc.id) := by
  rw [hl]; split_ifs <;> simp [*, and_comm]

theorem Manifest.Wf.not_mem_levelTables (hw : m.Wf) {id : UInt64} (hid : id ∉ m.tables) (l : Nat) :
    id ∉ m.levelTables l := fun h =>
  let ⟨_, ht, _⟩ := hw.live id l h
  hid (AList.lookup_isSome.1 (by simp [ht]))

theorem Manifest.Wf.apply (hw : m.Wf) (h : applyManifestChange m tc = (m', .ok ())) : m'.Wf := by
  rcases applyManifestChange_ok h with ⟨-, hid, ht, hl, -⟩ | ⟨-, -, hin, ht, hl, -⟩
  · have hmem := mem_levelTables_create hl
    have fresh := hw.not_mem_levelTables hid
    refine ⟨fun id l l' h1 h2 => ?_, fun id l h1 => ?_, fun id h1 => ?_⟩
    · rw [hmem] at h1 h2
      rcases h1 with ⟨rfl, rfl⟩ | h1 <;> rcases h2 with ⟨rfl, h2⟩ | h2
      · rfl
      · exact absurd h2 (fresh _)
      · exact absurd h1 (h2 ▸ fresh _)
      · exact hw.unique id l l' h1 h2
    · rw [ht]
      rcases (hmem id l).1 h1 with ⟨rfl, rfl⟩ | h1
      · exact ⟨_, AList.lookup_insert _, rfl⟩
      · have hne : id ≠ tc.id := fun e => fresh l (e ▸ h1)
        rw [AList.lookup_insert_ne hne]
        exact hw.live id l h1
    · rw [ht, AList.mem_insert] at h1
      rcases h1 with rfl | h1
      · exact ⟨_, (hmem _ _).2 (.inl ⟨rfl, rfl⟩)⟩
      · obtain ⟨l, hl⟩ := hw.placed id h1
        exact ⟨l, (hmem _ _).2 (.inr hl)⟩
  · have hmem := mem_levelTables_delete hl
    refine ⟨fun id l l' h1 h2 => ?_, fun id l h1 => ?_, fun id h1 => ?_⟩
    · exact hw.unique id l l' ((hmem _ _).1 h1).1 ((hmem _ _).1 h2).1
    · obtain ⟨h1, hn⟩ := (hmem _ _).1 h1
      have hne : id ≠ tc.id := fun e => hn ⟨hw.unique _ _ _ hin (e ▸ h1), e⟩
      rw [ht, AList.lookup_erase_ne hne]
      exact hw.live id l h1
    · rw [ht, AList.mem_erase] at h1
      obtain ⟨l, hl'⟩ := hw.placed id h1.2
      exact ⟨l, (hmem _ _).2 ⟨hl', fun e => h1.1 e.2⟩⟩

end Step

/-- **Level sets.** In every reachable manifest, each live table lies in exactly one level set,
no level set holds a dead id, and the `TableManifest` of an id in level set `l` records `l` modulo
256. -/
theorem Reachable.wf {m : Manifest} (h : Reachable m) : m.Wf := by
  induction h with
  | new => exact ⟨by simp, by simp, by simp [Manifest.new]⟩
  | apply _ _ hs ih => exact ih.apply hs
  | rewrite _ ih => exact ⟨ih.unique, ih.live, ih.placed⟩

/-- The level sets after `CREATE(1, 256)`. -/
theorem wf_create_level_256 :
    ∃ m, applyManifestChange Manifest.new ⟨1, 0, 256⟩ = (m, .ok ()) ∧ Reachable m ∧ m.Wf :=
  have h := Reachable.apply ⟨1, 0, 256⟩ .new rfl
  ⟨_, rfl, h, Reachable.wf h⟩

/-- `CREATE(1, 256)` files table 1 in level set 256 and records its level as 0. -/
theorem level_recorded_mod_256 : ∃ m, Reachable m ∧ ¬ m.LevelsExact := by
  refine ⟨_, .apply ⟨1, 0, 256⟩ .new rfl, fun h => ?_⟩
  obtain ⟨t, ht, hl⟩ := (h 1 256).1 (by decide)
  cases Option.some.inj ((AList.lookup_insert _).symm.trans ht)
  exact absurd hl (by decide)

/-! ## Counters -/

/-- A change moves the live count and `creations` together, and leaves `deletions`. -/
theorem counters_apply {m m' : Manifest} {tc : ManifestChange}
    (h : applyManifestChange m tc = (m', .ok ())) :
    m'.deletions = m.deletions ∧
      ((m'.liveCount = m.liveCount + 1 ∧ m'.creations = m.creations + 1) ∨
       (m'.liveCount + 1 = m.liveCount ∧ m'.creations = m.creations)) := by
  rcases applyManifestChange_ok h with ⟨-, hid, ht, -, hc, hd⟩ | ⟨-, hid, -, ht, -, hc, hd⟩
  · refine ⟨hd, .inl ⟨?_, hc⟩⟩
    rw [Manifest.liveCount, Manifest.liveCount, ht, AList.insert_entries_of_neg hid]; rfl
  · obtain ⟨b, l₁, l₂, -, he, hk⟩ := List.exists_of_kerase (show tc.id ∈ m.tables.entries.keys from hid)
    refine ⟨hd, .inr ⟨?_, hc⟩⟩
    rw [Manifest.liveCount, Manifest.liveCount, ht]
    show (m.tables.entries.kerase tc.id).length + 1 = m.tables.entries.length
    rw [hk, he]
    simp only [List.length_append, List.length_cons]
    omega

/-- **Counters.** `deletions` stays 0 in every reachable manifest, and `creations` counts every
`CREATE` since the last rewrite, so it is at least the live count. -/
theorem Reachable.counters {m : Manifest} (h : Reachable m) :
    m.deletions = 0 ∧ m.liveCount ≤ m.creations := by
  induction h with
  | new => exact ⟨rfl, Nat.le_refl _⟩
  | apply _ _ hs ih =>
    obtain ⟨hd, ⟨hl, hc⟩ | ⟨hl, hc⟩⟩ := counters_apply hs <;> exact ⟨hd ▸ ih.1, by omega⟩
  | rewrite _ _ => exact ⟨rfl, Nat.le_refl _⟩

/-- `add_changes` after `CREATE(1, 0)` and `DELETE(1, 0)`: one creation, no deletion, no live
table. -/
theorem deletions_never_counted :
    let r := applyManifestChanges Manifest.new [⟨1, 0, 0⟩, ⟨1, 1, 0⟩]
    r.2 = .ok () ∧ r.1.creations - r.1.deletions = 1 ∧ r.1.liveCount = 0 := by
  refine ⟨rfl, ?_, ?_⟩ <;> decide

/-! ## Batches -/

theorem applyManifestChanges_append (m : Manifest) (xs ys : List ManifestChange) :
    applyManifestChanges m (xs ++ ys) =
      match applyManifestChanges m xs with
      | (m', .ok ()) => applyManifestChanges m' ys
      | r => r := by
  induction xs generalizing m with
  | nil => rfl
  | cons x xs ih =>
    simp only [List.cons_append, applyManifestChanges]
    rcases applyManifestChange m x with ⟨b, e | ⟨⟩⟩
    · rfl
    · exact ih b

theorem AList.erase_insert_of_not_mem {α : Type} [DecidableEq α] {β : α → Type} {s : AList β} {a : α}
    {b : β a} (h : a ∉ s) : (s.insert a b).erase a = s :=
  AList.ext <| show List.kerase a (s.insert a b).entries = s.entries by
    rw [AList.insert_entries_of_neg h]
    exact List.kerase_cons_eq rfl

/-- A `CREATE` of a table absent from the manifest, at a level the manifest has, then its `DELETE`
at that level give the manifest back with one more creation counted and no deletion. -/
theorem applyManifestChanges_create_delete {m : Manifest} {id : UInt64} {l : UInt32}
    (hid : id ∉ m.tables) (hl : l.toNat < m.levels.length) (hlv : id ∉ m.levelTables l.toNat) :
    applyManifestChanges m [⟨id, 0, l⟩, ⟨id, 1, l⟩] = ({ m with creations := m.creations + 1 }, .ok ()) := by
  have hgrow : growLevels m.levels l.toNat = m.levels := by
    simp [growLevels, Nat.sub_eq_zero_of_le (Nat.succ_le_of_lt hl)]
  have hT : m.levels[l.toNat].tables.erase id = m.levels[l.toNat].tables :=
    Finset.erase_eq_of_not_mem (by simpa [Manifest.levelTables, List.getElem?_eq_getElem hl] using hlv)
  simp [applyManifestChanges, applyManifestChange, Operation.fromI32, hid, hgrow, List.getElem?_modify, hl,
    AList.erase_insert_of_not_mem hid, hT]
  apply List.ext_getElem (by simp)
  intro i h1 h2
  simp only [List.getElem_set, List.getElem_modify]
  split_ifs with h <;> simp [h, hT]

/-- `n` rounds of `CREATE` and `DELETE` of one table count `n` creations and still no deletion. -/
theorem applyManifestChanges_churn {m : Manifest} {id : UInt64} {l : UInt32}
    (hid : id ∉ m.tables) (hl : l.toNat < m.levels.length) (hlv : id ∉ m.levelTables l.toNat) (n : Nat) :
    applyManifestChanges m (List.replicate n [⟨id, 0, l⟩, ⟨id, 1, l⟩]).flatten =
      ({ m with creations := m.creations + n }, .ok ()) := by
  induction n generalizing m with
  | zero => rfl
  | succ n ih =>
    rw [List.replicate_succ, List.flatten_cons, applyManifestChanges_append,
      applyManifestChanges_create_delete hid hl hlv]
    simp only
    rw [@ih { m with creations := m.creations + 1 } hid hl hlv, Nat.add_assoc, Nat.add_comm 1 n]

/-- The changes before the end of a batch that applies apply. -/
theorem applyManifestChanges_prefix_ok {m : Manifest} {xs ys : List ManifestChange}
    (h : (applyManifestChanges m (xs ++ ys)).2 = .ok ()) : ∃ m', applyManifestChanges m xs = (m', .ok ()) := by
  rw [applyManifestChanges_append] at h
  rcases hx : applyManifestChanges m xs with ⟨m', _ | ⟨⟨⟩⟩⟩
  · rw [hx] at h; cases h
  · exact ⟨m', rfl⟩

/-- A batch ends in a fault exactly at its first failing change, with the manifest that change
left. -/
theorem applyManifestChanges_error_iff {m m' : Manifest} {cs : List ManifestChange} {e : Fault} :
    applyManifestChanges m cs = (m', .error e) ↔
      ∃ pre c post mp, cs = pre ++ c :: post ∧ applyManifestChanges m pre = (mp, .ok ()) ∧
        applyManifestChange mp c = (m', .error e) := by
  refine ⟨fun h => ?_, fun ⟨pre, c, post, mp, hcs, hpre, hc⟩ => ?_⟩
  · induction cs generalizing m with
    | nil => simp [applyManifestChanges] at h
    | cons tc cs ih =>
      simp only [applyManifestChanges] at h
      rcases hc : applyManifestChange m tc with ⟨b, e' | ⟨⟩⟩ <;> rw [hc] at h
      · exact ⟨[], tc, cs, m, rfl, rfl, hc.trans h⟩
      · obtain ⟨pre, c, post, mp, rfl, hpre, hcf⟩ := ih h
        exact ⟨tc :: pre, c, post, mp, rfl, by simp only [applyManifestChanges, hc, hpre], hcf⟩
  · rw [hcs, applyManifestChanges_append, hpre]
    simp only [applyManifestChanges, hc]

/-- `CREATE`s of distinct ids that the manifest does not hold all apply: each adds its table,
filed under its level. -/
theorem applyManifestChanges_creates {cs : List ManifestChange} (hop : ∀ c ∈ cs, c.op = 0)
    (hnd : (cs.map ManifestChange.id).Nodup) (m : Manifest) (hfresh : ∀ c ∈ cs, c.id ∉ m.tables) :
    ∃ m', applyManifestChanges m cs = (m', .ok ()) ∧
      (∀ id t, m'.tables.lookup id = some t ↔
        (∃ c ∈ cs, c.id = id ∧ t = ⟨c.level.toUInt8⟩) ∨ m.tables.lookup id = some t) ∧
      (∀ id l, id ∈ m'.levelTables l ↔
        (∃ c ∈ cs, c.id = id ∧ c.level.toNat = l) ∨ id ∈ m.levelTables l) ∧
      m'.creations = m.creations + cs.length ∧ m'.deletions = m.deletions := by
  induction cs generalizing m with
  | nil => exact ⟨m, rfl, by simp, by simp, rfl, rfl⟩
  | cons c cs ih =>
    simp only [List.map_cons, List.nodup_cons, List.mem_map, not_exists, not_and] at hnd
    have hc := List.mem_cons_self c cs
    obtain ⟨m1, h1⟩ := applyManifestChange_create (hop c hc) (hfresh c hc)
    rcases applyManifestChange_ok h1 with ⟨-, -, ht, hl, hcr, hd⟩ | ⟨h1', -⟩
    swap; · exact absurd (hop c hc) (by rw [h1']; decide)
    have hfresh1 : ∀ c' ∈ cs, c'.id ∉ m1.tables := fun c' h' => by
      rw [ht, AList.mem_insert]
      rintro (e | e)
      · exact hnd.1 c' h' e
      · exact hfresh c' (List.mem_cons_of_mem _ h') e
    obtain ⟨m', hm', hlk, hlv, hcr', hd'⟩ := ih (fun c' h' => hop c' (List.mem_cons_of_mem _ h')) hnd.2 m1 hfresh1
    refine ⟨m', by simp only [applyManifestChanges, h1, hm'], fun id t => ?_, fun id l => ?_, ?_, hd'.trans hd⟩
    · rw [hlk, ht, List.exists_mem_cons_iff]
      by_cases hid : id = c.id
      · subst hid
        have hn : m.tables.lookup c.id = none := AList.lookup_eq_none.2 (hfresh c hc)
        have hcs : ¬∃ c' ∈ cs, c'.id = c.id ∧ t = ⟨c'.level.toUInt8⟩ := fun ⟨c', h', e, _⟩ => hnd.1 c' h' e
        simp only [AList.lookup_insert, hn, hcs, Option.some.injEq, true_and, eq_comm]
        tauto
      · simp only [AList.lookup_insert_ne hid, Ne.symm hid, false_and, false_or]
    · rw [hlv, mem_levelTables_create hl, List.exists_mem_cons_iff]
      have e : (c.level.toNat = l ∧ id = c.id) ↔ (c.id = id ∧ c.level.toNat = l) :=
        ⟨fun ⟨a, b⟩ => ⟨b.symm, a⟩, fun ⟨a, b⟩ => ⟨b, a.symm⟩⟩
      rw [e, ← or_assoc]
      exact or_congr_left or_comm
    · simp [hcr', hcr]; omega


/-- A batch that applies leaves a reachable manifest. -/
theorem Reachable.applyManifestChanges {m m' : Manifest} (h : Reachable m) {cs : List ManifestChange}
    (hcs : Badger.applyManifestChanges m cs = (m', .ok ())) : Reachable m' := by
  induction cs generalizing m with
  | nil => cases hcs; exact h
  | cons tc cs ih =>
    simp only [Badger.applyManifestChanges] at hcs
    rcases hc : applyManifestChange m tc with ⟨b, e | ⟨⟩⟩ <;> rw [hc] at hcs
    · cases hcs
    · exact ih (h.apply tc hc) hcs

end Badger
