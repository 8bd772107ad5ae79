import Mathlib.Data.List.AList
import Mathlib.Data.Finset.Basic

/-!
# The in-memory manifest: `apply_manifest_change` (manifest.rs:317-371)

`Manifest` (manifest.rs:196-204) holds a `HashMap<u64, TableManifest>` and one `HashSet<u64>` per
level. The map is an `AList`, which carries the key uniqueness of a `HashMap` in its structure;
each level set is a `Finset`. `usize` counters are `Nat`: they grow by one per change and never
come near `usize::MAX`.

Results of the Rust code are `Except Fault`: `Fault.err` is an `Err` of `crate::Error`, and
`Fault.panic` a failed `unwrap`/`assert!`. A call on the shared manifest returns it as the call
left it, also when it panics: the `tokio` lock is not poisoned, and what the call wrote before the
panic stays.

The changes come from the protobuf module `pb::badgerpb3`, which is not in the sources: a
`ManifestChange` keeps the three fields the manifest reads, `Op` as the 32-bit pattern of the `i32`
that its `EnumOrUnknown<Operation>` holds.
-/

namespace Badger

/-- The `std::io::ErrorKind`s the manifest code tells apart. -/
inductive IoError
  | notFound
  | unexpectedEof
  | failed
deriving DecidableEq, Repr

/-- `crate::Error`, the variants the manifest code returns. -/
inductive Error
  | badMagic
  | unexpected (msg : String)
  | io (e : IoError)
deriving DecidableEq, Repr

/-- How a call ends when it does not return `Ok`. -/
inductive Fault
  | err (e : Error)
  | panic
deriving DecidableEq, Repr

/-- `manifest_change::Operation`: `CREATE = 0`, `DELETE = 1`. -/
inductive Operation
  | create
  | delete
deriving DecidableEq, Repr

/-- `Operation::from_i32`. -/
def Operation.fromI32 (v : UInt32) : Option Operation :=
  if v = 0 then some .create else if v = 1 then some .delete else none

/-- `Operation::value`. -/
def Operation.value : Operation → UInt32
  | .create => 0
  | .delete => 1

/-- `ManifestChange`: table `Id`, `Op` and `Level`. -/
structure ManifestChange where
  id : UInt64
  op : UInt32
  level : UInt32
deriving DecidableEq, Repr

/-- `ManifestChangeSet`. -/
structure ManifestChangeSet where
  changes : List ManifestChange
deriving DecidableEq, Repr

/-- `ManifestChangeBuilder` (manifest.rs:417-455). -/
structure ManifestChangeBuilder where
  id : UInt64
  level : UInt32
  op : Operation

def ManifestChangeBuilder.new (id : UInt64) : ManifestChangeBuilder := ⟨id, 0, .create⟩

def ManifestChangeBuilder.withLevel (b : ManifestChangeBuilder) (level : UInt32) :
    ManifestChangeBuilder := { b with level }

def ManifestChangeBuilder.withOp (b : ManifestChangeBuilder) (op : Operation) :
    ManifestChangeBuilder := { b with op }

def ManifestChangeBuilder.build (b : ManifestChangeBuilder) : ManifestChange :=
  ⟨b.id, b.op.value, b.level⟩

/-- `TableManifest`: the level of one table, as a `u8`. -/
structure TableManifest where
  level : UInt8
deriving DecidableEq, Repr

/-- `LevelManifest`: the set of table ids at one level. -/
structure LevelManifest where
  tables : Finset UInt64
deriving DecidableEq

instance : Inhabited LevelManifest := ⟨⟨∅⟩⟩

@[simp] theorem LevelManifest.default_tables : (default : LevelManifest).tables = ∅ := rfl

/-- `Manifest` (manifest.rs:196-204). -/
structure Manifest where
  levels : List LevelManifest
  tables : AList (fun _ : UInt64 => TableManifest)
  creations : Nat
  deletions : Nat

/-- `Manifest::new`. -/
def Manifest.new : Manifest := ⟨[], ∅, 0, 0⟩

/-- The id set of level `l`, empty past the end of `levels`. -/
def Manifest.levelTables (m : Manifest) (l : Nat) : Finset UInt64 := (m.levels.getD l default).tables

@[simp] theorem Manifest.levelTables_new (l : Nat) : Manifest.new.levelTables l = ∅ := rfl

/-- `tables.len()`. -/
def Manifest.liveCount (m : Manifest) : Nat := m.tables.entries.length

/-- `Manifest::as_changes` (manifest.rs:302-312): a `CREATE` per live table, in the map's order. -/
def Manifest.asChanges (m : Manifest) : List ManifestChange :=
  m.tables.entries.map fun e =>
    (((ManifestChangeBuilder.new e.1).withOp .create).withLevel e.2.level.toUInt32).build

/-- The counters `ManifestFile::rewrite` leaves (manifest.rs:98-101): `net_creations` is
`tables.len()`, read by `help_rewrite` under the same single-writer discipline. -/
def Manifest.rewritten (m : Manifest) : Manifest := { m with creations := m.liveCount, deletions := 0 }

/-! ## `apply_manifest_change` -/

/-- `for _ in build.levels.len()..=tc.Level as usize { build.levels.push(LevelManifest::default()) }` -/
def growLevels (levels : List LevelManifest) (l : Nat) : List LevelManifest :=
  levels ++ List.replicate (l + 1 - levels.length) default

def existsMsg (id : UInt64) : String := "MANIFEST invalid, table " ++ toString id ++ " exists"

def missingMsg (id : UInt64) : String := "MANIFEST removes non-existing table " ++ toString id

/-- `apply_manifest_change` (manifest.rs:327-371), with the manifest it leaves. `DELETE` removes
the id from `tables` and only then looks at the level set the change names, `tc.Level`: when that
set is missing (`unwrap`) or lacks the id (`assert!(has)`), it panics with the id already gone
from `tables`. `remove` of an absent id leaves the map as it was. A deletion is never counted. -/
def applyManifestChange (build : Manifest) (tc : ManifestChange) : Manifest × Except Fault Unit :=
  match Operation.fromI32 tc.op with
  | none => (build, .error .panic)
  | some .create =>
    if tc.id ∈ build.tables then (build, .error (.err (.unexpected (existsMsg tc.id))))
    else
      ({ build with
        tables := build.tables.insert tc.id ⟨tc.level.toUInt8⟩
        levels := (growLevels build.levels tc.level.toNat).modify
          (fun lm => ⟨insert tc.id lm.tables⟩) tc.level.toNat
        creations := build.creations + 1 }, .ok ())
  | some .delete =>
    if tc.id ∉ build.tables then (build, .error (.err (.unexpected (missingMsg tc.id))))
    else
      let build := { build with tables := build.tables.erase tc.id }
      match build.levels[tc.level.toNat]? with
      | none => (build, .error .panic)
      | some lm =>
        if tc.id ∈ lm.tables then
          ({ build with levels := build.levels.set tc.level.toNat ⟨lm.tables.erase tc.id⟩ }, .ok ())
        else (build, .error .panic)

/-- The `for` loop of `apply_manifest_change_set`: the changes are applied in place, so a batch
that fails leaves the manifest the failing change left. -/
def applyManifestChanges (build : Manifest) : List ManifestChange → Manifest × Except Fault Unit
  | [] => (build, .ok ())
  | tc :: cs =>
    match applyManifestChange build tc with
    | (b, .ok ()) => applyManifestChanges b cs
    | (b, .error e) => (b, .error e)

/-- `apply_manifest_change_set` (manifest.rs:317-325). -/
def applyManifestChangeSet (build : Manifest) (mfSet : ManifestChangeSet) :
    Manifest × Except Fault Unit :=
  applyManifestChanges build mfSet.changes

/-! ## One change -/

theorem getD_growLevels (ls : List LevelManifest) (L l : Nat) :
    (growLevels ls L).getD l default = ls.getD l default := by
  unfold growLevels
  by_cases h : l < ls.length
  · simp [List.getElem?_append_left h]
  · simp [List.getElem?_append_right (Nat.le_of_not_lt h), List.getElem?_eq_none (Nat.le_of_not_lt h),
      List.getElem?_replicate]
    split <;> rfl

theorem lt_length_growLevels (ls : List LevelManifest) (L : Nat) : L < (growLevels ls L).length := by
  simp [growLevels]; omega

theorem getD_modify_growLevels (ls : List LevelManifest) (L l : Nat) (f : LevelManifest → LevelManifest) :
    ((growLevels ls L).modify f L).getD l default =
      if L = l then f (ls.getD l default) else ls.getD l default := by
  rw [List.getD_eq_getElem?_getD, List.getElem?_modify, ← getD_growLevels ls L l,
    List.getD_eq_getElem?_getD]
  split
  · subst_vars; simp [List.getElem?_eq_getElem (lt_length_growLevels ls _)]
  · cases (growLevels ls L)[l]? <;> rfl

theorem fromI32_eq_create {v : UInt32} : Operation.fromI32 v = some .create ↔ v = 0 := by
  unfold Operation.fromI32; split_ifs <;> simp_all

theorem fromI32_eq_delete {v : UInt32} : Operation.fromI32 v = some .delete ↔ v = 1 := by
  unfold Operation.fromI32; split_ifs <;> simp_all

/-- Everything one successful `apply_manifest_change` can do: a `CREATE` of an absent id adds it
to `tables` and to level `tc.Level`, a `DELETE` of an id that level holds removes it from both. -/
theorem applyManifestChange_ok {m m' : Manifest} {tc : ManifestChange}
    (h : applyManifestChange m tc = (m', .ok ())) :
    (tc.op = 0 ∧ tc.id ∉ m.tables ∧ m'.tables = m.tables.insert tc.id ⟨tc.level.toUInt8⟩ ∧
      (∀ l, m'.levelTables l =
        if tc.level.toNat = l then insert tc.id (m.levelTables l) else m.levelTables l) ∧
      m'.creations = m.creations + 1 ∧ m'.deletions = m.deletions) ∨
    (tc.op = 1 ∧ tc.id ∈ m.tables ∧ tc.id ∈ m.levelTables tc.level.toNat ∧
      m'.tables = m.tables.erase tc.id ∧
      (∀ l, m'.levelTables l =
        if tc.level.toNat = l then (m.levelTables l).erase tc.id else m.levelTables l) ∧
      m'.creations = m.creations ∧ m'.deletions = m.deletions) := by
  unfold applyManifestChange at h
  split at h
  · cases h
  · rename_i hop
    split_ifs at h with hid
    · cases h
    cases h
    refine .inl ⟨fromI32_eq_create.1 hop, hid, rfl, fun l => ?_, rfl, rfl⟩
    simp only [Manifest.levelTables, getD_modify_growLevels]
    split <;> rfl
  · rename_i hop
    by_cases hid : tc.id ∈ m.tables
    swap; · simp [hid] at h
    simp only [hid, not_true_eq_false, if_false] at h
    split at h
    · cases h
    rename_i lm hlm
    by_cases hin : tc.id ∈ lm.tables
    swap; · simp [hin] at h
    simp only [hin, if_true, Prod.mk.injEq] at h
    obtain ⟨rfl, -⟩ := h
    obtain ⟨hL, hlm'⟩ := List.getElem?_eq_some_iff.1 hlm
    have hget : m.levelTables tc.level.toNat = lm.tables := by simp [Manifest.levelTables, hlm]
    refine .inr ⟨fromI32_eq_delete.1 hop, hid, hget ▸ hin, rfl, fun l => ?_, rfl, rfl⟩
    simp only [Manifest.levelTables, List.getD_eq_getElem?_getD, List.getElem?_set]
    split
    · subst_vars; simp [hL]
    · rfl

/-- A `CREATE` of an id the manifest does not hold applies. -/
theorem applyManifestChange_create {m : Manifest} {tc : ManifestChange} (h0 : tc.op = 0)
    (hid : tc.id ∉ m.tables) : ∃ m', applyManifestChange m tc = (m', .ok ()) := by
  simp [applyManifestChange, Operation.fromI32, h0, hid]

/-- `apply_manifest_change` returns `Err` exactly on a `CREATE` of a live id and on a `DELETE` of
an absent one, with the message naming the id, and then leaves the manifest as it was. -/
theorem applyManifestChange_err {m m' : Manifest} {tc : ManifestChange} {e : Error} :
    applyManifestChange m tc = (m', .error (.err e)) ↔ m' = m ∧
      ((tc.op = 0 ∧ tc.id ∈ m.tables ∧ e = .unexpected (existsMsg tc.id)) ∨
      (tc.op = 1 ∧ tc.id ∉ m.tables ∧ e = .unexpected (missingMsg tc.id))) := by
  by_cases h0 : tc.op = 0
  · by_cases hid : tc.id ∈ m.tables <;>
      simp [applyManifestChange, Operation.fromI32, h0, hid, eq_comm]
  by_cases h1 : tc.op = 1
  · by_cases hid : tc.id ∈ m.tables <;>
      simp [applyManifestChange, Operation.fromI32, h1, hid, eq_comm]
    split <;> [skip; split_ifs] <;> simp
  · simp [applyManifestChange, Operation.fromI32, h0, h1]

/-- It panics on an unknown op (`unwrap`), leaving the manifest, and on a `DELETE` of a live id
that the level it names does not hold (`unwrap` past the end of `levels`, or `assert!(has)`),
leaving the id removed from `tables` but not from any level set. -/
theorem applyManifestChange_panic {m m' : Manifest} {tc : ManifestChange} :
    applyManifestChange m tc = (m', .error .panic) ↔
      ((tc.op ≠ 0 ∧ tc.op ≠ 1) ∧ m' = m) ∨
      (tc.op = 1 ∧ tc.id ∈ m.tables ∧ tc.id ∉ m.levelTables tc.level.toNat ∧
        m' = { m with tables := m.tables.erase tc.id }) := by
  by_cases h0 : tc.op = 0
  · by_cases hid : tc.id ∈ m.tables <;> simp [applyManifestChange, Operation.fromI32, h0, hid]
  by_cases h1 : tc.op = 1
  · by_cases hid : tc.id ∈ m.tables <;> simp [applyManifestChange, Operation.fromI32, h1, hid]
    simp only [Manifest.levelTables, List.getD_eq_getElem?_getD]
    cases m.levels[tc.level.toNat]? <;> simp [default, eq_comm]
    split_ifs <;> simp [eq_comm, *]
  · simp [applyManifestChange, Operation.fromI32, h0, h1, eq_comm]

end Badger
