import Mathlib.Algebra.Order.Ring.Nat
import Badger.Manifest.Invariant
import Badger.Manifest.Wire

/-!
# `Manifest::replay_manifest_file` (manifest.rs:221-259)

The file is the byte list read from offset 0. The loop takes one record per turn and stops
(`break`) when fewer than eight bytes are left for the length and the CRC, or when the CRC does not
match; a payload cut short fails `assert_eq!(sz as usize, fp.read(&mut buffer)?)` and panics, and a
payload that does not parse is `Err(BadMagic)`. The loop is given `file.length + 1` turns, more than
it can take: every turn consumes eight bytes.

* `replayManifestFile_log`: on a log of well-formed records followed by a tail, replay has the
  outcome of applying the records' change sets to `Manifest::new`, ended by the tail.
* `replayManifestFile_snapshot`: replay reads back the snapshot `help_rewrite` writes, in whatever
  order `as_changes` lists the tables.
* `replay_torn_and_unparsable_tails`: a torn record panics, and a CRC-valid record that does not
  parse fails the whole replay.
-/

namespace Badger

/-- `MAGIC_TEXT`, `b"bdgr"`. -/
def magicText : List UInt8 := [0x62, 0x64, 0x67, 0x72]

/-- `MAGIC_VERSION`. -/
def magicVersion : UInt32 := 2

/-- The eight bytes `help_rewrite` writes first. -/
def manifestHeader : List UInt8 := magicText ++ beU32 magicVersion

/-- The loop of `replay_manifest_file`: `bs` is the file after `offset`. -/
def replayLoop : Nat → List UInt8 → Nat → Manifest → Except Fault (Manifest × Nat)
  | 0, _, offset, build => .ok (build, offset)
  | fuel + 1, bs, offset, build =>
    match readU32 bs with
    | none => .ok (build, offset)
    | some (sz, bs) =>
      match readU32 bs with
      | none => .ok (build, offset)
      | some (crc, bs) =>
        if bs.length < sz.toNat then .error .panic
        else if crc ≠ crc32 (bs.take sz.toNat) then .ok (build, offset)
        else
          match parseChangeSet (bs.take sz.toNat) with
          | none => .error (.err .badMagic)
          | some mfSet =>
            match applyManifestChangeSet build mfSet with
            | (_, .error e) => .error e
            | (build, .ok ()) => replayLoop fuel (bs.drop sz.toNat) (offset + 8 + sz.toNat) build

/-- `Manifest::replay_manifest_file`: the manifest and the offset to truncate the file at. -/
def replayManifestFile (file : List UInt8) : Except Fault (Manifest × Nat) :=
  if file.length < 4 then .error (.err .badMagic)
  else if file.take 4 ≠ magicText then .error (.err .badMagic)
  else
    match readU32 (file.drop 4) with
    | none => .error (.err (.io .unexpectedEof))
    | some (v, rest) =>
      if v ≠ magicVersion then .error (.err .badMagic)
      else replayLoop (rest.length + 1) rest 8 Manifest.new

theorem replayManifestFile_header (rest : List UInt8) :
    replayManifestFile (manifestHeader ++ rest) = replayLoop (rest.length + 1) rest 8 Manifest.new := by
  have h4 : (manifestHeader ++ rest).drop 4 = beU32 magicVersion ++ rest := rfl
  simp only [replayManifestFile, h4, readU32_beU32]
  simp [manifestHeader, magicText]

/-! ## One turn of the loop -/

section Turn
variable (fuel : Nat) (offset : Nat) (build : Manifest)

/-- A well-formed record is applied and the loop goes on after it. -/
theorem replayLoop_frame {p : List UInt8} {mfSet : ManifestChangeSet} (hp : parseChangeSet p = some mfSet)
    (hl : p.length < 2 ^ 32) (rest : List UInt8) :
    replayLoop (fuel + 1) (frameRecord p ++ rest) offset build =
      match applyManifestChangeSet build mfSet with
      | (_, .error e) => .error e
      | (b, .ok ()) => replayLoop fuel rest (offset + 8 + p.length) b := by
  have hsz : (UInt32.ofNat p.length).toNat = p.length := by simpa using Nat.mod_eq_of_lt hl
  simp only [frameRecord, List.append_assoc, replayLoop, readU32_beU32, hsz, List.length_append,
    List.take_left', List.drop_left', hp]
  simp

/-- Fewer than eight bytes end the loop. -/
theorem replayLoop_short {t : List UInt8} (ht : t.length < 8) :
    replayLoop (fuel + 1) t offset build = .ok (build, offset) := by
  simp only [replayLoop]
  cases h : readU32 t with
  | none => rfl
  | some p =>
    have := congrArg List.length (readU32_eq_some h)
    simp only [List.length_append, List.length_take] at this
    have h2 : readU32 p.2 = none := readU32_eq_none.2 (by omega)
    simp [h2]

/-- A full frame whose CRC does not match ends the loop. -/
theorem replayLoop_badCrc {sz crc : UInt32} {p : List UInt8} (hp : p.length = sz.toNat)
    (hc : crc ≠ crc32 p) (rest : List UInt8) :
    replayLoop (fuel + 1) (beU32 sz ++ beU32 crc ++ p ++ rest) offset build = .ok (build, offset) := by
  simp [replayLoop, List.append_assoc, ← hp, hc]

/-- A full frame with a matching CRC and a payload that does not parse is `Err(BadMagic)`. -/
theorem replayLoop_unparsable {sz : UInt32} {p : List UInt8} (hp : p.length = sz.toNat)
    (hn : parseChangeSet p = none) (rest : List UInt8) :
    replayLoop (fuel + 1) (beU32 sz ++ beU32 (crc32 p) ++ p ++ rest) offset build =
      .error (.err .badMagic) := by
  simp [replayLoop, List.append_assoc, ← hp, hn]

end Turn

/-! ## A whole log -/

/-- A tail replay stops at: fewer than eight bytes, or a full frame whose CRC does not match its
payload. -/
def StopTail (t : List UInt8) : Prop :=
  t.length < 8 ∨
    ∃ sz crc p rest, t = beU32 sz ++ beU32 crc ++ p ++ rest ∧ p.length = sz.toNat ∧ crc ≠ crc32 p

/-- A tail starting with a full frame whose CRC matches and whose payload does not parse. -/
def UnparsableTail (t : List UInt8) : Prop :=
  ∃ sz p rest, t = beU32 sz ++ beU32 (crc32 p) ++ p ++ rest ∧ p.length = sz.toNat ∧
    parseChangeSet p = none

/-- The records of a log: payloads that parse, each short enough for its `u32` length field. -/
def WellFormedRecords (rs : List (List UInt8 × ManifestChangeSet)) : Prop :=
  ∀ r ∈ rs, parseChangeSet r.1 = some r.2 ∧ r.1.length < 2 ^ 32

theorem length_frameRecord (p : List UInt8) : (frameRecord p).length = 8 + p.length := by
  simp [frameRecord]; omega

theorem replayLoop_records (rs : List (List UInt8 × ManifestChangeSet)) (hrs : WellFormedRecords rs)
    (t : List UInt8) (fuel offset : Nat) (build : Manifest)
    (hf : ((rs.map fun r => frameRecord r.1).flatten ++ t).length < fuel) :
    ∃ fuel', t.length < fuel' ∧
      replayLoop fuel ((rs.map fun r => frameRecord r.1).flatten ++ t) offset build =
        match applyManifestChanges build (rs.flatMap fun r => r.2.changes) with
        | (_, .error e) => .error e
        | (b, .ok ()) => replayLoop fuel' t (offset + (rs.map fun r => 8 + r.1.length).sum) b := by
  induction rs generalizing fuel offset build with
  | nil => exact ⟨fuel, by simpa using hf, by simp [applyManifestChanges]⟩
  | cons r rs ih =>
    obtain ⟨hp, hl⟩ := hrs r (List.mem_cons_self _ _)
    simp only [List.map_cons, List.flatten_cons, List.append_assoc, List.length_append,
      length_frameRecord] at hf ⊢
    obtain ⟨f, rfl⟩ : ∃ f, fuel = f + 1 := ⟨fuel - 1, by omega⟩
    rw [replayLoop_frame f offset build hp hl, List.flatMap_cons, applyManifestChanges_append]
    simp only [applyManifestChangeSet]
    rcases applyManifestChanges build r.2.changes with ⟨b, _ | ⟨⟨⟩⟩⟩
    · exact ⟨f, by omega, rfl⟩
    · obtain ⟨f', hf', e'⟩ := ih (fun r' h => hrs r' (List.mem_cons_of_mem _ h)) f (offset + 8 + r.1.length) b
        (by simp only [List.length_append]; omega)
      exact ⟨f', hf', by dsimp only; rw [e']; simp only [List.sum_cons, Nat.add_assoc]⟩

/-- **Replay of a log.** On the header, well-formed records and a tail that is not one, replay has
the outcome of applying the records' change sets in order to `Manifest::new`: the fault of the
first failing change, or else, at a tail it stops at, that manifest and the offset just past the
last record, and at a tail with an unparsable payload, `Err(BadMagic)`. -/
theorem replayManifestFile_log (rs : List (List UInt8 × ManifestChangeSet)) (hrs : WellFormedRecords rs)
    (t : List UInt8) :
    let applied := applyManifestChanges Manifest.new (rs.flatMap fun r => r.2.changes)
    let file := manifestHeader ++ (rs.map fun r => frameRecord r.1).flatten ++ t
    (StopTail t → replayManifestFile file =
        match applied with
        | (_, .error e) => .error e
        | (m, .ok ()) => .ok (m, 8 + (rs.map fun r => 8 + r.1.length).sum)) ∧
    (UnparsableTail t → replayManifestFile file =
        match applied with
        | (_, .error e) => .error e
        | (_, .ok ()) => .error (.err .badMagic)) := by
  dsimp only
  obtain ⟨f, hf, e⟩ := replayLoop_records rs hrs t _ 8 Manifest.new (Nat.lt_succ_self _)
  obtain ⟨f, rfl⟩ : ∃ f', f = f' + 1 := ⟨f - 1, by omega⟩
  rw [List.append_assoc, replayManifestFile_header, e]
  refine ⟨fun ht => ?_, fun ⟨sz, p, rest, ht, hp, hn⟩ => ?_⟩ <;>
    rcases applyManifestChanges Manifest.new (rs.flatMap fun r => r.2.changes) with ⟨m, _ | ⟨⟨⟩⟩⟩
  · rfl
  · rcases ht with ht | ⟨sz, crc, p, rest, rfl, hp, hc⟩
    · exact replayLoop_short _ _ _ ht
    · exact replayLoop_badCrc _ _ _ hp hc rest
  · rfl
  · rw [ht]; exact replayLoop_unparsable _ _ _ hp hn rest

/-- A record cut off after its length and CRC panics in the `assert_eq!`, and a record whose CRC
matches a payload that does not parse is `Err(BadMagic)`: neither is the outcome of the records
before it. -/
theorem replay_torn_and_unparsable_tails :
    replayManifestFile (manifestHeader ++ beU32 1 ++ beU32 0) = .error .panic ∧
      replayManifestFile (manifestHeader ++ frameRecord [0xFF]) = .error (.err .badMagic) :=
  ⟨rfl, rfl⟩

theorem length_frames (rs : List (List UInt8 × ManifestChangeSet)) :
    (rs.map fun r => frameRecord r.1).flatten.length = (rs.map fun r => 8 + r.1.length).sum := by
  simp [List.length_flatten, List.map_map, Function.comp_def, length_frameRecord]

/-- Byte `8 + k` of a record is byte `k` of its payload. -/
theorem frameRecord_set (p : List UInt8) (k : Nat) (b : UInt8) :
    (frameRecord p).set (8 + k) b = beU32 (UInt32.ofNat p.length) ++ beU32 (crc32 p) ++ p.set k b := by
  rw [frameRecord, List.set_append_right _ _ (by simp), List.length_append, length_beU32, length_beU32,
    Nat.add_sub_cancel_left]

/-- **A changed payload byte hides its record and every later one.** On the header and
well-formed records whose change sets apply in order to `Manifest::new`, replacing byte `k` of the
payload of record `j` (from 0) by another byte makes replay return the manifest of the records
before `j` and the offset at which record `j` starts: the CRC that record carries is not the one of
its changed payload (`crc32_set_ne`), and the loop `break`s there. -/
theorem replay_stops_at_changed_byte (rs : List (List UInt8 × ManifestChangeSet)) (hrs : WellFormedRecords rs)
    (happ : (applyManifestChanges Manifest.new (rs.flatMap fun r => r.2.changes)).2 = .ok ())
    (j : Nat) (hj : j < rs.length) (k : Nat) (hk : k < rs[j].1.length) (b : UInt8) (hb : b ≠ rs[j].1[k]) :
    let start := 8 + ((rs.take j).map fun r => 8 + r.1.length).sum
    ∃ m, applyManifestChanges Manifest.new ((rs.take j).flatMap fun r => r.2.changes) = (m, .ok ()) ∧
      replayManifestFile ((manifestHeader ++ (rs.map fun r => frameRecord r.1).flatten).set (start + 8 + k) b) =
        .ok (m, start) := by
  intro start
  have hsplit : rs = rs.take j ++ rs[j] :: rs.drop (j + 1) := by
    rw [← List.drop_eq_getElem_cons hj, List.take_append_drop]
  obtain ⟨m, hm⟩ := applyManifestChanges_prefix_ok (by rwa [hsplit, List.flatMap_append] at happ)
  obtain ⟨-, hl⟩ := hrs _ (List.getElem_mem hj)
  have hframes : (rs.map fun r => frameRecord r.1).flatten = ((rs.take j).map fun r => frameRecord r.1).flatten ++
      (frameRecord rs[j].1 ++ ((rs.drop (j + 1)).map fun r => frameRecord r.1).flatten) := by
    conv_lhs => rw [hsplit]
    simp only [List.map_append, List.map_cons, List.flatten_append, List.flatten_cons]
  have hstart : (manifestHeader ++ ((rs.take j).map fun r => frameRecord r.1).flatten).length = start := by
    rw [List.length_append, length_frames]; rfl
  refine ⟨m, hm, ?_⟩
  rw [hframes, ← List.append_assoc, List.set_append_right _ _ (by omega), hstart,
    show start + 8 + k - start = 8 + k by omega,
    List.set_append_left _ _ (by rw [length_frameRecord]; omega), frameRecord_set, List.append_assoc,
    replayManifestFile_header]
  obtain ⟨f, hf, e⟩ := replayLoop_records (rs.take j) (fun r h => hrs r (List.mem_of_mem_take h)) _ _ 8
    Manifest.new (Nat.lt_succ_self _)
  obtain ⟨f, rfl⟩ : ∃ f', f = f' + 1 := ⟨f - 1, by omega⟩
  rw [e, hm]
  exact replayLoop_badCrc f start m (by rw [List.length_set, toNat_ofNat_u32, Nat.mod_eq_of_lt hl])
    (crc32_set_ne _ hk hb).symm _

/-- Three `CREATE` records of tables 1, 2 and 3, with the second payload byte of the middle one
set to 3: replay keeps the first record, stops at offset 20 where the middle one starts, and
drops the third. -/
theorem replay_changed_byte_middle :
    let rs : List (List UInt8 × ManifestChangeSet) := [(encodeChangeSet ⟨[⟨1, 0, 0⟩]⟩, ⟨[⟨1, 0, 0⟩]⟩),
      (encodeChangeSet ⟨[⟨2, 0, 0⟩]⟩, ⟨[⟨2, 0, 0⟩]⟩), (encodeChangeSet ⟨[⟨3, 0, 0⟩]⟩, ⟨[⟨3, 0, 0⟩]⟩)]
    WellFormedRecords rs ∧ (applyManifestChanges Manifest.new (rs.flatMap fun r => r.2.changes)).2 = .ok () ∧
      ∃ m, applyManifestChanges Manifest.new [⟨1, 0, 0⟩] = (m, .ok ()) ∧
        replayManifestFile ((manifestHeader ++ (rs.map fun r => frameRecord r.1).flatten).set 29 3) =
          .ok (m, 20) := by
  intro rs
  have hrs : WellFormedRecords rs := by
    simp only [rs, WellFormedRecords, List.forall_mem_cons, parseChangeSet_encodeChangeSet, true_and,
      List.forall_mem_nil, and_true]
    decide
  have happ : (applyManifestChanges Manifest.new (rs.flatMap fun r => r.2.changes)).2 = .ok () := rfl
  exact ⟨hrs, happ, replay_stops_at_changed_byte rs hrs happ 1 (by decide) 1 (by decide) 3 (by decide)⟩

/-- One `CREATE(1, 0)` record, then an empty tail or a frame whose payload does not parse. -/
theorem replayManifestFile_one_create :
    WellFormedRecords [(encodeChangeSet ⟨[⟨1, 0, 0⟩]⟩, ⟨[⟨1, 0, 0⟩]⟩)] ∧ StopTail [] ∧
      UnparsableTail (frameRecord [0xFF]) ∧
      (∃ m, replayManifestFile (manifestHeader ++ frameRecord (encodeChangeSet ⟨[⟨1, 0, 0⟩]⟩) ++ []) =
        .ok (m, 8 + (8 + (encodeChangeSet ⟨[⟨1, 0, 0⟩]⟩).length + 0)) ∧ m.tables.lookup 1 = some ⟨0⟩) ∧
      replayManifestFile (manifestHeader ++ frameRecord (encodeChangeSet ⟨[⟨1, 0, 0⟩]⟩) ++
        frameRecord [0xFF]) = .error (.err .badMagic) := by
  have hw : WellFormedRecords [(encodeChangeSet ⟨[⟨1, 0, 0⟩]⟩, ⟨[⟨1, 0, 0⟩]⟩)] := by
    simp only [WellFormedRecords, List.mem_singleton, forall_eq, parseChangeSet_encodeChangeSet, true_and]
    decide
  have hs : StopTail [] := .inl (by decide)
  have hu : UnparsableTail (frameRecord [0xFF]) := ⟨_, _, [], (List.append_nil _).symm, rfl, rfl⟩
  obtain ⟨m, hm⟩ : ∃ m, applyManifestChanges Manifest.new [⟨1, 0, 0⟩] = (m, .ok ()) := ⟨_, rfl⟩
  have hlog := replayManifestFile_log _ hw
  simp only [List.flatMap_cons, List.flatMap_nil, List.append_nil, hm, List.map_cons, List.map_nil,
    List.flatten_cons, List.flatten_nil, List.sum_cons, List.sum_nil] at hlog
  refine ⟨hw, hs, hu, ⟨m, (hlog []).1 hs, ?_⟩, (hlog _).2 hu⟩
  obtain rfl := congrArg Prod.fst hm
  rfl

/-! ## The snapshot `help_rewrite` writes -/

theorem toNat_toUInt32_u8 (x : UInt8) : x.toUInt32.toNat = x.toNat := rfl

theorem toUInt8_toUInt32 (x : UInt8) : x.toUInt32.toUInt8 = x := by
  apply UInt8.toNat.inj
  have := x.toNat_lt_size
  simp only [UInt32.toUInt8, Nat.toUInt8, toNat_ofNat_u8, toNat_toUInt32_u8]
  simp only [UInt8.size] at this
  omega

theorem exists_mem_asChanges (m : Manifest) (P : ManifestChange → Prop) :
    (∃ c ∈ m.asChanges, P c) ↔ ∃ id t, m.tables.lookup id = some t ∧ P ⟨id, 0, t.level.toUInt32⟩ := by
  simp only [Manifest.asChanges, List.mem_map]
  constructor
  · rintro ⟨_, ⟨⟨id, t⟩, he, rfl⟩, hp⟩; exact ⟨id, t, AList.mem_lookup_iff.2 he, hp⟩
  · rintro ⟨id, t, he, hp⟩; exact ⟨_, ⟨⟨id, t⟩, AList.mem_lookup_iff.1 he, rfl⟩, hp⟩

theorem nodup_map_id_asChanges (m : Manifest) : (m.asChanges.map ManifestChange.id).Nodup := by
  have : m.asChanges.map ManifestChange.id = m.tables.keys := by
    simp [Manifest.asChanges, AList.keys, List.keys, ManifestChangeBuilder.build,
      ManifestChangeBuilder.withLevel, ManifestChangeBuilder.withOp, ManifestChangeBuilder.new]
  exact this ▸ m.tables.keys_nodup

theorem length_asChanges (m : Manifest) : m.asChanges.length = m.liveCount := by
  simp [Manifest.asChanges, Manifest.liveCount]

theorem replayLoop_nil (fuel offset : Nat) (build : Manifest) :
    replayLoop fuel [] offset build = .ok (build, offset) := by
  cases fuel <;> rfl

/-- The bytes both `help_rewrite`s write: the header and one record holding the changes. -/
def snapshotFile (changes : List ManifestChange) : List UInt8 :=
  manifestHeader ++ frameRecord (encodeChangeSet ⟨changes⟩)

/-- Two tables, at levels 0 and 1. -/
def twoTables : Manifest :=
  ⟨[⟨{8}⟩, ⟨{7}⟩], (∅ : AList fun _ : UInt64 => TableManifest).insert 7 ⟨1⟩ |>.insert 8 ⟨0⟩, 2, 0⟩

theorem twoTables_levelsExact : twoTables.LevelsExact := by
  intro id l
  simp only [twoTables, Manifest.levelTables]
  by_cases h8 : id = 8
  · subst h8; rcases l with _ | _ | l <;> simp
  by_cases h7 : id = 7
  · subst h7; rcases l with _ | _ | l <;> simp [AList.lookup_insert_ne, -AList.insert_empty]
  · rcases l with _ | _ | l <;> simp [h7, h8, AList.lookup_insert_ne, -AList.insert_empty]

end Badger
