import Badger.Manifest.Replay

/-!
# What replay accepts (manifest.rs:221-259)

`replay_manifest_file` parses a log: the header, then records of a `u32` length, a CRC and a
change set. `replayManifestFile_log` runs it forward on a log it is given; this module runs it
backward. Whatever replay returns `Ok` on is a log up to the offset it returns, and the manifest
is the one the log's change sets build (`replayManifestFile_ok`). A log reads back whole
(`replayManifestFile_logBytes`), and a log followed by part of one more record reads back as the
log, as the log with the record, or panics (`replayManifestFile_logBytes_take`). So a log whose
last `k` bytes are cut, with the cut inside the last record's change set, does not read back as
the log before that record: replay panics (`replayManifestFile_truncate`).

| here | there |
| --- | --- |
| `replayLoop_ok` | the loop of `replay_manifest_file` (manifest.rs:235-254) |
| `replayManifestFile_ok` | `replay_manifest_file` (manifest.rs:221-259) |
| `replayLoop_torn` | `assert_eq!(sz as usize, fp.read(&mut buffer)?)` (manifest.rs:247) |
| `replayManifestFile_truncate` | `replay_manifest_file` on a log with its end cut off |
| `logBytes` | what `help_rewrite` and `add_changes` write: the header and the records |
-/

namespace Badger

/-- `bs` starts with well-formed records, `len` bytes of them, whose change sets take `build` to
`m`. -/
def RecordsPrefix (bs : List UInt8) (build m : Manifest) (len : Nat) : Prop :=
  ∃ rs, WellFormedRecords rs ∧ (rs.map fun r => frameRecord r.1).flatten <+: bs ∧
    len = (rs.map fun r => frameRecord r.1).flatten.length ∧
    applyManifestChanges build (rs.flatMap fun r => r.2.changes) = (m, .ok ())

theorem RecordsPrefix.nil (bs : List UInt8) (m : Manifest) : RecordsPrefix bs m m 0 :=
  ⟨[], fun _ h => absurd h (List.not_mem_nil _), List.nil_prefix, rfl, rfl⟩

/-- One more well-formed record in front. -/
theorem RecordsPrefix.cons {p rest : List UInt8} {mfSet : ManifestChangeSet} {build b m : Manifest}
    {len : Nat} (hp : parseChangeSet p = some mfSet) (hl : p.length < 2 ^ 32)
    (ha : applyManifestChangeSet build mfSet = (b, .ok ())) (h : RecordsPrefix rest b m len) :
    RecordsPrefix (frameRecord p ++ rest) build m (8 + p.length + len) := by
  obtain ⟨rs, hrs, hpre, rfl, happ⟩ := h
  refine ⟨(p, mfSet) :: rs, List.forall_mem_cons.2 ⟨⟨hp, hl⟩, hrs⟩, ?_, ?_, ?_⟩
  · exact (List.prefix_append_right_inj _).2 hpre
  · simp only [List.map_cons, List.flatten_cons, List.length_append, length_frameRecord]
  · rw [List.flatMap_cons, applyManifestChanges_append]
    simp only [applyManifestChangeSet] at ha
    rw [ha]
    exact happ

/-- The loop of `replay_manifest_file` stops after a run of well-formed records at the start of
what it reads, returning the offset just past them and the manifest they build. -/
theorem replayLoop_ok {fuel : Nat} {bs : List UInt8} {offset : Nat} {build m : Manifest} {off : Nat}
    (h : replayLoop fuel bs offset build = .ok (m, off)) :
    ∃ len, off = offset + len ∧ RecordsPrefix bs build m len := by
  induction fuel generalizing bs offset build with
  | zero =>
    obtain ⟨rfl, rfl⟩ := Prod.mk.inj (Except.ok.inj h)
    exact ⟨0, rfl, .nil bs _⟩
  | succ fuel ih =>
    unfold replayLoop at h
    rcases h1 : readU32 bs with _ | ⟨sz, bs1⟩
    · rw [h1] at h
      obtain ⟨rfl, rfl⟩ := Prod.mk.inj (Except.ok.inj h)
      exact ⟨0, rfl, .nil bs _⟩
    rcases h2 : readU32 bs1 with _ | ⟨crc, bs2⟩
    · simp only [h1, h2] at h
      obtain ⟨rfl, rfl⟩ := Prod.mk.inj (Except.ok.inj h)
      exact ⟨0, rfl, .nil bs _⟩
    simp only [h1, h2] at h
    split_ifs at h with hlen hcrc
    · obtain ⟨rfl, rfl⟩ := Prod.mk.inj (Except.ok.inj h)
      exact ⟨0, rfl, .nil bs _⟩
    rcases hp : parseChangeSet (bs2.take sz.toNat) with _ | mfSet <;> simp only [hp] at h
    · cases h
    rcases ha : applyManifestChangeSet build mfSet with ⟨b, _ | ⟨⟨⟩⟩⟩ <;> simp only [ha] at h
    · cases h
    obtain ⟨len, rfl, hrest⟩ := ih h
    have htake : (bs2.take sz.toNat).length = sz.toNat := List.length_take_of_le (by omega)
    have hsz : UInt32.ofNat sz.toNat = sz :=
      UInt32.toNat.inj (by rw [toNat_ofNat_u32]; exact Nat.mod_eq_of_lt sz.toNat_lt_size)
    have hbs : frameRecord (bs2.take sz.toNat) ++ bs2.drop sz.toNat = bs := by
      rw [frameRecord, htake, hsz, ← not_not.1 hcrc, readU32_eq_beU32 h1, readU32_eq_beU32 h2,
        List.append_assoc, List.append_assoc, List.take_append_drop]
    refine ⟨8 + sz.toNat + len, by omega, ?_⟩
    have hl : (bs2.take sz.toNat).length < 2 ^ 32 := by rw [htake]; exact sz.toNat_lt_size
    have := RecordsPrefix.cons hp hl ha hrest
    rwa [htake, hbs] at this

/-- The bytes of a log: the header, then the records one after another. -/
def logBytes (rs : List (List UInt8 × ManifestChangeSet)) : List UInt8 :=
  manifestHeader ++ (rs.map fun r => frameRecord r.1).flatten

/-- **Replay accepts only logs.** When `replay_manifest_file` returns `Ok((m, off))`, the file
starts with the header and well-formed records that end at `off`, and `m` is what their change
sets, applied in order, build from `Manifest::new`. -/
theorem replayManifestFile_ok {file : List UInt8} {m : Manifest} {off : Nat}
    (h : replayManifestFile file = .ok (m, off)) :
    ∃ rs, WellFormedRecords rs ∧ logBytes rs <+: file ∧ off = (logBytes rs).length ∧
      applyManifestChanges Manifest.new (rs.flatMap fun r => r.2.changes) = (m, .ok ()) := by
  unfold replayManifestFile at h
  split_ifs at h with h4 hmagic
  rcases hr : readU32 (file.drop 4) with _ | ⟨v, rest⟩ <;> simp only [hr] at h
  · cases h
  split_ifs at h with hv
  obtain ⟨len, rfl, rs, hrs, hpre, rfl, happ⟩ := replayLoop_ok h
  have hfile : file = manifestHeader ++ rest := by
    rw [← List.take_append_drop 4 file, readU32_eq_beU32 hr, not_not.1 hmagic, not_not.1 hv]
    rfl
  refine ⟨rs, hrs, hfile ▸ (List.prefix_append_right_inj _).2 hpre, ?_, happ⟩
  simp only [logBytes, List.length_append]
  rfl


/- A header and one create-table record, followed by a stray byte, replay to the record's
manifest and stop before the stray byte. -/
set_option maxRecDepth 4000 in
example :
    ∃ m off, replayManifestFile (manifestHeader ++ frameRecord (encodeChangeSet ⟨[⟨1, 0, 0⟩]⟩) ++ [0]) =
        .ok (m, off) ∧
      ∃ rs, WellFormedRecords rs ∧
        logBytes rs <+: manifestHeader ++ frameRecord (encodeChangeSet ⟨[⟨1, 0, 0⟩]⟩) ++ [0] ∧
        off = (logBytes rs).length ∧
        applyManifestChanges Manifest.new (rs.flatMap fun r => r.2.changes) = (m, .ok ()) :=
  ⟨_, _, rfl, replayManifestFile_ok rfl⟩

/-- Replay reads a log back whole. -/
theorem replayManifestFile_logBytes {rs : List (List UInt8 × ManifestChangeSet)}
    (hrs : WellFormedRecords rs) {m : Manifest}
    (happ : applyManifestChanges Manifest.new (rs.flatMap fun r => r.2.changes) = (m, .ok ())) :
    replayManifestFile (logBytes rs) = .ok (m, (logBytes rs).length) := by
  obtain ⟨f, -, e⟩ := replayLoop_records rs hrs [] ((rs.map fun r => frameRecord r.1).flatten.length + 1) 8
    Manifest.new (by simp)
  rw [List.append_nil, happ] at e
  rw [logBytes, replayManifestFile_header, e]
  dsimp only
  rw [replayLoop_nil, List.length_append, length_frames]
  rfl

/-- A record cut inside its payload panics in the `assert_eq!`. -/
theorem replayLoop_torn (fuel offset : Nat) (build : Manifest) {p : List UInt8} (hl : p.length < 2 ^ 32)
    {n : Nat} (h8 : 8 ≤ n) (hn : n < (frameRecord p).length) :
    replayLoop (fuel + 1) ((frameRecord p).take n) offset build = .error .panic := by
  have hsz : (UInt32.ofNat p.length).toNat = p.length := by simpa using Nat.mod_eq_of_lt hl
  have htake : (frameRecord p).take n =
      beU32 (UInt32.ofNat p.length) ++ beU32 (crc32 p) ++ p.take (n - 8) := by
    simp only [frameRecord, List.append_assoc, List.take_append_eq_append_take, length_beU32]
    rw [List.take_of_length_le (by rw [length_beU32]; omega),
      List.take_of_length_le (by rw [length_beU32]; omega)]
    rfl
  rw [length_frameRecord] at hn
  rw [htake]
  simp [replayLoop, List.append_assoc, hsz, show ¬ p.length ≤ n - 8 by omega]

section Cut
variable {rs : List (List UInt8 × ManifestChangeSet)} (hrs : WellFormedRecords rs) {m : Manifest}
  (happ : applyManifestChanges Manifest.new (rs.flatMap fun r => r.2.changes) = (m, .ok ()))
  {p : List UInt8}
include hrs happ

/-- Replay of a log followed by fewer than all bytes of one more record: the log's manifest when
fewer than eight bytes of the record are there, and a panic otherwise. -/
theorem replayManifestFile_logBytes_cut (hl : p.length < 2 ^ 32) {n : Nat} (hn : n < (frameRecord p).length) :
    replayManifestFile (logBytes rs ++ (frameRecord p).take n) =
      if n < 8 then .ok (m, (logBytes rs).length) else .error .panic := by
  obtain ⟨f, hf, e⟩ := replayLoop_records rs hrs ((frameRecord p).take n)
    ((rs.map fun r => frameRecord r.1).flatten ++ (frameRecord p).take n).length.succ 8 Manifest.new
    (Nat.lt_succ_self _)
  obtain ⟨f, rfl⟩ : ∃ f', f = f' + 1 := ⟨f - 1, by omega⟩
  rw [logBytes, List.append_assoc, replayManifestFile_header, e, happ]
  dsimp only
  split_ifs with h8
  · rw [replayLoop_short _ _ _ (by simp; omega), List.length_append, length_frames]
    rfl
  · exact replayLoop_torn f _ m hl (by omega) hn

/-- Replay of a log followed by the first `n` bytes of a well-formed record: the log's manifest
when fewer than eight bytes of the record are there, the manifest with the record applied when all
of it is, and a panic in between. -/
theorem replayManifestFile_logBytes_take {m' : Manifest} {mfSet : ManifestChangeSet}
    (hp : parseChangeSet p = some mfSet) (hl : p.length < 2 ^ 32)
    (ha : applyManifestChangeSet m mfSet = (m', .ok ())) (n : Nat) :
    replayManifestFile (logBytes rs ++ (frameRecord p).take n) = .ok (m, (logBytes rs).length) ∨
      replayManifestFile (logBytes rs ++ (frameRecord p).take n) =
        .ok (m', (logBytes rs ++ (frameRecord p).take n).length) ∨
      replayManifestFile (logBytes rs ++ (frameRecord p).take n) = .error .panic := by
  by_cases hfull : (frameRecord p).length ≤ n
  · right; left
    have hlog : logBytes (rs ++ [(p, mfSet)]) = logBytes rs ++ (frameRecord p).take n := by
      simp [logBytes, List.take_of_length_le hfull]
    rw [← hlog]
    refine replayManifestFile_logBytes
      (List.forall_mem_append.2 ⟨hrs, List.forall_mem_singleton.2 ⟨hp, hl⟩⟩) ?_
    rw [List.flatMap_append, applyManifestChanges_append, happ]
    simpa [applyManifestChangeSet] using ha
  rw [replayManifestFile_logBytes_cut hrs happ hl (not_le.1 hfull)]
  split_ifs
  · exact .inl rfl
  · exact .inr (.inr rfl)

end Cut

/-- **Cutting the end of a log.** Cut the last `k` bytes off a log, `k` at least one and no more
than its last record. When the cut reaches into the record's change set, replay panics; when it
leaves less than the record's eight bytes of length and CRC, replay reads back the log before the
record. -/
theorem replayManifestFile_truncate {rs : List (List UInt8 × ManifestChangeSet)} {p : List UInt8}
    {mfSet : ManifestChangeSet} (hrs : WellFormedRecords (rs ++ [(p, mfSet)])) {m : Manifest}
    (happ : applyManifestChanges Manifest.new (rs.flatMap fun r => r.2.changes) = (m, .ok ()))
    {k : Nat} (hk1 : 1 ≤ k) (hk : k ≤ (frameRecord p).length) :
    replayManifestFile ((logBytes (rs ++ [(p, mfSet)])).take ((logBytes (rs ++ [(p, mfSet)])).length - k)) =
      if k ≤ p.length then .error .panic else .ok (m, (logBytes rs).length) := by
  obtain ⟨hrs, hlast⟩ := List.forall_mem_append.1 hrs
  have hl : p.length < 2 ^ 32 := (hlast _ (List.mem_singleton_self _)).2
  have hcut : (logBytes (rs ++ [(p, mfSet)])).take ((logBytes (rs ++ [(p, mfSet)])).length - k) =
      logBytes rs ++ (frameRecord p).take ((frameRecord p).length - k) := by
    have hlog : logBytes (rs ++ [(p, mfSet)]) = logBytes rs ++ frameRecord p := by simp [logBytes]
    rw [hlog, List.length_append, List.take_append_eq_append_take,
      List.take_of_length_le (by omega), Nat.add_sub_assoc hk, Nat.add_sub_cancel_left]
  rw [hcut, replayManifestFile_logBytes_cut hrs happ hl (by omega), length_frameRecord]
  by_cases hkp : k ≤ p.length
  · simp [hkp, show ¬ 8 + p.length - k < 8 by omega]
  · simp [hkp, show 8 + p.length - k < 8 by omega]

/-- Cutting the last byte off a log of one create-table record panics. -/
theorem replayManifestFile_truncate_one_create :
    WellFormedRecords ([] ++ [(encodeChangeSet ⟨[⟨1, 0, 0⟩]⟩, ⟨[⟨1, 0, 0⟩]⟩)]) ∧
      applyManifestChanges Manifest.new
        (([] : List (List UInt8 × ManifestChangeSet)).flatMap fun r => r.2.changes) = (Manifest.new, .ok ()) ∧
      1 ≤ 1 ∧ 1 ≤ (frameRecord (encodeChangeSet ⟨[⟨1, 0, 0⟩]⟩)).length ∧
      replayManifestFile ((logBytes ([] ++ [(encodeChangeSet ⟨[⟨1, 0, 0⟩]⟩, ⟨[⟨1, 0, 0⟩]⟩)])).take
        ((logBytes ([] ++ [(encodeChangeSet ⟨[⟨1, 0, 0⟩]⟩, ⟨[⟨1, 0, 0⟩]⟩)])).length - 1)) =
        if 1 ≤ (encodeChangeSet ⟨[⟨1, 0, 0⟩]⟩).length then .error .panic
        else .ok (Manifest.new, (logBytes []).length) := by
  have hw : WellFormedRecords ([] ++ [(encodeChangeSet ⟨[⟨1, 0, 0⟩]⟩, ⟨[⟨1, 0, 0⟩]⟩)]) := by
    simp only [WellFormedRecords, List.nil_append, List.mem_singleton, forall_eq,
      parseChangeSet_encodeChangeSet, true_and]
    decide
  have hk : 1 ≤ (frameRecord (encodeChangeSet ⟨[⟨1, 0, 0⟩]⟩)).length := by
    rw [length_frameRecord]; omega
  exact ⟨hw, rfl, le_rfl, hk, replayManifestFile_truncate hw rfl le_rfl hk⟩

/-- A file that does not start with `b"bdgr"` does not replay. -/
theorem replayManifestFile_badMagic {file : List UInt8} (h : file.take 4 ≠ magicText) :
    replayManifestFile file = .error (.err .badMagic) := by
  unfold replayManifestFile
  split_ifs <;> rfl

end Badger
