import Badger.Manifest.File
import Badger.Manifest.Log

/-!
# What `add_changes` leaves on disk (manifest.rs:62-90, 147-181, 373-415)

`MANIFEST` is a log: the manifest `ManifestFile::open_or_create_manifest_file` returns is what its
records build from `Manifest::new`. `ManifestFile.Logged` says so of a disk and a `ManifestFile`,
with the handle at the end of the log. This module follows the calls of the code from there:

* `add_changes` writes its record through a `BufWriter` and then takes `into_inner`, which drops
  the bytes the buffer still holds; a record that fits the 8 KiB buffer never reaches the file,
  so the batches acknowledged with `Ok` are gone after a reopen
  (`reopen_loses_buffered_changes`);
* an `add_changes` that returns `Err` leaves the old log, the new one, or a torn record that
  makes replay panic (`add_changes_failure_outcomes`);
* the public `open_or_create_manifest_file` leaves the handle at offset 0 (manifest.rs:407), so
  a record too large for the buffer overwrites the header and no reopen succeeds
  (`public_open_overwrites_header`).

A file-system call that returns `Ok` has no fault to take from `Disk.faults`; one that fails has
written a prefix of its bytes. Each call is peeled off its `do` block with `run_bind_ok`.

| here | there |
| --- | --- |
| `addChanges_ok`, `addChanges_error_written` | `ManifestFile::add_changes` (manifest.rs:62-90) |
| `ManifestFile.openOrCreateManifestFile_logged` | `ManifestFile::open_or_create_manifest_file` (manifest.rs:147-181) |
| `openOrCreateManifestFile_existing` | `help_open_or_create_manifest_file` (manifest.rs:378-415) |
-/

namespace Badger

/-! ## Calls -/

theorem run_bind_ok {ε σ α β : Type} {x : EStateM ε σ α} {f : α → EStateM ε σ β} {s s' : σ} {b : β}
    (h : (x >>= f).run s = .ok b s') : ∃ a s1, x.run s = .ok a s1 ∧ (f a).run s1 = .ok b s' := by
  simp only [estateM_run_eq, bind, EStateM.bind] at h ⊢
  rcases hx : x s with ⟨a, s1⟩ | ⟨e, s1⟩ <;> rw [hx] at h
  · exact ⟨a, s1, rfl, h⟩
  · cases h

theorem modify_run {σ ε : Type} (f : σ → σ) (s : σ) :
    (modify f : EStateM ε σ PUnit).run s = .ok ⟨⟩ (f s) := rfl

theorem readAll_run (p : ManifestPath) (d : Disk) :
    (readAll p).run d = .ok ((d.file p).elim [] (·.bytes)) d := rfl

theorem liftExcept_ok {σ α : Type} {x : Except Fault α} {a : α} {s s' : σ}
    (h : (liftExcept x).run s = .ok a s') : x = .ok a ∧ s' = s := by
  cases x <;> simp [liftExcept, estateM_run_eq, throw, throwThe, MonadExceptOf.throw, EStateM.throw,
    pure, EStateM.pure] at h
  exact ⟨congrArg _ h.1, h.2.symm⟩

/-- Writing no bytes leaves a file whose cursor is within it as it is. -/
theorem writeAt_nil {f : FileState} (h : f.pos ≤ f.bytes.length) : writeAt f [] = f := by
  simp [writeAt, Nat.sub_eq_zero_of_le h]

/-- A `write_all` to `MANIFEST` that succeeds has written all the bytes at the cursor. -/
theorem writeAll_manifest_ok {bs : List UInt8} {d d' : Disk} {f : FileState} (hd : d.manifest = some f)
    (hpos : f.pos ≤ f.bytes.length) (h : (writeAll .manifest bs).run d = .ok () d') :
    d'.manifest = some (writeAt f bs) := by
  by_cases hb : bs = []
  · simp [writeAll, hb, estateM_run_eq, pure, EStateM.pure] at h
    rw [← h, hd, hb, writeAt_nil hpos]
  rcases hf : d.faults with _ | ⟨_ | n, fs⟩ <;>
    simp [writeAll, hb, estateM_run_eq, bind, EStateM.bind, nextFault, hf, modify, modifyGet,
      MonadStateOf.modifyGet, EStateM.modifyGet, pure, EStateM.pure, throw, throwThe,
      MonadExceptOf.throw, EStateM.throw] at h
  all_goals subst h; simp [Disk.setFile, Disk.file, hd]

/-- A `write_all` to `MANIFEST` that fails has written a prefix of the bytes at the cursor. -/
theorem writeAll_manifest_error {bs : List UInt8} {d d' : Disk} {e : Fault} {f : FileState}
    (hd : d.manifest = some f) (h : (writeAll .manifest bs).run d = .error e d') :
    ∃ n, d'.manifest = some (writeAt f (bs.take n)) := by
  by_cases hb : bs = []
  · simp [writeAll, hb, estateM_run_eq, pure, EStateM.pure] at h
  rcases hf : d.faults with _ | ⟨_ | n, fs⟩ <;>
    simp [writeAll, hb, estateM_run_eq, bind, EStateM.bind, nextFault, hf, modify, modifyGet,
      MonadStateOf.modifyGet, EStateM.modifyGet, pure, EStateM.pure, throw, throwThe,
      MonadExceptOf.throw, EStateM.throw] at h
  exact ⟨n, by rw [← h.2]; simp [Disk.setFile, Disk.file, hd]⟩

/-- A call that changes no bytes and succeeds leaves `MANIFEST` as it is. -/
theorem syscall_ok {d d' : Disk} (h : syscall.run d = .ok () d') : d'.manifest = d.manifest := by
  rcases hf : d.faults with _ | ⟨_ | n, fs⟩ <;>
    simp [syscall, estateM_run_eq, bind, EStateM.bind, nextFault, hf, pure, EStateM.pure, throw, throwThe,
      MonadExceptOf.throw, EStateM.throw] at h
  all_goals subst h; rfl

theorem syscall_error {d d' : Disk} {e : Fault} (h : syscall.run d = .error e d') : d'.manifest = d.manifest := by
  rcases hf : d.faults with _ | ⟨_ | n, fs⟩ <;>
    simp [syscall, estateM_run_eq, bind, EStateM.bind, nextFault, hf, pure, EStateM.pure, throw, throwThe,
      MonadExceptOf.throw, EStateM.throw] at h
  rw [← h.2]

theorem setLen_manifest_ok {n : Nat} {d d' : Disk} (h : (setLen .manifest n).run d = .ok () d') :
    d'.manifest = d.manifest.map fun f => { f with bytes := f.bytes.take n ++ List.replicate (n - f.bytes.length) 0 } := by
  obtain ⟨⟨⟩, d1, h1, h⟩ := run_bind_ok h
  rw [modify_run, EStateM.Result.ok.injEq] at h
  rw [← h.2, ← syscall_ok h1]
  rfl

theorem seek_manifest_ok {toEnd : Bool} {n : Nat} {d d' : Disk} (h : (seek .manifest toEnd n).run d = .ok () d') :
    d'.manifest = d.manifest.map fun f => { f with pos := if toEnd then f.bytes.length else n } := by
  obtain ⟨⟨⟩, d1, h1, h⟩ := run_bind_ok h
  rw [modify_run, EStateM.Result.ok.injEq] at h
  rw [← h.2, ← syscall_ok h1]
  rfl

/-- `open_existing_synced_file` on an existing `MANIFEST` either fails with an I/O error or opens
it at offset 0. -/
theorem openExistingSyncedFile_manifest {d d' : Disk} {r : Except Error ManifestPath} {f : FileState}
    (hd : d.manifest = some f) (h : (openExistingSyncedFile .manifest).run d = .ok r d') :
    r = .error (.io .failed) ∨ (r = .ok .manifest ∧ d'.manifest = some { f with pos := 0 }) := by
  rcases hf : d.faults with _ | ⟨_ | n, fs⟩ <;>
    simp [openExistingSyncedFile, estateM_run_eq, bind, EStateM.bind, nextFault, hf, hd, get, getThe,
      MonadStateOf.get, EStateM.get, Disk.file, Disk.setFile, modify, modifyGet, MonadStateOf.modifyGet,
      EStateM.modifyGet, pure, EStateM.pure] at h
  all_goals obtain ⟨rfl, rfl⟩ := h
  exacts [.inr ⟨rfl, rfl⟩, .inr ⟨rfl, rfl⟩, .inl rfl]

/-- Once the batch has applied with no deletion counted, an `add_changes` that returns `Ok` has
written at the cursor of `MANIFEST` what `into_inner` kept of the record, and left the batch's
manifest in memory. -/
theorem addChanges_ok {d : Disk} {mf : ManifestFile} {cs : List ManifestChange} {m' : Manifest}
    {s : Disk × ManifestFile} {f : FileState} (happ : applyManifestChangeSet mf.manifest ⟨cs⟩ = (m', .ok ()))
    (hd : m'.deletions = 0) (hfp : mf.fp = some .manifest) (hf : d.manifest = some f)
    (hpos : f.pos ≤ f.bytes.length) (h : (ManifestFile.addChanges cs).run (d, mf) = .ok () s) :
    s.2 = { mf with manifest := m' } ∧
      s.1.manifest = some (writeAt f (bufWriterIntoInner (recordChunks (encodeChangeSet ⟨cs⟩)))) := by
  rw [addChanges_run_eq happ hd, hfp] at h
  rcases h1 : (writeAll .manifest (bufWriterIntoInner (recordChunks (encodeChangeSet ⟨cs⟩)))).run d with
    ⟨⟨⟩, d1⟩ | ⟨e, d1⟩ <;> simp only [h1] at h
  · rcases h2 : syscall.run d1 with ⟨⟨⟩, d2⟩ | ⟨e, d2⟩ <;> simp only [h2] at h <;> cases h
    exact ⟨by rw [hfp], (syscall_ok h2).trans (writeAll_manifest_ok hf hpos h1)⟩
  · cases h

/-- Once the batch has applied with no deletion counted, an `add_changes` that fails has written a
prefix of what `into_inner` kept of the record at the cursor of `MANIFEST` (all of it when the
sync failed). -/
theorem addChanges_error_written {d : Disk} {mf : ManifestFile} {cs : List ManifestChange} {m' : Manifest}
    {s : Disk × ManifestFile} {e : Fault} {f : FileState}
    (happ : applyManifestChangeSet mf.manifest ⟨cs⟩ = (m', .ok ())) (hd : m'.deletions = 0)
    (hfp : mf.fp = some .manifest) (hf : d.manifest = some f) (hpos : f.pos ≤ f.bytes.length)
    (h : (ManifestFile.addChanges cs).run (d, mf) = .error e s) :
    s.2 = { mf with manifest := m' } ∧ ∃ n, s.1.manifest =
      some (writeAt f ((bufWriterIntoInner (recordChunks (encodeChangeSet ⟨cs⟩))).take n)) := by
  rw [addChanges_run_eq happ hd, hfp] at h
  rcases h1 : (writeAll .manifest (bufWriterIntoInner (recordChunks (encodeChangeSet ⟨cs⟩)))).run d with
    ⟨⟨⟩, d1⟩ | ⟨e1, d1⟩ <;> simp only [h1] at h
  · rcases h2 : syscall.run d1 with ⟨⟨⟩, d2⟩ | ⟨e2, d2⟩ <;> simp only [h2] at h <;> cases h
    refine ⟨by rw [hfp], (bufWriterIntoInner (recordChunks (encodeChangeSet ⟨cs⟩))).length, ?_⟩
    rw [List.take_length]
    exact (syscall_error h2).trans (writeAll_manifest_ok hf hpos h1)
  · cases h
    exact ⟨by rw [hfp], writeAll_manifest_error hf h1⟩

/-! ## The log -/

/-- `MANIFEST` holds the log of the manifest in memory: the handle is open on it at its end, and
it is the header and well-formed records whose change sets, applied in order to
`Manifest::new`, build the manifest. -/
structure ManifestFile.Logged (d : Disk) (mf : ManifestFile) : Prop where
  fp : mf.fp = some .manifest
  log : ∃ rs, WellFormedRecords rs ∧ d.manifest = some ⟨logBytes rs, (logBytes rs).length⟩ ∧
    applyManifestChanges Manifest.new (rs.flatMap fun r => r.2.changes) = (mf.manifest, .ok ())

theorem writeAt_end (bytes bs : List UInt8) :
    writeAt ⟨bytes, bytes.length⟩ bs = ⟨bytes ++ bs, (bytes ++ bs).length⟩ := by
  simp [writeAt]

/-- From a reachable manifest, an `add_changes` that returns `Ok` has applied its batch in memory
and written at the cursor of `MANIFEST` what `into_inner` kept of its record. -/
theorem addChanges_ok_of_reachable {d : Disk} {mf : ManifestFile} {cs : List ManifestChange}
    {s : Disk × ManifestFile} {f : FileState} (hreach : Reachable mf.manifest) (hfp : mf.fp = some .manifest)
    (hf : d.manifest = some f) (hpos : f.pos ≤ f.bytes.length)
    (hok : (ManifestFile.addChanges cs).run (d, mf) = .ok () s) :
    applyManifestChanges mf.manifest cs = (s.2.manifest, .ok ()) ∧ s.2.fp = some .manifest ∧
      s.1.manifest = some (writeAt f (bufWriterIntoInner (recordChunks (encodeChangeSet ⟨cs⟩)))) := by
  rcases ha : applyManifestChangeSet mf.manifest ⟨cs⟩ with ⟨m', _ | ⟨⟨⟩⟩⟩
  · rw [addChanges_apply_error ha] at hok
    cases hok
  obtain ⟨h2, h1⟩ := addChanges_ok ha (hreach.applyManifestChanges ha).counters.1 hfp hf hpos hok
  rw [h2]
  exact ⟨ha, hfp, h1⟩

/-- **A record that fits the buffer never reaches the file.** From a reachable manifest, an
`add_changes` that returns `Ok` on a batch whose record fits the buffer of its `BufWriter`
applies the batch in memory and leaves `MANIFEST` as it was. -/
theorem addChanges_ok_fits {d : Disk} {mf : ManifestFile} {cs : List ManifestChange}
    {s : Disk × ManifestFile} {f : FileState} (hreach : Reachable mf.manifest) (hfp : mf.fp = some .manifest)
    (hf : d.manifest = some f) (hpos : f.pos ≤ f.bytes.length)
    (hfits : (encodeChangeSet ⟨cs⟩).length + 8 ≤ bufWriterCapacity)
    (hok : (ManifestFile.addChanges cs).run (d, mf) = .ok () s) :
    applyManifestChanges mf.manifest cs = (s.2.manifest, .ok ()) ∧ s.2.fp = some .manifest ∧
      s.1.manifest = d.manifest := by
  obtain ⟨ha, hfp', h1⟩ := addChanges_ok_of_reachable hreach hfp hf hpos hok
  rw [bufWriterIntoInner_record, if_pos hfits, writeAt_nil hpos] at h1
  exact ⟨ha, hfp', h1.trans hf.symm⟩

/-- Every run of `add_changes` calls that return `Ok` on batches whose records fit the buffer
applies the batches in memory in order and leaves `MANIFEST` as it was. -/
theorem addChanges_all_fit (batches : List (List ManifestChange)) {d : Disk} {mf : ManifestFile}
    {s : Disk × ManifestFile} {f : FileState} (hreach : Reachable mf.manifest) (hfp : mf.fp = some .manifest)
    (hf : d.manifest = some f) (hpos : f.pos ≤ f.bytes.length)
    (hfits : ∀ cs ∈ batches, (encodeChangeSet ⟨cs⟩).length + 8 ≤ bufWriterCapacity)
    (hrun : (batches.forM ManifestFile.addChanges).run (d, mf) = .ok () s) :
    applyManifestChanges mf.manifest batches.flatten = (s.2.manifest, .ok ()) ∧ s.1.manifest = d.manifest := by
  induction batches generalizing d mf s with
  | nil =>
    simp only [List.forM_nil', estateM_run_eq, pure, EStateM.pure, EStateM.Result.ok.injEq] at hrun
    rw [← hrun.2]
    exact ⟨rfl, rfl⟩
  | cons cs rest ih =>
    rw [List.forM_cons'] at hrun
    obtain ⟨⟨⟩, s1, h1, hrun⟩ := run_bind_ok hrun
    obtain ⟨ha1, hfp1, hd1⟩ := addChanges_ok_fits hreach hfp hf hpos (hfits cs (List.mem_cons_self _ _)) h1
    obtain ⟨ha, hd'⟩ := ih (hreach.applyManifestChanges ha1) hfp1 (hd1.trans hf)
      (fun cs' h' => hfits cs' (List.mem_cons_of_mem _ h')) hrun
    refine ⟨?_, hd'.trans hd1⟩
    rw [List.flatten_cons, applyManifestChanges_append, ha1]
    exact ha

/-- Reopening with `ManifestFile::open_or_create_manifest_file`, with no I/O error, returns the
manifest of the log. -/
theorem ManifestFile.Logged.reopen {d : Disk} {mf : ManifestFile} (h : ManifestFile.Logged d mf)
    (hf : d.faults = []) (t : UInt32) :
    ∃ d', (ManifestFile.openOrCreateManifestFile t).run d = .ok ⟨some .manifest, t, mf.manifest⟩ d' := by
  obtain ⟨-, rs, hrs, hd, happ⟩ := h
  simp [ManifestFile.openOrCreateManifestFile, openExistingSyncedFile, nextFault, hf, hd, readAll,
    replayManifestFile_logBytes hrs happ, setLen, seek, syscall, estateM_run_eq, bind, EStateM.bind,
    get, getThe, MonadStateOf.get, EStateM.get, Disk.file, Disk.setFile, modify, modifyGet,
    MonadStateOf.modifyGet, EStateM.modifyGet, pure, EStateM.pure, liftExcept]

/-! ## Opening, adding, reopening -/

/-- The part both opening functions share once `MANIFEST` is open at offset 0: replay, cut the
file after the records replay accepted, and seek to its end or to its start. -/
theorem replay_setLen_seek_ok {toEnd : Bool} {t : UInt32} {d1 d' : Disk} {mf : ManifestFile} {f : FileState}
    (hd1 : d1.manifest = some { f with pos := 0 })
    (h : (do
      let (manifest, truncOffset) ← liftExcept (replayManifestFile (← readAll .manifest))
      setLen .manifest truncOffset
      seek .manifest toEnd 0
      return (⟨some .manifest, t, manifest⟩ : ManifestFile) : EStateM Fault Disk ManifestFile).run d1 = .ok mf d') :
    mf.fp = some .manifest ∧ mf.deletionsRewriteThreshold = t ∧ ∃ rs, WellFormedRecords rs ∧
      d'.manifest = some ⟨logBytes rs, if toEnd then (logBytes rs).length else 0⟩ ∧
      applyManifestChanges Manifest.new (rs.flatMap fun r => r.2.changes) = (mf.manifest, .ok ()) := by
  obtain ⟨bytes, d2, h2, hB⟩ := run_bind_ok h
  rw [readAll_run, EStateM.Result.ok.injEq] at h2
  obtain ⟨⟨m, off⟩, d3, h3, hC⟩ := run_bind_ok hB
  obtain ⟨hr, hd3⟩ := liftExcept_ok h3
  obtain ⟨⟨⟩, d4, h4, hD⟩ := run_bind_ok hC
  obtain ⟨⟨⟩, d5, h5, hE⟩ := run_bind_ok hD
  simp only [estateM_run_eq, pure, EStateM.pure, EStateM.Result.ok.injEq] at hE
  obtain ⟨rfl, rfl⟩ := hE
  rw [← h2.1, Disk.file, hd1] at hr
  change replayManifestFile f.bytes = _ at hr
  obtain ⟨rs, hrs, hpre, rfl, happ⟩ := replayManifestFile_ok hr
  have htake : f.bytes.take (logBytes rs).length = logBytes rs := (List.prefix_iff_eq_take.1 hpre).symm
  refine ⟨rfl, rfl, rs, hrs, ?_, happ⟩
  rw [seek_manifest_ok h5, setLen_manifest_ok h4, hd3, ← h2.2, hd1]
  simp only [Option.map_some', Nat.sub_eq_zero_of_le hpre.length_le, List.replicate_zero, List.append_nil,
    htake]

/-- `ManifestFile::open_or_create_manifest_file` on an existing `MANIFEST`, when it returns `Ok`,
has cut the file after the records replay accepted and left the handle at its end: `MANIFEST`
holds the log of the manifest it returns. -/
theorem ManifestFile.openOrCreateManifestFile_logged {t : UInt32} {d d' : Disk} {mf : ManifestFile}
    {f : FileState} (hd : d.manifest = some f) (h : (ManifestFile.openOrCreateManifestFile t).run d = .ok mf d') :
    ManifestFile.Logged d' mf ∧ mf.deletionsRewriteThreshold = t := by
  obtain ⟨r, d1, h1, hA⟩ := run_bind_ok h
  rcases openExistingSyncedFile_manifest hd h1 with rfl | ⟨rfl, hd1⟩
  · simp [Error.isIoNotFound, estateM_run_eq, throw, throwThe, MonadExceptOf.throw, EStateM.throw] at hA
  obtain ⟨hfp, ht, rs, hrs, hd', happ⟩ := replay_setLen_seek_ok hd1 hA
  exact ⟨⟨hfp, rs, hrs, hd', happ⟩, ht⟩

/-- **What `add_changes` acknowledges is lost on a reopen.** Open an existing `MANIFEST` with
`ManifestFile::open_or_create_manifest_file`, then call `add_changes` on batches whose records
each fit the 8 KiB buffer of the `BufWriter` they go through. When every call returns `Ok`, the
manifest in memory is the opened one with the batches applied in order, but `into_inner` has
dropped every record: `MANIFEST` is as the open left it, and reopening it, with no I/O error,
returns the manifest as it was at the open. -/
theorem reopen_loses_buffered_changes (t t' : UInt32) (d d1 : Disk) (f : FileState)
    (hd : d.manifest = some f) (mf : ManifestFile)
    (hopen : (ManifestFile.openOrCreateManifestFile t).run d = .ok mf d1)
    (batches : List (List ManifestChange))
    (hfits : ∀ cs ∈ batches, (encodeChangeSet ⟨cs⟩).length + 8 ≤ bufWriterCapacity)
    (s : Disk × ManifestFile) (hrun : (batches.forM ManifestFile.addChanges).run (d1, mf) = .ok () s) :
    applyManifestChanges mf.manifest batches.flatten = (s.2.manifest, .ok ()) ∧ s.1.manifest = d1.manifest ∧
      ∃ d2, (ManifestFile.openOrCreateManifestFile t').run { s.1 with faults := [] } =
        .ok ⟨some .manifest, t', mf.manifest⟩ d2 := by
  obtain ⟨⟨hfp, rs, hrs, hd1, happ⟩, -⟩ := ManifestFile.openOrCreateManifestFile_logged hd hopen
  obtain ⟨ha, hs⟩ := addChanges_all_fit batches (Reachable.new.applyManifestChanges happ) hfp hd1
    (Nat.le_refl _) hfits hrun
  have hl : ManifestFile.Logged { s.1 with faults := [] } mf := ⟨hfp, rs, hrs, hs.trans hd1, happ⟩
  exact ⟨ha, hs, hl.reopen rfl t'⟩

/-- A `CREATE` of table 1 added to the empty log: table 1 is live in memory, and the reopen
returns the empty manifest. -/
theorem reopen_loses_one_create :
    ∃ mf d1 s, (ManifestFile.openOrCreateManifestFile 0).run ⟨some ⟨manifestHeader, 0⟩, none, []⟩ = .ok mf d1 ∧
      ((([[⟨1, 0, 0⟩]] : List (List ManifestChange)).forM ManifestFile.addChanges).run (d1, mf) = .ok () s) ∧
      s.2.manifest.liveCount = 1 ∧ mf.manifest.liveCount = 0 ∧
      (∀ cs ∈ ([[⟨1, 0, 0⟩]] : List (List ManifestChange)),
        (encodeChangeSet ⟨cs⟩).length + 8 ≤ bufWriterCapacity) ∧
      (applyManifestChanges mf.manifest [⟨1, 0, 0⟩] = (s.2.manifest, .ok ()) ∧ s.1.manifest = d1.manifest ∧
        ∃ d2, (ManifestFile.openOrCreateManifestFile 0).run { s.1 with faults := [] } =
          .ok ⟨some .manifest, 0, mf.manifest⟩ d2) :=
  ⟨_, _, _, rfl, rfl, rfl, rfl, by decide,
    reopen_loses_buffered_changes 0 0 ⟨some ⟨manifestHeader, 0⟩, none, []⟩ _ ⟨manifestHeader, 0⟩ rfl _ rfl
      [[⟨1, 0, 0⟩]] (by decide) _ rfl⟩

/-! ## The public opening function -/

/-- `open_or_create_manifest_file` on an existing `MANIFEST`, when it returns `Ok`, has cut the
file after the records replay accepted but left the handle at offset 0 (manifest.rs:407). -/
theorem openOrCreateManifestFile_existing {d d' : Disk} {mf : ManifestFile} {f : FileState}
    (hd : d.manifest = some f) (h : openOrCreateManifestFile.run d = .ok mf d') :
    mf.fp = some .manifest ∧ ∃ rs, WellFormedRecords rs ∧ d'.manifest = some ⟨logBytes rs, 0⟩ ∧
      applyManifestChanges Manifest.new (rs.flatMap fun r => r.2.changes) = (mf.manifest, .ok ()) := by
  obtain ⟨r, d1, h1, hA⟩ := run_bind_ok h
  rcases openExistingSyncedFile_manifest hd h1 with rfl | ⟨rfl, hd1⟩
  · simp [Error.isIoNotFound, estateM_run_eq, bind, EStateM.bind, throw, throwThe, MonadExceptOf.throw,
      EStateM.throw] at hA
  obtain ⟨hfp, -, rs, hrs, hd', happ⟩ := replay_setLen_seek_ok hd1 hA
  exact ⟨hfp, rs, hrs, hd', happ⟩

/-- Both opening functions, with no I/O error, return the error of a replay that fails. -/
theorem reopen_error {d : Disk} {f : FileState} (hd : d.manifest = some f) (hf : d.faults = []) {e : Fault}
    (hr : replayManifestFile f.bytes = .error e) (t : UInt32) :
    (∃ d', openOrCreateManifestFile.run d = .error e d') ∧
      ∃ d', (ManifestFile.openOrCreateManifestFile t).run d = .error e d' := by
  constructor <;>
  simp [openOrCreateManifestFile, helpOpenOrCreateManifestFile, ManifestFile.openOrCreateManifestFile,
    openExistingSyncedFile, nextFault, hf, hd, readAll, hr, estateM_run_eq, bind, EStateM.bind, get, getThe,
    MonadStateOf.get, EStateM.get, Disk.file, Disk.setFile, modify, modifyGet, MonadStateOf.modifyGet,
    EStateM.modifyGet, pure, EStateM.pure, liftExcept, throw, throwThe, MonadExceptOf.throw, EStateM.throw]

/-- What `into_inner` keeps of a record too large for the buffer starts with the record's length
field. -/
theorem bufWriterIntoInner_record_big {p : List UInt8} (hbig : bufWriterCapacity < p.length + 8) :
    ∃ rest, bufWriterIntoInner (recordChunks p) = beU32 (UInt32.ofNat p.length) ++ rest := by
  rw [bufWriterIntoInner_record, if_neg (by omega), frameRecord]
  split_ifs
  · exact ⟨_, List.take_left' rfl⟩
  · exact ⟨_, List.append_assoc _ _ _⟩

/-- **The public opening function loses the log.** `open_or_create_manifest_file` on an existing
`MANIFEST` leaves the handle at offset 0 (manifest.rs:407), so the next `add_changes` that
returns `Ok` on a batch whose record does not fit the buffer of its `BufWriter` writes over the
header. Reopening the directory, with no I/O error, by either opening function then fails with
`Err(BadMagic)`, as long as the record's length field is not the four bytes `b"bdgr"`. -/
theorem public_open_overwrites_header (d d1 : Disk) (f : FileState) (hd : d.manifest = some f)
    (mf : ManifestFile) (hopen : openOrCreateManifestFile.run d = .ok mf d1) (cs : List ManifestChange)
    (hbig : bufWriterCapacity < (encodeChangeSet ⟨cs⟩).length + 8)
    (hlen : beU32 (UInt32.ofNat (encodeChangeSet ⟨cs⟩).length) ≠ magicText) (s : Disk × ManifestFile)
    (hok : (ManifestFile.addChanges cs).run (d1, mf) = .ok () s) (t : UInt32) :
    (∃ d2, openOrCreateManifestFile.run { s.1 with faults := [] } = .error (.err .badMagic) d2) ∧
      ∃ d2, (ManifestFile.openOrCreateManifestFile t).run { s.1 with faults := [] } = .error (.err .badMagic) d2 := by
  obtain ⟨hfp, rs, -, hd1, happ⟩ := openOrCreateManifestFile_existing hd hopen
  obtain ⟨-, -, hs⟩ := addChanges_ok_of_reachable (Reachable.new.applyManifestChanges happ) hfp hd1
    (Nat.zero_le _) hok
  obtain ⟨rest, hrest⟩ := bufWriterIntoInner_record_big hbig
  rw [hrest] at hs
  refine @reopen_error { s.1 with faults := [] } _ hs rfl _ (replayManifestFile_badMagic ?_) t
  simpa [writeAt, List.take_append_of_le_length] using hlen

/-- The empty log opened by `open_or_create_manifest_file`, and one batch of 819 rounds of
`CREATE` and `DELETE` of table 1: its 8190 bytes do not fit beside the record's length and CRC, so
those eight bytes reach the file, over the header. -/
theorem public_open_overwrites_header_churn :
    ∃ s, openOrCreateManifestFile.run ⟨some ⟨manifestHeader, 0⟩, none, []⟩ =
        .ok ⟨some .manifest, manifestDeletionsRewriteThreshold, Manifest.new⟩ ⟨some ⟨manifestHeader, 0⟩, none, []⟩ ∧
      bufWriterCapacity < (encodeChangeSet ⟨(List.replicate 819 [⟨1, 0, 0⟩, ⟨1, 1, 0⟩]).flatten⟩).length + 8 ∧
      beU32 (UInt32.ofNat (encodeChangeSet ⟨(List.replicate 819 [⟨1, 0, 0⟩, ⟨1, 1, 0⟩]).flatten⟩).length) ≠
        magicText ∧
      (ManifestFile.addChanges (List.replicate 819 [⟨1, 0, 0⟩, ⟨1, 1, 0⟩]).flatten).run
        (⟨some ⟨manifestHeader, 0⟩, none, []⟩, ⟨some .manifest, manifestDeletionsRewriteThreshold, Manifest.new⟩) =
          .ok () s ∧
      ((∃ d2, openOrCreateManifestFile.run { s.1 with faults := [] } = .error (.err .badMagic) d2) ∧
        ∃ d2, (ManifestFile.openOrCreateManifestFile 0).run { s.1 with faults := [] } =
          .error (.err .badMagic) d2) := by
  have hlen : (encodeChangeSet ⟨(List.replicate 819 [⟨1, 0, 0⟩, ⟨1, 1, 0⟩]).flatten⟩).length = 8190 :=
    (length_encodeChangeSet_replicate _ 819).trans rfl
  have hopen : openOrCreateManifestFile.run ⟨some ⟨manifestHeader, 0⟩, none, []⟩ =
      .ok ⟨some .manifest, manifestDeletionsRewriteThreshold, Manifest.new⟩ ⟨some ⟨manifestHeader, 0⟩, none, []⟩ :=
    rfl
  have happ : applyManifestChangeSet Manifest.new ⟨(List.replicate 819 [⟨1, 0, 0⟩, ⟨1, 1, 0⟩]).flatten⟩ =
      (⟨[⟨∅⟩], ∅, 819, 0⟩, .ok ()) := by
    have h1 : applyManifestChanges Manifest.new [⟨1, 0, 0⟩, ⟨1, 1, 0⟩] = (⟨[⟨∅⟩], ∅, 1, 0⟩, .ok ()) := rfl
    rw [applyManifestChangeSet, List.replicate_succ, List.flatten_cons, applyManifestChanges_append, h1]
    exact applyManifestChanges_churn (by decide) (by decide) (by decide) 818
  have hbig : bufWriterCapacity <
      (encodeChangeSet ⟨(List.replicate 819 [⟨1, 0, 0⟩, ⟨1, 1, 0⟩]).flatten⟩).length + 8 := by
    rw [hlen]; decide
  have hmagic : beU32 (UInt32.ofNat (encodeChangeSet ⟨(List.replicate 819 [⟨1, 0, 0⟩, ⟨1, 1, 0⟩]).flatten⟩).length) ≠
      magicText := by
    rw [hlen]; decide
  obtain ⟨d', hok⟩ := @addChanges_ok_of_no_faults ⟨some ⟨manifestHeader, 0⟩, none, []⟩
    ⟨some .manifest, manifestDeletionsRewriteThreshold, Manifest.new⟩ _ _ happ rfl rfl rfl
  exact ⟨_, hopen, hbig, hmagic, hok,
    public_open_overwrites_header ⟨some ⟨manifestHeader, 0⟩, none, []⟩ ⟨some ⟨manifestHeader, 0⟩, none, []⟩
      ⟨manifestHeader, 0⟩ rfl _ hopen _ hbig hmagic _ hok 0⟩

/-! ## A failed `add_changes` -/

/-- **A failed `add_changes` leaves the old log, the new one, or a torn record.** From a
`MANIFEST` holding the log of the manifest in memory, with the handle at its end, an
`add_changes` that returns `Err` leaves a `MANIFEST` whose replay gives the manifest before the
call (the batch was rejected, or fewer than eight bytes of its record were written), the manifest
in memory after the call (the whole record was written and the sync failed), or panics in the
`assert_eq!` of `replay_manifest_file` (the record is cut inside its payload). -/
theorem add_changes_failure_outcomes {d : Disk} {mf : ManifestFile} (h : ManifestFile.Logged d mf)
    (cs : List ManifestChange) (hsmall : (encodeChangeSet ⟨cs⟩).length < 2 ^ 32) {e : Fault}
    {s : Disk × ManifestFile} (hrun : (ManifestFile.addChanges cs).run (d, mf) = .error e s)
    (f0 : FileState) (hd0 : d.manifest = some f0) :
    ∃ f, s.1.manifest = some f ∧
      (replayManifestFile f.bytes = .ok (mf.manifest, f0.bytes.length) ∨
        replayManifestFile f.bytes = .ok (s.2.manifest, f.bytes.length) ∨
        replayManifestFile f.bytes = .error .panic) := by
  obtain ⟨hfp, rs, hrs, hd, happ⟩ := h
  obtain rfl : f0 = ⟨logBytes rs, (logBytes rs).length⟩ := Option.some.inj (hd0.symm.trans hd)
  rcases ha : applyManifestChangeSet mf.manifest ⟨cs⟩ with ⟨m', _ | ⟨⟨⟩⟩⟩
  · rw [addChanges_apply_error ha] at hrun
    cases hrun
    exact ⟨_, hd, .inl (replayManifestFile_logBytes hrs happ)⟩
  have hdel : m'.deletions = 0 := ((Reachable.new.applyManifestChanges happ).applyManifestChanges ha).counters.1
  obtain ⟨h2, n, h1⟩ := addChanges_error_written ha hdel hfp hd (Nat.le_refl _) hrun
  obtain ⟨k, hk⟩ := bufWriterIntoInner_record_prefix (encodeChangeSet ⟨cs⟩)
  rw [hk, List.take_take, writeAt_end] at h1
  refine ⟨_, h1, ?_⟩
  rw [h2]
  exact replayManifestFile_logBytes_take hrs happ (parseChangeSet_encodeChangeSet _) hsmall ha _

/-- The empty log, one `CREATE` of table 1 whose record `into_inner` drops, and a failing sync:
table 1 is live in memory, and `MANIFEST` still replays to the empty manifest. -/
theorem add_changes_failure_sync :
    ManifestFile.Logged ⟨some ⟨manifestHeader, 8⟩, none, [some 0]⟩ ⟨some .manifest, 0, Manifest.new⟩ ∧
      (encodeChangeSet ⟨[⟨1, 0, 0⟩]⟩).length < 2 ^ 32 ∧
      ∃ s, (ManifestFile.addChanges [⟨1, 0, 0⟩]).run
          (⟨some ⟨manifestHeader, 8⟩, none, [some 0]⟩, ⟨some .manifest, 0, Manifest.new⟩) = .error ioFailed s ∧
        s.2.manifest.liveCount = 1 ∧ s.1.manifest = some ⟨manifestHeader, 8⟩ ∧
        ∃ f, s.1.manifest = some f ∧
          (replayManifestFile f.bytes = .ok (Manifest.new, manifestHeader.length) ∨
            replayManifestFile f.bytes = .ok (s.2.manifest, f.bytes.length) ∨
            replayManifestFile f.bytes = .error .panic) :=
  have hl : ManifestFile.Logged ⟨some ⟨manifestHeader, 8⟩, none, [some 0]⟩ ⟨some .manifest, 0, Manifest.new⟩ :=
    ⟨rfl, [], fun _ h => absurd h (List.not_mem_nil _), rfl, rfl⟩
  ⟨hl, by decide, _, rfl, rfl, rfl, add_changes_failure_outcomes hl [⟨1, 0, 0⟩] (by decide) rfl _ rfl⟩

end Badger
