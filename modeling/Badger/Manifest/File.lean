import Badger.Manifest.Replay

/-!
# The manifest file: `ManifestFile` (manifest.rs:46-186 and 373-415)

The directory holds `MANIFEST` and `MANIFEST-REWRITE`; each file has its bytes and the cursor of
the one handle the code keeps open on it. Every file-system call takes its outcome from
`Disk.faults` in turn: `none` succeeds, `some n` is an I/O error, after which a failing
`write_all` has written the first `n` bytes. Calls past the end of the list succeed. Buffered
writes into a `Vec`, `write_to_bytes` and the reads of `replay_manifest_file` do not fail.

`y::open_existing_synced_file`, `Error::is_io_existing` and `Error::is_io_notfound` are not in
the sources; they are modelled from the spec: the first fails with `NotFound` when the file is
absent, and both predicates hold of that error.

* `reopen_after_create`: the manifest `help_rewrite` leaves is empty, because it reopens
  `MANIFEST` with `truncate(true)` after the rename, so reopening the directory is
  `Err(BadMagic)`.
* `addChanges_error`: `add_changes` returns `Err` with the in-memory manifest holding the
  changes before the failing one (and a `DELETE` that panics has taken its id out of the tables),
  or, on a failing sync, the whole batch.
* `bufWriterIntoInner_record`: the record goes through a `BufWriter` whose `into_inner` returns
  only what it has flushed, so a record that fits its 8 KiB buffer never reaches the file.
-/

namespace Badger

/-- `MANIFEST_FILENAME` and `MANIFEST_REWRITE_FILENAME`. -/
inductive ManifestPath
  | manifest
  | rewrite
deriving DecidableEq, Repr

/-- A file: its bytes and the cursor of the handle open on it. -/
structure FileState where
  bytes : List UInt8
  pos : Nat
deriving DecidableEq, Repr

/-- The manifest directory and the outcomes of the file-system calls to come. -/
structure Disk where
  manifest : Option FileState
  rewrite : Option FileState
  faults : List (Option Nat)
deriving DecidableEq, Repr

def Disk.file (d : Disk) : ManifestPath → Option FileState
  | .manifest => d.manifest
  | .rewrite => d.rewrite

def Disk.setFile (d : Disk) : ManifestPath → Option FileState → Disk
  | .manifest, f => { d with manifest := f }
  | .rewrite, f => { d with rewrite := f }

@[simp] theorem Disk.file_setFile (d : Disk) (p q : ManifestPath) (f : Option FileState) :
    (d.setFile p f).file q = if p = q then f else d.file q := by
  cases p <;> cases q <;> rfl

@[simp] theorem Disk.faults_setFile (d : Disk) (p : ManifestPath) (f : Option FileState) :
    (d.setFile p f).faults = d.faults := by
  cases p <;> rfl

/-- The I/O error of a failing call. -/
def ioFailed : Fault := .err (.io .failed)

/-! ## File-system calls -/

/-- The outcome of the next call. -/
def nextFault : EStateM Fault Disk (Option Nat) := fun d =>
  match d.faults with
  | [] => .ok none d
  | f :: fs => .ok f { d with faults := fs }

/-- A call that changes no bytes: `sync_all`, `flush`, `sync_directory`. -/
def syscall : EStateM Fault Disk Unit := do
  if (← nextFault).isSome then throw ioFailed

/-- `File::options().create(true).write(true).truncate(true).read(true).open(p)`. -/
def openTruncate (p : ManifestPath) : EStateM Fault Disk ManifestPath := do
  syscall
  modify fun d => d.setFile p (some ⟨[], 0⟩)
  pure p

/-- Modelled from the spec: `y::open_existing_synced_file`, which returns `NotFound` when the
file does not exist. -/
def openExistingSyncedFile (p : ManifestPath) : EStateM Fault Disk (Except Error ManifestPath) := do
  if (← nextFault).isSome then return .error (.io .failed)
  match (← get).file p with
  | none => return .error (.io .notFound)
  | some f =>
    modify fun d => d.setFile p (some { f with pos := 0 })
    return .ok p

/-- Modelled from the spec: `Error::is_io_existing` and `Error::is_io_notfound`, the test for a
missing file. -/
def Error.isIoNotFound : Error → Bool
  | .io .notFound => true
  | _ => false

/-- The bytes at the cursor replaced by `bs`, past the end if need be. -/
def writeAt (f : FileState) (bs : List UInt8) : FileState :=
  ⟨f.bytes.take f.pos ++ List.replicate (f.pos - f.bytes.length) 0 ++ bs ++ f.bytes.drop (f.pos + bs.length),
    f.pos + bs.length⟩

/-- `write_all`: it makes no call for no bytes, and a failing call has written a prefix of the
bytes. -/
def writeAll (p : ManifestPath) (bs : List UInt8) : EStateM Fault Disk Unit := do
  if bs.isEmpty then return
  let fault ← nextFault
  modify fun d => d.setFile p (some (writeAt ((d.file p).getD ⟨[], 0⟩) (fault.elim bs bs.take)))
  if fault.isSome then throw ioFailed

/-- `set_len`. -/
def setLen (p : ManifestPath) (n : Nat) : EStateM Fault Disk Unit := do
  syscall
  modify fun d => d.setFile p ((d.file p).map fun f =>
    { f with bytes := f.bytes.take n ++ List.replicate (n - f.bytes.length) 0 })

/-- `seek(SeekFrom::Start(n))`, and with `toEnd` `seek(SeekFrom::End(0))`. -/
def seek (p : ManifestPath) (toEnd : Bool) (n : Nat) : EStateM Fault Disk Unit := do
  syscall
  modify fun d => d.setFile p ((d.file p).map fun f => { f with pos := if toEnd then f.bytes.length else n })

/-- `rename`. -/
def rename (src dst : ManifestPath) : EStateM Fault Disk Unit := do
  syscall
  let d ← get
  match d.file src with
  | none => throw (.err (.io .notFound))
  | some f => set ((d.setFile dst (some f)).setFile src none)

/-- The bytes a handle reads from the start. -/
def readAll (p : ManifestPath) : EStateM Fault Disk (List UInt8) := do
  return ((← get).file p).elim [] (·.bytes)

/-! ## `tokio::io::BufWriter` over a `Vec` -/

/-- The capacity of the buffer of `tokio::io::BufWriter::new`, tokio's `DEFAULT_BUF_SIZE`. -/
def bufWriterCapacity : Nat := 8192

/-- One `write_u32` or `write_all` into a `BufWriter` over a `Vec`, as its `poll_write` does it:
the buffer is flushed into the `Vec` when the chunk does not fit beside what it holds, then a
chunk as large as the buffer goes straight to the `Vec` and a smaller one into the buffer. The
state is the `Vec` and the buffer. -/
def BufWriter.write (w : List UInt8 × List UInt8) (chunk : List UInt8) : List UInt8 × List UInt8 :=
  let w := if w.2.length + chunk.length > bufWriterCapacity then (w.1 ++ w.2, []) else w
  if chunk.length ≥ bufWriterCapacity then (w.1 ++ chunk, w.2) else (w.1, w.2 ++ chunk)

/-- The writes of `chunks` into a new `BufWriter`, then `into_inner`, which returns the `Vec` and
drops what is still in the buffer: no `flush` comes before it. -/
def bufWriterIntoInner (chunks : List (List UInt8)) : List UInt8 :=
  (chunks.foldl BufWriter.write ([], [])).1

/-- A write adds its chunk after what the `Vec` and the buffer hold together. -/
theorem BufWriter.write_contents (w : List UInt8 × List UInt8) (chunk : List UInt8) :
    (BufWriter.write w chunk).1 ++ (BufWriter.write w chunk).2 = w.1 ++ w.2 ++ chunk := by
  unfold BufWriter.write
  split_ifs with h1 h2
  · simp
  · simp
  · -- a chunk as large as the buffer that fits beside it finds the buffer empty
    rw [List.eq_nil_of_length_eq_zero (by omega : w.2.length = 0)]
    simp
  · simp

/-- The `Vec` and the buffer hold every byte written, in order, so `into_inner` returns a prefix
of them. -/
theorem bufWriterIntoInner_prefix (chunks : List (List UInt8)) : bufWriterIntoInner chunks <+: chunks.flatten := by
  suffices ∀ w, (chunks.foldl BufWriter.write w).1 <+: w.1 ++ w.2 ++ chunks.flatten from
    by simpa using this ([], [])
  induction chunks with
  | nil => intro w; simp
  | cons c cs ih =>
    intro w
    have := ih (BufWriter.write w c)
    rwa [BufWriter.write_contents, List.append_assoc (w.1 ++ w.2)] at this

/-- The chunks `add_changes` writes for a change set: its length, its CRC, its bytes. -/
def recordChunks (p : List UInt8) : List (List UInt8) :=
  [beU32 (UInt32.ofNat p.length), beU32 (crc32 p), p]

/-- The chunks `help_rewrite` writes: the magic text, the version, and the record of the
snapshot. -/
def snapshotChunks (changes : List ManifestChange) : List (List UInt8) :=
  magicText :: beU32 magicVersion :: recordChunks (encodeChangeSet ⟨changes⟩)

/-- **What `into_inner` keeps of a record**: nothing when the record fits the buffer, the eight
length and CRC bytes when the change set does not fit beside them but is smaller than the buffer,
and the whole record when the change set is at least as large as the buffer. -/
theorem bufWriterIntoInner_record (p : List UInt8) :
    bufWriterIntoInner (recordChunks p) =
      if p.length + 8 ≤ bufWriterCapacity then []
      else if p.length < bufWriterCapacity then (frameRecord p).take 8 else frameRecord p := by
  have h8 : (beU32 (UInt32.ofNat p.length) ++ beU32 (crc32 p)).length = 8 := rfl
  show (BufWriter.write ([], beU32 (UInt32.ofNat p.length) ++ beU32 (crc32 p)) p).1 = _
  rw [frameRecord, List.take_left' h8]
  simp only [BufWriter.write, h8, List.nil_append, bufWriterCapacity]
  split_ifs <;> first | rfl | omega

/-- `into_inner` writes a prefix of the record. -/
theorem bufWriterIntoInner_record_prefix (p : List UInt8) :
    ∃ k, bufWriterIntoInner (recordChunks p) = (frameRecord p).take k := by
  have h := bufWriterIntoInner_prefix (recordChunks p)
  rw [show (recordChunks p).flatten = frameRecord p by simp [recordChunks, frameRecord]] at h
  exact ⟨_, List.prefix_iff_eq_take.1 h⟩

/-! ## `help_rewrite` -/

/-- `ManifestFile::help_rewrite` (manifest.rs:105-145): the snapshot goes through a `BufWriter`
whose `into_inner` drops what it still buffers; no `flush` and no directory sync. -/
def ManifestFile.helpRewrite (m : Manifest) : EStateM Fault Disk (ManifestPath × Nat) := do
  let fp ← openTruncate .rewrite
  let netCreations := m.liveCount
  writeAll fp (bufWriterIntoInner (snapshotChunks m.asChanges))
  syscall
  rename .rewrite .manifest
  let fp ← openTruncate .manifest
  return (fp, netCreations)

/-- `Manifest::help_rewrite` (manifest.rs:261-300): the snapshot goes through a `BufWriter` whose
`into_inner` drops what it still buffers; the tokio file is flushed before `sync_all`, and the
directory is synced after the rename. -/
def Manifest.helpRewrite (m : Manifest) : EStateM Fault Disk (ManifestPath × Nat) := do
  let fp ← openTruncate .rewrite
  writeAll fp (bufWriterIntoInner (snapshotChunks m.asChanges))
  syscall
  syscall
  rename .rewrite .manifest
  syscall
  let fp ← openTruncate .manifest
  return (fp, m.liveCount)

/-! ## `ManifestFile` -/

/-- `ManifestFile`. The directory is fixed and left out. -/
structure ManifestFile where
  fp : Option ManifestPath
  deletionsRewriteThreshold : UInt32
  manifest : Manifest

/-- `MANIFEST_DELETIONS_REWRITE_THRESHOLD`. -/
def manifestDeletionsRewriteThreshold : UInt32 := 10000

/-- `MANIFEST_DELETIONS_RATIO`. -/
def manifestDeletionsRatio : Nat := 10

/-- `Result` of a call that cannot fail on its own. -/
def liftExcept {σ α : Type} : Except Fault α → EStateM Fault σ α
  | .ok a => pure a
  | .error e => throw e

/-- A disk call made by a method of `ManifestFile`. -/
def onDisk {α : Type} (x : EStateM Fault Disk α) : EStateM Fault (Disk × ManifestFile) α := fun s =>
  match x s.1 with
  | .ok a d => .ok a (d, s.2)
  | .error e d => .error e (d, s.2)

/-- `self.fp.as_mut().unwrap()`. -/
def ManifestFile.unwrapFp : EStateM Fault (Disk × ManifestFile) ManifestPath := do
  match (← get).2.fp with
  | none => throw .panic
  | some fp => return fp

/-- `ManifestFile::rewrite` (manifest.rs:93-103). -/
def ManifestFile.rewrite : EStateM Fault (Disk × ManifestFile) Unit := do
  modify fun s => (s.1, { s.2 with fp := none })
  let (fp, n) ← onDisk (ManifestFile.helpRewrite (← get).2.manifest)
  modify fun s => (s.1, { s.2 with fp := some fp, manifest := { s.2.manifest with creations := n, deletions := 0 } })

/-- The rewrite test of `add_changes`: more deletions than the threshold and than ten times the
live count. `creations - deletions` is a `usize` subtraction, which panics on underflow. -/
def needsRewrite (threshold : UInt32) (m : Manifest) : Except Fault Bool :=
  if m.deletions > threshold.toNat then
    if m.creations < m.deletions then .error .panic
    else .ok (m.deletions > manifestDeletionsRatio * (m.creations - m.deletions))
  else .ok false

/-- `ManifestFile::add_changes` (manifest.rs:62-90). The batch is applied in place before anything
is written; the record goes through a `BufWriter` whose `into_inner` drops what it still
buffers. -/
def ManifestFile.addChanges (changes : List ManifestChange) : EStateM Fault (Disk × ManifestFile) Unit := do
  let mfChanges : ManifestChangeSet := ⟨changes⟩
  let mfBuffer := encodeChangeSet mfChanges
  let (m', r) := applyManifestChangeSet (← get).2.manifest mfChanges
  modify fun s => (s.1, { s.2 with manifest := m' })
  liftExcept r
  let mf := (← get).2
  if ← liftExcept (needsRewrite mf.deletionsRewriteThreshold mf.manifest) then
    ManifestFile.rewrite
  else
    let fp ← ManifestFile.unwrapFp
    onDisk (writeAll fp (bufWriterIntoInner (recordChunks mfBuffer)))
  let _ ← ManifestFile.unwrapFp
  onDisk syscall

/-- `ManifestFile::close`. -/
def ManifestFile.close (mf : ManifestFile) : ManifestFile := { mf with fp := none }

/-- `help_open_or_create_manifest_file` (manifest.rs:378-415): a new manifest gets the default
threshold 0, and a replayed one is left with its cursor at the start. -/
def helpOpenOrCreateManifestFile (deletionsThreshold : UInt32) : EStateM Fault Disk ManifestFile := do
  match ← openExistingSyncedFile .manifest with
  | .error err =>
    if !err.isIoNotFound then throw (.err err)
    let mt := Manifest.new
    let (fp, netCreations) ← mt.helpRewrite
    if netCreations ≠ 0 then throw .panic
    return ⟨some fp, 0, mt⟩
  | .ok fp =>
    let (mf, truncOffset) ← liftExcept (replayManifestFile (← readAll fp))
    setLen fp truncOffset
    seek fp false 0
    return ⟨some fp, deletionsThreshold, mf⟩

/-- `open_or_create_manifest_file` (manifest.rs:373-375). -/
def openOrCreateManifestFile : EStateM Fault Disk ManifestFile :=
  helpOpenOrCreateManifestFile manifestDeletionsRewriteThreshold

/-- `ManifestFile::open_or_create_manifest_file` (manifest.rs:147-181): a replayed manifest is
left with its cursor at the end. -/
def ManifestFile.openOrCreateManifestFile (deletionsThreshold : UInt32) :
    EStateM Fault Disk ManifestFile := do
  match ← openExistingSyncedFile .manifest with
  | .ok fp =>
    let (manifest, truncOffset) ← liftExcept (replayManifestFile (← readAll fp))
    setLen fp truncOffset
    seek fp true 0
    return ⟨some fp, deletionsThreshold, manifest⟩
  | .error err =>
    if err.isIoNotFound then
      let mf := Manifest.new
      let (fp, n) ← ManifestFile.helpRewrite mf
      if n ≠ 0 then throw .panic
      return ⟨some fp, deletionsThreshold, mf⟩
    else throw (.err err)

/-! ## What a call can do -/

/-- A disk call that ends `Ok` or in an I/O error. -/
def IoOnly (x : EStateM Fault Disk Unit) : Prop :=
  ∀ d, ∃ d', x.run d = .ok () d' ∨ x.run d = .error ioFailed d'

/-- `EStateM.run` applies the computation to the state. -/
theorem estateM_run_eq {ε σ α : Type} (x : EStateM ε σ α) (s : σ) : x.run s = x s := rfl

theorem syscall_ioOnly : IoOnly syscall := fun d => by
  rcases h : d.faults with _ | ⟨_ | _, fs⟩ <;>
    simp [syscall, estateM_run_eq, bind, EStateM.bind, nextFault, h, pure, EStateM.pure, throw, throwThe,
      MonadExceptOf.throw, EStateM.throw]

theorem writeAll_ioOnly (p : ManifestPath) (bs : List UInt8) : IoOnly (writeAll p bs) := fun d => by
  by_cases hb : bs = []
  · exact ⟨d, .inl (by simp [writeAll, hb]; rfl)⟩
  rcases h : d.faults with _ | ⟨_ | _, fs⟩ <;>
    simp [writeAll, estateM_run_eq, bind, EStateM.bind, nextFault, h, hb, pure, EStateM.pure, throw, throwThe,
      MonadExceptOf.throw, EStateM.throw, modify, modifyGet, MonadStateOf.modifyGet, EStateM.modifyGet]

theorem needsRewrite_of_deletions {t : UInt32} {m : Manifest} (h : m.deletions = 0) :
    needsRewrite t m = .ok false := by
  simp [needsRewrite, h]

/-- Once the batch has applied with no deletion counted, `add_changes` panics on a missing `fp`,
and otherwise writes what `into_inner` keeps of the record and syncs, with the batch's manifest
in memory. -/
theorem addChanges_run_eq {d : Disk} {mf : ManifestFile} {cs : List ManifestChange} {m' : Manifest}
    (h : applyManifestChangeSet mf.manifest ⟨cs⟩ = (m', .ok ())) (hd : m'.deletions = 0) :
    (ManifestFile.addChanges cs).run (d, mf) =
      match mf.fp with
      | none => .error .panic (d, { mf with manifest := m' })
      | some p =>
        match (writeAll p (bufWriterIntoInner (recordChunks (encodeChangeSet ⟨cs⟩)))).run d with
        | .error e d1 => .error e (d1, { mf with manifest := m' })
        | .ok _ d1 =>
          match syscall.run d1 with
          | .ok _ d2 => .ok () (d2, { mf with manifest := m' })
          | .error e d2 => .error e (d2, { mf with manifest := m' }) := by
  simp only [ManifestFile.addChanges, estateM_run_eq, bind, EStateM.bind, get, getThe, MonadStateOf.get,
    EStateM.get, h, modify, modifyGet, MonadStateOf.modifyGet, EStateM.modifyGet, liftExcept, pure,
    EStateM.pure, needsRewrite_of_deletions hd, ManifestFile.unwrapFp, Bool.false_eq_true, if_false, onDisk]
  cases hfp : mf.fp with
  | none => simp [hfp]; rfl
  | some p =>
    simp only [hfp, EStateM.bind, EStateM.get, EStateM.pure]
    rcases writeAll p (bufWriterIntoInner (recordChunks (encodeChangeSet ⟨cs⟩))) d with ⟨⟨⟩, d1⟩ | ⟨e, d1⟩
    · dsimp only [EStateM.pure]
      rcases syscall d1 with ⟨⟨⟩, d2⟩ | ⟨e, d2⟩ <;> rfl
    · rfl

/-- Once the batch has applied, with no deletion counted, `add_changes` appends the record and syncs:
it returns `Ok`, an I/O error, or panics on a missing `fp`, with the manifest of the batch. -/
theorem addChanges_apply_ok {d : Disk} {mf : ManifestFile} {cs : List ManifestChange} {m' : Manifest}
    (h : applyManifestChangeSet mf.manifest ⟨cs⟩ = (m', .ok ())) (hd : m'.deletions = 0) :
    ∃ d', (ManifestFile.addChanges cs).run (d, mf) = .ok () (d', { mf with manifest := m' }) ∨
      ∃ e, (e = ioFailed ∨ e = .panic) ∧
        (ManifestFile.addChanges cs).run (d, mf) = .error e (d', { mf with manifest := m' }) := by
  rw [addChanges_run_eq h hd]
  cases mf.fp with
  | none => exact ⟨d, .inr ⟨_, .inr rfl, rfl⟩⟩
  | some p =>
    obtain ⟨d1, h1 | h1⟩ := writeAll_ioOnly p (bufWriterIntoInner (recordChunks (encodeChangeSet ⟨cs⟩))) d <;>
      simp only [h1]
    · obtain ⟨d2, h2 | h2⟩ := syscall_ioOnly d1 <;> simp only [h2]
      · exact ⟨d2, .inl rfl⟩
      · exact ⟨d2, .inr ⟨_, .inl rfl, rfl⟩⟩
    · exact ⟨d1, .inr ⟨_, .inl rfl, rfl⟩⟩

/-- With no fault to come, an `add_changes` whose batch applies with no deletion counted returns
`Ok`. -/
theorem addChanges_ok_of_no_faults {d : Disk} {mf : ManifestFile} {cs : List ManifestChange} {m' : Manifest}
    (h : applyManifestChangeSet mf.manifest ⟨cs⟩ = (m', .ok ())) (hd : m'.deletions = 0)
    (hfp : mf.fp = some .manifest) (hf : d.faults = []) :
    ∃ d', (ManifestFile.addChanges cs).run (d, mf) = .ok () (d', { mf with manifest := m' }) := by
  rw [addChanges_run_eq h hd, hfp]
  by_cases hb : bufWriterIntoInner (recordChunks (encodeChangeSet ⟨cs⟩)) = [] <;>
    simp [writeAll, syscall, nextFault, hb, hf, estateM_run_eq, bind, EStateM.bind, modify, modifyGet,
      MonadStateOf.modifyGet, EStateM.modifyGet, pure, EStateM.pure, Disk.setFile]

/-- A batch that fails to apply ends `add_changes` before any file-system call. -/
theorem addChanges_apply_error {d : Disk} {mf : ManifestFile} {cs : List ManifestChange} {m' : Manifest}
    {e : Fault} (h : applyManifestChangeSet mf.manifest ⟨cs⟩ = (m', .error e)) :
    (ManifestFile.addChanges cs).run (d, mf) = .error e (d, { mf with manifest := m' }) := by
  simp only [ManifestFile.addChanges, estateM_run_eq, bind, EStateM.bind, get, getThe, MonadStateOf.get,
    EStateM.get, h]
  rfl

/-- Without faults both `help_rewrite`s rename the snapshot over `MANIFEST` and then truncate it. -/
theorem helpRewrite_run {m : Manifest} {d : Disk} (hd : d.faults = []) :
    (ManifestFile.helpRewrite m).run d = .ok (.manifest, m.liveCount) { d with manifest := some ⟨[], 0⟩, rewrite := none } ∧
      (Manifest.helpRewrite m).run d = .ok (.manifest, m.liveCount) { d with manifest := some ⟨[], 0⟩, rewrite := none } := by
  by_cases hb : bufWriterIntoInner (snapshotChunks m.asChanges) = [] <;> constructor <;>
  simp [ManifestFile.helpRewrite, Manifest.helpRewrite, openTruncate, syscall, writeAll, rename, nextFault, hd, hb,
    estateM_run_eq, bind, EStateM.bind, Disk.setFile, Disk.file, modify, modifyGet, MonadStateOf.modifyGet,
    EStateM.modifyGet, get, getThe, MonadStateOf.get, EStateM.get, pure, EStateM.pure, set, EStateM.set]

/-! ## Errors of `add_changes` -/

/-- **Errors of a batch.** From a reachable manifest, `apply_manifest_change_set` returns `Err`
exactly at a first failing change that is a `CREATE` of a live id or a `DELETE` of an absent one,
and leaves the changes before it applied. It panics exactly at a first failing change with an
unknown op, which leaves the same manifest, or a `DELETE` whose level set lacks its id, which has
already taken the id out of the tables. `add_changes` returns the fault of the batch with its
manifest and writes nothing; once the batch has applied, a failing write or sync (or a missing
`fp`) returns with the whole batch applied. -/
theorem addChanges_error (d : Disk) (mf : ManifestFile) (hm : Reachable mf.manifest)
    (changes : List ManifestChange) :
    (∀ m' e, applyManifestChangeSet mf.manifest ⟨changes⟩ = (m', .error (.err e)) ↔
      ∃ pre c post, changes = pre ++ c :: post ∧ applyManifestChanges mf.manifest pre = (m', .ok ()) ∧
        ((c.op = 0 ∧ c.id ∈ m'.tables ∧ e = .unexpected (existsMsg c.id)) ∨
          (c.op = 1 ∧ c.id ∉ m'.tables ∧ e = .unexpected (missingMsg c.id)))) ∧
    (∀ m', applyManifestChangeSet mf.manifest ⟨changes⟩ = (m', .error .panic) ↔
      ∃ pre c post mp, changes = pre ++ c :: post ∧ applyManifestChanges mf.manifest pre = (mp, .ok ()) ∧
        (((c.op ≠ 0 ∧ c.op ≠ 1) ∧ m' = mp) ∨
          (c.op = 1 ∧ c.id ∈ mp.tables ∧ c.id ∉ mp.levelTables c.level.toNat ∧
            m' = { mp with tables := mp.tables.erase c.id }))) ∧
    (∀ e s, (ManifestFile.addChanges changes).run (d, mf) = .error e s →
      (applyManifestChangeSet mf.manifest ⟨changes⟩ = (s.2.manifest, .error e) ∧ s.1 = d) ∨
        (applyManifestChanges mf.manifest changes = (s.2.manifest, .ok ()) ∧
          (e = ioFailed ∨ e = .panic))) := by
  refine ⟨fun m' e => ?_, fun m' => ?_, fun e s h => ?_⟩
  · simp only [applyManifestChangeSet, applyManifestChanges_error_iff, applyManifestChange_err]
    constructor
    · rintro ⟨pre, c, post, mp, hcs, hpre, rfl, hc⟩
      exact ⟨pre, c, post, hcs, hpre, hc⟩
    · rintro ⟨pre, c, post, hcs, hpre, hc⟩
      exact ⟨pre, c, post, m', hcs, hpre, rfl, hc⟩
  · simp only [applyManifestChangeSet, applyManifestChanges_error_iff, applyManifestChange_panic]
  · rcases happ : applyManifestChangeSet mf.manifest ⟨changes⟩ with ⟨m', _ | ⟨⟨⟩⟩⟩
    · rw [addChanges_apply_error happ] at h
      cases h
      exact .inl ⟨rfl, rfl⟩
    · have hd : m'.deletions = 0 := (hm.applyManifestChanges happ).counters.1
      obtain ⟨d', h' | ⟨e', he', h'⟩⟩ := addChanges_apply_ok happ hd <;> rw [h'] at h <;> cases h
      exact .inr ⟨happ, he'⟩

/-- A second `CREATE(1, 0)` fails after the first has applied; an unknown op panics; a `DELETE` of
table 1 at level 1, where it is not, panics with table 1 gone from the tables but still in the
set of level 0; a failing sync leaves the batch applied. -/
theorem batch_error_after_applied_prefix :
    (applyManifestChangeSet Manifest.new ⟨[⟨1, 0, 0⟩, ⟨1, 0, 0⟩]⟩).2 = .error (.err (.unexpected (existsMsg 1))) ∧
      (applyManifestChangeSet Manifest.new ⟨[⟨1, 0, 0⟩, ⟨1, 0, 0⟩]⟩).1.liveCount = 1 ∧
      (applyManifestChangeSet Manifest.new ⟨[⟨1, 2, 0⟩]⟩).2 = .error .panic ∧
      (applyManifestChangeSet Manifest.new ⟨[⟨1, 0, 0⟩, ⟨1, 1, 1⟩]⟩).2 = .error .panic ∧
      (applyManifestChangeSet Manifest.new ⟨[⟨1, 0, 0⟩, ⟨1, 1, 1⟩]⟩).1.liveCount = 0 ∧
      1 ∈ (applyManifestChangeSet Manifest.new ⟨[⟨1, 0, 0⟩, ⟨1, 1, 1⟩]⟩).1.levelTables 0 ∧
      ∃ s, (ManifestFile.addChanges [⟨1, 0, 0⟩]).run
          (⟨some ⟨manifestHeader, 8⟩, none, [some 0]⟩, ⟨some .manifest, 0, Manifest.new⟩) = .error ioFailed s ∧
        s.2.manifest.liveCount = 1 :=
  ⟨rfl, rfl, rfl, rfl, rfl, by decide, _, rfl, rfl⟩

/-- The batch `CREATE(1, 0)`, `CREATE(1, 0)` on `Manifest::new`. -/
theorem addChanges_error_two_creates :
    Reachable Manifest.new ∧
    (∀ m' e, applyManifestChangeSet Manifest.new ⟨[⟨1, 0, 0⟩, ⟨1, 0, 0⟩]⟩ = (m', .error (.err e)) ↔
      ∃ pre c post, [⟨1, 0, 0⟩, ⟨1, 0, 0⟩] = pre ++ c :: post ∧ applyManifestChanges Manifest.new pre = (m', .ok ()) ∧
        ((c.op = 0 ∧ c.id ∈ m'.tables ∧ e = .unexpected (existsMsg c.id)) ∨
          (c.op = 1 ∧ c.id ∉ m'.tables ∧ e = .unexpected (missingMsg c.id)))) :=
  ⟨.new, (addChanges_error ⟨none, none, []⟩ ⟨some .manifest, 0, Manifest.new⟩ .new _).1⟩

/-! ## Reopening -/

/-- On an empty directory, `open_or_create_manifest_file` leaves `MANIFEST` empty, and reopening
the directory after `close`, with or without an `add_changes` in between, is `Err(BadMagic)`. -/
theorem reopen_after_create :
    ∃ mf d, openOrCreateManifestFile.run ⟨none, none, []⟩ = .ok mf d ∧ d.manifest = some ⟨[], 0⟩ ∧
      (∃ d', openOrCreateManifestFile.run d = .error (.err .badMagic) d') ∧
      ∃ s, (ManifestFile.addChanges [⟨1, 0, 0⟩]).run (d, mf) = .ok () s ∧
        ∃ d', openOrCreateManifestFile.run s.1 = .error (.err .badMagic) d' :=
  ⟨_, _, rfl, rfl, ⟨_, rfl⟩, _, rfl, _, rfl⟩

end Badger
