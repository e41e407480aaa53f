import ValueSep.DiffKV.Foreground

/-!
# The garbage collection job

`BlobGCJob` as a machine: one step for each record of `DoRunGC`'s loop (with its `DiscardEntry` check), one for
`InstallOutputBlobFiles`, one for each write of `RewriteValidKeyToLSM` and one for `DeleteInputBlobFiles`;
`BackgroundGC` releases the files when the job ends. With `sep_before_flush && !level_merge` a record is handed
to the foreground builder instead and its index is written in a step of its own. What the traversal of the
inputs yields, and the status it ends with, are part of the job.
-/

namespace ValueSep.DiffKV

open Function

/-- One position of the merge iterator. -/
structure GcRecord where
  record : BlobRecord
  index : BlobIndex
deriving DecidableEq, Repr

/-- An entry of `rewrite_batches_`: the batch, and the index its callback would compare with. -/
structure RewriteBatch where
  key : Slice
  newIndex : BlobIndex
  oldIndex : BlobIndex
deriving DecidableEq, Repr

inductive GcPhase
  | start
  | run (todo : List GcRecord)
  | relocate (r : GcRecord) (index : Option BlobIndex) (todo : List GcRecord)
  | install
  | rewrite (batches : List RewriteBatch)
  | deleteInputs
  | finished (s : Status)
deriving DecidableEq, Repr

/-- `live` collects the records `DiscardEntry` has found live; only statements read it. -/
structure GcJob where
  inputs : List Nat
  records : List GcRecord
  iterStatus : Status
  phase : GcPhase
  status : Status
  builders : List BlobFileBuilder
  current : Option BlobFileBuilder
  fileSize : Nat
  rewriteBatches : List RewriteBatch
  outputs : List Nat
  live : List GcRecord

/-- What the environment answers during one step of the job. -/
structure GcEnv where
  shutingDown : Bool := false
  dropped : Bool := false
  openReader : Fault := none
  dbRead : Fault := none
  dbWrite : Fault := none
  newFile : Fault := none
  header : Fault := none
  append : Fault := none
  add : AddFaults := {}
  finish : Nat → Fault := fun _ => none
  batch : FinishFaults := {}
  delete : Nat → Fault := fun _ => none
  manifest : ManifestFaults := {}

structure GcState where
  world : World
  job : GcJob

/-- `writable_file_max_buffer_size` of the files the job writes itself. -/
def kGcBufferSize : Nat := 1024 * 1024

/-- Whether records are relocated through the foreground builder. -/
def relocatesThroughBuilder (o : Options) : Bool := o.sepBeforeFlush && !o.levelMerge

namespace GcJob

/-- A job over these inputs, as `BackgroundGC` hands it to `Run`. -/
def create (inputs : List Nat) (records : List GcRecord) (iterStatus : Status) : GcJob :=
  { inputs, records, iterStatus, phase := .start, status := .ok, builders := [], current := none, fileSize := 0,
    rewriteBatches := [], outputs := [], live := [] }

/-- The builders whose files are not installed yet, in the order of their creation. -/
def openBuilders (j : GcJob) : List BlobFileBuilder := j.builders ++ j.current.toList

end GcJob

namespace GcState

variable (o : Options) (env : GcEnv) (s : GcState)

/-- `DiscardEntry`: an error, or whether the record may be dropped. -/
def discardEntry (r : GcRecord) : Except Status Bool :=
  match env.dbRead with
  | some m => .error (.ioError m)
  | none => .ok (s.world.db.get r.record.key ≠ some (.blobIndex r.index))

/-- `ReleaseGcFiles`, and the end of the job. -/
def finish (st : Status) : GcState :=
  let release (storage : BlobStorage) (n : Nat) := storage.updateFile n (·.fileStateTransit .gcCompleted)
  { world := { s.world with fileSet := { s.world.fileSet with
      storage := (s.job.inputs ++ s.job.outputs).foldl release s.world.storage } }
    job := { s.job with phase := .finished st } }

/-- A new output file when there is none or the current one has reached its target size. A target size of
zero makes the source move a builder that does not exist. -/
def rollOver : Option (GcState × Status) :=
  let full := o.blobFileTargetSize ≤ s.job.fileSize
  if s.job.current.isSome ∧ ¬ full then some (s, .ok)
  else if s.job.current.isNone ∧ full then none
  else
    let job := { s.job with builders := s.job.openBuilders, current := none }
    let (world, st, number) := s.world.newFile env.newFile kGcBufferSize
    if st ≠ .ok then some (⟨world, job⟩, st)
    else
      let (file, bd) := BlobFileBuilder.create env.header number (.create kGcBufferSize)
      some (⟨{ world with disk := update world.disk number (some file) },
        { job with current := some bd, fileSize := 0 }⟩, .ok)

/-- Appends the record to the current output and stores the batch that will rewrite its key. -/
def appendOutput (r : GcRecord) : Option GcState :=
  s.job.current.bind fun bd => (s.world.disk bd.number).map fun file =>
    let (file, bd, handle) := bd.add o false env.append file r.record
    ⟨{ s.world with disk := update s.world.disk bd.number (some file) },
      { s.job with
        current := some bd
        fileSize := s.job.fileSize + r.record.size
        rewriteBatches := s.job.rewriteBatches ++ [⟨r.record.key, ⟨bd.number, handle⟩, r.index⟩] }⟩

/-- One iteration of the loop in `DoRunGC`, up to a write to the base DB. -/
def runRecord (r : GcRecord) (todo : List GcRecord) : Option GcState :=
  if env.shutingDown then some (s.finish .shutdownInProgress)
  else
    match s.discardEntry env r with
    | .error st => some (s.finish st)
    | .ok true => some { s with job := { s.job with phase := .run todo, status := .ok } }
    | .ok false =>
      let s := { s with job := { s.job with live := r :: s.job.live } }
      if relocatesThroughBuilder o then
        (s.world.foregroundAdd o env.add r.record.key r.record.value).map fun (world, st, wb) =>
          let phase := if st = .ok then .relocate r wb todo else .run todo
          { s with world, job := { s.job with phase, status := .ok } }
      else
        (s.rollOver o env).bind fun (s, st) =>
          if st ≠ .ok then some (s.finish st)
          else (s.appendOutput o env r).map fun s => { s with job := { s.job with phase := .run todo, status := .ok } }

/-- `builder.second->Finish()` for each builder until one fails. -/
def finishBuilders (o : Options) (finish : Nat → Fault) : List BlobFileBuilder → World → World × Status
  | [], w => (w, .ok)
  | bd :: bds, w =>
    match w.disk bd.number with
    | none => (w, .ioError "")
    | some file =>
      let (file, bd) := bd.finish o (finish bd.number) file
      let w := { w with disk := update w.disk bd.number (some file) }
      if bd.status ≠ .ok then (w, bd.status) else finishBuilders o finish bds w

/-- The metadata of an output: `kGCOutput`, and a type that depends on `sep_before_flush`. -/
def outputMeta (o : Options) (w : World) (bd : BlobFileBuilder) : BlobFileMeta :=
  { fileNumber := bd.number, fileSize := ((w.disk bd.number).map WritableFile.fileSize).getD 0, fileEntries := 0,
    fileType := if o.sepBeforeFlush then .unSorted else .sorted, fileLevel := 0, smallestKey := bd.smallestKey,
    largestKey := bd.largestKey, state := FileState.init.transit .gcOutput, discardableSize := 0 }

/-- `InstallOutputBlobFiles`. When a builder fails, the status of the cleanup replaces its own. -/
def installOutputBlobFiles : GcState × Status :=
  let numbers := s.job.builders.map BlobFileBuilder.number
  match finishBuilders o env.finish s.job.builders s.world with
  | (w, .ok) =>
    match w.batchFinishFiles o env.batch (s.job.builders.map (outputMeta o w)) with
    | (w, .ok) => (⟨w, { s.job with outputs := numbers }⟩, .ok)
    | (w, st) => (⟨w, s.job⟩, st)
  | (w, _) =>
    let r := World.batchDeleteFiles env.delete numbers (w, .ok)
    (⟨r.1, s.job⟩, r.2)

/-- `DeleteInputBlobFiles`. -/
def deleteInputBlobFiles : GcState × Status :=
  let r := s.world.logAndApply o env.manifest
    (.ofDeleted (s.job.inputs.map fun n => (n, s.world.db.latestSequence)))
  (⟨r.1, s.job⟩, r.2)

def setPhase (p : GcPhase) : GcState := { s with job := { s.job with phase := p } }

/-- One step of `Run` followed by `Finish`. -/
def step : Option GcState :=
  let afterRun : GcPhase := if relocatesThroughBuilder o then .deleteInputs else .install
  match s.job.phase with
  | .start =>
    if s.job.inputs = [] then some (s.setPhase afterRun)
    else match env.openReader with
      | some m => some (s.finish (.ioError m))
      | none => some (s.setPhase (.run s.job.records))
  | .run [] =>
    if s.job.iterStatus ≠ .ok then some (s.finish s.job.iterStatus)
    else if s.job.status ≠ .ok then some (s.finish s.job.status)
    else some { s with job := { s.job with builders := s.job.openBuilders, current := none, phase := afterRun } }
  | .run (r :: todo) => s.runRecord o env r todo
  | .relocate r wb todo =>
    let (world, st) := s.world.writeBatch env.dbWrite .gc r.record.key wb
    -- the status is overwritten by the next iteration's check
    some { s with world, job := { s.job with phase := .run todo, status := st } }
  | .install =>
    match s.installOutputBlobFiles o env with
    | (s, .ok) => some (s.setPhase (.rewrite s.job.rewriteBatches))
    | (s, st) => some (s.finish st)
  | .rewrite [] => some (s.setPhase .deleteInputs)
  | .rewrite (b :: bs) =>
    if env.dropped then some (s.finish (.aborted "Column family drop"))
    else if env.shutingDown then some (s.finish .shutdownInProgress)
    else
      -- `Write`, not `WriteWithCallback`: nothing compares the key's entry with `b.oldIndex`
      match s.world.writeBatch env.dbWrite .gc b.key (some b.newIndex) with
      | (world, .ok) => some ({ s with world }.setPhase (.rewrite bs))
      | (_, st) => some (s.finish st)
  | .deleteInputs =>
    if env.dropped then some (s.finish .ok)
    else
      let r := s.deleteInputBlobFiles o env
      some (r.1.finish r.2)
  | .finished _ => none

end GcState

end ValueSep.DiffKV
