import ValueSep.DiffKV.ColumnFamilies
import ValueSep.DiffKV.World
import ValueSep.Lib.Exec

/-!
# The table builder of flushes and compactions

`TitanTableBuilder`: an entry is handed to `base_builder_` as it is, with its value moved to a blob file, or with the
value that its blob index leads to. Errors are kept in three places: `status_`, `base_builder_` and `blob_builder_`.
A pointer that is null where the source follows it ends the run. The storage does not change under the builder, so the
files in `encountered_files_` are those of `FindFile`.
-/

namespace ValueSep.DiffKV

open Coding Exec
open Option BlobIndex Prod

/-! ### Internal keys -/

def kTypeValue : UInt8 := 0x1
def kTypeBlobIndex : UInt8 := 0x11

/-- `IsExtendedValueType`: deletion, value, merge, single deletion, blob index, range deletion. -/
def isExtendedValueType (t : UInt8) : Bool := t ≤ 0x2 || t = 0x7 || t = kTypeBlobIndex || t = 0xF

structure ParsedInternalKey where
  userKey : Slice
  sequence : SequenceNumber
  type : UInt8
deriving DecidableEq

def parseInternalKey (key : Bytes) : Option ParsedInternalKey :=
  if key.length < 8 then none
  else
    match getFixed 8 (key.drop (key.length - 8)) with
    | none => none
    | some (num, _) =>
      if isExtendedValueType (UInt8.ofNat (num % 256)) then
        some ⟨key.take (key.length - 8), num / 256, UInt8.ofNat (num % 256)⟩
      else none

/-- `AppendInternalKey`. -/
def appendInternalKey (k : ParsedInternalKey) : Bytes := k.userKey ++ putFixed 8 (k.sequence * 256 + k.type.toNat)

/-! ### The builder -/

inductive BlobRunMode
  | normal | readOnly | fallback
deriving DecidableEq

structure TableEnv where
  options : Options
  runMode : BlobRunMode
  targetLevel : Int
  mergeLevel : Int
  mergeLowLevel : Bool
  cf : Nat
  maxBufferSize : Nat
  storage : BlobStorage
  /-- The bytes of the registered files. -/
  disk : Nat → Bytes
  /-- What `ReadBuildingFile` hands over: a status, or memory that has been freed. -/
  building : BlobIndex → Except Status Slice

structure TableFaults where
  read : Fault := none
  newPrefetcher : Fault := none
  newFile : Fault := none
  header : Fault := none
  record : Fault := none
  footer : Fault := none
  deleteFile : Fault := none
  base : Fault := none

/-- A call of `Add`; `skipped` file numbers have gone to others since the last one. -/
structure AddCall where
  key : Bytes
  value : Bytes
  skipped : Nat := 0
  faults : TableFaults := {}

/-- The files that `NewFile` has made for one builder, those that are in the directory and `pending_outputs_`. -/
structure OutputFiles where
  created : List Nat
  directory : List Nat
  pendingOutputs : List Nat
deriving DecidableEq

namespace OutputFiles

variable (d : OutputFiles)

def newFile (n : Nat) : OutputFiles := ⟨n :: d.created, n :: d.directory, n :: d.pendingOutputs⟩

/-- `BatchDeleteFiles` for one file: `pending_outputs_` loses it even if the directory does not. -/
def deleteFile (fault : Fault) (n : Nat) : OutputFiles :=
  { d with
    directory := if fault = none then d.directory.filter (· ≠ n) else d.directory
    pendingOutputs := d.pendingOutputs.filter (· ≠ n) }

end OutputFiles

structure TableBuilder where
  status : Status
  /-- The entries handed to `base_builder_`, and its status. -/
  base : List (Bytes × Bytes)
  baseStatus : Status
  handle : Option (Nat × WritableFile)
  blob : Option BlobFileBuilder
  finished : List (BlobFileMeta × WritableFile)
  /-- The files that have a prefetcher in `merging_files_`. -/
  merging : List Nat
  nextFileNumber : Nat
  /-- What the file manager has for it. -/
  files : OutputFiles

namespace TableEnv

variable (env : TableEnv)

/-- `BlobFileCache::FindFile`. -/
def openFile (fault : Fault) (m : BlobFileMeta) : Status :=
  match fault with
  | some msg => .ioError msg
  | none => openReader env.options m.fileSize (env.disk m.fileNumber)

/-- A record of a registered file, through a reader that knows whether the records have keys. -/
def readBlob (fault : Fault) (m : BlobFileMeta) (i : BlobIndex) : Except Status Slice :=
  match env.openFile fault m with
  | .ok =>
    match readRecord env.options.codec (World.readsOnlyValue env.options m) (env.disk m.fileNumber) i.blobHandle with
    | .error f => .error f
    | .ok r => .ok r.value
  | st => .error st

/-- `BlobStorage::Get`. -/
def get (fault : Fault) (i : BlobIndex) : Except Status Slice :=
  match env.storage.findFile i.fileNumber with
  | some m => env.readBlob fault m i
  | none =>
    if env.options.sepBeforeFlush then env.building i
    else .error (.corruption ("Missing blob file: " ++ toString i.fileNumber))

def shouldMerge (file : Option BlobFileMeta) : Bool :=
  file.any fun m => m.fileType = .sorted &&
    ((env.mergeLevel ≤ env.targetLevel && (m.fileLevel : Int) < env.targetLevel) || m.state = .toMerge || m.state = .toGC)

end TableEnv

namespace TableBuilder

def start (nextFileNumber : Nat) : TableBuilder :=
  ⟨.ok, [], .ok, none, none, [], [], nextFileNumber, ⟨[], [], []⟩⟩

variable (env : TableEnv) (b : TableBuilder)

/-- `TitanTableBuilder::status`. -/
def currentStatus : Status :=
  if b.status = .ok then
    if b.baseStatus = .ok then
      match b.blob with
      | none => .ok
      | some blob => blob.status
    else b.baseStatus
  else b.status

def ok : Bool := b.currentStatus = .ok

/-- `base_builder_->Add`; its first error stays. -/
def baseAdd (fault : Fault) (key value : Bytes) : TableBuilder :=
  { b with
    base := b.base ++ [(key, value)]
    baseStatus := if b.baseStatus = .ok then fault.status else b.baseStatus }

def finishBlobFile (footer deleteFile : Fault) : Option TableBuilder :=
  match b.blob, b.handle with
  | none, _ => some b
  | some _, none => none
  | some blob, some (n, file) =>
    let (file, blob) := blob.finish env.options footer file
    let b := { b with blob := some blob, handle := some (n, file) }
    if b.ok then
      some { b with
        finished := b.finished ++ [(⟨n, file.fileSize, blob.numEntries, .sorted, env.targetLevel.toNat,
          blob.smallestKey, blob.largestKey, .pendingLSM, 0⟩, file)]
        handle := none
        blob := none }
    else some { b with status := deleteFile.status, handle := none, files := b.files.deleteFile deleteFile n }

/-- The first part of `AddBlob`: a new file, if none is open. The number is gone even if the file cannot be made. -/
def openBlob (skipped : Nat) (f : TableFaults) : TableBuilder :=
  match b.blob with
  | some _ => b
  | none =>
    let number := b.nextFileNumber + skipped
    let b := { b with nextFileNumber := number + 1 }
    match f.newFile with
    | some msg => { b with status := .ioError msg }
    | none =>
      let (file, blob) := BlobFileBuilder.create f.header number (.create env.maxBufferSize)
      { b with handle := some (number, file), blob := some blob, files := b.files.newFile number }

/-- `AddBlob`, with the index value, which is empty unless the record was appended. -/
def addBlob (skipped : Nat) (f : TableFaults) (key value : Slice) : Option (TableBuilder × Bytes) :=
  if b.ok then
    let b := b.openBlob env skipped f
    match b.handle, b.blob with
    | some (n, file), some blob =>
      let (file, blob, h) := blob.add env.options env.options.levelMerge f.record file ⟨key, value⟩
      let b := { b with handle := some (n, file), blob := some blob }
      if b.ok then
        if env.options.blobFileTargetSize ≤ file.fileSize then
          (b.finishBlobFile env f.footer f.deleteFile).map fun b => (b, encodeTo ⟨n, h⟩)
        else some (b, encodeTo ⟨n, h⟩)
      else some (b, [])
    | _, _ => some (b, [])
  else some (b, [])

/-- The branch of `Add` for an index whose value may go to a new file. -/
def merge (call : AddCall) (ikey : ParsedInternalKey) : Option TableBuilder :=
  match decodeFrom call.value with
  | .error st => some { b with status := st }
  | .ok i =>
    match env.storage.findFile i.fileNumber with
    | none => some (b.baseAdd call.faults.base call.key call.value)
    | some m =>
      if env.shouldMerge (some m) then
        match (if i.fileNumber ∈ b.merging then .ok else env.openFile call.faults.newPrefetcher m) with
        | .ok =>
          let b := if i.fileNumber ∈ b.merging then b else { b with merging := i.fileNumber :: b.merging }
          match env.readBlob call.faults.read m i with
          | .error _ => some (b.baseAdd call.faults.base call.key call.value)
          | .ok value =>
            match b.addBlob env call.skipped call.faults ikey.userKey value with
            | none => none
            | some (b, indexValue) =>
              if b.ok then
                some (b.baseAdd call.faults.base (appendInternalKey { ikey with type := kTypeBlobIndex }) indexValue)
              else some (b.baseAdd call.faults.base call.key call.value)
        | st => some ({ b with status := st }.baseAdd call.faults.base call.key call.value)
      else some (b.baseAdd call.faults.base call.key call.value)

/-- `TitanTableBuilder::Add`. -/
def add (call : AddCall) : Option TableBuilder :=
  if b.ok then
    match parseInternalKey call.key with
    | none => some { b with status := .corruption "" }
    | some ikey =>
      if ikey.type = kTypeBlobIndex ∧ env.runMode = .fallback then
        match decodeFrom call.value with
        | .error st => some { b with status := st }
        | .ok i =>
          match env.get call.faults.read i with
          | .ok value =>
            some (b.baseAdd call.faults.base (appendInternalKey { ikey with type := kTypeValue }) value)
          | .error _ => some (b.baseAdd call.faults.base call.key call.value)
      else if ikey.type = kTypeValue ∧ env.options.minBlobSize ≤ call.value.length ∧ env.runMode = .normal then
        match b.addBlob env call.skipped call.faults ikey.userKey call.value with
        | none => none
        | some (b, indexValue) =>
          if b.ok then
            some (b.baseAdd call.faults.base (appendInternalKey { ikey with type := kTypeBlobIndex }) indexValue)
          else some b
      else if ikey.type = kTypeBlobIndex ∧ env.options.levelMerge = true ∧
          (env.mergeLevel ≤ env.targetLevel ∨ env.mergeLowLevel = true) ∧ env.runMode = .normal then
        b.merge env call ikey
      else some (b.baseAdd call.faults.base call.key call.value)
  else some b

structure FinishFaults where
  base : Fault := none
  footer : Fault := none
  deleteFile : Fault := none
  /-- Of the syncs and closes in `BatchFinishFiles`. -/
  sync : Fault := none
  manifest : ManifestFaults := {}

/-- `FileManager::BatchFinishFiles`. -/
def batchFinishFiles (f : FinishFaults) (files : List BlobFileMeta) (fs : BlobFileSets) : BlobFileSets × Status :=
  if files ≠ [] ∧ f.sync ≠ none then (fs, f.sync.status)
  else
    fs.logAndApply env.options.sepBeforeFlush f.manifest
      { ColumnFamilyEdit.empty with columnFamilyId := env.cf, addedFiles := files }

/-- `TitanTableBuilder::Finish`. -/
def finish (f : FinishFaults) (fs : BlobFileSets) : Option (TableBuilder × BlobFileSets × Status) :=
  let b : TableBuilder := { b with baseStatus := if b.baseStatus = .ok then f.base.status else b.baseStatus }
  match b.finishBlobFile env f.footer f.deleteFile with
  | none => none
  | some b =>
    let (fs, st) := batchFinishFiles env f (b.finished.map fst) fs
    let b := { b with status := st }
    some (b, fs, b.currentStatus)

/-! ### Entries that are not handed over -/

/-- The open blob builder has met an error. -/
def BlobFailed : Prop := ∃ blob ∈ b.blob, blob.status ≠ .ok

/-- A blob builder that is fine has its file. -/
def HasHandle : Prop := ∀ blob ∈ b.blob, blob.status = .ok → b.handle.isSome

variable {env b} {b' : TableBuilder} {f : TableFaults} {call : AddCall}

theorem ok_iff : b.ok = true ↔ b.status = .ok ∧ b.baseStatus = .ok ∧ ¬ b.BlobFailed := by
  unfold ok currentStatus BlobFailed
  split_ifs with hs hbase
  · cases hb : b.blob with
    | none => simp [hs, hbase]
    | some blob => simp [hs, hbase]
  · simp [hbase]
  · simp [hs]

theorem currentStatus_ne_ok : b.currentStatus ≠ .ok ↔ b.status ≠ .ok ∨ b.baseStatus ≠ .ok ∨ b.BlobFailed := by
  have hok : b.currentStatus = .ok ↔ b.ok = true := by rw [ok, decide_eq_true_iff]
  rw [ne_eq, hok, ok_iff]
  tauto

@[simp] theorem length_base_baseAdd {fault : Fault} {key value : Bytes} :
    (b.baseAdd fault key value).base.length = b.base.length + 1 := by simp [baseAdd]

/-- Inside `AddBlob` a file can only fail to be finished because of the blob builder itself. -/
theorem finishBlobFile_spec {footer deleteFile : Fault} (hok : b.ok = true)
    (h : b.finishBlobFile env footer deleteFile = some b') : b'.base = b.base ∧ b'.HasHandle := by
  obtain ⟨hs, hbase, -⟩ := ok_iff.1 hok
  unfold finishBlobFile at h
  split at h
  next _ hblob =>
    cases h
    exact ⟨rfl, fun blob hmem => by rw [hblob] at hmem; cases hmem⟩
  · cases h
  next blob n file hblob hhandle =>
    dsimp only at h
    split at h
    · cases h
      exact ⟨rfl, nofun⟩
    next hbad =>
      cases h
      refine ⟨rfl, fun blob' hmem hst => absurd ?_ hbad⟩
      cases hmem
      refine ok_iff.2 ⟨hs, hbase, ?_⟩
      rintro ⟨blob', hmem', hne⟩
      cases hmem'
      exact hne hst

theorem openBlob_spec (env : TableEnv) (f : TableFaults) (skipped : Nat) (hh : b.HasHandle) :
    (b.openBlob env skipped f).base = b.base ∧ (b.openBlob env skipped f).HasHandle := by
  unfold openBlob
  split
  · exact ⟨rfl, hh⟩
  next hblob =>
    split
    · exact ⟨rfl, hh⟩
    · exact ⟨rfl, fun _ _ _ => rfl⟩

theorem addBlob_spec {skipped : Nat} {key value : Slice} {i : Bytes} (hh : b.HasHandle)
    (h : b.addBlob env skipped f key value = some (b', i)) : b'.base = b.base ∧ b'.HasHandle := by
  obtain ⟨hbase, hopen⟩ := openBlob_spec env f skipped hh
  unfold addBlob at h
  split at h
  · dsimp only at h
    split at h
    next n file blob hhandle hblob =>
      split at h
      next hok =>
        split at h
        · obtain ⟨b₁, hfinish, heq⟩ := map_eq_some_iff.1 h
          cases heq
          obtain ⟨hb, hh'⟩ := finishBlobFile_spec hok hfinish
          exact ⟨hb.trans hbase, hh'⟩
        · cases h
          exact ⟨hbase, fun _ _ _ => rfl⟩
      · cases h
        exact ⟨hbase, fun _ _ _ => rfl⟩
    · cases h
      exact ⟨hbase, hopen⟩
  · cases h
    exact ⟨rfl, hh⟩

/-- Nothing that concerns the blob files differs. -/
def SameOutputs (b b' : TableBuilder) : Prop :=
  b'.handle = b.handle ∧ b'.blob = b.blob ∧ b'.finished = b.finished ∧ b'.nextFileNumber = b.nextFileNumber ∧
    b'.files = b.files

/-- One entry is handed over, or none and the builder is left in error. -/
structure Passes (b b' : TableBuilder) : Prop where
  same : b.SameOutputs b'
  base : b'.base.length = b.base.length + 1 ∨ b'.base = b.base ∧ b'.ok = false

theorem Passes.baseAdd (fault : Fault) (key value : Bytes) : b.Passes (b.baseAdd fault key value) :=
  ⟨⟨rfl, rfl, rfl, rfl, rfl⟩, .inl length_base_baseAdd⟩

theorem Passes.of_status {st : Status} (hst : st ≠ .ok) : b.Passes { b with status := st } :=
  ⟨⟨rfl, rfl, rfl, rfl, rfl⟩, .inr ⟨rfl, Bool.eq_false_iff.2 fun hok => hst (ok_iff.1 hok).1⟩⟩

/-- An entry is handed over, after what `AddBlob` has done for it if it is called. -/
inductive AddCases (env : TableEnv) (call : AddCall) (b b' : TableBuilder) : Prop
  | plain (h : b.Passes b')
  | blob {b₁ b₂ : TableBuilder} {key value : Slice} {i : Bytes} (same : b.SameOutputs b₁) (base : b₁.base = b.base)
    (hadd : b₁.addBlob env call.skipped call.faults key value = some (b₂, i)) (h : b₂.Passes b')

theorem merge_cases {ikey : ParsedInternalKey} (h : b.merge env call ikey = some b') : b.AddCases env call b' := by
  unfold merge at h
  split at h
  next hdecode =>
    cases h
    exact .plain (.of_status (ne_ok_of_decodeFrom hdecode))
  next i _ =>
    split at h
    · cases h
      exact .plain (.baseAdd ..)
    · split at h
      · have hmerging : ∀ b₁ : TableBuilder,
            b₁ = (if i.fileNumber ∈ b.merging then b else { b with merging := i.fileNumber :: b.merging }) →
              b.SameOutputs b₁ ∧ b₁.base = b.base := by
          rintro b₁ rfl
          split <;> exact ⟨⟨rfl, rfl, rfl, rfl, rfl⟩, rfl⟩
        obtain ⟨hsame, hbase⟩ := hmerging _ rfl
        split at h
        · dsimp only at h
          split at h
          · cases h
            exact .plain ⟨hsame, .inl (by rw [length_base_baseAdd, hbase])⟩
          · split at h
            · cases h
            next hadd =>
              refine .blob hsame hbase hadd ?_
              split at h <;> cases h <;> exact .baseAdd ..
        · cases h
          exact .plain ⟨⟨rfl, rfl, rfl, rfl, rfl⟩, .inl length_base_baseAdd⟩
      · cases h
        exact .plain (.baseAdd ..)

theorem add_of_not_ok (hok : b.ok = false) : b.add env call = some b := by simp [add, hok]

theorem add_cases (hok : b.ok = true) (h : b.add env call = some b') : b.AddCases env call b' := by
  unfold add at h
  rw [if_pos hok] at h
  split at h
  · cases h
    exact .plain (.of_status nofun)
  · split at h
    · split at h
      next hdecode =>
        cases h
        exact .plain (.of_status (ne_ok_of_decodeFrom hdecode))
      · split at h <;> cases h <;> exact .plain (.baseAdd ..)
    · split at h
      · split at h
        · cases h
        next hadd =>
          refine .blob ⟨rfl, rfl, rfl, rfl, rfl⟩ rfl hadd ?_
          split at h
          · cases h
            exact .baseAdd ..
          next hbad =>
            cases h
            exact ⟨⟨rfl, rfl, rfl, rfl, rfl⟩, .inr ⟨rfl, Bool.eq_false_iff.2 hbad⟩⟩
      · split at h
        · exact merge_cases h
        · cases h
          exact .plain (.baseAdd ..)

theorem HasHandle.congr (h : b.HasHandle) (hsame : b.SameOutputs b') : b'.HasHandle := by
  intro blob hmem hst
  rw [hsame.2.1] at hmem
  rw [hsame.1]
  exact h blob hmem hst

theorem add_spec (hok : b.ok = true) (hh : b.HasHandle) (h : b.add env call = some b') :
    b'.HasHandle ∧ (b'.base.length = b.base.length + 1 ∨ b'.base = b.base ∧ b'.ok = false) := by
  cases add_cases hok h with
  | plain hpasses => exact ⟨hh.congr hpasses.same, hpasses.base⟩
  | blob hsame hbase hadd hpasses =>
    obtain ⟨hbase₂, hh₂⟩ := addBlob_spec (hh.congr hsame) hadd
    rw [← hbase, ← hbase₂]
    exact ⟨hh₂.congr hpasses.same, hpasses.base⟩

/-- The run: a builder that is fine has handed over as many entries as there were calls. -/
theorem run_add_spec {next : Nat} {calls : List AddCall} (h : run (add env) (start next) calls = some b) :
    b.HasHandle ∧ (b.base.length < calls.length → b.ok = false) := by
  have hinv : b.HasHandle ∧ (b.base.length < calls.foldl (fun k _ => k + 1) 0 → b.ok = false) := by
    refine run_inv_ghost (I := fun k b => b.HasHandle ∧ (b.base.length < k → b.ok = false))
      (fun k b call b' hI _ hadd => ?_)
      ⟨nofun, fun h => absurd h (Nat.not_lt_zero _)⟩ (AllSteps.of_forall fun _ _ => trivial) h
    cases hok : b.ok with
    | false =>
      rw [add_of_not_ok hok] at hadd
      cases hadd
      exact ⟨hI.1, fun _ => hok⟩
    | true =>
      obtain ⟨hh, hone | ⟨-, hbad⟩⟩ := add_spec hok hI.1 hadd
      · refine ⟨hh, fun hlt => absurd (hI.2 ?_) (by simp [hok])⟩
        omega
      · exact ⟨hh, fun _ => hbad⟩
  have hcount : calls.foldl (fun k _ => k + 1) 0 = calls.length := by simp
  rwa [hcount] at hinv

/-! ### Errors that `Finish` overwrites -/

/-- The call meets none of the errors that only `status_` keeps (an internal key or an index that does not decode, a
file or a prefetcher that cannot be opened), and none after which the open builder has lost its file. -/
structure Heard (env : TableEnv) (call : AddCall) : Prop where
  key : parseInternalKey call.key ≠ none
  index : ∀ ikey, parseInternalKey call.key = some ikey → ikey.type = kTypeBlobIndex →
    ∃ i, decodeFrom call.value = .ok i
  newFile : call.faults.newFile = none
  prefetcher : ∀ i m, decodeFrom call.value = .ok i → env.storage.findFile i.fileNumber = some m →
    env.openFile call.faults.newPrefetcher m = .ok
  footer : call.faults.footer = none

/-- Whatever error there is, a builder has it, and an open file has its handle. -/
structure Keeps (b : TableBuilder) : Prop where
  status : b.status = .ok
  handle : b.blob.isSome → b.handle.isSome

theorem Keeps.baseAdd (h : b.Keeps) (fault : Fault) (key value : Bytes) : (b.baseAdd fault key value).Keeps :=
  ⟨h.status, h.handle⟩

/-- A builder that is fine can be finished. -/
theorem keeps_of_finishBlobFile {deleteFile : Fault} (hok : b.ok = true)
    (h : b.finishBlobFile env none deleteFile = some b') : b'.Keeps := by
  obtain ⟨hs, hbase, hblob⟩ := ok_iff.1 hok
  unfold finishBlobFile at h
  split at h
  next hb =>
    cases h
    exact ⟨hs, by simp [hb]⟩
  · cases h
  next blob n file hb hh =>
    dsimp only at h
    split at h
    · cases h
      exact ⟨hs, nofun⟩
    next hbad =>
      refine (hbad (ok_iff.2 ⟨hs, hbase, ?_⟩)).elim
      rintro ⟨_, ⟨⟩, hne⟩
      refine hne (((blob.finish_spec env.options none file).2.2).2 ⟨?_, rfl⟩)
      by_contra hst
      exact hblob ⟨blob, hb, hst⟩

theorem Keeps.addBlob {skipped : Nat} {key value : Slice} {i : Bytes} (h : b.Keeps) (hnew : f.newFile = none)
    (hfooter : f.footer = none) (hadd : b.addBlob env skipped f key value = some (b', i)) : b'.Keeps := by
  unfold TableBuilder.addBlob at hadd
  split at hadd
  swap
  · cases hadd
    exact h
  have hopen : (b.openBlob env skipped f).Keeps := by
    unfold openBlob
    split
    · exact h
    · rw [hnew]
      exact ⟨h.status, fun _ => rfl⟩
  dsimp only at hadd
  split at hadd
  · split at hadd
    next hok =>
      split at hadd
      · obtain ⟨b₁, hfinish, heq⟩ := map_eq_some_iff.1 hadd
        cases heq
        rw [hfooter] at hfinish
        exact keeps_of_finishBlobFile hok hfinish
      · cases hadd
        exact ⟨hopen.status, fun _ => rfl⟩
    · cases hadd
      exact ⟨hopen.status, fun _ => rfl⟩
  · cases hadd
    exact hopen

theorem Keeps.merge {ikey : ParsedInternalKey} (h : b.Keeps) (hc : Heard env call)
    (hindex : ∃ i, decodeFrom call.value = .ok i) (hm : b.merge env call ikey = some b') : b'.Keeps := by
  obtain ⟨i, hi⟩ := hindex
  unfold TableBuilder.merge at hm
  simp only [hi] at hm
  split at hm
  · cases hm
    exact h.baseAdd ..
  next m hfile =>
    split at hm
    · have hopen : (if i.fileNumber ∈ b.merging then Status.ok else env.openFile call.faults.newPrefetcher m) = .ok := by
        rw [hc.prefetcher i m hi hfile, ite_self]
      simp only [hopen] at hm
      have hmerging : (if i.fileNumber ∈ b.merging then b else { b with merging := i.fileNumber :: b.merging }).Keeps := by
        split
        · exact h
        · exact ⟨h.status, h.handle⟩
      split at hm
      · cases hm
        exact hmerging.baseAdd ..
      · split at hm
        · cases hm
        next hadd =>
          have hadded := hmerging.addBlob hc.newFile hc.footer hadd
          split at hm <;> cases hm <;> exact hadded.baseAdd ..
    · cases hm
      exact h.baseAdd ..

theorem Keeps.add (h : b.Keeps) (hc : b.ok = true → Heard env call) (hadd : b.add env call = some b') : b'.Keeps := by
  unfold TableBuilder.add at hadd
  split at hadd
  swap
  · cases hadd
    exact h
  next hok =>
    have hc := hc hok
    split at hadd
    next hnone => exact absurd hnone hc.key
    next ikey hikey =>
      split at hadd
      next hfallback =>
        obtain ⟨i, hi⟩ := hc.index ikey hikey hfallback.1
        simp only [hi] at hadd
        split at hadd <;> cases hadd <;> exact h.baseAdd ..
      · split at hadd
        · split at hadd
          · cases hadd
          next hblob =>
            have hadded := h.addBlob hc.newFile hc.footer hblob
            split at hadd <;> cases hadd
            · exact hadded.baseAdd ..
            · exact hadded
        · split at hadd
          next hmerge => exact h.merge hc (hc.index ikey hikey hmerge.1) hadd
          · cases hadd
            exact h.baseAdd ..

/-- `Finish` returns, and not with OK. -/
def FinishFails (env : TableEnv) (f : FinishFaults) (fs : BlobFileSets) (b : TableBuilder) : Prop :=
  ∃ r, b.finish env f fs = some r ∧ r.2.2 ≠ .ok

section finish
variable {f : FinishFaults} {fs : BlobFileSets}

/-- An error of one of the two builders outlives `Finish`. -/
theorem Keeps.finishFails (h : b.Keeps) (hbad : b.ok = false) : b.FinishFails env f fs := by
  have herror : b.baseStatus ≠ .ok ∨ b.BlobFailed := by
    by_contra hnone
    rw [not_or, not_not] at hnone
    exact Bool.eq_false_iff.1 hbad (ok_iff.2 ⟨h.status, hnone⟩)
  set base := if b.baseStatus = .ok then f.base.status else b.baseStatus with hbase
  have hstays : b.baseStatus ≠ .ok → base ≠ .ok := fun hne => by rwa [hbase, if_neg hne]
  cases hb : b.blob with
  | none =>
    have hne : b.baseStatus ≠ .ok := herror.resolve_right (by simp [BlobFailed, hb])
    refine ⟨_, by simp only [finish, finishBlobFile, hb]; rfl, currentStatus_ne_ok.2 (.inr (.inl (hstays hne)))⟩
  | some blob =>
    obtain ⟨p, hp⟩ := isSome_iff_exists.1 (h.handle (by rw [hb]; rfl))
    have hfinish (hne : blob.status ≠ .ok) : (blob.finish env.options f.footer p.2).2.status ≠ .ok :=
      fun hst => hne ((blob.finish_spec env.options f.footer p.2).2.2.1 hst).1
    have hnot : ¬ ok { b with
        baseStatus := base
        blob := some (blob.finish env.options f.footer p.2).2
        handle := some (p.1, (blob.finish env.options f.footer p.2).1) } = true := by
      intro hok
      obtain ⟨-, hbase', hblob⟩ := ok_iff.1 hok
      rcases herror with hne | ⟨blob', hmem, hne⟩
      · exact hstays hne hbase'
      · rw [hb] at hmem
        cases hmem
        exact hblob ⟨_, rfl, hfinish hne⟩
    refine ⟨_, by simp only [finish, finishBlobFile, hb, hp]; rw [if_neg (by exact hnot)], currentStatus_ne_ok.2 ?_⟩
    refine .inr (herror.imp hstays ?_)
    rintro ⟨blob', hmem, hne⟩
    rw [hb] at hmem
    cases hmem
    exact ⟨_, rfl, hfinish hne⟩

/-- `Finish` reports that a call handed over nothing, each call handing over one entry at most, if no call that is still
looked at meets an error that `Finish` overwrites. -/
theorem finish_reports_dropped (env : TableEnv) (next : Nat) (calls : List AddCall) (b : TableBuilder)
    (h : run (add env) (start next) calls = some b)
    (hheard : AllSteps (add env) (fun b call => b.ok = true → Heard env call) (start next) calls) (f : FinishFaults)
    (fs : BlobFileSets) (hdropped : b.base.length < calls.length) : b.FinishFails env f fs := by
  have hkeeps : b.Keeps := run_inv (fun _ _ _ hk hc hadd => hk.add hc hadd) ⟨rfl, by simp [start]⟩ hheard h
  exact hkeeps.finishFails ((run_add_spec h).2 hdropped)

/-- A flush that separates every value but the empty one, with no blob files yet. -/
def flushEnv : TableEnv :=
  ⟨.small false false, .normal, 0, 5, false, 0, 65536, ⟨[], [], []⟩, fun _ => [], fun _ => .error (.corruption "")⟩

def flushFileSet : BlobFileSets := ⟨OrdMap.empty.alter 0 fun _ => flushEnv.storage, [], 1⟩

def failedAppend : AddCall :=
  { key := appendInternalKey ⟨[97], 5, kTypeValue⟩, value := [7], faults := { record := some "append" } }

/-- An append that fails is reported. -/
theorem finish_reports_failed_append :
    ∃ b, run (add flushEnv) (start 1) [failedAppend] = some b ∧ b.base.length < 1 ∧
      b.FinishFails flushEnv {} flushFileSet := by
  refine exists_of_map (fun b => b.base) [] (by decide +kernel) fun b hb hdata => ?_
  have hlt : b.base.length < 1 := by rw [hdata]; exact Nat.one_pos
  have hheard : ∀ call ∈ [failedAppend], Heard flushEnv call := by
    rintro call hmem
    obtain rfl := List.mem_singleton.1 hmem
    refine ⟨by decide, fun ikey h htype => ?_, rfl, nofun, rfl⟩
    cases h
    cases htype
  exact ⟨hlt, finish_reports_dropped flushEnv 1 _ b hb (.of_forall fun call hmem _ => hheard call hmem) {}
    flushFileSet hlt⟩

/-- A file that could not be made is not: neither of the two entries is in the table, and `Finish` returns OK. -/
theorem finish_ok_after_failed_newFile :
    ((run (add flushEnv) (start 1)
        [{ key := appendInternalKey ⟨[97], 5, kTypeValue⟩, value := [7], faults := { newFile := some "no space" } },
          { key := appendInternalKey ⟨[98], 6, kTypeValue⟩, value := [] }]).bind fun b =>
      (b.finish flushEnv {} flushFileSet).map fun r => (b.base, r.2.2)) = some ([], .ok) := by decide +kernel

end finish

end TableBuilder

end ValueSep.DiffKV
