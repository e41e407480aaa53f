import ValueSep.DiffKV.Format

/-!
# Blob file metadata, the blob storage and version edits

`BlobFileMeta` with its state machine, `BlobStorage` (`files_`, `building_files_`, `obsolete_files_`) and
`EditCollector`. One column family; `files_` is a list searched by number, and the lemmas on `findFile` say
what each operation does to it. Failed assertions of the source are not stops: they are compiled out of the
builds the benchmark runs.
-/

namespace ValueSep.DiffKV

open List

inductive FileState
  | init | normal | pendingLSM | beingGC | pendingGC | obsolete | toMerge | toGC
deriving DecidableEq, Repr

inductive FileEvent
  | flushCompleted | compactionCompleted | gcCompleted | gcBegin | gcOutput | flushOrCompactionOutput
  | dbRestart | delete | needMerge | reset | needGC
deriving DecidableEq, Repr

inductive FileType
  | sorted | unSorted
deriving DecidableEq, Repr

/-- `BlobFileMeta::FileStateTransit`. -/
def FileState.transit (s : FileState) : FileEvent → FileState
  | .flushCompleted => if s = .pendingLSM then .normal else s
  | .gcCompleted => if s = .obsolete then s else .normal
  | .compactionCompleted => .normal
  | .gcBegin => .beingGC
  | .gcOutput => .pendingGC
  | .flushOrCompactionOutput => .pendingLSM
  | .dbRestart => .normal
  | .delete => .obsolete
  | .needMerge => if s = .toGC ∨ s = .obsolete then s else .toMerge
  | .reset => .normal
  | .needGC => if s = .obsolete then s else .toGC

structure BlobFileMeta where
  fileNumber : Nat
  fileSize : Nat
  fileEntries : Nat
  fileType : FileType
  fileLevel : Nat
  smallestKey : Slice
  largestKey : Slice
  state : FileState
  discardableSize : Nat
deriving DecidableEq, Repr

namespace BlobFileMeta

def isObsolete (m : BlobFileMeta) : Bool := m.state = .obsolete

def fileStateTransit (e : FileEvent) (m : BlobFileMeta) : BlobFileMeta := { m with state := m.state.transit e }

def addDiscardableSize (n : Nat) (m : BlobFileMeta) : BlobFileMeta :=
  { m with discardableSize := (m.discardableSize + n) % 2 ^ 64 }

/-- The fields `EncodeTo` writes; the others are as in a new object. -/
def persisted (m : BlobFileMeta) : BlobFileMeta := { m with state := .init, discardableSize := 0 }

@[simp] theorem fileNumber_persisted (m : BlobFileMeta) : m.persisted.fileNumber = m.fileNumber := rfl

theorem fileType_of_persisted {m m' : BlobFileMeta} (h : m'.persisted = m.persisted) : m'.fileType = m.fileType := by
  have htype : m'.persisted.fileType = m.persisted.fileType := by rw [h]
  exact htype

theorem fileSize_of_persisted {m m' : BlobFileMeta} (h : m'.persisted = m.persisted) : m'.fileSize = m.fileSize := by
  have hsize : m'.persisted.fileSize = m.persisted.fileSize := by rw [h]
  exact hsize

@[simp] theorem fileNumber_fileStateTransit (e : FileEvent) (m : BlobFileMeta) :
    (m.fileStateTransit e).fileNumber = m.fileNumber := rfl

@[simp] theorem fileType_fileStateTransit (e : FileEvent) (m : BlobFileMeta) :
    (m.fileStateTransit e).fileType = m.fileType := rfl

@[simp] theorem isObsolete_fileStateTransit_delete (m : BlobFileMeta) :
    (m.fileStateTransit .delete).isObsolete = true := rfl

end BlobFileMeta

/-! ### Blob storage -/

structure BlobStorage where
  files : List BlobFileMeta
  buildingFiles : List Nat
  obsoleteFiles : List (Nat × SequenceNumber)

namespace BlobStorage

variable (s : BlobStorage)

def findFile (n : Nat) : Option BlobFileMeta := s.files.find? fun m => m.fileNumber == n

/-- `FindBuildingFile`: whether a reader is registered for a file still being built. -/
def findBuildingFile (n : Nat) : Bool := s.buildingFiles.contains n

/-- `emplace` leaves an existing entry alone; in `sep_before_flush` mode the file stops being a building one. -/
def addBlobFile (sep : Bool) (file : BlobFileMeta) : BlobStorage :=
  { s with
    files := if (s.findFile file.fileNumber).isSome then s.files else s.files ++ [file]
    buildingFiles := if sep then s.buildingFiles.filter (· ≠ file.fileNumber) else s.buildingFiles }

def addBuildingFile (n : Nat) : BlobStorage := { s with buildingFiles := n :: s.buildingFiles }

def updateFile (n : Nat) (f : BlobFileMeta → BlobFileMeta) : BlobStorage :=
  { s with files := s.files.map fun m => if m.fileNumber = n then f m else m }

/-- `MarkFileObsolete` on a file that exists. -/
def markFileObsolete (n : Nat) (obsoleteSequence : SequenceNumber) : BlobStorage :=
  { s.updateFile n (·.fileStateTransit .delete) with
    obsoleteFiles := s.obsoleteFiles ++ [(n, obsoleteSequence)] }

/-- The events of `BlobGC` on all its files. -/
def transitFiles (e : FileEvent) (ns : List Nat) : BlobStorage :=
  ns.foldl (fun s n => s.updateFile n (·.fileStateTransit e)) s

/-- `GetObsoleteFiles`: forgets the obsolete files no snapshot from `oldestSequence` on can see and
returns their numbers. -/
def getObsoleteFiles (oldestSequence : SequenceNumber) : BlobStorage × List Nat :=
  let removed := (s.obsoleteFiles.filter fun p => p.2 < oldestSequence).map Prod.fst
  ({ s with
     files := s.files.filter fun m => m.fileNumber ∉ removed
     obsoleteFiles := s.obsoleteFiles.filter fun p => ¬ p.2 < oldestSequence }, removed)

section findFile
variable {s}

theorem fileNumber_of_findFile {n : Nat} {m : BlobFileMeta} (h : s.findFile n = some m) : m.fileNumber = n := by
  simpa using find?_some h

theorem findFile_addBlobFile (sep : Bool) (file : BlobFileMeta) (n : Nat) :
    (s.addBlobFile sep file).findFile n = (s.findFile n).or (if file.fileNumber = n then some file else none) := by
  have hone : [file].find? (fun m => m.fileNumber == n) = if file.fileNumber = n then some file else none := by
    simp [find?_cons]; split <;> simp_all
  by_cases h : (s.findFile file.fileNumber).isSome
  · have hadd : (s.addBlobFile sep file).files = s.files := if_pos h
    rw [findFile, hadd, ← findFile]
    split
    next he => rw [← he, Option.or_of_isSome h]
    next => simp
  · have hadd : (s.addBlobFile sep file).files = s.files ++ [file] := if_neg h
    rw [findFile, hadd, find?_append, hone, ← findFile]

@[simp] theorem findFile_addBuildingFile (b n : Nat) : (s.addBuildingFile b).findFile n = s.findFile n := rfl

@[simp] theorem obsoleteFiles_addBuildingFile (b : Nat) : (s.addBuildingFile b).obsoleteFiles = s.obsoleteFiles := rfl

theorem findFile_updateFile {f : BlobFileMeta → BlobFileMeta} (hf : ∀ m, (f m).fileNumber = m.fileNumber)
    (n k : Nat) :
    (s.updateFile n f).findFile k = if k = n then (s.findFile k).map f else s.findFile k := by
  have hp : ((fun m : BlobFileMeta => m.fileNumber == k) ∘ fun m => if m.fileNumber = n then f m else m) =
      fun m => m.fileNumber == k := by
    funext m; simp only [Function.comp]; split <;> simp [hf]
  simp only [findFile, updateFile, find?_map, hp]
  cases hfind : s.files.find? fun m => m.fileNumber == k with
  | none => simp
  | some m =>
    have hm : m.fileNumber = k := by simpa using find?_some hfind
    simp only [Option.map_some, hm]; split <;> rfl

theorem findFile_foldl_updateFile {f : BlobFileMeta → BlobFileMeta} (hf : ∀ m, (f m).fileNumber = m.fileNumber)
    (hidem : ∀ m, f (f m) = f m) (ns : List Nat) (s : BlobStorage) (n : Nat) :
    (ns.foldl (fun s k => s.updateFile k f) s).findFile n =
      if n ∈ ns then (s.findFile n).map f else s.findFile n := by
  induction ns generalizing s with
  | nil => rfl
  | cons k ns ih =>
    rw [foldl_cons, ih, findFile_updateFile hf]
    by_cases hk : n = k <;> by_cases hn : n ∈ ns <;> simp [hk, hn, Function.comp_def, hidem]

theorem foldl_updateFile_frame (f : BlobFileMeta → BlobFileMeta) (ns : List Nat) (s : BlobStorage) :
    (ns.foldl (fun s k => s.updateFile k f) s).buildingFiles = s.buildingFiles ∧
      (ns.foldl (fun s k => s.updateFile k f) s).obsoleteFiles = s.obsoleteFiles := by
  induction ns generalizing s with
  | nil => exact ⟨rfl, rfl⟩
  | cons k ns ih => exact ih (s.updateFile k f)

theorem findFile_markFileObsolete (n k : Nat) (q : SequenceNumber) :
    (s.markFileObsolete n q).findFile k =
      if k = n then (s.findFile k).map (·.fileStateTransit .delete) else s.findFile k :=
  findFile_updateFile (f := (·.fileStateTransit .delete)) (fun _ => rfl) n k

theorem findFile_getObsoleteFiles (oldest : SequenceNumber) (n : Nat) :
    (s.getObsoleteFiles oldest).1.findFile n =
      if n ∈ (s.getObsoleteFiles oldest).2 then none else s.findFile n := by
  have hfiles : (s.getObsoleteFiles oldest).1.files =
      s.files.filter fun m => m.fileNumber ∉ (s.getObsoleteFiles oldest).2 := rfl
  rw [findFile, hfiles, find?_filter]
  by_cases h : n ∈ (s.getObsoleteFiles oldest).2
  · rw [if_pos h, find?_eq_none]
    rintro m - hm
    simp only [decide_eq_true_eq, beq_iff_eq] at hm
    exact hm.1 (hm.2 ▸ h)
  · rw [if_neg h]
    congr 1; funext m
    by_cases hm : m.fileNumber = n <;> simp [hm, h]

theorem findBuildingFile_addBlobFile (sep : Bool) (file : BlobFileMeta) (n : Nat) :
    (s.addBlobFile sep file).findBuildingFile n = (s.findBuildingFile n && !(sep && decide (n = file.fileNumber))) := by
  cases sep <;> rw [Bool.eq_iff_iff] <;> simp [findBuildingFile, addBlobFile]

@[simp] theorem findBuildingFile_addBuildingFile (b n : Nat) :
    (s.addBuildingFile b).findBuildingFile n = (decide (n = b) || s.findBuildingFile n) := by
  simp [findBuildingFile, addBuildingFile]

end findFile

end BlobStorage

end ValueSep.DiffKV
