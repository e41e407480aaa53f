import ValueSep.Lib.Keyed
import ValueSep.DiffKV.Storage

/-!
# Version edits, the manifest and recovery

`EditCollector`, `BlobFileSet::LogAndApply` and `BlobFileSet::Recover`. The manifest is the list of edits
`Recover` will decode, oldest first, with the number of records known to be synced; what a version edit
does not persist (file states, discardable sizes, obsolete sequences) is gone in `VersionEdit.persisted`.
-/

namespace ValueSep.DiffKV

open Keyed
open List BlobStorage BlobFileMeta

structure VersionEdit where
  nextFileNumber : Option Nat
  addedFiles : List BlobFileMeta
  deletedFiles : List (Nat × SequenceNumber)
  updatedDiscardableSize : List (Nat × Nat)
deriving DecidableEq, Repr

/-- `DecodeFrom` of `EncodeTo`. -/
def VersionEdit.persisted (e : VersionEdit) : VersionEdit :=
  { e with
    addedFiles := e.addedFiles.map BlobFileMeta.persisted
    deletedFiles := e.deletedFiles.map fun p => (p.1, 0) }

structure EditCollector where
  addedFiles : List BlobFileMeta
  deletedFiles : List (Nat × SequenceNumber)
  updatedDiscardableSize : List (Nat × Nat)
  nextFileNumber : Option Nat

namespace EditCollector

def empty : EditCollector := ⟨[], [], [], none⟩

variable (c : EditCollector)

def adds (n : Nat) : Bool := n ∈ c.addedFiles.map BlobFileMeta.fileNumber
def deletes (n : Nat) : Bool := n ∈ c.deletedFiles.map Prod.fst

def addFile : List BlobFileMeta → BlobFileMeta → Except String (List BlobFileMeta) :=
  insertNew BlobFileMeta.fileNumber fun f => "Blob file " ++ toString f.fileNumber ++ " has been added twice"

def deleteFile : List (Nat × SequenceNumber) → Nat × SequenceNumber → Except String (List (Nat × SequenceNumber)) :=
  insertNew Prod.fst fun p => "Blob file " ++ toString p.1 ++ " has been deleted twice"

/-- The first delta collected for a file is the one that counts. -/
def updateFile : List (Nat × Nat) → Nat × Nat → List (Nat × Nat) := emplace Prod.fst

def setNextFileNumber : Option Nat → Except String EditCollector
  | none => .ok c
  | some n =>
    if n < c.nextFileNumber.getD 0 then
      .error ("Edit has a smaller next file number " ++ toString n ++ " than current " ++
        toString (c.nextFileNumber.getD 0))
    else .ok { c with nextFileNumber := some n }

/-- `AddEdit`; every error is a corruption, given here by its message. -/
def addEdit (e : VersionEdit) : Except String EditCollector := do
  let addedFiles ← e.addedFiles.foldlM addFile c.addedFiles
  let deletedFiles ← e.deletedFiles.foldlM deleteFile c.deletedFiles
  let updatedDiscardableSize := e.updatedDiscardableSize.foldl updateFile c.updatedDiscardableSize
  setNextFileNumber { c with addedFiles, deletedFiles, updatedDiscardableSize } e.nextFileNumber

/-- `CFEditCollector::Seal`. -/
def sealStatus (s : BlobStorage) : Status :=
  match c.addedFiles.find? fun f => (s.findFile f.fileNumber).isSome with
  | some f =>
    if (s.findFile f.fileNumber).any BlobFileMeta.isObsolete then
      .corruption ("Blob file " ++ toString f.fileNumber ++ " has been deleted before")
    else .corruption ("Blob file " ++ toString f.fileNumber ++ " has been added before")
  | none =>
    match c.deletedFiles.find? fun p => !c.adds p.1 && (s.findFile p.1).all BlobFileMeta.isObsolete with
    | some p =>
      if (s.findFile p.1).isNone then .corruption ("Blob file " ++ toString p.1 ++ " doesn't exist before")
      else .corruption ("Blob file " ++ toString p.1 ++ " has been deleted already")
    | none => .ok

def markFilesObsolete (s : BlobStorage) : List (Nat × SequenceNumber) → BlobStorage × Status
  | [] => (s, .ok)
  | p :: ps =>
    if (s.findFile p.1).isNone then (s, .notFound ("Invalid file number " ++ toString p.1))
    else markFilesObsolete (s.markFileObsolete p.1 p.2) ps

/-- `CFEditCollector::Apply`; files both added and deleted are skipped. -/
def apply (sep : Bool) (s : BlobStorage) : BlobStorage × Status :=
  let s := (c.addedFiles.filter fun f => !c.deletes f.fileNumber).foldl (·.addBlobFile sep ·) s
  match markFilesObsolete s (c.deletedFiles.filter fun p => !c.adds p.1) with
  | (s, .ok) => (c.updatedDiscardableSize.foldl (fun s d => s.updateFile d.1 (·.addDiscardableSize d.2)) s, .ok)
  | (s, st) => (s, st)

end EditCollector

/-! ### The blob file set -/

structure BlobFileSet where
  storage : BlobStorage
  manifest : List VersionEdit
  manifestSynced : Nat
  nextFileNumber : Nat

/-- Faults of one manifest write. -/
structure ManifestFaults where
  addRecord : Fault := none
  sync : Fault := none
deriving DecidableEq, Repr

namespace ManifestFaults

variable {σ τ κ ι : Type} {f : ManifestFaults} {s written : σ} {collected : Except String κ} {sealStatus : κ → Status}
variable {apply : κ → σ × Status}

/-- `LogAndApply` of a file set `s`, for any collector: the edit is collected, sealed, written, synced and applied. -/
def log (f : ManifestFaults) (s : σ) (collected : Except String κ) (sealStatus : κ → Status) (written : σ)
    (apply : κ → σ × Status) : σ × Status :=
  match collected with
  | .error m => (s, .corruption m)
  | .ok c =>
    match sealStatus c with
    | .ok =>
      match f.addRecord, f.sync with
      | some m, _ => (s, .ioError m)
      | none, some m => (written, .ioError m)
      | none, none => apply c
    | st => (s, st)

@[elab_as_elim]
theorem log_rule {P : σ × Status → Prop} {r : σ × Status} (hr : f.log s collected sealStatus written apply = r)
    (hfail : ∀ st, st ≠ .ok → P (s, st))
    (hsync : ∀ c m, collected = .ok c → sealStatus c = .ok → f.sync = some m → P (written, .ioError m))
    (happly : ∀ c, collected = .ok c → sealStatus c = .ok → f.addRecord = none → f.sync = none → P (apply c)) :
    P r := by
  subst hr
  unfold log
  split
  · exact hfail _ nofun
  next c =>
    split
    next hseal =>
      split
      · exact hfail _ nofun
      next m _ hm => exact hsync c m rfl hseal hm
      next hadd hm => exact happly c rfl hseal hadd hm
    next hst => exact hfail _ hst

theorem log_eq {c : κ} (hc : collected = .ok c) (hseal : sealStatus c = .ok) (hadd : f.addRecord = none)
    (hsync : f.sync = none) : f.log s collected sealStatus written apply = apply c := by
  simp only [log, hc, hseal, hadd, hsync]

/-- Two models of the file set in step: `g` takes one collector to the other. -/
theorem log_rel {R : σ → τ → Prop} {t written' : τ} {collected' : Except String ι} {sealStatus' : ι → Status}
    {apply' : ι → τ × Status} {g : κ → ι} {r : σ × Status} {r' : τ × Status}
    (hr : f.log s collected sealStatus written apply = r) (hr' : f.log t collected' sealStatus' written' apply' = r')
    (hcollected : collected' = collected.map g) (hseal : ∀ c, sealStatus' (g c) = sealStatus c) (hs : R s t)
    (hwritten : R written written')
    (happly : ∀ c, sealStatus c = .ok → (apply c).2 = (apply' (g c)).2 ∧ R (apply c).1 (apply' (g c)).1) :
    r.2 = r'.2 ∧ R r.1 r'.1 := by
  subst hr hr' hcollected
  rcases collected with m | c
  · exact ⟨rfl, hs⟩
  · simp only [log, Except.map, hseal]
    split
    next hok =>
      split
      · exact ⟨rfl, hs⟩
      · exact ⟨rfl, hwritten⟩
      · exact happly c hok
    · exact ⟨rfl, hs⟩

end ManifestFaults

namespace BlobFileSet

def logAndApply (sep : Bool) (f : ManifestFaults) (s : BlobFileSet) (edit : VersionEdit) : BlobFileSet × Status :=
  let edit := { edit with nextFileNumber := some s.nextFileNumber }
  let written := { s with manifest := s.manifest ++ [edit.persisted] }
  f.log s (EditCollector.empty.addEdit edit) (·.sealStatus s.storage) written fun c =>
    ({ written with storage := (c.apply sep s.storage).1, manifestSynced := s.manifest.length + 1 },
      (c.apply sep s.storage).2)

/-- What `Recover` rebuilds from the manifest, up to the point where it opens the next one: the storage
after `MarkAllFilesForGC` and the purge of obsolete files, and the next file number. -/
def recover (sep : Bool) (manifest : List VersionEdit) : Except Status (BlobStorage × Nat) :=
  let s : BlobStorage := ⟨[], [], []⟩
  match manifest.foldlM EditCollector.addEdit .empty with
  | .error m => .error (.corruption m)
  | .ok c =>
    match c.sealStatus s, c.apply sep s, c.nextFileNumber with
    | .ok, (s, .ok), some n =>
      let s := { s with files := s.files.map (BlobFileMeta.fileStateTransit .dbRestart) }
      .ok ((s.getObsoleteFiles kMaxSequenceNumber).1, n)
    | .ok, (_, .ok), none => .error (.corruption "No next file number in manifest file")
    | .ok, (_, st), _ => .error st
    | st, _, _ => .error st

end BlobFileSet

/-! ### Collecting edits -/

namespace EditCollector

variable {c c' : EditCollector} {e : VersionEdit}

theorem addEdit_eq_ok (h : c.addEdit e = .ok c') :
    c'.addedFiles = c.addedFiles ++ e.addedFiles ∧ c'.deletedFiles = c.deletedFiles ++ e.deletedFiles ∧
      c'.updatedDiscardableSize = e.updatedDiscardableSize.foldl updateFile c.updatedDiscardableSize := by
  unfold addEdit at h
  cases ha : e.addedFiles.foldlM addFile c.addedFiles with
  | error st => rw [ha] at h; cases h
  | ok added =>
    cases hd : e.deletedFiles.foldlM deleteFile c.deletedFiles with
    | error st => rw [ha, hd] at h; cases h
    | ok deleted =>
      rw [ha, hd] at h
      have hc : c'.addedFiles = added ∧ c'.deletedFiles = deleted ∧ c'.updatedDiscardableSize =
          e.updatedDiscardableSize.foldl updateFile c.updatedDiscardableSize := by
        simp only [bind, Except.bind, setNextFileNumber] at h
        split at h
        · cases h; exact ⟨rfl, rfl, rfl⟩
        · split at h
          · cases h
          · cases h; exact ⟨rfl, rfl, rfl⟩
      rw [hc.1, hc.2.1, foldlM_insertNew_eq_ok ha, foldlM_insertNew_eq_ok hd]
      exact ⟨rfl, rfl, hc.2.2⟩

theorem nodup_addEdit (hadded : (c.addedFiles.map fileNumber).Nodup)
    (hdeleted : (c.deletedFiles.map Prod.fst).Nodup) (h : c.addEdit e = .ok c') :
    (c'.addedFiles.map fileNumber).Nodup ∧ (c'.deletedFiles.map Prod.fst).Nodup := by
  obtain ⟨haeq, hdeq, -⟩ := addEdit_eq_ok h
  unfold addEdit at h
  rcases ha : e.addedFiles.foldlM addFile c.addedFiles with st | added
  · rw [ha] at h; cases h
  · rcases hd : e.deletedFiles.foldlM deleteFile c.deletedFiles with st | deleted
    · rw [ha, hd] at h; cases h
    · rw [haeq, ← foldlM_insertNew_eq_ok ha, hdeq, ← foldlM_insertNew_eq_ok hd]
      exact ⟨nodup_of_foldlM_insertNew ha hadded, nodup_of_foldlM_insertNew hd hdeleted⟩

theorem nodup_of_addEdit (h : EditCollector.empty.addEdit e = .ok c') :
    (e.addedFiles.map fileNumber).Nodup ∧ (e.deletedFiles.map Prod.fst).Nodup := by
  obtain ⟨ha, hd⟩ := nodup_addEdit (c := .empty) nodup_nil nodup_nil h
  obtain ⟨haeq, hdeq, -⟩ := addEdit_eq_ok h
  rw [haeq] at ha
  rw [hdeq] at hd
  exact ⟨ha, hd⟩

theorem addEdit_ok {n : Nat} (ha : ((c.addedFiles ++ e.addedFiles).map fileNumber).Nodup)
    (hd : ((c.deletedFiles ++ e.deletedFiles).map Prod.fst).Nodup) (hn : e.nextFileNumber = some n)
    (hle : c.nextFileNumber.getD 0 ≤ n) :
    c.addEdit e = .ok ⟨c.addedFiles ++ e.addedFiles, c.deletedFiles ++ e.deletedFiles,
      e.updatedDiscardableSize.foldl updateFile c.updatedDiscardableSize, some n⟩ := by
  unfold addEdit addFile deleteFile
  rw [foldlM_insertNew ha, foldlM_insertNew hd]
  simp only [bind, Except.bind, setNextFileNumber, hn]
  rw [if_neg (by omega)]

variable {s : BlobStorage} {ps : List (Nat × SequenceNumber)}

theorem sealStatus_eq_ok : c.sealStatus s = .ok ↔ (∀ f ∈ c.addedFiles, s.findFile f.fileNumber = none) ∧
      ∀ p ∈ c.deletedFiles, c.adds p.1 = true ∨ ∃ m, s.findFile p.1 = some m ∧ m.isObsolete = false := by
  have hdel : ∀ p : Nat × SequenceNumber, (!c.adds p.1 && (s.findFile p.1).all isObsolete) = false ↔
      c.adds p.1 = true ∨ ∃ m, s.findFile p.1 = some m ∧ m.isObsolete = false := by
    intro p; cases hf : s.findFile p.1 <;> cases hc : c.adds p.1 <;> simp
  unfold sealStatus
  split
  next f hf =>
    have hsome := find?_some hf
    have hmem := mem_of_find?_eq_some hf
    refine ⟨fun h => by (split at h <;> cases h), fun h => ?_⟩
    rw [h.1 f hmem] at hsome; cases hsome
  next hadd =>
    have hnone : ∀ f ∈ c.addedFiles, s.findFile f.fileNumber = none := by simpa using hadd
    split
    next p hp =>
      have hbad := find?_some hp
      have hmem := mem_of_find?_eq_some hp
      refine ⟨fun h => by (split at h <;> cases h), fun h => ?_⟩
      rw [(hdel p).2 (h.2 p hmem)] at hbad; cases hbad
    next hd =>
      refine ⟨fun _ => ⟨hnone, fun p hp => (hdel p).1 ?_⟩, fun _ => rfl⟩
      simpa only [Bool.not_eq_true] using find?_eq_none.1 hd p hp

/-! ### Applying the collected edits -/

theorem findFile_foldl_addBlobFile (sep : Bool) (files : List BlobFileMeta) (s : BlobStorage) (n : Nat) :
    (files.foldl (·.addBlobFile sep ·) s).findFile n = (s.findFile n).or (files.find? fun m => m.fileNumber == n) := by
  induction files generalizing s with
  | nil => simp
  | cons f fs ih =>
    rw [foldl_cons, ih, findFile_addBlobFile, find?_cons]
    by_cases hf : f.fileNumber = n
    · simp [hf]
    · simp [hf, beq_eq_false_iff_ne.2 hf]

theorem findBuildingFile_foldl_addBlobFile (sep : Bool) (files : List BlobFileMeta) (s : BlobStorage) (n : Nat) :
    (files.foldl (·.addBlobFile sep ·) s).findBuildingFile n =
      (s.findBuildingFile n && !(sep && files.any fun m => m.fileNumber == n)) := by
  induction files generalizing s with
  | nil => simp
  | cons f fs ih =>
    rw [foldl_cons, ih, findBuildingFile_addBlobFile]
    by_cases hf : f.fileNumber = n
    · cases sep <;> simp [hf]
    · cases sep <;> simp [hf, eq_comm (a := n), beq_eq_false_iff_ne.2 hf]

theorem obsoleteFiles_foldl_addBlobFile (sep : Bool) (files : List BlobFileMeta) (s : BlobStorage) :
    (files.foldl (·.addBlobFile sep ·) s).obsoleteFiles = s.obsoleteFiles :=
  foldl_frame (g := obsoleteFiles) (f := (·.addBlobFile sep ·)) (fun _ _ => rfl) files s

theorem markFilesObsolete_status (h : ∀ p ∈ ps, (s.findFile p.1).isSome) : (markFilesObsolete s ps).2 = .ok := by
  induction ps generalizing s with
  | nil => rfl
  | cons p ps ih =>
    have hp := h p (mem_cons_self ..)
    rw [markFilesObsolete, if_neg (by simpa using Option.isSome_iff_ne_none.1 hp)]
    refine ih fun q hq => ?_
    rw [findFile_markFileObsolete]
    split <;> simp [h q (mem_cons_of_mem _ hq)]

theorem findFile_markFilesObsolete (h : (markFilesObsolete s ps).2 = .ok) (n : Nat) :
    (markFilesObsolete s ps).1.findFile n =
      if n ∈ ps.map Prod.fst then (s.findFile n).map (fileStateTransit .delete) else s.findFile n := by
  induction ps generalizing s with
  | nil => rfl
  | cons p ps ih =>
    unfold markFilesObsolete at h ⊢
    split at h
    · cases h
    next hp =>
      rw [if_neg hp, ih h, findFile_markFileObsolete]
      -- a file listed twice is marked twice, with the same result
      have hidem : (fileStateTransit .delete ∘ fileStateTransit .delete) =
          fileStateTransit .delete := rfl
      by_cases hn : n = p.1 <;> by_cases hm : n ∈ ps.map Prod.fst <;>
        simp [map_cons, mem_cons, hn, hm, hidem]

theorem markFilesObsolete_frame (h : (markFilesObsolete s ps).2 = .ok) :
    (markFilesObsolete s ps).1.buildingFiles = s.buildingFiles ∧
      (markFilesObsolete s ps).1.obsoleteFiles = s.obsoleteFiles ++ ps := by
  induction ps generalizing s with
  | nil => simp [markFilesObsolete]
  | cons p ps ih =>
    unfold markFilesObsolete at h ⊢
    split at h
    · cases h
    next hp => rw [if_neg hp, (ih h).1, (ih h).2]; simp [BlobStorage.markFileObsolete, BlobStorage.updateFile]

/-- After `Seal`, the files to be deleted are there when their turn comes. -/
theorem markFilesObsolete_of_sealed {c : EditCollector} (sep : Bool) (h : c.sealStatus s = .ok) :
    (markFilesObsolete ((c.addedFiles.filter fun f => !c.deletes f.fileNumber).foldl (·.addBlobFile sep ·) s)
      (c.deletedFiles.filter fun p => !c.adds p.1)).2 = .ok := by
  refine markFilesObsolete_status fun p hp => ?_
  obtain ⟨hmem, hadds⟩ := mem_filter.1 hp
  rcases (sealStatus_eq_ok.1 h).2 p hmem with hadd | ⟨m, hm, -⟩
  · rw [hadd] at hadds
    cases hadds
  · rw [findFile_foldl_addBlobFile, hm]
    rfl

theorem apply_status {c : EditCollector} {sep : Bool} (h : c.sealStatus s = .ok) : (c.apply sep s).2 = .ok := by
  have hmark := markFilesObsolete_of_sealed sep h
  unfold EditCollector.apply
  dsimp only
  split
  · rfl
  next heq => rwa [heq] at hmark

end EditCollector

/-! ### What one manifest write does -/

def VersionEdit.ofAdded (files : List BlobFileMeta) : VersionEdit := ⟨none, files, [], []⟩
def VersionEdit.ofDeleted (ps : List (Nat × SequenceNumber)) : VersionEdit := ⟨none, [], ps, []⟩

/-- The storage after the files have been registered. -/
structure FilesAdded (sep : Bool) (files : List BlobFileMeta) (s s' : BlobStorage) : Prop where
  fresh : ∀ f ∈ files, s.findFile f.fileNumber = none
  find : ∀ n, s'.findFile n = (s.findFile n).or (files.find? fun m => m.fileNumber == n)
  building : ∀ n, s'.findBuildingFile n = (s.findBuildingFile n && !(sep && files.any fun m => m.fileNumber == n))
  obsolete : s'.obsoleteFiles = s.obsoleteFiles

/-- The storage after the files have been marked obsolete. -/
structure FilesDeleted (ps : List (Nat × SequenceNumber)) (s s' : BlobStorage) : Prop where
  live : ∀ p ∈ ps, ∃ m, s.findFile p.1 = some m ∧ m.isObsolete = false
  find : ∀ n, s'.findFile n =
    if n ∈ ps.map Prod.fst then (s.findFile n).map (BlobFileMeta.fileStateTransit .delete) else s.findFile n
  building : s'.buildingFiles = s.buildingFiles
  obsolete : s'.obsoleteFiles = s.obsoleteFiles ++ ps

namespace BlobFileSet

open EditCollector

variable {sep : Bool} {f : ManifestFaults} {s : BlobFileSet} {e : VersionEdit}

/-- The manifest record of an edit. -/
def logRecord (e : VersionEdit) (s : BlobFileSet) : VersionEdit :=
  ({ e with nextFileNumber := some s.nextFileNumber } : VersionEdit).persisted

/-- The edit has passed `AddEdit` and `Seal`. -/
structure Accepted (e : VersionEdit) (s : BlobFileSet) : Prop where
  added : (e.addedFiles.map BlobFileMeta.fileNumber).Nodup
  deleted : (e.deletedFiles.map Prod.fst).Nodup
  fresh : ∀ f ∈ e.addedFiles, s.storage.findFile f.fileNumber = none
  live : ∀ p ∈ e.deletedFiles, p.1 ∈ e.addedFiles.map BlobFileMeta.fileNumber ∨
    ∃ m, s.storage.findFile p.1 = some m ∧ m.isObsolete = false

/-- A manifest write that fails changes nothing in memory; its record may or may not be in the file. -/
structure Unapplied (e : VersionEdit) (s s' : BlobFileSet) : Prop where
  storage : s'.storage = s.storage
  next : s'.nextFileNumber = s.nextFileNumber
  synced : s'.manifestSynced = s.manifestSynced
  manifest : s'.manifest = s.manifest ∨ Accepted e s ∧ s'.manifest = s.manifest ++ [logRecord e s]

/-- The part of a successful manifest write that does not depend on the edit. -/
structure Logged (e : VersionEdit) (s s' : BlobFileSet) : Prop where
  accepted : Accepted e s
  next : s'.nextFileNumber = s.nextFileNumber
  manifest : s'.manifest = s.manifest ++ [logRecord e s]
  synced : s'.manifestSynced = s'.manifest.length

/-- What a manifest write of `e` comes to: it fails, or the storage is as `applied` says. -/
def Logs (e : VersionEdit) (applied : BlobStorage → Prop) (s : BlobFileSet) (r : BlobFileSet × Status) : Prop :=
  (r.2 ≠ .ok ∧ Unapplied e s r.1) ∨ (r.2 = .ok ∧ Logged e s r.1 ∧ applied r.1.storage)

theorem accepted_of_seal {c : EditCollector} {n : Option Nat}
    (hadd : EditCollector.empty.addEdit { e with nextFileNumber := n } = .ok c)
    (hseal : c.sealStatus s.storage = .ok) : Accepted e s := by
  obtain ⟨ha, hd, -⟩ := addEdit_eq_ok hadd
  obtain ⟨hna, hnd⟩ := nodup_of_addEdit hadd
  simp only [EditCollector.empty, nil_append] at ha hd
  obtain ⟨hfresh, hlive⟩ := sealStatus_eq_ok.1 hseal
  refine ⟨hna, hnd, ha ▸ hfresh, fun p hp => (hlive p (hd ▸ hp)).imp_left fun h => ?_⟩
  simpa [adds, ha] using h

theorem logAndApply_cases (sep : Bool) (f : ManifestFaults) (s : BlobFileSet) (e : VersionEdit) :
    ((logAndApply sep f s e).2 ≠ .ok ∧ Unapplied e s (logAndApply sep f s e).1) ∨
      ∃ c, EditCollector.empty.addEdit { e with nextFileNumber := some s.nextFileNumber } = .ok c ∧
        c.sealStatus s.storage = .ok ∧ Logged e s (logAndApply sep f s e).1 ∧
        (logAndApply sep f s e).1.storage = (c.apply sep s.storage).1 ∧
        (logAndApply sep f s e).2 = (c.apply sep s.storage).2 := by
  generalize hr : logAndApply sep f s e = r
  refine ManifestFaults.log_rule hr (fun st hst => ?_) (fun c m hadd hseal _ => ?_) fun c hadd hseal _ _ => ?_
  · exact .inl ⟨hst, rfl, rfl, rfl, .inl rfl⟩
  · exact .inl ⟨nofun, rfl, rfl, rfl, .inr ⟨accepted_of_seal hadd hseal, rfl⟩⟩
  · exact .inr ⟨c, hadd, hseal, ⟨accepted_of_seal hadd hseal, rfl, rfl, by simp⟩, rfl, rfl⟩

theorem logAndApply_ofAdded (sep : Bool) (f : ManifestFaults) (s : BlobFileSet) (files : List BlobFileMeta) :
    Logs (.ofAdded files) (FilesAdded sep files s.storage) s (logAndApply sep f s (.ofAdded files)) := by
  rcases logAndApply_cases sep f s (.ofAdded files) with h | ⟨c, hadd, hseal, hlog, hst, hok⟩
  · exact .inl h
  obtain ⟨ha, hd, hu⟩ := addEdit_eq_ok hadd
  simp only [EditCollector.empty, VersionEdit.ofAdded, nil_append, foldl_nil] at ha hd hu
  have happ : c.apply sep s.storage = (files.foldl (·.addBlobFile sep ·) s.storage, .ok) := by
    simp [EditCollector.apply, deletes, ha, hd, hu, markFilesObsolete]
  rw [happ] at hst hok
  refine .inr ⟨hok, hlog, ?_, fun n => ?_, fun n => ?_, ?_⟩
  · exact ha ▸ (sealStatus_eq_ok.1 hseal).1
  · rw [hst, findFile_foldl_addBlobFile]
  · rw [hst, findBuildingFile_foldl_addBlobFile]
  · rw [hst, obsoleteFiles_foldl_addBlobFile]

theorem logAndApply_ofDeleted (sep : Bool) (f : ManifestFaults) (s : BlobFileSet) (ps : List (Nat × SequenceNumber)) :
    Logs (.ofDeleted ps) (FilesDeleted ps s.storage) s (logAndApply sep f s (.ofDeleted ps)) := by
  rcases logAndApply_cases sep f s (.ofDeleted ps) with h | ⟨c, hadd, hseal, hlog, hst, hok⟩
  · exact .inl h
  obtain ⟨ha, hd, hu⟩ := addEdit_eq_ok hadd
  simp only [EditCollector.empty, VersionEdit.ofDeleted, nil_append, foldl_nil] at ha hd hu
  have hlive : ∀ p ∈ ps, ∃ m, s.storage.findFile p.1 = some m ∧ m.isObsolete = false := fun p hp =>
    ((sealStatus_eq_ok.1 hseal).2 p (hd ▸ hp)).resolve_left (by simp [adds, ha])
  have hmark : (markFilesObsolete s.storage ps).2 = .ok :=
    markFilesObsolete_status fun p hp => by obtain ⟨m, hm, -⟩ := hlive p hp; simp [hm]
  have happ : c.apply sep s.storage = ((markFilesObsolete s.storage ps).1, .ok) := by
    simp only [EditCollector.apply, adds, ha, hd, hu, filter_nil, foldl_nil, map_nil,
      not_mem_nil, decide_false, Bool.not_false, filter_true]
    split <;> simp_all
  rw [happ] at hst hok
  obtain ⟨hb, ho⟩ := markFilesObsolete_frame hmark
  exact .inr ⟨hok, hlog, hlive, fun n => by rw [hst, EditCollector.findFile_markFilesObsolete hmark],
    by rw [hst, hb], by rw [hst, ho]⟩

end BlobFileSet

end ValueSep.DiffKV
