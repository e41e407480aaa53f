import ValueSep.DiffKV.ColumnFamilies
import ValueSep.DiffKV.Recover
import ValueSep.Lib.Exec

/-!
# The manifest and the files in memory

`BlobFileSet::Recover` decodes the records of the manifest into one `EditCollector`, seals it against storages
without files and applies it. `Mirrors es s` says that the edits `es` of a column family, taken together, are what the
storage `s` has become step by step: an accepted edit keeps it (`Mirrors.snoc`), a purge does not touch it, and a
snapshot starts it over.
-/

namespace ValueSep.DiffKV

open Coding Exec
open List Option EditCollector ColumnFamilyEdit BlobFileMeta BlobFileSets EditCollectors Prod OrdMap

namespace EditCollectors

/-- The records of a manifest, decoded and added one after the other. -/
def collect : List Bytes → EditCollectors → Except Status EditCollectors
  | [], c => .ok c
  | record :: records, c =>
    match ColumnFamilyEdit.decodeFrom record with
    | .error st => .error st
    | .ok e =>
      match c.addEdit e with
      | .error m => .error (.corruption m)
      | .ok c => collect records c

end EditCollectors

namespace BlobFileSets

variable (fs : BlobFileSets)

/-- `AddColumnFamilies`; `emplace` leaves a family that is there alone. -/
def addColumnFamilies (ids : List Nat) : BlobFileSets :=
  { fs with columnFamilies := ids.foldl (fun cfs id => cfs.alter id (·.getD ⟨[], [], []⟩)) fs.columnFamilies }

/-- The edits of `WriteSnapshot`: the global information, then one for each column family. -/
def snapshot : List ColumnFamilyEdit :=
  { ColumnFamilyEdit.empty with nextFileNumber := some fs.nextFileNumber } ::
    fs.columnFamilies.entries.map fun p =>
      { ColumnFamilyEdit.empty with columnFamilyId := p.1, addedFiles := p.2.files.filter fun m => !m.isObsolete }

/-- `OpenManifest`: a new manifest that starts with the snapshot. -/
def openManifest : BlobFileSets := { fs with manifest := fs.snapshot.map ColumnFamilyEdit.encodeTo }

/-- `Open` where there is no manifest yet; the manifest takes file number 1. -/
def create (ids : List Nat) : BlobFileSets := ({ columnFamilies := .empty, manifest := [], nextFileNumber := 2 } :
  BlobFileSets).addColumnFamilies ids |>.openManifest

/-- `GetObsoleteFiles`, with no column family dropped. -/
def getObsoleteFiles (oldestSequence : SequenceNumber) : BlobFileSets :=
  { fs with columnFamilies := fs.columnFamilies.map fun _ s => (s.getObsoleteFiles oldestSequence).1 }

/-- What `Recover` makes of the records, up to `GetNextFileNumber`, given the storages of the column families. -/
def replay (sep : Bool) (cfs : Storages) (records : List Bytes) : Except Status (Storages × Nat) :=
  match collect records .empty with
  | .error st => .error st
  | .ok c =>
    match c.sealStatus cfs with
    | .ok =>
      match c.apply sep cfs with
      | (cfs, .ok) =>
        match c.nextFileNumber with
        | some n => .ok (cfs, n)
        | none => .error (.corruption "No next file number in manifest file")
      | (_, st) => .error st
    | st => .error st

/-- The same column families, without files. -/
def reopened : Storages := fs.columnFamilies.map fun _ _ => ⟨[], [], []⟩

end BlobFileSets

/-! ### A storage and its edits -/

/-- The edits of one column family, in order. -/
def ofFamily (cf : Nat) (es : List ColumnFamilyEdit) : List VersionEdit :=
  (es.filter fun e => e.columnFamilyId = cf).map toVersionEdit

/-- The file with this number if it was added and not deleted again. -/
def Manifest.alive (es : List VersionEdit) (k : Nat) : Option BlobFileMeta :=
  if k ∈ (Manifest.deleted es).map fst then none
  else (Manifest.added es).find? fun m => m.fileNumber == k

/-- The persistent part of the file with this number, if it is not obsolete. -/
def BlobStorage.live (s : BlobStorage) (k : Nat) : Option BlobFileMeta :=
  ((s.findFile k).filter fun m => !m.isObsolete).map persisted

open Manifest

theorem find?_filter_fileNumber (d : Nat → Bool) (ms : List BlobFileMeta) (k : Nat) :
    (ms.filter fun m => !d m.fileNumber).find? (fun m => m.fileNumber == k) =
      if d k = true then none else ms.find? fun m => m.fileNumber == k := by
  rw [find?_filter]
  split
  next hd =>
    rw [find?_eq_none]
    rintro m - hm
    simp only [Bool.not_eq_true', decide_eq_true_eq, beq_iff_eq] at hm
    rw [hm.2, hd] at hm
    cases hm.1
  next hd =>
    congr 1
    funext m
    by_cases hm : m.fileNumber = k <;> simp [hm, hd]

section alive
variable {es : List VersionEdit} {e : VersionEdit} {k : Nat} {m : BlobFileMeta}

theorem mem_added_of_alive (h : alive es k = some m) : m ∈ added es ∧ m.fileNumber = k := by
  unfold alive at h
  split at h
  · cases h
  · exact ⟨mem_of_find?_eq_some h, by simpa using find?_some h⟩

theorem alive_snoc (hfresh : ∀ m ∈ e.addedFiles, m.fileNumber ∉ (added es).map fileNumber)
    (hsub : ∀ p ∈ deleted es, p.1 ∈ (added es).map fileNumber) (k : Nat) :
    alive (es ++ [e]) k =
      if k ∈ e.deletedFiles.map fst then none
      else (alive es k).or (e.addedFiles.find? fun m => m.fileNumber == k) := by
  unfold alive
  rw [added_snoc, deleted_snoc, map_append, find?_append]
  by_cases he : k ∈ e.deletedFiles.map fst
  · rw [if_pos he, if_pos (mem_append_right _ he)]
  · rw [if_neg he]
    by_cases hd : k ∈ (deleted es).map fst
    · -- a file that was deleted had been added, so the edit does not add it
      have hnone : (e.addedFiles.find? fun m => m.fileNumber == k) = none := by
        rw [find?_eq_none]
        intro m hm heq
        rw [beq_iff_eq] at heq
        obtain ⟨p, hp, rfl⟩ := mem_map.1 hd
        exact hfresh m hm (heq ▸ hsub p hp)
      rw [if_pos hd, if_pos (mem_append_left _ hd), hnone]
      rfl
    · rw [if_neg hd, if_neg (fun h => (mem_append.1 h).elim hd he)]

end alive

section live
variable {s : BlobStorage} {e : ColumnFamilyEdit} {sep : Bool} {k : Nat}

theorem live_apply (hseal : e.collector.sealStatus s = .ok) (hnew : ∀ m ∈ e.addedFiles, m.isObsolete = false)
    (k : Nat) :
    (e.collector.apply sep s).1.live k =
      if k ∈ e.deletedFiles.map fst then none
      else (s.live k).or ((e.addedFiles.find? fun m => m.fileNumber == k).map persisted) := by
  obtain ⟨f, hfind, hsame⟩ := findFile_apply sep hseal k
  have hobs : ∀ m, (f m).isObsolete = m.isObsolete := fun m => by simp only [isObsolete, (hsame m).2]
  have hmem : k ∈ (e.collector.deletedFiles.filter fun p => !e.collector.adds p.1).map fst ↔
      k ∈ e.deletedFiles.map fst ∧ k ∉ e.addedFiles.map fileNumber := by simp [VersionEdit.collector, adds]
  rw [find?_filter_fileNumber] at hfind
  simp only [BlobStorage.live, hfind, hmem, VersionEdit.deletes_collector, show e.collector.addedFiles = e.addedFiles from rfl]
  cases hs : s.findFile k with
  | some m =>
    -- the files the collector adds are not in the storage
    have hnot : k ∉ e.addedFiles.map fileNumber := fun hadds => by
      obtain ⟨m', hm', rfl⟩ := mem_map.1 hadds
      rw [(VersionEdit.sealed_iff.1 hseal).1 m' hm'] at hs
      cases hs
    have hnone : (e.addedFiles.find? fun m => m.fileNumber == k) = none := by simpa using hnot
    by_cases hk : k ∈ e.deletedFiles.map fst
    · simp [hk, hnot, hobs, isObsolete_fileStateTransit_delete]
    · simp only [hk, hnone, false_and, if_false, Option.map_some, filter_some, hobs, Option.map_none, or_none]
      split <;> simp [hsame]
  | none =>
    by_cases hk : k ∈ e.deletedFiles.map fst
    · simp [hk]
    · simp only [hk, false_and, if_false]
      cases hm : e.addedFiles.find? fun m => m.fileNumber == k with
      | none => rfl
      | some m => simp [hobs, hsame, hnew m (mem_of_find?_eq_some hm)]

end live

/-! ### The tables of a storage -/

namespace BlobStorage

/-- Numbers name one file each, and `obsolete_files_` lists files that are there and obsolete, once. -/
structure Tidy (s : BlobStorage) : Prop where
  nodup : (s.files.map fileNumber).Nodup
  obsolete_nodup : (s.obsoleteFiles.map fst).Nodup
  obsolete : ∀ p ∈ s.obsoleteFiles, ∃ m, s.findFile p.1 = some m ∧ m.isObsolete = true

variable {s : BlobStorage}

theorem numbers_updateFile (f : BlobFileMeta → BlobFileMeta) (hf : ∀ m, (f m).fileNumber = m.fileNumber) (n : Nat) :
    (s.updateFile n f).files.map fileNumber = s.files.map fileNumber := by
  simp only [updateFile, List.map_map]
  refine List.map_congr_left fun m _ => ?_
  simp only [Function.comp]
  split
  · exact hf m
  · rfl

theorem nodup_foldl_addBlobFile (sep : Bool) (files : List BlobFileMeta) (h : (s.files.map fileNumber).Nodup) :
    ((files.foldl (·.addBlobFile sep ·) s).files.map fileNumber).Nodup := by
  refine foldlRecOn (motive := fun s : BlobStorage => (s.files.map fileNumber).Nodup) files _ h fun s h file _ => ?_
  unfold addBlobFile
  split
  · exact h
  next hnone =>
    rw [map_append, nodup_append]
    refine ⟨h, nodup_singleton _, fun n hn n' hn' heq => hnone ?_⟩
    rw [map_singleton, mem_singleton] at hn'
    obtain ⟨m, hm, rfl⟩ := mem_map.1 hn
    rw [← hn', ← heq, findFile, Keyed.find?_of_mem h hm]
    rfl

theorem numbers_markFilesObsolete (ps : List (Nat × SequenceNumber)) (s : BlobStorage) :
    (markFilesObsolete s ps).1.files.map fileNumber = s.files.map fileNumber := by
  induction ps generalizing s with
  | nil => rfl
  | cons p ps ih =>
    unfold markFilesObsolete
    split
    · rfl
    · rw [ih]
      exact numbers_updateFile (·.fileStateTransit .delete) (fun _ => rfl) _

theorem numbers_foldl_discardable (ds : List (Nat × Nat)) (s : BlobStorage) :
    (ds.foldl (fun s d => s.updateFile d.1 (·.addDiscardableSize d.2)) s).files.map fileNumber =
      s.files.map fileNumber :=
  Keyed.foldl_frame (g := fun s : BlobStorage => s.files.map fileNumber)
    (fun _ d => numbers_updateFile (·.addDiscardableSize d.2) (fun _ => rfl) _) ds s

theorem Tidy.apply {c : EditCollector} (sep : Bool) (h : s.Tidy) (hseal : c.sealStatus s = .ok)
    (hdeleted : (c.deletedFiles.map fst).Nodup) : (c.apply sep s).1.Tidy := by
  obtain ⟨-, hdel⟩ := sealStatus_eq_ok.1 hseal
  have hlive : ∀ p ∈ c.deletedFiles.filter fun p => !c.adds p.1, ∃ m, s.findFile p.1 = some m ∧ m.isObsolete = false := by
    intro p hp
    obtain ⟨hmem, hadds⟩ := mem_filter.1 hp
    exact (hdel p hmem).resolve_left (by simpa using hadds)
  have hobs : ∀ n m, s.findFile n = some m →
      (n ∈ (c.deletedFiles.filter fun p => !c.adds p.1).map fst ∨ m.isObsolete = true) →
      ∃ m', (c.apply sep s).1.findFile n = some m' ∧ m'.isObsolete = true := by
    intro n m hm hor
    obtain ⟨f, hfind, hsame⟩ := findFile_apply sep hseal n
    have hf : ∀ m, (f m).isObsolete = m.isObsolete := fun m => by simp only [isObsolete, (hsame m).2]
    rw [hm] at hfind
    split at hfind
    · exact ⟨_, hfind, (hf _).trans (isObsolete_fileStateTransit_delete m)⟩
    next hn => exact ⟨_, hfind, (hf m).trans (hor.resolve_left hn)⟩
  refine ⟨?_, ?_, ?_⟩
  · rw [fst_apply sep hseal, numbers_foldl_discardable, numbers_markFilesObsolete]
    exact nodup_foldl_addBlobFile sep _ h.nodup
  · rw [obsoleteFiles_apply sep hseal, map_append, nodup_append]
    refine ⟨h.obsolete_nodup, hdeleted.sublist (filter_sublist.map _), fun n hn n' hn' heq => ?_⟩
    -- what is deleted now was not obsolete
    obtain ⟨p, hp, rfl⟩ := mem_map.1 hn
    obtain ⟨q, hq, rfl⟩ := mem_map.1 hn'
    obtain ⟨m, hm, hmobs⟩ := h.obsolete p hp
    obtain ⟨m', hm', hmlive⟩ := hlive q hq
    rw [heq, hm'] at hm
    cases hm
    rw [hmobs] at hmlive
    cases hmlive
  · rw [obsoleteFiles_apply sep hseal]
    intro p hp
    rcases mem_append.1 hp with hp | hp
    · obtain ⟨m, hm, hmobs⟩ := h.obsolete p hp
      exact hobs p.1 m hm (.inr hmobs)
    · obtain ⟨m, hm, -⟩ := hlive p hp
      exact hobs p.1 m hm (.inl (mem_map_of_mem hp))

theorem live_getObsoleteFiles (h : s.Tidy) (oldest : SequenceNumber) (k : Nat) :
    (s.getObsoleteFiles oldest).1.live k = s.live k := by
  unfold live
  rw [findFile_getObsoleteFiles]
  split
  next hk =>
    obtain ⟨p, hp, rfl⟩ := mem_map.1 hk
    obtain ⟨m, hm, hobs⟩ := h.obsolete p (mem_of_mem_filter hp)
    simp [hm, hobs]
  · rfl

theorem Tidy.getObsoleteFiles (h : s.Tidy) (oldest : SequenceNumber) : (s.getObsoleteFiles oldest).1.Tidy := by
  refine ⟨h.nodup.sublist (filter_sublist.map _), h.obsolete_nodup.sublist (filter_sublist.map _), ?_⟩
  intro p hp
  obtain ⟨hmem, hlate⟩ := mem_filter.1 hp
  obtain ⟨m, hm, hobs⟩ := h.obsolete p hmem
  refine ⟨m, ?_, hobs⟩
  rw [findFile_getObsoleteFiles, if_neg, hm]
  -- its number is in the list once, so not with a sequence that is purged
  intro hk
  obtain ⟨q, hq, heq⟩ := mem_map.1 hk
  obtain ⟨hqmem, hqlate⟩ := mem_filter.1 hq
  rw [inj_on_of_nodup_map h.obsolete_nodup hqmem hmem heq] at hqlate
  rw [decide_eq_true_eq] at hlate hqlate
  exact hlate hqlate

theorem tidy_empty : (⟨[], [], []⟩ : BlobStorage).Tidy :=
  ⟨nodup_nil, nodup_nil, fun _ h => absurd h not_mem_nil⟩

end BlobStorage

/-! ### Log and memory of one column family -/

/-- The edits, as read from the manifest, are acceptable together and leave the files that are live in `s`. -/
structure Mirrors (es : List VersionEdit) (s : BlobStorage) : Prop where
  added : ((added es).map fileNumber).Nodup
  deleted : ((deleted es).map fst).Nodup
  deleted_added : ∀ p ∈ Manifest.deleted es, p.1 ∈ (Manifest.added es).map fileNumber
  live : ∀ k, s.live k = alive es k

namespace Mirrors

variable {es : List VersionEdit} {s s' : BlobStorage} {e : ColumnFamilyEdit}

theorem congr (h : Mirrors es s) (hlive : ∀ k, s'.live k = s.live k) : Mirrors es s' :=
  ⟨h.added, h.deleted, h.deleted_added, fun k => (hlive k).trans (h.live k)⟩

theorem mem_added_of_live (h : Mirrors es s) {k : Nat} {m : BlobFileMeta} (hm : s.findFile k = some m)
    (hlive : m.isObsolete = false) : m.persisted ∈ Manifest.added es ∧ m.fileNumber = k ∧
      k ∉ (Manifest.deleted es).map Prod.fst := by
  have halive : alive es k = some m.persisted := by
    rw [← h.live, BlobStorage.live, hm]
    simp [hlive]
  refine ⟨(mem_added_of_alive halive).1, BlobStorage.fileNumber_of_findFile hm, fun hdel => ?_⟩
  rw [alive, if_pos hdel] at halive
  cases halive

theorem numbers_persisted (ms : List BlobFileMeta) :
    (ms.map BlobFileMeta.persisted).map BlobFileMeta.fileNumber = ms.map BlobFileMeta.fileNumber := by
  rw [List.map_map]
  rfl

theorem deleted_persisted (ps : List (Nat × SequenceNumber)) :
    (ps.map fun p => (p.1, (0 : SequenceNumber))).map Prod.fst = ps.map Prod.fst := by
  rw [List.map_map]
  rfl

theorem snoc {sep : Bool} (h : Mirrors es s) (hadded : (e.addedFiles.map fileNumber).Nodup)
    (hdeleted : (e.deletedFiles.map Prod.fst).Nodup) (hseal : e.collector.sealStatus s = .ok)
    (hfresh : ∀ m ∈ e.addedFiles, m.fileNumber ∉ (Manifest.added es).map fileNumber)
    (hnew : ∀ m ∈ e.addedFiles, m.isObsolete = false) :
    Mirrors (es ++ [e.toVersionEdit.persisted]) (e.collector.apply sep s).1 := by
  obtain ⟨-, hdel⟩ := VersionEdit.sealed_iff.1 hseal
  -- a file to be deleted comes with the edit, or is in the manifest and alive
  have hcase : ∀ p ∈ e.deletedFiles, p.1 ∈ e.addedFiles.map fileNumber ∨
      p.1 ∈ (Manifest.added es).map fileNumber ∧ p.1 ∉ (Manifest.deleted es).map Prod.fst := by
    intro p hp
    refine (hdel p hp).imp_right ?_
    rintro ⟨m, hm, hlive⟩
    obtain ⟨hmem, hnum, halive⟩ := h.mem_added_of_live hm hlive
    exact ⟨mem_map.2 ⟨_, hmem, hnum⟩, halive⟩
  have hfresh' : ∀ m ∈ e.toVersionEdit.persisted.addedFiles,
      m.fileNumber ∉ (Manifest.added es).map fileNumber := by
    intro m hm
    obtain ⟨m', hm', rfl⟩ := mem_map.1 hm
    exact hfresh m' hm'
  refine ⟨?_, ?_, ?_, fun k => ?_⟩
  · rw [added_snoc, map_append, nodup_append]
    refine ⟨h.added, (numbers_persisted _).symm ▸ hadded, fun n hn n' hn' heq => ?_⟩
    obtain ⟨m, hm, rfl⟩ := mem_map.1 hn'
    exact hfresh' m hm (heq ▸ hn)
  · rw [deleted_snoc, map_append, nodup_append]
    refine ⟨h.deleted, (deleted_persisted _).symm ▸ hdeleted, fun n hn n' hn' heq => ?_⟩
    obtain ⟨q, hq, rfl⟩ := mem_map.1 hn'
    obtain ⟨p, hp, rfl⟩ := mem_map.1 hq
    rcases hcase p hp with hpaired | ⟨-, halive⟩
    · obtain ⟨m, hm, hnum⟩ := mem_map.1 hpaired
      obtain ⟨p', hp', heq'⟩ := mem_map.1 hn
      exact hfresh m hm (hnum.trans (heq.symm.trans heq'.symm) ▸ h.deleted_added p' hp')
    · exact halive (heq ▸ hn)
  · intro q hq
    rw [added_snoc, map_append]
    rw [deleted_snoc, mem_append] at hq
    rcases hq with hq | hq
    · exact mem_append_left _ (h.deleted_added q hq)
    · obtain ⟨p, hp, rfl⟩ := mem_map.1 hq
      rcases hcase p hp with hpaired | ⟨hmem, -⟩
      · refine mem_append_right _ ?_
        show p.1 ∈ (e.addedFiles.map BlobFileMeta.persisted).map BlobFileMeta.fileNumber
        rw [numbers_persisted]
        exact hpaired
      · exact mem_append_left _ hmem
  · rw [live_apply hseal hnew, alive_snoc hfresh' h.deleted_added, h.live]
    show _ = if k ∈ (e.deletedFiles.map fun p => (p.1, (0 : SequenceNumber))).map fst then none
      else (alive es k).or ((e.addedFiles.map BlobFileMeta.persisted).find? fun m => m.fileNumber == k)
    rw [deleted_persisted, find?_map]
    rfl

end Mirrors

/-! ### Collecting the edits of all column families -/

/-- The next file numbers that the edits carry, oldest first. -/
def nextNumbers (es : List ColumnFamilyEdit) : List Nat := es.filterMap fun e => e.nextFileNumber

theorem ofFamily_cons (cf : Nat) (e : ColumnFamilyEdit) (es : List ColumnFamilyEdit) :
    ofFamily cf (e :: es) = if e.columnFamilyId = cf then e.toVersionEdit :: ofFamily cf es else ofFamily cf es := by
  unfold ofFamily
  split <;> simp [*]

@[simp] theorem ofFamily_snoc (cf : Nat) (es : List ColumnFamilyEdit) (e : ColumnFamilyEdit) :
    ofFamily cf (es ++ [e]) = if e.columnFamilyId = cf then ofFamily cf es ++ [e.toVersionEdit] else ofFamily cf es := by
  unfold ofFamily
  split <;> simp [*]

theorem added_ofFamily_subset {cf : Nat} {es : List ColumnFamilyEdit} {m : BlobFileMeta}
    (h : m ∈ added (ofFamily cf es)) : ∃ e ∈ es, m ∈ e.addedFiles := by
  obtain ⟨v, hv, hm⟩ := mem_flatMap.1 h
  obtain ⟨e, he, rfl⟩ := mem_map.1 hv
  exact ⟨e, mem_of_mem_filter he, hm⟩

/-- The deltas of the edits, in order. -/
def Manifest.updated (es : List VersionEdit) : List (Nat × Nat) := es.flatMap VersionEdit.updatedDiscardableSize

/-- The collector has the edits `es`, and no more. -/
structure EditCollector.Collects (c : EditCollector) (es : List VersionEdit) : Prop where
  addedFiles : c.addedFiles = added es
  deletedFiles : c.deletedFiles = deleted es
  updatedDiscardableSize : c.updatedDiscardableSize = (updated es).foldl updateFile []
  nodup : ((added es).map fileNumber).Nodup
  nodup_deleted : ((deleted es).map fst).Nodup

namespace EditCollectors

variable {c c' : EditCollectors} {es : List ColumnFamilyEdit} {e : ColumnFamilyEdit}

theorem addEdit_ok (ha : (((c.of e.columnFamilyId).addedFiles ++ e.addedFiles).map fileNumber).Nodup)
    (hd : (((c.of e.columnFamilyId).deletedFiles ++ e.deletedFiles).map fst).Nodup)
    (hn : ∀ n ∈ c.nextFileNumber, ∀ n' ∈ e.nextFileNumber, n ≤ n') :
    ∃ c', c.addEdit e = .ok c' ∧ c'.nextFileNumber = e.nextFileNumber.or c.nextFileNumber := by
  obtain ⟨collector, hcollector⟩ : ∃ collector,
      (c.of e.columnFamilyId).addEdit { e.toVersionEdit with nextFileNumber := none } = .ok collector := by
    unfold EditCollector.addEdit addFile deleteFile
    rw [Keyed.foldlM_insertNew ha, Keyed.foldlM_insertNew hd]
    exact ⟨_, rfl⟩
  unfold addEdit
  rw [hcollector]
  cases hnext : e.nextFileNumber with
  | none => exact ⟨_, rfl, rfl⟩
  | some n =>
    have hle : ¬ n < c.nextFileNumber.getD 0 := by
      cases hc : c.nextFileNumber with
      | none => exact Nat.not_lt_zero n
      | some n' => exact not_lt.2 (hn n' hc n hnext)
    dsimp only
    rw [if_neg hle]
    exact ⟨_, rfl, rfl⟩

theorem updated_snoc (es : List VersionEdit) (e : VersionEdit) :
    updated (es ++ [e]) = updated es ++ e.updatedDiscardableSize := by
  simp [updated]

/-- One more edit, which goes to the collector of its column family. -/
theorem collects_addEdit (hc : ∀ cf, (c.of cf).Collects (ofFamily cf es)) (h : c.addEdit e = .ok c') (cf : Nat) :
    (c'.of cf).Collects (ofFamily cf (es ++ [e])) := by
  unfold addEdit at h
  rcases hone : (c.of e.columnFamilyId).addEdit { e.toVersionEdit with nextFileNumber := none } with m | collector
  · rw [hone] at h
    cases h
  · rw [hone] at h
    have hfamilies : c'.columnFamilies = c.columnFamilies.alter e.columnFamilyId fun _ => collector := by
      dsimp only at h
      split at h
      · cases h; rfl
      · split at h
        · cases h
        · cases h; rfl
    rw [of, hfamilies, find?_alter, ofFamily_snoc]
    by_cases heq : e.columnFamilyId = cf
    · rw [if_pos heq.symm, if_pos heq, ← heq]
      have hold := hc e.columnFamilyId
      obtain ⟨hadded, hdeleted, hupdated⟩ := addEdit_eq_ok hone
      obtain ⟨hnodup, hnodup'⟩ := nodup_addEdit (by rw [hold.addedFiles]; exact hold.nodup)
        (by rw [hold.deletedFiles]; exact hold.nodup_deleted) hone
      refine ⟨?_, ?_, ?_, ?_, ?_⟩
      · rw [added_snoc, ← hold.addedFiles]
        exact hadded
      · rw [deleted_snoc, ← hold.deletedFiles]
        exact hdeleted
      · rw [updated_snoc, foldl_append, ← hold.updatedDiscardableSize]
        exact hupdated
      · rw [added_snoc, ← hold.addedFiles]
        exact hadded ▸ hnodup
      · rw [deleted_snoc, ← hold.deletedFiles]
        exact hdeleted ▸ hnodup'
    · rw [if_neg (Ne.symm heq), if_neg heq]
      exact hc cf


theorem collects_foldlM (h : es.foldlM addEdit empty = .ok c) (cf : Nat) : (c.of cf).Collects (ofFamily cf es) := by
  induction es using reverseRecOn generalizing c cf with
  | nil =>
    cases h
    exact ⟨rfl, rfl, rfl, nodup_nil, nodup_nil⟩
  | append_singleton es e ih =>
    obtain ⟨c₁, hes, hone⟩ := Keyed.foldlM_snoc_eq_ok.1 h
    exact collects_addEdit (ih hes) hone cf

/-- All edits: each column family gets its own, and the last next file number stays. -/
theorem foldlM_addEdit (ha : ∀ cf, ((added (ofFamily cf es)).map fileNumber).Nodup)
    (hd : ∀ cf, ((deleted (ofFamily cf es)).map fst).Nodup) (hn : (nextNumbers es).Pairwise (· ≤ ·)) :
    ∃ c, es.foldlM addEdit empty = .ok c ∧ c.nextFileNumber = (nextNumbers es).getLast? := by
  induction es using reverseRecOn with
  | nil => exact ⟨empty, rfl, rfl⟩
  | append_singleton es e ih =>
    have hnext : nextNumbers (es ++ [e]) = nextNumbers es ++ e.nextFileNumber.toList := by
      cases he : e.nextFileNumber <;> simp [nextNumbers, he]
    have hfamily : ∀ cf, ofFamily cf (es ++ [e]) = ofFamily cf es ++ ofFamily cf [e] := by simp [ofFamily]
    have hself : ofFamily e.columnFamilyId (es ++ [e]) = _ := (ofFamily_snoc ..).trans (if_pos rfl)
    have hadded := ha e.columnFamilyId
    have hdeleted := hd e.columnFamilyId
    rw [hself, added_snoc] at hadded
    rw [hself, deleted_snoc] at hdeleted
    simp only [hfamily, added, deleted, flatMap_append, map_append] at ha hd
    rw [hnext, pairwise_append] at hn
    obtain ⟨c, hfold, hlast⟩ := ih (fun cf => (ha cf).of_append_left) (fun cf => (hd cf).of_append_left) hn.1
    have hold := collects_foldlM hfold e.columnFamilyId
    obtain ⟨c', hadd, hnext'⟩ := addEdit_ok (hold.addedFiles ▸ hadded) (hold.deletedFiles ▸ hdeleted)
      fun n hn₁ n' hn' => hn.2.2 n (mem_of_getLast? (hlast ▸ hn₁)) n' (by simpa using hn')
    refine ⟨c', Keyed.foldlM_snoc_eq_ok.2 ⟨c, hfold, hadd⟩, ?_⟩
    rw [hnext', hlast, hnext]
    cases e.nextFileNumber <;> simp

theorem collect_eq_ok {records : List Bytes} (h : records.map ColumnFamilyEdit.decodeFrom = es.map .ok) :
    collect records c = .ok c' ↔ es.foldlM addEdit c = .ok c' := by
  induction records generalizing es c with
  | nil =>
    obtain rfl : es = [] := by simpa using h
    rw [collect, Except.ok.injEq]
    exact Except.ok.injEq .. ▸ Iff.rfl
  | cons record records ih =>
    cases es with
    | nil => cases h
    | cons e es =>
      rw [map_cons, map_cons, cons.injEq] at h
      rw [foldlM_cons, collect, h.1]
      dsimp only
      cases c.addEdit e with
      | error m => exact ⟨nofun, nofun⟩
      | ok c₁ => exact ih h.2

end EditCollectors

/-! ### Snapshots -/

section snapshot
variable {fs : BlobFileSets} {s : BlobStorage} {es : List VersionEdit}

theorem live_eq_find? (h : s.Tidy) (k : Nat) :
    s.live k = ((s.files.filter fun m => !m.isObsolete).find? fun m => m.fileNumber == k).map BlobFileMeta.persisted := by
  unfold BlobStorage.live
  cases hfind : (s.files.filter fun m => !m.isObsolete).find? fun m => m.fileNumber == k with
  | some m =>
    obtain ⟨hmem, hlive⟩ := mem_filter.1 (mem_of_find?_eq_some hfind)
    have hnum : m.fileNumber = k := by simpa using find?_some hfind
    rw [← hnum, BlobStorage.findFile, Keyed.find?_of_mem h.nodup hmem, filter_some, if_pos hlive]
  | none =>
    rw [find?_eq_none] at hfind
    cases hm : s.findFile k with
    | none => rfl
    | some m =>
      rw [filter_some, if_neg]
      intro hlive
      have hmem : m ∈ s.files.filter fun m => !m.isObsolete :=
        mem_filter.2 ⟨mem_of_find?_eq_some hm, hlive⟩
      exact hfind m hmem (by simpa using BlobStorage.fileNumber_of_findFile hm)

/-- The record of one column family, as it is read back. -/
def familyRecord (p : Nat × BlobStorage) : ColumnFamilyEdit :=
  { ColumnFamilyEdit.empty with
    columnFamilyId := p.1
    addedFiles := (p.2.files.filter fun m => !m.isObsolete).map persisted }

theorem map_persisted_snapshot (fs : BlobFileSets) : fs.snapshot.map ColumnFamilyEdit.persisted =
    { ColumnFamilyEdit.empty with nextFileNumber := some fs.nextFileNumber } ::
      fs.columnFamilies.entries.map familyRecord := by
  rw [BlobFileSets.snapshot, List.map_cons, List.map_map]
  rfl

theorem families_eq (cf : Nat) (l : List (Nat × BlobStorage)) (hnodup : (l.map fst).Nodup) :
    added (ofFamily cf (l.map familyRecord)) = ((findIn cf l).map fun s =>
        (s.files.filter fun m => !m.isObsolete).map BlobFileMeta.persisted).getD [] ∧
      deleted (ofFamily cf (l.map familyRecord)) = [] := by
  induction l with
  | nil => exact ⟨rfl, rfl⟩
  | cons p l ih =>
    rw [map_cons, nodup_cons] at hnodup
    obtain ⟨hadded, hdeleted⟩ := ih hnodup.2
    rw [map_cons, ofFamily_cons]
    by_cases heq : cf = p.1
    · -- no later entry is of this family
      rw [findIn_eq_none (heq ▸ hnodup.1)] at hadded
      rw [if_pos (show (familyRecord p).columnFamilyId = cf from heq.symm), show findIn cf (p :: l) = _ from if_pos heq,
        added, flatMap_cons, ← added, hadded, deleted, flatMap_cons, ← deleted, hdeleted]
      exact ⟨append_nil _, rfl⟩
    · rw [if_neg (show (familyRecord p).columnFamilyId ≠ cf from Ne.symm heq),
        show findIn cf (p :: l) = _ from if_neg heq]
      exact ⟨hadded, hdeleted⟩

theorem snapshot_families (fs : BlobFileSets) (cf : Nat) :
    added (ofFamily cf (fs.snapshot.map persisted)) = ((fs.getBlobStorage cf).map fun s =>
        (s.files.filter fun m => !m.isObsolete).map BlobFileMeta.persisted).getD [] ∧
      deleted (ofFamily cf (fs.snapshot.map persisted)) = [] := by
  obtain ⟨hadded, hdeleted⟩ := families_eq cf fs.columnFamilies.entries fs.columnFamilies.nodup_keys
  rw [map_persisted_snapshot, ofFamily_cons]
  split <;> exact ⟨hadded, hdeleted⟩

theorem Mirrors.of_snapshot {cf : Nat} (htidy : s.Tidy) (hs : fs.getBlobStorage cf = some s) :
    Mirrors (ofFamily cf (fs.snapshot.map persisted)) s := by
  obtain ⟨hadded, hdeleted⟩ := snapshot_families fs cf
  rw [hs] at hadded
  refine ⟨?_, ?_, ?_, fun k => ?_⟩
  · rw [hadded]
    show (((s.files.filter fun m => !m.isObsolete).map BlobFileMeta.persisted).map BlobFileMeta.fileNumber).Nodup
    rw [Mirrors.numbers_persisted]
    exact htidy.nodup.sublist (filter_sublist.map _)
  · rw [hdeleted]
    exact nodup_nil
  · rw [hdeleted]
    exact fun _ h => absurd h not_mem_nil
  · rw [alive, hdeleted, hadded, map_nil, live_eq_find? htidy]
    show _ = ((s.files.filter fun m => !m.isObsolete).map BlobFileMeta.persisted).find? fun m => m.fileNumber == k
    rw [find?_map]
    rfl

end snapshot

/-! ### Runs -/

/-- A blob file set with the numbers that `NewFileNumber` has returned and no edit has added yet. -/
structure FileSetLog where
  fs : BlobFileSets
  reserved : List Nat

inductive FileSetEvent
  | newFileNumber
  /-- An edit that `LogAndApply` accepts. -/
  | edit (e : ColumnFamilyEdit)
  | rewrite
  | purge (oldestSequence : SequenceNumber)

namespace FileSetLog

def create (ids : List Nat) : FileSetLog := ⟨.create ids, []⟩

def step (sep : Bool) (l : FileSetLog) : FileSetEvent → Option FileSetLog
  | .newFileNumber =>
    some ⟨{ l.fs with nextFileNumber := l.fs.nextFileNumber + 1 }, l.fs.nextFileNumber :: l.reserved⟩
  | .edit e =>
    if (∀ m ∈ e.addedFiles, m.fileNumber ∈ l.reserved) ∧ (l.fs.logAndApply sep {} e).2 = .ok then
      some ⟨(l.fs.logAndApply sep {} e).1, l.reserved.filter fun n => n ∉ e.addedFiles.map fileNumber⟩
    else none
  | .rewrite => some { l with fs := l.fs.openManifest }
  | .purge oldestSequence => some { l with fs := l.fs.getObsoleteFiles oldestSequence }

theorem step_edit {sep : Bool} {l l' : FileSetLog} {e : ColumnFamilyEdit} (h : step sep l (.edit e) = some l') :
    (∀ m ∈ e.addedFiles, m.fileNumber ∈ l.reserved) ∧ (l.fs.logAndApply sep {} e).2 = .ok ∧
      l' = ⟨(l.fs.logAndApply sep {} e).1, l.reserved.filter fun n => n ∉ e.addedFiles.map fileNumber⟩ := by
  simp only [step] at h
  split at h
  next hguard => exact ⟨hguard.1, hguard.2, (some.inj h).symm⟩
  · cases h

/-- An edit of one of the column families, with new files and fields of the widths they have in the source. -/
structure Fits (ids : List Nat) (e : ColumnFamilyEdit) : Prop where
  family : e.columnFamilyId ∈ ids
  new : ∀ m ∈ e.addedFiles, m.isObsolete = false
  sized : e.Sized

/-- The manifest holds the edits `es`, and those of each column family mirror its storage. -/
structure Logged (l : FileSetLog) (es : List ColumnFamilyEdit) : Prop where
  records : l.fs.manifest.map ColumnFamilyEdit.decodeFrom = es.map .ok
  sized : ∀ e ∈ es, ∀ m ∈ e.addedFiles, m.Sized
  families : ∀ cf s, l.fs.getBlobStorage cf = some s → cf < 2 ^ 32 ∧ s.Tidy ∧ Mirrors (ofFamily cf es) s
  closed : ∀ cf, l.fs.getBlobStorage cf = none → added (ofFamily cf es) = [] ∧ deleted (ofFamily cf es) = []
  next_mono : (nextNumbers es).Pairwise (· ≤ ·)
  next_le : ∀ n ∈ nextNumbers es, n ≤ l.fs.nextFileNumber
  next_last : ∃ n, (nextNumbers es).getLast? = some n ∧ ∀ e ∈ es, ∀ m ∈ e.addedFiles, m.fileNumber < n
  reserved : ∀ n ∈ l.reserved, n < l.fs.nextFileNumber ∧ ∀ e ∈ es, n ∉ e.addedFiles.map fileNumber

section
variable {sep : Bool} {ids : List Nat} {l l' : FileSetLog} {es : List ColumnFamilyEdit} {e : ColumnFamilyEdit}

theorem Logged.lt_next (h : Logged l es) (he : e ∈ es) {m : BlobFileMeta} (hm : m ∈ e.addedFiles) :
    m.fileNumber < l.fs.nextFileNumber := by
  obtain ⟨n, hlast, hlt⟩ := h.next_last
  exact (hlt e he m hm).trans_le (h.next_le n (mem_of_getLast? hlast))

theorem Logged.newFileNumber (h : Logged l es) :
    Logged ⟨{ l.fs with nextFileNumber := l.fs.nextFileNumber + 1 }, l.fs.nextFileNumber :: l.reserved⟩ es := by
  refine ⟨h.records, h.sized, h.families, h.closed, h.next_mono, fun n hn => (h.next_le n hn).trans (Nat.le_succ _),
    h.next_last, fun n hn => ?_⟩
  rcases mem_cons.1 hn with rfl | hn
  · refine ⟨Nat.lt_succ_self _, fun e he hmem => ?_⟩
    obtain ⟨m, hm, heq⟩ := mem_map.1 hmem
    exact absurd (h.lt_next he hm) (by omega)
  · exact ⟨(h.reserved n hn).1.trans (Nat.lt_succ_self _), (h.reserved n hn).2⟩

theorem getBlobStorage_getObsoleteFiles (fs : BlobFileSets) (oldest : SequenceNumber) (cf : Nat) :
    (fs.getObsoleteFiles oldest).getBlobStorage cf =
      (fs.getBlobStorage cf).map fun s => (s.getObsoleteFiles oldest).1 :=
  find?_map _ _ cf

theorem Logged.purge (h : Logged l es) (oldest : SequenceNumber) :
    Logged { l with fs := l.fs.getObsoleteFiles oldest } es := by
  refine ⟨h.records, h.sized, fun cf s hs => ?_, fun cf hs => ?_, h.next_mono, h.next_le, h.next_last, h.reserved⟩
  · rw [getBlobStorage_getObsoleteFiles] at hs
    obtain ⟨s₀, hs₀, rfl⟩ := map_eq_some_iff.1 hs
    obtain ⟨hcf, htidy, hmirrors⟩ := h.families cf s₀ hs₀
    exact ⟨hcf, htidy.getObsoleteFiles oldest, hmirrors.congr (BlobStorage.live_getObsoleteFiles htidy oldest)⟩
  · rw [getBlobStorage_getObsoleteFiles] at hs
    exact h.closed cf (map_eq_none_iff.1 hs)

theorem Logged.live_file (h : Logged l es) {cf : Nat} {s : BlobStorage} (hs : l.fs.getBlobStorage cf = some s)
    {m : BlobFileMeta} (hm : m ∈ s.files.filter fun m => !m.isObsolete) :
    m.Sized ∧ m.fileNumber < l.fs.nextFileNumber ∧ m.fileNumber ∉ l.reserved := by
  obtain ⟨hmem, hlive⟩ := mem_filter.1 hm
  obtain ⟨-, htidy, hmirrors⟩ := h.families cf s hs
  have hfind : s.findFile m.fileNumber = some m := Keyed.find?_of_mem htidy.nodup hmem
  obtain ⟨hadded, -, -⟩ := hmirrors.mem_added_of_live hfind (by simpa using hlive)
  obtain ⟨e, he, hme⟩ := added_ofFamily_subset hadded
  have hlt : m.persisted.fileNumber < _ := h.lt_next he hme
  refine ⟨sized_persisted.1 (h.sized e he _ hme), hlt, fun hres => ?_⟩
  exact (h.reserved _ hres).2 e he (mem_map.2 ⟨_, hme, rfl⟩)

theorem logged_openManifest {fs : BlobFileSets} {reserved : List Nat} (hnext : fs.nextFileNumber < 2 ^ 64)
    (hfamilies : ∀ cf s, fs.getBlobStorage cf = some s → cf < 2 ^ 32 ∧ s.Tidy ∧
      ∀ m ∈ s.files.filter fun m => !m.isObsolete, m.Sized ∧ m.fileNumber < fs.nextFileNumber ∧ m.fileNumber ∉ reserved)
    (hreserved : ∀ n ∈ reserved, n < fs.nextFileNumber) :
    Logged ⟨fs.openManifest, reserved⟩ (fs.snapshot.map persisted) := by
  have hentry : ∀ p ∈ fs.columnFamilies.entries, p.1 < 2 ^ 32 ∧ p.2.Tidy ∧
      ∀ m ∈ p.2.files.filter fun m => !m.isObsolete,
        m.Sized ∧ m.fileNumber < fs.nextFileNumber ∧ m.fileNumber ∉ reserved :=
    fun p hp => hfamilies p.1 p.2 (fs.columnFamilies.mem_entries.1 hp)
  have hsized : ∀ e ∈ fs.snapshot, e.Sized := by
    intro e he
    rcases mem_cons.1 he with rfl | he
    · refine ⟨⟨fun n hn => ?_, Nat.two_pow_pos 32, nofun, nofun, nofun, nodup_nil⟩, nofun⟩
      cases hn
      exact hnext
    · obtain ⟨p, hp, rfl⟩ := mem_map.1 he
      obtain ⟨hcf, -, hfiles⟩ := hentry p hp
      exact ⟨⟨nofun, hcf, forall_mem_map.2 fun m hm => (hfiles m hm).1.1, nofun, nofun, nodup_nil⟩,
        forall_mem_map.2 fun m hm => (hfiles m hm).1.2⟩
  have hnumbers : nextNumbers (fs.snapshot.map persisted) = [fs.nextFileNumber] := by
    have hnone : nextNumbers (fs.columnFamilies.entries.map familyRecord) = [] := by
      rw [nextNumbers, filterMap_map, filterMap_eq_nil_iff]
      exact fun _ _ => rfl
    rw [map_persisted_snapshot]
    exact congrArg (fs.nextFileNumber :: ·) hnone
  have hfiles : ∀ e ∈ fs.snapshot.map ColumnFamilyEdit.persisted, ∀ m ∈ e.addedFiles,
      m.Sized ∧ m.fileNumber < fs.nextFileNumber ∧ m.fileNumber ∉ reserved := by
    intro e he m hm
    rw [map_persisted_snapshot] at he
    rcases mem_cons.1 he with rfl | he
    · cases hm
    · obtain ⟨p, hp, rfl⟩ := mem_map.1 he
      obtain ⟨m₀, hm₀, rfl⟩ := mem_map.1 hm
      obtain ⟨hsized, hrest⟩ := (hentry p hp).2.2 m₀ hm₀
      exact ⟨sized_persisted.2 hsized, hrest⟩
  refine ⟨?_, fun e he m hm => (hfiles e he m hm).1, fun cf s hs => ?_, fun cf hs => ?_, ?_, ?_, ?_, fun n hn => ?_⟩
  · show (fs.snapshot.map ColumnFamilyEdit.encodeTo).map ColumnFamilyEdit.decodeFrom = _
    rw [List.map_map, List.map_map]
    exact map_congr_left fun e he => decodeFrom_encodeTo (hsized e he)
  · obtain ⟨hcf, htidy, -⟩ := hfamilies cf s hs
    exact ⟨hcf, htidy, .of_snapshot htidy hs⟩
  · obtain ⟨hadded, hdeleted⟩ := snapshot_families fs cf
    rw [show fs.getBlobStorage cf = none from hs] at hadded
    exact ⟨hadded, hdeleted⟩
  · rw [hnumbers]
    exact pairwise_singleton _ _
  · rw [hnumbers]
    intro n hn
    exact (mem_singleton.1 hn).le
  · rw [hnumbers]
    exact ⟨_, rfl, fun e he m hm => (hfiles e he m hm).2.1⟩
  · refine ⟨hreserved n hn, fun e he hmem => ?_⟩
    obtain ⟨m, hm, rfl⟩ := mem_map.1 hmem
    exact (hfiles e he m hm).2.2 hn

theorem Logged.rewrite (h : Logged l es) (hnext : l.fs.nextFileNumber < 2 ^ 64) :
    Logged { l with fs := l.fs.openManifest } (l.fs.snapshot.map persisted) := by
  refine logged_openManifest hnext (fun cf s hs => ?_) fun n hn => (h.reserved n hn).1
  obtain ⟨hcf, htidy, -⟩ := h.families cf s hs
  exact ⟨hcf, htidy, fun m hm => h.live_file hs hm⟩

theorem getBlobStorage_create (ids : List Nat) (cf : Nat) :
    (BlobFileSets.create ids).getBlobStorage cf = if cf ∈ ids then some ⟨[], [], []⟩ else none := by
  show (ids.foldl (fun cfs id => cfs.alter id (·.getD ⟨[], [], []⟩)) (.empty : Storages)).find? cf = _
  induction ids using reverseRecOn with
  | nil => rfl
  | append_singleton ids id ih =>
    rw [foldl_append, foldl_cons, foldl_nil, find?_alter]
    by_cases heq : cf = id
    · subst heq
      rw [if_pos rfl, ih]
      split <;> simp
    · simp [heq, ih]

theorem logged_create (hids : ∀ id ∈ ids, id < 2 ^ 32) :
    Logged (create ids) ((create ids).fs.snapshot.map persisted) := by
  refine logged_openManifest (by show 2 < 2 ^ 64; decide) (fun cf s hs => ?_) nofun
  have hget := getBlobStorage_create ids cf
  rw [show (BlobFileSets.create ids).getBlobStorage cf = some s from hs] at hget
  split at hget
  next hmem =>
    cases hget
    exact ⟨hids cf hmem, BlobStorage.tidy_empty, nofun⟩
  · cases hget

theorem Logged.edit (h : Logged l es) (hfits : Fits ids e) {s : BlobStorage}
    (hs : l.fs.getBlobStorage e.columnFamilyId = some s) (hres : ∀ m ∈ e.addedFiles, m.fileNumber ∈ l.reserved)
    (hok : (l.fs.logAndApply sep {} e).2 = .ok) (hnext : l.fs.nextFileNumber < 2 ^ 64) :
    Logged ⟨(l.fs.logAndApply sep {} e).1,
      l.reserved.filter fun n => n ∉ e.addedFiles.map fileNumber⟩
      (es ++ [({ e with nextFileNumber := some l.fs.nextFileNumber } : ColumnFamilyEdit).persisted]) := by
  have hacc : e.Accepted l.fs := by
    by_contra hnot
    exact (logAndApply_of_not_accepted hnot).2 hok
  have hmanifest : (l.fs.logAndApply sep {} e).1.manifest = _ := (logAndApply_of_accepted hacc rfl rfl).1
  have hget : ∀ cf, (l.fs.logAndApply sep {} e).1.getBlobStorage cf = if cf = e.columnFamilyId then
      (l.fs.getBlobStorage cf).map fun s => (e.collector.apply sep s).1 else l.fs.getBlobStorage cf :=
    (logAndApply_of_accepted hacc rfl rfl).2
  -- the record that is written carries the next file number
  let e' : ColumnFamilyEdit := { e with nextFileNumber := some l.fs.nextFileNumber }
  have hsized : e'.Sized := by
    refine ⟨{ hfits.sized.typed with nextFileNumber := fun n hn => ?_ }, hfits.sized.keys⟩
    cases hn
    exact hnext
  have hnumbers : nextNumbers (es ++ [e'.persisted]) = nextNumbers es ++ [l.fs.nextFileNumber] := by
    rw [nextNumbers, filterMap_append]
    rfl
  have hadded : ∀ m ∈ e'.persisted.addedFiles, m.Sized ∧ m.fileNumber < l.fs.nextFileNumber ∧
      m.fileNumber ∈ e.addedFiles.map fileNumber := by
    intro m hm
    obtain ⟨m₀, hm₀, rfl⟩ := mem_map.1 hm
    exact ⟨sized_persisted.2 (hfits.sized.added hm₀), (h.reserved _ (hres m₀ hm₀)).1,
      mem_map.2 ⟨m₀, hm₀, rfl⟩⟩
  refine ⟨?_, ?_, fun cf s₁ hs₁ => ?_, fun cf hs₁ => ?_, ?_, ?_, ?_, fun n hn => ?_⟩
  · rw [hmanifest, map_append, h.records, map_append,
      map_singleton, map_singleton, decodeFrom_encodeTo hsized]
  · exact forall_mem_append.2 ⟨h.sized, forall_mem_singleton.2 fun m hm => (hadded m hm).1⟩
  · rw [show getBlobStorage _ cf = _ from hget cf] at hs₁
    rw [ofFamily_snoc]
    by_cases heq : cf = e.columnFamilyId
    · rw [if_pos heq, heq, hs, map_some, some.injEq] at hs₁
      obtain ⟨hcf, htidy, hmirrors⟩ := h.families _ _ hs
      have hseal : e'.collector.sealStatus s = .ok := VersionEdit.sealed_iff.2 (hacc.sealed s hs)
      have hcf' : e'.persisted.columnFamilyId = cf := heq.symm
      rw [if_pos hcf', heq, ← hs₁]
      refine ⟨hcf, htidy.apply sep hseal hacc.deleted, hmirrors.snoc hacc.added hacc.deleted hseal ?_ hfits.new⟩
      intro m hm hmem
      obtain ⟨m₁, hm₁, hnum⟩ := mem_map.1 hmem
      obtain ⟨e₁, he₁, hm₁'⟩ := added_ofFamily_subset hm₁
      exact (h.reserved _ (hres m hm)).2 e₁ he₁ (mem_map.2 ⟨m₁, hm₁', hnum⟩)
    · rw [if_neg heq] at hs₁
      have hcf' : ¬ e'.persisted.columnFamilyId = cf := Ne.symm heq
      rw [if_neg hcf']
      exact h.families cf s₁ hs₁
  · rw [show getBlobStorage _ cf = _ from hget cf] at hs₁
    rw [ofFamily_snoc]
    by_cases heq : cf = e.columnFamilyId
    · rw [if_pos heq, heq, hs] at hs₁
      cases hs₁
    · rw [if_neg heq] at hs₁
      have hcf' : ¬ e'.persisted.columnFamilyId = cf := Ne.symm heq
      rw [if_neg hcf']
      exact h.closed cf hs₁
  · rw [hnumbers, pairwise_append]
    refine ⟨h.next_mono, pairwise_singleton _ _, fun n hn n' hn' => ?_⟩
    rw [mem_singleton.1 hn']
    exact h.next_le n hn
  · rw [hnumbers, nextFileNumber_logAndApply]
    exact forall_mem_append.2 ⟨h.next_le, forall_mem_singleton.2 le_rfl⟩
  · exact ⟨l.fs.nextFileNumber, by rw [hnumbers, getLast?_concat],
      forall_mem_append.2 ⟨fun _ he₁ _ => h.lt_next he₁, forall_mem_singleton.2 fun m hm => (hadded m hm).2.1⟩⟩
  · obtain ⟨hn, hnew⟩ := mem_filter.1 hn
    refine ⟨by rw [nextFileNumber_logAndApply]; exact (h.reserved n hn).1,
      forall_mem_append.2 ⟨(h.reserved n hn).2, forall_mem_singleton.2 fun hmem => ?_⟩⟩
    obtain ⟨m, hm, rfl⟩ := mem_map.1 hmem
    exact of_decide_eq_true hnew (hadded m hm).2.2

/-- What holds all along a run: the column families are open, and the manifest mirrors them. -/
def Inv (ids : List Nat) (l : FileSetLog) : Prop :=
  (∀ cf ∈ ids, (l.fs.getBlobStorage cf).isSome) ∧ ∃ es, Logged l es

theorem isSome_logAndApply {fs : BlobFileSets} {cf : Nat} (h : (fs.getBlobStorage cf).isSome) :
    ((fs.logAndApply sep {} e).1.getBlobStorage cf).isSome := by
  rcases getBlobStorage_logAndApply cf with hsame | ⟨-, -, hmap⟩
  · rw [hsame]
    exact h
  · rw [hmap, isSome_map]
    exact h

/-- The edits in the manifest after the event. -/
def recordsAfter (l : FileSetLog) (es : List ColumnFamilyEdit) : FileSetEvent → List ColumnFamilyEdit
  | .edit e => es ++ [({ e with nextFileNumber := some l.fs.nextFileNumber } : ColumnFamilyEdit).persisted]
  | .rewrite => l.fs.snapshot.map persisted
  | _ => es

theorem Logged.step {ev : FileSetEvent} (h : Logged l es) (hopen : ∀ cf ∈ ids, (l.fs.getBlobStorage cf).isSome)
    (hfits : ∀ e, ev = .edit e → Fits ids e) (hnext : l.fs.nextFileNumber < 2 ^ 64)
    (hstep : FileSetLog.step sep l ev = some l') :
    (∀ cf ∈ ids, (l'.fs.getBlobStorage cf).isSome) ∧ Logged l' (recordsAfter l es ev) := by
  cases ev with
  | newFileNumber => cases hstep; exact ⟨hopen, h.newFileNumber⟩
  | edit e =>
    obtain ⟨hres, hok, rfl⟩ := step_edit hstep
    obtain ⟨s, hs⟩ := isSome_iff_exists.1 (hopen _ (hfits e rfl).family)
    exact ⟨fun cf hcf => isSome_logAndApply (hopen cf hcf), h.edit (hfits e rfl) hs hres hok hnext⟩
  | rewrite => cases hstep; exact ⟨hopen, h.rewrite hnext⟩
  | purge oldest =>
    cases hstep
    refine ⟨fun cf hcf => ?_, h.purge oldest⟩
    rw [getBlobStorage_getObsoleteFiles, isSome_map]
    exact hopen cf hcf

theorem Inv.step {ev : FileSetEvent} (h : Inv ids l) (hfits : ∀ e, ev = .edit e → Fits ids e)
    (hnext : l.fs.nextFileNumber < 2 ^ 64) (hstep : FileSetLog.step sep l ev = some l') : Inv ids l' := by
  obtain ⟨hopen, es, hlogged⟩ := h
  obtain ⟨hopen', hlogged'⟩ := hlogged.step hopen hfits hnext hstep
  exact ⟨hopen', _, hlogged'⟩

theorem nextFileNumber_step {ev : FileSetEvent} (hstep : FileSetLog.step sep l ev = some l') :
    l.fs.nextFileNumber ≤ l'.fs.nextFileNumber := by
  cases ev with
  | newFileNumber => cases hstep; exact Nat.le_succ _
  | edit e =>
    obtain ⟨-, -, rfl⟩ := step_edit hstep
    exact nextFileNumber_logAndApply.ge
  | rewrite => cases hstep; exact le_rfl
  | purge oldest => cases hstep; exact le_rfl

theorem allSteps_of_run {events : List FileSetEvent} (hfits : ∀ e, .edit e ∈ events → Fits ids e)
    (hrun : run (step sep) (create ids) events = some l) (hnext : l.fs.nextFileNumber < 2 ^ 64) :
    AllSteps (step sep) (fun l ev => (∀ e, ev = .edit e → Fits ids e) ∧ l.fs.nextFileNumber < 2 ^ 64)
      (create ids) events := by
  refine AllSteps.and (AllSteps.of_forall fun ev hev e heq => hfits e (heq ▸ hev)) ?_
  exact AllSteps.of_le_final (fun _ _ _ => nextFileNumber_step) hrun hnext

theorem isSome_create {cf : Nat} (h : cf ∈ ids) : ((create ids).fs.getBlobStorage cf).isSome := by
  rw [show (create ids).fs.getBlobStorage cf = _ from getBlobStorage_create ids cf, if_pos h]
  rfl

theorem Logged.replay (sep : Bool) (h : Logged l es) :
    ∃ cfs n, BlobFileSets.replay sep l.fs.reopened l.fs.manifest = .ok (cfs, n) ∧
      ∀ cf s, l.fs.getBlobStorage cf = some s → ∃ s', cfs.find? cf = some s' ∧
        (∀ k, (s'.findFile k).map BlobFileMeta.persisted = s.live k) ∧
        ∀ k m, s.findFile k = some m → m.isObsolete = false → k < n := by
  have hedits : ∀ cf, ((added (ofFamily cf es)).map fileNumber).Nodup ∧
      ((deleted (ofFamily cf es)).map fst).Nodup := by
    intro cf
    cases hs : l.fs.getBlobStorage cf with
    | none =>
      rw [(h.closed cf hs).1, (h.closed cf hs).2]
      exact ⟨nodup_nil, nodup_nil⟩
    | some s => exact ⟨(h.families cf s hs).2.2.added, (h.families cf s hs).2.2.deleted⟩
  obtain ⟨c, hfold, hcnext⟩ := foldlM_addEdit (fun cf => (hedits cf).1) (fun cf => (hedits cf).2) h.next_mono
  have hc := collects_foldlM hfold
  have hadded : ∀ cf, (c.of cf).addedFiles = added (ofFamily cf es) := fun cf => (hc cf).addedFiles
  have hdeleted : ∀ cf, (c.of cf).deletedFiles = deleted (ofFamily cf es) := fun cf => (hc cf).deletedFiles
  obtain ⟨n, hlast, hlt⟩ := h.next_last
  have hget : ∀ cf, l.fs.reopened.find? cf = (l.fs.getBlobStorage cf).map fun _ => ⟨[], [], []⟩ :=
    fun cf => find?_map _ _ cf
  have hsub : ∀ cf s, l.fs.getBlobStorage cf = some s → ∀ p ∈ (c.of cf).deletedFiles, (c.of cf).adds p.1 = true := by
    intro cf s hs p hp
    rw [hdeleted] at hp
    rw [adds, hadded]
    exact decide_eq_true ((h.families cf s hs).2.2.deleted_added p hp)
  have hseal : ∀ p ∈ c.columnFamilies.entries, ∀ s, l.fs.reopened.find? p.1 = some s → p.2.sealStatus s = .ok := by
    intro p hp s hs
    rw [hget] at hs
    obtain ⟨s₀, hs₀, rfl⟩ := map_eq_some_iff.1 hs
    have hp' : p.2 = c.of p.1 := by
      rw [of, c.columnFamilies.mem_entries.1 hp]
      rfl
    rw [hp']
    exact sealStatus_eq_ok.2 ⟨fun _ _ => rfl, fun q hq => .inl (hsub p.1 s₀ hs₀ q hq)⟩
  obtain ⟨cfs, happly, hcfs⟩ := applyAll_ok _ c.columnFamilies.nodup_keys hseal
  refine ⟨cfs, n, ?_, fun cf s hs => ?_⟩
  · have hsealed : c.sealStatus l.fs.reopened = .ok := sealAll_eq_ok.2 hseal
    have happlied : c.apply sep l.fs.reopened = (cfs, .ok) := happly
    have hcnext' : c.nextFileNumber = some n := hcnext.trans hlast
    simp only [BlobFileSets.replay, (EditCollectors.collect_eq_ok h.records).2 hfold, hsealed, happlied, hcnext']
  · obtain ⟨-, -, hmirrors⟩ := h.families cf s hs
    obtain ⟨s', hs', -, -, hfind⟩ := apply_empty sep (hsub cf s hs)
    refine ⟨s', ?_, fun k => ?_, fun k m hm hlive => ?_⟩
    · rw [hcfs, hget, hs]
      show some ((c.of cf).apply sep ⟨[], [], []⟩).1 = some s'
      rw [hs']
    · obtain ⟨f, hf, hsame⟩ := hfind k
      have halive : (if (c.of cf).deletes k = true then none
          else (c.of cf).addedFiles.find? fun m => m.fileNumber == k) = alive (ofFamily cf es) k := by
        rw [alive, hadded, deletes, hdeleted]
        simp only [decide_eq_true_eq]
      rw [hf, find?_filter_fileNumber, halive, ← hmirrors.live, BlobStorage.live, Option.map_map, Option.map_map]
      refine congrArg (fun g => Option.map g _) (funext fun m => ?_)
      exact hsame m.persisted
    · obtain ⟨hmem, hnum, -⟩ := hmirrors.mem_added_of_live hm hlive
      obtain ⟨e, he, hme⟩ := added_ofFamily_subset hmem
      have hm' : m.fileNumber < n := hlt e he m.persisted hme
      exact hnum ▸ hm'

/-- After every run of accepted edits of new files, manifest rewrites and purges, the manifest is replayed, and in each
column family to exactly the files that are not obsolete in memory, under a next file number above theirs. -/
theorem replay_manifest (sep : Bool) (ids : List Nat) (hids : ∀ id ∈ ids, id < 2 ^ 32) (events : List FileSetEvent)
    (hfits : ∀ e, .edit e ∈ events → Fits ids e) (l : FileSetLog)
    (hrun : run (step sep) (create ids) events = some l) (hnext : l.fs.nextFileNumber < 2 ^ 64) :
    ∃ cfs n, BlobFileSets.replay sep l.fs.reopened l.fs.manifest = .ok (cfs, n) ∧
      ∀ cf ∈ ids, ∃ s s', l.fs.getBlobStorage cf = some s ∧ cfs.find? cf = some s' ∧
        (∀ k, (s'.findFile k).map BlobFileMeta.persisted = s.live k) ∧
        ∀ k m, s.findFile k = some m → m.isObsolete = false → k < n := by
  obtain ⟨hopen, es, hlogged⟩ := run_inv (I := Inv ids) (fun l ev l' hinv hP hstep => hinv.step hP.1 hP.2 hstep)
    ⟨fun _ => isSome_create, _, logged_create hids⟩ (allSteps_of_run hfits hrun hnext) hrun
  obtain ⟨cfs, n, hreplay, hfiles⟩ := hlogged.replay sep
  refine ⟨cfs, n, hreplay, fun cf hcf => ?_⟩
  obtain ⟨s, hs⟩ := isSome_iff_exists.1 (hopen cf hcf)
  obtain ⟨s', hs', hrest⟩ := hfiles cf s hs
  exact ⟨s, s', hs, hs', hrest⟩

/-- Two column families; file 2 is added and deleted again, file 3 stays, with a purge and a rewrite in between. -/
def sampleEvents : List FileSetEvent :=
  [.newFileNumber, .edit { toVersionEdit := ⟨none, [⟨2, 60, 1, .sorted, 3, [97], [98], .pendingLSM, 0⟩], [], []⟩, columnFamilyId := 1 },
    .newFileNumber, .edit { toVersionEdit := ⟨none, [⟨3, 70, 2, .unSorted, 0, [99], [99], .normal, 0⟩], [], [(2, 8)]⟩, columnFamilyId := 0 },
    .rewrite, .edit { toVersionEdit := ⟨none, [], [(2, 7)], []⟩, columnFamilyId := 1 }, .purge 9]

theorem replay_manifest_sample :
    ∃ l, run (step false) (create [0, 1]) sampleEvents = some l ∧
      ∃ cfs n, BlobFileSets.replay false l.fs.reopened l.fs.manifest = .ok (cfs, n) ∧
        ∀ cf ∈ [0, 1], ∃ s s', l.fs.getBlobStorage cf = some s ∧ cfs.find? cf = some s' ∧
          (∀ k, (s'.findFile k).map BlobFileMeta.persisted = s.live k) ∧
          ∀ k m, s.findFile k = some m → m.isObsolete = false → k < n := by
  refine exists_of_map (fun l => l.fs.nextFileNumber) 4 (by decide +kernel) fun l hl hnext => ?_
  refine replay_manifest false [0, 1] (by decide) sampleEvents (fun e he => ?_) l hl (by rw [hnext]; decide)
  simp only [sampleEvents, mem_cons, not_mem_nil, or_false, reduceCtorEq, false_or, FileSetEvent.edit.injEq] at he
  rcases he with rfl | rfl | rfl
  · refine ⟨by decide, by decide, ⟨nofun, by decide, forall_mem_singleton.2 ?_, nofun, nofun, nodup_nil⟩,
      forall_mem_singleton.2 ⟨by decide, by decide⟩⟩
    exact ⟨by decide, by decide, by decide, by decide, by decide⟩
  · refine ⟨by decide, by decide, ⟨nofun, by decide, forall_mem_singleton.2 ?_, nofun, by decide, by decide⟩,
      forall_mem_singleton.2 ⟨by decide, by decide⟩⟩
    exact ⟨by decide, by decide, by decide, by decide, by decide⟩
  · exact ⟨by decide, by decide, ⟨nofun, by decide, nofun, by decide, nofun, nodup_nil⟩, nofun⟩

/-- The storage of a family that is not open has no say in whether a file of it was deleted before. -/
def strayDeletion : FileSetEvent := .edit { toVersionEdit := ⟨none, [], [(7, 0)], []⟩, columnFamilyId := 9 }

/-- `LogAndApply` takes an edit of an unopened family twice; the collector of `Recover` does not. -/
theorem replay_unopened_family :
    ∃ l, run (step false) (create [0]) [strayDeletion, strayDeletion] = some l ∧
      BlobFileSets.replay false l.fs.reopened l.fs.manifest =
        .error (.corruption "Blob file 7 has been deleted twice") :=
  ⟨_, rfl, rfl⟩

end

end FileSetLog

end ValueSep.DiffKV
