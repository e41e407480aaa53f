import Mathlib.Data.Nat.ModEq
import ValueSep.DiffKV.Accounting

/-!
# Deleting files in ranges

`TitanDBImpl::DeleteFilesInRanges`: before the base DB removes the SSTs of the ranges, the engine reads the properties
of the SSTs that it expects to be removed, and then charges them to the blob files. The two select the SSTs with the
same functions of the version; the engine asks them about level `i`, where `i` is the position of the range, and takes
the SSTs of level `level`. No compaction is running.
-/

namespace ValueSep.DiffKV

open List Option BlobFileSets OrdMap BlobStorage EditCollector Prod Keyed

/-- `RangePtr`; a bound that is not there is open. -/
structure KeyRange where
  start : Option Slice
  limit : Option Slice

/-- The range does not end before it begins. -/
def KeyRange.Ordered (o : Options) (r : KeyRange) : Prop :=
  ∀ first ∈ r.start, ∀ last ∈ r.limit, o.comparator first last ≠ .gt

/-- The file lies in the range: it begins in it and ends in it. Where the keys of a file are not known, only a range
without an end is known to hold it. -/
def BlobFileMeta.Inside (o : Options) (includeEnd : Bool) (m : BlobFileMeta) (r : KeyRange) : Prop :=
  (∀ first ∈ r.start, o.comparator first m.smallestKey ≠ .gt) ∧
    ∀ last ∈ r.limit, m.largestKey ≠ [] ∧ o.comparator m.smallestKey last ≠ .gt ∧
      if includeEnd then o.comparator m.largestKey last ≠ .gt else o.comparator m.largestKey last = .lt

instance (o : Options) (includeEnd : Bool) (m : BlobFileMeta) (r : KeyRange) : Decidable (m.Inside o includeEnd r) :=
  inferInstanceAs (Decidable (_ ∧ ∀ last ∈ r.limit, m.largestKey ≠ [] ∧ o.comparator m.smallestKey last ≠ .gt ∧
    if includeEnd then o.comparator m.largestKey last ≠ .gt else o.comparator m.largestKey last = .lt))

/-- The numbers of the files that are there to be noted. -/
def BlobStorage.filesInside (s : BlobStorage) (o : Options) (includeEnd : Bool) (r : KeyRange) : List Nat :=
  (s.files.filter fun m => !m.isObsolete && decide (m.Inside o includeEnd r)).map BlobFileMeta.fileNumber

/-- The edit that deletes the noted files. -/
def dropEdit (cf : Nat) (files : List Nat) : ColumnFamilyEdit :=
  { ColumnFamilyEdit.empty with columnFamilyId := cf, deletedFiles := files.map fun n => (n, 0) }

structure SstFile where
  number : Nat
  largest : Slice
  refs : List BlobIndex
deriving DecidableEq

/-- What the calls ask of a `Version`. Past the levels `levelFiles` is whatever `LevelFiles` reads there. -/
structure LsmVersion where
  numberLevels : Nat
  numNonEmptyLevels : Nat
  levelFiles : Nat → List SstFile
  overlapInLevel : Nat → KeyRange → Bool
  /-- `GetCleanInputsWithinInterval`. -/
  cleanInputs : Nat → KeyRange → List SstFile
  nonEmpty_le : numNonEmptyLevels ≤ numberLevels
  clean_mem : ∀ level r, ∀ f ∈ cleanInputs level r, 1 ≤ level ∧ level < numNonEmptyLevels ∧ f ∈ levelFiles level
  clean_overlap : ∀ level r, cleanInputs level r ≠ [] → overlapInLevel level r = true
  number_inj : ∀ level < numNonEmptyLevels, ∀ level' < numNonEmptyLevels, ∀ f ∈ levelFiles level,
    ∀ f' ∈ levelFiles level', f.number = f'.number → f = f'
  collectable : ∀ level < numNonEmptyLevels, ∀ f ∈ levelFiles level, Collectable f.refs

structure RangeDeletion where
  cf : Nat
  ranges : List KeyRange
  includeEnd : Bool

structure RangeDeletionEnv where
  version : LsmVersion
  /-- The status that `GetTableProperties` ends the call with, if it does. -/
  properties : SstFile → Option Status
  baseStatus : Status
  latestSequenceNumber : SequenceNumber
  /-- The discardable ratio is above the one for the file's level. -/
  needGC : BlobFileMeta → Bool
  /-- Of the write for the blob files in the ranges, and of the write for the charged files. -/
  rangeManifest : ManifestFaults
  manifest : ManifestFaults

namespace RangeDeletion

variable (o : Options) (env : RangeDeletionEnv) (call : RangeDeletion)

/-- The SSTs of `level` in the range, if level `tested` is not empty and overlaps it. -/
def within (tested level : Nat) (r : KeyRange) : List SstFile :=
  if (env.version.levelFiles tested).isEmpty || !env.version.overlapInLevel tested r then []
  else (env.version.cleanInputs level r).filter fun f =>
    !(!call.includeEnd && r.limit.any fun last => o.comparator f.largest last = .eq)

/-- The SSTs in the order of the two loops. -/
def inputs (numLevels : Nat) (tested : Nat → Nat → Nat) : List SstFile :=
  call.ranges.zipIdx.flatMap fun p =>
    (range' 1 (numLevels - 1)).flatMap fun level => call.within o env (tested p.2 level) level p.1

/-- One SST: its properties are read once. -/
def collectFile (props : List SstFile) (f : SstFile) : Except Status (List SstFile) :=
  if f.number ∈ props.map SstFile.number then .ok props
  else
    match env.properties f with
    | none => .ok (props ++ [f])
    | some st => .error st

/-- The SSTs that the engine will charge: level `i` is tested for range `i`. -/
def collect : Except Status (List SstFile) :=
  (call.inputs o env env.version.numNonEmptyLevels fun i _ => i).foldlM (collectFile env) []

/-- The SSTs that `DBImpl::DeleteFilesInRanges` removes. -/
def baseRemoves : List SstFile :=
  (call.inputs o env env.version.numberLevels fun _ level => level).foldl (emplace SstFile.number) []

/-- The sizes of one SST are added to `blob_files_discardable_size`. -/
def addSst (m : OrdMap Nat Nat) (f : SstFile) : OrdMap Nat Nat :=
  match propertyOf f.refs with
  | none => m
  | some src =>
    match BlobFileSizeCollector.decode src with
    | (sizes, true) => sizes.entries.foldl (fun m p => m.alter p.1 fun size => u64 (size.getD 0 + p.2)) m
    | (_, false) => m

def discardableSizes (ssts : List SstFile) : OrdMap Nat Nat := ssts.foldl addSst .empty

/-- What `BlobStorage::GetBlobFilesInRanges` finds, with the files in the order of `blob_ranges_`. -/
def getBlobFilesInRanges (s : BlobStorage) : List Nat :=
  call.ranges.flatMap (BlobStorage.filesInside
    { s with files := s.files.mergeSort fun a b => o.comparator a.smallestKey b.smallestKey != .gt } o call.includeEnd)

/-- `BlobFileSet::DeleteBlobFilesInRanges`; the edit leaves the obsolete sequence at 0. -/
def deleteBlobFilesInRanges (fs : BlobFileSets) : BlobFileSets × Status :=
  match fs.getBlobStorage call.cf with
  | none => (fs, .notFound "invalid column family")
  | some s =>
    fs.logAndApply o.sepBeforeFlush env.rangeManifest (dropEdit call.cf (call.getBlobFilesInRanges o s))

structure Acc where
  storage : BlobStorage
  delta : Nat
  edit : ColumnFamilyEdit

/-- One turn of the loop over `blob_files_discardable_size`. -/
def Acc.file (a : Acc) (bfs : Nat × Nat) : Acc :=
  match a.storage.findFile bfs.1 with
  | none => a
  | some file =>
    let delta := if file.isObsolete then a.delta else u64 (a.delta + bfs.2)
    let file := file.addDiscardableSize bfs.2
    let a := { a with storage := a.storage.updateFile bfs.1 (·.addDiscardableSize bfs.2), delta }
    if o.levelMerge then
      if file.noLiveData then
        { a with edit := { a.edit with
            deletedFiles := a.edit.deletedFiles ++ [(file.fileNumber, env.latestSequenceNumber)] } }
      else if env.needGC file then
        { a with
          storage := a.storage.updateFile bfs.1 (·.fileStateTransit .needGC)
          edit := { a.edit with updatedDiscardableSize := a.edit.updatedDiscardableSize ++ [bfs] } }
      else if 0 < bfs.2 then
        { a with edit := { a.edit with updatedDiscardableSize := a.edit.updatedDiscardableSize ++ [bfs] } }
      else a
    else a

/-- The last part of the call, on the storage of the column family. The edit keeps the column family id of a new edit,
and the status of `LogAndApply` is not looked at. -/
def charge (sizes : OrdMap Nat Nat) (s : BlobStorage) (fs : BlobFileSets) : BlobFileSets :=
  let a := sizes.entries.foldl (Acc.file o env) ⟨s, 0, .empty⟩
  let fs := fs.setBlobStorage call.cf a.storage
  if o.levelMerge then (fs.logAndApply o.sepBeforeFlush env.manifest a.edit).1 else fs

/-- `TitanDBImpl::DeleteFilesInRanges`: the file set, the SSTs that the base DB has removed, and the status. -/
def deleteFilesInRanges (fs : BlobFileSets) : BlobFileSets × List SstFile × Status :=
  match call.collect o env with
  | .error st => (fs, [], st)
  | .ok props =>
    let sizes := discardableSizes props
    if env.baseStatus = .ok then
      let removed := call.baseRemoves o env
      match call.deleteBlobFilesInRanges o env fs with
      | (fs, .ok) =>
        match fs.getBlobStorage call.cf with
        | none => (fs, removed, .notFound ("Column family id: " ++ toString call.cf ++ " not Found."))
        | some s => (call.charge o env sizes s fs, removed, .ok)
      | (fs, st) => (fs, removed, st)
    else (fs, [], env.baseStatus)

end RangeDeletion

/-! ### The blob files in the ranges -/

section delete

variable {s : BlobStorage} {o : Options} {includeEnd : Bool} {ranges : List KeyRange} {cf : Nat} {files : List Nat}

theorem BlobStorage.mem_filesInside {n : Nat} {r : KeyRange} :
    n ∈ s.filesInside o includeEnd r ↔
      ∃ m ∈ s.files, m.fileNumber = n ∧ m.isObsolete = false ∧ m.Inside o includeEnd r := by
  simp only [filesInside, List.mem_map, List.mem_filter, Bool.and_eq_true, Bool.not_eq_true', decide_eq_true_eq]
  constructor
  · rintro ⟨m, ⟨hm, hin⟩, hnum⟩
    exact ⟨m, hm, hnum, hin⟩
  · rintro ⟨m, hm, hnum, hin⟩
    exact ⟨m, ⟨hm, hin⟩, hnum⟩

theorem BlobStorage.nodup_filesInside (hfiles : (s.files.map BlobFileMeta.fileNumber).Nodup) :
    (ranges.flatMap (s.filesInside o includeEnd)).Nodup ↔
      ranges.Pairwise fun r r' => ∀ m ∈ s.files, m.isObsolete = false →
        ¬ (m.Inside o includeEnd r ∧ m.Inside o includeEnd r') := by
  rw [nodup_flatMap]
  constructor
  · rintro ⟨-, hdisjoint⟩
    refine hdisjoint.imp fun {r r'} hd m hm hobs hin => ?_
    exact hd (mem_filesInside.2 ⟨m, hm, rfl, hobs, hin.1⟩) (mem_filesInside.2 ⟨m, hm, rfl, hobs, hin.2⟩)
  · intro h
    refine ⟨fun r _ => (filter_sublist.map _).nodup hfiles, h.imp fun {r r'} hnot n hn hn' => ?_⟩
    obtain ⟨m, hm, hnum, hobs, hin⟩ := mem_filesInside.1 hn
    obtain ⟨m', hm', hnum', -, hin'⟩ := mem_filesInside.1 hn'
    obtain rfl : m = m' := inj_on_of_nodup_map hfiles hm hm' (hnum.trans hnum'.symm)
    exact hnot m hm hobs ⟨hin, hin'⟩

theorem numbers_dropEdit : (dropEdit cf files).deletedFiles.map Prod.fst = files := by
  rw [dropEdit, List.map_map]
  exact map_id _

theorem accepted_dropEdit {fs : BlobFileSets}
    (hfiles : (s.files.map BlobFileMeta.fileNumber).Nodup) (hs : fs.getBlobStorage cf = some s)
    (hperm : files.Perm (ranges.flatMap (s.filesInside o includeEnd))) :
    (dropEdit cf files).Accepted fs ↔ files.Nodup := by
  constructor
  · intro h
    have hnodup := h.deleted
    rwa [numbers_dropEdit] at hnodup
  · intro hnodup
    refine ⟨nodup_nil, by rwa [numbers_dropEdit], fun s' hs' => ⟨nofun, fun p hp => .inr ?_⟩⟩
    cases hs.symm.trans hs'
    have hp' : p.1 ∈ (dropEdit cf files).deletedFiles.map fst := mem_map_of_mem hp
    rw [numbers_dropEdit] at hp'
    obtain ⟨r, -, hr⟩ := mem_flatMap.1 (hperm.mem_iff.1 hp')
    obtain ⟨m, hm, hnum, hobs, -⟩ := mem_filesInside.1 hr
    exact ⟨m, hnum ▸ Keyed.find?_of_mem hfiles hm, hobs⟩

end delete

/-! ### What the call sees of a file -/

structure FileView where
  fileSize : Nat
  discardableSize : Nat
  obsolete : Bool
deriving DecidableEq

namespace FileView

def add (d : Nat) (v : FileView) : FileView := { v with discardableSize := (v.discardableSize + d) % 2 ^ 64 }

def noLiveData (v : FileView) : Bool := v.discardableSize = u64 (v.fileSize - kBlobHeaderSize - kBlobFooterSize)

end FileView

def BlobFileMeta.view (m : BlobFileMeta) : FileView := ⟨m.fileSize, m.discardableSize, m.isObsolete⟩

@[simp] theorem BlobFileMeta.view_needGC (m : BlobFileMeta) : (m.fileStateTransit .needGC).view = m.view := by
  obtain ⟨number, size, entries, type, level, smallest, largest, state, d⟩ := m
  cases state <;> rfl

namespace BlobStorage

variable {s : BlobStorage} {n : Nat}

def view (s : BlobStorage) (n : Nat) : Option FileView := (s.findFile n).map BlobFileMeta.view

theorem view_updateFile_addDiscardableSize (k d n : Nat) :
    (s.updateFile k (·.addDiscardableSize d)).view n = if n = k then (s.view n).map (·.add d) else s.view n := by
  rw [view, findFile_updateFile (f := (·.addDiscardableSize d)) fun _ => rfl, view]
  split
  · cases s.findFile n <;> rfl
  · rfl

theorem view_updateFile_needGC (k n : Nat) : (s.updateFile k (·.fileStateTransit .needGC)).view n = s.view n := by
  rw [view, findFile_updateFile (f := (·.fileStateTransit .needGC)) fun _ => rfl, view]
  split
  · cases s.findFile n with
    | none => rfl
    | some m => exact congrArg some m.view_needGC
  · rfl

/-- The view once the sizes `es` have been added. -/
def viewAfter (s : BlobStorage) (es : List (Nat × Nat)) (n : Nat) : Option FileView :=
  match findIn n es with
  | none => s.view n
  | some d => (s.view n).map (·.add d)

theorem view_foldl_addDiscardableSize {es : List (Nat × Nat)} (hnodup : (es.map fst).Nodup) (s : BlobStorage)
    (n : Nat) : (es.foldl (fun s d => s.updateFile d.1 (·.addDiscardableSize d.2)) s).view n = s.viewAfter es n := by
  rw [foldl_view (w := view) (g := fun d => Option.map (·.add d))
    (fun _ p => view_updateFile_addDiscardableSize p.1 p.2) hnodup, viewAfter]
  cases findIn n es <;> rfl

theorem view_markFilesObsolete {ps : List (Nat × SequenceNumber)}
    (h : (markFilesObsolete s ps).2 = .ok) (n : Nat) :
    (markFilesObsolete s ps).1.view n =
      if n ∈ ps.map fst then (s.view n).map fun v => { v with obsolete := true } else s.view n := by
  rw [view, findFile_markFilesObsolete h, view]
  split
  · cases s.findFile n <;> rfl
  · rfl

end BlobStorage

namespace RangeDeletion

variable {o : Options} {env : RangeDeletionEnv} {call : RangeDeletion}

/-! ### The loop over the charged files -/

/-- The file has no live data once `p` is charged. -/
def dead (o : Options) (s : BlobStorage) (p : Nat × Nat) : Bool :=
  o.levelMerge && (s.view p.1).any fun v => (v.add p.2).noLiveData

/-- The loop over `es`, from storage `s`. -/
structure Acc.Done (o : Options) (s : BlobStorage) (es : List (Nat × Nat)) (a : Acc) : Prop where
  view : ∀ n, a.storage.view n = s.viewAfter es n
  added : a.edit.addedFiles = []
  columnFamily : a.edit.columnFamilyId = 0
  deleted : a.edit.deletedFiles.map fst = (es.filter (dead o s)).map fst
  updated : a.edit.updatedDiscardableSize.Sublist (es.filter fun p => !dead o s p)
  updated_of_pos : ∀ p ∈ es, o.levelMerge = true → dead o s p = false → (s.view p.1).isSome → 0 < p.2 →
    p ∈ a.edit.updatedDiscardableSize

variable {es : List (Nat × Nat)} {k d : Nat} {s : BlobStorage} {a : Acc}

theorem findIn_append_singleton (hk : k ∉ es.map fst) (n : Nat) :
    findIn n (es ++ [(k, d)]) = if n = k then some d else findIn n es := by
  induction es with
  | nil => simp [findIn]
  | cons e es ih =>
    rw [map_cons, mem_cons, not_or] at hk
    simp only [cons_append, findIn, ih hk.2]
    by_cases hn : n = k
    · simp [hn, hk.1]
    · simp [hn]

/-- The three ways in which a turn for `(k, d)` may change the edit. -/
theorem Acc.Done.extend {a a' : Acc} (h : a.Done o s es)
    (hview : ∀ n, a'.storage.view n = s.viewAfter (es ++ [(k, d)]) n) (hedit : (dead o s (k, d) = true ∧
        ∃ q, a'.edit = { a.edit with deletedFiles := a.edit.deletedFiles ++ [(k, q)] }) ∨ (dead o s (k, d) = false ∧
        a'.edit = { a.edit with updatedDiscardableSize := a.edit.updatedDiscardableSize ++ [(k, d)] }) ∨
      (dead o s (k, d) = false ∧ a'.edit = a.edit ∧ (o.levelMerge = true → (s.view k).isSome → d = 0))) :
    a'.Done o s (es ++ [(k, d)]) := by
  rcases hedit with ⟨hdead, q, hedit⟩ | ⟨hdead, hedit⟩ | ⟨hdead, hedit, hzero⟩
  all_goals
    refine ⟨hview, by rw [hedit]; exact h.added, by rw [hedit]; exact h.columnFamily,
      by simp [hedit, filter_append, hdead, h.deleted], ?_, forall_mem_append.2 ⟨?_, forall_mem_singleton.2 ?_⟩⟩
    all_goals rw [hedit]
  · rw [filter_append]
    exact h.updated.trans (sublist_append_left ..)
  · exact h.updated_of_pos
  · rw [hdead]
    nofun
  · rw [filter_append]
    exact h.updated.append (by simp [hdead])
  · exact fun p hp hlm hp' hsome hpos => mem_append_left _ (h.updated_of_pos p hp hlm hp' hsome hpos)
  · exact fun _ _ _ _ => mem_append_right _ (mem_singleton_self _)
  · rw [filter_append]
    exact h.updated.trans (sublist_append_left ..)
  · exact h.updated_of_pos
  · exact fun hlm _ hsome hpos => absurd (hzero hlm hsome) hpos.ne'

theorem Acc.Done.file (h : a.Done o s es) (hk : k ∉ es.map fst) : (a.file o env (k, d)).Done o s (es ++ [(k, d)]) := by
  have hview : a.storage.view k = s.view k := by rw [h.view, viewAfter, findIn_eq_none hk]
  have hkeep : ∀ n, s.viewAfter (es ++ [(k, d)]) n =
      if n = k then (s.view n).map (·.add d) else a.storage.view n := by
    intro n
    rw [h.view, viewAfter, findIn_append_singleton hk, viewAfter]
    by_cases hn : n = k
    · simp [hn]
    · simp [hn]
  unfold Acc.file
  split
  next hnone =>
    have hno : s.view k = none := by rw [← hview, BlobStorage.view, hnone]; rfl
    refine h.extend (fun n => ?_) (.inr (.inr ⟨by simp [dead, hno], rfl, fun _ hsome => ?_⟩))
    · rw [hkeep]
      split
      next heq => rw [heq, hview, hno]; rfl
      · rfl
    · rw [hno] at hsome
      cases hsome
  next file hfile =>
    have hsome : s.view k = some file.view := by rw [← hview, BlobStorage.view, hfile]; rfl
    have hnum : file.fileNumber = k := fileNumber_of_findFile hfile
    have hdead : dead o s (k, d) = (o.levelMerge && (file.addDiscardableSize d).noLiveData) := by
      simp only [dead, hsome, any_some]
      rfl
    have hadded : ∀ n, (a.storage.updateFile k (·.addDiscardableSize d)).view n =
        s.viewAfter (es ++ [(k, d)]) n := by
      intro n
      rw [hkeep, view_updateFile_addDiscardableSize]
      by_cases hn : n = k
      · rw [if_pos hn, if_pos hn, hn, hview]
      · rw [if_neg hn, if_neg hn]
    dsimp only
    split
    next hlm =>
      rw [hlm] at hdead
      split
      next hno =>
        refine h.extend hadded (.inl ⟨hdead.trans hno, env.latestSequenceNumber, ?_⟩)
        rw [← hnum]
        rfl
      next hno =>
        rw [Bool.not_eq_true] at hno
        split
        · refine h.extend (fun n => ?_) (.inr (.inl ⟨hdead.trans hno, rfl⟩))
          exact (view_updateFile_needGC k n).trans (hadded n)
        · split
          · exact h.extend hadded (.inr (.inl ⟨hdead.trans hno, rfl⟩))
          next hpos => exact h.extend hadded (.inr (.inr ⟨hdead.trans hno, rfl, fun _ _ => Nat.eq_zero_of_not_pos hpos⟩))
    next hlm =>
      rw [Bool.not_eq_true] at hlm
      rw [hlm] at hdead
      exact h.extend hadded (.inr (.inr ⟨hdead, rfl, fun hlm' => by rw [hlm] at hlm'; cases hlm'⟩))

theorem Acc.done_foldl {es es' : List (Nat × Nat)} (h : a.Done o s es)
    (hnodup : ((es ++ es').map fst).Nodup) : (es'.foldl (Acc.file o env) a).Done o s (es ++ es') := by
  induction es' generalizing es a with
  | nil => simpa using h
  | cons p es' ih =>
    obtain ⟨k, d⟩ := p
    have hk : k ∉ es.map fst := by
      rw [map_append, nodup_append] at hnodup
      exact fun hm => hnodup.2.2 k hm k (by simp) rfl
    rw [append_cons] at hnodup ⊢
    exact ih (h.file hk) hnodup

theorem Acc.done_start (o : Options) (s : BlobStorage) : (⟨s, 0, .empty⟩ : Acc).Done o s [] where
  view _ := rfl
  added := rfl
  columnFamily := rfl
  deleted := rfl
  updated := .slnil
  updated_of_pos := nofun

/-- What the first charge makes of the file is charged once more when the edit is applied: the edit goes to column
family 0, is not rejected because it deletes an obsolete file, and has the file as one with live data. -/
def chargedAgain (o : Options) (env : RangeDeletionEnv) (call : RangeDeletion) (sizes : OrdMap Nat Nat)
    (s : BlobStorage) (n : Nat) : Bool :=
  o.levelMerge && call.cf == 0 && env.manifest.addRecord.isNone && env.manifest.sync.isNone &&
    (sizes.entries.all fun p => !dead o s p || (s.view p.1).any fun v => !v.obsolete) &&
    !dead o s (n, (sizes.find? n).getD 0)

theorem findIn_updated (h : a.Done o s es) (hnodup : (es.map fst).Nodup) {n d : Nat}
    (hfind : findIn n a.edit.updatedDiscardableSize = some d) : findIn n es = some d ∧ dead o s (n, d) = false := by
  have hsub : (a.edit.updatedDiscardableSize.map fst).Sublist (es.map fst) :=
    (h.updated.trans filter_sublist).map _
  have hmem := (mem_findIn (hnodup.sublist hsub)).2 hfind
  have hes := mem_filter.1 (h.updated.subset hmem)
  exact ⟨(mem_findIn hnodup).1 hes.1, by simpa using hes.2⟩

theorem view_apply {e : ColumnFamilyEdit} {sep : Bool} (ha : e.addedFiles = [])
    (hu : (e.updatedDiscardableSize.map fst).Nodup) (hd : ∀ p ∈ e.deletedFiles, (s.findFile p.1).isSome) (n : Nat) :
    ((e.collector.apply sep s).1.view n).map (fun v => (v.fileSize, v.discardableSize)) =
      (s.viewAfter e.updatedDiscardableSize n).map fun v => (v.fileSize, v.discardableSize) := by
  have hupd : e.updatedDiscardableSize.foldl updateFile [] = e.updatedDiscardableSize :=
    foldl_emplace (by simpa using hu)
  have hdel : (e.deletedFiles.filter fun p => !e.collector.adds p.1) = e.deletedFiles := by
    simp [VersionEdit.collector, adds, ha]
  have hok := markFilesObsolete_status hd
  have happly : (e.collector.apply sep s).1 = e.updatedDiscardableSize.foldl
      (fun s d => s.updateFile d.1 (·.addDiscardableSize d.2)) (markFilesObsolete s e.deletedFiles).1 := by
    unfold apply
    have hadd : e.collector.addedFiles = [] := ha
    have hcdel : e.collector.deletedFiles = e.deletedFiles := rfl
    have hcupd : e.collector.updatedDiscardableSize = e.updatedDiscardableSize := hupd
    simp only [hadd, hcdel, hcupd, filter_nil, foldl_nil, hdel]
    cases hm : markFilesObsolete s e.deletedFiles with
    | mk s' st =>
      rw [hm] at hok
      simp only at hok
      rw [hok]
  rw [happly, view_foldl_addDiscardableSize hu, viewAfter, viewAfter,
    view_markFilesObsolete hok]
  cases findIn n e.updatedDiscardableSize
  all_goals
    dsimp only
    split
    · cases s.view n <;> rfl
    · rfl

section charge

variable {sizes : OrdMap Nat Nat} {s : BlobStorage} {fs : BlobFileSets}

theorem done_charge (o : Options) (env : RangeDeletionEnv) (sizes : OrdMap Nat Nat) (s : BlobStorage) :
    (sizes.entries.foldl (Acc.file o env) ⟨s, 0, .empty⟩).Done o s sizes.entries :=
  Acc.done_foldl (Acc.done_start o s) sizes.nodup_keys

theorem accepted_iff {a : Acc} (h : a.Done o s sizes.entries) (hcf : call.cf = 0) :
    a.edit.Accepted (fs.setBlobStorage call.cf a.storage) ↔
      ∀ p ∈ sizes.entries, dead o s p = true → (s.view p.1).any (fun v => !v.obsolete) = true := by
  have hget : (fs.setBlobStorage call.cf a.storage).getBlobStorage a.edit.columnFamilyId = some a.storage := by
    rw [h.columnFamily, hcf, getBlobStorage, setBlobStorage, find?_alter_self]
  -- a file of the edit is seen as it was, apart from the charge
  have hview : ∀ p ∈ sizes.entries, a.storage.view p.1 = (s.view p.1).map (·.add p.2) := by
    intro p hp
    rw [h.view, viewAfter, (mem_findIn sizes.nodup_keys).1 hp]
  have hlive : ∀ p ∈ sizes.entries, (∃ m, a.storage.findFile p.1 = some m ∧ m.isObsolete = false) ↔
      (s.view p.1).any (fun v => !v.obsolete) = true := by
    intro p hp
    have hany : (s.view p.1).any (fun v => !v.obsolete) = (a.storage.view p.1).any fun v => !v.obsolete := by
      rw [hview p hp, Option.any_map]
      rfl
    rw [hany, view]
    cases a.storage.findFile p.1 <;> simp [BlobFileMeta.view]
  have hdead : ∀ k, k ∈ a.edit.deletedFiles.map fst ↔ ∃ p ∈ sizes.entries, dead o s p = true ∧ p.1 = k := by
    intro k
    rw [h.deleted]
    simp only [List.mem_map, List.mem_filter, and_assoc]
  constructor
  · intro hacc p hp hp'
    obtain ⟨q, hq, hqp⟩ := mem_map.1 ((hdead p.1).2 ⟨p, hp, hp', rfl⟩)
    rcases (hacc.sealed _ hget).2 q hq with hadd | hfind
    · simp [h.added] at hadd
    · rw [hqp] at hfind
      exact (hlive p hp).1 hfind
  · intro hall
    refine ⟨by simp [h.added], ?_, fun s' hs' => ⟨by simp [h.added], fun q hq => .inr ?_⟩⟩
    · rw [h.deleted]
      exact sizes.nodup_keys.sublist (filter_sublist.map _)
    · rw [hget] at hs'
      cases hs'
      obtain ⟨p, hp, hp', hpq⟩ := (hdead q.1).1 (mem_map_of_mem hq)
      rw [← hpq]
      exact (hlive p hp).2 (hall p hp hp')

theorem chargedAgain_eq_true {n : Nat} :
    chargedAgain o env call sizes s n = true ↔
      o.levelMerge = true ∧ call.cf = 0 ∧ env.manifest.addRecord = none ∧ env.manifest.sync = none ∧
        (∀ p ∈ sizes.entries, dead o s p = true → (s.view p.1).any (fun v => !v.obsolete) = true) ∧
        dead o s (n, (sizes.find? n).getD 0) = false := by
  have hall : (sizes.entries.all fun p => !dead o s p || (s.view p.1).any fun v => !v.obsolete) = true ↔
      ∀ p ∈ sizes.entries, dead o s p = true → (s.view p.1).any (fun v => !v.obsolete) = true := by
    rw [List.all_eq_true]
    refine forall₂_congr fun p _ => ?_
    cases dead o s p <;> simp
  unfold chargedAgain
  rw [Bool.and_eq_true, Bool.and_eq_true, hall]
  simp only [Bool.and_eq_true, beq_iff_eq, isNone_iff_eq_none, Bool.not_eq_true', and_assoc]

/-- File `n` of `s'` has the size it has in `s`, and has been charged its entry once or twice. -/
def Charged (o : Options) (env : RangeDeletionEnv) (call : RangeDeletion) (sizes : OrdMap Nat Nat) (s s' : BlobStorage)
    (n : Nat) : Prop :=
  (s'.view n).map (fun v => (v.fileSize, v.discardableSize % 2 ^ 64)) =
    (s.view n).map fun v => (v.fileSize, (v.discardableSize + (sizes.find? n).getD 0 +
      if chargedAgain o env call sizes s n then (sizes.find? n).getD 0 else 0) % 2 ^ 64)

theorem Acc.Done.charged_twice {a : Acc} (h : a.Done o s sizes.entries) (hlm : o.levelMerge = true) (hcf : call.cf = 0)
    (hadd : env.manifest.addRecord = none) (hsync : env.manifest.sync = none)
    (hall : ∀ p ∈ sizes.entries, dead o s p = true → (s.view p.1).any (fun v => !v.obsolete) = true) (n : Nat) :
    Charged o env call sizes s (a.edit.collector.apply o.sepBeforeFlush a.storage).1 n := by
  have hagain : chargedAgain o env call sizes s n = !dead o s (n, (sizes.find? n).getD 0) := by
    rw [Bool.eq_iff_iff, chargedAgain_eq_true, Bool.not_eq_true']
    exact ⟨fun h => h.2.2.2.2.2, fun hdead => ⟨hlm, hcf, hadd, hsync, hall, hdead⟩⟩
  have hfound : ∀ p ∈ a.edit.deletedFiles, (a.storage.findFile p.1).isSome := by
    intro p hp
    have hmem : p.1 ∈ (sizes.entries.filter (dead o s)).map fst := h.deleted ▸ mem_map_of_mem hp
    obtain ⟨q, hq, hqp⟩ := mem_map.1 hmem
    obtain ⟨hq, hdead⟩ := mem_filter.1 hq
    have hview : (a.storage.view p.1).isSome := by
      rw [← hqp, h.view, viewAfter, (mem_findIn sizes.nodup_keys).1 hq]
      cases hv : s.view q.1 with
      | none => rw [dead, hv] at hdead; simp at hdead
      | some v => rfl
    rwa [BlobStorage.view, Option.isSome_map] at hview
  have hnodup : (a.edit.updatedDiscardableSize.map fst).Nodup :=
    sizes.nodup_keys.sublist ((h.updated.trans filter_sublist).map _)
  have hview : ((a.edit.collector.apply o.sepBeforeFlush a.storage).1.view n).map
      (fun v => (v.fileSize, v.discardableSize)) = _ := view_apply h.added hnodup hfound n
  have hmod := congrArg (Option.map fun q : Nat × Nat => (q.1, q.2 % 2 ^ 64)) hview
  simp only [Option.map_map, Function.comp_def] at hmod
  rw [Charged, hmod, hagain, viewAfter, h.view, viewAfter]
  show _ = (s.view n).map fun v => (v.fileSize, (v.discardableSize + (findIn n sizes.entries).getD 0 +
    if !dead o s (n, (findIn n sizes.entries).getD 0) then (findIn n sizes.entries).getD 0 else 0) %
      2 ^ 64)
  cases hn : findIn n sizes.entries with
  | none =>
    have hnone : findIn n a.edit.updatedDiscardableSize = none := by
      refine eq_none_iff_forall_ne_some.2 fun d hd => ?_
      rw [(findIn_updated h sizes.nodup_keys hd).1] at hn
      cases hn
    rw [hnone]
    simp
  | some d =>
    cases hv : s.view n with
    | none => cases findIn n a.edit.updatedDiscardableSize <;> rfl
    | some v =>
      cases hu : findIn n a.edit.updatedDiscardableSize with
      | some d' =>
        obtain ⟨hd', hdead⟩ := findIn_updated h sizes.nodup_keys hu
        rw [hn] at hd'
        cases hd'
        simp [FileView.add, hdead]
      | none =>
        cases hdead : dead o s (n, d) with
        | true => simp [FileView.add, hdead]
        | false =>
          -- a file with live data is left out of the edit only when nothing is charged to it
          have hzero : d = 0 := by
            by_contra hpos
            have hmem := h.updated_of_pos (n, d) ((mem_findIn sizes.nodup_keys).2 hn) hlm hdead
              (by rw [hv]; rfl) (Nat.pos_of_ne_zero hpos)
            rw [(mem_findIn hnodup).1 hmem] at hu
            cases hu
          simp [FileView.add, hzero]

theorem discardableSize_charge (o : Options) (env : RangeDeletionEnv) (call : RangeDeletion) (sizes : OrdMap Nat Nat)
    (s : BlobStorage) (fs : BlobFileSets) :
    ∃ s', (call.charge o env sizes s fs).getBlobStorage call.cf = some s' ∧ ∀ n, Charged o env call sizes s s' n := by
  have hdone := done_charge o env sizes s
  -- the storage of the loop, when no edit is applied to it
  have honce : ∀ n, chargedAgain o env call sizes s n = false →
      Charged o env call sizes s (sizes.entries.foldl (Acc.file o env) ⟨s, 0, .empty⟩).storage n := by
    intro n hn
    have hfind : sizes.find? n = findIn n sizes.entries := rfl
    rw [Charged, hdone.view, viewAfter, hn, hfind]
    cases findIn n sizes.entries with
    | none => cases s.view n <;> simp
    | some d => cases s.view n <;> simp [FileView.add]
  have hset : ∀ t, (fs.setBlobStorage call.cf t).getBlobStorage call.cf = some t := fun t =>
    find?_alter_self ..
  unfold charge
  generalize sizes.entries.foldl (Acc.file o env) ⟨s, 0, .empty⟩ = a at hdone honce ⊢
  by_cases hlm : o.levelMerge = true
  · rw [if_pos hlm]
    by_cases happlied : a.edit.Accepted (fs.setBlobStorage call.cf a.storage) ∧ env.manifest.addRecord = none ∧
        env.manifest.sync = none ∧ call.cf = 0
    · obtain ⟨hacc, hadd, hsync, hcf⟩ := happlied
      have hget : ((fs.setBlobStorage call.cf a.storage).logAndApply o.sepBeforeFlush env.manifest
          a.edit).1.getBlobStorage call.cf = some (a.edit.collector.apply o.sepBeforeFlush a.storage).1 := by
        rw [(logAndApply_of_accepted hacc hadd hsync).2, hdone.columnFamily, if_pos hcf, hset]
        rfl
      refine ⟨_, hget, fun n => ?_⟩
      have hall := (accepted_iff hdone hcf).1 hacc
      exact hdone.charged_twice hlm hcf hadd hsync hall n
    · have hsame : ((fs.setBlobStorage call.cf a.storage).logAndApply o.sepBeforeFlush env.manifest
          a.edit).1.getBlobStorage call.cf = some a.storage := by
        rw [← hset a.storage]
        rcases getBlobStorage_logAndApply call.cf with hsame | ⟨⟨hacc, hadd, hsync⟩, hcf, -⟩
        · exact hsame
        · rw [hdone.columnFamily] at hcf
          exact absurd ⟨hacc, hadd, hsync, hcf⟩ happlied
      refine ⟨_, hsame, fun n => honce n ?_⟩
      rw [← Bool.not_eq_true, chargedAgain_eq_true]
      rintro ⟨-, hcf, hadd, hsync, hall, -⟩
      exact happlied ⟨(accepted_iff hdone hcf).2 hall, hadd, hsync, hcf⟩
  · rw [if_neg hlm]
    refine ⟨_, hset _, fun n => honce n ?_⟩
    rw [← Bool.not_eq_true, chargedAgain_eq_true]
    exact fun h => hlm h.1

end charge

/-! ### The SSTs that are charged and the SSTs that are removed -/

/-- The references of the SSTs. -/
def refsOf (ssts : List SstFile) : Multiset BlobIndex := (ssts.map fun f => (f.refs : Multiset BlobIndex)).sum

@[simp] theorem refsOf_cons (f : SstFile) (ssts : List SstFile) : refsOf (f :: ssts) = f.refs + refsOf ssts := by
  simp [refsOf]

theorem find?_foldl_alter (hnodup : (es.map fst).Nodup) (m : OrdMap Nat Nat) (n : Nat) :
    (es.foldl (fun m p => m.alter p.1 fun size => u64 (size.getD 0 + p.2)) m).find? n =
      (findIn n es).elim (m.find? n) fun size => some (u64 ((m.find? n).getD 0 + size)) :=
  foldl_view (w := OrdMap.find?) (g := fun (size : Nat) v => some (u64 (v.getD 0 + size)))
    (fun _ p k => by by_cases h : k = p.1 <;> simp [find?_alter, h]) hnodup m n

theorem find?_addSst {f : SstFile} (hc : Collectable f.refs) (m : OrdMap Nat Nat) (n : Nat) :
    ((addSst m f).find? n).getD 0 % 2 ^ 64 = ((m.find? n).getD 0 + bytesOf n (f.refs : Multiset BlobIndex)) % 2 ^ 64 := by
  unfold addSst propertyOf
  by_cases hnil : (BlobFileSizeCollector.collect f.refs).entries = []
  · rw [if_pos hnil, entries_collect_eq_nil.1 hnil]
    simp
  · rw [if_neg hnil]
    simp only [decode_propertyOf hc]
    rw [find?_foldl_alter (nodup_keys _), ← OrdMap.find?, BlobFileSizeCollector.find?_collect]
    by_cases hnone : ∀ i ∈ f.refs, i.fileNumber ≠ n
    · rw [if_pos hnone, bytesOf_eq_zero_of_not_names fun h => names_coe.1 h hnone]
      simp
    · rw [if_neg hnone]
      simp only [Option.elim, getD_some, u64]
      omega

theorem find?_discardableSizes {ssts : List SstFile} (hc : ∀ f ∈ ssts, Collectable f.refs) (n : Nat) :
    ((discardableSizes ssts).find? n).getD 0 % 2 ^ 64 = bytesOf n (refsOf ssts) % 2 ^ 64 := by
  have hgen : ∀ m : OrdMap Nat Nat, ((ssts.foldl addSst m).find? n).getD 0 % 2 ^ 64 =
      ((m.find? n).getD 0 + bytesOf n (refsOf ssts)) % 2 ^ 64 := by
    induction ssts with
    | nil => intro m; simp [refsOf]
    | cons f ssts ih =>
      intro m
      have hhead := find?_addSst (hc f (mem_cons_self ..)) m n
      rw [foldl_cons, ih fun f' hf' => hc f' (mem_cons_of_mem _ hf'), refsOf_cons, bytesOf_add]
      omega
  rw [discardableSizes, hgen]
  simp

theorem collect_eq_ok {props : List SstFile} (h : call.collect o env = .ok props) :
    props = (call.inputs o env env.version.numNonEmptyLevels fun i _ => i).foldl (emplace SstFile.number) [] := by
  have hgen : ∀ (xs acc : List SstFile), xs.foldlM (collectFile env) acc = .ok props →
      props = xs.foldl (emplace SstFile.number) acc := by
    intro xs
    induction xs with
    | nil => intro acc h; cases h; rfl
    | cons f xs ih =>
      intro acc h
      rw [foldlM_cons] at h
      rw [foldl_cons, emplace]
      unfold collectFile at h
      by_cases hmem : f.number ∈ acc.map SstFile.number
      · rw [if_pos hmem] at h ⊢
        exact ih acc h
      · rw [if_neg hmem] at h ⊢
        cases hp : env.properties f with
        | none => rw [hp] at h; exact ih _ h
        | some st => rw [hp] at h; cases h
  exact hgen _ _ h

section selection

variable {numLevels : Nat} {tested : Nat → Nat → Nat} {f : SstFile}

theorem mem_within {tested level : Nat} {r : KeyRange} (h : f ∈ call.within o env tested level r) :
    f ∈ env.version.cleanInputs level r ∧ f ∈ call.within o env level level r := by
  unfold within at h
  split at h
  · cases h
  · have hmem := (mem_filter.1 h).1
    refine ⟨hmem, ?_⟩
    unfold within
    rw [if_neg, mem_filter]
    · exact mem_filter.1 h
    · have hover := env.version.clean_overlap level r (ne_nil_of_mem hmem)
      have hfiles := (env.version.clean_mem level r f hmem).2.2
      simp only [hover, Bool.not_true, Bool.or_false, List.isEmpty_iff]
      exact List.ne_nil_of_mem hfiles

theorem mem_inputs : f ∈ call.inputs o env numLevels tested ↔ ∃ p ∈ call.ranges.zipIdx, ∃ level,
    (1 ≤ level ∧ level < 1 + (numLevels - 1)) ∧ f ∈ call.within o env (tested p.2 level) level p.1 := by
  simp only [inputs, mem_flatMap, mem_range'_1]

theorem mem_inputs_of_mem (h : f ∈ call.inputs o env env.version.numNonEmptyLevels tested) :
    f ∈ call.inputs o env env.version.numberLevels fun _ level => level := by
  obtain ⟨p, hp, level, hlevel, hf⟩ := mem_inputs.1 h
  have hle := env.version.nonEmpty_le
  refine mem_inputs.2 ⟨p, hp, level, ⟨hlevel.1, by omega⟩, (mem_within hf).2⟩

theorem exists_level (h : f ∈ call.inputs o env numLevels tested) :
    ∃ level < env.version.numNonEmptyLevels, f ∈ env.version.levelFiles level := by
  obtain ⟨p, -, level, -, hf⟩ := mem_inputs.1 h
  obtain ⟨-, hlt, hmem⟩ := env.version.clean_mem level p.1 f (mem_within hf).1
  exact ⟨level, hlt, hmem⟩

theorem number_inj_inputs : ∀ a ∈ ([] : List SstFile) ++ call.inputs o env numLevels tested,
    ∀ b ∈ [] ++ call.inputs o env numLevels tested, a.number = b.number → a = b := by
  intro a ha b hb heq
  obtain ⟨level, hlt, hmem⟩ := exists_level ha
  obtain ⟨level', hlt', hmem'⟩ := exists_level hb
  exact env.version.number_inj level hlt level' hlt' a hmem b hmem' heq

end selection

/-- Every range with an SST to be removed passes the test of the engine, which asks about level `i` for range `i`. -/
def Tested (env : RangeDeletionEnv) (call : RangeDeletion) : Prop :=
  ∀ p ∈ call.ranges.zipIdx, ∀ level, env.version.cleanInputs level p.1 ≠ [] →
    env.version.levelFiles p.2 ≠ [] ∧ env.version.overlapInLevel p.2 p.1 = true

theorem Tested.mem_inputs_iff (h : Tested env call) {f : SstFile} :
    f ∈ call.inputs o env env.version.numNonEmptyLevels (fun i _ => i) ↔
      f ∈ call.inputs o env env.version.numberLevels fun _ level => level := by
  refine ⟨mem_inputs_of_mem, fun hf => ?_⟩
  obtain ⟨p, hp, level, hlevel, hf⟩ := mem_inputs.1 hf
  have hclean := (mem_within hf).1
  obtain ⟨-, hlt, -⟩ := env.version.clean_mem level p.1 f hclean
  obtain ⟨hfiles, hover⟩ := h p hp level (ne_nil_of_mem hclean)
  refine mem_inputs.2 ⟨p, hp, level, ⟨hlevel.1, by omega⟩, ?_⟩
  unfold within at hf ⊢
  rw [if_neg (by simp [hfiles, hover])]
  split at hf
  · cases hf
  · exact hf

theorem Tested.perm_collect (h : Tested env call) {props : List SstFile} (hprops : call.collect o env = .ok props) :
    (call.baseRemoves o env).Perm props := by
  have hnodup (ssts : List SstFile) : (ssts.foldl (emplace SstFile.number) []).Nodup :=
    .of_map SstFile.number (nodup_foldl_emplace nodup_nil)
  rw [collect_eq_ok hprops, baseRemoves, perm_ext_iff_of_nodup (hnodup _) (hnodup _)]
  intro f
  rw [mem_foldl_emplace number_inj_inputs, mem_foldl_emplace number_inj_inputs, h.mem_inputs_iff]

/-! ### The whole call -/

/-- What the call has to find. -/
structure Plain (o : Options) (env : RangeDeletionEnv) (call : RangeDeletion) (s : BlobStorage) : Prop where
  /-- The walks over `blob_ranges_` end. -/
  ordered : ∀ r ∈ call.ranges, r.Ordered o
  tested : Tested env call
  /-- No blob file lies in two of the ranges, and the edit for those that lie in one is written. -/
  apart : call.ranges.Pairwise fun r r' => ∀ m ∈ s.files, m.isObsolete = false →
    ¬ (m.Inside o call.includeEnd r ∧ m.Inside o call.includeEnd r')
  addRecord : env.rangeManifest.addRecord = none
  sync : env.rangeManifest.sync = none
  /-- The edit for the charged files goes to another column family or is not made, or every file that a removed SST
  refers to has no other live data. -/
  once : o.levelMerge = false ∨ call.cf ≠ 0 ∨ ∀ n m, s.findFile n = some m →
    Names (refsOf (call.baseRemoves o env)) n →
    (m.discardableSize + bytesOf n (refsOf (call.baseRemoves o env))) % 2 ^ 64 =
      u64 (m.fileSize - kBlobHeaderSize - kBlobFooterSize)

variable {fs : BlobFileSets} {s : BlobStorage} {n : Nat}

/-- The size of the file and its counter. -/
def counter (s : BlobStorage) (n : Nat) : Option (Nat × Nat) :=
  (s.findFile n).map fun m => (m.fileSize, m.discardableSize)

theorem counter_eq_view (s : BlobStorage) (n : Nat) :
    counter s n = (s.view n).map fun v => (v.fileSize, v.discardableSize) := by
  rw [BlobStorage.view, Option.map_map]
  rfl

theorem counter_deleteBlobFilesInRanges (hs : fs.getBlobStorage call.cf = some s) :
    ∃ s', (call.deleteBlobFilesInRanges o env fs).1.getBlobStorage call.cf = some s' ∧
      ∀ n, counter s' n = counter s n := by
  have haccount : ∀ n, (call.deleteBlobFilesInRanges o env fs).1.account call.cf n = s.account n := by
    intro n
    unfold deleteBlobFilesInRanges
    rw [hs]
    rw [BlobFileSets.account_logAndApply rfl rfl, BlobFileSets.account, hs]
    rfl
  have hsome : ((call.deleteBlobFilesInRanges o env fs).1.getBlobStorage call.cf).isSome := by
    unfold deleteBlobFilesInRanges
    rw [hs]
    rcases BlobFileSets.getBlobStorage_logAndApply call.cf with hsame | ⟨-, -, happly⟩
    · rw [hsame, hs]; rfl
    · rw [happly, hs]; rfl
  obtain ⟨s', hs'⟩ := Option.isSome_iff_exists.1 hsome
  refine ⟨s', hs', fun n => ?_⟩
  have hn := haccount n
  rw [BlobFileSets.account, hs', Option.bind_some, BlobStorage.account, BlobStorage.account] at hn
  have hmap := congrArg (Option.map fun p : BlobFileMeta × Nat => (p.1.fileSize, p.2)) hn
  rw [Option.map_map, Option.map_map] at hmap
  exact hmap

theorem perm_getBlobFilesInRanges (o : Options) (call : RangeDeletion) (s : BlobStorage) :
    (call.getBlobFilesInRanges o s).Perm (call.ranges.flatMap (s.filesInside o call.includeEnd)) :=
  .flatMap_left _ fun _ _ => ((mergeSort_perm ..).filter _).map _

theorem Plain.status_deleteBlobFilesInRanges (h : Plain o env call s) (hs : fs.getBlobStorage call.cf = some s)
    (hfiles : (s.files.map BlobFileMeta.fileNumber).Nodup) : (call.deleteBlobFilesInRanges o env fs).2 = .ok := by
  have hperm := perm_getBlobFilesInRanges o call s
  have hacc : (dropEdit call.cf (call.getBlobFilesInRanges o s)).Accepted fs :=
    (accepted_dropEdit hfiles hs hperm).2 (hperm.nodup_iff.2 ((nodup_filesInside hfiles).2 h.apart))
  unfold deleteBlobFilesInRanges
  rw [hs]
  exact status_logAndApply_of_accepted hacc h.addRecord h.sync

/-- A second charge, if there is one, is of nothing. -/
theorem Plain.charged_once (h : Plain o env call s) {s₁ : BlobStorage} (hcount : ∀ n, counter s₁ n = counter s n)
    {sizes : OrdMap Nat Nat}
    (hsize : (sizes.find? n).getD 0 % 2 ^ 64 = bytesOf n (refsOf (call.baseRemoves o env)) % 2 ^ 64) {m : BlobFileMeta}
    (hm : s.findFile n = some m) (hagain : chargedAgain o env call sizes s₁ n = true) :
    (sizes.find? n).getD 0 % 2 ^ 64 = 0 := by
  obtain ⟨hlm, hcf, -, -, -, hdead⟩ := chargedAgain_eq_true.1 hagain
  obtain hoff | hother | hlast := h.once
  · rw [hoff] at hlm
    cases hlm
  · exact absurd hcf hother
  by_cases hnames : Names (refsOf (call.baseRemoves o env)) n
  · have hfull := hlast n m hm hnames
    have hv := hcount n
    rw [counter_eq_view, counter, hm] at hv
    obtain ⟨v, hview, hv⟩ := map_eq_some_iff.1 hv
    simp only [Prod.mk.injEq] at hv
    -- the first charge takes the last live data, so the edit has the file among the deleted ones
    simp only [dead, hlm, hview, Option.any_some, Bool.true_and, FileView.noLiveData, FileView.add, hv.1, hv.2,
      decide_eq_false_iff_not] at hdead
    exact absurd (by rw [← hfull, Nat.add_mod, hsize, ← Nat.add_mod]) hdead
  · rw [hsize, bytesOf_eq_zero_of_not_names hnames, Nat.zero_mod]

theorem counter_deleteFilesInRanges (h : Plain o env call s) (hs : fs.getBlobStorage call.cf = some s)
    (hfiles : (s.files.map BlobFileMeta.fileNumber).Nodup) :
    ∃ s', (call.deleteFilesInRanges o env fs).1.getBlobStorage call.cf = some s' ∧ ∀ n,
      (counter s' n).map (fun p => (p.1, p.2 % 2 ^ 64)) = (counter s n).map fun p =>
        (p.1, (p.2 + bytesOf n (refsOf (call.deleteFilesInRanges o env fs).2.1)) % 2 ^ 64) := by
  have hst := h.status_deleteBlobFilesInRanges hs hfiles
  obtain ⟨s₁, hs₁, hcount⟩ : ∃ s₁, (call.deleteBlobFilesInRanges o env fs).1.getBlobStorage call.cf = some s₁ ∧ _ :=
    counter_deleteBlobFilesInRanges hs
  unfold deleteFilesInRanges
  cases hc : call.collect o env with
  | error st => exact ⟨s, hs, fun n => by simp [refsOf]⟩
  | ok props =>
    dsimp only
    by_cases hbase : env.baseStatus = .ok
    · rw [if_pos hbase]
      have hcoll : ∀ f ∈ props, Collectable f.refs := by
        intro f hf
        rw [collect_eq_ok hc, mem_foldl_emplace number_inj_inputs] at hf
        obtain ⟨level, hlt, hmem⟩ := exists_level (hf.resolve_left not_mem_nil)
        exact env.version.collectable level hlt f hmem
      cases hd : call.deleteBlobFilesInRanges o env fs with
      | mk fs₁ st =>
        rw [hd] at hst hs₁
        subst hst
        dsimp only
        rw [hs₁]
        obtain ⟨s', hs', hview⟩ := discardableSize_charge o env call (discardableSizes props) s₁ fs₁
        refine ⟨s', hs', fun n => ?_⟩
        have hsize := find?_discardableSizes hcoll n
        have hrefs : refsOf _ = refsOf _ := ((h.tested.perm_collect hc).map _).sum_eq
        rw [← hrefs] at hsize
        rw [counter_eq_view, Option.map_map, ← hcount n, counter_eq_view, Option.map_map]
        refine (hview n).trans ?_
        cases hv : s₁.view n with
        | none => rfl
        | some v =>
          have hfound : counter s n = some (v.fileSize, v.discardableSize) := by
            rw [← hcount n, counter_eq_view, hv]
            rfl
          obtain ⟨m, hm, -⟩ := map_eq_some_iff.1 hfound
          simp only [map_some, Function.comp_apply, Option.some.injEq, Prod.mk.injEq, true_and]
          split
          next hagain =>
            have hzero := h.charged_once hcount hsize hm hagain
            omega
          · omega
    · rw [if_neg hbase]
      exact ⟨s, hs, fun n => by simp [refsOf]⟩

/-- A version with SSTs in level 0 and one in level 1, both within every range. -/
def twoLevels (l0 : List SstFile) (l1 : SstFile) (hl0 : ∀ f ∈ l0, ∀ f' ∈ l0, f.number = f'.number → f = f')
    (hl1 : ∀ f ∈ l0, f.number ≠ l1.number) (hc : ∀ f ∈ l1 :: l0, Collectable f.refs) : LsmVersion where
  numberLevels := 7
  numNonEmptyLevels := 2
  levelFiles level := if level = 0 then l0 else if level = 1 then [l1] else []
  overlapInLevel level _ := level = 1 || (level = 0 && !l0.isEmpty)
  cleanInputs level _ := if level = 1 then [l1] else []
  nonEmpty_le := by decide
  clean_mem := by
    intro level r f hf
    by_cases h : level = 1
    · subst h
      simpa using hf
    · simp [h] at hf
  clean_overlap := by
    intro level r hne
    by_cases h : level = 1
    · simp [h]
    · simp [h] at hne
  number_inj := by
    intro level hlevel level' hlevel' f hf f' hf' heq
    have hcases : ∀ k < 2, ∀ g ∈ (if k = 0 then l0 else if k = 1 then [l1] else []), g ∈ l0 ∨ g = l1 := by
      intro k hk g hg
      obtain rfl | rfl : k = 0 ∨ k = 1 := by omega
      · exact .inl hg
      · exact .inr (by simpa using hg)
    rcases hcases level hlevel f hf with h | rfl <;> rcases hcases level' hlevel' f' hf' with h' | rfl
    · exact hl0 f h f' h' heq
    · exact absurd heq (hl1 f h)
    · exact absurd heq.symm (hl1 f' h')
    · rfl
  collectable := by
    intro level hlevel f hf
    refine hc f ?_
    obtain rfl | rfl : level = 0 ∨ level = 1 := by omega
    · exact mem_cons_of_mem _ hf
    · exact List.mem_cons.2 (.inl (by simpa using hf))

/-- Two SSTs that refer to one record of 15 bytes each in blob file 1. -/
def upperSst : SstFile := ⟨2, [2], [⟨1, 23, 15⟩]⟩
def lowerSst : SstFile := ⟨3, [1], [⟨1, 8, 15⟩]⟩

def sampleEnv (l0 : List SstFile) (hl0 : ∀ f ∈ l0, ∀ f' ∈ l0, f.number = f'.number → f = f')
    (hl1 : ∀ f ∈ l0, f.number ≠ lowerSst.number) (hc : ∀ f ∈ lowerSst :: l0, Collectable f.refs) : RangeDeletionEnv where
  version := twoLevels l0 lowerSst hl0 hl1 hc
  properties := fun _ => none
  baseStatus := .ok
  latestSequenceNumber := 9
  needGC := fun _ => false
  rangeManifest := {}
  manifest := {}

def filledEnv : RangeDeletionEnv := sampleEnv [upperSst] (by decide) (by decide) (by decide)

def sampleFile : BlobFileMeta := ⟨1, 70, 2, .sorted, 0, [1], [5], .normal, 0⟩

def sampleFileSets : BlobFileSets := ⟨OrdMap.empty.alter 0 fun _ => ⟨[sampleFile], [], []⟩, [], 2⟩

/-- The range has the SST of level 1 in it; the blob file reaches beyond the range. -/
def sampleCall : RangeDeletion := ⟨0, [⟨some [1], some [2]⟩], true⟩

/-- Without an SST in level 0 nothing is charged, whatever the range has in level 1. -/
example :
    let result := sampleCall.deleteFilesInRanges (.small false false)
      (sampleEnv [] (by decide) (by decide) (by decide)) sampleFileSets
    result.2.1 = [lowerSst] ∧ ((result.1.getBlobStorage 0).bind (·.findFile 1)).map (·.discardableSize) = some 0 := by
  decide +kernel

end RangeDeletion

end ValueSep.DiffKV
