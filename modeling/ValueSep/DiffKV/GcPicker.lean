import ValueSep.DiffKV.StorageIndex
import Mathlib.Algebra.Order.BigOperators.Group.List

/-!
# Picking the files of a GC job

`BasicBlobGCPicker::PickBlobGC` walks `gc_score_`, takes files until their sizes reach `max_gc_batch_size`, and then
only looks how much is left. A score whose file is gone is dereferenced. `Picked` is what holds of the files taken so
far: one turn of the loop keeps it (`Picked.take`), so the loop does (`picked_pickLoop`).
-/

namespace ValueSep.DiffKV

open List BlobStorage BlobFileMeta

variable {ρ : Type}

/-- The options of the picker. -/
structure PickOptions where
  levelMerge : Bool
  minGcBatchSize : Nat
  maxGcBatchSize : Nat
  mergeSmallFileThreshold : Nat

/-- How a pick ends that does not return. -/
inductive PickFault
  /-- The file of a score is not in `files_`. -/
  | missingFile
  /-- `(1 << 30) / blob_file_target_size`. -/
  | divisionByZero
deriving DecidableEq, Repr

/-- The variables of the loop. -/
structure Picking where
  blobFiles : List BlobFileMeta
  batchSize : Nat
  stopPicking : Bool
  maybeContinueNextTime : Bool

/-- `BlobGC`, as it is constructed. -/
structure PickedGC where
  inputs : List Nat
  triggerNext : Bool
deriving DecidableEq, Repr

namespace IndexedStorage

variable {o : IndexOptions ρ}

/-- `CheckBlobFile`, on a file that is there, and the exclusion of sorted files. -/
def checkBlobFile (po : PickOptions) (m : BlobFileMeta) : Bool :=
  m.state = .normal && !(po.levelMerge && m.fileType = .sorted)

/-- The loop over `gc_score_`; the number of scores behind this one is `gc_score().size() - cnt`. -/
def pickLoop (po : PickOptions) (s : IndexedStorage o) : List (Nat × ρ) → Picking → Except PickFault Picking
  | [], p => .ok p
  | score :: rest, p =>
    match s.findFile score.1 with
    | none => .error .missingFile
    | some m =>
      if !checkBlobFile po m then pickLoop po s rest p
      else if !p.stopPicking then
        let batchSize := (p.batchSize + m.fileSize) % 2 ^ 64
        pickLoop po s rest { p with
          blobFiles := p.blobFiles ++ [m], batchSize, stopPicking := po.maxGcBatchSize ≤ batchSize }
      else if o.blobFileTargetSize = 0 then .error .divisionByZero
      else if 2 ^ 30 / o.blobFileTargetSize < rest.length then .ok { p with maybeContinueNextTime := true }
      else pickLoop po s rest p

/-- `BlobGC::MarkFilesBeingGC`. -/
def markFilesBeingGC (s : IndexedStorage o) (inputs : List Nat) : IndexedStorage o :=
  { s with toBlobStorage := s.toBlobStorage.transitFiles .gcBegin inputs }

/-- `PickBlobGC`; `gcMark` are the files with `gc_mark_`. -/
def pickBlobGC (po : PickOptions) (gcMark : Nat → Bool) (s : IndexedStorage o) :
    Except PickFault (IndexedStorage o × Option PickedGC) :=
  match pickLoop po s s.gcScore ⟨[], 0, false, false⟩ with
  | .error e => .error e
  | .ok p =>
    if p.blobFiles = [] ∨ p.batchSize < po.minGcBatchSize then .ok (s, none)
    else if p.blobFiles.length = 1 ∧
        ∀ m ∈ p.blobFiles, m.fileSize ≤ po.mergeSmallFileThreshold ∧ gcMark m.fileNumber = false then .ok (s, none)
    else
      let inputs := p.blobFiles.map fileNumber
      .ok (s.markFilesBeingGC inputs, some ⟨inputs, p.maybeContinueNextTime⟩)

/-- The representation invariant, with every file scored once at most. -/
structure Scored (s : IndexedStorage o) : Prop extends s.Consistent where
  distinct : (s.gcScore.map Prod.fst).Nodup

/-- The bytes of the files with these numbers. -/
def totalSize (s : IndexedStorage o) (ns : List Nat) : Nat :=
  (ns.map fun n => ((s.findFile n).map fileSize).getD 0).sum

/-- What a pick promises about its job. -/
structure Picks (po : PickOptions) (s s' : IndexedStorage o) (job : PickedGC) : Prop where
  nodup : job.inputs.Nodup
  files : ∀ n ∈ job.inputs, ∃ m, s.findFile n = some m ∧ m.state = .normal ∧
    ¬(po.levelMerge = true ∧ m.fileType = .sorted)
  /-- Only the last input takes the batch to its limit, if the sum of the sizes does not wrap around. -/
  below : (s.files.map fileSize).sum < 2 ^ 64 → 1 < job.inputs.length →
    s.totalSize job.inputs.dropLast < po.maxGcBatchSize
  enough : po.minGcBatchSize ≤ s.totalSize job.inputs
  /-- The inputs are the files whose state is another one now, and nothing else has changed. -/
  files_eq : s'.files = s.files.map fun m => if m.fileNumber ∈ job.inputs then { m with state := .beingGC } else m
  frame : s'.buildingFiles = s.buildingFiles ∧ s'.obsoleteFiles = s.obsoleteFiles ∧
    s'.blobRanges = s.blobRanges ∧ s'.gcScore = s.gcScore ∧ s'.levelBlobSize = s.levelBlobSize

/-! ### The loop -/

/-- The files taken so far, with `rest` still to come. -/
structure Picked (po : PickOptions) (s : IndexedStorage o) (rest : List Nat) (p : Picking) : Prop where
  nodup : (p.blobFiles.map fileNumber).Nodup
  ahead : ∀ m ∈ p.blobFiles, m.fileNumber ∉ rest
  files : ∀ m ∈ p.blobFiles, s.findFile m.fileNumber = some m ∧ checkBlobFile po m = true
  size : p.batchSize = (p.blobFiles.map fileSize).sum % 2 ^ 64
  going : p.stopPicking = false → p.blobFiles ≠ [] → p.batchSize < po.maxGcBatchSize
  below : 1 < p.blobFiles.length →
    (p.blobFiles.dropLast.map fileSize).sum % 2 ^ 64 < po.maxGcBatchSize

variable {po : PickOptions} {s : IndexedStorage o} {rest : List Nat} {p : Picking} {n : Nat}

theorem checkBlobFile_eq_true {m : BlobFileMeta} :
    checkBlobFile po m = true ↔ m.state = .normal ∧ ¬(po.levelMerge = true ∧ m.fileType = .sorted) := by
  cases h : po.levelMerge <;> simp [checkBlobFile, h]

theorem Picked.skip (h : Picked po s (n :: rest) p) : Picked po s rest p :=
  { h with ahead := fun m hm hrest => h.ahead m hm (mem_cons_of_mem _ hrest) }

theorem Picked.take {m : BlobFileMeta} {batchSize : Nat} (h : Picked po s (n :: rest) p) (hrest : n ∉ rest)
    (hfind : s.findFile n = some m) (hcheck : checkBlobFile po m = true) (hgoing : p.stopPicking = false)
    (hbatch : batchSize = (p.batchSize + m.fileSize) % 2 ^ 64) :
    Picked po s rest { p with
      blobFiles := p.blobFiles ++ [m], batchSize, stopPicking := po.maxGcBatchSize ≤ batchSize } where
  nodup := by
    obtain rfl := fileNumber_of_findFile hfind
    rw [map_append, nodup_append]
    refine ⟨h.nodup, nodup_singleton _, fun k hk k' hk' heq => ?_⟩
    obtain ⟨m', hm', rfl⟩ := mem_map.1 hk
    refine h.ahead m' hm' ?_
    rw [heq, mem_singleton.1 hk']
    exact mem_cons_self ..
  ahead m' hm' hmem := by
    rcases mem_append.1 hm' with hm' | hm'
    · exact h.ahead m' hm' (mem_cons_of_mem _ hmem)
    · rw [mem_singleton.1 hm', fileNumber_of_findFile hfind] at hmem
      exact hrest hmem
  files m' hm' := by
    rcases mem_append.1 hm' with hm' | hm'
    · exact h.files m' hm'
    · rw [mem_singleton.1 hm', fileNumber_of_findFile hfind]
      exact ⟨hfind, hcheck⟩
  size := by
    simp only [hbatch, h.size, map_append, sum_append, map_cons, map_nil, sum_cons,
      sum_nil, Nat.add_zero, Nat.mod_add_mod]
  going hstop _ := by simpa using hstop
  below hlen := by
    have hne : p.blobFiles ≠ [] := by
      rintro hnil
      simp [hnil] at hlen
    rw [dropLast_concat, ← h.size]
    exact h.going hgoing hne

/-- Every score has its file, so the loop only ends early by the division. -/
theorem picked_pickLoop {scores : List (Nat × ρ)} (h : Picked po s (scores.map Prod.fst) p)
    (hscores : ∀ score ∈ scores, ∃ m, s.findFile score.1 = some m) (hnodup : (scores.map Prod.fst).Nodup) :
    pickLoop po s scores p = .error .divisionByZero ∨ ∃ p', pickLoop po s scores p = .ok p' ∧ Picked po s [] p' := by
  induction scores generalizing p with
  | nil => exact .inr ⟨p, rfl, h⟩
  | cons score scores ih =>
    obtain ⟨m, hm⟩ := hscores score (mem_cons_self ..)
    rw [map_cons, nodup_cons] at hnodup
    have hrest := fun sc hsc => hscores sc (mem_cons_of_mem score hsc)
    rw [pickLoop, hm]
    dsimp only
    split_ifs with hcheck hstop hzero hmany
    · exact ih h.skip hrest hnodup.2
    · exact ih (h.take hnodup.1 hm (by simpa using hcheck) (by simpa using hstop) rfl) hrest hnodup.2
    · exact .inl rfl
    · exact .inr ⟨_, rfl, { h with ahead := fun _ _ => not_mem_nil }⟩
    · exact ih h.skip hrest hnodup.2

theorem Scored.exists_file (h : s.Scored) : ∀ score ∈ s.gcScore, ∃ m, s.findFile score.1 = some m := by
  intro score hscore
  obtain ⟨m, hm, hnum, -⟩ := h.gcScore score hscore
  exact ⟨m, hnum ▸ Keyed.find?_of_mem h.files hm⟩

/-! ### The job -/

/-- Different files of the storage are together no larger than all of them. -/
theorem Picked.sum_le (h : Picked po s rest p) : (p.blobFiles.map fileSize).sum ≤ (s.files.map fileSize).sum := by
  have hsub : p.blobFiles ⊆ s.files := fun m hm => mem_of_find?_eq_some (h.files m hm).1
  obtain ⟨l, hperm, hsublist⟩ := subperm_of_subset h.nodup.of_map hsub
  rw [← (hperm.map fileSize).sum_eq]
  exact (hsublist.map fileSize).sum_le_sum fun _ _ => Nat.zero_le _

theorem totalSize_fileNumbers {ms : List BlobFileMeta} (h : ∀ m ∈ ms, s.findFile m.fileNumber = some m) :
    s.totalSize (ms.map fileNumber) = (ms.map fileSize).sum := by
  rw [totalSize, map_map]
  refine congrArg sum (map_congr_left fun m hm => ?_)
  simp [h m hm]

theorem files_foldl_updateFile {f : BlobFileMeta → BlobFileMeta} (hf : ∀ m, (f m).fileNumber = m.fileNumber)
    (hidem : ∀ m, f (f m) = f m) (ns : List Nat) (s : BlobStorage) :
    (ns.foldl (fun s n => s.updateFile n f) s).files = s.files.map fun m => if m.fileNumber ∈ ns then f m else m := by
  induction ns generalizing s with
  | nil => simp
  | cons n ns ih =>
    rw [foldl_cons, ih]
    simp only [updateFile, map_map]
    refine map_congr_left fun m _ => ?_
    by_cases hn : m.fileNumber = n <;> by_cases hns : m.fileNumber ∈ ns <;> simp [Function.comp, hn, hns, hf, hidem]

theorem Picked.picks (h : Picked po s [] p) (hmin : ¬p.batchSize < po.minGcBatchSize) :
    Picks po s (s.markFilesBeingGC (p.blobFiles.map fileNumber))
      ⟨p.blobFiles.map fileNumber, p.maybeContinueNextTime⟩ where
  nodup := h.nodup
  files n hn := by
    obtain ⟨m, hm, rfl⟩ := mem_map.1 hn
    obtain ⟨hfind, hcheck⟩ := h.files m hm
    exact ⟨m, hfind, checkBlobFile_eq_true.1 hcheck⟩
  below hsize hlen := by
    -- the test was on the size itself
    have hbelow := h.below (by simpa using hlen)
    have hle : (p.blobFiles.dropLast.map fileSize).sum ≤ (p.blobFiles.map fileSize).sum :=
      ((dropLast_sublist _).map fileSize).sum_le_sum fun _ _ => Nat.zero_le _
    rw [Nat.mod_eq_of_lt (Nat.lt_of_le_of_lt (Nat.le_trans hle h.sum_le) hsize)] at hbelow
    rwa [← map_dropLast, totalSize_fileNumbers fun m hm => (h.files m ((dropLast_sublist _).subset hm)).1]
  enough := by
    rw [totalSize_fileNumbers fun m hm => (h.files m hm).1]
    rw [h.size] at hmin
    exact Nat.le_trans (Nat.not_lt.1 hmin) (Nat.mod_le _ _)
  files_eq := files_foldl_updateFile (f := (·.fileStateTransit .gcBegin)) (fun _ => rfl) (fun _ => rfl) ..
  frame := by
    obtain ⟨hbuilding, hobsolete⟩ := foldl_updateFile_frame (·.fileStateTransit .gcBegin)
      (p.blobFiles.map fileNumber) s.toBlobStorage
    exact ⟨hbuilding, hobsolete, rfl, rfl, rfl⟩

theorem pickBlobGC_cases (po : PickOptions) (gcMark : Nat → Bool) (h : s.Scored) :
    s.pickBlobGC po gcMark = .error .divisionByZero ∨ s.pickBlobGC po gcMark = .ok (s, none) ∨
      ∃ p, Picked po s [] p ∧ ¬p.batchSize < po.minGcBatchSize ∧ s.pickBlobGC po gcMark =
        .ok (s.markFilesBeingGC (p.blobFiles.map fileNumber),
          some ⟨p.blobFiles.map fileNumber, p.maybeContinueNextTime⟩) := by
  have hstart : Picked po s (s.gcScore.map Prod.fst) ⟨[], 0, false, false⟩ :=
    ⟨nodup_nil, nofun, nofun, rfl, fun _ hne => absurd rfl hne, nofun⟩
  unfold pickBlobGC
  rcases picked_pickLoop hstart h.exists_file h.distinct with hzero | ⟨p, hp, hpicked⟩
  · rw [hzero]
    exact .inl rfl
  · rw [hp]
    dsimp only
    split_ifs with hnone hsmall
    · exact .inr (.inl rfl)
    · exact .inr (.inl rfl)
    · exact .inr (.inr ⟨p, hpicked, fun hmin => hnone (.inr hmin), rfl⟩)

/-- A pick on a storage in order. -/
theorem pickBlobGC_spec (po : PickOptions) (gcMark : Nat → Bool) (h : s.Scored) :
    s.pickBlobGC po gcMark ≠ .error .missingFile ∧
      (∀ s' job, s.pickBlobGC po gcMark = .ok (s', some job) → Picks po s s' job) ∧
      ∀ s', s.pickBlobGC po gcMark = .ok (s', none) → s' = s := by
  rcases pickBlobGC_cases po gcMark h with hpick | hpick | ⟨p, hpicked, hmin, hpick⟩
  · rw [hpick]
    exact ⟨nofun, nofun, nofun⟩
  · rw [hpick]
    exact ⟨nofun, nofun, fun s' hs' => by cases hs'; rfl⟩
  · rw [hpick]
    refine ⟨nofun, fun s' job hjob => ?_, fun s' hs' => ?_⟩
    · cases hjob
      exact hpicked.picks hmin
    · simp only [Except.ok.injEq, Prod.mk.injEq, reduceCtorEq, and_false] at hs'

/-! ### Runs -/

/-- A transition that no obsolete file is given and that makes none obsolete. -/
theorem Scored.transit (h : s.Scored) {e : FileEvent} (ns : List Nat)
    (hidem : ∀ m : BlobFileMeta, (m.fileStateTransit e).fileStateTransit e = m.fileStateTransit e)
    (hobs : ∀ m ∈ s.files, m.fileNumber ∈ ns → (m.fileStateTransit e).isObsolete = m.isObsolete) :
    Scored { s with toBlobStorage := s.toBlobStorage.transitFiles e ns } := by
  obtain ⟨-, hobsolete⟩ := foldl_updateFile_frame (·.fileStateTransit e) ns s.toBlobStorage
  have hfiles := files_foldl_updateFile (f := (·.fileStateTransit e)) (fun _ => rfl) hidem ns s.toBlobStorage
  have hfile : ∀ m ∈ s.files, (if m.fileNumber ∈ ns then m.fileStateTransit e else m).persisted = m.persisted ∧
      (if m.fileNumber ∈ ns then m.fileStateTransit e else m).isObsolete = m.isObsolete := by
    intro m hm
    split
    next hn => exact ⟨rfl, hobs m hm hn⟩
    · exact ⟨rfl, rfl⟩
  refine ⟨⟨h.mapFiles hfile hfiles hobsolete rfl rfl, fun score hscore => ?_⟩, h.distinct⟩
  obtain ⟨m, hm, hnum, hlive⟩ := h.gcScore score hscore
  refine ⟨_, hfiles ▸ mem_map_of_mem hm, ?_, (hfile m hm).2.trans hlive⟩
  have heq := congrArg BlobFileMeta.fileNumber (hfile m hm).1
  exact heq.trans hnum

/-- The files of a job were normal, and none of them is obsolete now. -/
theorem Picked.scored (hpicked : Picked po s [] p) (h : s.Scored) :
    (s.markFilesBeingGC (p.blobFiles.map fileNumber)).Scored := by
  refine h.transit _ (fun _ => rfl) fun m hm hn => ?_
  obtain ⟨m', hm', hnum⟩ := mem_map.1 hn
  obtain ⟨hfind, hcheck⟩ := hpicked.files m' hm'
  obtain rfl : m' = m := inj_on_of_nodup_map h.files (mem_of_find?_eq_some hfind) hm hnum
  simp [isObsolete, fileStateTransit, FileState.transit, (checkBlobFile_eq_true.1 hcheck).1]

/-- `BlobGC::ReleaseGcFiles`, for the inputs or the outputs of a job. -/
def releaseGcFiles (s : IndexedStorage o) (ns : List Nat) : IndexedStorage o :=
  { s with toBlobStorage := s.toBlobStorage.transitFiles .gcCompleted ns }

theorem Scored.releaseGcFiles (h : s.Scored) (ns : List Nat) : (s.releaseGcFiles ns).Scored := by
  refine h.transit ns (fun m => ?_) fun m _ _ => ?_
  · by_cases hm : m.state = .obsolete <;> simp [fileStateTransit, FileState.transit, hm]
  · by_cases hm : m.state = .obsolete <;> simp [isObsolete, fileStateTransit, FileState.transit, hm]

section run

variable [LinearOrder ρ] [Std.TransCmp o.comparator]

omit [Std.TransCmp o.comparator] in
theorem distinct_computeGCScore (h : (s.files.map fileNumber).Nodup) : (s.computeGCScore.gcScore.map Prod.fst).Nodup := by
  have hscores : ∀ l : List BlobFileMeta, (l.map fun m => (m.fileNumber,
      if m.fileSize < o.mergeSmallFileThreshold then o.blobFileDiscardableRatio else o.discardableRatio m)).map Prod.fst =
        l.map fileNumber := fun l => by rw [map_map]; rfl
  have hsub : ∀ q : BlobFileMeta → Bool, ((s.files.filter q).map fileNumber).Nodup :=
    fun q => (filter_sublist.map _).nodup h
  unfold computeGCScore
  split
  all_goals
    rw [((mergeSort_perm ..).map Prod.fst).nodup_iff, hscores]
    exact hsub _

theorem Scored.step {e : Event} (h : s.Scored) (he : e.Fits o) : (s.step e).Scored := by
  have hcons := h.toConsistent.step he
  refine ⟨hcons, ?_⟩
  cases e with
  | getObsoleteFiles oldest =>
    have hscore : (s.getObsoleteFiles oldest).1.gcScore = s.gcScore :=
      (foldl_removeFile (s.getObsoleteFiles oldest).2 h.files h.blobRanges).2.2.1
    show ((s.getObsoleteFiles oldest).1.gcScore.map Prod.fst).Nodup
    rw [hscore]
    exact h.distinct
  | edits es =>
    simp only [IndexedStorage.step] at hcons ⊢
    split at hcons
    · exact h.distinct
    next c hc =>
      split at hcons
      next hseal =>
        rw [if_pos hseal]
        have hst : (c.applyIndexed s).2 = .ok :=
          (congrArg Prod.snd (applyIndexed_eq c s)).trans (EditCollector.apply_status hseal)
        unfold EditCollector.applyIndexed at hst hcons ⊢
        dsimp only at hst hcons ⊢
        split at hst
        next heq =>
          rw [heq] at hcons
          exact distinct_computeGCScore hcons.files
        next hne heq => exact absurd hst hne
      next hseal =>
        rw [if_neg hseal]
        exact h.distinct

/-- What happens to a storage: edits and purges, picks, and the end of a job. -/
inductive PickerEvent
  | index (e : Event)
  | pick (po : PickOptions) (gcMark : Nat → Bool)
  | release (ns : List Nat)

def PickerEvent.Fits (o : IndexOptions ρ) : PickerEvent → Prop
  | .index e => e.Fits o
  | _ => True

def stepPicker (s : IndexedStorage o) : PickerEvent → Except PickFault (IndexedStorage o)
  | .index e => .ok (s.step e)
  | .pick po gcMark => (s.pickBlobGC po gcMark).map Prod.fst
  | .release ns => .ok (s.releaseGcFiles ns)

theorem Scored.stepPicker {e : PickerEvent} (h : s.Scored) (he : e.Fits o) :
    s.stepPicker e = .error .divisionByZero ∨ ∃ s', s.stepPicker e = .ok s' ∧ s'.Scored := by
  cases e with
  | index e => exact .inr ⟨_, rfl, h.step he⟩
  | release ns => exact .inr ⟨_, rfl, h.releaseGcFiles ns⟩
  | pick po gcMark =>
    rcases pickBlobGC_cases po gcMark h with hpick | hpick | ⟨p, hpicked, -, hpick⟩
    · exact .inl (by rw [IndexedStorage.stepPicker, hpick]; rfl)
    · exact .inr ⟨s, by rw [IndexedStorage.stepPicker, hpick]; rfl, h⟩
    · exact .inr ⟨_, by rw [IndexedStorage.stepPicker, hpick]; rfl, hpicked.scored h⟩

theorem scored_run (es : List PickerEvent) (hes : ∀ e ∈ es, e.Fits o) :
    es.foldlM stepPicker (empty o) = .error .divisionByZero ∨ ∃ s, es.foldlM stepPicker (empty o) = .ok s ∧ s.Scored := by
  suffices ∀ s : IndexedStorage o, s.Scored → es.foldlM stepPicker s = .error .divisionByZero ∨
      ∃ s', es.foldlM stepPicker s = .ok s' ∧ s'.Scored from
    this _ ⟨consistent_empty, nodup_nil⟩
  induction es with
  | nil => exact fun s hs => .inr ⟨s, rfl, hs⟩
  | cons e es ih =>
    intro s hs
    rw [forall_mem_cons] at hes
    rw [foldlM_cons]
    rcases hs.stepPicker hes.1 with hstop | ⟨s', hs', hscored⟩
    · rw [hstop]
      exact .inl rfl
    · rw [hs']
      exact ih hes.2 s' hscored

end run

/-! ### Picks on a small storage -/

/-- Unsorted files of these sizes, numbered from 1. -/
def filledEvent (sizes : List Nat) : Event :=
  .edits [.ofAdded (sizes.zipIdx.map fun p => { sampleFile (p.2 + 1) p.1 0 .unSorted with state := .normal })]

/-- Scored in the order of their numbers. -/
def filled (sizes : List Nat) : IndexedStorage sampleOptions :=
  { (empty sampleOptions).step (filledEvent sizes) with gcScore := sizes.zipIdx.map fun p => (p.2 + 1, 0) }

theorem scored_filled {sizes : List Nat} (hdistinct : ((filled sizes).gcScore.map Prod.fst).Nodup)
    (hscore : ∀ p ∈ (filled sizes).gcScore, ∃ m ∈ (filled sizes).files, m.fileNumber = p.1 ∧ m.isObsolete = false) :
    (filled sizes).Scored := by
  have hfits : (filledEvent sizes).Fits sampleOptions := by
    intro e he m hm
    rw [mem_singleton.1 he] at hm
    obtain ⟨p, -, rfl⟩ := mem_map.1 hm
    exact ⟨Nat.two_pos, rfl⟩
  have hagrees := (consistent_empty.step hfits).toAgrees
  exact ⟨⟨⟨hagrees.files, hagrees.fileLevel, hagrees.blobRanges, hagrees.obsoleteFiles, hagrees.levelBlobSize⟩, hscore⟩,
    hdistinct⟩

/-- Two of three files are picked and released. -/
theorem scored_run_filled : let es : List PickerEvent :=
      [.index (filledEvent [100, 250, 400]), .pick ⟨false, 50, 300, 10⟩ fun _ => false, .release [1, 2]]
    es.foldlM stepPicker (empty sampleOptions) = .error .divisionByZero ∨
      ∃ s, es.foldlM stepPicker (empty sampleOptions) = .ok s ∧ s.Scored :=
  scored_run _ (by
    simp [PickerEvent.Fits, Event.Fits, filledEvent, sampleOptions, sampleFile, VersionEdit.ofAdded, isObsolete])

/-- The second of three files reaches the limit. -/
theorem pickBlobGC_spec_filled :
    (filled [100, 250, 400]).Scored ∧ ((filled [100, 250, 400]).files.map fileSize).sum < 2 ^ 64 ∧
      ∃ s', (filled [100, 250, 400]).pickBlobGC ⟨false, 50, 300, 10⟩ (fun _ => false) = .ok (s', some ⟨[1, 2], false⟩) ∧
        Picks ⟨false, 50, 300, 10⟩ (filled [100, 250, 400]) s' ⟨[1, 2], false⟩ := by
  have hsize : ((filled [100, 250, 400]).files.map fileSize).sum < 2 ^ 64 := by decide +kernel
  have hpick : ((filled [100, 250, 400]).pickBlobGC ⟨false, 50, 300, 10⟩ fun _ => false).map Prod.snd =
      .ok (some ⟨[1, 2], false⟩) := by decide +kernel
  have hscored : (filled [100, 250, 400]).Scored := scored_filled (by decide +kernel) (by decide +kernel)
  refine ⟨hscored, hsize, ?_⟩
  cases hresult : (filled [100, 250, 400]).pickBlobGC ⟨false, 50, 300, 10⟩ fun _ => false with
  | error e => rw [hresult] at hpick; cases hpick
  | ok r =>
    obtain ⟨s', job⟩ := r
    rw [hresult] at hpick
    cases hpick
    exact ⟨s', rfl, (pickBlobGC_spec _ _ hscored).2.1 s' _ hresult⟩

/-- With no limit at all one file is taken, and with three files of 2^63 bytes the sum comes round to 0. -/
theorem batch_over_limit :
    (∃ s : IndexedStorage sampleOptions, s.Scored ∧ ∃ s' job,
      s.pickBlobGC ⟨false, 0, 0, 0⟩ (fun _ => false) = .ok (s', some job) ∧ ¬s.totalSize job.inputs.dropLast < 0) ∧
    ∃ s : IndexedStorage sampleOptions, s.Scored ∧ ∃ s' job,
      s.pickBlobGC ⟨false, 0, 2 ^ 64 - 1, 0⟩ (fun _ => false) = .ok (s', some job) ∧
        ¬s.totalSize job.inputs.dropLast < 2 ^ 64 - 1 := by
  have hone : ((filled [100]).pickBlobGC ⟨false, 0, 0, 0⟩ fun _ => false).map
      (fun r => r.2.map fun job => (filled [100]).totalSize job.inputs.dropLast) = .ok (some 0) := by decide +kernel
  have hthree : ((filled [2 ^ 63, 2 ^ 63, 2 ^ 63]).pickBlobGC ⟨false, 0, 2 ^ 64 - 1, 0⟩ fun _ => false).map
      (fun r => r.2.map fun job => (filled [2 ^ 63, 2 ^ 63, 2 ^ 63]).totalSize job.inputs.dropLast) =
        .ok (some (2 ^ 64)) := by decide +kernel
  have hjob : ∀ {s : IndexedStorage sampleOptions} {po : PickOptions} {size : Nat},
      (s.pickBlobGC po fun _ => false).map (fun r => r.2.map fun job => s.totalSize job.inputs.dropLast) =
        .ok (some size) → ∃ s' job, s.pickBlobGC po (fun _ => false) = .ok (s', some job) ∧
          s.totalSize job.inputs.dropLast = size := by
    intro s po size h
    rcases hr : s.pickBlobGC po fun _ => false with e | ⟨s', _ | job⟩
    · rw [hr] at h; cases h
    · rw [hr] at h; cases h
    · rw [hr] at h
      cases h
      exact ⟨s', job, rfl, rfl⟩
  obtain ⟨s₁, job₁, hpick₁, hsize₁⟩ := hjob hone
  obtain ⟨s₃, job₃, hpick₃, hsize₃⟩ := hjob hthree
  have hscored₁ : (filled [100]).Scored := scored_filled (by decide +kernel) (by decide +kernel)
  have hscored₃ : (filled [2 ^ 63, 2 ^ 63, 2 ^ 63]).Scored := scored_filled (by decide +kernel) (by decide +kernel)
  exact ⟨⟨_, hscored₁, s₁, job₁, hpick₁, by rw [hsize₁]; decide⟩,
    ⟨_, hscored₃, s₃, job₃, hpick₃, by rw [hsize₃]; decide⟩⟩

end IndexedStorage

end ValueSep.DiffKV
