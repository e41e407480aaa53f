import ValueSep.DiffKV.IndexedFileSet
import ValueSep.DiffKV.RangeDeletion

/-!
# Blob files in key ranges

`BlobStorage::GetBlobFilesInRanges` walks `blob_ranges_` once for each range and notes the files whose keys lie in it;
`BlobFileSet::DeleteBlobFilesInRanges` deletes what was noted in one edit. A file that lies in two of the ranges is
noted twice, and an edit that deletes a file twice is refused as a whole.

Walking needs no more of a storage than `Ranged`, which no call takes away (`ranged_run`).
-/

namespace ValueSep.DiffKV

open List Option BlobStorage EditCollector BlobFileMeta IndexedStorage IndexedFileSet Prod

variable {ρ : Type}

namespace IndexedStorage

variable {o : IndexOptions ρ}

/-- The body of the inner loop. -/
def noted (o : IndexOptions ρ) (includeEnd : Bool) (r : KeyRange) (m : BlobFileMeta) : Bool :=
  if m.isObsolete then false
  else if m.largestKey.isEmpty && r.limit.isSome then false
  else match r.limit with
    | none => true
    | some last =>
      (includeEnd && o.comparator m.largestKey last != .gt) || (!includeEnd && o.comparator m.largestKey last == .lt)

/-- One range; `none` if the loop misses its end. -/
def getBlobFilesInRange (s : IndexedStorage o) (includeEnd : Bool) (r : KeyRange) : Option (List Nat) :=
  (s.blobRanges.walk (r.start.elim 0 s.blobRanges.lowerBound)
    (r.limit.elim s.blobRanges.entries.length s.blobRanges.upperBound)).map fun es =>
      es.filterMap fun e => ((s.findFile e.2).filter (noted o includeEnd r)).map fileNumber

/-- `GetBlobFilesInRanges`. -/
def getBlobFilesInRanges (s : IndexedStorage o) (includeEnd : Bool) (ranges : List KeyRange) : Option (List Nat) :=
  (ranges.mapM (s.getBlobFilesInRange includeEnd)).map flatten

end IndexedStorage

/-- `BlobFileSet::DeleteBlobFilesInRanges`; the obsolete sequence it is given does not reach the edit. -/
def IndexedFileSet.deleteBlobFilesInRanges [LinearOrder ρ] (fs : IndexedFileSet ρ) (f : ManifestFaults) (cf : Nat)
    (ranges : List KeyRange) (includeEnd : Bool) (_obsoleteSequence : SequenceNumber) :
    Option (IndexedFileSet ρ × Status) :=
  match fs.columnFamilies.find? cf with
  | none => some (fs, .notFound "invalid column family")
  | some b => (b.storage.getBlobFilesInRanges includeEnd ranges).map fun files =>
      fs.logAndApply f (dropEdit cf files)

/-- What the deletion is for: the files that lie in one of the ranges become obsolete, the others stay. -/
def BlobFileMeta.dropInside (o : Options) (includeEnd : Bool) (ranges : List KeyRange) (m : BlobFileMeta) :
    BlobFileMeta :=
  if m.isObsolete = false ∧ ∃ r ∈ ranges, m.Inside o includeEnd r then m.fileStateTransit .delete else m

/-! ### What holds of every storage -/

namespace IndexedStorage

/-- All that changes a storage: edits and purges, and the calls on single files. -/
inductive Call
  | event (e : Event)
  | transit (n : Nat) (e : FileEvent)
  | addDiscardableSize (n d : Nat)

section run

variable {o : IndexOptions ρ} {s : IndexedStorage o} [LinearOrder ρ] [Std.TransCmp o.comparator]

def call (s : IndexedStorage o) : Call → IndexedStorage o
  | .event e => s.step e
  | .transit n e => { s with toBlobStorage := s.toBlobStorage.updateFile n (·.fileStateTransit e) }
  | .addDiscardableSize n d => s.updateDiscardable (n, d)


omit [LinearOrder ρ] [Std.TransCmp o.comparator] in
theorem Ranged.markIndexedObsolete (h : s.Ranged) (ps : List (Nat × SequenceNumber)) :
    (markIndexedObsolete s ps).1.Ranged := by
  induction ps generalizing s with
  | nil => exact h
  | cons p ps ih =>
    have hmark := h.markFileObsolete p.1 p.2
    unfold markIndexedObsolete
    split
    next heq => rw [heq] at hmark; exact hmark
    next heq => rw [heq] at hmark; exact ih hmark

theorem Ranged.applyIndexed {c : EditCollector} (h : s.Ranged) (hseal : c.sealStatus s.toBlobStorage = .ok)
    (hadded : (c.addedFiles.map fileNumber).Nodup) : (c.applyIndexed s).1.Ranged := by
  have hadd : ((c.addedFiles.filter fun f => !c.deletes f.fileNumber).foldl (·.addBlobFile ·) s).Ranged :=
    foldl_addBlobFile_rule h ((filter_sublist.map _).nodup hadded) (fun f hf =>
      (sealStatus_eq_ok.1 hseal).1 f (mem_filter.1 hf).1) fun _ h _ _ hnew => h.addBlobFile hnew
  have hmark := hadd.markIndexedObsolete (c.deletedFiles.filter fun p => !c.adds p.1)
  unfold EditCollector.applyIndexed
  dsimp only
  split
  next heq =>
    rw [heq] at hmark
    have hdone := foldlRecOn c.updatedDiscardableSize _ hmark fun _ h d _ => h.updateDiscardable d
    exact ⟨hdone.files, hdone.blobRanges⟩
  next heq => rw [heq] at hmark; exact hmark

theorem Ranged.call (h : s.Ranged) (c : Call) : (s.call c).Ranged := by
  cases c with
  | event e =>
    cases e with
    | edits es =>
      simp only [IndexedStorage.call, IndexedStorage.step]
      split
      · exact h
      next c hc =>
        split
        next hseal =>
          exact h.applyIndexed hseal (nodup_foldlM_addEdit hc).1
        · exact h
    | getObsoleteFiles oldest =>
      obtain ⟨hf, hr, -⟩ := foldl_removeFile (s.getObsoleteFiles oldest).2 h.files h.blobRanges
      refine ⟨?_, hr⟩
      show (((s.getObsoleteFiles oldest).2.foldl removeFile s).files.map _).Nodup
      rw [hf]
      exact (filter_sublist.map _).nodup h.files
  | transit n e => exact h.mapFiles (fun m _ => by split <;> rfl) rfl rfl
  | addDiscardableSize n d => exact h.updateDiscardable (n, d)

theorem ranged_run (o : IndexOptions ρ) [Std.TransCmp o.comparator] (cs : List Call) :
    (cs.foldl call (empty o)).Ranged :=
  foldlRecOn cs _ consistent_empty.toAgrees.ranged fun _ h c _ => h.call c

end run

end IndexedStorage

/-! ### Walking one range -/

section walk

variable {o : IndexOptions ρ} [Std.TransCmp o.comparator] {s : IndexedStorage o} {includeEnd : Bool} {r : KeyRange}

theorem IndexedStorage.noted_iff {m : BlobFileMeta} :
    (((r.start.all fun first => o.comparator m.smallestKey first != .lt) &&
        r.limit.all fun last => o.comparator m.smallestKey last != .gt) && noted o includeEnd r m) = true ↔
      m.isObsolete = false ∧ m.Inside o.toOptions includeEnd r := by
  obtain ⟨start, limit⟩ := r
  have hstart : (start.all fun first => o.comparator m.smallestKey first != .lt) = true ↔
      ∀ first ∈ start, o.comparator first m.smallestKey ≠ .gt := by
    cases start with
    | none => simp
    | some first => simp [Std.OrientedCmp.gt_iff_lt]
  rw [Bool.and_eq_true, Bool.and_eq_true, hstart, BlobFileMeta.Inside, noted]
  cases m.isObsolete with
  | true => simp
  | false =>
    cases limit with
    | none => simp
    | some last =>
      cases includeEnd <;> cases m.largestKey <;> simp [and_assoc]

theorem IndexedStorage.Ranged.getBlobFilesInRange (h : s.Ranged) (hr : r.Ordered o.toOptions) :
    ∃ l, s.getBlobFilesInRange includeEnd r = some l ∧ l.Perm (s.filesInside o.toOptions includeEnd r) := by
  refine ⟨_, by rw [IndexedStorage.getBlobFilesInRange, Multimap.walk_eq_filter _ hr]; rfl, ?_⟩
  refine ((h.blobRanges.filter _).filterMap _).trans (List.Perm.of_eq ?_)
  rw [List.filter_map, List.filterMap_map]
  have hlookup : ∀ l : List BlobFileMeta, l.Sublist s.files →
      (l.filterMap fun m => ((s.findFile m.fileNumber).filter (noted o includeEnd r)).map BlobFileMeta.fileNumber) =
        (l.filter (noted o includeEnd r)).map BlobFileMeta.fileNumber := by
    intro l hl
    rw [← List.filterMap_eq_filter, List.map_filterMap]
    refine List.filterMap_congr fun m hm => ?_
    have hfind : s.findFile m.fileNumber = some m := Keyed.find?_of_mem h.files (hl.subset hm)
    rw [hfind]
    rfl
  refine (hlookup _ List.filter_sublist).trans ?_
  rw [List.filter_filter]
  refine congrArg (List.map BlobFileMeta.fileNumber) (List.filter_congr fun m _ => ?_)
  rw [Bool.and_comm, Bool.eq_iff_iff]
  exact noted_iff.trans (by simp)

theorem IndexedStorage.Ranged.getBlobFilesInRanges (h : s.Ranged) {ranges : List KeyRange}
    (hr : ∀ r ∈ ranges, r.Ordered o.toOptions) :
    ∃ l, s.getBlobFilesInRanges includeEnd ranges = some l ∧
      l.Perm (ranges.flatMap (s.filesInside o.toOptions includeEnd)) := by
  induction ranges with
  | nil => exact ⟨[], rfl, .refl _⟩
  | cons r ranges ih =>
    obtain ⟨l, hl, hperm⟩ : ∃ l, s.getBlobFilesInRange includeEnd r = some l ∧
        l.Perm (s.filesInside o.toOptions includeEnd r) := h.getBlobFilesInRange (hr r (mem_cons_self ..))
    obtain ⟨l', hl', hperm'⟩ := ih fun r' hr' => hr r' (mem_cons_of_mem _ hr')
    obtain ⟨ls, hls, rfl⟩ := map_eq_some_iff.1 hl'
    exact ⟨l ++ ls.flatten, by simp [IndexedStorage.getBlobFilesInRanges, hl, hls], hperm.append hperm'⟩

/-- The walk finds the files that a range deletion is said to find. -/
theorem IndexedStorage.Ranged.getBlobFilesInRanges_call (h : s.Ranged) (call : RangeDeletion)
    (hr : ∀ r ∈ call.ranges, r.Ordered o.toOptions) :
    ∃ l, s.getBlobFilesInRanges call.includeEnd call.ranges = some l ∧
      l.Perm (call.getBlobFilesInRanges o.toOptions s.toBlobStorage) := by
  refine (Ranged.getBlobFilesInRanges h hr).imp fun l hl => ⟨hl.1, ?_⟩
  exact hl.2.trans (call.perm_getBlobFilesInRanges ..).symm

end walk

/-! ### The edit -/

section delete

variable {s : BlobStorage} {o : Options} {includeEnd : Bool} {ranges : List KeyRange} {cf : Nat} {files : List Nat}

theorem findFile_apply_dropEdit (sep : Bool) (hfiles : (s.files.map fileNumber).Nodup)
    (hperm : files.Perm (ranges.flatMap (s.filesInside o includeEnd)))
    (hseal : (dropEdit cf files).collector.sealStatus s = .ok) (n : Nat) :
    ((dropEdit cf files).collector.apply sep s).1.findFile n = (s.findFile n).map (dropInside o includeEnd ranges) := by
  have hpaired : (dropEdit cf files).collector.deletedFiles.filter (fun p => !(dropEdit cf files).collector.adds p.1) =
      (dropEdit cf files).deletedFiles := filter_eq_self.2 fun _ _ => rfl
  have hmark := markFilesObsolete_of_sealed sep hseal
  rw [hpaired] at hmark
  rw [fst_apply sep hseal, hpaired]
  refine (findFile_markFilesObsolete hmark n).trans ?_
  rw [numbers_dropEdit]
  show (if n ∈ files then (s.findFile n).map _ else s.findFile n) = _
  cases hfind : s.findFile n with
  | none => simp
  | some m =>
    obtain ⟨hm, hnum⟩ : m ∈ s.files ∧ m.fileNumber = n :=
      ⟨mem_of_find?_eq_some hfind, by simpa using find?_some hfind⟩
    have hmem : n ∈ files ↔ m.isObsolete = false ∧ ∃ r ∈ ranges, m.Inside o includeEnd r := by
      rw [hperm.mem_iff, mem_flatMap]
      constructor
      · rintro ⟨r, hr, hn⟩
        obtain ⟨m', hm', hnum', hobs, hin⟩ := mem_filesInside.1 hn
        obtain rfl : m' = m := inj_on_of_nodup_map hfiles hm' hm (hnum'.trans hnum.symm)
        exact ⟨hobs, r, hr, hin⟩
      · rintro ⟨hobs, r, hr, hin⟩
        exact ⟨r, hr, mem_filesInside.2 ⟨m, hm, hnum, hobs, hin⟩⟩
    simp only [dropInside, hmem, map_some]
    split <;> rfl

end delete

section fileSet

variable [LinearOrder ρ] {fs : IndexedFileSet ρ} {f : ManifestFaults} {cf : Nat} {b : FamilyStorage ρ}
variable {ranges : List KeyRange} {includeEnd : Bool}

/-- The call returns OK, and the files of the column family that lie in one of the ranges are obsolete; no other file of
it and no other column family has changed. -/
def DropsInside (fs : IndexedFileSet ρ) (cf : Nat) (b : FamilyStorage ρ) (ranges : List KeyRange) (includeEnd : Bool)
    (result : Option (IndexedFileSet ρ × Status)) : Prop :=
  ∃ fs' b', result = some (fs', .ok) ∧ fs'.columnFamilies.find? cf = some b' ∧
    (∀ n, b'.toBlobStorage.findFile n =
      (b.toBlobStorage.findFile n).map (dropInside b.options.toOptions includeEnd ranges)) ∧
    ∀ cf' ≠ cf, fs'.columnFamilies.find? cf' = fs.columnFamilies.find? cf'

/-- The files are dropped if and only if none of them lies in two of the ranges. -/
theorem deleteBlobFilesInRanges_iff (fs : IndexedFileSet ρ) (cf : Nat) (b : FamilyStorage ρ)
    (hb : fs.columnFamilies.find? cf = some b) (hranged : b.storage.Ranged) (ranges : List KeyRange)
    (hranges : ∀ r ∈ ranges, r.Ordered b.options.toOptions) (includeEnd : Bool) (q : SequenceNumber)
    (f : ManifestFaults) (hadd : f.addRecord = none) (hsync : f.sync = none) :
    DropsInside fs cf b ranges includeEnd (fs.deleteBlobFilesInRanges f cf ranges includeEnd q) ↔
      ranges.Pairwise fun r r' => ∀ m ∈ b.toBlobStorage.files, m.isObsolete = false →
        ¬ (m.Inside b.options.toOptions includeEnd r ∧ m.Inside b.options.toOptions includeEnd r') := by
  have := b.trans
  have hs : fs.toBlobFileSets.getBlobStorage cf = some b.toBlobStorage := by
    rw [getBlobStorage_toBlobFileSets, hb]
    rfl
  have hnumbers : (b.toBlobStorage.files.map fileNumber).Nodup := hranged.files
  obtain ⟨files, hfiles, hperm⟩ : ∃ files, b.storage.getBlobFilesInRanges includeEnd ranges = some files ∧
      files.Perm (ranges.flatMap (b.toBlobStorage.filesInside b.options.toOptions includeEnd)) :=
    hranged.getBlobFilesInRanges hranges
  have hcall : fs.deleteBlobFilesInRanges f cf ranges includeEnd q = some (fs.logAndApply f (dropEdit cf files)) := by
    rw [deleteBlobFilesInRanges, hb]
    dsimp only
    rw [hfiles]
    rfl
  rw [hcall, ← nodup_filesInside hnumbers, ← hperm.nodup_iff, ← accepted_dropEdit hnumbers hs hperm]
  constructor
  · rintro ⟨fs', b', hok, -⟩
    by_contra hnot
    have hst := congrArg (Option.map Prod.snd) hok
    rw [map_some, status_logAndApply false, map_some, some_inj] at hst
    exact (BlobFileSets.logAndApply_of_not_accepted hnot).2 hst
  · intro hacc
    have hst : (fs.logAndApply f (dropEdit cf files)).2 = .ok := by
      rw [status_logAndApply false]
      exact BlobFileSets.status_logAndApply_of_accepted hacc hadd hsync
    have hfind := find?_logAndApply_of_accepted hacc hadd hsync
    refine ⟨_, (b.apply (dropEdit cf files).collector).1, congrArg some (Prod.ext rfl hst), ?_, fun n => ?_, ?_⟩
    · exact (hfind cf).trans ((if_pos rfl).trans (by rw [hb]; rfl))
    · have happly := congrArg fst (FamilyStorage.toBlobStorage_apply b (dropEdit cf files).collector)
      dsimp only at happly
      rw [happly]
      exact findFile_apply_dropEdit _ hnumbers hperm (VersionEdit.sealed_iff.2 (hacc.sealed _ hs)) n
    · exact fun cf' hne => (hfind cf').trans (if_neg hne)

/-- The family of `sampleFileSet`, with its one file from `[1]` to `[9]`. -/
def sampleFamily : FamilyStorage Nat :=
  ⟨sampleOptions, sampleTrans,
    (empty _).step (.edits [.ofAdded [sampleFile 1 100 0 .sorted]])⟩

theorem ranged_sampleFamily : sampleFamily.storage.Ranged := by
  have hrun := ranged_run sampleOptions
    [.event (.edits [.ofAdded [sampleFile 1 100 0 .sorted]])]
  exact hrun

/-- Two ranges side by side. -/
theorem deleteBlobFilesInRanges_iff_sample :
    DropsInside sampleFileSet 3 sampleFamily [⟨none, some [9]⟩, ⟨some [9], none⟩] true
      (sampleFileSet.deleteBlobFilesInRanges ⟨none, none⟩ 3 [⟨none, some [9]⟩, ⟨some [9], none⟩] true 7) := by
  refine (deleteBlobFilesInRanges_iff _ 3 sampleFamily rfl ranged_sampleFamily _ ?_ true 7 _ rfl rfl).2 ?_
  · simp [KeyRange.Ordered]
  · decide +kernel

/-- One range twice: the file is noted twice, the call fails, and the file stays. -/
theorem same_range_twice :
    (∀ r ∈ [KeyRange.mk none none, ⟨none, none⟩], r.Ordered sampleFamily.options.toOptions) ∧
      IndexedFileSet.sampleFileSet.columnFamilies.find? 3 = some sampleFamily ∧ sampleFamily.storage.Ranged ∧
      (IndexedFileSet.sampleFileSet.deleteBlobFilesInRanges ⟨none, none⟩ 3 [⟨none, none⟩, ⟨none, none⟩] true 7).map
        snd = some (.corruption "Blob file 1 has been deleted twice") ∧
      ¬ DropsInside sampleFileSet 3 sampleFamily [⟨none, none⟩, ⟨none, none⟩] true
        (sampleFileSet.deleteBlobFilesInRanges ⟨none, none⟩ 3 [⟨none, none⟩, ⟨none, none⟩] true 7) := by
  have hst : (sampleFileSet.deleteBlobFilesInRanges ⟨none, none⟩ 3 [⟨none, none⟩, ⟨none, none⟩] true
      7).map snd = some (.corruption "Blob file 1 has been deleted twice") := by decide +kernel
  refine ⟨by simp [KeyRange.Ordered], rfl, ranged_sampleFamily, hst, ?_⟩
  rintro ⟨fs', b', hok, -⟩
  rw [hok] at hst
  cases hst

end fileSet

end ValueSep.DiffKV
