import ValueSep.DiffKV.Recover
import ValueSep.Lib.Multimap
import Mathlib.Algebra.BigOperators.Group.List.Basic
import Mathlib.Data.List.Sort

/-!
# What a blob storage keeps beside its files

`BlobStorage` with all of its members: beside `files_` and `obsolete_files_` there are `blob_ranges_`, which finds
files by their smallest key, `gc_score_`, and `level_blob_size_` with one slot for each level and one more for the
files that are not sorted. Each operation of `Storage` is repeated here with what it does to the other members
(`toBlobStorage_addBlobFile` and its likes say that it does the same to the files). `Consistent` says how the
members hang together, and `consistent_run` that edits and purges never let them come apart.

`level_blob_size_` is a 64-bit counter. Additions are taken to stay below 2^64, the size of all files on the disk;
a subtraction that does not is modelled as it wraps.
-/

namespace ValueSep.DiffKV

open List Function EditCollector BlobFileMeta

/-- The options the members depend on; `ρ` is the type of the ratios. -/
structure IndexOptions (ρ : Type) extends Options where
  numLevels : Nat
  mergeSmallFileThreshold : Nat
  blobFileDiscardableRatio : ρ
  /-- `GetDiscardableRatio`. -/
  discardableRatio : BlobFileMeta → ρ

variable {ρ : Type}

structure IndexedStorage (o : IndexOptions ρ) extends BlobStorage where
  blobRanges : Multimap Slice Nat o.comparator
  gcScore : List (Nat × ρ)
  levelBlobSize : List Nat

/-- `fetch_add` on 64 bits. -/
def fetchAdd (n size : Nat) : Nat := (n + size) % 2 ^ 64

/-- `fetch_sub` on 64 bits. -/
def fetchSub (n size : Nat) : Nat := (n + (2 ^ 64 - size % 2 ^ 64)) % 2 ^ 64

theorem fetchAdd_mod (n size : Nat) : fetchAdd (n % 2 ^ 64) size = (n + size) % 2 ^ 64 := Nat.mod_add_mod ..

theorem fetchSub_mod (n size : Nat) : fetchSub ((size + n) % 2 ^ 64) size = n % 2 ^ 64 := by
  unfold fetchSub
  omega

namespace IndexedStorage

variable {o : IndexOptions ρ}

def empty (o : IndexOptions ρ) : IndexedStorage o := ⟨⟨[], [], []⟩, .empty, [], replicate (o.numLevels + 1) 0⟩

/-- The slot of `level_blob_size_` that a file counts in. -/
def slot (o : IndexOptions ρ) (m : BlobFileMeta) : Nat := if m.fileType = .sorted then m.fileLevel else o.numLevels

section operations

variable (s : IndexedStorage o)

def addBlobFile [Std.TransCmp o.comparator] (file : BlobFileMeta) : IndexedStorage o :=
  { s with
    toBlobStorage := s.toBlobStorage.addBlobFile o.sepBeforeFlush file
    blobRanges := s.blobRanges.insert file.smallestKey file.fileNumber
    levelBlobSize := s.levelBlobSize.modify (slot o file) (fetchAdd · file.fileSize) }

/-- `MarkFileObsolete`; `false` if there is no such file. -/
def markFileObsolete (n : Nat) (obsoleteSequence : SequenceNumber) : IndexedStorage o × Bool :=
  match s.findFile n with
  | none => (s, false)
  | some m =>
    ({ s with
       toBlobStorage := s.toBlobStorage.markFileObsolete n obsoleteSequence
       levelBlobSize := s.levelBlobSize.modify (slot o m) (fetchSub · m.fileSize) }, true)

def removeFile (n : Nat) : IndexedStorage o :=
  match s.findFile n with
  | none => s
  | some m =>
    { s with
      files := s.files.filter fun m => m.fileNumber ≠ n
      blobRanges := s.blobRanges.erase m.smallestKey (· == n) }

/-- `GetObsoleteFiles`: the loop over `obsolete_files_`. -/
def getObsoleteFiles (oldestSequence : SequenceNumber) : IndexedStorage o × List Nat :=
  let removed := (s.obsoleteFiles.filter fun p => p.2 < oldestSequence).map Prod.fst
  ({ removed.foldl removeFile s with
     obsoleteFiles := s.obsoleteFiles.filter fun p => ¬ p.2 < oldestSequence }, removed)

def updateDiscardable (d : Nat × Nat) : IndexedStorage o :=
  { s with toBlobStorage := s.toBlobStorage.updateFile d.1 (·.addDiscardableSize d.2) }

/-- `ComputeGCScore`. -/
def computeGCScore [LinearOrder ρ] : IndexedStorage o :=
  let files := s.files.filter fun m =>
    !(m.isObsolete || (o.levelMerge &&
      (m.fileType = .sorted || o.discardableRatio m < o.blobFileDiscardableRatio)))
  let scores := files.map fun m => (m.fileNumber,
    if m.fileSize < o.mergeSmallFileThreshold then o.blobFileDiscardableRatio else o.discardableRatio m)
  { s with
    gcScore := if o.levelMerge then scores.mergeSort (fun a b => b.2 ≤ a.2)
      else scores.mergeSort (fun a b => a.1 ≤ b.1) }

end operations

end IndexedStorage

namespace EditCollector

variable {o : IndexOptions ρ}

def markIndexedObsolete (s : IndexedStorage o) : List (Nat × SequenceNumber) → IndexedStorage o × Status
  | [] => (s, .ok)
  | p :: ps =>
    match s.markFileObsolete p.1 p.2 with
    | (s, false) => (s, .notFound ("Invalid file number " ++ toString p.1))
    | (s, true) => markIndexedObsolete s ps

/-- `CFEditCollector::Apply` on all members. -/
def applyIndexed [LinearOrder ρ] [Std.TransCmp o.comparator] (c : EditCollector) (s : IndexedStorage o) :
    IndexedStorage o × Status :=
  let s := (c.addedFiles.filter fun f => !c.deletes f.fileNumber).foldl (·.addBlobFile ·) s
  match markIndexedObsolete s (c.deletedFiles.filter fun p => !c.adds p.1) with
  | (s, .ok) => ((c.updatedDiscardableSize.foldl (·.updateDiscardable ·) s).computeGCScore, .ok)
  | (s, st) => (s, st)

end EditCollector

namespace IndexedStorage

inductive Event
  /-- The edits of one collector, through `Seal` and `Apply`. -/
  | edits (es : List VersionEdit)
  | getObsoleteFiles (oldestSequence : SequenceNumber)

variable {o : IndexOptions ρ}

/-- Edits that `AddEdit` or `Seal` refuse are not applied. -/
def step [LinearOrder ρ] [Std.TransCmp o.comparator] (s : IndexedStorage o) : Event → IndexedStorage o
  | .edits es =>
    match es.foldlM addEdit .empty with
    | .error _ => s
    | .ok c => if c.sealStatus s.toBlobStorage = .ok then (c.applyIndexed s).1 else s
  | .getObsoleteFiles oldestSequence => (s.getObsoleteFiles oldestSequence).1

/-- The files that an edit adds are new: they have a level that exists, and are not obsolete. -/
def Event.Fits (o : IndexOptions ρ) : Event → Prop
  | .edits es => ∀ e ∈ es, ∀ m ∈ e.addedFiles, m.fileLevel < o.numLevels ∧ m.isObsolete = false
  | .getObsoleteFiles _ => True

/-- The bytes of the files that count in a slot. -/
def blobSize (o : IndexOptions ρ) (files : List BlobFileMeta) (level : Nat) : Nat :=
  ((files.filter fun m => !m.isObsolete && slot o m == level).map fileSize).sum

/-- The members agree with the files, but for the scores. -/
structure Agrees (s : IndexedStorage o) : Prop where
  files : (s.files.map fileNumber).Nodup
  /-- No sorted file counts in the slot of the unsorted ones. -/
  fileLevel : ∀ m ∈ s.files, m.fileLevel < o.numLevels
  /-- One entry for each file, under its smallest key. -/
  blobRanges : s.blobRanges.entries.Perm (s.files.map fun m => (m.smallestKey, m.fileNumber))
  /-- Each obsolete file once, and nothing else. -/
  obsoleteFiles : (s.obsoleteFiles.map Prod.fst).Perm
    ((s.files.filter isObsolete).map fileNumber)
  /-- The counters have 64 bits: a level with less than 2^64 bytes is counted exactly. -/
  levelBlobSize : s.levelBlobSize = (range (o.numLevels + 1)).map fun level => blobSize o s.files level % 2 ^ 64

structure Consistent (s : IndexedStorage o) : Prop extends s.Agrees where
  gcScore : ∀ p ∈ s.gcScore, ∃ m ∈ s.files, m.fileNumber = p.1 ∧ m.isObsolete = false

/-- The part of `Agrees` that does not depend on the states of the files. -/
structure Ranged (s : IndexedStorage o) : Prop where
  files : (s.files.map fileNumber).Nodup
  blobRanges : s.blobRanges.entries.Perm (s.files.map fun m => (m.smallestKey, m.fileNumber))

theorem Agrees.ranged {s : IndexedStorage o} (h : s.Agrees) : s.Ranged := ⟨h.files, h.blobRanges⟩

/-! ### The files behind it -/

section

variable {s : IndexedStorage o}

variable {m : BlobFileMeta} {n : Nat} {file : BlobFileMeta}

theorem exists_split {files : List BlobFileMeta} (hnodup : (files.map fileNumber).Nodup)
    (hfind : files.find? (fun m => m.fileNumber == n) = some m) :
    ∃ l₁ l₂, files = l₁ ++ m :: l₂ ∧ m.fileNumber = n ∧ ∀ x ∈ l₁ ++ l₂, x.fileNumber ≠ n := by
  obtain ⟨hm, l₁, l₂, rfl, hl₁⟩ := find?_eq_some_iff_append.1 hfind
  have hn : m.fileNumber = n := by simpa using hm
  refine ⟨l₁, l₂, rfl, hn, fun x hx => ?_⟩
  rcases mem_append.1 hx with hx | hx
  · simpa using hl₁ x hx
  · rw [map_append, map_cons, nodup_append, nodup_cons] at hnodup
    rw [← hn]
    rintro heq
    exact hnodup.2.1.1 (heq ▸ mem_map_of_mem hx)

theorem map_of_split {l : List BlobFileMeta} (f : BlobFileMeta → BlobFileMeta)
    (h : ∀ x ∈ l, x.fileNumber ≠ n) : l.map (fun m => if m.fileNumber = n then f m else m) = l := by
  conv_rhs => rw [← map_id l]
  exact map_congr_left fun x hx => if_neg (h x hx)

theorem filter_of_split {l : List BlobFileMeta} (h : ∀ x ∈ l, x.fileNumber ≠ n) :
    l.filter (fun m => m.fileNumber ≠ n) = l :=
  filter_eq_self.2 fun x hx => by simpa using h x hx

theorem map_of_persisted {files : List BlobFileMeta} {g : BlobFileMeta → BlobFileMeta}
    (hg : ∀ m ∈ files, (g m).persisted = m.persisted) {α : Type} {f : BlobFileMeta → α}
    (hf : ∀ m, f m.persisted = f m) : (files.map g).map f = files.map f := by
  rw [map_map]
  refine map_congr_left fun m hm => ?_
  rw [comp_apply, ← hf (g m), hg m hm, hf m]

theorem modify_map_range (f g : Nat → Nat) (n i : Nat) :
    ((range n).map f).modify i g = (range n).map fun j => if j = i then g (f j) else f j := by
  refine ext_getElem? fun j => ?_
  rw [getElem?_modify, getElem?_map, getElem?_map]
  rcases Nat.lt_or_ge j n with hj | hj
  · rw [getElem?_range hj]
    by_cases hji : i = j
    · simp [hji]
    · simp [hji, Ne.symm hji]
  · rw [getElem?_eq_none (by simpa using hj)]
    simp

theorem blobSize_append (l₁ l₂ : List BlobFileMeta) (level : Nat) :
    blobSize o (l₁ ++ l₂) level = blobSize o l₁ level + blobSize o l₂ level := by
  simp [blobSize]

theorem blobSize_cons (m : BlobFileMeta) (l : List BlobFileMeta) (level : Nat) :
    blobSize o (m :: l) level =
      (if !m.isObsolete && slot o m == level then m.fileSize else 0) + blobSize o l level := by
  rw [blobSize, filter_cons]
  split
  · simp [blobSize]
  · simp [blobSize]

/-! ### One operation -/

theorem files_addBlobFile [Std.TransCmp o.comparator]
    (hnew : s.findFile file.fileNumber = none) : (s.addBlobFile file).files = s.files ++ [file] := by
  show (if (s.findFile file.fileNumber).isSome then s.files else s.files ++ [file]) = _
  rw [hnew]
  rfl

section
variable (h : s.Ranged)
include h

theorem Ranged.addBlobFile [Std.TransCmp o.comparator]
    (hnew : s.findFile file.fileNumber = none) : (s.addBlobFile file).Ranged := by
  have hnone : ∀ m ∈ s.files, m.fileNumber ≠ file.fileNumber := by
    simpa [BlobStorage.findFile] using hnew
  constructor
  · rw [files_addBlobFile hnew, map_append, nodup_append]
    refine ⟨h.files, nodup_singleton _, ?_⟩
    simpa using hnone
  · rw [files_addBlobFile hnew, map_append]
    exact (Multimap.perm_insert s.blobRanges).trans ((h.blobRanges.cons _).trans (perm_append_singleton ..).symm)

/-- What is written of a file never changes. -/
theorem Ranged.mapFiles {g : BlobFileMeta → BlobFileMeta} (hg : ∀ m ∈ s.files, (g m).persisted = m.persisted)
    {s' : IndexedStorage o} (hfiles : s'.files = s.files.map g) (hranges : s'.blobRanges = s.blobRanges) : s'.Ranged := by
  constructor
  · rw [hfiles, map_of_persisted hg fun _ => rfl]
    exact h.files
  · rw [hfiles, hranges, map_of_persisted hg fun _ => rfl]
    exact h.blobRanges

theorem Ranged.markFileObsolete (n : Nat) (q : SequenceNumber) : (s.markFileObsolete n q).1.Ranged := by
  unfold IndexedStorage.markFileObsolete
  split
  · exact h
  · exact h.mapFiles (fun m _ => by split <;> rfl) rfl rfl

theorem Ranged.updateDiscardable (d : Nat × Nat) : (s.updateDiscardable d).Ranged :=
  h.mapFiles (fun m _ => by split <;> rfl) rfl rfl

end

/-- A change of the files that none of the other members depend on. -/
theorem Agrees.mapFiles (h : s.Agrees) {g : BlobFileMeta → BlobFileMeta}
    (hg : ∀ m ∈ s.files, (g m).persisted = m.persisted ∧ (g m).isObsolete = m.isObsolete) {s' : IndexedStorage o}
    (hfiles : s'.files = s.files.map g) (hobsolete : s'.obsoleteFiles = s.obsoleteFiles)
    (hranges : s'.blobRanges = s.blobRanges) (hlevel : s'.levelBlobSize = s.levelBlobSize) : s'.Agrees := by
  have hsame m hm := (hg m hm).1
  have hranged := h.ranged.mapFiles hsame hfiles hranges
  have hfilter {α : Type} {q : BlobFileMeta → Bool} {f : BlobFileMeta → α} (hq : ∀ m ∈ s.files, q (g m) = q m)
      (hf : ∀ m, f m.persisted = f m) : (s'.files.filter q).map f = (s.files.filter q).map f := by
    rw [hfiles, filter_map, filter_congr (p := q ∘ g) hq]
    exact map_of_persisted (fun m hm => hsame m (mem_of_mem_filter hm)) hf
  refine ⟨hranged.files, ?_, hranged.blobRanges, ?_, ?_⟩
  · rw [hfiles, forall_mem_map]
    intro m hm
    have heq := congrArg BlobFileMeta.fileLevel (hsame m hm)
    exact heq.trans_lt (h.fileLevel m hm)
  · rw [hobsolete, hfilter (fun m hm => (hg m hm).2) fun _ => rfl]
    exact h.obsoleteFiles
  · rw [hlevel, h.levelBlobSize]
    refine map_congr_left fun level _ => ?_
    rw [blobSize, blobSize, hfilter (fun m hm => ?_) fun _ => rfl]
    have heq := congrArg (slot o) (hsame m hm)
    change slot o (g m) = slot o m at heq
    rw [(hg m hm).2, heq]

theorem Agrees.addBlobFile [Std.TransCmp o.comparator] (h : s.Agrees)
    (hnew : s.findFile file.fileNumber = none) (hlevel : file.fileLevel < o.numLevels)
    (hobs : file.isObsolete = false) : (s.addBlobFile file).Agrees := by
  have hranged := h.ranged.addBlobFile hnew
  have hfiles := files_addBlobFile hnew
  refine ⟨hranged.files, ?_, hranged.blobRanges, ?_, ?_⟩
  · rw [hfiles]
    intro m hm
    rcases mem_append.1 hm with hm | hm
    · exact h.fileLevel m hm
    · rw [mem_singleton.1 hm]
      exact hlevel
  · rw [hfiles, filter_append, filter_cons_of_neg (by simp [hobs]), filter_nil, append_nil]
    exact h.obsoleteFiles
  · show s.levelBlobSize.modify _ _ = _
    rw [h.levelBlobSize, modify_map_range, hfiles]
    refine map_congr_left fun level _ => ?_
    rw [blobSize_append, blobSize_cons, hobs]
    by_cases hslot : slot o file = level
    · simpa [hslot, blobSize] using fetchAdd_mod _ file.fileSize
    · simp [hslot, Ne.symm hslot, blobSize]

theorem Agrees.markFileObsolete (h : s.Agrees) (q : SequenceNumber)
    (hfind : s.findFile n = some m) (hobs : m.isObsolete = false) : (s.markFileObsolete n q).1.Agrees := by
  obtain ⟨l₁, l₂, hsplit, hn, hne⟩ := exists_split h.files hfind
  rw [forall_mem_append] at hne
  have heq : s.markFileObsolete n q = ({ s with
      toBlobStorage := s.toBlobStorage.markFileObsolete n q
      levelBlobSize := s.levelBlobSize.modify (slot o m) (fetchSub · m.fileSize) }, true) := by
    rw [IndexedStorage.markFileObsolete, hfind]
  have hfiles : (s.markFileObsolete n q).1.files = l₁ ++ m.fileStateTransit .delete :: l₂ := by
    rw [heq]
    show s.files.map (fun m => if m.fileNumber = n then m.fileStateTransit .delete else m) = _
    rw [hsplit, map_append, map_cons, map_of_split _ hne.1, map_of_split _ hne.2, if_pos hn]
  have hranged := h.ranged.markFileObsolete n q
  refine ⟨hranged.files, ?_, hranged.blobRanges, ?_, ?_⟩
  · rw [hfiles]
    have hlevel := h.fileLevel
    rw [hsplit, forall_mem_append, forall_mem_cons] at hlevel
    rw [forall_mem_append, forall_mem_cons]
    exact hlevel
  · have hlist := h.obsoleteFiles
    rw [hsplit, filter_append, filter_cons_of_neg (by simp [hobs]), map_append] at hlist
    rw [hfiles, heq, filter_append, filter_cons_of_pos rfl, map_append, map_cons]
    show ((s.obsoleteFiles ++ [(n, q)]).map Prod.fst).Perm _
    rw [map_append, fileNumber_fileStateTransit, hn]
    refine (hlist.append_right [n]).trans ?_
    rw [append_assoc]
    exact perm_append_comm.append_left _
  · rw [hfiles, heq]
    rw [h.levelBlobSize, modify_map_range, hsplit]
    refine map_congr_left fun level _ => ?_
    simp only [blobSize_append, blobSize_cons, hobs, isObsolete_fileStateTransit_delete]
    by_cases hslot : slot o m = level
    · simp only [hslot, beq_self_eq_true, Bool.not_false, Bool.not_true, Bool.and_true, Bool.false_and, if_true,
        Bool.false_eq_true, if_false, zero_add]
      rw [add_left_comm, fetchSub_mod]
    · simp [hslot, Ne.symm hslot]

theorem Agrees.updateDiscardable (h : s.Agrees) (d : Nat × Nat) : (s.updateDiscardable d).Agrees :=
  h.mapFiles (fun m _ => by split <;> exact ⟨rfl, rfl⟩) rfl rfl rfl rfl

theorem Agrees.computeGCScore [LinearOrder ρ] (h : s.Agrees) : s.computeGCScore.Consistent := by
  refine ⟨⟨h.files, h.fileLevel, h.blobRanges, h.obsoleteFiles, h.levelBlobSize⟩, fun p hp => ?_⟩
  change p ∈ (if o.levelMerge then _ else _) at hp
  have hmem : p ∈ (s.files.filter fun m => !(m.isObsolete || (o.levelMerge &&
      (m.fileType = .sorted || o.discardableRatio m < o.blobFileDiscardableRatio)))).map fun m => (m.fileNumber,
        if m.fileSize < o.mergeSmallFileThreshold then o.blobFileDiscardableRatio else o.discardableRatio m) := by
    split at hp
    · exact (mergeSort_perm ..).mem_iff.1 hp
    · exact (mergeSort_perm ..).mem_iff.1 hp
  obtain ⟨m, hm, rfl⟩ := mem_map.1 hmem
  obtain ⟨hfile, hkeep⟩ := mem_filter.1 hm
  rw [Bool.not_eq_true', Bool.or_eq_false_iff] at hkeep
  exact ⟨m, hfile, rfl, hkeep.1⟩

/-! ### Purging -/

theorem files_removeFile (s : IndexedStorage o) (n : Nat) :
    (s.removeFile n).files = s.files.filter fun m => m.fileNumber ≠ n := by
  unfold removeFile
  split
  next hnone =>
    refine (filter_of_split ?_).symm
    simpa [BlobStorage.findFile] using hnone
  next => rfl

theorem frame_removeFile (s : IndexedStorage o) (n : Nat) :
    (s.removeFile n).gcScore = s.gcScore ∧ (s.removeFile n).levelBlobSize = s.levelBlobSize := by
  unfold removeFile
  split <;> exact ⟨rfl, rfl⟩

theorem perm_blobRanges_removeFile [Std.ReflCmp o.comparator] (hfiles : (s.files.map fileNumber).Nodup)
    (hranges : s.blobRanges.entries.Perm (s.files.map fun m => (m.smallestKey, m.fileNumber))) (n : Nat) :
    (s.removeFile n).blobRanges.entries.Perm ((s.removeFile n).files.map fun m => (m.smallestKey, m.fileNumber)) := by
  rcases hfind : s.findFile n with _ | m
  · have heq : s.removeFile n = s := by rw [removeFile, hfind]
    rw [heq]
    exact hranges
  · obtain ⟨l₁, l₂, hsplit, hn, hne⟩ := exists_split hfiles hfind
    have hleft : (s.removeFile n).files = l₁ ++ l₂ := by
      rw [files_removeFile, hsplit, filter_append, filter_cons_of_neg (by simp [hn]),
        ← filter_append, filter_of_split hne]
    have hblob : (s.removeFile n).blobRanges = s.blobRanges.erase m.smallestKey (· == n) := by
      rw [removeFile, hfind]
    rw [hsplit] at hranges
    have hmem : (m.smallestKey, n) ∈ s.blobRanges.entries := by
      rw [hranges.mem_iff, map_append, map_cons, hn]
      simp
    have honly : ∀ e ∈ s.blobRanges.entries, (e.2 == n) = true → e = (m.smallestKey, n) := by
      intro e he hen
      rw [hranges.mem_iff, mem_map] at he
      obtain ⟨x, hx, rfl⟩ := he
      have hxn : x.fileNumber = n := by simpa using hen
      rcases mem_cons.1 (perm_middle.mem_iff.1 hx) with rfl | hx
      · rw [hxn]
      · exact absurd hxn (hne x hx)
    have herase : s.blobRanges.entries.Perm
        ((m.smallestKey, n) :: (s.blobRanges.erase m.smallestKey (· == n)).entries) :=
      Multimap.perm_erase s.blobRanges hmem (beq_self_eq_true n) honly
    rw [hblob, hleft]
    refine (perm_cons (m.smallestKey, n)).1 (herase.symm.trans (hranges.trans ?_))
    rw [map_append, map_cons, map_append, hn]
    exact perm_middle

theorem foldl_removeFile [Std.ReflCmp o.comparator] (removed : List Nat) (hfiles : (s.files.map fileNumber).Nodup)
    (hranges : s.blobRanges.entries.Perm (s.files.map fun m => (m.smallestKey, m.fileNumber))) :
    (removed.foldl removeFile s).files = (s.files.filter fun m => m.fileNumber ∉ removed) ∧
      (removed.foldl removeFile s).blobRanges.entries.Perm
        ((removed.foldl removeFile s).files.map fun m => (m.smallestKey, m.fileNumber)) ∧
      (removed.foldl removeFile s).gcScore = s.gcScore ∧ (removed.foldl removeFile s).levelBlobSize = s.levelBlobSize := by
  induction removed generalizing s with
  | nil => exact ⟨(filter_eq_self.2 fun _ _ => by simp).symm, hranges, rfl, rfl⟩
  | cons n removed ih =>
    have hsub : (s.removeFile n).files.Sublist s.files := by
      rw [files_removeFile]
      exact filter_sublist
    obtain ⟨hf, hr, hscore, hlevel⟩ := ih ((hsub.map _).nodup hfiles) (perm_blobRanges_removeFile hfiles hranges n)
    obtain ⟨hscore', hlevel'⟩ := frame_removeFile s n
    refine ⟨?_, hr, hscore.trans hscore', hlevel.trans hlevel'⟩
    rw [foldl_cons, hf, files_removeFile, filter_filter]
    refine filter_congr fun m _ => ?_
    by_cases hn : m.fileNumber = n <;> simp [hn]

/-- What is listed more than once would have to be in two files. -/
theorem Agrees.filter_obsoleteFiles (h : s.Agrees) (oldest : SequenceNumber) :
    s.obsoleteFiles.filter (fun p => ¬ p.2 < oldest) =
      s.obsoleteFiles.filter fun p => p.1 ∉ (s.getObsoleteFiles oldest).2 := by
  have hnodup : (s.obsoleteFiles.map Prod.fst).Nodup :=
    h.obsoleteFiles.nodup_iff.2 ((filter_sublist.map _).nodup h.files)
  refine filter_congr fun p hp => ?_
  rw [decide_eq_decide, not_iff_not]
  constructor
  · intro hlt
    exact mem_map_of_mem (mem_filter.2 ⟨hp, by simpa using hlt⟩)
  · intro hmem
    obtain ⟨p', hp', heq⟩ := mem_map.1 hmem
    obtain ⟨hp', hlt⟩ := mem_filter.1 hp'
    obtain rfl := inj_on_of_nodup_map hnodup hp' hp heq
    simpa using hlt

theorem Agrees.isObsolete_of_removed (h : s.Agrees) {oldest : SequenceNumber} (hm : m ∈ s.files)
    (hremoved : m.fileNumber ∈ (s.getObsoleteFiles oldest).2) : m.isObsolete = true := by
  obtain ⟨p, hp, heq⟩ := mem_map.1 hremoved
  have hlisted : m.fileNumber ∈ s.obsoleteFiles.map Prod.fst := heq ▸ mem_map_of_mem (mem_filter.1 hp).1
  rw [h.obsoleteFiles.mem_iff, mem_map] at hlisted
  obtain ⟨m', hm', hnum⟩ := hlisted
  obtain ⟨hm', hobs⟩ := mem_filter.1 hm'
  rwa [inj_on_of_nodup_map h.files hm' hm hnum] at hobs

theorem Consistent.getObsoleteFiles [Std.ReflCmp o.comparator] (h : s.Consistent) (oldest : SequenceNumber) :
    (s.getObsoleteFiles oldest).1.Consistent := by
  obtain ⟨hf, hr, hscore, hlevel⟩ := foldl_removeFile (s.getObsoleteFiles oldest).2 h.files h.blobRanges
  have hfiles : (s.getObsoleteFiles oldest).1.files =
      s.files.filter fun m => m.fileNumber ∉ (s.getObsoleteFiles oldest).2 := hf
  refine ⟨⟨?_, ?_, hr, ?_, ?_⟩, ?_⟩
  · rw [hfiles]
    exact (filter_sublist.map _).nodup h.files
  · rw [hfiles]
    intro m hm
    exact h.fileLevel m (mem_filter.1 hm).1
  · show ((s.obsoleteFiles.filter fun p => ¬ p.2 < oldest).map Prod.fst).Perm _
    rw [h.filter_obsoleteFiles oldest, hfiles]
    have hperm := h.obsoleteFiles.filter fun n => n ∉ (s.getObsoleteFiles oldest).2
    rw [filter_map, filter_map] at hperm
    simpa [comp_def, Bool.and_comm] using hperm
  · refine hlevel.trans (h.levelBlobSize.trans (map_congr_left fun level _ => ?_))
    rw [hfiles, blobSize, blobSize, filter_filter]
    refine congrArg (fun l => (map fileSize l).sum % 2 ^ 64) (filter_congr fun m hm => ?_)
    by_cases hremoved : m.fileNumber ∈ (s.getObsoleteFiles oldest).2
    · simp [h.isObsolete_of_removed hm hremoved]
    · simp [hremoved]
  · intro p hp
    obtain ⟨m, hm, hnum, hobs⟩ := h.gcScore p (hscore ▸ hp)
    refine ⟨m, ?_, hnum, hobs⟩
    rw [hfiles, mem_filter]
    refine ⟨hm, decide_eq_true fun hremoved => ?_⟩
    rw [h.isObsolete_of_removed hm hremoved] at hobs
    cases hobs

/-! ### Applying edits -/

/-- A collector adds and deletes a file once at most, and adds what is in the edits. -/
theorem nodup_foldlM_addEdit {es : List VersionEdit} {c : EditCollector} (h : es.foldlM addEdit .empty = .ok c) :
    (c.addedFiles.map fileNumber).Nodup ∧ (c.deletedFiles.map Prod.fst).Nodup ∧
      ∀ m ∈ c.addedFiles, ∃ e ∈ es, m ∈ e.addedFiles := by
  induction es using reverseRecOn generalizing c with
  | nil =>
    cases h
    exact ⟨nodup_nil, nodup_nil, nofun⟩
  | append_singleton es e ih =>
    obtain ⟨c₁, hes, hone⟩ := Keyed.foldlM_snoc_eq_ok.1 h
    obtain ⟨hadded, hdeleted, hmem⟩ := ih hes
    obtain ⟨ha, hd⟩ := nodup_addEdit hadded hdeleted hone
    refine ⟨ha, hd, fun m hm => ?_⟩
    rw [(addEdit_eq_ok hone).1, mem_append] at hm
    rcases hm with hm | hm
    · obtain ⟨e', he', hm⟩ := hmem m hm
      exact ⟨e', mem_append_left _ he', hm⟩
    · exact ⟨e, mem_append_right _ (mem_singleton_self e), hm⟩

theorem toBlobStorage_foldl_addBlobFile [Std.TransCmp o.comparator] (files : List BlobFileMeta) :
    (files.foldl (·.addBlobFile ·) s).toBlobStorage = files.foldl (·.addBlobFile o.sepBeforeFlush ·) s.toBlobStorage := by
  induction files generalizing s with
  | nil => rfl
  | cons f fs ih => exact ih

/-- Different new files, one after the other: each is still new when its turn comes. -/
theorem foldl_addBlobFile_rule [Std.TransCmp o.comparator] {I : IndexedStorage o → Prop} {files : List BlobFileMeta}
    (h : I s) (hnodup : (files.map fileNumber).Nodup) (hnew : ∀ f ∈ files, s.findFile f.fileNumber = none)
    (hadd : ∀ s, I s → ∀ f ∈ files, s.findFile f.fileNumber = none → I (s.addBlobFile f)) :
    I (files.foldl (·.addBlobFile ·) s) := by
  induction files generalizing s with
  | nil => exact h
  | cons f fs ih =>
    rw [map_cons, nodup_cons] at hnodup
    rw [forall_mem_cons] at hnew
    refine ih (hadd s h f (mem_cons_self ..) hnew.1) hnodup.2 (fun f' hf' => ?_) fun s h f' hf' =>
      hadd s h f' (mem_cons_of_mem _ hf')
    have hne : f.fileNumber ≠ f'.fileNumber := fun heq => hnodup.1 (heq ▸ mem_map_of_mem hf')
    show (s.toBlobStorage.addBlobFile o.sepBeforeFlush f).findFile f'.fileNumber = none
    rw [BlobStorage.findFile_addBlobFile, hnew.2 f' hf', if_neg hne]
    rfl

theorem markIndexedObsolete_eq (s : IndexedStorage o) (ps : List (Nat × SequenceNumber)) :
    ((markIndexedObsolete s ps).1.toBlobStorage, (markIndexedObsolete s ps).2) = markFilesObsolete s.toBlobStorage ps := by
  induction ps generalizing s with
  | nil => rfl
  | cons p ps ih =>
    unfold markIndexedObsolete markFilesObsolete
    rcases hfind : s.findFile p.1 with _ | m
    · simp [IndexedStorage.markFileObsolete, hfind]
    · simp only [IndexedStorage.markFileObsolete, hfind]
      exact ih _

theorem Agrees.markIndexedObsolete (h : s.Agrees) {ps : List (Nat × SequenceNumber)} (hnodup : (ps.map Prod.fst).Nodup)
    (hps : ∀ p ∈ ps, ∃ m, s.findFile p.1 = some m ∧ m.isObsolete = false) : (markIndexedObsolete s ps).1.Agrees := by
  induction ps generalizing s with
  | nil => exact h
  | cons p ps ih =>
    obtain ⟨m, hm, hobs⟩ := hps p (mem_cons_self ..)
    rw [map_cons, nodup_cons] at hnodup
    have hmark := h.markFileObsolete p.2 hm hobs
    have hstep : markIndexedObsolete s (p :: ps) =
        markIndexedObsolete (s.markFileObsolete p.1 p.2).1 ps := by
      rw [markIndexedObsolete, IndexedStorage.markFileObsolete, hm]
    rw [hstep]
    refine ih hmark hnodup.2 fun p' hp' => ?_
    obtain ⟨m', hm', hobs'⟩ := hps p' (mem_cons_of_mem _ hp')
    refine ⟨m', ?_, hobs'⟩
    have hne : p'.1 ≠ p.1 := fun heq => hnodup.1 (heq ▸ mem_map_of_mem hp')
    have hstorage : (s.markFileObsolete p.1 p.2).1.toBlobStorage = s.toBlobStorage.markFileObsolete p.1 p.2 := by
      rw [IndexedStorage.markFileObsolete, hm]
    rw [hstorage, BlobStorage.findFile_markFileObsolete, if_neg hne]
    exact hm'

theorem toBlobStorage_foldl_updateDiscardable (ds : List (Nat × Nat)) :
    (ds.foldl (·.updateDiscardable ·) s).toBlobStorage =
      ds.foldl (fun s d => s.updateFile d.1 (·.addDiscardableSize d.2)) s.toBlobStorage := by
  induction ds generalizing s with
  | nil => rfl
  | cons d ds ih => exact ih

theorem consistent_empty : (empty o).Consistent := by
  refine ⟨⟨nodup_nil, nofun, .refl _, .refl _, ?_⟩, nofun⟩
  show replicate (o.numLevels + 1) 0 = _
  rw [eq_comm, eq_replicate_iff]
  exact ⟨by simp, fun n hn => by obtain ⟨level, -, rfl⟩ := mem_map.1 hn; rfl⟩

section apply

variable [LinearOrder ρ] [Std.TransCmp o.comparator]

/-- On the files, `Apply` is what it was without the other members. -/
theorem applyIndexed_eq (c : EditCollector) (s : IndexedStorage o) :
    ((c.applyIndexed s).1.toBlobStorage, (c.applyIndexed s).2) = c.apply o.sepBeforeFlush s.toBlobStorage := by
  have hmark := markIndexedObsolete_eq
    ((c.addedFiles.filter fun f => !c.deletes f.fileNumber).foldl (·.addBlobFile ·) s)
    (c.deletedFiles.filter fun p => !c.adds p.1)
  rw [toBlobStorage_foldl_addBlobFile] at hmark
  simp only [applyIndexed, apply, ← hmark]
  rcases markIndexedObsolete _ _ with ⟨s', st⟩
  cases st with
  | ok => exact congrArg (·, Status.ok) (toBlobStorage_foldl_updateDiscardable c.updatedDiscardableSize)
  | _ => rfl

theorem Consistent.applyIndexed {c : EditCollector} (h : s.Consistent) (hseal : c.sealStatus s.toBlobStorage = .ok)
    (hadded : (c.addedFiles.map fileNumber).Nodup) (hdeleted : (c.deletedFiles.map Prod.fst).Nodup)
    (hnew : ∀ m ∈ c.addedFiles, m.fileLevel < o.numLevels ∧ m.isObsolete = false) : (c.applyIndexed s).1.Consistent := by
  let added := (c.addedFiles.filter fun f => !c.deletes f.fileNumber).foldl (·.addBlobFile ·) s
  have hseal' := sealStatus_eq_ok.1 hseal
  have hadd : added.Agrees := by
    refine foldl_addBlobFile_rule h.toAgrees ((filter_sublist.map _).nodup hadded)
      (fun f hf => hseal'.1 f (mem_of_mem_filter hf)) fun s h f hf hfind => ?_
    obtain ⟨hlevel, hobs⟩ := hnew f (mem_of_mem_filter hf)
    exact h.addBlobFile hfind hlevel hobs
  have hmark : (markIndexedObsolete added (c.deletedFiles.filter fun p => !c.adds p.1)).1.Agrees := by
    refine hadd.markIndexedObsolete ((filter_sublist.map _).nodup hdeleted) fun p hp => ?_
    obtain ⟨hmem, hadds⟩ := mem_filter.1 hp
    rcases hseal'.2 p hmem with hpaired | ⟨m, hm, hobs⟩
    · rw [hpaired] at hadds
      cases hadds
    · refine ⟨m, ?_, hobs⟩
      rw [toBlobStorage_foldl_addBlobFile, findFile_foldl_addBlobFile, hm]
      rfl
  have hst : (markIndexedObsolete added (c.deletedFiles.filter fun p => !c.adds p.1)).2 = .ok := by
    have hok := markFilesObsolete_of_sealed o.sepBeforeFlush hseal
    rwa [← toBlobStorage_foldl_addBlobFile, ← markIndexedObsolete_eq] at hok
  have happly : (c.applyIndexed s).1 = (c.updatedDiscardableSize.foldl (·.updateDiscardable ·)
      (markIndexedObsolete added (c.deletedFiles.filter fun p => !c.adds p.1)).1).computeGCScore := by
    unfold EditCollector.applyIndexed
    dsimp only
    split
    next heq => rw [heq]
    next hne heq =>
      rw [heq] at hst
      exact absurd hst hne
  rw [happly]
  exact (foldlRecOn c.updatedDiscardableSize _ hmark fun _ h d _ => h.updateDiscardable d).computeGCScore

theorem Consistent.step {e : Event} (h : s.Consistent) (he : e.Fits o) : (s.step e).Consistent := by
  cases e with
  | edits es =>
    simp only [IndexedStorage.step]
    split
    · exact h
    next c hc =>
      split
      next hseal =>
        obtain ⟨hadded, hdeleted, hmem⟩ := nodup_foldlM_addEdit hc
        refine h.applyIndexed hseal hadded hdeleted fun m hm => ?_
        obtain ⟨e, he', hme⟩ := hmem m hm
        exact he e he' m hme
      · exact h
  | getObsoleteFiles oldest => exact h.getObsoleteFiles oldest

/-- Through every sequence of edits and purges. -/
theorem consistent_run (es : List Event) (hes : ∀ e ∈ es, e.Fits o) :
    (es.foldl IndexedStorage.step (empty o)).Consistent :=
  foldlRecOn es _ consistent_empty fun _ h e he => h.step (hes e he)

end apply

end

/-- Two levels; ratios in hundredths. -/
def sampleOptions : IndexOptions Nat :=
  { Options.small true false with
    numLevels := 2, mergeSmallFileThreshold := 10, blobFileDiscardableRatio := 50,
    discardableRatio := fun m => m.discardableSize * 100 / m.fileSize }

instance sampleTrans : Std.TransCmp sampleOptions.comparator := inferInstanceAs (Std.TransOrd (List UInt8))

def sampleFile (n size level : Nat) (type : FileType) : BlobFileMeta :=
  ⟨n, size, 1, type, level, [1], [9], .pendingLSM, 0⟩

/-- Three files with one smallest key; the second is deleted and purged, the third only deleted. -/
def sampleEvents : List Event :=
  [.edits [.ofAdded [sampleFile 1 100 0 .sorted, sampleFile 2 200 1 .sorted], .ofAdded [sampleFile 3 300 0 .unSorted]],
    .edits [.ofDeleted [(2, 5)]], .edits [.ofDeleted [(3, 8)]], .getObsoleteFiles 6]

theorem consistent_run_sample :
    (∀ e ∈ sampleEvents, e.Fits sampleOptions) ∧
      (sampleEvents.foldl IndexedStorage.step (empty sampleOptions)).Consistent ∧
      (sampleEvents.foldl IndexedStorage.step (empty sampleOptions)).levelBlobSize = [100, 0, 0] ∧
      (sampleEvents.foldl IndexedStorage.step (empty sampleOptions)).blobRanges.entries = [([1], 1), ([1], 3)] := by
  have hfits : ∀ e ∈ sampleEvents, e.Fits sampleOptions := by
    simp [sampleEvents, Event.Fits, VersionEdit.ofAdded, VersionEdit.ofDeleted, sampleFile, sampleOptions,
      isObsolete]
  exact ⟨hfits, consistent_run sampleEvents hfits, by decide +kernel, by decide +kernel⟩

/-- Two files of 2^63 bytes count as nothing. -/
theorem levelBlobSize_wraps :
    let s := (empty sampleOptions).step
      (.edits [.ofAdded [sampleFile 1 (2 ^ 63) 0 .sorted, sampleFile 2 (2 ^ 63) 0 .sorted]])
    s.levelBlobSize = [0, 0, 0] ∧ blobSize sampleOptions s.files 0 = 2 ^ 64 := by
  decide +kernel

end IndexedStorage

end ValueSep.DiffKV
