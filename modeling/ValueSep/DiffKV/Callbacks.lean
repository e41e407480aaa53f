import Mathlib.Data.Int.ModEq
import ValueSep.DiffKV.ColumnFamilies
import ValueSep.DiffKV.SizeCollector

/-!
# What the base DB reports to the engine

`TitanDBImpl::OnFlushCompleted` and `OnCompactionCompleted`: the properties of the SSTs that came and went are turned
into changes of the blob files' discardable sizes, and a compaction may delete files. A property is what
`BlobFileSizeCollector` has written, or nothing when the SST has no blob index. The ratio tests (floating point) and
the choice of files by `MarkFileIfNeedMerge` are parameters.
-/

namespace ValueSep.DiffKV

open Coding
open List BlobFileSizeCollector BlobFileSets OrdMap

/-- `BlobFileMeta::NoLiveData`. -/
def BlobFileMeta.noLiveData (m : BlobFileMeta) : Bool :=
  m.discardableSize = u64 (m.fileSize - kBlobHeaderSize - kBlobFooterSize)

/-! ### Flush -/

structure FlushAcc where
  storage : BlobStorage
  delta : Nat
  /-- What has been subtracted from `LIVE_BLOB_SIZE`. -/
  subtracted : Nat

/-- What the flush adds to the discardable size of a file of which it has written `size` bytes. -/
def flushDiscardable (file : BlobFileMeta) (size : Nat) : Nat :=
  if file.discardableSize = 0 then u64 (file.fileSize - size - kBlobHeaderSize - kBlobFooterSize) else u64 (-size)

/-- One turn of the loop in `OnFlushCompleted`. -/
def FlushAcc.file (a : FlushAcc) (f : Nat × Nat) : FlushAcc :=
  match a.storage.findFile f.1 with
  | none => a
  | some file =>
    let discardable := flushDiscardable file f.2
    let delta := u64 (a.delta + discardable)
    { storage := a.storage.updateFile f.1 fun m =>
        (m.addDiscardableSize discardable).fileStateTransit .flushCompleted
      delta
      subtracted := u64 (a.subtracted + delta) }

/-- `OnFlushCompleted` for the property of the new SST. -/
def onFlushCompleted (property : Option Bytes) (s : BlobStorage) : BlobStorage :=
  match property with
  | none => s
  | some src => ((BlobFileSizeCollector.decode src).1.entries.foldl FlushAcc.file ⟨s, 0, 0⟩).storage

/-! ### Compaction -/

structure CompactionJobInfo where
  cfId : Nat
  ok : Bool
  inputFiles : List Nat
  outputFiles : List Nat
  /-- By name of the SST: its properties, if they are there, and in them the one of the collector. -/
  tableProperties : Nat → Option (Option Bytes)
  outputLevel : Nat

/-- Options and answers of the environment that only the callback reads. -/
structure CompactionEnv where
  latestSequenceNumber : SequenceNumber
  numLevels : Nat
  rangeMerge : Bool
  /-- The discardable ratio is above `blob_file_discardable_ratio`. -/
  needGC : BlobFileMeta → Bool
  /-- The files that `MarkFileIfNeedMerge` marks among those it is given. -/
  needMerge : List BlobFileMeta → List Nat
  manifest : ManifestFaults

structure SizeDiff where
  diff : OrdMap Nat Int
  inputs : OrdMap Nat Unit
  outputs : OrdMap Nat Unit

namespace SizeDiff

def empty : SizeDiff := ⟨.empty, .empty, .empty⟩

/-- One blob file of one SST in `calc_bfs`. -/
def add (coefficient : Int) (output : Bool) (a : SizeDiff) (p : Nat × Nat) : SizeDiff where
  diff := a.diff.alter p.1 fun size => i64 (size.getD 0 + coefficient * p.2)
  inputs := if output then a.inputs else a.inputs.alter p.1 fun _ => ()
  outputs :=
    if output then
      if (a.inputs.find? p.1).isSome then a.outputs else a.outputs.alter p.1 fun _ => ()
    else a.outputs

def addFile (info : CompactionJobInfo) (coefficient : Int) (output : Bool) (a : SizeDiff) (file : Nat) : SizeDiff :=
  match info.tableProperties file with
  | none => a
  | some none => a
  | some (some src) =>
    match BlobFileSizeCollector.decode src with
    | (sizes, true) => sizes.entries.foldl (add coefficient output) a
    | (_, false) => a

def calcBfs (info : CompactionJobInfo) (coefficient : Int) (output : Bool) (files : List Nat) (a : SizeDiff) :
    SizeDiff :=
  files.foldl (addFile info coefficient output) a

/-- The two calls of `calc_bfs`. -/
def ofCompaction (info : CompactionJobInfo) : SizeDiff :=
  calcBfs info 1 true info.outputFiles (calcBfs info (-1) false info.inputFiles .empty)

end SizeDiff

/-- The files the compaction has produced leave `kPendingLSM`; a missing one ends the callback. -/
def transitOutputs : BlobStorage → List Nat → BlobStorage × Bool
  | s, [] => (s, true)
  | s, n :: ns =>
    if (s.findFile n).isNone then (s, false)
    else transitOutputs (s.updateFile n (·.fileStateTransit .compactionCompleted)) ns

structure CompactionAcc where
  storage : BlobStorage
  delta : Nat
  edit : ColumnFamilyEdit
  /-- The files whose sorted runs are counted. -/
  files : List Nat

namespace CompactionAcc

/-- `files.emplace_back`, under the conditions for it. -/
def count (env : CompactionEnv) (countSortedRun : Bool) (file : BlobFileMeta) (a : CompactionAcc) : CompactionAcc :=
  if countSortedRun && decide (file.fileType = .sorted) && decide ((env.numLevels : Int) - 2 ≤ file.fileLevel) then
    { a with files := a.files ++ [file.fileNumber] }
  else a

/-- One turn of the loop over `blob_files_size_diff`. -/
def file (o : Options) (env : CompactionEnv) (countSortedRun : Bool) (a : CompactionAcc) (bfs : Nat × Int) :
    CompactionAcc :=
  if 0 ≤ bfs.2 then
    match a.storage.findFile bfs.1 with
    | none => a
    | some file => a.count env countSortedRun file
  else
    match a.storage.findFile bfs.1 with
    | none => a
    | some file =>
      let delta := if file.isObsolete then a.delta else u64 (a.delta - bfs.2)
      let file := file.addDiscardableSize (u64 (-bfs.2))
      let a := { a with storage := a.storage.updateFile bfs.1 (·.addDiscardableSize (u64 (-bfs.2))), delta }
      if o.levelMerge then
        if file.noLiveData && decide (file.fileType = .sorted) then
          { a with edit := { a.edit with
              deletedFiles := a.edit.deletedFiles ++ [(file.fileNumber, env.latestSequenceNumber)] } }
        else
          let storage :=
            if decide (file.fileType = .sorted) && env.needGC file then
              a.storage.updateFile bfs.1 (·.fileStateTransit .needGC)
            else a.storage
          ({ a with storage } : CompactionAcc).count env countSortedRun file
      else a

end CompactionAcc

/-- The accounting part of `OnCompactionCompleted`, under the mutex and before the manifest is written: the storage,
and unless the callback has returned the edit and the files for `MarkFileIfNeedMerge`. -/
def compactionAccounting (o : Options) (env : CompactionEnv) (info : CompactionJobInfo) (s : BlobStorage) :
    BlobStorage × Option CompactionAcc :=
  let d := SizeDiff.ofCompaction info
  match transitOutputs s d.outputs.keys with
  | (s, false) => (s, none)
  | (s, true) =>
    let countSortedRun := o.levelMerge && env.rangeMerge && decide ((env.numLevels : Int) - 2 ≤ info.outputLevel)
    let a := d.diff.entries.foldl (CompactionAcc.file o env countSortedRun) ⟨s, 0, .empty, []⟩
    (a.storage, some a)

/-- `MarkFileIfNeedMerge` on the files that are still there. -/
def markFileIfNeedMerge (env : CompactionEnv) (files : List Nat) (s : BlobStorage) : BlobStorage :=
  (env.needMerge (files.filterMap s.findFile)).foldl (fun s n => s.updateFile n (·.fileStateTransit .needMerge)) s

/-- `TitanDBImpl::OnCompactionCompleted`. The edit keeps the column family id of a new edit, whichever column family
the compaction was in, and the status of `LogAndApply` is not looked at. -/
def onCompactionCompleted (o : Options) (env : CompactionEnv) (info : CompactionJobInfo) (fs : BlobFileSets) :
    BlobFileSets :=
  if info.ok then
    match fs.getBlobStorage info.cfId with
    | none => fs
    | some s =>
      match compactionAccounting o env info s with
      | (s, none) => fs.setBlobStorage info.cfId s
      | (s, some a) =>
        let fs := fs.setBlobStorage info.cfId s
        if o.levelMerge then
          let fs := (fs.logAndApply o.sepBeforeFlush env.manifest a.edit).1
          match fs.getBlobStorage info.cfId with
          | none => fs
          | some s => fs.setBlobStorage info.cfId (markFileIfNeedMerge env a.files s)
        else fs
  else fs

/-! ### What the accounting sees of a file -/

namespace BlobStorage

/-- The persistent fields and the discardable size. -/
def account (s : BlobStorage) (n : Nat) : Option (BlobFileMeta × Nat) :=
  (s.findFile n).map fun m => (m.persisted, m.discardableSize)

variable {s : BlobStorage} {n k : Nat}

theorem account_updateFile_transit (k : Nat) (e : FileEvent) (n : Nat) :
    (s.updateFile k (·.fileStateTransit e)).account n = s.account n := by
  rw [account, findFile_updateFile (f := (·.fileStateTransit e)) fun _ => rfl, account]
  split
  · cases s.findFile n <;> rfl
  · rfl

theorem account_markFileObsolete (k n : Nat) (q : SequenceNumber) : (s.markFileObsolete k q).account n = s.account n := by
  rw [account, findFile_markFileObsolete, account]
  split
  · cases s.findFile n <;> rfl
  · rfl

end BlobStorage

open BlobStorage

variable {s : BlobStorage} {n : Nat}

theorem account_foldl_transit (e : FileEvent) (ns : List Nat) (s : BlobStorage) :
    (ns.foldl (fun s k => s.updateFile k (·.fileStateTransit e)) s).account n = s.account n :=
  Keyed.foldl_frame (g := (·.account n)) (fun _ _ => account_updateFile_transit ..) ns s

theorem account_transitOutputs (ns : List Nat) (s : BlobStorage) : (transitOutputs s ns).1.account n = s.account n := by
  induction ns generalizing s with
  | nil => rfl
  | cons k ns ih =>
    unfold transitOutputs
    split
    · rfl
    · rw [ih, account_updateFile_transit]

theorem transitOutputs_snd (ns : List Nat) (s : BlobStorage) :
    (transitOutputs s ns).2 = true ↔ ∀ k ∈ ns, (s.account k).isSome := by
  induction ns generalizing s with
  | nil => simp [transitOutputs]
  | cons k ns ih =>
    unfold transitOutputs
    split
    next hnone =>
      have hk : (s.account k).isSome = false := by simpa [account] using hnone
      simp [hk]
    next hsome =>
      have hk : (s.account k).isSome = true := by
        rw [account, Option.isSome_map]; simpa [Option.isSome_iff_ne_none] using hsome
      rw [ih, forall_mem_cons]
      simp only [account_updateFile_transit, hk, true_and]

/-! ### Flush -/

/-- The discardable size after a flush that has written `size` bytes of the file. -/
def flushedSize (m : BlobFileMeta) (d size : Nat) : Nat :=
  (d + if d = 0 then u64 (m.fileSize - size - kBlobHeaderSize - kBlobFooterSize) else u64 (-size)) % 2 ^ 64

theorem findFile_flushAcc_file (a : FlushAcc) (f : Nat × Nat) (n : Nat) :
    (a.file f).storage.findFile n = if n = f.1 then (a.storage.findFile n).map fun m =>
      (m.addDiscardableSize (flushDiscardable m f.2)).fileStateTransit .flushCompleted else a.storage.findFile n := by
  unfold FlushAcc.file
  split
  next hnone =>
    split
    next heq => rw [heq, hnone]; rfl
    · rfl
  next file hfile =>
    rw [findFile_updateFile (f := fun m : BlobFileMeta =>
      (m.addDiscardableSize (flushDiscardable file f.2)).fileStateTransit .flushCompleted) fun _ => rfl]
    split
    next heq => rw [heq, hfile]; rfl
    · rfl

theorem account_flushAcc_file (a : FlushAcc) (f : Nat × Nat) (n : Nat) :
    (a.file f).storage.account n =
      if n = f.1 then (a.storage.account n).map fun (m, d) => (m, flushedSize m d f.2) else a.storage.account n := by
  rw [account, findFile_flushAcc_file, account]
  split
  · cases a.storage.findFile n <;> rfl
  · rfl

theorem account_foldl_flushAcc {fs : List (Nat × Nat)} (hnodup : (fs.map Prod.fst).Nodup) (a : FlushAcc) (n : Nat) :
    (fs.foldl FlushAcc.file a).storage.account n = (findIn n fs).elim (a.storage.account n) fun size =>
      (a.storage.account n).map fun (m, d) => (m, flushedSize m d size) :=
  foldl_view (w := fun a => a.storage.account) (g := fun size => Option.map fun (m, d) =>
    (m, flushedSize m d size)) account_flushAcc_file hnodup a n

/-! ### The statistic of the live bytes -/

/-- What `OnFlushCompleted` subtracts from `LIVE_BLOB_SIZE`. -/
def liveBlobSizeDecrease (src : Bytes) (s : BlobStorage) : Nat :=
  ((BlobFileSizeCollector.decode src).1.entries.foldl FlushAcc.file ⟨s, 0, 0⟩).subtracted

def BlobStorage.discardableOf (s : BlobStorage) (n : Nat) : Nat := ((s.account n).map Prod.snd).getD 0

/-- `LIVE_BLOB_SIZE` falls by what the discardable sizes of the named files grow. -/
def CountsIncreases (src : Bytes) (s : BlobStorage) : Prop :=
  liveBlobSizeDecrease src s ≡ ((BlobFileSizeCollector.decode src).1.keys.map fun n =>
    ((onFlushCompleted (some src) s).discardableOf n - s.discardableOf n : Int)).sum [ZMOD 2 ^ 64]

/-- What the flush adds to the discardable sizes of the named files that are still there, in their order. -/
def flushIncreases (s : BlobStorage) (fs : List (Nat × Nat)) : List Nat :=
  fs.filterMap fun f => (s.findFile f.1).map (flushDiscardable · f.2)

/-- Each number once for every number behind it. -/
def repeatedLater : List Nat → Nat
  | [] => 0
  | d :: ds => ds.length * d + repeatedLater ds

theorem u64_modEq (x : Int) : u64 x ≡ x [ZMOD 2 ^ 64] := by
  unfold u64 Int.ModEq
  omega

theorem subtracted_foldl_flushAcc {fs : List (Nat × Nat)} (hnodup : (fs.map Prod.fst).Nodup) (a : FlushAcc) :
    (fs.foldl FlushAcc.file a).subtracted ≡ a.subtracted + (flushIncreases a.storage fs).length * a.delta +
      (flushIncreases a.storage fs).sum + repeatedLater (flushIncreases a.storage fs) [ZMOD 2 ^ 64] := by
  induction fs generalizing a with
  | nil => simp [flushIncreases, repeatedLater]
  | cons f fs ih =>
    rw [map_cons, nodup_cons] at hnodup
    have hrest : flushIncreases (a.file f).storage fs = flushIncreases a.storage fs := filterMap_congr fun g hg => by
      rw [findFile_flushAcc_file, if_neg (ne_of_mem_of_not_mem (mem_map_of_mem hg) hnodup.1)]
    have hrun := ih hnodup.2 (a.file f)
    rw [hrest] at hrun
    cases hfind : a.storage.findFile f.1 with
    | none => simpa [flushIncreases, FlushAcc.file, hfind] using hrun
    | some file =>
      have hcons : flushIncreases a.storage (f :: fs) = flushDiscardable file f.2 :: flushIncreases a.storage fs := by
        simp [flushIncreases, hfind]
      have hdelta := u64_modEq (a.delta + flushDiscardable file f.2)
      have hsub := (u64_modEq _).trans (hdelta.add_left a.subtracted)
      rw [foldl_cons, hcons, repeatedLater, length_cons]
      simp only [FlushAcc.file, hfind] at hrun ⊢
      refine hrun.trans ((((hsub.add (hdelta.mul_left _)).add_right _).add_right _).trans (congrArg (· % _) ?_))
      grind

theorem discardable_foldl_flushAcc {fs : List (Nat × Nat)} (hnodup : (fs.map Prod.fst).Nodup) (s : BlobStorage)
    {f : Nat × Nat} (hf : f ∈ fs) :
    (fs.foldl FlushAcc.file ⟨s, 0, 0⟩).storage.discardableOf f.1 ≡
      s.discardableOf f.1 + ((s.findFile f.1).map (flushDiscardable · f.2)).getD 0 [ZMOD 2 ^ 64] := by
  rw [discardableOf, account_foldl_flushAcc hnodup, (mem_findIn hnodup).1 hf, discardableOf, account]
  cases s.findFile f.1 with
  | none => rfl
  | some m => exact (Int.natCast_mod _ _).symm ▸ Int.mod_modEq ..

theorem sum_flushIncreases (s : BlobStorage) {fs gs : List (Nat × Nat)} (hnodup : (fs.map Prod.fst).Nodup)
    (hsub : gs ⊆ fs) :
    ((gs.map Prod.fst).map fun n =>
        ((fs.foldl FlushAcc.file ⟨s, 0, 0⟩).storage.discardableOf n - s.discardableOf n : Int)).sum ≡
      (flushIncreases s gs).sum [ZMOD 2 ^ 64] := by
  induction gs with
  | nil => rfl
  | cons f gs ih =>
    rw [cons_subset] at hsub
    have hf := ((discardable_foldl_flushAcc hnodup s hsub.1).sub_right (s.discardableOf f.1)).add (ih hsub.2)
    refine hf.trans (congrArg (· % _) ?_)
    cases h : s.findFile f.1 <;> simp [flushIncreases, h]

/-- The running total is subtracted in every turn, so an increase is counted again for every file behind it. -/
theorem countsIncreases_iff (src : Bytes) (s : BlobStorage) :
    CountsIncreases src s ↔
      2 ^ 64 ∣ repeatedLater (flushIncreases s (decode src).1.entries) := by
  have hnodup := nodup_keys (decode src).1
  have hsub := subtracted_foldl_flushAcc hnodup ⟨s, 0, 0⟩
  have hsum := sum_flushIncreases s hnodup fun _ h => h
  refine Iff.trans ⟨(·.trans hsum), (·.trans hsum.symm)⟩ ?_
  dsimp only at hsub
  unfold liveBlobSizeDecrease Int.ModEq at *
  omega

theorem not_countsIncreases_two_files :
    let file n : BlobFileMeta := ⟨n, 140, 1, .unSorted, 0, [1], [1], .pendingLSM, 0⟩
    ¬ CountsIncreases [2, 1, 90, 2, 90] ⟨[file 1, file 2], [], []⟩ := by
  unfold CountsIncreases
  decide +kernel

/-- The properties of an SST with these blob indexes. -/
def propertyOf (refs : List BlobIndex) : Option Bytes :=
  let sizes := BlobFileSizeCollector.collect refs
  if sizes.entries = [] then none else some (BlobFileSizeCollector.encode sizes)

/-- What the format of the property can hold. -/
structure Collectable (refs : List BlobIndex) : Prop where
  files : (BlobFileSizeCollector.collect refs).entries.length < 2 ^ 32
  numbers : ∀ i ∈ refs, i.fileNumber < 2 ^ 64

variable {refs : List BlobIndex}

theorem decode_propertyOf (h : Collectable refs) :
    decode (encode (collect refs)) =
      (collect refs, true) := by
  refine decode_encode h.files ?_
  rintro ⟨k, size⟩ hmem
  have hfind := (mem_entries _).1 hmem
  rw [find?_collect] at hfind
  split at hfind
  · cases hfind
  next hsome =>
    cases hfind
    simp only [not_forall, not_not] at hsome
    obtain ⟨i, hi, rfl⟩ := hsome
    refine ⟨h.numbers i hi, ?_⟩
    exact u64_lt (bytesOf i.fileNumber refs)

theorem entries_collect_eq_nil : (collect refs).entries = [] ↔ refs = [] := by
  constructor
  · intro hnil
    by_contra hne
    obtain ⟨i, hi⟩ := exists_mem_of_ne_nil _ hne
    have hfind := find?_collect refs i.fileNumber
    rw [if_neg fun h => h i hi rfl, OrdMap.find?, hnil] at hfind
    cases hfind
  · rintro rfl; rfl

theorem account_onFlushCompleted (h : Collectable refs) (s : BlobStorage) (n : Nat) :
    (onFlushCompleted (propertyOf refs) s).account n = if ∀ i ∈ refs, i.fileNumber ≠ n then s.account n
      else (s.account n).map fun (m, d) => (m, flushedSize m d (u64 (bytesOf n (refs : Multiset BlobIndex)))) := by
  unfold onFlushCompleted propertyOf
  dsimp only
  split
  next hnone =>
    split at hnone
    next hnil => rw [entries_collect_eq_nil.1 hnil]; simp
    · cases hnone
  next src hsrc =>
    split at hsrc
    · cases hsrc
    · cases hsrc
      rw [decode_propertyOf h, account_foldl_flushAcc (nodup_keys _), ← OrdMap.find?,
        find?_collect]
      split <;> rfl

/-! ### Compaction -/

/-- Some of the references are into file `n`. -/
def Names (refs : Multiset BlobIndex) (n : Nat) : Prop := ∃ i ∈ refs, i.fileNumber = n

instance (refs : Multiset BlobIndex) (n : Nat) : Decidable (Names refs n) := Multiset.decidableExistsMultiset

@[simp] theorem not_names_zero (n : Nat) : ¬ Names 0 n := by simp [Names]

@[simp] theorem names_add {r t : Multiset BlobIndex} : Names (r + t) n ↔ Names r n ∨ Names t n := by
  simp [Names, or_and_right, exists_or]

theorem names_coe : Names (refs : Multiset BlobIndex) n ↔ ¬ ∀ i ∈ refs, i.fileNumber ≠ n := by
  simp [Names]

theorem bytesOf_eq_zero_of_not_names {r : Multiset BlobIndex} (h : ¬ Names r n) : bytesOf n r = 0 :=
  bytesOf_eq_zero fun i hi hn => h ⟨i, hi, hn⟩

/-- The SSTs of the compaction, by name, with the blob indexes in them; their properties are all there. -/
structure CompactionJobInfo.Complete (info : CompactionJobInfo) (refsOf : Nat → List BlobIndex) : Prop where
  inputs : ∀ f ∈ info.inputFiles, info.tableProperties f = some (propertyOf (refsOf f)) ∧ Collectable (refsOf f)
  outputs : ∀ f ∈ info.outputFiles, info.tableProperties f = some (propertyOf (refsOf f)) ∧ Collectable (refsOf f)

/-- All references of the SSTs with these names. -/
def refsIn (refsOf : Nat → List BlobIndex) (files : List Nat) : Multiset BlobIndex :=
  (files.map fun f => (refsOf f : Multiset BlobIndex)).sum

@[simp] theorem refsIn_nil (refsOf : Nat → List BlobIndex) : refsIn refsOf [] = 0 := rfl

@[simp] theorem refsIn_cons (refsOf : Nat → List BlobIndex) (f : Nat) (files : List Nat) :
    refsIn refsOf (f :: files) = (refsOf f) + refsIn refsOf files := by simp [refsIn]

namespace SizeDiff

variable {c : Int} {output : Bool} {info : CompactionJobInfo} {refsOf : Nat → List BlobIndex}

theorem i64_add_mul (x c : Int) (y : Nat) : i64 (i64 x + c * u64 y) = i64 (x + c * y) := by
  have hx : i64 x ≡ x [ZMOD 2 ^ 64] := by
    unfold i64 Int.ModEq
    omega
  have hsum : i64 x + c * u64 y ≡ x + c * y [ZMOD 2 ^ 64] := hx.add ((u64_modEq y).mul_left c)
  unfold Int.ModEq at hsum
  unfold i64
  unfold i64 at hsum
  omega

theorem diff_foldl_add {es : List (Nat × Nat)} (hnodup : (es.map Prod.fst).Nodup) (a : SizeDiff) :
    (es.foldl (add c output) a).diff.find? n = (findIn n es).elim (a.diff.find? n) fun size =>
      some (i64 ((a.diff.find? n).getD 0 + c * size)) :=
  foldl_view (w := fun a => a.diff.find?) (g := fun (size : Nat) d => some (i64 (d.getD 0 + c * size)))
    (fun _ p k => by by_cases h : k = p.1 <;> simp [add, find?_alter, h]) hnodup a n

theorem diff_addFile {f : Nat} (hprop : info.tableProperties f = some (propertyOf (refsOf f)))
    (hcoll : Collectable (refsOf f)) (a : SizeDiff) :
    (addFile info c output a f).diff.find? n =
      if Names (refsOf f : Multiset BlobIndex) n then
        some (i64 ((a.diff.find? n).getD 0 + c * u64 (bytesOf n (refsOf f : Multiset BlobIndex))))
      else a.diff.find? n := by
  unfold addFile
  rw [hprop]
  unfold propertyOf
  by_cases hnil : (collect (refsOf f)).entries = []
  · rw [if_pos hnil, entries_collect_eq_nil.1 hnil]
    simp
  · rw [if_neg hnil]
    simp only [decode_propertyOf hcoll]
    rw [diff_foldl_add (nodup_keys _), ← OrdMap.find?, find?_collect]
    simp only [names_coe]
    split <;> rfl

theorem diff_calcBfs {files : List Nat} (h : ∀ f ∈ files, info.tableProperties f = some (propertyOf (refsOf f)) ∧
    Collectable (refsOf f)) {x : Int} (a : SizeDiff)
    (ha : a.diff.find? n = none ∧ x = 0 ∨ a.diff.find? n = some (i64 x)) :
    (calcBfs info c output files a).diff.find? n =
      if Names (refsIn refsOf files) n then some (i64 (x + c * bytesOf n (refsIn refsOf files)))
      else a.diff.find? n := by
  induction files generalizing a x with
  | nil => simp [calcBfs]
  | cons f files ih =>
    have hf := h f (mem_cons_self ..)
    have hrest := fun f' hf' => h f' (mem_cons_of_mem _ hf')
    have hget : i64 ((a.diff.find? n).getD 0 + c * u64 (bytesOf n (refsOf f))) =
        i64 (x + c * bytesOf n (refsOf f)) := by
      have hzero : i64 0 = 0 := rfl
      rcases ha with ⟨hnone, rfl⟩ | hsome
      · rw [hnone, ← i64_add_mul 0, hzero]; rfl
      · rw [hsome, Option.getD_some, i64_add_mul]
    have hstep : (addFile info c output a f).diff.find? n = _ := diff_addFile hf.1 hf.2 a
    change (calcBfs info c output files (addFile info c output a f)).diff.find? n = _
    rw [refsIn_cons, bytesOf_add]
    by_cases hnf : Names (refsOf f) n
    · rw [if_pos hnf, hget] at hstep
      rw [ih hrest _ (.inr hstep), hstep, if_pos (names_add.2 (.inl hnf))]
      split
      · push_cast; rw [mul_add, add_assoc]
      next hnone => rw [bytesOf_eq_zero_of_not_names hnone]; simp
    · rw [if_neg hnf] at hstep
      rw [ih hrest _ (by rw [hstep]; exact ha), hstep, bytesOf_eq_zero_of_not_names hnf]
      simp [hnf]

theorem sets_foldl_add (es : List (Nat × Nat)) (a : SizeDiff) (n : Nat) :
    (((es.foldl (add c output) a).inputs.find? n).isSome ↔
        (a.inputs.find? n).isSome ∨ output = false ∧ n ∈ es.map Prod.fst) ∧
      (((es.foldl (add c output) a).outputs.find? n).isSome ↔ (a.outputs.find? n).isSome ∨
          output = true ∧ (a.inputs.find? n).isSome = false ∧ n ∈ es.map Prod.fst) := by
  induction es generalizing a with
  | nil => simp
  | cons p es ih =>
    obtain ⟨k, size⟩ := p
    rw [foldl_cons]
    obtain ⟨ihin, ihout⟩ := ih (add c output a (k, size))
    rw [ihin, ihout]
    cases output with
    | false =>
      simp only [add, Bool.false_eq_true, if_false, false_and, or_false, true_and, find?_alter, map_cons,
        mem_cons, and_true]
      by_cases hn : n = k <;> simp [hn]
    | true =>
      simp only [add, Bool.true_eq_false, map_cons]
      by_cases hn : n = k
      · subst hn
        by_cases hin : (a.inputs.find? n).isSome = true <;> simp [hin]
      · by_cases hin : (a.inputs.find? k).isSome = true <;> simp [hin, hn, find?_alter_of_ne _ _ hn]

theorem mem_keys_collect {refs : List BlobIndex} :
    n ∈ (collect refs).entries.map Prod.fst ↔ Names (refs : Multiset BlobIndex) n := by
  change n ∈ (collect refs).keys ↔ _
  rw [OrdMap.mem_keys, find?_collect, names_coe]
  split
  next h => simpa using h
  next h => simp only [Option.isSome_some, true_iff]; exact h

theorem addFile_eq {f : Nat} (hprop : info.tableProperties f = some (propertyOf (refsOf f)))
    (hcoll : Collectable (refsOf f)) (a : SizeDiff) :
    addFile info c output a f = (collect (refsOf f)).entries.foldl (add c output) a := by
  unfold addFile
  rw [hprop]
  unfold propertyOf
  by_cases hnil : (collect (refsOf f)).entries = []
  · rw [if_pos hnil, hnil]; rfl
  · rw [if_neg hnil]
    simp only [decode_propertyOf hcoll]

theorem sets_calcBfs {files : List Nat} (h : ∀ f ∈ files, info.tableProperties f = some (propertyOf (refsOf f)) ∧
    Collectable (refsOf f)) (a : SizeDiff) (n : Nat) :
    (((calcBfs info c output files a).inputs.find? n).isSome ↔
        (a.inputs.find? n).isSome ∨ output = false ∧ Names (refsIn refsOf files) n) ∧
      (((calcBfs info c output files a).outputs.find? n).isSome ↔ (a.outputs.find? n).isSome ∨
          output = true ∧ (a.inputs.find? n).isSome = false ∧ Names (refsIn refsOf files) n) := by
  induction files generalizing a with
  | nil => simp [calcBfs]
  | cons f files ih =>
    have hf := h f (mem_cons_self ..)
    obtain ⟨ihin, ihout⟩ := ih (fun f' hf' => h f' (mem_cons_of_mem _ hf')) (addFile info c output a f)
    obtain ⟨hin, hout⟩ := sets_foldl_add (collect (refsOf f)).entries a n
    rw [← addFile_eq hf.1 hf.2, mem_keys_collect] at hin hout
    change (((calcBfs info c output files (addFile info c output a f)).inputs.find? n).isSome ↔ _) ∧
      (((calcBfs info c output files (addFile info c output a f)).outputs.find? n).isSome ↔ _)
    rw [ihin, ihout, hin, hout, refsIn_cons, names_add]
    cases output with
    | false => simp [or_assoc]
    | true =>
      have hin' : ((addFile info c true a f).inputs.find? n).isSome = (a.inputs.find? n).isSome := by
        rw [Bool.eq_iff_iff, hin]; simp
      simp only [hin', Bool.true_eq_false, false_and, or_false, true_and]
      rw [or_assoc, ← and_or_left]

theorem mem_outputs (h : info.Complete refsOf) :
    n ∈ (ofCompaction info).outputs.keys ↔
      Names (refsIn refsOf info.outputFiles) n ∧ ¬ Names (refsIn refsOf info.inputFiles) n := by
  have hin : (((calcBfs info (-1) false info.inputFiles .empty).inputs.find? n).isSome ↔ _) ∧
      (((calcBfs info (-1) false info.inputFiles .empty).outputs.find? n).isSome ↔ _) :=
    sets_calcBfs h.inputs .empty n
  have hout : (((ofCompaction info).inputs.find? n).isSome ↔ _) ∧ (((ofCompaction info).outputs.find? n).isSome ↔ _) :=
    sets_calcBfs h.outputs (calcBfs info (-1) false info.inputFiles .empty) n
  rw [OrdMap.mem_keys, hout.2, hin.2]
  have hnot : ((calcBfs info (-1) false info.inputFiles .empty).inputs.find? n).isSome = false ↔
      ¬ Names (refsIn refsOf info.inputFiles) n := by
    rw [← Bool.not_eq_true, hin.1]
    simp [SizeDiff.empty]
  rw [hnot]
  simp [SizeDiff.empty, and_comm]

theorem diff_ofCompaction (h : info.Complete refsOf) (n : Nat) :
    (ofCompaction info).diff.find? n =
      if Names (refsIn refsOf info.inputFiles + refsIn refsOf info.outputFiles) n then
        some (i64 (bytesOf n (refsIn refsOf info.outputFiles) - bytesOf n (refsIn refsOf info.inputFiles)))
      else none := by
  have hin : (calcBfs info (-1) false info.inputFiles .empty).diff.find? n = _ :=
    diff_calcBfs h.inputs .empty (.inl ⟨rfl, rfl⟩)
  unfold ofCompaction
  by_cases hni : Names (refsIn refsOf info.inputFiles) n
  · rw [if_pos hni] at hin
    rw [diff_calcBfs h.outputs _ (.inr hin), hin, if_pos (names_add.2 (.inl hni))]
    split
    · congr 2; omega
    next hno => rw [bytesOf_eq_zero_of_not_names hno]; congr 2; omega
  · rw [if_neg hni] at hin
    have hempty : (empty.diff.find? n) = none := rfl
    rw [hempty] at hin
    rw [diff_calcBfs h.outputs _ (.inl ⟨hin, rfl⟩), hin, bytesOf_eq_zero_of_not_names hni]
    by_cases hno : Names (refsIn refsOf info.outputFiles) n
    · rw [if_pos hno, if_pos (names_add.2 (.inr hno))]
      congr 2; omega
    · rw [if_neg hno, if_neg fun h => (names_add.1 h).elim hni hno]

end SizeDiff

/-- The discardable size after a change of `diff` in the bytes referred to. -/
def compactedSize (d : Nat) (diff : Int) : Nat := if 0 ≤ diff then d else (d + u64 (-diff)) % 2 ^ 64

namespace CompactionAcc

variable {o : Options} {env : CompactionEnv} {countSortedRun : Bool}

@[simp] theorem storage_count (file : BlobFileMeta) (a : CompactionAcc) :
    (a.count env countSortedRun file).storage = a.storage := by unfold count; split <;> rfl

@[simp] theorem edit_count (file : BlobFileMeta) (a : CompactionAcc) :
    (a.count env countSortedRun file).edit = a.edit := by unfold count; split <;> rfl

theorem account_updateFile_addDiscardableSize (k d n : Nat) :
    (s.updateFile k (·.addDiscardableSize d)).account n =
      if n = k then (s.account n).map fun (m, d₀) => (m, (d₀ + d) % 2 ^ 64) else s.account n := by
  rw [account, findFile_updateFile (f := (·.addDiscardableSize d)) fun _ => rfl]
  split
  next h => rw [h, account]; cases s.findFile k <;> rfl
  · rfl

/-- What a turn of the loop can do to the storage. -/
theorem file_rule {P : BlobStorage → Prop} {a : CompactionAcc} {bfs : Nat × Int}
    (hsame : 0 ≤ bfs.2 ∨ a.storage.findFile bfs.1 = none → P a.storage)
    (hadd : ¬ 0 ≤ bfs.2 → P (a.storage.updateFile bfs.1 (·.addDiscardableSize (u64 (-bfs.2)))))
    (hgc : ∀ s, P s → P (s.updateFile bfs.1 (·.fileStateTransit .needGC))) :
    P (a.file o env countSortedRun bfs).storage := by
  unfold file
  split
  next hpos =>
    split
    · exact hsame (.inl hpos)
    · rw [storage_count]
      exact hsame (.inl hpos)
  next hneg =>
    split
    next hnone => exact hsame (.inr hnone)
    · dsimp only
      split
      · split
        · exact hadd hneg
        · rw [storage_count]
          split
          · exact hgc _ (hadd hneg)
          · exact hadd hneg
      · exact hadd hneg

theorem account_file (a : CompactionAcc) (k : Nat) (diff : Int) (n : Nat) :
    (a.file o env countSortedRun (k, diff)).storage.account n =
      if n = k then (a.storage.account n).map fun (m, d) => (m, compactedSize d diff) else a.storage.account n := by
  refine file_rule (P := fun s => s.account n = _) (fun hsame => ?_) (fun hneg => ?_) fun s h => ?_
  · rcases hsame with hpos | hnone
    · simp [compactedSize, hpos]
    · split
      next h => rw [h, account, hnone]; rfl
      · rfl
  · rw [account_updateFile_addDiscardableSize]
    simp only [compactedSize, if_neg hneg]
  · rw [account_updateFile_transit, h]

theorem account_foldl_file {es : List (Nat × Int)} (hnodup : (es.map Prod.fst).Nodup) (a : CompactionAcc) (n : Nat) :
    (es.foldl (file o env countSortedRun) a).storage.account n = (findIn n es).elim
      (a.storage.account n) fun diff => (a.storage.account n).map fun (m, d) => (m, compactedSize d diff) :=
  foldl_view (w := fun a => a.storage.account) (g := fun diff => Option.map fun (m, d) =>
    (m, compactedSize d diff)) (fun a p => account_file a p.1 p.2) hnodup a n

/-- A file for the edit: it has no live data after its change has been added. -/
theorem deletedFiles_file (a : CompactionAcc) (k : Nat) (diff : Int) (p : Nat × SequenceNumber)
    (hp : p ∈ (a.file o env countSortedRun (k, diff)).edit.deletedFiles) :
    p ∈ a.edit.deletedFiles ∨ p.1 = k ∧ ∃ m d, (a.file o env countSortedRun (k, diff)).storage.account k = some (m, d) ∧
      m.fileType = .sorted ∧ d = u64 (m.fileSize - kBlobHeaderSize - kBlobFooterSize) := by
  have haccount : (a.file o env countSortedRun (k, diff)).storage.account k = _ := account_file a k diff k
  unfold file at hp
  by_cases hpos : 0 ≤ diff
  · simp only [hpos, if_true] at hp
    split at hp
    · exact .inl hp
    · rw [edit_count] at hp; exact .inl hp
  · simp only [hpos, if_false] at hp
    split at hp
    · exact .inl hp
    next file hfile =>
      split at hp
      · split at hp
        next hdead =>
          rcases mem_append.1 hp with hp | hp
          · exact .inl hp
          · obtain rfl := mem_singleton.1 hp
            have hnum := fileNumber_of_findFile hfile
            simp only [Bool.and_eq_true, decide_eq_true_eq] at hdead
            refine .inr ⟨hnum, file.persisted, compactedSize file.discardableSize diff, ?_, hdead.2, ?_⟩
            · rw [haccount, if_pos rfl, account, hfile]; rfl
            · rw [compactedSize, if_neg hpos]
              exact of_decide_eq_true hdead.1
        · rw [edit_count] at hp; exact .inl hp
      · exact .inl hp

theorem deletedFiles_foldl {es : List (Nat × Int)} (hnodup : (es.map Prod.fst).Nodup) (a : CompactionAcc)
    (p : Nat × SequenceNumber) (hp : p ∈ (es.foldl (file o env countSortedRun) a).edit.deletedFiles) :
    p ∈ a.edit.deletedFiles ∨
      ∃ m d, (es.foldl (file o env countSortedRun) a).storage.account p.1 = some (m, d) ∧
        m.fileType = .sorted ∧ d = u64 (m.fileSize - kBlobHeaderSize - kBlobFooterSize) := by
  induction es generalizing a with
  | nil => exact .inl hp
  | cons q es ih =>
    obtain ⟨k, diff⟩ := q
    rw [map_cons, nodup_cons] at hnodup
    rw [foldl_cons] at hp ⊢
    rcases ih hnodup.2 _ hp with hp | hp
    · rcases deletedFiles_file a k diff p hp with hp | ⟨hk, m, d, hacc, hrest⟩
      · exact .inl hp
      · -- the turns after this one are about other files
        refine .inr ⟨m, d, ?_, hrest⟩
        rw [account_foldl_file hnodup.2, hk, findIn_eq_none hnodup.1]
        exact hacc
    · exact .inr hp

theorem edit_file (a : CompactionAcc) (p : Nat × Int) :
    ∃ ds, (a.file o env countSortedRun p).edit = { a.edit with deletedFiles := a.edit.deletedFiles ++ ds } := by
  unfold file
  split
  · split
    · exact ⟨[], by simp⟩
    · exact ⟨[], by simp⟩
  · split
    · exact ⟨[], by simp⟩
    · dsimp only
      split
      · split
        · exact ⟨_, rfl⟩
        · exact ⟨[], by simp⟩
      · exact ⟨[], by simp⟩

/-- The edit of the loop only deletes files, and keeps the column family of a new edit. -/
theorem edit_foldl (es : List (Nat × Int)) (a : CompactionAcc) :
    ∃ ds, (es.foldl (file o env countSortedRun) a).edit =
      { a.edit with deletedFiles := a.edit.deletedFiles ++ ds } := by
  induction es generalizing a with
  | nil => exact ⟨[], by simp⟩
  | cons p es ih =>
    obtain ⟨ds, hds⟩ := edit_file a p
    obtain ⟨ds', hds'⟩ := ih (a.file o env countSortedRun p)
    refine ⟨ds ++ ds', ?_⟩
    rw [foldl_cons, hds', hds]
    simp

end CompactionAcc

section

variable {o : Options} {env : CompactionEnv} {info : CompactionJobInfo} {refsOf : Nat → List BlobIndex}

/-- The callback goes on to the accounting when every file that only the outputs name is registered. -/
def CompactionJobInfo.OutputsRegistered (info : CompactionJobInfo) (refsOf : Nat → List BlobIndex) (s : BlobStorage) :
    Prop :=
  ∀ k, Names (refsIn refsOf info.outputFiles) k → ¬ Names (refsIn refsOf info.inputFiles) k → (s.account k).isSome

theorem compactionAccounting_cases (h : info.Complete refsOf) (s : BlobStorage) :
    (¬ info.OutputsRegistered refsOf s ∧ (compactionAccounting o env info s).2 = none ∧
        ∀ n, (compactionAccounting o env info s).1.account n = s.account n) ∨
      info.OutputsRegistered refsOf s ∧ ∃ a, compactionAccounting o env info s = (a.storage, some a) ∧
        (∃ ds, a.edit = { ColumnFamilyEdit.empty with deletedFiles := ds }) ∧
        (∀ n, a.storage.account n =
          if Names (refsIn refsOf info.inputFiles + refsIn refsOf info.outputFiles) n then
            (s.account n).map fun (m, d) => (m, compactedSize d
              (i64 (bytesOf n (refsIn refsOf info.outputFiles) - bytesOf n (refsIn refsOf info.inputFiles))))
          else s.account n) ∧
        ∀ p ∈ a.edit.deletedFiles, ∃ m d, a.storage.account p.1 = some (m, d) ∧ m.fileType = .sorted ∧
          d = u64 (m.fileSize - kBlobHeaderSize - kBlobFooterSize) := by
  have hreg : (transitOutputs s (SizeDiff.ofCompaction info).outputs.keys).2 = true ↔
      info.OutputsRegistered refsOf s := by
    rw [transitOutputs_snd]
    simp only [SizeDiff.mem_outputs h, and_imp, CompactionJobInfo.OutputsRegistered]
  have hsame := fun n => account_transitOutputs (n := n) (SizeDiff.ofCompaction info).outputs.keys s
  unfold compactionAccounting
  dsimp only
  cases htr : transitOutputs s (SizeDiff.ofCompaction info).outputs.keys with
  | mk s' found =>
    rw [htr] at hreg hsame
    cases found with
    | false => exact .inl ⟨fun hr => Bool.false_ne_true (hreg.2 hr), rfl, hsame⟩
    | true =>
      refine .inr ⟨hreg.1 rfl, _, rfl, ?_, ?_, ?_⟩
      · obtain ⟨ds, hds⟩ := CompactionAcc.edit_foldl (SizeDiff.ofCompaction info).diff.entries
          ⟨s', 0, .empty, []⟩
        exact ⟨ds, hds⟩
      · intro n
        rw [CompactionAcc.account_foldl_file (nodup_keys _), ← OrdMap.find?, SizeDiff.diff_ofCompaction h,
          ← hsame n]
        split <;> rfl
      · intro p hp
        rcases CompactionAcc.deletedFiles_foldl (nodup_keys _) _ p hp with hp | hp
        · cases hp
        · exact hp

end

/-! ### The edit of a compaction -/

def BlobFileSets.account (fs : BlobFileSets) (cf n : Nat) : Option (BlobFileMeta × Nat) :=
  (fs.getBlobStorage cf).bind (·.account n)

theorem account_markFilesObsolete (ps : List (Nat × SequenceNumber)) (s : BlobStorage) :
    (EditCollector.markFilesObsolete s ps).1.account n = s.account n := by
  induction ps generalizing s with
  | nil => rfl
  | cons p ps ih =>
    unfold EditCollector.markFilesObsolete
    split
    · rfl
    · rw [ih, account_markFileObsolete]

theorem account_apply {c : EditCollector} {sep : Bool} (ha : c.addedFiles = []) (hu : c.updatedDiscardableSize = [])
    (s : BlobStorage) : (c.apply sep s).1.account n = s.account n := by
  have hmark := account_markFilesObsolete (n := n) (c.deletedFiles.filter fun p => !c.adds p.1) s
  unfold EditCollector.apply
  rw [ha, hu]
  simp only [filter_nil, foldl_nil]
  cases hm : EditCollector.markFilesObsolete s (c.deletedFiles.filter fun p => !c.adds p.1) with
  | mk s' st => rw [hm] at hmark; cases st <;> exact hmark

theorem BlobFileSets.account_setBlobStorage (fs : BlobFileSets) (cf cf' n : Nat) (s : BlobStorage) :
    (fs.setBlobStorage cf s).account cf' n = if cf' = cf then s.account n else fs.account cf' n := by
  unfold account getBlobStorage setBlobStorage
  rw [find?_alter]
  split <;> rfl

theorem BlobFileSets.account_logAndApply {fs : BlobFileSets} {e : ColumnFamilyEdit} {sep : Bool} {f : ManifestFaults}
    (ha : e.addedFiles = []) (hu : e.updatedDiscardableSize = []) (cf : Nat) :
    (fs.logAndApply sep f e).1.account cf n = fs.account cf n := by
  have hcases : (fs.logAndApply sep f e).1.getBlobStorage cf = _ ∨ _ := getBlobStorage_logAndApply cf
  rcases hcases with hsame | ⟨-, -, happly⟩
  · rw [account, hsame]; rfl
  · rw [account, happly, account]
    cases fs.getBlobStorage cf with
    | none => rfl
    | some s => exact account_apply ha (by simp [VersionEdit.collector, hu]) s

/-- What the accounting part, an edit that only deletes and the marks for a merge each keep, the callback keeps. -/
theorem onCompactionCompleted_rule {o : Options} {env : CompactionEnv} {info : CompactionJobInfo} {fs : BlobFileSets}
    {P : BlobFileSets → Prop} (hstart : P fs) (hacc : ∀ s, info.ok = true → fs.getBlobStorage info.cfId = some s →
      P (fs.setBlobStorage info.cfId (compactionAccounting o env info s).1))
    (hlog : ∀ fs' e, P fs' → e.addedFiles = [] → P (fs'.logAndApply o.sepBeforeFlush env.manifest e).1)
    (hmark : ∀ fs' s files, P fs' → fs'.getBlobStorage info.cfId = some s →
      P (fs'.setBlobStorage info.cfId (markFileIfNeedMerge env files s))) : P (onCompactionCompleted o env info fs) := by
  unfold onCompactionCompleted
  split
  next hok =>
    split
    · exact hstart
    next s hs =>
      have hfs := hacc s hok hs
      have hadded : ∀ a ∈ (compactionAccounting o env info s).2, a.edit.addedFiles = [] := by
        unfold compactionAccounting
        dsimp only
        split
        · exact nofun
        · rintro a ⟨⟩
          obtain ⟨ds, hds⟩ := CompactionAcc.edit_foldl (SizeDiff.ofCompaction info).diff.entries ⟨_, 0, .empty, []⟩
          rw [hds]
          rfl
      rcases hc : compactionAccounting o env info s with ⟨s₁, _ | a⟩ <;> rw [hc] at hfs hadded
      · exact hfs
      · dsimp only
        split
        · split
          · exact hlog _ _ hfs (hadded a rfl)
          · exact hmark _ _ _ (hlog _ _ hfs (hadded a rfl)) ‹_›
        · exact hfs
  · exact hstart

theorem account_onCompactionCompleted {o : Options} {env : CompactionEnv} {info : CompactionJobInfo}
    {refsOf : Nat → List BlobIndex} {fs : BlobFileSets} (h : info.Complete refsOf) (hok : info.ok = true)
    (hs : fs.getBlobStorage info.cfId = some s) :
    (onCompactionCompleted o env info fs).account info.cfId n = (compactionAccounting o env info s).1.account n := by
  unfold onCompactionCompleted
  rw [if_pos hok, hs]
  dsimp only
  rcases compactionAccounting_cases h s with ⟨-, hnone, -⟩ | ⟨-, a, ha, ⟨ds, hds⟩, -⟩
  · cases hc : compactionAccounting o env info s with
    | mk s' a =>
      rw [hc] at hnone
      subst hnone
      rw [account_setBlobStorage, if_pos rfl]
  · rw [ha]
    dsimp only
    have hset : (fs.setBlobStorage info.cfId a.storage).account info.cfId n = a.storage.account n := by
      rw [account_setBlobStorage, if_pos rfl]
    split
    · have hlog : ((fs.setBlobStorage info.cfId a.storage).logAndApply o.sepBeforeFlush env.manifest a.edit).1.account
          info.cfId n = a.storage.account n := by
        rw [account_logAndApply (by rw [hds]; rfl) (by rw [hds]; rfl)]
        exact hset
      split
      · exact hlog
      next s' hs' =>
        rw [account_setBlobStorage, if_pos rfl, markFileIfNeedMerge, account_foldl_transit, ← hlog]
        unfold BlobFileSets.account
        rw [hs']
        rfl
    · exact hset

end ValueSep.DiffKV
