import ValueSep.DiffKV.Callbacks
import ValueSep.DiffKV.Recover

/-!
# The files a compaction deletes

With `level_merge` on, `OnCompactionCompleted` puts every sorted file that its accounting leaves without live data
into one edit. The edit is accepted or rejected as a whole: one file in it that is obsolete already, and still waits
for the purge, keeps all the others. It also names column family 0 whatever the family of the compaction, and is not
written at all when a file of the outputs is not registered.
-/

namespace ValueSep.DiffKV

open BlobStorage
open List Option OrdMap SizeDiff BlobFileMeta CompactionAcc

/-! ### Which files are obsolete -/

theorem BlobFileMeta.isObsolete_needGC (m : BlobFileMeta) : (m.fileStateTransit .needGC).isObsolete = m.isObsolete := by
  by_cases h : m.state = .obsolete <;> simp [isObsolete, fileStateTransit, FileState.transit, h]

theorem BlobFileMeta.isObsolete_needMerge (m : BlobFileMeta) :
    (m.fileStateTransit .needMerge).isObsolete = m.isObsolete := by
  by_cases h : m.state = .obsolete
  · simp [isObsolete, fileStateTransit, FileState.transit, h]
  · by_cases hgc : m.state = .toGC <;> simp [isObsolete, fileStateTransit, FileState.transit, h, hgc]

def BlobStorage.obsoleteAt (s : BlobStorage) (n : Nat) : Option Bool := (s.findFile n).map BlobFileMeta.isObsolete

section

variable {s : BlobStorage} {n : Nat}

theorem obsoleteAt_updateFile {f : BlobFileMeta → BlobFileMeta} (hnum : ∀ m, (f m).fileNumber = m.fileNumber)
    (hobs : ∀ m, (f m).isObsolete = m.isObsolete) (k : Nat) : (s.updateFile k f).obsoleteAt n = s.obsoleteAt n := by
  rw [obsoleteAt, findFile_updateFile hnum]
  split
  · rw [Option.map_map]
    exact congrArg (fun g => (s.findFile n).map g) (funext hobs)
  · rfl

theorem obsoleteAt_markFileIfNeedMerge (env : CompactionEnv) (files : List Nat) (s : BlobStorage) :
    (markFileIfNeedMerge env files s).obsoleteAt n = s.obsoleteAt n :=
  Keyed.foldl_frame (g := (·.obsoleteAt n)) (fun _ => obsoleteAt_updateFile (f := (·.fileStateTransit .needMerge))
    (fun _ => rfl) isObsolete_needMerge) _ s

theorem obsoleteAt_compactionCompleted (k : Nat) :
    (s.updateFile k (·.fileStateTransit .compactionCompleted)).obsoleteAt n =
      if n = k then (s.obsoleteAt n).map fun _ => false else s.obsoleteAt n := by
  rw [obsoleteAt, findFile_updateFile (f := (·.fileStateTransit .compactionCompleted)) fun _ => rfl, obsoleteAt]
  split
  · cases s.findFile n <;> rfl
  · rfl

/-- A file that only the outputs name is a normal one afterwards, also if it was obsolete. -/
theorem obsoleteAt_transitOutputs (ns : List Nat) (s : BlobStorage) (h : (transitOutputs s ns).2 = true) :
    (transitOutputs s ns).1.obsoleteAt n = if n ∈ ns then (s.obsoleteAt n).map fun _ => false else s.obsoleteAt n := by
  induction ns generalizing s with
  | nil => rfl
  | cons k ns ih =>
    unfold transitOutputs at h ⊢
    split at h
    · cases h
    · rw [if_neg ‹_›, ih _ h, obsoleteAt_compactionCompleted]
      by_cases hk : n = k
      · subst hk
        simp
      · simp [hk]

theorem obsoleteAt_transitOutputs_of_false (ns : List Nat) (s : BlobStorage) (h : s.obsoleteAt n = some false) :
    (transitOutputs s ns).1.obsoleteAt n = some false := by
  induction ns generalizing s with
  | nil => exact h
  | cons k ns ih =>
    unfold transitOutputs
    split
    · exact h
    · apply ih
      rw [obsoleteAt_compactionCompleted, h]
      simp

end

/-! ### The edit of the accounting loop -/

/-- The turn of the loop for this entry leaves a sorted file without live data. -/
def BlobStorage.diesBy (s : BlobStorage) (bfs : Nat × Int) : Bool :=
  decide (bfs.2 < 0) && (s.findFile bfs.1).any fun m =>
    let m := m.addDiscardableSize (u64 (-bfs.2))
    m.noLiveData && decide (m.fileType = .sorted)

theorem diesBy_congr {s s' : BlobStorage} {bfs : Nat × Int} (h : s'.account bfs.1 = s.account bfs.1) :
    s'.diesBy bfs = s.diesBy bfs := by
  -- the test reads persistent fields and the discardable size only
  have hdies : ∀ t : BlobStorage, t.diesBy bfs = (decide (bfs.2 < 0) && (t.account bfs.1).any fun a =>
      decide ((a.2 + u64 (-bfs.2)) % 2 ^ 64 = u64 (a.1.fileSize - kBlobHeaderSize - kBlobFooterSize)) &&
        decide (a.1.fileType = .sorted)) := by
    intro t
    rw [account, Option.any_map]
    rfl
  rw [hdies, hdies, h]

namespace CompactionAcc

variable {o : Options} {env : CompactionEnv} {countSortedRun : Bool}

theorem obsoleteAt_file (a : CompactionAcc) (bfs : Nat × Int) (n : Nat) :
    (a.file o env countSortedRun bfs).storage.obsoleteAt n = a.storage.obsoleteAt n := by
  refine file_rule (P := fun s => s.obsoleteAt n = _) (fun _ => rfl) (fun _ => ?_) fun s h => ?_
  · exact obsoleteAt_updateFile (f := (·.addDiscardableSize _)) (fun _ => rfl) (fun _ => rfl) _
  · rw [obsoleteAt_updateFile (f := (·.fileStateTransit .needGC)) (fun _ => rfl) isObsolete_needGC]
    exact h

theorem obsoleteAt_foldl (es : List (Nat × Int)) (a : CompactionAcc) (n : Nat) :
    (es.foldl (file o env countSortedRun) a).storage.obsoleteAt n = a.storage.obsoleteAt n :=
  Keyed.foldl_frame (g := fun a : CompactionAcc => a.storage.obsoleteAt n) (obsoleteAt_file · · n) es a

theorem edit_file_eq (hlevel : o.levelMerge = true) (a : CompactionAcc) (bfs : Nat × Int) :
    (a.file o env countSortedRun bfs).edit = { a.edit with
      deletedFiles := a.edit.deletedFiles ++ if a.storage.diesBy bfs then [(bfs.1, env.latestSequenceNumber)] else [] } := by
  unfold file diesBy
  by_cases hpos : 0 ≤ bfs.2
  · have hneg : ¬ bfs.2 < 0 := by omega
    simp only [hpos, hneg, if_true, decide_false, Bool.false_and]
    split <;> simp
  · have hneg : bfs.2 < 0 := by omega
    simp only [hpos, hneg, hlevel, if_true, if_false, decide_true, Bool.true_and]
    split
    next hnone => simp [hnone]
    next file hfile =>
      have hnum := fileNumber_of_findFile hfile
      simp only [hfile, any_some]
      split
      · rw [← hnum]; rfl
      · simp

/-- The edit of the loop, from the storage it starts with: a turn changes no file but its own. -/
theorem edit_foldl_eq (hlevel : o.levelMerge = true) {es : List (Nat × Int)} (hnodup : (es.map Prod.fst).Nodup)
    (a : CompactionAcc) :
    (es.foldl (file o env countSortedRun) a).edit =
      { a.edit with deletedFiles :=
          a.edit.deletedFiles ++ (es.filter a.storage.diesBy).map fun bfs => (bfs.1, env.latestSequenceNumber) } := by
  induction es generalizing a with
  | nil => simp
  | cons p es ih =>
    rw [map_cons, nodup_cons] at hnodup
    have hrest : es.filter (a.file o env countSortedRun p).storage.diesBy = es.filter a.storage.diesBy := by
      refine filter_congr fun q hq => diesBy_congr ?_
      have hne : q.1 ≠ p.1 := fun heq => hnodup.1 (heq ▸ mem_map_of_mem hq)
      rw [account_file, if_neg hne]
    rw [foldl_cons, ih hnodup.2, edit_file_eq hlevel, hrest, filter_cons, append_assoc]
    split <;> rfl

end CompactionAcc

/-! ### The edit as a whole -/

namespace BlobFileSets

def findFile (fs : BlobFileSets) (cf n : Nat) : Option BlobFileMeta := (fs.getBlobStorage cf).bind (·.findFile n)

def obsoleteAt (fs : BlobFileSets) (cf n : Nat) : Option Bool := (fs.getBlobStorage cf).bind (·.obsoleteAt n)

variable {fs : BlobFileSets} {e : ColumnFamilyEdit} {sep : Bool} {f : ManifestFaults} {s : BlobStorage}

theorem obsoleteAt_eq (cf n : Nat) : fs.obsoleteAt cf n = (fs.findFile cf n).map isObsolete := by
  unfold obsoleteAt findFile
  cases fs.getBlobStorage cf <;> rfl

theorem obsoleteAt_setBlobStorage (cf n : Nat) : (fs.setBlobStorage cf s).obsoleteAt cf n = s.obsoleteAt n := by
  unfold obsoleteAt getBlobStorage setBlobStorage
  rw [find?_alter, if_pos rfl]
  rfl

theorem accepted_iff (hadded : e.addedFiles = []) (hnodup : (e.deletedFiles.map Prod.fst).Nodup)
    (hs : fs.getBlobStorage e.columnFamilyId = some s) :
    e.Accepted fs ↔ ∀ n ∈ e.deletedFiles.map Prod.fst, s.obsoleteAt n = some false := by
  have hlive : ∀ n, s.obsoleteAt n = some false ↔ ∃ m, s.findFile n = some m ∧ m.isObsolete = false := fun n =>
    map_eq_some_iff
  constructor
  · intro h n hn
    obtain ⟨p, hp, rfl⟩ := mem_map.1 hn
    rcases (h.sealed s hs).2 p hp with hnew | hold
    · rw [hadded] at hnew
      cases hnew
    · exact (hlive p.1).2 hold
  · intro h
    refine ⟨by simp [hadded], hnodup, fun s' hs' => ⟨by simp [hadded], fun p hp => .inr ?_⟩⟩
    obtain rfl : s = s' := some.inj (hs.symm.trans hs')
    exact (hlive p.1).1 (h p.1 (mem_map_of_mem hp))

theorem obsoleteAt_logAndApply (hacc : e.Accepted fs) (hadded : e.addedFiles = []) (hadd : f.addRecord = none)
    (hsync : f.sync = none) (cf n : Nat) :
    (fs.logAndApply sep f e).1.obsoleteAt cf n =
      if cf = e.columnFamilyId ∧ n ∈ e.deletedFiles.map Prod.fst then (fs.obsoleteAt cf n).map fun _ => true
      else fs.obsoleteAt cf n := by
  have hget : (fs.logAndApply sep f e).1.getBlobStorage cf = _ := (logAndApply_of_accepted hacc hadd hsync).2 cf
  rw [obsoleteAt, hget]
  by_cases hcf : cf = e.columnFamilyId
  · rw [if_pos hcf, obsoleteAt]
    cases hs : fs.getBlobStorage cf with
    | none => simp
    | some s =>
      obtain ⟨g, hfind, hsame⟩ := EditCollector.findFile_apply sep
        (VersionEdit.sealed_iff.2 (hacc.sealed s (hcf ▸ hs))) n
      have hobs : isObsolete ∘ g = isObsolete := funext fun m => by
        simp only [Function.comp, isObsolete, (hsame m).2]
      have hdel : (e.collector.deletedFiles.filter fun p => !e.collector.adds p.1) = e.deletedFiles := by
        refine filter_eq_self.2 fun p _ => ?_
        simp [VersionEdit.collector, EditCollector.adds, hadded]
      have hnew : e.collector.addedFiles = [] := hadded
      rw [hdel, hnew] at hfind
      simp only [filter_nil, find?_nil, or_none] at hfind
      show (e.collector.apply sep s).1.obsoleteAt n = if _ then (s.obsoleteAt n).map _ else s.obsoleteAt n
      rw [BlobStorage.obsoleteAt, hfind, Option.map_map, hobs, BlobStorage.obsoleteAt]
      by_cases hn : n ∈ e.deletedFiles.map Prod.fst
      · rw [if_pos hn, if_pos ⟨hcf, hn⟩, Option.map_map, Option.map_map]
        rfl
      · rw [if_neg hn, if_neg fun h => hn h.2]
  · rw [if_neg hcf, if_neg fun h => hcf h.1, obsoleteAt]

end BlobFileSets

/-! ### What one compaction deletes -/

namespace CompactionJobInfo

/-- The compaction leaves a sorted file without live data. -/
structure Discards (info : CompactionJobInfo) (m : BlobFileMeta) : Prop where
  ok : info.ok = true
  sorted : m.fileType = .sorted
  dead : ∃ diff, (ofCompaction info).diff.find? m.fileNumber = some diff ∧ diff < 0 ∧
    (m.addDiscardableSize (u64 (-diff))).noLiveData = true

/-- File `n` should be obsolete once the compaction has been reported. -/
def Due (info : CompactionJobInfo) (fs : BlobFileSets) (n : Nat) : Prop :=
  ∃ m, fs.findFile info.cfId n = some m ∧ m.isObsolete = false ∧ info.Discards m

/-- The compaction is in the default column family, its new files are registered, and it discards no file that is
obsolete already. A file that only the outputs name is an exception, since it has become a normal one before. -/
structure Deletable (info : CompactionJobInfo) (fs : BlobFileSets) : Prop where
  family : info.cfId = 0
  outputs : ∀ k ∈ (ofCompaction info).outputs.keys, (fs.findFile info.cfId k).isSome = true
  live : ∀ n m, fs.findFile info.cfId n = some m → m.isObsolete = true → info.Discards m →
    n ∈ (ofCompaction info).outputs.keys

variable {o : Options} {env : CompactionEnv} {info : CompactionJobInfo} {fs : BlobFileSets} {s : BlobStorage} {n : Nat}

theorem mem_diesBy (hok : info.ok = true) :
    n ∈ ((SizeDiff.ofCompaction info).diff.entries.filter s.diesBy).map Prod.fst ↔
      ∃ m, s.findFile n = some m ∧ info.Discards m := by
  simp only [List.mem_map, List.mem_filter, diesBy, Bool.and_eq_true, decide_eq_true_eq, Option.any_eq_true]
  constructor
  · rintro ⟨⟨k, diff⟩, ⟨hmem, hneg, m, hm, hdead, hsorted⟩, rfl⟩
    have hnum : m.fileNumber = k := fileNumber_of_findFile hm
    exact ⟨m, hm, hok, hsorted, diff, hnum ▸ (mem_entries _).1 hmem, hneg, hdead⟩
  · rintro ⟨m, hm, -, hsorted, diff, hdiff, hneg, hdead⟩
    rw [fileNumber_of_findFile hm] at hdiff
    exact ⟨(n, diff), ⟨(mem_entries _).2 hdiff, hneg, m, hm, hdead, hsorted⟩, rfl⟩

theorem compactionAccounting_deletes (env : CompactionEnv) (hlevel : o.levelMerge = true) (info : CompactionJobInfo)
    (s : BlobStorage) :
    (¬ (∀ k ∈ (ofCompaction info).outputs.keys, (s.account k).isSome = true) ∧
        ∃ s', compactionAccounting o env info s = (s', none) ∧
          ∀ n, s.obsoleteAt n = some false → s'.obsoleteAt n = some false) ∨
      (∀ k ∈ (ofCompaction info).outputs.keys, (s.account k).isSome = true) ∧
        ∃ a, compactionAccounting o env info s = (a.storage, some a) ∧
          a.edit = { ColumnFamilyEdit.empty with
            deletedFiles := ((ofCompaction info).diff.entries.filter s.diesBy).map fun bfs =>
              (bfs.1, env.latestSequenceNumber) } ∧
          ∀ n, a.storage.obsoleteAt n = if n ∈ (ofCompaction info).outputs.keys then
            (s.obsoleteAt n).map fun _ => false else s.obsoleteAt n := by
  have hreg := transitOutputs_snd (ofCompaction info).outputs.keys s
  have hsame := fun n => account_transitOutputs (n := n) (ofCompaction info).outputs.keys s
  have hobs := fun n => obsoleteAt_transitOutputs (n := n) (ofCompaction info).outputs.keys s
  have hfalse := fun n => obsoleteAt_transitOutputs_of_false (n := n) (ofCompaction info).outputs.keys s
  unfold compactionAccounting
  dsimp only
  cases htr : transitOutputs s (ofCompaction info).outputs.keys with
  | mk s' found =>
    rw [htr] at hreg hsame hobs hfalse
    cases found with
    | false => exact .inl ⟨fun h => Bool.false_ne_true (hreg.2 h), s', rfl, hfalse⟩
    | true =>
      refine .inr ⟨hreg.1 rfl, _, rfl, ?_, fun n => ?_⟩
      · rw [edit_foldl_eq hlevel (nodup_keys _)]
        have hdies : s'.diesBy = s.diesBy := funext fun bfs => diesBy_congr (hsame bfs.1)
        rw [← hdies]
        rfl
      · rw [obsoleteAt_foldl]
        exact hobs n rfl

/-- The files of the edit are accepted exactly when the compaction is `Deletable`, once its outputs are registered. -/
theorem accepted_iff_live {a : CompactionAcc} {ds : List (Nat × SequenceNumber)} (hok : info.ok = true)
    (hcf : info.cfId = 0) (hs : fs.getBlobStorage info.cfId = some s)
    (hedit : a.edit = { ColumnFamilyEdit.empty with deletedFiles := ds })
    (hds : ds.map Prod.fst = ((ofCompaction info).diff.entries.filter s.diesBy).map Prod.fst)
    (hobs : ∀ n, a.storage.obsoleteAt n = if n ∈ (ofCompaction info).outputs.keys then
      (s.obsoleteAt n).map fun _ => false else s.obsoleteAt n) :
    a.edit.Accepted (fs.setBlobStorage info.cfId a.storage) ↔
      ∀ n m, fs.findFile info.cfId n = some m → m.isObsolete = true → info.Discards m →
        n ∈ (ofCompaction info).outputs.keys := by
  have hfind : ∀ n, fs.findFile info.cfId n = s.findFile n := fun n => by rw [BlobFileSets.findFile, hs]; rfl
  have hstorage : (fs.setBlobStorage info.cfId a.storage).getBlobStorage a.edit.columnFamilyId = some a.storage := by
    rw [hedit, hcf]
    unfold BlobFileSets.getBlobStorage BlobFileSets.setBlobStorage
    rw [find?_alter]
    rfl
  have hkeys : (a.edit.deletedFiles.map Prod.fst).Nodup := by
    rw [hedit]
    rw [hds]
    exact (nodup_keys (ofCompaction info).diff).sublist (filter_sublist.map _)
  rw [BlobFileSets.accepted_iff (by rw [hedit]; rfl) hkeys hstorage, hedit]
  rw [hds]
  simp only [mem_diesBy hok, hobs, hfind]
  constructor
  · rintro h n m hm hdead hdisc
    by_contra hout
    have hlive := h n ⟨m, hm, hdisc⟩
    rw [if_neg hout, obsoleteAt, hm] at hlive
    simp [hdead] at hlive
  · rintro h n ⟨m, hm, hdisc⟩
    rw [obsoleteAt, hm]
    split
    · rfl
    next hout =>
      cases hdead : m.isObsolete with
      | false => simp [hdead]
      | true => exact absurd (h n m hm hdead hdisc) hout

/-- Whether a file that is due gets deleted does not depend on the file. -/
theorem obsoleteAt_onCompactionCompleted (hlevel : o.levelMerge = true) (hadd : env.manifest.addRecord = none)
    (hsync : env.manifest.sync = none) (hdue : info.Due fs n) :
    (onCompactionCompleted o env info fs).obsoleteAt info.cfId n = some true ↔ info.Deletable fs := by
  obtain ⟨m, hm, hlive, hdisc⟩ := hdue
  obtain ⟨s, hs, hsm⟩ := bind_eq_some_iff.1 hm
  have hfind : ∀ k, fs.findFile info.cfId k = s.findFile k := fun k => by rw [BlobFileSets.findFile, hs]; rfl
  have hn : s.obsoleteAt n = some false := by rw [obsoleteAt, hsm, map_some, hlive]
  unfold onCompactionCompleted
  rw [if_pos hdisc.ok, hs]
  dsimp only
  rcases compactionAccounting_deletes env hlevel info s with
    ⟨hreg, s', hacc, hfalse⟩ | ⟨hreg, a, hacc, hedit, hobs⟩
  · rw [hacc]
    rw [BlobFileSets.obsoleteAt_setBlobStorage, hfalse n hn]
    refine ⟨nofun, fun h => absurd (fun k hk => ?_) hreg⟩
    have hk := h.outputs k hk
    rw [hfind] at hk
    simpa [account] using hk
  · rw [hacc]
    dsimp only
    rw [if_pos hlevel]
    -- `MarkFileIfNeedMerge` comes after the edit and takes no file back
    suffices hlog : ((fs.setBlobStorage info.cfId a.storage).logAndApply o.sepBeforeFlush env.manifest a.edit).1.obsoleteAt
        info.cfId n = some true ↔ info.Deletable fs by
      split
      · exact hlog
      next s' hs' =>
        rw [BlobFileSets.obsoleteAt_setBlobStorage, obsoleteAt_markFileIfNeedMerge, ← hlog, BlobFileSets.obsoleteAt, hs']
        rfl
    have hbefore : (fs.setBlobStorage info.cfId a.storage).obsoleteAt info.cfId n = some false := by
      rw [BlobFileSets.obsoleteAt_setBlobStorage, hobs, hn]
      simp
    have hmem : n ∈ a.edit.deletedFiles.map Prod.fst := by
      rw [hedit]
      rw [List.map_map]
      exact (mem_diesBy hdisc.ok).2 ⟨m, hsm, hdisc⟩
    have hfamily : a.edit.columnFamilyId = 0 := by rw [hedit]; rfl
    have hlive_iff := fun hcf => accepted_iff_live hdisc.ok hcf hs hedit (by rw [List.map_map]; rfl) hobs
    by_cases haccepted : a.edit.Accepted (fs.setBlobStorage info.cfId a.storage)
    · rw [BlobFileSets.obsoleteAt_logAndApply haccepted (by rw [hedit]; rfl) hadd hsync, hbefore, hfamily]
      by_cases hcf : info.cfId = 0
      · rw [if_pos ⟨hcf, hmem⟩]
        refine ⟨fun _ => ⟨hcf, fun k hk => ?_, (hlive_iff hcf).1 haccepted⟩, fun _ => rfl⟩
        have hk := hreg k hk
        rw [hfind]
        simpa [account] using hk
      · rw [if_neg fun h => hcf h.1]
        exact ⟨nofun, fun h => absurd h.family hcf⟩
    · rw [(BlobFileSets.logAndApply_of_not_accepted haccepted).1, hbefore]
      exact ⟨nofun, fun h => absurd ((hlive_iff h.family).2 h.live) haccepted⟩

/-- With `level_merge` every file that is due is obsolete when the callback returns, exactly if the compaction is
`Deletable` or no file is due. -/
theorem onCompactionCompleted_deletes_iff (hlevel : o.levelMerge = true) (hadd : env.manifest.addRecord = none)
    (hsync : env.manifest.sync = none) :
    (∀ n, info.Due fs n → ∃ m, (onCompactionCompleted o env info fs).findFile info.cfId n = some m ∧
        m.isObsolete = true) ↔
      ((∃ n, info.Due fs n) → info.Deletable fs) := by
  have hobs : ∀ n, info.Due fs n → ((∃ m, (onCompactionCompleted o env info fs).findFile info.cfId n = some m ∧
      m.isObsolete = true) ↔ info.Deletable fs) := by
    intro n hdue
    rw [← obsoleteAt_onCompactionCompleted hlevel hadd hsync hdue, BlobFileSets.obsoleteAt_eq, map_eq_some_iff]
  constructor
  · rintro h ⟨n, hdue⟩
    exact (hobs n hdue).1 (h n hdue)
  · intro h n hdue
    exact (hobs n hdue).2 (h ⟨n, hdue⟩)

/-! File 1 has been replaced by a garbage collection and waits for the purge; file 2 is in use. -/

def replacedFile : BlobFileMeta := ⟨1, 140, 4, .sorted, 5, [1], [9], .obsolete, 60⟩

def usedFile : BlobFileMeta := ⟨2, 140, 4, .sorted, 5, [1], [9], .normal, 0⟩

def waitingFileSets : BlobFileSets :=
  ⟨OrdMap.empty.alter 0 fun _ => ⟨[replacedFile, usedFile], [], [(1, 3)]⟩, [], 3⟩

/-- A compaction that drops every record of file 2 and these old references to file 1. -/
def dropping (old : List BlobIndex) : CompactionJobInfo where
  cfId := 0
  ok := true
  inputFiles := [7]
  outputFiles := []
  tableProperties := fun _ => some (propertyOf (⟨2, 8, 100⟩ :: old))
  outputLevel := 6

def mergeEnv : CompactionEnv := ⟨9, 7, false, fun _ => false, fun _ => [], {}⟩

theorem due_dropping (old : List BlobIndex) (hdiff : (ofCompaction (dropping old)).diff.find? 2 = some (-100)) :
    (dropping old).Due waitingFileSets 2 :=
  ⟨usedFile, rfl, rfl, rfl, rfl, -100, hdiff, by decide, by decide⟩

/-- The old references leave 30 bytes of file 1: the obsolete file is not in the edit. -/
theorem onCompactionCompleted_deletes_used :
    ∃ m, (onCompactionCompleted (.small false true) mergeEnv (dropping [⟨1, 8, 10⟩]) waitingFileSets).findFile 0 2 =
      some m ∧ m.isObsolete = true := by
  have hiff := @onCompactionCompleted_deletes_iff (.small false true) mergeEnv (dropping [⟨1, 8, 10⟩]) waitingFileSets
    rfl rfl rfl
  refine hiff.2 (fun _ => ⟨rfl, by decide +kernel, ?_⟩) 2 (due_dropping _ (by decide +kernel))
  rintro n m hm hdead ⟨-, -, diff, hdiff, -, hno⟩
  have hmem := mem_of_find?_eq_some hm
  rcases mem_cons.1 hmem with rfl | hmem
  · have hold : (ofCompaction (dropping [⟨1, 8, 10⟩])).diff.find? 1 = some (-10) := by decide +kernel
    obtain rfl : -10 = diff := some.inj (hold.symm.trans hdiff)
    exact absurd hno (by decide)
  · obtain rfl := mem_singleton.1 hmem
    cases hdead

/-- The old references are the last bytes of file 1: it joins the edit, and file 2 stays. -/
theorem onCompactionCompleted_keeps_used :
    (dropping [⟨1, 8, 40⟩]).Due waitingFileSets 2 ∧
      ((onCompactionCompleted (.small false true) mergeEnv (dropping [⟨1, 8, 40⟩]) waitingFileSets).findFile 0 2).map
        (fun m => (m.noLiveData, m.isObsolete)) = some (true, false) :=
  ⟨due_dropping _ (by decide +kernel), by decide +kernel⟩

end CompactionJobInfo

end ValueSep.DiffKV
