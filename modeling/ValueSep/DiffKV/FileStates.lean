import ValueSep.DiffKV.CompactionDeletes
import ValueSep.DiffKV.RangeDeletion
import ValueSep.DiffKV.Recover
import ValueSep.Lib.Exec

/-!
# The states of blob files under concurrency

Everything that calls `FileStateTransit` after a file has been added: `BlobGC` when it is constructed and when it
releases its files, the two callbacks of the base DB, `DeleteFilesInRanges`, and the edits that mark files obsolete.
Each of them runs under the mutex of the engine, in any order and with any number of jobs.

The assertions of `FileStateTransit` are not in the build. Of the events that come after a deletion only
`kCompactionCompleted` overwrites `kObsolete`, and it is also the only one that could free a file that a job holds;
`Calm` says that it does not meet such a file.
-/

namespace ValueSep.DiffKV

open Coding Exec
open List Option BlobFileMeta BlobFileSets BlobStorage ColumnFamilyEdit FileState

/-- `BlobGC`: the files of one job. -/
structure BlobGC where
  cf : Nat
  inputs : List Nat
  outputs : List Nat

def BlobGC.files (job : BlobGC) : List Nat := job.inputs ++ job.outputs

structure FileMachine where
  fs : BlobFileSets
  jobs : List BlobGC
  /-- The numbers of all files there have been; `NewFileNumber` returns none of them again. -/
  numbers : List Nat

inductive FileMachineEvent
  /-- `LogAndApply`: flushes, compactions and the foreground builders add files, a job deletes its inputs. -/
  | edit (f : ManifestFaults) (e : ColumnFamilyEdit)
  /-- The constructor of `BlobGC`, for files that the picker has found fit. -/
  | pick (cf : Nat) (inputs : List Nat)
  /-- `InstallOutputBlobFiles`. -/
  | install (job : Nat) (f : ManifestFaults) (files : List BlobFileMeta)
  /-- `ReleaseGcFiles`. -/
  | release (job : Nat)
  | flushCompleted (cf : Nat) (property : Option Bytes)
  | compactionCompleted (env : CompactionEnv) (info : CompactionJobInfo)
  | deleteFilesInRanges (env : RangeDeletionEnv) (call : RangeDeletion)
  | getObsoleteFiles (cf : Nat) (oldest : SequenceNumber)

/-- A call on the storage of one column family. -/
def BlobFileSets.onStorage (fs : BlobFileSets) (cf : Nat) (f : BlobStorage → BlobStorage) : BlobFileSets :=
  match fs.getBlobStorage cf with
  | none => fs
  | some s => fs.setBlobStorage cf (f s)

namespace FileMachine

/-- What the picker asks of a file. -/
def pickable (o : Options) (s : FileMachine) (cf n : Nat) : Bool :=
  (s.fs.findFile cf n).any fun m => decide (m.state = .normal) && !(o.levelMerge && decide (m.fileType = .sorted))

def step (o : Options) (s : FileMachine) : FileMachineEvent → Option FileMachine
  | .edit f e =>
    if ∀ m ∈ e.addedFiles, m.fileNumber ∉ s.numbers then
      some { s with
        fs := (s.fs.logAndApply o.sepBeforeFlush f e).1
        numbers := e.addedFiles.map fileNumber ++ s.numbers }
    else none
  | .pick cf inputs =>
    if inputs.Nodup ∧ ∀ n ∈ inputs, s.pickable o cf n then
      some { s with
        fs := s.fs.onStorage cf (·.transitFiles .gcBegin inputs)
        jobs := ⟨cf, inputs, []⟩ :: s.jobs }
    else none
  | .install k f files =>
    match s.jobs[k]? with
    | none => none
    | some job =>
      if ∀ m ∈ files, m.fileNumber ∉ s.numbers then
        let e := { empty with
          columnFamilyId := job.cf
          addedFiles := files.map fun m => { m with state := transit .init .gcOutput } }
        let ns := files.map fileNumber
        let r := s.fs.logAndApply o.sepBeforeFlush f e
        some {
          fs := r.1
          jobs := if r.2 = .ok then s.jobs.set k { job with outputs := job.outputs ++ ns } else s.jobs
          numbers := ns ++ s.numbers }
      else none
  | .release k =>
    match s.jobs[k]? with
    | none => none
    | some job =>
      some { s with
        fs := s.fs.onStorage job.cf (·.transitFiles .gcCompleted job.files)
        jobs := s.jobs.eraseIdx k }
  | .flushCompleted cf property => some { s with fs := s.fs.onStorage cf (onFlushCompleted property) }
  | .compactionCompleted env info => some { s with fs := onCompactionCompleted o env info s.fs }
  | .deleteFilesInRanges env call => some { s with fs := (call.deleteFilesInRanges o env s.fs).1 }
  | .getObsoleteFiles cf oldest => some { s with fs := s.fs.onStorage cf fun st => (st.getObsoleteFiles oldest).1 }

/-- When the mutex is first taken: the files are there, and no job has begun. -/
def start (fs : BlobFileSets) : FileMachine :=
  ⟨fs, [], fs.columnFamilies.entries.flatMap fun p => p.2.files.map fileNumber⟩

/-- The file is an input or an output of a job. -/
def Held (s : FileMachine) (cf n : Nat) : Prop := ∃ job ∈ s.jobs, job.cf = cf ∧ n ∈ job.files

instance (s : FileMachine) (cf n : Nat) : Decidable (s.Held cf n) := inferInstanceAs (Decidable (∃ job ∈ s.jobs, _))

/-- A compaction does not complete after one of its output files has become obsolete or has gone to a job. -/
def Calm (s : FileMachine) : FileMachineEvent → Prop
  | .compactionCompleted _ info => info.ok = true → ∀ n ∈ (SizeDiff.ofCompaction info).outputs.keys,
      ∀ m ∈ s.fs.findFile info.cfId n, m.isObsolete = false ∧ ¬ s.Held info.cfId n
  | _ => True

instance (s : FileMachine) : (e : FileMachineEvent) → Decidable (s.Calm e)
  | .compactionCompleted _ info => inferInstanceAs (Decidable (info.ok = true → ∀ n ∈
      (SizeDiff.ofCompaction info).outputs.keys, ∀ m ∈ s.fs.findFile info.cfId n, _ ∧ ¬ s.Held info.cfId n))
  | .edit .. | .pick .. | .install .. | .release .. | .flushCompleted .. | .deleteFilesInRanges ..
  | .getObsoleteFiles .. => .isTrue trivial

/-- No file is an input of two jobs, or of one job twice. -/
def Exclusive (s : FileMachine) : Prop :=
  (∀ job ∈ s.jobs, job.inputs.Nodup) ∧ s.jobs.Pairwise fun a b => a.cf = b.cf → a.inputs.Disjoint b.inputs

/-- What is obsolete before is obsolete afterwards, or gone. -/
def StaysObsolete (s s' : FileMachine) : Prop :=
  ∀ cf n m m', s.fs.findFile cf n = some m → m.isObsolete = true → s'.fs.findFile cf n = some m' →
    m'.isObsolete = true

end FileMachine

/-! ### What a call may do to a file -/

/-- A state that a job's file has while the job holds it. -/
def FileState.Busy (st : FileState) : Prop := st ≠ .normal ∧ st ≠ .pendingLSM

namespace BlobFileMeta

structure Keeps (held : Prop) (m m' : BlobFileMeta) : Prop where
  obsolete : m.isObsolete = true → m'.isObsolete = true
  busy : held → m.state.Busy → m'.state.Busy

variable {held : Prop} {m m' m'' : BlobFileMeta}

theorem Keeps.refl (held : Prop) (m : BlobFileMeta) : m.Keeps held m := ⟨id, fun _ => id⟩

theorem Keeps.trans (h : m.Keeps held m') (h' : m'.Keeps held m'') : m.Keeps held m'' :=
  ⟨fun hm => h'.obsolete (h.obsolete hm), fun hh hm => h'.busy hh (h.busy hh hm)⟩

theorem keeps_of_state (h : m'.state = m.state) : m.Keeps held m' := by
  refine ⟨fun hm => ?_, fun _ hm => ?_⟩
  · rwa [isObsolete, h]
  · rwa [h]

theorem keeps_addDiscardableSize (m : BlobFileMeta) (d : Nat) : m.Keeps held (m.addDiscardableSize d) :=
  keeps_of_state rfl

theorem keeps_transit {e : FileEvent} (he : e = .flushCompleted ∨ e = .delete ∨ e = .needMerge ∨ e = .needGC) :
    m.Keeps held (m.fileStateTransit e) := by
  obtain ⟨number, size, entries, type, level, smallest, largest, state, d⟩ := m
  refine ⟨?_, fun _ => ?_⟩
  · rcases he with rfl | rfl | rfl | rfl <;> cases state <;> simp [isObsolete, fileStateTransit, transit]
  · rcases he with rfl | rfl | rfl | rfl <;> cases state <;>
      simp [FileState.Busy, fileStateTransit, transit]

end BlobFileMeta

namespace BlobStorage

variable {held : Nat → Prop} {s s' s'' : BlobStorage}

/-- No file comes, and those that stay keep what they have to. -/
def Keeps (held : Nat → Prop) (s s' : BlobStorage) : Prop :=
  ∀ n m', s'.findFile n = some m' → ∃ m, s.findFile n = some m ∧ m.Keeps (held n) m'

theorem Keeps.refl (held : Nat → Prop) (s : BlobStorage) : s.Keeps held s := fun _ m' h => ⟨m', h, .refl _ _⟩

theorem Keeps.trans (h : s.Keeps held s') (h' : s'.Keeps held s'') : s.Keeps held s'' := by
  intro n m'' hm''
  obtain ⟨m', hm', hk'⟩ := h' n m'' hm''
  obtain ⟨m, hm, hk⟩ := h n m' hm'
  exact ⟨m, hm, hk.trans hk'⟩

theorem keeps_updateFile {f : BlobFileMeta → BlobFileMeta} {n : Nat} (hf : ∀ m, (f m).fileNumber = m.fileNumber)
    (h : ∀ m, s.findFile n = some m → m.Keeps (held n) (f m)) : s.Keeps held (s.updateFile n f) := by
  intro k m' hm'
  rw [findFile_updateFile hf] at hm'
  split at hm'
  next heq =>
    subst heq
    obtain ⟨m, hm, rfl⟩ := map_eq_some_iff.1 hm'
    exact ⟨m, hm, h m hm⟩
  · exact ⟨m', hm', .refl _ _⟩

theorem keeps_foldl {σ α : Type} {f : σ → α → σ} (w : σ → BlobStorage) (h : ∀ s a, (w s).Keeps held (w (f s a)))
    (as : List α) (s : σ) : (w s).Keeps held (w (as.foldl f s)) := by
  induction as generalizing s with
  | nil => exact .refl _ _
  | cons a as ih => exact (h s a).trans (ih _)

theorem keeps_getObsoleteFiles (oldest : SequenceNumber) : s.Keeps held (s.getObsoleteFiles oldest).1 := by
  intro n m' hm'
  rw [findFile_getObsoleteFiles] at hm'
  split at hm'
  · cases hm'
  · exact ⟨m', hm', .refl _ _⟩

theorem keeps_onFlushCompleted (property : Option Bytes) : s.Keeps held (onFlushCompleted property s) := by
  have hfile (a : FlushAcc) (f : Nat × Nat) : a.storage.Keeps held (a.file f).storage := by
    unfold FlushAcc.file
    split
    · exact .refl _ _
    · exact keeps_updateFile (fun _ => rfl) fun m _ =>
        (keeps_addDiscardableSize m _).trans (keeps_transit (.inl rfl))
  cases property with
  | none => exact .refl _ _
  | some src => exact keeps_foldl FlushAcc.storage hfile _ _

theorem keeps_compactionAcc (o : Options) (env : CompactionEnv) (count : Bool) (ds : List (Nat × Int))
    (a : CompactionAcc) : a.storage.Keeps held (ds.foldl (CompactionAcc.file o env count) a).storage := by
  refine keeps_foldl CompactionAcc.storage (fun a d => ?_) ds a
  refine CompactionAcc.file_rule (fun _ => .refl _ _) (fun _ => ?_) fun s h => h.trans ?_
  · exact keeps_updateFile (fun _ => rfl) fun m _ => keeps_addDiscardableSize m _
  · exact keeps_updateFile (fun _ => rfl) fun m _ => keeps_transit (.inr (.inr (.inr rfl)))

theorem keeps_markFileIfNeedMerge (env : CompactionEnv) (files : List Nat) :
    s.Keeps held (markFileIfNeedMerge env files s) :=
  keeps_foldl id (fun _ _ => keeps_updateFile (f := (·.fileStateTransit .needMerge)) (fun _ => rfl) fun _ _ =>
    keeps_transit (.inr (.inr (.inl rfl)))) _ _

theorem keeps_transitOutputs {ns : List Nat}
    (h : ∀ n ∈ ns, ∀ m, s.findFile n = some m → m.isObsolete = false ∧ ¬ held n) :
    s.Keeps held (transitOutputs s ns).1 := by
  induction ns generalizing s with
  | nil => exact .refl _ _
  | cons n ns ih =>
    unfold transitOutputs
    split
    · exact .refl _ _
    · refine .trans (keeps_updateFile (f := (·.fileStateTransit .compactionCompleted)) (fun _ => rfl)
        fun m hm => ?_) (ih fun k hk m hm => ?_)
      · obtain ⟨hobs, hheld⟩ := h n (mem_cons_self ..) m hm
        exact ⟨fun hm' => absurd hm' (by simp [hobs]), fun hh => absurd hh hheld⟩
      · rw [findFile_updateFile (f := (·.fileStateTransit .compactionCompleted)) fun _ => rfl] at hm
        split at hm
        next heq =>
          obtain ⟨m₀, hm₀, rfl⟩ := map_eq_some_iff.1 hm
          exact ⟨rfl, (h k (mem_cons_of_mem _ hk) m₀ hm₀).2⟩
        · exact h k (mem_cons_of_mem _ hk) m hm

theorem keeps_rangeDeletion (o : Options) (env : RangeDeletionEnv) (ds : List (Nat × Nat)) (a : RangeDeletion.Acc) :
    a.storage.Keeps held (ds.foldl (RangeDeletion.Acc.file o env) a).storage := by
  refine keeps_foldl RangeDeletion.Acc.storage (fun a d => ?_) ds a
  have hadd : a.storage.Keeps held (a.storage.updateFile d.1 (·.addDiscardableSize d.2)) :=
    keeps_updateFile (fun _ => rfl) fun m _ => keeps_addDiscardableSize m _
  unfold RangeDeletion.Acc.file
  split
  · exact .refl _ _
  · dsimp only
    split
    · split
      · exact hadd
      · split
        · exact hadd.trans (keeps_updateFile (fun _ => rfl) fun m _ =>
            keeps_transit (.inr (.inr (.inr rfl))))
        · split <;> exact hadd
    · exact hadd

end BlobStorage

namespace BlobFileSets

variable {held : Nat → Nat → Prop} {fs fs' fs'' : BlobFileSets} {s s' : BlobStorage} {cf n : Nat} {m' : BlobFileMeta}

def Keeps (held : Nat → Nat → Prop) (fs fs' : BlobFileSets) : Prop :=
  ∀ cf n m', fs'.findFile cf n = some m' → ∃ m, fs.findFile cf n = some m ∧ m.Keeps (held cf n) m'

theorem Keeps.refl (held : Nat → Nat → Prop) (fs : BlobFileSets) : fs.Keeps held fs :=
  fun _ _ m' h => ⟨m', h, .refl _ _⟩

theorem Keeps.trans (h : fs.Keeps held fs') (h' : fs'.Keeps held fs'') : fs.Keeps held fs'' := by
  intro cf n m'' hm''
  obtain ⟨m', hm', hk'⟩ := h' cf n m'' hm''
  obtain ⟨m, hm, hk⟩ := h cf n m' hm'
  exact ⟨m, hm, hk.trans hk'⟩

theorem findFile_setBlobStorage (cf' : Nat) :
    (fs.setBlobStorage cf s).findFile cf' n = if cf' = cf then s.findFile n else fs.findFile cf' n := by
  simp only [findFile, getBlobStorage, setBlobStorage, OrdMap.find?_alter]
  split <;> rfl

theorem findFile_eq (hs : fs.getBlobStorage cf = some s) : fs.findFile cf n = s.findFile n := by
  rw [findFile, hs]
  rfl

theorem keeps_setBlobStorage (hs : fs.getBlobStorage cf = some s) (h : s.Keeps (held cf) s') :
    fs.Keeps held (fs.setBlobStorage cf s') := by
  intro cf' n m' hm'
  rw [findFile_setBlobStorage] at hm'
  split at hm'
  next heq =>
    subst heq
    rw [findFile_eq hs]
    exact h n m' hm'
  · exact ⟨m', hm', .refl _ _⟩

theorem keeps_onStorage {f : BlobStorage → BlobStorage} (h : ∀ s, fs.getBlobStorage cf = some s → s.Keeps (held cf) (f s)) :
    fs.Keeps held (fs.onStorage cf f) := by
  unfold onStorage
  split
  · exact .refl _ _
  next s hs => exact keeps_setBlobStorage hs (h s hs)

theorem findFile_logAndApply {sep : Bool} {f : ManifestFaults} {e : ColumnFamilyEdit}
    (h : (fs.logAndApply sep f e).1.findFile cf n = some m') :
    (∃ m, fs.findFile cf n = some m ∧ ∀ held, m.Keeps held m') ∨
      ∃ a ∈ e.addedFiles, a.fileNumber = n ∧ m'.state = a.state := by
  rcases @getBlobStorage_logAndApply sep f fs e cf with hsame | ⟨⟨hacc, -⟩, rfl, heq⟩
  · rw [findFile, hsame] at h
    exact .inl ⟨m', h, fun held => .refl _ _⟩
  · rw [findFile, heq] at h
    rcases hs : fs.getBlobStorage e.columnFamilyId with _ | s
    · rw [hs] at h
      cases h
    · rw [hs] at h
      change (e.collector.apply sep s).1.findFile n = some m' at h
      obtain ⟨g, hg, hsame⟩ := EditCollector.findFile_apply sep (VersionEdit.sealed_iff.2 (hacc.sealed s hs)) n
      rw [h] at hg
      rcases hn : s.findFile n with _ | m
      · right
        rw [hn] at hg
        rcases ha : (e.collector.addedFiles.filter fun a => !e.collector.deletes a.fileNumber).find?
            (fun a => a.fileNumber == n) with _ | a
        · rw [ha] at hg
          split at hg <;> cases hg
        · have hnum : a.fileNumber = n := by simpa using find?_some ha
          have hmem : a ∈ e.addedFiles := (mem_filter.1 (mem_of_find?_eq_some ha)).1
          rw [ha] at hg
          split at hg
          next hdel =>
            -- a file that is added and deleted by one edit is not added
            obtain ⟨p, hp, rfl⟩ := mem_map.1 hdel
            have hadds : e.collector.adds p.1 = true := by
              rw [VersionEdit.adds_collector, ← hnum]
              exact mem_map_of_mem hmem
            simp [hadds] at hp
          · cases hg
            exact ⟨a, hmem, hnum, (hsame a).2⟩
      · left
        refine ⟨m, by rw [findFile_eq hs, hn], fun held => ?_⟩
        rw [hn] at hg
        split at hg
        · cases hg
          exact (keeps_transit (.inr (.inl rfl))).trans (keeps_of_state (hsame _).2)
        · cases hg
          exact keeps_of_state (hsame m).2

theorem keeps_logAndApply (sep : Bool) (f : ManifestFaults) {e : ColumnFamilyEdit} (he : e.addedFiles = []) :
    fs.Keeps held (fs.logAndApply sep f e).1 := by
  intro cf n m' hm'
  rcases findFile_logAndApply hm' with ⟨m, hm, hk⟩ | ⟨a, ha, -⟩
  · exact ⟨m, hm, hk _⟩
  · rw [he] at ha
    cases ha

theorem keeps_compactionAccounting (o : Options) (env : CompactionEnv) {info : CompactionJobInfo}
    (hs : fs.getBlobStorage info.cfId = some s)
    (h : ∀ n ∈ (SizeDiff.ofCompaction info).outputs.keys, ∀ m ∈ fs.findFile info.cfId n,
      m.isObsolete = false ∧ ¬ held info.cfId n) :
    fs.Keeps held (fs.setBlobStorage info.cfId (compactionAccounting o env info s).1) := by
  refine keeps_setBlobStorage hs ?_
  have hout : s.Keeps (held info.cfId) (transitOutputs s (SizeDiff.ofCompaction info).outputs.keys).1 :=
    keeps_transitOutputs fun n hn m hm => h n hn m (by rw [findFile_eq hs]; exact hm)
  unfold compactionAccounting
  dsimp only
  split <;> rename_i heq <;> rw [heq] at hout
  · exact hout
  · exact hout.trans (keeps_compactionAcc o env _ _ _)

theorem keeps_onCompactionCompleted (o : Options) (env : CompactionEnv) (info : CompactionJobInfo)
    (h : info.ok = true → ∀ n ∈ (SizeDiff.ofCompaction info).outputs.keys, ∀ m ∈ fs.findFile info.cfId n,
      m.isObsolete = false ∧ ¬ held info.cfId n) : fs.Keeps held (onCompactionCompleted o env info fs) :=
  onCompactionCompleted_rule (.refl _ _) (fun _ hok hs => keeps_compactionAccounting o env hs (h hok))
    (fun _ _ hP he => hP.trans (keeps_logAndApply _ _ he))
    fun _ _ _ hP hs => hP.trans (keeps_setBlobStorage hs (keeps_markFileIfNeedMerge env _))

theorem keeps_deleteBlobFilesInRanges (o : Options) (env : RangeDeletionEnv) (call : RangeDeletion) :
    fs.Keeps held (call.deleteBlobFilesInRanges o env fs).1 := by
  unfold RangeDeletion.deleteBlobFilesInRanges
  split
  · exact .refl _ _
  · exact keeps_logAndApply _ _ rfl

theorem keeps_charge (o : Options) (env : RangeDeletionEnv) (call : RangeDeletion) (sizes : OrdMap Nat Nat)
    (hs : fs.getBlobStorage call.cf = some s) : fs.Keeps held (call.charge o env sizes s fs) := by
  have hacc : fs.Keeps held (fs.setBlobStorage call.cf
      (sizes.entries.foldl (RangeDeletion.Acc.file o env) ⟨s, 0, .empty⟩).storage) :=
    keeps_setBlobStorage hs (keeps_rangeDeletion o env _ ⟨s, 0, .empty⟩)
  have hdone := RangeDeletion.done_charge o env sizes s
  unfold RangeDeletion.charge
  split
  · exact hacc.trans (keeps_logAndApply _ _ hdone.added)
  · exact hacc

theorem keeps_deleteFilesInRanges (o : Options) (env : RangeDeletionEnv) (call : RangeDeletion) :
    fs.Keeps held (call.deleteFilesInRanges o env fs).1 := by
  have hdelete : fs.Keeps held (call.deleteBlobFilesInRanges o env fs).1 := keeps_deleteBlobFilesInRanges o env call
  unfold RangeDeletion.deleteFilesInRanges
  split
  · exact .refl _ _
  · split
    · split
      next fs₁ heq =>
        rw [heq] at hdelete
        split
        · exact hdelete
        next s hs => exact hdelete.trans (keeps_charge o env call _ hs)
      next heq =>
        rw [heq] at hdelete
        exact hdelete
    · exact .refl _ _

/-- The events of `BlobGC`, which leave the file where they find it the second time. -/
theorem findFile_onStorage_transitFiles {e : FileEvent} (he : ∀ st : FileState, (st.transit e).transit e = st.transit e)
    (ns : List Nat) (cf' : Nat) :
    (fs.onStorage cf (·.transitFiles e ns)).findFile cf' n =
      if cf' = cf ∧ n ∈ ns then (fs.findFile cf' n).map (·.fileStateTransit e) else fs.findFile cf' n := by
  have hidem (m : BlobFileMeta) : (m.fileStateTransit e).fileStateTransit e = m.fileStateTransit e := by
    simp only [fileStateTransit, he]
  unfold onStorage
  split
  next hnone =>
    split
    next heq => rw [heq.1, findFile, hnone]; rfl
    · rfl
  next s hs =>
    rw [findFile_setBlobStorage]
    by_cases heq : cf' = cf
    · subst heq
      rw [if_pos rfl, findFile_eq hs]
      refine (findFile_foldl_updateFile (f := (·.fileStateTransit e)) (fun _ => rfl) hidem ns s n).trans ?_
      simp only [true_and]
    · rw [if_neg heq, if_neg fun h => heq h.1]

end BlobFileSets

/-! ### One event -/

namespace FileMachine

variable {o : Options} {s s' : FileMachine} {e : FileMachineEvent}

/-- The files of running jobs are busy, and no two jobs share one. -/
structure Inv (s : FileMachine) : Prop where
  numbers : ∀ cf n m, s.fs.findFile cf n = some m → n ∈ s.numbers
  held : ∀ job ∈ s.jobs, ∀ n ∈ job.files, n ∈ s.numbers
  busy : ∀ job ∈ s.jobs, ∀ n ∈ job.files, ∀ m, s.fs.findFile job.cf n = some m → m.state.Busy
  nodup : ∀ job ∈ s.jobs, job.inputs.Nodup
  disjoint : s.jobs.Pairwise fun a b => a.cf = b.cf → a.files.Disjoint b.files

/-- A file after the step was there before, and has kept what the jobs that run on need; or its number is new. -/
structure Follows (s s' : FileMachine) : Prop where
  numbers : s.numbers ⊆ s'.numbers
  file : ∀ cf n m', s'.fs.findFile cf n = some m' →
    (∃ m, s.fs.findFile cf n = some m ∧ m.Keeps (s'.Held cf n) m') ∨ n ∉ s.numbers ∧ n ∈ s'.numbers

theorem Inv.exclusive (h : s.Inv) : s.Exclusive := by
  refine ⟨h.nodup, h.disjoint.imp fun hab hcf => ?_⟩
  exact fun n ha hb => hab hcf (mem_append_left _ ha) (mem_append_left _ hb)

theorem Inv.not_held (h : s.Inv) {cf n : Nat} {m : BlobFileMeta} (hm : s.fs.findFile cf n = some m)
    (hst : m.state = .normal) : ¬ s.Held cf n := by
  rintro ⟨job, hjob, rfl, hn⟩
  exact (h.busy job hjob n hn m hm).1 hst

theorem Follows.numbers_of (h : s.Inv) (hf : s.Follows s') : ∀ cf n m, s'.fs.findFile cf n = some m → n ∈ s'.numbers := by
  intro cf n m' hm'
  rcases hf.file cf n m' hm' with ⟨m, hm, -⟩ | ⟨-, hn⟩
  · exact hf.numbers (h.numbers cf n m hm)
  · exact hn

variable {job : BlobGC} {k : Nat}

theorem Follows.busy_of (h : s.Inv) (hf : s.Follows s') (hjob : job ∈ s.jobs) {job' : BlobGC}
    (hjob' : job' ∈ s'.jobs) (hcf : job'.cf = job.cf) {n : Nat} (hn : n ∈ job.files) (hn' : n ∈ job'.files) :
    ∀ m, s'.fs.findFile job'.cf n = some m → m.state.Busy := by
  intro m' hm'
  rcases hf.file job'.cf n m' hm' with ⟨m, hm, hk⟩ | ⟨hnew, -⟩
  · exact hk.busy ⟨job', hjob', rfl, hn'⟩ (h.busy job hjob n hn m (hcf ▸ hm))
  · exact absurd (h.held job hjob n hn) hnew

theorem Follows.inv (h : s.Inv) (hf : s.Follows s') (hjobs : s'.jobs = s.jobs) : s'.Inv where
  numbers := hf.numbers_of h
  held job hjob n hn := hf.numbers (h.held job (hjobs ▸ hjob) n hn)
  busy _ hjob _ hn := hf.busy_of h (hjobs ▸ hjob) hjob rfl hn hn
  nodup job hjob := h.nodup job (hjobs ▸ hjob)
  disjoint := hjobs ▸ h.disjoint

theorem follows_of_keeps (h : s.fs.Keeps s.Held s'.fs) (hjobs : s'.jobs = s.jobs) (hnumbers : s'.numbers = s.numbers) :
    s.Follows s' where
  numbers := hnumbers ▸ List.Subset.refl _
  file cf n m' hm' := by
    have hheld : s'.Held = s.Held := by unfold Held; rw [hjobs]
    rw [hheld]
    exact .inl (h cf n m' hm')

theorem follows_logAndApply {f : ManifestFaults} {e : ColumnFamilyEdit} {sep : Bool}
    (hfs : s'.fs = (s.fs.logAndApply sep f e).1) (hnew : ∀ m ∈ e.addedFiles, m.fileNumber ∉ s.numbers)
    (hnumbers : s'.numbers = e.addedFiles.map fileNumber ++ s.numbers) : s.Follows s' where
  numbers := hnumbers ▸ subset_append_right ..
  file cf n m' hm' := by
    rw [hfs] at hm'
    rcases findFile_logAndApply hm' with ⟨m, hm, hk⟩ | ⟨a, ha, rfl, -⟩
    · exact .inl ⟨m, hm, hk _⟩
    · refine .inr ⟨hnew a ha, ?_⟩
      rw [hnumbers]
      exact mem_append_left _ (mem_map_of_mem ha)

theorem getElem?_split {α : Type} {l : List α} {a : α} (h : l[k]? = some a) :
    ∃ l₁ l₂, l = l₁ ++ a :: l₂ ∧ l.eraseIdx k = l₁ ++ l₂ ∧ ∀ x, l.set k x = l₁ ++ x :: l₂ := by
  obtain ⟨hk, rfl⟩ := List.getElem?_eq_some_iff.1 h
  refine ⟨l.take k, l.drop (k + 1), ?_, eraseIdx_eq_take_drop_succ .., fun x => ?_⟩
  · rw [← drop_eq_getElem_cons hk, take_append_drop]
  · rw [set_eq_take_append_cons_drop, if_pos hk]

theorem pick_spec {cf : Nat} {inputs : List Nat} (h : s.Inv) (hnodup : inputs.Nodup)
    (hpick : ∀ n ∈ inputs, s.pickable o cf n = true) :
    let s' : FileMachine := { s with
      fs := s.fs.onStorage cf (·.transitFiles .gcBegin inputs)
      jobs := ⟨cf, inputs, []⟩ :: s.jobs }
    s'.Inv ∧ s.Follows s' := by
  intro s'
  have hnormal : ∀ n ∈ inputs, ∃ m, s.fs.findFile cf n = some m ∧ m.state = .normal := by
    intro n hn
    obtain ⟨m, hm, hstate⟩ := (Option.any_eq_true ..).1 (hpick n hn)
    rw [Bool.and_eq_true, decide_eq_true_iff] at hstate
    exact ⟨m, hm, hstate.1⟩
  have hfind (cf' n : Nat) : s'.fs.findFile cf' n =
      if cf' = cf ∧ n ∈ inputs then (s.fs.findFile cf' n).map (·.fileStateTransit .gcBegin)
      else s.fs.findFile cf' n :=
    findFile_onStorage_transitFiles (fun _ => rfl) inputs cf'
  have hf : s.Follows s' := by
    refine ⟨List.Subset.refl _, fun cf' n m' hm' => .inl ?_⟩
    rw [hfind] at hm'
    split at hm'
    next heq =>
      obtain ⟨rfl, hn⟩ := heq
      obtain ⟨m, hm, hst⟩ := hnormal n hn
      rw [hm] at hm'
      refine ⟨m, hm, fun hobs => ?_, fun _ hbusy => absurd hst hbusy.1⟩
      simp [isObsolete, hst] at hobs
    · exact ⟨m', hm', .refl _ _⟩
  refine ⟨⟨hf.numbers_of h, ?_, ?_, ?_, ?_⟩, hf⟩
  · rintro job hjob n hn
    rcases mem_cons.1 hjob with rfl | hjob
    · rw [BlobGC.files, append_nil] at hn
      obtain ⟨m, hm, -⟩ := hnormal n hn
      exact h.numbers cf n m hm
    · exact h.held job hjob n hn
  · rintro job hjob n hn
    rcases mem_cons.1 hjob with rfl | hjob'
    · rw [BlobGC.files, append_nil] at hn
      intro m' hm'
      obtain ⟨m, hm, -⟩ := hnormal n hn
      rw [hfind, if_pos ⟨rfl, hn⟩, hm] at hm'
      cases hm'
      constructor <;> intro hst <;> cases hst
    · exact hf.busy_of h hjob' hjob rfl hn hn
  · rintro job hjob
    rcases mem_cons.1 hjob with rfl | hjob
    · exact hnodup
    · exact h.nodup job hjob
  · refine pairwise_cons.2 ⟨?_, h.disjoint⟩
    rintro job hjob hcf n hn hn'
    rw [BlobGC.files, append_nil] at hn
    obtain ⟨m, hm, hst⟩ := hnormal n hn
    exact h.not_held hm hst ⟨job, hjob, hcf.symm, hn'⟩

theorem release_spec (h : s.Inv) (hjob : s.jobs[k]? = some job) : let s' : FileMachine := { s with
      fs := s.fs.onStorage job.cf (·.transitFiles .gcCompleted job.files)
      jobs := s.jobs.eraseIdx k }
    s'.Inv ∧ s.Follows s' := by
  intro s'
  have hidem : ∀ st : FileState, (st.transit .gcCompleted).transit .gcCompleted = st.transit .gcCompleted := by
    intro st
    cases st <;> rfl
  have hfind (cf' n : Nat) : s'.fs.findFile cf' n =
      if cf' = job.cf ∧ n ∈ job.files then (s.fs.findFile cf' n).map (·.fileStateTransit .gcCompleted)
      else s.fs.findFile cf' n :=
    findFile_onStorage_transitFiles hidem job.files cf'
  obtain ⟨l₁, l₂, hl, herase, -⟩ := getElem?_split hjob
  have hpairs := h.disjoint
  rw [hl, pairwise_append, pairwise_cons] at hpairs
  have hother : ∀ job' ∈ s'.jobs, job'.cf = job.cf → job.files.Disjoint job'.files := by
    intro job' hjob' hcf
    change job' ∈ s.jobs.eraseIdx k at hjob'
    rw [herase] at hjob'
    rcases mem_append.1 hjob' with hmem | hmem
    · exact (hpairs.2.2 job' hmem job (mem_cons_self ..) hcf).symm
    · exact hpairs.2.1.1 job' hmem hcf.symm
  have hsub : s'.jobs.Sublist s.jobs := eraseIdx_sublist ..
  have hf : s.Follows s' := by
    refine ⟨List.Subset.refl _, fun cf' n m' hm' => .inl ?_⟩
    rw [hfind] at hm'
    split at hm'
    next heq =>
      obtain ⟨rfl, hn⟩ := heq
      obtain ⟨m, hm, rfl⟩ := map_eq_some_iff.1 hm'
      refine ⟨m, hm, fun hobs => ?_, ?_⟩
      · have hst : m.state = .obsolete := by simpa [isObsolete] using hobs
        simp [isObsolete, fileStateTransit, transit, hst]
      · rintro ⟨job', hjob', hcf, hn'⟩
        exact absurd hn' fun hn' => hother job' hjob' hcf hn hn'
    · exact ⟨m', hm', .refl _ _⟩
  refine ⟨⟨hf.numbers_of h, ?_, ?_, ?_, h.disjoint.sublist hsub⟩, hf⟩
  · exact fun job' hjob' n hn => h.held job' (hsub.subset hjob') n hn
  · exact fun job' hjob' n hn => hf.busy_of h (hsub.subset hjob') hjob' rfl hn hn
  · exact fun job' hjob' => h.nodup job' (hsub.subset hjob')

theorem install_spec {f : ManifestFaults} {files : List BlobFileMeta} (h : s.Inv)
    (hjob : s.jobs[k]? = some job) (hnew : ∀ m ∈ files, m.fileNumber ∉ s.numbers)
    (hs : s.step o (.install k f files) = some s') : s'.Inv ∧ s.Follows s' := by
  simp only [step, hjob, if_pos hnew, some.injEq] at hs
  set e : ColumnFamilyEdit := { empty with
    columnFamilyId := job.cf
    addedFiles := files.map fun m => { m with state := transit .init .gcOutput } } with he
  have hadded : e.addedFiles.map fileNumber = files.map fileNumber := by
    rw [List.map_map]
    rfl
  have hfs : s'.fs = (s.fs.logAndApply o.sepBeforeFlush f e).1 := by rw [← hs]
  have hf : s.Follows s' := by
    refine follows_logAndApply hfs (fun m hm => ?_) (by rw [hadded, ← hs])
    obtain ⟨m₀, hm₀, rfl⟩ := mem_map.1 hm
    exact hnew m₀ hm₀
  refine ⟨?_, hf⟩
  by_cases hok : (s.fs.logAndApply o.sepBeforeFlush f e).2 = .ok
  · set job' : BlobGC := { job with outputs := job.outputs ++ files.map fileNumber } with hjob'
    obtain ⟨l₁, l₂, hl, -, hset⟩ := getElem?_split hjob
    have hjobs : s'.jobs = l₁ ++ job' :: l₂ := by
      rw [← hs, ← hset]
      exact if_pos hok
    have hmem : ∀ j ∈ s'.jobs, j = job' ∨ j ∈ s.jobs := by
      intro j hj
      rw [hjobs, mem_append, mem_cons] at hj
      rw [hl, mem_append]
      tauto
    have hold : job ∈ s.jobs := mem_of_getElem? hjob
    have hsame : job' ∈ s'.jobs := by rw [hjobs]; simp
    have hfiles : ∀ n ∈ job'.files, n ∈ job.files ∨ n ∈ files.map fileNumber := by
      intro n hn
      rw [BlobGC.files, ← append_assoc] at hn
      exact mem_append.1 hn
    have hfresh : ∀ n ∈ files.map fileNumber, n ∉ s.numbers := by
      intro n hn
      obtain ⟨m, hm, rfl⟩ := mem_map.1 hn
      exact hnew m hm
    refine ⟨hf.numbers_of h, ?_, ?_, ?_, ?_⟩
    · intro j hj n hn
      rcases hmem j hj with rfl | hj
      · rcases hfiles n hn with hn | hn
        · exact hf.numbers (h.held job hold n hn)
        · rw [← hs]
          exact mem_append_left _ hn
      · exact hf.numbers (h.held j hj n hn)
    · intro j hj n hn
      rcases hmem j hj with rfl | hj'
      · rcases hfiles n hn with hn' | hn'
        · exact hf.busy_of h hold hsame rfl hn' hn
        · intro m hm
          rw [hfs] at hm
          rcases findFile_logAndApply hm with ⟨m₀, hm₀, -⟩ | ⟨a, ha, -, hst⟩
          · exact absurd (h.numbers _ _ _ hm₀) (hfresh n hn')
          · obtain ⟨a₀, -, rfl⟩ := mem_map.1 ha
            rw [hst]
            constructor <;> intro hst <;> cases hst
      · exact hf.busy_of h hj' hj rfl hn hn
    · intro j hj
      rcases hmem j hj with rfl | hj
      · exact h.nodup job hold
      · exact h.nodup j hj
    · have hpairs := h.disjoint
      rw [hl, pairwise_append, pairwise_cons] at hpairs
      have hdisj : ∀ j ∈ s.jobs, job.files.Disjoint j.files → job'.files.Disjoint j.files := by
        intro j hj hd n hn hn'
        rcases hfiles n hn with hn | hn
        · exact hd hn hn'
        · exact hfresh n hn (h.held j hj n hn')
      rw [hjobs, pairwise_append, pairwise_cons]
      refine ⟨hpairs.1, ⟨fun j hj hcf => ?_, hpairs.2.1.2⟩, fun a ha b hb hcf => ?_⟩
      · exact hdisj j (by rw [hl]; simp [hj]) (hpairs.2.1.1 j hj hcf)
      · rcases mem_cons.1 hb with rfl | hb
        · exact (hdisj a (by rw [hl]; simp [ha]) (hpairs.2.2 a ha job (mem_cons_self ..) hcf).symm).symm
        · exact hpairs.2.2 a ha b (mem_cons_of_mem _ hb) hcf
  · refine hf.inv h ?_
    rw [← hs]
    exact if_neg hok

theorem step_spec (h : s.Inv) (hcalm : s.Calm e) (hs : s.step o e = some s') : s'.Inv ∧ s.Follows s' := by
  -- an event that leaves the jobs alone
  have hquiet (hjobs : s'.jobs = s.jobs) (hnumbers : s'.numbers = s.numbers) (hk : s.fs.Keeps s.Held s'.fs) :
      s'.Inv ∧ s.Follows s' :=
    have hf := follows_of_keeps hk hjobs hnumbers
    ⟨hf.inv h hjobs, hf⟩
  cases e with
  | edit f e =>
    simp only [step] at hs
    split at hs
    next hnew =>
      rw [some.injEq] at hs
      have hf : s.Follows s' := follows_logAndApply (by rw [← hs]) hnew (by rw [← hs])
      exact ⟨hf.inv h (by rw [← hs]), hf⟩
    · cases hs
  | pick cf inputs =>
    simp only [step] at hs
    split at hs
    next hpick =>
      cases hs
      exact pick_spec h hpick.1 hpick.2
    · cases hs
  | install k f files =>
    rcases hjob : s.jobs[k]? with _ | job
    · simp [step, hjob] at hs
    · by_cases hnew : ∀ m ∈ files, m.fileNumber ∉ s.numbers
      · exact install_spec h hjob hnew hs
      · simp [step, hjob, hnew] at hs
  | release k =>
    rcases hjob : s.jobs[k]? with _ | job
    · simp [step, hjob] at hs
    · simp only [step, hjob, some.injEq] at hs
      rw [← hs]
      exact release_spec h hjob
  | flushCompleted cf property =>
    cases hs
    exact hquiet rfl rfl (keeps_onStorage fun _ _ => keeps_onFlushCompleted property)
  | compactionCompleted env info =>
    cases hs
    exact hquiet rfl rfl (keeps_onCompactionCompleted o env info hcalm)
  | deleteFilesInRanges env call =>
    cases hs
    exact hquiet rfl rfl (keeps_deleteFilesInRanges o env call)
  | getObsoleteFiles cf oldest =>
    cases hs
    exact hquiet rfl rfl (keeps_onStorage fun _ _ => keeps_getObsoleteFiles oldest)

/-! ### Whole runs -/

theorem inv_start (fs : BlobFileSets) : (start fs).Inv := by
  refine ⟨fun cf n m hm => ?_, nofun, nofun, nofun, List.Pairwise.nil⟩
  obtain ⟨st, hst, hm⟩ := bind_eq_some_iff.1 hm
  refine mem_flatMap.2 ⟨(cf, st), (OrdMap.mem_entries _).2 hst, ?_⟩
  rw [← fileNumber_of_findFile hm]
  exact mem_map_of_mem (mem_of_find?_eq_some hm)

/-- The file is obsolete or gone, and its number does not come back. -/
def Dead (cf n : Nat) (s : FileMachine) : Prop :=
  n ∈ s.numbers ∧ ∀ m, s.fs.findFile cf n = some m → m.isObsolete = true

theorem Dead.follows {cf n : Nat} (h : s.Dead cf n) (hf : s.Follows s') : s'.Dead cf n := by
  refine ⟨hf.numbers h.1, fun m' hm' => ?_⟩
  rcases hf.file cf n m' hm' with ⟨m, hm, hk⟩ | ⟨hnew, -⟩
  · exact hk.obsolete (h.2 m hm)
  · exact absurd h.1 hnew

/-- As long as compactions complete calmly, jobs do not share inputs and obsolete files stay obsolete. -/
theorem states_of_calm (o : Options) (fs : BlobFileSets) {es₁ es₂ : List FileMachineEvent} {s₁ s₂ : FileMachine}
    (h₁ : run (step o) (start fs) es₁ = some s₁) (h₂ : run (step o) s₁ es₂ = some s₂)
    (hc₁ : AllSteps (step o) Calm (start fs) es₁) (hc₂ : AllSteps (step o) Calm s₁ es₂) :
    s₂.Exclusive ∧ s₁.StaysObsolete s₂ := by
  have hinv : s₁.Inv := run_inv (fun s e s' h hc hs => (step_spec h hc hs).1) (inv_start fs) hc₁ h₁
  have hinv₂ : s₂.Inv := run_inv (fun s e s' h hc hs => (step_spec h hc hs).1) hinv hc₂ h₂
  refine ⟨hinv₂.exclusive, fun cf n m m' hm hobs hm' => ?_⟩
  have hdead : s₁.Dead cf n := by
    refine ⟨hinv.numbers cf n m hm, fun m₁ hm₁ => ?_⟩
    rw [hm] at hm₁
    cases hm₁
    exact hobs
  have hrun : s₂.Inv ∧ s₂.Dead cf n := by
    refine run_inv (I := fun s => s.Inv ∧ s.Dead cf n) ?_ ⟨hinv, hdead⟩ hc₂ h₂
    rintro s e s' ⟨h, hd⟩ hc hs
    obtain ⟨h', hf⟩ := step_spec h hc hs
    exact ⟨h', hd.follows hf⟩
  exact hrun.2.2 m' hm'

/-! A compaction writes file 1, and all files are deleted before it is done. -/

def emptyVersion : LsmVersion where
  numberLevels := 1
  numNonEmptyLevels := 0
  levelFiles := fun _ => []
  overlapInLevel := fun _ _ => false
  cleanInputs := fun _ _ => []
  nonEmpty_le := by decide
  clean_mem := nofun
  clean_overlap := fun _ _ h => absurd rfl h
  number_inj := fun _ h => absurd h (Nat.not_lt_zero _)
  collectable := fun _ h => absurd h (Nat.not_lt_zero _)

def rangeEnv : RangeDeletionEnv := ⟨emptyVersion, fun _ => none, .ok, 9, fun _ => false, {}, {}⟩

def addedByCompaction : FileMachineEvent :=
  .edit {} { empty with
    addedFiles := [⟨1, 70, 1, .sorted, 5, [1], [5], transit .init .flushOrCompactionOutput, 0⟩] }

def deleteEverything : FileMachineEvent := .deleteFilesInRanges rangeEnv ⟨0, [⟨none, none⟩], true⟩

def compactionDone : FileMachineEvent :=
  .compactionCompleted CompactionJobInfo.mergeEnv
    { cfId := 0, ok := true, inputFiles := [], outputFiles := [7],
      tableProperties := fun _ => some (propertyOf [⟨1, 8, 13⟩]), outputLevel := 5 }

/-- The compaction is done before the deletion, and a job that has picked the file releases it. -/
theorem states_of_calm_done_first :
    ∃ s₁ s₂, run (step (.small false false)) (start (emptyFileSets 1))
        [addedByCompaction, compactionDone, .pick 0 [1], deleteEverything] = some s₁ ∧
      run (step (.small false false)) s₁ [.release 0] = some s₂ ∧ s₂.Exclusive ∧ s₁.StaysObsolete s₂ ∧
      (s₁.fs.findFile 0 1).map state = some .obsolete := by
  have hstate : ((run (step (.small false false)) (start (emptyFileSets 1))
      [addedByCompaction, compactionDone, .pick 0 [1], deleteEverything]).map
        fun s₁ => ((s₁.fs.findFile 0 1).map state, s₁.jobs.length)) = some (some .obsolete, 1) := by
    decide +kernel
  have hcalm : AllSteps (step (.small false false)) Calm (start (emptyFileSets 1))
      [addedByCompaction, compactionDone, .pick 0 [1], deleteEverything] := by
    decide +kernel
  obtain ⟨s₁, hs₁, hobs⟩ := map_eq_some_iff.1 hstate
  obtain ⟨hobs, hjobs⟩ := Prod.mk.inj hobs
  obtain ⟨job, hjob⟩ := length_eq_one_iff.1 hjobs
  have hs₂ : run (step (.small false false)) s₁ [.release 0] = some { s₁ with
      fs := s₁.fs.onStorage job.cf (·.transitFiles .gcCompleted job.files)
      jobs := [] } := by
    simp [run, step, hjob]
  obtain ⟨hexcl, hstays⟩ := states_of_calm (.small false false) (emptyFileSets 1) hs₁ hs₂ hcalm
    ⟨trivial, fun _ _ => trivial⟩
  exact ⟨s₁, _, hs₁, hs₂, hexcl, hstays, hobs⟩

/-- The other way round the file is normal again, and a job may pick it while it is listed for the purge. -/
theorem revived_by_compaction :
    ∃ s₁ s₂, run (step (.small false false)) (start (emptyFileSets 1)) [addedByCompaction, deleteEverything] = some s₁ ∧
      run (step (.small false false)) s₁ [compactionDone] = some s₂ ∧ ¬ s₁.StaysObsolete s₂ ∧
      (s₂.fs.getBlobStorage 0).map (fun s => s.obsoleteFiles.map Prod.fst) = some [1] ∧
      s₂.pickable (.small false false) 0 1 = true := by
  refine exists₂_of_bind (fun s₁ s₂ => ((s₁.fs.findFile 0 1).map isObsolete, (s₂.fs.findFile 0 1).map isObsolete,
    (s₂.fs.getBlobStorage 0).map (fun s => s.obsoleteFiles.map Prod.fst), s₂.pickable (.small false false) 0 1))
    (some true, some false, some [1], true) (by decide +kernel) fun s₁ s₂ hs₁ hs₂ heq => ?_
  simp only [Prod.mk.injEq] at heq
  obtain ⟨h₁, h₂, hlist, hpick⟩ := heq
  refine ⟨fun hstays => ?_, hlist, hpick⟩
  obtain ⟨m, hm, hobs⟩ := map_eq_some_iff.1 h₁
  obtain ⟨m', hm', hnot⟩ := map_eq_some_iff.1 h₂
  rw [hstays 0 1 m m' hm hobs hm'] at hnot
  cases hnot

end FileMachine

end ValueSep.DiffKV
