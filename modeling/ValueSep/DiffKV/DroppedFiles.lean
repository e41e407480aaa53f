import ValueSep.DiffKV.FileStates

/-!
# Range deletions and snapshots

A file that has become obsolete waits in `obsolete_files_` with the sequence number of its deletion, and
`GetObsoleteFiles` hands it out when no snapshot is as old as that. `DeleteFilesInRanges` has two ways to make a file
obsolete: the files that lie in the ranges are deleted by an edit without a sequence number, and the files that the
removed SSTs have left without live data by one that has it. `Marks` says of a call which entries it may add to
the lists; only for the second way is the number the one of the call.
-/

namespace ValueSep.DiffKV

open Coding Exec
open List Option BlobFileSets RangeDeletion BlobStorage BlobFileMeta OrdMap

/-! ### Entries of the obsolete lists -/

namespace BlobFileSets

/-- `obsolete_files_` of a column family. -/
def listed (fs : BlobFileSets) (cf : Nat) : List (Nat × SequenceNumber) :=
  ((fs.getBlobStorage cf).map obsoleteFiles).getD []

/-- A new entry is for a file that was not obsolete and is now, and its sequence number meets `P`. -/
def Marks (P : SequenceNumber → Prop) (fs fs' : BlobFileSets) : Prop :=
  ∀ cf, ∀ p ∈ fs'.listed cf, p ∈ fs.listed cf ∨
    (∃ m, fs.findFile cf p.1 = some m ∧ m.isObsolete = false) ∧
      (∀ m', fs'.findFile cf p.1 = some m' → m'.isObsolete = true) ∧ P p.2

variable {P Q : SequenceNumber → Prop} {fs fs' fs'' : BlobFileSets} {s s' : BlobStorage} {cf : Nat}
variable {held : Nat → Nat → Prop}

theorem listed_eq (hs : fs.getBlobStorage cf = some s) : fs.listed cf = s.obsoleteFiles := by
  rw [listed, hs]
  rfl

theorem Marks.refl (P : SequenceNumber → Prop) (fs : BlobFileSets) : fs.Marks P fs := fun _ _ hp => .inl hp

theorem Marks.mono (h : fs.Marks P fs') (hPQ : ∀ q, P q → Q q) : fs.Marks Q fs' := by
  intro cf p hp
  exact (h cf p hp).imp_right fun ⟨hm, hm', hP⟩ => ⟨hm, hm', hPQ _ hP⟩

/-- What is obsolete in between stays so, and what is not obsolete in between has not been before. -/
theorem Marks.trans (h : fs.Marks P fs') (hk : fs.Keeps held fs') (h' : fs'.Marks P fs'') (hk' : fs'.Keeps held fs'') :
    fs.Marks P fs'' := by
  intro cf p hp
  rcases h' cf p hp with hp' | ⟨⟨m', hm', hobs⟩, hafter, hP⟩
  · rcases h cf p hp' with hp | ⟨hm, hafter, hP⟩
    · exact .inl hp
    · refine .inr ⟨hm, fun m'' hm'' => ?_, hP⟩
      obtain ⟨m', hm', hkeep⟩ := hk' cf p.1 m'' hm''
      exact hkeep.obsolete (hafter m' hm')
  · obtain ⟨m, hm, hkeep⟩ := hk cf p.1 m' hm'
    refine .inr ⟨⟨m, hm, ?_⟩, hafter, hP⟩
    rw [← Bool.not_eq_true]
    intro hmobs
    rw [hkeep.obsolete hmobs] at hobs
    cases hobs

theorem listed_setBlobStorage (cf' : Nat) :
    (fs.setBlobStorage cf s).listed cf' = if cf' = cf then s.obsoleteFiles else fs.listed cf' := by
  rw [listed, getBlobStorage, setBlobStorage, find?_alter]
  split <;> rfl

theorem marks_setBlobStorage (hs : fs.getBlobStorage cf = some s) (h : s'.obsoleteFiles = s.obsoleteFiles) :
    fs.Marks P (fs.setBlobStorage cf s') := by
  intro cf' p hp
  rw [listed_setBlobStorage] at hp
  split at hp
  next heq =>
    rw [heq, listed_eq hs, ← h]
    exact .inl hp
  · exact .inl hp

theorem marks_onStorage {f : BlobStorage → BlobStorage} (h : ∀ s, (f s).obsoleteFiles = s.obsoleteFiles) :
    fs.Marks P (fs.onStorage cf f) := by
  unfold onStorage
  split
  · exact .refl _ _
  next s hs => exact marks_setBlobStorage hs (h s)

theorem marks_getObsoleteFiles (oldest : SequenceNumber) :
    fs.Marks P (fs.onStorage cf fun s => (s.getObsoleteFiles oldest).1) := by
  unfold onStorage
  split
  · exact .refl _ _
  next s hs =>
    intro cf' p hp
    rw [listed_setBlobStorage] at hp
    split at hp
    next heq =>
      rw [heq, listed_eq hs]
      exact .inl (mem_filter.1 hp).1
    · exact .inl hp

theorem marks_logAndApply (sep : Bool) (f : ManifestFaults) {e : ColumnFamilyEdit} (hP : ∀ p ∈ e.deletedFiles, P p.2) :
    fs.Marks P (fs.logAndApply sep f e).1 := by
  intro cf p hp
  rcases @getBlobStorage_logAndApply sep f fs e cf with hsame | ⟨⟨hacc, -⟩, rfl, heq⟩
  · rw [listed, hsame] at hp
    exact .inl hp
  · rcases hs : fs.getBlobStorage e.columnFamilyId with _ | s
    · rw [listed, heq, hs] at hp
      cases hp
    · have hseal := VersionEdit.sealed_iff.2 (hacc.sealed s hs)
      have happly : (fs.logAndApply sep f e).1.getBlobStorage e.columnFamilyId = some (e.collector.apply sep s).1 := by
        rw [heq, hs]
        rfl
      rw [listed_eq happly, EditCollector.obsoleteFiles_apply sep hseal] at hp
      rcases mem_append.1 hp with hp | hp
      · exact .inl (listed_eq hs ▸ hp)
      · obtain ⟨hmem, hadds⟩ := mem_filter.1 hp
        right
        rcases (EditCollector.sealStatus_eq_ok.1 hseal).2 p hmem with hpaired | ⟨m, hm, hobs⟩
        · rw [hpaired] at hadds
          cases hadds
        · refine ⟨⟨m, (findFile_eq hs).trans hm, hobs⟩, fun m' hm' => ?_, hP p hmem⟩
          rw [findFile_eq happly] at hm'
          obtain ⟨g, hg, hsame⟩ := EditCollector.findFile_apply sep hseal p.1
          rw [if_pos (mem_map_of_mem hp), hm', hm] at hg
          cases hg
          simp [isObsolete, (hsame _).2, fileStateTransit, FileState.transit]

end BlobFileSets

/-! ### The calls -/


namespace BlobStorage

theorem obsoleteFiles_onFlushCompleted (property : Option Bytes) (s : BlobStorage) :
    (onFlushCompleted property s).obsoleteFiles = s.obsoleteFiles := by
  have hfile : ∀ (a : FlushAcc) (f : Nat × Nat), (a.file f).storage.obsoleteFiles = a.storage.obsoleteFiles := by
    intro a f
    unfold FlushAcc.file
    split <;> rfl
  cases property with
  | none => rfl
  | some src => exact Keyed.foldl_frame (g := fun a : FlushAcc => a.storage.obsoleteFiles) hfile _ _

theorem obsoleteFiles_transitOutputs (ns : List Nat) (s : BlobStorage) :
    (transitOutputs s ns).1.obsoleteFiles = s.obsoleteFiles := by
  induction ns generalizing s with
  | nil => rfl
  | cons n ns ih =>
    unfold transitOutputs
    split
    · rfl
    · exact ih _

theorem obsoleteFiles_compactionAcc (o : Options) (env : CompactionEnv) (count : Bool) (ds : List (Nat × Int))
    (a : CompactionAcc) :
    (ds.foldl (CompactionAcc.file o env count) a).storage.obsoleteFiles = a.storage.obsoleteFiles := by
  refine Keyed.foldl_frame (g := fun a : CompactionAcc => a.storage.obsoleteFiles) (fun a d => ?_) ds a
  exact CompactionAcc.file_rule (P := fun s => s.obsoleteFiles = _) (fun _ => rfl) (fun _ => rfl) fun _ h => h

theorem obsoleteFiles_rangeDeletion (o : Options) (env : RangeDeletionEnv) (ds : List (Nat × Nat))
    (a : RangeDeletion.Acc) :
    (ds.foldl (RangeDeletion.Acc.file o env) a).storage.obsoleteFiles = a.storage.obsoleteFiles := by
  refine Keyed.foldl_frame (g := fun a : RangeDeletion.Acc => a.storage.obsoleteFiles) (fun a d => ?_) ds a
  unfold RangeDeletion.Acc.file
  split
  · rfl
  · dsimp only
    split
    · split
      · rfl
      · split
        · rfl
        · split <;> rfl
    · rfl

end BlobStorage

namespace BlobFileSets

variable {fs : BlobFileSets} {s : BlobStorage} {held : Nat → Nat → Prop}

theorem marks_onCompactionCompleted (o : Options) (env : CompactionEnv) (info : CompactionJobInfo)
    (h : info.ok = true → ∀ n ∈ (SizeDiff.ofCompaction info).outputs.keys, ∀ m ∈ fs.findFile info.cfId n,
      m.isObsolete = false ∧ ¬ held info.cfId n) : fs.Marks (fun _ => True) (onCompactionCompleted o env info fs) := by
  have hsame : ∀ s, (compactionAccounting o env info s).1.obsoleteFiles = s.obsoleteFiles := by
    intro s
    have hout := obsoleteFiles_transitOutputs (SizeDiff.ofCompaction info).outputs.keys s
    unfold compactionAccounting
    dsimp only
    split <;> rename_i heq <;> rw [heq] at hout
    · exact hout
    · exact (obsoleteFiles_compactionAcc o env _ _ _).trans hout
  refine (onCompactionCompleted_rule (P := fun fs' => fs.Keeps held fs' ∧ fs.Marks (fun _ => True) fs')
    ⟨.refl _ _, .refl _ _⟩ (fun s hok hs => ?_) (fun fs' e hP he => ?_) fun fs' s files hP hs => ?_).2
  · exact ⟨keeps_compactionAccounting o env hs (h hok), marks_setBlobStorage hs (hsame s)⟩
  · have hkeep : fs'.Keeps held _ := keeps_logAndApply o.sepBeforeFlush env.manifest he
    exact ⟨hP.1.trans hkeep, hP.2.trans hP.1 (marks_logAndApply _ _ fun _ _ => trivial) hkeep⟩
  · have hkeep : fs'.Keeps held _ := keeps_setBlobStorage hs (keeps_markFileIfNeedMerge env files)
    exact ⟨hP.1.trans hkeep, hP.2.trans hP.1 (marks_setBlobStorage hs (foldl_updateFile_frame ..).2) hkeep⟩

theorem deletedFiles_charge (o : Options) (env : RangeDeletionEnv) (ds : List (Nat × Nat)) (a : RangeDeletion.Acc)
    (h : ∀ p ∈ a.edit.deletedFiles, p.2 = env.latestSequenceNumber) :
    ∀ p ∈ (ds.foldl (RangeDeletion.Acc.file o env) a).edit.deletedFiles, p.2 = env.latestSequenceNumber := by
  refine foldlRecOn (motive := fun a : RangeDeletion.Acc => ∀ p ∈ a.edit.deletedFiles, p.2 = env.latestSequenceNumber)
    ds _ h fun a h d _ => ?_
  unfold RangeDeletion.Acc.file
  split
  · exact h
  · dsimp only
    split
    · split
      · exact forall_mem_append.2 ⟨h, forall_mem_singleton.2 rfl⟩
      · split
        · exact h
        · split <;> exact h
    · exact h

theorem marks_charge (o : Options) (env : RangeDeletionEnv) (call : RangeDeletion) (sizes : OrdMap Nat Nat)
    (hs : fs.getBlobStorage call.cf = some s) :
    fs.Marks (· = env.latestSequenceNumber) (call.charge o env sizes s fs) := by
  let held : Nat → Nat → Prop := fun _ _ => False
  set a := sizes.entries.foldl (RangeDeletion.Acc.file o env) ⟨s, 0, .empty⟩ with ha
  have hkeep : fs.Keeps held (fs.setBlobStorage call.cf a.storage) :=
    keeps_setBlobStorage hs (keeps_rangeDeletion o env _ ⟨s, 0, .empty⟩)
  have hmark : fs.Marks (· = env.latestSequenceNumber) (fs.setBlobStorage call.cf a.storage) :=
    marks_setBlobStorage hs (obsoleteFiles_rangeDeletion o env _ ⟨s, 0, .empty⟩)
  have hdone := done_charge o env sizes s
  unfold charge
  split
  · exact hmark.trans hkeep (marks_logAndApply _ _ (deletedFiles_charge o env _ ⟨s, 0, .empty⟩ nofun))
      (keeps_logAndApply _ _ hdone.added)
  · exact hmark

/-- The entries have the latest sequence number, and 0 for the files that lie in the ranges. -/
theorem marks_deleteFilesInRanges {P : SequenceNumber → Prop} (o : Options) (env : RangeDeletionEnv)
    (call : RangeDeletion) (hP : P env.latestSequenceNumber)
    (h : P 0 ∨ ∀ s ∈ fs.getBlobStorage call.cf, call.getBlobFilesInRanges o s = []) :
    fs.Marks P (call.deleteFilesInRanges o env fs).1 := by
  let held : Nat → Nat → Prop := fun _ _ => False
  have hkeep : fs.Keeps held (call.deleteBlobFilesInRanges o env fs).1 := keeps_deleteBlobFilesInRanges o env call
  have hmark : fs.Marks P (call.deleteBlobFilesInRanges o env fs).1 := by
    unfold deleteBlobFilesInRanges
    split
    · exact .refl _ _
    next s hs =>
      refine marks_logAndApply _ _ fun p hp => ?_
      obtain ⟨n, hn, rfl⟩ := mem_map.1 hp
      rcases h with hzero | hnone
      · exact hzero
      · rw [hnone s hs] at hn
        cases hn
  unfold deleteFilesInRanges
  split
  · exact .refl _ _
  · split
    · split
      next fs₁ heq =>
        rw [heq] at hkeep hmark
        split
        · exact hmark
        next s hs =>
          exact hmark.trans hkeep ((marks_charge o env call _ hs).mono fun _ hq => hq ▸ hP)
            (keeps_charge o env call _ hs)
      next heq =>
        rw [heq] at hmark
        exact hmark
    · exact .refl _ _

end BlobFileSets

/-! ### Whole runs -/

namespace FileMachine

variable {o : Options} {s s' : FileMachine} {e : FileMachineEvent}

/-- What waits in a list is obsolete, or already gone. -/
def Listed (s : FileMachine) : Prop := ∀ cf, ∀ p ∈ s.fs.listed cf, s.Dead cf p.1

/-- Compactions complete calmly, and a range deletion at a sequence number other than 0 finds no blob file in its
ranges. -/
def Traced (o : Options) (s : FileMachine) (e : FileMachineEvent) : Prop :=
  s.Calm e ∧ match e with
    | .deleteFilesInRanges env call => env.latestSequenceNumber = 0 ∨
        ∀ st ∈ s.fs.getBlobStorage call.cf, call.getBlobFilesInRanges o st = []
    | _ => True

theorem marks_step (hcalm : s.Calm e) (hs : s.step o e = some s') : s.fs.Marks (fun _ => True) s'.fs := by
  have htransit (ev : FileEvent) (ns : List Nat) (st : BlobStorage) :
      (st.transitFiles ev ns).obsoleteFiles = st.obsoleteFiles := (foldl_updateFile_frame ..).2
  cases e with
  | edit f e =>
    obtain ⟨-, ⟨⟩⟩ := Option.ite_none_right_eq_some.1 hs
    exact marks_logAndApply _ _ fun _ _ => trivial
  | pick cf inputs =>
    obtain ⟨-, ⟨⟩⟩ := Option.ite_none_right_eq_some.1 hs
    exact marks_onStorage (htransit .gcBegin inputs)
  | install k f files =>
    simp only [step] at hs
    split at hs
    · cases hs
    · obtain ⟨-, ⟨⟩⟩ := Option.ite_none_right_eq_some.1 hs
      exact marks_logAndApply _ _ fun _ _ => trivial
  | release k =>
    simp only [step] at hs
    split at hs
    all_goals cases hs
    exact marks_onStorage (htransit .gcCompleted _)
  | flushCompleted cf property =>
    cases hs
    exact marks_onStorage (obsoleteFiles_onFlushCompleted property)
  | compactionCompleted env info =>
    cases hs
    exact marks_onCompactionCompleted o env info hcalm
  | deleteFilesInRanges env call =>
    cases hs
    exact marks_deleteFilesInRanges o env call trivial (.inl trivial)
  | getObsoleteFiles cf oldest =>
    cases hs
    exact marks_getObsoleteFiles oldest

theorem Listed.step (h : s.Listed) (hinv : s.Inv) (hcalm : s.Calm e) (hs : s.step o e = some s') : s'.Listed := by
  obtain ⟨-, hf⟩ := step_spec hinv hcalm hs
  intro cf p hp
  rcases marks_step hcalm hs cf p hp with hp | ⟨⟨m, hm, -⟩, hafter, -⟩
  · exact (h cf p hp).follows hf
  · exact ⟨hf.numbers (hinv.numbers cf p.1 m hm), hafter⟩

/-- The file is obsolete or gone, and no entry hands it out at a sequence number up to `q`. -/
structure Waits (q : SequenceNumber) (cf n : Nat) (s : FileMachine) : Prop where
  dead : s.Dead cf n
  entries : ∀ p ∈ s.fs.listed cf, p.1 = n → q ≤ p.2

theorem Waits.step {q : SequenceNumber} {cf n : Nat} (h : s.Waits q cf n) (hinv : s.Inv) (hcalm : s.Calm e)
    (hs : s.step o e = some s') : s'.Waits q cf n := by
  obtain ⟨-, hf⟩ := step_spec hinv hcalm hs
  refine ⟨h.dead.follows hf, fun p hp hn => ?_⟩
  rcases marks_step hcalm hs cf p hp with hp | ⟨⟨m, hm, hobs⟩, -⟩
  · exact h.entries p hp hn
  · rw [h.dead.2 m (hn ▸ hm)] at hobs
    cases hobs

/-- A file that a traced range deletion has made obsolete waits for the latest sequence number. -/
theorem waits_deleteFilesInRanges {env : RangeDeletionEnv} {call : RangeDeletion} {cf n : Nat} {m m' : BlobFileMeta}
    (hinv : s.Inv) (hlisted : s.Listed) (htraced : s.Traced o (.deleteFilesInRanges env call))
    (hs : s.step o (.deleteFilesInRanges env call) = some s') (hm : s.fs.findFile cf n = some m)
    (hlive : m.isObsolete = false) (hm' : s'.fs.findFile cf n = some m') (hobs : m'.isObsolete = true) :
    s'.Waits env.latestSequenceNumber cf n := by
  obtain ⟨-, hf⟩ := step_spec hinv htraced.1 hs
  have hmarks : s.fs.Marks (· = env.latestSequenceNumber) s'.fs := by
    cases hs
    exact marks_deleteFilesInRanges o env call rfl (htraced.2.imp_left Eq.symm)
  constructor
  · refine ⟨hf.numbers (hinv.numbers cf n m hm), fun m₁ hm₁ => ?_⟩
    cases hm'.symm.trans hm₁
    exact hobs
  · intro p hp hn
    rcases hmarks cf p hp with hp | ⟨-, -, hq⟩
    · rw [(hlisted cf p hp).2 m (hn ▸ hm)] at hlive
      cases hlive
    · exact hq.ge

/-- In a traced run, a file that a range deletion makes obsolete is handed out by no purge for a sequence number up to
the one of the deletion. -/
theorem range_deletion_respects_snapshots (o : Options) (fs : BlobFileSets) (hlisted : (start fs).Listed)
    {es₁ es₂ : List FileMachineEvent} {env : RangeDeletionEnv} {call : RangeDeletion} {s₁ s₂ s₃ : FileMachine}
    (htraced : AllSteps (step o) (Traced o) (start fs) (es₁ ++ .deleteFilesInRanges env call :: es₂))
    (h₁ : run (step o) (start fs) es₁ = some s₁) (h₂ : s₁.step o (.deleteFilesInRanges env call) = some s₂)
    (h₃ : run (step o) s₂ es₂ = some s₃) {cf n : Nat} {m m' : BlobFileMeta} (hm : s₁.fs.findFile cf n = some m)
    (hlive : m.isObsolete = false) (hm' : s₂.fs.findFile cf n = some m') (hobs : m'.isObsolete = true)
    {st : BlobStorage} (hst : s₃.fs.getBlobStorage cf = some st) {oldest : SequenceNumber}
    (holdest : oldest ≤ env.latestSequenceNumber) : n ∉ (st.getObsoleteFiles oldest).2 := by
  have hbefore : s₁.Inv ∧ s₁.Listed := by
    refine run_inv (I := fun s => s.Inv ∧ s.Listed) ?_ ⟨inv_start fs, hlisted⟩ htraced.append h₁
    rintro s e s' ⟨hinv, hl⟩ ht hs
    exact ⟨(step_spec hinv ht.1 hs).1, hl.step hinv ht.1 hs⟩
  have hrest := htraced.of_append h₁
  have hwaits := waits_deleteFilesInRanges hbefore.1 hbefore.2 hrest.1 h₂ hm hlive hm' hobs
  have hafter : s₃.Inv ∧ s₃.Waits env.latestSequenceNumber cf n := by
    refine run_inv (I := fun s => s.Inv ∧ s.Waits env.latestSequenceNumber cf n) ?_
      ⟨(step_spec hbefore.1 hrest.1.1 h₂).1, hwaits⟩ (hrest.2 s₂ h₂) h₃
    rintro s e s' ⟨hinv, hw⟩ ht hs
    exact ⟨(step_spec hinv ht.1 hs).1, hw.step hinv ht.1 hs⟩
  intro hn
  obtain ⟨p, hp, hnum⟩ := mem_map.1 hn
  obtain ⟨hp, hlt⟩ := mem_filter.1 hp
  have hge := hafter.2.entries p (listed_eq hst ▸ hp) hnum
  have hlt' : p.2 < oldest := by simpa using hlt
  exact Nat.not_lt.2 (Nat.le_trans holdest hge) hlt'

/-! One file with one record of 15 bytes, and the SST that refers to it. -/

def lastRecordFileSets : BlobFileSets :=
  ⟨OrdMap.empty.alter 0 fun _ => ⟨[⟨1, 55, 1, .sorted, 0, [1], [5], .normal, 0⟩], [], []⟩, [], 2⟩

theorem listed_of_empty {fs : BlobFileSets} (h : ∀ cf, fs.listed cf = []) : (start fs).Listed := by
  intro cf p hp
  change p ∈ fs.listed cf at hp
  rw [h cf] at hp
  cases hp

/-- The file reaches beyond the range. Its last record is dropped with the SST, and it waits for sequence number 9. -/
theorem range_deletion_respects_snapshots_charged :
    ∃ s₂ st, (start lastRecordFileSets).step (.small false true)
        (.deleteFilesInRanges filledEnv sampleCall) = some s₂ ∧
      s₂.fs.getBlobStorage 0 = some st ∧ st.obsoleteFiles = [(1, 9)] ∧ 1 ∉ (st.getObsoleteFiles 9).2 := by
  have hlisted : (start lastRecordFileSets).Listed := by
    refine listed_of_empty fun cf => ?_
    rw [listed, getBlobStorage, lastRecordFileSets, find?_alter]
    split <;> rfl
  have hnone : sampleCall.getBlobFilesInRanges (.small false true)
      ⟨[⟨1, 55, 1, .sorted, 0, [1], [5], .normal, 0⟩], [], []⟩ = [] := by decide +kernel
  have htraced : AllSteps (step (.small false true)) (Traced (.small false true)) (start lastRecordFileSets)
      ([] ++ [.deleteFilesInRanges filledEnv sampleCall]) :=
    ⟨⟨trivial, .inr fun st hst => by cases hst; exact hnone⟩, fun _ _ => trivial⟩
  have hresult : (((start lastRecordFileSets).step (.small false true)
      (.deleteFilesInRanges filledEnv sampleCall)).bind fun s₂ =>
        (s₂.fs.getBlobStorage 0).map fun st => (st.obsoleteFiles, (st.findFile 1).map isObsolete)) =
      some ([(1, 9)], some true) := by decide +kernel
  obtain ⟨s₂, hs₂, hstorage⟩ := bind_eq_some_iff.1 hresult
  obtain ⟨st, hst, hpair⟩ := map_eq_some_iff.1 hstorage
  obtain ⟨hlist, hobs⟩ := Prod.mk.inj hpair
  obtain ⟨m', hm', hobs⟩ := map_eq_some_iff.1 hobs
  refine ⟨s₂, st, hs₂, hst, hlist, ?_⟩
  exact range_deletion_respects_snapshots _ _ hlisted htraced rfl hs₂ rfl rfl rfl
    ((findFile_eq hst).trans hm') hobs hst (Nat.le_refl 9)

/-- All files are deleted at sequence number 9, and a purge with a snapshot at 5 hands file 1 out. -/
theorem dropped_before_snapshot :
    ∃ s₁ s₂ m m' st, run (step (.small false false)) (start (emptyFileSets 1)) [addedByCompaction, compactionDone] = some s₁ ∧
      (start (emptyFileSets 1)).Listed ∧ s₁.step (.small false false) deleteEverything = some s₂ ∧
      s₁.fs.findFile 0 1 = some m ∧ m.isObsolete = false ∧
      s₂.fs.findFile 0 1 = some m' ∧ m'.isObsolete = true ∧ s₂.fs.getBlobStorage 0 = some st ∧
      rangeEnv.latestSequenceNumber = 9 ∧ 1 ∈ (st.getObsoleteFiles 5).2 := by
  have hlisted : (start (emptyFileSets 1)).Listed := by
    refine listed_of_empty fun cf => ?_
    rw [listed, getBlobStorage, emptyFileSets, find?_alter]
    split <;> rfl
  have hrun : ((run (step (.small false false)) (start (emptyFileSets 1)) [addedByCompaction, compactionDone]).bind
      fun s₁ => (s₁.step (.small false false) deleteEverything).bind fun s₂ =>
        (s₂.fs.getBlobStorage 0).map fun st => ((s₁.fs.findFile 0 1).map isObsolete,
          (s₂.fs.findFile 0 1).map isObsolete, (st.getObsoleteFiles 5).2)) =
      some (some false, some true, [1]) := by decide +kernel
  obtain ⟨s₁, hs₁, hrest⟩ := bind_eq_some_iff.1 hrun
  obtain ⟨s₂, hs₂, hrest⟩ := bind_eq_some_iff.1 hrest
  obtain ⟨st, hst, hrest⟩ := map_eq_some_iff.1 hrest
  obtain ⟨hm, hm', hn⟩ : _ ∧ _ ∧ _ := by simpa only [Prod.mk.injEq] using hrest
  obtain ⟨m, hm, hlive⟩ := map_eq_some_iff.1 hm
  obtain ⟨m', hm', hobs⟩ := map_eq_some_iff.1 hm'
  exact ⟨s₁, s₂, m, m', st, hs₁, hlisted, hs₂, hm, hlive, hm', hobs, hst, rfl, by rw [hn]; exact mem_singleton_self 1⟩

end FileMachine

end ValueSep.DiffKV
