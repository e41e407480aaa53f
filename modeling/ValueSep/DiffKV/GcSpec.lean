import ValueSep.DiffKV.GcJob

/-!
# What each part of the job does to the engine's state

The job's own files (`OutputsWf`) are on disk, not registered, not building and not a foreground builder's.
One lemma for each function of `GcJob`, in terms of `Quiet`, `FilesAdded` and `FilesDeleted`.
-/

namespace ValueSep.DiffKV

open World
open List Function Option BlobFileBuilder BlobFileMeta GcJob

/-! ### Releasing files -/

/-- States of files have changed, but none has become obsolete or stopped being so. -/
structure Released (w w' : World) : Prop where
  db : w'.db = w.db
  disk : w'.disk = w.disk
  fg : w'.fg = w.fg
  next : w'.nextFileNumber = w.nextFileNumber
  manifest : w'.fileSet.manifest = w.fileSet.manifest
  synced : w'.fileSet.manifestSynced = w.fileSet.manifestSynced
  building : w'.storage.buildingFiles = w.storage.buildingFiles
  obsolete : w'.storage.obsoleteFiles = w.storage.obsoleteFiles
  find : ∀ n, ∃ f : BlobFileMeta → BlobFileMeta, w'.storage.findFile n = (w.storage.findFile n).map f ∧
    ∀ m, (f m).fileType = m.fileType ∧ (f m).isObsolete = m.isObsolete

theorem isObsolete_gcCompleted (m : BlobFileMeta) : (m.fileStateTransit .gcCompleted).isObsolete = m.isObsolete := by
  by_cases h : m.state = .obsolete <;> simp [isObsolete, fileStateTransit, FileState.transit, h]

section Released
variable {w w' : World} {o : Options}

section
variable (h : Released w w')
include h

theorem Released.findBuildingFile (n : Nat) : w'.storage.findBuildingFile n = w.storage.findBuildingFile n := by
  simp only [BlobStorage.findBuildingFile, h.building]

theorem Released.find_eq_none (n : Nat) : w'.storage.findFile n = none ↔ w.storage.findFile n = none := by
  obtain ⟨f, hf, -⟩ := h.find n
  rw [hf, map_eq_none_iff]

theorem Released.resolve (i : BlobIndex) : w'.resolve o i = w.resolve o i := by
  obtain ⟨f, hf, hsame⟩ := h.find i.fileNumber
  have hread : ∀ onlyValue, w'.readFile o onlyValue i = w.readFile o onlyValue i := fun _ => by
    simp only [readFile, h.disk]
  simp only [World.resolve, hf, hread, h.findBuildingFile]
  cases w.storage.findFile i.fileNumber with
  | none => rfl
  | some m => simp only [map_some, readsOnlyValue, (hsame m).1, (hsame m).2]

theorem Released.fgWf (hw : FgWf w) : FgWf w' := by
  have hown : ∀ b, w'.owned b = w.owned b := fun b => by simp only [owned, h.fg]
  refine ⟨fun n hn => ?_, fun b n hn => ?_, fun b => hown b ▸ hw.owned_nodup b, fun b b' hne => ?_, ?_⟩
  · rw [h.next] at hn
    rw [h.disk, h.find_eq_none, h.findBuildingFile]
    exact hw.fresh n hn
  · rw [h.disk, h.find_eq_none]
    exact hw.owned_some b n (hown b ▸ hn)
  · rw [hown, hown]; exact hw.owned_disjoint b b' hne
  · rw [h.fg]; exact hw.finished

theorem Released.fgHealthy (hh : FgHealthy w) : FgHealthy w' := by
  refine ⟨by rw [h.fg]; exact hh.status, fun b n hn => ?_⟩
  rw [h.findBuildingFile]
  exact hh.building b n (by simpa only [owned, h.fg] using hn)

end

end Released

theorem GcState.released_finish (s : GcState) (st : Status) : Released s.world (s.finish st).world := by
  have hfold : ∀ (ns : List Nat) (storage : BlobStorage),
      let storage' := ns.foldl (fun t n => t.updateFile n (·.fileStateTransit .gcCompleted)) storage
      storage'.buildingFiles = storage.buildingFiles ∧ storage'.obsoleteFiles = storage.obsoleteFiles ∧
        ∀ n, ∃ f : BlobFileMeta → BlobFileMeta, storage'.findFile n = (storage.findFile n).map f ∧
          ∀ m, (f m).fileType = m.fileType ∧ (f m).isObsolete = m.isObsolete := by
    intro ns
    induction ns with
    | nil => exact fun storage => ⟨rfl, rfl, fun n => ⟨id, by simp, fun _ => ⟨rfl, rfl⟩⟩⟩
    | cons k ns ih =>
      intro storage
      obtain ⟨hb, ho, hf⟩ := ih (storage.updateFile k (·.fileStateTransit .gcCompleted))
      refine ⟨hb, ho, fun n => ?_⟩
      obtain ⟨f, hfind, hsame⟩ := hf n
      rw [BlobStorage.findFile_updateFile (fileNumber_fileStateTransit .gcCompleted)] at hfind
      by_cases hn : n = k
      · refine ⟨f ∘ fileStateTransit .gcCompleted, ?_, fun m => ?_⟩
        · rw [if_pos hn, Option.map_map] at hfind; exact hfind
        · simp only [comp, hsame, isObsolete_gcCompleted, fileType_fileStateTransit, and_self]
      · exact ⟨f, by rw [if_neg hn] at hfind; exact hfind, hsame⟩
  obtain ⟨hb, ho, hf⟩ := hfold (s.job.inputs ++ s.job.outputs) s.world.storage
  exact ⟨rfl, rfl, rfl, rfl, rfl, rfl, hb, ho, hf⟩

/-! ### Changes that register and log nothing -/

/-- Nothing is committed, registered, marked obsolete or logged; files only grow, new ones get new numbers. -/
structure Calm (w w' : World) : Prop where
  db : w'.db = w.db
  grows : Grows w w'
  created : ∀ n, n < w.nextFileNumber → w.disk n = none → w'.disk n = none
  next_le : w.nextFileNumber ≤ w'.nextFileNumber
  manifest : w'.fileSet.manifest = w.fileSet.manifest
  synced : w'.fileSet.manifestSynced = w.fileSet.manifestSynced
  building : ∀ n, w.storage.findBuildingFile n = true → w'.storage.findBuildingFile n = true
  find : ∀ n, ∃ f : BlobFileMeta → BlobFileMeta, w'.storage.findFile n = (w.storage.findFile n).map f ∧
    ∀ m, (f m).fileType = m.fileType ∧ (f m).isObsolete = m.isObsolete

section Calm
variable {w w' w'' : World} {o : Options}

theorem Quiet.calm (h : Quiet w w') : Calm w w' :=
  ⟨h.db, h.grows, h.created, h.next_le, h.manifest, h.synced, h.building, fun n => ⟨id, by rw [h.find]; simp,
    fun _ => ⟨rfl, rfl⟩⟩⟩

theorem Released.calm (h : Released w w') : Calm w w' :=
  ⟨h.db, .of_disk_eq h.disk, fun n _ hn => by rw [h.disk, hn], h.next.ge, h.manifest, h.synced,
    fun n hn => by rw [h.findBuildingFile, hn], h.find⟩

theorem Calm.refl (w : World) : Calm w w := Quiet.calm (.refl w)

theorem Calm.trans (h : Calm w w') (h' : Calm w' w'') : Calm w w'' where
  db := h'.db.trans h.db
  grows := h.grows.trans h'.grows
  created n hn hnone := h'.created n (hn.trans_le h.next_le) (h.created n hn hnone)
  next_le := h.next_le.trans h'.next_le
  manifest := h'.manifest.trans h.manifest
  synced := h'.synced.trans h.synced
  building n hn := h'.building n (h.building n hn)
  find n := by
    obtain ⟨f, hf, hsame⟩ := h.find n
    obtain ⟨f', hf', hsame'⟩ := h'.find n
    exact ⟨f' ∘ f, by rw [hf', hf, Option.map_map], fun m =>
      ⟨(hsame' _).1.trans (hsame m).1, (hsame' _).2.trans (hsame m).2⟩⟩

theorem Calm.framed (h : Calm w w') : Framed o w w' := by
  refine ⟨h.db, fun i r hr => ?_⟩
  obtain ⟨f, hf, hsame⟩ := h.find i.fileNumber
  rw [resolve_eq_some] at hr ⊢
  rcases hr with ⟨m, hm, hobs, hr⟩ | ⟨hn, hsep, hb, hr⟩
  · refine .inl ⟨f m, by rw [hf, hm]; rfl, (hsame m).2.trans hobs, readFile_of_grows h.grows ?_⟩
    rwa [readsOnlyValue, (hsame m).1]
  · exact .inr ⟨by rw [hf, hn]; rfl, hsep, h.building _ hb, readFile_of_grows h.grows hr⟩

end Calm

/-! ### The job's own files -/

structure OutputsWf (w : World) (bds : List BlobFileBuilder) : Prop where
  nodup : (bds.map number).Nodup
  own : ∀ bd ∈ bds, (w.disk bd.number).isSome ∧ w.storage.findFile bd.number = none ∧
    w.storage.findBuildingFile bd.number = false ∧ ∀ b, bd.number ∉ w.owned b

section OutputsWf
variable {w w' : World} {bds : List BlobFileBuilder} {n : Nat}

theorem FgWf.lt_of_disk (hw : FgWf w) (h : (w.disk n).isSome) : n < w.nextFileNumber := by
  by_contra hle
  rw [(hw.fresh n (by omega)).1] at h
  cases h

theorem OutputsWf.quiet (ho : OutputsWf w bds) (hw : FgWf w) (hq : Quiet w w') : OutputsWf w' bds := by
  refine ⟨ho.nodup, fun bd hbd => ?_⟩
  obtain ⟨hdisk, hfind, hbuild, hown⟩ := ho.own bd hbd
  have hlt := FgWf.lt_of_disk hw hdisk
  obtain ⟨file, hfile⟩ := isSome_iff_exists.1 hdisk
  obtain ⟨file', hfile', -⟩ := hq.grows _ file hfile
  refine ⟨by rw [hfile']; rfl, by rw [hq.find, hfind], ?_, fun b hb => ?_⟩
  · by_contra hne
    rw [Bool.not_eq_false] at hne
    rcases hq.building_new _ hne with h | h
    · rw [hbuild] at h; cases h
    · omega
  · rcases hq.owned_new b _ hb with h | h
    · exact hown b h
    · omega

theorem OutputsWf.snoc {bd : BlobFileBuilder} (ho : OutputsWf w bds) (hne : ∀ bd' ∈ bds, bd'.number ≠ bd.number)
    (hown : (w.disk bd.number).isSome ∧ w.storage.findFile bd.number = none ∧
      w.storage.findBuildingFile bd.number = false ∧ ∀ b, bd.number ∉ w.owned b) : OutputsWf w (bds ++ [bd]) := by
  refine ⟨?_, fun bd' hbd' => ?_⟩
  · rw [map_append, nodup_append]
    refine ⟨ho.nodup, nodup_singleton _, fun n hn m hm hnm => ?_⟩
    obtain ⟨bd', hbd', rfl⟩ := mem_map.1 hn
    exact hne bd' hbd' (hnm.trans (mem_singleton.1 hm))
  · rcases mem_append.1 hbd' with h | h
    · exact ho.own bd' h
    · exact mem_singleton.1 h ▸ hown

theorem OutputsWf.replaceLast {bd bd' : BlobFileBuilder} (ho : OutputsWf w (bds ++ [bd]))
    (hnum : bd'.number = bd.number) : OutputsWf w (bds ++ [bd']) := by
  refine ⟨by simpa [hnum] using ho.nodup, fun b hb => ?_⟩
  rcases mem_append.1 hb with h | h
  · exact ho.own b (mem_append_left _ h)
  · rw [mem_singleton.1 h, hnum]
    exact ho.own bd (by simp)

theorem FgWf.updateOther (hw : FgWf w) {file file' : WritableFile} (hfile : w.disk n = some file)
    (hn : ∀ b, n ∉ w.owned b) (hgrow : ∃ data, file'.content = file.content ++ data) :
    FgWf { w with disk := update w.disk n (some file') } ∧
      Quiet w { w with disk := update w.disk n (some file') } := by
  have hlt := lt_of_disk hw (by rw [hfile]; rfl)
  refine ⟨⟨fun m hm => ?_, fun b m hm => ?_, hw.owned_nodup, hw.owned_disjoint, hw.finished⟩,
    rfl, fun _ => rfl, rfl, rfl, rfl, fun _ h => h, fun _ h => .inl h, fun _ _ h => .inl h, ?_, le_rfl, fun m _ hm => ?_⟩
  · have hne : m ≠ n := by rintro rfl; exact absurd hm (not_le.2 hlt)
    simpa only [update_of_ne hne] using hw.fresh m hm
  · have hne : m ≠ n := by rintro rfl; exact hn b hm
    simpa only [update_of_ne hne] using hw.owned_some b m hm
  · exact .update hfile hgrow rfl
  · have hne : m ≠ n := by rintro rfl; rw [hfile] at hm; cases hm
    simpa only [update_of_ne hne] using hm

theorem FgHealthy.of_quiet (hh : FgHealthy w) (hq : Quiet w w') (hfg : w'.fg = w.fg) : FgHealthy w' :=
  ⟨by rw [hfg]; exact hh.status, fun b n hn =>
    hq.building n (hh.building b n (by simpa only [owned, hfg] using hn))⟩

end OutputsWf

/-- Every builder is still there and, if it is fine now, was fine before. -/
def BuildersLe (bds bds' : List BlobFileBuilder) : Prop :=
  ∀ bd ∈ bds, ∃ bd' ∈ bds', bd'.number = bd.number ∧ (bd'.status = .ok → bd.status = .ok)

/-- The batch's new index leads to the record, unless the builder of its file has failed. -/
def BatchStored (o : Options) (w : World) (bds : List BlobFileBuilder) (b : RewriteBatch) (r : BlobRecord) : Prop :=
  ∃ bd ∈ bds, bd.number = b.newIndex.fileNumber ∧ (bd.status = .ok → w.readFile o false b.newIndex = some r)

theorem BuildersLe.of_subset {bds bds' : List BlobFileBuilder} (h : bds ⊆ bds') : BuildersLe bds bds' :=
  fun bd hbd => ⟨bd, h hbd, rfl, id⟩

theorem BuildersLe.trans {bds bds' bds'' : List BlobFileBuilder} (h : BuildersLe bds bds') (h' : BuildersLe bds' bds'') :
    BuildersLe bds bds'' := fun bd hbd => by
  obtain ⟨bd', hbd', hnum, hst⟩ := h bd hbd
  obtain ⟨bd'', hbd'', hnum', hst'⟩ := h' bd' hbd'
  exact ⟨bd'', hbd'', hnum'.trans hnum, hst ∘ hst'⟩

theorem BatchStored.mono {o : Options} {w w' : World} {bds bds' : List BlobFileBuilder} {b : RewriteBatch}
    {r : BlobRecord} (h : BatchStored o w bds b r) (hg : Grows w w') (hle : BuildersLe bds bds') :
    BatchStored o w' bds' b r := by
  obtain ⟨bd, hbd, hnum, hread⟩ := h
  obtain ⟨bd', hbd', hnum', hst⟩ := hle bd hbd
  exact ⟨bd', hbd', hnum'.trans hnum, fun hok => readFile_of_grows hg (hread (hst hok))⟩

namespace GcState

variable {o : Options} {env : GcEnv} {s s' : GcState} {r : GcRecord} {st : Status}

/-- The parts of the job that writing to an output does not touch. -/
structure SameJob (j j' : GcJob) : Prop where
  inputs : j'.inputs = j.inputs
  records : j'.records = j.records
  iterStatus : j'.iterStatus = j.iterStatus
  outputs : j'.outputs = j.outputs

theorem SameJob.trans {j j' j'' : GcJob} (h : SameJob j j') (h' : SameJob j' j'') : SameJob j j'' :=
  ⟨h'.inputs.trans h.inputs, h'.records.trans h.records, h'.iterStatus.trans h.iterStatus, h'.outputs.trans h.outputs⟩

section
variable (hw : FgWf s.world) (ho : OutputsWf s.world s.job.openBuilders)
include hw ho

theorem rollOver_spec (h : s.rollOver o env = some (s', st)) :
    FgWf s'.world ∧ Quiet s.world s'.world ∧ OutputsWf s'.world s'.job.openBuilders ∧
      BuildersLe s.job.openBuilders s'.job.openBuilders ∧ SameJob s.job s'.job ∧
      s'.job.rewriteBatches = s.job.rewriteBatches ∧ s'.world.fg = s.world.fg := by
  unfold rollOver at h
  dsimp only at h
  split at h
  · cases h
    exact ⟨hw, .refl _, ho, .of_subset (List.Subset.refl _), ⟨rfl, rfl, rfl, rfl⟩, rfl, rfl⟩
  split at h
  · cases h
  obtain ⟨hwn, hqn, hfg, hstorage, hnum, hdisk⟩ := newFile_spec hw env.newFile kGcBufferSize
  have hon := ho.quiet hw hqn
  generalize s.world.newFile env.newFile kGcBufferSize = p at h hwn hqn hfg hstorage hnum hdisk hon
  obtain ⟨w, st', number⟩ := p
  dsimp only at h hwn hqn hfg hstorage hnum hdisk hon
  subst hnum
  split at h
  next hst =>
    cases h
    have hopen : ({ s.job with builders := s.job.openBuilders, current := none } : GcJob).openBuilders =
        s.job.openBuilders := by simp [openBuilders]
    exact ⟨hwn, hqn, hopen.symm ▸ hon, .of_subset (by rw [hopen]; exact List.Subset.refl _), ⟨rfl, rfl, rfl, rfl⟩,
      rfl, hfg⟩
  next hst =>
    rw [not_not] at hst
    obtain ⟨rfl, rfl⟩ := h
    set bd := (create env.header s.world.nextFileNumber (.create kGcBufferSize)).2
    have hnew := hw.fresh s.world.nextFileNumber le_rfl
    have hfree : ∀ b, s.world.nextFileNumber ∉ w.owned b := fun b hb =>
      lt_irrefl _ (hw.lt_next (b := b) (by simpa only [owned, hfg] using hb))
    obtain ⟨hwf, hq⟩ := FgWf.updateOther hwn (hdisk hst) hfree ⟨_, nil_append _⟩
    refine ⟨hwf, hqn.trans hq, ?_, .of_subset (subset_append_left ..), ⟨rfl, rfl, rfl, rfl⟩, rfl, hfg⟩
    refine (hon.quiet hwn hq).snoc (fun bd' hbd' hn => ?_) ⟨?_, ?_, ?_, hfree⟩
    · exact (FgWf.lt_of_disk hw (ho.own bd' hbd').1).ne hn
    · exact isSome_iff_exists.2 ⟨_, update_self ..⟩
    · exact hstorage ▸ hnew.2.1
    · exact hstorage ▸ hnew.2.2

theorem appendOutput_spec (h : s.appendOutput o env r = some s') :
    FgWf s'.world ∧ Quiet s.world s'.world ∧ OutputsWf s'.world s'.job.openBuilders ∧
      BuildersLe s.job.openBuilders s'.job.openBuilders ∧ SameJob s.job s'.job ∧ s'.world.fg = s.world.fg ∧
      ∃ b, s'.job.rewriteBatches = s.job.rewriteBatches ++ [b] ∧ b.key = r.record.key ∧ b.oldIndex = r.index ∧
        ∃ bd ∈ s'.job.openBuilders, bd.number = b.newIndex.fileNumber ∧
          (bd.status = .ok → Encodable o false r.record → s'.world.readFile o false b.newIndex = some r.record) := by
  simp only [appendOutput, bind_eq_some_iff, map_eq_some_iff] at h
  obtain ⟨bd, hbd, file, hfile, rfl⟩ := h
  rcases hadd : bd.add o false env.append file r.record with ⟨file', bd', handle⟩
  obtain ⟨hgrow, hnum, hok⟩ := add_spec hadd
  have hopen : s.job.openBuilders = s.job.builders ++ [bd] := by simp [GcJob.openBuilders, hbd]
  have hmem : bd ∈ s.job.openBuilders := by simp [hopen]
  dsimp only
  rw [hnum]
  obtain ⟨hwf, hq⟩ := FgWf.updateOther hw hfile (ho.own bd hmem).2.2.2 hgrow
  refine ⟨hwf, hq, ?_, ?_, ⟨rfl, rfl, rfl, rfl⟩, rfl, _, rfl, rfl, rfl, bd', ?_, hnum, fun hst he => ?_⟩
  · have hq' := ho.quiet hw hq
    rw [hopen] at hq'
    exact hq'.replaceLast hnum
  · intro b hb
    rw [hopen, mem_append, mem_singleton] at hb
    rcases hb with hb | rfl
    · exact ⟨b, mem_append_left _ hb, rfl, id⟩
    · exact ⟨bd', by simp [openBuilders], hnum, fun h => (hok h).1⟩
  · simp [openBuilders]
  · obtain ⟨-, rfl, rfl⟩ := hok hst
    exact readFile_appended he (update_self ..)

end

variable {w : World} {fs : BlobFileSet}

theorem finishBuilders_spec {finish : Nat → Fault} {bds : List BlobFileBuilder} (hw : FgWf w) (ho : OutputsWf w bds) :
    FgWf (finishBuilders o finish bds w).1 ∧ Quiet w (finishBuilders o finish bds w).1 ∧
      (finishBuilders o finish bds w).1.fg = w.fg ∧
      ((finishBuilders o finish bds w).2 = .ok ↔ ∀ bd ∈ bds, bd.status = .ok ∧ finish bd.number = none) := by
  induction bds generalizing w with
  | nil => exact ⟨hw, .refl w, rfl, by simp [finishBuilders]⟩
  | cons bd bds ih =>
    obtain ⟨hdisk, -, -, hown⟩ := ho.own bd (mem_cons_self ..)
    obtain ⟨file, hfile⟩ := isSome_iff_exists.1 hdisk
    obtain ⟨hgrow, hnum, hst⟩ := bd.finish_spec o (finish bd.number) file
    obtain ⟨hwf, hq⟩ := FgWf.updateOther hw hfile hown hgrow
    have htail : OutputsWf w bds :=
      ⟨(nodup_cons.1 ho.nodup).2, fun b hb => ho.own b (mem_cons_of_mem _ hb)⟩
    simp only [finishBuilders, hfile, hnum]
    by_cases hok : (bd.finish o (finish bd.number) file).2.status = .ok
    · obtain ⟨h₁, h₂, hfg, h₃⟩ := ih hwf (htail.quiet hw hq)
      simp only [hok, ne_eq, not_true, if_false]
      refine ⟨h₁, hq.trans h₂, hfg, ?_⟩
      rw [h₃, forall_mem_cons]
      exact ⟨fun h => ⟨hst.1 hok, h⟩, fun h => h.2⟩
    · simp only [hok, ne_eq, not_false_iff, if_true]
      exact ⟨hwf, hq, trivial, False.elim, fun h => hok (hst.2 (h bd (mem_cons_self ..)))⟩

/-! ### Installing the outputs -/

/-- Some output's `Finish` fails. -/
def OutputFails (env : GcEnv) (s : GcState) : Prop :=
  ∃ bd ∈ s.job.builders, bd.status ≠ .ok ∨ env.finish bd.number ≠ none

instance (env : GcEnv) (s : GcState) : Decidable (OutputFails env s) :=
  inferInstanceAs (Decidable (∃ bd ∈ s.job.builders, _))

/-- The cleanup after a failed output reports success: its last deletion succeeds. -/
def CleanupOk (env : GcEnv) (s : GcState) : Prop := ∀ bd, s.job.builders.getLast? = some bd → env.delete bd.number = none

instance (env : GcEnv) (s : GcState) : Decidable (CleanupOk env s) :=
  match h : s.job.builders.getLast? with
  | none => .isTrue (by simp [CleanupOk, h])
  | some bd => decidable_of_iff (env.delete bd.number = none) (by simp [CleanupOk, h])

theorem cleanup_status (env : GcEnv) (s : GcState) :
    (((s.job.builders.map number).getLast?.map fun n => (env.delete n).status).getD .ok = .ok) ↔ CleanupOk env s := by
  rw [getLast?_map, CleanupOk]
  cases s.job.builders.getLast? with
  | none => simp
  | some bd => simp

theorem FgWf.dropFiles {disk : Nat → Option WritableFile} {ns : List Nat} (hw : FgWf w)
    (hdisk : ∀ n, n ∉ ns → disk n = w.disk n) (hgone : ∀ n, disk n = w.disk n ∨ disk n = none)
    (hfree : ∀ n ∈ ns, w.storage.findFile n = none ∧ w.storage.findBuildingFile n = false ∧ ∀ b, n ∉ w.owned b) :
    FgWf { w with disk } ∧ Keeps o w { w with disk } := by
  refine ⟨⟨fun n hn => ?_, fun b n hn => ?_, hw.owned_nodup, hw.owned_disjoint, hw.finished⟩, fun i r hr => ?_⟩
  · refine ⟨?_, (hw.fresh n hn).2⟩
    rcases hgone n with h | h
    · exact h.trans (hw.fresh n hn).1
    · exact h
  · have hnot : n ∉ ns := fun h => (hfree n h).2.2 b hn
    refine ⟨?_, (hw.owned_some b n hn).2⟩
    show (disk n).isSome = true
    rw [hdisk n hnot]; exact (hw.owned_some b n hn).1
  · have hnot : i.fileNumber ∉ ns := by
      intro h
      obtain ⟨hf, hb, -⟩ := hfree _ h
      rcases resolve_eq_some.1 hr with ⟨m, hm, -⟩ | ⟨-, -, hbuild, -⟩
      · rw [hf] at hm; cases hm
      · rw [hb] at hbuild; cases hbuild
    simpa only [resolve, readFile, hdisk _ hnot] using hr

theorem FgWf.register {sep : Bool} {files : List BlobFileMeta} (hw : FgWf w)
    (hnext : fs.nextFileNumber = w.nextFileNumber) (hadd : FilesAdded sep files w.storage fs.storage)
    (hfree : ∀ f ∈ files, f.fileNumber < w.nextFileNumber ∧ ∀ b, f.fileNumber ∉ w.owned b) :
    FgWf { w with fileSet := fs } := by
  have hnone : ∀ n, (∀ f ∈ files, f.fileNumber ≠ n) → fs.storage.findFile n = w.storage.findFile n := by
    intro n hn
    rw [hadd.find, find?_eq_none.2 (by simpa using hn), or_none]
  refine ⟨fun n hn => ?_, fun b n hn => ?_, hw.owned_nodup, hw.owned_disjoint, hw.finished⟩
  · have hn' : w.nextFileNumber ≤ n := hnext ▸ hn
    obtain ⟨hd, hf, hb⟩ := hw.fresh n hn'
    refine ⟨hd, ?_, ?_⟩
    · exact (hnone n fun f hf' h => absurd (hfree f hf').1 (by omega)).trans hf
    · rw [hadd.building, hb]; rfl
  · obtain ⟨hd, hf⟩ := hw.owned_some b n hn
    exact ⟨hd, (hnone n fun f hf' h => (hfree f hf').2 b (h ▸ hn)).trans hf⟩

theorem FgHealthy.register {sep : Bool} {files : List BlobFileMeta} (hh : FgHealthy w)
    (hadd : FilesAdded sep files w.storage fs.storage) (hfree : ∀ f ∈ files, ∀ b, f.fileNumber ∉ w.owned b) :
    FgHealthy { w with fileSet := fs } := by
  refine ⟨hh.status, fun b n hn => ?_⟩
  have hany : (files.any fun m => m.fileNumber == n) = false := by
    simp only [List.any_eq_false, beq_iff_eq]
    rintro f hf rfl
    exact hfree f hf b hn
  rw [hadd.building, hh.building b n hn, hany]; simp

/-- The three ways `InstallOutputBlobFiles` can go. -/
inductive Installed (o : Options) (env : GcEnv) (s : GcState) : GcState × Status → Prop
  | ok (w : World) (fs : BlobFileSet) (hfail : ¬ OutputFails env s) (hw : FgWf w) (hq : Quiet s.world w)
      (hfg : w.fg = s.world.fg)
      (hlog : BlobFileSet.Logged (.ofAdded (s.job.builders.map (outputMeta o w))) w.fileSet fs)
      (hadd : FilesAdded o.sepBeforeFlush (s.job.builders.map (outputMeta o w)) w.storage fs.storage) :
      Installed o env s (⟨{ w with fileSet := fs },
        { s.job with outputs := s.job.builders.map number }⟩, .ok)
  | batchFailed (w : World) (fs : BlobFileSet) (st : Status) (hfail : ¬ OutputFails env s) (hw : FgWf w)
      (hq : Quiet s.world w) (hfg : w.fg = s.world.fg)
      (hun : BlobFileSet.Unapplied (.ofAdded (s.job.builders.map (outputMeta o w))) w.fileSet fs) (hst : st ≠ .ok) :
      Installed o env s (⟨{ w with fileSet := fs }, s.job⟩, st)
  | outputFailed (w : World) (disk : Nat → Option WritableFile) (st : Status) (hfail : OutputFails env s)
      (hw : FgWf w) (hq : Quiet s.world w) (hfg : w.fg = s.world.fg)
      (hdisk : ∀ n, n ∉ s.job.builders.map number → disk n = w.disk n)
      (hgone : ∀ n, disk n = w.disk n ∨ disk n = none) (hst : st = .ok ↔ CleanupOk env s) :
      Installed o env s (⟨{ w with disk }, s.job⟩, st)

theorem installOutputBlobFiles_spec (hw : FgWf s.world) (ho : OutputsWf s.world s.job.builders) :
    Installed o env s (s.installOutputBlobFiles o env) := by
  obtain ⟨hw₁, hq₁, hfg₁, hok⟩ : _ ∧ _ ∧ _ ∧ ((finishBuilders o env.finish s.job.builders s.world).2 = .ok ↔ _) :=
    finishBuilders_spec hw ho
  have hfail : (finishBuilders o env.finish s.job.builders s.world).2 = .ok ↔ ¬ OutputFails env s := by
    simp only [hok, OutputFails, not_exists, not_and, not_or, not_not]
  unfold installOutputBlobFiles
  dsimp only
  generalize finishBuilders o env.finish s.job.builders s.world = p at hw₁ hq₁ hfg₁ hfail
  obtain ⟨w, st⟩ := p
  split
  next w' heq =>
    obtain ⟨rfl, rfl⟩ := Prod.mk.inj heq
    have hnot := hfail.1 rfl
    obtain ⟨fs, hworld, hcase⟩ := batchFinishFiles_cases o env.batch (s.job.builders.map (outputMeta o w)) w
    generalize w.batchFinishFiles o env.batch (s.job.builders.map (outputMeta o w)) = p at hworld hcase
    obtain ⟨w', st⟩ := p
    subst hworld
    rcases hcase with ⟨hst, hun⟩ | ⟨rfl, hlog, hadd⟩
    · split
      next heq => exact absurd (Prod.mk.inj heq).2 hst
      next heq => obtain ⟨rfl, rfl⟩ := Prod.mk.inj heq; exact .batchFailed w fs st hnot hw₁ hq₁ hfg₁ hun hst
    · exact .ok w fs hnot hw₁ hq₁ hfg₁ hlog hadd
  next w' st' hne heq =>
    obtain ⟨rfl, rfl⟩ := Prod.mk.inj heq
    have hf : OutputFails env s := by
      by_contra hnot
      exact hne (hfail.2 hnot)
    obtain ⟨disk, hworld, hdisk, hgone, hst⟩ :=
      batchDeleteFiles_spec env.delete (s.job.builders.map number) w .ok
    rw [hworld]
    exact .outputFailed w disk _ hf hw₁ hq₁ hfg₁ hdisk hgone (by rw [hst]; exact cleanup_status env s)

theorem FgWf.congr {w w' : World} (hw : FgWf w) (hdisk : w'.disk = w.disk) (hst : w'.storage = w.storage)
    (hnext : w'.nextFileNumber = w.nextFileNumber) (hfg : w'.fg = w.fg) : FgWf w' := by
  have hown : ∀ b, w'.owned b = w.owned b := fun b => by simp only [owned, hfg]
  refine ⟨?_, ?_, ?_, ?_, ?_⟩
  · rw [hnext, hdisk, hst]; exact hw.fresh
  · intro b n hn; rw [hdisk, hst]; exact hw.owned_some b n (hown b ▸ hn)
  · exact fun b => hown b ▸ hw.owned_nodup b
  · exact fun b b' hne => by rw [hown, hown]; exact hw.owned_disjoint b b' hne
  · rw [hfg]; exact hw.finished

theorem FgHealthy.congr {w w' : World} (hh : FgHealthy w) (hst : w'.storage = w.storage) (hfg : w'.fg = w.fg) :
    FgHealthy w' :=
  ⟨by rw [hfg]; exact hh.status, fun b n hn => by
    rw [hst]; exact hh.building b n (by simpa only [owned, hfg] using hn)⟩

theorem resolve_unapplied (h : fs.storage = w.storage) (i : BlobIndex) :
    World.resolve o { w with fileSet := fs } i = w.resolve o i := by
  have hst : storage { w with fileSet := fs } = w.storage := h
  simp only [resolve, readFile, hst]

/-- However the installation goes, what could be read before can be read after it. -/
theorem Installed.framed {r : GcState × Status} (hr : Installed o env s r) (hwf : FgWf s.world)
    (hh : FgHealthy s.world) (ho : OutputsWf s.world s.job.builders) :
    FgWf r.1.world ∧ FgHealthy r.1.world ∧ Framed o s.world r.1.world := by
  cases hr with
  | ok w fs hfail hw hq hfg hlog hadd =>
    have how := ho.quiet hwf hq
    have hfree : ∀ f ∈ s.job.builders.map (outputMeta o w), f.fileNumber < w.nextFileNumber ∧
        ∀ b, f.fileNumber ∉ w.owned b := by
      intro f hf
      obtain ⟨bd, hbd, rfl⟩ := mem_map.1 hf
      exact ⟨FgWf.lt_of_disk hw (how.own bd hbd).1, (how.own bd hbd).2.2.2⟩
    refine ⟨FgWf.register hw hlog.next hadd hfree,
      FgHealthy.register (FgHealthy.of_quiet hh hq hfg) hadd fun f hf => (hfree f hf).2, hq.db, ?_⟩
    refine hq.keeps.trans (.of_filesAdded (Grows.of_disk_eq rfl) hadd ?_ ?_)
    · intro f hf
      obtain ⟨bd, -, rfl⟩ := mem_map.1 hf
      rfl
    · intro f hf hbuild
      obtain ⟨bd, hbd, rfl⟩ := mem_map.1 hf
      have : w.storage.findBuildingFile bd.number = true := hbuild
      rw [(how.own bd hbd).2.2.1] at this; cases this
  | batchFailed w fs st hfail hw hq hfg hun hst =>
    refine ⟨FgWf.congr hw rfl hun.storage hun.next rfl,
      FgHealthy.congr (FgHealthy.of_quiet hh hq hfg) hun.storage rfl, hq.db, fun i r hr => ?_⟩
    exact (resolve_unapplied hun.storage i).trans (hq.keeps i r hr)
  | outputFailed w disk st hfail hw hq hfg hdisk hgone hst =>
    have how := ho.quiet hwf hq
    obtain ⟨hwf', hk⟩ := FgWf.dropFiles hw hdisk hgone fun n hn => by
      obtain ⟨bd, hbd, rfl⟩ := mem_map.1 hn
      exact (how.own bd hbd).2
    exact ⟨hwf', FgHealthy.congr (FgHealthy.of_quiet hh hq hfg) rfl rfl, hq.db, hq.keeps.trans hk⟩

end GcState

end ValueSep.DiffKV
