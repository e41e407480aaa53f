import ValueSep.DiffKV.GcRun

/-!
# The engine with all its actors

Clients in the middle of a Put, memtable seals, any number of garbage collection jobs, snapshots and purges over
one `World`. A Put takes two steps: `ForegroundBuilder::Add` builds the index, `DB::Write` makes it visible.
`PurgeObsoleteFilesImpl` takes two steps as well: `GetOldestSnapshotSequence` under the base DB's mutex, then
`GetObsoleteFiles` under the engine's.
-/

namespace ValueSep.DiffKV

open World
open List Option BlobStorage BlobFileMeta Prod

/-- A Put in flight is its key, its value and what it is going to write. `removed` records what purges have
removed, with the tags, and `acked` the acknowledged operations, the newest first; only statements read the two. -/
structure System where
  world : World
  puts : List (Slice × Slice × Option LsmEntry)
  jobs : List GcJob
  snapshots : List SequenceNumber
  purges : List SequenceNumber
  removed : List (Nat × SequenceNumber)
  acked : List (Slice × Option Slice)

inductive SysEvent
  | putAdd (f : AddFaults) (key value : Slice)
  | putWrite (n : Nat) (fault : Fault)
  | delete (key : Slice)
  | sealSlot (b : Nat) (f : AddFaults)
  | pick (inputs : List Nat) (records : List GcRecord) (iterStatus : Status)
  | gc (n : Nat) (env : GcEnv)
  | getSnapshot
  | releaseSnapshot (q : SequenceNumber)
  | readOldest
  | removeObsolete (oldest : SequenceNumber)

/-- `CheckBlobFile`, and the picker's own test. -/
def pickable (o : Options) (w : World) (n : Nat) : Bool :=
  match w.storage.findFile n with
  | some m => m.state = .normal && !(o.levelMerge && m.fileType = .sorted)
  | none => false

def World.transitFiles (e : FileEvent) (ns : List Nat) (w : World) : World :=
  { w with fileSet := { w.fileSet with storage := w.storage.transitFiles e ns } }

namespace System

variable (o : Options) (s : System)

/-- `GetOldestSnapshotSequence`. -/
def oldestSnapshotSequence : SequenceNumber := s.snapshots.foldl min kMaxSequenceNumber

/-- `GetObsoleteFiles`, and the deletion of what it returns. -/
def purgeWorld (oldest : SequenceNumber) (w : World) : World :=
  let r := w.storage.getObsoleteFiles oldest
  { w with
    fileSet := { w.fileSet with storage := r.1 }
    disk := fun n => if n ∈ r.2 then none else w.disk n }

def step : SysEvent → Option System
  | .putAdd f key value => (s.world.putEntry o f key value).map fun (world, e) =>
      { s with world, puts := s.puts ++ [(key, value, e)] }
  | .putWrite n fault => (s.puts[n]?).map fun (key, value, e) =>
      if fault = none then
        { s with
          world := s.world.commit key e
          puts := s.puts.eraseIdx n
          acked := (key, some value) :: s.acked }
      else { s with puts := s.puts.eraseIdx n }
  | .delete key => some { s with world := s.world.delete key, acked := (key, none) :: s.acked }
  | .sealSlot b f =>
    if o.sepBeforeFlush then (s.world.flushSlot o f b).map fun world => { s with world } else some s
  | .pick inputs records iterStatus =>
    if inputs ≠ [] ∧ inputs.Nodup ∧ ∀ n ∈ inputs, pickable o s.world n then
      some { s with
        world := s.world.transitFiles .gcBegin inputs
        jobs := s.jobs ++ [.create inputs records iterStatus] }
    else none
  | .gc n env => (s.jobs[n]?).bind fun job => (GcState.step o env ⟨s.world, job⟩).map fun r =>
      -- a job that has come to its end is destroyed
      let rest := match r.job.phase with
        | .finished _ => []
        | _ => [r.job]
      { s with world := r.world, jobs := s.jobs.take n ++ rest ++ s.jobs.drop (n + 1) }
  | .getSnapshot => some { s with snapshots := s.world.db.latestSequence :: s.snapshots }
  | .releaseSnapshot q => some { s with snapshots := s.snapshots.erase q }
  | .readOldest => some { s with purges := s.oldestSnapshotSequence :: s.purges }
  | .removeObsolete oldest =>
    if oldest ∈ s.purges then
      some { s with
        world := purgeWorld oldest s.world
        purges := s.purges.erase oldest
        removed := s.removed ++ s.world.storage.obsoleteFiles.filter (·.2 < oldest) }
    else none

end System

/-- The file of an index the job has got from the foreground builder and not written yet. -/
def GcJob.relocating (j : GcJob) : Option Nat :=
  match j.phase with
  | .relocate _ (some i) _ => some i.fileNumber
  | _ => none

/-- The files named by an index that is built and not yet visible. -/
def System.inflight (s : System) : List Nat :=
  s.puts.filterMap (fun p => namedFile p.2.2) ++ s.jobs.filterMap GcJob.relocating

/-- Building, or registered and not obsolete. -/
def World.live (w : World) (n : Nat) : Bool :=
  w.storage.findBuildingFile n || (w.storage.findFile n).any fun m => !m.isObsolete

theorem World.live_iff {w : World} {n : Nat} :
    w.live n = true ↔ w.storage.findBuildingFile n = true ∨ ∃ m, w.storage.findFile n = some m ∧ m.isObsolete = false := by
  simp [World.live, Option.any_eq_true]

/-! ### What keeps between steps -/

/-- A file is building or registered, not both, and the files with a tag are the obsolete ones. -/
structure WorldOk (w : World) : Prop where
  fgWf : FgWf w
  building : FgBuilding w
  unregistered : ∀ n, w.storage.findBuildingFile n = true → w.storage.findFile n = none
  tags : (w.storage.obsoleteFiles.map fst).Nodup
  tagged : ∀ p ∈ w.storage.obsoleteFiles, ∃ m, w.storage.findFile p.1 = some m ∧ m.isObsolete = true

/-- Of the files there were, only those in `C` and the foreground builders' own may have changed, and those
outside `C` have not become unreadable. -/
structure Touch (C : List Nat) (w w' : World) : Prop where
  next_le : w.nextFileNumber ≤ w'.nextFileNumber
  find : ∀ n, n < w.nextFileNumber → n ∉ C → (∀ b, n ∉ w.owned b) → w'.storage.findFile n = w.storage.findFile n
  disk : ∀ n, n ∉ C → (w.disk n).isSome → (w'.disk n).isSome
  building_new : ∀ n, w'.storage.findBuildingFile n = true → w.storage.findBuildingFile n = true ∨ w.nextFileNumber ≤ n
  owned_new : ∀ b, ∀ n ∈ w'.owned b, n ∈ w.owned b ∨ w.nextFileNumber ≤ n
  live : ∀ n, n ∉ C → w.live n = true → w'.live n = true

section

variable {o : Options} {w w' w'' : World} {C C' : List Nat}

theorem Touch.refl (C : List Nat) (w : World) : Touch C w w :=
  ⟨le_rfl, fun _ _ _ _ => rfl, fun _ _ h => h, fun _ h => .inl h, fun _ _ h => .inl h, fun _ _ h => h⟩

theorem Touch.mono (h : Touch C w w') (hsub : C ⊆ C') : Touch C' w w' :=
  ⟨h.next_le, fun n hn hC => h.find n hn (hC ∘ @hsub n), fun n hC => h.disk n (hC ∘ @hsub n), h.building_new,
    h.owned_new, fun n hC => h.live n (hC ∘ @hsub n)⟩

theorem Touch.trans (h : Touch C w w') (h' : Touch C w' w'') : Touch C w w'' where
  next_le := h.next_le.trans h'.next_le
  find n hn hC hown := by
    have hown' : ∀ b, n ∉ w'.owned b := fun b hb =>
      (h.owned_new b n hb).elim (hown b) fun hle => absurd hn (by omega)
    rw [h'.find n (hn.trans_le h.next_le) hC hown', h.find n hn hC hown]
  disk n hC hd := h'.disk n hC (h.disk n hC hd)
  building_new n hn := (h'.building_new n hn).elim (h.building_new n) fun hle => .inr (h.next_le.trans hle)
  owned_new b n hn := (h'.owned_new b n hn).elim (h.owned_new b n) fun hle => .inr (h.next_le.trans hle)
  live n hC hl := h'.live n hC (h.live n hC hl)

theorem WorldOk.quiet (h : WorldOk w) (hw : FgWf w') (hf : FgBuilding w') (hq : Quiet w w') :
    WorldOk w' ∧ Touch [] w w' := by
  refine ⟨⟨hw, hf, fun n hn => ?_, hq.obsolete ▸ h.tags, fun p hp => ?_⟩,
    ⟨hq.next_le, fun n _ _ _ => hq.find n, fun n _ hd => ?_, hq.building_new, hq.owned_new, fun n _ hl => ?_⟩⟩
  · rw [hq.find]
    exact (hq.building_new n hn).elim (h.unregistered n) fun hle => (h.fgWf.fresh n hle).2.1
  · rw [hq.find]
    exact h.tagged p (hq.obsolete ▸ hp)
  · obtain ⟨f, hf⟩ := isSome_iff_exists.1 hd
    obtain ⟨f', hf', -⟩ := hq.grows n f hf
    rw [hf']; rfl
  · rw [live_iff, hq.find] at *
    exact hl.imp_left (hq.building n)

theorem WorldOk.relabel (h : WorldOk w) (hfg : w'.fg = w.fg) (hnext : w'.nextFileNumber = w.nextFileNumber)
    (hbuild : w'.storage.buildingFiles = w.storage.buildingFiles)
    (hfind : ∀ n, n ∉ C → w'.storage.findFile n = w.storage.findFile n)
    (hnone : ∀ n, w.storage.findFile n = none → w'.storage.findFile n = none)
    (hdisk : ∀ n, n ∉ C → w'.disk n = w.disk n) (hgone : ∀ n, w.disk n = none → w'.disk n = none)
    (hown : ∀ b, ∀ n ∈ w.owned b, n ∉ C) (htags : (w'.storage.obsoleteFiles.map fst).Nodup)
    (htagged : ∀ p ∈ w'.storage.obsoleteFiles, ∃ m, w'.storage.findFile p.1 = some m ∧ m.isObsolete = true) :
    WorldOk w' ∧ Touch C w w' := by
  have hbuild' : ∀ n, w'.storage.findBuildingFile n = w.storage.findBuildingFile n := fun n => by
    simp only [findBuildingFile, hbuild]
  have hown' : ∀ b, w'.owned b = w.owned b := fun b => by simp only [owned, hfg]
  refine ⟨⟨⟨fun n hn => ?_, fun b n hn => ?_, fun b => hown' b ▸ h.fgWf.owned_nodup b, fun b b' hne => ?_, ?_⟩,
    fun b n hn => ?_, fun n hn => ?_, htags, htagged⟩,
    ⟨hnext.ge, fun n _ hC _ => hfind n hC, fun n hC hd => by rwa [hdisk n hC], fun n hn => .inl (hbuild' n ▸ hn),
      fun b n hn => .inl (hown' b ▸ hn), fun n hC hl => ?_⟩⟩
  · obtain ⟨hd, hf, hb⟩ := h.fgWf.fresh n (hnext ▸ hn)
    exact ⟨hgone n hd, hnone n hf, (hbuild' n).trans hb⟩
  · rw [hown'] at hn
    obtain ⟨hd, hf⟩ := h.fgWf.owned_some b n hn
    exact ⟨by rwa [hdisk n (hown b n hn)], hnone n hf⟩
  · rw [hown', hown']; exact h.fgWf.owned_disjoint b b' hne
  · rw [hfg]; exact h.fgWf.finished
  · rw [hbuild']; exact h.building b n (hown' b ▸ hn)
  · exact hnone n (h.unregistered n (hbuild' n ▸ hn))
  · rw [live_iff, hfind n hC, hbuild']; exact live_iff.1 hl

variable {n : Nat} {fs : BlobFileSet} {f : AddFaults}

theorem WorldOk.not_owned (h : WorldOk w) (hn : (w.storage.findFile n).isSome) (b : Nat) : n ∉ w.owned b := fun hb => by
  rw [(h.fgWf.owned_some b n hb).2] at hn
  cases hn

theorem WorldOk.lt_next (h : WorldOk w) (hn : (w.storage.findFile n).isSome) : n < w.nextFileNumber := by
  by_contra hle
  rw [(h.fgWf.fresh n (by omega)).2.1] at hn
  cases hn

theorem WorldOk.live_lt_next (h : WorldOk w) (hn : w.live n = true) : n < w.nextFileNumber := by
  rcases live_iff.1 hn with hb | ⟨m, hm, -⟩
  · by_contra hle
    rw [(h.fgWf.fresh n (by omega)).2.2] at hb
    cases hb
  · exact h.lt_next (by rw [hm]; rfl)

theorem findFile_transitFiles (e : FileEvent) (ns : List Nat) (w : World)
    (hidem : ∀ m : BlobFileMeta, (m.fileStateTransit e).fileStateTransit e = m.fileStateTransit e) (n : Nat) :
    (w.transitFiles e ns).storage.findFile n =
      if n ∈ ns then (w.storage.findFile n).map (·.fileStateTransit e) else w.storage.findFile n :=
  findFile_foldl_updateFile (fileNumber_fileStateTransit e) hidem ..

section
variable (h : WorldOk w)
include h

theorem WorldOk.setDb (db : BaseDb) : WorldOk { w with db } ∧ Touch [] w { w with db } :=
  h.relabel rfl rfl rfl (fun _ _ => rfl) (fun _ h => h) (fun _ _ => rfl) (fun _ h => h)
    (fun _ _ _ => not_mem_nil) h.tags h.tagged

theorem WorldOk.setFileSet (hnext : fs.nextFileNumber = w.nextFileNumber)
    (hst : fs.storage = w.storage) : WorldOk { w with fileSet := fs } ∧ Touch [] w { w with fileSet := fs } := by
  have hst' : storage { w with fileSet := fs } = w.storage := hst
  exact h.relabel rfl hnext (by rw [hst']) (fun _ _ => by rw [hst']) (fun n hn => by rw [hst', hn]) (fun _ _ => rfl)
    (fun _ h => h) (fun _ _ _ => not_mem_nil) (by rw [hst']; exact h.tags) (by rw [hst']; exact h.tagged)

theorem WorldOk.transit {e : FileEvent} {ns : List Nat}
    (hidem : ∀ m : BlobFileMeta, (m.fileStateTransit e).fileStateTransit e = m.fileStateTransit e)
    (hreg : ∀ n ∈ ns, ∃ m, w.storage.findFile n = some m ∧ (m.fileStateTransit e).isObsolete = m.isObsolete) :
    WorldOk (w.transitFiles e ns) ∧ Touch ns w (w.transitFiles e ns) := by
  have hfind := findFile_transitFiles e ns w hidem
  obtain ⟨hbuild, hobs⟩ := foldl_updateFile_frame (·.fileStateTransit e) ns w.storage
  have hobs' : (w.transitFiles e ns).storage.obsoleteFiles = w.storage.obsoleteFiles := hobs
  refine h.relabel rfl rfl hbuild (fun n hC => by rw [hfind, if_neg hC]) (fun n hn => by rw [hfind, hn]; split <;> rfl)
    (fun _ _ => rfl) (fun _ h => h) (fun b n hn hC => ?_) (hobs' ▸ h.tags) (fun p hp => ?_)
  · obtain ⟨m, hm, -⟩ := hreg n hC
    exact h.not_owned (by rw [hm]; rfl) b hn
  · obtain ⟨m, hm, hmo⟩ := h.tagged p (hobs' ▸ hp)
    rw [hfind]
    split
    next hC =>
      obtain ⟨m', hm', hsame⟩ := hreg p.1 hC
      obtain rfl : m = m' := by rw [hm] at hm'; exact some.inj hm'
      exact ⟨_, by rw [hm]; rfl, hsame.trans hmo⟩
    next => exact ⟨m, hm, hmo⟩

theorem WorldOk.register {sep : Bool} {files : List BlobFileMeta}
    (hnext : fs.nextFileNumber = w.nextFileNumber) (hadd : FilesAdded sep files w.storage fs.storage)
    (hfree : ∀ f ∈ files, f.fileNumber < w.nextFileNumber ∧ w.storage.findBuildingFile f.fileNumber = false ∧
      ∀ b, f.fileNumber ∉ w.owned b) :
    WorldOk { w with fileSet := fs } ∧ Touch (files.map fileNumber) w { w with fileSet := fs } := by
  have hwf : FgWf { w with fileSet := fs } :=
    GcState.FgWf.register h.fgWf hnext hadd fun f hf => ⟨(hfree f hf).1, (hfree f hf).2.2⟩
  have hbuild : ∀ n, fs.storage.findBuildingFile n = w.storage.findBuildingFile n := by
    intro n
    rw [hadd.building]
    by_cases hn : (files.any fun m => m.fileNumber == n) = true
    · obtain ⟨f, hf, hfn⟩ := any_eq_true.1 hn
      rw [beq_iff_eq] at hfn
      rw [← hfn, (hfree f hf).2.1, Bool.false_and]
    · rw [Bool.eq_false_iff.2 hn]; simp
  have hfind : ∀ n, n ∉ files.map fileNumber → fs.storage.findFile n = w.storage.findFile n := by
    intro n hn
    rw [hadd.find, find?_eq_none.2 fun f hf => ?_, or_none]
    rw [beq_iff_eq]
    rintro rfl
    exact hn (mem_map_of_mem hf)
  refine ⟨⟨hwf, fun b n hn => (hbuild n).trans (h.building b n hn), fun n hn => ?_, ?_, fun p hp => ?_⟩,
    ⟨hnext.ge, fun n _ hC _ => hfind n hC, fun _ _ h => h, fun n hn => .inl (hbuild n ▸ hn),
      fun _ _ h => .inl h, fun n hC hl => ?_⟩⟩
  · have hb : w.storage.findBuildingFile n = true := hbuild n ▸ hn
    refine (hfind n fun hmem => ?_).trans (h.unregistered n hb)
    obtain ⟨f, hf, rfl⟩ := mem_map.1 hmem
    rw [(hfree f hf).2.1] at hb
    cases hb
  · exact hadd.obsolete ▸ h.tags
  · obtain ⟨m, hm, hmo⟩ := h.tagged p (hadd.obsolete ▸ hp)
    exact ⟨m, by show fs.storage.findFile p.1 = some m; rw [hadd.find, hm]; rfl, hmo⟩
  · rw [live_iff] at hl ⊢
    rwa [hbuild, hfind n hC]

theorem WorldOk.markObsolete {ps : List (Nat × SequenceNumber)}
    (hnext : fs.nextFileNumber = w.nextFileNumber) (hdel : FilesDeleted ps w.storage fs.storage)
    (hnodup : (ps.map fst).Nodup) : WorldOk { w with fileSet := fs } ∧ Touch (ps.map fst) w { w with fileSet := fs } := by
  have hlive : ∀ n ∈ ps.map fst, ∃ m, w.storage.findFile n = some m ∧ m.isObsolete = false := by
    intro n hn
    obtain ⟨p, hp, rfl⟩ := mem_map.1 hn
    exact hdel.live p hp
  have hobs : storage { w with fileSet := fs } = fs.storage := rfl
  refine h.relabel rfl hnext hdel.building (fun n hC => by rw [hobs, hdel.find, if_neg hC])
    (fun n hn => by rw [hobs, hdel.find, hn]; split <;> rfl) (fun _ _ => rfl) (fun _ h => h)
    (fun b n hn hC => ?_) ?_ (fun p hp => ?_)
  · obtain ⟨m, hm, -⟩ := hlive n hC
    exact h.not_owned (by rw [hm]; rfl) b hn
  · rw [hdel.obsolete, map_append, nodup_append]
    refine ⟨h.tags, hnodup, fun n hn n' hn' heq => ?_⟩
    obtain ⟨p, hp, rfl⟩ := mem_map.1 hn
    obtain ⟨m, hm, hmo⟩ := h.tagged p hp
    obtain ⟨m', hm', hmo'⟩ := hlive _ hn'
    rw [← heq, hm, some.injEq] at hm'
    rw [← hm', hmo] at hmo'
    cases hmo'
  · rw [hdel.obsolete, mem_append] at hp
    rw [hdel.find]
    split
    next hC =>
      obtain ⟨m, hm, -⟩ := hlive _ hC
      exact ⟨_, by rw [hm]; rfl, rfl⟩
    next hC => exact h.tagged p (hp.resolve_right fun hp => hC (mem_map_of_mem hp))

/-- A slot hands its finished files over; they are registered, or the manifest write fails and they are left as
building files for good. -/
theorem WorldOk.handOver {b : Nat} (hover : HandsOver b w fs w') : WorldOk w' ∧ Touch [] w w' := by
  obtain ⟨hwf, hmem, hsame⟩ := h.fgWf.handOver hover
  have hobs := hover.obsolete
  obtain ⟨hb, hnext, hst, hw'⟩ := hover
  have hdb : w'.storage = fs.storage := by rw [hw']
  have hnew : ∀ n, w'.storage.findBuildingFile n = true → w.storage.findBuildingFile n = true ∧
      w'.storage.findFile n = w.storage.findFile n := by
    intro n hn
    rw [hdb] at hn ⊢
    rcases hst with hst | hadd
    · rw [hst] at hn ⊢; exact ⟨hn, rfl⟩
    · rw [hadd.building, Bool.and_eq_true, Bool.true_and, Bool.not_eq_true', List.any_eq_false] at hn
      exact ⟨hn.1, by rw [hadd.find, find?_eq_none.2 hn.2, or_none]⟩
  refine ⟨⟨hwf, fun b' n hn => ?_, fun n hn => ?_, ?_, fun p hp => ?_⟩,
    ⟨?_, fun n _ _ ho => (hsame n (ho b)).1, fun n _ hd => ?_, fun n hn => .inl (hnew n hn).1,
      fun b' n hn => .inl (hmem b' n hn).1, fun n _ hl => ?_⟩⟩
  · obtain ⟨hn, hne⟩ := hmem b' n hn
    rw [(hsame n fun hb => h.fgWf.owned_disjoint b' b hne hn hb).2]
    exact h.building b' n hn
  · obtain ⟨hb, hf⟩ := hnew n hn
    rw [hf]; exact h.unregistered n hb
  · rw [hobs]; exact h.tags
  · obtain ⟨m, hm, hmo⟩ := h.tagged p (hobs ▸ hp)
    exact ⟨m, by rw [(hsame p.1 (h.not_owned (by rw [hm]; rfl) b)).1, hm], hmo⟩
  · rw [hw', nextFileNumber]; exact hnext.ge
  · rw [hw']; exact hd
  · rw [live_iff] at hl ⊢
    by_cases hn : n ∈ w.owned b
    · rcases hst with hst | hadd
      · rwa [hdb, hst]
      · -- the file has just been registered, in the state kNormal
        right
        obtain ⟨m, hm, rfl⟩ : ∃ m ∈ (w.fg b).finished, m.fileNumber = n := by simpa [owned, hb] using hn
        obtain ⟨m', hm'⟩ : ∃ m', (w.fg b).finished.find? (fun f => f.fileNumber == m.fileNumber) = some m' :=
          isSome_iff_exists.1 (find?_isSome.2 ⟨m, hm, beq_self_eq_true _⟩)
        refine ⟨m', ?_, ?_⟩
        · rw [hdb, hadd.find, (h.fgWf.owned_some b _ hn).2, hm']; rfl
        · have hstate := (h.fgWf.finished b m' (mem_of_find?_eq_some hm')).2
          simp [isObsolete, hstate]
    · rwa [(hsame n hn).1, (hsame n hn).2]

theorem WorldOk.flushSlot {b : Nat} (hsep : o.sepBeforeFlush = true) (hs : w.flushSlot o f b = some w') :
    WorldOk w' ∧ Touch [] w w' ∧ w'.db = w.db ∧ w'.storage.obsoleteFiles = w.storage.obsoleteFiles := by
  obtain ⟨w₁, hfin, hcases⟩ := flushSlot_cases h.fgWf hsep hs
  obtain ⟨hw₁, hq, -, hset, -, hown⟩ := finishBlob_spec h.fgWf hfin
  have hf₁ : FgBuilding w₁ := fun b' n hn => by rw [storage, hset]; exact h.building b' n (hown b' ▸ hn)
  obtain ⟨hok₁, ht₁⟩ := h.quiet hw₁ hf₁ hq
  rcases hcases with rfl | ⟨fs, hover, -⟩
  · exact ⟨hok₁, ht₁, hq.db, hq.obsolete⟩
  · obtain ⟨hok₂, ht₂⟩ := hok₁.handOver hover
    exact ⟨hok₂, ht₁.trans ht₂, by rw [hover.world]; exact hq.db, hover.obsolete.trans hq.obsolete⟩

theorem WorldOk.foregroundAdd {k v : Slice} {st : Status} {wb : Option BlobIndex}
    (hsep : o.sepBeforeFlush = true) (hadd : f.addBuildingFile = none)
    (hs : w.foregroundAdd o f k v = some (w', st, wb)) :
    WorldOk w' ∧ Touch [] w w' ∧ w'.db = w.db ∧ w'.storage.obsoleteFiles = w.storage.obsoleteFiles ∧
      ∀ i, wb = some i → ∃ b, i.fileNumber ∈ w'.owned b := by
  unfold World.foregroundAdd at hs
  split at hs
  · cases hs
    exact ⟨h, .refl _ _, rfl, rfl, nofun⟩
  split at hs
  · obtain ⟨w₁, hflush, hs⟩ := map_eq_some_iff.1 hs
    cases hs
    obtain ⟨hok, ht, hdb, hobs⟩ := h.flushSlot hsep hflush
    exact ⟨hok, ht, hdb, hobs, nofun⟩
  · obtain ⟨hw, hq, -, -⟩ := appendRecord_spec h.fgWf hs
    obtain ⟨hf, hown⟩ := appendRecord_building h.fgWf h.building hadd hs
    obtain ⟨hok, ht⟩ := h.quiet hw hf hq
    exact ⟨hok, ht, hq.db, hq.obsolete, fun i hi => ⟨_, hown i hi⟩⟩

theorem WorldOk.putEntry {k v : Slice} {e : Option LsmEntry}
    (hadd : f.addBuildingFile = none) (hs : w.putEntry o f k v = some (w', e)) :
    WorldOk w' ∧ Touch [] w w' ∧ w'.db = w.db ∧ w'.storage.obsoleteFiles = w.storage.obsoleteFiles ∧
      ∀ n, namedFile e = some n → ∃ b, n ∈ w'.owned b := by
  unfold World.putEntry at hs
  split at hs
  next hsep =>
    simp only [map_eq_some_iff, Prod.exists] at hs
    obtain ⟨w₁, st, wb, hs, heq⟩ := hs
    obtain ⟨hok, ht, hdb, hobs, hown⟩ := h.foregroundAdd hsep hadd hs
    split at heq
    · cases heq
      refine ⟨hok, ht, hdb, hobs, fun n hn => ?_⟩
      cases wb with
      | none => cases hn
      | some i => cases hn; exact hown i rfl
    · cases heq
      exact ⟨hok, ht, hdb, hobs, nofun⟩
  · cases hs
    exact ⟨h, .refl _ _, rfl, rfl, nofun⟩

theorem WorldOk.dropFiles {disk : Nat → Option WritableFile}
    (hdisk : ∀ n, n ∉ C → disk n = w.disk n) (hgone : ∀ n, disk n = w.disk n ∨ disk n = none)
    (hown : ∀ b, ∀ n ∈ w.owned b, n ∉ C) : WorldOk { w with disk } ∧ Touch C w { w with disk } :=
  h.relabel rfl rfl rfl (fun _ _ => rfl) (fun _ h => h) hdisk
    (fun n hn => (hgone n).elim (fun h => h.trans hn) id) hown h.tags h.tagged

theorem WorldOk.purge (oldest : SequenceNumber) :
    (∀ n ∈ (w.storage.getObsoleteFiles oldest).2, ∃ m, w.storage.findFile n = some m ∧ m.isObsolete = true) ∧
      WorldOk (System.purgeWorld oldest w) ∧
      Touch (w.storage.getObsoleteFiles oldest).2 w (System.purgeWorld oldest w) := by
  have hremoved : ∀ n ∈ (w.storage.getObsoleteFiles oldest).2, ∃ p ∈ w.storage.obsoleteFiles, p.1 = n ∧ p.2 < oldest := by
    intro n hn
    obtain ⟨p, hp, rfl⟩ := mem_map.1 hn
    obtain ⟨hp, hlt⟩ := mem_filter.1 hp
    exact ⟨p, hp, rfl, by simpa using hlt⟩
  have hreg : ∀ n ∈ (w.storage.getObsoleteFiles oldest).2,
      ∃ m, w.storage.findFile n = some m ∧ m.isObsolete = true := by
    intro n hn
    obtain ⟨p, hp, rfl, -⟩ := hremoved n hn
    exact h.tagged p hp
  have hst : (System.purgeWorld oldest w).storage = (w.storage.getObsoleteFiles oldest).1 := rfl
  refine ⟨hreg, h.relabel rfl rfl rfl (fun n hn => by rw [hst, findFile_getObsoleteFiles, if_neg hn])
    (fun n hn => by rw [hst, findFile_getObsoleteFiles, hn]; split <;> rfl) (fun n hn => if_neg hn)
    (fun n hn => by simp [System.purgeWorld, hn]) (fun b n hn hC => ?_) ?_ (fun p hp => ?_)⟩
  · obtain ⟨m, hm, -⟩ := hreg n hC
    exact h.not_owned (by rw [hm]; rfl) b hn
  · exact h.tags.sublist (filter_sublist.map _)
  · obtain ⟨hp, hge⟩ := mem_filter.1 hp
    rw [hst, findFile_getObsoleteFiles, if_neg fun hn => ?_]
    · exact h.tagged p hp
    · obtain ⟨p', hp', heq, hlt⟩ := hremoved _ hn
      obtain rfl := inj_on_of_nodup_map h.tags hp' hp heq
      simp [hlt] at hge

end

end

namespace System

/-- An engine just created. -/
def fresh : System where
  world :=
    { db := ⟨[], 0⟩
      fileSet := ⟨⟨[], [], []⟩, [⟨some 1, [], [], []⟩], 1, 1⟩
      disk := fun _ => none
      fg := fun _ => ⟨none, []⟩ }
  puts := []
  jobs := []
  snapshots := []
  purges := []
  removed := []
  acked := []

theorem worldOk_fresh : WorldOk fresh.world where
  fgWf := ⟨fun _ _ => ⟨rfl, rfl, rfl⟩, nofun, fun _ => nodup_nil, fun _ _ _ => disjoint_nil_left _, nofun⟩
  building := nofun
  unregistered := nofun
  tags := nodup_nil
  tagged := nofun

end System

end ValueSep.DiffKV
