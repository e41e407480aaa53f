import ValueSep.DiffKV.Recover
import ValueSep.DiffKV.GcFinish
import ValueSep.DiffKV.LastWrite

/-!
# Crashes during and after a job

Base DB and blob manifest are two logs that are persisted separately. A crash keeps a prefix of each, no shorter
than what was synced. After `InstallOutputBlobFiles` the new indexes go into the WAL, and then the manifest drops
the inputs; the sync of the WAL that should come between the two (`FlushWAL(true)`) is commented out, and
`Retired` is what it would have achieved.

`history` records what each write of the log stands for in the eyes of the user; a write of the job's stands for
what its key has.
-/

namespace ValueSep.DiffKV

open World Exec Manifest
open List Option BaseDb BlobFileSet BlobFileMeta VersionEdit Prod

/-- The engine after a crash that keeps `n` writes of the WAL and `m` records of the manifest: the blob file set
is recovered, and files it does not know are deleted. A registered file was synced before its record was
written. -/
def World.crash (o : Options) (n m : Nat) (w : World) : Except Status World :=
  match recover o.sepBeforeFlush (w.fileSet.manifest.take m) with
  | .error st => .error st
  | .ok (storage, next) => .ok
    { db := { w.db.asOf n with synced := n }
      fileSet := ⟨storage, w.fileSet.manifest.take m, m, next⟩
      disk := fun f => if (storage.findFile f).isSome then w.disk f else none
      fg := fun _ => ⟨none, []⟩ }

inductive CrashEvent
  | run (e : GcEvent)
  | sync

structure Durability where
  gc : GcState
  history : List (Slice × Visible)

namespace Durability

open GcState

variable (o : Options) (d : Durability)

abbrev world : World := d.gc.world

def record : GcEvent → List (Slice × Visible)
  | .put k v => (k, .value v) :: d.history
  | .delete k => (k, .absent) :: d.history
  | .gc env => match d.gc.gcWrite env with
    | some b => (b.key, (d.history.lookup b.key).getD .absent) :: d.history
    | none => d.history

def step : CrashEvent → Option Durability
  | .run e => (d.gc.react o e).map fun gc => ⟨gc, d.record e⟩
  | .sync => some { d with gc := { d.gc with world := { d.world with db := d.world.db.syncWal } } }

/-- What the key's last write among the first `n` stands for. -/
def lastDurable (n : Nat) (k : Slice) : Visible := ((d.history.drop (d.history.length - n)).lookup k).getD .absent

/-- After every crash the blob file set is recovered, every visible index names a file in it, and every key
reads what its last durable write stands for. -/
def CrashConsistent : Prop :=
  ∀ n m, d.world.db.synced ≤ n → n ≤ d.world.db.log.length → d.world.fileSet.manifestSynced ≤ m →
    m ≤ d.world.fileSet.manifest.length →
    ∃ w', d.world.crash o n m = .ok w' ∧
      (∀ k i, w'.db.get k = some (.blobIndex i) →
        ∃ f, w'.storage.findFile i.fileNumber = some f ∧ f.isObsolete = false) ∧
      ∀ k, w'.visible o k = d.lastDurable n k

/-- In the synced part of the WAL no key is left with an index into an input, and none of the writes after it
names one. -/
def Retired (s : GcState) : Prop :=
  (∀ p ∈ (s.world.db.asOf s.world.db.synced).log, ∀ n ∈ s.job.inputs,
    namedFile ((s.world.db.asOf s.world.db.synced).get p.1) ≠ some n) ∧
  ∀ p ∈ s.world.db.log.take (s.world.db.log.length - s.world.db.synced), ∀ n ∈ s.job.inputs, namedFile p.2.1 ≠ some n

instance (s : GcState) : Decidable (Retired s) := inferInstanceAs (Decidable (_ ∧ _))

/-- The step neither gives a record up nor overwrites a user's write, a Put stays out of the foreground builders'
unregistered files, and the inputs are deleted only when the WAL has been synced far enough. -/
def SafeStep (o : Options) (d : Durability) : CrashEvent → Prop
  | .sync => True
  | .run e => Relocates o d.gc e ∧ CallbackOk o d.gc e ∧
    match e with
    | .put _ v => putSeparates o v = false
    | .delete _ => True
    | .gc _ => d.gc.job.phase = .deleteInputs → Retired d.gc

instance (o : Options) (d : Durability) : (e : CrashEvent) → Decidable (SafeStep o d e)
  | .sync => .isTrue trivial
  | .run e => by
    unfold SafeStep
    cases e <;> infer_instance

/-! ### The manifest and the storage -/

/-- The manifest says the same as the storage in memory. A file that was purged is gone from the disk. -/
structure ManifestInv (w : World) : Prop where
  synced : w.fileSet.manifestSynced = w.fileSet.manifest.length
  ne : w.fileSet.manifest ≠ []
  ok : Ok w.fileSet.manifest
  next : ∀ e ∈ w.fileSet.manifest, e.nextFileNumber.getD 0 ≤ w.nextFileNumber
  logged : ∀ m ∈ added w.fileSet.manifest, m.fileNumber < w.nextFileNumber ∧
    ((w.storage.findFile m.fileNumber).isSome ∨ w.disk m.fileNumber = none)
  alive : ∀ m, Alive w.fileSet.manifest m →
    ∃ m', w.storage.findFile m.fileNumber = some m' ∧ m'.fileType = m.fileType
  live : ∀ n m', w.storage.findFile n = some m' → m'.isObsolete = false →
    ∃ m, Alive w.fileSet.manifest m ∧ m.fileNumber = n

variable {o d} {w w' : World}

theorem ManifestInv.calm (h : ManifestInv w) (hc : Calm w w') : ManifestInv w' := by
  refine ⟨by rw [hc.synced, hc.manifest]; exact h.synced, hc.manifest ▸ h.ne, hc.manifest ▸ h.ok, ?_, ?_, ?_, ?_⟩
  · rw [hc.manifest]
    exact fun e he => (h.next e he).trans hc.next_le
  · rw [hc.manifest]
    intro m hm
    obtain ⟨hlt, hgone⟩ := h.logged m hm
    obtain ⟨f, hf, -⟩ := hc.find m.fileNumber
    refine ⟨hlt.trans_le hc.next_le, hgone.imp (fun hs => ?_) (hc.created _ hlt)⟩
    rw [hf, isSome_map]; exact hs
  · rw [hc.manifest]
    intro m hm
    obtain ⟨m', hm', htype⟩ := h.alive m hm
    obtain ⟨f, hf, hsame⟩ := hc.find m.fileNumber
    exact ⟨f m', by rw [hf, hm']; rfl, (hsame m').1.trans htype⟩
  · rw [hc.manifest]
    intro n m' hm' hobs
    obtain ⟨f, hf, hsame⟩ := hc.find n
    rw [hf, map_eq_some_iff] at hm'
    obtain ⟨m, hm, rfl⟩ := hm'
    exact h.live n m hm ((hsame m).2 ▸ hobs)

/-! ### What survives -/

/-- After any crash the entry reads `v`: an index names a file whose record in the manifest is synced, whose
deletion has not been logged, and which holds the value. -/
def Stands (o : Options) (w : World) : Option LsmEntry → Visible → Prop
  | none, v => v = .absent
  | some (.value x), v => v = .value x
  | some (.blobIndex i), v => ∃ m r, m ∈ added (w.fileSet.manifest.take w.fileSet.manifestSynced) ∧
      m.fileNumber = i.fileNumber ∧ i.fileNumber ∉ (deleted w.fileSet.manifest).map fst ∧
      w.readFile o (readsOnlyValue o m) i = some r ∧ v = .value r.value

structure DurInv (o : Options) (d : Durability) : Prop where
  inv : Inv o d.gc
  mode : relocatesThroughBuilder o = false
  length : d.history.length = d.world.db.log.length
  synced : d.world.db.synced ≤ d.world.db.log.length
  entries : ∀ n, d.world.db.synced ≤ n → n ≤ d.world.db.log.length →
    ∀ k, Stands o d.world ((d.world.db.asOf n).get k) (d.lastDurable n k)
  prefixes : ∀ j, d.world.fileSet.manifestSynced ≤ j → j ≤ d.world.fileSet.manifest.length →
    d.world.fileSet.manifest.take j ≠ [] ∧ Ok (d.world.fileSet.manifest.take j)
  running : (∀ st, d.gc.job.phase ≠ .finished st) → ManifestInv d.world

theorem DurInv.crashConsistent (h : DurInv o d) : CrashConsistent o d := by
  intro n j hn hn' hj hj'
  obtain ⟨hne, hok⟩ := h.prefixes j hj hj'
  obtain ⟨storage, next, hrec, -, halive, -⟩ := recover_spec o.sepBeforeFlush hok hne
  obtain ⟨w', hw'⟩ : ∃ w' : World, w' =
    { db := { d.world.db.asOf n with synced := n }
      fileSet := ⟨storage, d.world.fileSet.manifest.take j, j, next⟩
      disk := fun f => if (storage.findFile f).isSome then d.world.disk f else none
      fg := fun _ => ⟨none, []⟩ } := ⟨_, rfl⟩
  -- an index that stands leads through its recovered file to the same bytes
  have hindex : ∀ i v, Stands o d.world (some (.blobIndex i)) v →
      (∃ f, storage.findFile i.fileNumber = some f ∧ f.isObsolete = false) ∧
        w'.entryValue o (some (.blobIndex i)) = v := by
    rintro i v ⟨m, r, hm, hnum, hdel, hread, rfl⟩
    have hsub : d.world.fileSet.manifest.take d.world.fileSet.manifestSynced ⊆ d.world.fileSet.manifest.take j :=
      (take_prefix_take_left hj).subset
    obtain ⟨m', hfind, hsame, hobs⟩ := halive m ⟨added_subset hsub hm, fun hmem => hdel (hnum ▸
      (map_subset _ (deleted_subset (take_subset ..)) hmem))⟩
    rw [hnum] at hfind
    have htype := fileType_of_persisted hsame
    refine ⟨⟨m', hfind, hobs⟩, ?_⟩
    have hres : w'.resolve o i = some r := by
      refine resolve_eq_some.2 (.inl ⟨m', by rw [hw']; exact hfind, hobs, ?_⟩)
      simpa [hw', readFile, hfind, readsOnlyValue, htype] using hread
    simp only [entryValue, hres]
  refine ⟨w', by simp only [crash, hrec, hw'], fun k i hk => ?_, fun k => ?_⟩
  · have hstands := h.entries n hn hn' k
    have hk' : (d.world.db.asOf n).get k = some (.blobIndex i) := by rw [hw'] at hk; exact hk
    rw [hk'] at hstands
    rw [hw']
    exact (hindex i _ hstands).1
  · have hstands := h.entries n hn hn' k
    have hdb : w'.db.get k = (d.world.db.asOf n).get k := by rw [hw']; rfl
    rw [visible, hdb]
    generalize (d.world.db.asOf n).get k = e at hstands
    rcases e with - | x | i
    · exact hstands.symm
    · exact hstands.symm
    · exact (hindex i _ hstands).2

/-! ### Steps that log nothing in the manifest -/

variable {v : Visible} {s' : GcState} {n : Nat} {e : VersionEdit} {env : GcEnv}

theorem Stands.mono {e : Option LsmEntry} (h : Stands o w e v)
    (hadd : added (w.fileSet.manifest.take w.fileSet.manifestSynced) ⊆
      added (w'.fileSet.manifest.take w'.fileSet.manifestSynced))
    (hdel : ∀ i, e = some (.blobIndex i) → i.fileNumber ∉ (deleted w.fileSet.manifest).map fst →
      i.fileNumber ∉ (deleted w'.fileSet.manifest).map fst)
    (hread : ∀ b i r, i.fileNumber ∈ (added w.fileSet.manifest).map fileNumber →
      w.readFile o b i = some r → w'.readFile o b i = some r) : Stands o w' e v := by
  match e, h with
  | none, h => exact h
  | some (.value x), h => exact h
  | some (.blobIndex i), ⟨m, r, hm, hnum, hnot, hr, hv⟩ =>
    refine ⟨m, r, hadd hm, hnum, hdel i rfl hnot, hread _ _ _ ?_ hr, hv⟩
    rw [← hnum]
    exact mem_map_of_mem (added_subset (take_subset ..) hm)

theorem Stands.calm {e : Option LsmEntry} (h : Stands o w e v) (hc : Calm w w') : Stands o w' e v :=
  h.mono (by rw [hc.manifest, hc.synced]; exact List.Subset.refl _) (fun _ _ hn => by rw [hc.manifest]; exact hn)
    fun _ _ _ _ hr => readFile_of_grows hc.grows hr

theorem DurInv.calm (h : DurInv o d) (hinv : Inv o s') (hc : Calm d.world s'.world)
    (hrun : ∀ st, d.gc.job.phase ≠ .finished st) : DurInv o ⟨s', d.history⟩ := by
  refine ⟨hinv, h.mode, ?_, ?_, ?_, ?_, fun _ => (h.running hrun).calm hc⟩
  · rw [world, hc.db]; exact h.length
  · rw [world, hc.db]; exact h.synced
  · rw [hc.db]
    exact fun n hn hn' k => (h.entries n hn hn' k).calm hc
  · rw [world, hc.manifest, hc.synced]; exact h.prefixes

theorem lastDurable_cons {gc : GcState} {k k' : Slice} (hn : n ≤ d.history.length) :
    lastDurable ⟨gc, (k, v) :: d.history⟩ n k' = d.lastDurable n k' := by
  simp only [lastDurable, length_cons]
  rw [show d.history.length + 1 - n = (d.history.length - n) + 1 by omega, drop_succ_cons]

theorem lastDurable_all {gc : GcState} {k k' : Slice} :
    lastDurable ⟨gc, (k, v) :: d.history⟩ (d.history.length + 1) k' =
      if k' = k then v else d.lastDurable d.history.length k' := by
  simp only [lastDurable, length_cons, Nat.sub_self, drop_zero, lookup_cons]
  by_cases h : k' = k
  · simp [h]
  · simp [h, beq_eq_false_iff_ne.2 h]

theorem DurInv.write {k : Slice} {e : Option LsmEntry} {by' : Writer} (h : DurInv o d)
    (hinv : Inv o s') (hw : s'.world = { d.world with db := d.world.db.write k e by' }) (he : Stands o d.world e v)
    (hrun : (∀ st, s'.job.phase ≠ .finished st) → ∀ st, d.gc.job.phase ≠ .finished st) :
    DurInv o ⟨s', (k, v) :: d.history⟩ := by
  have hlen : s'.world.db.log.length = d.world.db.log.length + 1 := by rw [hw]; rfl
  have hsync : s'.world.db.synced = d.world.db.synced := by rw [hw]; rfl
  have hfs : s'.world.fileSet = d.world.fileSet := by rw [hw]
  have hstands : ∀ e v, Stands o d.world e v → Stands o s'.world e v := fun e v he => by
    refine he.mono ?_ ?_ ?_ <;> rw [hw]
    · exact List.Subset.refl _
    · exact fun _ _ hn => hn
    · exact fun _ _ _ _ hr => hr
  refine ⟨hinv, h.mode, ?_, ?_, fun n hn hn' k' => ?_, ?_, fun hr => ?_⟩
  · rw [hlen, length_cons, h.length]
  · rw [world, hlen, hsync]; exact h.synced.trans (Nat.le_succ _)
  · have hn : d.world.db.synced ≤ n := hsync ▸ hn
    have hn' : n ≤ d.world.db.log.length + 1 := hlen ▸ hn'
    rcases Nat.lt_or_ge d.world.db.log.length n with hlast | hold
    · obtain rfl : n = d.history.length + 1 := by rw [h.length]; omega
      have hall : (s'.world.db.asOf (d.history.length + 1)).get k' = if k' = k then e else d.world.db.get k' := by
        rw [BaseDb.get, asOf_of_le (by rw [hlen, h.length]), hw, ← BaseDb.get, get_write]
      rw [hall, lastDurable_all]
      split
      · exact hstands _ _ he
      · refine hstands _ _ ?_
        have hprev := h.entries d.history.length (h.length ▸ h.synced) h.length.le k'
        rwa [BaseDb.get, asOf_of_le h.length.ge] at hprev
    · have hget : (s'.world.db.asOf n).get k' = (d.world.db.asOf n).get k' := by
        rw [BaseDb.get, BaseDb.get, hw, asOf_write hold]
      rw [hget, lastDurable_cons (h.length ▸ hold)]
      exact hstands _ _ (h.entries n hn hold k')
  · rw [world, hfs]; exact h.prefixes
  · obtain ⟨h₁, h₂, h₃, h₄, h₅, h₆, h₇⟩ := h.running (hrun hr)
    rw [world, hw]
    exact ⟨h₁, h₂, h₃, h₄, h₅, h₆, h₇⟩

theorem inv_sync {s : GcState} (h : Inv o s) :
    Inv o { s with world := { s.world with db := s.world.db.syncWal } } where
  fgWf := FgWf.congr h.fgWf rfl rfl rfl rfl
  fgHealthy := FgHealthy.congr h.fgHealthy rfl rfl
  inputs := h.inputs
  phase := h.phase.undisturbed ⟨fun _ _ hr => hr, .of_disk_eq rfl, fun _ ho => ⟨ho.nodup, ho.own⟩, fun _ => rfl,
    fun _ _ hk _ => hk⟩

theorem DurInv.sync (h : DurInv o d) :
    DurInv o { d with gc := { d.gc with world := { d.world with db := d.world.db.syncWal } } } := by
  refine ⟨inv_sync h.inv, h.mode, h.length, Nat.le_refl _, fun n hn hn' k => ?_, h.prefixes, fun hr => ?_⟩
  · exact (h.entries n (h.synced.trans hn) hn' k).mono (List.Subset.refl _) (fun _ _ h => h) fun _ _ _ _ h => h
  · obtain ⟨h₁, h₂, h₃, h₄, h₅, h₆, h₇⟩ := h.running hr
    exact ⟨h₁, h₂, h₃, h₄, h₅, h₆, h₇⟩

/-! ### Records in the manifest -/

section
variable (h : ManifestInv w)
include h

theorem ManifestInv.not_added (hfind : w.storage.findFile n = none)
    (hdisk : (w.disk n).isSome) : n ∉ (added w.fileSet.manifest).map fileNumber := fun hmem => by
  obtain ⟨m, hm, rfl⟩ := mem_map.1 hmem
  have hgone := (h.logged m hm).2
  rw [hfind] at hgone
  rw [hgone.resolve_left (by simp)] at hdisk
  cases hdisk

theorem ManifestInv.ok_snoc (ha : BlobFileSet.Accepted e w.fileSet)
    (hone : e.addedFiles = [] ∨ e.deletedFiles = []) (hdisk : ∀ f ∈ e.addedFiles, (w.disk f.fileNumber).isSome) :
    Ok (w.fileSet.manifest ++ [logRecord e w.fileSet]) := by
  have hnum : (logRecord e w.fileSet).addedFiles.map fileNumber =
      e.addedFiles.map BlobFileMeta.fileNumber := by
    simp [BlobFileSet.logRecord, VersionEdit.persisted]
  have hdel : (BlobFileSet.logRecord e w.fileSet).deletedFiles.map Prod.fst = e.deletedFiles.map Prod.fst := by
    simp [BlobFileSet.logRecord, VersionEdit.persisted]
  refine h.ok.snoc rfl h.next (by rw [hnum]; exact ha.added) (fun m hm hmem => ?_) (by rw [hdel]; exact ha.deleted)
    fun p hp => ?_
  · obtain ⟨f, hf, hfm⟩ := mem_map.1 (hnum ▸ mem_map_of_mem hm)
    exact h.not_added (ha.fresh f hf) (hdisk f hf) (hfm ▸ hmem)
  · obtain ⟨q, hq, hqp⟩ := mem_map.1 (hdel ▸ mem_map_of_mem hp)
    have hnone : q.1 ∉ e.addedFiles.map fileNumber := by
      rw [hone.resolve_right (ne_nil_of_mem hq)]; simp
    obtain ⟨m, hm, hobs⟩ := (ha.live q hq).resolve_left hnone
    obtain ⟨m', hm', hnum'⟩ := h.live _ m hm hobs
    exact ⟨m', hm', hnum'.trans hqp⟩

/-- The manifests a crash can leave after a record was written, synced or not. -/
theorem ManifestInv.prefixes {fs : BlobFileSet} (hrec : fs.manifest = w.fileSet.manifest ∨
      fs.manifest = w.fileSet.manifest ++ [logRecord e w.fileSet] ∧
        Ok (w.fileSet.manifest ++ [logRecord e w.fileSet])) :
    ∀ j, w.fileSet.manifest.length ≤ j → j ≤ fs.manifest.length → fs.manifest.take j ≠ [] ∧ Ok (fs.manifest.take j) := by
  intro j hj hj'
  rcases hrec with hm | ⟨hm, hok⟩
  · rw [hm, take_of_length_le hj]
    exact ⟨h.ne, h.ok⟩
  · rcases Nat.lt_or_ge w.fileSet.manifest.length j with hlt | hge
    · rw [hm, take_of_length_le (by simp; omega)]
      exact ⟨by simp, hok⟩
    · rw [hm, show j = w.fileSet.manifest.length by omega, take_left]
      exact ⟨h.ne, h.ok⟩

theorem ManifestInv.register {fs : BlobFileSet} {sep : Bool} {files : List BlobFileMeta}
    (hlog : BlobFileSet.Logged (.ofAdded files) w.fileSet fs) (hadd : FilesAdded sep files w.storage fs.storage)
    (hfiles : ∀ f ∈ files, f.fileNumber < w.nextFileNumber ∧ (w.disk f.fileNumber).isSome) :
    ManifestInv { w with fileSet := fs } := by
  have hok := h.ok_snoc hlog.accepted (.inr rfl) fun f hf => (hfiles f hf).2
  have hadded : added fs.manifest = added w.fileSet.manifest ++
      files.map BlobFileMeta.persisted := by
    rw [hlog.manifest, added_snoc]; rfl
  have hdeleted : deleted fs.manifest = deleted w.fileSet.manifest := by
    rw [hlog.manifest]
    simp [BlobFileSet.logRecord, VersionEdit.persisted, VersionEdit.ofAdded]
  -- the search for a new file's number finds that file
  have hnew : ∀ f ∈ files, fs.storage.findFile f.fileNumber = some f := fun f hf => by
    rw [hadd.find, hadd.fresh f hf]
    exact Keyed.find?_of_mem hlog.accepted.added hf
  have hold : ∀ n m, w.storage.findFile n = some m → fs.storage.findFile n = some m := fun n m hm => by
    rw [hadd.find, hm]; rfl
  refine ⟨hlog.synced, ?_, hlog.manifest ▸ hok, ?_, ?_, ?_, ?_⟩
  · rw [hlog.manifest]; simp
  · intro e he
    rw [hlog.manifest] at he
    show _ ≤ fs.nextFileNumber
    rw [hlog.next]
    rcases mem_append.1 he with he | he
    · exact h.next e he
    · rw [mem_singleton.1 he]; exact Nat.le_refl _
  · intro m hm
    rw [hadded] at hm
    show _ < fs.nextFileNumber ∧ ((fs.storage.findFile _).isSome ∨ _)
    rw [hlog.next]
    rcases mem_append.1 hm with hm | hm
    · refine ⟨(h.logged m hm).1, (h.logged m hm).2.imp_left fun hs => ?_⟩
      obtain ⟨m', hm'⟩ := isSome_iff_exists.1 hs
      rw [hold _ m' hm']; rfl
    · obtain ⟨f, hf, rfl⟩ := mem_map.1 hm
      exact ⟨(hfiles f hf).1, .inl (by rw [BlobFileMeta.fileNumber_persisted, hnew f hf]; rfl)⟩
  · rintro m ⟨hm, hnot⟩
    rw [hadded] at hm
    rw [hdeleted] at hnot
    rcases mem_append.1 hm with hm | hm
    · obtain ⟨m', hm', htype⟩ := h.alive m ⟨hm, hnot⟩
      exact ⟨m', hold _ m' hm', htype⟩
    · obtain ⟨f, hf, rfl⟩ := mem_map.1 hm
      exact ⟨f, hnew f hf, rfl⟩
  · intro n m' hm' hobs
    rw [hadd.find] at hm'
    cases hw : w.storage.findFile n with
    | some m₀ =>
      rw [hw] at hm'
      obtain rfl : m₀ = m' := by simpa using hm'
      obtain ⟨m, hm, hnum⟩ := h.live n m₀ hw hobs
      refine ⟨m, ⟨?_, ?_⟩, hnum⟩
      · rw [hadded]; exact mem_append_left _ hm.1
      · rw [hdeleted]; exact hm.2
    | none =>
      rw [hw] at hm'
      have hmem := mem_of_find?_eq_some hm'
      have hnum : m'.fileNumber = n := by simpa using List.find?_some hm'
      refine ⟨m'.persisted, ⟨?_, fun hdel => ?_⟩, hnum⟩
      · rw [hadded]; exact mem_append_right _ (mem_map_of_mem hmem)
      · rw [hdeleted] at hdel
        obtain ⟨p, hp, hpn⟩ := mem_map.1 hdel
        exact h.not_added (hadd.fresh m' hmem) (hfiles m' hmem).2 (hpn ▸ h.ok.deleted_added p hp)

end

/-- A step that may write one record, after a calm change. What the record deletes must not be visible in any
log a crash can leave. -/
theorem DurInv.logged {w₁ : World} (h : DurInv o d)
    (hrun : ∀ st, d.gc.job.phase ≠ .finished st) (hinv : Inv o s') (hc : Calm d.world w₁) (hdb : s'.world.db = w₁.db)
    (hrec : s'.world.fileSet.manifest = w₁.fileSet.manifest ∨
      s'.world.fileSet.manifest = w₁.fileSet.manifest ++ [BlobFileSet.logRecord e w₁.fileSet] ∧
        Ok (w₁.fileSet.manifest ++ [BlobFileSet.logRecord e w₁.fileSet]))
    (hsync : w₁.fileSet.manifest.length ≤ s'.world.fileSet.manifestSynced)
    (hdel : ∀ n, d.world.db.synced ≤ n → n ≤ d.world.db.log.length → ∀ k i,
      (d.world.db.asOf n).get k = some (.blobIndex i) → i.fileNumber ∉ e.deletedFiles.map Prod.fst)
    (hread : ∀ b i r, i.fileNumber ∈ (added w₁.fileSet.manifest).map BlobFileMeta.fileNumber →
      w₁.readFile o b i = some r → s'.world.readFile o b i = some r)
    (hafter : (∀ st, s'.job.phase ≠ .finished st) → ManifestInv s'.world) : DurInv o ⟨s', d.history⟩ := by
  have hm := (h.running hrun).calm hc
  have hsub : w₁.fileSet.manifest.take w₁.fileSet.manifestSynced ⊆
      s'.world.fileSet.manifest.take s'.world.fileSet.manifestSynced := by
    intro e' he'
    rw [hm.synced, take_length] at he'
    rcases hrec with hrec | ⟨hrec, -⟩
    · rw [hrec, take_of_length_le hsync]; exact he'
    · rw [hrec, take_append, take_of_length_le hsync]
      exact mem_append_left _ he'
  have hdeleted : ∀ n, n ∉ (deleted w₁.fileSet.manifest).map fst → n ∉ e.deletedFiles.map fst →
      n ∉ (deleted s'.world.fileSet.manifest).map fst := by
    intro n hn hn'
    rcases hrec with hrec | ⟨hrec, -⟩
    · rw [hrec]; exact hn
    · rw [hrec, deleted_snoc, map_append, mem_append, not_or]
      exact ⟨hn, by simpa [BlobFileSet.logRecord, VersionEdit.persisted] using hn'⟩
  have hdb' : s'.world.db = d.world.db := hdb.trans hc.db
  refine ⟨hinv, h.mode, ?_, ?_, fun n hn hn' k => ?_, ?_, hafter⟩
  · rw [world, hdb']; exact h.length
  · rw [world, hdb']; exact h.synced
  · rw [hdb'] at hn hn' ⊢
    exact ((h.entries n hn hn' k).calm hc).mono (added_subset hsub)
      (fun i hi hnot => hdeleted _ hnot (hdel n hn hn' k i hi)) hread
  · intro j hj hj'
    exact hm.prefixes hrec j (hsync.trans hj) hj'

theorem outputs_on_disk {bds : List BlobFileBuilder} (hw : FgWf w) (ho : OutputsWf w bds) :
    ∀ f ∈ bds.map (outputMeta o w), f.fileNumber < w.nextFileNumber ∧ (w.disk f.fileNumber).isSome := by
  intro f hf
  obtain ⟨bd, hbd, rfl⟩ := mem_map.1 hf
  exact ⟨FgWf.lt_of_disk hw (ho.own bd hbd).1, (ho.own bd hbd).1⟩

theorem DurInv.install (h : DurInv o d) (hp : d.gc.job.phase = .install)
    (hrel : Relocates o d.gc (.gc env)) (hs : d.gc.step o env = some s') : DurInv o ⟨s', d.history⟩ := by
  have hrun : ∀ st, d.gc.job.phase ≠ .finished st := by simp [hp]
  obtain ⟨hinv, -⟩ := h.inv.step hrel hs
  obtain ⟨hc, hcur, -⟩ : PhaseOk o d.gc .install := hp ▸ h.inv.phase
  have ho : OutputsWf d.world d.gc.job.builders := by
    simpa [GcJob.openBuilders, hcur] using hc.outputs
  have hi : Installed o env d.gc _ := installOutputBlobFiles_spec h.inv.fgWf ho
  rw [step_install hp] at hs
  generalize d.gc.installOutputBlobFiles o env = p at hi hs
  cases hi with
  | ok w fs hfail hw hq hfg hlog hadd =>
    cases hs
    have hfiles := outputs_on_disk (o := o) hw (ho.quiet h.inv.fgWf hq)
    have hm := (h.running hrun).calm (Quiet.calm hq)
    have hok := hm.ok_snoc hlog.accepted (.inr rfl) fun f hf => (hfiles f hf).2
    refine h.logged hrun hinv (Quiet.calm hq) rfl (.inr ⟨hlog.manifest, hok⟩) ?_
      (fun _ _ _ _ _ _ => by simp [ofAdded]) (fun _ _ _ _ hr => hr) fun _ => hm.register hlog hadd hfiles
    show _ ≤ fs.manifestSynced
    rw [hlog.synced, hlog.manifest]; simp
  | batchFailed w fs st hfail hw hq hfg hun hst =>
    rw [if_neg hst] at hs
    cases hs
    have hfiles := outputs_on_disk (o := o) hw (ho.quiet h.inv.fgWf hq)
    have hm := (h.running hrun).calm (Quiet.calm hq)
    have hr := released_finish ⟨{ w with fileSet := fs }, d.gc.job⟩ st
    refine h.logged hrun hinv (Quiet.calm hq) hr.db (hun.manifest.imp (hr.manifest.trans ·) fun hacc =>
      ⟨hr.manifest.trans hacc.2, hm.ok_snoc hacc.1 (.inr rfl) fun f hf => (hfiles f hf).2⟩) ?_
      (fun _ _ _ _ _ _ => by simp [ofAdded])
      (fun _ _ _ _ hread => readFile_of_grows (.of_disk_eq hr.disk) hread) fun hne => absurd rfl (hne st)
    exact (hm.synced.symm.trans hun.synced.symm).le
  | outputFailed w disk st hfail hw hq hfg hdisk hgone hst =>
    have hne : st ≠ .ok := fun hok => by simp only [Relocates, hp] at hrel; exact hrel hfail (hst.1 hok)
    rw [if_neg hne] at hs
    cases hs
    have how := ho.quiet h.inv.fgWf hq
    have hm := (h.running hrun).calm (Quiet.calm hq)
    have hr := released_finish ⟨{ w with disk }, d.gc.job⟩ st
    refine h.logged (e := .ofAdded []) hrun hinv (Quiet.calm hq) hr.db (.inl hr.manifest) ?_
      (fun _ _ _ _ _ _ => by simp [ofAdded]) (fun b i r hmem hread => ?_) fun hne => absurd rfl (hne st)
    · rw [hr.synced]; exact hm.synced.ge
    · -- the files deleted are in no manifest
      have hnot : i.fileNumber ∉ d.gc.job.builders.map BlobFileBuilder.number := fun hmem' => by
        obtain ⟨bd, hbd, hnum⟩ := mem_map.1 hmem'
        exact hm.not_added (how.own bd hbd).2.1 (how.own bd hbd).1 (hnum ▸ hmem)
      have hsame : w.disk i.fileNumber = (finish ⟨{ w with disk }, d.gc.job⟩ st).world.disk i.fileNumber := by
        rw [hr.disk]; exact (hdisk _ hnot).symm
      simpa only [readFile, hsame] using hread

theorem Retired.asOf {s : GcState} {k : Slice} {i : BlobIndex} (h : Retired s)
    (hn : s.world.db.synced ≤ n) (hk : (s.world.db.asOf n).get k = some (.blobIndex i)) : i.fileNumber ∉ s.job.inputs := by
  obtain ⟨hsynced, hafter⟩ := h
  have hsplit : (s.world.db.asOf n).log =
      (s.world.db.log.take (s.world.db.log.length - s.world.db.synced)).drop (s.world.db.log.length - n) ++
        (s.world.db.asOf s.world.db.synced).log := by
    simp only [BaseDb.asOf]
    conv_lhs => rw [← take_append_drop (s.world.db.log.length - s.world.db.synced) s.world.db.log]
    rw [drop_append_of_le_length]
    · simp
    · simp only [length_append, length_take, length_drop]
      omega
  rw [BaseDb.get, hsplit, lookup_append] at hk
  intro hin
  cases hl : ((s.world.db.log.take (s.world.db.log.length - s.world.db.synced)).drop
      (s.world.db.log.length - n)).lookup k with
  | some e =>
    rw [hl] at hk
    obtain ⟨l₁, l₂, hl', -⟩ := lookup_eq_some_iff.1 hl
    refine hafter (k, e) (drop_subset _ _ (hl' ▸ mem_append_right l₁ (mem_cons_self ..))) _ hin ?_
    have he : e.1 = some (.blobIndex i) := hk
    simp [he, namedFile]
  | none =>
    rw [hl, none_or] at hk
    obtain ⟨e, he, hi⟩ := bind_eq_some_iff.1 hk
    obtain ⟨l₁, l₂, hl', -⟩ := lookup_eq_some_iff.1 he
    refine hsynced (k, e) (hl' ▸ mem_append_right l₁ (mem_cons_self ..)) _ hin ?_
    rw [BaseDb.get, he]
    simp [hi, namedFile]

theorem DurInv.deleteInputs (h : DurInv o d) (hp : d.gc.job.phase = .deleteInputs)
    (hret : Retired d.gc) (hrel : Relocates o d.gc (.gc env)) (hs : d.gc.step o env = some s') :
    DurInv o ⟨s', d.history⟩ := by
  have hrun : ∀ st, d.gc.job.phase ≠ .finished st := by simp [hp]
  obtain ⟨hinv, -⟩ := h.inv.step hrel hs
  have hm := h.running hrun
  simp only [GcState.step, hp] at hs
  split at hs
  next => cases hs; exact h.calm hinv (released_finish ..).calm hrun
  next =>
    cases hs
    simp only [deleteInputBlobFiles, World.logAndApply] at hinv ⊢
    have hcases := BlobFileSet.logAndApply_ofDeleted o.sepBeforeFlush env.manifest d.world.fileSet
      (d.gc.job.inputs.map fun n => (n, d.world.db.latestSequence))
    generalize BlobFileSet.logAndApply .. = p at hcases hinv
    obtain ⟨fs, st⟩ := p
    have hr := released_finish ⟨{ d.world with fileSet := fs }, d.gc.job⟩ st
    have hdel : ∀ n, d.world.db.synced ≤ n → n ≤ d.world.db.log.length → ∀ k i,
        (d.world.db.asOf n).get k = some (.blobIndex i) → i.fileNumber ∉ (ofDeleted
          (d.gc.job.inputs.map fun n => (n, d.world.db.latestSequence))).deletedFiles.map fst := by
      intro n hn _ k i hk
      simpa [ofDeleted, Function.comp_def] using hret.asOf hn hk
    have hread : ∀ b i r, i.fileNumber ∈ (added d.world.fileSet.manifest).map fileNumber →
        d.world.readFile o b i = some r →
        (finish ⟨{ d.world with fileSet := fs }, d.gc.job⟩ st).world.readFile o b i = some r :=
      fun b i r _ hread => readFile_of_grows (.of_disk_eq hr.disk) hread
    rcases hcases with ⟨-, hun⟩ | ⟨-, hlog, -⟩
    · refine h.logged hrun hinv (.refl _) hr.db (hun.manifest.imp (hr.manifest.trans ·) fun hacc =>
        ⟨hr.manifest.trans hacc.2, hm.ok_snoc hacc.1 (.inl rfl) (by simp [ofDeleted])⟩) ?_ hdel hread fun hne => absurd rfl (hne st)
      rw [hr.synced]
      exact (hm.synced.symm.trans hun.synced.symm).le
    · refine h.logged hrun hinv (.refl _) hr.db (.inr ⟨hr.manifest.trans hlog.manifest,
        hm.ok_snoc hlog.accepted (.inl rfl) (by simp [ofDeleted])⟩) ?_ hdel hread fun hne => absurd rfl (hne st)
      rw [hr.synced]
      rw [hlog.synced, hlog.manifest]; simp

/-- An index into a registered file leads to the same record after every crash. -/
theorem ManifestInv.stands {i : BlobIndex} {r : BlobRecord} (h : ManifestInv w) (hres : w.resolve o i = some r)
    (hreg : (w.storage.findFile i.fileNumber).isSome) : Stands o w (some (.blobIndex i)) (.value r.value) := by
  obtain ⟨f, hf, hobs, hread⟩ := (resolve_eq_some.1 hres).resolve_right fun hn => by
    rw [hn.1] at hreg; cases hreg
  obtain ⟨m, halive, hnum⟩ := h.live _ f hf hobs
  obtain ⟨f', hf', htype⟩ := h.alive m halive
  obtain rfl : f = f' := by rw [hnum, hf] at hf'; exact Option.some.inj hf'
  refine ⟨m, r, ?_, hnum, hnum ▸ halive.2, ?_, rfl⟩
  · rw [h.synced, take_length]; exact halive.1
  · have hmode : readsOnlyValue o f = readsOnlyValue o m := by simp only [readsOnlyValue, htype]
    exact hmode ▸ hread

/-- The index a batch brings into the LSM tree stands for what the key had: it names an output whose record is
synced, and leads to the copy of the record the old index led to. -/
theorem DurInv.stands_batch {b : RewriteBatch} {bs : List RewriteBatch} (h : DurInv o d)
    (hp : d.gc.job.phase = .rewrite (b :: bs)) (hw : d.gc.gcWrite env = some b) (hcall : CallbackOk o d.gc (.gc env)) :
    Stands o d.world (some (.blobIndex b.newIndex)) ((d.history.lookup b.key).getD .absent) := by
  have hm := h.running (by simp [hp])
  have hrw : Rewriting o d.gc (b :: bs) := by have := h.inv.phase; rwa [hp] at this
  obtain ⟨-, r, -, hold, hnew⟩ := h.inv.gcWrite hw
  obtain ⟨hget, hout⟩ := hcall b hw
  have hlast := h.entries d.history.length (h.length ▸ h.synced) h.length.le b.key
  rw [BaseDb.get, asOf_of_le h.length.ge, ← BaseDb.get, hget, lastDurable, Nat.sub_self, drop_zero] at hlast
  obtain ⟨m, r', hmem, hnum, hnot, hread, hv⟩ := hlast
  rw [hm.synced, take_length] at hmem
  obtain ⟨m', hfind, htype⟩ := hm.alive m ⟨hmem, hnum ▸ hnot⟩
  -- both indexes are read in the mode of their file's type
  obtain ⟨m'', hfind', -, hread'⟩ := (resolve_eq_some.1 hold).resolve_right fun hn => by
    rw [← hnum, hfind] at hn; cases hn.1
  obtain rfl : m' = m'' := by rw [← hnum, hfind] at hfind'; exact Option.some.inj hfind'
  have hrr : r' = r := by
    have hmode : readsOnlyValue o m' = readsOnlyValue o m := by simp only [readsOnlyValue, htype]
    rw [hmode, hread] at hread'
    exact Option.some.inj hread'
  rw [hv, hrr]
  exact hm.stands (hnew hout) (hrw.registered b (mem_cons_self ..))

theorem DurInv.gcStep (h : DurInv o d) (hsafe : SafeStep o d (.run (.gc env)))
    (hs : d.gc.step o env = some s') : DurInv o ⟨s', d.record (.gc env)⟩ := by
  obtain ⟨hrel, hcall, hret⟩ := hsafe
  obtain ⟨hinv, hstep⟩ := h.inv.step hrel hs
  cases hp : d.gc.job.phase with
  | start =>
    simp only [Stepped, gcWrite, hp] at hstep
    simpa only [record, gcWrite, hp] using h.calm hinv hstep (by simp [hp])
  | run todo =>
    simp only [Stepped, gcWrite, hp] at hstep
    simpa only [record, gcWrite, hp] using h.calm hinv hstep (by simp [hp])
  | relocate r wb todo =>
    obtain ⟨hmode, -⟩ : PhaseOk o d.gc (.relocate r wb todo) := hp ▸ h.inv.phase
    rw [h.mode] at hmode; cases hmode
  | install => simpa only [record, gcWrite, hp] using h.install hp hrel hs
  | rewrite bs =>
    cases hw : d.gc.gcWrite env with
    | none =>
      simp only [Stepped, hw, hp] at hstep
      simpa only [record, hw] using h.calm hinv hstep (by simp [hp])
    | some b =>
      obtain ⟨bs', rfl⟩ : ∃ bs', bs = b :: bs' := by
        cases bs with
        | nil => simp [gcWrite, hp] at hw
        | cons b' bs' =>
          simp only [gcWrite, hp, ite_none_left_eq_some, some.injEq] at hw
          exact ⟨bs', by rw [hw.2]⟩
      simpa only [record, hw] using
        h.write hinv (hstep.written hw) (h.stands_batch hp hw hcall) fun _ => by simp [hp]
  | deleteInputs => simpa only [record, gcWrite, hp] using h.deleteInputs hp (hret hp) hrel hs
  | finished st => simp [GcState.step, hp] at hs

theorem DurInv.step {e : CrashEvent} {d' : Durability} (h : DurInv o d) (hsafe : SafeStep o d e)
    (hs : d.step o e = some d') : DurInv o d' := by
  cases e with
  | sync => cases hs; exact h.sync
  | run e =>
    simp only [Durability.step, map_eq_some_iff] at hs
    obtain ⟨s', hs, rfl⟩ := hs
    have hinv := h.inv.react hsafe.1 hs
    cases e with
    | put k v =>
      have hinline : putSeparates o v = false := hsafe.2.2
      simp only [react, put, putEntry_inline hinline, map_some, some.injEq] at hs
      subst hs
      exact h.write hinv rfl rfl id
    | delete k =>
      cases hs
      exact h.write hinv rfl rfl id
    | gc env => exact h.gcStep hsafe hs

/-! ### The start of a job -/

/-- A job about to start in an engine that would survive a crash: manifest and storage agree, and every index
that a crash can leave visible leads through a registered file. -/
structure CrashStart (o : Options) (d : Durability) : Prop where
  job : JobStart o d.gc
  mode : relocatesThroughBuilder o = false
  manifest : ManifestInv d.world
  synced : d.world.db.synced ≤ d.world.db.log.length
  history : d.history = d.world.db.log.map fun p => (p.1, d.world.entryValue o p.2.1)
  durable : ∀ n, d.world.db.synced ≤ n → n ≤ d.world.db.log.length → ∀ k i,
    (d.world.db.asOf n).get k = some (.blobIndex i) →
    (d.world.storage.findFile i.fileNumber).isSome ∧ (d.world.resolve o i).isSome

theorem lookup_map_snd {α β γ : Type} [BEq α] (f : β → γ) (l : List (α × β)) (k : α) :
    (l.map fun p => (p.1, f p.2)).lookup k = (l.lookup k).map f := by
  induction l with
  | nil => rfl
  | cons p l ih =>
    rw [map_cons, lookup_cons, lookup_cons]
    cases k == p.1 <;> simp [ih]

theorem CrashStart.durInv (h : CrashStart o d) : DurInv o d := by
  have hlen : d.history.length = d.world.db.log.length := by rw [h.history, length_map]
  refine ⟨h.job.inv, h.mode, hlen, h.synced, fun n hn hn' k => ?_, ?_, fun _ => h.manifest⟩
  · have hlast : d.lastDurable n k = d.world.entryValue o ((d.world.db.asOf n).get k) := by
      have hmap := lookup_map_snd (fun p : Option LsmEntry × Writer => d.world.entryValue o p.1)
        (d.world.db.log.drop (d.world.db.log.length - n)) k
      rw [lastDurable, hlen, h.history, ← map_drop, hmap]
      simp only [BaseDb.get, BaseDb.asOf]
      cases (d.world.db.log.drop (d.world.db.log.length - n)).lookup k <;> rfl
    rw [hlast]
    cases hget : (d.world.db.asOf n).get k with
    | none => rfl
    | some e =>
      cases e with
      | value x => rfl
      | blobIndex i =>
        obtain ⟨hreg, hres⟩ := h.durable n hn hn' k i hget
        obtain ⟨r, hr⟩ := isSome_iff_exists.1 hres
        simp only [entryValue, hr]
        exact h.manifest.stands hr hreg
  · intro j hj hj'
    rw [h.manifest.synced] at hj
    rw [take_of_length_le hj]
    exact ⟨h.manifest.ne, h.manifest.ok⟩

/-- The job over file 1, with the history of the writes that are already there. -/
def single (o : Options) (rs : List BlobRecord) : Durability :=
  let gc := GcState.single o rs
  ⟨gc, gc.world.db.log.map fun p => (p.1, gc.world.entryValue o p.2.1)⟩

theorem manifestInv_single (o : Options) (rs : List BlobRecord) : ManifestInv (single o rs).world where
  synced := rfl
  ne := nofun
  ok := by
    refine ⟨?_, ?_, ?_, ?_, ?_⟩ <;> simp [single, GcState.single, added, deleted]
  next := by simp [single, GcState.single]
  logged := by simp [single, GcState.single, added, BlobStorage.findFile]
  alive m hm := by
    obtain rfl : m = ⟨1, 0, rs.length, .unSorted, 0, [], [], .init, 0⟩ := by
      simpa [single, GcState.single, added] using hm.1
    exact ⟨_, rfl, rfl⟩
  live n m' hm' _ := by
    refine ⟨⟨1, 0, rs.length, .unSorted, 0, [], [], .init, 0⟩, ⟨by simp [single, GcState.single, added],
      by simp [single, GcState.single, deleted]⟩, ?_⟩
    have hmem := mem_of_find?_eq_some hm'
    have hnum := BlobStorage.fileNumber_of_findFile hm'
    obtain rfl : m' = _ := mem_singleton.1 hmem
    exact hnum

theorem crashStart_single {rs : List BlobRecord} (hmode : relocatesThroughBuilder o = false)
    (hrs : ∀ r ∈ rs, Encodable o false r) : CrashStart o (single o rs) where
  job := jobStart_single hrs
  mode := hmode
  manifest := manifestInv_single o rs
  synced := Nat.zero_le _
  history := rfl
  durable n _ _ k i hk := by
    have hstart := jobStart_single hrs
    obtain ⟨e, he, hi⟩ := bind_eq_some_iff.1 hk
    obtain ⟨l₁, l₂, hl, -⟩ := lookup_eq_some_iff.1 he
    have hmem : (k, e) ∈ (single o rs).world.db.log :=
      drop_subset _ _ (hl ▸ mem_append_right l₁ (mem_cons_self ..))
    obtain ⟨r, hr, hre⟩ := mem_map.1 hmem
    obtain ⟨rfl, rfl⟩ := Prod.mk.inj hre
    obtain rfl : r.index = i := by simpa using hi
    obtain ⟨hin, hres⟩ := hstart.yields r hr
    exact ⟨hstart.inputs _ hin, isSome_iff_exists.2 ⟨_, hres⟩⟩

/-! ### Every run -/

/-- In every state of every run whose steps are safe, a crash loses nothing but writes that were not synced. -/
theorem crashConsistent_of_safe {d₀ : Durability} {es : List CrashEvent} (h : CrashStart o d₀)
    (hall : AllSteps (Durability.step o) (SafeStep o) d₀ es) (hrun : run (Durability.step o) d₀ es = some d) :
    CrashConsistent o d :=
  (run_inv (fun _ _ _ hI hP hs => hI.step hP hs) h.durInv hall hrun).crashConsistent

/-- The WAL is synced between the last rewrite and the deletion of the input. -/
theorem crashConsistent_synced :
    ∃ d, run (Durability.step (.small false false)) (single (.small false false) [⟨[1], [10]⟩])
        [.run (.gc {}), .run (.gc {}), .run (.gc {}), .run (.gc {}), .run (.gc {}), .sync, .run (.gc {}), .run (.gc {})] =
        some d ∧ d.gc.job.phase = .finished .ok ∧ CrashConsistent (.small false false) d := by
  refine exists_of_map (fun d => d.gc.job.phase) (.finished .ok) (by decide +kernel) fun d hrun hd => ⟨hd, ?_⟩
  exact crashConsistent_of_safe (crashStart_single rfl (by decide)) (by decide +kernel) hrun

/-- The job moves the record and deletes its input, and nothing is synced. A crash that loses the job's write
leaves the key with an index into a file that the recovered manifest has dropped. -/
theorem crash_loses_rewrite :
    CrashStart (.small false false) (single (.small false false) [⟨[1], [10]⟩]) ∧
      (run (Durability.step (.small false false)) (single (.small false false) [⟨[1], [10]⟩])
        [.run (.gc {}), .run (.gc {}), .run (.gc {}), .run (.gc {}), .run (.gc {}), .run (.gc {}), .run (.gc {})]).map
        (fun d => (d.gc.job.phase, d.world.db.synced, d.lastDurable 1 [1])) = some (.finished .ok, 0, .value [10]) ∧
      (run (Durability.step (.small false false)) (single (.small false false) [⟨[1], [10]⟩])
        [.run (.gc {}), .run (.gc {}), .run (.gc {}), .run (.gc {}), .run (.gc {}), .run (.gc {}), .run (.gc {})]).map
        (fun d => (d.world.crash (.small false false) 1 3).toOption.map fun w' =>
          (w'.db.get [1], (w'.storage.findFile 1).isSome, w'.visible (.small false false) [1])) =
        some (some (some (.blobIndex ⟨1, ⟨8, 13⟩⟩), false, .missing)) :=
  ⟨crashStart_single rfl (by decide), by decide +kernel, by decide +kernel⟩

end Durability

end ValueSep.DiffKV
