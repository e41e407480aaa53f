import ValueSep.Lib.Exec
import ValueSep.DiffKV.GcSpec

/-!
# One job and the users it runs against

A run interleaves user Puts and Deletes with the steps of one job. `PhaseOk` is what holds in each phase of
the job: nothing about values, only that every record the LSM tree still takes from an input is ahead of the
job or in one of its batches, and that the copies made so far are where their indexes say. It is kept by every
step that relocates what it should (`Relocates`).
-/

namespace ValueSep.DiffKV

open World Coding
open List Option GcState FgHealthy GcJob Prod FgWf

inductive GcEvent
  | put (key value : Slice)
  | delete (key : Slice)
  | gc (env : GcEnv)

namespace GcState

/-- One step of the whole: a user operation that commits, or a step of the job. -/
def react (o : Options) (s : GcState) : GcEvent → Option GcState
  | .put key value => (s.world.put o {} key value).map fun world => { s with world }
  | .delete key => some { s with world := s.world.delete key }
  | .gc env => s.step o env

/-- A job handed to `Run`: its inputs are registered, what the traversal will yield is what the files hold and,
unless the traversal ends with an error, every entry of the LSM tree that names an input is among it. -/
structure JobStart (o : Options) (s : GcState) : Prop where
  fgWf : FgWf s.world
  fgHealthy : FgHealthy s.world
  job : s.job = .create s.job.inputs s.job.records s.job.iterStatus
  inputs : ∀ n ∈ s.job.inputs, (s.world.storage.findFile n).isSome
  yields : ∀ r ∈ s.job.records, r.index.fileNumber ∈ s.job.inputs ∧ s.world.resolve o r.index = some r.record
  covers : s.job.iterStatus = .ok → ∀ k i, s.world.db.get k = some (.blobIndex i) → i.fileNumber ∈ s.job.inputs →
    ∃ r ∈ s.job.records, r.record.key = k ∧ r.index = i

/-- The records of a file with their indexes, the first at `offset`. -/
def recordsFrom (o : Options) (n : Nat) : Nat → List BlobRecord → List GcRecord
  | _, [] => []
  | offset, r :: rs =>
    ⟨r, ⟨n, ⟨offset, (encodeRecord o false r).length⟩⟩⟩ :: recordsFrom o n (offset + (encodeRecord o false r).length) rs

/-- File 1 holds these records, and the LSM tree an index for each of them; nothing else is there. -/
def single (o : Options) (rs : List BlobRecord) : GcState where
  world :=
    { db := ⟨(recordsFrom o 1 kBlobHeaderSize rs).map fun r => (r.record.key, some (.blobIndex r.index), .user), 0⟩
      fileSet := ⟨⟨[⟨1, 0, rs.length, .unSorted, 0, [], [], .beingGC, 0⟩], [], []⟩,
        [⟨some 2, [⟨1, 0, rs.length, .unSorted, 0, [], [], .init, 0⟩], [], []⟩], 1, 2⟩
      disk := Function.update (fun _ => none) 1 (some ⟨encodeFileHeader ++ rs.flatMap (encodeRecord o false), [], 0, 0⟩)
      fg := fun _ => ⟨none, []⟩ }
  job := .create [1] (recordsFrom o 1 kBlobHeaderSize rs) .ok

theorem split_of_mem_recordsFrom {o : Options} {n : Nat} {rs : List BlobRecord} (pre : Bytes) :
    ∀ r ∈ recordsFrom o n pre.length rs, r.record ∈ rs ∧ ∃ pre' post,
      pre ++ rs.flatMap (encodeRecord o false) = pre' ++ encodeRecord o false r.record ++ post ∧
      r.index = ⟨n, ⟨pre'.length, (encodeRecord o false r.record).length⟩⟩ := by
  induction rs generalizing pre with
  | nil => nofun
  | cons r rs ih =>
    intro r' hr'
    rw [flatMap_cons, ← append_assoc]
    rcases mem_cons.1 hr' with rfl | hr'
    · exact ⟨mem_cons_self .., pre, _, rfl, rfl⟩
    · rw [← length_append] at hr'
      obtain ⟨hmem, hsplit⟩ := ih _ r' hr'
      exact ⟨mem_cons_of_mem _ hmem, hsplit⟩

theorem readRecord_recordsFrom {o : Options} {n : Nat} {rs : List BlobRecord} (hrs : ∀ r ∈ rs, Encodable o false r)
    (pre post : Bytes) :
    ∀ r ∈ recordsFrom o n pre.length rs, r.index.fileNumber = n ∧
      readRecord o.codec false (pre ++ rs.flatMap (encodeRecord o false) ++ post) r.index.blobHandle = .ok r.record := by
  intro r hr
  obtain ⟨hmem, pre', post', heq, hindex⟩ := split_of_mem_recordsFrom pre r hr
  rw [hindex, heq, append_assoc _ _ post]
  exact ⟨rfl, readRecord_encodeRecord (hrs r.record hmem) ..⟩

theorem jobStart_single {o : Options} {rs : List BlobRecord} (hrs : ∀ r ∈ rs, Encodable o false r) :
    JobStart o (single o rs) where
  fgWf :=
    { fresh := fun n hn => by
        have hn' : 2 ≤ n := hn
        have hne : n ≠ 1 := by omega
        simp [single, BlobStorage.findFile, BlobStorage.findBuildingFile, hne, hne.symm]
      owned_some := nofun
      owned_nodup := fun _ => nodup_nil
      owned_disjoint := fun _ _ _ => nofun
      finished := nofun }
  fgHealthy := ⟨nofun, nofun⟩
  job := rfl
  inputs n hn := by rw [mem_singleton.1 hn]; rfl
  yields r hr := by
    obtain ⟨hn, hread⟩ := readRecord_recordsFrom hrs encodeFileHeader [] r hr
    refine ⟨mem_singleton.2 hn, resolve_eq_some.2 (.inl ⟨⟨1, 0, rs.length, .unSorted, 0, [], [], .beingGC, 0⟩, by rw [hn]; rfl, rfl, ?_⟩)⟩
    simp only [readFile, hn, single, Function.update_self, bind_some, WritableFile.content, readsOnlyValue,
      reduceCtorEq, decide_false, Bool.and_false, hread]
    rfl
  covers _ k i hk _ := by
    simp only [single, BaseDb.get, bind_eq_some_iff] at hk
    obtain ⟨e, he, hi⟩ := hk
    obtain ⟨l₁, l₂, hl, -⟩ := lookup_eq_some_iff.1 he
    obtain ⟨r, hr, hre⟩ := mem_map.1 (hl ▸ mem_append_right l₁ (mem_cons_self ..))
    obtain ⟨rfl, rfl⟩ := Prod.mk.inj hre
    exact ⟨r, hr, rfl, by simpa using hi⟩

/-- The records the LSM tree takes from an input are to be visited or have a batch. -/
def Pending (w : World) (inputs : List Nat) (todo : List GcRecord) (batches : List RewriteBatch) : Prop :=
  ∀ k i, w.db.get k = some (.blobIndex i) → i.fileNumber ∈ inputs →
    (∃ r ∈ todo, r.record.key = k ∧ r.index = i) ∨ ∃ b ∈ batches, b.key = k ∧ b.oldIndex = i

/-- The loop of `DoRunGC` with these records ahead of it. -/
structure Collecting (o : Options) (s : GcState) (todo : List GcRecord) : Prop where
  outputs : OutputsWf s.world s.job.openBuilders
  ahead : ∀ r ∈ todo, r.index.fileNumber ∈ s.job.inputs ∧ s.world.resolve o r.index = some r.record
  batches : ∀ b ∈ s.job.rewriteBatches, ∃ r, r.key = b.key ∧ s.world.resolve o b.oldIndex = some r ∧
    BatchStored o s.world s.job.openBuilders b r
  opened : s.job.openBuilders ≠ [] → s.job.rewriteBatches ≠ []
  separate : relocatesThroughBuilder o = true → s.job.rewriteBatches = []
  status : s.job.status = .ok ∨ todo = []
  pending : s.job.iterStatus = .ok → s.job.status = .ok → Pending s.world s.job.inputs todo s.job.rewriteBatches

/-- Whether GC outputs are read back in the mode they are written in. -/
def outputsReadable (o : Options) : Bool := !(o.levelMerge && !o.sepBeforeFlush)

/-- The batches still to be written lead from an old copy of a record to the new one. -/
structure Rewriting (o : Options) (s : GcState) (bs : List RewriteBatch) : Prop where
  batches : ∀ b ∈ bs, b.newIndex.fileNumber ∉ s.job.inputs ∧ ∃ r, r.key = b.key ∧
    s.world.resolve o b.oldIndex = some r ∧ (outputsReadable o → s.world.resolve o b.newIndex = some r)
  registered : ∀ b ∈ bs, (s.world.storage.findFile b.newIndex.fileNumber).isSome
  pending : Pending s.world s.job.inputs [] bs

def PhaseOk (o : Options) (s : GcState) : GcPhase → Prop
  | .start => Collecting o s s.job.records ∧ s.job.openBuilders = [] ∧ s.job.status = .ok
  | .run todo => Collecting o s todo
  | .relocate r wb todo => relocatesThroughBuilder o = true ∧ Collecting o s (r :: todo) ∧ s.job.status = .ok ∧
      ∃ i, wb = some i ∧ s.world.resolve o i = some r.record ∧ i.fileNumber ∉ s.job.inputs
  | .install => Collecting o s [] ∧ s.job.current = none ∧ Pending s.world s.job.inputs [] s.job.rewriteBatches
  | .rewrite bs => Rewriting o s bs
  | .deleteInputs => Rewriting o s []
  | .finished _ => True

structure Inv (o : Options) (s : GcState) : Prop where
  fgWf : FgWf s.world
  fgHealthy : FgHealthy s.world
  inputs : ∀ n ∈ s.job.inputs, (s.world.storage.findFile n).isSome
  phase : PhaseOk o s s.job.phase

variable {o : Options} {env : GcEnv} {s s' : GcState}

theorem JobStart.inv (h : JobStart o s) : Inv o s := by
  have hj := h.job
  refine ⟨h.fgWf, h.fgHealthy, h.inputs, ?_⟩
  have hphase : s.job.phase = .start := by rw [hj]; rfl
  have hopen : s.job.openBuilders = [] := by rw [hj]; rfl
  have hbatch : s.job.rewriteBatches = [] := by rw [hj]; rfl
  rw [hphase]
  refine ⟨⟨?_, h.yields, by simp [hbatch], fun h => absurd hopen h, fun _ => hbatch, .inl (by rw [hj]; rfl), fun hit _ k i hk hi => ?_⟩, hopen,
    by rw [hj]; rfl⟩
  · rw [hopen]; exact ⟨nodup_nil, by simp⟩
  · exact .inl (h.covers hit k i hk hi)

/-! ### Steps that leave the job alone -/

/-- The engine changes under the job, and no new entry of the LSM tree names an input. -/
structure Undisturbed (o : Options) (inputs : List Nat) (w w' : World) : Prop where
  keeps : Keeps o w w'
  grows : Grows w w'
  outputs : ∀ bds, OutputsWf w bds → OutputsWf w' bds
  find : ∀ n, w'.storage.findFile n = w.storage.findFile n
  noInput : ∀ k i, w'.db.get k = some (.blobIndex i) → i.fileNumber ∈ inputs → w.db.get k = some (.blobIndex i)

theorem Pending.undisturbed {w w' : World} {inputs : List Nat} {todo : List GcRecord} {bs : List RewriteBatch}
    (h : Pending w inputs todo bs) (hu : Undisturbed o inputs w w') : Pending w' inputs todo bs :=
  fun k i hk hi => h k i (hu.noInput k i hk hi) hi

theorem Collecting.undisturbed {todo : List GcRecord} {w' : World} (h : Collecting o s todo)
    (hu : Undisturbed o s.job.inputs s.world w') : Collecting o { s with world := w' } todo where
  outputs := hu.outputs _ h.outputs
  ahead r hr := ⟨(h.ahead r hr).1, hu.keeps _ _ (h.ahead r hr).2⟩
  batches b hb := by
    obtain ⟨r, hkey, hold, hnew⟩ := h.batches b hb
    exact ⟨r, hkey, hu.keeps _ _ hold, hnew.mono hu.grows (.of_subset (List.Subset.refl _))⟩
  opened := h.opened
  separate := h.separate
  status := h.status
  pending hi hs := (h.pending hi hs).undisturbed hu

theorem Rewriting.undisturbed {bs : List RewriteBatch} {w' : World} (h : Rewriting o s bs)
    (hu : Undisturbed o s.job.inputs s.world w') : Rewriting o { s with world := w' } bs where
  batches b hb := by
    obtain ⟨hnot, r, hkey, hold, hnew⟩ := h.batches b hb
    exact ⟨hnot, r, hkey, hu.keeps _ _ hold, fun ho => hu.keeps _ _ (hnew ho)⟩
  registered b hb := by rw [hu.find]; exact h.registered b hb
  pending := h.pending.undisturbed hu

theorem PhaseOk.undisturbed {p : GcPhase} {w' : World} (h : PhaseOk o s p)
    (hu : Undisturbed o s.job.inputs s.world w') : PhaseOk o { s with world := w' } p := by
  cases p with
  | start => exact ⟨h.1.undisturbed hu, h.2⟩
  | run todo => exact Collecting.undisturbed h hu
  | relocate r wb todo =>
    obtain ⟨hmode, hc, hst, i, hwb, hi, hnot⟩ := h
    exact ⟨hmode, hc.undisturbed hu, hst, i, hwb, hu.keeps _ _ hi, hnot⟩
  | install => exact ⟨h.1.undisturbed hu, h.2.1, h.2.2.undisturbed hu⟩
  | rewrite bs => exact Rewriting.undisturbed h hu
  | deleteInputs => exact Rewriting.undisturbed h hu
  | finished st => trivial

theorem Undisturbed.commit {w w₁ : World} {inputs : List Nat} {k : Slice} {e : Option LsmEntry} {by' : Writer}
    (hw : FgWf w) (hq : Quiet w w₁) (he : ∀ i, e = some (.blobIndex i) → i.fileNumber ∉ inputs) :
    Undisturbed o inputs w { w₁ with db := w₁.db.write k e by' } where
  keeps := hq.keeps
  grows := hq.grows
  outputs _ ho := ⟨(ho.quiet hw hq).nodup, (ho.quiet hw hq).own⟩
  find := hq.find
  noInput k' i hk hi := by
    rw [BaseDb.get_write] at hk
    split at hk
    · exact absurd hi (he i hk)
    · rwa [hq.db] at hk

/-! ### The condition on steps -/

end GcState

/-- The request meets no fault on its way into the file. -/
def AddFaults.Clean (f : AddFaults) : Prop :=
  f.newFile = none ∧ f.header = none ∧ f.addBuildingFile = none ∧ f.append = none

instance (f : AddFaults) : Decidable f.Clean := inferInstanceAs (Decidable (_ ∧ _ ∧ _ ∧ _))

namespace GcState

variable {o : Options} {env : GcEnv} {s s' : GcState}

/-- The step gives no record up: a Put is not taken for a flush marker, no record is too large for the format, a live
record handed to the foreground builder gets into its file and into the base DB (the last write's failure is reported),
and a failed output stops the job. -/
def Relocates (o : Options) (s : GcState) : GcEvent → Prop
  | .put key value => key ≠ [] ∧ Encodable o false ⟨key, value⟩ ∨ putSeparates o value = false
  | .delete _ => True
  | .gc env =>
    match s.job.phase with
    | .run (r :: _) => s.discardEntry env r = .ok false → Encodable o false r.record ∧ (relocatesThroughBuilder o = true →
        r.record.key ≠ [] ∧ separates o r.record.value = true ∧ env.add.Clean)
    | .relocate _ _ todo => env.dbWrite = none ∨ todo = []
    | .install => OutputFails env s → ¬ CleanupOk env s
    | _ => True

instance (o : Options) (s : GcState) : (e : GcEvent) → Decidable (Relocates o s e)
  | .put _ _ => inferInstanceAs (Decidable (_ ∧ _ ∨ _))
  | .delete _ => .isTrue trivial
  | .gc env => by
    unfold Relocates
    dsimp only
    split <;> infer_instance

/-! ### One step of the job -/

variable {r : GcRecord} {todo : List GcRecord} {bs : List RewriteBatch}

theorem discardEntry_eq_ok {b : Bool} (h : s.discardEntry env r = .ok b) :
    b = true ↔ s.world.db.get r.record.key ≠ some (.blobIndex r.index) := by
  unfold discardEntry at h
  split at h
  · cases h
  · cases h; simp

theorem inv_finish (hw : FgWf s.world) (hh : FgHealthy s.world)
    (hin : ∀ n ∈ s.job.inputs, (s.world.storage.findFile n).isSome) (st : Status) : Inv o (s.finish st) := by
  have hr := s.released_finish st
  refine ⟨hr.fgWf hw, hr.fgHealthy hh, fun n hn => ?_, trivial⟩
  have hsome := hin n hn
  rw [isSome_iff_ne_none] at hsome ⊢
  exact fun h => hsome ((hr.find_eq_none n).1 h)

theorem Inv.finish (h : Inv o s) (st : Status) : Inv o (s.finish st) ∧ Calm s.world (s.finish st).world :=
  ⟨inv_finish h.fgWf h.fgHealthy h.inputs st, (s.released_finish st).calm⟩

theorem Inv.inputs_of_find (h : Inv o s) (hj : s'.job.inputs = s.job.inputs)
    (hfind : ∀ n, s'.world.storage.findFile n = s.world.storage.findFile n) :
    ∀ n ∈ s'.job.inputs, (s'.world.storage.findFile n).isSome := fun n hn => by
  rw [hfind]; exact h.inputs n (hj ▸ hn)

theorem Collecting.congr (h : Collecting o s todo) (hw : s'.world = s.world)
    (hopen : s'.job.openBuilders = s.job.openBuilders) (hb : s'.job.rewriteBatches = s.job.rewriteBatches)
    (hst : s'.job.status = s.job.status) (hit : s'.job.iterStatus = s.job.iterStatus)
    (hin : s'.job.inputs = s.job.inputs) : Collecting o s' todo := by
  refine ⟨?_, ?_, ?_, ?_, ?_, ?_, ?_⟩
  · rw [hw, hopen]; exact h.outputs
  · rw [hw, hin]; exact h.ahead
  · rw [hw, hopen, hb]; exact h.batches
  · rw [hopen, hb]; exact h.opened
  · rw [hb]; exact h.separate
  · rw [hst]; exact h.status
  · rw [hit, hst, hw, hin, hb]; exact h.pending

theorem Rewriting.congr (h : Rewriting o s bs) (hw : s'.world = s.world)
    (hin : s'.job.inputs = s.job.inputs) : Rewriting o s' bs := by
  refine ⟨?_, ?_, ?_⟩
  · rw [hw, hin]; exact h.batches
  · rw [hw]; exact h.registered
  · rw [hw, hin]; exact h.pending

theorem Collecting.skip {r : GcRecord} {todo : List GcRecord} (h : Collecting o s (r :: todo))
    (hd : s.world.db.get r.record.key ≠ some (.blobIndex r.index)) :
    Collecting o { s with job := { s.job with phase := .run todo, status := .ok } } todo where
  outputs := h.outputs
  ahead r' hr' := h.ahead r' (mem_cons_of_mem _ hr')
  batches := h.batches
  opened := h.opened
  separate := h.separate
  status := .inl rfl
  pending hi _ k i hk hin := by
    refine (h.pending hi (h.status.resolve_right (by simp)) k i hk hin).imp_left ?_
    rintro ⟨r', hr', rfl, rfl⟩
    rcases mem_cons.1 hr' with rfl | hr'
    · exact absurd hk hd
    · exact ⟨r', hr', rfl, rfl⟩

theorem Collecting.buffered {r : GcRecord} {todo : List GcRecord} {b : RewriteBatch} (h : Collecting o s (r :: todo))
    (hsep : relocatesThroughBuilder o = false) (hq : Quiet s.world s'.world)
    (ho : OutputsWf s'.world s'.job.openBuilders) (hle : BuildersLe s.job.openBuilders s'.job.openBuilders)
    (hj : SameJob s.job s'.job) (hb : s'.job.rewriteBatches = s.job.rewriteBatches ++ [b])
    (hkey : b.key = r.record.key) (hold : b.oldIndex = r.index)
    (hnew : BatchStored o s'.world s'.job.openBuilders b r.record) (hst : s'.job.status = .ok) :
    Collecting o s' todo where
  outputs := ho
  ahead r' hr' := by
    obtain ⟨hin, hres⟩ := h.ahead r' (mem_cons_of_mem _ hr')
    exact ⟨hj.inputs ▸ hin, hq.keeps _ _ hres⟩
  batches b' hb' := by
    rw [hb, mem_append, mem_singleton] at hb'
    rcases hb' with hb' | rfl
    · obtain ⟨rec, hk, ho, hn⟩ := h.batches b' hb'
      exact ⟨rec, hk, hq.keeps _ _ ho, hn.mono hq.grows hle⟩
    · exact ⟨r.record, hkey.symm, hold ▸ hq.keeps _ _ (h.ahead r (mem_cons_self ..)).2, hnew⟩
  opened _ := by rw [hb]; simp
  separate h := absurd h (by simp [hsep])
  status := .inl hst
  pending hi _ k i hk hin := by
    rw [hj.inputs] at hin
    rw [hq.db] at hk
    rw [hb]
    rcases h.pending (hj.iterStatus ▸ hi) (h.status.resolve_right (by simp)) k i hk hin with
      ⟨r', hr', hk', hi'⟩ | ⟨b', hb', h'⟩
    · rcases mem_cons.1 hr' with rfl | hr'
      · exact .inr ⟨b, by simp, hkey.trans hk', hold.trans hi'⟩
      · exact .inl ⟨r', hr', hk', hi'⟩
    · exact .inr ⟨b', mem_append_left _ hb', h'⟩

theorem Inv.runRecord (h : Inv o s) (hp : s.job.phase = .run (r :: todo))
    (hrel : Relocates o s (.gc env)) (hs : s.runRecord o env r todo = some s') : Inv o s' ∧ Calm s.world s'.world := by
  have hc : Collecting o s (r :: todo) := by have := h.phase; rwa [hp] at this
  unfold GcState.runRecord at hs
  split at hs
  · cases hs; exact h.finish _
  split at hs
  next => cases hs; exact h.finish _
  next hd =>
    cases hs
    exact ⟨⟨h.fgWf, h.fgHealthy, h.inputs, hc.skip ((discardEntry_eq_ok hd).1 rfl)⟩, .refl ..⟩
  next hd =>
    simp only [Relocates, hp] at hrel
    obtain ⟨henc, hrel⟩ := hrel hd
    split at hs
    next hsep =>
      obtain ⟨hkey, hvalue, hnew, hhead, hbuild, happ⟩ := hrel hsep
      simp only [foregroundAdd, hvalue, hkey, Bool.true_eq_false, if_false, map_eq_some_iff,
        Prod.exists] at hs
      obtain ⟨w, st, wb, hadd, rfl⟩ := hs
      obtain ⟨hw, hq, hst, hok⟩ := appendRecord_spec h.fgWf hadd
      obtain rfl := hst hnew
      obtain ⟨hh, i, rfl, hread, hown⟩ := hok rfl h.fgHealthy hhead hbuild happ
      have hsep' : o.sepBeforeFlush = true := (Bool.and_eq_true _ _ ▸ hsep).1
      refine ⟨⟨hw, hh, h.inputs_of_find rfl hq.find, ?_⟩, Quiet.calm hq⟩
      refine ⟨hsep, ?_, rfl, i, rfl, resolve_owned hw hh hsep' hown (hread henc), fun hin => ?_⟩
      · have hu : Undisturbed o s.job.inputs s.world w :=
          ⟨hq.keeps, hq.grows, fun _ ho => ho.quiet h.fgWf hq, hq.find, fun k i hk _ => by rwa [hq.db] at hk⟩
        exact (hc.undisturbed hu).congr rfl rfl rfl (hc.status.resolve_right (by simp)).symm rfl rfl
      · have := h.inputs _ hin
        rw [← hq.find, (hw.owned_some _ _ hown).2] at this
        cases this
    next hsep =>
      have hc' : Collecting o { s with job := { s.job with live := r :: s.job.live } } (r :: todo) :=
        hc.congr rfl rfl rfl rfl rfl rfl
      simp only [bind_eq_some_iff, Prod.exists] at hs
      obtain ⟨s₁, st, hroll, hs⟩ := hs
      obtain ⟨hw₁, hq₁, ho₁, hle₁, hj₁, hb₁, hfg₁⟩ :=
        rollOver_spec (s := { s with job := { s.job with live := r :: s.job.live } }) h.fgWf hc'.outputs hroll
      split at hs
      · cases hs
        exact ⟨inv_finish hw₁ (of_quiet h.fgHealthy hq₁ hfg₁) (h.inputs_of_find hj₁.inputs hq₁.find) _,
          (Quiet.calm hq₁).trans (s₁.released_finish st).calm⟩
      · simp only [map_eq_some_iff] at hs
        obtain ⟨s₂, happ, rfl⟩ := hs
        obtain ⟨hw₂, hq₂, ho₂, hle₂, hj₂, hfg₂, b, hb₂, hkey, hold, bd, hbd, hnum, hnew⟩ :=
          appendOutput_spec hw₁ ho₁ happ
        have hq := hq₁.trans hq₂
        refine ⟨⟨hw₂, of_quiet h.fgHealthy hq (hfg₂.trans hfg₁), ?_, ?_⟩, Quiet.calm hq⟩
        · exact h.inputs_of_find (hj₂.inputs.trans hj₁.inputs) hq.find
        · refine hc'.buffered (by simpa using hsep) hq ho₂ (hle₁.trans hle₂)
            (hj₁.trans ⟨hj₂.inputs, hj₂.records, hj₂.iterStatus, hj₂.outputs⟩) ?_ hkey hold
            ⟨bd, hbd, hnum, fun hst => hnew hst henc⟩ rfl
          exact hb₂.trans (by rw [hb₁])

theorem Collecting.relocated {r : GcRecord} {todo : List GcRecord} {i : BlobIndex} (h : Collecting o s (r :: todo))
    (hst : s.job.status = .ok) (hi : i.fileNumber ∉ s.job.inputs) :
    Collecting o ⟨{ s.world with db := s.world.db.write r.record.key (some (.blobIndex i)) .gc },
      { s.job with phase := .run todo, status := .ok }⟩ todo where
  outputs := ⟨h.outputs.nodup, h.outputs.own⟩
  ahead r' hr' := h.ahead r' (mem_cons_of_mem _ hr')
  batches := h.batches
  opened := h.opened
  separate := h.separate
  status := .inl rfl
  pending hit _ k j hk hj := by
    rw [BaseDb.get_write] at hk
    split at hk
    next => cases hk; exact absurd hj hi
    next hne =>
      refine (h.pending hit hst k j hk hj).imp_left ?_
      rintro ⟨r', hr', hk', hi'⟩
      rcases mem_cons.1 hr' with rfl | hr'
      · exact absurd hk'.symm hne
      · exact ⟨r', hr', hk', hi'⟩

theorem Inv.relocate {wb : Option BlobIndex} (h : Inv o s)
    (hp : s.job.phase = .relocate r wb todo) (hrel : Relocates o s (.gc env)) :
    Inv o ⟨(s.world.writeBatch env.dbWrite .gc r.record.key wb).1, { s.job with
      phase := .run todo, status := (s.world.writeBatch env.dbWrite .gc r.record.key wb).2 }⟩ := by
  obtain ⟨-, hc, hst, i, rfl, -, hnot⟩ : PhaseOk o s (.relocate r wb todo) := hp ▸ h.phase
  by_cases hw : env.dbWrite = none
  · simp only [writeBatch, hw, if_true]
    exact ⟨⟨h.fgWf.fresh, h.fgWf.owned_some, h.fgWf.owned_nodup, h.fgWf.owned_disjoint, h.fgWf.finished⟩,
      ⟨h.fgHealthy.status, h.fgHealthy.building⟩, h.inputs, hc.relocated hst hnot⟩
  · have htodo : todo = [] := by
      simp only [Relocates, hp] at hrel; exact hrel.resolve_left hw
    simp only [writeBatch, hw, if_false]
    refine ⟨h.fgWf, h.fgHealthy, h.inputs, ?_⟩
    subst htodo
    exact ⟨hc.outputs, nofun, hc.batches, hc.opened, hc.separate, .inr rfl,
      fun _ hs => absurd (Fault.status_eq_ok.1 hs) hw⟩

theorem Collecting.installed {w : World} {fs : BlobFileSet} (h : Collecting o s []) (hwf : FgWf s.world)
    (hin : ∀ n ∈ s.job.inputs, (s.world.storage.findFile n).isSome) (hcur : s.job.current = none)
    (hpend : Pending s.world s.job.inputs [] s.job.rewriteBatches) (hfail : ¬ OutputFails env s)
    (hq : Quiet s.world w) (hkeep : Keeps o s.world { w with fileSet := fs })
    (hadd : FilesAdded o.sepBeforeFlush (s.job.builders.map (outputMeta o w)) w.storage fs.storage) :
    Rewriting o ⟨{ w with fileSet := fs }, { s.job with
      outputs := s.job.builders.map BlobFileBuilder.number, phase := .rewrite s.job.rewriteBatches }⟩
      s.job.rewriteBatches := by
  have hopen : s.job.openBuilders = s.job.builders := by simp [openBuilders, hcur]
  have ho := h.outputs
  rw [hopen] at ho
  have how := ho.quiet hwf hq
  -- a builder's file is now registered under its number
  have hreg : ∀ bd ∈ s.job.builders, ∃ bd', fs.storage.findFile bd.number = some (outputMeta o w bd') := by
    intro bd hbd
    obtain ⟨m, hm⟩ : ∃ m, (s.job.builders.map (outputMeta o w)).find? (fun m => m.fileNumber == bd.number) = some m := by
      rw [← isSome_iff_exists, find?_isSome]
      exact ⟨_, mem_map_of_mem hbd, by simp [outputMeta]⟩
    obtain ⟨bd', -, rfl⟩ := mem_map.1 (mem_of_find?_eq_some hm)
    exact ⟨bd', by rw [hadd.find, (how.own bd hbd).2.1, hm]; rfl⟩
  have hstored : ∀ b ∈ s.job.rewriteBatches, ∃ r, r.key = b.key ∧ s.world.resolve o b.oldIndex = some r ∧
      BatchStored o w s.job.builders b r := by
    intro b hb
    obtain ⟨r, hkey, hold, hstored⟩ := h.batches b hb
    rw [hopen] at hstored
    exact ⟨r, hkey, hold, hstored.mono hq.grows (.of_subset (List.Subset.refl _))⟩
  refine ⟨fun b hb => ?_, fun b hb => ?_, fun k i hk hi => hpend k i (by rw [← hq.db]; exact hk) hi⟩
  · obtain ⟨r, hkey, hold, bd, hbd, hnum, hread⟩ := hstored b hb
    have hok : bd.status = .ok := by
      by_contra hne
      exact hfail ⟨bd, hbd, .inl hne⟩
    refine ⟨fun hmem => ?_, r, hkey, hkeep _ _ hold, fun hmode => ?_⟩
    · have hsome := hin _ hmem
      rw [← hnum, (ho.own bd hbd).2.1] at hsome; cases hsome
    · obtain ⟨bd', hfind⟩ := hreg bd hbd
      refine resolve_eq_some.2 (.inl ⟨outputMeta o w bd', by rw [← hnum]; exact hfind, rfl, ?_⟩)
      have hval : readsOnlyValue o (outputMeta o w bd') = false := by
        cases hl : o.levelMerge <;> cases hs : o.sepBeforeFlush <;>
          simp_all [readsOnlyValue, outputMeta, outputsReadable]
      rw [hval]
      exact hread hok
  · obtain ⟨-, -, -, bd, hbd, hnum, -⟩ := hstored b hb
    obtain ⟨bd', hfind⟩ := hreg bd hbd
    exact isSome_iff_exists.2 ⟨_, by rw [← hnum]; exact hfind⟩

theorem Inv.install (h : Inv o s) (hp : s.job.phase = .install) (hrel : Relocates o s (.gc env))
    (hs : s.step o env = some s') : Inv o s' ∧ Framed o s.world s'.world := by
  obtain ⟨hc, hcur, hpend⟩ : PhaseOk o s .install := hp ▸ h.phase
  have hopen : s.job.openBuilders = s.job.builders := by simp [openBuilders, hcur]
  have hi : Installed o env s _ := installOutputBlobFiles_spec h.fgWf (hopen ▸ hc.outputs)
  obtain ⟨hwf, hh, hframe⟩ := hi.framed h.fgWf h.fgHealthy (hopen ▸ hc.outputs)
  simp only [step, hp] at hs
  generalize s.installOutputBlobFiles o env = p at hs hi hwf hh hframe
  cases hi with
  | ok w fs hfail hw hq hfg hlog hadd =>
    cases hs
    refine ⟨⟨hwf, hh, fun n hn => ?_, hc.installed h.fgWf h.inputs hcur hpend hfail hq hframe.2 hadd⟩, hframe⟩
    have hsome := h.inputs n hn
    rw [← hq.find] at hsome
    show (fs.storage.findFile n).isSome = true
    rw [hadd.find, or_of_isSome hsome]; exact hsome
  | batchFailed w fs st hfail hw hq hfg hun hst =>
    have hs' : some (GcState.finish ⟨{ w with fileSet := fs }, s.job⟩ st) = some s' := by
      cases st <;> first | exact absurd rfl hst | exact hs
    cases hs'
    refine ⟨inv_finish hwf hh (fun n hn => ?_) _, hframe.trans (released_finish ..).calm.framed⟩
    show (fs.storage.findFile n).isSome = true
    rw [hun.storage, hq.find]; exact h.inputs n hn
  | outputFailed w disk st hfail hw hq hfg hdisk hgone hst =>
    have hne : st ≠ .ok := fun h => by simp only [Relocates, hp] at hrel; exact hrel hfail (hst.1 h)
    have hs' : some (GcState.finish ⟨{ w with disk }, s.job⟩ st) = some s' := by
      cases st <;> first | exact absurd rfl hne | exact hs
    cases hs'
    refine ⟨inv_finish hwf hh (fun n hn => ?_) _, hframe.trans (released_finish ..).calm.framed⟩
    rw [hq.find]; exact h.inputs n hn

theorem Rewriting.written {b : RewriteBatch} {bs : List RewriteBatch} (h : Rewriting o s (b :: bs)) :
    Rewriting o ⟨{ s.world with db := s.world.db.write b.key (some (.blobIndex b.newIndex)) .gc },
      { s.job with phase := .rewrite bs }⟩ bs where
  batches b' hb' := h.batches b' (mem_cons_of_mem _ hb')
  registered b' hb' := h.registered b' (mem_cons_of_mem _ hb')
  pending k i hk hi := by
    rw [BaseDb.get_write] at hk
    split at hk
    next => cases hk; exact absurd hi (h.batches b (mem_cons_self ..)).1
    next hne =>
      refine (h.pending k i hk hi).imp_right ?_
      rintro ⟨b', hb', hkey, hold⟩
      rcases mem_cons.1 hb' with rfl | hb'
      · exact absurd hkey.symm hne
      · exact ⟨b', hb', hkey, hold⟩

theorem deleted_spec {w : World} {fs : BlobFileSet} {ps : List (Nat × SequenceNumber)} (hw : FgWf w)
    (hh : FgHealthy w) (hnext : fs.nextFileNumber = w.nextFileNumber) (hdel : FilesDeleted ps w.storage fs.storage) :
    FgWf { w with fileSet := fs } ∧ FgHealthy { w with fileSet := fs } ∧
      ∀ i r, i.fileNumber ∉ ps.map fst → w.resolve o i = some r →
        resolve o { w with fileSet := fs } i = some r := by
  have hbuild : ∀ n, fs.storage.findBuildingFile n = w.storage.findBuildingFile n := fun n => by
    simp only [BlobStorage.findBuildingFile, hdel.building]
  have hnone : ∀ n, w.storage.findFile n = none → fs.storage.findFile n = none := fun n hn => by
    rw [hdel.find, hn]; split <;> rfl
  refine ⟨⟨fun n hn => ?_, fun b n hn => ?_, hw.owned_nodup, hw.owned_disjoint, hw.finished⟩,
    ⟨hh.status, fun b n hn => (hbuild n).trans (hh.building b n hn)⟩, fun i r hi hr => ?_⟩
  · obtain ⟨hdisk, hfind, hb⟩ := hw.fresh n (hnext ▸ hn)
    exact ⟨hdisk, hnone n hfind, (hbuild n).trans hb⟩
  · exact ⟨(hw.owned_some b n hn).1, hnone n (hw.owned_some b n hn).2⟩
  · have hfind : fs.storage.findFile i.fileNumber = w.storage.findFile i.fileNumber := by
      rw [hdel.find, if_neg hi]
    have hst : storage { w with fileSet := fs } = fs.storage := rfl
    simp only [resolve, hst, hfind, hbuild] at hr ⊢
    exact hr

/-- The batch a step writes to the base DB, if it gets that far. -/
def gcWrite (env : GcEnv) (s : GcState) : Option RewriteBatch :=
  match s.job.phase with
  | .relocate r (some i) _ => if env.dbWrite = none then some ⟨r.record.key, i, r.index⟩ else none
  | .rewrite (b :: _) => if env.dropped ∨ env.shutingDown ∨ env.dbWrite ≠ none then none else some b
  | _ => none

/-- What a step does to the engine: it writes its batch and nothing else, or it leaves the base DB alone and
takes away nothing but, at the very end, the inputs. -/
def Stepped (o : Options) (env : GcEnv) (s s' : GcState) : Prop :=
  match s.gcWrite env, s.job.phase with
  | some b, _ => s'.world = { s.world with db := s.world.db.write b.key (some (.blobIndex b.newIndex)) .gc }
  | none, .install => Framed o s.world s'.world
  | none, .deleteInputs => s'.world.db = s.world.db ∧
      ∀ i r, i.fileNumber ∉ s.job.inputs → s.world.resolve o i = some r → s'.world.resolve o i = some r
  | none, _ => Calm s.world s'.world

theorem Stepped.written {b : RewriteBatch} (h : Stepped o env s s') (hw : s.gcWrite env = some b) :
    s'.world = { s.world with db := s.world.db.write b.key (some (.blobIndex b.newIndex)) .gc } := by
  simpa only [Stepped, hw] using h

theorem Stepped.kept (h : Stepped o env s s') (hw : s.gcWrite env = none) :
    s'.world.db = s.world.db ∧ ∀ i r, (s.job.phase = .deleteInputs → i.fileNumber ∉ s.job.inputs) →
      s.world.resolve o i = some r → s'.world.resolve o i = some r := by
  have hframed : Framed o s.world s'.world → s'.world.db = s.world.db ∧
      ∀ i r, (s.job.phase = .deleteInputs → i.fileNumber ∉ s.job.inputs) →
        s.world.resolve o i = some r → s'.world.resolve o i = some r :=
    fun hf => ⟨hf.1, fun i r _ => hf.2 i r⟩
  rw [Stepped, hw] at h
  split at h
  next => contradiction
  next => exact hframed h
  next hp => exact ⟨h.1, fun i r hi => h.2 i r (hi hp)⟩
  next => exact hframed h.framed

/-- The loop is over, with nothing left behind: the outputs are installed or, if there are none, the inputs go. -/
theorem Collecting.done (h : Collecting o s []) (hp : Pending s.world s.job.inputs [] s.job.rewriteBatches) :
    PhaseOk o ⟨s.world, { s.job with
      builders := s.job.openBuilders, current := none
      phase := if relocatesThroughBuilder o then .deleteInputs else .install }⟩
      (if relocatesThroughBuilder o then .deleteInputs else .install) := by
  split
  next hsep =>
    refine ⟨nofun, nofun, fun k i hk hi => ?_⟩
    have := hp k i hk hi
    rwa [h.separate hsep] at this
  next => exact ⟨h.congr rfl (by simp [openBuilders]) rfl rfl rfl rfl, rfl, hp⟩

theorem Inv.start (h : Inv o s) (hp : s.job.phase = .start) (hs : s.step o env = some s') :
    Inv o s' ∧ Calm s.world s'.world := by
  obtain ⟨hc, hopen, hst⟩ : PhaseOk o s .start := hp ▸ h.phase
  simp only [step, hp] at hs
  split at hs
  next hin =>
    cases hs
    have hnone : ∀ todo bs, Pending s.world s.job.inputs todo bs := fun _ _ _ _ _ hi => by rw [hin] at hi; cases hi
    have hc' : Collecting o s [] :=
      ⟨hc.outputs, nofun, hc.batches, hc.opened, hc.separate, .inr rfl, fun _ _ => hnone _ _⟩
    obtain ⟨hb, hcur⟩ : s.job.builders = [] ∧ s.job.current = none := by
      simpa [openBuilders] using hopen
    refine ⟨⟨h.fgWf, h.fgHealthy, h.inputs, ?_⟩, .refl ..⟩
    have hdone := hc'.done (hnone _ _)
    rw [hopen, ← hb, ← hcur] at hdone
    exact hdone
  next =>
    split at hs
    next => cases hs; exact h.finish _
    next =>
      cases hs
      exact ⟨⟨h.fgWf, h.fgHealthy, h.inputs, hc.congr rfl rfl rfl rfl rfl rfl⟩, .refl ..⟩

theorem Inv.endOfLoop (h : Inv o s) (hp : s.job.phase = .run []) (hs : s.step o env = some s') :
    Inv o s' ∧ Calm s.world s'.world := by
  have hc : Collecting o s [] := by have := h.phase; rwa [hp] at this
  simp only [step, hp] at hs
  split at hs
  next => cases hs; exact h.finish _
  next hit =>
    split at hs
    next => cases hs; exact h.finish _
    next hst =>
      cases hs
      exact ⟨⟨h.fgWf, h.fgHealthy, h.inputs,
        hc.done (hc.pending (not_not.1 hit) (not_not.1 hst))⟩, .refl ..⟩

theorem Inv.deleteInputs (h : Inv o s) (hp : s.job.phase = .deleteInputs) (hs : s.step o env = some s') :
    Inv o s' ∧ s'.world.db = s.world.db ∧
      ∀ i r, i.fileNumber ∉ s.job.inputs → s.world.resolve o i = some r → s'.world.resolve o i = some r := by
  have hframe : ∀ {w}, Framed o s.world w → w.db = s.world.db ∧
      ∀ i r, i.fileNumber ∉ s.job.inputs → s.world.resolve o i = some r → w.resolve o i = some r :=
    fun hf => ⟨hf.1, fun i r _ => hf.2 i r⟩
  simp only [step, hp] at hs
  split at hs
  next =>
    cases hs
    obtain ⟨hinv, hf⟩ := h.finish .ok
    exact ⟨hinv, hframe hf.framed⟩
  next =>
    cases hs
    simp only [deleteInputBlobFiles, logAndApply]
    have hcases := BlobFileSet.logAndApply_ofDeleted o.sepBeforeFlush env.manifest s.world.fileSet
      (s.job.inputs.map fun n => (n, s.world.db.latestSequence))
    generalize BlobFileSet.logAndApply .. = p at hcases
    obtain ⟨fs, st⟩ := p
    rcases hcases with ⟨-, hun⟩ | ⟨-, hlog, hdel⟩
    · have hw : FgWf { s.world with fileSet := fs } := congr h.fgWf rfl hun.storage hun.next rfl
      have hh : FgHealthy { s.world with fileSet := fs } := congr h.fgHealthy hun.storage rfl
      have hin : ∀ n ∈ s.job.inputs, (fs.storage.findFile n).isSome := fun n hn => by
        rw [hun.storage]; exact h.inputs n hn
      have hf : Framed o s.world { s.world with fileSet := fs } :=
        ⟨rfl, fun i r hr => (resolve_unapplied hun.storage i).trans hr⟩
      exact ⟨inv_finish hw hh hin st, hframe (hf.trans (released_finish ..).calm.framed)⟩
    · obtain ⟨hw, hh, hkeep⟩ := deleted_spec h.fgWf h.fgHealthy hlog.next hdel
      have hin : ∀ n ∈ s.job.inputs, (fs.storage.findFile n).isSome := fun n hn => by
        rw [hdel.find]; split <;> simp [h.inputs n hn]
      refine ⟨inv_finish hw hh hin st, rfl, fun i r hi hr => (released_finish ..).calm.framed.2 i r (hkeep i r ?_ hr)⟩
      simpa [Function.comp_def] using hi

theorem Inv.rewrite (h : Inv o s) (hp : s.job.phase = .rewrite bs)
    (hs : s.step o env = some s') : Inv o s' ∧ Stepped o env s s' := by
  have hr : Rewriting o s bs := by have := h.phase; rwa [hp] at this
  have hcalm : s.gcWrite env = none → Inv o s' ∧ Calm s.world s'.world → Inv o s' ∧ Stepped o env s s' :=
    fun hw h => h.imp_right fun hc => by simpa only [Stepped, hw, hp] using hc
  cases bs with
  | nil =>
    simp only [step, hp] at hs
    cases hs
    exact hcalm (by simp [gcWrite, hp]) ⟨⟨h.fgWf, h.fgHealthy, h.inputs, hr.congr rfl rfl⟩, .refl _⟩
  | cons b bs =>
    simp only [step, hp] at hs
    split at hs
    next hd => cases hs; exact hcalm (by simp [gcWrite, hp, hd]) (h.finish _)
    next hd =>
      split at hs
      next hsd => cases hs; exact hcalm (by simp [gcWrite, hp, hsd]) (h.finish _)
      next hsd =>
        cases hw : env.dbWrite with
        | none =>
          simp only [writeBatch, hw, if_true] at hs
          cases hs
          exact ⟨⟨congr h.fgWf rfl rfl rfl rfl, congr h.fgHealthy rfl rfl, h.inputs, hr.written⟩,
            by simp [Stepped, gcWrite, hp, hd, hsd, hw, setPhase]⟩
        | some m =>
          simp only [writeBatch, hw, reduceCtorEq, if_false, Fault.status] at hs
          cases hs
          exact hcalm (by simp [gcWrite, hp, hw]) (h.finish _)

theorem Inv.step (h : Inv o s) (hrel : Relocates o s (.gc env)) (hs : s.step o env = some s') :
    Inv o s' ∧ Stepped o env s s' := by
  cases hp : s.job.phase with
  | start => exact (h.start hp hs).imp_right fun hc => by simpa only [Stepped, gcWrite, hp] using hc
  | run todo =>
    have hrun : Inv o s' ∧ Calm s.world s'.world := by
      cases todo with
      | nil => exact h.endOfLoop hp hs
      | cons r todo => exact h.runRecord hp hrel (by simpa only [GcState.step, hp] using hs)
    exact hrun.imp_right fun hc => by simpa only [Stepped, gcWrite, hp] using hc
  | relocate r wb todo =>
    obtain ⟨-, -, -, i, rfl, -⟩ : PhaseOk o s (.relocate r wb todo) := hp ▸ h.phase
    have hinv := h.relocate hp hrel
    simp only [GcState.step, hp] at hs
    cases hs
    refine ⟨hinv, ?_⟩
    by_cases hw : env.dbWrite = none
    · simp [Stepped, gcWrite, hp, writeBatch, hw]
    · simp [Stepped, gcWrite, hp, writeBatch, hw, Calm.refl]
  | install => exact (h.install hp hrel hs).imp_right fun hf => by simpa only [Stepped, gcWrite, hp] using hf
  | rewrite bs => exact h.rewrite hp hs
  | deleteInputs =>
    obtain ⟨hinv, hdb, hkeep⟩ := h.deleteInputs hp hs
    exact ⟨hinv, by simpa only [Stepped, gcWrite, hp] using ⟨hdb, hkeep⟩⟩
  | finished st => simp [GcState.step, hp] at hs

/-! ### User operations -/

theorem Inv.not_input_of_owned {w₁ : World} {n b : Nat} (h : Inv o s) (hq : Quiet s.world w₁) (hw : FgWf w₁)
    (hn : n ∈ w₁.owned b) : n ∉ s.job.inputs := fun hin => by
  have hsome := h.inputs _ hin
  rw [← hq.find, (hw.owned_some b _ hn).2] at hsome
  cases hsome

/-- A user write never names an input: its index is into a file that a foreground builder owns. -/
theorem Inv.userWrite {w₁ : World} {k : Slice} {e : Option LsmEntry} (h : Inv o s) (hq : Quiet s.world w₁)
    (hw : FgWf w₁) (hh : FgHealthy w₁) (he : ∀ i, e = some (.blobIndex i) → ∃ b, i.fileNumber ∈ w₁.owned b) :
    Inv o { s with world := { w₁ with db := w₁.db.write k e .user } } := by
  refine ⟨congr hw rfl rfl rfl rfl, congr hh rfl rfl, h.inputs_of_find rfl hq.find, ?_⟩
  refine h.phase.undisturbed (.commit h.fgWf hq fun i hi => ?_)
  obtain ⟨b, hb⟩ := he i hi
  exact h.not_input_of_owned hq hw hb

theorem Inv.put {k v : Slice} {w' : World} (h : Inv o s) (hrel : Relocates o s (.put k v))
    (hs : s.world.put o {} k v = some w') :
    ∃ w₁ e, Prepared o v s.world w₁ e ∧ w' = { w₁ with db := w₁.db.write k (some e) .user } ∧
      Inv o { s with world := w' } := by
  obtain ⟨w₁, e, hp, rfl⟩ := put_spec h.fgWf h.fgHealthy hs hrel
  refine ⟨w₁, e, hp, rfl, h.userWrite hp.quiet hp.fgWf hp.fgHealthy fun i hi => hp.owned i ?_⟩
  exact some.inj hi

theorem Inv.react {e : GcEvent} (h : Inv o s) (hrel : Relocates o s e) (hs : s.react o e = some s') : Inv o s' := by
  cases e with
  | put k v =>
    simp only [GcState.react, map_eq_some_iff] at hs
    obtain ⟨w', hput, rfl⟩ := hs
    obtain ⟨-, -, -, -, hinv⟩ := h.put hrel hput
    exact hinv
  | delete k =>
    cases hs
    exact h.userWrite (.refl _) h.fgWf h.fgHealthy nofun
  | gc env => exact (h.step hrel hs).1

end GcState

end ValueSep.DiffKV
