import ValueSep.DiffKV.GcRun

/-!
# Relocation through the foreground builder

With `sep_before_flush && !level_merge` the loop of `DoRunGC` hands every live record to the foreground builder
and writes its new index at once. The status of that write is overwritten by the next record's `DiscardEntry`,
and a record that `ForegroundBuilder::Add` refuses leaves no status at all, so the job can end well without
having moved everything. In a run whose steps give nothing up (`Relocates`) each live record's key has been
written again before the inputs go.
-/

namespace ValueSep.DiffKV.GcState

open World Exec
open List Option BaseDb

/-- The record's key has been written since the log was `log₀`: by the job, with an index that leads to the
record, or by a user; in either case with nothing that names an input. -/
def Superseded (o : Options) (log₀ : List (Slice × Option LsmEntry × Writer)) (inputs : List Nat) (w : World)
    (r : GcRecord) : Prop :=
  ∃ new e by', w.db.log = new ++ log₀ ∧ new.lookup r.record.key = some (e, by') ∧
    (∀ i, e = some (.blobIndex i) → i.fileNumber ∉ inputs) ∧
    (by' = .gc → ∃ i, e = some (.blobIndex i) ∧ w.resolve o i = some r.record)

section Superseded
variable {o : Options} {log₀ : List (Slice × Option LsmEntry × Writer)} {inputs : List Nat} {w w' : World}
  {r : GcRecord} {k : Slice} {e : Option LsmEntry} {by' : Writer}

section
variable (h : Superseded o log₀ inputs w r)
include h

theorem Superseded.get {i : BlobIndex} (hi : w.db.get r.record.key = some (.blobIndex i)) : i.fileNumber ∉ inputs := by
  obtain ⟨new, e, by', hlog, hnew, hnot, -⟩ := h
  rw [BaseDb.get, hlog, lookup_append, hnew] at hi
  exact hnot i hi

theorem Superseded.framed (hdb : w'.db = w.db)
    (hk : ∀ i r, i.fileNumber ∉ inputs → w.resolve o i = some r → w'.resolve o i = some r) :
    Superseded o log₀ inputs w' r := by
  obtain ⟨new, e, by', hlog, hnew, hnot, hgc⟩ := h
  refine ⟨new, e, by', by rw [hdb, hlog], hnew, hnot, fun hby => ?_⟩
  obtain ⟨i, hi, hr⟩ := hgc hby
  exact ⟨i, hi, hk i _ (hnot i hi) hr⟩

theorem Superseded.write (hk : k = r.record.key → by' = .user ∧ ∀ i, e = some (.blobIndex i) → i.fileNumber ∉ inputs) :
    Superseded o log₀ inputs { w with db := w.db.write k e by' } r := by
  obtain ⟨new, e₀, by₀, hlog, hnew, hnot, hgc⟩ := h
  by_cases hkey : k = r.record.key
  · obtain ⟨rfl, hnot'⟩ := hk hkey
    exact ⟨(k, e, .user) :: new, e, .user, by simp [write, hlog], by simp [hkey], hnot', nofun⟩
  · refine ⟨(k, e, by') :: new, e₀, by₀, by simp [BaseDb.write, hlog], ?_, hnot, hgc⟩
    rw [lookup_cons, beq_eq_false_iff_ne.2 (Ne.symm hkey)]
    exact hnew

end

theorem superseded_write {i : BlobIndex} (hlog : log₀ <:+ w.db.log) (hi : i.fileNumber ∉ inputs)
    (hr : w.resolve o i = some r.record) :
    Superseded o log₀ inputs { w with db := w.db.write r.record.key (some (.blobIndex i)) .gc } r := by
  obtain ⟨new, hnew⟩ := hlog
  refine ⟨(r.record.key, some (.blobIndex i), .gc) :: new, some (.blobIndex i), .gc, by simp [write, hnew],
    by simp, ?_, fun _ => ⟨i, rfl, hr⟩⟩
  rintro _ ⟨⟩
  exact hi

end Superseded

/-- What has become of the records found live so far. -/
def LivePhase (o : Options) (s₀ s : GcState) : GcPhase → Prop
  | .start => s.job.live = []
  | .run _ => s.job.status = .ok → ∀ r ∈ s.job.live, Superseded o s₀.world.db.log s₀.job.inputs s.world r
  | .relocate r _ _ => ∃ rest, s.job.live = r :: rest ∧
      ∀ r' ∈ rest, r'.record.key ≠ r.record.key ∧ Superseded o s₀.world.db.log s₀.job.inputs s.world r'
  | .deleteInputs => ∀ r ∈ s.job.live, Superseded o s₀.world.db.log s₀.job.inputs s.world r
  | .finished st => st = .ok → ∀ r ∈ s.job.live, Superseded o s₀.world.db.log s₀.job.inputs s.world r
  | _ => False

structure LiveInv (o : Options) (s₀ s : GcState) : Prop where
  inv : Inv o s
  log : s₀.world.db.log <:+ s.world.db.log
  inputs : s.job.inputs = s₀.job.inputs
  live : ∀ r ∈ s.job.live, r.index.fileNumber ∈ s₀.job.inputs
  phase : LivePhase o s₀ s s.job.phase

variable {o : Options} {env : GcEnv} {s₀ s s' : GcState}

theorem LivePhase.mono {w' : World} {p : GcPhase} (h : LivePhase o s₀ s p)
    (hs : ∀ r, Superseded o s₀.world.db.log s₀.job.inputs s.world r →
      Superseded o s₀.world.db.log s₀.job.inputs w' r) : LivePhase o s₀ { s with world := w' } p := by
  cases p with
  | start => exact h
  | run todo => exact fun hst r hr => hs r (h hst r hr)
  | relocate r wb todo =>
    obtain ⟨rest, hlive, hrest⟩ := h
    exact ⟨rest, hlive, fun r' hr' => ⟨(hrest r' hr').1, hs r' (hrest r' hr').2⟩⟩
  | install => exact h
  | rewrite bs => exact h
  | deleteInputs => exact fun r hr => hs r (h r hr)
  | finished st => exact fun hst r hr => hs r (h hst r hr)

theorem LiveInv.userWrite {w₁ : World} {k : Slice} {e : Option LsmEntry} (h : LiveInv o s₀ s) (hf : Framed o s.world w₁)
    (hinv : Inv o { s with world := { w₁ with db := w₁.db.write k e .user } })
    (he : ∀ i, e = some (.blobIndex i) → i.fileNumber ∉ s.job.inputs) :
    LiveInv o s₀ { s with world := { w₁ with db := w₁.db.write k e .user } } := by
  refine ⟨hinv, ?_, h.inputs, h.live, h.phase.mono fun r hr => ?_⟩
  · rw [hf.1]
    exact h.log.trans (suffix_cons ..)
  · exact (hr.framed hf.1 fun i r _ => hf.2 i r).write fun _ => ⟨rfl, h.inputs ▸ he⟩

theorem LiveInv.finish {st : Status} (h : LiveInv o s₀ s) (hst : st ≠ .ok) (hinv : Inv o (s.finish st)) :
    LiveInv o s₀ (s.finish st) := by
  refine ⟨hinv, ?_, h.inputs, h.live, fun hok => absurd hok hst⟩
  exact h.log

variable {r : GcRecord}

theorem Stepped.superseded (hs : Stepped o env s s') (hw : s.gcWrite env = none)
    (hin : s.job.inputs = s₀.job.inputs) (h : Superseded o s₀.world.db.log s₀.job.inputs s.world r) :
    Superseded o s₀.world.db.log s₀.job.inputs s'.world r := by
  exact h.framed (hs.kept hw).1 fun i r hi => (hs.kept hw).2 i r fun _ => hin ▸ hi

/-- The check of one record. A record found live is the only one of its key: the others' keys have been
rewritten with indexes that name no input. -/
theorem LiveInv.runRecord {todo : List GcRecord} (hmode : relocatesThroughBuilder o = true)
    (h : LiveInv o s₀ s) (hp : s.job.phase = .run (r :: todo)) (hrel : Relocates o s (.gc env))
    (hs : s.step o env = some s') : LiveInv o s₀ s' := by
  obtain ⟨hinv, hstep⟩ := h.inv.step hrel hs
  have hw : s.gcWrite env = none := by simp [gcWrite, hp]
  have hdb : s'.world.db = s.world.db := (hstep.kept hw).1
  have hc : Collecting o s (r :: todo) := by have := h.inv.phase; rwa [hp] at this
  have hlive : ∀ r ∈ s.job.live, Superseded o s₀.world.db.log s₀.job.inputs s.world r := by
    have := h.phase
    rw [hp] at this
    exact this (hc.status.resolve_right (by simp))
  simp only [GcState.step, hp, GcState.runRecord] at hs
  split at hs
  · cases hs; exact h.finish (by simp) hinv
  split at hs
  next st hd =>
    cases hs
    refine h.finish (fun hok => ?_) hinv
    rw [discardEntry] at hd
    split at hd <;> cases hd
    cases hok
  next => cases hs; exact ⟨hinv, h.log, h.inputs, h.live, fun _ => hlive⟩
  next hd =>
    obtain ⟨hkey, hvalue, hnew, -⟩ : r.record.key ≠ [] ∧ separates o r.record.value = true ∧ env.add.Clean := by
      simp only [Relocates, hp] at hrel; exact (hrel hd).2 hmode
    have hget : s.world.db.get r.record.key = some (.blobIndex r.index) := by
      simpa using discardEntry_eq_ok hd
    have hin : r.index.fileNumber ∈ s₀.job.inputs := h.inputs ▸ (hc.ahead r (mem_cons_self ..)).1
    simp only [foregroundAdd, hvalue, hkey, Bool.true_eq_false, if_false, map_eq_some_iff,
      Prod.exists] at hs
    obtain ⟨w, st, wb, hadd, rfl⟩ := hs
    obtain rfl := (appendRecord_spec h.inv.fgWf hadd).2.2.1 hnew
    refine ⟨hinv, by rw [hdb]; exact h.log, h.inputs, forall_mem_cons.2 ⟨hin, h.live⟩, s.job.live, rfl,
      fun r' hr' => ⟨fun hkey' => ?_, hstep.superseded hw h.inputs (hlive r' hr')⟩⟩
    exact (hlive r' hr').get (hkey' ▸ hget) hin

/-- The write of the new index. Its failure is kept only when no record follows. -/
theorem LiveInv.relocate {wb : Option BlobIndex} {todo : List GcRecord} (h : LiveInv o s₀ s)
    (hp : s.job.phase = .relocate r wb todo) (hrel : Relocates o s (.gc env)) (hs : s.step o env = some s') :
    LiveInv o s₀ s' := by
  obtain ⟨hinv, -⟩ := h.inv.step hrel hs
  obtain ⟨-, -, -, i, rfl, hi, hnot⟩ : PhaseOk o s (.relocate r wb todo) := hp ▸ h.inv.phase
  obtain ⟨rest, hlive, hrest⟩ : LivePhase o s₀ s (.relocate r (some i) todo) := hp ▸ h.phase
  rw [h.inputs] at hnot
  simp only [step, hp] at hs
  cases hs
  by_cases hw : env.dbWrite = none
  · simp only [writeBatch, hw, if_true] at hinv ⊢
    refine ⟨hinv, h.log.trans (suffix_cons ..), h.inputs, h.live, fun _ => ?_⟩
    rw [hlive, forall_mem_cons]
    refine ⟨superseded_write h.log hnot hi, fun r' hr' => ?_⟩
    exact (hrest r' hr').2.write fun hkey => absurd hkey.symm (hrest r' hr').1
  · simp only [writeBatch, hw, if_false] at hinv ⊢
    exact ⟨hinv, h.log, h.inputs, h.live, fun hok => absurd (Fault.status_eq_ok.1 hok) hw⟩

section
variable (hmode : relocatesThroughBuilder o = true) (h : LiveInv o s₀ s)
include hmode h

theorem LiveInv.step (hrel : Relocates o s (.gc env)) (hs : s.step o env = some s') : LiveInv o s₀ s' := by
  obtain ⟨hinv, hstep⟩ := h.inv.step hrel hs
  have hphase := h.phase
  cases hp : s.job.phase with
  | start =>
    have hlive : s.job.live = [] := by rwa [hp] at hphase
    simp only [GcState.step, hp, hmode, if_true] at hs
    split at hs
    · cases hs
      exact ⟨hinv, h.log, h.inputs, h.live, fun r hr => by simp [setPhase, hlive] at hr⟩
    · split at hs
      · cases hs; exact h.finish (by simp) hinv
      · cases hs
        exact ⟨hinv, h.log, h.inputs, h.live, fun _ r hr => by simp [setPhase, hlive] at hr⟩
  | run todo =>
    cases todo with
    | cons r todo => exact h.runRecord hmode hp hrel hs
    | nil =>
      rw [hp] at hphase
      simp only [GcState.step, hp, hmode, if_true] at hs
      split at hs
      next hit => cases hs; exact h.finish hit hinv
      next =>
        split at hs
        next hst => cases hs; exact h.finish hst hinv
        next hst => cases hs; exact ⟨hinv, h.log, h.inputs, h.live, hphase (not_not.1 hst)⟩
  | relocate r wb todo => exact h.relocate hp hrel hs
  | install => rw [hp] at hphase; exact hphase.elim
  | rewrite bs => rw [hp] at hphase; exact hphase.elim
  | deleteInputs =>
    rw [hp] at hphase
    have hw : s.gcWrite env = none := by simp [gcWrite, hp]
    have hdb : s'.world.db = s.world.db := (hstep.kept hw).1
    have hsup := fun r hr => hstep.superseded hw h.inputs (hphase r hr)
    have hlog : s₀.world.db.log <:+ s'.world.db.log := by rw [hdb]; exact h.log
    simp only [GcState.step, hp] at hs
    split at hs <;> cases hs <;> exact ⟨hinv, hlog, h.inputs, h.live, fun _ => hsup⟩
  | finished st => simp [GcState.step, hp] at hs

theorem LiveInv.react {e : GcEvent} (hrel : Relocates o s e) (hs : s.react o e = some s') : LiveInv o s₀ s' := by
  cases e with
  | put k v =>
    simp only [GcState.react, map_eq_some_iff] at hs
    obtain ⟨w', hput, rfl⟩ := hs
    obtain ⟨w₁, e, hp, rfl, hinv⟩ := h.inv.put hrel hput
    refine h.userWrite hp.quiet.framed hinv fun i hi => ?_
    obtain ⟨b, hb⟩ := hp.owned i (some.inj hi)
    exact h.inv.not_input_of_owned hp.quiet hp.fgWf hb
  | delete k =>
    have hinv := h.inv.react hrel hs
    cases hs
    exact h.userWrite (.refl ..) hinv (by simp)
  | gc env => exact h.step hmode hrel hs

end

/-- A job that has ended well, after a run whose steps give no record up, has had every live record's key
written again: the LSM tree maps it to a copy of the record outside the inputs or to a later user write. -/
theorem live_superseded {es : List GcEvent} (hmode : relocatesThroughBuilder o = true) (h : JobStart o s₀)
    (hall : AllSteps (react o) (Relocates o) s₀ es) (hrun : run (react o) s₀ es = some s)
    (hst : s.job.phase = .finished .ok) :
    ∀ r ∈ s.job.live, s.world.db.get r.record.key ≠ some (.blobIndex r.index) ∧
      Superseded o s₀.world.db.log s₀.job.inputs s.world r := by
  have hphase : s₀.job.phase = .start := by rw [h.job]; rfl
  have hlive : s₀.job.live = [] := by rw [h.job]; rfl
  have hstart : LiveInv o s₀ s₀ := by
    refine ⟨h.inv, suffix_rfl, rfl, by simp [hlive], ?_⟩
    rw [hphase]; exact hlive
  have hinv : LiveInv o s₀ s := run_inv (fun _ _ _ hI hP hs => hI.react hmode hP hs) hstart hall hrun
  have hdone := hinv.phase
  rw [hst] at hdone
  exact fun r hr => ⟨fun hget => (hdone rfl r hr).get hget (hinv.live r hr), hdone rfl r hr⟩

/-- Two live records; the user overwrites the first after it has moved. -/
theorem live_superseded_put_after_relocation :
    ∃ s, run (react (.small true false)) (single (.small true false) [⟨[1], [10]⟩, ⟨[2], [11]⟩])
        [.gc {}, .gc {}, .gc {}, .put [1] [20], .gc {}, .gc {}, .gc {}, .gc {}] = some s ∧
      s.job.live.length = 2 ∧ ∀ r ∈ s.job.live, s.world.db.get r.record.key ≠ some (.blobIndex r.index) := by
  refine exists_of_map (fun s => (s.job.phase, s.job.live.length)) (.finished .ok, 2) (by decide +kernel)
    fun s hrun hs => ?_
  simp only [Prod.mk.injEq] at hs
  have hall := live_superseded rfl (jobStart_single (by decide)) (by decide +kernel) hrun hs.1
  exact ⟨hs.2, fun r hr => (hall r hr).1⟩

/-- The write of the first record's new index fails. The second record's check overwrites the status, the job
ends well, and the first key is left with an index into an obsolete file. -/
theorem failed_write_forgotten :
    JobStart (.small true false) (single (.small true false) [⟨[1], [10]⟩, ⟨[2], [11]⟩]) ∧
      (run (react (.small true false)) (single (.small true false) [⟨[1], [10]⟩, ⟨[2], [11]⟩])
        [.gc {}, .gc {}, .gc { dbWrite := some "stall" }, .gc {}, .gc {}, .gc {}, .gc {}]).map
        (fun s => (s.job.phase, decide (⟨⟨[1], [10]⟩, ⟨1, ⟨8, 13⟩⟩⟩ ∈ s.job.live), s.world.db.get [1],
          s.world.storage.obsoleteFiles)) =
        some (.finished .ok, true, some (.blobIndex ⟨1, ⟨8, 13⟩⟩), [(1, 3)]) :=
  ⟨jobStart_single (by decide), by decide +kernel⟩

end ValueSep.DiffKV.GcState
