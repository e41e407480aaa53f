import ValueSep.DiffKV.GcRun

/-!
# A job whose outputs cannot be installed

`Finish` from `InstallOutputBlobFiles` on, driven by what the environment answers at each step. A builder that
fails makes `InstallOutputBlobFiles` delete the outputs and return the status of `BatchDeleteFiles`, so that a
cleanup that goes well looks like an installation that went well (`Swallowed`).
-/

namespace ValueSep.DiffKV.GcState

open World Exec
open List

/-- `BatchFinishFiles` fails on outputs that are all finished. -/
def BatchFails (o : Options) (env : GcEnv) (s : GcState) : Prop :=
  let r := finishBuilders o env.finish s.job.builders s.world
  r.2 = .ok ∧ (r.1.batchFinishFiles o env.batch (s.job.builders.map (outputMeta o r.1))).2 ≠ .ok

/-- The failure of an output is replaced by the success of the cleanup. -/
def Swallowed (env : GcEnv) (s : GcState) : Prop := OutputFails env s ∧ CleanupOk env s

/-- `RewriteValidKeyToLSM` stops at this batch without writing it. -/
def RewriteStops (env : GcEnv) : Prop := env.dropped = true ∨ env.shutingDown = true ∨ env.dbWrite ≠ none

instance (o : Options) (env : GcEnv) (s : GcState) : Decidable (BatchFails o env s) :=
  inferInstanceAs (Decidable (_ ∧ _))

instance (env : GcEnv) (s : GcState) : Decidable (Swallowed env s) := inferInstanceAs (Decidable (_ ∧ _))

instance (env : GcEnv) : Decidable (RewriteStops env) := inferInstanceAs (Decidable (_ ∨ _ ∨ _))

/-- The job reports an error and has left no trace: nothing written to the LSM tree, nothing marked obsolete,
every key reads what it read. -/
structure FailedSafely (o : Options) (w w' : World) (st : Status) : Prop where
  status : st ≠ .ok
  db : w'.db = w.db
  obsolete : w'.storage.obsoleteFiles = w.storage.obsoleteFiles
  reads : ∀ k, w.visible o k ≠ .missing → w'.visible o k = w.visible o k

variable {o : Options} {env : GcEnv} {s s' : GcState}

theorem installOutputBlobFiles_status_of_batchFails (h : BatchFails o env s) :
    (s.installOutputBlobFiles o env).2 ≠ .ok := by
  obtain ⟨hfin, hbatch⟩ := h
  unfold installOutputBlobFiles
  generalize finishBuilders o env.finish s.job.builders s.world = p at hfin hbatch ⊢
  obtain ⟨w, st⟩ := p
  obtain rfl : st = .ok := hfin
  dsimp only at hbatch ⊢
  split
  next heq => rw [heq] at hbatch; exact absurd rfl hbatch
  next heq => rw [heq] at hbatch; exact hbatch

/-- Whatever the outcome of the installation, no file becomes obsolete by it. -/
theorem Installed.obsolete {r : GcState × Status} (h : Installed o env s r) :
    r.1.world.storage.obsoleteFiles = s.world.storage.obsoleteFiles ∧ r.1.job.rewriteBatches = s.job.rewriteBatches := by
  cases h with
  | ok w fs hfail hw hq hfg hlog hadd => exact ⟨hadd.obsolete.trans hq.obsolete, rfl⟩
  | batchFailed w fs st hfail hw hq hfg hun hst =>
    exact ⟨(congrArg BlobStorage.obsoleteFiles hun.storage).trans hq.obsolete, rfl⟩
  | outputFailed w disk st hfail hw hq hfg hdisk hgone hst => exact ⟨hq.obsolete, rfl⟩

theorem failedSafely_finish {w : World} {st : Status} (hst : st ≠ .ok) (hf : Framed o w s.world)
    (hobs : s.world.storage.obsoleteFiles = w.storage.obsoleteFiles) : FailedSafely o w (s.finish st).world st := by
  have hr := s.released_finish st
  refine ⟨hst, hr.db.trans hf.1, hr.obsolete.trans hobs, fun k => visible_eq (by rw [hr.db, hf.1]) fun i r _ h => ?_⟩
  rw [hr.resolve]
  exact hf.2 i r h

theorem deleteInputs_reaches (env : Nat → GcEnv) (hp : s.job.phase = .deleteInputs) :
    ∃ s' st, Reaches (react o) (.gc ∘ env) s s' ∧ s'.job.phase = .finished st ∧ s'.world.db.log = s.world.db.log := by
  by_cases hd : (env 0).dropped = true
  · exact ⟨s.finish .ok, .ok, .head (by simp [react, step, hp, hd]) (.refl ..), rfl, rfl⟩
  · refine ⟨(s.deleteInputBlobFiles o (env 0)).1.finish (s.deleteInputBlobFiles o (env 0)).2, _, ?_, rfl, rfl⟩
    exact .head (by simp [react, step, hp, hd]) (.refl ..)

variable {bs : List RewriteBatch}

theorem step_of_rewriteStops {b : RewriteBatch} (hp : s.job.phase = .rewrite (b :: bs))
    (h : RewriteStops env) : ∃ st, st ≠ .ok ∧ s.step o env = some (s.finish st) := by
  simp only [step, hp]
  split
  · exact ⟨.aborted "Column family drop", by simp, rfl⟩
  next hd =>
    split
    · exact ⟨.shutdownInProgress, by simp, rfl⟩
    next hsd =>
      obtain ⟨m, hm⟩ : ∃ m, env.dbWrite = some m :=
        Option.ne_none_iff_exists'.1 ((h.resolve_left hd).resolve_left hsd)
      exact ⟨.ioError m, by simp, by simp [writeBatch, hm, Fault.status]⟩

/-- The batch has been written, and these are left. -/
def written (s : GcState) (b : RewriteBatch) (bs : List RewriteBatch) : GcState :=
  ⟨{ s.world with db := s.world.db.write b.key (some (.blobIndex b.newIndex)) .gc }, { s.job with phase := .rewrite bs }⟩

theorem step_of_not_rewriteStops {b : RewriteBatch} (hp : s.job.phase = .rewrite (b :: bs))
    (h : ¬ RewriteStops env) : s.step o env = some (s.written b bs) := by
  simp only [RewriteStops, not_or, not_not] at h
  simp [step, hp, h, writeBatch, setPhase, written]

/-- `RewriteValidKeyToLSM` and the rest of `Finish` come to an end, and the base DB's log only grows. -/
theorem rewrite_reaches (env : Nat → GcEnv) (hp : s.job.phase = .rewrite bs) :
    ∃ s' st, Reaches (react o) (.gc ∘ env) s s' ∧ s'.job.phase = .finished st ∧ s.world.db.log <:+ s'.world.db.log := by
  induction bs generalizing s env with
  | nil =>
    obtain ⟨s', st, hr, hst, hlog⟩ := deleteInputs_reaches (o := o) (s := s.setPhase .deleteInputs)
      (fun n => env (n + 1)) rfl
    exact ⟨s', st, .head (by simp [react, step, hp]) hr, hst, hlog ▸ suffix_rfl⟩
  | cons b bs ih =>
    by_cases hstop : RewriteStops (env 0)
    · obtain ⟨st, -, hs⟩ := step_of_rewriteStops hp hstop
      exact ⟨s.finish st, st, .head hs (.refl ..), rfl, suffix_rfl⟩
    · obtain ⟨s', st, hr, hst, hlog⟩ := ih (s := s.written b bs) (fun n => env (n + 1)) rfl
      exact ⟨s', st, .head (step_of_not_rewriteStops hp hstop) hr, hst, (suffix_cons ..).trans hlog⟩

theorem step_install (hp : s.job.phase = .install) : s.step o env =
    if (s.installOutputBlobFiles o env).2 = .ok then
      some ((s.installOutputBlobFiles o env).1.setPhase (.rewrite (s.installOutputBlobFiles o env).1.job.rewriteBatches))
    else some ((s.installOutputBlobFiles o env).1.finish (s.installOutputBlobFiles o env).2) := by
  simp only [step, hp]
  generalize s.installOutputBlobFiles o env = p
  obtain ⟨s₁, st⟩ := p
  cases st <;> rfl

/-- The failure is swallowed exactly when the installation reports success. -/
theorem Installed.status_iff {r : GcState × Status} (h : Installed o env s r)
    (hfail : OutputFails env s ∨ r.2 ≠ .ok) : r.2 = .ok ↔ Swallowed env s := by
  cases h with
  | ok w fs hf => exact absurd rfl (hfail.resolve_left hf)
  | batchFailed w fs st hf hw hq hfg hun hst => exact ⟨fun h => absurd h hst, fun h => absurd h.1 hf⟩
  | outputFailed w disk st hf hw hq hfg hdisk hgone hst => exact ⟨fun h => ⟨hf, hst.1 h⟩, fun h => hst.2 h.2⟩

/-- A job some of whose outputs fail, or cannot be registered, comes to an end. It fails without a trace if and
only if the failure is not swallowed or the first batch is not written. -/
theorem finish_failedSafely_iff {s₀ : GcState} {es : List GcEvent} (env : Nat → GcEnv) (h : JobStart o s₀)
    (hall : AllSteps (react o) (Relocates o) s₀ es) (hrun : run (react o) s₀ es = some s)
    (hp : s.job.phase = .install) (hfail : OutputFails (env 0) s ∨ BatchFails o (env 0) s) :
    ∃ s' st, Reaches (react o) (.gc ∘ env) s s' ∧ s'.job.phase = .finished st ∧
      (FailedSafely o s.world s'.world st ↔ ¬ Swallowed (env 0) s ∨ RewriteStops (env 1)) := by
  have hinv : Inv o s := run_inv (fun _ _ _ hI hP hs => hI.react hP hs) h.inv hall hrun
  obtain ⟨hc, hcur, -⟩ : PhaseOk o s .install := hp ▸ hinv.phase
  have hopen : s.job.openBuilders = s.job.builders := by simp [GcJob.openBuilders, hcur]
  have hi : Installed o (env 0) s _ := installOutputBlobFiles_spec hinv.fgWf (hopen ▸ hc.outputs)
  obtain ⟨-, -, hframe⟩ := hi.framed hinv.fgWf hinv.fgHealthy (hopen ▸ hc.outputs)
  obtain ⟨hobs, hbatches⟩ := hi.obsolete
  have hok := hi.status_iff (hfail.imp_right installOutputBlobFiles_status_of_batchFails)
  have hstep : s.step o (env 0) = _ := step_install hp
  generalize s.installOutputBlobFiles o (env 0) = p at hframe hobs hbatches hok hstep
  by_cases hsw : Swallowed (env 0) s
  · rw [if_pos (hok.2 hsw)] at hstep
    obtain ⟨bd, hbd, -⟩ := hsw.1
    obtain ⟨b, bs, hbs⟩ : ∃ b bs, p.1.job.rewriteBatches = b :: bs := by
      rw [hbatches]
      exact exists_cons_of_ne_nil (hc.opened (hopen ▸ ne_nil_of_mem hbd))
    rw [hbs] at hstep
    by_cases hstop : RewriteStops (env 1)
    · obtain ⟨st, hst, hs⟩ := step_of_rewriteStops (o := o) (s := p.1.setPhase (.rewrite (b :: bs))) rfl hstop
      refine ⟨_, st, .head hstep (.head hs (.refl ..)), rfl, fun _ => .inr hstop, fun _ => ?_⟩
      exact failedSafely_finish hst hframe hobs
    · obtain ⟨s', st, hr, hst, hlog⟩ := rewrite_reaches (o := o)
        (s := (p.1.setPhase (.rewrite (b :: bs))).written b bs) (fun n => env (n + 2)) rfl
      have hs := step_of_not_rewriteStops (o := o) (s := p.1.setPhase (.rewrite (b :: bs))) rfl hstop
      refine ⟨s', st, .head hstep (.head hs hr), hst, fun hsafe => ?_,
        fun hcond => absurd hstop (not_not.2 (hcond.resolve_left (not_not.2 hsw)))⟩
      -- the batch has been written, so the log is longer than it was
      have hlen := hlog.length_le
      rw [hsafe.db] at hlen
      have hdb : p.1.world.db.log.length = s.world.db.log.length := by rw [hframe.1]
      simp only [written, BaseDb.write, setPhase, length_cons] at hlen
      omega
  · have hne : p.2 ≠ .ok := fun h => hsw (hok.1 h)
    rw [if_neg hne] at hstep
    exact ⟨_, p.2, .head hstep (.refl ..), rfl, fun _ => .inl hsw, fun _ => failedSafely_finish hne hframe hobs⟩

/-- A footer that cannot be written, and an output that cannot be deleted either: the error gets through. -/
theorem finish_failedSafely_cleanup_fails :
    ∃ s s' st, run (react (.small false false)) (single (.small false false) [⟨[1], [10]⟩])
        [.gc {}, .gc {}, .gc {}] = some s ∧ Reaches (react (.small false false))
        (.gc ∘ fun _ => { finish := fun _ => some "no space", delete := fun _ => some "busy" }) s s' ∧
      s'.job.phase = .finished st ∧ FailedSafely (.small false false) s.world s'.world st := by
  have hs : (run (react (.small false false)) (single (.small false false) [⟨[1], [10]⟩])
      [.gc {}, .gc {}, .gc {}]).map (fun s => (s.job.phase,
        decide (OutputFails { finish := fun _ => some "no space", delete := fun _ => some "busy" } s),
        decide (Swallowed { finish := fun _ => some "no space", delete := fun _ => some "busy" } s))) =
      some (.install, true, false) := by decide +kernel
  obtain ⟨s, hrun, hs⟩ := Option.map_eq_some_iff.1 hs
  simp only [Prod.mk.injEq, decide_eq_true_eq, decide_eq_false_iff_not] at hs
  obtain ⟨s', st, hr, hst, hiff⟩ := finish_failedSafely_iff
    (fun _ => { finish := fun _ => some "no space", delete := fun _ => some "busy" })
    (jobStart_single (by decide)) (by decide +kernel) hrun hs.1 (.inl hs.2.1)
  exact ⟨s, s', st, hrun, hr, hst, hiff.2 (.inl hs.2.2)⟩

/-- The footer of the only output cannot be written. The output is deleted, the job reports success, the key is
sent to the deleted file and its old file is obsolete. -/
theorem failed_output_made_visible :
    JobStart (.small false false) (single (.small false false) [⟨[1], [10]⟩]) ∧
      (run (react (.small false false)) (single (.small false false) [⟨[1], [10]⟩])
        [.gc {}, .gc {}, .gc {}]).map (fun s => (s.job.phase, decide (OutputFails { finish := fun _ => some "no space" } s),
          s.world.visible (.small false false) [1])) = some (.install, true, .value [10]) ∧
      (run (react (.small false false)) (single (.small false false) [⟨[1], [10]⟩])
        [.gc {}, .gc {}, .gc {}, .gc { finish := fun _ => some "no space" }, .gc {}, .gc {}, .gc {}]).map
        (fun s => (s.job.phase, s.world.db.get [1], s.world.storage.obsoleteFiles,
          s.world.visible (.small false false) [1])) =
        some (.finished .ok, some (.blobIndex ⟨2, ⟨8, 13⟩⟩), [(1, 2)], .missing) :=
  ⟨jobStart_single (by decide), by decide +kernel, by decide +kernel⟩

end ValueSep.DiffKV.GcState
