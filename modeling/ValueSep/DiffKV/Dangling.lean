import ValueSep.DiffKV.System

/-!
# No index becomes visible after its file is gone

An index is in flight from the moment its record is appended until it is written to the base DB. What can take
its file away in between is a job that picked the file: the file may have been finished, registered as kNormal
and picked while the index was in flight. In every run whose picks leave the files of indexes in flight alone,
an index names, when it becomes visible, a file that is building or registered and not obsolete
(`visible_index_live`).
-/

namespace ValueSep.DiffKV

open World GcState
open List Option BlobFileBuilder GcJob BlobFileMeta Prod

/-! ### One job among others -/

/-- The files a job has a claim on: its inputs and the outputs it writes itself. -/
def GcJob.claimed (j : GcJob) : List Nat := j.inputs ++ j.openBuilders.map number

/-- Whether the job is past `InstallOutputBlobFiles`. -/
def GcJob.installed (j : GcJob) : Bool :=
  match j.phase with
  | .rewrite _ | .deleteInputs | .finished _ => true
  | _ => false

/-- The states of the files of a running job. -/
structure JobOk (o : Options) (w : World) (j : GcJob) : Prop where
  inputs : ∀ n ∈ j.inputs, ∃ m, w.storage.findFile n = some m ∧ m.state = .beingGC
  separate : relocatesThroughBuilder o = true → j.openBuilders = []
  closed : j.phase = .start ∨ j.phase = .install → j.current = none
  outputs : j.outputs ⊆ j.openBuilders.map number
  unborn : j.installed = false → OutputsWf w j.openBuilders ∧ j.outputs = [] ∧
    ∀ b ∈ j.rewriteBatches, b.newIndex.fileNumber ∈ j.openBuilders.map number
  pending : j.installed = true → ∀ n ∈ j.openBuilders.map number,
    ∃ m, w.storage.findFile n = some m ∧ m.state = .pendingGC
  batches : ∀ bs, j.phase = .rewrite bs →
    ∀ b ∈ bs, b.newIndex.fileNumber ∈ j.openBuilders.map number

section

variable {o : Options} {env : GcEnv} {w w' : World} {j j' : GcJob} {s : GcState}

variable {n : Nat} {s' : GcState} {r : GcRecord}

/-- A file of the job is registered in a state no other actor leaves it in, or an output not yet installed. -/
theorem JobOk.claimed_cases (h : JobOk o w j) (hn : n ∈ j.claimed) :
    (∃ m, w.storage.findFile n = some m ∧ (m.state = .beingGC ∨ m.state = .pendingGC)) ∨
      ∃ bd ∈ j.openBuilders, bd.number = n ∧ OutputsWf w j.openBuilders := by
  rcases mem_append.1 hn with hn | hn
  · obtain ⟨m, hm, hs⟩ := h.inputs n hn
    exact .inl ⟨m, hm, .inl hs⟩
  · cases hi : j.installed with
    | true =>
      obtain ⟨m, hm, hs⟩ := h.pending hi n hn
      exact .inl ⟨m, hm, .inr hs⟩
    | false =>
      obtain ⟨bd, hbd, hbn⟩ := mem_map.1 hn
      exact .inr ⟨bd, hbd, hbn, (h.unborn hi).1⟩

section
variable (h : JobOk o w j) (hok : WorldOk w)
include h hok

theorem JobOk.not_owned (hn : n ∈ j.claimed) (b : Nat) : n ∉ w.owned b := by
  rcases h.claimed_cases hn with ⟨m, hm, -⟩ | ⟨bd, hbd, rfl, ho⟩
  · exact hok.not_owned (by rw [hm]; rfl) b
  · exact (ho.own bd hbd).2.2.2 b

theorem JobOk.lt_next (hn : n ∈ j.claimed) : n < w.nextFileNumber := by
  rcases h.claimed_cases hn with ⟨m, hm, -⟩ | ⟨bd, hbd, rfl, ho⟩
  · exact hok.lt_next (by rw [hm]; rfl)
  · exact FgWf.lt_of_disk hok.fgWf (ho.own bd hbd).1

theorem JobOk.touch {C : List Nat} (ht : Touch C w w') (hC : j.claimed.Disjoint C) : JobOk o w' j := by
  have hfind : ∀ n ∈ j.claimed, w'.storage.findFile n = w.storage.findFile n := fun n hn =>
    ht.find n (h.lt_next hok hn) (hC hn) (h.not_owned hok hn)
  refine ⟨fun n hn => ?_, h.separate, h.closed, h.outputs, fun hi => ?_, fun hi n hn => ?_, h.batches⟩
  · rw [hfind n (mem_append_left _ hn)]; exact h.inputs n hn
  · obtain ⟨ho, hrest⟩ := h.unborn hi
    refine ⟨⟨ho.nodup, fun bd hbd => ?_⟩, hrest⟩
    have hmem : bd.number ∈ j.claimed := mem_append_right _ (mem_map_of_mem hbd)
    have hlt := h.lt_next hok hmem
    obtain ⟨hd, hf, hb, hown⟩ := ho.own bd hbd
    refine ⟨ht.disk _ (hC hmem) hd, (hfind _ hmem).trans hf, ?_, fun b hb' => ?_⟩
    · by_contra hne
      rw [Bool.not_eq_false] at hne
      rcases ht.building_new _ hne with hb' | hle
      · rw [hb] at hb'; cases hb'
      · omega
    · rcases ht.owned_new b _ hb' with hb' | hle
      · exact hown b hb'
      · omega
  · rw [hfind n (mem_append_right _ hn)]; exact h.pending hi n hn

end

/-- What a part of a step of job `j` has done. -/
structure Progress (w : World) (j : GcJob) (s : GcState) : Prop where
  ok : WorldOk s.world
  touch : Touch j.claimed w s.world
  claimed : ∀ n ∈ s.job.claimed, n ∈ j.claimed ∨ w.nextFileNumber ≤ n
  db : s.world.db = w.db ∨
    ∃ k i, s.world.db = w.db.write k (some (.blobIndex i)) .gc ∧ s.world.live i.fileNumber = true
  obsolete : s.world.storage.obsoleteFiles = w.storage.obsoleteFiles ∨
    j.phase = .deleteInputs ∧ s.world.db = w.db ∧
      s.world.storage.obsoleteFiles = w.storage.obsoleteFiles ++ j.inputs.map fun n => (n, w.db.latestSequence)

/-- A whole step: the job has ended, or goes on with its files in order. -/
structure JobStep (o : Options) (w : World) (j : GcJob) (s : GcState) : Prop extends Progress w j s where
  job : (∃ st, s.job.phase = .finished st) ∨ JobOk o s.world s.job
  relocating : ∀ n, s.job.relocating = some n → ∃ b, n ∈ s.world.owned b

theorem JobStep.idle (h : Progress w j s) (hj : JobOk o s.world s.job) (hr : s.job.relocating = none) :
    JobStep o w j s :=
  ⟨h, .inr hj, by simp [hr]⟩

theorem Progress.refl (hok : WorldOk w) (hc : j'.claimed = j.claimed) : Progress w j ⟨w, j'⟩ :=
  ⟨hok, .refl _ _, fun _ h => .inl (hc ▸ h), .inl rfl, .inl rfl⟩

theorem Progress.finish (h : Progress w j s) (st : Status)
    (hfiles : ∀ n ∈ s.job.inputs ++ s.job.outputs, (s.world.storage.findFile n).isSome ∧ n ∈ j.claimed) :
    JobStep o w j (s.finish st) := by
  have hreg : ∀ n ∈ s.job.inputs ++ s.job.outputs, ∃ m, s.world.storage.findFile n = some m ∧
      (m.fileStateTransit .gcCompleted).isObsolete = m.isObsolete := by
    intro n hn
    obtain ⟨m, hm⟩ := isSome_iff_exists.1 (hfiles n hn).1
    exact ⟨m, hm, isObsolete_gcCompleted m⟩
  obtain ⟨hok, ht⟩ := h.ok.transit (fun m => by
    cases hm : m.state <;> simp [fileStateTransit, FileState.transit, hm]) hreg
  have hr := s.released_finish st
  refine ⟨⟨hok, h.touch.trans (ht.mono fun n hn => (hfiles n hn).2), h.claimed, ?_, ?_⟩, .inl ⟨st, rfl⟩, fun _ hn => by cases hn⟩
  · rcases h.db with hdb | ⟨k, i, hdb, hl⟩
    · exact .inl (hr.db.trans hdb)
    · refine .inr ⟨k, i, hr.db.trans hdb, ?_⟩
      rw [live_iff] at hl ⊢
      obtain ⟨f, hf, hsame⟩ := hr.find i.fileNumber
      rw [hr.findBuildingFile, hf]
      refine hl.imp_right ?_
      rintro ⟨m, hm, hmo⟩
      exact ⟨f m, by rw [hm]; rfl, (hsame m).2.trans hmo⟩
  · rw [hr.obsolete, hr.db]; exact h.obsolete

theorem numbers_rollOver {st : Status} (h : s.rollOver o env = some (s', st)) :
    ∀ n ∈ s'.job.openBuilders.map number, n ∈ s.job.openBuilders.map number ∨ s.world.nextFileNumber ≤ n := by
  unfold rollOver at h
  dsimp only at h
  split at h
  · cases h; exact fun n hn => .inl hn
  split at h
  · cases h
  split at h
  · cases h
    intro n hn
    simp only [openBuilders, toList_none, append_nil] at hn ⊢
    exact .inl hn
  · cases h
    intro n hn
    simp only [openBuilders, toList_some, map_append, mem_append, map_singleton,
      mem_singleton] at hn ⊢
    rcases hn with hn | rfl
    · exact .inl hn
    · right
      unfold newFile
      split <;> exact le_rfl

theorem numbers_appendOutput (h : s.appendOutput o env r = some s') :
    s'.job.openBuilders.map number = s.job.openBuilders.map number := by
  simp only [appendOutput, bind_eq_some_iff, map_eq_some_iff] at h
  obtain ⟨bd, hbd, file, -, rfl⟩ := h
  rcases hadd : bd.add o false env.append file r.record with ⟨file', bd', handle⟩
  obtain ⟨-, hnum, -⟩ := add_spec hadd
  simp [openBuilders, hbd, hnum]

theorem JobOk.running (h : JobOk o w j) (hi : j.installed = false) (hin : j'.inputs = j.inputs)
    (hopen : j'.openBuilders = j.openBuilders) (hout : j'.outputs = j.outputs)
    (hb : j'.rewriteBatches = j.rewriteBatches) (hi' : j'.installed = false)
    (hclosed : j'.phase = .start ∨ j'.phase = .install → j'.current = none) : JobOk o w j' where
  inputs := hin ▸ h.inputs
  separate hsep := hopen.trans (h.separate hsep)
  closed := hclosed
  outputs := by rw [hout, hopen]; exact h.outputs
  unborn _ := by rw [hopen, hout, hb]; exact h.unborn hi
  pending h := by rw [hi'] at h; cases h
  batches bs hbs := by simp [installed, hbs] at hi'

theorem JobOk.registered (h : JobOk o w j) (hn : n ∈ j.inputs) : (w.storage.findFile n).isSome ∧ n ∈ j.claimed := by
  obtain ⟨m, hm, -⟩ := h.inputs n hn
  exact ⟨by rw [hm]; rfl, mem_append_left _ hn⟩

theorem JobOk.giveUp (h : JobOk o w j) (hok : WorldOk w) (hi : j.installed = false) (st : Status) :
    JobStep o w j (finish ⟨w, j⟩ st) := by
  refine (Progress.refl hok rfl).finish st fun n hn => ?_
  rw [(h.unborn hi).2.1, append_nil] at hn
  exact h.registered hn

theorem Progress.quiet (h : Progress w j s) (hw : FgWf s'.world) (hq : Quiet s.world s'.world)
    (hfg : s'.world.fg = s.world.fg) (hin : s'.job.inputs = s.job.inputs) (hnum : ∀ n ∈ s'.job.openBuilders.map number,
      n ∈ s.job.openBuilders.map number ∨ s.world.nextFileNumber ≤ n) : Progress w j s' := by
  have hf : FgBuilding s'.world := fun b n hn =>
    hq.building n (h.ok.building b n (by simpa only [owned, hfg] using hn))
  obtain ⟨hok, ht⟩ := h.ok.quiet hw hf hq
  refine ⟨hok, h.touch.trans (ht.mono (nil_subset _)), fun n hn => ?_, ?_, ?_⟩
  · rcases mem_append.1 hn with hn | hn
    · exact h.claimed n (mem_append_left _ (hin ▸ hn))
    · rcases hnum n hn with hn | hn
      · exact h.claimed n (mem_append_right _ hn)
      · exact .inr (h.touch.next_le.trans hn)
  · rcases h.db with hdb | ⟨k, i, hdb, hl⟩
    · exact .inl (hq.db.trans hdb)
    · exact .inr ⟨k, i, hq.db.trans hdb, ht.live _ (not_mem_nil) hl⟩
  · rw [hq.obsolete, hq.db]; exact h.obsolete

theorem JobOk.runRecord {todo : List GcRecord} (h : JobOk o w j) (hok : WorldOk w)
    (hi : j.installed = false) (hadd : relocatesThroughBuilder o = true → env.add.addBuildingFile = none)
    (hs : runRecord o env ⟨w, j⟩ r todo = some s) : JobStep o w j s := by
  unfold GcState.runRecord at hs
  split at hs
  · cases hs; exact h.giveUp hok hi _
  split at hs
  next => cases hs; exact h.giveUp hok hi _
  next =>
    cases hs
    exact .idle (.refl hok rfl) (h.running hi rfl rfl rfl rfl rfl (by simp)) rfl
  next =>
    split at hs
    next hrel =>
      simp only [map_eq_some_iff, Prod.exists] at hs
      obtain ⟨w₁, st, wb, hfg, rfl⟩ := hs
      have hsep : o.sepBeforeFlush = true := (Bool.and_eq_true _ _ ▸ hrel).1
      obtain ⟨hok₁, ht, hdb, hobs, hown⟩ := hok.foregroundAdd hsep (hadd hrel) hfg
      have hj := h.touch hok ht (disjoint_nil_right _)
      have hp : ∀ phase, Progress w j ⟨w₁, { j with live := r :: j.live, phase, status := .ok }⟩ := fun phase =>
        ⟨hok₁, ht.mono (nil_subset _), fun n hn => .inl hn, .inl hdb, .inl hobs⟩
      by_cases hst : st = .ok
      · simp only [if_pos hst]
        refine ⟨hp _, .inr (hj.running hi rfl rfl rfl rfl rfl (by simp)), fun n hn => ?_⟩
        cases wb with
        | none => cases hn
        | some i => cases hn; exact hown i rfl
      · simp only [if_neg hst]
        exact .idle (hp _) (hj.running hi rfl rfl rfl rfl rfl (by simp)) rfl
    next hrel =>
      have hrel : relocatesThroughBuilder o = false := by simpa using hrel
      simp only [bind_eq_some_iff, Prod.exists] at hs
      obtain ⟨s₁, st, hroll, hs⟩ := hs
      obtain ⟨ho, hout, hbs⟩ := h.unborn hi
      obtain ⟨hw₁, hq₁, ho₁, hle₁, hj₁, hb₁, hfg₁⟩ :=
        rollOver_spec hok.fgWf ho hroll
      have hp₀ : Progress w j ⟨w, { j with live := r :: j.live }⟩ := .refl hok rfl
      have hp₁ := hp₀.quiet hw₁ hq₁ hfg₁ hj₁.inputs (numbers_rollOver hroll)
      have hin : ∀ n ∈ j.inputs, ∃ m, s₁.world.storage.findFile n = some m ∧ m.state = .beingGC := fun n hn => by
        rw [hq₁.find]; exact h.inputs n hn
      split at hs
      · cases hs
        refine hp₁.finish st fun n hn => ?_
        rw [hj₁.outputs, hj₁.inputs, hout, append_nil] at hn
        obtain ⟨m, hm, -⟩ := hin n hn
        exact ⟨by rw [hm]; rfl, mem_append_left _ hn⟩
      · obtain ⟨s₂, happ, rfl⟩ := map_eq_some_iff.1 hs
        obtain ⟨hw₂, hq₂, ho₂, hle₂, hj₂, hfg₂, b, hb₂, -, -, bd, hbd, hnum, -⟩ := appendOutput_spec hw₁ ho₁ happ
        have hnums := numbers_appendOutput happ
        have hp₂ := hp₁.quiet hw₂ hq₂ hfg₂ hj₂.inputs fun n hn => .inl (hnums ▸ hn)
        refine .idle ⟨hp₂.ok, hp₂.touch, hp₂.claimed, hp₂.db, hp₂.obsolete⟩
          ⟨?_, ?_, by simp, ?_, ?_, by simp [installed], by simp⟩ rfl
        · intro n hn
          rw [hq₂.find]
          exact hin n (hj₁.inputs ▸ hj₂.inputs ▸ hn)
        · intro h; rw [hrel] at h; cases h
        · show s₂.job.outputs ⊆ _
          rw [hj₂.outputs, hj₁.outputs, hout]; exact nil_subset _
        · refine fun _ => ⟨ho₂, (hj₂.outputs.trans hj₁.outputs).trans hout, fun b' hb' => ?_⟩
          have hb' : b' ∈ s₂.job.rewriteBatches := hb'
          rw [hb₂, hb₁, mem_append, mem_singleton] at hb'
          rcases hb' with hb' | rfl
          · obtain ⟨bd₀, hbd₀, hn₀⟩ := mem_map.1 (hbs b' hb')
            obtain ⟨bd₁, hbd₁, hn₁, -⟩ := (hle₁.trans hle₂) bd₀ hbd₀
            exact hn₀ ▸ hn₁ ▸ mem_map_of_mem hbd₁
          · exact hnum ▸ mem_map_of_mem hbd

theorem JobOk.install (h : JobOk o w j) (hok : WorldOk w) (hp : j.phase = .install)
    (hkept : OutputFails env ⟨w, j⟩ → ¬ CleanupOk env ⟨w, j⟩) (hs : step o env ⟨w, j⟩ = some s) : JobStep o w j s := by
  have hi : j.installed = false := by simp [installed, hp]
  obtain ⟨ho, hout, hbs⟩ := h.unborn hi
  have hopen : j.openBuilders = j.builders := by simp [openBuilders, h.closed (.inr hp)]
  rw [hopen] at ho hbs
  have hgo : ∀ {w₁ : World} {st : Status}, Progress w j ⟨w₁, j⟩ →
      (∀ n ∈ j.inputs, w₁.storage.findFile n = w.storage.findFile n) →
      JobStep o w j (finish ⟨w₁, j⟩ st) := by
    intro w₁ st hp hfind
    refine hp.finish st fun n hn => ?_
    rw [hout, append_nil] at hn
    rw [hfind n hn]
    exact h.registered hn
  have hspec : Installed o env ⟨w, j⟩ _ := installOutputBlobFiles_spec hok.fgWf ho
  simp only [GcState.step, hp] at hs
  generalize installOutputBlobFiles o env ⟨w, j⟩ = res at hspec hs
  cases hspec with
  | ok w₁ fs hfail hw hq hfg hlog hadd =>
    cases hs
    have hp₁ : Progress w j ⟨w₁, j⟩ := (Progress.refl hok rfl).quiet hw hq hfg rfl fun _ hn => .inl hn
    have ho₁ := ho.quiet hok.fgWf hq
    have hnums : (j.builders.map (outputMeta o w₁)).map fileNumber =
        j.builders.map BlobFileBuilder.number := by rw [List.map_map]; rfl
    obtain ⟨hok₂, ht₂⟩ := hp₁.ok.register hlog.next hadd fun f hf => by
      obtain ⟨bd, hbd, rfl⟩ := mem_map.1 hf
      obtain ⟨hd, -, hb, hown⟩ := ho₁.own bd hbd
      exact ⟨FgWf.lt_of_disk hw hd, hb, hown⟩
    rw [hnums] at ht₂
    have hsub : j.builders.map number ⊆ j.claimed := fun n hn =>
      mem_append_right _ (by rw [hopen]; exact hn)
    refine .idle ⟨hok₂, hp₁.touch.trans (ht₂.mono hsub), fun n hn => .inl hn, .inl hq.db,
      .inl (hadd.obsolete.trans hq.obsolete)⟩
      ⟨fun n hn => ?_, h.separate, by simp [setPhase], ?_, by simp [setPhase, installed], ?_, ?_⟩ rfl
    · obtain ⟨m, hm, hms⟩ := h.inputs n hn
      refine ⟨m, ?_, hms⟩
      show fs.storage.findFile n = some m
      rw [hadd.find, hq.find, hm]; rfl
    · show j.builders.map number ⊆ j.openBuilders.map number
      rw [hopen]; exact List.Subset.refl _
    · intro _ n hn
      have hn : n ∈ j.openBuilders.map number := hn
      rw [hopen] at hn
      obtain ⟨bd, hbd, rfl⟩ := mem_map.1 hn
      obtain ⟨m, hm⟩ : ∃ m, (j.builders.map (outputMeta o w₁)).find? (fun f => f.fileNumber == bd.number) = some m :=
        isSome_iff_exists.1 (find?_isSome.2 ⟨_, mem_map_of_mem hbd, beq_self_eq_true _⟩)
      refine ⟨m, ?_, ?_⟩
      · show fs.storage.findFile bd.number = some m
        rw [hadd.find, (ho₁.own bd hbd).2.1, hm]; rfl
      · obtain ⟨bd', -, rfl⟩ := mem_map.1 (mem_of_find?_eq_some hm)
        rfl
    · rintro _ ⟨⟩ b hb
      show b.newIndex.fileNumber ∈ j.openBuilders.map number
      rw [hopen]; exact hbs b hb
  | batchFailed w₁ fs st hfail hw hq hfg hun hst =>
    have hp₁ : Progress w j ⟨w₁, j⟩ := (Progress.refl hok rfl).quiet hw hq hfg rfl fun _ hn => .inl hn
    obtain ⟨hok₂, ht₂⟩ := hp₁.ok.setFileSet hun.next hun.storage
    have hp₂ : Progress w j ⟨{ w₁ with fileSet := fs }, j⟩ :=
      ⟨hok₂, hp₁.touch.trans (ht₂.mono (nil_subset _)), fun _ hn => .inl hn, .inl hq.db,
        .inl (by show fs.storage.obsoleteFiles = _; rw [hun.storage, hq.obsolete])⟩
    split at hs
    next heq => exact absurd (mk.inj heq).2 hst
    next heq =>
      obtain ⟨rfl, rfl⟩ := mk.inj heq
      cases hs
      exact hgo hp₂ fun n _ => by show fs.storage.findFile n = _; rw [hun.storage, hq.find]
  | outputFailed w₁ disk st hfail hw hq hfg hdisk hgone hst =>
    have hp₁ : Progress w j ⟨w₁, j⟩ := (Progress.refl hok rfl).quiet hw hq hfg rfl fun _ hn => .inl hn
    have ho₁ := ho.quiet hok.fgWf hq
    obtain ⟨hok₂, ht₂⟩ := hp₁.ok.dropFiles hdisk hgone fun b n hn hmem => by
      obtain ⟨bd, hbd, rfl⟩ := mem_map.1 hmem
      exact (ho₁.own bd hbd).2.2.2 b hn
    have hp₂ : Progress w j ⟨{ w₁ with disk }, j⟩ :=
      ⟨hok₂, hp₁.touch.trans (ht₂.mono fun n hn => mem_append_right _ (by rw [hopen]; exact hn)),
        fun _ hn => .inl hn, .inl hq.db, .inl hq.obsolete⟩
    split at hs
    next heq => exact absurd (hst.1 (mk.inj heq).2) (hkept hfail)
    next heq =>
      obtain ⟨rfl, rfl⟩ := mk.inj heq
      cases hs
      exact hgo hp₂ fun n _ => hq.find n

theorem Progress.write (hok : WorldOk w) (hc : j'.claimed = j.claimed) (k : Slice) {i : BlobIndex}
    (hl : w.live i.fileNumber = true) :
    Progress w j ⟨{ w with db := w.db.write k (some (.blobIndex i)) .gc }, j'⟩ := by
  obtain ⟨hok', ht⟩ := hok.setDb (w.db.write k (some (.blobIndex i)) .gc)
  exact ⟨hok', ht.mono (nil_subset _), fun _ hn => .inl (hc ▸ hn), .inr ⟨k, i, rfl, hl⟩, .inl rfl⟩

section
variable (h : JobOk o w j)
include h

theorem JobOk.setDb (hok : WorldOk w) (db : BaseDb) : JobOk o { w with db } j :=
  h.touch hok (hok.setDb db).2 (disjoint_nil_right _)

theorem JobOk.relocate {wb : Option BlobIndex} {todo : List GcRecord}
    (hok : WorldOk w) (hp : j.phase = .relocate r wb todo) (hlive : ∀ n, j.relocating = some n → w.live n = true)
    (hs : step o env ⟨w, j⟩ = some s) : JobStep o w j s := by
  have hi : j.installed = false := by simp [installed, hp]
  simp only [GcState.step, hp, writeBatch] at hs
  split at hs
  next hf =>
    cases wb with
    | none =>
      cases hs
      exact .idle (.refl hok rfl) (h.running hi rfl rfl rfl rfl rfl (by simp)) rfl
    | some i =>
      cases hs
      have hl : w.live i.fileNumber = true := hlive _ (by simp [relocating, hp])
      have hp' : Progress w j ⟨{ w with db := w.db.write r.record.key (some (.blobIndex i)) .gc },
        { j with phase := .run todo, status := .ok }⟩ := .write hok (by rfl) _ hl
      exact .idle hp' ((h.setDb hok _).running hi rfl rfl rfl rfl rfl (by simp)) rfl
  next hf =>
    cases hs
    exact .idle (.refl hok rfl) (h.running hi rfl rfl rfl rfl rfl (by simp)) rfl

theorem JobOk.proceed (hi : j.installed = true) {p : GcPhase} (hinst : ({ j with phase := p } : GcJob).installed = true)
    (hbs : ∀ bs, p = .rewrite bs → ∀ b ∈ bs, b.newIndex.fileNumber ∈ j.openBuilders.map number) :
    JobOk o w { j with phase := p } where
  inputs := h.inputs
  separate := h.separate
  closed hp := by
    rcases hp with rfl | rfl <;> cases hinst
  outputs := h.outputs
  unborn hf := by rw [hinst] at hf; cases hf
  pending _ := h.pending hi
  batches := hbs

/-- Every file of an installed job is still registered when it lets go of them. -/
theorem JobOk.registered_installed (hi : j.installed = true) (hn : n ∈ j.inputs ++ j.outputs) :
    (w.storage.findFile n).isSome ∧ n ∈ j.claimed := by
  rcases mem_append.1 hn with hn | hn
  · exact h.registered hn
  · obtain ⟨m, hm, -⟩ := h.pending hi n (h.outputs hn)
    exact ⟨by rw [hm]; rfl, mem_append_right _ (h.outputs hn)⟩

theorem JobOk.giveUpInstalled (hok : WorldOk w) (hi : j.installed = true) (st : Status) :
    JobStep o w j (finish ⟨w, j⟩ st) :=
  (Progress.refl hok rfl).finish st fun _ hn => h.registered_installed hi hn

theorem JobOk.rewrite {bs : List RewriteBatch} (hok : WorldOk w) (hp : j.phase = .rewrite bs)
    (hs : step o env ⟨w, j⟩ = some s) : JobStep o w j s := by
  have hi : j.installed = true := by simp [installed, hp]
  cases bs with
  | nil =>
    simp only [GcState.step, hp] at hs
    cases hs
    exact .idle (.refl hok rfl) (h.proceed hi rfl (by simp)) rfl
  | cons b bs =>
    simp only [GcState.step, hp] at hs
    split at hs
    · cases hs; exact h.giveUpInstalled hok hi _
    split at hs
    · cases hs; exact h.giveUpInstalled hok hi _
    cases hw : env.dbWrite with
    | none =>
      simp only [writeBatch, hw, if_true] at hs
      cases hs
      have hmem := h.batches _ hp b (mem_cons_self ..)
      have hl : w.live b.newIndex.fileNumber = true := by
        obtain ⟨m, hm, hms⟩ := h.pending hi _ hmem
        exact live_iff.2 (.inr ⟨m, hm, by simp [isObsolete, hms]⟩)
      have hp' : Progress w j ⟨{ w with db := w.db.write b.key (some (.blobIndex b.newIndex)) .gc },
        { j with phase := .rewrite bs }⟩ := .write hok (by rfl) _ hl
      refine .idle hp' ((h.setDb hok _).proceed hi rfl ?_) rfl
      rintro _ ⟨⟩ b' hb'
      exact h.batches _ hp b' (mem_cons_of_mem _ hb')
    | some m =>
      simp only [writeBatch, hw, reduceCtorEq, if_false, Fault.status] at hs
      cases hs
      exact h.giveUpInstalled hok hi _

theorem JobOk.deleteInputs (hok : WorldOk w) (hp : j.phase = .deleteInputs)
    (hs : step o env ⟨w, j⟩ = some s) : JobStep o w j s := by
  have hi : j.installed = true := by simp [installed, hp]
  simp only [GcState.step, hp] at hs
  split at hs
  · cases hs; exact h.giveUpInstalled hok hi _
  cases hs
  simp only [deleteInputBlobFiles, logAndApply]
  have hcases := BlobFileSet.logAndApply_ofDeleted o.sepBeforeFlush env.manifest w.fileSet
    (j.inputs.map fun n => (n, w.db.latestSequence))
  generalize BlobFileSet.logAndApply .. = res at hcases
  obtain ⟨fs, st⟩ := res
  have hfst : (j.inputs.map fun n => (n, w.db.latestSequence)).map fst = j.inputs := by simp [Function.comp_def]
  rcases hcases with ⟨-, hun⟩ | ⟨-, hlog, hdel⟩
  · obtain ⟨hok', ht⟩ := hok.setFileSet hun.next hun.storage
    have hp' : Progress w j ⟨{ w with fileSet := fs }, j⟩ :=
      ⟨hok', ht.mono (nil_subset _), fun _ hn => .inl hn, .inl rfl,
        .inl (congrArg BlobStorage.obsoleteFiles hun.storage)⟩
    refine hp'.finish st fun n hn => ?_
    have hst : storage { w with fileSet := fs } = w.storage := hun.storage
    rw [hst]
    exact h.registered_installed hi hn
  · have hnodup := hlog.accepted.deleted
    obtain ⟨hok', ht⟩ := hok.markObsolete hlog.next hdel hnodup
    rw [hfst] at ht
    have hp' : Progress w j ⟨{ w with fileSet := fs }, j⟩ :=
      ⟨hok', ht.mono (subset_append_left ..), fun _ hn => .inl hn, .inl rfl, .inr ⟨hp, rfl, hdel.obsolete⟩⟩
    refine hp'.finish st fun n hn => ?_
    obtain ⟨hreg, hc⟩ := h.registered_installed hi hn
    refine ⟨?_, hc⟩
    rw [hdel.find]
    split <;> simp [hreg]

end

/-- What a step must not do: leave the file of a relocated record unregistered with the readers, or go on with
outputs that have failed. -/
def JobOrderly (o : Options) (env : GcEnv) (s : GcState) : Prop :=
  match s.job.phase with
  | .run (_ :: _) => relocatesThroughBuilder o = true → env.add.addBuildingFile = none
  | .install => OutputFails env s → ¬ CleanupOk env s
  | _ => True

instance (o : Options) (env : GcEnv) (s : GcState) : Decidable (JobOrderly o env s) := by
  unfold JobOrderly
  rcases s.job.phase with - | ⟨- | _⟩ | _ | _ | _ | _ | _ <;> infer_instance

theorem JobOk.step (h : JobOk o w j) (hok : WorldOk w) (hord : JobOrderly o env ⟨w, j⟩)
    (hlive : ∀ n, j.relocating = some n → w.live n = true) (hs : step o env ⟨w, j⟩ = some s) : JobStep o w j s := by
  cases hp : j.phase with
  | start =>
    have hi : j.installed = false := by simp [installed, hp]
    have hcur := h.closed (.inl hp)
    simp only [GcState.step, hp] at hs
    split at hs
    · cases hs
      cases hrel : relocatesThroughBuilder o with
      | false =>
        simp only [setPhase, Bool.false_eq_true, if_false]
        exact .idle (.refl hok rfl) (h.running hi rfl rfl rfl rfl rfl fun _ => hcur) rfl
      | true =>
        simp only [setPhase, if_true]
        refine .idle (.refl hok rfl)
          ⟨h.inputs, h.separate, by simp, h.outputs, by simp [installed], fun _ n hn => ?_, by simp⟩ rfl
        have hn : n ∈ j.openBuilders.map number := hn
        rw [h.separate hrel] at hn; cases hn
    · split at hs
      · cases hs; exact h.giveUp hok hi _
      · cases hs
        exact .idle (.refl hok rfl) (h.running hi rfl rfl rfl rfl rfl (by simp [setPhase])) rfl
  | run todo =>
    have hi : j.installed = false := by simp [installed, hp]
    cases todo with
    | nil =>
      simp only [GcState.step, hp] at hs
      split at hs
      · cases hs; exact h.giveUp hok hi _
      split at hs
      · cases hs; exact h.giveUp hok hi _
      cases hs
      have hclaimed : ∀ p, ({ j with builders := j.openBuilders, current := none, phase := p } : GcJob).claimed =
          j.claimed := fun p => by simp only [claimed, openBuilders, toList_none, append_nil]
      have hopen : ∀ p, ({ j with builders := j.openBuilders, current := none, phase := p } : GcJob).openBuilders =
          j.openBuilders := fun p => by simp only [openBuilders, toList_none, append_nil]
      cases hrel : relocatesThroughBuilder o with
      | false =>
        simp only [Bool.false_eq_true, if_false]
        exact .idle (.refl hok (hclaimed _)) (h.running hi rfl (hopen _) rfl rfl rfl fun _ => rfl) rfl
      | true =>
        simp only [if_true]
        refine .idle (.refl hok (hclaimed _)) ⟨h.inputs, fun _ => (hopen _).trans (h.separate hrel), fun _ => rfl, ?_,
          by simp [installed], fun _ n hn => ?_, by simp⟩ rfl
        · rw [hopen]; exact h.outputs
        · rw [hopen, h.separate hrel] at hn; cases hn
    | cons r todo =>
      simp only [JobOrderly, hp] at hord
      exact h.runRecord hok hi hord (by simpa only [GcState.step, hp] using hs)
  | relocate r wb todo => exact h.relocate hok hp hlive hs
  | install =>
    simp only [JobOrderly, hp] at hord
    exact h.install hok hp hord hs
  | rewrite bs => exact h.rewrite hok hp hs
  | deleteInputs => exact h.deleteInputs hok hp hs
  | finished st => simp [GcState.step, hp] at hs

theorem JobOk.state_claimed (h : JobOk o w j) (hn : n ∈ j.claimed) {m : BlobFileMeta}
    (hm : w.storage.findFile n = some m) : m.state = .beingGC ∨ m.state = .pendingGC := by
  rcases h.claimed_cases hn with ⟨m', hm', hs⟩ | ⟨bd, hbd, rfl, ho⟩
  · rw [hm] at hm'
    exact some.inj hm' ▸ hs
  · rw [(ho.own bd hbd).2.1] at hm
    cases hm

end

/-! ### All actors -/

/-- The jobs keep out of each other's files, and the file of an index in flight is live and no job's. -/
structure SysInv (o : Options) (s : System) : Prop where
  world : WorldOk s.world
  jobs : ∀ j ∈ s.jobs, JobOk o s.world j
  disjoint : s.jobs.Pairwise fun j j' => j.claimed.Disjoint j'.claimed
  inflight : ∀ n ∈ s.inflight, s.world.live n = true ∧ ∀ j ∈ s.jobs, n ∉ j.claimed

/-- A step that leaves the files of indexes in flight alone: no pick takes one of them, `AddBuildingFile` can
open the file of a new one, and a job whose output has failed ends. -/
def Orderly (o : Options) (s : System) : SysEvent → Prop
  | .putAdd f _ _ => f.addBuildingFile = none
  | .pick inputs _ _ => ∀ n ∈ inputs, n ∉ s.inflight
  | .gc n env => ∀ j ∈ s.jobs[n]?, JobOrderly o env ⟨s.world, j⟩
  | _ => True

instance (o : Options) (s : System) : (e : SysEvent) → Decidable (Orderly o s e)
  | .putAdd f _ _ => inferInstanceAs (Decidable (f.addBuildingFile = none))
  | .pick inputs _ _ => inferInstanceAs (Decidable (∀ n ∈ inputs, n ∉ s.inflight))
  | .gc n env => inferInstanceAs (Decidable (∀ j ∈ s.jobs[n]?, JobOrderly o env ⟨s.world, j⟩))
  | .putWrite .. | .delete _ | .sealSlot .. | .getSnapshot | .releaseSnapshot _ | .readOldest | .removeObsolete _ =>
    .isTrue trivial

section

variable {o : Options} {s s' : System}

theorem WorldOk.live_of_owned {w : World} (hok : WorldOk w) {b n : Nat} (hn : n ∈ w.owned b) : w.live n = true :=
  live_iff.2 (.inl (hok.building b n hn))

theorem SysInv.keepJobs {C : List Nat} (h : SysInv o s) (hok : WorldOk s'.world)
    (ht : Touch C s.world s'.world) (hjobs : s'.jobs = s.jobs) (hC : ∀ j ∈ s.jobs, j.claimed.Disjoint C)
    (hfly : ∀ n ∈ s'.inflight, n ∈ s.inflight ∧ n ∉ C ∨ ∃ b, n ∈ s'.world.owned b) : SysInv o s' := by
  have hj : ∀ j ∈ s'.jobs, JobOk o s'.world j := fun j hj => by
    rw [hjobs] at hj
    exact (h.jobs j hj).touch h.world ht (hC j hj)
  refine ⟨hok, hj, hjobs ▸ h.disjoint, fun n hn => ?_⟩
  rcases hfly n hn with ⟨hn, hnC⟩ | ⟨b, hb⟩
  · obtain ⟨hl, hno⟩ := h.inflight n hn
    exact ⟨ht.live n hnC hl, hjobs ▸ hno⟩
  · exact ⟨hok.live_of_owned hb, fun j hj' hc => (hj j hj').not_owned hok hc b hb⟩

/-- What a step writes to the base DB: at most one entry, and an index in it names a live file. -/
def WritesLive (w w' : World) : Prop :=
  w'.db = w.db ∨ ∃ k e by', w'.db = w.db.write k e by' ∧
    ∀ n, namedFile e = some n → w'.live n = true

/-- A file that is out of use for good. -/
structure Gone (s : System) (n : Nat) : Prop where
  lt : n < s.world.nextFileNumber
  dead : s.world.live n = false
  owned : ∀ b, n ∉ s.world.owned b
  claimed : ∀ j ∈ s.jobs, n ∉ j.claimed

variable {n : Nat}

theorem Gone.touch {C : List Nat} (h : Gone s n) (ht : Touch C s.world s'.world) (hC : n ∉ C)
    (hjobs : ∀ j' ∈ s'.jobs, n ∈ j'.claimed → ∃ j ∈ s.jobs, n ∈ j.claimed) : Gone s' n := by
  refine ⟨h.lt.trans_le ht.next_le, Bool.eq_false_iff.2 fun hl => ?_, fun b hb => ?_, fun j' hj' hc => ?_⟩
  · have hlive : s.world.live n = true := by
      rw [live_iff, ht.find n h.lt hC h.owned] at hl
      refine live_iff.2 (hl.imp_left fun hb => (ht.building_new n hb).resolve_right fun hle => ?_)
      exact absurd h.lt (by omega)
    rw [h.dead] at hlive; cases hlive
  · rcases ht.owned_new b n hb with hb | hle
    · exact h.owned b hb
    · exact absurd h.lt (by omega)
  · obtain ⟨j, hj, hc⟩ := hjobs j' hj' hc
    exact h.claimed j hj hc

/-- `DeleteInputBlobFiles` gives `p.1` the tag `p.2` in this step. -/
def Tags (s : System) (e : SysEvent) (p : Nat × SequenceNumber) : Prop :=
  ∃ n env j, e = .gc n env ∧ s.jobs[n]? = some j ∧ j.phase = .deleteInputs ∧ p.1 ∈ j.inputs ∧
    p.2 = s.world.db.latestSequence

/-- What one step does. -/
structure SysStep (o : Options) (s : System) (e : SysEvent) (s' : System) : Prop where
  inv : SysInv o s'
  writes : WritesLive s.world s'.world
  gone : ∀ n, Gone s n → Gone s' n
  tags : ∀ p ∈ s'.world.storage.obsoleteFiles,
    p ∈ s.world.storage.obsoleteFiles ∨ Tags s e p ∧ s'.world.db = s.world.db

theorem SysInv.quiet {e : SysEvent} (h : SysInv o s) (hok : WorldOk s'.world) (ht : Touch [] s.world s'.world)
    (hjobs : s'.jobs = s.jobs) (hfly : ∀ n ∈ s'.inflight, n ∈ s.inflight ∨ ∃ b, n ∈ s'.world.owned b)
    (hw : WritesLive s.world s'.world)
    (hobs : s'.world.storage.obsoleteFiles = s.world.storage.obsoleteFiles) : SysStep o s e s' where
  inv := h.keepJobs hok ht hjobs (fun _ _ => disjoint_nil_right _) fun n hn =>
    (hfly n hn).imp_left fun hn => ⟨hn, not_mem_nil⟩
  writes := hw
  gone _ hn := hn.touch ht not_mem_nil fun j hj hc => ⟨j, hjobs ▸ hj, hc⟩
  tags _ hp := .inl (hobs ▸ hp)

theorem SysInv.putAdd {f : AddFaults} {k v : Slice} (h : SysInv o s) (hord : Orderly o s (.putAdd f k v))
    (hs : s.step o (.putAdd f k v) = some s') : SysStep o s (.putAdd f k v) s' := by
  simp only [System.step, map_eq_some_iff, Prod.exists] at hs
  obtain ⟨w, e, hput, rfl⟩ := hs
  obtain ⟨hok, ht, hdb, hobs, hown⟩ := h.world.putEntry hord hput
  refine h.quiet hok ht rfl (fun n hn => ?_) (.inl hdb) hobs
  simp only [System.inflight, filterMap_append, mem_append] at hn
  rcases hn with (hn | hn) | hn
  · exact .inl (mem_append_left _ hn)
  · obtain ⟨p, hp, hn⟩ := mem_filterMap.1 hn
    rw [mem_singleton.1 hp] at hn
    exact .inr (hown n hn)
  · exact .inl (mem_append_right _ hn)

theorem SysInv.putWrite {fault : Fault} (h : SysInv o s) (hs : s.step o (.putWrite n fault) = some s') :
    SysStep o s (.putWrite n fault) s' := by
  simp only [System.step, map_eq_some_iff, Prod.exists] at hs
  obtain ⟨k, v, e, hput, rfl⟩ := hs
  have hfly : ∀ n' ∈ (s.puts.eraseIdx n).filterMap (fun p => namedFile p.2.2) ++ s.jobs.filterMap relocating,
      n' ∈ s.inflight := by
    intro n' hn'
    rcases mem_append.1 hn' with hn' | hn'
    · exact mem_append_left _ (((eraseIdx_sublist ..).filterMap _).subset hn')
    · exact mem_append_right _ hn'
  split
  · cases e with
    | none => exact h.quiet h.world (.refl _ _) rfl (fun n' hn' => .inl (hfly n' hn')) (.inl rfl) rfl
    | some e =>
      obtain ⟨hok, ht⟩ := h.world.setDb (s.world.db.write k (some e) .user)
      refine h.quiet hok ht rfl (fun n' hn' => .inl (hfly n' hn')) (.inr ⟨k, some e, .user, rfl, fun n' hn' => ?_⟩) rfl
      exact (h.inflight n' (mem_append_left _ (mem_filterMap.2 ⟨_, mem_of_getElem? hput, hn'⟩))).1
  · exact h.quiet h.world (.refl _ _) rfl (fun n' hn' => .inl (hfly n' hn')) (.inl rfl) rfl

theorem SysInv.sealSlot {b : Nat} {f : AddFaults} (h : SysInv o s) (hs : s.step o (.sealSlot b f) = some s') :
    SysStep o s (.sealSlot b f) s' := by
  simp only [System.step] at hs
  split at hs
  next hsep =>
    obtain ⟨w, hflush, rfl⟩ := map_eq_some_iff.1 hs
    obtain ⟨hok, ht, hdb, hobs⟩ := h.world.flushSlot hsep hflush
    exact h.quiet hok ht rfl (fun n hn => .inl hn) (.inl hdb) hobs
  next =>
    cases hs
    exact h.quiet h.world (.refl _ _) rfl (fun n hn => .inl hn) (.inl rfl) rfl

theorem normal_of_pickable {w : World} (h : pickable o w n = true) :
    ∃ m, w.storage.findFile n = some m ∧ m.state = .normal := by
  unfold pickable at h
  split at h
  next m hm => exact ⟨m, hm, of_decide_eq_true (Bool.and_eq_true_iff.1 h).1⟩
  next => cases h

section
variable (h : SysInv o s)
include h

theorem SysInv.pick {inputs : List Nat} {records : List GcRecord} {iterStatus : Status}
    (hord : Orderly o s (.pick inputs records iterStatus)) (hs : s.step o (.pick inputs records iterStatus) = some s') :
    SysStep o s (.pick inputs records iterStatus) s' := by
  obtain ⟨hguard, ⟨⟩⟩ := Option.ite_none_right_eq_some.1 hs
  have hnormal : ∀ n ∈ inputs, ∃ m, s.world.storage.findFile n = some m ∧ m.state = .normal := fun n hn =>
    normal_of_pickable (hguard.2.2 n hn)
  obtain ⟨hok, ht⟩ := h.world.transit (e := .gcBegin) (fun _ => rfl) fun n hn => by
    obtain ⟨m, hm, hst⟩ := hnormal n hn
    exact ⟨m, hm, by simp [isObsolete, fileStateTransit, FileState.transit, hst]⟩
  -- a file that some job has a claim on is not kNormal
  have hdis : ∀ j ∈ s.jobs, j.claimed.Disjoint inputs := fun j hj n hc hn => by
    obtain ⟨m, hm, hst⟩ := hnormal n hn
    rcases (h.jobs j hj).state_claimed hc hm with hst' | hst' <;> rw [hst] at hst' <;> cases hst'
  have hclaimed : (GcJob.create inputs records iterStatus).claimed = inputs := by
    simp [GcJob.claimed, GcJob.create, GcJob.openBuilders]
  have hobs : (s.world.transitFiles .gcBegin inputs).storage.obsoleteFiles = s.world.storage.obsoleteFiles :=
    (BlobStorage.foldl_updateFile_frame ..).2
  refine ⟨⟨hok, forall_mem_append.2 ⟨fun j hj => (h.jobs j hj).touch h.world ht (hdis j hj), forall_mem_singleton.2 ?_⟩,
    pairwise_append.2 ⟨h.disjoint, pairwise_singleton .., fun j hj => forall_mem_singleton.2 ?_⟩, fun n hn => ?_⟩,
    .inl rfl, fun n hn => ?_, fun p hp => .inl (hobs ▸ hp)⟩
  · refine ⟨fun n hn => ?_, fun _ => rfl, fun _ => rfl, nil_subset _,
      fun _ => ⟨⟨nodup_nil, by simp [GcJob.create, GcJob.openBuilders]⟩, rfl, by simp [GcJob.create]⟩,
      fun hi => (by cases hi), by simp [GcJob.create]⟩
    obtain ⟨m, hm, -⟩ := hnormal n hn
    refine ⟨m.fileStateTransit .gcBegin, ?_, rfl⟩
    have hn : n ∈ inputs := hn
    rw [findFile_transitFiles .gcBegin inputs s.world fun _ => rfl, if_pos hn, hm]; rfl
  · rw [hclaimed]
    exact hdis j hj
  · have hn' : n ∈ s.inflight := by simpa [System.inflight, GcJob.relocating, GcJob.create] using hn
    obtain ⟨hl, hno⟩ := h.inflight n hn'
    have hnot : n ∉ inputs := fun hc => hord n hc hn'
    exact ⟨ht.live n hnot hl, forall_mem_append.2 ⟨hno, forall_mem_singleton.2 (by rwa [hclaimed])⟩⟩
  · have hnot : n ∉ inputs := fun hc => by
      obtain ⟨m, hm, hst⟩ := hnormal n hc
      have hl : s.world.live n = true := live_iff.2 (.inr ⟨m, hm, by simp [isObsolete, hst]⟩)
      rw [hn.dead] at hl; cases hl
    refine hn.touch ht hnot (forall_mem_append.2 ⟨fun j hj hc => ⟨j, hj, hc⟩, forall_mem_singleton.2 fun hc => ?_⟩)
    exact absurd (hclaimed ▸ hc) hnot

theorem SysInv.replaceJob {j : GcJob} {r : GcState} {l₁ l₂ rest : List GcJob}
    (hsplit : s.jobs = l₁ ++ j :: l₂) (hstep : JobStep o s.world j r)
    (hr : rest = [] ∨ rest = [r.job] ∧ JobOk o r.world r.job) :
    SysInv o { s with world := r.world, jobs := l₁ ++ rest ++ l₂ } ∧
      ∀ n, Gone s n → Gone { s with world := r.world, jobs := l₁ ++ rest ++ l₂ } n := by
  have hmem : j ∈ s.jobs := by rw [hsplit]; exact mem_append_right _ (mem_cons_self ..)
  have hrest : ∀ j' ∈ rest, j' = r.job ∧ JobOk o r.world r.job := by
    rcases hr with rfl | ⟨rfl, hjob⟩
    · simp
    · exact forall_mem_singleton.2 ⟨rfl, hjob⟩
  -- the other jobs are as they were, and apart from this one
  have hdis := h.disjoint
  rw [hsplit, pairwise_append, pairwise_cons] at hdis
  obtain ⟨hd₁, ⟨hdj, hd₂⟩, hd₁₂⟩ := hdis
  have hother : ∀ j' ∈ l₁ ++ l₂, j' ∈ s.jobs ∧ j'.claimed.Disjoint j.claimed := by
    intro j' hj'
    rw [hsplit]
    rcases mem_append.1 hj' with hj' | hj'
    · exact ⟨mem_append_left _ hj', hd₁₂ j' hj' j (mem_cons_self ..)⟩
    · exact ⟨mem_append_right _ (mem_cons_of_mem _ hj'), disjoint_symm (hdj j' hj')⟩
  have hok : ∀ j' ∈ l₁ ++ l₂, JobOk o r.world j' := fun j' hj' =>
    (h.jobs j' (hother j' hj').1).touch h.world hstep.touch (hother j' hj').2
  have hnew : ∀ j' ∈ l₁ ++ l₂, ∀ j₂ ∈ rest, j'.claimed.Disjoint j₂.claimed := fun j' hj' j₂ hj₂ n hn hc => by
    rw [(hrest j₂ hj₂).1] at hc
    rcases hstep.claimed n hc with hc | hle
    · exact (hother j' hj').2 hn hc
    · exact absurd ((h.jobs j' (hother j' hj').1).lt_next h.world hn) (by omega)
  have hall : ∀ j' ∈ l₁ ++ rest ++ l₂, j' ∈ rest ∨ j' ∈ l₁ ++ l₂ := by
    intro j' hj'
    simp only [mem_append] at hj' ⊢
    tauto
  have hjobs : ∀ j' ∈ l₁ ++ rest ++ l₂, JobOk o r.world j' := by
    intro j' hj'
    rcases hall j' hj' with hj' | hj'
    · rw [(hrest j' hj').1]; exact (hrest j' hj').2
    · exact hok j' hj'
  -- a number that was no job's, and not a new one, is still no job's
  have hclaimed : ∀ n, n < s.world.nextFileNumber → (∀ j' ∈ s.jobs, n ∉ j'.claimed) →
      ∀ j' ∈ l₁ ++ rest ++ l₂, n ∉ j'.claimed := by
    intro n hlt hno j' hj' hc
    rcases hall j' hj' with hj' | hj'
    · rw [(hrest j' hj').1] at hc
      rcases hstep.claimed n hc with hc | hle
      · exact hno j hmem hc
      · omega
    · exact hno j' (hother j' hj').1 hc
  refine ⟨⟨hstep.ok, hjobs, ?_, fun n hn => ?_⟩, fun n hn => ?_⟩
  · have hsingle : rest.Pairwise fun j j' => j.claimed.Disjoint j'.claimed := by
      rcases hr with rfl | ⟨rfl, -⟩
      · exact .nil
      · exact pairwise_singleton ..
    rw [pairwise_append, pairwise_append]
    refine ⟨⟨hd₁, hsingle, fun a ha b hb => hnew a (mem_append_left _ ha) b hb⟩, hd₂, fun a ha b hb => ?_⟩
    rcases mem_append.1 ha with ha | ha
    · exact hd₁₂ a ha b (mem_cons_of_mem _ hb)
    · exact fun n hn hc => hnew b (mem_append_right _ hb) a ha hc hn
  · -- in flight before the step, or handed out by the foreground builder in it
    have hcase : n ∈ s.inflight ∨ r.job.relocating = some n := by
      rcases mem_append.1 hn with hn | hn
      · exact .inl (mem_append_left _ hn)
      · obtain ⟨j', hj', hn⟩ := mem_filterMap.1 hn
        rcases hall j' hj' with hj' | hj'
        · exact .inr ((hrest j' hj').1 ▸ hn)
        · exact .inl (mem_append_right _ (mem_filterMap.2 ⟨j', (hother j' hj').1, hn⟩))
    rcases hcase with hn | hrel
    · obtain ⟨hl, hno⟩ := h.inflight n hn
      exact ⟨hstep.touch.live n (hno j hmem) hl, hclaimed n (h.world.live_lt_next hl) hno⟩
    · obtain ⟨b, hb⟩ := hstep.relocating n hrel
      exact ⟨hstep.ok.live_of_owned hb, fun j' hj' hc => (hjobs j' hj').not_owned hstep.ok hc b hb⟩
  · refine hn.touch hstep.touch (hn.claimed j hmem) fun j' hj' hc => ?_
    exact absurd hc (hclaimed n hn.lt hn.claimed j' hj')

theorem SysInv.gc {env : GcEnv} (hord : Orderly o s (.gc n env))
    (hs : s.step o (.gc n env) = some s') : SysStep o s (.gc n env) s' := by
  simp only [System.step, bind_eq_some_iff, map_eq_some_iff] at hs
  obtain ⟨j, hj, r, hr, rfl⟩ := hs
  obtain ⟨hlt, hjn⟩ := List.getElem?_eq_some_iff.1 hj
  have hmem : j ∈ s.jobs := mem_of_getElem? hj
  have hsplit : s.jobs = s.jobs.take n ++ j :: s.jobs.drop (n + 1) := by
    rw [← hjn, ← drop_eq_getElem_cons hlt, take_append_drop]
  have hstep : JobStep o s.world j r := by
    refine (h.jobs j hmem).step h.world (hord j hj) (fun n' hn' => ?_) hr
    exact (h.inflight n' (mem_append_right _ (mem_filterMap.2 ⟨j, hmem, hn'⟩))).1
  have hwrites : WritesLive s.world r.world := by
    rcases hstep.db with hdb | ⟨k, i, hdb, hl⟩
    · exact .inl hdb
    · exact .inr ⟨k, some (.blobIndex i), .gc, hdb, fun n' hn' => by cases hn'; exact hl⟩
  have htags : ∀ p ∈ r.world.storage.obsoleteFiles,
      p ∈ s.world.storage.obsoleteFiles ∨ Tags s (.gc n env) p ∧ r.world.db = s.world.db := by
    intro p hp
    rcases hstep.obsolete with hobs | ⟨hphase, hdb, hobs⟩
    · exact .inl (hobs ▸ hp)
    · rw [hobs] at hp
      refine (mem_append.1 hp).imp_right fun hp => ?_
      obtain ⟨n', hn', rfl⟩ := mem_map.1 hp
      exact ⟨⟨n, env, j, rfl, hj, hphase, hn', rfl⟩, hdb⟩
  split
  · obtain ⟨hi, hg⟩ := h.replaceJob hsplit hstep (.inl rfl)
    exact ⟨hi, hwrites, hg, htags⟩
  next hne =>
    have hjob := hstep.job.resolve_left fun ⟨st, hst⟩ => hne st hst
    obtain ⟨hi, hg⟩ := h.replaceJob hsplit hstep (.inr ⟨rfl, hjob⟩)
    exact ⟨hi, hwrites, hg, htags⟩

theorem SysInv.removeObsolete {oldest : SequenceNumber}
    (hs : s.step o (.removeObsolete oldest) = some s') : SysStep o s (.removeObsolete oldest) s' := by
  obtain ⟨-, ⟨⟩⟩ := Option.ite_none_right_eq_some.1 hs
  obtain ⟨hobs, hok, ht⟩ := h.world.purge oldest
  refine ⟨h.keepJobs hok ht rfl (fun j hj n hc hn => ?_) fun n hn => .inl ⟨hn, fun hC => ?_⟩, .inl rfl,
    fun n hn => ?_, fun p hp => .inl (mem_filter.1 hp).1⟩
  · obtain ⟨m, hm, hobs⟩ := hobs n hn
    have hstate : m.state = .obsolete := of_decide_eq_true hobs
    rcases (h.jobs j hj).state_claimed hc hm with hst | hst <;> rw [hstate] at hst <;> cases hst
  · obtain ⟨m, hm, hobs⟩ := hobs n hC
    rcases live_iff.1 (h.inflight n hn).1 with hb | ⟨m', hm', hobs'⟩
    · rw [h.world.unregistered n hb] at hm; cases hm
    · rw [hm, some.injEq] at hm'
      rw [← hm', hobs] at hobs'; cases hobs'
  · by_cases hC : n ∈ (s.world.storage.getObsoleteFiles oldest).2
    · refine ⟨hn.lt, Bool.eq_false_iff.2 fun hl => ?_, hn.owned, hn.claimed⟩
      rcases live_iff.1 hl with hb | ⟨m, hm, -⟩
      · have hlive : s.world.live n = true := live_iff.2 (.inl hb)
        rw [hn.dead] at hlive; cases hlive
      · have hm : (s.world.storage.getObsoleteFiles oldest).1.findFile n = some m := hm
        rw [BlobStorage.findFile_getObsoleteFiles, if_pos hC] at hm; cases hm
    · exact hn.touch ht hC fun j hj hc => ⟨j, hj, hc⟩

theorem SysInv.step {e : SysEvent} (hord : Orderly o s e) (hs : s.step o e = some s') : SysStep o s e s' := by
  have hsame : ∀ {s'}, s'.world = s.world → s'.jobs = s.jobs → s'.puts = s.puts → SysStep o s e s' := by
    intro s' hw hj hp
    refine h.quiet (hw ▸ h.world) (hw ▸ .refl _ _) hj (fun n hn => .inl ?_) (hw ▸ .inl rfl) (by rw [hw])
    rwa [System.inflight, hj, hp] at hn
  cases e with
  | putAdd f k v => exact h.putAdd hord hs
  | putWrite n fault => exact h.putWrite hs
  | delete k =>
    cases hs
    obtain ⟨hok, ht⟩ := h.world.setDb (s.world.db.write k none .user)
    exact h.quiet hok ht rfl (fun n hn => .inl hn) (.inr ⟨k, none, .user, rfl, nofun⟩) rfl
  | sealSlot b f => exact h.sealSlot hs
  | pick inputs records iterStatus => exact h.pick hord hs
  | gc n env => exact h.gc hord hs
  | getSnapshot => cases hs; exact hsame rfl rfl rfl
  | releaseSnapshot q => cases hs; exact hsame rfl rfl rfl
  | readOldest => cases hs; exact hsame rfl rfl rfl
  | removeObsolete oldest => exact h.removeObsolete hs

end

end

/-- The engine before any of the actors has begun. -/
structure SysStart (s : System) : Prop where
  world : WorldOk s.world
  puts : s.puts = []
  jobs : s.jobs = []

theorem SysStart.inv {o : Options} {s : System} (h : SysStart s) : SysInv o s := by
  have hfly : s.inflight = [] := by simp [System.inflight, h.puts, h.jobs]
  exact ⟨h.world, by simp [h.jobs], by simp [h.jobs], by simp [hfly]⟩

namespace System

open Exec

variable {o : Options} {s₀ s s' : System}

/-- In every run whose steps leave the files of indexes in flight alone, an index that a step makes visible names
a file that is building or registered and not obsolete. -/
theorem visible_index_live {es : List SysEvent} {e : SysEvent} (h : SysStart s₀)
    (hall : AllSteps (System.step o) (Orderly o) s₀ es) (hrun : run (System.step o) s₀ es = some s)
    (hord : Orderly o s e) (hs : s.step o e = some s') {k : Slice} {i : BlobIndex} {by' : Writer}
    (hnew : s'.world.db.log = (k, some (.blobIndex i), by') :: s.world.db.log) : s'.world.live i.fileNumber = true := by
  have hinv : SysInv o s := run_inv (fun s e s' h hP hs => (h.step hP hs).inv) h.inv hall hrun
  rcases (hinv.step hord hs).writes with hdb | ⟨k', e', by'', hdb, hl⟩
  · rw [hdb] at hnew
    exact absurd (congrArg length hnew) (by simp)
  · rw [hdb] at hnew
    obtain ⟨⟨rfl, rfl, rfl⟩, -⟩ := hnew
    exact hl _ rfl

theorem sysStart_fresh : SysStart fresh := ⟨worldOk_fresh, rfl, rfl⟩

/-- A Put is in flight while a job collects a file that was registered before it. -/
theorem visible_index_live_beside_job :
    ∃ s s', run (step (.small true false)) fresh
        [.putAdd {} [1] [10], .sealSlot 0 {}, .putWrite 0 none, .putAdd {} [2] [20],
          .pick [1] [⟨⟨[1], [10]⟩, ⟨1, ⟨8, 13⟩⟩⟩] .ok, .gc 0 {}, .gc 0 {}, .gc 0 {}] = some s ∧
      s.step (.small true false) (.putWrite 0 none) = some s' ∧ s'.world.live 2 = true := by
  refine exists₂_of_bind (fun s s' => decide (s'.world.db.log = ([2], some (.blobIndex ⟨2, ⟨8, 13⟩⟩), .user) ::
    s.world.db.log)) true (by decide +kernel) fun s s' hrun hs' hnew => ?_
  exact visible_index_live (e := .putWrite 0 none) sysStart_fresh (by decide +kernel) hrun trivial hs'
    (of_decide_eq_true hnew)

/-- So each file has one owner, and an index in flight names a live file. -/
theorem sysInv_run {es : List SysEvent} (h : SysStart s₀) (hall : AllSteps (System.step o) (Orderly o) s₀ es)
    (hrun : run (System.step o) s₀ es = some s) : SysInv o s :=
  run_inv (fun _ _ _ h hP hs => (h.step hP hs).inv) h.inv hall hrun

theorem sysInv_run_picked : ∃ s, run (step (.small true false)) fresh
    [.putAdd {} [1] [10], .sealSlot 0 {}, .putWrite 0 none, .pick [1] [] .ok] = some s ∧
      SysInv (.small true false) s :=
  exists_of_map (fun _ => ()) () (by decide +kernel) fun _ hrun _ => sysInv_run sysStart_fresh (by decide +kernel) hrun

/-- The file of a Put in flight is finished, registered, picked and collected; then its index becomes visible. -/
theorem put_in_collected_file :
    SysStart fresh ∧ (run (step (.small true false)) fresh
        [.putAdd {} [1] [10], .sealSlot 0 {}, .pick [1] [⟨⟨[1], [10]⟩, ⟨1, ⟨8, 13⟩⟩⟩] .ok, .gc 0 {}, .gc 0 {},
          .gc 0 {}, .gc 0 {}, .putWrite 0 none]).map
        (fun s => (s.world.db.log, s.world.live 1, s.world.visible (.small true false) [1])) =
      some ([([1], some (.blobIndex ⟨1, ⟨8, 13⟩⟩), .user)], false, .missing) :=
  ⟨sysStart_fresh, by decide +kernel⟩

end System

end ValueSep.DiffKV
