import ValueSep.DiffKV.Dangling

/-!
# Purging beside snapshots

`DeleteInputBlobFiles` tags a file with the latest sequence number, and `GetObsoleteFiles` removes the files
whose tag is below the oldest snapshot. A file with a tag is forgotten from its tag on: no state of the LSM tree
since then names it. So a removal is safe when each snapshot lies at or after the tag, which a purge that saw a
snapshot knows of every snapshot to come. `kMaxSequenceNumber`, the answer when there was none, says nothing of a
snapshot taken between the two steps of the purge.
-/

namespace ValueSep.DiffKV

open World
open List Option BaseDb DiffKV.System

/-- From its tag on, the LSM tree leads no key to the file. -/
def Forgotten (db : BaseDb) (p : Nat × SequenceNumber) : Prop :=
  p.2 ≤ db.latestSequence ∧
    ∀ n, p.2 ≤ n → n ≤ db.latestSequence → ∀ k, namedFile ((db.asOf n).get k) ≠ some p.1

/-- No snapshot leads a key to a file that has been removed. -/
def SnapshotSafe (s : System) : Prop :=
  ∀ p ∈ s.removed, ∀ q ∈ s.snapshots, ∀ k, namedFile ((s.world.db.asOf q).get k) ≠ some p.1

/-- An orderly step in which a job deletes only inputs that no key's newest entry names, and a purge that found
no snapshot removes only files whose tags are at or before each snapshot there is by now. -/
def PurgeOrderly (o : Options) (s : System) (e : SysEvent) : Prop :=
  Orderly o s e ∧
    match e with
    | .gc n _ => ∀ j ∈ s.jobs[n]?, j.phase = .deleteInputs →
        ∀ p ∈ s.world.db.log, ∀ n' ∈ namedFile (s.world.db.get p.1), n' ∉ j.inputs
    | .removeObsolete oldest => oldest = kMaxSequenceNumber →
        ∀ p ∈ s.world.storage.obsoleteFiles, p.2 < oldest → ∀ q ∈ s.snapshots, p.2 ≤ q
    | _ => True

instance (o : Options) (s : System) (e : SysEvent) : Decidable (PurgeOrderly o s e) := by
  unfold PurgeOrderly
  cases e <;> infer_instance

section

variable {o : Options} {s s' : System} {e : SysEvent}

theorem WritesLive.latest_le {w w' : World} (h : WritesLive w w') : w.db.latestSequence ≤ w'.db.latestSequence := by
  rcases h with hdb | ⟨k, e, by', hdb, -⟩ <;> rw [hdb]
  exact Nat.le_succ _

theorem Forgotten.writes {w w' : World} {p : Nat × SequenceNumber} (h : Forgotten w.db p) (hw : WritesLive w w')
    (hdead : w'.live p.1 = false) : Forgotten w'.db p := by
  refine ⟨h.1.trans hw.latest_le, fun n hle hn k => ?_⟩
  rcases hw with hdb | ⟨k', e, by', hdb, hlive⟩
  · rw [hdb] at hn ⊢
    exact h.2 n hle hn k
  rw [hdb] at hn ⊢
  rcases Nat.lt_or_ge w.db.latestSequence n with hlt | hge
  · have hfull : ((w.db.write k' e by').asOf n).get k = (w.db.write k' e by').get k := by
      rw [BaseDb.get, asOf_of_le (show w.db.log.length + 1 ≤ n from hlt), ← BaseDb.get]
    rw [hfull, get_write]
    split
    · intro hnamed
      rw [hlive p.1 hnamed] at hdead
      cases hdead
    · have hold := h.2 w.db.latestSequence h.1 le_rfl k
      rwa [BaseDb.get, asOf_of_le (show w.db.log.length ≤ w.db.latestSequence from le_rfl)] at hold
  · rw [BaseDb.get, asOf_write (show n ≤ w.db.log.length from hge)]
    exact h.2 n hle hge k

theorem forgotten_of_unnamed {db : BaseDb} {n : Nat} (h : ∀ p ∈ db.log, namedFile (db.get p.1) ≠ some n) :
    Forgotten db (n, db.latestSequence) := by
  refine ⟨le_rfl, fun m hle _ k hk => ?_⟩
  rw [BaseDb.get, asOf_of_le (show db.log.length ≤ m from hle)] at hk
  cases hl : db.log.lookup k with
  | none => simp [hl, namedFile] at hk
  | some r =>
    obtain ⟨l₁, l₂, heq, -⟩ := lookup_eq_some_iff.1 hl
    exact h (k, r) (by rw [heq]; simp) hk

theorem SysInv.gone_of_tagged (h : SysInv o s) {p : Nat × SequenceNumber}
    (hp : p ∈ s.world.storage.obsoleteFiles) : Gone s p.1 := by
  obtain ⟨m, hm, hobs⟩ := h.world.tagged p hp
  have hsome : (s.world.storage.findFile p.1).isSome := by rw [hm]; rfl
  refine ⟨h.world.lt_next hsome, Bool.eq_false_iff.2 fun hl => ?_, h.world.not_owned hsome, fun j hj hc => ?_⟩
  · rcases live_iff.1 hl with hb | ⟨m', hm', hobs'⟩
    · rw [h.world.unregistered p.1 hb] at hm; cases hm
    · rw [hm, some.injEq] at hm'
      rw [← hm', hobs] at hobs'; cases hobs'
  · have hstate : m.state = .obsolete := of_decide_eq_true hobs
    rcases (h.jobs j hj).state_claimed hc hm with hst | hst <;> rw [hstate] at hst <;> cases hst

/-- What a purge has read is still at or below each snapshot, and what purges have removed is out of use. -/
structure PurgeInv (o : Options) (s : System) : Prop extends SysInv o s where
  snapshots : ∀ q ∈ s.snapshots, q ≤ s.world.db.latestSequence
  purges : ∀ v ∈ s.purges, v = kMaxSequenceNumber ∨ v ≤ s.world.db.latestSequence ∧ ∀ q ∈ s.snapshots, v ≤ q
  tagged : ∀ p ∈ s.world.storage.obsoleteFiles, Forgotten s.world.db p
  removed : ∀ p ∈ s.removed, Gone s p.1 ∧ Forgotten s.world.db p ∧ ∀ q ∈ s.snapshots, p.2 ≤ q

theorem PurgeInv.snapshotSafe (h : PurgeInv o s) : SnapshotSafe s := fun p hp q hq =>
  (h.removed p hp).2.1.2 q ((h.removed p hp).2.2 q hq) (h.snapshots q hq)

/-- A new snapshot is taken at the latest sequence number, a new purge has read what is below each snapshot, and
a file leaves only when its tag is. -/
theorem PurgeInv.advance (h : PurgeInv o s) (hst : SysStep o s e s') (hord : PurgeOrderly o s e)
    (hsnap : ∀ q ∈ s'.snapshots, q ∈ s.snapshots ∨ q = s'.world.db.latestSequence)
    (hpurge : ∀ v ∈ s'.purges, v ∈ s.purges ∨ v = kMaxSequenceNumber ∨
      v ≤ s'.world.db.latestSequence ∧ ∀ q ∈ s'.snapshots, v ≤ q) (hremoved : ∀ p ∈ s'.removed, p ∈ s.removed ∨
      p ∈ s.world.storage.obsoleteFiles ∧ ∀ q ∈ s'.snapshots, p.2 ≤ q) : PurgeInv o s' := by
  have hle := hst.writes.latest_le
  refine ⟨hst.inv, fun q hq => ?_, fun v hv => ?_, fun p hp => ?_, fun p hp => ?_⟩
  · rcases hsnap q hq with hq | rfl
    · exact (h.snapshots q hq).trans hle
    · exact le_rfl
  · rcases hpurge v hv with hv | hv
    · refine (h.purges v hv).imp_right fun ⟨hv, hall⟩ => ⟨hv.trans hle, fun q hq => ?_⟩
      rcases hsnap q hq with hq | rfl
      · exact hall q hq
      · exact hv.trans hle
    · exact hv
  · rcases hst.tags p hp with hp' | ⟨⟨n, env, j, rfl, hj, hphase, hin, htag⟩, hdb⟩
    · exact (h.tagged p hp').writes hst.writes (hst.inv.gone_of_tagged hp).dead
    · rw [hdb, show p = (p.1, s.world.db.latestSequence) from Prod.ext rfl htag]
      exact forgotten_of_unnamed fun r hr hn => hord.2 j hj hphase r hr p.1 hn hin
  · rcases hremoved p hp with hp | ⟨hp, hall⟩
    · obtain ⟨hgone, hforgot, hall⟩ := h.removed p hp
      have hgone' := hst.gone p.1 hgone
      refine ⟨hgone', hforgot.writes hst.writes hgone'.dead, fun q hq => ?_⟩
      rcases hsnap q hq with hq | rfl
      · exact hall q hq
      · exact hforgot.1.trans hle
    · have hgone' := hst.gone p.1 (h.toSysInv.gone_of_tagged hp)
      exact ⟨hgone', (h.tagged p hp).writes hst.writes hgone'.dead, hall⟩

/-- A minimum taken from `a` on is at or below each element, and is `a` or one of them. -/
theorem foldl_min_spec (l : List Nat) (a : Nat) :
    (∀ q ∈ l, l.foldl min a ≤ q) ∧ l.foldl min a ≤ a ∧ (l.foldl min a = a ∨ l.foldl min a ∈ l) := by
  induction l generalizing a with
  | nil => simp
  | cons b l ih =>
    obtain ⟨hall, hle, hmem⟩ := ih (min a b)
    rw [foldl_cons]
    refine ⟨fun q hq => ?_, by omega, ?_⟩
    · rcases mem_cons.1 hq with rfl | hq
      · omega
      · exact hall q hq
    · rcases hmem with heq | hmem
      · rcases Nat.le_total a b with hab | hab
        · exact .inl (by omega)
        · exact .inr (mem_cons.2 (.inl (by omega)))
      · exact .inr (mem_cons_of_mem _ hmem)

theorem PurgeInv.step (h : PurgeInv o s) (hord : PurgeOrderly o s e) (hs : s.step o e = some s') : PurgeInv o s' := by
  have hst := h.toSysInv.step hord.1 hs
  -- most steps change no snapshot, no purge and no removed file
  have hsame : s'.snapshots = s.snapshots → s'.purges = s.purges → s'.removed = s.removed → PurgeInv o s' :=
    fun hq hv hp => h.advance hst hord (fun q hq' => .inl (hq ▸ hq')) (fun v hv' => .inl (hv ▸ hv'))
      (fun p hp' => .inl (hp ▸ hp'))
  cases e with
  | putAdd f k v =>
    obtain ⟨r, -, rfl⟩ := map_eq_some_iff.1 hs
    exact hsame rfl rfl rfl
  | putWrite n fault =>
    obtain ⟨r, -, rfl⟩ := map_eq_some_iff.1 hs
    refine hsame ?_ ?_ ?_ <;> (dsimp only; split <;> rfl)
  | delete k => cases hs; exact hsame rfl rfl rfl
  | sealSlot b f =>
    simp only [step] at hs
    split at hs
    · obtain ⟨w, -, rfl⟩ := map_eq_some_iff.1 hs
      exact hsame rfl rfl rfl
    · cases hs; exact hsame rfl rfl rfl
  | pick inputs records iterStatus =>
    simp only [step] at hs
    split at hs
    · cases hs; exact hsame rfl rfl rfl
    · cases hs
  | gc n env =>
    obtain ⟨j, -, hs⟩ := bind_eq_some_iff.1 hs
    obtain ⟨r, -, rfl⟩ := map_eq_some_iff.1 hs
    exact hsame rfl rfl rfl
  | getSnapshot =>
    cases hs
    refine h.advance hst hord (fun q hq => ?_) (fun v hv => .inl hv) (fun p hp => .inl hp)
    exact (mem_cons.1 hq).symm
  | releaseSnapshot q =>
    cases hs
    exact h.advance hst hord (fun q' hq' => .inl (mem_of_mem_erase hq')) (fun v hv => .inl hv)
      (fun p hp => .inl hp)
  | readOldest =>
    cases hs
    obtain ⟨hall, -, hmem⟩ := foldl_min_spec s.snapshots kMaxSequenceNumber
    refine h.advance hst hord (fun q hq => .inl hq) (fun v hv => ?_) (fun p hp => .inl hp)
    rcases mem_cons.1 hv with rfl | hv
    · exact .inr (hmem.imp_right fun hmem => ⟨h.snapshots _ hmem, hall⟩)
    · exact .inl hv
  | removeObsolete oldest =>
    simp only [step] at hs
    split at hs
    next hread =>
      cases hs
      refine h.advance hst hord (fun q hq => .inl hq) (fun v hv => .inl (mem_of_mem_erase hv)) (fun p hp => ?_)
      rcases mem_append.1 hp with hp | hp
      · exact .inl hp
      obtain ⟨hp, hlt⟩ := mem_filter.1 hp
      have hlt : p.2 < oldest := of_decide_eq_true hlt
      refine .inr ⟨hp, fun q hq => ?_⟩
      rcases h.purges oldest hread with hmax | ⟨-, hall⟩
      · exact hord.2 hmax p hp hlt q hq
      · exact hlt.le.trans (hall q hq)
    next => cases hs

end

/-- The engine after `Open`: no snapshot, no purge under way and no file marked obsolete. -/
structure PurgeStart (s : System) : Prop extends SysStart s where
  snapshots : s.snapshots = []
  purges : s.purges = []
  removed : s.removed = []
  tagged : s.world.storage.obsoleteFiles = []

theorem PurgeStart.inv {o : Options} {s : System} (h : PurgeStart s) : PurgeInv o s :=
  ⟨h.toSysStart.inv, by simp [h.snapshots], by simp [h.purges], by simp [h.tagged], by simp [h.removed]⟩

namespace System

open Exec

variable {o : Options} {s₀ s : System}

/-- In every run whose steps are orderly in this sense, no snapshot leads a key to a file that has been removed. -/
theorem snapshotSafe_run {es : List SysEvent} (h : PurgeStart s₀)
    (hall : AllSteps (step o) (PurgeOrderly o) s₀ es) (hrun : run (step o) s₀ es = some s) : SnapshotSafe s :=
  (run_inv (fun _ _ _ h hP hs => PurgeInv.step h hP hs) h.inv hall hrun).snapshotSafe

theorem purgeStart_fresh : PurgeStart fresh := ⟨sysStart_fresh, rfl, rfl, rfl, rfl⟩

/-- The collected file stays while the snapshot taken before the collection lives and leaves beside a later one. -/
theorem snapshotSafe_run_relocated :
    ∃ s, run (step (.small true false)) fresh [.putAdd {} [1] [10], .putWrite 0 none, .sealSlot 0 {}, .getSnapshot,
          .pick [1] [⟨⟨[1], [10]⟩, ⟨1, ⟨8, 13⟩⟩⟩] .ok, .gc 0 {}, .gc 0 {}, .gc 0 {}, .gc 0 {}, .gc 0 {},
          .readOldest, .removeObsolete 1, .delete [5], .getSnapshot, .releaseSnapshot 1,
          .readOldest, .removeObsolete 3] = some s ∧ s.removed = [(1, 2)] ∧ s.snapshots = [3] ∧ SnapshotSafe s := by
  refine exists_of_map (fun s => (s.removed, s.snapshots)) ([(1, 2)], [3]) (by decide +kernel) fun s hrun heq => ?_
  obtain ⟨hremoved, hsnap⟩ := Prod.mk.inj heq
  exact ⟨hremoved, hsnap, snapshotSafe_run purgeStart_fresh (by decide +kernel) hrun⟩

/-- A purge finds no snapshot; before it removes anything, a snapshot is taken and a job collects file 1. -/
theorem snapshot_between_purge_steps :
    PurgeStart fresh ∧ ∃ s, run (step (.small true false)) fresh
          [.putAdd {} [1] [10], .putWrite 0 none, .sealSlot 0 {}, .readOldest, .getSnapshot,
            .pick [1] [⟨⟨[1], [10]⟩, ⟨1, ⟨8, 13⟩⟩⟩] .ok, .gc 0 {}, .gc 0 {}, .gc 0 {}, .gc 0 {}, .gc 0 {},
            .removeObsolete kMaxSequenceNumber] = some s ∧ s.removed = [(1, 2)] ∧ s.snapshots = [1] ∧
        (s.world.db.asOf 1).get [1] = some (.blobIndex ⟨1, ⟨8, 13⟩⟩) ∧ ¬ SnapshotSafe s := by
  refine ⟨purgeStart_fresh, exists_of_map (fun s => (s.removed, s.snapshots, (s.world.db.asOf 1).get [1]))
    ([(1, 2)], [1], some (.blobIndex ⟨1, ⟨8, 13⟩⟩)) (by decide +kernel) fun s hrun heq => ?_⟩
  simp only [Prod.mk.injEq] at heq
  obtain ⟨hremoved, hsnap, hget⟩ := heq
  refine ⟨hremoved, hsnap, hget, fun hsafe => ?_⟩
  exact hsafe (1, 2) (by simp [hremoved]) 1 (by simp [hsnap]) [1] (by rw [hget]; rfl)

end System

end ValueSep.DiffKV
