import Mathlib.Algebra.Order.BigOperators.Group.List
import ValueSep.HashKV.Waiting

/-!
# Does a flush end

A flush that runs out of reserved space calls `gcGreedy` until there is space again. If what each collected group keeps
fits into a log segment less than the group has, the loop ends: what is left to flush bounds the steps. But a group of
which everything is live takes up as many segments as before, goes back into the heap, and is collected again without
end.
-/

namespace ValueSep.HashKV

open Coding (Bytes)
open Exec (run AllSteps Endless exists_of_map)
open Journal
open Wp
open List Function Option Flush Store Record AList

variable {cfg : Config} {p : Pool} {i j : PoolIndex} {f : Flush} {s : Store} {g c front u n : Nat}
variable {P : List (Record cfg)} {pend : Nat → List (Nat × Record cfg)} {G : Nat → Content cfg}
  {T m : Bytes → Option Bytes}

/-! ### What is left to flush -/

namespace Pool

/-- One for every group, and one for every record. -/
def work (p : Pool) : Nat := (p.groupsInPool.keys.map fun g => 1 + ((p.segmentsInPool.lookup g).getD []).length).sum

theorem length_setOffsets_le {l : List Nat} (hl : l.length ≤ ((p.segmentsInPool.lookup g).getD []).length) (g' : Nat) :
    1 + (((p.setOffsets g l).segmentsInPool.lookup g').getD []).length ≤
      1 + ((p.segmentsInPool.lookup g').getD []).length := by
  rw [setOffsets, Pooled.getD_lookup_insert]
  split
  next heq => rw [heq]; omega
  next => exact Nat.le_refl _

theorem work_setOffsets_le {l : List Nat} (hl : l.length ≤ ((p.segmentsInPool.lookup g).getD []).length) :
    (p.setOffsets g l).work ≤ p.work :=
  sum_le_sum fun g' _ => length_setOffsets_le hl g'

theorem work_setOffsets_lt {l : List Nat} (hg : g ∈ p.groupsInPool.keys)
    (hl : l.length < ((p.segmentsInPool.lookup g).getD []).length) : (p.setOffsets g l).work < p.work := by
  refine sum_lt_sum _ _ (fun g' _ => length_setOffsets_le (Nat.le_of_lt hl) g') ⟨g, hg, ?_⟩
  rw [setOffsets, Pooled.getD_lookup_insert, if_pos rfl]
  omega

theorem work_erase_le {segmentsInPool : AList fun _ : Nat => List Nat}
    (hseg : ∀ g', g' ≠ g → segmentsInPool.lookup g' = p.segmentsInPool.lookup g') :
    work { p with segmentsInPool := segmentsInPool, groupsInPool := p.groupsInPool.erase g } ≤ p.work ∧
      (g ∈ p.groupsInPool.keys →
        work { p with segmentsInPool := segmentsInPool, groupsInPool := p.groupsInPool.erase g } < p.work) := by
  have hrest : work { p with segmentsInPool := segmentsInPool, groupsInPool := p.groupsInPool.erase g } =
      ((p.groupsInPool.keys.erase g).map fun g => 1 + ((p.segmentsInPool.lookup g).getD []).length).sum := by
    unfold work
    rw [keys_erase]
    refine congrArg sum (map_congr_left fun g' hg' => ?_)
    have hne : g' ≠ g := ((p.groupsInPool.keys_nodup.mem_erase_iff).1 hg').1
    rw [hseg g' hne]
  rw [hrest]
  by_cases hg : g ∈ p.groupsInPool.keys
  · have := sum_map_erase (fun g => 1 + ((p.segmentsInPool.lookup g).getD []).length) hg
    unfold work
    exact ⟨by omega, fun _ => by omega⟩
  · rw [erase_of_not_mem hg]
    exact ⟨Nat.le_refl _, fun h => absurd h hg⟩

theorem work_dropIfEmpty_le : (p.dropIfEmpty g).work ≤ p.work := by
  unfold dropIfEmpty
  split
  · exact (work_erase_le fun g' hne => lookup_erase_ne hne).1
  · exact Nat.le_refl _

theorem work_dropIfEmpty_lt (hg : g ∈ p.groupsInPool.keys) (hl : p.segmentsInPool.lookup g = some []) :
    (p.dropIfEmpty g).work < p.work := by
  unfold dropIfEmpty
  rw [if_pos (by rw [hl]; rfl)]
  exact (work_erase_le fun g' hne => lookup_erase_ne hne).2 hg

theorem work_releaseGroup_le : (p.releaseGroup g).work ≤ p.work := by
  refine (work_erase_le fun g' hne => ?_).1
  split
  · exact lookup_erase_ne hne
  · rfl

end Pool

/-! ### What the steps leave alone -/

namespace Flush

theorem pools_flushSegmentBuffer {t : Nat} : (f.flushSegmentBuffer cfg t).store.pools = f.store.pools := by
  unfold flushSegmentBuffer
  split <;> rfl

theorem groups_flushSegmentBuffer {t : Nat} : (f.flushSegmentBuffer cfg t).store.groups = f.store.groups := by
  unfold flushSegmentBuffer
  split <;> rfl

theorem wp_placeUpdate_pools : wp (f.placeUpdate cfg i g u n) (fun f' => f'.store.pools = update f.store.pools i
    ((f.store.pools i).setOffsets g ((((f.store.pools i).segmentsInPool.lookup g).getD []).erase u))) (fun _ => True) := by
  refine wp_bind_of_forall fun key => wp_ite (fun _ => wp_bind_of_forall fun value => rfl) fun _ => ?_
  · refine wp_bind_of_forall fun ⟨c, front, cur⟩ => ?_
    refine wp_seq wp_writeRecord ?_
    rintro _ ⟨_, _, _, rfl⟩
    rfl

theorem wp_updates_pools {us : List Nat} (hj : j ≠ i) :
    wp (f.updates cfg i g us) (fun (f', _) => f'.store.pools j = f.store.pools j) (fun _ => True) := by
  induction us generalizing f with
  | nil => rfl
  | cons u us ih =>
    refine wp_bind_of_forall fun n => wp_ite (fun _ => trivial) fun _ => wp_ite (fun _ => rfl) fun _ => ?_
    refine wp_seq wp_placeUpdate_pools fun f₁ hf₁ => ?_
    refine wp_mono ih ?_ fun _ => id
    rintro ⟨f', overflow⟩ hf'
    exact hf'.trans (by rw [hf₁, update_of_ne hj])

theorem pools_endGroup_eq : (f.endGroup cfg i g).store.pools =
    update f.store.pools i ((f.store.pools i).dropIfEmpty g) := by
  show update (f.flushSegmentBuffer cfg 0).store.pools i _ = _
  rw [pools_flushSegmentBuffer]

theorem wp_finish_pools (hj : j ≠ i) : wp (f.finish cfg i) (fun s => s.pools j = f.store.pools j) (fun _ => True) := by
  exact wp_ite (fun _ => update_of_ne hj ..) fun _ => trivial

end Flush

namespace Store

theorem wp_flushGCPool_pools : wp (s.flushGCPool cfg) (fun s' => s'.pools .update = s.pools .update) (fun _ => True) := by
  have hne : PoolIndex.update ≠ .gc := by decide
  refine wp_seq (wp_foldlM (I := fun _ f => f.store.pools .update = s.pools .update) (fun g gs f hf => ?_) rfl)
    fun f hf => ?_
  · refine wp_seq (Q := fun (f', _) => f'.store.pools .update = f.store.pools .update) ?_ ?_
    · unfold group
      dsimp only
      split
      · trivial
      · exact wp_updates_pools hne
    · rintro ⟨f', overflow⟩ hf'
      show (f'.endGroup cfg .gc g).store.pools .update = _
      rw [pools_endGroup_eq, update_of_ne hne, hf', hf]
  · refine wp_mono (wp_finish_pools hne) (fun s' hs' => hs'.trans hf) fun _ => id

theorem lasts_work {w : Nat} : Lasts cfg fun s => (s.pools .update).work ≤ w where
  groups _ _ := id
  gcPool _ _ := id
  taken s g h := by
    exact Nat.le_trans (Pool.work_setOffsets_le (Nat.zero_le _)) h
  released s g h := by
    exact Nat.le_trans Pool.work_releaseGroup_le h
  flush s h := wp_mono wp_flushGCPool_pools (fun s' hs' => by rwa [hs']) fun _ => id

end Store

/-! ### A collection that releases a segment -/

theorem Settled.one_lt_length {G : Nat → Content cfg} {T : Bytes → Option Bytes} {X : Bytes → Prop}
    (hs : Settled cfg s G T X) (h : 0 < (s.groups.getGroupLogSegments g).length) : 1 < (G g).length := by
  rw [SegmentGroupManager.getGroupLogSegments] at h
  rcases hgroup : s.groups.group g with _ | group
  · simp [hgroup] at h
  · rcases hs.laid.group g with ⟨hnone, -⟩ | hlaid
    · rw [SegmentGroupManager.segmentsOf, hgroup] at hnone
      cases hnone
    · have hsegs := hlaid.segments
      rw [SegmentGroupManager.segmentsOf, hgroup, map_some, some_inj] at hsegs
      rw [hgroup, map_some, getD_some, hsegs, length_tail, length_map] at h
      omega

section
variable {s' : Store} {candidates : List (Nat × Order)}

theorem Represents.freeLogSegment_gcStep {order : Order} (h : Represents cfg s P pend G T m)
    (hrel : s.releases cfg g) (hstep : s.gcStep cfg (g, order) = some s') :
    (∃ pend' G' T', Represents cfg s' P pend' G' T' m) ∧
      s.groups.freeLogSegment < s'.groups.freeLogSegment := by
  simp only [releases, Bool.and_eq_true, decide_eq_true_eq] at hrel
  obtain ⟨hpos, hpacks⟩ := hrel
  have hlen := h.settled.one_lt_length hpos
  have hlogs := h.settled.length_logs hlen
  have hcompact := compact_of_packs h.settled h.update hlen hpacks
  let R := ((collect key ((G g).records ++ (pend g).map Prod.snd)).map size).foldr max 0
  let N := s.groups.clearLogs cfg + ((G g).length - 1)
  have hN : Compact cfg R N (collect key ((G g).records ++ (pend g).map Prod.snd)) := by
    refine ⟨hcompact.1, hcompact.2.trans (Nat.add_le_add_left (Nat.mul_le_mul_right _ ?_) _)⟩
    rw [hlogs]
    omega
  have hwp : wp (s.gcOneGroup cfg g order) _ _ := wp_gcOneGroup (K := True) h.settled h.update h.gc h.names hlen
    fun _ => ⟨rfl, hN⟩
  rw [show s.gcOneGroup cfg g order = .ok s' from toOption_eq_some.1 hstep] at hwp
  obtain ⟨G', hc, hroom⟩ := hwp
  have hroom : Room cfg R N s'.groups (G' g) [] := hroom trivial
  obtain ⟨hrep', -⟩ := h.collected (h.ne_lsm hlen) hc
  have hkeeps : (G' g).records.Perm (collect key ((G g).records ++ (pend g).map Prod.snd)) := hc.keeps
  have hlaid := hrep'.settled.laid.of_ne_nil (hc.nonempty g fun hnil => by simp [hnil] at hlen)
  have hR : R ≤ cfg.mainSegmentSize := by
    refine foldr_max_le fun n hn => ?_
    obtain ⟨r, hr, rfl⟩ := mem_map.1 hn
    obtain ⟨x, hx, hrx⟩ := mem_flatMap.1 (hkeeps.mem_iff.2 hr)
    exact (r.segmental ((hlaid.home x hx r hrx).trans_ne (h.ne_lsm hlen))).1
  have hle := hroom.length_le hlaid hrep'.settled.laid.wf hR (by rw [total_perm hkeeps]; exact hcompact.2)
  refine ⟨⟨_, G', _, hrep'⟩, ?_⟩
  have hcount : s'.groups.clearLogs cfg + ((G' g).length - 1) = s.groups.clearLogs cfg + ((G g).length - 1) :=
    hroom.count
  rw [h.settled.laid.wf.free, hrep'.settled.laid.wf.free]
  omega

theorem Represents.freeLogSegment_run (h : Represents cfg s P pend G T m)
    (hrel : AllSteps (gcStep cfg) (fun s c => s.releases cfg c.1) s candidates)
    (hrun : run (gcStep cfg) s candidates = some s') :
    s.groups.freeLogSegment + candidates.length ≤ s'.groups.freeLogSegment := by
  induction candidates generalizing s pend G T with
  | nil =>
    cases hrun
    exact Nat.le_refl _
  | cons c candidates ih =>
    obtain ⟨s₁, hstep, hrest⟩ := Exec.run_cons_eq_some.1 hrun
    obtain ⟨⟨pend', G', T', h₁⟩, hlt⟩ := h.freeLogSegment_gcStep hrel.1 hstep
    have := ih h₁ (hrel.2 s₁ hstep) hrest
    rw [length_cons]
    omega

theorem run_gcStep_of_gcGreedy {maxGC : Nat} {report report' : Option Nat}
    (h : s.gcGreedy cfg maxGC candidates report = .ok (s', report')) :
    candidates ≠ [] ∧ run (gcStep cfg) s candidates = some s' := by
  unfold Store.gcGreedy at h
  dsimp only at h
  split at h
  · cases h
  next hids =>
  split at h
  · cases h
  next hne =>
    refine ⟨fun hnil => hne (by rw [hnil]; rfl), ?_⟩
    clear hids hne
    unfold gcGroups at h
    dsimp only at h
    induction candidates generalizing s report with
    | nil =>
      cases h
      rfl
    | cons c candidates ih =>
      rw [foldlM_cons] at h
      rcases hone : s.gcOneGroup cfg c.1 c.2 with e | s₁
      · rw [hone] at h
        cases h
      · rw [hone] at h
        exact Exec.run_cons_eq_some.2 ⟨s₁, toOption_eq_some.2 hone, ih h⟩

end

/-! ### The loop ends if every collection releases a segment -/

theorem Config.freeLogSegment_le {m : SegmentGroupManager} (h : cfg.outOfReservedSpaceForObject m front n) :
    m.freeLogSegment ≤ minFreeSegments := by
  unfold outOfReservedSpaceForObject at h
  split at h
  · cases h
  · simpa using h

namespace Flush

/-- The pass over a group does some of the work or nothing at all; if it is not broken off, the group is done. -/
structure Passed (g : Nat) (f f' : Flush) (overflow : Option Nat) : Prop where
  groupsInPool : (f'.store.pools .update).groupsInPool = (f.store.pools .update).groupsInPool
  done : overflow = none → (f'.store.pools .update).segmentsInPool.lookup g = some []
  short : overflow ≠ none → f'.store.groups.freeLogSegment ≤ minFreeSegments
  work : (f'.store.pools .update).work < (f.store.pools .update).work ∨
    (f'.store.pools .update).work = (f.store.pools .update).work ∧ f'.store.groups = f.store.groups

theorem wp_updates_passed {us : List Nat} (hg : g ∈ (f.store.pools .update).groupsInPool.keys)
    (hus : (f.store.pools .update).segmentsInPool.lookup g = some us) :
    wp (f.updates cfg .update g us) (fun (f', overflow) => Passed g f f' overflow) (fun _ => True) := by
  induction us generalizing f with
  | nil => exact ⟨rfl, fun _ => hus, fun h => absurd rfl h, .inr ⟨rfl, rfl⟩⟩
  | cons u us ih =>
    refine wp_bind_of_forall fun n => wp_ite (fun _ => trivial) fun _ => wp_ite (fun hout => ?_) fun _ => ?_
    · refine ⟨rfl, by simp, fun _ => ?_, .inr ⟨rfl, rfl⟩⟩
      exact Config.freeLogSegment_le hout.2
    · refine wp_seq wp_placeUpdate_pools fun f₁ hf₁ => ?_
      have hpool : f₁.store.pools .update = (f.store.pools .update).setOffsets g us := by
        rw [hf₁, update_self, hus, getD_some, erase_cons_head]
      have hwork : (f₁.store.pools .update).work < (f.store.pools .update).work := by
        rw [hpool]
        refine Pool.work_setOffsets_lt hg ?_
        rw [hus]
        exact Nat.lt_succ_self _
      have hgroups : (f₁.store.pools .update).groupsInPool = (f.store.pools .update).groupsInPool := by rw [hpool]; rfl
      have hlookup : (f₁.store.pools .update).segmentsInPool.lookup g = some us := by
        rw [hpool]
        exact lookup_insert _
      refine wp_mono (ih (hgroups ▸ hg) hlookup) ?_ fun _ => id
      rintro ⟨f', overflow⟩ h
      refine ⟨h.groupsInPool.trans hgroups, h.done, h.short, .inl ?_⟩
      rcases h.work with hlt | ⟨heq, -⟩
      · exact Nat.lt_trans hlt hwork
      · rw [heq]; exact hwork

theorem wp_group_passed (hg : g ∈ (f.store.pools .update).groupsInPool.keys) :
    wp (f.group cfg .update g) (fun (f', overflow) => Passed g f f' overflow) (fun _ => True) := by
  unfold group
  dsimp only
  split
  · trivial
  · rename_i us hus
    exact wp_mono (wp_updates_passed hg hus) (fun _ h => ⟨h.groupsInPool, h.done, h.short, h.work⟩)
      fun _ => id

theorem freeLogSegment_endGroup : (f.endGroup cfg i g).store.groups.freeLogSegment = f.store.groups.freeLogSegment := by
  unfold endGroup
  simp [setPool, groups_flushSegmentBuffer]

theorem freeLogSegment_suspend : (f.suspend cfg g).store.groups.freeLogSegment = f.store.groups.freeLogSegment := by
  unfold suspend
  simp [groups_flushSegmentBuffer]

theorem pools_suspend : (f.suspend cfg g).store.pools = f.store.pools := pools_flushSegmentBuffer

end Flush

namespace FlushState

variable {x : FlushState} {ch : Choice}

/-- The groups that are collected for the flush release a log segment each, by what is in them before. -/
def releases (cfg : Config) (x : FlushState) : Choice → Prop
  | .group _ => True
  | .gc candidates => AllSteps (gcStep cfg) (fun s c => s.releases cfg c.1) x.flush.store candidates

instance (x : FlushState) : (c : Choice) → Decidable (x.releases cfg c)
  | .group _ => .isTrue trivial
  | .gc _ => inferInstanceAs (Decidable (AllSteps ..))

def work (x : FlushState) : Nat := (x.flush.store.pools .update).work

def free (x : FlushState) : Nat := x.flush.store.groups.freeLogSegment

/-- The records and groups first, then the log segments that are missing, then whether a group is to be taken. -/
def measure (x : FlushState) : Nat :=
  8 * x.work + 2 * (3 - x.free) + match x.pc with
    | .next => 1
    | .collect .. => 0

/-- A flush that waits is short of log segments. -/
def Short (x : FlushState) : Prop := x.Waits → x.free ≤ minFreeSegments

theorem short_next {f : Flush} {report : Option Nat} : Short ⟨.next, f, report⟩ := by
  rintro ⟨g, size, hpc⟩
  cases hpc

theorem wp_next_measure (hshort : x.Short)
    (hat : x.flush.At cfg P G m x.pc) (hrel : x.releases cfg ch) :
    wp (Flush.next cfg true x ch) (fun x' => x'.Short ∧ x'.measure < x.measure) (fun _ => True) := by
  obtain ⟨pc, f, report⟩ := x
  cases pc with
  | next =>
    cases ch with
    | gc _ => trivial
    | group g =>
      refine wp_ite (fun hg => ?_) fun _ => trivial
      refine wp_seq (wp_group_passed (f := f) hg) ?_
      rintro ⟨f', overflow⟩ h
      cases overflow with
      | none =>
        have hdrop := Pool.work_dropIfEmpty_lt (p := f'.store.pools .update)
          (by rw [h.groupsInPool]; exact hg) (h.done rfl)
        have hwork : ((f'.endGroup cfg .update g).store.pools .update).work < (f.store.pools .update).work := by
          rw [pools_endGroup_eq, update_self]
          rcases h.work with hlt | ⟨heq, -⟩ <;> omega
        refine ⟨short_next, ?_⟩
        simp only [measure, work, free]
        omega
      | some size =>
        refine wp_ite (fun _ => ⟨fun _ => ?_, ?_⟩) fun _ => trivial
        · rw [free, freeLogSegment_suspend]
          exact h.short (by simp)
        · simp only [measure, work, free, pools_suspend, freeLogSegment_suspend]
          rcases h.work with hlt | ⟨heq, hgroups⟩
          · omega
          · rw [hgroups]
            omega
  | collect g size =>
    cases ch with
    | group _ => trivial
    | gc candidates =>
      have hfree : f.store.groups.freeLogSegment ≤ 2 := hshort ⟨g, size, rfl⟩
      have hgc : wp (f.store.gcGreedy cfg cfg.greedyGCSize candidates report) (fun x =>
          (x.1.pools .update).work ≤ (f.store.pools .update).work ∧
            f.store.groups.freeLogSegment < x.1.groups.freeLogSegment) (fun _ => True) := by
        refine wp_mono (wp_self (lasts_work.wp_gcGreedy (Nat.le_refl _))) ?_ fun _ => id
        rintro ⟨s, report'⟩ ⟨heq, hwork⟩
        obtain ⟨⟨pend, G', T, hrep, -⟩, hbatch⟩ := hat
        obtain ⟨hne, hrun⟩ := run_gcStep_of_gcGreedy heq
        have hfree : f.store.groups.freeLogSegment + candidates.length ≤ s.groups.freeLogSegment :=
          (hrep.represents hbatch).freeLogSegment_run hrel hrun
        have hpos := length_pos_of_ne_nil hne
        exact ⟨hwork, by dsimp only; omega⟩
      refine wp_seq hgc ?_
      rintro ⟨s, report'⟩ ⟨hwork, hgain⟩
      dsimp only at hwork hgain
      refine wp_ite (fun hout => ⟨fun _ => ?_, ?_⟩) fun _ => ⟨short_next, ?_⟩
      · exact Config.freeLogSegment_le hout
      · simp only [measure, work, free]
        omega
      · simp only [measure, work, free, freeLogSegment_endGroup, pools_endGroup_eq, update_self]
        have := Pool.work_dropIfEmpty_le (p := s.pools .update) (g := g)
        omega

end FlushState

/-- The loop of `gcGreedy` that selects groups, over what `getMin` gives until the heap is empty, with at most `fuel`
passes; a group that is not in `_groupInHeap` or has no finite ratio does not count. -/
def selectGroups (mayCollect : Nat → Bool) : (fuel maxGC : Nat) → List Nat → Option (List Nat)
  | 0, _, _ => none
  | _ + 1, 0, _ => some []
  | _ + 1, _ + 1, [] => some []
  | fuel + 1, maxGC + 1, g :: heap =>
    if mayCollect g then (g :: ·) <$> selectGroups mayCollect fuel maxGC heap
    else selectGroups mayCollect fuel (maxGC + 1) heap

/-- The selection ends. -/
theorem selectGroups_spec (mayCollect : Nat → Bool) (maxGC : Nat) {fuel : Nat} {heap : List Nat} (h : heap.length < fuel) :
    ∃ ids, selectGroups mayCollect fuel maxGC heap = some ids ∧ ids.length ≤ maxGC ∧ ids.Sublist heap ∧
      ids.all mayCollect := by
  induction fuel generalizing maxGC heap with
  | zero => omega
  | succ fuel ih =>
    match maxGC, heap with
    | 0, heap => exact ⟨[], rfl, Nat.le_refl _, nil_sublist heap, rfl⟩
    | maxGC + 1, [] => exact ⟨[], rfl, Nat.zero_le _, .slnil, rfl⟩
    | maxGC + 1, g :: heap =>
      have hlt : heap.length < fuel := Nat.lt_of_succ_lt_succ h
      unfold selectGroups
      split
      next hg =>
        obtain ⟨ids, hids, hlen, hsub, hall⟩ := ih maxGC hlt
        exact ⟨g :: ids, by rw [hids]; rfl, Nat.succ_le_succ hlen, hsub.cons_cons g, by simp [hg, hall]⟩
      · obtain ⟨ids, hids, hlen, hsub, hall⟩ := ih (maxGC + 1) hlt
        exact ⟨ids, hids, hlen, hsub.cons g, hall⟩

theorem Represents.flush_ends (h : Represents cfg s P pend G T m) {report : Option Nat} {choices : Nat → Choice}
    (hrel : ∀ n, AllSteps (FlushState.step cfg) (fun x c => x.releases cfg c) (.init s report)
      ((range n).map choices)) :
    ∃ n ≤ 8 * (s.pools .update).work + 8,
      run (FlushState.step cfg) (.init s report) ((List.range n).map choices) = none := by
  refine ⟨_, Nat.le_refl _, ?_⟩
  rcases hrun : run (FlushState.step cfg) (.init s report)
    ((List.range (8 * (s.pools .update).work + 8)).map choices) with _ | x
  · rfl
  · have hle := Exec.length_le_of_measure (I := fun x => x.Short ∧ x.flush.At cfg P G m x.pc) (μ := FlushState.measure)
      (fun x c x' hx hc hstep => by
        obtain ⟨hshort, hlt⟩ := wp_iff.1 (FlushState.wp_next_measure hx.1 hx.2 hc) x' (toOption_eq_some.1 hstep)
        exact ⟨⟨hshort, wp_iff.1 (Flush.wp_next hx.2) x' (toOption_eq_some.1 hstep)⟩, hlt⟩)
      ⟨FlushState.short_next, ⟨pend, G, T, rep_start h, .refl⟩⟩ (hrel _) hrun
    rw [length_map, length_range] at hle
    simp only [FlushState.measure, FlushState.work, FlushState.init, Flush.start] at hle
    omega

/-- A flush between two calls or in the middle of a put ends, after at most `8 * work + 7` steps, if every group that is
collected for it releases a log segment. Whatever the heap has, the selection of these groups ends, and `gcGreedy`
collects the groups that were selected. -/
theorem flush_ends_of_releases {disk : Nat → UInt8} {es : List Event} {s₁ : Store}
    (htame : AllSteps (Store.step cfg) (Store.Tame cfg) (.init cfg disk) es)
    (hrun : run (Store.step cfg) (.init cfg disk) es = some s)
    (hflush : s₁ = s ∨ ∃ key value, s.TamePut cfg key value ∧ s.Flushes cfg key value s₁) {report : Option Nat}
    {choices : Nat → Choice}
    (hrel : ∀ n, AllSteps (FlushState.step cfg) (fun x c => x.releases cfg c) (.init s₁ report)
      ((range n).map choices)) :
    (∃ n ≤ 8 * (s₁.pools .update).work + 8,
      run (FlushState.step cfg) (.init s₁ report) ((List.range n).map choices) = none) ∧
    ∀ (s : Store) (maxGC : Nat) (heap : List Nat), ∃ ids,
      selectGroups (s.groups.isCandidate cfg) (heap.length + 1) maxGC heap = some ids ∧ ids.length ≤ maxGC ∧
        ids.Sublist heap ∧ ids.all (s.groups.isCandidate cfg) ∧
        (heap.Nodup → ∀ candidates report, candidates ≠ [] → candidates.map Prod.fst = ids →
          s.gcGreedy cfg maxGC candidates report = s.gcGroups cfg candidates report) := by
  refine ⟨?_, fun s maxGC heap => ?_⟩
  swap
  · obtain ⟨ids, hids, hlen, hsub, hall⟩ := selectGroups_spec (s.groups.isCandidate cfg) maxGC
      (Nat.lt_succ_self heap.length)
    refine ⟨ids, hids, hlen, hsub, hall, ?_⟩
    rintro hnodup candidates report hne rfl
    -- the model of `gcGreedy` accepts what the heap gives
    refine (if_neg ?_).trans (if_neg fun hnil => hne (map_eq_nil_iff.1 hnil))
    rw [not_or, not_or, not_not, not_not]
    exact ⟨Nat.not_lt.2 hlen, hsub.nodup hnodup, hall⟩
  obtain ⟨m, P, pend, G, T, hrep, hidx⟩ := models_of_run htame hrun
  rcases hflush with rfl | ⟨key, value, hput, hflush⟩
  · exact hrep.flush_ends hrel
  · obtain ⟨P', pend', G', T', m', hrep'⟩ :=
      hrep.flushes hidx (hrep.accepts (r := ⟨key, value, hput.1⟩) hidx hput) hflush
    exact hrep'.flush_ends hrel

/-- One key is written over and over. -/
def oneKey : List Event :=
  ([1, 2, 3, 4].flatMap fun b => [.put (replicate 16 1) (replicate 8 b) [], .flush [.group 0]]) ++
  [8, 9, 10, 11, 12].map fun n => .put (replicate 16 1) (replicate n 5) []

/-- The collection that the flush waits for keeps one record of nine. -/
theorem flush_ends_of_releases_small : ∃ s,
    run (Store.step smallConfig) (.init smallConfig fun _ => 0) oneKey = some s ∧
    ∃ n ≤ 8 * (s.pools .update).work + 8, run (FlushState.step smallConfig) (.init s none)
      ((List.range n).map fun i => if i = 1 then .gc [(0, .inserted)] else .group 0) = none := by
  refine exists_of_map (fun s =>
      (decide (AllSteps (FlushState.step smallConfig) (fun x c => x.releases smallConfig c) (.init s none)
        ((List.range 3).map fun i => if i = 1 then .gc [(0, .inserted)] else .group 0)),
      (run (FlushState.step smallConfig) (.init s none)
        ((range 3).map fun i => if i = 1 then .gc [(0, .inserted)] else .group 0)).isNone))
      (true, true) (by decide +kernel) fun s hs heq => ?_
  simp only [Prod.mk.injEq, decide_eq_true_eq, isNone_iff_eq_none] at heq
  exact (flush_ends_of_releases (by decide +kernel) hs (.inl rfl) (heq.1.of_stream heq.2)).1

/-! ### A group that is all live -/

/-- The records the group keeps need all but two of the `N` log segments that are free or the group's, and fit. -/
structure Crammed (cfg : Config) (g R N : Nat) (s : Store) (P : List (Record cfg)) (pend : Nat → List (Nat × Record cfg))
    (G : Nat → Content cfg) (T m : Bytes → Option Bytes) : Prop where
  represents : Represents cfg s P pend G T m
  length : 1 < (G g).length
  count : s.groups.clearLogs cfg + ((G g).length - 1) = N
  compact : Compact cfg R N (collect key ((G g).records ++ (pend g).map Prod.snd))
  three : 3 ≤ N
  live : cfg.mainSegmentSize + (N - 3) * cfg.logSegmentSize <
    total size (collect key ((G g).records ++ (pend g).map Prod.snd))

section Crammed

variable {R N maxGC : Nat}

theorem Crammed.isCandidate (h : Crammed cfg g R N s P pend G T m) : s.groups.isCandidate cfg g := by
  obtain ⟨gm, hg⟩ := h.represents.settled.grouped h.length
  have hfront : cfg.mainSegmentSize < gm.flushFront := by
    have := hg.laid.frontAt.main_lt (by rw [hg.logs]; exact hg.tail)
    rwa [SegmentGroupManager.getGroupFlushFront, hg.group] at this
  have hmain := cfg.mainSegmentSize_pos
  simp only [SegmentGroupManager.isCandidate, hg.group, Config.writeBackRatioAll, if_pos hfront, Bool.or_eq_true]
  rw [if_pos ⟨by omega, hmain⟩]
  exact .inl rfl

theorem Crammed.gcGreedy (h : Crammed cfg g R N s P pend G T m) (hlog : cfg.logSegmentSize ≤ cfg.mainSegmentSize)
    (hgc : 0 < maxGC) (order : Order) (report : Option Nat) : ∃ s' report', s.gcGreedy cfg maxGC [(g, order)] report = .ok (s', report') ∧
      (∃ P pend G T m, Crammed cfg g R N s' P pend G T m) ∧ s'.groups.freeLogSegment ≤ minFreeSegments ∧
      cfg.mainSegmentSize < s'.groups.getGroupFlushFront g := by
  have hrep := h.represents
  have hwp : wp (s.gcOneGroup cfg g order) _ _ := wp_gcOneGroup (K := True) hrep.settled hrep.update hrep.gc hrep.names
    h.length fun _ => ⟨h.count.symm, h.compact⟩
  rcases hone : s.gcOneGroup cfg g order with e | s'
  · rw [hone] at hwp
    rcases hwp with ⟨-, hK⟩ | ⟨-, hlt⟩
    · exact absurd trivial hK
    · omega
  · rw [hone] at hwp
    obtain ⟨G', hc, hroom⟩ := hwp
    have hroom := hroom trivial
    obtain ⟨hrep', -⟩ := hrep.collected (hrep.ne_lsm h.length) hc
    -- the same records as before
    have hkeeps : (G' g).records.Perm (collect key ((G g).records ++ (pend g).map Prod.snd)) := hc.keeps
    have hself : collect key ((G' g).records ++ (update pend g [] g).map Prod.snd) = (G' g).records := by
      rw [update_self, map_nil, append_nil]
      exact collect_of_nodup ((hkeeps.map key).nodup_iff.2 nodup_collect)
    have hne : G' g ≠ [] := hc.nonempty g fun hnil => by have := h.length; simp [hnil] at this
    have hlaid := hrep'.settled.laid.of_ne_nil hne
    have htotal := Room.total_records_le hlaid hrep'.settled.laid.wf
    have hlive := h.live
    rw [← total_perm hkeeps] at hlive
    have hlen : N - 2 ≤ (G' g).length - 1 := by
      by_contra hlt
      have hle : ((G' g).length - 1) * cfg.logSegmentSize ≤ (N - 3) * cfg.logSegmentSize :=
        Nat.mul_le_mul_right _ (by omega)
      omega
    have hcount := hroom.count
    have hthree := h.three
    have hcram : Crammed cfg g R N s' P (update pend g []) G' (settle (pend g) T) m := by
      refine ⟨hrep', by omega, hcount, ?_, hthree, ?_⟩
      · rw [hself]
        exact ⟨fun r hr => h.compact.1 r (hkeeps.mem_iff.1 hr), by rw [total_perm hkeeps]; exact h.compact.2⟩
      · rw [hself]
        exact hlive
    refine ⟨s', if report = some g then some invalid else report, ?_, ⟨_, _, _, _, _, hcram⟩, ?_, ?_⟩
    · have hids : ¬(maxGC < 1 ∨ ¬[g].Nodup ∨ ¬[g].all (s.groups.isCandidate cfg)) := by
        rw [not_or, not_or, not_not]
        exact ⟨by omega, nodup_singleton g, by simp [h.isCandidate]⟩
      refine (if_neg hids).trans ((if_neg (cons_ne_nil g [])).trans ?_)
      rw [gcGroups, foldlM_cons]
      dsimp only
      rw [hone]
      rfl
    · rw [hrep'.settled.laid.wf.free]
      show _ ≤ 2
      omega
    · refine hlaid.frontAt.main_lt fun hnil => ?_
      have := congrArg List.length hnil
      simp at this
      omega

theorem Crammed.endless {f : Flush} {size : Nat} {order : Order} {report : Option Nat}
    (h : Crammed cfg g R N f.store P pend G T m)
    (hlog : cfg.logSegmentSize ≤ cfg.mainSegmentSize) (hgc : 0 < cfg.greedyGCSize) :
    Endless (FlushState.step cfg) (fun _ => .gc [(g, order)]) ⟨.collect g size, f, report⟩ := by
  refine Exec.endless_of_inv (I := fun x => x.pc = .collect g size ∧
    ∃ P pend G T m, Crammed cfg g R N x.flush.store P pend G T m) ?_ ⟨rfl, P, pend, G, T, m, h⟩
  rintro ⟨pc, f, report⟩ ⟨rfl, P, pend, G, T, m, hx⟩
  obtain ⟨s', report', heq, hs', hfree, hfront⟩ := hx.gcGreedy hlog hgc order report
  refine ⟨⟨.collect g size, { f with store := s', flushFront := s'.groups.getGroupFlushFront g }, report'⟩, ?_, rfl, hs'⟩
  refine toOption_eq_some.2 ?_
  have hout : cfg.outOfReservedSpaceForObject s'.groups (s'.groups.getGroupFlushFront g) size := by
    unfold Config.outOfReservedSpaceForObject
    rw [if_neg (by omega)]
    exact decide_eq_true hfree
  simp only [Flush.next]
  rw [heq]
  exact if_pos hout

theorem Represents.crammed (h : Represents cfg s P pend G T m) (hcand : s.groups.isCandidate cfg g)
    (hroomy : s.roomy cfg g) {sizes : List Nat} (hsizes : s.keptSizes cfg g = .ok sizes)
    (hthree : 3 ≤ s.groups.freeLogSegment + (s.groups.getGroupLogSegments g).length)
    (hlive : cfg.mainSegmentSize + (s.groups.freeLogSegment + (s.groups.getGroupLogSegments g).length - 3) *
      cfg.logSegmentSize < sizes.sum) :
    ∃ R, Crammed cfg g R (s.groups.freeLogSegment + (s.groups.getGroupLogSegments g).length) s P pend G T m := by
  have hlen := h.isCandidate_length hcand
  obtain ⟨R, hR⟩ := compact_of_roomy h.settled h.update hlen hroomy
  have hkept := wp_keptSizes h.settled h.update hlen
  rw [hsizes] at hkept
  have hcount : s.groups.clearLogs cfg + ((G g).length - 1) =
      s.groups.freeLogSegment + (s.groups.getGroupLogSegments g).length := by
    rw [h.settled.laid.wf.free, h.settled.length_logs hlen]
  rw [hcount] at hR
  exact ⟨R, h, hlen, hcount, hR, hthree, by rw [total, ← hkept]; exact hlive⟩

end Crammed

/-- One group with a main segment and three log segments, of two records each; every put is flushed at once. -/
def spinConfig : Config :=
  { smallConfig with
    logSegmentSize := 64, numLogSegment := 3, updateKVBufferSize := 0
    logSegmentSize_pos := smallConfig.mainSegmentSize_pos, numLogSegment_pos := by decide
    capacity_lt := by decide, buffer_lt := by decide }

set_option synthInstance.maxSize 256 in
/-- The fourth record does not wait for room in the log segment of the third: it waits for a third free log segment. The
collection takes it along, packs the four records into the same two segments, and the flush waits on. -/
theorem flush_endless_small : ∃ s s₁ choices, run (Store.step spinConfig) (.init spinConfig fun _ => 0)
      ([1, 2, 3].map fun b => .put (List.replicate 16 b) (List.replicate 8 b) [.group 0]) = some s ∧
    s.Flushes spinConfig (List.replicate 16 4) (List.replicate 8 4) s₁ ∧
    ∀ n, run (FlushState.step spinConfig) (.init s₁ none) ((List.range n).map choices) ≠ none := by
  have hrun : (run (Store.step spinConfig) (.init spinConfig fun _ => 0)
      ([1, 2, 3].map fun b => .put (List.replicate 16 b) (List.replicate 8 b) [.group 0])).bind (fun s =>
      (s.newMain spinConfig (List.replicate 16 4) 8).toOption.bind fun s' =>
      (Store.writeUpdate (List.replicate 16 4) (List.replicate 8 4) 8 0 0 none
        ((s'.unindex (List.replicate 16 4)).pools .update)).toOption.bind fun p =>
      (FlushState.step spinConfig (.init ((s'.unindex (List.replicate 16 4)).setPool .update p) none) (.group 0)).map
        fun x => ((s'.placeFor spinConfig (List.replicate 16 4) (List.replicate 8 4),
        (s'.pools .update).pool.canFit (recordSize 8), (s'.unindex (List.replicate 16 4)).groups.segment 0, x.waitsFor),
        (x.flush.store.groups.isCandidate spinConfig 0, x.flush.store.roomy spinConfig 0,
        x.flush.store.keptSizes spinConfig 0), x.flush.store.groups.freeLogSegment,
        (x.flush.store.groups.getGroupLogSegments 0).length)) =
      some ((.ok none, true, some 0, some 0), (true, true, .ok [32, 32, 32, 32]), 2, 1) := by decide +kernel
  simp only [bind_eq_some_iff, map_eq_some_iff, toOption_eq_some, Prod.mk.injEq] at hrun
  obtain ⟨s, hs, s', hnew, p, hwrite, x, hstep, ⟨hplace, hfit, hgroup, hwaits⟩, ⟨hcand, hroomy, hsizes⟩, hfree, hlogs⟩ :=
    hrun
  have hflush : s.Flushes spinConfig (List.replicate 16 4) (List.replicate 8 4)
      ((s'.unindex (List.replicate 16 4)).setPool .update p) :=
    .after hnew (.fits hplace (.inl hfit)) (.inr hgroup) hwrite (.inr rfl)
  have hpoint : GcPoint spinConfig (fun _ => 0)
      ([1, 2, 3].map fun b => .put (List.replicate 16 b) (List.replicate 8 b) [.group 0]) (List.replicate 16 4)
      (List.replicate 8 4) x :=
    ⟨by decide, s, _, none, [.group 0], hs, hflush, by rw [Exec.run, hstep]; rfl,
      x.waits_of_waitsFor hwaits⟩
  have htame : AllSteps (Store.step spinConfig) (Store.Tame spinConfig) (.init spinConfig fun _ => 0)
      (([1, 2, 3].map fun b => .put (List.replicate 16 b) (List.replicate 8 b) [.group 0]) ++
        [.put (List.replicate 16 4) (List.replicate 8 4) []]) := by decide +kernel
  obtain ⟨P, pend, G, T, m, hrep⟩ := hpoint.represents htame
  obtain ⟨R, hcram⟩ := hrep.crammed hcand hroomy hsizes (by rw [hfree, hlogs]) (by rw [hfree, hlogs]; decide)
  obtain ⟨pc, f, report⟩ := x
  obtain ⟨size, rfl⟩ : ∃ size, pc = .collect 0 size := by
    cases pc with
    | next => cases hwaits
    | collect g size =>
      cases hwaits
      exact ⟨size, rfl⟩
  have hspin : Endless (FlushState.step spinConfig) (fun _ => .gc [(0, .inserted)]) ⟨.collect 0 size, f, report⟩ :=
    hcram.endless (by decide) (by decide)
  refine ⟨s, _, fun n => Nat.casesOn n (.group 0) fun _ => .gc [(0, .inserted)], hs, hflush, fun n hn => ?_⟩
  have hend := hspin.cons hstep n
  rw [hn] at hend
  cases hend

end ValueSep.HashKV
