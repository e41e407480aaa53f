import ValueSep.HashKV.Gc
import ValueSep.HashKV.Placement
import ValueSep.Lib.Exec

/-!
# Records packed into the segments of their groups

The machine keeps, next to the segment manager, the byte ranges that records were given since the last GC of their
group. Its steps are those of the server: a group is created for a key, a record of an accepted size is flushed to a
group (by a flush or by the write-back of a GC), a group is collected. `Sound` is what a reader of the segments relies
on.
-/

namespace ValueSep.HashKV

open Coding (Bytes)
open List Function Option SegmentGroupManager Exec GroupCursor

/-- The bytes a record was given. -/
structure Range where
  segment : Nat
  offset : Nat
  size : Nat
  deriving DecidableEq, Repr

def Range.stop (r : Range) : Nat := r.offset + r.size

structure Packing where
  groups : SegmentGroupManager
  /-- By group, oldest first. -/
  placed : Nat → List Range

inductive PackEvent
  | create (key : Bytes)
  | flush (groupId valueSize : Nat)
  | collect (groupId : Nat)

namespace Packing

def init (cfg : Config) : Packing := ⟨.init cfg, fun _ => []⟩

def step (cfg : Config) (p : Packing) : PackEvent → Option Packing
  | .create key =>
    match p.groups.getNewMainSegment cfg (cfg.mainSegmentOf key) with
    | .error _ => none
    | .ok groups => some { p with groups }
  | .flush groupId valueSize =>
    -- `KvServer::putValue` does not accept larger values
    if cfg.mainSegmentSize ≤ valueSize then none
    else
      let cursor := ⟨p.groups, p.groups.getGroupLogSegments groupId, p.groups.getGroupFlushFront groupId⟩
      match GroupCursor.place cfg groupId (recordSize valueSize) cursor with
      | .error _ => none
      | .ok (c, front, cursor) => some {
          groups := cursor.groups.setGroupFronts groupId cursor.flushFront
          placed := update p.placed groupId (p.placed groupId ++ [⟨c, front, recordSize valueSize⟩]) }
  | .collect groupId =>
    match p.groups.releaseGroupLogSegments cfg groupId with
    | .error _ => none
    | .ok groups => some {
        groups := if p.groups.getGCMode cfg groupId = .all then groups.setGroupFronts groupId 0 else groups
        placed := update p.placed groupId [] }

structure Sound (cfg : Config) (p : Packing) : Prop where
  inside : ∀ g, ∀ r ∈ p.placed g, r.stop ≤ cfg.segmentSize r.segment
  disjoint : ∀ g, (p.placed g).Pairwise fun r r' => r.segment = r'.segment → r.stop ≤ r'.offset ∨ r'.stop ≤ r.offset
  /-- The last record lies in the last segment, and both fronts are its end. -/
  front : ∀ g r, (p.placed g).getLast? = some r →
    (p.groups.segmentsOf g).bind getLast? = some r.segment ∧
    cfg.getLastSegmentFront (p.groups.getGroupFlushFront g) = r.stop ∧
    p.groups.getSegmentFlushFront r.segment = r.stop

/-- A record that fits into the rest of the main segment does not fill it to the last byte, and any other fits into a
log segment. -/
def Fits (cfg : Config) (p : Packing) : PackEvent → Prop
  | .flush groupId valueSize =>
    let front := p.groups.getGroupFlushFront groupId
    if p.groups.getGroupLogSegments groupId = [] ∧ front + recordSize valueSize ≤ cfg.mainSegmentSize then
      front + recordSize valueSize ≠ cfg.mainSegmentSize
    else recordSize valueSize ≤ cfg.logSegmentSize
  | _ => True

instance (cfg : Config) (p : Packing) : (e : PackEvent) → Decidable (Fits cfg p e)
  | .create _ => .isTrue trivial
  | .collect _ => .isTrue trivial
  | .flush groupId valueSize => inferInstanceAs (Decidable (ite
      (p.groups.getGroupLogSegments groupId = [] ∧
        p.groups.getGroupFlushFront groupId + recordSize valueSize ≤ cfg.mainSegmentSize)
      (p.groups.getGroupFlushFront groupId + recordSize valueSize ≠ cfg.mainSegmentSize)
      (recordSize valueSize ≤ cfg.logSegmentSize)))

/-! ### The invariant -/

/-- The last segment of the group is filled up to `pos` and its ranges end there. -/
structure GroupInv (cfg : Config) (p : Packing) (g : Nat) (logs : List Nat) (pos : Nat) : Prop where
  frontAt : cfg.FrontAt logs (p.groups.getGroupFlushFront g) pos
  open_main : logs = [] → pos < cfg.mainSegmentSize
  mem : ∀ r ∈ p.placed g, r.segment ∈ g :: logs
  le : ∀ r ∈ p.placed g, r.segment = lastSegment g logs → r.stop ≤ pos
  last : ∀ r, (p.placed g).getLast? = some r →
    r.segment = lastSegment g logs ∧ r.stop = pos ∧ p.groups.segmentFront r.segment = some pos

structure Inv (cfg : Config) (p : Packing) : Prop where
  wf : p.groups.Wf cfg
  absent : ∀ g, p.groups.segmentsOf g = none → p.placed g = []
  group : ∀ g logs, p.groups.segmentsOf g = some (g :: logs) → ∃ pos, GroupInv cfg p g logs pos
  inside : ∀ g, ∀ r ∈ p.placed g, r.stop ≤ cfg.segmentSize r.segment
  disjoint : ∀ g, (p.placed g).Pairwise fun r r' => r.segment = r'.segment → r.stop ≤ r'.offset ∨ r'.stop ≤ r.offset

variable {cfg : Config} {p p' : Packing} {g g' c : Nat} {logs : List Nat} {pos size : Nat}

theorem inv_init : Inv cfg (init cfg) where
  wf := wf_init
  absent _ _ := rfl
  group _ _ h := by cases h
  inside _ r hr := by cases hr
  disjoint _ := List.Pairwise.nil

theorem Inv.sound (h : Inv cfg p) : Sound cfg p := by
  refine ⟨h.inside, h.disjoint, fun g r hr => ?_⟩
  rcases hseg : p.groups.segmentsOf g with _ | l
  · rw [h.absent g hseg] at hr; cases hr
  · obtain ⟨-, logs, rfl, -⟩ := h.wf.shape g l hseg
    obtain ⟨pos, hg⟩ := h.group g logs hseg
    obtain ⟨hlast, hstop, hfront⟩ := hg.last r hr
    refine ⟨?_, ?_, ?_⟩
    · rw [bind_some, getLast?_cons_logs, hlast]
    · by_cases hlogs : logs = []
      · subst hlogs
        rw [hg.frontAt.getLastSegmentFront_main, if_neg (Nat.ne_of_lt (hg.open_main rfl)), hstop]
      · rw [hg.frontAt.getLastSegmentFront_log hlogs, hstop]
    · rw [getSegmentFlushFront, hfront, hstop]; rfl

theorem GroupInv.congr (h : GroupInv cfg p g logs pos)
    (hfront : p'.groups.getGroupFlushFront g = p.groups.getGroupFlushFront g) (hplaced : p'.placed g = p.placed g)
    (hseg : ∀ c ∈ g :: logs, p'.groups.segmentFront c = p.groups.segmentFront c) : GroupInv cfg p' g logs pos where
  frontAt := hfront ▸ h.frontAt
  open_main := h.open_main
  mem := hplaced ▸ h.mem
  le := hplaced ▸ h.le
  last r hr := by
    rw [hplaced] at hr
    obtain ⟨hlast, hstop, hsf⟩ := h.last r hr
    exact ⟨hlast, hstop, (hseg _ (hlast ▸ lastSegment_mem g logs)).trans hsf⟩

theorem GroupInv.placed {m' : SegmentGroupManager} {cur : GroupCursor} {front : Nat} (hwf : p.groups.Wf cfg)
    (hseg : p.groups.segmentsOf g = some (g :: logs)) (h : GroupInv cfg p g logs pos)
    (hp : Placed cfg g size logs pos p.groups c front cur) (hopen : cur.logSegments = [] → front + size < cfg.mainSegmentSize)
    (hm' : m' = cur.groups.setGroupFronts g cur.flushFront) :
    (∀ r ∈ p.placed g, r.segment = c → r.stop ≤ front) ∧
    GroupInv cfg ⟨m', update p.placed g (p.placed g ++ [⟨c, front, size⟩])⟩ g cur.logSegments (front + size) := by
  have hbehind : ∀ r ∈ p.placed g, r.segment = c → r.stop ≤ front := by
    intro r hr hc
    rcases hp.slot with ⟨hlogs, rfl, -⟩ | ⟨-, -, -, hnew⟩
    · exact h.le r hr (by rw [hc, hp.last, hlogs])
    · exact absurd (hc ▸ h.mem r hr) (hnew.not_mem hwf hseg)
  have hmem : ∀ r ∈ p.placed g, r.segment ∈ g :: cur.logSegments := by
    intro r hr
    rcases hp.slot with ⟨hlogs, -, -⟩ | ⟨hlogs, -, -, -⟩
    · rw [hlogs]; exact h.mem r hr
    · rw [hlogs, ← cons_append]; exact mem_append_left _ (h.mem r hr)
  subst hm'
  refine ⟨hbehind, ?_, hopen, ?_, ?_, ?_⟩
  · rw [getGroupFlushFront_setGroupFronts hp.segments]
    exact hp.frontAt
  · intro r hr
    simp only [update_self, mem_append, mem_singleton] at hr
    rcases hr with hr | rfl
    · exact hmem r hr
    · exact hp.last ▸ lastSegment_mem g _
  · intro r hr hlast
    simp only [update_self, mem_append, mem_singleton] at hr
    rcases hr with hr | rfl
    · exact Nat.le_trans (hbehind r hr (hlast.trans hp.last.symm)) (Nat.le_add_right ..)
    · exact Nat.le_refl _
  · intro r hr
    simp only [update_self, getLast?_append, getLast?_singleton, some_or,
      some.injEq] at hr
    subst hr
    refine ⟨hp.last, rfl, ?_⟩
    rw [segmentFront_setGroupFronts, hp.segmentFront, update_self]

theorem Inv.create {key : Bytes} (h : Inv cfg p) (hstep : p.step cfg (.create key) = some p') : Inv cfg p' := by
  have hlt := cfg.mainSegmentOf_lt key
  generalize hg : cfg.mainSegmentOf key = g at hlt
  simp only [step, hg] at hstep
  rcases getNewMainSegment_cases h.wf hlt with ⟨heq, -⟩ | ⟨hnone, hseg, heq⟩
  · simp only [heq, some.injEq] at hstep
    exact hstep ▸ h
  · simp only [heq, some.injEq] at hstep
    subst hstep
    have hplaced := h.absent g hnone
    refine ⟨h.wf.createGroup hlt hnone hseg, fun g' hg' => ?_, fun g' logs hg' => ?_, h.inside, h.disjoint⟩
    · by_cases hne : g' = g
      · rw [hne]; exact hplaced
      · refine h.absent g' ?_
        simpa [segmentsOf, update_of_ne hne] using hg'
    · by_cases hne : g' = g
      · subst hne
        have hlogs : logs = [] := by simpa [segmentsOf] using hg'.symm
        subst hlogs
        refine ⟨0, ?_, fun _ => cfg.mainSegmentSize_pos, ?_, ?_, ?_⟩
        · simpa [getGroupFlushFront] using Config.FrontAt.zero
        all_goals simp [hplaced]
      · have hold : p.groups.segmentsOf g' = some (g' :: logs) := by
          simpa [segmentsOf, update_of_ne hne] using hg'
        obtain ⟨pos, hinv⟩ := h.group g' logs hold
        refine ⟨pos, hinv.congr ?_ rfl fun _ _ => rfl⟩
        simp [getGroupFlushFront, update_of_ne hne]

theorem Inv.collect (h : Inv cfg p) (hstep : p.step cfg (.collect g) = some p') : Inv cfg p' := by
  simp only [step, getGCMode_eq_all, if_true] at hstep
  rcases hrel : p.groups.releaseGroupLogSegments cfg g with e | m
  · simp only [hrel] at hstep; cases hstep
  · simp only [hrel, some.injEq] at hstep
    subst hstep
    rcases hseg : p.groups.segmentsOf g with _ | l
    · rw [releaseGroupLogSegments, map_eq_none_iff.1 hseg] at hrel
      cases hrel
    · obtain ⟨-, logs, rfl, -⟩ := h.wf.shape g l hseg
      have hr := released_of_eq_ok hrel hseg
      refine ⟨(hr.wf h.wf hseg).setGroupFronts, fun g' hg' => ?_, fun g' logs' hg' => ?_, fun g' => ?_, fun g' => ?_⟩
      · by_cases hne : g' = g
        · rw [hne]; exact update_self ..
        · rw [segmentsOf_setGroupFronts, hr.segmentsOf_of_ne hne] at hg'
          exact (update_of_ne hne ..).trans (h.absent g' hg')
      · rw [segmentsOf_setGroupFronts] at hg'
        by_cases hne : g' = g
        · subst hne
          rw [hr.self] at hg'
          cases hg'
          refine ⟨0, ?_, fun _ => cfg.mainSegmentSize_pos, ?_, ?_, ?_⟩
          · rw [getGroupFlushFront_setGroupFronts hr.self]
            exact .zero
          all_goals simp
        · rw [hr.segmentsOf_of_ne hne] at hg'
          obtain ⟨pos, hinv⟩ := h.group g' logs' hg'
          refine ⟨pos, hinv.congr ?_ (update_of_ne hne ..) fun c hc => ?_⟩
          · rw [getGroupFlushFront_setGroupFronts_of_ne hne,
              getGroupFlushFront, hr.other g' hne, getGroupFlushFront]
          · rw [segmentFront_setGroupFronts]
            exact hr.segmentFront c fun hmem =>
              hne (h.wf.group_unique hg' hc hseg (mem_cons_of_mem _ hmem))
      · by_cases hne : g' = g
        · simp [hne]
        · simpa [update_of_ne hne] using h.inside g'
      · by_cases hne : g' = g
        · simp [hne]
        · simpa [update_of_ne hne] using h.disjoint g'

theorem place_absent (h : p.groups.segmentsOf g = none) : ∃ e, place cfg g size
    ⟨p.groups, p.groups.getGroupLogSegments g, p.groups.getGroupFlushFront g⟩ = .error e := by
  have hgroup : p.groups.group g = none := map_eq_none_iff.1 h
  have hlogs : p.groups.getGroupLogSegments g = [] := by rw [getGroupLogSegments, hgroup]; rfl
  have hfront : p.groups.getGroupFlushFront g = invalid := by
    rw [getGroupFlushFront, hgroup]; rfl
  rw [hlogs, hfront]
  rcases hslot : cfg.slot [] invalid size with _ | _ | _
  · have hmain := cfg.main_lt
    unfold Config.slot at hslot
    rw [if_neg (by unfold invalid; omega)] at hslot
    split at hslot <;> cases hslot
  · exact ⟨_, by simp only [place, hslot]; rfl⟩
  · rcases hnew : p.groups.getNewLogSegment cfg g with e | ⟨c, m⟩
    · exact ⟨e, by simp only [place, hslot, hnew]; rfl⟩
    · obtain ⟨gm, hgm, -⟩ := (newLog_of_eq_ok hnew).group
      rw [hgroup] at hgm
      cases hgm

theorem Inv.flush {valueSize : Nat} (h : Inv cfg p) (hfits : Fits cfg p (.flush g valueSize))
    (hstep : p.step cfg (.flush g valueSize) = some p') : Inv cfg p' := by
  have hsize : 0 < recordSize valueSize := by unfold recordSize keySize; omega
  simp only [step] at hstep
  by_cases hbig : cfg.mainSegmentSize ≤ valueSize
  · rw [if_pos hbig] at hstep; cases hstep
  rw [if_neg hbig] at hstep
  rcases hplace : place cfg g (recordSize valueSize)
      ⟨p.groups, p.groups.getGroupLogSegments g, p.groups.getGroupFlushFront g⟩ with e | ⟨c, front, cur⟩
  · simp only [hplace] at hstep; cases hstep
  simp only [hplace, some.injEq] at hstep
  rcases hseg : p.groups.segmentsOf g with _ | l
  · obtain ⟨e, he⟩ := @place_absent cfg p g (recordSize valueSize) hseg
    rw [he] at hplace
    cases hplace
  obtain ⟨-, logs, rfl, -⟩ := h.wf.shape g l hseg
  obtain ⟨pos, hg⟩ := h.group g logs hseg
  have hlogs := getGroupLogSegments_of hseg
  have hff : logs = [] → p.groups.getGroupFlushFront g = pos := by
    rintro rfl
    obtain ⟨-, heq, -⟩ | ⟨hne, -⟩ := hg.frontAt
    · exact heq
    · exact absurd rfl hne
  simp only [Fits, hlogs] at hfits
  rw [hlogs] at hplace
  have hfit : cfg.Closed logs pos (recordSize valueSize) → recordSize valueSize ≤ cfg.logSegmentSize := by
    rintro ⟨hmain, -⟩
    rwa [if_neg fun hc => by have := hmain hc.1; have := hff hc.1; omega] at hfits
  have hp : Placed cfg g (recordSize valueSize) logs pos p.groups c front cur := by
    have hw := wp_place h.wf hseg hg.frontAt hsize hfit
    rwa [hplace] at hw
  have hopen : cur.logSegments = [] → front + recordSize valueSize < cfg.mainSegmentSize := by
    intro hnil
    rcases hp.slot with ⟨hl, rfl, -⟩ | ⟨hl, -, -, -⟩
    · have hle := hp.inside
      rw [hp.last, hnil, show lastSegment g [] = g from rfl, segmentSize_main h.wf hseg] at hle
      have hnil' := hl.symm.trans hnil
      rw [if_pos ⟨hnil', by have := hff hnil'; omega⟩, hff hnil'] at hfits
      omega
    · rw [hl] at hnil; simp at hnil
  obtain ⟨hbehind, hnew⟩ := hg.placed h.wf hseg hp hopen rfl
  subst hstep
  refine ⟨hp.wf.setGroupFronts, fun g' hg' => ?_, fun g' logs' hg' => ?_, fun g' r hr => ?_, fun g' => ?_⟩
  · rw [segmentsOf_setGroupFronts] at hg'
    by_cases hne : g' = g
    · rw [hne, hp.segments] at hg'; cases hg'
    · rw [hp.other g' hne] at hg'
      exact (update_of_ne hne ..).trans (h.absent g' hg')
  · rw [segmentsOf_setGroupFronts] at hg'
    by_cases hne : g' = g
    · subst hne
      rw [hp.segments] at hg'
      cases hg'
      exact ⟨_, hnew⟩
    · have hown := hg'
      rw [hp.other g' hne] at hg'
      obtain ⟨pos', hinv⟩ := h.group g' logs' hg'
      refine ⟨pos', hinv.congr ?_ (update_of_ne hne ..) fun d hd => ?_⟩
      · rw [getGroupFlushFront_setGroupFronts_of_ne hne, hp.getGroupFlushFront]
      · -- the segment written to belongs to `g`
        have hdc : d ≠ c := fun hdc =>
          hne (hp.wf.group_unique hown hd hp.segments (hdc ▸ hp.last ▸ lastSegment_mem g _))
        rw [segmentFront_setGroupFronts, hp.segmentFront, update_of_ne hdc]
  · by_cases hne : g' = g
    · subst hne
      simp only [update_self, mem_append, mem_singleton] at hr
      rcases hr with hr | rfl
      · exact h.inside g' r hr
      · exact hp.inside
    · exact h.inside g' r (by simpa [update_of_ne hne] using hr)
  · by_cases hne : g' = g
    · subst hne
      simp only [update_self]
      refine pairwise_append.2 ⟨h.disjoint g', by simp, fun r hr r' hr' hc => ?_⟩
      rw [mem_singleton.1 hr'] at hc ⊢
      exact .inl (hbehind r hr hc)
    · simpa [update_of_ne hne] using h.disjoint g'

theorem Inv.step {e : PackEvent} (h : Inv cfg p) (hfits : Fits cfg p e) (hstep : p.step cfg e = some p') : Inv cfg p' := by
  cases e with
  | create key => exact h.create hstep
  | flush g valueSize => exact h.flush hfits hstep
  | collect g => exact h.collect hstep

/-- Placement is sound in every run whose flushes fit: no record fills a main segment to its last byte, and none that
goes to a log segment is larger than one. -/
theorem sound_of_fits {es : List PackEvent} (hfits : Exec.AllSteps (step cfg) (Fits cfg) (init cfg) es)
    (hrun : run (step cfg) (init cfg) es = some p) : Sound cfg p :=
  (run_inv (fun _ _ _ h hf hs => h.step hf hs) inv_init hfits hrun).sound

/-- Two records share the main segment, the third needs a log segment; after a collection the main segment is used again. -/
theorem sound_of_fits_small : ∃ p, run (step smallConfig) (init smallConfig)
    [.create (replicate 16 1), .flush 0 8, .flush 0 4, .flush 0 20, .collect 0, .flush 0 8] = some p ∧
    p.Sound smallConfig := by
  exact exists_of_map (fun _ => ()) () (by decide +kernel) fun p hp _ => sound_of_fits (by decide +kernel) hp

/-- Two records of 32 bytes fill the main segment of 64 bytes: its front is 64, and `getLastSegmentFront` is 0. A
record of 64 bytes that no longer fits there is put at the start of a log segment of 48 bytes. -/
theorem not_sound_small :
    (∃ p, run (step smallConfig) (init smallConfig) [.create (replicate 16 1), .flush 0 8, .flush 0 8] = some p ∧
      p.placed 0 = [⟨0, 0, 32⟩, ⟨0, 32, 32⟩] ∧ p.groups.getSegmentFlushFront 0 = 64 ∧
      smallConfig.getLastSegmentFront (p.groups.getGroupFlushFront 0) = 0 ∧ ¬p.Sound smallConfig) ∧
    (∃ p, run (step smallConfig) (init smallConfig) [.create (replicate 16 1), .flush 0 8, .flush 0 40] = some p ∧
      p.placed 0 = [⟨0, 0, 32⟩, ⟨1, 0, 64⟩] ∧ smallConfig.segmentSize 1 = 48 ∧ ¬p.Sound smallConfig) := by
  constructor
  · refine exists_of_map (fun p => (p.placed 0, p.groups.getSegmentFlushFront 0, p.groups.getGroupFlushFront 0))
      ([⟨0, 0, 32⟩, ⟨0, 32, 32⟩], 64, 64) (by decide +kernel) fun p hp hval => ?_
    simp only [Prod.mk.injEq] at hval
    obtain ⟨hplaced, hseg, hgroup⟩ := hval
    have hfront : smallConfig.getLastSegmentFront (p.groups.getGroupFlushFront 0) = 0 := by rw [hgroup]; decide
    refine ⟨hplaced, hseg, hfront, fun h => ?_⟩
    have hlast := (h.front 0 ⟨0, 32, 32⟩ (by rw [hplaced]; rfl)).2.1
    rw [hfront] at hlast
    exact absurd hlast (by decide)
  · refine exists_of_map (fun p => p.placed 0) [⟨0, 0, 32⟩, ⟨1, 0, 64⟩] (by decide +kernel) fun p hp hplaced => ?_
    refine ⟨hplaced, by decide, fun h => ?_⟩
    exact absurd (h.inside 0 ⟨1, 0, 64⟩ (by rw [hplaced]; simp)) (by decide)

end Packing

end ValueSep.HashKV
