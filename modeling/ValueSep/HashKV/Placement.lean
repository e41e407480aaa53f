import ValueSep.HashKV.SegmentGroup

/-!
# Where a record goes

`FrontAt logs flushFront pos` relates the front of a group, one number, to the segments it has: `pos` bytes of the last
one are used. Under it `place` does one of three things (`place_cases`). The segments of all groups together are kept
apart by `SegmentGroupManager.Wf`.
-/

namespace ValueSep.HashKV

open List Function Option SegmentGroupManager Config

variable {cfg : Config}

/-- The last segment of a group with these log segments is filled up to `pos`. -/
def Config.FrontAt (cfg : Config) (logs : List Nat) (flushFront pos : Nat) : Prop :=
  (logs = [] ∧ flushFront = pos ∧ pos ≤ cfg.mainSegmentSize) ∨
  (logs ≠ [] ∧ flushFront = cfg.mainSegmentSize + (logs.length - 1) * cfg.logSegmentSize + pos ∧ 0 < pos ∧
    pos ≤ cfg.logSegmentSize)

/-- Nothing of `size` bytes fits behind `pos` in the last segment. -/
def Config.Closed (cfg : Config) (logs : List Nat) (pos size : Nat) : Prop :=
  (logs = [] → cfg.mainSegmentSize < pos + size) ∧ (logs ≠ [] → cfg.logSegmentSize < pos + size)

namespace Config.FrontAt

variable {logs : List Nat} {flushFront pos size : Nat}

theorem zero : cfg.FrontAt [] 0 0 := .inl ⟨rfl, rfl, Nat.zero_le _⟩

/-- In a log segment the front is found again, also in a full one. -/
theorem getLastSegmentFront_log (h : cfg.FrontAt logs flushFront pos) (hlogs : logs ≠ []) :
    cfg.getLastSegmentFront flushFront = pos := by
  obtain ⟨h, -⟩ | ⟨-, rfl, hpos, hle⟩ := h
  · exact absurd h hlogs
  · have hsub : cfg.mainSegmentSize + (logs.length - 1) * cfg.logSegmentSize + pos - cfg.mainSegmentSize =
        cfg.logSegmentSize * (logs.length - 1) + pos := by rw [Nat.mul_comm]; omega
    simp only [getLastSegmentFront, if_neg (show ¬cfg.mainSegmentSize + (logs.length - 1) * cfg.logSegmentSize + pos ≤
      cfg.mainSegmentSize by omega), hsub, Nat.mul_add_mod]
    rcases Nat.lt_or_eq_of_le hle with hlt | rfl
    · rw [Nat.mod_eq_of_lt hlt, if_neg (by omega)]
    · rw [Nat.mod_self, if_pos rfl]

theorem getLastSegmentFront_main (h : cfg.FrontAt [] flushFront pos) :
    cfg.getLastSegmentFront flushFront = if pos = cfg.mainSegmentSize then 0 else pos := by
  obtain ⟨-, rfl, hle⟩ | ⟨h, -⟩ := h
  · rw [getLastSegmentFront, if_pos hle]
    rcases Nat.lt_or_eq_of_le hle with hlt | heq
    · rw [Nat.mod_eq_of_lt hlt, if_neg (by omega)]
    · rw [heq, Nat.mod_self, if_pos rfl]
  · exact absurd rfl h

theorem slot_main (h : cfg.FrontAt [] flushFront pos) (hsize : 0 < size) (hfit : pos + size ≤ cfg.mainSegmentSize) :
    cfg.slot [] flushFront size = .main := by
  obtain ⟨-, rfl, -⟩ | ⟨h, -⟩ := h
  · exact if_pos ⟨rfl, by omega, by omega⟩
  · exact absurd rfl h

theorem slot_last (h : cfg.FrontAt logs flushFront pos) (hlogs : logs ≠ []) (hsize : 0 < size)
    (hfit : pos + size ≤ cfg.logSegmentSize) : cfg.slot logs flushFront size = .last := by
  have hfront := h.getLastSegmentFront_log hlogs
  obtain ⟨h, -⟩ | ⟨-, hff, hpos, -⟩ := h
  · exact absurd h hlogs
  · have hmod : pos % cfg.logSegmentSize ≠ 0 := by rw [Nat.mod_eq_of_lt (by omega)]; omega
    rw [slot, if_neg fun h => hlogs h.1, hfront, if_pos ⟨by omega, hmod, by omega⟩]

theorem slot_fresh (h : cfg.FrontAt logs flushFront pos) (hclosed : cfg.Closed logs pos size) :
    cfg.slot logs flushFront size = .fresh := by
  obtain ⟨hmain, hlog⟩ := hclosed
  by_cases hlogs : logs = []
  · subst hlogs
    have hfront := h.getLastSegmentFront_main
    obtain ⟨-, rfl, hle⟩ | ⟨h, -⟩ := h
    · have := hmain rfl
      rw [slot, if_neg (by omega), hfront]
      refine if_neg fun ⟨hge, hmod, _⟩ => ?_
      rw [if_pos (by omega)] at hmod
      exact hmod rfl
    · exact absurd rfl h
  · have := hlog hlogs
    rw [slot, if_neg fun h => hlogs h.1, h.getLastSegmentFront_log hlogs, if_neg (by omega)]

theorem main (h : cfg.FrontAt [] flushFront pos) (hfit : pos + size ≤ cfg.mainSegmentSize) :
    cfg.FrontAt [] (flushFront + size) (pos + size) := by
  obtain ⟨-, rfl, -⟩ | ⟨h, -⟩ := h
  · exact .inl ⟨rfl, rfl, hfit⟩
  · exact absurd rfl h

theorem last (h : cfg.FrontAt logs flushFront pos) (hlogs : logs ≠ []) (hfit : pos + size ≤ cfg.logSegmentSize) :
    cfg.FrontAt logs (flushFront + size) (pos + size) := by
  obtain ⟨h, -⟩ | ⟨-, hff, hpos, -⟩ := h
  · exact absurd h hlogs
  · exact .inr ⟨hlogs, by omega, by omega, hfit⟩

theorem fresh (c : Nat) (hsize : 0 < size) (hfit : size ≤ cfg.logSegmentSize) :
    cfg.FrontAt (logs ++ [c]) (cfg.mainSegmentSize + logs.length * cfg.logSegmentSize + size) size :=
  .inr ⟨by simp, by simp, hsize, hfit⟩

theorem main_lt (h : cfg.FrontAt logs flushFront pos) (hlogs : logs ≠ []) : cfg.mainSegmentSize < flushFront := by
  obtain ⟨rfl, -⟩ | ⟨-, hff, hpos, -⟩ := h
  · exact absurd rfl hlogs
  · omega

/-- A front beyond the main segment means that there are log segments. -/
theorem logs_ne_nil (h : cfg.FrontAt logs flushFront pos) (hff : cfg.mainSegmentSize < flushFront) : logs ≠ [] := by
  rintro rfl
  obtain ⟨-, rfl, hle⟩ | ⟨h, -⟩ := h
  · omega
  · exact h rfl

end Config.FrontAt

namespace GroupCursor

variable {groups : SegmentGroupManager} {logs : List Nat} {flushFront pos size : Nat}

/-- What `place` does: append to the main segment, append to the last log segment, or take a new one. -/
theorem place_cases (groupId : Nat) (h : cfg.FrontAt logs flushFront pos) (hsize : 0 < size) :
    (logs = [] ∧ pos + size ≤ cfg.mainSegmentSize ∧
      place cfg groupId size ⟨groups, logs, flushFront⟩ =
        .ok (groupId, pos, ⟨groups.setSegmentFlushFront cfg groupId (pos + size), logs, flushFront + size⟩)) ∨
    (∃ c, logs.getLast? = some c ∧ pos + size ≤ cfg.logSegmentSize ∧
      place cfg groupId size ⟨groups, logs, flushFront⟩ =
        .ok (c, pos, ⟨groups.setSegmentFlushFront cfg c (pos + size), logs, flushFront + size⟩)) ∨
    (cfg.Closed logs pos size ∧
      place cfg groupId size ⟨groups, logs, flushFront⟩ = do
        let (c, groups) ← groups.getNewLogSegment cfg groupId
        .ok (c, 0, ⟨groups.setSegmentFlushFront cfg c size, logs ++ [c],
          cfg.mainSegmentSize + logs.length * cfg.logSegmentSize + size⟩)) := by
  by_cases hmain : logs = [] ∧ pos + size ≤ cfg.mainSegmentSize
  · obtain ⟨rfl, hfit⟩ := hmain
    refine .inl ⟨rfl, hfit, ?_⟩
    have hfront : cfg.getLastSegmentFront flushFront = pos := by
      rw [h.getLastSegmentFront_main, if_neg (by omega)]
    simp only [place, h.slot_main hsize hfit, hfront]
  · by_cases hlast : logs ≠ [] ∧ pos + size ≤ cfg.logSegmentSize
    · obtain ⟨hlogs, hfit⟩ := hlast
      have hc := getLast?_eq_some_getLast hlogs
      refine .inr (.inl ⟨_, hc, hfit, ?_⟩)
      simp only [place, h.slot_last hlogs hsize hfit, h.getLastSegmentFront_log hlogs, hc]
    · have hclosed : cfg.Closed logs pos size :=
        ⟨fun hlogs => Nat.lt_of_not_le fun hfit => hmain ⟨hlogs, hfit⟩,
          fun hlogs => Nat.lt_of_not_le fun hfit => hlast ⟨hlogs, hfit⟩⟩
      refine .inr (.inr ⟨hclosed, ?_⟩)
      -- both ways of closing the last segment lead to the start of the next one
      have halign : (if flushFront ≤ cfg.mainSegmentSize then cfg.mainSegmentSize
          else flushFront + (cfg.logSegmentSize - cfg.getLastSegmentFront flushFront)) =
          cfg.mainSegmentSize + logs.length * cfg.logSegmentSize := by
        by_cases hlogs : logs = []
        · obtain ⟨-, rfl, hle⟩ | ⟨h', -⟩ := h
          · rw [if_pos hle, hlogs]; simp
          · exact absurd hlogs h'
        · rw [h.getLastSegmentFront_log hlogs]
          obtain ⟨h', -⟩ | ⟨-, hff, hpos, hle⟩ := h
          · exact absurd h' hlogs
          · have hlen : logs.length = (logs.length - 1) + 1 := by
              have := length_pos_iff.2 hlogs
              omega
            rw [if_neg (by omega), hff]
            nth_rewrite 2 [hlen]
            rw [Nat.succ_mul]
            omega
      simp only [place, h.slot_fresh hclosed, halign]

end GroupCursor

/-! ### The segments of all groups -/

section
variable {owner : Nat → Option Nat} {x : Option Nat} {c g : Nat} {l : List Nat}

theorem owner_other (hc : owner c ≠ some g) (hx : x ≠ some g) (d : Nat) :
    update owner c x d = some g ↔ owner d = some g := by
  rw [update_apply]
  split
  next heq => simp [heq, hc, hx]
  next => exact Iff.rfl

theorem owner_push (h : ∀ d, owner d = some g ↔ d ∈ l) (d : Nat) : update owner c (some g) d = some g ↔ d ∈ l ++ [c] := by
  rw [update_apply, mem_append]
  split
  next heq => simp [heq]
  next hne => simp [h, hne]

end

namespace SegmentGroupManager

variable {m m' : SegmentGroupManager} {g g' c front : Nat} {logs : List Nat}

def segmentsOf (m : SegmentGroupManager) (g : Nat) : Option (List Nat) := (m.group g).map GroupMetaData.segments

/-- How many log segments are free. -/
def clearLogs (cfg : Config) (m : SegmentGroupManager) : Nat :=
  (range' cfg.numMainSegment cfg.numLogSegment).countP fun c => !m.bitmap c

structure Wf (cfg : Config) (m : SegmentGroupManager) : Prop where
  /-- A group is its main segment followed by log segments. -/
  shape : ∀ g l, m.segmentsOf g = some l → g < cfg.numMainSegment ∧
    ∃ logs, l = g :: logs ∧ logs.Nodup ∧ ∀ c ∈ logs, cfg.numMainSegment ≤ c ∧ c < cfg.numSegment
  owner : ∀ g l, m.segmentsOf g = some l → ∀ c ∈ l, m.segment c = some g
  owned : ∀ c g, m.segment c = some g → ∃ l, m.segmentsOf g = some l ∧ c ∈ l
  bit : ∀ c, m.bitmap c = (m.segment c).isSome
  free : m.freeLogSegment = m.clearLogs cfg

theorem wf_init : (init cfg).Wf cfg where
  shape _ _ h := by cases h
  owner _ _ h := by cases h
  owned _ _ h := by cases h
  bit _ := rfl
  free := by simp [clearLogs, init]

section
variable (h : m.Wf cfg)
include h

theorem Wf.congr (hseg : m'.segmentsOf = m.segmentsOf) (hown : m'.segment = m.segment)
    (hbit : m'.bitmap = m.bitmap) (hfree : m'.freeLogSegment = m.freeLogSegment) : m'.Wf cfg where
  shape := hseg ▸ h.shape
  owner := by rw [hseg, hown]; exact h.owner
  owned := by rw [hseg, hown]; exact h.owned
  bit := by rw [hbit, hown]; exact h.bit
  free := by rw [clearLogs, hbit, hfree]; exact h.free

theorem Wf.mem_iff {l : List Nat} (hg : m.segmentsOf g = some l) (c : Nat) : m.segment c = some g ↔ c ∈ l := by
  refine ⟨fun hc => ?_, h.owner g l hg c⟩
  obtain ⟨l', hl', hmem⟩ := h.owned c g hc
  rw [hg] at hl'
  cases hl'
  exact hmem

/-- A group gets other log segments; of the owner map only what this group has, or had, changes. -/
theorem Wf.replace (hlt : g < cfg.numMainSegment) (hself : m'.segmentsOf g = some (g :: logs))
    (hother : ∀ g', g' ≠ g → m'.segmentsOf g' = m.segmentsOf g') (hnodup : logs.Nodup)
    (hrange : ∀ c ∈ logs, cfg.numMainSegment ≤ c ∧ c < cfg.numSegment)
    (hown : ∀ c, m'.segment c = some g ↔ c ∈ g :: logs)
    (hkeep : ∀ g', g' ≠ g → ∀ c, m'.segment c = some g' ↔ m.segment c = some g')
    (hbit : ∀ c, m'.bitmap c = (m'.segment c).isSome) (hfree : m'.freeLogSegment = m'.clearLogs cfg) : m'.Wf cfg := by
  refine ⟨fun g' l hl => ?_, fun g' l hl c hc => ?_, fun c g' hc => ?_, hbit, hfree⟩
  all_goals by_cases hne : g' = g
  · subst hne
    rw [hself] at hl
    cases hl
    exact ⟨hlt, logs, rfl, hnodup, hrange⟩
  · exact h.shape g' l (hother g' hne ▸ hl)
  · subst hne
    rw [hself] at hl
    cases hl
    exact (hown c).2 hc
  · exact (hkeep g' hne c).2 (h.owner g' l (hother g' hne ▸ hl) c hc)
  · subst hne
    exact ⟨_, hself, (hown c).1 hc⟩
  · obtain ⟨l, hl, hmem⟩ := h.owned c g' ((hkeep g' hne c).1 hc)
    exact ⟨l, (hother g' hne).trans hl, hmem⟩

theorem Wf.group_unique {l l' : List Nat} (hg : m.segmentsOf g = some l) (hc : c ∈ l)
    (hg' : m.segmentsOf g' = some l') (hc' : c ∈ l') : g = g' :=
  some.inj ((h.owner g l hg c hc).symm.trans (h.owner g' l' hg' c hc'))

theorem Wf.lt_numSegment {l : List Nat} (hg : m.segmentsOf g = some l) (hc : c ∈ l) : c < cfg.numSegment := by
  obtain ⟨hlt, logs, rfl, -, hlogs⟩ := h.shape g l hg
  rcases mem_cons.1 hc with rfl | hc
  · exact Nat.lt_of_lt_of_le hlt (Nat.le_add_right ..)
  · exact (hlogs c hc).2

theorem Wf.nodup {l : List Nat} (hg : m.segmentsOf g = some l) : l.Nodup := by
  obtain ⟨hlt, logs, rfl, hnodup, hlogs⟩ := h.shape g l hg
  exact nodup_cons.2 ⟨fun hmem => Nat.not_le.2 hlt (hlogs g hmem).1, hnodup⟩

theorem segmentSize_of_mem_logs (hg : m.segmentsOf g = some (g :: logs)) (hc : c ∈ logs) :
    cfg.segmentSize c = cfg.logSegmentSize := by
  obtain ⟨-, logs', heq, -, hlogs⟩ := h.shape g _ hg
  cases heq
  have hlog : cfg.isLogSegment c = true := decide_eq_true (hlogs c hc).1
  rw [segmentSize, if_pos hlog]

theorem segmentSize_main {l : List Nat} (hg : m.segmentsOf g = some l) : cfg.segmentSize g = cfg.mainSegmentSize := by
  have hlog : cfg.isLogSegment g = false := decide_eq_false (Nat.not_le.2 (h.shape g l hg).1)
  rw [segmentSize, hlog, if_neg Bool.false_ne_true]

end

/-- The front of a segment is apart from all else. -/
@[simp] theorem setSegmentFlushFront_frame : (m.setSegmentFlushFront cfg c front).segmentsOf = m.segmentsOf ∧
    (m.setSegmentFlushFront cfg c front).segment = m.segment ∧ (m.setSegmentFlushFront cfg c front).bitmap = m.bitmap ∧
    (m.setSegmentFlushFront cfg c front).freeLogSegment = m.freeLogSegment ∧
    (m.setSegmentFlushFront cfg c front).group = m.group ∧
    (m.setSegmentFlushFront cfg c front).getGroupFlushFront = m.getGroupFlushFront := by
  unfold setSegmentFlushFront
  split <;> exact ⟨rfl, rfl, rfl, rfl, rfl, rfl⟩

theorem segmentFront_setSegmentFlushFront (h : front ≤ cfg.segmentSize c) :
    (m.setSegmentFlushFront cfg c front).segmentFront = update m.segmentFront c (some front) := by
  rw [setSegmentFlushFront, if_neg (Nat.not_lt.2 h)]

theorem Wf.setSegmentFlushFront (h : m.Wf cfg) : (m.setSegmentFlushFront cfg c front).Wf cfg :=
  h.congr (by simp) (by simp) (by simp) (by simp)

theorem group_setGroupFronts : (m.setGroupFronts g front).group = update m.group g
    ((m.group g).map fun gm => { gm with writeFront := front, flushFront := front }) := by
  unfold setGroupFronts
  cases hg : m.group g with
  | none => exact (update_eq_self_iff.2 hg.symm).symm
  | some gm => rfl

@[simp] theorem segmentsOf_setGroupFronts : (m.setGroupFronts g front).segmentsOf = m.segmentsOf := by
  funext g'
  rw [segmentsOf, group_setGroupFronts, segmentsOf]
  by_cases h : g' = g
  · rw [h, Function.update_self, Option.map_map]; rfl
  · rw [update_of_ne h]

@[simp] theorem segment_setGroupFronts : (m.setGroupFronts g front).segment = m.segment := by
  unfold setGroupFronts; split <;> rfl

@[simp] theorem bitmap_setGroupFronts : (m.setGroupFronts g front).bitmap = m.bitmap := by
  unfold setGroupFronts; split <;> rfl

@[simp] theorem freeLogSegment_setGroupFronts : (m.setGroupFronts g front).freeLogSegment = m.freeLogSegment := by
  unfold setGroupFronts; split <;> rfl

@[simp] theorem segmentFront_setGroupFronts : (m.setGroupFronts g front).segmentFront = m.segmentFront := by
  unfold setGroupFronts; split <;> rfl

theorem Wf.setGroupFronts (h : m.Wf cfg) : (m.setGroupFronts g front).Wf cfg :=
  h.congr (by simp) (by simp) (by simp) (by simp)

theorem getGroupFlushFront_setGroupFronts {l : List Nat} (h : m.segmentsOf g = some l) :
    (m.setGroupFronts g front).getGroupFlushFront g = front := by
  obtain ⟨gm, hgm, -⟩ := map_eq_some_iff.1 h
  rw [getGroupFlushFront, group_setGroupFronts, update_self, hgm]
  rfl

theorem getGroupFlushFront_setGroupFronts_of_ne (h : g' ≠ g) :
    (m.setGroupFronts g front).getGroupFlushFront g' = m.getGroupFlushFront g' := by
  rw [getGroupFlushFront, group_setGroupFronts, update_of_ne h, getGroupFlushFront]

theorem getGroupLogSegments_of {logs : List Nat} (h : m.segmentsOf g = some (g :: logs)) :
    m.getGroupLogSegments g = logs := by
  obtain ⟨gm, hgm, hs⟩ := map_eq_some_iff.1 h
  rw [getGroupLogSegments, hgm]
  simp [hs]

theorem countP_update_true {b : Nat → Bool} {l : List Nat} (hn : l.Nodup) (hc : c ∈ l) (hb : b c = false) :
    (l.countP fun d => !(update b c true d)) + 1 = l.countP fun d => !b d := by
  induction l with
  | nil => cases hc
  | cons d l ih =>
    obtain ⟨hd, hn⟩ := nodup_cons.1 hn
    rw [countP_cons, countP_cons]
    by_cases hdc : d = c
    · subst hdc
      have hrest : (l.countP fun e => !(update b d true e)) = l.countP fun e => !b e := by
        refine countP_congr fun e he => ?_
        have hne : e ≠ d := fun heq => hd (heq ▸ he)
        rw [update_of_ne hne]
      rw [hrest, update_self, hb]
      rfl
    · have := ih hn ((mem_cons.1 hc).resolve_left (Ne.symm hdc))
      rw [update_of_ne hdc]
      omega

/-- A new log segment was free, and joins the end of its group. -/
structure NewLog (cfg : Config) (g c : Nat) (m m' : SegmentGroupManager) : Prop where
  bounds : cfg.numMainSegment ≤ c ∧ c < cfg.numSegment
  free : m.bitmap c = false
  freeLogSegment : m'.freeLogSegment = m.freeLogSegment - 1
  bitmap : m'.bitmap = update m.bitmap c true
  segment : m'.segment = update m.segment c (some g)
  segmentFront : m'.segmentFront = m.segmentFront
  group : ∃ gm, m.group g = some gm ∧
    m'.group = update m.group g (some { gm with segments := gm.segments ++ [c] })

theorem newLog_of_eq_ok (h : m.getNewLogSegment cfg g = .ok (c, m')) : NewLog cfg g c m m' := by
  unfold getNewLogSegment at h
  rcases hfind : m.getFirstZeroSince cfg.numSegment cfg.numMainSegment with _ | d
  · simp only [hfind] at h; cases h
  · rcases hgm : m.group g with _ | gm
    · simp only [hfind, hgm] at h; cases h
    · by_cases hd : d ∈ gm.segments
      · simp only [hfind, hgm, if_pos hd] at h; cases h
      · simp only [hfind, hgm, if_neg hd] at h
        cases h
        have hmem := mem_range'_1.1 (mem_of_find?_eq_some hfind)
        have hbit := find?_some hfind
        exact ⟨⟨hmem.1, by unfold numSegment at hmem ⊢; omega⟩, by simpa using hbit, rfl, rfl, rfl, rfl, gm, hgm, rfl⟩

/-- It fails for want of a free segment only, as long as the group exists and the bits are right. -/
theorem getNewLogSegment_error {e : Stop} {l : List Nat} (hwf : m.Wf cfg) (hseg : m.segmentsOf g = some l)
    (h : m.getNewLogSegment cfg g = .error e) :
    e = .outOfLogSegments ∧ ∀ c, cfg.numMainSegment ≤ c → c < cfg.numSegment → m.bitmap c = true := by
  obtain ⟨gm, hgm, hl⟩ := map_eq_some_iff.1 hseg
  unfold getNewLogSegment at h
  rcases hfind : m.getFirstZeroSince cfg.numSegment cfg.numMainSegment with _ | d
  · simp only [hfind] at h
    refine ⟨(Except.error.inj h).symm, fun c hle hlt => ?_⟩
    have hmem : c ∈ range' cfg.numMainSegment (cfg.numSegment - cfg.numMainSegment) :=
      mem_range'_1.2 ⟨hle, by omega⟩
    simpa using find?_eq_none.1 hfind c hmem
  · -- a segment of the group is not clear
    have hd : d ∉ gm.segments := fun hd => by
      have hbit := hwf.bit d
      rw [hwf.owner g l hseg d (hl ▸ hd)] at hbit
      have := find?_some hfind
      rw [hbit] at this
      cases this
    simp only [hfind, hgm, if_neg hd] at h
    cases h

namespace NewLog

section
variable (h : NewLog cfg g c m m')
include h

theorem segmentsOf_self {l : List Nat} (hg : m.segmentsOf g = some l) : m'.segmentsOf g = some (l ++ [c]) := by
  obtain ⟨gm, hgm, hgroup⟩ := h.group
  rw [segmentsOf, hgm] at hg
  cases hg
  rw [segmentsOf, hgroup, update_self]
  rfl

theorem segmentsOf_of_ne (hne : g' ≠ g) : m'.segmentsOf g' = m.segmentsOf g' := by
  obtain ⟨gm, -, hgroup⟩ := h.group
  rw [segmentsOf, hgroup, update_of_ne hne, segmentsOf]

theorem getGroupFlushFront : m'.getGroupFlushFront = m.getGroupFlushFront := by
  obtain ⟨gm, hgm, hgroup⟩ := h.group
  funext g'
  unfold SegmentGroupManager.getGroupFlushFront
  rw [hgroup]
  by_cases hne : g' = g
  · rw [hne, update_self, hgm]; rfl
  · rw [update_of_ne hne]

theorem not_mem {l : List Nat} (hwf : m.Wf cfg) (hg' : m.segmentsOf g' = some l) : c ∉ l := by
  intro hc
  have hsome := hwf.bit c
  rw [h.free, hwf.owner g' l hg' c hc] at hsome
  cases hsome

theorem clearLogs : m'.clearLogs cfg + 1 = m.clearLogs cfg := by
  unfold SegmentGroupManager.clearLogs
  rw [h.bitmap]
  refine countP_update_true nodup_range' ?_ h.free
  have := h.bounds
  exact mem_range'_1.2 this

theorem wf (hwf : m.Wf cfg) : m'.Wf cfg := by
  obtain ⟨gm, hgm, -⟩ := h.group
  have hold : m.segmentsOf g = some gm.segments := by rw [segmentsOf, hgm]; rfl
  obtain ⟨hlt, logs, hlogs, hnodup, hrange⟩ := hwf.shape g _ hold
  rw [hlogs] at hold
  have hnot := h.not_mem hwf hold
  have hnone : m.segment c = none := by simpa [h.free] using hwf.bit c
  refine hwf.replace hlt (h.segmentsOf_self hold) (fun _ => h.segmentsOf_of_ne) ?_
    (forall_mem_append.2 ⟨hrange, forall_mem_singleton.2 h.bounds⟩) ?_ (fun g' hne => ?_) (fun d => ?_) ?_
  · refine nodup_append.2 ⟨hnodup, by simp, fun a ha => forall_mem_singleton.2 fun heq => ?_⟩
    exact hnot (heq ▸ mem_cons_of_mem _ ha)
  · rw [h.segment]
    exact owner_push (hwf.mem_iff hold)
  · rw [h.segment]
    exact owner_other (by simp [hnone]) (by simpa using hne.symm)
  · rw [h.bitmap, h.segment]
    by_cases hdc : d = c
    · rw [hdc, update_self, update_self]; rfl
    · rw [update_of_ne hdc, update_of_ne hdc, hwf.bit d]
  · rw [h.freeLogSegment, hwf.free, ← h.clearLogs, Nat.add_sub_cancel]

end

end NewLog

/-! ### New groups and released segments -/

theorem foldl_freeSegment (cs : List Nat) (m : SegmentGroupManager) :
    (cs.foldl (freeSegment cfg) m).group = m.group ∧
    (∀ c, (cs.foldl (freeSegment cfg) m).segment c = if c ∈ cs then none else m.segment c) ∧
    (∀ c ∉ cs, (cs.foldl (freeSegment cfg) m).segmentFront c = m.segmentFront c) ∧
    ((∀ c, m.bitmap c = (m.segment c).isSome) →
      ∀ c, (cs.foldl (freeSegment cfg) m).bitmap c = ((cs.foldl (freeSegment cfg) m).segment c).isSome) ∧
    (cs.Nodup → (∀ c ∈ cs, cfg.isLogSegment c ∧ (m.segment c).isSome) →
      (cs.foldl (freeSegment cfg) m).freeLogSegment = m.freeLogSegment + cs.length) := by
  induction cs generalizing m with
  | nil => simp
  | cons d cs ih =>
    rw [foldl_cons]
    obtain ⟨hgroup, hseg, hfront, hbit, hfree⟩ := ih (freeSegment cfg m d)
    have hg : (freeSegment cfg m d).group = m.group := by unfold freeSegment; split <;> rfl
    have hs : (freeSegment cfg m d).segment = update m.segment d none := by
      unfold freeSegment
      split
      next hd => exact (update_eq_self_iff.2 (isNone_iff_eq_none.1 hd).symm).symm
      next => rfl
    have hb : m.bitmap d = (m.segment d).isSome → (freeSegment cfg m d).bitmap = update m.bitmap d false := fun hm => by
      unfold freeSegment
      split
      next hd => exact (update_eq_self_iff.2 (by rw [hm, isNone_iff_eq_none.1 hd]; rfl)).symm
      next => rfl
    have hf : ∀ c, c ≠ d → (freeSegment cfg m d).segmentFront c = m.segmentFront c := by
      intro c hc
      unfold freeSegment
      split
      · rfl
      · exact update_of_ne hc ..
    refine ⟨hgroup.trans hg, fun c => ?_, fun c hc => ?_, fun hm => hbit fun c => ?_, fun hn hall => ?_⟩
    · rw [hseg, hs]
      by_cases hc : c ∈ cs <;> by_cases hcd : c = d <;> simp [hc, hcd]
    · rw [hfront c fun h => hc (mem_cons_of_mem _ h), hf c fun h => hc (h ▸ mem_cons_self ..)]
    · rw [hs, hb (hm d), update_apply, update_apply]
      split
      · rfl
      · exact hm c
    · obtain ⟨hd, hn⟩ := nodup_cons.1 hn
      obtain ⟨hlog, hsome⟩ := hall d (mem_cons_self ..)
      have hone : (freeSegment cfg m d).freeLogSegment = m.freeLogSegment + 1 := by
        rw [freeSegment, if_neg (by rw [← not_isSome, hsome]; simp)]
        exact if_pos hlog
      rw [hfree hn fun c hc => ?_, length_cons]
      · omega
      · have hne : c ≠ d := fun heq => hd (heq ▸ hc)
        rw [hs, update_of_ne hne]
        exact hall c (mem_cons_of_mem _ hc)

theorem foldl_freeSegment_group (cs : List Nat) (m : SegmentGroupManager) (G : Nat → Option GroupMetaData) :
    cs.foldl (freeSegment cfg) { m with group := G } = { cs.foldl (freeSegment cfg) m with group := G } :=
  foldl_hom (fun m : SegmentGroupManager => { m with group := G }) fun m c => by
    unfold freeSegment
    split <;> rfl

/-- The group keeps its main segment alone; its log segments belong to nobody. -/
structure Released (cfg : Config) (g : Nat) (logs : List Nat) (m m' : SegmentGroupManager) : Prop where
  self : m'.segmentsOf g = some [g]
  other : ∀ g', g' ≠ g → m'.group g' = m.group g'
  segment : ∀ c, m'.segment c = if c ∈ logs then none else m.segment c
  segmentFront : ∀ c ∉ logs, m'.segmentFront c = m.segmentFront c
  bit : (∀ c, m.bitmap c = (m.segment c).isSome) → ∀ c, m'.bitmap c = (m'.segment c).isSome
  freeLogSegment : logs.Nodup → (∀ c ∈ logs, cfg.isLogSegment c ∧ (m.segment c).isSome) →
    m'.freeLogSegment = m.freeLogSegment + logs.length

theorem released_of_eq_ok (h : m.releaseGroupLogSegments cfg g = .ok m') (hg : m.segmentsOf g = some (g :: logs)) :
    Released cfg g logs m m' := by
  obtain ⟨gm, hgm, hs⟩ := map_eq_some_iff.1 hg
  simp only [releaseGroupLogSegments, hgm, Except.ok.injEq, hs] at h
  subst h
  obtain ⟨hgroup, hseg, hfront, hbit, hfree⟩ := @foldl_freeSegment cfg logs.reverse m
  refine ⟨?_, fun g' hne => ?_, fun c => ?_, fun c hc => ?_, hbit, fun hn hall => ?_⟩
  · simp [segmentsOf]
  · exact (update_of_ne hne ..).trans (congrFun hgroup g')
  · simpa using hseg c
  · exact hfront c (by simpa using hc)
  · simpa using hfree (reverse_perm logs |>.nodup_iff.2 hn) fun c hc => hall c (mem_reverse.1 hc)

theorem countP_clear {b b' : Nat → Bool} {l logs : List Nat} (hn : l.Nodup) (hlogs : logs.Nodup)
    (hsub : ∀ c ∈ logs, c ∈ l ∧ b c = true) (hb' : ∀ c, b' c = if c ∈ logs then false else b c) :
    (l.countP fun c => !b' c) = (l.countP fun c => !b c) + logs.length := by
  induction logs generalizing b with
  | nil =>
    have : b' = b := funext fun c => by simpa using hb' c
    rw [this]; rfl
  | cons c logs ih =>
    obtain ⟨hc, hlogs⟩ := nodup_cons.1 hlogs
    obtain ⟨hcl, hbc⟩ := hsub c (mem_cons_self ..)
    have hself : update (update b c false) c true = b := by
      rw [update_idem]
      exact update_eq_self_iff.2 hbc.symm
    have hone := @countP_update_true c (update b c false) l hn hcl (update_self ..)
    rw [hself] at hone
    have hrest := ih hlogs (b := update b c false) (fun d hd => ?_) fun d => ?_
    · rw [hrest, ← hone, length_cons]; omega
    · obtain ⟨hdl, hbd⟩ := hsub d (mem_cons_of_mem _ hd)
      have hne : d ≠ c := fun heq => hc (heq ▸ hd)
      exact ⟨hdl, by rw [update_of_ne hne]; exact hbd⟩
    · rw [hb']
      by_cases hdc : d = c
      · simp [hdc]
      · simp [hdc]

theorem Released.clearLogs {logs : List Nat} (h : Released cfg g logs m m') (hwf : m.Wf cfg)
    (hg : m.segmentsOf g = some (g :: logs)) : m'.clearLogs cfg = m.clearLogs cfg + logs.length := by
  obtain ⟨-, logs', heq, hnodup, hrange⟩ := hwf.shape g _ hg
  cases heq
  refine countP_clear nodup_range' hnodup (fun c hc => ⟨?_, ?_⟩) fun c => ?_
  · have := hrange c hc
    exact mem_range'_1.2 this
  · rw [hwf.bit, hwf.owner g _ hg c (mem_cons_of_mem _ hc)]; rfl
  · rw [h.bit hwf.bit, h.segment]
    by_cases hc : c ∈ logs
    · rw [if_pos hc, if_pos hc]; rfl
    · rw [if_neg hc, if_neg hc, hwf.bit]

theorem Released.segmentsOf_of_ne (h : Released cfg g logs m m') (hne : g' ≠ g) : m'.segmentsOf g' = m.segmentsOf g' := by
  rw [segmentsOf, h.other g' hne, segmentsOf]

theorem Released.wf (h : Released cfg g logs m m') (hwf : m.Wf cfg) (hg : m.segmentsOf g = some (g :: logs)) :
    m'.Wf cfg := by
  obtain ⟨hlt, logs', heq, hnodup, hrange⟩ := hwf.shape g _ hg
  cases heq
  have hnot : g ∉ logs := fun hmem => Nat.not_le.2 hlt (hrange g hmem).1
  refine hwf.replace hlt h.self (fun _ => h.segmentsOf_of_ne) nodup_nil nofun (fun c => ?_) (fun g' hne c => ?_)
    (h.bit hwf.bit) ?_
  · rw [h.segment, mem_singleton]
    by_cases hmem : c ∈ logs
    · rw [if_pos hmem]
      exact ⟨nofun, fun heq => absurd (heq ▸ hmem) hnot⟩
    · rw [if_neg hmem, hwf.mem_iff hg, mem_cons, or_iff_left hmem]
  · rw [h.segment]
    by_cases hmem : c ∈ logs
    · rw [if_pos hmem, hwf.owner g _ hg c (mem_cons_of_mem _ hmem)]
      simpa using hne.symm
    · rw [if_neg hmem]
  · rw [h.clearLogs hwf hg, ← hwf.free]
    refine h.freeLogSegment hnodup fun c hc => ⟨decide_eq_true (hrange c hc).1, ?_⟩
    rw [hwf.owner g _ hg c (mem_cons_of_mem _ hc)]
    rfl

theorem getNewMainSegment_cases (hwf : m.Wf cfg) (hlt : g < cfg.numMainSegment) :
    (m.getNewMainSegment cfg g = .ok m ∧ ∃ logs, m.segmentsOf g = some (g :: logs)) ∨
    (m.segmentsOf g = none ∧ m.segment g = none ∧ m.getNewMainSegment cfg g = .ok { m with
      bitmap := update m.bitmap g true
      segment := update m.segment g (some g)
      group := update m.group g (some ⟨[g], 0, 0⟩) }) := by
  rcases hs : m.segment g with _ | g'
  · have hlog : cfg.isLogSegment g = false := decide_eq_false (Nat.not_le.2 hlt)
    have hnone : m.segmentsOf g = none := by
      rcases hg : m.segmentsOf g with _ | l
      · rfl
      · obtain ⟨-, logs, rfl, -⟩ := hwf.shape g l hg
        rw [hwf.owner g _ hg g (mem_cons_self ..)] at hs
        cases hs
    have hgroup : m.group g = none := map_eq_none_iff.1 hnone
    refine .inr ⟨hnone, rfl, ?_⟩
    simp [getNewMainSegment, hs, hlog, hgroup]
  · obtain ⟨l, hl, hmem⟩ := hwf.owned g g' hs
    obtain ⟨-, logs, rfl, -, hrange⟩ := hwf.shape g' l hl
    rcases mem_cons.1 hmem with rfl | hmem
    · exact .inl ⟨by simp [getNewMainSegment, hs], logs, hl⟩
    · exact absurd (hrange g hmem).1 (Nat.not_le.2 hlt)

theorem Wf.createGroup (hwf : m.Wf cfg) (hlt : g < cfg.numMainSegment) (hnone : m.segmentsOf g = none)
    (hg : m.segment g = none) : Wf cfg { m with
      bitmap := update m.bitmap g true
      segment := update m.segment g (some g)
      group := update m.group g (some ⟨[g], 0, 0⟩) } := by
  have hold : ∀ d, m.segment d = some g ↔ d ∈ [] := fun d => by
    refine ⟨fun hd => ?_, nofun⟩
    obtain ⟨l, hl, -⟩ := hwf.owned d g hd
    rw [hnone] at hl
    cases hl
  refine hwf.replace hlt (by simp [segmentsOf]) (fun g' hne => by simp [segmentsOf, update_of_ne hne]) nodup_nil nofun
    (owner_push hold) (fun g' hne => owner_other (by simp [hg]) (by simpa using hne.symm)) (fun c => ?_) (hwf.free.trans ?_)
  · by_cases hcg : c = g
    · subst hcg; simp
    · simp [update_of_ne hcg, hwf.bit c]
  · -- a main segment is not counted
    refine countP_congr fun c hc => ?_
    have hne : c ≠ g := by
      have := (mem_range'_1.1 hc).1
      omega
    simp [update_of_ne hne]

end SegmentGroupManager

/-! ### One placement -/

/-- The segment a group writes to. -/
def lastSegment (g : Nat) (logs : List Nat) : Nat := logs.getLast?.getD g

theorem getLast?_cons_logs (g : Nat) (logs : List Nat) : (g :: logs).getLast? = some (lastSegment g logs) := by
  rw [getLast?_cons, lastSegment]

theorem lastSegment_mem (g : Nat) (logs : List Nat) : lastSegment g logs ∈ g :: logs :=
  mem_of_getLast? (getLast?_cons_logs g logs)

/-- A record of `size` bytes went to offset `front` of the segment `c` of `g`: behind the records of the last segment,
which was filled up to `pos`, or to the start of a segment that was free. -/
structure Placed (cfg : Config) (g size : Nat) (logs : List Nat) (pos : Nat) (m : SegmentGroupManager) (c front : Nat)
    (cur : GroupCursor) : Prop where
  wf : cur.groups.Wf cfg
  segments : cur.groups.segmentsOf g = some (g :: cur.logSegments)
  other : ∀ g', g' ≠ g → cur.groups.segmentsOf g' = m.segmentsOf g'
  getGroupFlushFront : cur.groups.getGroupFlushFront = m.getGroupFlushFront
  segmentFront : cur.groups.segmentFront = update m.segmentFront c (some (front + size))
  frontAt : cfg.FrontAt cur.logSegments cur.flushFront (front + size)
  inside : front + size ≤ cfg.segmentSize c
  last : c = lastSegment g cur.logSegments
  slot : (cur.logSegments = logs ∧ front = pos ∧ cur.groups.bitmap = m.bitmap) ∨
    (cur.logSegments = logs ++ [c] ∧ front = 0 ∧ cfg.Closed logs pos size ∧
      SegmentGroupManager.NewLog cfg g c m { cur.groups with segmentFront := m.segmentFront })

open Wp in
/-- `place` fails for want of a segment only if the record does not fit where the group stands. -/
theorem wp_place {m : SegmentGroupManager} {g size pos flushFront : Nat} {logs : List Nat} (hwf : m.Wf cfg)
    (hseg : m.segmentsOf g = some (g :: logs)) (hfront : cfg.FrontAt logs flushFront pos) (hsize : 0 < size)
    (hfit : cfg.Closed logs pos size → size ≤ cfg.logSegmentSize) :
    wp (GroupCursor.place cfg g size ⟨m, logs, flushFront⟩) (fun (c, front, cur) => Placed cfg g size logs pos m c front cur)
      (fun e => e = .outOfLogSegments ∧ cfg.Closed logs pos size ∧
        ∀ c, cfg.numMainSegment ≤ c → c < cfg.numSegment → m.bitmap c = true) := by
  rcases GroupCursor.place_cases g hfront hsize with ⟨rfl, hle, heq⟩ | ⟨d, hd, hle, heq⟩ | ⟨hclosed, heq⟩
  · have hin : pos + size ≤ cfg.segmentSize g := (segmentSize_main hwf hseg).symm ▸ hle
    rw [heq, wp_ok]
    exact ⟨hwf.setSegmentFlushFront, by simpa using hseg, fun g' _ => by simp, by simp,
      segmentFront_setSegmentFlushFront hin, hfront.main hle, hin, rfl, .inl ⟨rfl, rfl, by simp⟩⟩
  · have hmem : d ∈ logs := mem_of_getLast? hd
    have hin : pos + size ≤ cfg.segmentSize d :=
      (segmentSize_of_mem_logs hwf hseg hmem).symm ▸ hle
    rw [heq, wp_ok]
    exact ⟨hwf.setSegmentFlushFront, by simpa using hseg, fun g' _ => by simp, by simp,
      segmentFront_setSegmentFlushFront hin, hfront.last (ne_nil_of_mem hmem) hle, hin,
      by rw [lastSegment, hd]; rfl, .inl ⟨rfl, rfl, by simp⟩⟩
  · rw [heq, wp_bind]
    rcases hnew : m.getNewLogSegment cfg g with e | ⟨c, m'⟩
    · obtain ⟨he, hfull⟩ := getNewLogSegment_error hwf hseg hnew
      exact ⟨he, hclosed, hfull⟩
    · have hn := newLog_of_eq_ok hnew
      have hseg' := hn.segmentsOf_self hseg
      have hin : size ≤ cfg.segmentSize c := by
        rw [segmentSize_of_mem_logs (hn.wf hwf) hseg' (by simp)]
        exact hfit hclosed
      refine ⟨(hn.wf hwf).setSegmentFlushFront, by simpa using hseg', fun g' hne => ?_, ?_, ?_, ?_, ?_, ?_, ?_⟩
      · simpa using hn.segmentsOf_of_ne hne
      · simpa using hn.getGroupFlushFront
      · rw [segmentFront_setSegmentFlushFront hin, hn.segmentFront, Nat.zero_add]
      · rw [Nat.zero_add]
        exact .fresh c hsize (hfit hclosed)
      · rwa [Nat.zero_add]
      · simp [lastSegment]
      · exact .inr ⟨rfl, rfl, hclosed, hn.bounds, hn.free, by simpa using hn.freeLogSegment,
          by simpa using hn.bitmap, by simpa using hn.segment, rfl,
          by simpa using hn.group⟩

end ValueSep.HashKV
