import Mathlib.Data.List.Nodup
import ValueSep.HashKV.Placement
import ValueSep.HashKV.SegmentTable
import ValueSep.Lib.Exec

/-!
# The bitmap, the maps and the counters agree

`Counted` ties the bits and the counters to the owner map, and is kept by every single change of a segment (`Moved`).
`Listed` ties the owner map to the lists and positions of the groups; the calls change one group as a whole.
-/

namespace ValueSep.HashKV.SegmentTable

open Wp
open List Function Option BitMap Config

variable {cfg : Config} {t t' t'' : SegmentTable} {g c : Nat} {x : Option Nat}

/-- The clear bits among the main segments. -/
def clearMains (cfg : Config) (t : SegmentTable) : Nat :=
  (range cfg.numMainSegment).countP fun c => !t.bitmap.getBit c

/-- The clear bits among the log segments. -/
def clearLogs (cfg : Config) (t : SegmentTable) : Nat :=
  (range' cfg.numMainSegment cfg.numLogSegment).countP fun c => !t.bitmap.getBit c

structure Counted (cfg : Config) (t : SegmentTable) : Prop where
  size : t.bitmap.size = cfg.numSegment
  bit : ∀ c, t.bitmap.getBit c = (t.segment c).isSome
  lt : ∀ c, (t.segment c).isSome → c < cfg.numSegment
  freeMain : t.freeMainSegment = t.clearMains cfg
  freeLog : t.freeLogSegment = t.clearLogs cfg

/-- The owner map and the groups. -/
structure Listed (cfg : Config) (t : SegmentTable) : Prop where
  owner : ∀ g e, t.group g = some e → ∀ c ∈ e.segments, t.segment c = some g
  owned : ∀ c g, t.segment c = some g → ∃ e, t.group g = some e ∧ c ∈ e.segments
  position : ∀ g e, t.group g = some e → ∀ c i, e.position c = some i ↔ e.segments[i]? = some c
  main : ∀ g e, t.group g = some e → g < cfg.numMainSegment ∧ e.segments.head? = some g

/-- A bit is set if and only if the segment has an owner; a segment with an owner is in the list of that group and of no
other; positions are the inverse of the lists, which begin with the main segment; the counters count the clear bits. -/
structure Allocated (cfg : Config) (t : SegmentTable) : Prop where
  counted : t.Counted cfg
  listed : t.Listed cfg

theorem counted_init : (init cfg).Counted cfg where
  size := rfl
  bit _ := getBit_new
  lt _ h := by cases h
  freeMain := by simp [clearMains, init]
  freeLog := by simp [clearLogs, init]

theorem listed_init : (init cfg).Listed cfg where
  owner _ _ h := by cases h
  owned _ _ h := by cases h
  position _ _ h := by cases h
  main _ _ h := by cases h

theorem allocated_init : (init cfg).Allocated cfg := ⟨counted_init, listed_init⟩


/-! ### One segment changes hands -/

/-- The counter of an area when a segment of it gets the owner `x`. -/
def bump : Option Nat → Nat → Nat
  | none => incr
  | some _ => decr

/-- The owner of `c` is now `x`, and the bit and the counter of its area follow. -/
structure Moved (cfg : Config) (c : Nat) (x : Option Nat) (t t' : SegmentTable) : Prop where
  lt : c < t.bitmap.size
  size : t'.bitmap.size = t.bitmap.size
  bit : t'.bitmap.getBit = update t.bitmap.getBit c x.isSome
  segment : t'.segment = update t.segment c x
  free : (t'.freeMainSegment, t'.freeLogSegment) =
    if cfg.isLogSegment c then (t.freeMainSegment, bump x t.freeLogSegment)
    else (bump x t.freeMainSegment, t.freeLogSegment)

variable {l : List Nat} {f : Nat → Nat} {e : GroupEntry}

theorem countP_update_of_not_mem {b : Nat → Bool} {y : Bool} (hc : c ∉ l) :
    (l.countP fun d => !(update b c y d)) = l.countP fun d => !b d := by
  refine countP_congr fun d hd => ?_
  have hne : d ≠ c := fun heq => hc (heq ▸ hd)
  rw [update_of_ne hne]

theorem bump_countP {b : Nat → Bool} (hn : l.Nodup) (hc : c ∈ l) (hb : b c = !x.isSome) (hlen : l.length < 2 ^ 62) :
    bump x (l.countP fun d => !b d) = l.countP fun d => !(update b c x.isSome d) := by
  have hle := countP_le_length (p := fun d => !b d) (l := l)
  cases x with
  | some g =>
    have := SegmentGroupManager.countP_update_true hn hc hb
    simp only [bump, decr, isSome_some]
    omega
  | none =>
    have hback : update (update b c false) c true = b := by
      rw [update_idem]
      exact update_eq_self_iff.2 hb.symm
    have := SegmentGroupManager.countP_update_true (b := update b c false) hn hc (update_self ..)
    rw [hback] at this
    simp only [bump, incr, isSome_none]
    omega

theorem Moved.counted (h : Moved cfg c x t t') (ht : t.Counted cfg) (hx : (t.segment c).isSome = !x.isSome) :
    t'.Counted cfg := by
  have hlt : c < cfg.numSegment := ht.size ▸ h.lt
  have hbit : t.bitmap.getBit c = !x.isSome := (ht.bit c).trans hx
  have hnum := cfg.numSegment_lt
  have hfree := h.free
  have hmain := ht.freeMain
  have hlog := ht.freeLog
  unfold numSegment at hlt hnum
  refine ⟨h.size.trans ht.size, fun d => ?_, fun d hd => ?_, ?_, ?_⟩
  · rw [h.bit, h.segment, update_apply, update_apply]
    split
    · rfl
    · exact ht.bit d
  · rw [h.segment, update_apply] at hd
    split at hd
    · rename_i heq
      rw [heq]
      exact hlt
    · exact ht.lt d hd
  · unfold clearMains at hmain ⊢
    rw [h.bit]
    split at hfree
    · rename_i hc
      rw [(Prod.mk.inj hfree).1, hmain, countP_update_of_not_mem]
      rw [mem_range]
      exact Nat.not_lt.2 (of_decide_eq_true hc)
    · rename_i hc
      rw [(Prod.mk.inj hfree).1, hmain]
      refine bump_countP nodup_range (mem_range.2 ?_) hbit (by rw [length_range]; omega)
      exact Nat.lt_of_not_le fun hle => hc (decide_eq_true hle)
  · unfold clearLogs at hlog ⊢
    rw [h.bit]
    split at hfree
    · rename_i hc
      rw [(Prod.mk.inj hfree).2, hlog]
      refine bump_countP nodup_range' (mem_range'_1.2 ⟨of_decide_eq_true hc, hlt⟩) hbit ?_
      rw [length_range']
      omega
    · rename_i hc
      rw [(Prod.mk.inj hfree).2, hlog, countP_update_of_not_mem]
      rw [mem_range'_1]
      exact fun hmem => hc (decide_eq_true hmem.1)

@[simp] theorem bitmap_count : (t.count cfg f c).bitmap = t.bitmap := by
  unfold count; split <;> rfl

@[simp] theorem segment_count : (t.count cfg f c).segment = t.segment := by
  unfold count; split <;> rfl

@[simp] theorem group_count : (t.count cfg f c).group = t.group := by
  unfold count; split <;> rfl

theorem free_count : ((t.count cfg f c).freeMainSegment, (t.count cfg f c).freeLogSegment) =
    if cfg.isLogSegment c then (t.freeMainSegment, f t.freeLogSegment) else (f t.freeMainSegment, t.freeLogSegment) := by
  unfold count; split <;> rfl

/-! ### One group changes -/

theorem owner_pop {s : Nat → Option Nat} (h : ∀ d, s d = some g ↔ d = c ∨ d ∈ l) (hc : c ∉ l) (d : Nat) :
    update s c none d = some g ↔ d ∈ l := by
  rw [update_apply]
  split
  next heq => simp [heq, hc]
  next hne => simp [h, hne]

section
variable (h : t.Listed cfg) (he : t.group g = some e)
include h he

theorem Listed.mem_iff : c ∈ e.segments ↔ t.segment c = some g := by
  constructor
  · exact h.owner g e he c
  · intro hc
    obtain ⟨e', he', hmem⟩ := h.owned c g hc
    rw [he] at he'
    cases he'
    exact hmem

theorem Listed.segment_main : t.segment g = some g :=
  h.owner g e he g (mem_of_mem_head? (h.main g e he).2)

theorem Listed.nodup : e.segments.Nodup := by
  refine nodup_iff_getElem?_ne_getElem?.2 fun i j hij hj heq => ?_
  have hget := getElem?_eq_getElem hj
  have hi := (h.position g e he _ i).2 (heq.trans hget)
  have hj := (h.position g e he _ j).2 hget
  rw [hi] at hj
  cases hj
  omega

end

/-- A group gets the entry `e'`; of the owner map only what this group has, or had, changes. -/
theorem Listed.replace {e' : GroupEntry} (h : t.Listed cfg) (hgroup : t'.group = update t.group g (some e'))
    (hself : ∀ d, t'.segment d = some g ↔ d ∈ e'.segments)
    (hother : ∀ g', g' ≠ g → ∀ d, t'.segment d = some g' ↔ t.segment d = some g')
    (hpos : ∀ d i, e'.position d = some i ↔ e'.segments[i]? = some d)
    (hmain : g < cfg.numMainSegment ∧ e'.segments.head? = some g) : t'.Listed cfg := by
  have hcases : ∀ g' e, t'.group g' = some e → (g' = g ∧ e = e') ∨ (g' ≠ g ∧ t.group g' = some e) := by
    intro g' e he
    rw [hgroup, update_apply] at he
    split at he
    · rename_i heq
      cases he
      exact .inl ⟨heq, rfl⟩
    · rename_i hne
      exact .inr ⟨hne, he⟩
  refine ⟨fun g' e he d hd => ?_, fun d g' hd => ?_, fun g' e he => ?_, fun g' e he => ?_⟩
  · obtain ⟨rfl, rfl⟩ | ⟨hne, he⟩ := hcases g' e he
    · exact (hself d).2 hd
    · exact (hother g' hne d).2 (h.owner g' e he d hd)
  · by_cases hne : g' = g
    · subst hne
      exact ⟨e', by rw [hgroup, update_self], (hself d).1 hd⟩
    · obtain ⟨e, he, hmem⟩ := h.owned d g' ((hother g' hne d).1 hd)
      exact ⟨e, by rw [hgroup, update_of_ne hne, he], hmem⟩
  · obtain ⟨rfl, rfl⟩ | ⟨-, he⟩ := hcases g' e he
    · exact hpos
    · exact h.position g' e he
  · obtain ⟨rfl, rfl⟩ | ⟨-, he⟩ := hcases g' e he
    · exact hmain
    · exact h.main g' e he

theorem Listed.setGroup {e e' : GroupEntry} (h : t.Listed cfg) (he : t.group g = some e)
    (hseg : e'.segments = e.segments) (hpos : e'.position = e.position) : (t.setGroup g e').Listed cfg := by
  refine h.replace rfl (fun d => ?_) (fun _ _ _ => Iff.rfl) (fun d i => ?_) ?_
  · rw [hseg]
    exact (h.mem_iff he).symm
  · rw [hpos, hseg]
    exact h.position g e he d i
  · rw [hseg]
    exact h.main g e he

theorem Allocated.setGroup {e e' : GroupEntry} (h : t.Allocated cfg) (he : t.group g = some e)
    (hseg : e'.segments = e.segments) (hpos : e'.position = e.position) : (t.setGroup g e').Allocated cfg :=
  ⟨⟨h.counted.size, h.counted.bit, h.counted.lt, h.counted.freeMain, h.counted.freeLog⟩, h.listed.setGroup he hseg hpos⟩

theorem Allocated.accessGroupLock {isLock : Bool} (h : t.Allocated cfg) : (t.accessGroupLock g isLock).Allocated cfg := by
  unfold SegmentTable.accessGroupLock
  rcases he : t.group g with _ | e
  · exact h
  · dsimp only
    split
    · exact h
    · exact h.setGroup he rfl rfl

theorem Allocated.setBitmap {b : BitMap} (h : t.Allocated cfg) (hsize : b.size = t.bitmap.size)
    (hbit : b.getBit = t.bitmap.getBit) : { t with bitmap := b }.Allocated cfg := by
  refine ⟨⟨hsize.trans h.counted.size, fun c => ?_, h.counted.lt, ?_, ?_⟩,
    ⟨h.listed.owner, h.listed.owned, h.listed.position, h.listed.main⟩⟩
  · rw [hbit]
    exact h.counted.bit c
  · rw [clearMains, hbit]
    exact h.counted.freeMain
  · rw [clearLogs, hbit]
    exact h.counted.freeLog

/-! ### Taking a segment -/

theorem wp_check {asserts condition : Bool} {Q : Unit → Prop} (h : Q ()) :
    wp (check asserts condition) Q fun _ => True := by
  unfold check
  split
  · trivial
  · exact h

theorem position_push {p : Nat → Option Nat} (hpos : ∀ d i, p d = some i ↔ l[i]? = some d) (hc : c ∉ l) (d i : Nat) :
    update p c (some l.length) d = some i ↔ (l ++ [c])[i]? = some d := by
  rw [update_apply, getElem?_append]
  by_cases hi : i < l.length
  · split
    · rename_i heq
      constructor
      · rintro ⟨⟩
        exact absurd hi (Nat.lt_irrefl _)
      · intro hget
        exact absurd (heq ▸ mem_of_getElem? hget) hc
    · exact hpos d i
  · rw [getElem?_singleton]
    split
    · rename_i heq
      rw [heq]
      constructor
      · rintro ⟨⟩
        rw [Nat.sub_self, if_pos rfl]
      · intro hget
        split at hget
        · congr 1
          omega
        · cases hget
    · rename_i hne
      constructor
      · intro h
        have hget := (hpos d i).1 h
        rw [getElem?_eq_none (Nat.le_of_not_lt hi)] at hget
        cases hget
      · intro hget
        split at hget
        · cases hget
          exact absurd rfl hne
        · cases hget

/-- A segment without an owner joins a group, whose list so far is `e`'s, or empty if it is the main segment. -/
theorem Allocated.join {b : BitMap} {asserts needsLock : Bool} (h : t.Allocated cfg)
    (hc : t.segment c = none) (hlt : c < t.bitmap.size) (hsize : b.size = t.bitmap.size)
    (hbit : b.getBit = update t.bitmap.getBit c true) {t₁ : SegmentTable}
    (ht₁ : t₁.bitmap = b ∧ t₁.segment = t.segment ∧ t₁.freeMainSegment = t.freeMainSegment ∧
      t₁.freeLogSegment = t.freeLogSegment) (hgroup : t₁.group = update t.group g (some e))
    (hold : ∀ d, d ∈ e.segments ↔ t.segment d = some g) (hpos : ∀ d i, e.position d = some i ↔ e.segments[i]? = some d)
    (hmain : g < cfg.numMainSegment ∧ (e.segments ++ [c]).head? = some g) :
    wp ((t₁.count cfg decr c).join asserts needsLock g c) (fun t' => t'.Allocated cfg) fun _ => True := by
  have hnot : c ∉ e.segments := fun hmem => by
    rw [hold, hc] at hmem
    cases hmem
  unfold SegmentTable.join
  rw [group_count, hgroup, update_self]
  rw [wp_bind]
  refine wp_check ?_
  rw [wp_bind]
  refine wp_check ?_
  obtain ⟨hb, hs, hfm, hfl⟩ := ht₁
  refine ⟨Moved.counted (c := c) (x := some g) ⟨hlt, ?_, ?_, ?_, ?_⟩ h.counted (by rw [hc]; rfl), ?_⟩
  · simp [SegmentTable.setGroup, hb, hsize]
  · simp [SegmentTable.setGroup, hb, hbit]
  · simp [hs]
  · have hfree := @free_count cfg t₁ c decr
    rw [hfm, hfl] at hfree
    exact hfree
  · have hidem : ∀ e' : GroupEntry, update (update t.group g (some e)) g (some e') =
        update t.group g (some e') := fun _ => update_idem ..
    refine h.listed.replace (by simp only [SegmentTable.setGroup, group_count, hgroup]; exact hidem _) ?_
      (fun g' hne => ?_) (position_push hpos hnot) hmain
    all_goals simp only [segment_count, hs]
    · exact owner_push fun d => (hold d).symm
    · exact owner_other (by simp [hc]) (by simpa using hne.symm)

theorem getFirstZeroAndFlip_eq_ok {b b' : BitMap} {addr : Nat} {found : Option Nat}
    (h : b.getFirstZeroAndFlip addr = .ok (found, b')) : b.getFirstZeroSince addr = found ∧
    ((found = none ∧ b' = b) ∨ ∃ c, found = some c ∧ addr ≤ c ∧ b.getBit c = false ∧ b.setBit c = .ok b') := by
  unfold getFirstZeroAndFlip at h
  rcases hfind : b.getFirstZeroSince addr with _ | c
  · rw [hfind] at h
    cases h
    exact ⟨rfl, .inl ⟨rfl, rfl⟩⟩
  · rw [hfind] at h
    rcases hset : b.setBit c with e | b₁
    · simp only [hset] at h
      cases h
    · simp only [hset] at h
      cases h
      rw [getFirstZeroSince_eq] at hfind
      have hmem := mem_range'_1.1 (mem_of_find?_eq_some hfind)
      exact ⟨rfl, .inr ⟨c, rfl, hmem.1, by simpa using find?_some hfind, hset⟩⟩

/-- The segment in hand, if there is one, had no owner. -/
theorem Counted.wp_pick {isLog fixed : Bool} (h : t.Counted cfg) (hfixed : fixed = true → t.segment c = none) :
    wp (pick cfg isLog fixed c t.bitmap) (fun r => r = (invalid, t.bitmap) ∨ t.segment r.1 = none ∧
      t.bitmap.setBit r.1 = .ok r.2) fun _ => True := by
  refine wp_ite (fun hfix => ?_) fun _ => ?_
  · rw [wp_bind, wp_iff]
    intro b hb
    exact .inr ⟨hfixed hfix, hb⟩
  · rw [wp_bind, wp_iff]
    rintro ⟨found, b⟩ hb
    obtain ⟨rfl, rfl⟩ | ⟨d, rfl, -, hclear, hset⟩ := (getFirstZeroAndFlip_eq_ok hb).2
    · exact .inl rfl
    · refine .inr ⟨?_, hset⟩
      rw [h.bit d] at hclear
      simpa using hclear

/-- A round either leaves the bits as they were or enters one segment everywhere. -/
theorem Allocated.wp_round {asserts isLog needsLock fixed : Bool} (h : t.Allocated cfg)
    (hfixed : fixed = true → t.segment c = none) :
    wp (t.round cfg asserts isLog needsLock fixed g c) (fun r => r.2.2.Allocated cfg) fun _ => True := by
  unfold round
  rw [wp_bind]
  refine wp_mono (h.counted.wp_pick hfixed) ?_ fun _ _ => trivial
  rintro ⟨d, b⟩ (heq | ⟨hd, hset⟩)
  · -- nothing found
    cases heq
    refine wp_ite (fun _ => ?_) fun _ => ?_
    · exact h.setBitmap rfl rfl
    · exact h.setBitmap rfl rfl
  · obtain ⟨hlt, hsize, hbit⟩ := setBit_eq_ok hset
    have hdlt : d < cfg.numSegment := h.counted.size ▸ hlt
    have hne : d ≠ invalid := cfg.ne_invalid hdlt
    dsimp only
    rw [if_neg hne, if_neg hne]
    refine wp_ite (fun _ => ?_) fun harea => ?_
    · -- the bit is cleared again
      rw [wp_bind, wp_iff]
      intro b' hclear
      obtain ⟨-, hsize', hbit'⟩ := clearBit_eq_ok hclear
      refine h.setBitmap (hsize'.trans hsize) ?_
      rw [hbit', hbit, update_idem]
      refine update_eq_self_iff.2 ?_
      rw [h.counted.bit d, hd]
      rfl
    · refine wp_ite (fun hlog => ?_) fun hlog => ?_
      · rw [wp_bind]
        rcases hg : t.group g with _ | e
        · unfold SegmentTable.join
          rw [group_count, hg]
          trivial
        · obtain ⟨hmain, hhead⟩ := h.listed.main g e hg
          refine h.join hd hlt hsize hbit ⟨rfl, rfl, rfl, rfl⟩ (update_eq_self_iff.2 hg.symm).symm
            (fun d => h.listed.mem_iff hg) (h.listed.position g e hg) ⟨hmain, ?_⟩
          rw [head?_append, hhead]
          rfl
      · have hmain : d < cfg.numMainSegment := by
          rw [Bool.not_eq_true] at hlog
          rw [hlog] at harea
          refine Nat.lt_of_not_le fun hle => harea ?_
          rw [isLogSegment, decide_eq_true hle]
          rfl
        rw [wp_bind]
        unfold createGroup
        rw [wp_bind]
        refine wp_check ?_
        rw [wp_ok, wp_bind]
        refine h.join hd hlt hsize hbit ⟨rfl, rfl, rfl, rfl⟩ rfl (fun d' => ?_) (fun d' i => ?_) ⟨hmain, rfl⟩
        · -- a group of that name would own its main segment
          refine ⟨fun hmem => (by cases hmem), fun hown => ?_⟩
          obtain ⟨e, he, -⟩ := h.listed.owned d' d hown
          rw [h.listed.segment_main he] at hd
          cases hd
        · simp [GroupEntry.empty]

theorem Allocated.wp_rounds {asserts isLog needsLock fixed : Bool} {n : Nat} (h : t.Allocated cfg)
    (hfixed : fixed = true → t.segment c = none) :
    wp (rounds cfg asserts isLog needsLock fixed n g c t) (fun r => r.2.2.Allocated cfg) fun _ => True := by
  induction n generalizing t g c with
  | zero => exact h.wp_round hfixed
  | succ n ih =>
    refine wp_seq (h.wp_round hfixed) ?_
    rintro ⟨g', c', t'⟩ ht'
    refine wp_ite (fun hagain => ?_) fun _ => ht'
    refine ih ht' fun hfix => ?_
    rw [hfix] at hagain
    exact absurd hagain.2 (by decide)

theorem Allocated.wp_getNewSegment {asserts isLog needsLock : Bool} (h : t.Allocated cfg) :
    wp (t.getNewSegment cfg asserts isLog needsLock g c) (fun r => r.2.Allocated cfg) fun _ => True := by
  refine wp_ite (fun _ => h) fun hfree => wp_ite (fun _ => h) fun _ => ?_
  refine wp_seq (h.wp_rounds fun hfix => ?_) ?_
  · by_contra hsome
    exact hfree ⟨hfix, isSome_iff_ne_none.2 hsome⟩
  · rintro ⟨g', c', t'⟩ ht'
    rw [wp_bind]
    exact wp_check ht'

/-! ### The server's model -/

theorem manager_setGroup : (t.setGroup g e).manager =
    { t.manager with group := update t.manager.group g (some ⟨e.segments, e.writeFront, e.flushFront⟩) } := by
  simp only [manager, setGroup, SegmentGroupManager.mk.injEq, true_and]
  funext g'
  rw [update_apply, update_apply]
  split <;> rfl

theorem group_manager (he : t.group g = some e) :
    t.manager.group g = some ⟨e.segments, e.writeFront, e.flushFront⟩ :=
  congrArg (Option.map _) he

theorem wp_join {asserts needsLock : Bool} (he : t.group g = some e) :
    wp (t.join asserts needsLock g c) (fun t' => t'.manager = { t.manager with
      segment := update t.segment c (some g)
      group := update t.manager.group g (some ⟨e.segments ++ [c], e.writeFront, e.flushFront⟩) }) fun _ => True := by
  unfold SegmentTable.join
  rw [he, wp_bind]
  refine wp_check ?_
  rw [wp_bind]
  refine wp_check ?_
  exact congrArg (fun m : SegmentGroupManager => { m with segment := update t.segment c (some g) })
    (manager_setGroup (t := t) (g := g) (e := { e with
      position := update e.position c (some e.segments.length)
      segments := e.segments ++ [c]
      locked := e.locked || needsLock }))

/-- A fixed segment is tried once. -/
theorem rounds_fixed {asserts isLog needsLock : Bool} {n : Nat} :
    rounds cfg asserts isLog needsLock true n g c t = t.round cfg asserts isLog needsLock true g c := by
  cases n with
  | zero => rfl
  | succ n =>
    unfold rounds
    rcases t.round cfg asserts isLog needsLock true g c with _ | ⟨g', c', t'⟩
    · rfl
    · exact if_neg fun h => absurd h.2 (by decide)

theorem Counted.freeLog_lt (h : t.Counted cfg) : t.freeLogSegment < 2 ^ 62 := by
  have hle := countP_le_length (p := fun c => !t.bitmap.getBit c) (l := range' cfg.numMainSegment cfg.numLogSegment)
  have := cfg.numSegment_lt
  rw [h.freeLog, clearLogs]
  rw [length_range'] at hle
  unfold numSegment at this
  omega

theorem manager_count_main {f : Nat → Nat} (hc : cfg.isLogSegment c = false) : (t.count cfg f c).manager = t.manager := by
  unfold count
  rw [hc]
  rfl

theorem Allocated.wp_getNewMainSegment {asserts needsLock : Bool} (h : t.Allocated cfg) (hc : c < cfg.numMainSegment) :
    wp (t.getNewMainSegment cfg asserts needsLock g c)
      (fun r => t.manager.getNewMainSegment cfg c = .ok r.2.manager) fun _ => True := by
  have hlog : cfg.isLogSegment c = false := decide_eq_false (Nat.not_le.2 hc)
  have hne : c ≠ invalid := cfg.ne_invalid (Nat.lt_add_right _ hc)
  unfold SegmentTable.getNewMainSegment getNewSegment SegmentGroupManager.getNewMainSegment
  rw [decide_eq_true hne, hlog]
  refine wp_ite (fun hused => if_pos hused.2) fun hfree => ?_
  have hgroup : t.group c = none := by
    rcases he : t.group c with _ | e
    · rfl
    · exact absurd ⟨rfl, by rw [h.listed.segment_main he]; rfl⟩ hfree
  have hnone : t.manager.group c = none := congrArg (Option.map _) hgroup
  have hfree' : ¬(t.manager.segment c).isSome := fun hsome => hfree ⟨rfl, hsome⟩
  rw [if_neg nofun, rounds_fixed, if_neg hfree', if_neg nofun, hnone, if_neg nofun]
  rw [wp_bind]
  unfold round pick createGroup
  rw [if_pos rfl, wp_bind, wp_bind, wp_iff]
  intro b hset
  have hbit : b.getBit = update t.bitmap.getBit c true := (setBit_eq_ok hset).2.2
  rw [wp_ok]
  dsimp only
  rw [hlog, if_neg nofun, if_neg hne, if_neg nofun, wp_bind, wp_bind]
  refine wp_check ?_
  refine wp_seq (wp_join (e := .empty) (by rw [group_count]; exact update_self ..)) fun t' ht' => ?_
  refine wp_bind.2 (wp_check ?_)
  show Except.ok _ = Except.ok t'.manager
  rw [ht', manager_count_main hlog, manager_setGroup, segment_count]
  dsimp only
  rw [update_idem]
  simp [manager, hbit, GroupEntry.empty]
  rfl

theorem Allocated.wp_round_log {asserts needsLock : Bool} {d : Nat} (h : t.Allocated cfg) :
    wp (t.round cfg asserts true needsLock false g d) (fun r => r.1 = g ∧
      (r.2 = (invalid, t) ∧ t.manager.getNewLogSegment cfg g = .error .outOfLogSegments ∨
        r.2.1 ≠ invalid ∧ t.manager.getNewLogSegment cfg g = .ok (r.2.1, r.2.2.manager))) fun _ => True := by
  have hfirst : t.bitmap.getFirstZeroSince cfg.numMainSegment =
      t.manager.getFirstZeroSince cfg.numSegment cfg.numMainSegment := by
    rw [getFirstZeroSince_eq, h.counted.size]
    rfl
  unfold round pick SegmentGroupManager.getNewLogSegment
  rw [← hfirst, if_neg nofun, if_pos rfl, wp_bind, wp_bind, wp_iff]
  rintro ⟨found, b⟩ hflip
  obtain ⟨hfound, ⟨rfl, rfl⟩ | ⟨c, rfl, hle, hclear, hset⟩⟩ := getFirstZeroAndFlip_eq_ok hflip
  · rw [hfound]
    refine wp_ite (fun _ => ?_) fun _ => ?_
    · exact ⟨rfl, .inl ⟨rfl, rfl⟩⟩
    · exact ⟨rfl, .inl ⟨rfl, rfl⟩⟩
  · obtain ⟨hlt, -, hbit⟩ := setBit_eq_ok hset
    rw [h.counted.size] at hlt
    have hlog : cfg.isLogSegment c = true := decide_eq_true hle
    have hne : c ≠ invalid := cfg.ne_invalid hlt
    have hfree : t.freeLogSegment - 1 = decr t.freeLogSegment := by
      have hpos : 0 < t.clearLogs cfg := countP_pos_iff.2 ⟨c, mem_range'_1.2 ⟨hle, hlt⟩, by simp [hclear]⟩
      have hbound := h.counted.freeLog_lt
      rw [h.counted.freeLog] at hbound ⊢
      unfold decr
      omega
    rw [wp_ok]
    dsimp only
    rw [getD_some, hlog, if_neg nofun, if_neg hne, if_pos rfl, hfound]
    rcases he : t.group g with _ | e
    · unfold SegmentTable.join
      rw [group_count, he]
      trivial
    refine wp_seq (wp_join (e := e) (by rw [group_count]; exact he)) fun t' ht' => ⟨rfl, .inr ⟨hne, ?_⟩⟩
    have hnot : c ∉ e.segments := fun hmem => by
      rw [h.counted.bit, h.listed.owner g e he c hmem] at hclear
      cases hclear
    rw [group_manager he]
    dsimp only
    rw [if_neg hnot, ht']
    simp [manager, count, hlog, hbit, hfree]

theorem Allocated.wp_getNewLogSegment {asserts needsLock : Bool} (h : t.Allocated cfg) (hg : g ≠ invalid) :
    wp (t.getNewLogSegment cfg asserts needsLock g invalid)
      (fun r => t.manager.getNewLogSegment cfg g =
        if r.1.done then .ok (r.1.segmentId, r.2.manager) else .error .outOfLogSegments) fun _ => True := by
  unfold SegmentTable.getNewLogSegment getNewSegment
  rw [decide_eq_false (not_not.2 rfl), if_neg nofun, if_neg fun hno => hg hno.2]
  have hrounds : ∀ n d, wp (rounds cfg asserts true needsLock false n g d t) (fun r => r.1 = g ∧
      (r.2 = (invalid, t) ∧ t.manager.getNewLogSegment cfg g = .error .outOfLogSegments ∨
        r.2.1 ≠ invalid ∧ t.manager.getNewLogSegment cfg g = .ok (r.2.1, r.2.2.manager))) fun _ => True := by
    intro n
    induction n with
    | zero => exact fun d => h.wp_round_log
    | succ n ih =>
      intro d
      refine wp_seq h.wp_round_log ?_
      rintro ⟨g', c', t'⟩ ⟨rfl, hr⟩
      refine wp_ite (fun hagain => ?_) fun _ => ⟨rfl, hr⟩
      obtain ⟨heq, -⟩ := hr.resolve_right fun hr => hr.1 hagain.1
      cases heq
      exact ih _
  refine wp_seq (hrounds _ _) ?_
  rintro ⟨g', c', t'⟩ ⟨rfl, ⟨heq, hr⟩ | ⟨hne, hr⟩⟩
  · cases heq
    exact wp_bind.2 (wp_check (by simp [hr]))
  · exact wp_bind.2 (wp_check (by simp [hr, hne, hg]))

/-! ### Releasing the log segments -/

theorem position_pop {p : Nat → Option Nat} (hpos : ∀ d i, p d = some i ↔ (l ++ [c])[i]? = some d)
    (hc : c ∉ l) (d i : Nat) : update p c none d = some i ↔ l[i]? = some d := by
  rw [update_apply]
  split
  · rename_i heq
    refine ⟨fun h => (by cases h), fun h => ?_⟩
    exact absurd (heq ▸ mem_of_getElem? h) hc
  · rename_i hne
    rw [hpos, getElem?_append]
    split
    · exact Iff.rfl
    · rename_i hi
      rw [getElem?_eq_none (Nat.le_of_not_lt hi), getElem?_singleton]
      refine ⟨fun h => ?_, fun h => (by cases h)⟩
      split at h
      · cases h
        exact absurd rfl hne
      · cases h

theorem Allocated.wp_releaseLast (h : t.Allocated cfg) (he : t.group g = some e) (hlen : 1 < e.segments.length) :
    wp (t.releaseLast cfg g) (fun t' => t'.Allocated cfg ∧ ∃ e' c, t'.group = update t.group g (some e') ∧
      e.segments = e'.segments ++ [c] ∧ ∀ G, { t'.manager with group := G } =
        SegmentGroupManager.freeSegment cfg { t.manager with group := G } c) fun _ => True := by
  obtain ⟨hmain, hhead⟩ := h.listed.main g e he
  obtain ⟨c, hlast⟩ : ∃ c, e.segments.getLast? = some c := by
    refine ⟨e.segments.getLast (by rintro hnil; rw [hnil] at hlen; cases hlen), getLast?_eq_some_getLast _⟩
  have hmem : c ∈ e.segments := mem_of_getLast? hlast
  have hown := h.listed.owner g e he c hmem
  have hne : c ≠ invalid := cfg.ne_invalid (h.counted.lt c (by rw [hown]; rfl))
  have hnodup := h.listed.nodup he
  unfold releaseLast
  rw [he]
  dsimp only
  rw [hlast]
  dsimp only
  unfold freeSegment
  rw [if_neg (by simp [SegmentTable.setGroup, hne, hown]), wp_bind, wp_bind, wp_iff]
  intro b hb
  obtain ⟨hlt, hsize, hbit⟩ := clearBit_eq_ok hb
  obtain ⟨e', he'⟩ : ∃ e' : GroupEntry, e' = { e with
      position := update e.position c none, segments := e.segments.dropLast } := ⟨_, rfl⟩
  have hsegs : e.segments = e'.segments ++ [c] := by
    obtain ⟨l, hl⟩ := getLast?_eq_some_iff.1 hlast
    rw [he', hl, dropLast_concat]
  have hgone : c ∉ e'.segments := fun hc => by
    rw [hsegs] at hnodup
    exact disjoint_of_nodup_append hnodup hc (mem_singleton_self c)
  rw [← he']
  refine ⟨⟨Moved.counted (t := t) (c := c) (x := none) ⟨hlt, ?_, ?_, ?_, ?_⟩ h.counted (by rw [hown]; rfl), ?_⟩, e',
    c, ?_, hsegs, fun G => ?_⟩
  · simpa [SegmentTable.setGroup] using hsize
  · simpa [SegmentTable.setGroup] using hbit
  · simp [SegmentTable.setGroup]
  · exact free_count
  · have hgroup : ∀ f : GroupEntry, update (update t.group g (some f)) g (some e') =
        update t.group g (some e') := fun _ => update_idem ..
    refine h.listed.replace (by simp only [SegmentTable.setGroup, group_count]; exact hgroup _) ?_
      (fun g' hne => ?_) ?_ ⟨hmain, ?_⟩
    · simp only [SegmentTable.setGroup, segment_count]
      refine owner_pop (fun d => ?_) hgone
      rw [← h.listed.mem_iff he, hsegs, mem_append, mem_singleton, or_comm]
    · simp only [SegmentTable.setGroup, segment_count]
      exact owner_other (by simpa [hown] using hne.symm) nofun
    · have hpos := h.listed.position g e he
      rw [hsegs] at hpos
      have hpop := position_pop hpos hgone
      rwa [he'] at hpop ⊢
    · rw [hsegs] at hhead hlen
      rw [← hhead, head?_append_of_ne_nil]
      rintro hnil
      rw [hnil] at hlen
      cases hlen with
      | step hle => cases hle
  · simp [SegmentTable.setGroup]
  · have hincr : incr t.freeLogSegment = t.freeLogSegment + 1 := by
      have := h.counted.freeLog_lt
      unfold incr
      omega
    have hbit' : b.getBit = update t.bitmap.getBit c false := hbit
    rw [SegmentGroupManager.freeSegment, if_neg (by simp [manager, hown])]
    unfold count
    split <;> simp [manager, SegmentTable.setGroup, hbit', hincr]

theorem Allocated.wp_releaseLogs {n : Nat} (h : t.Allocated cfg) (he : t.group g = some e)
    (hlen : e.segments.length = n + 1) :
    wp (releaseLogs cfg g n t) (fun t' => t'.Allocated cfg ∧ ∃ e', t'.group = update t.group g (some e') ∧
      e'.segments = e.segments.take 1 ∧ ∀ G, { t'.manager with group := G } =
        e.segments.tail.reverse.foldl (SegmentGroupManager.freeSegment cfg) { t.manager with group := G }) fun _ => True := by
  induction n generalizing t e with
  | zero =>
    obtain ⟨c, hc⟩ := length_eq_one_iff.1 hlen
    exact ⟨h, e, (update_eq_self_iff.2 he.symm).symm, by simp [hc], fun G => by simp [hc]⟩
  | succ n ih =>
    refine wp_seq (h.wp_releaseLast he (by omega)) ?_
    rintro t' ⟨ht', e', c, he', hsegs, hfree⟩
    have hlen' : e'.segments.length = n + 1 := by simpa [hsegs] using hlen
    refine wp_mono (ih ht' (by rw [he', update_self]) hlen') ?_ fun _ => id
    rintro t'' ⟨ht'', e'', he'', hsegs'', hfree''⟩
    have hne : e'.segments ≠ [] := ne_nil_of_length_eq_add_one hlen'
    refine ⟨ht'', e'', by rw [he'', he', update_idem], ?_, fun G => ?_⟩
    · rw [hsegs'', hsegs, take_append_of_le_length (by omega)]
    · rw [hfree'', hfree, hsegs, tail_append_of_ne_nil hne, reverse_append]
      rfl

theorem manager_accessGroupLock {isLock : Bool} : (t.accessGroupLock g isLock).manager = t.manager := by
  unfold accessGroupLock
  split
  · rfl
  next e he =>
    split
    · rfl
    · rw [manager_setGroup, update_eq_self_iff.2 (group_manager he).symm]

theorem Allocated.wp_releaseGroupLogSegments {needsLock : Bool} (h : t.Allocated cfg) :
    wp (t.releaseGroupLogSegments cfg needsLock g)
      (fun t' => t'.Allocated cfg ∧ t.manager.releaseGroupLogSegments cfg g = .ok t'.manager) fun _ => True := by
  obtain ⟨t₁, ht₁⟩ : ∃ t₁, t₁ = if needsLock then t.accessGroupLock g true else t := ⟨_, rfl⟩
  have hlock : t₁.Allocated cfg ∧ t₁.manager = t.manager := by
    rw [ht₁]
    split
    · exact ⟨h.accessGroupLock, manager_accessGroupLock⟩
    · exact ⟨h, rfl⟩
  unfold SegmentTable.releaseGroupLogSegments SegmentGroupManager.releaseGroupLogSegments
  rw [← ht₁, ← hlock.2]
  dsimp only
  rcases he : t₁.group g with _ | e
  · refine wp_seq (Q := (· = t₁)) rfl ?_
    rintro _ rfl
    rw [he]
    trivial
  · have hne : e.segments ≠ [] := by
      intro hnil
      have := (hlock.1.listed.main g e he).2
      rw [hnil] at this
      cases this
    have hlen : e.segments.length = e.segments.length - 1 + 1 := (Nat.sub_add_cancel (length_pos_iff.2 hne)).symm
    refine wp_seq (hlock.1.wp_releaseLogs he hlen) ?_
    rintro t' ⟨ht', e', he', hsegs, hfree⟩
    have hself : t'.group g = some e' := by rw [he', update_self]
    rw [hself]
    refine ⟨ht'.setGroup hself rfl rfl, ?_⟩
    have hgroup : t'.manager.group = update t₁.manager.group g (some ⟨e'.segments, e'.writeFront, e'.flushFront⟩) := by
      show (fun g' => (t'.group g').map _) = _
      rw [he']
      exact congrArg SegmentGroupManager.group (manager_setGroup (t := t₁) (g := g) (e := e'))
    rw [group_manager he, manager_setGroup]
    dsimp only
    rw [hgroup, update_idem, hfree, hsegs, (SegmentGroupManager.foldl_freeSegment _ _).1]
    exact congrArg Except.ok (SegmentGroupManager.foldl_freeSegment_group ..).symm

/-! ### Another list of segments -/

/-- In the first loop of `setGroupSegments` the group has lost all segments but those in `rest`. -/
structure Vacating (cfg : Config) (g : Nat) (t : SegmentTable) (rest : List Nat) (t' : SegmentTable) : Prop where
  counted : t'.Counted cfg
  nodup : rest.Nodup
  self : ∀ d, t'.segment d = some g ↔ d ∈ rest
  other : ∀ g', g' ≠ g → ∀ d, t'.segment d = some g' ↔ t.segment d = some g'
  group : ∃ e, t'.group = update t.group g (some e) ∧ ∀ d i, e.position d = some i → d ∈ rest

theorem Vacating.wp_vacate {rest : List Nat} (h : Vacating cfg g t (c :: rest) t') :
    wp (t'.vacate cfg g c) (Vacating cfg g t rest) fun _ => True := by
  obtain ⟨e, hgroup, hpos⟩ := h.group
  obtain ⟨hc, hnodup⟩ := nodup_cons.1 h.nodup
  have hown : t'.segment c = some g := (h.self c).2 (mem_cons_self ..)
  have hg : t'.group g = some e := by rw [hgroup, update_self]
  unfold vacate
  rw [hg]
  rw [wp_bind, wp_iff]
  intro b hb
  obtain ⟨hlt, hsize, hbit⟩ := clearBit_eq_ok hb
  refine ⟨Moved.counted (t := t') (c := c) (x := none) ⟨hlt, ?_, ?_, ?_, free_count⟩ h.counted (by rw [hown]; rfl),
    hnodup, ?_, fun g' hne d => ?_, { e with position := update e.position c none }, ?_, fun d i hd => ?_⟩
  · simpa [setGroup] using hsize
  · simpa [setGroup] using hbit
  · simp [setGroup]
  · simp only [setGroup, segment_count]
    exact owner_pop (fun d => (h.self d).trans mem_cons) hc
  · simp only [setGroup, segment_count]
    rw [← h.other g' hne d]
    exact owner_other (by rw [hown]; simpa using hne.symm) (by simp) d
  · simp only [setGroup, group_count, hgroup, update_idem]
  · dsimp only at hd
    rw [update_apply] at hd
    split at hd
    · cases hd
    · rename_i hdc
      exact (mem_cons.1 (hpos d i hd)).resolve_left hdc

/-- The second loop, with `ds` entered and `rest` to come. -/
theorem Counted.wp_occupy {G : Nat → Option GroupEntry} {ds rest : List Nat} (ht : t.Counted cfg)
    (hnodup : (ds ++ rest).Nodup) (hfree : ∀ c ∈ rest, t.segment c = none)
    (hself : ∀ d, t.segment d = some g ↔ d ∈ ds) (hgroup : t.group = update G g (some e))
    (hpos : ∀ d i, e.position d = some i ↔ ds[i]? = some d) :
    wp ((rest.zipIdx ds.length).foldlM (fun t (c, idx) => t.occupy cfg g c idx) t) (fun t' => t'.Counted cfg ∧
      (∀ d, t'.segment d = some g ↔ d ∈ ds ++ rest) ∧
      (∀ g', g' ≠ g → ∀ d, t'.segment d = some g' ↔ t.segment d = some g') ∧
      ∃ e', t'.group = update G g (some e') ∧ ∀ d i, e'.position d = some i ↔ (ds ++ rest)[i]? = some d)
      fun _ => True := by
  induction rest generalizing t ds e with
  | nil => exact ⟨ht, by simpa using hself, fun _ _ _ => Iff.rfl, e, hgroup, by simpa using hpos⟩
  | cons c rest ih =>
    have hc := hfree c (mem_cons_self ..)
    have hcds : c ∉ ds := fun hmem => by
      rw [(hself c).2 hmem] at hc
      cases hc
    have happend : ds ++ c :: rest = (ds ++ [c]) ++ rest := by simp
    rw [happend] at hnodup ⊢
    rw [zipIdx_cons, foldlM_cons, wp_bind]
    have hg : t.group g = some e := by rw [hgroup, update_self]
    unfold occupy
    rw [hg]
    rw [wp_bind, wp_iff]
    intro b hb
    obtain ⟨hlt, hsize, hbit⟩ := setBit_eq_ok hb
    have hlen : ds.length + 1 = (ds ++ [c]).length := by simp
    rw [wp_ok, hlen]
    refine wp_mono (ih (e := { e with position := update e.position c (some ds.length) }) ?_ hnodup ?_ ?_
      (by simp only [setGroup, group_count, hgroup, update_idem]) (position_push hpos hcds)) ?_
      fun _ => id
    · refine Moved.counted (t := t) (c := c) (x := some g) ⟨hlt, ?_, ?_, ?_, free_count⟩ ht (by rw [hc]; rfl)
      · simpa [setGroup] using hsize
      · simpa [setGroup] using hbit
      · simp [setGroup]
    · intro d hd
      have hne : d ≠ c := by
        rintro rfl
        exact disjoint_of_nodup_append hnodup (mem_append_right _ (mem_singleton_self d)) hd
      simp only [setGroup, segment_count]
      rw [update_of_ne hne]
      exact hfree d (mem_cons_of_mem _ hd)
    · simp only [setGroup, segment_count]
      exact owner_push hself
    · rintro t' ⟨ht', hself', hother', hgroup'⟩
      refine ⟨ht', hself', fun g' hne d => ?_, hgroup'⟩
      rw [hother' g' hne d]
      simp only [setGroup, segment_count]
      exact owner_other (by simp [hc]) (by simpa using hne.symm) d

/-- With a list that begins with the main segment, has no repetitions and takes nothing from another group. -/
theorem Allocated.wp_setGroupSegments {segments : List Nat} (h : t.Allocated cfg) (hnodup : segments.Nodup)
    (hmain : g < cfg.numMainSegment) (hhead : segments.head? = some g)
    (hfree : ∀ c ∈ segments, t.segment c = none ∨ t.segment c = some g) :
    wp (t.setGroupSegments cfg g segments) (fun t' => t'.Allocated cfg) fun _ => True := by
  obtain ⟨e, he⟩ : ∃ e, e = (t.group g).getD .empty := ⟨_, rfl⟩
  have hmem : ∀ d, t.segment d = some g ↔ d ∈ e.segments := by
    intro d
    rcases hg : t.group g with _ | e'
    · rw [he, hg]
      refine ⟨fun hd => ?_, fun hd => by cases hd⟩
      obtain ⟨e', he', -⟩ := h.listed.owned d g hd
      rw [hg] at he'
      cases he'
    · rw [he, hg]
      exact (h.listed.mem_iff hg).symm
  have hentry : e.segments.Nodup ∧ ∀ d i, e.position d = some i → d ∈ e.segments := by
    rcases hg : t.group g with _ | e'
    · rw [he, hg]
      exact ⟨nodup_nil, fun d i hd => by cases hd⟩
    · rw [he, hg]
      exact ⟨h.listed.nodup hg, fun d i hd => mem_of_getElem? ((h.listed.position g e' hg d i).1 hd)⟩
  unfold setGroupSegments
  rw [← he]
  rw [wp_bind]
  have hstart : Vacating cfg g t e.segments (t.setGroup g e) :=
    ⟨⟨h.counted.size, h.counted.bit, h.counted.lt, h.counted.freeMain, h.counted.freeLog⟩, hentry.1, hmem,
      fun _ _ _ => Iff.rfl, e, rfl, hentry.2⟩
  refine wp_mono (wp_foldlM (fun _ _ _ hI => hI.wp_vacate) hstart) (fun t₁ h₁ => ?_) fun _ => id
  obtain ⟨e₁, hg₁, hpos₁⟩ := h₁.group
  have hnone : ∀ c ∈ segments, t₁.segment c = none := by
    intro c hc
    rcases hs : t₁.segment c with _ | g'
    · rfl
    · by_cases hne : g' = g
      · rw [hne, h₁.self] at hs
        cases hs
      · rw [h₁.other g' hne] at hs
        rcases hfree c hc with hc | hc
        · rw [hc] at hs
          cases hs
        · rw [hc, Option.some.injEq] at hs
          exact absurd hs.symm hne
  refine wp_seq (@Counted.wp_occupy cfg t₁ g _ _ [] _ h₁.counted hnodup hnone (fun d => by simp [h₁.self]) hg₁ (fun d i => ?_)) ?_
  · refine ⟨fun hd => ?_, fun hd => by cases hd⟩
    have := hpos₁ d i hd
    cases this
  · rintro t₂ ⟨hcounted, hself, hother, e₂, hg₂, hpos₂⟩
    have hg : t₂.group g = some e₂ := by rw [hg₂, update_self]
    rw [hg]
    refine ⟨⟨hcounted.size, hcounted.bit, hcounted.lt, hcounted.freeMain, hcounted.freeLog⟩, ?_⟩
    have hgroup : (t₂.setGroup g { e₂ with segments := segments }).group =
        update t.group g (some { e₂ with segments := segments }) := by
      simp only [SegmentTable.setGroup, hg₂, update_idem]
    refine h.listed.replace hgroup hself (fun g' hne d => ?_) hpos₂ ⟨hmain, hhead⟩
    exact (hother g' hne d).trans (h₁.other g' hne d)

/-! ### Runs -/

open Exec (run AllSteps exists_of_map)

theorem Allocated.wp_apply {asserts : Bool} {op : TableOp} (h : t.Allocated cfg) (howns : op.Owns t)
    (hgroup : op.IsGroup cfg) : wp (t.apply cfg asserts op) (fun t' => t'.Allocated cfg) fun _ => True := by
  cases op with
  | getNewMainSegment needsLock g c => exact wp_map.2 h.wp_getNewSegment
  | getNewLogSegment needsLock g c => exact wp_map.2 h.wp_getNewSegment
  | releaseGroupLogSegments needsLock g => exact wp_mono h.wp_releaseGroupLogSegments (fun _ => And.left) fun _ => id
  | setGroupSegments g segments => exact h.wp_setGroupSegments hgroup.1 hgroup.2.2 hgroup.2.1 howns
  | releaseGroupLock g => exact h.accessGroupLock

/-- Whatever is allocated, released and exhausted, the bitmap, the maps, the lists and the counters agree. -/
theorem allocated_of_run {asserts : Bool} {ops : List TableOp}
    (hops : AllSteps (step cfg asserts) (fun t op => op.Owns t ∧ op.IsGroup cfg) (init cfg) ops)
    (hrun : run (step cfg asserts) (init cfg) ops = some t) : t.Allocated cfg :=
  Exec.run_inv (fun _ _ _ ht hop hstep => wp_iff.1 (ht.wp_apply hop.1 hop.2) _ (toOption_eq_some.1 hstep)) allocated_init
    hops hrun

/-- A group grows by two log segments, shrinks and is given another list; then no main segment is left. -/
theorem allocated_of_run_small : ∃ t, run (step smallConfig false) (init smallConfig)
      [.getNewMainSegment false invalid 0, .getNewLogSegment true 0 invalid, .releaseGroupLock 0,
        .getNewLogSegment false 0 invalid, .releaseGroupLogSegments false 0, .setGroupSegments 0 [0, 3, 2],
        .getNewMainSegment false invalid invalid] = some t ∧
    t.freeLogSegment = 2 ∧ t.freeMainSegment = 0 ∧ t.Allocated smallConfig := by
  refine exists_of_map (fun t => (t.freeLogSegment, t.freeMainSegment)) (2, 0) (by decide +kernel) fun t ht heq => ?_
  obtain ⟨hlog, hmain⟩ := Prod.mk.inj heq
  exact ⟨hlog, hmain, allocated_of_run (by decide +kernel) ht⟩

/-- A list that begins with a log segment, and a list with a repetition, both of free segments. -/
theorem not_allocated_small :
    (∃ t, run (step smallConfig true) (init smallConfig) [.setGroupSegments 0 [1]] = some t ∧
      AllSteps (step smallConfig true) (fun t op => op.Owns t) (init smallConfig) [.setGroupSegments 0 [1]] ∧
      ¬t.Allocated smallConfig) ∧
    ∃ t, run (step smallConfig true) (init smallConfig) [.setGroupSegments 0 [0, 1, 1]] = some t ∧
      AllSteps (step smallConfig true) (fun t op => op.Owns t) (init smallConfig) [.setGroupSegments 0 [0, 1, 1]] ∧
      ¬t.Allocated smallConfig := by
  constructor
  · refine exists_of_map (fun t => (t.group 0).map GroupEntry.segments) (some [1]) (by decide +kernel) fun t ht heq => ?_
    obtain ⟨e, he, hsegs⟩ := map_eq_some_iff.1 heq
    refine ⟨by decide +kernel, fun h => ?_⟩
    have := (h.listed.main 0 e he).2
    rw [hsegs] at this
    cases this
  · refine exists_of_map (fun t => (t.freeLogSegment, t.clearLogs smallConfig)) (2, 3) (by decide +kernel) fun t ht heq => ?_
    obtain ⟨hfree, hclear⟩ := Prod.mk.inj heq
    refine ⟨by decide +kernel, fun h => ?_⟩
    have := h.counted.freeLog
    omega

end ValueSep.HashKV.SegmentTable
