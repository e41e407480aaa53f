import ValueSep.HashKV.Placement
import ValueSep.HashKV.Record

/-!
# What the segments hold

The content of a group is a list of records for each of its segments, in the order of the segments. `Laid` ties the
contents of all groups to the segment manager and to the bytes on the device. A record that is placed extends the
content of its group at the end (`Grown`), a collection empties it.
-/

namespace ValueSep.HashKV

open List Function Record Journal Memory SegmentGroupManager

/-- The segments of a group with their records. -/
abbrev Content (cfg : Config) := List (Nat × List (Record cfg))

/-- A record and where it is. -/
structure Place (cfg : Config) where
  segment : Nat
  offset : Nat
  record : Record cfg

namespace Content

variable {cfg : Config} {C C' : Content cfg} {c o : Nat} {r : Record cfg} {rs : List (Record cfg)}

/-- How far the last segment is filled. -/
def pos (C : Content cfg) : Nat := (C.getLast?.map fun x => total size x.2).getD 0

def layout (C : Content cfg) : List (Place cfg) :=
  C.flatMap fun x => (offsets size 0 x.2).map fun y => ⟨x.1, y.1, y.2⟩

def records (C : Content cfg) : List (Record cfg) := C.flatMap Prod.snd

theorem map_record_layout : C.layout.map Place.record = C.records := by
  rw [layout, map_flatMap]
  congr 1
  funext x
  rw [map_map]
  exact map_snd_offsets

theorem mem_layout {x : Place cfg} : x ∈ C.layout ↔
    ∃ rs, (x.segment, rs) ∈ C ∧ (x.offset, x.record) ∈ offsets size 0 rs := by
  simp only [layout, mem_flatMap, mem_map]
  constructor
  · rintro ⟨⟨c, rs⟩, hC, ⟨o, r⟩, ho, rfl⟩
    exact ⟨rs, hC, ho⟩
  · rintro ⟨rs, hC, ho⟩
    exact ⟨_, hC, _, ho, rfl⟩

theorem pos_concat : pos (C ++ [(c, rs)]) = total size rs := by simp [pos]

/-- The content after `r` was put at offset `o` of the segment `c`. -/
inductive Grown (c o : Nat) (r : Record cfg) : Content cfg → Content cfg → Prop
  | last (C : Content cfg) (rs : List (Record cfg)) (ho : o = total size rs) :
    Grown c o r (C ++ [(c, rs)]) (C ++ [(c, rs ++ [r])])
  | fresh (C : Content cfg) (ho : o = 0) : Grown c o r C (C ++ [(c, [r])])

section
variable (h : Grown c o r C C')
include h

theorem Grown.layout : C'.layout = C.layout ++ [⟨c, o, r⟩] := by
  cases h with
  | last C rs ho => simp [Content.layout, offsets_concat, ho]
  | fresh C ho => simp [Content.layout, offsets, ho]

theorem Grown.ne_nil : C' ≠ [] := by
  cases h <;> simp

theorem Grown.pos : C'.pos = o + r.size := by
  cases h with
  | last C rs ho => rw [pos_concat, total_append, ← ho]; simp
  | fresh C ho => rw [pos_concat, ho]; simp

theorem Grown.records : C'.records = C.records ++ [r] := by
  rw [← map_record_layout, h.layout, map_append, map_record_layout]; rfl

end

end Content

/-- The content of one group, as the manager and the device have it. -/
structure GroupLaid (cfg : Config) (m : SegmentGroupManager) (flushFront : Nat) (disk : Nat → UInt8) (g : Nat)
    (C : Content cfg) : Prop where
  segments : m.segmentsOf g = some (C.map Prod.fst)
  frontAt : cfg.FrontAt (C.map Prod.fst).tail flushFront C.pos
  holds : ∀ x ∈ C, Holds disk (cfg.segmentOffset x.1) (images x.2)
  inside : ∀ x ∈ C, total size x.2 ≤ cfg.segmentSize x.1
  home : ∀ x ∈ C, ∀ r ∈ x.2, r.home = g
  recorded : ∀ x ∈ C, x.2 ≠ [] → m.segmentFront x.1 = some (total size x.2)
  /-- Only a group that was never written to has an empty segment. -/
  full : C.length ≠ 1 → ∀ x ∈ C, x.2 ≠ []

/-- The contents of all groups. `front` is the flush front of a group, which the manager learns late. -/
structure Laid (cfg : Config) (m : SegmentGroupManager) (front : Nat → Nat) (disk : Nat → UInt8)
    (G : Nat → Content cfg) : Prop where
  wf : m.Wf cfg
  group : ∀ g, (m.segmentsOf g = none ∧ G g = []) ∨ GroupLaid cfg m (front g) disk g (G g)

namespace GroupLaid

variable {cfg : Config} {m m' : SegmentGroupManager} {flushFront : Nat} {disk disk' : Nat → UInt8} {g c o : Nat}
  {C : Content cfg} {r : Record cfg} {cur : GroupCursor}

section
variable (h : GroupLaid cfg m flushFront disk g C)
include h

theorem congr (hseg : m'.segmentsOf g = m.segmentsOf g) (hfront : ∀ x ∈ C, m'.segmentFront x.1 = m.segmentFront x.1)
    (hdisk : ∀ x ∈ C, ∀ i, cfg.segmentOffset x.1 ≤ i → i < cfg.segmentOffset x.1 + cfg.segmentSize x.1 →
      disk i = disk' i) : GroupLaid cfg m' flushFront disk' g C where
  segments := hseg.trans h.segments
  frontAt := h.frontAt
  holds x hx := (h.holds x hx).congr fun i hlo hhi => hdisk x hx i hlo (by
    have := h.inside x hx
    rw [length_images] at hhi
    omega)
  inside := h.inside
  home := h.home
  recorded x hx hne := (hfront x hx).trans (h.recorded x hx hne)
  full := h.full

theorem cons_logs (hwf : m.Wf cfg) : C.map Prod.fst = g :: (C.map Prod.fst).tail := by
  obtain ⟨-, logs, heq, -⟩ := hwf.shape g _ h.segments
  rw [heq]; rfl

/-- The first segment is the main segment, the others are log segments. -/
theorem eq_cons (hwf : m.Wf cfg) : ∃ x D, C = x :: D ∧ cfg.segmentSize x.1 = cfg.mainSegmentSize ∧
    ∀ y ∈ D, cfg.segmentSize y.1 = cfg.logSegmentSize := by
  have hcons := h.cons_logs hwf
  cases C with
  | nil => cases hcons
  | cons x D =>
    have hx : x.1 = g := by simpa using hcons
    have hsegs : m.segmentsOf g = some (g :: D.map Prod.fst) := by rw [h.segments, List.map_cons, hx]
    exact ⟨x, D, rfl, hx ▸ segmentSize_main hwf h.segments, fun y hy =>
      segmentSize_of_mem_logs hwf hsegs (List.mem_map_of_mem hy)⟩

theorem getLast?_eq (hwf : m.Wf cfg) : ∃ C₀ rs, C = C₀ ++ [(lastSegment g (C.map Prod.fst).tail, rs)] := by
  have hlast := getLast?_cons_logs g (C.map Prod.fst).tail
  rw [← h.cons_logs hwf, getLast?_map] at hlast
  obtain ⟨⟨c, rs⟩, hx, hc⟩ := Option.map_eq_some_iff.1 hlast
  obtain ⟨C₀, hC⟩ := getLast?_eq_some_iff.1 hx
  refine ⟨C₀, rs, ?_⟩
  rw [← hc]
  exact hC

theorem placed (hwf : m.Wf cfg) (hhome : r.home = g) (hmain : r.size ≤ cfg.mainSegmentSize)
    (hp : Placed cfg g r.size (C.map Prod.fst).tail C.pos m c o cur) :
    ∃ C', C.Grown c o r C' ∧ GroupLaid cfg cur.groups cur.flushFront
      (write disk (cfg.segmentOffset c + o) r.image) g C' := by
  have hin := hp.inside
  -- segments other than `c` keep their bytes
  have hother : ∀ x ∈ C, x.1 ≠ c →
      Holds (write disk (cfg.segmentOffset c + o) r.image) (cfg.segmentOffset x.1) (images x.2) := by
    intro x hx hne
    have hle := h.inside x hx
    refine (h.holds x hx).write ?_
    rw [length_images, length_image]
    rcases @ValueLocation.segmentOffset_disjoint cfg _ _ hne with hd | hd
    · left; omega
    · right; omega
  -- `c` is the last segment and had the records `rs` before
  have hgrow : ∀ C₀ rs, C₀.map Prod.fst ++ [c] = g :: cur.logSegments → (∀ x ∈ C₀, x ∈ C ∧ x.1 ≠ c) →
      o = total size rs → Holds disk (cfg.segmentOffset c) (images rs) → (∀ s ∈ rs, s.home = g) →
      (C₀.length ≠ 0 → ∀ x ∈ C₀, x.2 ≠ []) → GroupLaid cfg cur.groups cur.flushFront
        (write disk (cfg.segmentOffset c + o) r.image) g (C₀ ++ [(c, rs ++ [r])]) := by
    intro C₀ rs hlogs hC₀ ho hrs hrsHome hfull
    have hfst : (C₀ ++ [(c, rs ++ [r])]).map Prod.fst = g :: cur.logSegments := by simpa using hlogs
    have htotal : total size (rs ++ [r]) = o + r.size := by rw [total_append, ho]; simp
    constructor
    case segments => rw [hp.segments, hfst]
    case frontAt =>
      rw [hfst, Content.pos_concat, htotal]
      exact hp.frontAt
    case full => exact fun hlen => forall_mem_append.2 ⟨hfull (by simpa using hlen), by simp⟩
    all_goals refine forall_mem_append.2 ⟨fun x hx => ?_, forall_mem_singleton.2 ?_⟩
    · exact hother x (hC₀ x hx).1 (hC₀ x hx).2
    · rw [images_append, images_singleton, holds_append, length_images, ← ho]
      exact ⟨hrs.write (.inl (by rw [length_images, ho])), holds_write_self⟩
    · exact h.inside x (hC₀ x hx).1
    · exact htotal.trans_le hin
    · exact h.home x (hC₀ x hx).1
    · exact forall_mem_append.2 ⟨hrsHome, forall_mem_singleton.2 hhome⟩
    · rw [hp.segmentFront, update_of_ne (hC₀ x hx).2]
      exact h.recorded x (hC₀ x hx).1
    · rw [hp.segmentFront, update_self, htotal]
      exact fun _ => rfl
  have hcons := h.cons_logs hwf
  rcases hp.slot with ⟨hlogs, rfl, -⟩ | ⟨hlogs, rfl, hclosed, hnew⟩
  · -- behind the records of the last segment
    obtain ⟨C₀, rs, hC⟩ := h.getLast?_eq hwf
    rw [← hlogs, ← hp.last] at hC
    subst hC
    have hnodup := hwf.nodup h.segments
    rw [map_append, nodup_append] at hnodup
    have hmem : (c, rs) ∈ C₀ ++ [(c, rs)] := by simp
    refine ⟨_, .last C₀ rs Content.pos_concat, hgrow C₀ rs ?_ (fun x hx => ⟨mem_append_left _ hx, ?_⟩)
      Content.pos_concat (h.holds _ hmem) (h.home _ hmem) fun hlen x hx => ?_⟩
    · rw [hlogs, ← hcons, map_append]; rfl
    · exact hnodup.2.2 _ (mem_map_of_mem hx) _ (mem_singleton_self _)
    · exact h.full (by simpa using hlen) x (mem_append_left _ hx)
  · -- the first record of a new segment
    refine ⟨_, .fresh C rfl, hgrow C [] (by rw [hlogs, hcons]; rfl) (fun x hx => ⟨hx, fun heq => ?_⟩) rfl
      holds_nil (by simp) fun _ x hx => ?_⟩
    · exact hnew.not_mem hwf h.segments (heq ▸ mem_map_of_mem hx)
    · by_cases hlen : C.length = 1
      · -- the main segment alone: it would have had room if it were empty
        obtain ⟨y, rfl⟩ := length_eq_one_iff.1 hlen
        rw [mem_singleton.1 hx]
        intro hnil
        have hlt := hclosed.1 rfl
        rw [show [y] = [] ++ [(y.1, y.2)] from rfl, Content.pos_concat, hnil] at hlt
        simp only [total_nil] at hlt
        omega
      · exact h.full hlen x hx

end

theorem empty (hseg : m.segmentsOf g = some [g]) : GroupLaid cfg m 0 disk g [(g, [])] where
  segments := hseg
  frontAt := .zero
  holds x hx := by rw [mem_singleton.1 hx]; exact holds_nil
  inside x hx := by rw [mem_singleton.1 hx]; exact Nat.zero_le _
  home x hx r hr := by rw [mem_singleton.1 hx] at hr; cases hr
  recorded x hx hne := by rw [mem_singleton.1 hx] at hne; exact absurd rfl hne
  full h := absurd rfl h

end GroupLaid

namespace Laid

variable {cfg : Config} {m m' : SegmentGroupManager} {front front' : Nat → Nat} {disk : Nat → UInt8}
  {G : Nat → Content cfg} {g c o : Nat} {r : Record cfg} {cur : GroupCursor}

theorem init (disk : Nat → UInt8) : Laid cfg (.init cfg) front disk fun _ => [] :=
  ⟨wf_init, fun _ => .inl ⟨rfl, rfl⟩⟩

section
variable (h : Laid cfg m front disk G)
include h

theorem of_ne_nil (hg : G g ≠ []) : GroupLaid cfg m (front g) disk g (G g) :=
  (h.group g).resolve_left fun h => hg h.2

theorem of_segmentsOf {l : List Nat} (hg : m.segmentsOf g = some l) : GroupLaid cfg m (front g) disk g (G g) :=
  (h.group g).resolve_left fun h => by rw [h.1] at hg; cases hg

/-- A group has no segment above the device, so the `LSM_GROUP` is none. -/
theorem lsm : m.segmentsOf lsmSegment = none ∧ G lsmSegment = [] := by
  rcases h.group lsmSegment with h' | h'
  · exact h'
  · have hlt := (h.wf.shape _ _ h'.segments).1
    have := cfg.numSegment_lt
    unfold Config.numSegment at this
    unfold lsmSegment at hlt
    omega

theorem congr (hseg : m'.segmentsOf = m.segmentsOf)
    (hown : m'.segment = m.segment) (hbit : m'.bitmap = m.bitmap) (hfront : m'.segmentFront = m.segmentFront)
    (hfree : m'.freeLogSegment = m.freeLogSegment) (hff : ∀ g, G g ≠ [] → front' g = front g) :
    Laid cfg m' front' disk G := by
  refine ⟨h.wf.congr hseg hown hbit hfree, fun g => ?_⟩
  rcases h.group g with h' | h'
  · exact .inl (hseg ▸ h')
  · refine .inr ?_
    rw [hff g fun hnil => by
      have := h'.cons_logs h.wf
      rw [hnil] at this
      cases this]
    exact h'.congr (by rw [hseg]) (fun x _ => by rw [hfront]) fun _ _ _ _ _ => rfl

theorem update {C : Content cfg} {flushFront : Nat} {disk' : Nat → UInt8}
    (hwf : m'.Wf cfg) (hself : GroupLaid cfg m' flushFront disk' g C)
    (hother : ∀ g', g' ≠ g → m'.segmentsOf g' = m.segmentsOf g')
    (hfront : ∀ d, (∀ l, m.segmentsOf g = some l → d ∉ l) → d ∉ C.map Prod.fst → m'.segmentFront d = m.segmentFront d)
    (hdisk : ∀ d, (∀ l, m'.segmentsOf g = some l → d ∉ l) →
      ∀ i, cfg.segmentOffset d ≤ i → i < cfg.segmentOffset d + cfg.segmentSize d → disk i = disk' i) :
    Laid cfg m' (Function.update front g flushFront) disk' (Function.update G g C) := by
  refine ⟨hwf, fun g' => ?_⟩
  by_cases hne : g' = g
  · subst hne
    rw [update_self, update_self]
    exact .inr hself
  · rw [update_of_ne hne, update_of_ne hne, hother g' hne]
    refine (h.group g').imp_right fun h' => ?_
    -- a segment of `g'` belongs to `g` neither before nor after
    have hold : ∀ x ∈ G g', ∀ l, m.segmentsOf g = some l → x.1 ∉ l := fun x hx l hl hmem =>
      hne (h.wf.group_unique h'.segments (mem_map_of_mem hx) hl hmem)
    have hnew : ∀ x ∈ G g', ∀ l, m'.segmentsOf g = some l → x.1 ∉ l := fun x hx l hl hmem =>
      hne (hwf.group_unique ((hother g' hne).trans h'.segments) (mem_map_of_mem hx) hl hmem)
    exact h'.congr (hother g' hne)
      (fun x hx => hfront x.1 (hold x hx) fun hmem => hnew x hx _ hself.segments hmem)
      fun x hx => hdisk x.1 (hnew x hx)

theorem placed (hhome : r.home = g) (hmain : r.size ≤ cfg.mainSegmentSize) (hg : GroupLaid cfg m (front g) disk g (G g))
    (hp : Placed cfg g r.size ((G g).map Prod.fst).tail (G g).pos m c o cur) :
    ∃ C, (G g).Grown c o r C ∧ Laid cfg cur.groups (Function.update front g cur.flushFront)
      (Memory.write disk (cfg.segmentOffset c + o) r.image) (Function.update G g C) := by
  obtain ⟨C, hgrown, hC⟩ := hg.placed h.wf hhome hmain hp
  have hc : c ∈ C.map Prod.fst := by
    have hseg := hC.segments
    rw [hp.segments, Option.some.injEq] at hseg
    rw [← hseg, hp.last]
    exact lastSegment_mem g _
  refine ⟨C, hgrown, h.update hp.wf hC hp.other (fun d _ hd => ?_) fun d hd i hlo hhi => ?_⟩
  · have hne : d ≠ c := fun heq => hd (heq ▸ hc)
    rw [hp.segmentFront, update_of_ne hne]
  · have hne : d ≠ c := fun heq => hd _ hC.segments (heq ▸ hc)
    have hin := hp.inside
    rcases @ValueLocation.segmentOffset_disjoint cfg _ _ hne with hdis | hdis
    · exact (write_of_lt (by omega)).symm
    · exact (write_of_le (by rw [length_image]; omega)).symm

theorem released {logs : List Nat} (hseg : m.segmentsOf g = some (g :: logs))
    (hr : SegmentGroupManager.Released cfg g logs m m') :
    Laid cfg m' (Function.update front g 0) disk (Function.update G g [(g, [])]) := by
  refine h.update (hr.wf h.wf hseg) (.empty hr.self) (fun g' hne => hr.segmentsOf_of_ne hne) (fun d hd _ => ?_)
    fun _ _ _ _ _ => rfl
  exact hr.segmentFront d fun hmem => hd _ hseg (mem_cons_of_mem _ hmem)

theorem created (hlt : g < cfg.numMainSegment) (hnone : m.segmentsOf g = none)
    (hown : m.segment g = none) : Laid cfg { m with
      bitmap := Function.update m.bitmap g true
      segment := Function.update m.segment g (some g)
      group := Function.update m.group g (some ⟨[g], 0, 0⟩) } (Function.update front g 0) disk
      (Function.update G g [(g, [])]) := by
  refine h.update (h.wf.createGroup hlt hnone hown) (.empty ?_) (fun g' hne => ?_) (fun _ _ _ => rfl)
    fun _ _ _ _ _ => rfl
  · simp [segmentsOf]
  · simp [segmentsOf, update_of_ne hne]

end

end Laid

end ValueSep.HashKV
