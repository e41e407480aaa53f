import ValueSep.HashKV.Layout

/-!
# Room for a group

A bound on the log segments a list of records takes, whatever their order: a segment is left only for a record that no
longer fits, so with records of at most `R` bytes every segment but the last is filled up to less than `R` bytes.
-/

namespace ValueSep.HashKV

open List Journal SegmentGroupManager Record Prod

variable {cfg : Config}

namespace SegmentGroupManager

variable {m : SegmentGroupManager}

theorem clearLogs_eq_zero (h : ∀ c, cfg.numMainSegment ≤ c → c < cfg.numSegment → m.bitmap c = true) :
    m.clearLogs cfg = 0 := by
  refine countP_eq_zero.2 fun c hc => ?_
  obtain ⟨hlo, hhi⟩ := mem_range'_1.1 hc
  rw [h c hlo (by unfold Config.numSegment; omega)]
  simp

end SegmentGroupManager

/-- The records of `rest`, of at most `R` bytes each, find room in the group of content `C` and the free log segments,
`N` with those the group has. -/
structure Room (cfg : Config) (R N : Nat) (m : SegmentGroupManager) (C : Content cfg) (rest : List (Record cfg)) : Prop where
  sizes : ∀ r ∈ rest, r.size ≤ R
  /-- The segments before the last one are as full as they get. -/
  closed : ∀ x ∈ C.dropLast, cfg.segmentSize x.1 < total size x.2 + R
  count : m.clearLogs cfg + (C.length - 1) = N
  budget : total size C.records + total size rest ≤
    cfg.mainSegmentSize - R + N * (cfg.logSegmentSize - R)

namespace Room

variable {R N flushFront g c o : Nat} {m : SegmentGroupManager} {C C' : Content cfg} {r : Record cfg}
  {rest : List (Record cfg)} {disk disk' : Nat → UInt8} {cur : GroupCursor}

theorem congr {m' : SegmentGroupManager} (h : Room cfg R N m C rest) (hbit : m'.bitmap = m.bitmap) :
    Room cfg R N m' C rest where
  sizes := h.sizes
  closed := h.closed
  count := by
    have := h.count
    unfold clearLogs at this ⊢
    rwa [hbit]
  budget := h.budget

theorem total_records_cons (x : Nat × List (Record cfg)) :
    total size (Content.records (x :: C)) = total size x.2 + total size C.records := by
  simp [Content.records]

theorem total_records_le (hg : GroupLaid cfg m flushFront disk g C) (hwf : m.Wf cfg) :
    total size C.records ≤ cfg.mainSegmentSize + (C.length - 1) * cfg.logSegmentSize := by
  have hlogs : ∀ D : Content cfg, (∀ x ∈ D, total size x.2 ≤ cfg.logSegmentSize) →
      total size D.records ≤ D.length * cfg.logSegmentSize := by
    intro D hD
    induction D with
    | nil => simp [Content.records]
    | cons x D ih =>
      have hx := hD x (mem_cons_self ..)
      have := ih fun y hy => hD y (mem_cons_of_mem _ hy)
      rw [total_records_cons, length_cons, Nat.succ_mul]
      omega
  obtain ⟨x, D, rfl, hx, hD⟩ := hg.eq_cons hwf
  have hmain := hx ▸ hg.inside x (mem_cons_self ..)
  have hrest := hlogs D fun y hy => hD y hy ▸ hg.inside y (mem_cons_of_mem _ hy)
  rw [total_records_cons, length_cons, Nat.add_sub_cancel]
  omega

theorem le_total_records (hsize : ∀ x ∈ C, cfg.segmentSize x.1 = cfg.logSegmentSize)
    (hclosed : ∀ x ∈ C, cfg.segmentSize x.1 < total size x.2 + R) :
    C.length * (cfg.logSegmentSize - R) ≤ total size C.records := by
  induction C with
  | nil => simp
  | cons x C ih =>
    have hx := hclosed x (mem_cons_self ..)
    rw [hsize x (mem_cons_self ..)] at hx
    have := ih (fun y hy => hsize y (mem_cons_of_mem _ hy)) fun y hy => hclosed y (mem_cons_of_mem _ hy)
    rw [total_records_cons, length_cons, Nat.succ_mul]
    omega

section
variable (h : Room cfg R N m C (r :: rest)) (hg : GroupLaid cfg m flushFront disk g C) (hwf : m.Wf cfg)
include h hg hwf

/-- The last segment is closed too for a record that does not fit behind `pos`. -/
theorem closed_of_closed (hc : cfg.Closed (C.map fst).tail C.pos r.size) :
    ∀ x ∈ C, cfg.segmentSize x.1 < total size x.2 + R := by
  have hr := h.sizes r (mem_cons_self ..)
  obtain ⟨C₀, rs, hC⟩ := hg.getLast?_eq hwf
  intro x hx
  by_cases hmem : x ∈ C.dropLast
  · exact h.closed x hmem
  · rw [hC, dropLast_concat] at hmem
    rw [hC] at hx
    have hxe := mem_singleton.1 ((mem_append.1 hx).resolve_left hmem)
    have hpos : C.pos = total size rs := by rw [hC, Content.pos_concat]
    rw [hxe]
    show cfg.segmentSize (lastSegment g (C.map fst).tail) < total size rs + R
    by_cases hlogs : (C.map fst).tail = []
    · have := hc.1 hlogs
      rw [hlogs, show lastSegment g [] = g from rfl, segmentSize_main hwf hg.segments]
      omega
    · have := hc.2 hlogs
      have hlast : lastSegment g (C.map fst).tail ∈ (C.map fst).tail := by
        rw [lastSegment, getLast?_eq_some_getLast hlogs]
        exact getLast_mem hlogs
      have hsegs : m.segmentsOf g = some (g :: (C.map fst).tail) := by
        rw [hg.segments, ← hg.cons_logs hwf]
      rw [segmentSize_of_mem_logs hwf hsegs hlast]
      omega

theorem not_full (hc : cfg.Closed (C.map fst).tail C.pos r.size) :
    ¬∀ c, cfg.numMainSegment ≤ c → c < cfg.numSegment → m.bitmap c = true := by
  intro hfull
  have hclosed := h.closed_of_closed hg hwf hc
  have hN := h.count
  rw [clearLogs_eq_zero hfull, Nat.zero_add] at hN
  have hbudget := h.budget
  have hr := r.size_pos
  obtain ⟨x, D, rfl, hx, hD⟩ := hg.eq_cons hwf
  have hmain := hx ▸ hclosed x (mem_cons_self ..)
  have hlogs := le_total_records hD fun y hy => hclosed y (mem_cons_of_mem _ hy)
  rw [total_records_cons, total_cons, ← hN, length_cons, Nat.add_sub_cancel] at hbudget
  omega

theorem placed (hp : Placed cfg g r.size (C.map fst).tail C.pos m c o cur) (hgrown : C.Grown c o r C')
    (hg' : GroupLaid cfg cur.groups cur.flushFront disk' g C') : Room cfg R N cur.groups C' rest := by
  have hlen : C'.length = cur.logSegments.length + 1 := by
    have := hg'.segments.symm.trans hp.segments
    simpa using congrArg length (Option.some.inj this)
  have hlen₀ : C.length = (C.map fst).tail.length + 1 := by
    simpa using congrArg length (hg.cons_logs hwf)
  have hbudget : total size C'.records + total size rest ≤
      cfg.mainSegmentSize - R + N * (cfg.logSegmentSize - R) := by
    have := h.budget
    rw [total_cons] at this
    rw [hgrown.records, total_append]
    simp only [total_cons, total_nil]
    omega
  have hsizes : ∀ s ∈ rest, s.size ≤ R := fun s hs => h.sizes s (mem_cons_of_mem _ hs)
  have hcount := h.count
  cases hgrown with
  | last C rs ho =>
    rcases hp.slot with ⟨-, -, hbit⟩ | ⟨hlogs, -⟩
    · refine ⟨hsizes, ?_, ?_, hbudget⟩
      · have := h.closed
        rwa [dropLast_concat] at this ⊢
      · unfold clearLogs at hcount ⊢
        rw [hbit]
        simpa using hcount
    · simp only [hlogs, length_append, length_singleton] at hlen hlen₀
      omega
  | fresh C ho =>
    rcases hp.slot with ⟨hlogs, -⟩ | ⟨-, -, hclosed, hnew⟩
    · simp only [hlogs, length_append, length_singleton] at hlen hlen₀
      omega
    · refine ⟨hsizes, ?_, ?_, hbudget⟩
      · rw [dropLast_concat]
        exact h.closed_of_closed hg hwf hclosed
      · have := hnew.clearLogs
        simp only [length_append, length_singleton, Nat.add_sub_cancel] at hcount ⊢
        have hclear : clearLogs cfg { cur.groups with segmentFront := m.segmentFront } =
          cur.groups.clearLogs cfg := rfl
        omega

end

/-- A group with no more in it than fits into `M` log segments, whatever the order, has no more than `M`. -/
theorem length_le {M : Nat} (h : Room cfg R N m C []) (hg : GroupLaid cfg m flushFront disk g C) (hwf : m.Wf cfg)
    (hR : R ≤ cfg.mainSegmentSize)
    (htotal : total size C.records ≤ cfg.mainSegmentSize - R + M * (cfg.logSegmentSize - R)) : C.length - 1 ≤ M := by
  by_contra hlt
  have hclosed := h.closed
  obtain ⟨x, C, rfl, hx, hC⟩ := hg.eq_cons hwf
  rw [length_cons, Nat.add_sub_cancel] at hlt
  obtain ⟨D, y, rfl⟩ : ∃ D y, C = D ++ [y] := (eq_nil_or_concat' C).resolve_left fun hnil => by simp [hnil] at hlt
  rw [← cons_append, dropLast_concat] at hclosed
  -- the main segment and all log segments but the last are closed
  have hmain := hx ▸ hclosed x (mem_cons_self ..)
  have hlogs := le_total_records (fun z hz => hC z (mem_append_left _ hz)) fun z hz => hclosed z (mem_cons_of_mem _ hz)
  have hcount : M * (cfg.logSegmentSize - R) ≤ D.length * (cfg.logSegmentSize - R) := by
    refine Nat.mul_le_mul_right _ ?_
    rw [length_append, length_singleton] at hlt
    omega
  rw [total_records_cons, Content.records, flatMap_append, total_append] at htotal
  rw [Content.records] at hlogs
  omega

end Room

end ValueSep.HashKV
