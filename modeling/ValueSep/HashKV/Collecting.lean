import ValueSep.HashKV.Linked
import ValueSep.HashKV.Scan

/-!
# What a collection does to the store

While the kept records of a group go back through the GC pool, each of them is in the group again, in the pool, or still
to come (`Returning`). At the end the group holds the last record of every key, and every key reads as before.
-/

namespace ValueSep.HashKV

open Coding (Bytes)
open Wp
open List Function SegmentGroupManager Journal Record Store Prod Flush

variable {cfg : Config} {K : Prop} {R N g : Nat} {G₀ G : Nat → Content cfg} {T : Bytes → Option Bytes}
  {A : Bytes → Prop} {p₀ : Pool} {kept pool rest : List (Record cfg)} {s : Store} {r : Record cfg}

/-- The group `g` is being written back: the records of `pool` are in the GC pool, those of `rest` are to come, `kept` are
all of them. `A` are keys the group has no record of, `K` says that there is room for all. -/
structure Returning (cfg : Config) (K : Prop) (R N g : Nat) (G₀ : Nat → Content cfg) (T : Bytes → Option Bytes)
    (A : Bytes → Prop) (p₀ : Pool) (kept pool rest : List (Record cfg)) (s : Store) (G : Nat → Content cfg) : Prop where
  settled : Settled cfg s G T fun k => ∃ r ∈ pool ++ rest, r.key = k
  pooled : Pooled cfg .gc pool (Function.update (fun _ => []) g (offsets size 0 pool)) (s.pools .gc)
  names : ∀ g' ∈ (s.pools .gc).groupsInPool.keys, g' = g
  empty : pool = [] → (s.pools .gc).groupsInPool.keys = []
  update : s.pools .update = p₀
  others : ∀ g', g' ≠ g → G g' = G₀ g'
  nonempty : G g ≠ []
  absent : ∀ k, A k → recordOf G k = none
  records : ∀ r ∈ pool ++ rest, r.home = g ∧ T r.key = some r.value ∧ ¬A r.key
  kept : ((G g).records ++ (pool ++ rest)).Perm kept
  room : K → Room cfg R N s.groups (G g) (pool ++ rest)

theorem settle_eq_self {xs : List (Nat × Record cfg)} (h : ∀ x ∈ xs, T x.2.key = some x.2.value) : settle xs T = T := by
  funext k
  unfold settle
  rcases hx : latest (fun x => x.2.key) xs k with _ | x
  · rw [hx]; rfl
  · have hkey := key_of_latest hx
    rw [hx, ← hkey, h x (mem_of_latest hx)]
    rfl

theorem update_nil (g : Nat) : (update (fun _ => []) g [] : Nat → List (Nat × Record cfg)) = fun _ => [] :=
  update_eq_self_iff.2 rfl

namespace Returning

theorem lt_numMainSegment (h : Returning cfg K R N g G₀ T A p₀ kept pool rest s G) :
    g ≠ lsmSegment ∧ g < cfg.numMainSegment := by
  have hlaid := h.settled.laid.of_ne_nil h.nonempty
  have hlt := (h.settled.laid.wf.shape g _ hlaid.segments).1
  have := cfg.numSegment_lt
  unfold Config.numSegment at this
  unfold lsmSegment
  omega

/-- The flush of the GC pool has passed all groups: the records of `pool` are in the group. -/
structure Flushed (cfg : Config) (K : Prop) (R N g : Nat) (G₀ : Nat → Content cfg) (T : Bytes → Option Bytes)
    (A : Bytes → Prop) (p₀ : Pool) (kept pool rest : List (Record cfg)) (f : Flush) (G : Nat → Content cfg) : Prop where
  inv : Flush.Inv cfg f G T fun k => ∃ r ∈ rest, r.key = k
  pooled : Pooled cfg .gc pool (fun _ => []) (f.store.pools .gc)
  names : (f.store.pools .gc).groupsInPool.keys = []
  update : f.store.pools .update = p₀
  others : ∀ g', g' ≠ g → G g' = G₀ g'
  nonempty : G g ≠ []
  absent : ∀ k, A k → recordOf G k = none
  kept : ((G g).records ++ rest).Perm kept
  room : K → Room cfg R N f.store.groups (G g) rest

theorem Flushed.wp_finish {f : Flush} (h : Flushed cfg K R N g G₀ T A p₀ kept pool rest f G)
    (hrecords : ∀ r ∈ rest, r.home = g ∧ T r.key = some r.value ∧ ¬A r.key) :
    wp (f.finish cfg .gc) (fun s' => Returning cfg K R N g G₀ T A p₀ kept [] rest s' G) (fun _ => False) := by
  refine wp_mono (Flush.wp_finish h.inv h.pooled h.names) ?_ fun _ => id
  rintro s' ⟨hsettled, -, hpooled, hkeys, -, hpools, hgroups⟩
  refine ⟨hsettled, ?_, ?_, fun _ => hkeys, ?_, h.others, h.nonempty, h.absent, hrecords, h.kept, ?_⟩
  · rw [offsets_nil, update_nil]
    exact hpooled
  · rw [hkeys]
    exact fun _ hd => by cases hd
  · rw [hpools .update (by decide)]
    exact h.update
  · rw [hgroups]
    exact h.room

section
variable (h : Returning cfg K R N g G₀ T A p₀ kept pool rest s G)
include h

theorem flushed_start (hnames : (s.pools .gc).groupsInPool.keys = []) :
    Flushed cfg K R N g G₀ T A p₀ kept pool rest (start s) G := by
  have hoff : offsets size 0 pool = [] := by
    have := h.pooled.pend_eq_nil (g := g) fun hmem => by rw [AList.mem_keys, hnames] at hmem; cases hmem
    rwa [update_self] at this
  have hpool : pool = [] := by rw [← @map_snd_offsets _ size 0 pool, hoff]; rfl
  subst hpool
  have hpooled := h.pooled
  rw [offsets_nil, update_nil] at hpooled
  exact ⟨inv_start h.settled, hpooled, hnames, h.update, h.others, h.nonempty, h.absent, h.kept, h.room⟩

theorem wp_group (hnames : (s.pools .gc).groupsInPool.keys = [g]) :
    wp ((start s).group cfg .gc g) (fun (f', _) => ∃ G',
        Flushed cfg K R N g G₀ T A p₀ kept pool rest (f'.endGroup cfg .gc g) G')
      (fun e => e = .outOfLogSegments ∧ ¬K) := by
  have hg := h.lt_numMainSegment
  have hself : Function.update (fun _ => []) g (offsets Record.size 0 pool) g = offsets Record.size 0 pool :=
    update_self ..
  have hroom : K → g ≠ lsmSegment ∧ Room cfg R N (start s).store.groups (G g)
      ((Function.update (fun _ => []) g (offsets Record.size 0 pool) g).map Prod.snd ++ rest) := by
    intro hK
    rw [hself, map_snd_offsets]
    exact ⟨hg.1, h.room hK⟩
  refine wp_mono (Flush.wp_group (inv_start h.settled) h.pooled (hnames ▸ mem_singleton_self g)
    (fun heq => absurd heq hg.1) (fun _ _ => h.nonempty) hroom) ?_ fun _ => id
  rintro ⟨f', overflow⟩ ⟨G', done, tail, hsplit, hnone, hgc, ⟨hinv, hadv, hpool⟩, hroom'⟩
  -- the flush of this pool never waits for GC
  obtain rfl : tail = [] := hnone (hgc rfl)
  rw [hself, append_nil] at hsplit
  subst hsplit
  have hrecords := hadv.records hg.1
  rw [map_snd_offsets] at hrecords
  have hmem : ∀ x ∈ offsets size 0 pool, x.2 ∈ pool := fun x hx => mem_of_mem_offsets hx
  rw [settle_eq_self fun x hx => (h.records x.2 (mem_append_left _ (hmem x hx))).2.1] at hinv
  rw [update_idem, update_nil] at hpool
  have hpools := @Flush.pools_endGroup cfg f' .gc g _ _ hinv.buffer
  refine ⟨G', (hinv.mono ?_).endGroup, ?_, ?_, ?_, ?_, hadv.nonempty g h.nonempty, ?_, ?_, ?_⟩
  · rintro k ⟨⟨r, hr, hrk⟩, hne⟩
    rcases mem_append.1 hr with hr | hr
    · rw [← @map_snd_offsets _ size 0 pool] at hr
      obtain ⟨x, hx, rfl⟩ := mem_map.1 hr
      exact absurd hrk (hne x hx)
    · exact ⟨r, hr, hrk⟩
  · rw [hpools]
    exact hpool.dropIfEmpty g
  · rw [hpools]
    refine hpool.keys_dropIfEmpty rfl ?_
    rw [hadv.groupsInPool]
    exact hnames
  · rw [hpools, update_of_ne (by decide), hadv.pools .update (by decide)]
    exact h.update
  · exact fun g' hne => (hadv.content g' hne).trans (h.others g' hne)
  · exact fun k hk => hadv.absent k (h.absent k hk) fun x hx _ hkey =>
      (h.records x.2 (mem_append_left _ (hmem x hx))).2.2 (hkey ▸ hk)
  · rw [hrecords, append_assoc]
    exact h.kept
  · intro hK
    refine (hroom' hK).2.congr ?_
    unfold endGroup
    rw [flushSegmentBuffer_zero hinv.buffer]
    exact bitmap_setGroupFronts

theorem wp_flushGCPool :
    wp (s.flushGCPool cfg) (fun s' => ∃ G', Returning cfg K R N g G₀ T A p₀ kept [] rest s' G')
      (fun e => e = .outOfLogSegments ∧ ¬K) := by
  have hrecords : ∀ r ∈ rest, r.home = g ∧ T r.key = some r.value ∧ ¬A r.key :=
    fun r hr => h.records r (mem_append_right _ hr)
  have hfinish : ∀ f G', Flushed cfg K R N g G₀ T A p₀ kept pool rest f G' → wp (f.finish cfg .gc)
      (fun s' => ∃ G', Returning cfg K R N g G₀ T A p₀ kept [] rest s' G') (fun e => e = .outOfLogSegments ∧ ¬K) :=
    fun f G' hf => wp_mono (hf.wp_finish hrecords) (fun _ hs' => ⟨G', hs'⟩) fun _ => False.elim
  unfold flushGCPool
  rw [wp_bind]
  -- the group is the only one the pool may name
  rcases hnames : (s.pools .gc).groupsInPool.keys with _ | ⟨g', names⟩
  · exact hfinish _ G (h.flushed_start hnames)
  · have hmem : ∀ d ∈ g' :: names, d = g := hnames ▸ h.names
    have hnodup : (g' :: names).Nodup := hnames ▸ (s.pools .gc).groupsInPool.keys_nodup
    obtain rfl : g' = g := hmem g' (mem_cons_self ..)
    obtain rfl : names = [] := eq_nil_iff_forall_not_mem.2 fun d hd =>
      (nodup_cons.1 hnodup).1 (hmem d (mem_cons_of_mem _ hd) ▸ hd)
    rw [foldlM_cons, wp_bind]
    refine wp_seq (h.wp_group hnames) ?_
    rintro ⟨f', overflow⟩ ⟨G', hf'⟩
    exact hfinish _ G' hf'

end

section
variable (h : Returning cfg K R N g G₀ T A p₀ kept pool (r :: rest) s G)
include h

theorem append (hfit : total size pool + r.size ≤ cfg.sizeOfPool .gc) {p : Pool}
    (hp : ({ s.pools .gc with pool := (s.pools .gc).pool.push r.image } : Pool).insertKey (s.pools .gc).pool.writeFront =
      .ok p) :
    Returning cfg K R N g G₀ T A p₀ kept (pool ++ [r]) rest
      (s.setPool .gc (p.addUpdate g g (s.pools .gc).pool.writeFront r.size)) G := by
  have hg := h.lt_numMainSegment
  have hhome : r.home = g := (h.records r (by simp)).1
  have hkey := (h.pooled.has_push hfit).key
  rw [← h.pooled.front] at hkey
  -- the key index plays no part
  have hp' : p = { s.pools .gc with pool := (s.pools .gc).pool.push r.image, keysInPool := p.keysInPool } := by
    unfold Pool.insertKey at hp
    simp only [hkey] at hp
    cases hp
    rfl
  have happ := h.pooled.append hfit (.inr (hhome ▸ hg.2))
  rw [hhome, update_self, update_idem, ← h.pooled.front] at happ
  have hoff : offsets size 0 (pool ++ [r]) = offsets size 0 pool ++ [((s.pools .gc).pool.writeFront, r)] := by
    rw [offsets_concat, Nat.zero_add, h.pooled.front]
  have hassoc : pool ++ [r] ++ rest = pool ++ r :: rest := by simp
  refine ⟨?_, ?_, ?_, fun hnil => by simp at hnil, ?_, h.others, h.nonempty, h.absent, ?_, ?_, ?_⟩
  · rw [hassoc]; exact ⟨h.settled.laid, h.settled.tree⟩
  · rw [hoff, hp']
    exact happ.congr rfl rfl rfl
  · intro d hd
    rw [hp'] at hd
    rcases (AList.mem_insert _).1 (AList.mem_keys.2 hd) with rfl | hd
    · rfl
    · exact h.names d hd
  · simp only [setPool]
    exact h.update
  · rw [hassoc]; exact h.records
  · rw [hassoc]; exact h.kept
  · rw [hassoc]; exact h.room

theorem wp_writeBack {e : Entry} (he : Kept e r) :
    wp (s.writeBack cfg g e) (fun s' => ∃ pool' G', Returning cfg K R N g G₀ T A p₀ kept pool' rest s' G')
      (fun e => e = .outOfLogSegments ∧ ¬K) := by
  have hsize := r.size_eq
  have hlt := r.value_lt
  have hhome : r.home = g := (h.records r (by simp)).1
  have hmain : r.size ≤ cfg.mainSegmentSize := (r.segmental (hhome ▸ h.lt_numMainSegment.1)).1
  have hcap := cfg.sizeOfPool_lt .gc
  have hfull : keySize + lenSize + r.value.length = r.size := by omega
  -- once the pool has room for the record
  have happend : ∀ s' pool' G', Returning cfg K R N g G₀ T A p₀ kept pool' (r :: rest) s' G' →
      total size pool' + r.size ≤ cfg.sizeOfPool .gc →
      wp (do
        let pool ← (s'.pools .gc).pool.appendFrom e.segment e.pos keySize
        let pool ← pool.appendFrom e.segment (e.pos + keySize) lenSize
        if r.value.length = 0 then .error .assertion
        else
          let pool ← pool.appendFrom e.segment (e.pos + keySize + lenSize) r.value.length
          let p ← ({ s'.pools .gc with pool } : Pool).insertKey (s'.pools .gc).pool.writeFront
          .ok (s'.setPool .gc (p.addUpdate g g (s'.pools .gc).pool.writeFront r.size)))
        (fun s' => ∃ pool' G', Returning cfg K R N g G₀ T A p₀ kept pool' rest s' G')
        (fun e => e = .outOfLogSegments ∧ ¬K) := by
    intro s' pool' G' hs' hfit
    have hfront := hs'.pooled.front
    have hlen := hs'.pooled.length
    obtain ⟨h₁, h₂, -, h₃⟩ := Segment.append_record (a := (s'.pools .gc).pool) he.has (by rw [hfront, hlen]; exact hfit)
      (by rw [hlen]; exact hcap)
    have hkey := (hs'.pooled.has_push hfit).key
    rw [← hfront] at hkey
    rw [h₁, wp_bind, wp_ok, h₂, wp_bind, wp_ok, if_neg (Nat.ne_of_gt r.value_pos), h₃, wp_bind, wp_ok, wp_bind]
    rcases hp : ({ s'.pools .gc with pool := (s'.pools .gc).pool.push r.image } : Pool).insertKey
        (s'.pools .gc).pool.writeFront with e | p
    · unfold Pool.insertKey at hp
      simp only [hkey] at hp
      cases hp
    · exact ⟨pool' ++ [r], G', hs'.append hfit hp⟩
  unfold writeBack
  rw [he.has.len, wp_bind, wp_ok, hfull]
  refine wp_ite (fun hcan => ?_) fun _ => ?_
  · have hfit := (Segment.canFit_iff (by
      have := h.pooled.le
      rw [h.pooled.front]
      unfold keySize lenSize at hsize
      omega) (h.pooled.length ▸ hcap)).1 hcan
    rw [h.pooled.front, h.pooled.length] at hfit
    exact happend s pool G h hfit
  · refine wp_seq h.wp_flushGCPool ?_
    rintro s' ⟨G', hs'⟩
    refine happend s' [] G' hs' ?_
    show 0 + r.size ≤ cfg.mainSegmentSize * 2
    omega

end

theorem wp_writeBacks {es : List Entry} {rs : List (Record cfg)} (h : Returning cfg K R N g G₀ T A p₀ kept pool rs s G)
    (hes : List.Forall₂ Kept es rs) :
    wp (es.foldlM (writeBack cfg g) s) (fun s' => ∃ pool' G', Returning cfg K R N g G₀ T A p₀ kept pool' [] s' G')
      (fun e => e = .outOfLogSegments ∧ ¬K) := by
  induction hes generalizing s pool G with
  | nil => exact ⟨pool, G, h⟩
  | @cons e r es rs he _ ih =>
    refine wp_seq (h.wp_writeBack he) ?_
    rintro s' ⟨pool', G', hs'⟩
    exact ih hs'

theorem setUpdate {p₁ : Pool} (h : Returning cfg K R N g G₀ T A p₀ kept pool rest s G) :
    Returning cfg K R N g G₀ T A p₁ kept pool rest (s.setPool .update p₁) G where
  settled := ⟨h.settled.laid, h.settled.tree⟩
  pooled := by
    simp only [setPool]
    exact h.pooled
  names := by
    simp only [setPool]
    exact h.names
  empty := by
    simp only [setPool]
    exact h.empty
  update := by
    simp only [setPool]
    exact update_self ..
  others := h.others
  nonempty := h.nonempty
  absent := h.absent
  records := h.records
  kept := h.kept
  room := h.room

end Returning

/-! ### The start of the write-back -/

section Start

variable {P : List (Record cfg)} {pend : Nat → List (Nat × Record cfg)} {m' : SegmentGroupManager}
  {C : List (Nat × Record cfg)} {rs : List (Record cfg)}

/-- The records a collection keeps, as the hash map of keys may give them: the last one of every key in the group and
among its pooled updates. -/
def Keeps (G : Nat → Content cfg) (g : Nat) (C : List (Nat × Record cfg)) (rs : List (Record cfg)) : Prop :=
  rs.Perm (collect Record.key ((G g).records ++ C.map snd))

/-- A key without a record in the group and without an update. -/
def Absent (G : Nat → Content cfg) (C : List (Nat × Record cfg)) (k : Bytes) : Prop :=
  recordOf G k = none ∧ ∀ x ∈ C, x.2.key ≠ k

/-- The records of `rs` find room in a main segment and `N` log segments, whatever their order. -/
def Compact (cfg : Config) (R N : Nat) (rs : List (Record cfg)) : Prop :=
  (∀ r ∈ rs, r.size ≤ R) ∧ total size rs ≤ cfg.mainSegmentSize - R + N * (cfg.logSegmentSize - R)

theorem Keeps.latest (h : Keeps G g C rs) (k : Bytes) : latest key rs k =
    (Journal.latest key (C.map snd) k).or (Journal.latest key (G g).records k) := by
  rw [latest_perm nodup_collect h, latest_collect, latest_append]

theorem Keeps.exists_key (h : Keeps G g C rs) (hr : r ∈ (G g).records ++ C.map Prod.snd) : ∃ s ∈ rs, s.key = r.key := by
  obtain ⟨s, hs⟩ : ∃ s, Journal.latest Record.key ((G g).records ++ C.map Prod.snd) r.key = some s :=
    latest_isSome_of_mem hr
  rw [← latest_collect, ← latest_perm nodup_collect h] at hs
  exact ⟨s, mem_of_latest hs, key_of_latest hs⟩

/-- What is kept is what the keys of the group are to read. -/
theorem Keeps.value (h : Keeps G g C rs) (hs : Settled cfg s G T fun _ => False)
    (hhome : ∀ r ∈ (G g).records ++ C.map Prod.snd, r.home = g) (hg : g ≠ lsmSegment) (hr : r ∈ rs) :
    r.home = g ∧ settle C T r.key = some r.value ∧ ¬Absent G C r.key := by
  have hmem := mem_of_mem_collect (h.mem_iff.1 hr)
  have hrg := hhome r hmem
  have hmain : cfg.mainSegmentOf r.key = g := by rw [← hrg]; exact (r.home_of_ne (hrg ▸ hg)).symm
  have hnodup : (rs.map Record.key).Nodup := (h.map Record.key).nodup_iff.2 nodup_collect
  have hlast := h.latest r.key
  rw [latest_of_nodup hnodup hr, latest_map, ← map_record_recordOf hmain] at hlast
  refine ⟨hrg, ?_⟩
  rcases hx : Journal.latest (Record.key ∘ Prod.snd) C r.key with _ | x
  · rw [hx] at hlast
    obtain ⟨y, hy, hyr⟩ := Option.map_eq_some_iff.1 hlast.symm
    refine ⟨?_, fun habs => by rw [habs.1] at hy; cases hy⟩
    have hT := hs.tree.value_of_recordOf r.storable.1 (fun h => h) hy
    rw [settle, show Journal.latest (fun x : Nat × Record cfg => x.2.key) C r.key = none from hx, hT, hyr]
    rfl
  · rw [hx] at hlast
    have hxr : r = x.2 := Option.some.inj hlast
    have hkey : x.2.key = r.key := congrArg Record.key hxr.symm
    refine ⟨?_, fun habs => habs.2 x (mem_of_latest hx) hkey⟩
    rw [settle, show Journal.latest (fun x : Nat × Record cfg => x.2.key) C r.key = some x from hx, hxr]
    rfl

theorem returning_start {logs : List Nat} (hs : Settled cfg s G T fun _ => False)
    (hgc : Pooled cfg .gc [] (fun _ => []) (s.pools .gc)) (hnames : (s.pools .gc).groupsInPool.keys = [])
    (hseg : s.groups.segmentsOf g = some (g :: logs)) (hr : SegmentGroupManager.Released cfg g logs s.groups m')
    (hhome : ∀ r ∈ (G g).records ++ C.map snd, r.home = g) (hkeeps : Keeps G g C rs)
    (hroom : K → N = s.groups.clearLogs cfg + logs.length ∧ Compact cfg R N rs) :
    Returning cfg K R N g G (settle C T) (Absent G C) (s.pools .update) rs [] rs
      { s with groups := m'.setGroupFronts g 0 } (update G g [(g, [])]) := by
  have hlaid := hs.laid.released hseg hr
  have hg : g ≠ lsmSegment := by
    rintro rfl
    rw [hs.laid.lsm.1] at hseg
    cases hseg
  refine ⟨⟨?_, ?_⟩, ?_, ?_, fun _ => hnames, rfl, fun g' hne => update_of_ne hne .., ?_, ?_, ?_, ?_, ?_⟩
  · refine hlaid.congr (by simp) (by simp) (by simp) (by simp) (by simp) fun g' _ => ?_
    by_cases heq : g' = g
    · subst heq
      rw [update_self, getGroupFlushFront_setGroupFronts hr.self]
    · rw [update_of_ne heq, getGroupFlushFront_setGroupFronts_of_ne heq,
        getGroupFlushFront, hr.other g' heq, getGroupFlushFront]
  · refine (hs.tree.released (fun _ => False.elim) fun r hr => ?_).congr_values fun k hk => ?_
    · exact hkeeps.exists_key (mem_append_left _ hr)
    · have hnone : latest (fun x : Nat × Record cfg => x.2.key) C k = none := by
        refine latest_eq_none.2 fun x hx hxk => hk ?_
        obtain ⟨s, hs, hsk⟩ := hkeeps.exists_key (mem_append_right _ (mem_map_of_mem hx))
        exact ⟨s, hs, hsk.trans hxk⟩
      rw [settle, hnone]
      rfl
  · rw [offsets_nil, update_nil]
    exact hgc
  · rw [hnames]
    exact fun _ h => by cases h
  · rw [update_self]; simp
  · intro k hk
    rw [recordOf_update_nil, hk.1, ite_self]
  · exact fun r hr => hkeeps.value hs hhome hg hr
  · rw [update_self]
    exact .refl _
  · intro hK
    obtain ⟨hN, hsizes, hbudget⟩ := hroom hK
    rw [update_self]
    refine ⟨hsizes, fun x hx => absurd hx (not_mem_nil), ?_, ?_⟩
    · have := hr.clearLogs hs.laid.wf hseg
      have hbit : (m'.setGroupFronts g 0).clearLogs cfg = m'.clearLogs cfg := by
        unfold clearLogs
        rw [bitmap_setGroupFronts]
      show (m'.setGroupFronts g 0).clearLogs cfg + 0 = N
      omega
    · show 0 + total size rs ≤ _
      rw [Nat.zero_add]
      exact hbudget

/-- What a collection of `g` leaves: it took the pooled updates of the group along. -/
structure Collected (cfg : Config) (g : Nat) (P : List (Record cfg)) (pend : Nat → List (Nat × Record cfg))
    (G : Nat → Content cfg) (T : Bytes → Option Bytes) (s s' : Store) (G' : Nat → Content cfg) : Prop where
  settled : Settled cfg s' G' (settle (pend g) T) fun _ => False
  pooled : Pooled cfg .update P (update pend g []) (s'.pools .update)
  keysInPool : (s'.pools .update).keysInPool = (s.pools .update).keysInPool
  pool : (s'.pools .update).pool = (s.pools .update).pool
  gc : Pooled cfg .gc [] (fun _ => []) (s'.pools .gc)
  names : (s'.pools .gc).groupsInPool.keys = []
  others : ∀ g', g' ≠ g → G' g' = G g'
  nonempty : ∀ g', G g' ≠ [] → G' g' ≠ []
  absent : ∀ k, recordOf G k = none → (∀ x ∈ pend g, x.2.key ≠ k) → recordOf G' k = none
  keeps : Keeps G g (pend g) (G' g).records

theorem Returning.collected {G' : Nat → Content cfg} {s' : Store}
    (h : Returning cfg K R N g G (settle (pend g) T) (Absent G (pend g)) p₀ rs [] [] s' G') (hkeeps : Keeps G g (pend g) rs)
    (hpool : Pooled cfg .update P (Function.update pend g []) p₀)
    (hkeys : p₀.keysInPool = (s.pools .update).keysInPool) (hbuf : p₀.pool = (s.pools .update).pool) :
    Collected cfg g P pend G T s s' G' where
  settled := ⟨h.settled.laid, h.settled.tree.mono fun k ⟨r, hr, _⟩ => absurd hr (not_mem_nil)⟩
  pooled := by rw [h.update]; exact hpool
  keysInPool := by rw [h.update]; exact hkeys
  pool := by rw [h.update]; exact hbuf
  gc := by
    have hpooled := h.pooled
    rw [offsets_nil, update_nil] at hpooled
    exact hpooled
  names := h.empty rfl
  others := h.others
  nonempty g' hne := by
    by_cases hg : g' = g
    · subst hg; exact h.nonempty
    · rw [h.others g' hg]; exact hne
  absent k hk hC := h.absent k ⟨hk, hC⟩
  keeps := by
    have hkept := h.kept
    rw [append_nil, append_nil] at hkept
    exact hkept.trans hkeeps

theorem wp_writeOut {es : List Entry} {G₂ : Nat → Content cfg} {s₂ : Store}
    (h : Returning cfg K R N g G (settle (pend g) T) (Absent G (pend g)) p₀ rs [] rs s₂ G₂)
    (hes : List.Forall₂ Kept es rs) (hkeeps : Keeps G g (pend g) rs)
    (hpool : Pooled cfg .update P (update pend g []) p₀)
    (hkeys : p₀.keysInPool = (s.pools .update).keysInPool) (hbuf : p₀.pool = (s.pools .update).pool) :
    wp (do
        let s ← es.foldlM (writeBack cfg g) s₂
        if (s.pools .gc).pool.writeFront = 0 then .ok s
        else (s.setPool .update ((s.pools .update).releaseGroup g)).flushGCPool cfg)
      (fun s' => ∃ G', Collected cfg g P pend G T s s' G' ∧ (K → Room cfg R N s'.groups (G' g) []))
      (fun e => e = .outOfLogSegments ∧ ¬K) := by
  refine wp_seq (h.wp_writeBacks hes) ?_
  rintro s₃ ⟨pool, G₃, hs₃⟩
  refine wp_ite (fun hzero => ?_) fun _ => ?_
  · -- nothing was kept since the pool was last flushed
    rw [hs₃.pooled.front] at hzero
    have hnil : pool = [] := by
      rcases pool with _ | ⟨r, pool⟩
      · rfl
      · have := r.size_pos
        rw [total_cons] at hzero
        omega
    subst hnil
    exact ⟨G₃, hs₃.collected hkeeps hpool hkeys hbuf, hs₃.room⟩
  · rw [hs₃.update]
    refine wp_mono hs₃.setUpdate.wp_flushGCPool ?_ fun _ => id
    rintro s₄ ⟨G₄, hs₄⟩
    exact ⟨G₄, hs₄.collected hkeeps (hpool.releaseGroup (update_self ..)) hkeys hbuf, hs₄.room⟩

/-- A group that a collection may be called on: it has a log segment. -/
structure Grouped (cfg : Config) (g : Nat) (G : Nat → Content cfg) (s : Store) (gm : GroupMetaData) : Prop where
  group : s.groups.group g = some gm
  logs : (G g).map fst = g :: gm.segments.tail
  laid : GroupLaid cfg s.groups (s.groups.getGroupFlushFront g) s.disk g (G g)
  tail : gm.segments.tail ≠ []
  ne_lsm : g ≠ lsmSegment

theorem Settled.grouped {X : Bytes → Prop} (hs : Settled cfg s G T X) (hlen : 1 < (G g).length) :
    ∃ group, Grouped cfg g G s group := by
  have hnil : G g ≠ [] := by rintro heq; simp [heq] at hlen
  have hlaid := hs.laid.of_ne_nil hnil
  obtain ⟨group, hgroup, hsegs⟩ := Option.map_eq_some_iff.1 hlaid.segments
  have hlogs : (G g).map fst = g :: group.segments.tail := by rw [hsegs]; exact hlaid.cons_logs hs.laid.wf
  refine ⟨group, hgroup, hlogs, hlaid, ?_, ?_⟩
  · have := congrArg length hlogs
    rintro heq
    rw [heq] at this
    simp at this
    omega
  · rintro rfl
    exact hnil hs.laid.lsm.2

theorem Settled.length_logs {X : Bytes → Prop} (hs : Settled cfg s G T X) (hlen : 1 < (G g).length) :
    (s.groups.getGroupLogSegments g).length = (G g).length - 1 := by
  obtain ⟨gm, hg⟩ := hs.grouped hlen
  have := congrArg length hg.logs
  rw [getGroupLogSegments, hg.group]
  simp at this ⊢
  omega

section
variable (hs : Settled cfg s G T fun _ => False) (hpool : Pooled cfg .update P pend (s.pools .update))
include hs hpool

theorem wp_scanGroup (hlen : 1 < (G g).length) :
    wp (s.scanGroup cfg g) (fun (s₁, k) => ∃ p, s₁ = s.setPool .update p ∧
        Pooled cfg .update P (update pend g []) p ∧ p.keysInPool = (s.pools .update).keysInPool ∧
        p.pool = (s.pools .update).pool ∧ Scanned k ((G g).records ++ (pend g).map snd))
      (fun e => e = .assertion ∧ cfg.mainSegmentSize < cfg.logSegmentSize) := by
  obtain ⟨group, hg⟩ := hs.grouped hlen
  unfold scanGroup
  simp only [hg.group]
  refine wp_seq (wp_prepareGCGroup hpool) ?_
  rintro ⟨s₁, buffer⟩ ⟨p, rfl, hp, hkeys, hbuf, hbuffer⟩
  obtain ⟨segments, hload, hloaded⟩ := mapM_loadSegment (s := s.setPool .update p) hg.laid
    (hg.laid.full (Nat.ne_of_gt hlen)) (fun x hx => hx)
  rw [show [g] ++ group.segments.tail = (G g).map fst from hg.logs.symm, hload, wp_bind, wp_ok, wp_bind]
  refine wp_mono (wp_gcSegments (show Scanned _ [] from .nil) hloaded fun x hx r hr => (hg.laid.home x hx r hr).trans_ne hg.ne_lsm) ?_
    fun _ => False.elim
  intro k hk
  cases buffer with
  | none =>
    rw [show pend g = [] from hbuffer, map_nil, append_nil] at *
    exact ⟨p, rfl, hp, hkeys, hbuf, hk⟩
  | some buffer =>
    rw [wp_bind]
    refine wp_mono (wp_scanBuffer hk hg.tail hbuffer fun r hr => ?_) ?_ fun _ => False.elim
    · obtain ⟨x, hx, rfl⟩ := mem_map.1 hr
      exact (hpool.home hx).trans_ne hg.ne_lsm
    · exact fun k' hk' => ⟨p, rfl, hp, hkeys, hbuf, hk'⟩

section
variable (hgc : Pooled cfg .gc [] (fun _ => []) (s.pools .gc)) (hnames : (s.pools .gc).groupsInPool.keys = []) (hlen : 1 < (G g).length)
include hgc hnames hlen

theorem wp_rewriteGroup {order : Order} {p : Pool} {k : Scan} (hp : Pooled cfg .update P (update pend g []) p)
    (hkeys : p.keysInPool = (s.pools .update).keysInPool) (hbuf : p.pool = (s.pools .update).pool)
    (hk : Scanned k ((G g).records ++ (pend g).map snd)) (hroom : K → N = s.groups.clearLogs cfg + ((G g).length - 1) ∧
      Compact cfg R N (collect key ((G g).records ++ (pend g).map snd))) :
    wp ((s.setPool .update p).rewriteGroup cfg g order k)
      (fun s' => ∃ G', Collected cfg g P pend G T s s' G' ∧ (K → Room cfg R N s'.groups (G' g) []))
      (fun e => e = .outOfLogSegments ∧ ¬K) := by
  obtain ⟨group, hg⟩ := hs.grouped hlen
  have hseg : s.groups.segmentsOf g = some (g :: group.segments.tail) := by rw [hg.laid.segments, hg.logs]
  obtain ⟨rs, hes, hkeeps⟩ := perm_comp_forall₂ (order.perm k.keyCount) hk
  unfold rewriteGroup
  rw [wp_bind]
  rcases hrel : s.groups.releaseGroupLogSegments cfg g with e | m'
  · simp [releaseGroupLogSegments, hg.group] at hrel
  · have hr := released_of_eq_ok hrel hseg
    have hlen' : group.segments.tail.length = (G g).length - 1 := by
      have := congrArg length hg.logs
      simp at this
      rw [length_tail]
      omega
    have hhome : ∀ r ∈ (G g).records ++ (pend g).map snd, r.home = g := by
      intro r hr
      rcases mem_append.1 hr with hr | hr
      · obtain ⟨x, hx, hrx⟩ := mem_flatMap.1 hr
        exact hg.laid.home x hx r hrx
      · obtain ⟨x, hx, rfl⟩ := mem_map.1 hr
        exact hpool.home hx
    have hfits : K → N = s.groups.clearLogs cfg + group.segments.tail.length ∧ Compact cfg R N rs := by
      intro hK
      obtain ⟨hN, hsizes, htotal⟩ := hroom hK
      refine ⟨hlen' ▸ hN, fun r hr => hsizes r (hkeeps.mem_iff.1 hr), ?_⟩
      rw [total_perm hkeeps]
      exact htotal
    have hstart := returning_start (s := s.setPool .update p) (K := K) (R := R) (N := N) ⟨hs.laid, hs.tree⟩
      (by simpa [setPool] using hgc) (by simpa [setPool] using hnames) hseg hr hhome hkeeps hfits
    rw [show (s.setPool .update p).groups.releaseGroupLogSegments cfg g = .ok m' from hrel]
    exact wp_writeOut hstart hes hkeeps (by simpa [setPool] using hp) (by simpa [setPool] using hkeys)
      (by simpa [setPool] using hbuf)

theorem wp_gcOneGroup {order : Order} (hroom : K → N = s.groups.clearLogs cfg + ((G g).length - 1) ∧
      Compact cfg R N (collect key ((G g).records ++ (pend g).map snd))) :
    wp (s.gcOneGroup cfg g order)
      (fun s' => ∃ G', Collected cfg g P pend G T s s' G' ∧ (K → Room cfg R N s'.groups (G' g) []))
      (fun e => (e = .outOfLogSegments ∧ ¬K) ∨ (e = .assertion ∧ cfg.mainSegmentSize < cfg.logSegmentSize)) := by
  rw [gcOneGroup_eq, wp_bind]
  refine wp_mono (wp_scanGroup hs hpool hlen) ?_ fun _ => .inr
  rintro ⟨s₁, k⟩ ⟨p, rfl, hp, hkeys, hbuf, hk⟩
  exact wp_mono (wp_rewriteGroup hs hpool hgc hnames hlen hp hkeys hbuf hk hroom) (fun _ => id) fun _ => .inl

end

end

/-! ### Room for what is kept -/

/-- The sizes of the records a collection of the group keeps. -/
def Store.keptSizes (cfg : Config) (groupId : Nat) (s : Store) : Except Stop (List Nat) := do
  let (_, k) ← s.scanGroup cfg groupId
  k.keyCount.mapM fun e => recordSize <$> e.segment.readLen (e.pos + keySize)

/-- They fit into the main segment and `n` log segments, even if every segment is left with less than the largest of
them to spare. -/
def Store.packs (cfg : Config) (s : Store) (groupId n : Nat) : Bool :=
  match s.keptSizes cfg groupId with
  | .error _ => false
  | .ok sizes =>
    let largest := sizes.foldr max 0
    sizes.sum ≤ cfg.mainSegmentSize - largest + n * (cfg.logSegmentSize - largest)

/-- They fit into the log segments that are free or the group's. -/
def Store.roomy (cfg : Config) (s : Store) (groupId : Nat) : Bool :=
  s.packs cfg groupId (s.groups.freeLogSegment + (s.groups.getGroupLogSegments groupId).length)

/-- They leave one of the group's log segments. -/
def Store.releases (cfg : Config) (s : Store) (groupId : Nat) : Bool :=
  let logs := (s.groups.getGroupLogSegments groupId).length
  0 < logs && s.packs cfg groupId (logs - 1)

theorem mapM_readLen {es : List Entry} {rs : List (Record cfg)} (h : List.Forall₂ Kept es rs) :
    es.mapM (fun e => recordSize <$> e.segment.readLen (e.pos + keySize)) = .ok (rs.map size) := by
  induction h with
  | nil => rfl
  | cons he _ ih =>
    rw [mapM_cons, he.has.len, ih]
    rfl

theorem wp_keptSizes (hs : Settled cfg s G T fun _ => False) (hpool : Pooled cfg .update P pend (s.pools .update))
    (hlen : 1 < (G g).length) : wp (s.keptSizes cfg g)
      (fun sizes => sizes = (collect key ((G g).records ++ (pend g).map snd)).map size) (fun _ => True) := by
  unfold keptSizes
  rw [wp_bind]
  refine wp_mono (wp_scanGroup hs hpool hlen) ?_ fun _ _ => trivial
  rintro ⟨s₁, k⟩ ⟨p, -, -, -, -, hk⟩
  dsimp only
  rw [mapM_readLen hk, wp_ok]

theorem le_foldr_max {n : Nat} {l : List Nat} (h : n ∈ l) : n ≤ l.foldr max 0 := by
  induction l with
  | nil => cases h
  | cons a l ih =>
    rcases mem_cons.1 h with rfl | h
    · exact Nat.le_max_left ..
    · exact Nat.le_trans (ih h) (Nat.le_max_right ..)

theorem foldr_max_le {n : Nat} {l : List Nat} (h : ∀ a ∈ l, a ≤ n) : l.foldr max 0 ≤ n := by
  induction l with
  | nil => exact Nat.zero_le _
  | cons a l ih =>
    rw [forall_mem_cons] at h
    exact Nat.max_le.2 ⟨h.1, ih h.2⟩

section
variable (hs : Settled cfg s G T fun _ => False) (hpool : Pooled cfg .update P pend (s.pools .update))
  (hlen : 1 < (G g).length)
include hs hpool hlen

theorem compact_of_packs {n : Nat} (hpacks : s.packs cfg g n) :
    Compact cfg (((collect key ((G g).records ++ (pend g).map snd)).map size).foldr max 0) n
      (collect key ((G g).records ++ (pend g).map snd)) := by
  unfold packs at hpacks
  have hkept := wp_keptSizes hs hpool hlen
  rcases hsizes : s.keptSizes cfg g with e | sizes
  · simp [hsizes] at hpacks
  · rw [hsizes] at hkept
    subst hkept
    simp only [hsizes, decide_eq_true_eq] at hpacks
    exact ⟨fun r hr => le_foldr_max (mem_map_of_mem hr), hpacks⟩

theorem compact_of_roomy (hroomy : s.roomy cfg g) : ∃ R,
    Compact cfg R (s.groups.clearLogs cfg + ((G g).length - 1)) (collect key ((G g).records ++ (pend g).map snd)) := by
  have hpacks := compact_of_packs hs hpool hlen hroomy
  rw [hs.laid.wf.free, hs.length_logs hlen] at hpacks
  exact ⟨_, hpacks⟩

end

end Start

end ValueSep.HashKV
