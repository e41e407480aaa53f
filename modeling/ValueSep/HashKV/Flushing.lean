import ValueSep.HashKV.Pooled
import ValueSep.HashKV.Room
import ValueSep.HashKV.Tree
import ValueSep.HashKV.WriteBuffer

/-!
# What a flush does to the store

Between two groups the flush has written what it placed (`Inv`); inside a group, records are still in the write buffer,
their places in the batch and the front of the group in a local variable (`GroupInv`). One update moves one record from
the pool to the end of its group, or into the tree, and the loop over a group does so for the records that wait for it,
in order.
-/

namespace ValueSep.HashKV

open Coding (Bytes)
open Journal (offsets latest)
open Wp
open List Function SegmentGroupManager Store Prod

variable {cfg : Config}

/-- The values the tree leads to after these records. -/
def settle (xs : List (Nat × Record cfg)) (T : Bytes → Option Bytes) : Bytes → Option Bytes :=
  fun k => ((latest (fun x => x.2.key) xs k).map fun x => x.2.value).or (T k)

variable {T : Bytes → Option Bytes}

theorem settle_append {xs ys : List (Nat × Record cfg)} : settle (xs ++ ys) T = settle ys (settle xs T) := by
  funext k
  unfold settle
  rw [Journal.latest_append]
  cases latest (fun x : Nat × Record cfg => x.2.key) ys k <;> rfl

theorem settle_singleton {x : Nat × Record cfg} : settle [x] T = update T x.2.key (some x.2.value) := by
  funext k
  have hl : latest (fun x : Nat × Record cfg => x.2.key) [x] k = if x.2.key = k then some x else none :=
    @Journal.latest_concat _ _ _ _ k x []
  unfold settle
  rw [hl]
  by_cases h : x.2.key = k
  · rw [if_pos h, ← h, update_self]; rfl
  · rw [if_neg h, update_of_ne (Ne.symm h)]; rfl

/-- Segments and tree of a store at rest. -/
structure Settled (cfg : Config) (s : Store) (G : Nat → Content cfg) (T : Bytes → Option Bytes) (X : Bytes → Prop) :
    Prop where
  laid : Laid cfg s.groups s.groups.getGroupFlushFront s.disk G
  tree : Tree cfg s.lsm G T X

namespace Flush

variable {f f' f'' : Flush} {i : PoolIndex} {g o : Nat} {G G' G'' : Nat → Content cfg} {T : Bytes → Option Bytes}
  {X : Bytes → Prop} {P : List (Record cfg)} {pend : Nat → List (Nat × Record cfg)} {r : Record cfg}
  {done done' rest : List (Nat × Record cfg)}

/-- Between two groups. -/
structure Inv (cfg : Config) (f : Flush) (G : Nat → Content cfg) (T : Bytes → Option Bytes) (X : Bytes → Prop) : Prop where
  buffer : f.segment = .none
  laid : Laid cfg f.store.groups f.store.groups.getGroupFlushFront f.store.disk G
  tree : Tree cfg (writeKeyBatch cfg f.batch f.store.lsm) G T X
  segments : ∀ c ∈ f.modifiedSegments, c < cfg.numSegment
  groups : ∀ g ∈ f.modifiedGroups, g < cfg.numMainSegment

/-- Inside the group `g`. -/
structure GroupInv (cfg : Config) (g : Nat) (f : Flush) (G : Nat → Content cfg) (T : Bytes → Option Bytes)
    (X : Bytes → Prop) : Prop where
  buffer : f.Buffered cfg (lastSegment g f.logSegments) (G g).pos
  logs : f.logSegments = ((G g).map fst).tail
  laid : Laid cfg f.store.groups (update f.store.groups.getGroupFlushFront g f.flushFront)
    (f.settledDisk cfg) G
  tree : Tree cfg (writeKeyBatch cfg f.batch f.store.lsm) G T X
  segments : ∀ c ∈ f.modifiedSegments, c < cfg.numSegment
  groups : ∀ g ∈ f.modifiedGroups, g < cfg.numMainSegment

/-- The records `done` went from the pool `i` to the group `g`; the rest of the pools and of the groups is as it was. -/
structure Advance (cfg : Config) (i : PoolIndex) (g : Nat) (done : List (Nat × Record cfg)) (f : Flush)
    (G : Nat → Content cfg) (f' : Flush) (G' : Nat → Content cfg) : Prop where
  pool : (f'.store.pools i).pool = (f.store.pools i).pool
  keysInPool : (f'.store.pools i).keysInPool = (f.store.pools i).keysInPool
  groupsInPool : (f'.store.pools i).groupsInPool = (f.store.pools i).groupsInPool
  pools : ∀ j, j ≠ i → f'.store.pools j = f.store.pools j
  content : ∀ g', g' ≠ g → G' g' = G g'
  records : g ≠ lsmSegment → (G' g).records = (G g).records ++ done.map snd
  nonempty : ∀ g', G g' ≠ [] → G' g' ≠ []
  /-- Only these records are new in the groups. -/
  absent : ∀ k, recordOf G k = none → (∀ x ∈ done, x.2.home ≠ lsmSegment → x.2.key ≠ k) → recordOf G' k = none

theorem Advance.refl : Advance cfg i g [] f G f G :=
  ⟨rfl, rfl, rfl, fun _ _ => rfl, fun _ _ => rfl, fun _ => (append_nil _).symm, fun _ => id, fun _ h _ => h⟩

theorem Advance.trans (h : Advance cfg i g done f G f' G') (h' : Advance cfg i g done' f' G' f'' G'') :
    Advance cfg i g (done ++ done') f G f'' G'' where
  pool := h'.pool.trans h.pool
  keysInPool := h'.keysInPool.trans h.keysInPool
  groupsInPool := h'.groupsInPool.trans h.groupsInPool
  pools j hj := (h'.pools j hj).trans (h.pools j hj)
  content g' hg := (h'.content g' hg).trans (h.content g' hg)
  records hg := by rw [h'.records hg, h.records hg, map_append, append_assoc]
  nonempty g' hg := h'.nonempty g' (h.nonempty g' hg)
  absent k hk hdone := h'.absent k (h.absent k hk fun x hx => hdone x (mem_append_left _ hx)) fun x hx =>
    hdone x (mem_append_right _ hx)

theorem settledDisk_congr (hseg : f'.segment = f.segment) (hoff : f'.inSegmentOffset = f.inSegmentOffset)
    (hdisk : f'.store.disk = f.store.disk) : f'.settledDisk cfg = f.settledDisk cfg := by
  unfold settledDisk flushSegmentBuffer
  rw [hseg, hoff, hdisk]
  by_cases h : 0 < f.segment.writeFront - f.segment.flushFront
  · rw [if_pos h, if_pos h]
  · rw [if_neg h, if_neg h, hdisk]

/-! ### One update -/

variable {loc : ValueLocation}

theorem settledDisk_push {k : Bytes} : (f.push i g o k loc).settledDisk cfg = f.settledDisk cfg := settledDisk_congr rfl rfl rfl

theorem pools_push {k : Bytes} : (f.push i g o k loc).store.pools i =
    (f.store.pools i).setOffsets g ((((f.store.pools i).segmentsInPool.lookup g).getD []).erase o) :=
  update_self ..

theorem advance_push {loc : ValueLocation} {k : Bytes} (hf : f'.store.pools = f.store.pools)
    (hcontent : ∀ g', g' ≠ g → G' g' = G g')
    (hrecords : g ≠ lsmSegment → (G' g).records = (G g).records ++ done.map snd)
    (hnonempty : ∀ g', G g' ≠ [] → G' g' ≠ [])
    (habsent : ∀ k, recordOf G k = none → (∀ x ∈ done, x.2.home ≠ lsmSegment → x.2.key ≠ k) → recordOf G' k = none) :
    Advance cfg i g done f G (f'.push i g o k loc) G' where
  pool := by simp [push, setPool, Pool.setOffsets, hf]
  keysInPool := by simp [push, setPool, Pool.setOffsets, hf]
  groupsInPool := by simp [push, setPool, Pool.setOffsets, hf]
  pools j hj := by simp [push, setPool, hf, update_of_ne hj]
  content := hcontent
  records := hrecords
  nonempty := hnonempty
  absent := habsent

/-- The records `done` of the group were dealt with, `rest` are left. -/
def Moved (cfg : Config) (i : PoolIndex) (g : Nat) (P : List (Record cfg)) (pend : Nat → List (Nat × Record cfg))
    (f : Flush) (G : Nat → Content cfg) (T : Bytes → Option Bytes) (X : Bytes → Prop)
    (done rest : List (Nat × Record cfg)) (f' : Flush) (G' : Nat → Content cfg) : Prop :=
  GroupInv cfg g f' G' (settle done T) (fun k => X k ∧ ∀ x ∈ done, x.2.key ≠ k) ∧
    Advance cfg i g done f G f' G' ∧ Pooled cfg i P (update pend g rest) (f'.store.pools i)

theorem GroupInv.mono {Y : Bytes → Prop} (h : GroupInv cfg g f G T X) (hXY : ∀ k, X k → Y k) : GroupInv cfg g f G T Y :=
  { h with tree := h.tree.mono hXY }

theorem Moved.refl (h : GroupInv cfg g f G T X) (hpool : Pooled cfg i P pend (f.store.pools i)) :
    Moved cfg i g P pend f G T X [] (pend g) f G := by
  refine ⟨h.mono fun k hk => ⟨hk, fun x hx => by cases hx⟩, .refl, ?_⟩
  rwa [update_eq_self]

theorem Moved.trans {rest' : List (Nat × Record cfg)} (h : Moved cfg i g P pend f G T X done rest f' G')
    (h' : Moved cfg i g P (update pend g rest) f' G' (settle done T) (fun k => X k ∧ ∀ x ∈ done, x.2.key ≠ k)
      done' rest' f'' G'') : Moved cfg i g P pend f G T X (done ++ done') rest' f'' G'' := by
  obtain ⟨-, hadv, -⟩ := h
  obtain ⟨hinv, hadv', hpool⟩ := h'
  rw [← settle_append] at hinv
  refine ⟨hinv.mono fun k hk => ⟨hk.1.1, fun x hx => ?_⟩, hadv.trans hadv', ?_⟩
  · exact (mem_append.1 hx).elim (hk.1.2 x) (hk.2 x)
  · rwa [update_idem] at hpool

theorem moved_lsm (h : GroupInv cfg lsmSegment f G T X) (hpool : Pooled cfg i P pend (f.store.pools i))
    (hpend : pend lsmSegment = (o, r) :: rest) (hnone : recordOf G r.key = none) :
    Moved cfg i lsmSegment P pend f G T X [(o, r)] rest (f.push i lsmSegment o r.key (.inline r.value)) G := by
  refine ⟨⟨h.buffer, h.logs, ?_, ?_, h.segments, h.groups⟩, ?_, ?_⟩
  · rw [settledDisk_push]
    exact h.laid
  · show Tree cfg (writeKeyBatch cfg (f.batch ++ [(r.key, .inline r.value)]) f.store.lsm) _ _ _
    rw [writeKeyBatch_concat, settle_singleton]
    simpa using h.tree.inlined hnone
  · exact advance_push rfl (fun _ _ => rfl) (absurd rfl) (fun _ => id) fun _ h _ => h
  · rw [pools_push]
    exact hpool.pop hpend

theorem moved_group {c front : Nat} {cur : GroupCursor} (h : GroupInv cfg g f G T X)
    (hpool : Pooled cfg i P pend (f.store.pools i)) (hpend : pend g = (o, r) :: rest) (hg : g ≠ lsmSegment)
    (hlaid : GroupLaid cfg f.store.groups f.flushFront (f.settledDisk cfg) g (G g))
    (hp : Placed cfg g r.size ((G g).map fst).tail (G g).pos f.store.groups c front cur) :
    ∃ f₁ G', (f.setCursor cur).writeRecord cfg i c front o r.value.length = .ok f₁ ∧
      Moved cfg i g P pend f G T X [(o, r)] rest
        ({ f₁ with modifiedSegments := f₁.modifiedSegments.insert c }.push i g o r.key (.stored c front r.value.length))
        G' ∧
      f₁.store.groups = cur.groups ∧
      ∀ R N later, Room cfg R N f.store.groups (G g) (r :: later) → Room cfg R N cur.groups (G' g) later := by
  have hmem : (o, r) ∈ pend g := by rw [hpend]; exact mem_cons_self ..
  have hhome : r.home = g := hpool.home hmem
  have hmain : cfg.mainSegmentOf r.key = g := by rw [← hhome]; exact (r.home_of_ne (hhome ▸ hg)).symm
  have hseg := r.segmental (hhome ▸ hg)
  have hhas : (f.store.pools i).pool.Has o r := hpool.has (hpool.mem_filter hmem).1
  have hc : c < cfg.numSegment := hp.wf.lt_numSegment hp.segments (hp.last ▸ lastSegment_mem g _)
  have hinv : c ≠ invalid := cfg.ne_invalid hc
  -- the buffer ends where the record starts, if it is one for the same segment
  have hend : c = lastSegment g f.logSegments → front = (G g).pos := by
    intro heq
    rcases hp.slot with ⟨-, hfront, -⟩ | ⟨-, -, -, hnew⟩
    · exact hfront
    · refine absurd ?_ (hnew.not_mem h.laid.wf hlaid.segments)
      rw [heq, h.logs, hlaid.cons_logs h.laid.wf]
      exact lastSegment_mem g _
  have hbuf : (f.setCursor cur).Buffered cfg (lastSegment g f.logSegments) (G g).pos := h.buffer
  obtain ⟨disk, sg, n, heq, hsettled, hbuf'⟩ := writeRecord_ok hbuf hend hinv hseg hhas
  have hdisk : (f.setCursor cur).settledDisk cfg = f.settledDisk cfg := settledDisk_congr rfl rfl rfl
  have hfront : update f.store.groups.getGroupFlushFront g f.flushFront g = f.flushFront :=
    update_self ..
  obtain ⟨C, hgrown, hlaid'⟩ := h.laid.placed hhome hseg.1 (hfront.symm ▸ hlaid) hp
  rw [update_idem, ← hdisk, ← hsettled, ← hp.getGroupFlushFront] at hlaid'
  have hnil := hgrown.ne_nil
  have hlaidC : GroupLaid cfg cur.groups cur.flushFront ((f.setCursor cur |>.withBuffer disk sg n).settledDisk cfg) g C := by
    have := hlaid'.of_ne_nil (by rwa [update_self])
    rwa [update_self, update_self] at this
  refine ⟨_, update G g C, heq, ⟨⟨?_, ?_, ?_, ?_, ?_, h.groups⟩, ?_, ?_⟩, rfl, ?_⟩
  · rw [update_self, hgrown.pos]
    show Buffered cfg _ (lastSegment g cur.logSegments) _
    rw [← hp.last]
    exact hbuf'
  · rw [update_self]
    have := hlaidC.segments.symm.trans hp.segments
    rw [Option.some.injEq] at this
    rw [this]
    rfl
  · rw [settledDisk_push]
    have hsame : ∀ cs, settledDisk cfg { (f.setCursor cur).withBuffer disk sg n with modifiedSegments := cs } =
        ((f.setCursor cur).withBuffer disk sg n).settledDisk cfg := fun _ => settledDisk_congr rfl rfl rfl
    rw [hsame]
    exact hlaid'
  · show Tree cfg (writeKeyBatch cfg (f.batch ++ [(r.key, .stored c front r.value.length)]) f.store.lsm) _ _ _
    rw [writeKeyBatch_concat, settle_singleton]
    simpa using h.tree.stored hmain hgrown
  · intro d hd
    rcases mem_insert_iff.1 hd with rfl | hd
    · exact hc
    · exact h.segments d hd
  · refine advance_push rfl (fun g' hne => update_of_ne hne ..) (fun _ => ?_) (fun g' hne => ?_)
      fun k hk hdone => ?_
    · rw [update_self, hgrown.records]; rfl
    · by_cases heq : g' = g
      · rw [heq, update_self]; exact hnil
      · rwa [update_of_ne heq]
    · rw [recordOf_grown hmain hgrown, if_neg (hdone (o, r) (mem_singleton_self _) (hhome ▸ hg))]
      exact hk
  · rw [pools_push]
    exact hpool.pop hpend
  · intro R N later hroom
    rw [update_self]
    exact hroom.placed hlaid h.laid.wf hp hgrown hlaidC

section Room

/- `K` says that the records of the group, with those that come `later`, find room; only then is the flush known not to
run out of log segments. -/
variable {K : Prop} {R N : Nat} {later : List (Record cfg)}

theorem wp_placeUpdate (h : GroupInv cfg g f G T X) (hpool : Pooled cfg i P pend (f.store.pools i))
    (hpend : pend g = (o, r) :: rest) (hlsm : g = lsmSegment → recordOf G r.key = none)
    (hgroup : g ≠ lsmSegment → G g ≠ []) (hroom : K → g ≠ lsmSegment ∧ Room cfg R N f.store.groups (G g) (r :: later)) :
    wp (f.placeUpdate cfg i g o r.value.length) (fun f' => ∃ G', Moved cfg i g P pend f G T X [(o, r)] rest f' G' ∧
        (K → g ≠ lsmSegment ∧ Room cfg R N f'.store.groups (G' g) later)) (fun e => e = .outOfLogSegments ∧ ¬K) := by
  have hmem : (o, r) ∈ pend g := by rw [hpend]; exact mem_cons_self ..
  have hhas : (f.store.pools i).pool.Has o r := hpool.has (hpool.mem_filter hmem).1
  simp only [placeUpdate, hhas.key]
  rw [wp_bind, wp_ok]
  by_cases hg : g = lsmSegment
  · subst hg
    rw [if_pos rfl, hhas.value, wp_bind, wp_ok]
    exact ⟨G, moved_lsm h hpool hpend (hlsm rfl), fun hK => absurd rfl (hroom hK).1⟩
  · rw [if_neg hg, wp_bind]
    have hlaid : GroupLaid cfg f.store.groups f.flushFront (f.settledDisk cfg) g (G g) := by
      have := h.laid.of_ne_nil (hgroup hg)
      rwa [update_self] at this
    have hsegs : f.store.groups.segmentsOf g = some (g :: ((G g).map fst).tail) := by
      rw [hlaid.segments, ← hlaid.cons_logs h.laid.wf]
    have hseg := r.segmental (hpool.home hmem ▸ hg)
    have hcur : f.cursor = ⟨f.store.groups, ((G g).map fst).tail, f.flushFront⟩ := by
      rw [cursor, h.logs]
    rw [hcur]
    refine wp_mono (wp_place h.laid.wf hsegs hlaid.frontAt r.size_pos fun _ => hseg.2.1) ?_ ?_
    · rintro ⟨c, front, cur⟩ hp
      obtain ⟨f₁, G', heq, hmoved, hgroups, hroom'⟩ := moved_group h hpool hpend hg hlaid hp
      simp only [heq]
      refine ⟨G', hmoved, fun hK => ⟨hg, ?_⟩⟩
      show Room cfg R N f₁.store.groups (G' g) later
      rw [hgroups]
      exact hroom' R N later (hroom hK).2
    · rintro e ⟨heq, hclosed, hfull⟩
      exact ⟨heq, fun hK => (hroom hK).2.not_full hlaid h.laid.wf hclosed hfull⟩

/-! ### The loop over a group -/

theorem wp_updates (xs : List (Nat × Record cfg)) (hxs : pend g = xs) (h : GroupInv cfg g f G T X)
    (hpool : Pooled cfg i P pend (f.store.pools i)) (hlsm : g = lsmSegment → ∀ x ∈ xs, recordOf G x.2.key = none)
    (hgroup : g ≠ lsmSegment → xs ≠ [] → G g ≠ [])
    (hroom : K → g ≠ lsmSegment ∧ Room cfg R N f.store.groups (G g) (xs.map snd ++ later)) :
    wp (f.updates cfg i g (xs.map fst))
      (fun (f', overflow) => ∃ G' done rest, xs = done ++ rest ∧ (overflow = none → rest = []) ∧ (i = .gc → overflow = none) ∧
        Moved cfg i g P pend f G T X done rest f' G' ∧
        (K → g ≠ lsmSegment ∧ Room cfg R N f'.store.groups (G' g) (rest.map snd ++ later)))
      (fun e => e = .outOfLogSegments ∧ ¬K) := by
  induction xs generalizing f G T X pend with
  | nil => exact ⟨G, [], [], rfl, fun _ => rfl, fun _ => rfl, hxs ▸ .refl h hpool, hroom⟩
  | cons x xs ih =>
    obtain ⟨o, r⟩ := x
    have hmem : (o, r) ∈ pend g := by rw [hxs]; exact mem_cons_self ..
    have hhas : (f.store.pools i).pool.Has o r := hpool.has (hpool.mem_filter hmem).1
    have hvalid : ¬(r.value.length = invalid ∨ r.value.length = 0) := by
      have := r.value_pos
      have := r.value_lt
      unfold invalid; omega
    rw [map_cons, updates, hhas.len, wp_bind, wp_ok, if_neg hvalid]
    refine wp_ite (fun hover => ?_) fun _ => ?_
    · -- out of reserved space: everything waits
      have hmoved : Moved cfg i g P pend f G T X [] ((o, r) :: xs) f G := hxs ▸ .refl h hpool
      exact ⟨G, [], (o, r) :: xs, rfl, nofun, fun hi => absurd (hi.symm.trans hover.1) (by decide), hmoved, hroom⟩
    · refine wp_seq (wp_placeUpdate h hpool hxs (fun hg => hlsm hg (o, r) (mem_cons_self ..))
        (fun hg => hgroup hg (by simp)) hroom) ?_
      rintro f₁ ⟨G₁, hmoved, hroom₁⟩
      obtain ⟨hinv₁, hadv₁, hpool₁⟩ := hmoved
      have hlsm₁ : g = lsmSegment → ∀ y ∈ xs, recordOf G₁ y.2.key = none := by
        intro hg y hy
        refine hadv₁.absent _ (hlsm hg y (mem_cons_of_mem _ hy)) fun x hx hne => ?_
        rw [mem_singleton.1 hx] at hne
        exact absurd ((hpool.home hmem).trans hg) hne
      refine wp_mono (ih (update_self g xs pend) hinv₁ hpool₁ hlsm₁
        (fun hg _ => hadv₁.nonempty g (hgroup hg (by simp))) hroom₁) ?_ fun _ => id
      rintro ⟨f', overflow⟩ ⟨G', done, rest, hsplit, hnone, hgc, hmoved', hroom'⟩
      exact ⟨G', (o, r) :: done, rest, by rw [hsplit]; rfl, hnone, hgc,
        Moved.trans ⟨hinv₁, hadv₁, hpool₁⟩ hmoved', hroom'⟩

/-! ### From group to group -/

theorem inv_start {s : Store} (h : Settled cfg s G T X) : Inv cfg (start s) G T X where
  buffer := rfl
  laid := h.laid
  tree := h.tree
  segments _ h := by cases h
  groups _ h := by cases h

theorem Inv.beginGroup (h : Inv cfg f G T X) (hg : g = lsmSegment ∨ g < cfg.numMainSegment) :
    GroupInv cfg g (f.beginGroup g) G T X where
  buffer := .inl h.buffer
  logs := by
    show f.store.groups.getGroupLogSegments g = _
    rcases h.laid.group g with ⟨hnone, hG⟩ | hlaid
    · rw [hG, getGroupLogSegments, Option.map_eq_none_iff.1 hnone]
      rfl
    · refine getGroupLogSegments_of ?_
      rw [hlaid.segments, ← hlaid.cons_logs h.laid.wf]
  laid := by
    have hdisk : (f.beginGroup g).settledDisk cfg = f.store.disk := settledDisk_none h.buffer
    rw [hdisk]
    show Laid cfg f.store.groups (update f.store.groups.getGroupFlushFront g
      (f.store.groups.getGroupFlushFront g)) _ _
    rw [update_eq_self]
    exact h.laid
  tree := h.tree
  segments := h.segments
  groups := by
    intro d hd
    unfold Flush.beginGroup at hd
    by_cases hlsm : g = lsmSegment
    · rw [if_pos hlsm] at hd
      exact h.groups d hd
    · rw [if_neg hlsm] at hd
      rcases mem_insert_iff.1 hd with rfl | hd
      · exact hg.resolve_left hlsm
      · exact h.groups d hd

theorem wp_group (h : Inv cfg f G T X) (hpool : Pooled cfg i P pend (f.store.pools i))
    (hg : g ∈ (f.store.pools i).groupsInPool.keys) (hlsm : g = lsmSegment → ∀ x ∈ pend g, recordOf G x.2.key = none)
    (hgroup : g ≠ lsmSegment → pend g ≠ [] → G g ≠ [])
    (hroom : K → g ≠ lsmSegment ∧ Room cfg R N f.store.groups (G g) ((pend g).map snd ++ later)) :
    wp (f.group cfg i g)
      (fun (f', overflow) => ∃ G' done rest, pend g = done ++ rest ∧ (overflow = none → rest = []) ∧ (i = .gc → overflow = none) ∧
        Moved cfg i g P pend f G T X done rest f' G' ∧
        (K → g ≠ lsmSegment ∧ Room cfg R N f'.store.groups (G' g) (rest.map snd ++ later)))
      (fun e => e = .outOfLogSegments ∧ ¬K) := by
  unfold group
  have hpools : (f.beginGroup g).store.pools i = f.store.pools i := rfl
  rcases hlookup : (f.store.pools i).segmentsInPool.lookup g with _ | offsets
  · exact absurd ((hpool.keys g).2 (AList.mem_keys.2 hg)) (AList.lookup_eq_none.1 hlookup)
  · have hpending := hpool.pending g
    rw [hlookup] at hpending
    have heq : offsets = (pend g).map fst := hpending
    simp only [hpools, hlookup, heq]
    refine wp_mono (wp_updates (pend g) rfl (h.beginGroup (hpool.groups g hg)) hpool hlsm hgroup hroom) ?_ fun _ => id
    rintro ⟨f', overflow⟩ ⟨G', done, rest, hsplit, hnone, hgc, ⟨hinv, hadv, hpool'⟩, hroom'⟩
    exact ⟨G', done, rest, hsplit, hnone, hgc, ⟨hinv, { hadv with }, hpool'⟩, hroom'⟩

/-- The fronts are published: the manager has them for every group. -/
theorem laid_setGroupFronts {m : SegmentGroupManager} {flushFront : Nat} {disk : Nat → UInt8}
    (h : Laid cfg m (update m.getGroupFlushFront g flushFront) disk G) :
    Laid cfg (m.setGroupFronts g flushFront) (m.setGroupFronts g flushFront).getGroupFlushFront disk G := by
  refine h.congr (by simp) (by simp) (by simp) (by simp) (by simp) fun g' hne => ?_
  by_cases heq : g' = g
  · subst heq
    rw [update_self, getGroupFlushFront_setGroupFronts (h.of_ne_nil hne).segments]
  · rw [update_of_ne heq, getGroupFlushFront_setGroupFronts_of_ne heq]

theorem inv_endGroup {c pos : Nat} (hbuf : f.Buffered cfg c pos)
    (hlaid : Laid cfg f.store.groups (update f.store.groups.getGroupFlushFront g f.flushFront) (f.settledDisk cfg) G)
    (htree : Tree cfg (writeKeyBatch cfg f.batch f.store.lsm) G T X)
    (hsegments : ∀ c ∈ f.modifiedSegments, c < cfg.numSegment)
    (hgroups : ∀ g ∈ f.modifiedGroups, g < cfg.numMainSegment) : Inv cfg (f.endGroup cfg i g) G T X := by
  unfold endGroup
  rw [flushSegmentBuffer_zero hbuf]
  exact ⟨rfl, laid_setGroupFronts hlaid, htree, hsegments, hgroups⟩

theorem pools_endGroup {c pos : Nat} (hbuf : f.Buffered cfg c pos) : (f.endGroup cfg i g).store.pools =
    update f.store.pools i ((f.store.pools i).dropIfEmpty g) := by
  unfold endGroup
  rw [flushSegmentBuffer_zero hbuf]
  rfl

theorem GroupInv.endGroup (h : GroupInv cfg g f G T X) : Inv cfg (f.endGroup cfg i g) G T X :=
  inv_endGroup h.buffer h.laid h.tree h.segments h.groups

theorem GroupInv.suspend (h : GroupInv cfg g f G T X) :
    Inv cfg (f.suspend cfg g) G T X ∧ (f.suspend cfg g).batch = [] ∧ (f.suspend cfg g).store.pools = f.store.pools := by
  unfold Flush.suspend
  rw [flushSegmentBuffer_zero h.buffer]
  exact ⟨⟨rfl, laid_setGroupFronts h.laid, h.tree, h.segments, h.groups⟩, rfl, rfl⟩

theorem Inv.settled (h : Inv cfg f G T X) (hbatch : f.batch = []) : Settled cfg f.store G T X :=
  ⟨h.laid, by have := h.tree; rwa [hbatch] at this⟩

theorem wp_finish (h : Inv cfg f G T X) (hpool : Pooled cfg i P pend (f.store.pools i))
    (hgroups : (f.store.pools i).groupsInPool.keys = []) :
    wp (f.finish cfg i) (fun s => Settled cfg s G T X ∧ (∀ g, pend g = []) ∧ Pooled cfg i [] (fun _ => []) (s.pools i) ∧
        (s.pools i).groupsInPool.keys = [] ∧ (∀ k, (s.pools i).keysInPool k = none) ∧
        (∀ j, j ≠ i → s.pools j = f.store.pools j) ∧ s.groups = f.store.groups) (fun _ => False) := by
  obtain ⟨hnone, hempty, hreset⟩ := hpool.reset hgroups
  have hentries : (f.store.pools i).groupsInPool.entries.isEmpty := by
    rw [List.isEmpty_iff]
    exact map_eq_nil_iff.1 hgroups
  unfold finish
  rw [if_pos ⟨hentries, hempty⟩]
  refine ⟨⟨h.laid, h.tree.congr (fun k hk => ?_) fun _ => rfl⟩, hnone, ?_, ?_, ?_, ?_, rfl⟩
  · exact logMetaPersist_userKey hk h.segments h.groups
  · simp only [setPool, update_self]
    exact hreset _
  · simpa [setPool] using hgroups
  · simp [setPool]
  · intro j hj
    simp [setPool, update_of_ne hj]

end Room

end Flush

end ValueSep.HashKV
