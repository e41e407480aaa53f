import Mathlib.Data.List.Dedup
import ValueSep.HashKV.Scan
import ValueSep.HashKV.Server

/-!
# The keys of the LSM tree

Clients and the store share one tree. Whatever calls were made, it has keys of `KEY_SIZE` bytes, from the records of a
pool, and keys of metadata, which begin with one of two texts. The tree changes one entry at a time, so a property that
such changes keep holds in every reachable store (`lsm_of_run`).
-/

namespace ValueSep.HashKV

open Coding (Bytes)
open Exec (run)
open Wp
open List Store Function

variable {cfg : Config} {s s' : Store} {f : Flush} {i : PoolIndex} {key value : Bytes} {cs : List Choice}
  {I : (Bytes → Option Bytes) → Prop}

/-- A property of the tree that its single changes keep. -/
structure Lasting (I : (Bytes → Option Bytes) → Prop) : Prop where
  key : ∀ lsm k v, I lsm → k.length = keySize → I (update lsm k v)
  segment : ∀ lsm c v, I lsm → I (update lsm (segmentKey c) (some v))
  group : ∀ lsm g v, I lsm → I (update lsm (groupKey g) (some v))

namespace Lasting

theorem writeKeyBatch (hI : Lasting I) {batch : List (Bytes × ValueLocation)} {lsm : Bytes → Option Bytes}
    (h : I lsm) (hb : ∀ e ∈ batch, e.1.length = keySize) : I (Store.writeKeyBatch cfg batch lsm) := by
  exact List.foldlRecOn batch _ h fun _ h e he => hI.key _ _ _ h (hb e he)

theorem logMetaPersist (hI : Lasting I) {m : SegmentGroupManager} {segments groups : List Nat}
    {lsm : Bytes → Option Bytes} (h : I lsm) : I (Store.logMetaPersist m segments groups lsm) := by
  have hsegs : I (segments.foldl (writeSegmentMeta m) lsm) :=
    List.foldlRecOn segments _ h fun _ h _ _ => hI.segment _ _ _ h
  exact List.foldlRecOn groups _ hsegs fun _ h _ _ => hI.group _ _ _ h

end Lasting

theorem Segment.length_readData {a : Segment} {offset size : Nat} :
    wp (a.readData offset size) (fun data => data.length = size) fun _ => True := by
  refine wp_ite (fun _ => ?_) fun _ => trivial
  exact Memory.length_read ..

/-! ### Flushes -/

namespace Flush

/-- The tree has the property, and what waits for it has keys of the right length. -/
def Carries (I : (Bytes → Option Bytes) → Prop) (f : Flush) : Prop :=
  I f.store.lsm ∧ ∀ e ∈ f.batch, e.1.length = keySize


theorem Carries.congr {f' : Flush} (h : f.Carries I) (hlsm : f'.store.lsm = f.store.lsm) (hb : f'.batch = f.batch) :
    f'.Carries I := by
  unfold Carries
  rw [hlsm, hb]
  exact h

theorem Carries.flushSegmentBuffer {n : Nat} (h : f.Carries I) : (f.flushSegmentBuffer cfg n).Carries I := by
  obtain ⟨disk, sg, heq⟩ := @exists_flushSegmentBuffer_eq cfg f n
  rw [heq]
  exact h.congr rfl rfl

theorem Carries.wp_placeUpdate {g update n : Nat} (h : f.Carries I) :
    wp (f.placeUpdate cfg i g update n) (Carries I) fun _ => True := by
  have hpush : ∀ {f : Flush} {k : Bytes} {loc : ValueLocation}, f.Carries I → k.length = keySize →
      (f.push i g update k loc).Carries I := by
    intro f k loc hf hk
    exact ⟨hf.1, forall_mem_append.2 ⟨hf.2, forall_mem_singleton.2 hk⟩⟩
  refine wp_seq Segment.length_readData fun k hk => ?_
  refine wp_ite (fun _ => wp_bind_of_forall fun v => hpush h hk) fun _ => ?_
  refine wp_bind_of_forall fun ⟨c, front, cur⟩ => ?_
  refine wp_seq wp_writeRecord ?_
  rintro _ ⟨_, _, _, rfl⟩
  exact hpush (h.congr rfl rfl) hk

variable {g : Nat}

theorem Carries.wp_updates {offsets : List Nat} (h : f.Carries I) :
    wp (f.updates cfg i g offsets) (fun x => x.1.Carries I) fun _ => True := by
  induction offsets generalizing f with
  | nil => exact h
  | cons update rest ih =>
    refine wp_bind_of_forall fun n => ?_
    refine wp_ite (fun _ => trivial) fun _ => wp_ite (fun _ => h) fun _ => ?_
    exact wp_seq h.wp_placeUpdate fun f' hf' => ih hf'

theorem Carries.wp_group (h : f.Carries I) : wp (f.group cfg i g) (fun x => x.1.Carries I) fun _ => True := by
  unfold group
  dsimp only
  split
  · trivial
  · exact Carries.wp_updates h

theorem Carries.endGroup (h : f.Carries I) : (f.endGroup cfg i g).Carries I :=
  (h.flushSegmentBuffer).congr rfl rfl

theorem Carries.suspend (hI : Lasting I) (h : f.Carries I) : (f.suspend cfg g).Carries I := by
  have h' := @Carries.flushSegmentBuffer cfg f I 0 h
  exact ⟨hI.writeKeyBatch h'.1 h'.2, nofun⟩

theorem Carries.wp_finish (hI : Lasting I) (h : f.Carries I) : wp (f.finish cfg i) (fun s => I s.lsm) fun _ => True := by
  refine wp_ite (fun _ => ?_) fun _ => trivial
  exact hI.logMetaPersist (hI.writeKeyBatch h.1 h.2)

theorem Carries.start (h : I s.lsm) : (Flush.start s).Carries I := ⟨h, nofun⟩

end Flush

/-! ### Collections -/

namespace Store

theorem wp_flushGCPool_lsm (hI : Lasting I) (h : I s.lsm) : wp (s.flushGCPool cfg) (fun s => I s.lsm) fun _ => True := by
  refine wp_seq (wp_foldlM (I := fun _ => Flush.Carries I) (fun g gs f hf => ?_) (Flush.Carries.start h))
    fun f hf => hf.wp_finish hI
  exact wp_seq hf.wp_group fun x hx => hx.endGroup

theorem lasts_lsm (hI : Lasting I) : Lasts cfg fun s => I s.lsm :=
  ⟨fun _ _ => id, fun _ _ => id, fun _ _ => id, fun _ _ => id, fun _ => wp_flushGCPool_lsm hI⟩

end Store

/-! ### Calls -/

namespace Flush

theorem Carries.wp_next {isUpdate : Bool} {x : FlushState} {c : Choice} (hI : Lasting I) (h : x.flush.Carries I) :
    wp (next cfg isUpdate x c) (fun x' => x'.flush.Carries I) fun _ => True := by
  obtain ⟨pc, f, report⟩ := x
  cases pc with
  | next =>
    cases c with
    | gc _ => trivial
    | group g =>
      refine wp_ite (fun _ => ?_) fun _ => trivial
      refine wp_seq h.wp_group fun y hy => ?_
      obtain ⟨f', overflow⟩ := y
      cases overflow with
      | none => exact hy.endGroup
      | some size => exact wp_ite (fun _ => hy.suspend hI) fun _ => trivial
  | collect g size =>
    cases c with
    | group _ => trivial
    | gc candidates =>
      refine wp_seq ((lasts_lsm hI).wp_gcGreedy h.1) fun y hy => ?_
      have hf : Carries I { f with store := y.1, flushFront := y.1.groups.getGroupFlushFront g } := ⟨hy, h.2⟩
      exact wp_ite (fun _ => hf) fun _ => hf.endGroup

end Flush

namespace Store

theorem wp_flush_lsm {isUpdate : Bool} {report : Option Nat} (hI : Lasting I) (h : I s.lsm) :
    wp (s.flushCentralizedReservedPool cfg isUpdate report cs) (fun x => I x.1.lsm) fun _ => True := by
  refine wp_seq (Flush.wp_run (J := fun x => x.flush.Carries I) (x := ⟨.next, .start s, report⟩)
    (fun _ _ h => h.wp_next hI) (.start h)) fun x hx => ?_
  exact wp_seq (hx.1.wp_finish hI) fun _ => id

theorem wp_putRecord_lsm {n c : Nat} (hI : Lasting I) (h : I s.lsm) :
    wp (s.putRecord cfg key value n c cs) (fun x => I x.2.1.lsm) fun _ => True := by
  have hrest : ∀ (s : Store) (cs : List Choice) (g : Option Nat) (c : Nat) (inPlace : Option Nat) (length : Nat),
      I s.lsm → wp (s.putRest cfg key value n c length inPlace g cs) (fun x => I x.2.1.lsm) fun _ => True := by
    intro s cs g c inPlace length hs
    cases g with
    | none => exact hs
    | some g =>
      refine wp_bind_of_forall fun p => wp_ite (fun _ => ?_) fun _ => hs
      exact wp_seq (wp_flush_lsm hI hs) fun _ => id
  unfold putRecord
  dsimp only
  split
  · exact h
  · split
    · split
      · refine wp_bind_of_forall fun inPlace => wp_ite (fun _ => ?_) fun _ => ?_
        · refine wp_seq (wp_flush_lsm hI ?_) fun x hx => ?_
          · exact h
          · exact wp_ite (fun _ => hx) fun _ => hrest _ _ _ _ _ _ hx
        · exact wp_ite (fun _ => h) fun _ => hrest _ _ _ _ _ _ h
      · trivial
    · trivial

theorem wp_putLoop_lsm {retries : Nat} (hI : Lasting I) (h : I s.lsm) :
    wp (s.putLoop cfg key value retries cs) (fun x => I x.2.lsm) fun _ => True := by
  refine wp_putLoop_of (I := fun s => I s.lsm) trivial (fun s cs s' hs hnew => ?_) h
  have hs' : I s'.lsm := by
    unfold newMain at hnew
    split at hnew
    · cases hnew
      exact hs
    · cases hg : s.groups.getNewMainSegment cfg (cfg.mainSegmentOf key) <;> rw [hg] at hnew <;> cases hnew
      exact hs
  refine wp_mono (wp_putRecord_lsm hI hs') ?_ fun _ => id
  rintro ⟨_ | length, s', cs'⟩ hx
  · rwa [ite_self]
  · exact hx

theorem wp_delLoop_lsm {c retries : Nat} (hI : Lasting I) (h : I s.lsm) :
    wp (s.delLoop cfg key c retries cs) (fun x => I x.2.lsm) fun _ => True := by
  induction retries generalizing s cs with
  | zero =>
    unfold delLoop
    refine wp_seq (wp_putRecord_lsm hI h) fun x hx => ?_
    obtain ⟨length, s', cs'⟩ := x
    cases length <;> exact hx
  | succ retries ih =>
    unfold delLoop
    refine wp_seq (wp_putRecord_lsm hI h) fun x hx => ?_
    obtain ⟨length, s', cs'⟩ := x
    cases length with
    | some length => exact hx
    | none => exact ih hx

theorem wp_call_lsm {e : Event} (hI : Lasting I) (h : I s.lsm) : wp (s.call cfg e) (fun x => I x.2.lsm) fun _ => True := by
  cases e with
  | put key value cs => exact wp_ite (fun _ => h) fun _ => wp_putLoop_lsm hI h
  | del key cs =>
    refine wp_ite (fun _ => h) fun hlen => wp_bind_of_forall fun loc => wp_ite (fun _ => h) fun _ => ?_
    exact wp_seq (wp_delLoop_lsm hI h) fun x hx => hI.key _ _ _ hx (not_not.1 hlen)
  | flush cs =>
    show wp ((true, ·) <$> (s.flushCentralizedReservedPool cfg false none cs >>= _)) _ _
    rw [wp_map]
    exact wp_seq (wp_flush_lsm hI h) fun _ => id
  | gc all candidates =>
    show wp ((true, ·) <$> (s.gcGreedy cfg _ candidates none >>= _)) _ _
    rw [wp_map]
    exact wp_seq ((lasts_lsm hI).wp_gcGreedy h) fun _ => id

end Store

theorem lsm_of_run {disk : Nat → UInt8} {es : List Event} (hI : Lasting I) (h : I fun _ => none)
    (hrun : run (Store.step cfg) (.init cfg disk) es = some s) : I s.lsm := by
  refine Exec.run_inv (I := fun s : Store => I s.lsm) (P := fun _ _ => True) (fun s e s' hs _ hstep => ?_) h
    (Exec.AllSteps.of_forall fun _ _ => trivial) hrun
  have hcall := wp_iff.1 (@Store.wp_call_lsm cfg s I e hI hs)
  unfold Store.step at hstep
  rcases hc : s.call cfg e with e' | ⟨done, s₁⟩
  · rw [hc] at hstep; cases hstep
  · rw [hc] at hstep
    cases hstep
    exact hcall _ hc

/-! ### The tree in the order of its keys -/

/-- What LevelDB's iterator walks through: the entries of the tree in the order of the bytes of their keys. -/
def Lists (it : List (Bytes × Bytes)) (lsm : Bytes → Option Bytes) : Prop :=
  (it.map Prod.fst).Pairwise (· < ·) ∧ ∀ k v, (k, v) ∈ it ↔ lsm k = some v

theorem exists_lists {lsm : Bytes → Option Bytes} {ks : List Bytes} (h : ∀ k, lsm k ≠ none → k ∈ ks) :
    ∃ it, Lists it lsm := by
  let sorted := ks.dedup.mergeSort fun a b => decide (a ≤ b)
  have hperm : sorted.Perm ks.dedup := List.mergeSort_perm ..
  have hle : sorted.Pairwise (· ≤ ·) := by
    have htrans : ∀ a b c : Bytes, decide (a ≤ b) → decide (b ≤ c) → decide (a ≤ c) := fun a b c hab hbc =>
      decide_eq_true (List.le_trans (of_decide_eq_true hab) (of_decide_eq_true hbc))
    have htotal : ∀ a b : Bytes, decide (a ≤ b) || decide (b ≤ a) := fun a b => by
      simpa using List.le_total a b
    exact (List.pairwise_mergeSort htrans htotal ks.dedup).imp fun h => of_decide_eq_true h
  have hlt : sorted.Pairwise (· < ·) := by
    refine (hle.and (hperm.nodup_iff.2 (List.nodup_dedup ks))).imp fun hab => ?_
    exact (List.le_iff_lt_or_eq.1 hab.1).resolve_right hab.2
  refine ⟨sorted.filterMap fun k => (lsm k).map (k, ·), ?_, fun k v => ?_⟩
  · rw [List.map_filterMap]
    have hfun : (fun k => ((lsm k).map (k, ·)).map Prod.fst) = Option.guard fun k => (lsm k).isSome := by
      funext k
      cases hk : lsm k <;> simp [Option.guard, hk]
    rw [hfun, List.filterMap_eq_filter]
    exact hlt.filter _
  · simp only [List.mem_filterMap, Option.map_eq_some_iff, Prod.mk.injEq]
    constructor
    · rintro ⟨k', -, v', hv', rfl, rfl⟩
      exact hv'
    · intro hv
      refine ⟨k, hperm.mem_iff.2 (List.mem_dedup.2 (h k ?_)), v, hv, rfl, rfl⟩
      rw [hv]
      exact Option.some_ne_none v

theorem exists_lists_of_run {disk : Nat → UInt8} {es : List Event}
    (hrun : run (step cfg) (.init cfg disk) es = some s) : ∃ it, Lists it s.lsm := by
  have hgrow : ∀ (lsm : Bytes → Option Bytes) k v, (∃ ks : List Bytes, ∀ k, lsm k ≠ none → k ∈ ks) →
      ∃ ks : List Bytes, ∀ k', update lsm k v k' ≠ none → k' ∈ ks := by
    rintro lsm k v ⟨ks, hks⟩
    refine ⟨k :: ks, fun k' hk' => ?_⟩
    by_cases heq : k' = k
    · exact heq ▸ mem_cons_self ..
    · rw [update_of_ne heq] at hk'
      exact mem_cons_of_mem _ (hks k' hk')
  obtain ⟨ks, hks⟩ := lsm_of_run
    ⟨fun lsm k v h _ => hgrow lsm k v h, fun lsm c v h => hgrow lsm _ _ h, fun lsm g v h => hgrow lsm _ _ h⟩
    ⟨[], fun k hk => absurd rfl hk⟩ hrun
  exact exists_lists hks

/-! ### The keys of clients and of the metadata -/

namespace Store

/-- `getMeta`: the empty string for a key that is not there. -/
def getMeta (lsm : Bytes → Option Bytes) (key : Bytes) : Bytes := (lsm key).getD []

def writeMeta (lsm : Bytes → Option Bytes) (key data : Bytes) : Bytes → Option Bytes := update lsm key (some data)

/-- `LogHeadString` and `LogTailString`. -/
def logFrontKeys : List Bytes :=
  [['L', '0', 'G', '_', 'H', '3', 'A', 'D'].map ascii, ['L', '0', 'G', '_', 'T', 'A', '1', 'L'].map ascii]

/-- A key under which the store keeps metadata. -/
def MetaKey (cfg : Config) (k : Bytes) : Prop :=
  (∃ c < cfg.numSegment, k = segmentKey c) ∨ (∃ g < cfg.numMainSegment, k = groupKey g) ∨ k ∈ logFrontKeys

/-- Putting or deleting the key does not change metadata, and writing metadata does not change what the key reads. -/
structure Apart (cfg : Config) (key : Bytes) : Prop where
  put : ∀ lsm loc k, MetaKey cfg k → getMeta (writeKeyBatch cfg [(key, loc)] lsm) k = getMeta lsm k
  delete : ∀ lsm k, MetaKey cfg k → getMeta (update lsm key none) k = getMeta lsm k
  read : ∀ (s : Store) k data, MetaKey cfg k →
    { s with lsm := writeMeta s.lsm k data }.getValue cfg key = s.getValue cfg key

theorem not_apart (h : MetaKey cfg key) : ¬ Apart cfg key := fun ha => by
  have hdel := ha.delete (fun _ => some [0]) key h
  simp [getMeta] at hdel

theorem userKey_iff (hlen : key.length = keySize) : cfg.UserKey key ↔ ¬ MetaKey cfg key := by
  have hfront : key ∉ logFrontKeys := fun hmem => by
    have : ∀ k ∈ logFrontKeys, k.length ≠ keySize := by decide
    exact this key hmem hlen
  simp [Config.UserKey, MetaKey, hlen, hfront]

theorem apart_iff (hlen : key.length = keySize) : Apart cfg key ↔ cfg.UserKey key := by
  rw [userKey_iff hlen]
  refine ⟨fun ha hmeta => not_apart hmeta ha, fun hne => ⟨fun lsm loc k hk => ?_, fun lsm k hk => ?_, fun s k data hk => ?_⟩⟩
  · have hk' : k ≠ key := fun heq => hne (heq ▸ hk)
    simp [getMeta, writeKeyBatch, update_of_ne hk']
  · have hk' : k ≠ key := fun heq => hne (heq ▸ hk)
    simp [getMeta, update_of_ne hk']
  · have hk' : key ≠ k := fun heq => hne (heq ▸ hk)
    simp only [getValue, getKey, writeMeta, update_of_ne hk']
    rfl

theorem length_decimal_le_iff {c n : Nat} (hn : 0 < n) : (decimal c).length ≤ n ↔ c < 10 ^ n := by
  rw [decimal, length_map, Nat.length_toDigits_le_iff (by decide) hn]

/-- A metadata key is as long as a client's when its id has eight digits. -/
theorem apart_iff_userKey (cfg : Config) :
    (∀ key : Bytes, key.length = keySize → (Apart cfg key ↔ cfg.UserKey key)) ∧
      ((∀ key : Bytes, key.length = keySize → Apart cfg key) ↔ cfg.numSegment ≤ 10 ^ 7) := by
  refine ⟨fun _ => apart_iff, fun h => ?_, fun h key hlen => (apart_iff hlen).2 ⟨hlen, fun c hc => ?_, fun g hg => ?_⟩⟩
  · by_contra hlt
    exact not_apart (.inl ⟨10 ^ 7, by omega, rfl⟩) (h (segmentKey (10 ^ 7)) (by decide))
  · have hdigits := (length_decimal_le_iff (c := c) (n := 7) (by decide)).2 (by omega)
    rintro rfl
    simp [segmentKey, keySize] at hlen
    omega
  · have hg' : g < cfg.numSegment := by rw [Config.numSegment]; omega
    have hdigits := (length_decimal_le_iff (c := g) (n := 7) (by decide)).2 (by omega)
    rintro rfl
    simp [groupKey, keySize] at hlen
    omega

/-- Ten million main segments; the key is `HA5HKV_c10000000`. -/
theorem not_apart_ten_million :
    ¬ Apart { smallConfig with numMainSegment := 10 ^ 7, numMainSegment_pos := by decide, capacity_lt := by decide }
      (segmentKey (10 ^ 7)) ∧ (segmentKey (10 ^ 7)).length = keySize :=
  ⟨not_apart (.inl ⟨10 ^ 7, by decide, rfl⟩), by decide⟩

end Store

end ValueSep.HashKV
