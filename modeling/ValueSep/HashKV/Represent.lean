import ValueSep.HashKV.Collecting
import ValueSep.HashKV.Server

/-!
# The map a store stands for

`Represents` is the invariant of the store between two calls, and between two groups of a flush that has written its
batch. A collection, a flush, and hence every call, keep the map `m` that the pool, the groups and the tree stand for.
-/

namespace ValueSep.HashKV

open Coding (Bytes)
open Journal (collect)
open Exec (AllSteps)
open Wp
open List Function SegmentGroupManager Store Flush Prod

variable {cfg : Config} {P : List (Record cfg)} {pend : Nat → List (Nat × Record cfg)} {G : Nat → Content cfg}
  {T m : Bytes → Option Bytes} {s : Store} {g : Nat} {k : Bytes}

structure Represents (cfg : Config) (s : Store) (P : List (Record cfg)) (pend : Nat → List (Nat × Record cfg))
    (G : Nat → Content cfg) (T m : Bytes → Option Bytes) : Prop where
  settled : Settled cfg s G T fun _ => False
  update : Pooled cfg .update P pend (s.pools .update)
  gc : Pooled cfg .gc [] (fun _ => []) (s.pools .gc)
  names : (s.pools .gc).groupsInPool.keys = []
  linked : Linked cfg P pend G T m

/-- Records of a key reach the groups only from the pool. -/
def Spares (P : List (Record cfg)) (G G' : Nat → Content cfg) : Prop :=
  ∀ k, recordOf G k = none → (∀ r ∈ P, r.home ≠ lsmSegment → r.key ≠ k) → recordOf G' k = none

theorem Spares.refl : Spares P G G := fun _ h _ => h

theorem Spares.trans {G' G'' : Nat → Content cfg} (h : Spares P G G') (h' : Spares P G' G'') : Spares P G G'' :=
  fun k hk hP => h' k (h k hk hP) hP

/-- One collection of a call of `gcGreedy`. -/
def Store.gcStep (cfg : Config) (s : Store) (x : Nat × Order) : Option Store := (s.gcOneGroup cfg x.1 x.2).toOption

namespace Represents

/-! ### Collections -/

section
variable (h : Represents cfg s P pend G T m)
include h

theorem isCandidate_length (hc : s.groups.isCandidate cfg g) : 1 < (G g).length := by
  unfold isCandidate at hc
  rcases hgroup : s.groups.group g with _ | group
  · simp [hgroup] at hc
  · have hfront : cfg.mainSegmentSize < group.flushFront := by
      simp only [hgroup, Bool.or_eq_true, Config.writeBackRatioAll, Config.writeBackRatioLogOnly] at hc
      by_contra hle
      rw [if_neg hle, if_neg (by simp), if_neg (by have := cfg.mainSegmentSize_pos; omega)] at hc
      simp at hc
    rcases h.settled.laid.group g with ⟨hnone, -⟩ | hlaid
    · rw [segmentsOf, hgroup] at hnone
      cases hnone
    · have hlogs := hlaid.frontAt.logs_ne_nil (by rwa [getGroupFlushFront, hgroup])
      by_contra hle
      refine hlogs (eq_nil_of_length_eq_zero ?_)
      rw [length_tail, length_map]
      omega

theorem collected {s' : Store} {G' : Nat → Content cfg} (hg : g ≠ lsmSegment)
    (hc : Collected cfg g P pend G T s s' G') :
    Represents cfg s' P (Function.update pend g []) G' (settle (pend g) T) m ∧ Spares P G G' := by
  refine ⟨⟨hc.settled, hc.pooled, hc.gc, hc.names, ?_⟩, fun k hk hP => hc.absent k hk fun x hx => ?_⟩
  · exact h.linked.advance h.update (append_nil _).symm hc.nonempty fun k hk hdone =>
      hc.absent k hk fun x hx => hdone x hx ((h.update.home hx).trans_ne hg)
  · exact hP x.2 (h.update.mem_records hx) ((h.update.home hx).trans_ne hg)

theorem ne_lsm (hlen : 1 < (G g).length) : g ≠ lsmSegment := by
  rintro rfl
  rw [h.settled.laid.lsm.2] at hlen
  simp at hlen

/-- A collection changes neither the map nor what the pool holds, and it runs out of log segments only where a group is
not roomy. -/
theorem wp_gcGreedy {maxGC : Nat} {candidates : List (Nat × Order)} {report : Option Nat} :
    wp (s.gcGreedy cfg maxGC candidates report)
      (fun (s', _) => (∃ pend' G' T', Represents cfg s' P pend' G' T' m ∧ Spares P G G') ∧
        (s'.pools .update).keysInPool = (s.pools .update).keysInPool)
      (fun e => e = .outOfLogSegments → ¬AllSteps (gcStep cfg) (fun s x => s.roomy cfg x.1) s candidates) := by
  refine wp_ite (fun _ => nofun) fun hids => wp_ite (fun _ => nofun) fun _ => ?_
  have hnodup : (candidates.map fst).Nodup := by
    by_contra hn
    exact hids (.inr (.inl hn))
  have hcand : ∀ x ∈ candidates, 1 < (G x.1).length := by
    intro x hx
    refine h.isCandidate_length ?_
    by_contra hn
    exact hids (.inr (.inr fun hall => hn (all_eq_true.1 hall _ (mem_map_of_mem hx))))
  let Room (s : Store) (candidates : List (Nat × Order)) : Prop :=
    AllSteps (gcStep cfg) (fun s x => s.roomy cfg x.1) s candidates
  refine wp_mono (wp_foldlM (I := fun rest (s', _) => (rest.map fst).Nodup ∧
    (∃ pend' G' T', Represents cfg s' P pend' G' T' m ∧ Spares P G G' ∧ ∀ x ∈ rest, 1 < (G' x.1).length) ∧
    (s'.pools .update).keysInPool = (s.pools .update).keysInPool ∧ (Room s candidates → Room s' rest)) ?_
    ⟨hnodup, ⟨pend, G, T, h, .refl, hcand⟩, rfl, id⟩) ?_ fun _ => id
  · rintro ⟨g, order⟩ rest ⟨s', report'⟩ ⟨hnd, ⟨pend', G', T', hs', hspare, hlen⟩, hkeys, hroom⟩
    rw [map_cons, nodup_cons] at hnd
    have hg := hlen (g, order) (mem_cons_self ..)
    have hcompact : ∃ R, Room s candidates → Compact cfg R (s'.groups.clearLogs cfg + ((G' g).length - 1))
        (collect Record.key ((G' g).records ++ (pend' g).map snd)) := by
      by_cases hr : Room s candidates
      · obtain ⟨R, hR⟩ := compact_of_roomy hs'.settled hs'.update hg (hroom hr).1
        exact ⟨R, fun _ => hR⟩
      · exact ⟨0, fun h => absurd h hr⟩
    obtain ⟨R, hcompact⟩ := hcompact
    rw [wp_bind]
    refine wp_mono (wp_self (wp_gcOneGroup hs'.settled hs'.update hs'.gc hs'.names hg fun hr => ⟨rfl, hcompact hr⟩)) ?_ ?_
    · rintro s'' ⟨heq, G'', hc, -⟩
      obtain ⟨hs'', hspare'⟩ := hs'.collected (hs'.ne_lsm hg) hc
      refine ⟨hnd.2, ⟨_, G'', _, hs'', hspare.trans hspare', fun x hx => ?_⟩, hc.keysInPool.trans hkeys, fun hr => ?_⟩
      · -- the other groups are as they were
        have hne : x.1 ≠ g := fun heq => hnd.1 (mem_map.2 ⟨x, hx, heq⟩)
        rw [hc.others x.1 hne]
        exact hlen x (mem_cons_of_mem _ hx)
      · exact (hroom hr).2 s'' (toOption_eq_some.2 heq)
    · rintro e (⟨-, hroom'⟩ | ⟨rfl, -⟩)
      · exact fun _ => hroom'
      · exact nofun
  · rintro ⟨s', report'⟩ ⟨-, ⟨pend', G', T', hs', hspare, -⟩, hkeys, -⟩
    exact ⟨⟨pend', G', T', hs', hspare⟩, hkeys⟩

end

end Represents

/-! ### Flushes -/

namespace Flush

variable {f : Flush}

/-- `Represents` of a flush between two groups: what it wrote so far is in its batch. -/
structure Rep (cfg : Config) (f : Flush) (P : List (Record cfg)) (pend : Nat → List (Nat × Record cfg))
    (G : Nat → Content cfg) (T m : Bytes → Option Bytes) : Prop where
  inv : Flush.Inv cfg f G T fun _ => False
  update : Pooled cfg .update P pend (f.store.pools .update)
  gc : Pooled cfg .gc [] (fun _ => []) (f.store.pools .gc)
  names : (f.store.pools .gc).groupsInPool.keys = []
  linked : Linked cfg P pend G T m

/-- While the flush waits for a collection, its batch is written. -/
def At (cfg : Config) (f : Flush) (P : List (Record cfg)) (G₀ : Nat → Content cfg) (m : Bytes → Option Bytes) :
    FlushPc → Prop
  | .next => ∃ pend G T, Rep cfg f P pend G T m ∧ Spares P G₀ G
  | .collect .. => (∃ pend G T, Rep cfg f P pend G T m ∧ Spares P G₀ G) ∧ f.batch = []

theorem rep_start (h : Represents cfg s P pend G T m) : Rep cfg (start s) P pend G T m :=
  ⟨inv_start h.settled, h.update, h.gc, h.names, h.linked⟩

namespace Rep

section
variable (h : Rep cfg f P pend G T m)
include h

theorem represents (hbatch : f.batch = []) : Represents cfg f.store P pend G T m :=
  ⟨h.inv.settled hbatch, h.update, h.gc, h.names, h.linked⟩

theorem wp_group (hg : g ∈ (f.store.pools .update).groupsInPool.keys) :
    wp (f.group cfg .update g) (fun (f', _) => (∃ pend' G' T', Rep cfg (f'.endGroup cfg .update g) P pend' G' T' m ∧
        Spares P G G') ∧
        (∃ pend' G' T', Rep cfg (f'.suspend cfg g) P pend' G' T' m ∧ Spares P G G') ∧ (f'.suspend cfg g).batch = [])
      (fun _ => True) := by
  have hroom : False → g ≠ lsmSegment ∧ Room cfg 0 0 f.store.groups (G g) ((pend g).map snd ++ []) := False.elim
  refine wp_mono (Flush.wp_group h.inv h.update hg (fun heq x hx => h.linked.lsm x (heq ▸ hx)) (h.linked.group g) hroom)
    ?_ fun _ _ => trivial
  rintro ⟨f', overflow⟩ ⟨G', done, rest, hsplit, -, -, ⟨hinv, hadv, hpool⟩, -⟩
  have hinv' := hinv.mono fun k hk => hk.1
  have hlinked := h.linked.advance h.update hsplit hadv.nonempty hadv.absent
  have hspare : Spares P G G' := fun k hk hP => hadv.absent k hk fun x hx =>
    hP x.2 (h.update.mem_records (hsplit ▸ mem_append_left _ hx))
  have hgc := hadv.pools .gc (by decide)
  have hpools := @Flush.pools_endGroup cfg f' .update g _ _ hinv.buffer
  obtain ⟨hsus, hbatch, hpools'⟩ := hinv'.suspend
  refine ⟨⟨_, G', _, ⟨hinv'.endGroup, ?_, ?_, ?_, hlinked⟩, hspare⟩, ⟨_, G', _, ⟨hsus, ?_, ?_, ?_, hlinked⟩, hspare⟩,
    hbatch⟩
  · rw [hpools, update_self]; exact hpool.dropIfEmpty g
  · rw [hpools, update_of_ne (by decide), hgc]; exact h.gc
  · rw [hpools, update_of_ne (by decide), hgc]; exact h.names
  · rw [hpools']; exact hpool
  · rw [hpools', hgc]; exact h.gc
  · rw [hpools', hgc]; exact h.names

/-- A collection in the middle of a flush, after which the next group is taken or the same waits on. -/
theorem wp_collect {maxGC : Nat} {candidates : List (Nat × Order)} {report : Option Nat} (hbatch : f.batch = []) :
    wp (f.store.gcGreedy cfg maxGC candidates report) (fun (s, _) => ∀ front,
        ∃ pend' G' T', Rep cfg { f with store := s, flushFront := front } P pend' G' T' m ∧ Spares P G G')
      (fun _ => True) := by
  refine wp_mono (h.represents hbatch).wp_gcGreedy ?_ fun _ _ => trivial
  rintro ⟨s, report'⟩ ⟨⟨pend', G', T', hs, hspare⟩, -⟩ front
  refine ⟨pend', G', T', ⟨⟨h.inv.buffer, hs.settled.laid, ?_, h.inv.segments, h.inv.groups⟩, hs.update, hs.gc, hs.names,
    hs.linked⟩, hspare⟩
  rw [hbatch]
  exact hs.settled.tree

theorem endGroup (hfront : f.flushFront = f.store.groups.getGroupFlushFront g) :
    Rep cfg (f.endGroup cfg .update g) P pend G T m := by
  have hbuf : f.Buffered cfg 0 0 := .inl h.inv.buffer
  have hpools := @pools_endGroup cfg f .update g _ _ hbuf
  refine ⟨inv_endGroup hbuf ?_ h.inv.tree h.inv.segments h.inv.groups, ?_, ?_, ?_, h.linked⟩
  · rw [hfront, update_eq_self, settledDisk_none h.inv.buffer]
    exact h.inv.laid
  · rw [hpools, update_self]; exact h.update.dropIfEmpty g
  · rw [hpools, update_of_ne (by decide)]; exact h.gc
  · rw [hpools, update_of_ne (by decide)]; exact h.names

end

end Rep

theorem wp_next {isUpdate : Bool} {x : FlushState} {c : Choice} {G₀ : Nat → Content cfg}
    (h : At cfg x.flush P G₀ m x.pc) :
    wp (next cfg isUpdate x c) (fun x' => At cfg x'.flush P G₀ m x'.pc) (fun _ => True) := by
  obtain ⟨pc, f, report⟩ := x
  cases pc with
  | next =>
    cases c with
    | gc _ => trivial
    | group g =>
      refine wp_ite (fun hg => ?_) fun _ => trivial
      obtain ⟨pend, G, T, hrep, hspare⟩ := h
      refine wp_seq (hrep.wp_group hg) ?_
      rintro ⟨f', overflow⟩ ⟨⟨pend₁, G₁, T₁, hend, hspare₁⟩, ⟨pend₂, G₂, T₂, hsus, hspare₂⟩, hbatch⟩
      cases overflow with
      | none => exact ⟨pend₁, G₁, T₁, hend, hspare.trans hspare₁⟩
      | some size => exact wp_ite (fun _ => ⟨⟨pend₂, G₂, T₂, hsus, hspare.trans hspare₂⟩, hbatch⟩) fun _ => trivial
  | collect g size =>
    cases c with
    | group _ => trivial
    | gc candidates =>
      obtain ⟨⟨pend, G, T, hrep, hspare⟩, hbatch⟩ := h
      refine wp_seq (hrep.wp_collect hbatch) ?_
      rintro ⟨s, report'⟩ hs
      obtain ⟨pend', G', T', hrep', hspare'⟩ := hs (s.groups.getGroupFlushFront g)
      refine wp_ite (fun _ => ?_) fun _ => ?_
      · exact ⟨⟨pend', G', T', hrep', hspare.trans hspare'⟩, hbatch⟩
      · exact ⟨pend', G', T', hrep'.endGroup rfl, hspare.trans hspare'⟩

end Flush

theorem Represents.wp_flush {isUpdate : Bool} {cs : List Choice} {report : Option Nat}
    (h : Represents cfg s P pend G T m) :
    wp (s.flushCentralizedReservedPool cfg isUpdate report cs)
      (fun (s', _, _) => (∃ G' T', Represents cfg s' [] (fun _ => []) G' T' m ∧ Spares P G G') ∧
        ∀ k, (s'.pools .update).keysInPool k = none) (fun _ => True) := by
  have hat : (start s).At cfg P G m .next := ⟨pend, G, T, rep_start h, .refl⟩
  refine wp_seq (wp_run (J := fun x => At cfg x.flush P G m x.pc) (x := ⟨.next, .start s, report⟩)
    (fun _ _ => wp_next) hat) ?_
  rintro ⟨f, report', cs'⟩ ⟨⟨pend', G', T', hrep, hspare⟩, hempty⟩
  rw [wp_bind]
  refine wp_mono (wp_finish hrep.inv hrep.update (map_eq_nil_iff.2 (isEmpty_iff.1 hempty))) ?_ fun _ _ => trivial
  rintro s' ⟨hs', hpend, hpool, -, hkeys, hpools, -⟩
  have hgc := hpools .gc (by decide)
  exact ⟨⟨G', T', ⟨hs', hpool, hgc ▸ hrep.gc, hgc ▸ hrep.names, hrep.linked.reset hpend⟩, hspare⟩, hkeys⟩

end ValueSep.HashKV
