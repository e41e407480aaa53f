import Mathlib.Data.List.Perm.Basic
import ValueSep.HashKV.Flushing
import ValueSep.HashKV.Gc

/-!
# What the scan of a group finds

The records of the loaded segments and of the buffered updates are met in order, and `keyCount` points, for every key,
at the last one: it is the `collect` of what was scanned.
-/

namespace ValueSep.HashKV

open Coding (Bytes)
open Memory (Holds)
open Wp
open List Record Journal Store

variable {cfg : Config} {segment : Segment} {scanned n fuel : Nat} {k : Scan} {r : Record cfg}
  {rs xs : List (Record cfg)}

/-- The entry points at the record. -/
structure Kept (e : Entry) (r : Record cfg) : Prop where
  key : e.key = r.key
  has : e.segment.Has e.pos r

/-- The entries point at the last record of every key in `xs`. -/
def Scanned (k : Scan) (xs : List (Record cfg)) : Prop := List.Forall₂ Kept k.keyCount (collect Record.key xs)

theorem gcKvPair_record (h : Scanned k xs) (hhas : segment.Has scanned r) (hr : r.home ≠ lsmSegment) :
    wp (gcKvPair segment scanned k) (fun (k', next) => next = scanned + r.size ∧ Scanned k' (xs ++ [r]))
      (fun _ => False) := by
  have hlt := r.value_lt
  have hpos := r.value_pos
  have hsize := r.size_eq
  -- a key of a record in a segment does not start with the padding byte
  have hfirst : ∃ b, segment.readData scanned 1 = .ok [b] ∧ b ≠ 0 := by
    have hkey := (holds_image.1 hhas.holds).1
    have hhead := (r.segmental hr).2.2.2.1
    rcases hk : r.key with _ | ⟨b, bs⟩
    · have := r.key_length
      rw [hk] at this
      cases this
    · rw [hk, show b :: bs = [b] ++ bs from rfl, Memory.holds_append] at hkey
      rw [hk, head?_cons] at hhead
      refine ⟨b, Segment.readData_of_holds hkey.1 ?_, fun hb => hhead (by rw [hb])⟩
      have := hhas.le
      simp only [length_singleton]
      omega
  obtain ⟨b, hread, hb⟩ := hfirst
  have hne : ¬([b] = ([0] : Bytes)) := by simpa using hb
  have hinv : r.value.length ≠ invalid := by unfold invalid; omega
  unfold gcKvPair
  rw [hread, wp_bind, wp_ok, if_neg hne, hhas.len, wp_bind, wp_ok, hhas.key, wp_bind, wp_ok]
  simp only [if_neg hinv]
  refine ⟨by omega, ?_⟩
  unfold Scanned
  rw [collect_concat]
  refine rel_append ?_ (.cons ⟨rfl, hhas⟩ .nil)
  refine rel_filter (fun e s hes => ?_) h
  simp [hes.key]

theorem wp_gcSegmentFrom (hxs : Scanned k xs) (hholds : Holds segment.buf scanned (images rs))
    (hle : scanned + total size rs ≤ segment.length) (hfuel : total size rs ≤ fuel)
    (hrs : ∀ r ∈ rs, r.home ≠ lsmSegment) :
    wp (gcSegmentFrom segment (scanned + total size rs) fuel scanned k) (fun k' => Scanned k' (xs ++ rs))
      (fun _ => False) := by
  induction rs generalizing scanned fuel k xs with
  | nil =>
    rw [total_nil, Nat.add_zero, append_nil]
    cases fuel with
    | zero => exact hxs
    | succ fuel =>
      rw [gcSegmentFrom, if_neg (Nat.lt_irrefl _)]
      exact hxs
  | cons r rs ih =>
    have hpos := r.size_pos
    rw [total_cons] at hle hfuel ⊢
    obtain ⟨hhead, htail⟩ : Holds segment.buf scanned r.image ∧
        Holds segment.buf (scanned + r.size) (Record.images rs) := by
      rwa [Record.images, flatMap_cons, Memory.holds_append, r.length_image] at hholds
    cases fuel with
    | zero => omega
    | succ fuel =>
      rw [gcSegmentFrom, if_pos (by omega)]
      refine wp_seq (gcKvPair_record hxs ⟨hhead, by omega⟩ (hrs r (mem_cons_self ..))) ?_
      rintro ⟨k', next⟩ ⟨rfl, hk'⟩
      have hrest := ih hk' htail (by omega) (show total size rs ≤ fuel by omega)
        fun s hs => hrs s (mem_cons_of_mem _ hs)
      rw [Nat.add_assoc, append_assoc] at hrest
      exact hrest

theorem gcSegmentFrom_padding {total : Nat} (hholds : Holds segment.buf scanned (replicate n 0))
    (hle : scanned + n ≤ segment.length) (htotal : scanned + n ≤ total) :
    gcSegmentFrom segment total (n + fuel) scanned k = gcSegmentFrom segment total fuel (scanned + n) k := by
  induction n generalizing scanned with
  | zero => rw [Nat.zero_add, Nat.add_zero]
  | succ n ih =>
    rw [replicate_succ, show (0 : UInt8) :: replicate n 0 = [0] ++ replicate n 0 from rfl,
      Memory.holds_append] at hholds
    have hread : segment.readData scanned 1 = .ok [0] := Segment.readData_of_holds hholds.1 (by simp; omega)
    have hpair : gcKvPair segment scanned k = .ok (k, scanned + 1) := by
      unfold gcKvPair
      rw [hread]
      rfl
    rw [show n + 1 + fuel = (n + fuel) + 1 by omega, gcSegmentFrom, if_pos (by omega), hpair]
    have hrest := @ih (scanned + 1) (by simpa using hholds.2) (by omega) (by omega)
    rw [show scanned + 1 + n = scanned + (n + 1) by omega] at hrest
    exact hrest

/-! ### Segments -/

/-- A segment in memory with the records of one on the device. -/
structure Loaded (x : Nat × List (Record cfg)) (segment : Segment) : Prop where
  holds : Holds segment.buf 0 (images x.2)
  front : segment.flushFront = total size x.2
  le : total size x.2 ≤ segment.length

theorem wp_gcSegment {x : Nat × List (Record cfg)} (hxs : Scanned k xs) (h : Loaded x segment)
    (hrs : ∀ r ∈ x.2, r.home ≠ lsmSegment) :
    wp (gcSegment segment segment.flushFront k) (fun k' => Scanned k' (xs ++ x.2)) (fun _ => False) := by
  have hscan := wp_gcSegmentFrom hxs h.holds (by rw [Nat.zero_add]; exact h.le) (Nat.le_refl _) hrs
  rw [Nat.zero_add, ← h.front] at hscan
  exact hscan

theorem wp_gcSegments {C : Content cfg} {segments : List Segment} (hxs : Scanned k xs)
    (h : List.Forall₂ Loaded C segments) (hC : ∀ x ∈ C, ∀ r ∈ x.2, r.home ≠ lsmSegment) :
    wp (segments.foldlM (fun k segment => gcSegment segment segment.flushFront k) k)
      (fun k' => Scanned k' (xs ++ C.records)) (fun _ => False) := by
  induction h generalizing k xs with
  | nil =>
    show Scanned k (xs ++ [])
    rwa [append_nil]
  | @cons x segment C segments hx _ ih =>
    refine wp_seq (wp_gcSegment hxs hx (hC x (mem_cons_self ..))) ?_
    intro k' hk'
    have hrest := ih hk' fun y hy => hC y (mem_cons_of_mem _ hy)
    rw [append_assoc] at hrest
    exact hrest

theorem loadSegment_ok {s : Store} {flushFront g : Nat} {C : Content cfg} {x : Nat × List (Record cfg)}
    (h : GroupLaid cfg s.groups flushFront s.disk g C) (hx : x ∈ C) (hne : x.2 ≠ []) :
    ∃ segment, s.loadSegment cfg x.1 = .ok segment ∧ Loaded x segment := by
  have hfront : s.groups.getSegmentFlushFront x.1 = total size x.2 := by
    rw [SegmentGroupManager.getSegmentFlushFront, h.recorded x hx hne]; rfl
  have hin := h.inside x hx
  unfold loadSegment Segment.setFlushFront
  rw [hfront]
  refine ⟨_, if_neg (Nat.not_lt.2 hin), ?_, rfl, hin⟩
  refine (h.holds x hx).copy fun i hi => ?_
  rw [length_images] at hi
  show (if 0 + i < total size x.2 then _ else _) = _
  rw [Nat.zero_add, if_pos hi]

theorem mapM_loadSegment {s : Store} {flushFront g : Nat} {C D : Content cfg}
    (h : GroupLaid cfg s.groups flushFront s.disk g C) (hne : ∀ x ∈ C, x.2 ≠ []) (hD : ∀ x ∈ D, x ∈ C) :
    ∃ segments, (D.map Prod.fst).mapM (s.loadSegment cfg) = .ok segments ∧ List.Forall₂ Loaded D segments := by
  induction D with
  | nil => exact ⟨[], rfl, .nil⟩
  | cons x D ih =>
    have hx := hD x (mem_cons_self ..)
    obtain ⟨segment, hload, hloaded⟩ := loadSegment_ok h hx (hne x hx)
    obtain ⟨segments, hrest, hall⟩ := ih fun y hy => hD y (mem_cons_of_mem _ hy)
    refine ⟨segment :: segments, ?_, .cons hloaded hall⟩
    rw [map_cons, mapM_cons, hload, hrest]
    rfl

/-! ### Pooled updates of the group -/

section Updates

variable {pool buffer : Segment} {update : Nat} {C : List (Nat × Record cfg)}

theorem wp_copyUpdate (hhas : pool.Has update r) (hlen : buffer.length < 2 ^ 63)
    (hle : buffer.writeFront ≤ buffer.length) :
    wp (copyUpdate pool buffer update)
      (fun b => b = buffer.push r.image ∧ buffer.writeFront + r.size ≤ buffer.length)
      (fun e => e = .assertion ∧ buffer.length < buffer.writeFront + r.size) := by
  have hsize := r.size_eq
  have hlt := r.value_lt
  unfold copyUpdate
  rw [hhas.len, wp_bind, wp_ok]
  have hcan := @Segment.canFit_iff buffer r.size (by unfold keySize lenSize at hsize; omega) hlen
  refine wp_ite (fun hfit => ?_) fun hfit => ⟨rfl, Nat.not_le.1 fun hle => hfit (hcan.2 hle)⟩
  obtain ⟨h₁, -, h₂, h₃⟩ := Segment.append_record hhas (hcan.1 hfit) hlen
  rw [h₁, wp_bind, wp_ok, h₂, wp_bind, wp_ok, if_pos r.value_pos, h₃, wp_ok]
  exact ⟨rfl, hcan.1 hfit⟩

theorem wp_copyUpdates (hC : ∀ x ∈ C, pool.Has x.1 x.2) (hlen : buffer.length < 2 ^ 63)
    (hle : buffer.writeFront ≤ buffer.length) :
    wp ((C.map Prod.fst).foldlM (copyUpdate pool) buffer) (fun b => b = buffer.push (images (C.map Prod.snd)) ∧
        buffer.writeFront + total size (C.map Prod.snd) ≤ buffer.length)
      (fun e => e = .assertion ∧ buffer.length < buffer.writeFront + total size (C.map Prod.snd)) := by
  induction C generalizing buffer with
  | nil =>
    refine ⟨?_, hle⟩
    simp [Segment.push]
  | cons x C ih =>
    rw [map_cons, foldlM_cons, wp_bind, map_cons, total_cons]
    refine wp_mono (wp_copyUpdate (hC x (mem_cons_self ..)) hlen hle) ?_ fun e he => ⟨he.1, by have := he.2; omega⟩
    rintro b ⟨rfl, hfit⟩
    have hfront : (buffer.push x.2.image).writeFront = buffer.writeFront + x.2.size := by
      rw [Segment.writeFront_push, length_image]
    have hpush : (buffer.push x.2.image).length = buffer.length := rfl
    refine wp_mono (ih (fun y hy => hC y (mem_cons_of_mem _ hy)) hlen (by rw [hfront]; exact hfit)) ?_
      fun e he => ⟨he.1, by have := he.2; omega⟩
    rintro b ⟨rfl, hfit'⟩
    refine ⟨?_, by omega⟩
    rw [Segment.push_push]
    rfl

/-- The buffer has these records from `front` on, and ends with them. -/
structure Gathered (front : Nat) (rs : List (Record cfg)) (buffer : Segment) : Prop where
  holds : Holds buffer.buf front (images rs)
  front : buffer.writeFront = front + total size rs
  le : buffer.writeFront ≤ buffer.length

/-- Where the pooled updates of a group start in their buffer. -/
def Config.gatherFront (cfg : Config) (m : SegmentGroupManager) (g : Nat) : Nat :=
  cfg.getLastSegmentFront (m.getGroupFlushFront g) % cfg.logSegmentSize

/-- The updates that wait for the group are moved to a buffer. It is too small only if log segments are larger than main
segments. -/
theorem wp_prepareGCGroup {s : Store} {P : List (Record cfg)} {pend : Nat → List (Nat × Record cfg)} {g : Nat}
    (hpool : Pooled cfg .update P pend (s.pools .update)) :
    wp (s.prepareGCGroup cfg g) (fun (s', buffer) => ∃ p, s' = s.setPool .update p ∧
        Pooled cfg .update P (Function.update pend g []) p ∧ p.keysInPool = (s.pools .update).keysInPool ∧
        p.pool = (s.pools .update).pool ∧
        match buffer with
        | none => pend g = []
        | some buffer => Gathered (cfg.gatherFront s.groups g) ((pend g).map Prod.snd) buffer)
      (fun e => e = .assertion ∧ cfg.mainSegmentSize < cfg.logSegmentSize) := by
  have hself : s.setPool .update (s.pools .update) = s := by
    unfold setPool; rw [Function.update_eq_self]
  have hkeep : pend g = [] → Pooled cfg .update P (Function.update pend g []) (s.pools .update) := fun hnil => by
    rwa [← hnil, Function.update_eq_self]
  have hlower := hpool.lower g
  refine wp_ite (fun hzero => ?_) fun htotal => ?_
  · rw [hzero, Nat.le_zero] at hlower
    have hnil : pend g = [] := map_eq_nil_iff.1 (eq_nil_of_total hlower)
    exact ⟨_, hself.symm, hkeep hnil, rfl, rfl, hnil⟩
  · have hsum := hpool.sums g
    have hP := hpool.le
    have hpoolLt := cfg.poolSize_lt
    have hmainLt := cfg.main_lt
    have hlogLt := cfg.log_lt
    have hmod := Nat.mod_lt (cfg.getLastSegmentFront (s.groups.getGroupFlushFront g)) cfg.logSegmentSize_pos
    have hsizeOf : cfg.sizeOfPool .update = cfg.poolSize := rfl
    generalize hfront : cfg.getLastSegmentFront (s.groups.getGroupFlushFront g) % cfg.logSegmentSize = front at hmod
    generalize (((s.pools .update).groupsInPool.lookup g).getD []).sum = updateTotal at hsum htotal hlower ⊢
    generalize hsize : (if cfg.logSegmentSize < front + updateTotal then front + updateTotal
      else cfg.mainSegmentSize) = size
    have hsizeLt : size < 2 ^ 63 := by
      rw [← hsize]
      split <;> omega
    have hfits : front + updateTotal ≤ size ∨ cfg.mainSegmentSize < cfg.logSegmentSize := by
      rw [← hsize]
      split <;> omega
    rw [wp_bind]
    refine wp_ite (fun hlt => ⟨rfl, hfits.resolve_left ?_⟩) fun hle => ?_
    · have : size < front := hlt
      omega
    have hle' : front ≤ size := Nat.not_lt.1 hle
    have hbuffer : Gathered front ([] : List (Record cfg)) { Segment.init g size cfg.uninit with
        flushFront := front, writeFront := max (Segment.init g size cfg.uninit).writeFront front } :=
      ⟨Memory.holds_nil, Nat.max_eq_right (Nat.zero_le _), by
        show max 0 front ≤ size
        rwa [Nat.max_eq_right (Nat.zero_le _)]⟩
    rw [wp_ok]
    generalize hb : ({ Segment.init g size cfg.uninit with
        flushFront := front, writeFront := max (Segment.init g size cfg.uninit).writeFront front } : Segment) = buffer
      at hbuffer
    have hbLen : buffer.length = size := by rw [← hb]; rfl
    have hwf : buffer.writeFront = front := hbuffer.front
    rcases hlookup : (s.pools .update).segmentsInPool.lookup g with _ | offsets
    · have hpending := hpool.pending g
      rw [hlookup] at hpending
      have hnil : pend g = [] := map_eq_nil_iff.1 hpending.symm
      refine ⟨_, hself.symm, hkeep hnil, rfl, rfl, ?_⟩
      rw [Config.gatherFront, hfront, hnil]
      exact hbuffer
    · have hpending := hpool.pending g
      rw [hlookup] at hpending
      have heq : offsets = (pend g).map Prod.fst := hpending
      have hmem : g ∈ (s.pools .update).segmentsInPool := AList.lookup_isSome.1 (by rw [hlookup]; rfl)
      simp only [heq]
      rw [wp_bind]
      refine wp_mono (wp_copyUpdates (fun x hx => hpool.has (hpool.mem_filter hx).1) (by rw [hbLen]; exact hsizeLt)
        hbuffer.le) ?_ fun e he => ⟨he.1, hfits.resolve_left (by have := he.2; omega)⟩
      rintro b ⟨rfl, hfit⟩
      refine ⟨_, rfl, hpool.setOffsets nil_suffix hmem, rfl, rfl, ?_⟩
      rw [Config.gatherFront, hfront]
      refine ⟨?_, ?_, ?_⟩
      · rw [← hwf]; exact Memory.holds_write_self
      · rw [Segment.writeFront_push, length_images, hwf]
      · rw [Segment.writeFront_push, length_images]; exact hfit

theorem wp_scanBuffer {s : Store} {logs : List Nat} {g : Nat} (hxs : Scanned k xs) (hlogs : logs ≠ [])
    (h : Gathered (cfg.gatherFront s.groups g) rs buffer) (hrs : ∀ r ∈ rs, r.home ≠ lsmSegment) :
    wp (s.scanBuffer cfg g logs buffer k) (fun k' => Scanned k' (xs ++ rs)) (fun _ => False) := by
  have hmod : cfg.gatherFront s.groups g < cfg.logSegmentSize := Nat.mod_lt _ cfg.logSegmentSize_pos
  show wp (if cfg.gatherFront s.groups g ≤ _ then _ else _) _ _
  rw [if_neg hlogs, if_neg hlogs, if_pos (Nat.le_of_lt hmod)]
  show wp (gcSegment (buffer.clean (cfg.gatherFront s.groups g)) buffer.writeFront k) _ _
  generalize cfg.gatherFront s.groups g = front at h
  have hle := h.le
  have hwf := h.front
  obtain ⟨b, hb, hbuf, hlen⟩ : ∃ b, buffer.clean front = b ∧
      b.buf = Memory.write buffer.buf 0 (List.replicate front 0) ∧ b.length = buffer.length :=
    ⟨_, if_neg (by omega), rfl, rfl⟩
  have hzero : Holds b.buf 0 (List.replicate front 0) := hbuf ▸ Memory.holds_write_self
  have hholds : Holds b.buf front (images rs) := hbuf ▸ h.holds.write (.inr (by simp))
  rw [hb, gcSegment, hwf, gcSegmentFrom_padding hzero (by omega) (by omega), Nat.zero_add]
  exact wp_mono (wp_gcSegmentFrom hxs hholds (by omega) (Nat.le_refl _) hrs) (fun _ => id) fun _ => False.elim

end Updates

/-! ### The two halves of a collection -/

namespace Store

/-- What `gcOneGroup` reads: the store without the pooled updates of the group, and the entry of every key. -/
def scanGroup (cfg : Config) (groupId : Nat) (s : Store) : Except Stop (Store × Scan) :=
  match s.groups.group groupId with
  | none => .error .outOfBounds
  | some g => do
    let (s, buffer) ← s.prepareGCGroup cfg groupId
    let segments ← ([groupId] ++ g.segments.tail).mapM (s.loadSegment cfg)
    let k ← segments.foldlM (fun k segment => gcSegment segment segment.flushFront k) ⟨[], 0⟩
    match buffer with
    | none => .ok (s, k)
    | some buffer => do
      let k ← s.scanBuffer cfg groupId g.segments.tail buffer k
      .ok (s, k)

/-- What it does then. -/
def rewriteGroup (cfg : Config) (groupId : Nat) (order : Order) (s : Store) (k : Scan) : Except Stop Store := do
  let groups ← s.groups.releaseGroupLogSegments cfg groupId
  let s ← (order.apply k.keyCount).foldlM (writeBack cfg groupId) { s with groups := groups.setGroupFronts groupId 0 }
  if (s.pools .gc).pool.writeFront = 0 then .ok s
  else (s.setPool .update ((s.pools .update).releaseGroup groupId)).flushGCPool cfg

theorem gcOneGroup_eq (cfg : Config) (g : Nat) (order : Order) (s : Store) :
    s.gcOneGroup cfg g order = s.scanGroup cfg g >>= fun (s, k) => s.rewriteGroup cfg g order k := by
  unfold gcOneGroup scanGroup
  cases s.groups.group g with
  | none => rfl
  | some gm =>
    simp only [SegmentGroupManager.getGCMode_eq_all, if_true, bind_assoc]
    refine bind_congr fun x => bind_congr fun segments => bind_congr fun k => ?_
    cases x.2 with
    | none =>
      rfl
    | some buffer =>
      simp only [reduceCtorEq, false_and, if_false, bind_assoc]
      exact bind_congr fun _ => rfl

end Store

/-! ### What a collection keeps -/

/-- A property of the store that every change made by a collection keeps. -/
structure Lasts (cfg : Config) (I : Store → Prop) : Prop where
  groups : ∀ s groups, I s → I { s with groups }
  gcPool : ∀ s p, I s → I (s.setPool .gc p)
  taken : ∀ s g, I s → I (s.setPool .update ((s.pools .update).setOffsets g []))
  released : ∀ s g, I s → I (s.setPool .update ((s.pools .update).releaseGroup g))
  flush : ∀ s, I s → wp (s.flushGCPool cfg) I fun _ => True

namespace Lasts

variable {I : Store → Prop} {s : Store} {g : Nat}

theorem wp_writeBack {e : Entry} (hI : Lasts cfg I) (h : I s) : wp (s.writeBack cfg g e) I fun _ => True := by
  refine wp_bind_of_forall fun n => wp_ite (fun _ => wp_seq (Q := I) h fun s hs => ?_) fun _ =>
    wp_seq (hI.flush s h) fun s hs => ?_
  all_goals
    refine wp_bind_of_forall fun _ => wp_bind_of_forall fun _ => wp_ite (fun _ => trivial) fun _ => ?_
    exact wp_bind_of_forall fun _ => wp_bind_of_forall fun _ => hI.gcPool _ _ hs

theorem wp_scanGroup (hI : Lasts cfg I) (h : I s) : wp (s.scanGroup cfg g) (fun x => I x.1) fun _ => True := by
  have hprep : wp (s.prepareGCGroup cfg g) (fun x => I x.1) fun _ => True := by
    refine wp_ite (fun _ => h) fun _ => wp_bind_of_forall fun buffer => ?_
    split
    · exact h
    · exact wp_bind_of_forall fun buffer => hI.taken _ _ h
  unfold scanGroup
  split
  · trivial
  · refine wp_seq hprep fun x hx => wp_bind_of_forall fun segments => wp_bind_of_forall fun k => ?_
    split
    · exact hx
    · exact wp_bind_of_forall fun k => hx

theorem wp_gcOneGroup {order : Order} (hI : Lasts cfg I) (h : I s) :
    wp (s.gcOneGroup cfg g order) I fun _ => True := by
  rw [gcOneGroup_eq]
  refine wp_seq (hI.wp_scanGroup h) fun x hx => wp_bind_of_forall fun groups => ?_
  refine wp_seq (wp_foldlM (I := fun _ => I) (fun e es s hs => hI.wp_writeBack hs) (hI.groups _ _ hx)) fun s' hs' => ?_
  exact wp_ite (fun _ => hs') fun _ => hI.flush _ (hI.released _ _ hs')

theorem wp_gcGreedy {maxGC : Nat} {candidates : List (Nat × Order)} {report : Option Nat} (hI : Lasts cfg I)
    (h : I s) : wp (s.gcGreedy cfg maxGC candidates report) (fun x => I x.1) fun _ => True := by
  refine wp_ite (fun _ => trivial) fun _ => wp_ite (fun _ => trivial) fun _ => ?_
  refine wp_foldlM (I := fun _ (x : Store × Option Nat) => I x.1) (fun c cs x hx => ?_) h
  exact wp_seq (hI.wp_gcOneGroup hx) fun s' hs' => hs'

end Lasts

end ValueSep.HashKV
