import ValueSep.HashKV.Refine

/-!
# What a client can rely on

Puts and gets, collections, flushes and deletions, over whole runs. None of the laws holds in general: a record that a
collection took along is overwritten in vain, a collection brings back the record of a key whose value went to the LSM
tree since, a flush may write the older of two records of a key last, and a deletion copies `2^64 - 1` bytes. In runs of
tame steps they hold.
-/

namespace ValueSep.HashKV

open Coding (Bytes)
open Exec (run AllSteps)
open Wp
open List Function Option Store

/-- The key a call is about. -/
def Event.key : Event → Option Bytes
  | .put key _ _ => some key
  | .del key _ => some key
  | .flush _ => none
  | .gc .. => none

variable {cfg : Config} {disk : Nat → UInt8} {es es' : List Event} {s s' : Store} {key value : Bytes} {cs : List Choice}

theorem models_of_run (htame : AllSteps (step cfg) (Store.Tame cfg) (.init cfg disk) es)
    (hrun : run (step cfg) (.init cfg disk) es = some s) : ∃ m, Models cfg s m :=
  Exec.run_inv (I := fun s => ∃ m, Models cfg s m) (fun _ _ _ ⟨_, hm⟩ ht hstep =>
    let ⟨_, _, hm'⟩ := hm.step ht hstep
    ⟨_, hm'⟩) ⟨_, Models.init disk⟩ htame hrun

/-! ### Puts and gets -/

/-- If the put after the calls `es` answers true, a get after any further calls `es'` that are not about the key finds
the value. -/
def PutGet (cfg : Config) (disk : Nat → UInt8) (es : List Event) (key value : Bytes) (cs : List Choice)
    (es' : List Event) : Prop :=
  ∀ s s₁ s₂, run (step cfg) (.init cfg disk) es = some s → s.putValue cfg key value cs = .ok (true, s₁) →
    run (step cfg) s₁ es' = some s₂ → (∀ e ∈ es', e.key ≠ some key) → s₂.getValue cfg key = .ok (some value)

theorem Event.apply_of_ne {e : Event} {done : Bool} {m : Bytes → Option Bytes} (h : e.key ≠ some key) :
    e.apply done m key = m key := by
  cases e with
  | put key' value cs =>
    have hne : key ≠ key' := fun heq => h (heq ▸ rfl)
    cases done with
    | false => rfl
    | true => exact update_of_ne hne ..
  | del key' cs =>
    have hne : key ≠ key' := fun heq => h (heq ▸ rfl)
    cases done with
    | false => rfl
    | true => exact update_of_ne hne ..
  | flush cs => rfl
  | gc all candidates => rfl

theorem putGet_of_tame
    (htame : AllSteps (Store.step cfg) (Store.Tame cfg) (.init cfg disk) (es ++ .put key value cs :: es')) :
    PutGet cfg disk es key value cs es' := by
  intro s s₁ s₂ hrun hput hrun' hother
  obtain ⟨m, hm⟩ := models_of_run htame.append hrun
  obtain ⟨ht, hrest⟩ := htame.of_append hrun
  have hcall : s.call cfg (.put key value cs) = .ok (true, s₁) := hput
  have hstep : s.step cfg (.put key value cs) = some s₁ := by rw [step, hcall]
  -- the pair was accepted, so it can be stored
  have hkey : cfg.UserKey key := by
    refine (ht.resolve_left fun hrej => ?_).1.1
    rw [putValue, if_pos hrej] at hput
    cases hput
  have hm₁ : Models cfg s₁ (update m key (some value)) := wp_iff.1 (hm.call ht) _ hcall
  have hlast := Exec.run_inv (I := fun s => ∃ m, Models cfg s m ∧ m key = some value)
    (P := fun s e => s.Tame cfg e ∧ e.key ≠ some key) (fun s e s' ⟨m, hm, hv⟩ hP hs => by
      obtain ⟨done, -, hm'⟩ := hm.step hP.1 hs
      exact ⟨_, hm', (Event.apply_of_ne hP.2).trans hv⟩)
    ⟨_, hm₁, update_self ..⟩ ((hrest s₁ hstep).and (AllSteps.of_forall hother)) hrun'
  obtain ⟨m₂, hm₂, hv⟩ := hlast
  rw [hm₂.getValue_eq hkey, hv]

/-- The pool entry of the key is overwritten before the flush; the other key has a record in a log segment. -/
theorem putGet_of_tame_small : PutGet smallConfig (fun _ => 0) [.put (replicate 16 1) (replicate 8 1) [],
    .put (replicate 16 2) (replicate 8 2) []] (replicate 16 1) (replicate 8 3) []
    [.flush [.group 0], .put (replicate 16 3) (replicate 8 4) [], .flush [.group 0]] :=
  putGet_of_tame (by decide +kernel)

/-- The steps of the runs below: three records fill the main segment and begin a log segment. -/
def threePuts : List Event := [.put (replicate 16 1) (replicate 8 1) [],
  .put (replicate 16 2) (replicate 8 2) [], .put (replicate 16 3) (replicate 8 3) [],
  .flush [.group 0]]

/-- The hash map of keys is walked in the order of insertion. -/
def Order.inserted : Order := ⟨id, fun _ => .refl _⟩

/-- The first key is put again, the collection takes that record along, and the next put of the key writes over the
record in the pool, which no flush looks at any more. -/
theorem not_putGet_small : ¬PutGet smallConfig (fun _ => 0)
    (threePuts ++ [.put (replicate 16 1) (replicate 8 4) [], .gc false [(0, .inserted)]])
    (replicate 16 1) (replicate 8 5) [] [.flush []] := by
  have hrun : (run (step smallConfig) (.init smallConfig fun _ => 0)
      (threePuts ++ [.put (replicate 16 1) (replicate 8 4) [], .gc false [(0, .inserted)]])).bind (fun s =>
      (s.putValue smallConfig (replicate 16 1) (replicate 8 5) []).toOption.bind fun put =>
      (run (step smallConfig) put.2 [.flush []]).bind fun s₂ =>
      (s₂.getValue smallConfig (replicate 16 1)).toOption.map fun v => (put.1, v)) =
      some (true, some (replicate 8 4)) := by decide +kernel
  simp only [bind_eq_some_iff, map_eq_some_iff, toOption_eq_some, Prod.mk.injEq] at hrun
  obtain ⟨s, hs, ⟨done, s₁⟩, hput, s₂, hs₂, v, hv, rfl, rfl⟩ := hrun
  intro h
  have hget := h s s₁ s₂ hs hput hs₂ (by simp [Event.key])
  rw [hv] at hget
  exact absurd hget (by decide)

/-! ### Collections -/

/-- A collection in the store that the calls `es` lead to does not change what a get of the key answers. -/
def GcInvisible (cfg : Config) (disk : Nat → UInt8) (es : List Event) (all : Bool) (candidates : List (Nat × Order))
    (key : Bytes) : Prop :=
  ∀ s s', run (step cfg) (.init cfg disk) es = some s → s.gc cfg all candidates = .ok s' →
    s'.getValue cfg key = s.getValue cfg key

theorem gcInvisible_of_tame {all : Bool} {candidates : List (Nat × Order)}
    (htame : AllSteps (step cfg) (Store.Tame cfg) (.init cfg disk) es)
    (hkey : cfg.UserKey key ∨ key.length ≠ keySize) : GcInvisible cfg disk es all candidates key := by
  intro s s' hrun hgc
  rcases hkey with hkey | hkey
  · obtain ⟨m, hm⟩ := models_of_run htame hrun
    have hcall : s.call cfg (.gc all candidates) = .ok (true, s') := by rw [call, hgc]; rfl
    have hm' : Models cfg s' m := wp_iff.1 (hm.call (e := .gc all candidates) trivial) _ hcall
    rw [hm.getValue_eq hkey, hm'.getValue_eq hkey]
  · rw [getValue, if_pos hkey, getValue, if_pos hkey]

theorem gcInvisible_of_tame_small : GcInvisible smallConfig (fun _ => 0) (threePuts ++
    [.put (replicate 16 1) (replicate 8 4) [], .flush [.group 0]]) true [(0, .inserted)] (replicate 16 1) :=
  gcInvisible_of_tame (by decide +kernel) (.inl (by decide +kernel))

/-- A short value of the first key goes to the LSM tree; the collection keeps the record of its older value and points
the tree at it again. -/
theorem not_gcInvisible_small : ¬GcInvisible smallConfig (fun _ => 0) (threePuts ++
    [.put (replicate 16 1) [7, 7] [], .flush [.group lsmSegment]]) false [(0, .inserted)] (replicate 16 1) := by
  have hrun : (run (step smallConfig) (.init smallConfig fun _ => 0) (threePuts ++
      [.put (replicate 16 1) [7, 7] [], .flush [.group lsmSegment]])).bind (fun s =>
      (s.gc smallConfig false [(0, .inserted)]).toOption.bind fun s' =>
      (s.getValue smallConfig (replicate 16 1)).toOption.bind fun v =>
      (s'.getValue smallConfig (replicate 16 1)).toOption.map fun v' => (v, v')) =
      some (some [7, 7], some (replicate 8 1)) := by decide +kernel
  simp only [bind_eq_some_iff, map_eq_some_iff, toOption_eq_some, Prod.mk.injEq] at hrun
  obtain ⟨s, hs, s', hgc, v, hv, v', hv', rfl, rfl⟩ := hrun
  intro h
  have hget := h s s' hs hgc
  rw [hv, hv'] at hget
  exact absurd hget (by decide)

/-! ### Flushes -/

/-- The store together with the map of the last put of every key that answered true. -/
def Store.track (cfg : Config) (x : Store × (Bytes → Option Bytes)) (e : Event) :
    Option (Store × (Bytes → Option Bytes)) :=
  match x.1.call cfg e with
  | .ok (done, s) => some (s, e.apply done x.2)
  | .error _ => none

/-- After a flush, whatever choices it makes, no key is pooled and every key reads its last put. -/
def LastWriteWins (cfg : Config) (disk : Nat → UInt8) (es : List Event) (isUpdate : Bool) (cs : List Choice)
    (key : Bytes) : Prop :=
  ∀ s m report s' report' cs', run (track cfg) (.init cfg disk, fun _ => none) es = some (s, m) →
    s.flushCentralizedReservedPool cfg isUpdate report cs = .ok (s', report', cs') →
    s'.getValueFromBuffer key = .ok none ∧ s'.getValue cfg key = .ok (m key)

theorem lastWriteWins_of_tame {isUpdate : Bool}
    (htame : AllSteps (track cfg) (fun x => x.1.Tame cfg) (.init cfg disk, fun _ => none) es)
    (hkey : cfg.UserKey key) : LastWriteWins cfg disk es isUpdate cs key := by
  intro s m report s' report' cs' hrun hflush
  have hm : Models cfg s m := Exec.run_inv (I := fun x => Models cfg x.1 x.2) (fun x e x' hx ht hstep => by
    have hcall := wp_iff.1 (hx.call ht)
    unfold track at hstep
    rcases hc : x.1.call cfg e with e' | ⟨done, s₁⟩
    · rw [hc] at hstep; cases hstep
    · rw [hc] at hstep
      cases hstep
      exact hcall _ hc) (Models.init disk) htame hrun
  obtain ⟨P, pend, G, T, hrep, hidx⟩ := hm
  obtain ⟨⟨G', T', hrep', -⟩, hkeys⟩ := wp_iff.1 hrep.wp_flush _ hflush
  have hm' : Models cfg s' m := ⟨[], _, G', T', hrep', fun k => hkeys k⟩
  refine ⟨?_, hm'.getValue_eq hkey⟩
  simp [getValueFromBuffer, hkeys key]

theorem lastWriteWins_of_tame_small : LastWriteWins smallConfig (fun _ => 0) [.put (replicate 16 1) (replicate 8 1) [],
    .put (replicate 16 2) [7, 7] [], .put (replicate 16 1) (replicate 8 2) []] true
    [.group lsmSegment, .group 0] (replicate 16 1) :=
  lastWriteWins_of_tame (by decide +kernel) (by decide +kernel)

/-- Both records of the key are pooled, the older one for its hash group, and that group is taken last. -/
theorem not_lastWriteWins_small : ¬LastWriteWins smallConfig (fun _ => 0)
    [.put (replicate 16 1) (replicate 8 1) [], .put (replicate 16 1) [7, 7] []] true
    [.group lsmSegment, .group 0] (replicate 16 1) := by
  have hrun : (run (track smallConfig) (.init smallConfig fun _ => 0, fun _ => none)
      [.put (replicate 16 1) (replicate 8 1) [], .put (replicate 16 1) [7, 7] []]).bind (fun x =>
      (x.1.flushCentralizedReservedPool smallConfig true none [.group lsmSegment, .group 0]).toOption.bind
        fun y => (y.1.getValue smallConfig (replicate 16 1)).toOption.map fun v => (x.2 (replicate 16 1), v)) =
      some (some [7, 7], some (replicate 8 1)) := by decide +kernel
  simp only [bind_eq_some_iff, map_eq_some_iff, toOption_eq_some, Prod.mk.injEq] at hrun
  obtain ⟨⟨s, m⟩, hs, ⟨s', report', cs'⟩, hflush, v, hv, hm, rfl⟩ := hrun
  intro h
  have hget := (h s m none s' report' cs' hs hflush).2
  rw [hv, show m (replicate 16 1) = some [7, 7] from hm] at hget
  exact absurd hget (by decide)

/-! ### Deletions -/

/-- The deletion stays inside its buffers; if it answers true, the key is not found until it is put again; no other key
is affected. -/
def DeleteSound (cfg : Config) (s : Store) (key : Bytes) (cs : List Choice) : Prop :=
  s.delValue cfg key cs ≠ .error .outOfBounds ∧
  ∀ done s', s.delValue cfg key cs = .ok (done, s') →
    (done = true → ∀ es s'', run (step cfg) s' es = some s'' →
      (∀ e ∈ es, ∀ value cs, e ≠ .put key value cs) → s''.getValue cfg key = .ok none) ∧
    ∀ key', key' ≠ key → s'.getValue cfg key' = s.getValue cfg key'

/-- The tombstone of a key in group `g`: `2^64 - 1` bytes of a value are appended behind its key and length. -/
theorem writeUpdate_tombstone {p : Pool} {c g : Nat} (hkey : key.length = keySize)
    (hroom : p.pool.writeFront + (keySize + lenSize) ≤ p.pool.length) (hlen : p.pool.length < 2 ^ 63) :
    wp (writeUpdate key [] invalid c g none p) (fun _ => False) (· = .outOfBounds) := by
  have hlenLen := length_encodeLen invalid
  have h₁ : p.pool.appendData key keySize = .ok (p.pool.push key) :=
    Segment.appendData_ok hkey.symm (by omega) hlen
  have h₂ : (p.pool.push key).appendData (encodeLen invalid) lenSize =
      .ok ((p.pool.push key).push (encodeLen invalid)) := by
    refine Segment.appendData_ok hlenLen.symm ?_ hlen
    rw [Segment.writeFront_push, Segment.length_push]
    omega
  have h₃ : ((p.pool.push key).push (encodeLen invalid)).appendData [] invalid = .error .outOfBounds := by
    refine Segment.appendData_invalid ?_ ?_ hlen
    · rw [Segment.writeFront_push, Segment.writeFront_push, hkey]
      unfold keySize
      omega
    · rw [Segment.writeFront_push, Segment.writeFront_push, Segment.length_push, Segment.length_push]
      omega
  simp only [writeUpdate]
  rw [h₁, wp_bind, wp_ok, h₂, wp_bind, wp_ok, if_pos (by decide), wp_bind, h₃]
  rfl

theorem putRecord_tombstone {segmentId c g g' : Nat} (hkey : key.length = keySize)
    (hpool : (s.pools .update).keysInPool key = none)
    (hroom : (s.pools .update).pool.canFit (keySize + lenSize))
    (hfit : (s.pools .update).pool.writeFront + (keySize + lenSize) ≤ (s.pools .update).pool.length)
    (hlen : (s.pools .update).pool.length < 2 ^ 63)
    (hg : (if segmentId = lsmSegment then some lsmSegment else s.groups.segment segmentId) = some g)
    (hmain : (if segmentId = lsmSegment then some lsmSegment
      else (s.groups.group g).bind fun g => g.segments.head?) = some c)
    (hg' : (if c = lsmSegment then some lsmSegment else s.groups.segment c) = some g')
    (hvalid : segmentId ≠ lsmSegment → g' ≠ invalid) :
    wp (s.putRecord cfg key [] invalid segmentId cs) (fun _ => False) (· = .outOfBounds) := by
  have hfull : (s.pools .update).pool.canFit (recordSize invalid) = true := hroom
  unfold putRecord
  simp only [hg, hmain, hg', hpool, inPlaceOffset]
  rw [wp_bind, wp_ok, if_neg (by simp [hfull])]
  show wp (if some g' = some invalid ∧ ¬segmentId = lsmSegment then _ else _) _ _
  rw [if_neg fun h => hvalid h.2 (Option.some.inj h.1)]
  show wp (putRest cfg key [] invalid c _ none (if c = lsmSegment then some lsmSegment else s.groups.segment c) cs _) _ _
  rw [hg']
  refine wp_seq (writeUpdate_tombstone hkey ?_ ?_) fun _ => False.elim
  · simpa [unindex, setPool] using hfit
  · simpa [unindex, setPool] using hlen

/-- A deletion of a key that the tree has, with no record in the pool and room for one more. -/
theorem Models.delValue_outOfBounds {m : Bytes → Option Bytes} (h : Models cfg s m) (hkey : cfg.UserKey key)
    (hlsm : s.lsm key ≠ none) (hpool : (s.pools .update).keysInPool key = none)
    (hroom : (s.pools .update).pool.canFit (keySize + lenSize)) :
    wp (s.delValue cfg key cs) (fun _ => False) (· = .outOfBounds) := by
  obtain ⟨P, pend, G, T, hrep, -⟩ := h
  have hcap := cfg.sizeOfPool_lt .update
  have hle := hrep.update.le
  have hfront := hrep.update.front
  have hlen := hrep.update.length
  have hfit : (s.pools .update).pool.writeFront + (keySize + lenSize) ≤ (s.pools .update).pool.length :=
    (Segment.canFit_iff (by unfold keySize lenSize; omega) (by omega)).1 hroom
  have hlen' : (s.pools .update).pool.length < 2 ^ 63 := by omega
  -- where the tree has the key, and which group that is
  obtain ⟨loc, hloc, hne, hput⟩ : ∃ loc, s.getKey cfg key = .ok loc ∧ loc.segmentId ≠ invalid ∧
      wp (s.putRecord cfg key [] invalid loc.segmentId cs) (fun _ => False) (· = .outOfBounds) := by
    rcases hx : recordOf G key with _ | x
    · have hres := hrep.settled.tree key hkey id
      unfold Resolves at hres
      rw [hx] at hres
      obtain ⟨w, hw, hlsm, -⟩ := hres.resolve_left fun h => hlsm h.1
      refine ⟨.inline w, ?_, show lsmSegment ≠ invalid by decide, ?_⟩
      · rw [getKey, hlsm]
        exact ValueLocation.deserialize_inline hw
      · exact putRecord_tombstone hkey.1 hpool hroom hfit hlen' rfl rfl rfl fun h => absurd rfl h
    · obtain ⟨hgetKey, -⟩ := hrep.settled.getKey_of_record hkey id hx
      have hmem := (mem_of_recordOf hx).1
      obtain ⟨hc, -⟩ := hrep.settled.laid.place hmem
      obtain ⟨rs, hC, -⟩ := Content.mem_layout.1 hmem
      have hmain := cfg.mainSegmentOf_lt key
      have hlt := cfg.numSegment_lt
      have hsum : cfg.numSegment = cfg.numMainSegment + cfg.numLogSegment := rfl
      have hlaid := hrep.settled.laid.of_ne_nil (ne_nil_of_mem hC)
      have howner := hrep.settled.laid.wf.owner _ _ hlaid.segments x.segment (mem_map_of_mem hC)
      have hcons := hlaid.cons_logs hrep.settled.laid.wf
      have hself := hrep.settled.laid.wf.owner _ _ hlaid.segments (cfg.mainSegmentOf key)
        (by rw [hcons]; exact mem_cons_self ..)
      obtain ⟨gm, hgm, hseg⟩ := map_eq_some_iff.1 hlaid.segments
      have hxl : x.segment ≠ lsmSegment := by unfold lsmSegment; omega
      have hml : cfg.mainSegmentOf key ≠ lsmSegment := by unfold lsmSegment; omega
      refine ⟨_, hgetKey, show x.segment ≠ invalid by unfold invalid; omega, ?_⟩
      refine putRecord_tombstone hkey.1 hpool hroom hfit hlen'
        ((if_neg hxl).trans howner) ?_ ((if_neg hml).trans hself) fun _ => by unfold invalid; omega
      rw [show (ValueLocation.stored x.segment x.offset x.record.value.length).segmentId = x.segment from rfl, if_neg hxl,
        hgm, bind_some, hseg, hcons]
      rfl
  unfold delValue
  rw [if_neg (not_not_intro hkey.1), hloc, wp_bind, wp_ok, if_neg hne]
  rw [delLoop, wp_eq_error.1 hput]
  rfl

theorem Store.delValue_of_lsm_eq_none (h : s.lsm key = none) : s.delValue cfg key cs = .ok (false, s) := by
  unfold delValue
  split
  · rfl
  · rw [getKey, h]
    rfl

/-- Deletions are sound of keys that the tree does not have, and, among keys that are not pooled, while the pool has
room for a tombstone, of no others. -/
theorem deleteSound_iff : (s.lsm key = none → DeleteSound cfg s key cs) ∧
    ((∃ disk es, AllSteps (step cfg) (Store.Tame cfg) (.init cfg disk) es ∧
      run (step cfg) (.init cfg disk) es = some s) → cfg.UserKey key → (s.pools .update).keysInPool key = none →
      (s.pools .update).pool.canFit (keySize + lenSize) → DeleteSound cfg s key cs → s.lsm key = none) := by
  constructor
  · intro h
    rw [DeleteSound, delValue_of_lsm_eq_none h]
    refine ⟨nofun, fun done s' heq => ?_⟩
    cases heq
    exact ⟨nofun, fun _ _ => rfl⟩
  · rintro ⟨disk, es, htame, hrun⟩ hkey hpool hroom hsound
    obtain ⟨m, hm⟩ := models_of_run htame hrun
    by_contra hlsm
    exact hsound.1 (wp_eq_error.1 (hm.delValue_outOfBounds hkey hlsm hpool hroom))

/-- A key that is only pooled. -/
theorem deleteSound_iff_small : ∃ s, run (step smallConfig) (.init smallConfig fun _ => 0)
    [.put (replicate 16 1) (replicate 8 1) []] = some s ∧ DeleteSound smallConfig s (replicate 16 1) [] := by
  exact Exec.exists_of_map (fun s => s.lsm (replicate 16 1)) none (by decide +kernel) fun s _ => deleteSound_iff.1

/-- A key with a record in a segment: the copy of the tombstone's value leaves the pool. -/
theorem not_deleteSound_small : ∃ s, run (step smallConfig) (.init smallConfig fun _ => 0)
    [.put (replicate 16 1) (replicate 8 1) [], .flush [.group 0]] = some s ∧
    s.delValue smallConfig (replicate 16 1) [] = .error .outOfBounds ∧
    ¬DeleteSound smallConfig s (replicate 16 1) [] := by
  refine Exec.exists_of_map (fun s =>
      match s.delValue smallConfig (replicate 16 1) [] with
      | .ok _ => none
      | .error e => some e) (some .outOfBounds) (by decide +kernel) fun s hs herr => ?_
  have hdel : s.delValue smallConfig (replicate 16 1) [] = .error .outOfBounds := by
    rcases hd : s.delValue smallConfig (replicate 16 1) [] with e | x
    · rw [hd] at herr
      exact congrArg _ (Option.some.inj herr)
    · rw [hd] at herr
      cases herr
  exact ⟨hdel, fun h => h.1 hdel⟩

end ValueSep.HashKV
