import ValueSep.HashKV.Gc
import ValueSep.Lib.Exec
import ValueSep.Lib.Wp

/-!
# The key-value server (`kvServer.cc`, `valueManager.cc`)

`putValue`, `getValue`, `delValue`, `flushBuffer` and `gc`. A call takes the list of choices the code leaves open on
its way: which group `groupsInPool.begin()` is, and what a `gcGreedy` inside the flush collects. A list that ends too
early stops the call (`unscheduled`), so a call that returns has run to its end.
-/

namespace ValueSep.HashKV

open Coding (Bytes)
open Wp

inductive Choice
  /-- The group the next pass of a flush takes. -/
  | group (groupId : Nat)
  /-- The groups a `gcGreedy` of the flush collects. -/
  | gc (candidates : List (Nat × Order))

/-- Where the loop over the groups of the update pool stands: before the next group, or waiting for room for a record
of `size` bytes of `groupId`. -/
inductive FlushPc
  | next
  | collect (groupId size : Nat)

namespace Flush

/-- The loop over the groups. `report` as in `gcGreedy`. -/
def run (cfg : Config) (isUpdate : Bool) :
    List Choice → FlushPc → Flush → Option Nat → Except Stop (Flush × Option Nat × List Choice)
  | [], .next, f, report =>
    if (f.store.pools .update).groupsInPool.entries.isEmpty then .ok (f, report, []) else .error .unscheduled
  | c :: cs, .next, f, report =>
    if (f.store.pools .update).groupsInPool.entries.isEmpty then .ok (f, report, c :: cs)
    else match c with
      | .group groupId =>
        if groupId ∈ (f.store.pools .update).groupsInPool.keys then do
          let (f, overflow) ← f.group cfg .update groupId
          match overflow with
          | none => run cfg isUpdate cs .next (f.endGroup cfg .update groupId) report
          | some size =>
            if isUpdate then run cfg isUpdate cs (.collect groupId size) (f.suspend cfg groupId) report
            else .error .assertion
        else .error .unscheduled
      | .gc _ => .error .unscheduled
  | [], .collect .., _, _ => .error .unscheduled
  | c :: cs, .collect groupId size, f, report =>
    match c with
    | .group _ => .error .unscheduled
    | .gc candidates => do
      let (s, report) ← f.store.gcGreedy cfg cfg.greedyGCSize candidates report
      let f := { f with store := s, flushFront := s.groups.getGroupFlushFront groupId }
      if cfg.outOfReservedSpaceForObject s.groups f.flushFront size then
        run cfg isUpdate cs (.collect groupId size) f report
      else run cfg isUpdate cs .next (f.endGroup cfg .update groupId) report

end Flush

/-- The loop between two choices. -/
structure FlushState where
  pc : FlushPc
  flush : Flush
  report : Option Nat

namespace Flush

/-- What the loop does with one choice. -/
def next (cfg : Config) (isUpdate : Bool) (x : FlushState) (c : Choice) : Except Stop FlushState :=
  match x.pc with
  | .next => match c with
    | .group groupId =>
      if groupId ∈ (x.flush.store.pools .update).groupsInPool.keys then do
        let (f, overflow) ← x.flush.group cfg .update groupId
        match overflow with
        | none => .ok ⟨.next, f.endGroup cfg .update groupId, x.report⟩
        | some size =>
          if isUpdate then .ok ⟨.collect groupId size, f.suspend cfg groupId, x.report⟩ else .error .assertion
      else .error .unscheduled
    | .gc _ => .error .unscheduled
  | .collect groupId size => match c with
    | .group _ => .error .unscheduled
    | .gc candidates => do
      let (s, report) ← x.flush.store.gcGreedy cfg cfg.greedyGCSize candidates x.report
      let f := { x.flush with store := s, flushFront := s.groups.getGroupFlushFront groupId }
      if cfg.outOfReservedSpaceForObject s.groups f.flushFront size then .ok ⟨.collect groupId size, f, report⟩
      else .ok ⟨.next, f.endGroup cfg .update groupId, report⟩

theorem run_cons (cfg : Config) (isUpdate : Bool) (c : Choice) (cs : List Choice) (x : FlushState)
    (h : x.pc = .next → ¬(x.flush.store.pools .update).groupsInPool.entries.isEmpty) :
    x.flush.run cfg isUpdate (c :: cs) x.pc x.report =
      next cfg isUpdate x c >>= fun x => x.flush.run cfg isUpdate cs x.pc x.report := by
  obtain ⟨pc, f, report⟩ := x
  conv_lhs => unfold run
  unfold next
  cases pc with
  | next =>
    dsimp only at h ⊢
    rw [if_neg (h rfl)]
    cases c with
    | gc => rfl
    | group g =>
      dsimp only
      split
      · rw [bind_assoc]
        refine bind_congr fun ⟨f', overflow⟩ => ?_
        cases overflow with
        | none => rfl
        | some size => cases isUpdate <;> rfl
      · rfl
  | collect g size =>
    cases c with
    | group => rfl
    | gc candidates =>
      rw [bind_assoc]
      refine bind_congr fun ⟨s, report'⟩ => ?_
      dsimp only
      split <;> rfl

/-- What every choice keeps still holds when the loop ends, and no group is left. -/
theorem wp_run {cfg : Config} {isUpdate : Bool} {J : FlushState → Prop} {cs : List Choice} {x : FlushState}
    (hnext : ∀ x c, J x → wp (next cfg isUpdate x c) J fun _ => True) (h : J x) :
    wp (x.flush.run cfg isUpdate cs x.pc x.report) (fun (f, report, _) =>
      J ⟨.next, f, report⟩ ∧ (f.store.pools .update).groupsInPool.entries.isEmpty) fun _ => True := by
  induction cs generalizing x with
  | nil =>
    obtain ⟨pc, f, report⟩ := x
    cases pc with
    | next =>
      exact wp_ite (fun hempty => ⟨h, hempty⟩) fun _ => trivial
    | collect => trivial
  | cons c cs ih =>
    by_cases hend : x.pc = .next ∧ (x.flush.store.pools .update).groupsInPool.entries.isEmpty
    · obtain ⟨pc, f, report⟩ := x
      obtain ⟨rfl, hempty⟩ := hend
      unfold run
      rw [if_pos hempty]
      exact ⟨h, hempty⟩
    · rw [run_cons cfg isUpdate c cs x fun hpc hempty => hend ⟨hpc, hempty⟩]
      exact wp_seq (hnext x c h) fun _ => ih

end Flush

namespace Store

/-- `flushCentralizedReservedPool` of the update pool. -/
def flushCentralizedReservedPool (cfg : Config) (isUpdate : Bool) (report : Option Nat) (cs : List Choice) (s : Store) :
    Except Stop (Store × Option Nat × List Choice) := do
  let (f, report, cs) ← (Flush.start s).run cfg isUpdate cs .next report
  let s ← f.finish cfg .update
  .ok (s, report, cs)

/-! ### `ValueManager` -/

/-- The test for an update in place: the offset the erased iterator still shows, if the record there has the size of
the new value. -/
def inPlaceOffset (cfg : Config) (pool : Segment) (found : Option Nat) (valueSize : Nat) : Except Stop (Option Nat) :=
  match found with
  | none => .ok none
  | some offset =>
    if cfg.inPlaceUpdate then do
      let offset := cfg.erased offset
      let oldValueSize ← pool.readLen (offset + keySize)
      if oldValueSize = 0 then .error .assertion
      else .ok (if (if oldValueSize = invalid then 0 else oldValueSize) = valueSize then some offset else none)
    else .ok none

/-- Appends the record, or writes its value over the one at `inPlace`, and points `keysInPool` at it. -/
def writeUpdate (key value : Bytes) (valueSize segmentId groupId : Nat) (inPlace : Option Nat) (p : Pool) :
    Except Stop Pool :=
  match inPlace with
  | some offset => do
    let pool ← p.pool.overwriteData value (offset + keySize + lenSize) valueSize
    { p with pool }.insertKey offset
  | none => do
    let offset := p.pool.writeFront
    let pool ← p.pool.appendData key keySize
    let pool ← pool.appendData (encodeLen valueSize) lenSize
    let pool ← if 0 < valueSize then pool.appendData value valueSize else .ok pool
    ({ p with pool }.addUpdate segmentId groupId offset (recordSize valueSize)).insertKey offset

/-- `keysInPool` forgets the key. -/
def unindex (key : Bytes) (s : Store) : Store :=
  s.setPool .update { s.pools .update with keysInPool := Function.update (s.pools .update).keysInPool key none }

/-- The last part of `putRecord`: the write and the flush after it. -/
def putRest (cfg : Config) (key value : Bytes) (valueSize main length : Nat) (inPlace group : Option Nat)
    (cs : List Choice) (s : Store) : Except Stop (Option Nat × Store × List Choice) :=
  match group with
  | none => .ok (none, s, cs)
  | some groupId => do
    let p ← writeUpdate key value valueSize main groupId inPlace (s.pools .update)
    let s := s.setPool .update p
    let (s, cs) ←
      if !p.pool.canFit 1 ∨ cfg.updateKVBufferSize = 0 then do
        -- flush after write
        let (s, _, cs) ← s.flushCentralizedReservedPool cfg true none cs
        .ok (s, cs)
      else .ok (s, cs)
    .ok (some length, s, cs)

/-- `ValueManager::putValue`. The result is `none` where the code returns a location without a segment, so that the
caller retries, otherwise the length of the location. -/
def putRecord (cfg : Config) (key value : Bytes) (valueSize segmentId : Nat) (cs : List Choice) (s : Store) :
    Except Stop (Option Nat × Store × List Choice) := do
  let inLSM := segmentId = lsmSegment
  let groupOf (s : Store) (c : Nat) : Option Nat := if c = lsmSegment then some lsmSegment else s.groups.segment c
  match groupOf s segmentId with
  | none => .ok (none, s, cs)
  | some group =>
    -- `convertRefMainSegment`: the first segment of the group
    let some main := if inLSM then some lsmSegment else (s.groups.group group).bind fun g => g.segments.head?
      | .error .outOfRange
    let some groupId := groupOf s main
      | .error .assertion
    let p := s.pools .update
    let found := p.keysInPool key
    let s := s.unindex key
    let inPlace ← inPlaceOffset cfg p.pool found valueSize
    let (s, report, inPlace, cs) ←
      if !p.pool.canFit (recordSize valueSize) ∧ inPlace.isNone then do
        -- flush before write
        let (s, report, cs) ← s.flushCentralizedReservedPool cfg true (some groupId) cs
        .ok (s, report, none, cs)
      else .ok (s, some groupId, inPlace, cs)
    if report = some invalid ∧ ¬inLSM then .ok (none, s, cs)
    else s.putRest cfg key value valueSize main (valueSize + if inLSM then 0 else lenSize) inPlace (groupOf s main) cs

/-- `getValueFromBuffer`. -/
def getValueFromBuffer (s : Store) (key : Bytes) : Except Stop (Option Bytes) :=
  let p := s.pools .update
  match p.keysInPool key with
  | none => .ok none
  | some start => do
    let valueSize ← p.pool.readLen (start + keySize)
    if valueSize = 0 then .error .assertion
    else some <$> p.pool.readData (start + keySize + lenSize) valueSize

/-- `getValueFromDisk`. The place is computed in 64-bit arithmetic, also for a location without a segment. -/
def getValueFromDisk (cfg : Config) (s : Store) (key : Bytes) (loc : ValueLocation) : Except Stop Bytes :=
  if loc.length < lenSize then .error .outOfBounds
  else
    let data := Memory.read s.disk ((cfg.segmentOffset loc.segmentId + loc.offset) % 2 ^ 64) (loc.length + keySize)
    let valueSize := decodeLen ((data.drop keySize).take lenSize)
    if data.take keySize = key ∧ valueSize + lenSize = loc.length then
      .ok ((data.drop (keySize + lenSize)).take valueSize)
    else .error .assertion

/-! ### `KvServer` -/

/-- The group of the key is created, unless the pair goes to the LSM tree. -/
def newMain (cfg : Config) (key : Bytes) (valueSize : Nat) (s : Store) : Except Stop Store :=
  if cfg.toLSM valueSize then .ok s
  else (fun groups => { s with groups }) <$> s.groups.getNewMainSegment cfg (cfg.mainSegmentOf key)

/-- The loop of `KvServer::putValue`, with the retries still allowed. -/
def putLoop (cfg : Config) (key value : Bytes) : Nat → List Choice → Store → Except Stop (Bool × Store)
  | retries, cs, s => do
    let toLSM := cfg.toLSM value.length
    let s ← s.newMain cfg key value.length
    let (length, s, cs) ← putRecord cfg key value value.length (cfg.home key value.length) cs s
    match length with
    | some length => .ok (length = value.length + if toLSM then 0 else lenSize, s)
    | none =>
      if toLSM then .ok (false, s)
      else match retries with
        | 0 => .error .assertion
        | retries + 1 => putLoop cfg key value retries cs s

def putValue (cfg : Config) (key value : Bytes) (cs : List Choice) (s : Store) : Except Stop (Bool × Store) :=
  if key.length ≠ keySize ∨ cfg.mainSegmentSize ≤ value.length then .ok (false, s)
  else putLoop cfg key value (cfg.retryMax + 1) cs s

/-- `none` when the key is not found. -/
def getValue (cfg : Config) (s : Store) (key : Bytes) : Except Stop (Option Bytes) :=
  if key.length ≠ keySize then .ok none
  else do
    match ← s.getValueFromBuffer key with
    | some value => .ok (some value)
    | none =>
      let loc ← s.getKey cfg key
      if (loc.segmentId = lsmSegment ∨ cfg.disableKvSeparation) ∧ loc.length ≠ invalid then .ok (some loc.value)
      else if loc.segmentId = invalid then .ok none
      else some <$> s.getValueFromDisk cfg key loc

/-- The retries of `KvServer::delValue`: one attempt and `retryMax` more. -/
def delLoop (cfg : Config) (key : Bytes) (segmentId : Nat) : Nat → List Choice → Store → Except Stop (Bool × Store)
  | retries, cs, s => do
    let (length, s, cs) ← putRecord cfg key [] invalid segmentId cs s
    match length with
    | some _ => .ok (true, s)
    | none => match retries with
      | 0 => .ok (false, s)
      | retries + 1 => delLoop cfg key segmentId retries cs s

/-- The tombstone first, then the key leaves the LSM tree. -/
def delValue (cfg : Config) (key : Bytes) (cs : List Choice) (s : Store) : Except Stop (Bool × Store) :=
  if key.length ≠ keySize then .ok (false, s)
  else do
    let loc ← s.getKey cfg key
    if loc.segmentId = invalid then .ok (false, s)
    else
      let (ret, s) ← delLoop cfg key loc.segmentId cfg.retryMax cs s
      .ok (ret, { s with lsm := Function.update s.lsm key none })

/-- `forceSync`: a flush that is not marked as one for user updates. -/
def flushBuffer (cfg : Config) (cs : List Choice) (s : Store) : Except Stop Store := do
  let (s, _, _) ← s.flushCentralizedReservedPool cfg false none cs
  .ok s

/-- `gcAll` is `gcGreedy` with as many groups as there are main segments. -/
def gc (cfg : Config) (all : Bool) (candidates : List (Nat × Order)) (s : Store) : Except Stop Store := do
  let (s, _) ← s.gcGreedy cfg (if all then cfg.numMainSegment else cfg.greedyGCSize) candidates none
  .ok s

/-! ### The flushes of a put -/

/-- The test for an update in place, of the pair at hand. -/
def placeFor (cfg : Config) (key value : Bytes) (s : Store) : Except Stop (Option Nat) :=
  inPlaceOffset cfg (s.pools .update).pool ((s.pools .update).keysInPool key) value.length

/-- The store to whose pool the record is written, and where. -/
inductive Ready (cfg : Config) (key value : Bytes) (s : Store) : Store → Option Nat → Prop
  | fits {inPlace : Option Nat} (hplace : s.placeFor cfg key value = .ok inPlace)
    (hfit : (s.pools .update).pool.canFit (recordSize value.length) ∨ inPlace.isSome) :
    Ready cfg key value s (s.unindex key) inPlace
  | flushed {s₁ : Store} {report : Option Nat} {cs cs' : List Choice} (hplace : s.placeFor cfg key value = .ok none)
    (hfit : ¬(s.pools .update).pool.canFit (recordSize value.length))
    (hflush : (s.unindex key).flushCentralizedReservedPool cfg true (some (cfg.home key value.length)) cs =
      .ok (s₁, report, cs')) : Ready cfg key value s s₁ none

/-- The stores on which a put of the pair calls `flushCentralizedReservedPool`. -/
inductive Flushes (cfg : Config) (key value : Bytes) : Store → Store → Prop
  /-- Before the record is written. -/
  | before {s s' : Store} (hnew : s.newMain cfg key value.length = .ok s')
    (hplace : s'.placeFor cfg key value = .ok none)
    (hfit : ¬(s'.pools .update).pool.canFit (recordSize value.length)) : Flushes cfg key value s (s'.unindex key)
  /-- After it. -/
  | after {s s' s₁ : Store} {inPlace : Option Nat} {p : Pool} (hnew : s.newMain cfg key value.length = .ok s')
    (hready : Ready cfg key value s' s₁ inPlace)
    (hgroup : cfg.toLSM value.length ∨ s₁.groups.segment (cfg.mainSegmentOf key) = some (cfg.mainSegmentOf key))
    (hwrite : writeUpdate key value value.length (cfg.home key value.length) (cfg.home key value.length) inPlace
      (s₁.pools .update) = .ok p)
    (hfull : ¬p.pool.canFit 1 ∨ cfg.updateKVBufferSize = 0) : Flushes cfg key value s (s₁.setPool .update p)
  /-- In another attempt. -/
  | retry {s s' s₁ s₂ : Store} {cs cs' : List Choice} (hnew : s.newMain cfg key value.length = .ok s')
    (hput : s'.putRecord cfg key value value.length (cfg.home key value.length) cs = .ok (none, s₁, cs'))
    (hlsm : ¬cfg.toLSM value.length) (h : Flushes cfg key value s₁ s₂) : Flushes cfg key value s s₂

/-- A put that runs out of log segments does so in one of its flushes. -/
def Stops (cfg : Config) (key value : Bytes) (s : Store) (e : Stop) : Prop :=
  e = .outOfLogSegments → ∃ s₁ report cs, s.Flushes cfg key value s₁ ∧
    s₁.flushCentralizedReservedPool cfg true report cs = .error e

/-- The rule for the attempts of a put: `I` holds before each, `Q` of the answer. -/
theorem wp_putLoop_of {cfg : Config} {key value : Bytes} {I : Store → Prop} {Q : Bool × Store → Prop} {E : Stop → Prop}
    {retries : Nat} {cs : List Choice} {s : Store} (hE : E .assertion)
    (hstep : ∀ s cs s', I s → s.newMain cfg key value.length = .ok s' →
      wp (putRecord cfg key value value.length (cfg.home key value.length) cs s')
        (fun x => match x.1 with
          | some length => Q (decide (length = value.length + if cfg.toLSM value.length then 0 else lenSize), x.2.1)
          | none => if cfg.toLSM value.length then Q (false, x.2.1) else I x.2.1) E)
    (h : I s) : wp (s.putLoop cfg key value retries cs) Q E := by
  induction retries using Nat.strongRecOn generalizing s cs with
  | ind retries ih =>
    unfold putLoop
    rw [wp_bind]
    rcases hnew : s.newMain cfg key value.length with e | s₁
    · unfold newMain SegmentGroupManager.getNewMainSegment at hnew
      split_ifs at hnew <;> cases hnew
      exact hE
    · refine wp_seq (hstep s cs s₁ h hnew) ?_
      rintro ⟨_ | length, s', cs'⟩ hx
      · change if cfg.toLSM value.length then Q (false, s') else I s' at hx
        refine wp_ite (fun hl => ?_) fun hl => ?_
        · rwa [if_pos hl] at hx
        · rw [if_neg hl] at hx
          cases retries with
          | zero => exact hE
          | succ n => exact ih n (Nat.lt_succ_self n) hx
      · exact hx

end Store

/-! ### Runs -/

inductive Event
  | put (key value : Bytes) (cs : List Choice)
  | del (key : Bytes) (cs : List Choice)
  | flush (cs : List Choice)
  | gc (all : Bool) (candidates : List (Nat × Order))

/-- What a call of the client does to the store, with its boolean result (`true` where there is none). -/
def Store.call (cfg : Config) (s : Store) : Event → Except Stop (Bool × Store)
  | .put key value cs => s.putValue cfg key value cs
  | .del key cs => s.delValue cfg key cs
  | .flush cs => (true, ·) <$> s.flushBuffer cfg cs
  | .gc all candidates => (true, ·) <$> s.gc cfg all candidates

/-- The store after a call that returns. -/
def Store.step (cfg : Config) (s : Store) (e : Event) : Option Store :=
  match s.call cfg e with
  | .ok (_, s) => some s
  | .error _ => none

end ValueSep.HashKV
