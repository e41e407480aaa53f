import ValueSep.HashKV.BitMap
import ValueSep.HashKV.SegmentGroup

/-!
# Allocation of segments (`segmentGroupManager.cc`)

All that the allocating functions of `SegmentGroupManager` read and write: the bitmap, the two maps, the list and the
positions of each group, its lock, and the two counters of free segments, which are 64-bit words. With `asserts` false
the assertions of the functions are not checked; only an address outside the bitmap still stops a call. The byte counts
and heaps that `resetGroupByteCounts` and `addGroupMainSegmentBytes` maintain are not modelled.
-/

namespace ValueSep.HashKV

open Function

/-- `GroupMetaData` and the lock of the group. -/
structure GroupEntry where
  segments : List Nat
  position : Nat → Option Nat
  writeFront : Nat
  flushFront : Nat
  locked : Bool

/-- What `_metaMap.group[groupId]` creates. -/
def GroupEntry.empty : GroupEntry := ⟨[], fun _ => none, 0, 0, false⟩

structure SegmentTable where
  freeMainSegment : Nat
  freeLogSegment : Nat
  bitmap : BitMap
  segment : Nat → Option Nat
  segmentFront : Nat → Option Nat
  group : Nat → Option GroupEntry

/-- What the server's model of the class has of it. -/
def SegmentTable.manager (t : SegmentTable) : SegmentGroupManager where
  freeLogSegment := t.freeLogSegment
  bitmap := t.bitmap.getBit
  segment := t.segment
  segmentFront := t.segmentFront
  group g := (t.group g).map fun e => ⟨e.segments, e.writeFront, e.flushFront⟩

/-- The result of `getNewSegment` and the two ids it takes by reference. -/
structure Grant where
  done : Bool
  groupId : Nat
  segmentId : Nat
  deriving DecidableEq, Repr

def check (asserts condition : Bool) : Except Stop Unit :=
  if asserts && !condition then .error .assertion else .ok ()

/-- `++` and `--` of a `segment_id_t`. -/
def incr (n : Nat) : Nat := (n + 1) % 2 ^ 64

@[inherit_doc incr] def decr (n : Nat) : Nat := (n + (2 ^ 64 - 1)) % 2 ^ 64

namespace SegmentTable

def init (cfg : Config) : SegmentTable where
  freeMainSegment := cfg.numMainSegment
  freeLogSegment := cfg.numLogSegment
  bitmap := .new cfg.numSegment
  segment _ := none
  segmentFront _ := none
  group _ := none

/-- The counter of the area of `segmentId` is changed. -/
def count (cfg : Config) (f : Nat → Nat) (segmentId : Nat) (t : SegmentTable) : SegmentTable :=
  if cfg.isLogSegment segmentId then { t with freeLogSegment := f t.freeLogSegment }
  else { t with freeMainSegment := f t.freeMainSegment }

def setGroup (groupId : Nat) (e : GroupEntry) (t : SegmentTable) : SegmentTable :=
  { t with group := update t.group groupId (some e) }

/-- A main segment is a group of its own. -/
def createGroup (asserts : Bool) (groupId : Nat) (t : SegmentTable) : Except Stop SegmentTable := do
  check asserts (t.group groupId).isNone
  .ok (t.setGroup groupId .empty)

/-- The end of a round of `getNewSegment`, with a segment in hand. -/
def join (asserts needsLock : Bool) (groupId segmentId : Nat) (t : SegmentTable) : Except Stop SegmentTable :=
  match t.group groupId with
  | none => .error .outOfRange
  | some e => do
    check asserts (!needsLock || !e.locked)
    check asserts (e.position segmentId).isNone
    .ok { t.setGroup groupId { e with
        position := update e.position segmentId (some e.segments.length)
        segments := e.segments ++ [segmentId]
        locked := e.locked || needsLock } with
      segment := update t.segment segmentId (some groupId) }

/-- The segment a round tries, now with its bit set, or `INVALID_SEGMENT`. -/
def pick (cfg : Config) (isLog fixed : Bool) (segmentId : Nat) (bitmap : BitMap) : Except Stop (Nat × BitMap) :=
  if fixed then do
    let bitmap ← bitmap.setBit segmentId
    .ok (segmentId, bitmap)
  else do
    let (found, bitmap) ← bitmap.getFirstZeroAndFlip (if isLog then cfg.numMainSegment else 0)
    .ok (found.getD invalid, bitmap)

/-- One round of the loop in `getNewSegment`: the group, the segment or `INVALID_SEGMENT`, and the table. -/
def round (cfg : Config) (asserts isLog needsLock fixed : Bool) (groupId segmentId : Nat) (t : SegmentTable) :
    Except Stop (Nat × Nat × SegmentTable) := do
  let (segmentId, bitmap) ← pick cfg isLog fixed segmentId t.bitmap
  if isLog != cfg.isLogSegment segmentId then
    -- not in the area asked for
    if segmentId = invalid then .ok (groupId, invalid, { t with bitmap })
    else do
      let bitmap ← bitmap.clearBit segmentId
      .ok (groupId, invalid, { t with bitmap })
  else if segmentId = invalid then .ok (groupId, invalid, { t with bitmap })
  else if isLog then do
    let t ← ({ t with bitmap }.count cfg decr segmentId).join asserts needsLock groupId segmentId
    .ok (groupId, segmentId, t)
  else do
    let t ← { t with bitmap }.createGroup asserts segmentId
    let t ← (t.count cfg decr segmentId).join asserts needsLock segmentId segmentId
    .ok (segmentId, segmentId, t)

/-- The loop, with this many rounds left after the first. A fixed segment is tried once. -/
def rounds (cfg : Config) (asserts isLog needsLock fixed : Bool) :
    Nat → Nat → Nat → SegmentTable → Except Stop (Nat × Nat × SegmentTable)
  | 0, groupId, segmentId, t => t.round cfg asserts isLog needsLock fixed groupId segmentId
  | n + 1, groupId, segmentId, t => do
    let (groupId, segmentId, t) ← t.round cfg asserts isLog needsLock fixed groupId segmentId
    if segmentId = invalid ∧ !fixed then rounds cfg asserts isLog needsLock fixed n groupId segmentId t
    else .ok (groupId, segmentId, t)

def getNewSegment (cfg : Config) (asserts isLog needsLock : Bool) (groupId segmentId : Nat) (t : SegmentTable) :
    Except Stop (Grant × SegmentTable) :=
  let fixed : Bool := segmentId ≠ invalid
  if fixed ∧ (t.segment segmentId).isSome then .ok (⟨false, groupId, segmentId⟩, t)
  else if isLog ∧ groupId = invalid then .ok (⟨false, groupId, segmentId⟩, t)
  else do
    let (groupId, segmentId, t) ← t.rounds cfg asserts isLog needsLock fixed (cfg.retryMax - 1) groupId segmentId
    let done : Bool := segmentId ≠ invalid ∧ groupId ≠ invalid
    check (asserts && !fixed) done
    .ok (⟨done, groupId, segmentId⟩, t)

def getNewMainSegment (cfg : Config) (asserts needsLock : Bool) (groupId segmentId : Nat) (t : SegmentTable) :
    Except Stop (Grant × SegmentTable) :=
  t.getNewSegment cfg asserts false needsLock groupId segmentId

def getNewLogSegment (cfg : Config) (asserts needsLock : Bool) (groupId segmentId : Nat) (t : SegmentTable) :
    Except Stop (Grant × SegmentTable) :=
  t.getNewSegment cfg asserts true needsLock groupId segmentId

/-- With `releaseLock`, as `releaseGroupLogSegments` calls it. -/
def freeSegment (cfg : Config) (segmentId : Nat) (t : SegmentTable) : Except Stop SegmentTable :=
  if segmentId = invalid ∨ (t.segment segmentId).isNone then .ok t
  else do
    let bitmap ← t.bitmap.clearBit segmentId
    .ok ({ t with
      bitmap
      segment := update t.segment segmentId none
      segmentFront := update t.segmentFront segmentId none }.count cfg incr segmentId)

/-- `accessGroupLock`: a group that does not exist, or is so already, is left alone. -/
def accessGroupLock (groupId : Nat) (isLock : Bool) (t : SegmentTable) : SegmentTable :=
  match t.group groupId with
  | none => t
  | some e => if e.locked = isLock then t else t.setGroup groupId { e with locked := isLock }

/-- The body of the loop of `releaseGroupLogSegments`. -/
def releaseLast (cfg : Config) (groupId : Nat) (t : SegmentTable) : Except Stop SegmentTable :=
  match t.group groupId with
  | none => .error .outOfRange
  | some e =>
    match e.segments.getLast? with
    | none => .error .outOfBounds
    | some segmentId => do
      let e := { e with position := update e.position segmentId none }
      let t ← (t.setGroup groupId e).freeSegment cfg segmentId
      .ok (t.setGroup groupId { e with segments := e.segments.dropLast })

def releaseLogs (cfg : Config) (groupId : Nat) : Nat → SegmentTable → Except Stop SegmentTable
  | 0, t => .ok t
  | n + 1, t => do
    let t ← t.releaseLast cfg groupId
    releaseLogs cfg groupId n t

/-- The loop runs until one segment is left. -/
def releaseGroupLogSegments (cfg : Config) (needsLock : Bool) (groupId : Nat) (t : SegmentTable) :
    Except Stop SegmentTable := do
  let t := if needsLock then t.accessGroupLock groupId true else t
  let t ← t.releaseLogs cfg groupId (((t.group groupId).map fun e => e.segments.length).getD 0 - 1)
  match t.group groupId with
  | none => .error .outOfRange
  | some e => .ok (t.setGroup groupId { e with writeFront := cfg.mainSegmentSize, flushFront := cfg.mainSegmentSize })

/-- The first loop of `setGroupSegments`. -/
def vacate (cfg : Config) (groupId segmentId : Nat) (t : SegmentTable) : Except Stop SegmentTable :=
  match t.group groupId with
  | none => .error .outOfRange
  | some e => do
    let bitmap ← t.bitmap.clearBit segmentId
    .ok (({ t with bitmap, segment := update t.segment segmentId none }.count cfg incr segmentId).setGroup
      groupId { e with position := update e.position segmentId none })

/-- The second loop of `setGroupSegments`. -/
def occupy (cfg : Config) (groupId : Nat) (segmentId idx : Nat) (t : SegmentTable) : Except Stop SegmentTable :=
  match t.group groupId with
  | none => .error .outOfRange
  | some e => do
    let bitmap ← t.bitmap.setBit segmentId
    .ok (({ t with bitmap, segment := update t.segment segmentId (some groupId) }.count cfg decr
      segmentId).setGroup groupId { e with position := update e.position segmentId (some idx) })

/-- The segments given are neither compared with each other nor with what other groups have. -/
def setGroupSegments (cfg : Config) (groupId : Nat) (segments : List Nat) (t : SegmentTable) :
    Except Stop SegmentTable := do
  let e := (t.group groupId).getD .empty
  let t ← e.segments.foldlM (fun t c => t.vacate cfg groupId c) (t.setGroup groupId e)
  let t ← segments.zipIdx.foldlM (fun t (c, idx) => t.occupy cfg groupId c idx) t
  match t.group groupId with
  | none => .error .outOfRange
  | some e => .ok (t.setGroup groupId { e with segments := segments })

end SegmentTable

/-- The calls that allocate and release segments. -/
inductive TableOp
  | getNewMainSegment (needsLock : Bool) (groupId segmentId : Nat)
  | getNewLogSegment (needsLock : Bool) (groupId segmentId : Nat)
  | releaseGroupLogSegments (needsLock : Bool) (groupId : Nat)
  | setGroupSegments (groupId : Nat) (segments : List Nat)
  | releaseGroupLock (groupId : Nat)

def SegmentTable.apply (cfg : Config) (asserts : Bool) (t : SegmentTable) : TableOp → Except Stop SegmentTable
  | .getNewMainSegment needsLock groupId segmentId =>
    (t.getNewMainSegment cfg asserts needsLock groupId segmentId).map Prod.snd
  | .getNewLogSegment needsLock groupId segmentId =>
    (t.getNewLogSegment cfg asserts needsLock groupId segmentId).map Prod.snd
  | .releaseGroupLogSegments needsLock groupId => t.releaseGroupLogSegments cfg needsLock groupId
  | .setGroupSegments groupId segments => t.setGroupSegments cfg groupId segments
  | .releaseGroupLock groupId => .ok (t.accessGroupLock groupId false)

def SegmentTable.step (cfg : Config) (asserts : Bool) (t : SegmentTable) (op : TableOp) : Option SegmentTable :=
  (t.apply cfg asserts op).toOption

namespace TableOp

/-- `setGroupSegments` is given segments that are free or the group's own. -/
def Owns (t : SegmentTable) : TableOp → Prop
  | .setGroupSegments groupId segments => ∀ c ∈ segments, t.segment c = none ∨ t.segment c = some groupId
  | _ => True

/-- It is given the list of a group: its main segment first, and no segment twice. -/
def IsGroup (cfg : Config) : TableOp → Prop
  | .setGroupSegments groupId segments =>
    segments.Nodup ∧ segments.head? = some groupId ∧ groupId < cfg.numMainSegment
  | _ => True

instance (t : SegmentTable) : (op : TableOp) → Decidable (op.Owns t)
  | .setGroupSegments groupId segments =>
    inferInstanceAs (Decidable (∀ c ∈ segments, t.segment c = none ∨ t.segment c = some groupId))
  | .getNewMainSegment .. | .getNewLogSegment .. | .releaseGroupLogSegments .. | .releaseGroupLock .. =>
    inferInstanceAs (Decidable True)

instance (cfg : Config) : (op : TableOp) → Decidable (op.IsGroup cfg)
  | .setGroupSegments groupId segments =>
    inferInstanceAs (Decidable (segments.Nodup ∧ segments.head? = some groupId ∧ groupId < cfg.numMainSegment))
  | .getNewMainSegment .. | .getNewLogSegment .. | .releaseGroupLogSegments .. | .releaseGroupLock .. =>
    inferInstanceAs (Decidable True)

end TableOp

end ValueSep.HashKV
