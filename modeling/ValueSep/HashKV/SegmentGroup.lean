import Mathlib.Logic.Function.Basic
import ValueSep.HashKV.Basic

/-!
# Segments and groups (`segmentGroupManager.cc`)

A group is a main segment, fixed by the hash of its keys, and the log segments it was given since its last GC. Group
locks are not modelled (one client thread), nor is what only the statistics read.
-/

namespace ValueSep.HashKV

open Function

structure GroupMetaData where
  segments : List Nat
  writeFront : Nat
  flushFront : Nat
  deriving DecidableEq, Repr

structure SegmentGroupManager where
  freeLogSegment : Nat
  bitmap : Nat → Bool
  /-- The group of an allocated segment. -/
  segment : Nat → Option Nat
  segmentFront : Nat → Option Nat
  group : Nat → Option GroupMetaData

namespace SegmentGroupManager

def init (cfg : Config) : SegmentGroupManager where
  freeLogSegment := cfg.numLogSegment
  bitmap _ := false
  segment _ := none
  segmentFront _ := none
  group _ := none

/-- `BitMap::getFirstZeroSince`. -/
def getFirstZeroSince (m : SegmentGroupManager) (size addr : Nat) : Option Nat :=
  (List.range' addr (size - addr)).find? fun c => !m.bitmap c

/-- `getNewMainSegment` with a fixed id: creates the group unless the segment is in use. -/
def getNewMainSegment (cfg : Config) (segmentId : Nat) (m : SegmentGroupManager) : Except Stop SegmentGroupManager :=
  if (m.segment segmentId).isSome then .ok m
  else if cfg.isLogSegment segmentId then .ok { m with bitmap := update m.bitmap segmentId false }
  else if (m.group segmentId).isSome then .error .assertion
  else .ok { m with
    bitmap := update m.bitmap segmentId true
    segment := update m.segment segmentId (some segmentId)
    group := update m.group segmentId (some ⟨[segmentId], 0, 0⟩) }

/-- `getNewLogSegment`. Without a free segment the call ends in the "Out of log segments" exit of the flush (or in
the assertion just before it). -/
def getNewLogSegment (cfg : Config) (groupId : Nat) (m : SegmentGroupManager) :
    Except Stop (Nat × SegmentGroupManager) :=
  match m.getFirstZeroSince cfg.numSegment cfg.numMainSegment with
  | none => .error .outOfLogSegments
  | some c =>
    match m.group groupId with
    | none => .error .outOfRange
    | some g =>
      if c ∈ g.segments then .error .assertion
      else .ok (c, { m with
        freeLogSegment := m.freeLogSegment - 1
        bitmap := update m.bitmap c true
        segment := update m.segment c (some groupId)
        group := update m.group groupId (some { g with segments := g.segments ++ [c] }) })

def freeSegment (cfg : Config) (m : SegmentGroupManager) (c : Nat) : SegmentGroupManager :=
  if (m.segment c).isNone then m
  else { m with
    freeLogSegment := if cfg.isLogSegment c then m.freeLogSegment + 1 else m.freeLogSegment
    bitmap := update m.bitmap c false
    segment := update m.segment c none
    segmentFront := update m.segmentFront c none }

/-- The fronts are left at the end of the main segment. -/
def releaseGroupLogSegments (cfg : Config) (groupId : Nat) (m : SegmentGroupManager) :
    Except Stop SegmentGroupManager :=
  match m.group groupId with
  | none => .error .outOfRange
  | some g =>
    let m := g.segments.tail.reverse.foldl (freeSegment cfg) m
    let g := ⟨g.segments.take 1, cfg.mainSegmentSize, cfg.mainSegmentSize⟩
    .ok { m with group := update m.group groupId (some g) }

/-- A front beyond the segment is not recorded. -/
def setSegmentFlushFront (cfg : Config) (c front : Nat) (m : SegmentGroupManager) : SegmentGroupManager :=
  if cfg.segmentSize c < front then m else { m with segmentFront := update m.segmentFront c (some front) }

def getSegmentFlushFront (m : SegmentGroupManager) (c : Nat) : Nat := (m.segmentFront c).getD invalid

def getGroupFlushFront (m : SegmentGroupManager) (groupId : Nat) : Nat :=
  ((m.group groupId).map GroupMetaData.flushFront).getD invalid

/-- `getGroupLogSegments`: all but the main segment. -/
def getGroupLogSegments (m : SegmentGroupManager) (groupId : Nat) : List Nat :=
  ((m.group groupId).map fun g => g.segments.tail).getD []

/-- `setGroupFlushFront` and `setGroupWriteFront`, which are always called together. -/
def setGroupFronts (groupId front : Nat) (m : SegmentGroupManager) : SegmentGroupManager :=
  match m.group groupId with
  | none => m
  | some g => { m with group := update m.group groupId (some { g with writeFront := front, flushFront := front }) }

end SegmentGroupManager

namespace Config

variable (cfg : Config)

/-- `ValueManager::getLastSegmentFront`. -/
def getLastSegmentFront (flushFront : Nat) : Nat :=
  if flushFront ≤ cfg.mainSegmentSize then flushFront % cfg.mainSegmentSize
  else
    let front := (flushFront - cfg.mainSegmentSize) % cfg.logSegmentSize
    if front = 0 then cfg.logSegmentSize else front

/-- `ValueManager::outOfReservedSpaceForObject`, with one pipelined buffer. -/
def outOfReservedSpaceForObject (m : SegmentGroupManager) (flushFront objectSize : Nat) : Bool :=
  if flushFront < cfg.mainSegmentSize ∧ flushFront + objectSize ≤ cfg.mainSegmentSize then false
  else m.freeLogSegment ≤ minFreeSegments

end Config

/-- Where the flush puts a record. -/
inductive Slot
  | main
  | last
  | fresh
  deriving DecidableEq, Repr

/-- The choice of `flushCentralizedReservedPool` for a record of `size` bytes: the main segment while it is not
sealed, then the last log segment, then a new one. -/
def Config.slot (cfg : Config) (logSegments : List Nat) (flushFront size : Nat) : Slot :=
  let front := cfg.getLastSegmentFront flushFront
  if logSegments = [] ∧ flushFront < cfg.mainSegmentSize ∧ size + flushFront ≤ cfg.mainSegmentSize then .main
  else if cfg.mainSegmentSize ≤ flushFront ∧ front % cfg.logSegmentSize ≠ 0 ∧ size + front ≤ cfg.logSegmentSize then .last
  else .fresh

/-- What the flush knows about the group it works on. -/
structure GroupCursor where
  groups : SegmentGroupManager
  logSegments : List Nat
  flushFront : Nat

/-- One record of `size` bytes is given its segment and offset; the fronts move past it. -/
def GroupCursor.place (cfg : Config) (groupId size : Nat) (c : GroupCursor) :
    Except Stop (Nat × Nat × GroupCursor) :=
  let front := cfg.getLastSegmentFront c.flushFront
  match cfg.slot c.logSegments c.flushFront size with
  | .main => .ok (groupId, front, { c with
      groups := c.groups.setSegmentFlushFront cfg groupId (front + size), flushFront := c.flushFront + size })
  | .last =>
    match c.logSegments.getLast? with
    | none => .error .outOfBounds
    | some id => .ok (id, front, { c with
        groups := c.groups.setSegmentFlushFront cfg id (front + size), flushFront := c.flushFront + size })
  | .fresh => do
    -- the rest of the last segment stays empty
    let aligned := if c.flushFront ≤ cfg.mainSegmentSize then cfg.mainSegmentSize
      else c.flushFront + (cfg.logSegmentSize - front)
    let (id, groups) ← c.groups.getNewLogSegment cfg groupId
    .ok (id, 0, {
      groups := groups.setSegmentFlushFront cfg id size
      logSegments := c.logSegments ++ [id]
      flushFront := aligned + size })

end ValueSep.HashKV
