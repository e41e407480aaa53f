import Mathlib.Data.List.AList
import Mathlib.Data.List.Sort
import ValueSep.HashKV.Segment
import ValueSep.HashKV.SegmentGroup
import ValueSep.HashKV.ValueLocation

/-!
# The store: pools, segments on the device, LSM tree

A pool (`_centralizedReservedPool[i]`) is a segment of records with three maps over it. `keysInPool` is keyed by the
bytes its pointers point at. The device is one disk, so a segment is a range of its bytes; LevelDB is a map from byte
strings to byte strings, shared by the locations of the keys and the metadata of segments and groups.
-/

namespace ValueSep.HashKV

open Coding (Bytes)

structure Pool where
  pool : Segment
  keysInPool : Bytes → Option Nat
  /-- Offsets of the records not yet flushed, by main segment. -/
  segmentsInPool : AList fun _ : Nat => List Nat
  /-- Record sizes, by group. -/
  groupsInPool : AList fun _ : Nat => List Nat

namespace Pool

def init (size : Nat) : Pool where
  pool := Segment.init invalid size fun _ => 0
  keysInPool _ := none
  segmentsInPool := ∅
  groupsInPool := ∅

/-- `std::set::insert`. -/
def insertOffset (offset : Nat) (offsets : List Nat) : List Nat :=
  if offset ∈ offsets then offsets else offsets.orderedInsert (· ≤ ·) offset

/-- The maps after a record was appended: its offset under its main segment, its size under its group. -/
def addUpdate (segmentId groupId offset size : Nat) (p : Pool) : Pool :=
  { p with
    segmentsInPool := p.segmentsInPool.insert segmentId
      (insertOffset offset ((p.segmentsInPool.lookup segmentId).getD []))
    groupsInPool := p.groupsInPool.insert groupId (size :: (p.groupsInPool.lookup groupId).getD []) }

/-- `keysInPool.insert`: a key that is there keeps its offset. The key is what lies at the offset. -/
def insertKey (offset : Nat) (p : Pool) : Except Stop Pool := do
  let key ← p.pool.readData offset keySize
  .ok { p with keysInPool := if (p.keysInPool key).isSome then p.keysInPool
    else Function.update p.keysInPool key (some offset) }

/-- The entries of a group that has nothing left to flush disappear. -/
def dropIfEmpty (groupId : Nat) (p : Pool) : Pool :=
  if ((p.segmentsInPool.lookup groupId).getD []).isEmpty then
    { p with segmentsInPool := p.segmentsInPool.erase groupId, groupsInPool := p.groupsInPool.erase groupId }
  else p

/-- `releaseGroupReservedBufferCP` for GC. -/
def releaseGroup (groupId : Nat) (p : Pool) : Pool :=
  { p with
    segmentsInPool := if ((p.segmentsInPool.lookup groupId).getD []).isEmpty then p.segmentsInPool.erase groupId
      else p.segmentsInPool
    groupsInPool := p.groupsInPool.erase groupId }

def setOffsets (segmentId : Nat) (offsets : List Nat) (p : Pool) : Pool :=
  { p with segmentsInPool := p.segmentsInPool.insert segmentId offsets }

end Pool

/-- The pool for updates and the one GC writes back through (`numPipelinedBuffer`). -/
inductive PoolIndex
  | update
  | gc
  deriving DecidableEq, Repr

structure Store where
  pools : PoolIndex → Pool
  groups : SegmentGroupManager
  disk : Nat → UInt8
  lsm : Bytes → Option Bytes

namespace Store

def init (cfg : Config) (disk : Nat → UInt8) : Store where
  pools
    | .update => Pool.init cfg.poolSize
    | .gc => Pool.init (cfg.mainSegmentSize * 2)
  groups := .init cfg
  disk := disk
  lsm _ := none

def setPool (s : Store) (i : PoolIndex) (p : Pool) : Store := { s with pools := Function.update s.pools i p }

/-- `LevelDBKeyManager::getKey`. -/
def getKey (cfg : Config) (s : Store) (key : Bytes) : Except Stop ValueLocation :=
  match s.lsm key with
  | none => .ok {}
  | some v => ValueLocation.deserialize cfg v

/-- `writeKeyBatch`: a later entry overwrites an earlier one of the same key. -/
def writeKeyBatch (cfg : Config) (batch : List (Bytes × ValueLocation)) (lsm : Bytes → Option Bytes) :
    Bytes → Option Bytes :=
  batch.foldl (fun lsm (key, loc) => Function.update lsm key (some (loc.serialize cfg))) lsm

/-! ### Metadata of segments and groups -/

def ascii (c : Char) : UInt8 := UInt8.ofNat c.toNat

/-- `to_string`. -/
def decimal (n : Nat) : Bytes := (Nat.toDigits 10 n).map ascii

/-- `getSegmentKey`: `HA5HKV_c` and the id. -/
def segmentKey (c : Nat) : Bytes := ['H', 'A', '5', 'H', 'K', 'V', '_', 'c'].map ascii ++ decimal c

/-- `getGroupKey`. -/
def groupKey (g : Nat) : Bytes := ['H', 'A', '5', 'H', 'K', 'V', '_', 'g'].map ascii ++ decimal g

/-- `generateGroupValue`. -/
def groupValue (front : Nat) (segments : List Nat) : Bytes :=
  decimal front ++ segments.flatMap fun c => ascii ';' :: decimal c

def writeSegmentMeta (m : SegmentGroupManager) (lsm : Bytes → Option Bytes) (c : Nat) : Bytes → Option Bytes :=
  Function.update lsm (segmentKey c) (some (decimal (m.getSegmentFlushFront c)))

def writeGroupMeta (m : SegmentGroupManager) (lsm : Bytes → Option Bytes) (g : Nat) : Bytes → Option Bytes :=
  Function.update lsm (groupKey g) (some (groupValue (((m.group g).map GroupMetaData.writeFront).getD invalid)
    (((m.group g).map GroupMetaData.segments).getD [])))

/-- `logMetaPersist`. -/
def logMetaPersist (m : SegmentGroupManager) (segments groups : List Nat) (lsm : Bytes → Option Bytes) :
    Bytes → Option Bytes :=
  groups.foldl (writeGroupMeta m) (segments.foldl (writeSegmentMeta m) lsm)

end Store

end ValueSep.HashKV
