import ValueSep.HashKV.Store

/-!
# Flushing a pool (`ValueManager::flushCentralizedReservedPool`)

The local variables of the function are a record; the loop over the updates of a group, the write buffer and the end
of the call are separate definitions. The loop over the groups is in `Server`, since between two groups of the update
pool the flush may call GC, and GC flushes its own pool with the definitions here.
-/

namespace ValueSep.HashKV

open Coding (Bytes)

/-- The locals of a flush. `segment` collects records for one write, `logSegments` and `flushFront` belong to the
group at hand. -/
structure Flush where
  store : Store
  batch : List (Bytes × ValueLocation)
  segment : Segment
  inSegmentOffset : Nat
  modifiedGroups : List Nat
  modifiedSegments : List Nat
  logSegments : List Nat
  flushFront : Nat

namespace Flush

def start (s : Store) : Flush := ⟨s, [], .none, 0, [], [], [], invalid⟩

/-- `FLUSH_SEGMENT_BUFFER`. -/
def flushSegmentBuffer (cfg : Config) (threshold : Nat) (f : Flush) : Flush :=
  if threshold < f.segment.writeFront - f.segment.flushFront then
    let data := Memory.read f.segment.buf f.segment.flushFront (f.segment.writeFront - f.segment.flushFront)
    let addr := cfg.segmentOffset f.segment.id + (f.segment.flushFront + f.inSegmentOffset)
    { f with store := { f.store with disk := Memory.write f.store.disk addr data }, segment := .none }
  else f

/-- The record at `update` goes to offset `front` of segment `c`: alone if its value is large, otherwise through the
write buffer. -/
def writeRecord (cfg : Config) (i : PoolIndex) (c front update valueSize : Nat) (f : Flush) : Except Stop Flush :=
  let pool := (f.store.pools i).pool
  if cfg.batchWriteThreshold < valueSize then do
    let f := f.flushSegmentBuffer cfg 0
    let data ← pool.readData update (recordSize valueSize)
    .ok { f with store := { f.store with disk := Memory.write f.store.disk (cfg.segmentOffset c + front) data } }
  else do
    let f := if f.segment.id ≠ c ∨ !f.segment.canFit (recordSize valueSize) then f.flushSegmentBuffer cfg 0 else f
    let f ← if f.segment.id = invalid then
        if cfg.batchWriteThreshold = 0 then .error .assertion
        else .ok { f with segment := .init c (cfg.batchWriteThreshold * 2) cfg.uninit, inSegmentOffset := front }
      else .ok f
    let segment ← f.segment.appendFrom pool update (recordSize valueSize)
    .ok ({ f with segment }.flushSegmentBuffer cfg (cfg.batchWriteThreshold - 1))

def beginGroup (groupId : Nat) (f : Flush) : Flush :=
  { f with
    modifiedGroups := if groupId = lsmSegment then f.modifiedGroups else f.modifiedGroups.insert groupId
    logSegments := f.store.groups.getGroupLogSegments groupId
    flushFront := f.store.groups.getGroupFlushFront groupId }

/-- The location joins the batch for the LSM tree, the offset leaves the pool. -/
def push (i : PoolIndex) (groupId update : Nat) (key : Bytes) (loc : ValueLocation) (f : Flush) : Flush :=
  let p := f.store.pools i
  { f with
    batch := f.batch ++ [(key, loc)]
    store := f.store.setPool i (p.setOffsets groupId (((p.segmentsInPool.lookup groupId).getD []).erase update)) }

def cursor (f : Flush) : GroupCursor := ⟨f.store.groups, f.logSegments, f.flushFront⟩

def setCursor (cur : GroupCursor) (f : Flush) : Flush :=
  { f with store := { f.store with groups := cur.groups }, logSegments := cur.logSegments, flushFront := cur.flushFront }

/-- One update: a whole pair for the LSM tree, or a record for the group's segments. -/
def placeUpdate (cfg : Config) (i : PoolIndex) (groupId update valueSize : Nat) (f : Flush) : Except Stop Flush := do
  let pool := (f.store.pools i).pool
  let key ← pool.readData update keySize
  if groupId = lsmSegment then
    let value ← pool.readData (update + keySize + lenSize) valueSize
    .ok (f.push i groupId update key (.inline value))
  else
    let (c, front, cur) ← f.cursor.place cfg groupId (recordSize valueSize)
    let f ← (f.setCursor cur).writeRecord cfg i c front update valueSize
    .ok ({ f with modifiedSegments := f.modifiedSegments.insert c }.push i groupId update key (.stored c front valueSize))

/-- The loop over the updates of a group. It breaks off, with the size of the record at hand, where the update pool
runs out of reserved space; the GC pool never does. -/
def updates (cfg : Config) (i : PoolIndex) (groupId : Nat) : List Nat → Flush → Except Stop (Flush × Option Nat)
  | [], f => .ok (f, none)
  | update :: rest, f => do
    let valueSize ← (f.store.pools i).pool.readLen (update + keySize)
    if valueSize = invalid ∨ valueSize = 0 then .error .assertion
    else if i = .update ∧ cfg.outOfReservedSpaceForObject f.store.groups f.flushFront (recordSize valueSize) then
      .ok (f, some (recordSize valueSize))
    else do
      let f ← f.placeUpdate cfg i groupId update valueSize
      updates cfg i groupId rest f

def group (cfg : Config) (i : PoolIndex) (groupId : Nat) (f : Flush) : Except Stop (Flush × Option Nat) :=
  let f := f.beginGroup groupId
  match (f.store.pools i).segmentsInPool.lookup groupId with
  | none => .error .outOfRange
  | some offsets => f.updates cfg i groupId offsets

/-- After the updates of a group: write what is buffered, publish the fronts, drop the group if it is done. -/
def endGroup (cfg : Config) (i : PoolIndex) (groupId : Nat) (f : Flush) : Flush :=
  let f := f.flushSegmentBuffer cfg 0
  let s := { f.store with groups := f.store.groups.setGroupFronts groupId f.flushFront }
  { f with store := s.setPool i ((s.pools i).dropIfEmpty groupId) }

/-- Before GC: everything placed so far goes to the device and to the LSM tree, the fronts are published. -/
def suspend (cfg : Config) (groupId : Nat) (f : Flush) : Flush :=
  let f := f.flushSegmentBuffer cfg 0
  { f with
    batch := []
    store := { f.store with
      lsm := Store.writeKeyBatch cfg f.batch f.store.lsm
      groups := f.store.groups.setGroupFronts groupId f.flushFront } }

/-- The end of the call: locations and metadata to the LSM tree, the pool is empty again. -/
def finish (cfg : Config) (i : PoolIndex) (f : Flush) : Except Stop Store :=
  let p := f.store.pools i
  if p.groupsInPool.entries.isEmpty ∧ p.segmentsInPool.entries.isEmpty then
    let lsm := Store.logMetaPersist f.store.groups f.modifiedSegments f.modifiedGroups
      (Store.writeKeyBatch cfg f.batch f.store.lsm)
    .ok ({ f.store with lsm }.setPool i { p with keysInPool := fun _ => none, pool := p.pool.resetFronts })
  else .error .assertion

end Flush

/-- The flush of the GC pool, which holds records of one group and never runs out of reserved space. -/
def Store.flushGCPool (cfg : Config) (s : Store) : Except Stop Store := do
  let f ← (s.pools .gc).groupsInPool.keys.foldlM (fun f groupId => do
    let (f, _) ← f.group cfg .gc groupId
    .ok (f.endGroup cfg .gc groupId)) (Flush.start s)
  f.finish cfg .gc

end ValueSep.HashKV
