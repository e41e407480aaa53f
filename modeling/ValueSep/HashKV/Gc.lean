import Mathlib.Tactic.Ring
import ValueSep.HashKV.Flush

/-!
# Garbage collection of a group (`gcManager.cc`)

`gcOneGroup` reads the segments of a group, keeps the last record it meets of every key, frees the log segments and
writes the kept records back through the GC pool. The order in which it walks its hash map of keys is not determined
by the code, nor which groups the candidate heap gives: both are arguments here.
-/

namespace ValueSep.HashKV

open Coding (Bytes)

/-! ### Modes -/

namespace Config

variable (cfg : Config)

/-- `getGroupWriteBackRatio` of type 0 as valid and invalid bytes, `none` for `DBL_MAX`. -/
def writeBackRatioAll (flushFront : Nat) : Option (Nat × Nat) :=
  let invalidBytes := if cfg.mainSegmentSize < flushFront then flushFront - cfg.mainSegmentSize else 0
  if invalidBytes ≠ 0 ∧ 0 < cfg.mainSegmentSize then some (cfg.mainSegmentSize, invalidBytes) else none

/-- Of type 1: the log counts as invalid beyond half a main segment, rounded down to bytes. -/
def writeBackRatioLogOnly (flushFront : Nat) : Option (Nat × Nat) :=
  if flushFront ≠ invalid ∧ 3 * cfg.mainSegmentSize < 2 * flushFront then
    let validBytes := flushFront - cfg.mainSegmentSize
    let invalidBytes := (2 * flushFront - 3 * cfg.mainSegmentSize) / 2
    if invalidBytes ≠ 0 ∧ 0 < validBytes then some (validBytes, invalidBytes) else none
  else none

end Config

/-- `<=` of two ratios. -/
def ratioLe : Option (Nat × Nat) → Option (Nat × Nat) → Bool
  | _, none => true
  | none, some _ => false
  | some (a, b), some (c, d) => a * d ≤ c * b

namespace SegmentGroupManager

/-- `getGCMode`; the configured mode is always `LOG_ONLY`. -/
def getGCMode (cfg : Config) (m : SegmentGroupManager) (groupId : Nat) : GCMode :=
  let flushFront := m.getGroupFlushFront groupId
  if ratioLe (cfg.writeBackRatioAll flushFront) (cfg.writeBackRatioLogOnly flushFront) then .all else .logOnly

/-- The ratio of a full collection is never the larger one, so `LOG_ONLY` is never chosen: with `x` bytes of log,
`main / x ≤ x / (x - main / 2)`. -/
theorem getGCMode_eq_all (cfg : Config) (m : SegmentGroupManager) (g : Nat) : m.getGCMode cfg g = .all := by
  refine if_pos ?_
  generalize m.getGroupFlushFront g = front
  by_cases hlog : front ≠ invalid ∧ 3 * cfg.mainSegmentSize < 2 * front
  · have hmain := cfg.mainSegmentSize_pos
    have hall : cfg.writeBackRatioAll front = some (cfg.mainSegmentSize, front - cfg.mainSegmentSize) := by
      rw [Config.writeBackRatioAll, if_pos (show cfg.mainSegmentSize < front by omega)]
      exact if_pos ⟨by omega, hmain⟩
    obtain ⟨x, rfl⟩ := Nat.exists_eq_add_of_le (show cfg.mainSegmentSize ≤ front by omega)
    rw [hall, Config.writeBackRatioLogOnly, if_pos hlog, Nat.add_sub_cancel_left]
    by_cases hpos : (2 * (cfg.mainSegmentSize + x) - 3 * cfg.mainSegmentSize) / 2 ≠ 0 ∧ 0 < x
    · simp only [if_pos hpos, ratioLe, decide_eq_true_eq]
      have hle : 2 * ((2 * (cfg.mainSegmentSize + x) - 3 * cfg.mainSegmentSize) / 2) + cfg.mainSegmentSize ≤ 2 * x := by
        omega
      generalize (2 * (cfg.mainSegmentSize + x) - 3 * cfg.mainSegmentSize) / 2 = y at hle
      generalize cfg.mainSegmentSize = a at hle ⊢
      have hsq := Nat.mul_le_mul hle hle
      have hexp : (2 * y + a) * (2 * y + a) = 4 * (a * y) + (4 * (y * y) + a * a) := by ring
      have hexp' : 2 * x * (2 * x) = 4 * (x * x) := by ring
      omega
    · simp only [if_neg hpos, ratioLe]
  · rw [Config.writeBackRatioLogOnly, if_neg hlog]
    cases cfg.writeBackRatioAll front <;> rfl

/-- A group `gcGreedy` does not skip: one of its ratios is finite. -/
def isCandidate (cfg : Config) (m : SegmentGroupManager) (groupId : Nat) : Bool :=
  match m.group groupId with
  | none => false
  | some g => (cfg.writeBackRatioAll g.flushFront).isSome || (cfg.writeBackRatioLogOnly g.flushFront).isSome

end SegmentGroupManager

/-! ### Scanning -/

/-- An entry of `keyCount`: the key, its count, and the record it points at. -/
structure Entry where
  key : Bytes
  count : Int
  segment : Segment
  pos : Nat

/-- An order in which a hash map of keys is walked. -/
structure Order where
  apply : List Entry → List Entry
  perm : ∀ l, (apply l).Perm l

structure Scan where
  keyCount : List Entry
  validBytes : Nat

/-- `gcKvPair`: the record at `scanned`, and where the next one is looked for. A zero byte counts as padding. -/
def gcKvPair (segment : Segment) (scanned : Nat) (k : Scan) : Except Stop (Scan × Nat) := do
  let first ← segment.readData scanned 1
  if first = [0] then .ok (k, scanned + 1)
  else
    let valueSize ← segment.readLen (scanned + keySize)
    let key ← segment.readData scanned keySize
    let count : Int := 1 + ((k.keyCount.find? fun e => e.key = key).map Entry.count).getD 0
    let entry : Entry := {
      key, segment, pos := scanned
      count := if valueSize = invalid then -1 else if valueSize = 0 then count + tagMask else count }
    .ok ({
      keyCount := k.keyCount.filter (fun e => e.key ≠ key) ++ [entry]
      validBytes := k.validBytes +
        if valueSize = invalid then 0
        else if valueSize = 0 then keySize + lenSize
        else if count = 1 then keySize + lenSize + valueSize else 0 },
      scanned + keySize + (lenSize + if valueSize = invalid then 0 else valueSize))

/-- The loop of `gcSegment`; every step moves on, so `total` of them are enough. -/
def gcSegmentFrom (segment : Segment) (total : Nat) : Nat → Nat → Scan → Except Stop Scan
  | 0, _, k => .ok k
  | fuel + 1, scanned, k =>
    if scanned < total then do
      let (k, scanned) ← gcKvPair segment scanned k
      gcSegmentFrom segment total fuel scanned k
    else .ok k

def gcSegment (segment : Segment) (total : Nat) (k : Scan) : Except Stop Scan :=
  gcSegmentFrom segment total total 0 k

namespace Store

/-- A segment read from the device up to its flush front. -/
def loadSegment (cfg : Config) (s : Store) (c : Nat) : Except Stop Segment :=
  let front := s.groups.getSegmentFlushFront c
  let buf i := if i < front then s.disk (cfg.segmentOffset c + i) else cfg.uninit i
  (Segment.init c (cfg.segmentSize c) buf).setFlushFront front

/-- The record at `update` of the pool is copied into the buffer; all updates must fit. -/
def copyUpdate (pool buffer : Segment) (update : Nat) : Except Stop Segment := do
  let valueSize ← pool.readLen (update + keySize)
  if buffer.canFit (recordSize valueSize) then
    let buffer ← buffer.appendFrom pool update keySize
    let buffer ← buffer.appendData (encodeLen valueSize) lenSize
    if 0 < valueSize then buffer.appendFrom pool (update + keySize + lenSize) valueSize else .ok buffer
  else .error .assertion

/-- `prepareGCGroupInCentralizedPool`: the pooled updates of the group move to a buffer, behind the front of the
group's last segment. -/
def prepareGCGroup (cfg : Config) (groupId : Nat) (s : Store) : Except Stop (Store × Option Segment) :=
  let p := s.pools .update
  let updateTotal := ((p.groupsInPool.lookup groupId).getD []).sum
  if updateTotal = 0 then .ok (s, none)
  else do
    let front := cfg.getLastSegmentFront (s.groups.getGroupFlushFront groupId) % cfg.logSegmentSize
    let size := if cfg.logSegmentSize < front + updateTotal then front + updateTotal else cfg.mainSegmentSize
    let buffer ← (Segment.init groupId size cfg.uninit).setFlushFront front
    match p.segmentsInPool.lookup groupId with
    | none => .ok (s, some buffer)
    | some offsets => do
      let buffer ← offsets.foldlM (copyUpdate p.pool) buffer
      .ok (s.setPool .update (p.setOffsets groupId []), some buffer)

/-- The scan of the pooled updates, after the bytes in front of them were zeroed. -/
def scanBuffer (cfg : Config) (groupId : Nat) (logSegments : List Nat) (s : Store) (buffer : Segment) (k : Scan) :
    Except Stop Scan :=
  let front := cfg.getLastSegmentFront (s.groups.getGroupFlushFront groupId) % cfg.logSegmentSize
  if front ≤ (if logSegments = [] then cfg.mainSegmentSize else cfg.logSegmentSize) then
    gcSegment (buffer.clean (if logSegments = [] then 0 else front)) buffer.writeFront k
  else .error .assertion

/-- One kept record goes to the GC pool, which is flushed first if it is full. -/
def writeBack (cfg : Config) (groupId : Nat) (s : Store) (e : Entry) : Except Stop Store := do
  let valueSize ← e.segment.readLen (e.pos + keySize)
  let s ← if (s.pools .gc).pool.canFit (keySize + lenSize + valueSize) then .ok s else s.flushGCPool cfg
  let p := s.pools .gc
  let offset := p.pool.writeFront
  let pool ← p.pool.appendFrom e.segment e.pos keySize
  let pool ← pool.appendFrom e.segment (e.pos + keySize) lenSize
  if valueSize = 0 then .error .assertion
  else
    let pool ← pool.appendFrom e.segment (e.pos + keySize + lenSize) valueSize
    let p ← { p with pool }.insertKey offset
    .ok (s.setPool .gc (p.addUpdate groupId groupId offset (keySize + lenSize + valueSize)))

def gcOneGroup (cfg : Config) (groupId : Nat) (order : Order) (s : Store) : Except Stop Store := do
  match s.groups.group groupId with
  | none => .error .outOfBounds
  | some g =>
    let logSegments := g.segments.tail
    let mode := s.groups.getGCMode cfg groupId
    let (s, buffer) ← if mode = .all then s.prepareGCGroup cfg groupId else .ok (s, none)
    let segments ← ((if mode = .all then [groupId] else []) ++ logSegments).mapM (s.loadSegment cfg)
    let k ← segments.foldlM (fun k segment => gcSegment segment segment.flushFront k) ⟨[], 0⟩
    let k ← match buffer with
      | none => .ok k
      | some buffer => s.scanBuffer cfg groupId logSegments buffer k
    if mode = .logOnly ∧ logSegments.length * cfg.logSegmentSize < k.validBytes then .error .logOverflow
    else
      let groups ← s.groups.releaseGroupLogSegments cfg groupId
      let groups := if mode = .all then groups.setGroupFronts groupId 0 else groups
      let s ← (order.apply k.keyCount).foldlM (writeBack cfg groupId) { s with groups }
      if (s.pools .gc).pool.writeFront = 0 then .ok s
      else
        let s := if mode = .all then s.setPool .update ((s.pools .update).releaseGroup groupId) else s
        s.flushGCPool cfg

/-- The groups of a `gcGreedy`, one by one. `report` is what `reportGroupId` points at; it is set to `INVALID_GROUP` when
that group is collected. -/
def gcGroups (cfg : Config) (candidates : List (Nat × Order)) (report : Option Nat) (s : Store) :
    Except Stop (Store × Option Nat) :=
  candidates.foldlM (fun (s, report) (groupId, order) => do
    let s ← s.gcOneGroup cfg groupId order
    .ok (s, if report = some groupId then some invalid else report)) (s, report)

/-- `gcGreedy` on the groups the heap gives, at most `maxGC`. -/
def gcGreedy (cfg : Config) (maxGC : Nat) (candidates : List (Nat × Order)) (report : Option Nat) (s : Store) :
    Except Stop (Store × Option Nat) :=
  let ids := candidates.map Prod.fst
  if maxGC < ids.length ∨ ¬ids.Nodup ∨ ¬ids.all (s.groups.isCandidate cfg) then .error .unscheduled
  else if ids = [] then .error .assertion
  else s.gcGroups cfg candidates report

end Store

end ValueSep.HashKV
