import ValueSep.Lib.Coding
import ValueSep.Lib.Memory
import ValueSep.Lib.Wp

/-!
# HashKV: constants, configuration and outcomes

The C++ code runs with assertions on, as its CMake build does by default. A call that does not return is an
`Except.error`: an assertion or a call of `exit`, an access outside a buffer, a `std::out_of_range`. Hash-group mode
with one pipelined buffer: no vLog, no cold storage, no crash-consistency log, segments read into memory for GC.
-/

namespace ValueSep.HashKV

open Coding (Bytes putFixed getFixed)

/-- `KEY_SIZE`. -/
def keySize : Nat := 16

/-- `sizeof(len_t)`. -/
def lenSize : Nat := 8

/-- `INVALID_SEGMENT`, `INVALID_GROUP`, `INVALID_LEN` and `INVALID_OFFSET`: -1 in an unsigned 64-bit word. -/
def invalid : Nat := 2 ^ 64 - 1

/-- `LSM_SEGMENT` and `LSM_GROUP`. -/
def lsmSegment : Nat := 2 ^ 64 - 2

/-- `LSM_MASK`. -/
def lsmMask : Nat := 2 ^ 31

/-- `MIN_FREE_SEGMENTS`. -/
def minFreeSegments : Nat := 2

/-- `TAG_MASK` of the GC scan. -/
def tagMask : Int := 1000 * 1000

inductive GCMode
  | all
  | logOnly
  deriving DecidableEq, Repr

/-- How a call ends that does not return. -/
inductive Stop
  /-- A failed `assert`. -/
  | assertion
  /-- A read or a copy outside its buffer. -/
  | outOfBounds
  /-- `at` on a map without the key. -/
  | outOfRange
  /-- `exit` with "Out of log segments". -/
  | outOfLogSegments
  /-- `exit` with "Log space overflows". -/
  | logOverflow
  /-- The schedule names a choice the code does not have there, or ends before the call does. -/
  | unscheduled
  deriving DecidableEq, Repr

/-- `ConfigManager`. The bounds are those `setConfigPath` asserts, and that the buffers and the device can be
addressed at all. Two fields describe memory the code reads without having written it: `erased o` is what the read of
`keyIt->second` gives after the node with offset `o` was erased, `uninit` is the content of a fresh buffer. -/
structure Config where
  mainSegmentSize : Nat
  logSegmentSize : Nat
  numMainSegment : Nat
  numLogSegment : Nat
  retryMax : Nat
  updateKVBufferSize : Nat
  inPlaceUpdate : Bool
  greedyGCSize : Nat
  minValueSizeToLog : Nat
  disableKvSeparation : Bool
  batchWriteThreshold : Nat
  erased : Nat → Nat
  uninit : Nat → UInt8
  mainSegmentSize_pos : 0 < mainSegmentSize
  logSegmentSize_pos : 0 < logSegmentSize
  numMainSegment_pos : 0 < numMainSegment
  numLogSegment_pos : 0 < numLogSegment
  capacity_lt : numMainSegment * mainSegmentSize + numLogSegment * logSegmentSize < 2 ^ 62
  buffer_lt : updateKVBufferSize < 2 ^ 62
  batch_lt : batchWriteThreshold < 2 ^ 62

namespace Config

variable (cfg : Config)

def numSegment : Nat := cfg.numMainSegment + cfg.numLogSegment

/-- The size of the update pool: the constructor of `ValueManager` raises it to a log segment. -/
def poolSize : Nat :=
  if cfg.updateKVBufferSize ≤ cfg.logSegmentSize then cfg.logSegmentSize else cfg.updateKVBufferSize

/-- `isLogSegment` of `SegmentGroupManager`. -/
def isLogSegment (segmentId : Nat) : Bool := cfg.numMainSegment ≤ segmentId

def segmentSize (segmentId : Nat) : Nat :=
  if cfg.isLogSegment segmentId then cfg.logSegmentSize else cfg.mainSegmentSize

/-- `getOffsetBySegmentId` on one disk: main segments first, then log segments. -/
def segmentOffset (segmentId : Nat) : Nat :=
  if segmentId < cfg.numMainSegment then segmentId * cfg.mainSegmentSize
  else cfg.numMainSegment * cfg.mainSegmentSize + (segmentId - cfg.numMainSegment) * cfg.logSegmentSize

/-- `toLSM` of `KvServer::putValue`. -/
def toLSM (valueSize : Nat) : Bool := valueSize < cfg.minValueSizeToLog || cfg.disableKvSeparation

end Config

/-- `HashFunc::hash`; a `char` is signed. -/
def hash (key : Bytes) : Nat :=
  let signed (b : UInt8) : UInt32 := if b < 128 then b.toUInt32 else b.toUInt32 + 0xFFFFFF00
  ((key.foldl (fun h b => h * 388650179 + signed b) 388650013) ^^^ 1176845762).toNat

/-- The main segment of a key, which is also its group. -/
def Config.mainSegmentOf (cfg : Config) (key : Bytes) : Nat := hash key % cfg.numMainSegment

/-- `RECORD_SIZE`: a deleted key has no value bytes. -/
def recordSize (valueSize : Nat) : Nat := (if valueSize = invalid then 0 else valueSize) + lenSize + keySize

/-- A `len_t` as it lies in memory. -/
def encodeLen (n : Nat) : Bytes := putFixed lenSize n

def decodeLen (s : Bytes) : Nat := ((getFixed lenSize s).map Prod.fst).getD 0

@[simp] theorem length_encodeLen (n : Nat) : (encodeLen n).length = lenSize := Coding.length_putFixed ..

theorem decodeLen_encodeLen {n : Nat} (h : n < 2 ^ 64) : decodeLen (encodeLen n) = n := by
  have hn : n < 256 ^ lenSize := by simpa [lenSize] using h
  have hget := Coding.getFixed_of_lt hn []
  rw [List.append_nil] at hget
  rw [decodeLen, encodeLen, hget]
  rfl

namespace Config

variable (cfg : Config)

theorem main_lt : cfg.mainSegmentSize < 2 ^ 62 := by
  have h := Nat.le_mul_of_pos_left cfg.mainSegmentSize cfg.numMainSegment_pos
  have := cfg.capacity_lt
  omega

theorem log_lt : cfg.logSegmentSize < 2 ^ 62 := by
  have h := Nat.le_mul_of_pos_left cfg.logSegmentSize cfg.numLogSegment_pos
  have := cfg.capacity_lt
  omega

theorem numSegment_lt : cfg.numSegment < 2 ^ 62 := by
  have h := Nat.le_mul_of_pos_right cfg.numMainSegment cfg.mainSegmentSize_pos
  have h' := Nat.le_mul_of_pos_right cfg.numLogSegment cfg.logSegmentSize_pos
  have := cfg.capacity_lt
  unfold numSegment
  omega

theorem ne_invalid {c : Nat} (hc : c < cfg.numSegment) : c ≠ invalid := by
  have := cfg.numSegment_lt
  unfold invalid
  omega

theorem poolSize_lt : cfg.poolSize < 2 ^ 62 := by
  have := cfg.log_lt
  have := cfg.buffer_lt
  unfold poolSize
  split <;> omega

/-- The group a pair is written to: `LSM_GROUP`, or the main segment of its key. -/
def home (key : Bytes) (valueSize : Nat) : Nat := if cfg.toLSM valueSize then lsmSegment else cfg.mainSegmentOf key

theorem mainSegmentOf_lt (key : Bytes) : cfg.mainSegmentOf key < cfg.numMainSegment :=
  Nat.mod_lt _ cfg.numMainSegment_pos

end Config

/-- The configuration of the concrete runs below: one group with a main segment of 64 bytes and four log segments of
48 bytes; values of less than 4 bytes go to the LSM tree. -/
def smallConfig : Config where
  mainSegmentSize := 64
  logSegmentSize := 48
  numMainSegment := 1
  numLogSegment := 4
  retryMax := 0
  updateKVBufferSize := 200
  inPlaceUpdate := true
  greedyGCSize := 1
  minValueSizeToLog := 4
  disableKvSeparation := false
  batchWriteThreshold := 32
  erased := id
  uninit _ := 0
  mainSegmentSize_pos := by decide
  logSegmentSize_pos := by decide
  numMainSegment_pos := by decide
  numLogSegment_pos := by decide
  capacity_lt := by decide
  buffer_lt := by decide
  batch_lt := by decide

end ValueSep.HashKV
