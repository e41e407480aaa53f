import ValueSep.Lib.Coding

/-!
# Statuses, options and the code the engine is linked with

What DiffKV calls and does not define (compression libraries, crc32c, the user comparator, the hash of the
foreground builders) is a field of `Options`, with the one property the engine relies on.
-/

namespace ValueSep.DiffKV

open Coding

abbrev Slice := Bytes
abbrev SequenceNumber := Nat

def kMaxSequenceNumber : SequenceNumber := 2 ^ 56 - 1

/-- A value of `uint64_t`. -/
def u64 (z : Int) : Nat := (z % 2 ^ 64).toNat

/-- A value of `int64_t`. -/
def i64 (z : Int) : Int := (z + 2 ^ 63) % 2 ^ 64 - 2 ^ 63

theorem u64_lt (z : Int) : u64 z < 2 ^ 64 := by unfold u64; omega

inductive Status
  | ok
  | notFound (msg : String)
  | corruption (msg : String)
  | invalidArgument (msg : String)
  | ioError (msg : String)
  | aborted (msg : String)
  | busy (msg : String)
  | incomplete (msg : String)
  | shutdownInProgress
deriving DecidableEq, Repr

namespace Status

def isOk : Status → Bool
  | ok => true
  | _ => false

@[simp] theorem isOk_iff {s : Status} : s.isOk = true ↔ s = ok := by cases s <;> simp [isOk]

theorem isOk_eq_false_iff {s : Status} : s.isOk = false ↔ s ≠ ok := by cases s <;> simp [isOk]

end Status

/-- What one call into the environment or into the base DB reports: `none`, or the message of an I/O error. -/
abbrev Fault := Option String

def Fault.status : Fault → Status
  | none => .ok
  | some m => .ioError m

@[simp] theorem Fault.status_eq_ok {f : Fault} : Fault.status f = .ok ↔ f = none := by
  cases f <;> simp [Fault.status]

/-- The compression libraries and crc32c. `compressor t raw` is `none` when type `t` is not linked in. -/
structure Codec where
  compressor : UInt8 → Bytes → Option Bytes
  uncompressor : UInt8 → Bytes → Option Bytes
  crc32c : Bytes → Nat
  /-- What memory holds behind a buffer that a read has filled with these bytes. -/
  behind : Bytes → Nat → UInt8
  uncompressor_compressor : ∀ t raw c, compressor t raw = some c → uncompressor t c = some raw

/-- The options of `TitanDBOptions` and `TitanCFOptions` that the modelled functions read. -/
structure Options where
  sepBeforeFlush : Bool
  levelMerge : Bool
  minBlobSize : Nat
  midBlobSize : Nat
  blobFileTargetSize : Nat
  numForegroundBuilders : Nat
  blobFileCompression : UInt8
  codec : Codec
  comparator : Slice → Slice → Ordering
  hash : Slice → Nat

/-- A build without compression libraries. -/
def Codec.plain : Codec := ⟨fun _ _ => none, fun _ _ => none, fun _ => 0, fun _ _ => 0, nofun⟩

/-- The two modes with thresholds that separate every value but the empty one. -/
def Options.small (sepBeforeFlush levelMerge : Bool) : Options :=
  { sepBeforeFlush, levelMerge, minBlobSize := 1, midBlobSize := 1, blobFileTargetSize := 1024,
    numForegroundBuilders := 1, blobFileCompression := 0, codec := .plain, comparator := compare, hash := fun _ => 0 }

instance (sep levelMerge : Bool) : Std.TransCmp (Options.small sep levelMerge).comparator :=
  inferInstanceAs (Std.TransOrd (List UInt8))

end ValueSep.DiffKV
