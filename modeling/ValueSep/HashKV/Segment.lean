import ValueSep.HashKV.Basic

/-!
# Segments in memory (`ds/segment.hh`)

A buffer with a length and two fronts. The code ignores the results of `appendData` and `overwriteData`, so here a
call that does not fit returns the segment as it was. The tests are those of the source, in 64-bit arithmetic; a copy
that passes its test and still leaves a buffer stops with `outOfBounds`.
-/

namespace ValueSep.HashKV

open Coding (Bytes)

/-- A segment without a buffer has the length `INVALID_LEN`. -/
structure Segment where
  id : Nat
  length : Nat
  writeFront : Nat
  flushFront : Nat
  buf : Nat → UInt8

namespace Segment

/-- `init` with a buffer of its own; `buf` is what the buffer holds before anything is written. -/
def init (id size : Nat) (buf : Nat → UInt8) : Segment := ⟨id, size, 0, 0, buf⟩

/-- `RESET_SEGMENT_BUFFER`: no id, no buffer. -/
def none : Segment := ⟨invalid, invalid, 0, 0, fun _ => 0⟩

def resetFronts (a : Segment) : Segment := { a with writeFront := 0, flushFront := 0 }

/-- The sum wraps around, so the test also passes for a size near 2^64. -/
def canFit (a : Segment) (size : Nat) : Bool :=
  a.length ≠ invalid && (a.writeFront + size) % 2 ^ 64 ≤ a.length

def readData (a : Segment) (offset size : Nat) : Except Stop Bytes :=
  if offset + size ≤ a.length then .ok (Memory.read a.buf offset size) else .error .outOfBounds

/-- Reads a `len_t`. -/
def readLen (a : Segment) (offset : Nat) : Except Stop Nat := decodeLen <$> a.readData offset lenSize

/-- `appendData` of `size` bytes from a caller's buffer. -/
def appendData (a : Segment) (data : Bytes) (size : Nat) : Except Stop Segment :=
  if a.canFit size then
    if size ≤ data.length ∧ a.writeFront + size ≤ a.length then
      .ok { a with buf := Memory.write a.buf a.writeFront (data.take size), writeFront := a.writeFront + size }
    else .error .outOfBounds
  else .ok a

/-- `appendData` of `size` bytes that lie at `offset` in another segment. -/
def appendFrom (a src : Segment) (offset size : Nat) : Except Stop Segment :=
  if a.canFit size then do a.appendData (← src.readData offset size) size else .ok a

def overwriteData (a : Segment) (data : Bytes) (offset size : Nat) : Except Stop Segment :=
  if a.length < (offset + size) % 2 ^ 64 then .ok a
  else if size ≤ data.length ∧ offset + size ≤ a.length then
    .ok { a with buf := Memory.write a.buf offset (data.take size) }
  else .error .outOfBounds

def setFlushFront (a : Segment) (flushFront : Nat) : Except Stop Segment :=
  if a.length < flushFront then .error .assertion
  else .ok { a with flushFront := flushFront, writeFront := max a.writeFront flushFront }

/-- `clean` from the start of the segment, without touching the fronts. -/
def clean (a : Segment) (size : Nat) : Segment :=
  if a.length < size then a else { a with buf := Memory.write a.buf 0 (List.replicate size 0) }

variable {a src : Segment} {data : Bytes} {offset size : Nat}

/-- Below the end of the address space the test says what it looks like. -/
theorem canFit_iff (h : a.writeFront + size < 2 ^ 64) (hlen : a.length < 2 ^ 63) :
    a.canFit size = true ↔ a.writeFront + size ≤ a.length := by
  have hne : a.length ≠ invalid := by unfold invalid; omega
  rw [canFit, Nat.mod_eq_of_lt h]
  simp [hne]

theorem readData_of_holds (h : Memory.Holds a.buf offset data) (hle : offset + data.length ≤ a.length) :
    a.readData offset data.length = .ok data := by
  rw [readData, if_pos hle, h]

theorem readLen_of_holds {n : Nat} (h : Memory.Holds a.buf offset (encodeLen n)) (hn : n < 2 ^ 64)
    (hle : offset + lenSize ≤ a.length) : a.readLen offset = .ok n := by
  have hread := readData_of_holds h (by simpa using hle)
  rw [length_encodeLen] at hread
  rw [readLen, hread]
  exact congrArg Except.ok (decodeLen_encodeLen hn)

/-- The segment with these bytes behind its front. -/
def push (a : Segment) (data : Bytes) : Segment :=
  { a with buf := Memory.write a.buf a.writeFront data, writeFront := a.writeFront + data.length }

@[simp] theorem length_push : (a.push data).length = a.length := rfl

@[simp] theorem writeFront_push : (a.push data).writeFront = a.writeFront + data.length := rfl

theorem push_push {data' : Bytes} : (a.push data).push data' = a.push (data ++ data') := by
  simp only [push, Memory.write_append, List.length_append, Nat.add_assoc]

theorem appendData_ok (hsize : size = data.length) (h : a.writeFront + size ≤ a.length) (hlen : a.length < 2 ^ 63) :
    a.appendData data size = .ok (a.push data) := by
  subst hsize
  rw [appendData, if_pos ((canFit_iff (by omega) hlen).2 h), if_pos ⟨Nat.le_refl _, h⟩, List.take_length]
  rfl

theorem appendFrom_ok (hsrc : Memory.Holds src.buf offset data) (hsrcLen : offset + data.length ≤ src.length)
    (hsize : size = data.length) (h : a.writeFront + size ≤ a.length) (hlen : a.length < 2 ^ 63) :
    a.appendFrom src offset size = .ok (a.push data) := by
  have hread := readData_of_holds hsrc hsrcLen
  rw [appendFrom, if_pos ((canFit_iff (by omega) hlen).2 h), hsize, hread]
  exact appendData_ok rfl (hsize ▸ h) hlen

/-- A deletion's length passes the test once anything is in the buffer, and the copy leaves it. -/
theorem appendData_invalid (hpos : 0 < a.writeFront) (hle : a.writeFront ≤ a.length) (hlen : a.length < 2 ^ 63) :
    a.appendData [] invalid = .error .outOfBounds := by
  have hfit : a.canFit invalid = true := by
    have hne : a.length ≠ invalid := by unfold invalid; omega
    have hmod : (a.writeFront + invalid) % 2 ^ 64 ≤ a.length := by unfold invalid; omega
    simp only [canFit, ne_eq, hne, not_false_eq_true, decide_true, Bool.true_and, decide_eq_true_eq]
    exact hmod
  have hcopy : ¬(invalid ≤ ([] : Bytes).length ∧ a.writeFront + invalid ≤ a.length) := by
    simp [invalid]
  rw [appendData, if_pos hfit, if_neg hcopy]

end Segment

end ValueSep.HashKV
