import ValueSep.DiffKV.Storage

/-!
# The buffered file writer and the blob file builder

The vendored `WritableFileWriter` (buffered I/O) keeps up to `maxBufferSize` bytes in memory; a reader opened
on the file sees `flushed` only. `BlobFileBuilder` appends a header, records and a footer through it.
-/

namespace ValueSep.DiffKV

open Coding

structure WritableFile where
  flushed : Bytes
  buf : Bytes
  capacity : Nat
  maxBufferSize : Nat
deriving DecidableEq, Repr

namespace WritableFile

def create (maxBufferSize : Nat) : WritableFile := ⟨[], [], min 65536 maxBufferSize, maxBufferSize⟩

variable (w : WritableFile)

/-- Everything appended so far, whether or not it has left the buffer. -/
def content : Bytes := w.flushed ++ w.buf

/-- `GetFileSize`. -/
def fileSize : Nat := w.content.length

def flush : WritableFile := { w with flushed := w.flushed ++ w.buf, buf := [] }

/-- The loop that looks for a larger buffer before `Append` falls back to flushing; `fuel` bounds the
doublings. -/
def enlarged (left : Nat) : Nat → Nat → Nat
  | 0, _ => w.capacity
  | fuel + 1, cap =>
    if cap < w.maxBufferSize then
      if left ≤ min (cap * 2) w.maxBufferSize - w.buf.length then min (cap * 2) w.maxBufferSize
      else enlarged left fuel (cap * 2)
    else w.capacity

/-- `Append` that meets no error. -/
def append (data : Bytes) : WritableFile :=
  let left := data.length
  let w := if w.capacity - w.buf.length < left then
    { w with capacity := w.enlarged left w.maxBufferSize w.capacity } else w
  let w := if w.capacity - w.buf.length < left then w.flush else w
  if left ≤ w.capacity then { w with buf := w.buf ++ data }
  else { w with flushed := w.flushed ++ w.buf ++ data, buf := [] }

@[simp] theorem content_flush : w.flush.content = w.content := by simp [content, flush]

@[simp] theorem content_append (data : Bytes) : (w.append data).content = w.content ++ data := by
  simp only [append, content]
  split_ifs <;> simp [flush]

@[simp] theorem content_create (n : Nat) : (create n).content = [] := rfl

end WritableFile

structure BlobFileBuilder where
  number : Nat
  status : Status
  numEntries : Nat
  smallestKey : Slice
  largestKey : Slice
deriving DecidableEq, Repr

namespace BlobFileBuilder

/-- The constructor appends the file header. -/
def create (fault : Fault) (number : Nat) (file : WritableFile) : WritableFile × BlobFileBuilder :=
  (if fault = none then file.append encodeFileHeader else file, ⟨number, fault.status, 0, [], []⟩)

variable (b : BlobFileBuilder)

/-- The key bounds after a record; an empty `smallestKey` counts as unset. -/
def addKey (o : Options) (key : Slice) : BlobFileBuilder :=
  let b := if b.smallestKey = [] then { b with smallestKey := key, largestKey := key } else b
  let b := if o.comparator key b.largestKey = .gt then { b with largestKey := key }
    else if o.comparator key b.smallestKey = .lt then { b with smallestKey := key }
    else b
  { b with numEntries := b.numEntries + 1 }

/-- `Add` of a record with or without its key: a builder in error leaves the handle as the caller initialised it. -/
def add (o : Options) (onlyValue : Bool) (fault : Fault) (file : WritableFile) (r : BlobRecord) :
    WritableFile × BlobFileBuilder × BlobHandle :=
  if b.status ≠ .ok then (file, b, ⟨0, 0⟩)
  else
    let handle : BlobHandle := ⟨file.fileSize, (encodeRecord o onlyValue r).length⟩
    if fault = none then (file.append (encodeRecord o onlyValue r), b.addKey o r.key, handle)
    else (file, { b with status := fault.status }, handle)

/-- `Finish`: appends the footer and flushes. -/
def finish (o : Options) (fault : Fault) (file : WritableFile) : WritableFile × BlobFileBuilder :=
  if b.status ≠ .ok then (file, b)
  else if fault = none then ((file.append (encodeFooter o.codec)).flush, b)
  else (file, { b with status := fault.status })

section
variable {b} {o : Options} {fault : Fault} {file file' : WritableFile} {b' : BlobFileBuilder} {r : BlobRecord}
  {handle : BlobHandle}

@[simp] theorem number_addKey (key : Slice) : (b.addKey o key).number = b.number := by
  simp only [addKey]; split_ifs <;> rfl

@[simp] theorem status_addKey (key : Slice) : (b.addKey o key).status = b.status := by
  simp only [addKey]; split_ifs <;> rfl

/-- One `Add`: the file grows, the builder keeps its number, and a builder that is still fine afterwards was
fine before and has handed out the place where the record now is. -/
theorem add_spec (h : b.add o false fault file r = (file', b', handle)) :
    (∃ data, file'.content = file.content ++ data) ∧ b'.number = b.number ∧
      (b'.status = .ok → b.status = .ok ∧
        file' = file.append (encodeRecord o false r) ∧ handle = ⟨file.fileSize, (encodeRecord o false r).length⟩) := by
  unfold add at h
  split at h
  next hb =>
    cases h
    exact ⟨⟨[], by simp⟩, rfl, fun h => absurd h hb⟩
  next hb =>
    rw [not_not] at hb
    split at h
    next =>
      cases h
      exact ⟨⟨_, WritableFile.content_append ..⟩, number_addKey _, fun _ => ⟨hb, rfl, rfl⟩⟩
    next hf =>
      cases h
      exact ⟨⟨[], by simp⟩, rfl, fun h => absurd (Fault.status_eq_ok.1 h) hf⟩

theorem add_of_ok (hb : b.status = .ok) (onlyValue : Bool) :
    b.add o onlyValue none file r = (file.append (encodeRecord o onlyValue r), b.addKey o r.key,
      ⟨file.fileSize, (encodeRecord o onlyValue r).length⟩) := by
  simp [add, hb]

/-- A builder that has met an error hands out a place the file does not reach, or none at all. -/
theorem short_of_add (h : b.add o false fault file r = (file', b', handle)) (hst : b'.status ≠ .ok) :
    handle.size = 0 ∨ file'.fileSize < handle.offset + handle.size := by
  unfold add at h
  split at h
  · cases h; exact .inl rfl
  next hb =>
    split at h
    · cases h; exact absurd (by simpa using hb) hst
    · cases h
      exact .inr (Nat.lt_add_of_pos_right (length_encodeRecord_pos o false r))

theorem finish_spec (b : BlobFileBuilder) (o : Options) (fault : Fault) (file : WritableFile) :
    (∃ data, (b.finish o fault file).1.content = file.content ++ data) ∧ (b.finish o fault file).2.number = b.number ∧
      ((b.finish o fault file).2.status = .ok ↔ b.status = .ok ∧ fault = none) := by
  unfold finish
  split
  next hb => exact ⟨⟨[], by simp⟩, rfl, fun h => absurd h hb, fun h => absurd h.1 hb⟩
  next hb =>
    rw [not_not] at hb
    split
    next hf => exact ⟨⟨_, by simp; rfl⟩, rfl, fun _ => ⟨hb, hf⟩, fun _ => hb⟩
    next hf =>
      exact ⟨⟨[], by simp⟩, rfl, fun h => absurd (Fault.status_eq_ok.1 h) hf, fun h => absurd h.2 hf⟩

end

end BlobFileBuilder

end ValueSep.DiffKV
