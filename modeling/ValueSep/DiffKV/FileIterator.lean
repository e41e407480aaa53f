import ValueSep.DiffKV.GcRun

/-!
# Iterating over one blob file

`BlobFileIterator`. The file is what was written to it together with what each read of it returns, so that any
read can fail or come back damaged. `yields` is everything the iterator shows from a valid position on; over a
file whose reads all succeed that is every record with its index (`shows_seekToFirst`).
-/

namespace ValueSep.DiffKV

open Coding GcState
open List

/-- A finished blob file: the records written to it, and what `Read(offset, n)` answers. -/
structure InputFile where
  number : Nat
  records : List BlobRecord
  read : Nat → Nat → Except String Bytes

namespace InputFile

variable (o : Options) (f : InputFile)

def fileSize : Nat := kBlobHeaderSize + (f.records.flatMap (encodeRecord o false)).length + kBlobFooterSize

/-- The records with their indexes. -/
def entries : List GcRecord := recordsFrom o f.number kBlobHeaderSize f.records

/-- The reads and decodings of `GetBlobRecord`: the record and its size with the header. A short read leaves in the
buffer what was there before, and the decoder takes it for the rest of the record. -/
def recordAt (offset : Nat) : Except Status (BlobRecord × Nat) :=
  match f.read offset kRecordHeaderSize with
  | .error m => .error (.ioError m)
  | .ok header =>
    match decodeHeader header with
    | .error e => .error e
    | .ok (h, _) =>
      match f.read (offset + kRecordHeaderSize) h.recordSize with
      | .error m => .error (.ioError m)
      | .ok body =>
        match decodeRecord o.codec false h body with
        | .error e => .error e
        | .ok r => .ok (r, kRecordHeaderSize + h.recordSize)

/-- The header as `Init` reads it. -/
def header : Status :=
  match f.read 0 kBlobHeaderSize with
  | .error m => .ioError m
  | .ok src => decodeFileHeader src

/-- The footer as `Init` reads it, or the error of the read. -/
def footer : Except String (Nat × Status) :=
  (f.read (f.fileSize o - kBlobFooterSize) kBlobFooterSize).map (decodeFooter o.codec)

/-- Some read or decoding of the header, the footer or a record fails. -/
def Fails : Prop :=
  f.header ≠ .ok ∨ f.footer o ≠ .ok (0, .ok) ∨
    ∃ r ∈ f.entries o, f.recordAt o r.index.blobHandle.offset ≠ .ok (r.record, r.index.blobHandle.size)

end InputFile

structure BlobFileIterator where
  file : InputFile
  inited : Bool
  endOfBlobRecord : Nat
  iterateOffset : Nat
  status : Status
  valid : Bool
  curBlobRecord : BlobRecord
  curRecordOffset : Nat
  curRecordSize : Nat

namespace BlobFileIterator

variable (o : Options) (it : BlobFileIterator)

def create (f : InputFile) : BlobFileIterator := ⟨f, false, 0, 0, .ok, false, ⟨[], []⟩, 0, 0⟩

def isValid : Bool := it.valid && it.status.isOk

/-- `GetBlobIndex` and the record. -/
def entry : GcRecord := ⟨it.curBlobRecord, ⟨it.file.number, ⟨it.curRecordOffset, it.curRecordSize⟩⟩⟩

/-- `Init`. The footer's status is stored and not looked at. -/
def init : BlobFileIterator × Bool :=
  if it.file.header ≠ .ok then ({ it with status := it.file.header }, false)
  else
    match it.file.footer o with
    | .error m => ({ it with status := .ioError m }, false)
    | .ok (metaSize, st) =>
      ({ it with
          status := st
          endOfBlobRecord := (2 ^ 64 + it.file.fileSize o - kBlobFooterSize - metaSize) % 2 ^ 64
          inited := true }, true)

/-- `GetBlobRecord`: an error leaves the position and `valid_` as they were. -/
def getBlobRecord : BlobFileIterator :=
  match it.file.recordAt o it.iterateOffset with
  | .error st => { it with status := st }
  | .ok (r, size) =>
    { it with
      status := .ok
      curBlobRecord := r
      curRecordOffset := it.iterateOffset
      curRecordSize := size
      iterateOffset := it.iterateOffset + size
      valid := true }

/-- `PrefetchAndGet`, without the read-ahead hints. -/
def prefetchAndGet : BlobFileIterator :=
  if it.endOfBlobRecord ≤ it.iterateOffset then { it with valid := false } else it.getBlobRecord o

def seekToFirst : BlobFileIterator :=
  let (it, ok) := if it.inited then (it, true) else it.init o
  if ok then { it with status := .ok, iterateOffset := kBlobHeaderSize }.prefetchAndGet o else it

def next : BlobFileIterator := it.prefetchAndGet o

end BlobFileIterator

/-! ### What an iterator shows -/

variable {o : Options}

namespace InputFile

variable {f : InputFile} {offset : Nat}

theorem recordAt_cases (o : Options) (f : InputFile) (offset : Nat) :
    (∃ st, f.recordAt o offset = .error st ∧ st ≠ .ok) ∨ ∃ r size, f.recordAt o offset = .ok (r, size) ∧ 0 < size := by
  unfold recordAt
  split
  · exact .inl ⟨_, rfl, nofun⟩
  · split
    next h =>
      obtain ⟨m, rfl⟩ := decodeHeader_error h
      exact .inl ⟨_, rfl, nofun⟩
    next =>
      split
      · exact .inl ⟨_, rfl, nofun⟩
      · split
        next h =>
          obtain ⟨m, rfl⟩ := decodeRecord_error h
          exact .inl ⟨_, rfl, nofun⟩
        next => exact .inr ⟨_, _, rfl, by simp [kRecordHeaderSize]⟩

/-- What `BlobFileBuilder` leaves in a file. -/
def content (o : Options) (rs : List BlobRecord) : Bytes :=
  encodeFileHeader ++ rs.flatMap (encodeRecord o false) ++ encodeFooter o.codec

/-- A file with undamaged content, some of whose reads fail. -/
def written (o : Options) (n : Nat) (rs : List BlobRecord) (fault : Nat → Nat → Fault) : InputFile where
  number := n
  records := rs
  read offset size := match fault offset size with
    | some m => .error m
    | none => .ok (readAt (content o rs) offset size)

theorem recordAt_of_content {r : BlobRecord} (pre post : Bytes) (he : Encodable o false r)
    (hread : ∀ offset size, f.read offset size = .ok (readAt (pre ++ encodeRecord o false r ++ post) offset size)) :
    f.recordAt o pre.length = .ok (r, (encodeRecord o false r).length) := by
  obtain ⟨header, crc, henc, hlen, hh⟩ := encodeRecord_eq_append he
  let body := (compress o.codec o.blobFileCompression (r.encodeTo false)).1
  have hheader : f.read pre.length kRecordHeaderSize = .ok header := by
    rw [hread, henc, ← hlen, append_assoc, append_assoc, ← append_assoc, readAt_append_left]
  have hbody : f.read (pre.length + kRecordHeaderSize) body.length = .ok body := by
    rw [hread, henc, ← hlen, ← length_append, ← append_assoc, readAt_append_left]
  have hdecode := hh []
  rw [append_nil] at hdecode
  simp only [recordAt, hheader, hdecode]
  rw [hbody]
  simp only [body, decodeRecord_compress he]
  rw [length_encodeRecord]
  rfl

theorem recordAt_recordsFrom {n : Nat} {rs : List BlobRecord} (pre post : Bytes)
    (hrs : ∀ r ∈ rs, Encodable o false r) (hread : ∀ offset size,
      f.read offset size = .ok (readAt (pre ++ rs.flatMap (encodeRecord o false) ++ post) offset size)) :
    ∀ r ∈ recordsFrom o n pre.length rs,
      f.recordAt o r.index.blobHandle.offset = .ok (r.record, r.index.blobHandle.size) := by
  intro r hr
  obtain ⟨hmem, pre', post', heq, hindex⟩ := split_of_mem_recordsFrom pre r hr
  rw [hindex]
  refine recordAt_of_content pre' (post' ++ post) (hrs r.record hmem) ?_
  simpa only [heq, append_assoc] using hread

theorem not_fails_written {n : Nat} {rs : List BlobRecord} (hrs : ∀ r ∈ rs, Encodable o false r) :
    ¬ (written o n rs fun _ _ => none).Fails o := by
  have hheader : (written o n rs fun _ _ => none).header = .ok := by
    show decodeFileHeader (readAt (content o rs) 0 kBlobHeaderSize) = .ok
    exact decodeFileHeader_encodeFileHeader
  have hfooter : (written o n rs fun _ _ => none).footer o = .ok (0, .ok) := by
    show Except.ok (decodeFooter o.codec (readAt (content o rs) _ kBlobFooterSize)) = _
    have hpos : (written o n rs fun _ _ => none).fileSize o - kBlobFooterSize =
        (encodeFileHeader ++ rs.flatMap (encodeRecord o false)).length := by
      rw [fileSize, Nat.add_sub_cancel, length_append]; rfl
    have hread := readAt_append_left (encodeFileHeader ++ rs.flatMap (encodeRecord o false)) (encodeFooter o.codec) []
    rw [append_nil] at hread
    rw [hpos, ← length_encodeFooter o.codec, content, hread, decodeFooter_encodeFooter]
  rintro (h | h | ⟨r, hr, h⟩)
  · exact h hheader
  · exact h hfooter
  · exact h (recordAt_recordsFrom encodeFileHeader (encodeFooter o.codec) hrs (fun _ _ => rfl) r hr)

end InputFile

namespace BlobFileIterator

variable {it : BlobFileIterator} {f : InputFile} {offset pos last size : Nat} {rs : List BlobRecord}

theorem prefetchAndGet_of_ok {r : BlobRecord} (hlt : it.iterateOffset < it.endOfBlobRecord)
    (h : it.file.recordAt o it.iterateOffset = .ok (r, size)) :
    it.prefetchAndGet o =
      { it with
        status := .ok
        curBlobRecord := r
        curRecordOffset := it.iterateOffset
        curRecordSize := size
        iterateOffset := it.iterateOffset + size
        valid := true } := by
  rw [prefetchAndGet, if_neg (by omega), getBlobRecord, h]

/-- Nothing is shown at the end of the records or after a failed read. -/
theorem prefetchAndGet_cases (o : Options) (it : BlobFileIterator) :
    (it.prefetchAndGet o).isValid = false ∨ it.iterateOffset < it.endOfBlobRecord ∧
        ∃ r size, it.file.recordAt o it.iterateOffset = .ok (r, size) ∧ 0 < size := by
  by_cases hend : it.endOfBlobRecord ≤ it.iterateOffset
  · left
    rw [prefetchAndGet, if_pos hend]; rfl
  · rcases it.file.recordAt_cases o it.iterateOffset with ⟨st, h, hst⟩ | h
    · left
      rw [prefetchAndGet, if_neg hend, getBlobRecord, h]
      show (it.valid && st.isOk) = false
      rw [Status.isOk_eq_false_iff.2 hst, Bool.and_false]
    · exact .inr ⟨by omega, h⟩

/-- Bounds the number of records still to come. -/
def togo (it : BlobFileIterator) : Nat :=
  if it.isValid then it.endOfBlobRecord - it.iterateOffset + 1 else 0

theorem togo_next_lt (h : it.isValid = true) : (it.next o).togo < it.togo := by
  rcases prefetchAndGet_cases o it with hv | ⟨hlt, r, size, hr, hpos⟩
  · have hnext : (it.next o).isValid = false := hv
    simp [togo, h, hnext]
  · rw [next, prefetchAndGet_of_ok hlt hr]
    have hit : it.togo = it.endOfBlobRecord - it.iterateOffset + 1 := if_pos h
    show it.endOfBlobRecord - (it.iterateOffset + size) + 1 < _
    omega

/-- The records shown from this position on. -/
def yields (o : Options) (it : BlobFileIterator) : List GcRecord :=
  if _h : it.isValid = true then it.entry :: yields o (it.next o) else []
termination_by it.togo
decreasing_by exact togo_next_lt _h

theorem yields_of_isValid (h : it.isValid = true) : it.yields o = it.entry :: (it.next o).yields o := by
  rw [yields, dif_pos h]

theorem yields_of_not_isValid (h : it.isValid = false) : it.yields o = [] := by
  rw [yields, dif_neg (by rw [h]; decide)]

/-- Over records that can be read everything is shown; the last `Next` finds no record and no error. -/
theorem shows_prefetchAndGet (hst : it.status = .ok)
    (hend : it.endOfBlobRecord = it.iterateOffset + (rs.flatMap (encodeRecord o false)).length)
    (hread : ∀ r ∈ recordsFrom o it.file.number it.iterateOffset rs,
      it.file.recordAt o r.index.blobHandle.offset = .ok (r.record, r.index.blobHandle.size)) :
    (it.prefetchAndGet o).yields o = recordsFrom o it.file.number it.iterateOffset rs ∧
      ((next o)^[rs.length] (it.prefetchAndGet o)).isValid = false ∧
      ((next o)^[rs.length] (it.prefetchAndGet o)).status = .ok := by
  induction rs generalizing it with
  | nil =>
    rw [prefetchAndGet, if_pos (by simp [hend])]
    exact ⟨yields_of_not_isValid rfl, rfl, hst⟩
  | cons r rs ih =>
    have hlen : 0 < (encodeRecord o false r).length := length_encodeRecord_pos o false r
    rw [flatMap_cons, length_append] at hend
    have hr := hread _ (mem_cons_self ..)
    rw [prefetchAndGet_of_ok (by omega) hr, length_cons, yields_of_isValid rfl]
    refine And.imp_left (congrArg (_ :: ·)) ?_
    refine ih rfl ?_ fun r' hr' => hread r' (mem_cons_of_mem _ hr')
    show it.endOfBlobRecord = it.iterateOffset + (encodeRecord o false r).length + _
    omega

theorem init_of_not_fails (hit : it.file = f) (hf : ¬ f.Fails o) (hsize : f.fileSize o < 2 ^ 64) :
    it.init o = ({ it with
      status := .ok
      endOfBlobRecord := f.fileSize o - kBlobFooterSize
      inited := true }, true) := by
  simp only [InputFile.Fails, not_or, not_not] at hf
  obtain ⟨hheader, hfooter, -⟩ := hf
  have hend : (2 ^ 64 + f.fileSize o - kBlobFooterSize - 0) % 2 ^ 64 = f.fileSize o - kBlobFooterSize := by
    have : kBlobFooterSize ≤ f.fileSize o := by simp [InputFile.fileSize]
    omega
  simp only [init, hit, hheader, hfooter, ne_eq, not_true, if_false, hend]

theorem recordAt_of_not_fails (hf : ¬ f.Fails o) :
    ∀ r ∈ f.entries o, f.recordAt o r.index.blobHandle.offset = .ok (r.record, r.index.blobHandle.size) := by
  simp only [InputFile.Fails, not_or, not_exists, not_and, not_not] at hf
  exact hf.2.2

theorem shows_seekToFirst (hf : ¬ f.Fails o) (hsize : f.fileSize o < 2 ^ 64) :
    ((create f).seekToFirst o).yields o = f.entries o ∧
      ((next o)^[f.records.length] ((create f).seekToFirst o)).isValid = false ∧
      ((next o)^[f.records.length] ((create f).seekToFirst o)).status = .ok := by
  have hinit : (create f).init o = _ := init_of_not_fails rfl hf hsize
  simp only [seekToFirst, hinit]
  exact shows_prefetchAndGet rfl (by simp [InputFile.fileSize, create]) (recordAt_of_not_fails hf)

/-! ### Positioning -/

/-- The loop of `IterateForPrev` over the record headers: where it stops and the length it added last, or the error
and where it was. -/
def skipTo (f : InputFile) (offset pos last : Nat) : Except (Status × Nat) (Nat × Nat) :=
  if pos < offset then
    match f.read pos kRecordHeaderSize with
    | .error m => .error (.ioError m, pos)
    | .ok header =>
      match decodeHeader header with
      | .error e => .error (e, pos)
      | .ok (h, _) => skipTo f offset (pos + (kRecordHeaderSize + h.recordSize)) (kRecordHeaderSize + h.recordSize)
  else .ok (pos, last)
termination_by offset - pos
decreasing_by simp only [kRecordHeaderSize]; omega

def iterateForPrev (o : Options) (offset : Nat) (it : BlobFileIterator) : BlobFileIterator :=
  let (it, ok) := if it.inited then (it, true) else it.init o
  if !ok then it
  else if it.endOfBlobRecord ≤ offset then
    { it with status := .invalidArgument "Out of bound", iterateOffset := offset }
  else
    match skipTo it.file offset kBlobHeaderSize 0 with
    | .error (st, pos) => { it with status := st, iterateOffset := pos }
    | .ok (pos, last) =>
      { it with status := .ok, iterateOffset := if offset < pos then pos - last else pos, valid := false }

theorem skipTo_of_recordAt {r : BlobRecord} (hlt : pos < offset) (h : f.recordAt o pos = .ok (r, size)) :
    skipTo f offset pos last = skipTo f offset (pos + size) size := by
  rw [skipTo, if_pos hlt]
  unfold InputFile.recordAt at h
  repeat' split at h
  all_goals cases h
  rfl

theorem skipTo_of_le (h : offset ≤ pos) : skipTo f offset pos last = .ok (pos, last) := by
  rw [skipTo, if_neg (Nat.not_lt.2 h)]

/-- The loop stops at the record that contains the offset, or the length of that record behind it. -/
theorem shows_skipTo (last : Nat) (hend : it.endOfBlobRecord = pos + (rs.flatMap (encodeRecord o false)).length)
    (hread : ∀ r ∈ recordsFrom o it.file.number pos rs,
      it.file.recordAt o r.index.blobHandle.offset = .ok (r.record, r.index.blobHandle.size))
    (hle : pos ≤ offset) (hlt : offset < it.endOfBlobRecord) :
    ∃ q n pre r post, skipTo it.file offset pos last = .ok (q, n) ∧
      recordsFrom o it.file.number pos rs = pre ++ r :: post ∧
      r.index.blobHandle.offset ≤ offset ∧ offset < r.index.blobHandle.offset + r.index.blobHandle.size ∧
      ({ it with status := .ok, iterateOffset := if offset < q then q - n else q, valid := false }.next o).yields o =
        r :: post := by
  induction rs generalizing pos last with
  | nil => exact absurd hlt (by simp [hend, hle])
  | cons r rs ih =>
    have hr := hread _ (mem_cons_self ..)
    have hlen : 0 < (encodeRecord o false r).length := length_encodeRecord_pos o false r
    have hshows : ({ it with status := .ok, iterateOffset := pos, valid := false }.next o).yields o = _ :=
      And.left (shows_prefetchAndGet rfl hend hread)
    rw [flatMap_cons, length_append, ← Nat.add_assoc] at hend
    rcases Nat.eq_or_lt_of_le hle with rfl | hpos
    · refine ⟨pos, last, [], _, _, skipTo_of_le hle, rfl, hle, Nat.lt_add_of_pos_right hlen, ?_⟩
      rwa [if_neg (Nat.lt_irrefl _)]
    · rw [skipTo_of_recordAt hpos hr]
      rcases Nat.lt_or_ge offset (pos + (encodeRecord o false r).length) with hin | hout
      · refine ⟨_, _, [], _, _, skipTo_of_le (Nat.le_of_lt hin), rfl, hle, hin, ?_⟩
        rwa [if_pos hin, Nat.add_sub_cancel]
      · obtain ⟨q, n, pre, r', post, hskip, heq, h⟩ := ih _ hend (fun r' hr' => hread r' (mem_cons_of_mem _ hr')) hout
        exact ⟨q, n, _ :: pre, r', post, hskip, congrArg (_ :: ·) heq, h⟩

/-- Over a file that can be read `Next` shows the record that contains the offset and then the ones behind it; all of
them for an offset in the header of the file. -/
theorem iterateForPrev_next (hf : ¬ f.Fails o) (hsize : f.fileSize o < 2 ^ 64) (hit : it.file = f)
    (hinit : it.inited = true → it.endOfBlobRecord = f.fileSize o - kBlobFooterSize) :
    (f.fileSize o - kBlobFooterSize ≤ offset →
      (it.iterateForPrev o offset).status = .invalidArgument "Out of bound") ∧
      (offset < f.fileSize o - kBlobFooterSize → (it.iterateForPrev o offset).status = .ok ∧
        (offset < kBlobHeaderSize → ((it.iterateForPrev o offset).next o).yields o = f.entries o) ∧
        (kBlobHeaderSize ≤ offset → ∃ pre r post, f.entries o = pre ++ r :: post ∧
          r.index.blobHandle.offset ≤ offset ∧ offset < r.index.blobHandle.offset + r.index.blobHandle.size ∧
          ((it.iterateForPrev o offset).next o).yields o = r :: post)) := by
  obtain ⟨it', rfl, hend, heq⟩ : ∃ it' : BlobFileIterator, it'.file = f ∧
      it'.endOfBlobRecord = f.fileSize o - kBlobFooterSize ∧
      (if it.inited then (it, true) else it.init o) = (it', true) := by
    split
    next h => exact ⟨it, hit, hinit h, rfl⟩
    next =>
      refine ⟨_, ?_, ?_, init_of_not_fails hit hf hsize⟩
      · exact hit
      · rfl
  have hread := recordAt_of_not_fails hf
  simp only [iterateForPrev, heq, ← hend, Bool.not_true, Bool.false_eq_true, if_false]
  constructor
  · intro hle
    rw [if_pos hle]
  · intro hlt
    have hrecords : it'.endOfBlobRecord = kBlobHeaderSize + (it'.file.records.flatMap (encodeRecord o false)).length := by
      rw [hend, InputFile.fileSize, Nat.add_sub_cancel]
    rw [if_neg (Nat.not_le.2 hlt)]
    rcases Nat.lt_or_ge offset kBlobHeaderSize with hpos | hpos
    · simp only [skipTo_of_le (Nat.le_of_lt hpos), if_pos hpos]
      exact ⟨trivial, fun _ => And.left (shows_prefetchAndGet rfl hrecords hread), fun h => absurd hpos (Nat.not_lt.2 h)⟩
    · obtain ⟨q, n, pre, r, post, hskip, h⟩ := shows_skipTo 0 hrecords hread hpos hlt
      rw [hskip]
      exact ⟨rfl, fun h => absurd h (Nat.not_lt.2 hpos), fun _ => ⟨pre, r, post, h⟩⟩

theorem iterateForPrev_next_two :
    let f := InputFile.written (.small true false) 1 [⟨[1], [2]⟩, ⟨[3], [4]⟩] fun _ _ => none
    ∃ pre r post, f.entries (.small true false) = pre ++ r :: post ∧
      r.index.blobHandle.offset ≤ 22 ∧ 22 < r.index.blobHandle.offset + r.index.blobHandle.size ∧
      (((create f).iterateForPrev (.small true false) 22).next (.small true false)).yields (.small true false) =
        r :: post := by
  intro f
  have hf : ¬ f.Fails (.small true false) := InputFile.not_fails_written (by decide)
  exact ((iterateForPrev_next hf (by decide) rfl fun h => absurd h (by decide)).2 (by decide)).2.2 (by decide)

end BlobFileIterator

end ValueSep.DiffKV
