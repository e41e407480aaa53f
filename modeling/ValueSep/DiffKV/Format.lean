import ValueSep.DiffKV.Basic

/-!
# Blob records, handles and indexes

`blob_format.{h,cc}` and the record path of `BlobFileReader::ReadRecord` / `BlobStorage::ReadBuildingFile`.
`BlobDecoder` trusts the sizes in front of it: behind the bytes it was given it takes what memory holds there
(`Codec.slice`). Two facts are used everywhere above this module: what was appended is read back
(`readRecord_encodeRecord`) and stays readable when the file grows (`readRecord_append`).
-/

namespace ValueSep.DiffKV

open Coding
open List

def kBlobHeaderSize : Nat := 8
def kRecordHeaderSize : Nat := 9
def kBlobFooterSize : Nat := 32
def kNoCompression : UInt8 := 0

structure BlobRecord where
  key : Slice
  value : Slice
deriving DecidableEq, Repr

structure BlobHandle where
  offset : Nat
  size : Nat
deriving DecidableEq, Repr, Inhabited

structure BlobIndex where
  fileNumber : Nat
  blobHandle : BlobHandle
deriving DecidableEq, Repr

namespace BlobRecord

/-- `BlobRecord::size`, without prefixes or header. -/
def size (r : BlobRecord) : Nat := r.key.length + r.value.length

def encodeTo (r : BlobRecord) (onlyValue : Bool) : Bytes :=
  if onlyValue then r.value else putLengthPrefixed r.key ++ putLengthPrefixed r.value

/-- `DecodeInto(src, record)`: bytes left over are a corruption. In value-only mode the key of the
caller's record, empty so far, is not touched. -/
def decodeInto (onlyValue : Bool) (src : Bytes) : Except Status BlobRecord :=
  if onlyValue then .ok ⟨[], src⟩
  else
    match getLengthPrefixed src with
    | none => .error (.corruption "BlobRecord")
    | some (key, src) =>
      match getLengthPrefixed src with
      | none => .error (.corruption "BlobRecord")
      | some (value, src) => if src = [] then .ok ⟨key, value⟩ else .error (.corruption "")

theorem decodeInto_encodeTo {r : BlobRecord} (hk : r.key.length < 2 ^ 32) (hv : r.value.length < 2 ^ 32) :
    decodeInto false (r.encodeTo false) = .ok r := by
  have hval := getLengthPrefixed_putLengthPrefixed hv []
  rw [append_nil] at hval
  simp [decodeInto, encodeTo, getLengthPrefixed_putLengthPrefixed hk, hval]

end BlobRecord

/-! ### Indexes -/

namespace BlobIndex

def kBlobRecord : UInt8 := 1

def encodeTo (i : BlobIndex) : Bytes :=
  kBlobRecord :: (putVarint64 i.fileNumber ++ (putVarint64 i.blobHandle.offset ++ putVarint64 i.blobHandle.size))

/-- `DecodeFrom`, with the bytes it leaves. -/
def decodeHead : Bytes → Except Status (BlobIndex × Bytes)
  | [] => .error (.corruption "BlobIndex")
  | type :: src =>
    if type ≠ kBlobRecord then .error (.corruption "BlobIndex")
    else
      match getVarint64 src with
      | none => .error (.corruption "BlobIndex")
      | some (fileNumber, src) =>
        match getVarint64 src with
        | none => .error (.corruption "BlobIndex: Corruption: BlobHandle")
        | some (offset, src) =>
          match getVarint64 src with
          | none => .error (.corruption "BlobIndex: Corruption: BlobHandle")
          | some (size, src) => .ok (⟨fileNumber, offset, size⟩, src)

/-- `DecodeFrom`; bytes that follow are left alone. -/
def decodeFrom (src : Bytes) : Except Status BlobIndex := (decodeHead src).map Prod.fst

theorem decodeFrom_encodeTo {i : BlobIndex} (hn : i.fileNumber < 2 ^ 64) (ho : i.blobHandle.offset < 2 ^ 64)
    (hs : i.blobHandle.size < 2 ^ 64) : decodeFrom i.encodeTo = .ok i := by
  have hsize := getVarint64_putVarint64 hs []
  rw [append_nil] at hsize
  simp [decodeFrom, decodeHead, encodeTo, getVarint64_putVarint64 hn, getVarint64_putVarint64 ho, hsize, Except.map]

theorem ne_ok_of_decodeHead {src : Bytes} {st : Status} (h : decodeHead src = .error st) : st ≠ .ok := by
  unfold decodeHead at h
  split at h
  · cases h; exact nofun
  · split_ifs at h
    · cases h; exact nofun
    · repeat' split at h
      all_goals cases h
      all_goals exact nofun

theorem ne_ok_of_decodeFrom {src : Bytes} {st : Status} (h : decodeFrom src = .error st) : st ≠ .ok := by
  unfold decodeFrom at h
  cases hdec : decodeHead src <;> rw [hdec] at h <;> cases h
  exact ne_ok_of_decodeHead hdec

end BlobIndex

/-! ### Encoder -/

/-- `GoodCompressionRatio`. -/
def goodCompressionRatio (compressed raw : Nat) : Bool := compressed < raw - raw / 8

/-- `Compress`: the input itself, under `kNoCompression`, unless the library shrinks it by an eighth. -/
def compress (c : Codec) (type : UInt8) (input : Bytes) : Bytes × UInt8 :=
  if type = kNoCompression then (input, type)
  else
    match c.compressor type input with
    | some output => if goodCompressionRatio output.length input.length then (output, type)
        else (input, kNoCompression)
    | none => (input, kNoCompression)

/-- `BlobEncoder::EncodeRecord` on a record with or without its key: the nine header bytes and the body, compressed if
that pays. Every size is cut to 32 bits where it is written; a release build has no assertion on it. -/
def encodeRecord (o : Options) (onlyValue : Bool) (r : BlobRecord) : Bytes :=
  let record := compress o.codec o.blobFileCompression (r.encodeTo onlyValue)
  let tail := putFixed 4 record.1.length ++ [record.2]
  putFixed 4 (o.codec.crc32c (tail ++ record.1)) ++ tail ++ record.1

/-- The sizes the format can represent: 32 bits for the lengths of key, value and (compressed) record. -/
def Encodable (o : Options) (onlyValue : Bool) (r : BlobRecord) : Prop :=
  r.key.length < 2 ^ 32 ∧ r.value.length < 2 ^ 32 ∧
    (compress o.codec o.blobFileCompression (r.encodeTo onlyValue)).1.length < 2 ^ 32

instance (o : Options) (onlyValue : Bool) (r : BlobRecord) : Decidable (Encodable o onlyValue r) :=
  inferInstanceAs (Decidable (_ ∧ _ ∧ _))

/-! ### Decoder -/

structure RecordHeader where
  crc : Nat
  recordSize : Nat
  compression : UInt8
deriving DecidableEq

/-- `BlobDecoder::DecodeHeader`. The header checksum is taken over five bytes that need not be there; nothing looks
at it. -/
def decodeHeader (src : Bytes) : Except Status (RecordHeader × Bytes) :=
  match getFixed 4 src with
  | none => .error (.corruption "BlobHeader")
  | some (crc, src) =>
    match getFixed 4 src with
    | none => .error (.corruption "BlobHeader")
    | some (_, []) => .error (.corruption "BlobHeader")
    | some (size, compression :: src) => .ok (⟨crc, size, compression⟩, src)

namespace Codec

/-- `Slice(src->data(), size)`, which may reach behind the buffer. -/
def slice (c : Codec) (src : Bytes) (size : Nat) : Bytes :=
  src.take size ++ (range (size - src.length)).map (c.behind src)

/-- What `DecodeInto` gets: the input, or what it uncompresses to. -/
def unpack (c : Codec) (type : UInt8) (input : Bytes) : Except Status Bytes :=
  if type = kNoCompression then .ok input
  else
    match c.uncompressor type input with
    | none => .error (.corruption "Corrupted compressed blob")
    | some raw => .ok raw

end Codec

/-- `BlobDecoder::DecodeRecord`; the checksum comparison is commented out in the source, and nothing compares the
size in the header with that of the slice. -/
def decodeRecord (c : Codec) (onlyValue : Bool) (h : RecordHeader) (src : Bytes) : Except Status BlobRecord :=
  match c.unpack h.compression (c.slice src h.recordSize) with
  | .error e => .error e
  | .ok raw => BlobRecord.decodeInto onlyValue raw

/-- `DecodeHeader` and `DecodeRecord`. -/
def decodeBlob (c : Codec) (onlyValue : Bool) (blob : Bytes) : Except Status BlobRecord :=
  match decodeHeader blob with
  | .error e => .error e
  | .ok (h, src) => decodeRecord c onlyValue h src

/-- `RandomAccessFileReader::Read`: short at the end of the file. -/
def readAt (content : Bytes) (offset size : Nat) : Bytes := (content.drop offset).take size

/-- `BlobFileReader::ReadRecord`, and the body of `BlobStorage::ReadBuildingFile`. -/
def readRecord (c : Codec) (onlyValue : Bool) (content : Bytes) (handle : BlobHandle) :
    Except Status BlobRecord :=
  let blob := readAt content handle.offset handle.size
  if handle.size ≠ blob.length then
    .error (.corruption ("ReadRecord actual size: " ++ toString blob.length ++
      " not equal to blob size " ++ toString handle.size))
  else decodeBlob c onlyValue blob

/-! ### File header and footer -/

def kHeaderMagicNumber : Nat := 0x2be0a614
def kVersion1 : Nat := 1
def kFooterMagicNumber : Nat := 0x2be0a6148e39edc6

/-- `BlobFileHeader::EncodeTo`. -/
def encodeFileHeader : Bytes := putFixed 4 kHeaderMagicNumber ++ putFixed 4 kVersion1

/-- `BlobFileFooter::EncodeTo`: the null meta index handle padded to its largest size, magic number, checksum. -/
def encodeFooter (c : Codec) : Bytes :=
  let body := putVarint 9 0 ++ putVarint 9 0 ++ replicate 18 0 ++ putFixed 8 kFooterMagicNumber
  body ++ putFixed 4 (c.crc32c body)

/-- `BlobFileHeader::DecodeFrom`. -/
def decodeFileHeader (src : Bytes) : Status :=
  let noMagic : Status := .corruption "Blob file header magic number missing or mismatched."
  let noVersion : Status := .corruption "Blob file header version missing or invalid."
  match getFixed 4 src with
  | none => noMagic
  | some (magic, src) =>
    if magic ≠ kHeaderMagicNumber then noMagic
    else
      match getFixed 4 src with
      | none => noVersion
      | some (version, _) => if version ≠ kVersion1 then noVersion else .ok

/-- `BlobFileFooter::DecodeFrom`, with the size that `meta_index_handle` has afterwards: it is decoded before the
magic number and the checksum are looked at. -/
def decodeFooter (c : Codec) (src : Bytes) : Nat × Status :=
  match (getVarint 9 src).bind fun (_, src) => getVarint 9 src with
  | none => (0, .corruption "BlobFileFooter: Corruption: bad block handle")
  | some (size, _) => (size % 2 ^ 64,
      match getFixed 8 (src.drop (kBlobFooterSize - 12)) with
      | none => .corruption "BlobFileFooter: magic number"
      | some (magic, rest) =>
        if magic ≠ kFooterMagicNumber then .corruption "BlobFileFooter: magic number"
        else
          match getFixed 4 rest with
          | none => .corruption "BlobFileFooter: checksum"
          | some (checksum, _) =>
            if c.crc32c (src.take (kBlobFooterSize - 4)) % 256 ^ 4 ≠ checksum then
              .corruption "BlobFileFooter: checksum"
            else .ok)

/-- `BlobFileReader::Open`, on a file of this size according to its metadata. -/
def openReader (o : Options) (fileSize : Nat) (flushed : Bytes) : Status :=
  if fileSize < kBlobFooterSize then .corruption "file is too short to be a blob file"
  else (decodeFooter o.codec (readAt flushed (fileSize - kBlobFooterSize) kBlobFooterSize)).2

/-! ### Reading back -/

theorem decodeFileHeader_encodeFileHeader : decodeFileHeader encodeFileHeader = .ok := by decide

theorem length_encodeFooter (c : Codec) : (encodeFooter c).length = kBlobFooterSize := by
  simp [encodeFooter, putVarint, kBlobFooterSize]

theorem decodeFooter_encodeFooter (c : Codec) : decodeFooter c (encodeFooter c) = (0, .ok) := by
  let handle : Bytes := putVarint 9 0 ++ putVarint 9 0 ++ replicate 18 0
  let magic := putFixed 8 kFooterMagicNumber
  let checksum := putFixed 4 (c.crc32c (handle ++ magic))
  have hhandle : ((getVarint 9 (handle ++ magic ++ checksum)).bind fun (_, src) => getVarint 9 src) =
      some (0, replicate 18 0 ++ magic ++ checksum) := rfl
  have hdrop : (handle ++ magic ++ checksum).drop (kBlobFooterSize - 12) = magic ++ checksum := by
    rw [append_assoc]; exact drop_left' (by decide)
  have htake : (handle ++ magic ++ checksum).take (kBlobFooterSize - 4) = handle ++ magic :=
    take_left' (by decide)
  have hmagic : getFixed 8 (magic ++ checksum) = some (kFooterMagicNumber, checksum) :=
    getFixed_of_lt (by decide) _
  have hchecksum : getFixed 4 checksum = some (c.crc32c (handle ++ magic) % 256 ^ 4, []) := by
    simpa using getFixed_putFixed 4 (c.crc32c (handle ++ magic)) []
  show decodeFooter c (handle ++ magic ++ checksum) = _
  simp only [decodeFooter, hhandle, hdrop, htake, hmagic, hchecksum, ne_eq, not_true, if_false, Nat.zero_mod]

variable {o : Options} {r : BlobRecord}

theorem compress_snd_eq_or (c : Codec) (t : UInt8) (input : Bytes) :
    (compress c t input = (input, kNoCompression)) ∨
      t ≠ kNoCompression ∧ ∃ out, c.compressor t input = some out ∧ compress c t input = (out, t) := by
  unfold compress
  split
  next h => exact .inl (by rw [h])
  next h =>
    split
    next out hout =>
      split
      · exact .inr ⟨h, out, hout, rfl⟩
      · exact .inl rfl
    · exact .inl rfl

variable {onlyValue : Bool} {content : Bytes} {c : Codec} {e : Status} {src : Bytes}

theorem length_encodeRecord (o : Options) (onlyValue : Bool) (r : BlobRecord) :
    (encodeRecord o onlyValue r).length =
      kRecordHeaderSize + (compress o.codec o.blobFileCompression (r.encodeTo onlyValue)).1.length := by
  simp only [encodeRecord, length_append, length_putFixed, length_singleton, kRecordHeaderSize]

theorem length_encodeRecord_pos (o : Options) (onlyValue : Bool) (r : BlobRecord) :
    0 < (encodeRecord o onlyValue r).length := by
  rw [length_encodeRecord, kRecordHeaderSize]
  omega

theorem encodeRecord_eq_append (h : Encodable o onlyValue r) :
    let record := compress o.codec o.blobFileCompression (r.encodeTo onlyValue)
    ∃ header crc, encodeRecord o onlyValue r = header ++ record.1 ∧ header.length = kRecordHeaderSize ∧
      ∀ src, decodeHeader (header ++ src) = .ok (⟨crc, record.1.length, record.2⟩, src) := by
  intro record
  have hsize : record.1.length % 256 ^ 4 = record.1.length := Nat.mod_eq_of_lt h.2.2
  let tail := putFixed 4 record.1.length ++ [record.2]
  let crc := o.codec.crc32c (tail ++ record.1)
  refine ⟨putFixed 4 crc ++ tail, crc % 256 ^ 4, rfl, by simp [tail, kRecordHeaderSize], fun src => ?_⟩
  simp only [decodeHeader, append_assoc, getFixed_putFixed, hsize, singleton_append, tail]

theorem Codec.slice_of_le {n : Nat} (c : Codec) (h : n ≤ src.length) : c.slice src n = src.take n := by
  rw [slice, Nat.sub_eq_zero_of_le h, range_zero, map_nil, append_nil]

theorem Codec.unpack_compress (c : Codec) (t : UInt8) (raw : Bytes) :
    c.unpack (compress c t raw).2 (compress c t raw).1 = .ok raw := by
  rcases compress_snd_eq_or c t raw with hc | ⟨ht, out, hout, hc⟩
  · rw [hc]
    rfl
  · simp only [hc, unpack, if_neg ht, c.uncompressor_compressor _ _ _ hout]

/-- What comes back of a record: without its key if it was written so. -/
def BlobRecord.readBack (onlyValue : Bool) (r : BlobRecord) : BlobRecord := if onlyValue then ⟨[], r.value⟩ else r

theorem decodeInto_encodeTo_as (h : Encodable o onlyValue r) :
    BlobRecord.decodeInto onlyValue (r.encodeTo onlyValue) = .ok (r.readBack onlyValue) := by
  cases onlyValue with
  | true => rfl
  | false => exact BlobRecord.decodeInto_encodeTo h.1 h.2.1

theorem decodeRecord_compress (h : Encodable o onlyValue r) (crc : Nat) :
    let record := compress o.codec o.blobFileCompression (r.encodeTo onlyValue)
    decodeRecord o.codec onlyValue ⟨crc, record.1.length, record.2⟩ record.1 = .ok (r.readBack onlyValue) := by
  intro record
  simp only [decodeRecord, Codec.slice_of_le _ (Nat.le_refl _), take_length, record, Codec.unpack_compress,
    decodeInto_encodeTo_as h]

theorem readAt_append_left (pre s post : Bytes) : readAt (pre ++ s ++ post) pre.length s.length = s := by
  simp [readAt]

theorem readRecord_encodeRecord (h : Encodable o onlyValue r) (pre post : Bytes) :
    readRecord o.codec onlyValue (pre ++ encodeRecord o onlyValue r ++ post)
      ⟨pre.length, (encodeRecord o onlyValue r).length⟩ = .ok (r.readBack onlyValue) := by
  obtain ⟨header, crc, henc, -, hh⟩ := encodeRecord_eq_append h
  simp only [readRecord, readAt_append_left, ne_eq, not_true, if_false]
  rw [henc, decodeBlob, hh]
  exact decodeRecord_compress h crc

theorem openReader_encodeFooter (o : Options) (data : Bytes) :
    openReader o (data.length + kBlobFooterSize) (data ++ encodeFooter o.codec) = .ok := by
  have hfooter : readAt (data ++ encodeFooter o.codec) (data.length + kBlobFooterSize - kBlobFooterSize)
      kBlobFooterSize = encodeFooter o.codec := by
    rw [← length_encodeFooter o.codec]
    simpa using readAt_append_left data (encodeFooter o.codec) []
  rw [openReader, if_neg (by omega), hfooter, decodeFooter_encodeFooter]

theorem readAt_append {offset size : Nat} (h : (readAt content offset size).length = size)
    (post : Bytes) : readAt (content ++ post) offset size = readAt content offset size := by
  rcases Nat.eq_zero_or_pos size with rfl | hpos
  · simp [readAt]
  · have hle : size ≤ content.length - offset := by
      simp only [readAt, length_take, length_drop] at h; omega
    simp only [readAt]
    rw [drop_append_of_le_length (by omega), take_append_of_le_length (by simpa using hle)]

theorem readRecord_append {handle : BlobHandle} (h : readRecord c onlyValue content handle = .ok r) (post : Bytes) :
    readRecord c onlyValue (content ++ post) handle = .ok r := by
  have hlen : (readAt content handle.offset handle.size).length = handle.size := by
    by_contra hne
    simp only [readRecord, ne_eq, eq_comm (a := handle.size), hne, not_false_iff, if_true] at h
    cases h
  simpa only [readRecord, readAt_append hlen] using h

/-! ### What cannot be decoded is a corruption -/

theorem decodeHeader_error (h : decodeHeader src = .error e) : ∃ m, e = .corruption m := by
  unfold decodeHeader at h
  split at h
  · cases h; exact ⟨_, rfl⟩
  · split at h <;> cases h <;> exact ⟨_, rfl⟩

theorem decodeInto_error (h : BlobRecord.decodeInto onlyValue src = .error e) : ∃ m, e = .corruption m := by
  unfold BlobRecord.decodeInto at h
  split at h
  · cases h
  · split at h
    · cases h; exact ⟨_, rfl⟩
    · split at h
      · cases h; exact ⟨_, rfl⟩
      · split at h <;> cases h
        exact ⟨_, rfl⟩

theorem of_decodeHeader {h : RecordHeader} {blob : Bytes} (hh : decodeHeader blob = .ok (h, src)) :
    getFixed 4 (blob.drop 4) = some (h.recordSize, h.compression :: src) ∧ blob.drop 8 = h.compression :: src ∧
      blob.length = kRecordHeaderSize + src.length := by
  unfold decodeHeader at hh
  repeat' split at hh
  all_goals cases hh
  next crc src₁ h₁ _ size type h₂ =>
    have hdrop := drop_of_getFixed h₂
    rw [drop_of_getFixed h₁] at h₂ hdrop
    rw [drop_drop] at hdrop
    refine ⟨h₂, hdrop.symm, ?_⟩
    have hlen := congrArg length hdrop
    rw [length_cons, length_drop] at hlen
    rw [kRecordHeaderSize]
    omega

/-- The bytes hold a header, and behind it as many as the size in it says. -/
def HoldsRecord (blob : Bytes) : Prop :=
  ∃ size rest, getFixed 4 (blob.drop 4) = some (size, rest) ∧ kRecordHeaderSize + size ≤ blob.length

theorem holdsRecord_iff {h : RecordHeader} {blob : Bytes} (hh : decodeHeader blob = .ok (h, src)) :
    HoldsRecord blob ↔ h.recordSize ≤ src.length := by
  obtain ⟨hsize, -, hlen⟩ := of_decodeHeader hh
  simp only [HoldsRecord, hsize, hlen, Option.some.injEq, Prod.mk.injEq]
  constructor
  · rintro ⟨size, rest, ⟨rfl, -⟩, hle⟩
    omega
  · intro hle
    exact ⟨_, _, ⟨rfl, rfl⟩, by omega⟩

theorem unpack_error {type : UInt8} (h : c.unpack type src = .error e) : ∃ m, e = .corruption m := by
  unfold Codec.unpack at h
  split at h
  · cases h
  · split at h
    · cases h; exact ⟨_, rfl⟩
    · cases h

theorem decodeRecord_error {rh : RecordHeader} (h : decodeRecord c onlyValue rh src = .error e) : ∃ m, e = .corruption m := by
  unfold decodeRecord at h
  split at h
  next hraw =>
    cases h
    exact unpack_error hraw
  · exact decodeInto_error h

theorem decodeBlob_error (h : decodeBlob c onlyValue src = .error e) : ∃ m, e = .corruption m := by
  unfold decodeBlob at h
  split at h
  next hdec =>
    cases h
    exact decodeHeader_error hdec
  · exact decodeRecord_error h

theorem readRecord_error {handle : BlobHandle}
    (h : readRecord c onlyValue content handle = .error e) : ∃ m, e = .corruption m := by
  unfold readRecord at h
  dsimp only at h
  split at h
  · cases h; exact ⟨_, rfl⟩
  · exact decodeBlob_error h

end ValueSep.DiffKV
