import ValueSep.DiffKV.BlobFile

/-!
# The checksum of a record

`EncodeRecord` stores crc32c of the length, the compression byte and the payload. `DecodeRecord` does not compare
it with anything: what `BlobFileReader::Get` and `BlobFileIterator` refuse are bytes that are not a record at all
(`Refused`), and a record whose value has changed is returned like any other.
-/

namespace ValueSep.DiffKV

open Coding
open List Options

/-- The header of a record and its payload, if the bytes hold all of it. -/
def frame (blob : Bytes) : Option (RecordHeader × Bytes) :=
  match decodeHeader blob with
  | .error _ => none
  | .ok (h, src) => if h.recordSize ≤ src.length then some (h, src.take h.recordSize) else none

/-- The stored checksum is that of the stored length, the compression byte and the payload. -/
def ChecksumMatches (c : Codec) (blob : Bytes) : Prop :=
  ∃ h payload, frame blob = some (h, payload) ∧
    h.crc = c.crc32c (putFixed 4 h.recordSize ++ [h.compression] ++ payload) % 256 ^ 4

instance (c : Codec) (blob : Bytes) : Decidable (ChecksumMatches c blob) :=
  decidable_of_iff
    (∃ p ∈ frame blob, p.1.crc = c.crc32c (putFixed 4 p.1.recordSize ++ [p.1.compression] ++ p.2) % 256 ^ 4)
    (by simp [ChecksumMatches])

/-- The payload uncompresses, and is a key and a value with nothing behind them unless it is only a value. -/
def Unpacks (c : Codec) (onlyValue : Bool) (type : UInt8) (payload : Bytes) : Prop :=
  ∃ raw, (if type = kNoCompression then raw = payload else c.uncompressor type payload = some raw) ∧
    (onlyValue = true ∨
      ∃ key rest value, getLengthPrefixed raw = some (key, rest) ∧ getLengthPrefixed rest = some (value, []))

/-- Bytes without a whole header, or with a payload that is no record. Where the size in the header is larger than what
is behind it, the payload goes on into whatever memory holds there. -/
def Refused (c : Codec) (onlyValue : Bool) (blob : Bytes) : Prop :=
  blob.length < kRecordHeaderSize ∨
    ∃ h src, decodeHeader blob = .ok (h, src) ∧ ¬ Unpacks c onlyValue h.compression (c.slice src h.recordSize)

/-- The decodings of `GetBlobRecord` at an offset of a file that can be read. -/
def decodeAt (c : Codec) (content : Bytes) (offset : Nat) : Except Status BlobRecord :=
  match decodeHeader (readAt content offset kRecordHeaderSize) with
  | .error e => .error e
  | .ok (h, _) => decodeRecord c false h (readAt content (offset + kRecordHeaderSize) h.recordSize)

/-- `Get` returns the record only with its checksum, and a corruption without it. -/
def BlobFileReader.Detects (o : Options) (onlyValue : Bool) (rd : BlobFileReader) (handle : BlobHandle) : Prop :=
  let blob := readAt rd.flushed handle.offset handle.size
  (∀ r, (rd.get o onlyValue handle).2 = .ok r → ChecksumMatches o.codec blob) ∧
    (¬ ChecksumMatches o.codec blob → ∃ m, (rd.get o onlyValue handle).2 = .error (.corruption m))

/-- The same for the record at the iterator's offset. -/
def BlobFileIterator.Detects (o : Options) (content : Bytes) (it : BlobFileIterator) : Prop :=
  let blob := content.drop it.iterateOffset
  ((it.getBlobRecord o).status = .ok → ChecksumMatches o.codec blob) ∧
    (¬ ChecksumMatches o.codec blob → ∃ m, (it.getBlobRecord o).status = .corruption m)

/-! ### What the decoder refuses -/

section

variable {c : Codec} {onlyValue : Bool} {blob : Bytes}

theorem decodeHeader_of_short (hlt : blob.length < kRecordHeaderSize) :
    decodeHeader blob = .error (.corruption "BlobHeader") := by
  rcases hh : decodeHeader blob with e | ⟨h, src⟩
  · unfold decodeHeader at hh
    repeat' split at hh
    all_goals cases hh
    all_goals rfl
  · have hlen := (of_decodeHeader hh).2.2
    omega

theorem decodeHeader_append {header : Bytes} (hlen : header.length = kRecordHeaderSize) :
    ∃ h, ∀ src, decodeHeader (header ++ src) = .ok (h, src) := by
  have h4 : (header.take 4).length = 4 := by
    rw [length_take, hlen]
    rfl
  have h8 : ((header.drop 4).take 4).length = 4 := by
    rw [length_take, length_drop, hlen]
    rfl
  obtain ⟨type, htype⟩ : ∃ type, header.drop 8 = [type] := by
    rw [← length_eq_one_iff, length_drop, hlen, kRecordHeaderSize]
  obtain ⟨crc, hcrc⟩ := getFixed_append h4
  obtain ⟨size, hsize⟩ := getFixed_append h8
  have hheader : header = header.take 4 ++ ((header.drop 4).take 4 ++ [type]) := by
    have hdrop : header.drop 8 = (header.drop 4).drop 4 := by rw [drop_drop]
    rw [← htype, hdrop, take_append_drop, take_append_drop]
  refine ⟨⟨crc, size, type⟩, fun src => ?_⟩
  rw [hheader, append_assoc, append_assoc, singleton_append]
  simp only [decodeHeader, hcrc, hsize]

theorem decodeHeader_of_le (hlen : kRecordHeaderSize ≤ blob.length) :
    ∃ h, decodeHeader (blob.take kRecordHeaderSize) = .ok (h, []) ∧
      decodeHeader blob = .ok (h, blob.drop kRecordHeaderSize) := by
  obtain ⟨h, hh⟩ := decodeHeader_append (length_take_of_le hlen)
  refine ⟨h, ?_, ?_⟩
  · simpa using hh []
  · simpa using hh (blob.drop kRecordHeaderSize)

theorem decodeInto_corruption_iff (raw : Bytes) :
    (∃ m, BlobRecord.decodeInto onlyValue raw = .error (.corruption m)) ↔ ¬ (onlyValue = true ∨
        ∃ key rest value, getLengthPrefixed raw = some (key, rest) ∧ getLengthPrefixed rest = some (value, [])) := by
  unfold BlobRecord.decodeInto
  split
  next h => simp [h]
  next h =>
    rw [or_iff_right h]
    split
    next hkey => simp [hkey]
    next key rest hkey =>
      split
      next hvalue => simp [hkey, hvalue]
      next value left hvalue =>
        split <;> simp_all

theorem decodeRecord_corruption_iff (h : RecordHeader) (src : Bytes) :
    (∃ m, decodeRecord c onlyValue h src = .error (.corruption m)) ↔
      ¬ Unpacks c onlyValue h.compression (c.slice src h.recordSize) := by
  simp only [decodeRecord, Codec.unpack, Unpacks]
  by_cases htype : h.compression = kNoCompression
  · simp [htype, decodeInto_corruption_iff]
  · rcases hraw : c.uncompressor h.compression (c.slice src h.recordSize) with _ | raw
    · simp [htype]
    · simp [htype, decodeInto_corruption_iff]

theorem decodeBlob_corruption_iff :
    (∃ m, decodeBlob c onlyValue blob = .error (.corruption m)) ↔ Refused c onlyValue blob := by
  rcases Nat.lt_or_ge blob.length kRecordHeaderSize with hlt | hle
  · rw [decodeBlob, decodeHeader_of_short hlt]
    exact iff_of_true ⟨_, rfl⟩ (.inl hlt)
  · obtain ⟨h, -, hh⟩ := decodeHeader_of_le hle
    rw [Refused, or_iff_right (Nat.not_lt.2 hle), decodeBlob, hh]
    simp [decodeRecord_corruption_iff]

theorem decodeBlob_error_iff : (∃ e, decodeBlob c onlyValue blob = .error e) ↔ Refused c onlyValue blob := by
  rw [← decodeBlob_corruption_iff]
  constructor
  · rintro ⟨e, he⟩
    obtain ⟨m, rfl⟩ := decodeBlob_error he
    exact ⟨m, he⟩
  · rintro ⟨m, hm⟩
    exact ⟨_, hm⟩

/-- The two reads of the iterator see what one read of the record would. -/
theorem decodeAt_eq (c : Codec) (content : Bytes) (offset : Nat) :
    decodeAt c content offset = decodeBlob c false (content.drop offset) := by
  set blob := content.drop offset with hblob
  have hheader : readAt content offset kRecordHeaderSize = blob.take kRecordHeaderSize := rfl
  have hbody (n : Nat) : readAt content (offset + kRecordHeaderSize) n = (blob.drop kRecordHeaderSize).take n := by
    rw [readAt, drop_drop]
  rw [decodeAt, hheader, decodeBlob]
  rcases Nat.lt_or_ge blob.length kRecordHeaderSize with hlt | hle
  · rw [take_of_length_le (Nat.le_of_lt hlt), decodeHeader_of_short hlt]
  · obtain ⟨h, hh, hh'⟩ := decodeHeader_of_le hle
    simp only [hh, hh', hbody, decodeRecord]
    rcases Nat.le_total (blob.drop kRecordHeaderSize).length h.recordSize with hle | hle
    · rw [take_of_length_le hle]
    · rw [c.slice_of_le (by rw [length_take_of_le hle]), c.slice_of_le hle, take_take, min_self]

end

/-! ### What the readers return -/

namespace BlobFileReader

variable {o : Options} {onlyValue : Bool} {rd : BlobFileReader} {handle : BlobHandle}

theorem get_of_miss (hmiss : rd.cached = true → rd.cache.lookup handle.offset = none) :
    (rd.get o onlyValue handle).2 = readRecord o.codec onlyValue rd.flushed handle := by
  have hnone : (if rd.cached then rd.cache.lookup handle.offset else none) = none := by
    split
    next hcached => exact hmiss hcached
    next => rfl
  rw [get, hnone]
  dsimp only
  split
  next hread => exact hread.symm
  next hread => exact hread.symm

theorem readRecord_corruption_iff (c : Codec) (content : Bytes) :
    (∃ m, readRecord c onlyValue content handle = .error (.corruption m)) ↔
      (readAt content handle.offset handle.size).length ≠ handle.size ∨
        Refused c onlyValue (readAt content handle.offset handle.size) := by
  rw [← decodeBlob_corruption_iff, readRecord]
  split
  next hlen => exact iff_of_true ⟨_, rfl⟩ (.inl fun h => hlen h.symm)
  next hlen => rw [or_iff_right (fun h => hlen fun h' => h h'.symm)]

end BlobFileReader

theorem BlobFileReader.detects_iff {o : Options} {onlyValue : Bool} {rd : BlobFileReader} {handle : BlobHandle}
    (hmiss : rd.cached = true → rd.cache.lookup handle.offset = none) :
    rd.Detects o onlyValue handle ↔ ChecksumMatches o.codec (readAt rd.flushed handle.offset handle.size) ∨
        (readAt rd.flushed handle.offset handle.size).length ≠ handle.size ∨
        Refused o.codec onlyValue (readAt rd.flushed handle.offset handle.size) := by
  simp only [Detects, get_of_miss hmiss, readRecord_corruption_iff]
  constructor
  · rintro ⟨-, h⟩
    exact or_iff_not_imp_left.2 h
  · rintro h
    refine ⟨fun r hr => ?_, or_iff_not_imp_left.1 h⟩
    rcases h with h | h
    · exact h
    · obtain ⟨m, hm⟩ := (readRecord_corruption_iff o.codec rd.flushed).2 h
      rw [hm] at hr
      cases hr

namespace BlobFileIterator

variable {o : Options} {content : Bytes} {it : BlobFileIterator} {n : Nat} {rs : List BlobRecord}

theorem status_getBlobRecord (hit : it.file = .ofContent n rs content) :
    (it.getBlobRecord o).status =
      match decodeAt o.codec content it.iterateOffset with
      | .error e => e
      | .ok _ => .ok := by
  have hread (offset size : Nat) : it.file.read offset size = .ok (readAt content offset size) := by
    rw [hit]
    rfl
  simp only [getBlobRecord, InputFile.recordAt, hread, decodeAt]
  rcases decodeHeader (readAt content it.iterateOffset kRecordHeaderSize) with e | ⟨h, src⟩
  · rfl
  · dsimp only
    rcases decodeRecord o.codec false h (readAt content (it.iterateOffset + kRecordHeaderSize) h.recordSize)
      with e | r <;> rfl

theorem detects_iff (hit : it.file = .ofContent n rs content) :
    it.Detects o content ↔ ChecksumMatches o.codec (content.drop it.iterateOffset) ∨
        Refused o.codec false (content.drop it.iterateOffset) := by
  rw [← decodeBlob_error_iff, ← decodeAt_eq]
  simp only [Detects, status_getBlobRecord hit]
  rcases hd : decodeAt o.codec content it.iterateOffset with e | r
  · rw [decodeAt_eq] at hd
    obtain ⟨m, rfl⟩ := decodeBlob_error hd
    simp
  · simp

end BlobFileIterator

/-! ### Reads that miss the cache, and the iterator -/

/-- Every reader of every file: a record whose checksum does not match is found out exactly if its bytes are no
record to begin with. -/
theorem checksum_detected_iff (o : Options) (onlyValue : Bool) (content : Bytes) :
    (∀ (rd : BlobFileReader) (handle : BlobHandle), rd.flushed = content →
      (rd.cached = true → rd.cache.lookup handle.offset = none) →
      (rd.Detects o onlyValue handle ↔
        ChecksumMatches o.codec (readAt content handle.offset handle.size) ∨
          (readAt content handle.offset handle.size).length ≠ handle.size ∨
          Refused o.codec onlyValue (readAt content handle.offset handle.size))) ∧
      ∀ (it : BlobFileIterator) (n : Nat) (rs : List BlobRecord), it.file = .ofContent n rs content →
        (it.Detects o content ↔
          ChecksumMatches o.codec (content.drop it.iterateOffset) ∨
            Refused o.codec false (content.drop it.iterateOffset)) := by
  refine ⟨?_, fun it n rs hit => BlobFileIterator.detects_iff hit⟩
  rintro rd handle rfl hmiss
  exact BlobFileReader.detects_iff hmiss

/-- The remainder of crc32c after one more bit. -/
def crc32cBit (crc : Nat) : Nat := if crc % 2 = 1 then crc / 2 ^^^ 0x82f63b78 else crc / 2

/-- crc32c, for the samples. -/
def crc32c (s : Bytes) : Nat :=
  s.foldl (fun crc b => crc32cBit^[8] (crc ^^^ b.toNat)) 0xffffffff ^^^ 0xffffffff

example : crc32c [0x31, 0x32, 0x33, 0x34, 0x35, 0x36, 0x37, 0x38, 0x39] = 0xe3069283 := by decide +kernel

/-- No compression, and the real checksum. -/
def Options.checked : Options := { Options.small true false with codec := { Codec.plain with crc32c } }

/-- A file with one record. -/
def recordFile (r : Bytes) : Bytes := encodeFileHeader ++ r ++ encodeFooter Options.checked.codec

/-- Its value has changed from 3 to 4. -/
def flippedRecord : Bytes := (encodeRecord .checked false ⟨[1], [3]⟩).dropLast ++ [4]

theorem checksum_detected_intact :
    ChecksumMatches Options.checked.codec (readAt (recordFile (encodeRecord .checked false ⟨[1], [3]⟩)) 8 13) ∧
      BlobFileReader.Detects .checked false ⟨recordFile (encodeRecord .checked false ⟨[1], [3]⟩), true, []⟩ ⟨8, 13⟩ := by
  have hmatch : ChecksumMatches checked.codec
      (readAt (recordFile (encodeRecord .checked false ⟨[1], [3]⟩)) 8 13) := by
    decide +kernel
  obtain ⟨hreader, -⟩ := checksum_detected_iff .checked false (recordFile (encodeRecord .checked false ⟨[1], [3]⟩))
  exact ⟨hmatch, (hreader ⟨_, true, []⟩ ⟨8, 13⟩ rfl fun _ => rfl).2 (.inl hmatch)⟩

/-- Both readers return the changed value, with OK. -/
theorem checksum_flipped_value :
    let content := recordFile flippedRecord
    let rd : BlobFileReader := ⟨content, false, []⟩
    let it := { BlobFileIterator.create (.ofContent 1 [⟨[1], [3]⟩] content) with iterateOffset := 8 }
    (rd.get .checked false ⟨8, 13⟩).2 = .ok ⟨[1], [4]⟩ ∧
      ((it.getBlobRecord .checked).status, (it.getBlobRecord .checked).curBlobRecord) = (.ok, ⟨[1], [4]⟩) ∧
      ¬ ChecksumMatches checked.codec (readAt content 8 13) ∧
      ¬ ChecksumMatches checked.codec (content.drop 8) ∧
      ¬ rd.Detects .checked false ⟨8, 13⟩ ∧ ¬ it.Detects .checked content := by
  intro content rd it
  have hget : (rd.get .checked false ⟨8, 13⟩).2 = .ok ⟨[1], [4]⟩ := by decide +kernel
  have hit : ((it.getBlobRecord .checked).status, (it.getBlobRecord .checked).curBlobRecord) =
      (.ok, ⟨[1], [4]⟩) := by
    decide +kernel
  have hread : ¬ ChecksumMatches checked.codec (readAt content 8 13) := by decide +kernel
  have hdrop : ¬ ChecksumMatches checked.codec (content.drop 8) := by decide +kernel
  exact ⟨hget, hit, hread, hdrop, fun h => hread (h.1 _ hget), fun h => hdrop (h.1 (Prod.mk.inj hit).1)⟩

/-! ### Reads that leave the record -/

/-- How far from the start of the bytes the decoder reads, or the slices that it hands on reach. -/
def decodeReach (blob : Bytes) : Nat :=
  match decodeHeader blob with
  | .error _ => if blob.length < 4 then 0 else kRecordHeaderSize
  | .ok (h, _) => kRecordHeaderSize + h.recordSize

theorem decodeBlob_inside_iff (c : Codec) (onlyValue : Bool) (blob : Bytes) :
    (∃ e, decodeBlob c onlyValue blob = .error e) ∨ decodeReach blob ≤ blob.length ↔
      HoldsRecord blob ∨ Refused c onlyValue blob := by
  rw [decodeBlob_error_iff, or_comm]
  rcases Nat.lt_or_ge blob.length kRecordHeaderSize with hlt | hle
  · exact iff_of_true (.inr (.inl hlt)) (.inr (.inl hlt))
  · obtain ⟨h, -, hh⟩ := decodeHeader_of_le hle
    rw [holdsRecord_iff hh, decodeReach, hh]
    dsimp only
    rw [(of_decodeHeader hh).2.2, Nat.add_le_add_iff_left]

/-- `ReadRecord` and `ReadBuildingFile` at every handle, `GetBlobRecord` at every offset: the decoder returns an error or
stays inside what was read exactly if that holds all of the record, or is no record. -/
theorem decoding_inside_iff (c : Codec) (onlyValue : Bool) (content : Bytes) :
    (∀ handle : BlobHandle, (readAt content handle.offset handle.size).length = handle.size →
      ((∃ e, readRecord c onlyValue content handle = .error e) ∨
          decodeReach (readAt content handle.offset handle.size) ≤ handle.size ↔
        HoldsRecord (readAt content handle.offset handle.size) ∨
          Refused c onlyValue (readAt content handle.offset handle.size))) ∧
      ∀ offset, (∃ e, decodeAt c content offset = .error e) ∨
          decodeReach (content.drop offset) ≤ (content.drop offset).length ↔
        HoldsRecord (content.drop offset) ∨ Refused c false (content.drop offset) := by
  constructor
  · intro handle hlen
    have hread : readRecord c onlyValue content handle = decodeBlob c onlyValue _ := if_neg (not_not.2 hlen.symm)
    have hinside := decodeBlob_inside_iff c onlyValue (readAt content handle.offset handle.size)
    rwa [← hread, hlen] at hinside
  · intro offset
    rw [decodeAt_eq]
    exact decodeBlob_inside_iff c false (content.drop offset)

theorem decoding_inside_record :
    (∃ e, readRecord Codec.plain true (replicate 9 0) ⟨0, 9⟩ = .error e) ∨ decodeReach (replicate 9 0) ≤ 9 := by
  obtain ⟨hreader, -⟩ := decoding_inside_iff Codec.plain true (replicate 9 0)
  exact (hreader ⟨0, 9⟩ rfl).2 (.inl ⟨0, _, rfl, by decide⟩)

/-- A header whose size is that of two bytes that are not there: they are the value. -/
theorem decoding_leaves_blob :
    readRecord Codec.plain true [0, 0, 0, 0, 2, 0, 0, 0, 0] ⟨0, 9⟩ = .ok ⟨[], [0, 0]⟩ ∧
      decodeReach [0, 0, 0, 0, 2, 0, 0, 0, 0] = 11 := by
  decide +kernel

end ValueSep.DiffKV
