import ValueSep.HashKV.Basic

/-!
# Value locations (`ds/keyvalue.hh`)

What the LSM tree stores for a key: the length, with a mark bit for a value kept in the tree, then the value itself or
one offset into the device area, from which `deserialize` computes the segment again.
-/

namespace ValueSep.HashKV

open Coding (Bytes)
open List Config

structure ValueLocation where
  length : Nat := invalid
  segmentId : Nat := invalid
  offset : Nat := invalid
  value : Bytes := []
  deriving DecidableEq, Repr

namespace ValueLocation

def serialize (cfg : Config) (loc : ValueLocation) : Bytes :=
  let flength := if loc.segmentId = lsmSegment then loc.length ||| lsmMask else loc.length
  let segmentId := if cfg.disableKvSeparation then lsmSegment else loc.segmentId
  encodeLen flength ++
    if segmentId = lsmSegment then loc.value else encodeLen (cfg.segmentOffset loc.segmentId + loc.offset)

/-- A string that is too short is read past its end. -/
def deserialize (cfg : Config) (s : Bytes) : Except Stop ValueLocation :=
  if s.length < lenSize then .error .outOfBounds
  else
    let flength := decodeLen (s.take lenSize)
    let rest := s.drop lenSize
    let inLSM := flength &&& lsmMask ≠ 0
    let length := if inLSM then flength ^^^ lsmMask else flength
    if inLSM ∨ cfg.disableKvSeparation then
      if rest.length < length then .error .outOfBounds
      else .ok { length, segmentId := lsmSegment, value := rest.take length }
    else if rest.length < lenSize then .error .outOfBounds
    else
      let offset := decodeLen (rest.take lenSize)
      let mainArea := cfg.numMainSegment * cfg.mainSegmentSize
      if offset < mainArea then
        .ok { length, segmentId := offset / cfg.mainSegmentSize, offset := offset % cfg.mainSegmentSize }
      else if cfg.logSegmentSize * cfg.numLogSegment < offset - mainArea then
        -- the area behind the log segments is cold storage
        .ok { length, segmentId := cfg.numSegment, offset := offset - (mainArea + cfg.numLogSegment * cfg.logSegmentSize) }
      else
        let i := (offset - mainArea) / cfg.logSegmentSize
        .ok { length, segmentId := cfg.numMainSegment + i, offset := offset - (mainArea + i * cfg.logSegmentSize) }

/-- A value kept in the tree. -/
def inline (value : Bytes) : ValueLocation := { length := value.length, segmentId := lsmSegment, value }

/-- A value of `valueSize` bytes in a segment: the length counts the size field. -/
def stored (segmentId offset valueSize : Nat) : ValueLocation := { length := lenSize + valueSize, segmentId, offset }

variable {cfg : Config}

variable {n : Nat}

theorem and_lsmMask_of_lt (h : n < 2 ^ 31) : n &&& lsmMask = 0 := by
  refine Nat.eq_of_testBit_eq fun i => ?_
  rw [Nat.testBit_and, lsmMask, Nat.testBit_two_pow, Nat.zero_testBit]
  by_cases hi : 31 = i
  · rw [← hi, Nat.testBit_lt_two_pow h, Bool.false_and]
  · rw [decide_eq_false hi, Bool.and_false]

theorem or_and_lsmMask (n : Nat) : (n ||| lsmMask) &&& lsmMask ≠ 0 := by
  intro hzero
  have hbit : ((n ||| lsmMask) &&& lsmMask).testBit 31 = true := by
    rw [Nat.testBit_and, Nat.testBit_or, lsmMask, Nat.testBit_two_pow_self, Bool.or_true, Bool.and_true]
  rw [hzero] at hbit
  cases hbit

theorem or_xor_lsmMask (h : n < 2 ^ 31) : (n ||| lsmMask) ^^^ lsmMask = n := by
  refine Nat.eq_of_testBit_eq fun i => ?_
  rw [Nat.testBit_xor, Nat.testBit_or, lsmMask, Nat.testBit_two_pow]
  by_cases hi : 31 = i
  · rw [← hi, Nat.testBit_lt_two_pow h]
    rfl
  · simp [hi]

/-- A value kept in the tree comes back, whatever else the location says. -/
theorem deserialize_kept {loc : ValueLocation} (hkept : loc.segmentId = lsmSegment) (hlen : loc.value.length = loc.length)
    (h : loc.length < 2 ^ 31) : deserialize cfg (serialize cfg loc) = .ok (inline loc.value) := by
  have hser : serialize cfg loc = encodeLen (loc.length ||| lsmMask) ++ loc.value := by simp [serialize, hkept]
  have hmark : loc.length ||| lsmMask < 2 ^ 64 := Nat.or_lt_two_pow (by omega) (by decide)
  rw [hser, deserialize, if_neg (by simp), take_left' (length_encodeLen _), drop_left' (length_encodeLen _),
    decodeLen_encodeLen hmark]
  dsimp only
  rw [if_pos (or_and_lsmMask _), or_xor_lsmMask h, if_pos (.inl (or_and_lsmMask _)), ← hlen, if_neg (Nat.lt_irrefl _),
    take_length, inline]

theorem deserialize_inline {value : Bytes} (h : value.length < 2 ^ 31) :
    deserialize cfg (serialize cfg (inline value)) = .ok (inline value) :=
  deserialize_kept rfl rfl h

theorem segmentOffset_main {c : Nat} (h : c < cfg.numMainSegment) : cfg.segmentOffset c = c * cfg.mainSegmentSize := if_pos h

theorem segmentOffset_log (i : Nat) : cfg.segmentOffset (cfg.numMainSegment + i) =
    cfg.numMainSegment * cfg.mainSegmentSize + i * cfg.logSegmentSize := by
  rw [segmentOffset, if_neg (by omega), Nat.add_sub_cancel_left]

/-- Segments follow one another on the device. -/
theorem segmentOffset_le {c d : Nat} (h : c < d) : cfg.segmentOffset c + cfg.segmentSize c ≤ cfg.segmentOffset d := by
  by_cases hd : d < cfg.numMainSegment
  · have hc : c < cfg.numMainSegment := Nat.lt_trans h hd
    rw [segmentOffset_main hc, segmentOffset_main hd, segmentSize, isLogSegment,
      if_neg (by simpa using hc), ← Nat.succ_mul]
    exact Nat.mul_le_mul_right _ h
  · obtain ⟨j, rfl⟩ := Nat.exists_eq_add_of_le (Nat.not_lt.1 hd)
    rw [segmentOffset_log]
    by_cases hc : c < cfg.numMainSegment
    · rw [segmentOffset_main hc, segmentSize, isLogSegment, if_neg (by simpa using hc), ← Nat.succ_mul]
      exact Nat.le_trans (Nat.mul_le_mul_right _ hc) (Nat.le_add_right ..)
    · obtain ⟨i, rfl⟩ := Nat.exists_eq_add_of_le (Nat.not_lt.1 hc)
      rw [segmentOffset_log, segmentSize, isLogSegment, if_pos (by simp), Nat.add_assoc, ← Nat.succ_mul]
      exact Nat.add_le_add_left (Nat.mul_le_mul_right _ (by omega)) _

theorem segmentOffset_disjoint {c d : Nat} (h : c ≠ d) :
    cfg.segmentOffset c + cfg.segmentSize c ≤ cfg.segmentOffset d ∨
      cfg.segmentOffset d + cfg.segmentSize d ≤ cfg.segmentOffset c :=
  (Nat.lt_or_gt_of_ne h).imp segmentOffset_le segmentOffset_le

theorem segmentOffset_lt {c : Nat} (h : c < cfg.numSegment) : cfg.segmentOffset c + cfg.segmentSize c < 2 ^ 62 := by
  have hend : cfg.segmentOffset cfg.numSegment =
      cfg.numMainSegment * cfg.mainSegmentSize + cfg.numLogSegment * cfg.logSegmentSize := segmentOffset_log _
  have := cfg.capacity_lt
  have := @segmentOffset_le cfg _ _ h
  omega

/-- Where a location points in the device area is enough to find its segment again. The cold storage behind the log
segments counts as one more segment. -/
theorem deserialize_separated {loc : ValueLocation} (hsep : cfg.disableKvSeparation = false)
    (hc : loc.segmentId = cfg.numSegment ∨ loc.segmentId < cfg.numSegment ∧ loc.offset < cfg.segmentSize loc.segmentId)
    (ha : cfg.segmentOffset loc.segmentId + loc.offset < 2 ^ 64) (hn : loc.length < 2 ^ 31) :
    deserialize cfg (serialize cfg loc) = .ok { loc with value := [] } := by
  obtain ⟨length, c, offset, value⟩ := loc
  dsimp only at hc ha hn ⊢
  have hnum : cfg.numSegment = cfg.numMainSegment + cfg.numLogSegment := rfl
  have hne : c ≠ lsmSegment := by
    have := cfg.numSegment_lt
    unfold lsmSegment; omega
  have hser : serialize cfg ⟨length, c, offset, value⟩ = encodeLen length ++ encodeLen (cfg.segmentOffset c + offset) := by
    simp [serialize, hsep, hne]
  have htake : (encodeLen (cfg.segmentOffset c + offset)).take lenSize = encodeLen (cfg.segmentOffset c + offset) :=
    take_of_length_le (by simp)
  rw [hser, deserialize, if_neg (by simp), take_left' (length_encodeLen _), drop_left' (length_encodeLen _),
    decodeLen_encodeLen (by omega)]
  simp only [and_lsmMask_of_lt hn, hsep, ne_eq, not_true_eq_false, if_false, Bool.false_eq_true, or_self, length_encodeLen,
    Nat.lt_irrefl, htake, decodeLen_encodeLen ha]
  by_cases hmain : c < cfg.numMainSegment
  · have ho : offset < cfg.mainSegmentSize := by
      have := (hc.resolve_left (by omega)).2
      simpa [segmentSize, isLogSegment, Nat.not_le.2 hmain] using this
    have hlt : c * cfg.mainSegmentSize + offset < cfg.numMainSegment * cfg.mainSegmentSize := by
      calc c * cfg.mainSegmentSize + offset < (c + 1) * cfg.mainSegmentSize := by rw [Nat.succ_mul]; omega
        _ ≤ cfg.numMainSegment * cfg.mainSegmentSize := Nat.mul_le_mul_right _ hmain
    have hdiv : (c * cfg.mainSegmentSize + offset) / cfg.mainSegmentSize = c := by
      rw [Nat.mul_comm, Nat.mul_add_div cfg.mainSegmentSize_pos, Nat.div_eq_of_lt ho, Nat.add_zero]
    have hmod : (c * cfg.mainSegmentSize + offset) % cfg.mainSegmentSize = offset := by
      rw [Nat.mul_comm, Nat.mul_add_mod, Nat.mod_eq_of_lt ho]
    rw [segmentOffset_main hmain, if_pos hlt, hdiv, hmod]
  · obtain ⟨i, rfl⟩ := Nat.exists_eq_add_of_le (Nat.not_lt.1 hmain)
    rw [segmentOffset_log, if_neg (by omega), Nat.add_assoc, Nat.add_sub_cancel_left, Nat.mul_comm cfg.logSegmentSize]
    have hlog : i < cfg.numLogSegment → offset < cfg.logSegmentSize := fun hi => by
      have := (hc.resolve_left (by omega)).2
      simpa [segmentSize, isLogSegment] using this
    rcases Nat.lt_or_ge i cfg.numLogSegment with hi | hi
    · have hlt : i * cfg.logSegmentSize + offset < cfg.numLogSegment * cfg.logSegmentSize := by
        calc i * cfg.logSegmentSize + offset < (i + 1) * cfg.logSegmentSize := by rw [Nat.succ_mul]; have := hlog hi; omega
          _ ≤ cfg.numLogSegment * cfg.logSegmentSize := Nat.mul_le_mul_right _ hi
      rw [if_neg (by omega), Nat.mul_comm i, Nat.mul_add_div cfg.logSegmentSize_pos, Nat.div_eq_of_lt (hlog hi), Nat.add_zero,
        Nat.mul_comm i, ← Nat.add_assoc, Nat.add_sub_cancel_left]
    · obtain rfl : i = cfg.numLogSegment := by omega
      split
      · rw [← Nat.add_assoc, Nat.add_sub_cancel_left]; rfl
      · -- the first byte of cold storage is read as the offset behind the log segments
        obtain rfl : offset = 0 := by omega
        rw [Nat.add_zero, Nat.mul_div_cancel _ cfg.logSegmentSize_pos, Nat.sub_self]

theorem deserialize_stored {c offset : Nat} (hsep : cfg.disableKvSeparation = false) (hc : c < cfg.numSegment)
    (ho : offset < cfg.segmentSize c) (hn : lenSize + n < 2 ^ 31) :
    deserialize cfg (serialize cfg (stored c offset n)) = .ok (stored c offset n) := by
  have hend := @segmentOffset_lt cfg c hc
  exact deserialize_separated hsep (.inr ⟨hc, ho⟩) (by unfold stored; dsimp only; omega) hn

/-! ### Every mode -/

/-- `serialize` in vLog mode. -/
def serializeVLog (loc : ValueLocation) : Bytes :=
  encodeLen (if loc.segmentId = lsmSegment then loc.length ||| lsmMask else loc.length) ++
    if loc.segmentId = lsmSegment then loc.value else encodeLen loc.offset

/-- `deserialize` in vLog mode, where no value is in the tree. -/
def deserializeVLog (s : Bytes) : Except Stop ValueLocation :=
  if s.length < lenSize + lenSize then .error .outOfBounds
  else
    let flength := decodeLen (s.take lenSize)
    let length := if flength &&& lsmMask ≠ 0 then flength ^^^ lsmMask else flength
    .ok { length, segmentId := 0, offset := decodeLen ((s.drop lenSize).take lenSize) }

def encode (cfg : Config) (vlog : Bool) (loc : ValueLocation) : Bytes :=
  if vlog then serializeVLog loc else serialize cfg loc

def decode (cfg : Config) (vlog : Bool) (s : Bytes) : Except Stop ValueLocation :=
  if vlog then deserializeVLog s else deserialize cfg s

/-- The locations the code stores in each mode. In cold storage, the place counted from the first segment on must be a
64-bit number. -/
def Storable (cfg : Config) (vlog : Bool) (loc : ValueLocation) : Prop :=
  loc.length < 2 ^ 31 ∧
    if vlog then loc.segmentId = 0 ∧ loc.offset < 2 ^ 64
    else if loc.segmentId = lsmSegment then loc.value.length = loc.length
    else cfg.disableKvSeparation = false ∧
      if loc.segmentId = cfg.numSegment then cfg.segmentOffset loc.segmentId + loc.offset < 2 ^ 64
      else loc.segmentId < cfg.numSegment ∧ loc.offset < cfg.segmentSize loc.segmentId

/-- What is read back is the segment, the length, and the value or the offset. -/
def RoundTrips (cfg : Config) (vlog : Bool) (loc : ValueLocation) : Prop :=
  ∃ loc', decode cfg vlog (encode cfg vlog loc) = .ok loc' ∧ loc'.segmentId = loc.segmentId ∧ loc'.length = loc.length ∧
    if loc.segmentId = lsmSegment then loc'.value = loc.value else loc'.offset = loc.offset

variable {vlog : Bool} {loc : ValueLocation}

theorem Storable.roundTrips (h : Storable cfg vlog loc) : RoundTrips cfg vlog loc := by
  obtain ⟨hlen, h⟩ := h
  cases vlog with
  | true =>
    obtain ⟨hid, hoff⟩ := h
    have hne : loc.segmentId ≠ lsmSegment := by rw [hid]; decide
    have htake : (encodeLen loc.offset).take lenSize = encodeLen loc.offset := take_of_length_le (by simp)
    refine ⟨{ length := loc.length, segmentId := 0, offset := loc.offset }, ?_, hid.symm, rfl, by rw [if_neg hne]⟩
    simp only [decode, encode, if_true, serializeVLog, if_neg hne, deserializeVLog, length_append, length_encodeLen,
      Nat.lt_irrefl, if_false, take_left' (length_encodeLen _), drop_left' (length_encodeLen _), htake,
      decodeLen_encodeLen hoff, decodeLen_encodeLen (show loc.length < 2 ^ 64 by omega), and_lsmMask_of_lt hlen, ne_eq,
      not_true_eq_false]
  | false =>
    by_cases hlsm : loc.segmentId = lsmSegment
    · rw [if_pos hlsm] at h
      exact ⟨_, deserialize_kept hlsm h hlen, hlsm.symm, h, by rw [if_pos hlsm]; rfl⟩
    · rw [if_neg hlsm] at h
      obtain ⟨hsep, h⟩ := h
      split at h
      next hid => exact ⟨_, deserialize_separated hsep (.inl hid) h hlen, rfl, rfl, by rw [if_neg hlsm]⟩
      next =>
        have := segmentOffset_lt h.1
        exact ⟨_, deserialize_separated hsep (.inr h) (by omega) hlen, rfl, rfl, by rw [if_neg hlsm]⟩

/-- What is stored is read back, and different places have different bytes. -/
theorem storable_roundTrips (cfg : Config) (vlog : Bool) : (∀ loc, Storable cfg vlog loc → RoundTrips cfg vlog loc) ∧
    ∀ loc loc', Storable cfg vlog loc → Storable cfg vlog loc' → encode cfg vlog loc = encode cfg vlog loc' →
      loc.segmentId = loc'.segmentId ∧ (loc.segmentId ≠ lsmSegment → loc.offset = loc'.offset) := by
  refine ⟨fun loc h => h.roundTrips, fun loc loc' h h' heq => ?_⟩
  obtain ⟨l, hl, hid, -, hval⟩ := h.roundTrips
  obtain ⟨l', hl', hid', -, hval'⟩ := h'.roundTrips
  rw [heq, hl'] at hl
  cases hl
  have hsame : loc.segmentId = loc'.segmentId := hid.symm.trans hid'
  refine ⟨hsame, fun hne => ?_⟩
  rw [if_neg hne] at hval
  rw [if_neg (hsame ▸ hne)] at hval'
  exact hval.symm.trans hval'

/-- The last byte of the log segments and the first one of cold storage. -/
theorem storable_roundTrips_small : RoundTrips smallConfig false (stored 4 47 3) ∧
    encode smallConfig false (stored 4 47 3) ≠ encode smallConfig false (stored 5 0 3) := by
  have hlast : Storable smallConfig false (stored 4 47 3) := ⟨by decide, rfl, by decide⟩
  have hfirst : Storable smallConfig false (stored 5 0 3) := ⟨by decide, rfl, by decide⟩
  refine ⟨(storable_roundTrips smallConfig false).1 _ hlast, fun heq => ?_⟩
  exact absurd ((storable_roundTrips smallConfig false).2 _ _ hlast hfirst heq).1 (by decide)

/-- An offset in cold storage that takes the sum over the end of the type: it is read as the first main segment. -/
theorem not_roundTrips_wrapped : ¬RoundTrips smallConfig false (stored smallConfig.numSegment (2 ^ 64 - 256) 3) := by
  rintro ⟨loc', hdecode, hid, -⟩
  have hmain : (decode smallConfig false (encode smallConfig false (stored smallConfig.numSegment (2 ^ 64 - 256) 3))).map
      segmentId = .ok 0 := by decide +kernel
  rw [hdecode] at hmain
  cases hmain.symm.trans (congrArg Except.ok hid)

end ValueLocation

end ValueSep.HashKV
