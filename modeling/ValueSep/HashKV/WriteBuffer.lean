import ValueSep.HashKV.Flush
import ValueSep.HashKV.Record

/-!
# The write buffer of a flush

Small records are collected in a buffer and written together. What the device will hold once the buffer is written is
`settledDisk`; under `Buffered`, the buffer continues the segment it was started for, and `writeRecord` extends
`settledDisk` by exactly the record, whether or not it writes.
-/

namespace ValueSep.HashKV

open Memory Segment Wp

namespace Flush

variable {cfg : Config} {f : Flush} {i : PoolIndex} {c c₀ o pos threshold update n : Nat} {disk : Nat → UInt8}
  {sg : Segment} {r : Record cfg}

/-- The flush with another device and another buffer. -/
def withBuffer (disk : Nat → UInt8) (segment : Segment) (inSegmentOffset : Nat) (f : Flush) : Flush :=
  { f with store := { f.store with disk }, segment, inSegmentOffset }

theorem exists_flushSegmentBuffer_eq (threshold : Nat) :
    ∃ disk sg, f.flushSegmentBuffer cfg threshold = f.withBuffer disk sg f.inSegmentOffset := by
  unfold flushSegmentBuffer
  split <;> exact ⟨_, _, rfl⟩

/-- The rest of the flush is left alone. -/
theorem wp_writeRecord : wp (f.writeRecord cfg i c o update n) (fun f' => ∃ disk sg n, f' = f.withBuffer disk sg n)
    fun _ => True := by
  refine wp_ite (fun _ => wp_bind_of_forall fun _ => ?_) fun _ => ?_
  · obtain ⟨disk, sg, h⟩ := exists_flushSegmentBuffer_eq (f := f) 0
    rw [h]
    exact ⟨_, _, _, rfl⟩
  · obtain ⟨disk, sg, h⟩ : ∃ disk sg, (if f.segment.id ≠ c ∨ !f.segment.canFit (recordSize n) then
        f.flushSegmentBuffer cfg 0 else f) = f.withBuffer disk sg f.inSegmentOffset := by
      split
      · exact exists_flushSegmentBuffer_eq 0
      · exact ⟨_, _, rfl⟩
    rw [h]
    refine wp_ite (fun _ => wp_ite (fun _ => trivial) fun _ => ?_) fun _ => ?_
    all_goals
      refine wp_seq (Q := fun f' => ∃ disk sg n, f' = f.withBuffer disk sg n) ⟨_, _, _, rfl⟩ ?_
      rintro _ ⟨disk, sg, n', rfl⟩
      refine wp_bind_of_forall fun segment => ?_
      obtain ⟨disk', sg', h⟩ := exists_flushSegmentBuffer_eq (f := f.withBuffer disk segment n') _
      exact ⟨_, _, _, h⟩

/-- The device once the buffer is written. -/
def settledDisk (cfg : Config) (f : Flush) : Nat → UInt8 := (f.flushSegmentBuffer cfg 0).store.disk

/-- The buffer is empty, or it is the end of what was placed in `c` up to `pos`. -/
def Buffered (cfg : Config) (f : Flush) (c pos : Nat) : Prop :=
  f.segment = .none ∨ (f.segment.id = c ∧ f.segment.length = cfg.batchWriteThreshold * 2 ∧ f.segment.flushFront = 0 ∧
    0 < f.segment.writeFront ∧ f.segment.writeFront ≤ f.segment.length ∧ f.inSegmentOffset + f.segment.writeFront = pos)

theorem flushSegmentBuffer_none (h : f.segment = .none) : f.flushSegmentBuffer cfg threshold = f := by
  refine if_neg ?_
  rw [h]
  exact Nat.not_lt_zero _

theorem settledDisk_none (h : f.segment = .none) : f.settledDisk cfg = f.store.disk := by
  rw [settledDisk, flushSegmentBuffer_none h]

theorem settledDisk_eq (h : f.segment.flushFront = 0) :
    f.settledDisk cfg = write f.store.disk (cfg.segmentOffset f.segment.id + f.inSegmentOffset)
      (read f.segment.buf 0 f.segment.writeFront) := by
  rw [settledDisk, flushSegmentBuffer, h]
  by_cases hpos : 0 < f.segment.writeFront
  · rw [if_pos (by omega)]
    simp only [Nat.sub_zero, Nat.zero_add]
  · rw [Nat.eq_zero_of_not_pos hpos]
    exact write_nil.symm

theorem flushSegmentBuffer_zero (h : f.Buffered cfg c pos) :
    f.flushSegmentBuffer cfg 0 = f.withBuffer (f.settledDisk cfg) .none f.inSegmentOffset := by
  rcases h with h | ⟨-, -, hff, hpos, -⟩
  · rw [settledDisk, flushSegmentBuffer_none h, withBuffer, ← h]
  · rw [settledDisk, flushSegmentBuffer, if_pos (by omega)]
    rfl

/-- Any other flush may write, and the settled device is the same. -/
theorem flushSegmentBuffer_settled (threshold : Nat) (h : f.Buffered cfg c pos) :
    ∃ disk sg, f.flushSegmentBuffer cfg threshold = f.withBuffer disk sg f.inSegmentOffset ∧
      (f.withBuffer disk sg f.inSegmentOffset).settledDisk cfg = f.settledDisk cfg ∧
      (f.withBuffer disk sg f.inSegmentOffset).Buffered cfg c pos := by
  by_cases ht : threshold < f.segment.writeFront - f.segment.flushFront
  · refine ⟨f.settledDisk cfg, .none, ?_, settledDisk_none rfl, .inl rfl⟩
    rw [← flushSegmentBuffer_zero h, flushSegmentBuffer, if_pos ht, flushSegmentBuffer, if_pos (by omega)]
  · exact ⟨f.store.disk, f.segment, if_neg ht, rfl, h⟩

theorem append_buffered (hid : f.segment.id = c) (hlen : f.segment.length = cfg.batchWriteThreshold * 2)
    (hff : f.segment.flushFront = 0) (hfit : f.segment.writeFront + r.size ≤ f.segment.length)
    (ho : f.inSegmentOffset + f.segment.writeFront = o) {pool : Segment} (hhas : pool.Has update r) :
    ∃ sg, f.segment.appendFrom pool update r.size = .ok sg ∧
      (f.withBuffer f.store.disk sg f.inSegmentOffset).settledDisk cfg =
        write (f.settledDisk cfg) (cfg.segmentOffset c + o) r.image ∧
      (f.withBuffer f.store.disk sg f.inSegmentOffset).Buffered cfg c (o + r.size) := by
  have hsize := r.size_pos
  have hlt : f.segment.length < 2 ^ 63 := by have := cfg.batch_lt; omega
  have happ := appendFrom_ok hhas.holds (by rw [r.length_image]; exact hhas.le) r.length_image.symm hfit hlt
  refine ⟨_, happ, ?_, .inr ⟨hid, hlen, hff, ?_, ?_, ?_⟩⟩
  · have hread : read (write f.segment.buf f.segment.writeFront r.image) 0
        (f.segment.writeFront + r.size) = read f.segment.buf 0 f.segment.writeFront ++ r.image := by
      have := @read_write_self _ f.segment.buf 0 f.segment.writeFront r.image
      rwa [Nat.zero_add, r.length_image] at this
    refine Eq.trans (settledDisk_eq (by exact hff)) ?_
    simp only [withBuffer, Segment.push, r.length_image, hread]
    rw [write_append, length_read, settledDisk_eq hff, hid, ← ho, Nat.add_assoc]
  · show 0 < f.segment.writeFront + r.image.length
    rw [r.length_image]; omega
  · show f.segment.writeFront + r.image.length ≤ f.segment.length
    rwa [r.length_image]
  · show f.inSegmentOffset + (f.segment.writeFront + r.image.length) = o + r.size
    rw [r.length_image]; omega

/-- A record written for offset `o` of `c`, where the buffer ends if it is one of `c`. -/
theorem writeRecord_ok (h : f.Buffered cfg c₀ pos) (ho : c = c₀ → o = pos) (hc : c ≠ invalid)
    (hseg : cfg.Segmental r.key r.value) (hhas : (f.store.pools i).pool.Has update r) :
    ∃ disk sg n, f.writeRecord cfg i c o update r.value.length = .ok (f.withBuffer disk sg n) ∧
      (f.withBuffer disk sg n).settledDisk cfg = write (f.settledDisk cfg) (cfg.segmentOffset c + o) r.image ∧
      (f.withBuffer disk sg n).Buffered cfg c (o + r.size) := by
  unfold writeRecord
  by_cases hbig : cfg.batchWriteThreshold < r.value.length
  · -- written alone, after the buffer
    refine ⟨write (f.settledDisk cfg) (cfg.segmentOffset c + o) r.image, .none, f.inSegmentOffset, ?_,
      settledDisk_none rfl, .inl rfl⟩
    have hread := hhas.image
    rw [Record.size] at hread
    simp only [if_pos hbig, flushSegmentBuffer_zero h, hread]
    rfl
  · have hfit : r.size ≤ cfg.batchWriteThreshold * 2 := hseg.2.2.2.2.resolve_left hbig
    have hthr : cfg.batchWriteThreshold ≠ 0 := by have := r.value_pos; omega
    simp only [if_neg hbig]
    rw [show recordSize r.value.length = r.size from rfl]
    -- what follows once there is a buffer for `c` that ends at `o` and has room
    have hlast : ∀ f' : Flush, f'.segment.id = c → f'.segment.length = cfg.batchWriteThreshold * 2 →
        f'.segment.flushFront = 0 → f'.segment.writeFront + r.size ≤ f'.segment.length →
        f'.inSegmentOffset + f'.segment.writeFront = o → f'.settledDisk cfg = f.settledDisk cfg →
        (∃ disk sg n, f' = f.withBuffer disk sg n) →
        ∃ disk sg n, (do
            let segment ← f'.segment.appendFrom (f.store.pools i).pool update r.size
            Except.ok ({ f' with segment }.flushSegmentBuffer cfg (cfg.batchWriteThreshold - 1))) =
            .ok (f.withBuffer disk sg n) ∧
          (f.withBuffer disk sg n).settledDisk cfg =
            write (f.settledDisk cfg) (cfg.segmentOffset c + o) r.image ∧
          (f.withBuffer disk sg n).Buffered cfg c (o + r.size) := by
      rintro f' hid hlen hff hfit' ho' hdisk ⟨disk, sg₀, n, rfl⟩
      obtain ⟨sg, happ, hsettled, hbuf⟩ := append_buffered hid hlen hff hfit' ho' hhas
      obtain ⟨disk', sg', heq, hsettled', hbuf'⟩ := flushSegmentBuffer_settled (cfg.batchWriteThreshold - 1) hbuf
      refine ⟨disk', sg', n, ?_, ?_, hbuf'⟩
      · rw [happ]
        exact congrArg Except.ok heq
      · rw [← hdisk, ← hsettled, ← hsettled']
        rfl
    by_cases hkeep : f.segment.id ≠ c ∨ (!f.segment.canFit r.size) = true
    · -- a new buffer
      simp only [if_pos hkeep, flushSegmentBuffer_zero h]
      have hid : (f.withBuffer (f.settledDisk cfg) .none f.inSegmentOffset).segment.id = invalid := rfl
      simp only [if_pos hid, if_neg hthr]
      refine hlast (f.withBuffer (f.settledDisk cfg) (.init c (cfg.batchWriteThreshold * 2) cfg.uninit) o) rfl rfl rfl
        ?_ rfl ?_ ⟨_, _, _, rfl⟩
      · show 0 + r.size ≤ _
        rw [Nat.zero_add]; exact hfit
      · rw [settledDisk_eq rfl]
        exact write_nil
    · -- the buffer of `c` goes on
      rw [not_or, not_not, Bool.not_eq_true, Bool.not_eq_false'] at hkeep
      obtain ⟨hid, hcan⟩ := hkeep
      rcases h with hnone | ⟨hc₀, hlen, hff, hpos, hle, hend⟩
      · rw [hnone] at hid
        exact absurd hid.symm hc
      · have hlt : f.segment.length < 2 ^ 63 := by have := cfg.batch_lt; omega
        have hroom : f.segment.writeFront + r.size ≤ f.segment.length :=
          (canFit_iff (by have := cfg.batch_lt; omega) hlt).1 hcan
        have hcond : ¬(f.segment.id ≠ c ∨ (!f.segment.canFit r.size) = true) := by simp [hid, hcan]
        have hinv : f.segment.id ≠ invalid := hid ▸ hc
        simp only [if_neg hcond, if_neg hinv]
        exact hlast f hid hlen hff hroom (by rw [ho (hid.symm.trans hc₀), hend]) rfl ⟨_, _, _, rfl⟩

end Flush

end ValueSep.HashKV
