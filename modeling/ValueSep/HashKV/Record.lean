import ValueSep.HashKV.Store
import ValueSep.Lib.Journal

/-!
# Records

The abstract content of the store: records of a key and a value that every stage can carry. A pool and a segment hold
the images of a list of records, one behind the other.
-/

namespace ValueSep.HashKV

open Coding (Bytes)
open Journal (total offsets)
open List Memory

namespace Config

variable (cfg : Config)

/-- A key of the right length that is not one the store uses for its own metadata. -/
def UserKey (key : Bytes) : Prop :=
  key.length = keySize ∧ (∀ c < cfg.numSegment, key ≠ Store.segmentKey c) ∧
    ∀ g < cfg.numMainSegment, key ≠ Store.groupKey g

instance (key : Bytes) : Decidable (cfg.UserKey key) := inferInstanceAs (Decidable (_ ∧ _ ∧ _))

/-- What a record of a hash group must be like: it fits into segments of both kinds and into the write buffer it goes
through, its length leaves the mark bit alone, and its first byte is not taken for padding. -/
def Segmental (key value : Bytes) : Prop :=
  recordSize value.length ≤ cfg.mainSegmentSize ∧ recordSize value.length ≤ cfg.logSegmentSize ∧
  lenSize + value.length < 2 ^ 31 ∧ key.head? ≠ some 0 ∧
  (cfg.batchWriteThreshold < value.length ∨ recordSize value.length ≤ cfg.batchWriteThreshold * 2)

instance (key value : Bytes) : Decidable (cfg.Segmental key value) := inferInstanceAs (Decidable (_ ∧ _))

/-- A pair that can be stored: not empty, no larger than the update pool, and segmental unless it goes to the LSM
tree. -/
def Storable (key value : Bytes) : Prop :=
  cfg.UserKey key ∧ 0 < value.length ∧ value.length < 2 ^ 31 ∧ recordSize value.length ≤ cfg.poolSize ∧
  (cfg.toLSM value.length = false → cfg.Segmental key value)

instance (key value : Bytes) : Decidable (cfg.Storable key value) := inferInstanceAs (Decidable (_ ∧ _))

end Config

structure Record (cfg : Config) where
  key : Bytes
  value : Bytes
  storable : cfg.Storable key value

namespace Record

variable {cfg : Config} (r : Record cfg)

def image : Bytes := r.key ++ (encodeLen r.value.length ++ r.value)

def size : Nat := recordSize r.value.length

def home : Nat := cfg.home r.key r.value.length

theorem key_length : r.key.length = keySize := r.storable.1.1

theorem value_pos : 0 < r.value.length := r.storable.2.1

theorem value_lt : r.value.length < 2 ^ 31 := r.storable.2.2.1

theorem size_le_poolSize : r.size ≤ cfg.poolSize := r.storable.2.2.2.1

theorem size_eq : r.size = keySize + (lenSize + r.value.length) := by
  have hne : r.value.length ≠ invalid := by
    have := r.value_lt
    unfold invalid; omega
  rw [size, recordSize, if_neg hne]
  omega

theorem size_pos : 0 < r.size := by
  rw [size_eq]; unfold keySize; omega

@[simp] theorem length_image : r.image.length = r.size := by
  simp [image, size_eq, key_length]

theorem home_lsm (h : cfg.toLSM r.value.length = true) : r.home = lsmSegment := if_pos h

theorem home_main (h : cfg.toLSM r.value.length = false) : r.home = cfg.mainSegmentOf r.key := by
  rw [home, Config.home, h]; rfl

theorem mainSegmentOf_ne_lsm (key : Bytes) : cfg.mainSegmentOf key ≠ lsmSegment := by
  have := cfg.mainSegmentOf_lt key
  have := cfg.numSegment_lt
  unfold Config.numSegment at this
  unfold lsmSegment
  omega

theorem toLSM_iff : cfg.toLSM r.value.length = true ↔ r.home = lsmSegment := by
  refine ⟨r.home_lsm, fun h => ?_⟩
  rcases hl : cfg.toLSM r.value.length with _ | _
  · rw [r.home_main hl] at h
    exact absurd h (mainSegmentOf_ne_lsm _)
  · rfl

theorem segmental (h : r.home ≠ lsmSegment) : cfg.Segmental r.key r.value := by
  refine r.storable.2.2.2.2 ?_
  rcases hl : cfg.toLSM r.value.length with _ | _
  · rfl
  · exact absurd (r.home_lsm hl) h

theorem home_of_ne (h : r.home ≠ lsmSegment) : r.home = cfg.mainSegmentOf r.key := by
  rw [home, Config.home] at h ⊢
  by_cases hl : cfg.toLSM r.value.length = true
  · rw [if_pos hl] at h; exact absurd rfl h
  · rw [if_neg hl]

theorem home_lt (h : r.home ≠ lsmSegment) : r.home < cfg.numMainSegment := by
  rw [r.home_of_ne h]
  exact cfg.mainSegmentOf_lt r.key

/-- Records one behind the other. -/
def images (rs : List (Record cfg)) : Bytes := rs.flatMap image

variable {r} {rs rs' : List (Record cfg)} {m : Nat → UInt8} {a o p : Nat}

@[simp] theorem images_nil : images ([] : List (Record cfg)) = [] := rfl

@[simp] theorem images_append : images (rs ++ rs') = images rs ++ images rs' := flatMap_append

theorem images_cons : images (r :: rs) = r.image ++ images rs := rfl

@[simp] theorem images_singleton : images [r] = r.image := by simp [images]

@[simp] theorem length_images : (images rs).length = total size rs := by
  induction rs with
  | nil => rfl
  | cons r rs ih => rw [images, flatMap_cons, length_append, length_image, Journal.total_cons, ← ih]; rfl

theorem eq_nil_of_total (h : total size rs = 0) : rs = [] := by
  rcases rs with _ | ⟨r, rs⟩
  · rfl
  · have := r.size_pos
    rw [Journal.total_cons] at h
    omega

theorem holds_image : Holds m a r.image ↔
    Holds m a r.key ∧ Holds m (a + keySize) (encodeLen r.value.length) ∧ Holds m (a + keySize + lenSize) r.value := by
  rw [image, holds_append, holds_append, key_length, length_encodeLen]

theorem holds_of_mem_offsets (h : Holds m (a + o) (images rs)) (hmem : (p, r) ∈ offsets size o rs) :
    Holds m (a + p) r.image := by
  induction rs generalizing o with
  | nil => cases hmem
  | cons s rs ih =>
    rw [images, flatMap_cons, holds_append, length_image, Nat.add_assoc] at h
    rcases mem_cons.1 hmem with heq | hmem
    · cases heq; exact h.1
    · exact ih h.2 hmem

end Record

namespace Segment

variable {cfg : Config} {a : Segment} {r : Record cfg} {o : Nat}

/-- A segment that has the record at `o` in full. -/
structure Has (a : Segment) (o : Nat) (r : Record cfg) : Prop where
  holds : Holds a.buf o r.image
  le : o + r.size ≤ a.length

theorem Has.key (h : a.Has o r) : a.readData o keySize = .ok r.key := by
  have hle := h.le
  rw [r.size_eq] at hle
  have := readData_of_holds (Record.holds_image.1 h.holds).1 (by rw [r.key_length]; omega)
  rwa [r.key_length] at this

theorem Has.len (h : a.Has o r) : a.readLen (o + keySize) = .ok r.value.length := by
  have hle := h.le
  rw [r.size_eq] at hle
  have hlt := r.value_lt
  exact readLen_of_holds (Record.holds_image.1 h.holds).2.1 (by omega) (by omega)

theorem Has.value (h : a.Has o r) : a.readData (o + keySize + lenSize) r.value.length = .ok r.value := by
  have hle := h.le
  rw [r.size_eq] at hle
  exact readData_of_holds (Record.holds_image.1 h.holds).2.2 (by omega)

theorem Has.image (h : a.Has o r) : a.readData o r.size = .ok r.image := by
  have := readData_of_holds h.holds (by rw [r.length_image]; exact h.le)
  rwa [r.length_image] at this

theorem push_image : ((a.push r.key).push (encodeLen r.value.length)).push r.value = a.push r.image := by
  rw [push_push, push_push]; rfl

theorem append_record {src : Segment} (hhas : src.Has o r) (hfit : a.writeFront + r.size ≤ a.length)
    (hlen : a.length < 2 ^ 63) :
    a.appendFrom src o keySize = .ok (a.push r.key) ∧
    (a.push r.key).appendFrom src (o + keySize) lenSize = .ok ((a.push r.key).push (encodeLen r.value.length)) ∧
    (a.push r.key).appendData (encodeLen r.value.length) lenSize =
      .ok ((a.push r.key).push (encodeLen r.value.length)) ∧
    ((a.push r.key).push (encodeLen r.value.length)).appendFrom src (o + keySize + lenSize) r.value.length =
      .ok (a.push r.image) := by
  have hsize := r.size_eq
  have hkeyLen := r.key_length
  have hlenLen := length_encodeLen r.value.length
  have hin := hhas.le
  obtain ⟨hkey, hl, hvalue⟩ := Record.holds_image.1 hhas.holds
  refine ⟨?_, ?_, ?_, ?_⟩
  · exact appendFrom_ok hkey (by omega) hkeyLen.symm (by omega) hlen
  · refine appendFrom_ok hl (by omega) hlenLen.symm ?_ hlen
    rw [length_push, writeFront_push]; omega
  · refine appendData_ok hlenLen.symm ?_ hlen
    rw [length_push, writeFront_push]; omega
  · rw [← push_image]
    refine appendFrom_ok hvalue (by omega) rfl ?_ hlen
    rw [length_push, length_push, writeFront_push, writeFront_push]; omega

end Segment

end ValueSep.HashKV
