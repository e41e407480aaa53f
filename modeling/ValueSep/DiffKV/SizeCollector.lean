import Mathlib.Algebra.Order.BigOperators.Group.Multiset
import Mathlib.Algebra.BigOperators.Group.Multiset.Basic
import Mathlib.Data.Multiset.Filter
import ValueSep.DiffKV.Format
import ValueSep.Lib.OrdMap

/-!
# The blob sizes in the properties of an SST

`BlobFileSizeCollector`: for every blob file the SST refers to, the bytes of the records it refers to, as a user
collected property of the table.
-/

namespace ValueSep.DiffKV

open Coding
open List Multiset OrdMap

/-- The bytes that the given references have in file `n`. -/
def bytesOf (n : Nat) (refs : Multiset BlobIndex) : Nat :=
  ((refs.filter fun i => i.fileNumber = n).map fun i => i.blobHandle.size).sum

section bytesOf
variable {n : Nat} {s t : Multiset BlobIndex} {i : BlobIndex}

@[simp] theorem bytesOf_zero (n : Nat) : bytesOf n 0 = 0 := rfl

@[simp] theorem bytesOf_add (n : Nat) (s t : Multiset BlobIndex) : bytesOf n (s + t) = bytesOf n s + bytesOf n t := by
  simp [bytesOf, filter_add]

theorem bytesOf_cons (n : Nat) (i : BlobIndex) (s : Multiset BlobIndex) :
    bytesOf n (i ::ₘ s) = (if i.fileNumber = n then i.blobHandle.size else 0) + bytesOf n s := by
  unfold bytesOf
  rw [Multiset.filter_cons]
  split <;> simp

theorem bytesOf_le (n : Nat) (h : s ≤ t) : bytesOf n s ≤ bytesOf n t := by
  obtain ⟨u, rfl⟩ := Multiset.le_iff_exists_add.1 h
  rw [bytesOf_add]
  exact Nat.le_add_right ..

theorem bytesOf_eq_zero (h : ∀ i ∈ s, i.fileNumber ≠ n) : bytesOf n s = 0 := by
  rw [bytesOf, filter_eq_nil.2 h]
  rfl

theorem not_mem_of_bytesOf_eq_zero (hpos : ∀ i ∈ s, i.fileNumber = n → 0 < i.blobHandle.size) (h : bytesOf n s = 0) :
    ∀ i ∈ s, i.fileNumber ≠ n := by
  intro i hi hn
  obtain ⟨t, rfl⟩ := exists_cons_of_mem hi
  rw [bytesOf_cons, if_pos hn] at h
  have := hpos i hi hn
  omega

end bytesOf

namespace BlobFileSizeCollector

abbrev BlobFilesSize := OrdMap Nat Nat

/-- `AddUserKey` on a blob index. -/
def addUserKey (m : BlobFilesSize) (i : BlobIndex) : BlobFilesSize :=
  m.alter i.fileNumber fun size => u64 (size.getD 0 + i.blobHandle.size)

/-- The map after all blob indexes of the SST. -/
def collect (refs : List BlobIndex) : BlobFilesSize := refs.foldl addUserKey .empty

/-- `BlobFileSizeCollector::Encode`. -/
def encode (m : BlobFilesSize) : Bytes :=
  putVarint32 m.entries.length ++ m.entries.flatMap fun p => putVarint64 p.1 ++ putVarint64 p.2

def decodeEntries : Nat → Bytes → BlobFilesSize → BlobFilesSize × Bool
  | 0, _, m => (m, true)
  | k + 1, src, m =>
    match getVarint64 src with
    | none => (m, false)
    | some (fileNumber, src) =>
      match getVarint64 src with
      | none => (m, false)
      | some (size, src) => decodeEntries k src (m.alter fileNumber fun _ => size)

/-- `BlobFileSizeCollector::Decode`: the map filled so far, and whether all of it could be read. -/
def decode (src : Bytes) : BlobFilesSize × Bool :=
  match getVarint32 src with
  | none => (.empty, false)
  | some (num, src) => decodeEntries num src .empty

theorem find?_foldl_addUserKey (refs : List BlobIndex) (m : BlobFilesSize) (n : Nat) :
    (refs.foldl addUserKey m).find? n =
      if ∀ i ∈ refs, i.fileNumber ≠ n then m.find? n
      else some (u64 ((m.find? n).getD 0 + bytesOf n (refs : Multiset BlobIndex))) := by
  induction refs generalizing m with
  | nil => simp
  | cons i refs ih =>
    rw [List.foldl_cons, ih, ← Multiset.cons_coe, bytesOf_cons]
    by_cases hi : i.fileNumber = n
    · have hfind : (addUserKey m i).find? n = some (u64 ((m.find? n).getD 0 + i.blobHandle.size)) := by
        subst hi; exact find?_alter_self ..
      have hnot : ¬ ∀ j ∈ i :: refs, j.fileNumber ≠ n := fun h => h i (mem_cons_self ..) hi
      rw [hfind, if_pos hi]
      split
      next hnone =>
        rw [bytesOf_eq_zero (by simpa using hnone)]
        simp
      · simp only [Option.getD_some, Option.some.injEq, u64]
        omega
    · have hfind : (addUserKey m i).find? n = m.find? n := find?_alter_of_ne _ _ (Ne.symm hi)
      rw [hfind]
      simp [hi]

theorem find?_collect (refs : List BlobIndex) (n : Nat) :
    (collect refs).find? n =
      if ∀ i ∈ refs, i.fileNumber ≠ n then none else some (u64 (bytesOf n (refs : Multiset BlobIndex))) := by
  rw [collect, find?_foldl_addUserKey]
  simp

/-! ### The property can be read back -/

theorem alterIn_append {es : List (Nat × Nat)} {k : Nat} {f : Option Nat → Nat}
    (h : ∀ k' ∈ es.map Prod.fst, k' < k) : alterIn k f es = es ++ [(k, f none)] := by
  induction es with
  | nil => rfl
  | cons e es ih =>
    have he : e.1 < k := h e.1 (by simp)
    unfold alterIn
    rw [if_neg (by omega), if_neg (by omega), ih fun k' hk' => h k' (mem_cons_of_mem _ hk')]
    rfl

theorem decodeEntries_flatMap {es : List (Nat × Nat)} {m m' : BlobFilesSize} (hm : m'.entries = m.entries ++ es)
    (hlt : ∀ p ∈ es, p.1 < 2 ^ 64 ∧ p.2 < 2 ^ 64) :
    decodeEntries es.length (es.flatMap fun p => putVarint64 p.1 ++ putVarint64 p.2) m = (m', true) := by
  induction es generalizing m with
  | nil =>
    simp only [append_nil] at hm
    obtain ⟨es, hs⟩ := m
    simp only at hm
    subst hm
    rfl
  | cons p es ih =>
    have hp := hlt p (mem_cons_self ..)
    have hkeys : ∀ k ∈ m.entries.map Prod.fst, k < p.1 := by
      intro k hk
      have hsorted := m'.sorted
      rw [hm, map_append, pairwise_append] at hsorted
      exact hsorted.2.2 k hk p.1 (by simp)
    have hnext : m'.entries = (m.alter p.1 fun _ => p.2).entries ++ es := by
      change m'.entries = alterIn p.1 (fun _ => p.2) m.entries ++ es
      rw [alterIn_append hkeys, hm]
      simp
    rw [flatMap_cons, length_cons, decodeEntries, append_assoc,
      getVarint64_putVarint64 hp.1]
    simp only [getVarint64_putVarint64 hp.2]
    exact ih hnext fun q hq => hlt q (mem_cons_of_mem _ hq)

theorem decode_encode {m : BlobFilesSize} (hlen : m.entries.length < 2 ^ 32)
    (hlt : ∀ p ∈ m.entries, p.1 < 2 ^ 64 ∧ p.2 < 2 ^ 64) : decode (encode m) = (m, true) := by
  rw [decode, encode, getVarint32_putVarint32 hlen]
  exact decodeEntries_flatMap rfl hlt

end BlobFileSizeCollector

end ValueSep.DiffKV
