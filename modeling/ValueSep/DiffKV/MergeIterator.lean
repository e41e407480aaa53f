import Mathlib.Order.Compare
import ValueSep.Lib.Merge
import ValueSep.DiffKV.FileIterator

/-!
# The traversal of a job's inputs

`BlobFileMergeIterator`, and the loop `SeekToFirst`, then `Next` while `Valid`. An iterator that has failed is
not pushed back, and nothing remembers it: the traversal ends OK as soon as one input was valid at the start.
So it is complete or ends with an error exactly when no input fails or none can be opened
(`completeOrError_iff`).
-/

namespace ValueSep.DiffKV

open Merge GcState
open List Option BlobFileIterator

/-- `BlobFileIterComparator`: whether `a` may be on top of `b`. -/
def keyLe (o : Options) (a b : BlobFileIterator) : Prop :=
  (o.comparator a.curBlobRecord.key b.curBlobRecord.key).isLE = true

instance (o : Options) : DecidableRel (keyLe o) := fun _ _ => inferInstanceAs (Decidable (_ = true))

def recordLe (o : Options) (a b : GcRecord) : Prop := (o.comparator a.record.key b.record.key).isLE = true

structure BlobFileMergeIterator where
  current : Option BlobFileIterator
  minHeap : List BlobFileIterator
  status : Status

namespace BlobFileMergeIterator

variable {o : Options} (H : HeapPolicy (keyLe o)) (m : BlobFileMergeIterator)

/-- `status()`. -/
def currentStatus : Status :=
  match m.current with
  | some c => if c.status.isOk then m.status else c.status
  | none => m.status

def isValid : Bool :=
  match m.current with
  | none => false
  | some c => m.currentStatus.isOk && (c.isValid && c.status.isOk)

/-- `current_` is the top of the heap, or what an empty heap leaves. -/
def takeTop (heap : List BlobFileIterator) (status empty : Status) : BlobFileMergeIterator :=
  match H.pop heap with
  | some (c, rest) => ⟨some c, rest, status⟩
  | none => ⟨none, [], empty⟩

def seekToFirst (iters : List BlobFileIterator) : BlobFileMergeIterator :=
  takeTop H ((iters.map (·.seekToFirst o)).filter (·.isValid)) .ok (.aborted "No iterator is valid")

/-- `Next`: `current_` goes back to the heap unless it has failed or has come to its end. -/
def next : BlobFileMergeIterator :=
  match m.current with
  | none => m
  | some c =>
    let c := c.next o
    takeTop H (if c.isValid then c :: m.minHeap else m.minHeap) m.status m.status

/-- The loop of `DoRunGC` over the iterator: what it shows, and the status at the end. -/
def traverse : Nat → BlobFileMergeIterator → Option (List GcRecord × Status)
  | 0, _ => none
  | n + 1, m =>
    match m.current with
    | none => some ([], m.currentStatus)
    | some c =>
      if m.isValid then (traverse n (m.next H)).map fun (ys, st) => (c.entry :: ys, st)
      else some ([], m.currentStatus)

end BlobFileMergeIterator

def InputFile.Sorted (o : Options) (f : InputFile) : Prop :=
  f.records.Pairwise fun a b => (o.comparator a.key b.key).isLE = true

/-- The traversal comes to an end, and if its status is OK then nothing has failed, every record of every input
has been shown exactly once with its own index, and in the order of the keys if each input was sorted. -/
def CompleteOrError (o : Options) (H : HeapPolicy (keyLe o)) (files : List InputFile) : Prop :=
  ∃ n ys st, BlobFileMergeIterator.traverse H n (.seekToFirst H (files.map .create)) = some (ys, st) ∧
    (st = .ok →
      (∀ f ∈ files, ¬ f.Fails o) ∧ ys.Perm (files.flatMap (·.entries o)) ∧
        ((∀ f ∈ files, f.Sorted o) → ys.Pairwise (recordLe o)))

/-! ### The traversal is a merge -/

namespace BlobFileMergeIterator

variable {o : Options} {H : HeapPolicy (keyLe o)} {m : BlobFileMergeIterator}

theorem traverse_add {n : Nat} {r : List GcRecord × Status} (h : traverse H n m = some r) (k : Nat) :
    traverse H (n + k) m = some r := by
  induction n generalizing m r with
  | zero => cases h
  | succ n ih =>
    rw [Nat.succ_add]
    simp only [traverse] at h ⊢
    cases hc : m.current with
    | none => rw [hc] at h; exact h
    | some c =>
      simp only [hc] at h ⊢
      split at h
      next hv =>
        obtain ⟨r', hr', rfl⟩ := map_eq_some_iff.1 h
        rw [if_pos hv, ih hr', map_some]
      next hv => rw [if_neg hv]; exact h

theorem traverse_unique {n n' : Nat} {r r' : List GcRecord × Status} (h : traverse H n m = some r)
    (h' : traverse H n' m = some r') : r = r' := by
  have h₁ := traverse_add h n'
  rw [Nat.add_comm, traverse_add h' n] at h₁
  exact (some.inj h₁).symm

theorem traverse_step {c : BlobFileIterator} {heap : List BlobFileIterator} (hc : c.isValid = true) {n : Nat}
    {ys : List GcRecord} {st : Status} (h : traverse H n (next H ⟨some c, heap, .ok⟩) = some (ys, st)) :
    traverse H (n + 1) ⟨some c, heap, .ok⟩ = some (c.entry :: ys, st) := by
  have hst : c.status = .ok := Status.isOk_iff.1 (Bool.and_eq_true_iff.1 hc).2
  have hv : isValid ⟨some c, heap, .ok⟩ = true := by simp only [isValid, currentStatus, hst, hc]; rfl
  simp only [traverse, hv, if_true, h, map_some]

/-- Over valid iterators with a least one in front, the loop comes to an end with OK, and what it has shown is a
merge of what the iterators show. -/
theorem traverse_merges (N : Nat) {c : BlobFileIterator} {heap : List BlobFileIterator}
    (hN : (((c :: heap).map (·.yields o)).flatten).length = N) (hv : ∀ it ∈ c :: heap, it.isValid = true)
    (hle : ∀ it ∈ heap, keyLe o c it) :
    ∃ n ys, traverse H n ⟨some c, heap, .ok⟩ = some (ys, .ok) ∧
      Merges (recordLe o) ((c :: heap).map (·.yields o)) ys := by
  -- each round shows one record of the total
  induction N generalizing c heap with
  | zero =>
    rw [map_cons, yields_of_isValid (hv c (mem_cons_self ..))] at hN
    cases hN
  | succ N ih =>
    have hc := hv c (mem_cons_self ..)
    have hsrc : (c :: heap).map (·.yields o) = (c.entry :: (c.next o).yields o) :: heap.map (·.yields o) := by
      rw [map_cons, yields_of_isValid hc]
    have hheads : ∀ l ∈ heap.map (·.yields o), ∀ b ∈ l.head?, recordLe o c.entry b := by
      intro l hl b hb
      obtain ⟨it, hit, rfl⟩ := mem_map.1 hl
      rw [yields_of_isValid (hv it (mem_cons_of_mem _ hit))] at hb
      cases hb
      exact hle it hit
    let heap' := if (c.next o).isValid then c.next o :: heap else heap
    have hnext : next H ⟨some c, heap, .ok⟩ = takeTop H heap' .ok .ok := rfl
    have hpush : heap'.map (·.yields o) = push ((c.next o).yields o) (heap.map (·.yields o)) := by
      by_cases hcv : (c.next o).isValid = true
      · simp only [heap', hcv, if_true, push, yields_of_isValid hcv, reduceCtorEq, if_false,
          map_cons]
      · have hcv := Bool.eq_false_iff.2 hcv
        simp [heap', hcv, push, yields_of_not_isValid hcv]
    have hv' : ∀ it ∈ heap', it.isValid = true := by
      intro it hit
      by_cases hcv : (c.next o).isValid = true
      · simp only [heap', hcv, if_true, mem_cons] at hit
        rcases hit with rfl | hit
        · exact hcv
        · exact hv it (mem_cons_of_mem _ hit)
      · simp only [heap', hcv] at hit
        exact hv it (mem_cons_of_mem _ hit)
    rw [hsrc]
    cases hpop : H.pop heap' with
    | none =>
      have hnil := H.nil_of_pop hpop
      refine ⟨2, [c.entry], traverse_step hc ?_, .cons (.refl _) hheads ?_⟩
      · rw [hnext, takeTop, hpop]; rfl
      · rw [← hpush, hnil]; exact .nil
    | some p =>
      obtain ⟨d, rest⟩ := p
      have hp := H.perm hpop
      have hpm : ((d :: rest).map (·.yields o)).Perm (heap'.map (·.yields o)) := hp.map _
      have hlen : (((d :: rest).map (·.yields o)).flatten).length = N := by
        rw [hpm.flatten.length_eq, hpush, flatten_push]
        rw [hsrc, flatten_cons, length_append, length_cons] at hN
        rw [length_append]
        omega
      obtain ⟨n, ys, hn, hm⟩ := ih hlen (fun it hit => hv' it (hp.mem_iff.1 hit)) (H.least hpop)
      refine ⟨n + 1, c.entry :: ys, traverse_step hc ?_, .cons (.refl _) hheads ?_⟩
      · rw [hnext, takeTop, hpop]; exact hn
      · rw [← hpush]; exact hm.of_perm hpm

theorem flatten_filter_isValid (its : List BlobFileIterator) :
    ((its.filter (·.isValid)).map (·.yields o)).flatten = (its.map (·.yields o)).flatten := by
  induction its with
  | nil => rfl
  | cons it its ih =>
    cases hv : it.isValid with
    | true => simp [hv, ih]
    | false => simp [hv, ih, yields_of_not_isValid hv]

/-- The traversal ends with OK exactly when some input is valid at the start, whatever happens to the others. -/
theorem traverse_seekToFirst (H : HeapPolicy (keyLe o)) (its : List BlobFileIterator) :
    ((∃ it ∈ its, (it.seekToFirst o).isValid = true) ∧ ∃ n ys, traverse H n (seekToFirst H its) = some (ys, .ok) ∧
      Merges (recordLe o) (((its.map (·.seekToFirst o)).filter (·.isValid)).map (·.yields o)) ys) ∨
    ((∀ it ∈ its, (it.seekToFirst o).isValid = false) ∧
      traverse H 1 (seekToFirst H its) = some ([], .aborted "No iterator is valid")) := by
  cases hpop : H.pop ((its.map (·.seekToFirst o)).filter (·.isValid)) with
  | none =>
    refine .inr ⟨fun it hit => ?_, by rw [seekToFirst, takeTop, hpop]; rfl⟩
    have hnil := filter_eq_nil_iff.1 (H.nil_of_pop hpop) _ (mem_map_of_mem hit)
    exact Bool.eq_false_iff.2 hnil
  | some p =>
    obtain ⟨c, rest⟩ := p
    have hp := H.perm hpop
    have hv : ∀ it ∈ c :: rest, it.isValid = true := fun it hit => (mem_filter.1 (hp.mem_iff.1 hit)).2
    obtain ⟨n, ys, hn, hm⟩ := traverse_merges _ rfl hv (H.least hpop)
    obtain ⟨it, hit, rfl⟩ := mem_map.1 (mem_filter.1 (hp.mem_iff.1 (mem_cons_self ..))).1
    refine .inl ⟨⟨it, hit, hv _ (mem_cons_self ..)⟩, n, ys, ?_, hm.of_perm (hp.map _)⟩
    rw [seekToFirst, takeTop, hpop]; exact hn

end BlobFileMergeIterator

/-! ### Complete or error -/

section

variable {o : Options}

instance [Std.TransCmp o.comparator] : IsTrans GcRecord (recordLe o) :=
  ⟨fun _ _ _ => Std.TransCmp.isLE_trans⟩

instance [Std.TransCmp o.comparator] : IsTrans BlobFileIterator (keyLe o) :=
  ⟨fun _ _ _ => Std.TransCmp.isLE_trans⟩

instance [Std.OrientedCmp o.comparator] : Std.Total (keyLe o) where
  total a b := by
    have hswap : o.comparator b.curBlobRecord.key a.curBlobRecord.key =
        (o.comparator a.curBlobRecord.key b.curBlobRecord.key).swap := Std.OrientedCmp.eq_swap
    simp only [keyLe, hswap]
    cases o.comparator a.curBlobRecord.key b.curBlobRecord.key <;> decide

/-- A heap that prefers, among equal keys, the file opened first. -/
def firstHeap (o : Options) [Std.TransCmp o.comparator] : HeapPolicy (keyLe o) := .first (keyLe o)

theorem map_record_recordsFrom (n offset : Nat) (rs : List BlobRecord) :
    (recordsFrom o n offset rs).map GcRecord.record = rs := by
  induction rs generalizing offset with
  | nil => rfl
  | cons r rs ih => exact congrArg (r :: ·) (ih _)

theorem InputFile.Sorted.entries {f : InputFile} (h : f.Sorted o) : (f.entries o).Pairwise (recordLe o) := by
  rw [InputFile.Sorted, ← map_record_recordsFrom f.number kBlobHeaderSize f.records] at h
  exact (pairwise_map.1 h : (f.entries o).Pairwise fun a b => _)

open BlobFileMergeIterator in
/-- The traversal is complete or ends with an error exactly when every input reads back as it was written, or no
input is valid after `SeekToFirst`. -/
theorem completeOrError_iff [Std.TransCmp o.comparator] (H : HeapPolicy (keyLe o)) (files : List InputFile)
    (hsize : ∀ f ∈ files, f.fileSize o < 2 ^ 64) :
    CompleteOrError o H files ↔
      (∀ f ∈ files, ¬ f.Fails o) ∨ ∀ f ∈ files, ((create f).seekToFirst o).isValid = false := by
  have hrun := traverse_seekToFirst H (files.map .create)
  constructor
  · rintro ⟨n, ys, st, hn, hok⟩
    rcases hrun with ⟨-, n', ys', hn', -⟩ | ⟨hnone, -⟩
    · obtain ⟨-, rfl⟩ := Prod.mk.inj (traverse_unique hn hn')
      exact .inl (hok rfl).1
    · exact .inr fun f hf => hnone _ (mem_map_of_mem hf)
  · rcases hrun with ⟨⟨it, hit, hv⟩, n, ys, hn, hm⟩ | ⟨-, hn⟩
    · rintro (hf | hnone)
      · have hall : ∀ f ∈ files, ((create f).seekToFirst o).yields o = f.entries o :=
          fun f hmem => (shows_seekToFirst (hf f hmem) (hsize f hmem)).1
        refine ⟨n, ys, .ok, hn, fun _ => ⟨hf, ?_, fun hsorted => ?_⟩⟩
        · have hperm := hm.perm
          rw [flatten_filter_isValid, List.map_map, List.map_map] at hperm
          rwa [flatMap_def, ← map_congr_left hall]
        · refine hm.pairwise fun l hl => ?_
          obtain ⟨it, hit, rfl⟩ := mem_map.1 hl
          obtain ⟨f, hmem, rfl⟩ : ∃ f ∈ files, (create f).seekToFirst o = it := by
            simpa using (mem_filter.1 hit).1
          rw [hall f hmem]
          exact (hsorted f hmem).entries
      · obtain ⟨f, hmem, rfl⟩ := mem_map.1 hit
        rw [hnone f hmem] at hv
        cases hv
    · exact fun _ => ⟨1, [], _, hn, nofun⟩

end

/-- Two files, the reads of the second under faults. -/
def twoInputs (fault : Nat → Nat → Fault) : List InputFile :=
  [.written (.small false false) 1 [⟨[1], [10]⟩, ⟨[3], [30]⟩] fun _ _ => none,
    .written (.small false false) 2 [⟨[2], [20]⟩] fault]

theorem completeOrError_twoInputs : CompleteOrError (.small false false) (firstHeap _) (twoInputs fun _ _ => none) := by
  refine (completeOrError_iff (firstHeap _) _ (by decide +kernel)).2 (.inl fun f hf => ?_)
  rcases mem_cons.1 hf with rfl | hf
  · exact InputFile.not_fails_written (by decide)
  · rw [mem_singleton.1 hf]
    exact InputFile.not_fails_written (by decide)

/-- The body of the second file's record cannot be read: the traversal ends OK without it. -/
theorem unreadable_record_dropped :
    let heap := firstHeap (.small false false)
    let files := twoInputs fun offset _ => if offset = 17 then some "EIO" else none
    (BlobFileMergeIterator.traverse heap 3 (.seekToFirst heap (files.map .create))).map
        (fun (ys, st) => (ys.map GcRecord.record, st)) = some ([⟨[1], [10]⟩, ⟨[3], [30]⟩], .ok) ∧
      ¬ CompleteOrError (.small false false) heap files := by
  intro heap files
  have hrun : (BlobFileMergeIterator.traverse heap 3 (.seekToFirst heap (files.map .create))).map
      (fun (ys, st) => (ys.map GcRecord.record, st)) = some ([⟨[1], [10]⟩, ⟨[3], [30]⟩], .ok) := by
    decide +kernel
  refine ⟨hrun, ?_⟩
  rintro ⟨n, ys, st, hn, hok⟩
  obtain ⟨r, hr, hrec⟩ := map_eq_some_iff.1 hrun
  obtain rfl := BlobFileMergeIterator.traverse_unique hn hr
  obtain ⟨hrecords, rfl⟩ := Prod.mk.inj hrec
  have hlen := (hok rfl).2.1.length_eq
  rw [← length_map GcRecord.record, hrecords] at hlen
  exact absurd hlen (by decide +kernel)

end ValueSep.DiffKV
