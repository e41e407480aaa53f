import ValueSep.DiffKV.Get

/-!
# Looking a file up while it is handed over

`BlobStorage::Get` in `sep_before_flush` mode takes the storage's mutex twice, in `FindFile` and in
`FindBuildingFile`, and each of the two returns a weak pointer that is locked after the mutex has been released.
`AddBlobFile` moves a file from `building_files_` to `files_` in one critical section. Here the steps of any number
of calls are interleaved with the operations of the storage.
-/

namespace ValueSep.DiffKV

open Exec
open Option BlobStorage Function

inductive LookupResult
  | registered (m : BlobFileMeta)
  | reader
  | notExist
deriving DecidableEq

/-- Where a call of `Get` stands. -/
inductive LookupPc
  | begin
  | fileFound
  | fileMissing
  | readerFound
  | finished (r : LookupResult)
deriving DecidableEq

structure Lookups where
  storage : BlobStorage
  /-- The file number and the position of each call. -/
  calls : Nat → Option (Nat × LookupPc)

inductive LookupEvent
  | get (c n : Nat)
  | findFile (c : Nat)
  | lockFile (c : Nat)
  | findBuildingFile (c : Nat)
  /-- `shared`: some other call has locked the same reader and is still reading. -/
  | lockReader (c : Nat) (shared : Bool)
  | addBuildingFile (n : Nat)
  | addBlobFile (m : BlobFileMeta)
  | markFileObsolete (n : Nat) (obsoleteSequence : SequenceNumber)
  | getObsoleteFiles (oldestSequence : SequenceNumber)

namespace Lookups

def goto (s : Lookups) (c n : Nat) (pc : LookupPc) : Lookups :=
  { s with calls := update s.calls c (some (n, pc)) }

def step (s : Lookups) : LookupEvent → Option Lookups
  | .get c n =>
    match s.calls c with
    | some _ => none
    | none => some (s.goto c n .begin)
  | .findFile c =>
    match s.calls c with
    | some (n, .begin) =>
      some (s.goto c n (if (s.storage.findFile n).isSome then .fileFound else .fileMissing))
    | _ => none
  | .lockFile c =>
    match s.calls c with
    | some (n, .fileFound) =>
      match s.storage.findFile n with
      | some m => some (s.goto c n (.finished (.registered m)))
      | none => some (s.goto c n .fileMissing)
    | _ => none
  | .findBuildingFile c =>
    match s.calls c with
    | some (n, .fileMissing) =>
      some (s.goto c n (if s.storage.findBuildingFile n then .readerFound else .finished .notExist))
    | _ => none
  | .lockReader c shared =>
    match s.calls c with
    | some (n, .readerFound) =>
      some (s.goto c n (.finished (if s.storage.findBuildingFile n || shared then .reader else .notExist)))
    | _ => none
  | .addBuildingFile n => some { s with storage := s.storage.addBuildingFile n }
  | .addBlobFile m => some { s with storage := s.storage.addBlobFile true m }
  | .markFileObsolete n q => some { s with storage := s.storage.markFileObsolete n q }
  | .getObsoleteFiles q => some { s with storage := (s.storage.getObsoleteFiles q).1 }

/-- The files that the step removes from `files_`. -/
def removed (s : Lookups) : LookupEvent → List Nat
  | .getObsoleteFiles q => (s.storage.getObsoleteFiles q).2
  | _ => []

/-- The file that the step moves to `files_`. -/
def handedOver : LookupEvent → Option Nat
  | .addBlobFile m => some m.fileNumber
  | _ => none

/-- The call has missed the file in `files_` and has no reader of it yet. -/
def Between (c n : Nat) (s : Lookups) : Prop :=
  s.calls c = some (n, .fileMissing) ∨ s.calls c = some (n, .readerFound)

instance (c n : Nat) (s : Lookups) : Decidable (Between c n s) := inferInstanceAs (Decidable (_ ∨ _))

/-- The file stays, and is not handed over while the call stands between its two lookups. -/
def Orderly (c n : Nat) (s : Lookups) (e : LookupEvent) : Prop :=
  n ∉ s.removed e ∧ (handedOver e = some n → ¬ Between c n s)

instance (c n : Nat) (s : Lookups) (e : LookupEvent) : Decidable (Orderly c n s e) :=
  inferInstanceAs (Decidable (_ ∧ _))

/-- What the call may rely on at each of its steps. -/
def Findable (s : BlobStorage) (n : Nat) : LookupPc → Prop
  | .begin => (s.findFile n).isSome = true ∨ s.findBuildingFile n = true
  | .fileFound => (s.findFile n).isSome = true
  | .fileMissing => s.findBuildingFile n = true
  | .readerFound => s.findBuildingFile n = true
  | .finished r => r ≠ .notExist

/-- The call stands where it does with its file in place. -/
def OnTrack (c n : Nat) (s : Lookups) : Prop := ∃ pc, s.calls c = some (n, pc) ∧ Findable s.storage n pc

variable {s s' : Lookups} {c n : Nat} {pc : LookupPc} {e : LookupEvent}

theorem OnTrack.goto_of_ne {c' n' : Nat} (h : OnTrack c n s) (hne : c ≠ c') : OnTrack c n (s.goto c' n' pc) := by
  obtain ⟨pc₀, hcall, hfind⟩ := h
  exact ⟨pc₀, (update_of_ne hne ..).trans hcall, hfind⟩

/-- One call goes on, this one or another. -/
theorem OnTrack.goto {c' n' : Nat} {pc' : LookupPc} (h : OnTrack c n s) (hcall : s.calls c' = some (n', pc))
    (hnext : Findable s.storage n' pc → Findable s.storage n' pc') : OnTrack c n (s.goto c' n' pc') := by
  rcases eq_or_ne c c' with rfl | hne
  · obtain ⟨pc₀, hcall₀, hfind⟩ := h
    cases hcall₀.symm.trans hcall
    exact ⟨pc', update_self .., hnext hfind⟩
  · exact h.goto_of_ne hne

theorem OnTrack.storage {storage : BlobStorage} (h : OnTrack c n s)
    (hfile : (s.storage.findFile n).isSome = true → (storage.findFile n).isSome = true)
    (hbuilding : s.storage.findBuildingFile n = true → storage.findBuildingFile n = true) :
    OnTrack c n { s with storage } := by
  obtain ⟨pc, hcall, hfind⟩ := h
  refine ⟨pc, hcall, ?_⟩
  cases pc with
  | begin => exact hfind.imp hfile hbuilding
  | fileFound => exact hfile hfind
  | fileMissing => exact hbuilding hfind
  | readerFound => exact hbuilding hfind
  | finished r => exact hfind

variable {c' : Nat}

section
variable (h : OnTrack c n s)
include h

theorem OnTrack.findFile (hstep : s.step (.findFile c') = some s') : OnTrack c n s' := by
  simp only [step] at hstep
  split at hstep
  next hcall =>
    cases hstep
    refine h.goto hcall fun hfind => ?_
    split
    next hfile => exact hfile
    next hfile => exact hfind.resolve_left hfile
  · cases hstep

theorem OnTrack.lockFile (hstep : s.step (.lockFile c') = some s') : OnTrack c n s' := by
  simp only [step] at hstep
  split at hstep
  next hcall =>
    split at hstep
    · cases hstep
      exact h.goto hcall fun _ => nofun
    next hnone =>
      cases hstep
      refine h.goto hcall fun hfind => ?_
      rw [Findable, hnone] at hfind
      cases hfind
  · cases hstep

theorem OnTrack.findBuildingFile (hstep : s.step (.findBuildingFile c') = some s') : OnTrack c n s' := by
  simp only [step] at hstep
  split at hstep
  next hcall =>
    cases hstep
    refine h.goto hcall fun hfind => ?_
    rw [Findable] at hfind
    rwa [if_pos hfind]
  · cases hstep

theorem OnTrack.lockReader {shared : Bool} (hstep : s.step (.lockReader c' shared) = some s') : OnTrack c n s' := by
  simp only [step] at hstep
  split at hstep
  next hcall =>
    cases hstep
    refine h.goto hcall fun hfind => ?_
    rw [Findable] at hfind
    rw [hfind]
    exact nofun
  · cases hstep

/-- The hand-over finds the call before its first lookup, after it, or done. -/
theorem OnTrack.addBlobFile {m : BlobFileMeta} (horder : m.fileNumber = n → ¬ Between c n s) :
    OnTrack c n { s with storage := s.storage.addBlobFile true m } := by
  have hfile : (s.storage.findFile n).isSome = true →
      ((s.storage.addBlobFile true m).findFile n).isSome = true := by
    intro hsome
    rw [findFile_addBlobFile, or_of_isSome hsome]
    exact hsome
  by_cases hm : m.fileNumber = n
  · have hmoved : ((s.storage.addBlobFile true m).findFile n).isSome = true := by
      rw [findFile_addBlobFile, if_pos hm]
      cases s.storage.findFile n <;> rfl
    obtain ⟨pc, hcall, hfind⟩ := h
    refine ⟨pc, hcall, ?_⟩
    cases pc with
    | begin => exact .inl hmoved
    | fileFound => exact hmoved
    | fileMissing => exact absurd (.inl hcall) (horder hm)
    | readerFound => exact absurd (.inr hcall) (horder hm)
    | finished r => exact hfind
  · refine h.storage hfile ?_
    intro hbuilding
    rw [findBuildingFile_addBlobFile, hbuilding]
    simpa using fun h => hm h.symm

theorem OnTrack.step (horder : Orderly c n s e) (hstep : s.step e = some s') : OnTrack c n s' := by
  cases e with
  | get c' n' =>
    simp only [Lookups.step] at hstep
    split at hstep
    · cases hstep
    next hnone =>
      cases hstep
      have hne : c ≠ c' := by
        rintro rfl
        obtain ⟨pc, hcall, -⟩ := h
        rw [hnone] at hcall
        cases hcall
      exact h.goto_of_ne hne
  | findFile c' => exact h.findFile hstep
  | lockFile c' => exact h.lockFile hstep
  | findBuildingFile c' => exact h.findBuildingFile hstep
  | lockReader c' shared => exact h.lockReader hstep
  | addBuildingFile n' =>
    cases hstep
    refine h.storage id fun hbuilding => ?_
    rw [findBuildingFile_addBuildingFile, hbuilding, Bool.or_true]
  | addBlobFile m => cases hstep; exact h.addBlobFile fun hm => horder.2 (congrArg some hm)
  | markFileObsolete n' q =>
    cases hstep
    refine h.storage (fun hsome => ?_) id
    rw [findFile_markFileObsolete]
    split
    · rw [isSome_map]; exact hsome
    · exact hsome
  | getObsoleteFiles q =>
    cases hstep
    refine h.storage (fun hsome => ?_) id
    have hstays : n ∉ (s.storage.getObsoleteFiles q).2 := horder.1
    rw [findFile_getObsoleteFiles, if_neg hstays]
    exact hsome

end

/-- A call of `Get` on a file that is in `building_files_` or in `files_` when it starts, and stays, does not report
that the file does not exist, if the file is not handed over between the two lookups. -/
theorem get_not_notExist {es : List LookupEvent} (hcall : s.calls c = some (n, .begin))
    (hpresent : (s.storage.findFile n).isSome = true ∨ s.storage.findBuildingFile n = true)
    (horder : AllSteps step (Orderly c n) s es) (hrun : run step s es = some s') :
    s'.calls c ≠ some (n, .finished .notExist) := by
  have htrack : OnTrack c n s' :=
    run_inv (fun _ _ _ h ho hs => OnTrack.step h ho hs) ⟨.begin, hcall, hpresent⟩ horder hrun
  obtain ⟨pc, hcall', hfind⟩ := htrack
  intro hlost
  rw [hcall'] at hlost
  cases hlost
  exact hfind rfl

def oneBuilding : Lookups where
  storage := ⟨[], [1], []⟩
  calls := fun c => if c = 0 then some (1, .begin) else none

def oneFile : BlobFileMeta := ⟨1, 53, 1, .unSorted, 0, [1], [1], .normal, 0⟩

/-- The file is handed over before the first lookup. -/
theorem get_not_notExist_moved_first :
    (run step oneBuilding [.addBlobFile oneFile, .findFile 0, .lockFile 0]).map (·.calls 0) =
        some (some (1, .finished (.registered oneFile))) ∧
      ∀ s', run step oneBuilding [.addBlobFile oneFile, .findFile 0, .lockFile 0] = some s' →
        s'.calls 0 ≠ some (1, .finished .notExist) := by
  refine ⟨by decide +kernel, fun s' hrun => get_not_notExist rfl (.inr (by decide)) ?_ hrun⟩
  decide +kernel

/-- The file is handed over between the two lookups, and the call misses it twice. -/
theorem get_notExist_moved_between :
    oneBuilding.storage.findBuildingFile 1 = true ∧
      (run step oneBuilding [.findFile 0, .addBlobFile oneFile, .findBuildingFile 0]).map
          (fun s => (s.calls 0, (s.storage.findFile 1).isSome)) = some (some (1, .finished .notExist), true) := by
  decide +kernel

end Lookups

/-- A call that nothing interrupts finds what `World.getBlob` reads. -/
theorem World.getBlob_of_uninterrupted {o : Options} (hsep : o.sepBeforeFlush = true) (freed : Slice → Slice) (w : World)
    (i : BlobIndex) {s : Lookups} {c : Nat} (hstorage : s.storage = w.storage)
    (hcall : s.calls c = some (i.fileNumber, .begin)) :
    ∃ es result, run Lookups.step s es = some (s.goto c i.fileNumber (.finished result)) ∧
      w.getBlob o freed i = match result with
        | .registered m => w.readRegisteredFile o m i
        | .reader | .notExist => w.readBuildingFile o freed i := by
  unfold World.getBlob
  rw [← hstorage]
  cases hfile : s.storage.findFile i.fileNumber with
  | some m =>
    refine ⟨[.findFile c, .lockFile c], .registered m, ?_, rfl⟩
    simp [run, Lookups.step, hcall, hfile, Lookups.goto]
  | none =>
    by_cases hbuilding : s.storage.findBuildingFile i.fileNumber = true
    · refine ⟨[.findFile c, .findBuildingFile c, .lockReader c false], .reader, ?_, ?_⟩
      · simp [run, Lookups.step, hcall, hfile, Lookups.goto, hbuilding]
      · simp [hsep]
    · refine ⟨[.findFile c, .findBuildingFile c], .notExist, ?_, ?_⟩
      · simp [run, Lookups.step, hcall, hfile, Lookups.goto, hbuilding]
      · simp [hsep]

end ValueSep.DiffKV
