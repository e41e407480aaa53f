import ValueSep.DiffKV.TableBuilder

/-!
# Abandoned tables

What a table builder asks of its file manager: `NewFile` in `AddBlob`, `DeleteFile` for a file that cannot be finished,
and in `Abandon` for the one that is open. The files it has rolled over wait in `finished_blobs_` for
`BatchFinishFiles`, which an abandoned builder does not call.
-/

namespace ValueSep.DiffKV

open Coding Exec
open List Option

/-- A builder beside the blob file set. -/
structure TableBuild where
  builder : TableBuilder
  fileSet : BlobFileSets

namespace TableBuild

def start (fs : BlobFileSets) : TableBuild := ⟨.start fs.nextFileNumber, fs⟩

def add (env : TableEnv) (x : TableBuild) (call : AddCall) : Option TableBuild :=
  (x.builder.add env call).map fun b => { x with builder := b }

/-- `TitanTableBuilder::Abandon`. A builder that could not finish its file has given up the handle, which is followed
all the same. -/
def abandon (deleteFile : Fault) (x : TableBuild) : Option TableBuild :=
  match x.builder.blob, x.builder.handle with
  | none, _ => some x
  | some _, none => none
  | some _, some (n, _) =>
    some { x with
      builder := { x.builder with
        status := deleteFile.status
        handle := none
        files := x.builder.files.deleteFile deleteFile n } }

/-- No file that was made is left, in `pending_outputs_` or in the blob file set. -/
def NoOrphan (x : TableBuild) : Prop :=
  ∀ n ∈ x.builder.files.created, n ∉ x.builder.files.directory ∧ n ∉ x.builder.files.pendingOutputs ∧
    ∀ cf s, x.fileSet.getBlobStorage cf = some s → s.findFile n = none

end TableBuild

/-! ### The files are those in hand -/

namespace TableBuilder

variable {env : TableEnv} {b b' : TableBuilder} {f : TableFaults} {call : AddCall} {first : Nat}

/-- The open file and the finished ones, the last one first. -/
def owned (b : TableBuilder) : List Nat := (b.handle.map Prod.fst).toList ++ b.finished.reverse.map (·.1.fileNumber)

/-- Unless the handle was given up, the file manager has exactly the files that the builder has. -/
structure Holds (first : Nat) (b : TableBuilder) : Prop where
  hasHandle : b.HasHandle
  closed : b.blob = none → b.handle = none
  next : first ≤ b.nextFileNumber
  range : ∀ n ∈ b.owned, first ≤ n ∧ n < b.nextFileNumber
  nodup : b.owned.Nodup
  files : (b.blob.isSome → b.handle.isSome) → b.files = ⟨b.owned, b.owned, b.owned⟩

section
variable (h : Holds first b)
include h

theorem Holds.congr (hsame : SameOutputs b b') : Holds first b' := by
  obtain ⟨hhandle, hblob, hfinished, hnext, hfiles⟩ := id hsame
  have howned : b'.owned = b.owned := by rw [owned, owned, hhandle, hfinished]
  refine ⟨h.hasHandle.congr hsame, ?_, ?_, ?_, ?_, ?_⟩
  · rw [hblob, hhandle]
    exact h.closed
  · rw [hnext]
    exact h.next
  · rw [howned, hnext]
    exact h.range
  · rw [howned]
    exact h.nodup
  · rw [hblob, hhandle, howned, hfiles]
    exact h.files

theorem Holds.openBlob (skipped : Nat) : Holds first (b.openBlob env skipped f) := by
  unfold TableBuilder.openBlob
  cases hblob : b.blob with
  | some blob => exact h
  | none =>
    have hhandle := h.closed hblob
    have hlater : ∀ n ∈ b.owned, first ≤ n ∧ n < b.nextFileNumber + skipped + 1 := by
      intro n hn
      have := h.range n hn
      omega
    have hnext := h.next
    have hd := h.files (by simp [hblob])
    cases hnew : f.newFile with
    | some msg =>
      exact ⟨nofun, fun _ => hhandle, by dsimp only; omega, hlater, h.nodup, fun _ => hd⟩
    | none =>
      have howned : b.owned = b.finished.reverse.map (·.1.fileNumber) := by rw [owned, hhandle]; rfl
      rw [howned] at hlater hd
      refine ⟨fun _ _ _ => rfl, nofun, by dsimp only; omega, ?_, ?_, fun _ => by rw [hd]; rfl⟩
      · refine forall_mem_cons.2 ⟨?_, hlater⟩
        dsimp only
        omega
      · refine nodup_cons.2 ⟨fun hmem => ?_, howned ▸ h.nodup⟩
        have := h.range _ (howned ▸ hmem)
        omega

theorem Holds.finishBlobFile {footer deleteFile : Fault} (hok : b.ok = true)
    (hfinish : b.finishBlobFile env footer deleteFile = some b') :
    Holds first b' := by
  have hhas := (finishBlobFile_spec hok hfinish).2
  unfold TableBuilder.finishBlobFile at hfinish
  split at hfinish
  · cases hfinish
    exact h
  · cases hfinish
  next blob n file hblob hhandle =>
    have howned : b.owned = n :: b.finished.reverse.map (·.1.fileNumber) := by rw [owned, hhandle]; rfl
    have hrange := h.range
    have hnodup := h.nodup
    have hd := h.files (by simp [hhandle])
    rw [howned] at hrange hnodup hd
    dsimp only at hfinish
    split at hfinish
    · cases hfinish
      have hmoved (p : BlobFileMeta × WritableFile) : (b.finished ++ [p]).reverse.map (·.1.fileNumber) =
          p.1.fileNumber :: b.finished.reverse.map (·.1.fileNumber) := by rw [reverse_concat, map_cons]
      refine ⟨hhas, fun _ => rfl, h.next, ?_, ?_, fun _ => ?_⟩ <;> rw [owned, hmoved]
      · exact hrange
      · exact hnodup
      · exact hd
    · cases hfinish
      rw [forall_mem_cons] at hrange
      exact ⟨hhas, nofun, h.next, hrange.2, (nodup_cons.1 hnodup).2, fun hgone => absurd (hgone rfl) nofun⟩

theorem Holds.addBlob {skipped : Nat} {key value : Slice} {i : Bytes}
    (hadd : b.addBlob env skipped f key value = some (b', i)) : Holds first b' := by
  have hopen : Holds first (b.openBlob env skipped f) := h.openBlob skipped
  unfold TableBuilder.addBlob at hadd
  split at hadd
  · dsimp only at hadd
    split at hadd
    next n file blob hhandle hblob =>
      -- the builder with the record appended holds what it has held before
      have hheld (file' : WritableFile) (blob' : BlobFileBuilder) :
          Holds first { b.openBlob env skipped f with handle := some (n, file'), blob := some blob' } := by
        obtain ⟨-, -, hnext, hrange, hnodup, hfiles⟩ := hopen
        rw [owned, hhandle] at hrange hnodup hfiles
        exact ⟨fun _ _ _ => rfl, by simp, hnext, hrange, hnodup, fun _ => hfiles fun _ => rfl⟩
      split at hadd
      next hok' =>
        split at hadd
        · obtain ⟨b₁, hfinish, heq⟩ := map_eq_some_iff.1 hadd
          cases heq
          exact (hheld _ _).finishBlobFile hok' hfinish
        · cases hadd
          exact hheld _ _
      · cases hadd
        exact hheld _ _
    · cases hadd
      exact hopen
  · cases hadd
    exact h

theorem Holds.add (hadd : b.add env call = some b') : Holds first b' := by
  cases hok : b.ok with
  | false =>
    rw [add_of_not_ok hok] at hadd
    cases hadd
    exact h
  | true =>
    cases add_cases hok hadd with
    | plain hpasses => exact h.congr hpasses.same
    | blob hsame _ hblob hpasses => exact ((h.congr hsame).addBlob hblob).congr hpasses.same

end

/-! ### Runs -/

end TableBuilder

namespace TableBuild

open TableBuilder (Holds owned flushEnv flushFileSet)

variable {env : TableEnv} {fs : BlobFileSets} {x x' : TableBuild} {deleteFile : Fault}

theorem holds_run {calls : List AddCall} (hrun : run (add env) (start fs) calls = some x) :
    Holds fs.nextFileNumber x.builder ∧ x.fileSet = fs := by
  refine run_inv (I := fun x => Holds fs.nextFileNumber x.builder ∧ x.fileSet = fs) ?_ ?_
    (AllSteps.of_forall fun _ _ => trivial) hrun
  · rintro x call x' ⟨hx, hfs⟩ - hstep
    obtain ⟨b, hb, rfl⟩ := map_eq_some_iff.1 hstep
    exact ⟨hx.add hb, hfs⟩
  · exact ⟨⟨nofun, fun _ => rfl, le_rfl, nofun, nodup_nil, fun _ => rfl⟩, rfl⟩

theorem files_abandon {first : Nat} (h : Holds first x.builder) (habandon : x.abandon deleteFile = some x') :
    x'.fileSet = x.fileSet ∧ x'.builder.files.created = x.builder.owned ∧
      x'.builder.files.pendingOutputs = x.builder.finished.reverse.map (·.1.fileNumber) ∧
      x'.builder.files.directory = if x.builder.blob.isSome ∧ deleteFile ≠ none then x.builder.owned
        else x.builder.finished.reverse.map (·.1.fileNumber) := by
  unfold abandon at habandon
  split at habandon
  next hblob =>
    cases habandon
    have hhandle := h.closed hblob
    have hfiles := h.files (by simp [hblob])
    have howned : x.builder.owned = x.builder.finished.reverse.map (·.1.fileNumber) := by rw [owned, hhandle]; rfl
    rw [hfiles, if_neg fun hopen => absurd hopen.1 (by simp [hblob])]
    exact ⟨rfl, rfl, howned, howned⟩
  · cases habandon
  next n file hblob hhandle =>
    cases habandon
    have hfiles := h.files (by simp [hhandle])
    have hnodup := h.nodup
    have howned : x.builder.owned = n :: x.builder.finished.reverse.map (·.1.fileNumber) := by rw [owned, hhandle]; rfl
    rw [howned] at hfiles hnodup
    have hfilter : (n :: x.builder.finished.reverse.map (·.1.fileNumber)).filter (· ≠ n) =
        x.builder.finished.reverse.map (·.1.fileNumber) := by
      rw [filter_cons_of_neg (by simp), filter_eq_self]
      intro k hk
      exact decide_eq_true fun heq => (nodup_cons.1 hnodup).1 (heq ▸ hk)
    rw [howned]
    refine ⟨rfl, by rw [hfiles]; rfl, by rw [hfiles]; exact hfilter, ?_⟩
    rw [hfiles]
    simp only [OutputFiles.deleteFile, hfilter, hblob, isSome_some, true_and]
    split_ifs with hnone hsome
    · exact absurd hnone hsome
    · rfl
    · rfl

/-- After any calls of `Add`, `Abandon` leaves no file if and only if none was rolled over, the handle of an open builder
was not given up and its file can be deleted. -/
theorem abandon_noOrphan_iff (env : TableEnv) (fs : BlobFileSets)
    (hfs : ∀ cf s n, fs.getBlobStorage cf = some s → fs.nextFileNumber ≤ n → s.findFile n = none)
    (calls : List AddCall) (x : TableBuild) (hrun : run (add env) (start fs) calls = some x) (deleteFile : Fault) :
    (∃ x', x.abandon deleteFile = some x' ∧ x'.NoOrphan) ↔
      x.builder.finished = [] ∧ (x.builder.blob.isSome → x.builder.handle.isSome ∧ deleteFile = none) := by
  obtain ⟨hholds, hset⟩ := holds_run hrun
  constructor
  · rintro ⟨x', habandon, hno⟩
    obtain ⟨-, hcreated, hpending, hdir⟩ := files_abandon hholds habandon
    have hsub : ∀ p ∈ x.builder.finished, p.1.fileNumber ∈ x'.builder.files.created := by
      intro p hp
      rw [hcreated]
      exact mem_append_right _ (mem_map_of_mem (mem_reverse.2 hp))
    refine ⟨eq_nil_iff_forall_not_mem.2 fun p hp => (hno _ (hsub p hp)).2.1 ?_, fun hblob => ?_⟩
    · rw [hpending]
      exact mem_map_of_mem (mem_reverse.2 hp)
    · obtain ⟨blob, hb⟩ := isSome_iff_exists.1 hblob
      cases hhandle : x.builder.handle with
      | none => simp [abandon, hb, hhandle] at habandon
      | some p =>
        refine ⟨rfl, by_contra fun hfault => ?_⟩
        rw [if_pos ⟨hblob, hfault⟩] at hdir
        have hmem : p.1 ∈ x.builder.owned := by
          rw [owned, hhandle]
          exact mem_cons_self ..
        exact (hno p.1 (hcreated ▸ hmem)).1 (hdir ▸ hmem)
  · rintro ⟨hfinished, hopen⟩
    obtain ⟨x', habandon⟩ : ∃ x', x.abandon deleteFile = some x' := by
      unfold abandon
      split
      · exact ⟨_, rfl⟩
      next hblob hhandle => simp [hblob, hhandle] at hopen
      · exact ⟨_, rfl⟩
    obtain ⟨hsame, hcreated, hpending, hdir⟩ := files_abandon hholds habandon
    rw [if_neg fun hboth => hboth.2 (hopen hboth.1).2] at hdir
    rw [hfinished] at hpending hdir
    refine ⟨x', habandon, fun n hn => ⟨by rw [hdir]; nofun, by rw [hpending]; nofun, fun cf s hs => ?_⟩⟩
    rw [hsame, hset] at hs
    exact hfs cf s n hs (hholds.range n (hcreated ▸ hn)).1

/-- One record is in an open file. -/
theorem abandon_noOrphan_open : ∃ x, run (add flushEnv) (start flushFileSet)
      [{ key := appendInternalKey ⟨[97], 5, kTypeValue⟩, value := [7] }] = some x ∧
    x.builder.files.created = [1] ∧ ∃ x', x.abandon none = some x' ∧ x'.NoOrphan := by
  refine exists_of_map (fun x => (x.builder.files.created, x.builder.finished, x.builder.handle.isSome)) ([1], [], true)
    (by decide +kernel) fun x hx hdata => ?_
  simp only [Prod.mk.injEq] at hdata
  obtain ⟨hcreated, hfinished, hhandle⟩ := hdata
  refine ⟨hcreated, (abandon_noOrphan_iff _ _ ?_ _ x hx none).2 ⟨hfinished, fun _ => ⟨hhandle, rfl⟩⟩⟩
  intro cf s n hs _
  rw [flushFileSet, BlobFileSets.getBlobStorage, OrdMap.find?_alter] at hs
  split at hs
  · cases hs
    rfl
  · cases hs

/-- The flush of `flushEnv`, with files that are full after one record. -/
def rollingEnv : TableEnv := { flushEnv with options := { Options.small false false with blobFileTargetSize := 1 } }

/-- A file that was rolled over stays in the directory and in `pending_outputs_`. -/
theorem abandon_keeps_rolled_over : ∃ x x', run (add rollingEnv) (start flushFileSet)
      [{ key := appendInternalKey ⟨[97], 5, kTypeValue⟩, value := [7] }] = some x ∧
    x.abandon none = some x' ∧ x'.builder.files = ⟨[1], [1], [1]⟩ ∧ ¬x'.NoOrphan := by
  refine exists₂_of_bind (fun _ x' => x'.builder.files) ⟨[1], [1], [1]⟩ (by decide +kernel) fun x x' _ _ hfiles => ?_
  refine ⟨hfiles, fun hno => ?_⟩
  rw [NoOrphan, hfiles] at hno
  exact (hno 1 (mem_singleton_self 1)).1 (mem_singleton_self 1)

end TableBuild

end ValueSep.DiffKV
