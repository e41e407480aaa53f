import Mathlib.Logic.Function.Basic
import ValueSep.DiffKV.FileSet
import ValueSep.DiffKV.Writer

/-!
# The whole engine's state

The base DB as a log of its writes (newest first; a sequence number is a length of the log), the blob file
set, the blob files on disk and the foreground builders. `resolve` is what an index leads to through a file
that is registered and not obsolete, or still being built; `visible` is the value of a key.
-/

namespace ValueSep.DiffKV

open List Function

inductive LsmEntry
  | value (v : Slice)
  | blobIndex (i : BlobIndex)
deriving DecidableEq, Repr

/-- The file an entry names. -/
def namedFile : Option LsmEntry → Option Nat
  | some (.blobIndex i) => some i.fileNumber
  | _ => none

/-- Who wrote a log entry; only statements read it. -/
inductive Writer
  | user | gc
deriving DecidableEq, Repr

structure BaseDb where
  log : List (Slice × Option LsmEntry × Writer)
  synced : Nat
deriving DecidableEq, Repr

namespace BaseDb

variable (db : BaseDb)

def get (k : Slice) : Option LsmEntry := (db.log.lookup k).bind Prod.fst

/-- `GetLatestSequenceNumber`. -/
def latestSequence : SequenceNumber := db.log.length

def write (k : Slice) (e : Option LsmEntry) (by' : Writer) : BaseDb := { db with log := (k, e, by') :: db.log }

/-- `FlushWAL(true)`, or any write with `sync`. -/
def syncWal : BaseDb := { db with synced := db.log.length }

/-- The DB as its first `n` writes left it. -/
def asOf (n : Nat) : BaseDb := { db with log := db.log.drop (db.log.length - n) }

variable {db} {k k' : Slice} {e : Option LsmEntry} {by' : Writer}

theorem get_write : (db.write k e by').get k' = if k' = k then e else db.get k' := by
  simp only [get, write, lookup_cons]
  by_cases h : k' = k
  · simp [h]
  · simp [h, beq_eq_false_iff_ne.2 h]

@[simp] theorem get_write_self : (db.write k e by').get k = e := by rw [get_write, if_pos rfl]

theorem get_write_of_ne (h : k' ≠ k) : (db.write k e by').get k' = db.get k' := by rw [get_write, if_neg h]

theorem asOf_write {n : Nat} (h : n ≤ db.log.length) : ((db.write k e by').asOf n).log = (db.asOf n).log := by
  simp only [asOf, write, length_cons]
  rw [show db.log.length + 1 - n = (db.log.length - n) + 1 by omega, drop_succ_cons]

theorem asOf_of_le {n : Nat} (h : db.log.length ≤ n) : (db.asOf n).log = db.log := by
  simp [asOf, Nat.sub_eq_zero_of_le h]

end BaseDb

/-- One foreground builder thread's file, and its finished files that are not registered yet. -/
structure FgSlot where
  builder : Option BlobFileBuilder
  finished : List BlobFileMeta
deriving DecidableEq, Repr

structure World where
  db : BaseDb
  fileSet : BlobFileSet
  disk : Nat → Option WritableFile
  fg : Nat → FgSlot

/-- What a key reads. `missing`: the LSM tree holds an index that leads nowhere. -/
inductive Visible
  | absent
  | value (v : Slice)
  | missing
deriving DecidableEq, Repr

namespace World

variable (o : Options) (w : World)

abbrev storage : BlobStorage := w.fileSet.storage
abbrev nextFileNumber : Nat := w.fileSet.nextFileNumber

/-- The record an index leads to in the file's bytes, registered or not. -/
def readFile (onlyValue : Bool) (i : BlobIndex) : Option BlobRecord :=
  (w.disk i.fileNumber).bind fun f => (readRecord o.codec onlyValue f.content i.blobHandle).toOption

/-- `record->only_value` as `BlobStorage::Get` sets it for a registered file. -/
def readsOnlyValue (m : BlobFileMeta) : Bool := o.levelMerge && m.fileType = .sorted

def resolve (i : BlobIndex) : Option BlobRecord :=
  match w.storage.findFile i.fileNumber with
  | some m => if m.isObsolete then none else w.readFile o (readsOnlyValue o m) i
  | none => if o.sepBeforeFlush && w.storage.findBuildingFile i.fileNumber then w.readFile o false i else none

/-- The value of an LSM entry. -/
def entryValue : Option LsmEntry → Visible
  | none => .absent
  | some (.value v) => .value v
  | some (.blobIndex i) => match w.resolve o i with
    | some r => .value r.value
    | none => .missing

def visible (k : Slice) : Visible := w.entryValue o (w.db.get k)

/-! ### Growing files -/

/-- Every file is still there and has only been appended to. -/
def Grows (w w' : World) : Prop :=
  ∀ n f, w.disk n = some f → ∃ f', w'.disk n = some f' ∧ ∃ data, f'.content = f.content ++ data

/-- Every index that leads somewhere still leads there. -/
def Keeps (w w' : World) : Prop := ∀ i r, w.resolve o i = some r → w'.resolve o i = some r

variable {o w} {w' w'' : World} {i : BlobIndex} {r : BlobRecord} {onlyValue : Bool}

theorem Grows.refl (w : World) : Grows w w := fun _ f h => ⟨f, h, [], by simp⟩

theorem Grows.trans (h : Grows w w') (h' : Grows w' w'') : Grows w w'' := by
  intro n f hf
  obtain ⟨f', hf', d, hd⟩ := h n f hf
  obtain ⟨f'', hf'', d', hd'⟩ := h' n f' hf'
  exact ⟨f'', hf'', d ++ d', by rw [hd', hd, append_assoc]⟩

theorem Grows.of_disk_eq (h : w'.disk = w.disk) : Grows w w' := fun _ f hf => ⟨f, h ▸ hf, [], by simp⟩

variable {n : Nat}

theorem Grows.update {f f' : WritableFile} (hw : w.disk n = some f)
    (hd : ∃ data, f'.content = f.content ++ data) (h : w'.disk = update w.disk n (some f')) : Grows w w' := by
  intro m g hg
  rw [h]
  by_cases hm : m = n
  · subst hm
    obtain rfl : f = g := by simpa [hw] using hg
    exact ⟨f', update_self .., hd⟩
  · exact ⟨g, by rwa [update_of_ne hm], [], by simp⟩

theorem Grows.create {f : WritableFile} (hw : w.disk n = none)
    (h : w'.disk = Function.update w.disk n (some f)) : Grows w w' := by
  intro m g hg
  have hm : m ≠ n := by rintro rfl; rw [hw] at hg; cases hg
  exact ⟨g, by rw [h, update_of_ne hm]; exact hg, [], by simp⟩

theorem readFile_of_grows (hg : Grows w w') (h : w.readFile o onlyValue i = some r) :
    w'.readFile o onlyValue i = some r := by
  simp only [readFile, Option.bind_eq_some_iff] at h ⊢
  obtain ⟨f, hf, hr⟩ := h
  obtain ⟨f', hf', d, hd⟩ := hg _ f hf
  refine ⟨f', hf', ?_⟩
  rw [hd]
  cases hread : readRecord o.codec onlyValue f.content i.blobHandle with
  | error e => rw [hread] at hr; cases hr
  | ok r' => rw [hread] at hr; rw [readRecord_append hread]; exact hr

theorem readFile_appended (he : Encodable o false r) {file : WritableFile}
    (h : w.disk n = some (file.append (encodeRecord o false r))) :
    w.readFile o false ⟨n, ⟨file.fileSize, (encodeRecord o false r).length⟩⟩ = some r := by
  have hread := readRecord_encodeRecord he file.content []
  rw [append_nil] at hread
  simp only [readFile, h, Option.bind_some, WritableFile.content_append]
  rw [WritableFile.fileSize, hread]; rfl

theorem Keeps.refl (o : Options) (w : World) : Keeps o w w := fun _ _ h => h

theorem Keeps.trans (h : Keeps o w w') (h' : Keeps o w' w'') : Keeps o w w'' := fun i r hr => h' i r (h i r hr)

theorem resolve_eq_some : w.resolve o i = some r ↔
    (∃ m, w.storage.findFile i.fileNumber = some m ∧ m.isObsolete = false ∧
      w.readFile o (readsOnlyValue o m) i = some r) ∨
    (w.storage.findFile i.fileNumber = none ∧ o.sepBeforeFlush = true ∧
      w.storage.findBuildingFile i.fileNumber = true ∧ w.readFile o false i = some r) := by
  unfold resolve
  cases hf : w.storage.findFile i.fileNumber with
  | none => simp [and_assoc]
  | some m => cases hm : m.isObsolete <;> simp [hm]

/-- Files that only grow, under a storage that keeps what it has and may start building more. -/
theorem Keeps.of_grows (hg : Grows w w') (hfind : ∀ n, w'.storage.findFile n = w.storage.findFile n)
    (hbuild : ∀ n, w.storage.findBuildingFile n = true → w'.storage.findBuildingFile n = true) : Keeps o w w' := by
  intro i r h
  rw [resolve_eq_some] at h ⊢
  rcases h with ⟨m, hm, hobs, hr⟩ | ⟨hn, hsep, hb, hr⟩
  · exact .inl ⟨m, by rw [hfind, hm], hobs, readFile_of_grows hg hr⟩
  · exact .inr ⟨by rw [hfind, hn], hsep, hbuild _ hb, readFile_of_grows hg hr⟩

/-- Registering files keeps every index, provided a file that was being built is read in the same mode
afterwards. -/
theorem Keeps.of_filesAdded {files : List BlobFileMeta} (hg : Grows w w')
    (ha : FilesAdded o.sepBeforeFlush files w.storage w'.storage) (hobs : ∀ f ∈ files, f.isObsolete = false)
    (hmode : ∀ f ∈ files, w.storage.findBuildingFile f.fileNumber = true → readsOnlyValue o f = false) : Keeps o w w' := by
  intro i r h
  rw [resolve_eq_some] at h ⊢
  rcases h with ⟨m, hm, hobs', hr⟩ | ⟨hn, hsep, hb, hr⟩
  · exact .inl ⟨m, by rw [ha.find, hm]; rfl, hobs', readFile_of_grows hg hr⟩
  · cases hf : files.find? fun m => m.fileNumber == i.fileNumber with
    | some f =>
      have hmem := mem_of_find?_eq_some hf
      have hnum : f.fileNumber = i.fileNumber := by simpa using find?_some hf
      refine .inl ⟨f, by rw [ha.find, hn, hf]; rfl, hobs f hmem, ?_⟩
      rw [hmode f hmem (hnum ▸ hb)]
      exact readFile_of_grows hg hr
    | none =>
      refine .inr ⟨by rw [ha.find, hn, hf]; rfl, hsep, ?_, readFile_of_grows hg hr⟩
      have hany : (files.any fun m => m.fileNumber == i.fileNumber) = false := by
        simpa [find?_eq_none] using hf
      rw [ha.building, hb, hany]; simp

/-- The base DB is as it was, and what could be read still can. -/
def Framed (o : Options) (w w' : World) : Prop := w'.db = w.db ∧ Keeps o w w'

theorem Framed.refl (o : Options) (w : World) : Framed o w w := ⟨rfl, .refl o w⟩

theorem Framed.trans (h : Framed o w w') (h' : Framed o w' w'') : Framed o w w'' :=
  ⟨h'.1.trans h.1, h.2.trans h'.2⟩

theorem visible_eq {k : Slice} (hdb : w'.db.get k = w.db.get k)
    (hk : ∀ i r, w.db.get k = some (.blobIndex i) → w.resolve o i = some r → w'.resolve o i = some r)
    (h : w.visible o k ≠ .missing) : w'.visible o k = w.visible o k := by
  unfold visible at h ⊢
  rw [hdb]
  cases hg : w.db.get k with
  | none => rfl
  | some e =>
    rw [hg] at h
    cases e with
    | value v => rfl
    | blobIndex i =>
      simp only [entryValue] at h ⊢
      cases hr : w.resolve o i with
      | none => rw [hr] at h; exact absurd rfl h
      | some r => rw [hk i r hg hr]

end World

end ValueSep.DiffKV
