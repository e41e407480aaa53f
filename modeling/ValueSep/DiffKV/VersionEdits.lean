import ValueSep.DiffKV.FileSet

/-!
# The records of the manifest

`VersionEdit::EncodeTo` / `DecodeFrom` and the coding of `BlobFileMeta`. An edit is a sequence of tagged items: `items`
lists them in the order in which they are written, and reading is a loop over the items (`decodeLoop`), so that the
round trip is one statement about lists of items. `EditRecord` is an edit as it is on disk, with the type of a file as
the 32-bit number it is there; `ColumnFamilyEdit` is what the engine makes of it.
-/

namespace ValueSep.DiffKV

open Coding Keyed
open List

/-! ### File metadata -/

def FileType.toUint32 : FileType → Nat
  | .sorted => 0
  | .unSorted => 1

/-- The engine only ever asks whether a type is `kSorted`. -/
def FileType.ofUint32 (n : Nat) : FileType := if n = 0 then .sorted else .unSorted

/-- The persistent fields of `BlobFileMeta`. -/
structure FileRecord where
  fileNumber : Nat
  fileSize : Nat
  fileEntries : Nat
  fileType : Nat
  fileLevel : Nat
  smallestKey : Slice
  largestKey : Slice
deriving DecidableEq, Repr

namespace FileRecord

def encodeTo (f : FileRecord) : Bytes :=
  putVarint64 f.fileNumber ++ putVarint64 f.fileSize ++ putVarint64 f.fileEntries ++ putVarint32 f.fileType ++
    putVarint32 f.fileLevel ++ putLengthPrefixed f.smallestKey ++ putLengthPrefixed f.largestKey

/-- The first five fields of `BlobFileMeta::DecodeFrom`. -/
def decodeNumbers (src : Bytes) : Option ((Nat × Nat × Nat × Nat × Nat) × Bytes) := do
  let (fileNumber, src) ← getVarint64 src
  let (fileSize, src) ← getVarint64 src
  let (fileEntries, src) ← getVarint64 src
  let (fileType, src) ← getVarint32 src
  let (fileLevel, src) ← getVarint32 src
  return ((fileNumber, fileSize, fileEntries, fileType, fileLevel), src)

/-- `BlobFileMeta::DecodeFrom`. -/
def decodeFrom (src : Bytes) : Except String (FileRecord × Bytes) :=
  match decodeNumbers src with
  | none => .error "Corruption: BlobFileMeta decode failed"
  | some ((fileNumber, fileSize, fileEntries, fileType, fileLevel), src) =>
    match getLengthPrefixed src with
    | none => .error "Corruption: BlobSmallestKey Decode failed"
    | some (smallestKey, src) =>
      match getLengthPrefixed src with
      | none => .error "Corruption: BlobLargestKey decode failed"
      | some (largestKey, src) =>
        .ok (⟨fileNumber, fileSize, fileEntries, fileType, fileLevel, smallestKey, largestKey⟩, src)

/-- `BlobFileMeta::DecodeFromLegacy`, into a new object. -/
def decodeFromLegacy (src : Bytes) : Except String (FileRecord × Bytes) :=
  match (getVarint64 src).bind fun p => (getVarint64 p.2).map fun q => (p.1, q) with
  | none => .error "Corruption: BlobFileMeta decode legacy failed"
  | some (fileNumber, fileSize, src) => .ok (⟨fileNumber, fileSize, 0, FileType.unSorted.toUint32, 0, [], []⟩, src)

/-- The file that the engine makes of it. -/
def toMeta (f : FileRecord) : BlobFileMeta :=
  ⟨f.fileNumber, f.fileSize, f.fileEntries, .ofUint32 f.fileType, f.fileLevel, f.smallestKey, f.largestKey, .init, 0⟩

def ofMeta (m : BlobFileMeta) : FileRecord :=
  ⟨m.fileNumber, m.fileSize, m.fileEntries, m.fileType.toUint32, m.fileLevel, m.smallestKey, m.largestKey⟩

theorem toMeta_ofMeta (m : BlobFileMeta) : (ofMeta m).toMeta = m.persisted := by
  have hof : FileType.ofUint32 m.fileType.toUint32 = m.fileType := by cases m.fileType <;> rfl
  rw [toMeta, ofMeta, hof]
  rfl

/-- The types of the fields. -/
structure Typed (f : FileRecord) : Prop where
  fileNumber : f.fileNumber < 2 ^ 64
  fileSize : f.fileSize < 2 ^ 64
  fileEntries : f.fileEntries < 2 ^ 64
  fileType : f.fileType < 2 ^ 32
  fileLevel : f.fileLevel < 2 ^ 32

/-- The lengths of the keys are written with 32 bits. -/
def KeysFit (f : FileRecord) : Prop := f.smallestKey.length < 2 ^ 32 ∧ f.largestKey.length < 2 ^ 32

theorem decodeFrom_encodeTo {f : FileRecord} (h : f.Typed) (hk : f.KeysFit) (src : Bytes) :
    decodeFrom (f.encodeTo ++ src) = .ok (f, src) := by
  have hnumbers : decodeNumbers (f.encodeTo ++ src) = some ((f.fileNumber, f.fileSize, f.fileEntries, f.fileType,
      f.fileLevel), putLengthPrefixed f.smallestKey ++ (putLengthPrefixed f.largestKey ++ src)) := by
    simp only [decodeNumbers, encodeTo, append_assoc, getVarint64_putVarint64 h.fileNumber,
      getVarint64_putVarint64 h.fileSize, getVarint64_putVarint64 h.fileEntries, getVarint32_putVarint32 h.fileType,
      getVarint32_putVarint32 h.fileLevel, Option.bind_eq_bind, Option.bind_some]
    rfl
  simp only [decodeFrom, hnumbers, getLengthPrefixed_putLengthPrefixed hk.1, getLengthPrefixed_putLengthPrefixed hk.2]

end FileRecord

/-- The widths of the fields; keys have a 32-bit length in every write batch. -/
def BlobFileMeta.Sized (m : BlobFileMeta) : Prop := (FileRecord.ofMeta m).Typed ∧ (FileRecord.ofMeta m).KeysFit

theorem BlobFileMeta.sized_persisted {m : BlobFileMeta} : m.persisted.Sized ↔ m.Sized := Iff.rfl

/-! ### Items -/

/-- `VersionEdit`. -/
structure EditRecord where
  nextFileNumber : Option Nat
  columnFamilyId : Nat
  addedFiles : List FileRecord
  deletedFiles : List (Nat × SequenceNumber)
  updatedDiscardableSize : List (Nat × Nat)
deriving DecidableEq, Repr

inductive EditItem
  | nextFileNumber (n : Nat)
  | columnFamilyId (n : Nat)
  | addedBlobFile (f : FileRecord)
  | deletedBlobFile (n : Nat)
  | updateDiscardableSize (n size : Nat)

/-- `error` of `DecodeFrom`: a literal, or `s.ToString().c_str()`, whose string ends with the statement. -/
inductive ErrorText
  | text (m : String)
  | freed (m : String)
deriving DecidableEq, Repr

namespace EditItem

def kNextFileNumber : Nat := 1
def kColumnFamilyID : Nat := 10
def kAddedBlobFile : Nat := 11
def kDeletedBlobFile : Nat := 12
def kAddedBlobFileV2 : Nat := 13
def kUpdateDiscardableSize : Nat := 14

def encodeTo : EditItem → Bytes
  | nextFileNumber n => putVarint32 kNextFileNumber ++ putVarint64 n
  | columnFamilyId n => putVarint32 kColumnFamilyID ++ putVarint32 n
  | addedBlobFile f => putVarint32 kAddedBlobFileV2 ++ f.encodeTo
  | deletedBlobFile n => putVarint32 kDeletedBlobFile ++ putVarint64 n
  | updateDiscardableSize n size => putVarint32 kUpdateDiscardableSize ++ putVarint64 n ++ putVarint64 size

/-- What reading the item does to the edit. -/
def applyTo (e : EditRecord) : EditItem → EditRecord
  | nextFileNumber n => { e with nextFileNumber := some n }
  | columnFamilyId n => { e with columnFamilyId := n }
  | addedBlobFile f => { e with addedFiles := e.addedFiles ++ [f] }
  | deletedBlobFile n => { e with deletedFiles := e.deletedFiles ++ [(n, 0)] }
  | updateDiscardableSize n size =>
    { e with updatedDiscardableSize := emplace Prod.fst e.updatedDiscardableSize (n, size) }

/-- A file of either format. -/
def ofFile : Except String (FileRecord × Bytes) → Except ErrorText (EditItem × Bytes)
  | .ok (f, src) => .ok (addedBlobFile f, src)
  | .error m => .error (.freed m)

/-- One turn of the loop in `DecodeFrom`. -/
def decodeFrom (src : Bytes) : Except ErrorText (EditItem × Bytes) :=
  match getVarint32 src with
  | none => .error (.text "invalid tag")
  | some (tag, src) =>
    if tag = kNextFileNumber then
      match getVarint64 src with
      | some (n, src) => .ok (nextFileNumber n, src)
      | none => .error (.text "next file number")
    else if tag = kColumnFamilyID then
      match getVarint32 src with
      | some (n, src) => .ok (columnFamilyId n, src)
      | none => .error (.text "column family id")
    else if tag = kAddedBlobFile then ofFile (FileRecord.decodeFromLegacy src)
    else if tag = kAddedBlobFileV2 then ofFile (FileRecord.decodeFrom src)
    else if tag = kDeletedBlobFile then
      match getVarint64 src with
      | some (n, src) => .ok (deletedBlobFile n, src)
      | none => .error (.text "deleted blob file")
    else if tag = kUpdateDiscardableSize then
      match (getVarint64 src).bind fun p => (getVarint64 p.2).map fun q => (p.1, q) with
      | some (n, size, src) => .ok (updateDiscardableSize n size, src)
      | none => .error (.text "update discardable size")
    else .error (.text "unknown tag")

def Sized : EditItem → Prop
  | nextFileNumber n => n < 2 ^ 64
  | columnFamilyId n => n < 2 ^ 32
  | addedBlobFile f => f.Typed ∧ f.KeysFit
  | deletedBlobFile n => n < 2 ^ 64
  | updateDiscardableSize n size => n < 2 ^ 64 ∧ size < 2 ^ 64

theorem decodeFrom_encodeTo {item : EditItem} (h : item.Sized) (src : Bytes) :
    decodeFrom (item.encodeTo ++ src) = .ok (item, src) := by
  cases item with
  | nextFileNumber n =>
    rw [encodeTo, append_assoc, decodeFrom, getVarint32_putVarint32 (by decide)]
    simp [getVarint64_putVarint64 h]
  | columnFamilyId n =>
    rw [encodeTo, append_assoc, decodeFrom, getVarint32_putVarint32 (by decide)]
    simp [getVarint32_putVarint32 h, kColumnFamilyID, kNextFileNumber]
  | addedBlobFile f =>
    rw [encodeTo, append_assoc, decodeFrom, getVarint32_putVarint32 (by decide)]
    simp [FileRecord.decodeFrom_encodeTo h.1 h.2, kColumnFamilyID, kNextFileNumber, kAddedBlobFileV2, kAddedBlobFile,
      ofFile]
  | deletedBlobFile n =>
    rw [encodeTo, append_assoc, decodeFrom, getVarint32_putVarint32 (by decide)]
    simp [getVarint64_putVarint64 h, kColumnFamilyID, kNextFileNumber, kAddedBlobFileV2, kAddedBlobFile,
      kDeletedBlobFile]
  | updateDiscardableSize n size =>
    rw [encodeTo, append_assoc, append_assoc, decodeFrom, getVarint32_putVarint32 (by decide)]
    simp [getVarint64_putVarint64 h.1, getVarint64_putVarint64 h.2, kColumnFamilyID, kNextFileNumber,
      kAddedBlobFileV2, kAddedBlobFile, kDeletedBlobFile, kUpdateDiscardableSize]

theorem encodeTo_ne_nil (item : EditItem) : item.encodeTo ≠ [] := by
  have hvarint : ∀ f v, putVarint f v ≠ [] := by
    intro f v
    cases f with
    | zero => simp [putVarint]
    | succ f => unfold putVarint; split <;> simp
  cases item <;> simp [encodeTo, putVarint32, hvarint]

end EditItem

/-! ### Edits -/

inductive DecodeOutcome
  | decoded (e : EditRecord)
  | corruption (m : String)
  /-- `Status::Corruption` copies its message from memory that is no longer allocated; this text was there. -/
  | readFreed (m : String)
deriving DecidableEq, Repr

def ErrorText.outcome : ErrorText → DecodeOutcome
  | text m => .corruption ("VersionEdit: " ++ m)
  | freed m => .readFreed ("VersionEdit: " ++ m)

namespace EditRecord

/-- A new object. -/
def empty : EditRecord := ⟨none, 0, [], [], []⟩

/-- The items in the order of `EncodeTo`. -/
def items (e : EditRecord) : List EditItem :=
  (e.nextFileNumber.map EditItem.nextFileNumber).toList ++ [.columnFamilyId e.columnFamilyId] ++
    e.addedFiles.map .addedBlobFile ++ e.deletedFiles.map (fun p => .deletedBlobFile p.1) ++
    e.updatedDiscardableSize.map fun p => .updateDiscardableSize p.1 p.2

/-- `VersionEdit::EncodeTo`. -/
def encodeTo (e : EditRecord) : Bytes := e.items.flatMap EditItem.encodeTo

/-- Every turn reads at least the tag, so the length of the source bounds the number of turns. -/
def decodeLoop : Nat → Bytes → EditRecord → DecodeOutcome
  | _, [], e => .decoded e
  | 0, _ :: _, e => .decoded e
  | turns + 1, src, e =>
    match EditItem.decodeFrom src with
    | .error text => text.outcome
    | .ok (item, src) => decodeLoop turns src (item.applyTo e)

/-- `VersionEdit::DecodeFrom`. -/
def decodeFrom (e : EditRecord) (src : Bytes) : DecodeOutcome := decodeLoop src.length src e

/-- All that `EncodeTo` keeps of an edit. -/
def persisted (e : EditRecord) : EditRecord := { e with deletedFiles := e.deletedFiles.map fun p => (p.1, 0) }

/-- The types of the fields; `updated_discardable_size_` is a map. -/
structure Typed (e : EditRecord) : Prop where
  nextFileNumber : ∀ n ∈ e.nextFileNumber, n < 2 ^ 64
  columnFamilyId : e.columnFamilyId < 2 ^ 32
  addedFiles : ∀ f ∈ e.addedFiles, f.Typed
  deletedFiles : ∀ p ∈ e.deletedFiles, p.1 < 2 ^ 64
  updated : ∀ p ∈ e.updatedDiscardableSize, p.1 < 2 ^ 64 ∧ p.2 < 2 ^ 64
  nodup : (e.updatedDiscardableSize.map Prod.fst).Nodup

variable {e : EditRecord}

theorem decodeLoop_flatMap {items : List EditItem} {turns : Nat} (h : ∀ item ∈ items, item.Sized) (hturns : items.length ≤ turns)
    (e : EditRecord) :
    decodeLoop turns (items.flatMap EditItem.encodeTo) e = .decoded (items.foldl EditItem.applyTo e) := by
  induction items generalizing turns e with
  | nil => cases turns <;> rfl
  | cons item items ih =>
    obtain ⟨turns, rfl⟩ : ∃ k, turns = k + 1 := ⟨turns - 1, by simp only [length_cons] at hturns; omega⟩
    have hread := EditItem.decodeFrom_encodeTo (h item (mem_cons_self ..)) (items.flatMap EditItem.encodeTo)
    rw [flatMap_cons]
    obtain ⟨b, src, hsrc⟩ : ∃ b src, item.encodeTo ++ items.flatMap EditItem.encodeTo = b :: src := by
      cases hb : item.encodeTo with
      | nil => exact absurd hb item.encodeTo_ne_nil
      | cons b bs => exact ⟨b, _, rfl⟩
    rw [hsrc] at hread ⊢
    simp only [decodeLoop, hread]
    exact ih (fun i hi => h i (mem_cons_of_mem _ hi)) (by simp only [length_cons] at hturns; omega) _

theorem foldl_added (fs : List FileRecord) (e : EditRecord) :
    (fs.map EditItem.addedBlobFile).foldl EditItem.applyTo e = { e with addedFiles := e.addedFiles ++ fs } := by
  induction fs generalizing e with
  | nil => simp
  | cons f fs ih => simp [ih, EditItem.applyTo]

theorem foldl_deleted (ps : List (Nat × SequenceNumber)) (e : EditRecord) :
    (ps.map fun p => EditItem.deletedBlobFile p.1).foldl EditItem.applyTo e =
      { e with deletedFiles := e.deletedFiles ++ ps.map fun p => (p.1, 0) } := by
  induction ps generalizing e with
  | nil => simp
  | cons p ps ih => simp [ih, EditItem.applyTo]

theorem foldl_updates {ps : List (Nat × Nat)} {e : EditRecord}
    (h : ((e.updatedDiscardableSize ++ ps).map Prod.fst).Nodup) :
    (ps.map fun p => EditItem.updateDiscardableSize p.1 p.2).foldl EditItem.applyTo e =
      { e with updatedDiscardableSize := e.updatedDiscardableSize ++ ps } := by
  induction ps generalizing e with
  | nil => simp
  | cons p ps ih =>
    -- `emplace` would keep an older entry of the same file, but there is none
    have hnew : p.1 ∉ e.updatedDiscardableSize.map Prod.fst := by
      rw [map_append, nodup_append] at h
      exact fun hmem => h.2.2 _ hmem p.1 (by simp) rfl
    have hemplace : emplace Prod.fst e.updatedDiscardableSize p = e.updatedDiscardableSize ++ [p] := if_neg hnew
    rw [map_cons, foldl_cons, EditItem.applyTo, hemplace, ih (by simpa using h)]
    simp

theorem Typed.sized_items (h : e.Typed) (hk : ∀ f ∈ e.addedFiles, f.KeysFit) : ∀ item ∈ e.items, item.Sized := by
  intro item hitem
  simp only [items, mem_append, Option.mem_toList, Option.map_eq_some_iff, mem_singleton, mem_map] at hitem
  rcases hitem with (((⟨n, hn, rfl⟩ | rfl) | ⟨f, hf, rfl⟩) | ⟨p, hp, rfl⟩) | ⟨p, hp, rfl⟩
  · exact h.nextFileNumber n hn
  · exact h.columnFamilyId
  · exact ⟨h.addedFiles f hf, hk f hf⟩
  · exact h.deletedFiles p hp
  · exact h.updated p hp

theorem foldl_items (h : (e.updatedDiscardableSize.map Prod.fst).Nodup) :
    e.items.foldl EditItem.applyTo .empty = e.persisted := by
  obtain ⟨next, cf, added, deleted, updates⟩ := e
  have hnext : (next.map EditItem.nextFileNumber).toList.foldl EditItem.applyTo EditRecord.empty =
      ⟨next, 0, [], [], []⟩ := by cases next <;> rfl
  simp only [items, foldl_append, hnext, foldl_cons, foldl_nil, EditItem.applyTo, foldl_added, foldl_deleted]
  rw [foldl_updates (by simpa using h)]
  simp [persisted]

theorem length_items_le (e : EditRecord) : e.items.length ≤ e.encodeTo.length := by
  have hle : ∀ items : List EditItem, items.length ≤ (items.flatMap EditItem.encodeTo).length := by
    intro items
    induction items with
    | nil => simp
    | cons item items ih =>
      have hpos : 0 < item.encodeTo.length := length_pos_of_ne_nil item.encodeTo_ne_nil
      rw [flatMap_cons, length_append, length_cons]
      omega
  exact hle e.items

theorem decodeFrom_encodeTo (h : e.Typed) (hk : ∀ f ∈ e.addedFiles, f.KeysFit) :
    empty.decodeFrom e.encodeTo = .decoded e.persisted := by
  rw [← foldl_items h.nodup]
  exact decodeLoop_flatMap (h.sized_items hk) e.length_items_le _

end EditRecord

/-- `VersionEdit` with its `column_family_id_`. -/
structure ColumnFamilyEdit extends VersionEdit where
  columnFamilyId : Nat
deriving DecidableEq, Repr

/-- A new object. -/
def ColumnFamilyEdit.empty : ColumnFamilyEdit := { toVersionEdit := ⟨none, [], [], []⟩, columnFamilyId := 0 }

/-- The edit that the engine makes of it. -/
def EditRecord.toEdit (e : EditRecord) : ColumnFamilyEdit where
  nextFileNumber := e.nextFileNumber
  addedFiles := e.addedFiles.map FileRecord.toMeta
  deletedFiles := e.deletedFiles
  updatedDiscardableSize := e.updatedDiscardableSize
  columnFamilyId := e.columnFamilyId

namespace ColumnFamilyEdit

def toRecord (e : ColumnFamilyEdit) : EditRecord :=
  ⟨e.nextFileNumber, e.columnFamilyId, e.addedFiles.map FileRecord.ofMeta, e.deletedFiles, e.updatedDiscardableSize⟩

def encodeTo (e : ColumnFamilyEdit) : Bytes := e.toRecord.encodeTo

/-- `DecodeInto(record, &edit)`. -/
def decodeFrom (src : Bytes) : Except Status ColumnFamilyEdit :=
  match EditRecord.empty.decodeFrom src with
  | .decoded e => .ok e.toEdit
  | .corruption m | .readFreed m => .error (.corruption m)

def persisted (e : ColumnFamilyEdit) : ColumnFamilyEdit :=
  { toVersionEdit := e.toVersionEdit.persisted, columnFamilyId := e.columnFamilyId }

/-- The widths of the fields, and the map `updated_discardable_size_` is one. -/
structure Sized (e : ColumnFamilyEdit) : Prop where
  typed : e.toRecord.Typed
  keys : ∀ f ∈ e.toRecord.addedFiles, f.KeysFit

variable {e : ColumnFamilyEdit}

theorem Sized.added (h : e.Sized) {m : BlobFileMeta} (hm : m ∈ e.addedFiles) : m.Sized :=
  ⟨h.typed.addedFiles _ (mem_map_of_mem hm), h.keys _ (mem_map_of_mem hm)⟩

/-- A record is read back as the edit it was written for, without what is not persistent. -/
theorem decodeFrom_encodeTo (h : e.Sized) : decodeFrom e.encodeTo = .ok e.persisted := by
  have hread : EditRecord.empty.decodeFrom e.encodeTo = .decoded e.toRecord.persisted :=
    EditRecord.decodeFrom_encodeTo h.typed h.keys
  have hsame : e.toRecord.persisted.toEdit = e.persisted := by
    simp [EditRecord.toEdit, EditRecord.persisted, toRecord, persisted, VersionEdit.persisted, FileRecord.toMeta_ofMeta]
  rw [decodeFrom, hread, ← hsame]

end ColumnFamilyEdit

end ValueSep.DiffKV
