import ValueSep.DiffKV.Callbacks
import ValueSep.Lib.Exec

/-!
# Discardable sizes over whole runs

The blob indexes of one column family on their way: handed out by a foreground builder or by the GC, waiting for a
memtable, in an immutable memtable, in the SSTs. Flushes and compactions are installed and reported in one step, in
version order and with complete properties. A table builder registers the files it finishes; after an error it deletes
the file it has open, although entries of the SST refer to it already (`lost`), and a builder may fail to register what
it has finished. The accounting law is stated for the files that are registered.

`SwitchMemtable` seals a memtable under the mutex of the base DB and tells the listener afterwards, without it: a flush
can be over before the files that its SST refers to are registered.
-/

namespace ValueSep.DiffKV

open Exec
open List Option Multiset BlobStorage BlobFileSets

structure Sst where
  number : Nat
  refs : List BlobIndex
deriving DecidableEq

/-- A finished file: header, records, footer. File sizes are `off_t`. -/
structure BuiltFile where
  file : BlobFileMeta
  records : List BlobIndex
  number : ∀ i ∈ records, i.fileNumber = file.fileNumber
  positive : ∀ i ∈ records, 0 < i.blobHandle.size
  size : file.fileSize =
    kBlobHeaderSize + bytesOf file.fileNumber (records : Multiset BlobIndex) + kBlobFooterSize
  fits : file.fileSize < 2 ^ 63
  new : file.discardableSize = 0

structure Ledger where
  fs : BlobFileSets
  /-- Numbers from `NewFileNumber` whose files are neither being built by the foreground nor finished. -/
  reserved : List Nat
  /-- The files of the foreground builders, with their records. -/
  building : List (Nat × List BlobIndex)
  /-- Indexes that are not in an immutable memtable yet. -/
  waiting : Multiset BlobIndex
  immutable : Multiset BlobIndex
  ssts : Multiset Sst
  /-- The files that were named by a flush or produced by a compaction. -/
  accounted : List Nat

inductive LedgerEvent
  | newFileNumber
  /-- A builder appends a record, to a file it is building or to a new one. -/
  | append (n : Nat) (handle : BlobHandle)
  /-- Writes that fail and versions that a memtable replaces. -/
  | forget (refs : Multiset BlobIndex)
  /-- A memtable is sealed: it may be flushed. -/
  | sealMemtable (moved : Multiset BlobIndex)
  /-- `OnMemTableSealed` makes a builder finish: of its files, `built` are registered and the others are lost. -/
  | batchFinishFiles (closed : List Nat) (built : List BuiltFile)
  /-- The GC or the table builder of a flush registers a file; its records will be written, or are being flushed. -/
  | register (b : BuiltFile) (refs : Multiset BlobIndex) (flushing : Bool)
  /-- The table builder of a flush has deleted a file that the SST will refer to. -/
  | lose (refs : Multiset BlobIndex)
  | flush (chosen : Multiset BlobIndex) (sst : Sst)
  /-- Of the references of the inputs `kept` are passed on; the records of `built` and `lost` are new. -/
  | compaction (inputs outputs : List Sst) (kept : Multiset BlobIndex) (built : List BuiltFile)
      (lost : Multiset BlobIndex) (env : CompactionEnv) (outputLevel : Nat)
  | deleteFile (n : Nat) (obsoleteSequence : SequenceNumber)
  | purge (oldestSequence : SequenceNumber)

def BlobFileSets.mapStorage (fs : BlobFileSets) (cf : Nat) (f : BlobStorage → BlobStorage) : BlobFileSets :=
  match fs.getBlobStorage cf with
  | none => fs
  | some s => fs.setBlobStorage cf (f s)

def refsOfSsts (ssts : Multiset Sst) : Multiset BlobIndex := (ssts.map fun t => (t.refs : Multiset BlobIndex)).sum

def recordsOf (built : List BuiltFile) : Multiset BlobIndex :=
  (built.map fun b => (b.records : Multiset BlobIndex)).sum

instance (refs : List BlobIndex) : Decidable (Collectable refs) :=
  decidable_of_iff ((BlobFileSizeCollector.collect refs).entries.length < 2 ^ 32 ∧ ∀ i ∈ refs, i.fileNumber < 2 ^ 64)
    ⟨fun h => ⟨h.1, h.2⟩, fun h => ⟨h.files, h.numbers⟩⟩

/-- The report on a compaction, with the properties of all its SSTs. -/
def compactionJobInfo (cf : Nat) (inputs outputs : List Sst) (outputLevel : Nat) : CompactionJobInfo where
  cfId := cf
  ok := true
  inputFiles := inputs.map Sst.number
  outputFiles := outputs.map Sst.number
  tableProperties := fun f => ((inputs ++ outputs).find? fun t => t.number == f).map fun t => propertyOf t.refs
  outputLevel := outputLevel

namespace Ledger

variable (o : Options) (cf : Nat) (l : Ledger)

def live : Multiset BlobIndex := refsOfSsts l.ssts

def addFiles (built : List BuiltFile) : BlobFileSets :=
  l.fs.mapStorage cf fun s => built.foldl (fun s b => s.addBlobFile o.sepBeforeFlush b.file) s

/-- The files and the lost records have numbers that `NewFileNumber` has given out for them. -/
def NewNumbers (built : List BuiltFile) (lost : Multiset BlobIndex) : Prop :=
  (built.map fun b => b.file.fileNumber).Nodup ∧ (∀ b ∈ built, b.file.fileNumber ∈ l.reserved) ∧
    ∀ i ∈ lost, i.fileNumber ∈ l.reserved ∧ ∀ b ∈ built, b.file.fileNumber ≠ i.fileNumber

instance (built : List BuiltFile) (lost : Multiset BlobIndex) : Decidable (l.NewNumbers built lost) :=
  inferInstanceAs (Decidable (_ ∧ _ ∧ _))

/-- The numbers that stay reserved. -/
def unreserve (built : List BuiltFile) (lost : Multiset BlobIndex) : List Nat :=
  l.reserved.filter fun n => (∀ b ∈ built, b.file.fileNumber ≠ n) ∧ ¬ Names lost n

def append (n : Nat) (handle : BlobHandle) : Option Ledger :=
  if handle.size = 0 then none
  else if n ∈ l.building.map Prod.fst then
    some { l with
      building := l.building.map fun p => if p.1 = n then (p.1, ⟨n, handle⟩ :: p.2) else p
      waiting := ⟨n, handle⟩ ::ₘ l.waiting }
  else if n ∈ l.reserved then
    some { l with
      reserved := l.reserved.filter (· ≠ n)
      building := (n, [⟨n, handle⟩]) :: l.building
      waiting := ⟨n, handle⟩ ::ₘ l.waiting }
  else none

def sealMemtable (moved : Multiset BlobIndex) : Option Ledger :=
  if moved ≤ l.waiting then
    some { l with
      waiting := l.waiting - moved
      immutable := l.immutable + moved }
  else none

def batchFinishFiles (closed : List Nat) (built : List BuiltFile) : Option Ledger :=
  if (built.map fun b => b.file.fileNumber).Nodup ∧
      ∀ b ∈ built, b.file.fileNumber ∈ closed ∧ (b.file.fileNumber, b.records) ∈ l.building then
    some { l with
      fs := l.addFiles o cf built
      building := l.building.filter fun p => p.1 ∉ closed }
  else none

def register (b : BuiltFile) (refs : Multiset BlobIndex) (flushing : Bool) : Option Ledger :=
  if refs ≤ b.records ∧ l.NewNumbers [b] 0 then
    some { l with
      fs := l.addFiles o cf [b]
      reserved := l.unreserve [b] 0
      waiting := if flushing then l.waiting else l.waiting + refs
      immutable := if flushing then l.immutable + refs else l.immutable }
  else none

def lose (refs : Multiset BlobIndex) : Option Ledger :=
  if l.NewNumbers [] refs then
    some { l with
      reserved := l.unreserve [] refs
      immutable := l.immutable + refs }
  else none

def flush (chosen : Multiset BlobIndex) (sst : Sst) : Option Ledger :=
  if chosen ≤ l.immutable ∧ (sst.refs : Multiset BlobIndex) ≤ chosen ∧ Collectable sst.refs then
    some { l with
      fs := l.fs.mapStorage cf (onFlushCompleted (propertyOf sst.refs))
      immutable := l.immutable - chosen
      ssts := sst ::ₘ l.ssts
      accounted := sst.refs.map BlobIndex.fileNumber ++ l.accounted }
  else none

def compaction (inputs outputs : List Sst) (kept : Multiset BlobIndex) (built : List BuiltFile)
    (lost : Multiset BlobIndex) (env : CompactionEnv) (outputLevel : Nat) : Option Ledger :=
  if (inputs : Multiset Sst) ≤ l.ssts ∧ kept ≤ refsOfSsts inputs ∧
      refsOfSsts outputs = kept + recordsOf built + lost ∧ l.NewNumbers built lost ∧
      (∀ t ∈ inputs ++ outputs, Collectable t.refs) ∧
      ∀ t ∈ inputs ++ outputs, ∀ t' ∈ inputs ++ outputs, t.number = t'.number → t = t' then
    some { l with
      fs := onCompactionCompleted o env (compactionJobInfo cf inputs outputs outputLevel) (l.addFiles o cf built)
      reserved := l.unreserve built lost
      ssts := l.ssts - inputs + outputs
      accounted := (built.map fun b => b.file.fileNumber) ++ l.accounted }
  else none

def step : LedgerEvent → Option Ledger
  | .newFileNumber =>
    some { l with
      fs := { l.fs with nextFileNumber := l.fs.nextFileNumber + 1 }
      reserved := l.fs.nextFileNumber :: l.reserved }
  | .append n handle => l.append n handle
  | .forget refs => if refs ≤ l.waiting then some { l with waiting := l.waiting - refs } else none
  | .sealMemtable moved => l.sealMemtable moved
  | .batchFinishFiles closed built => l.batchFinishFiles o cf closed built
  | .register b refs flushing => l.register o cf b refs flushing
  | .lose refs => l.lose refs
  | .flush chosen sst => l.flush cf chosen sst
  | .compaction inputs outputs kept built lost env outputLevel =>
    l.compaction o cf inputs outputs kept built lost env outputLevel
  | .deleteFile n q => some { l with fs := l.fs.mapStorage cf (·.markFileObsolete n q) }
  | .purge q => some { l with fs := l.fs.mapStorage cf fun s => (s.getObsoleteFiles q).1 }

/-- The files in the deletion edit of the compaction's callback. -/
def deletionEdit (inputs outputs : List Sst) (built : List BuiltFile) (env : CompactionEnv) (outputLevel : Nat) :
    List (Nat × SequenceNumber) :=
  match (l.addFiles o cf built).getBlobStorage cf with
  | none => []
  | some s =>
    match (compactionAccounting o env (compactionJobInfo cf inputs outputs outputLevel) s).2 with
    | none => []
    | some a => a.edit.deletedFiles

/-- The builders have given up every file that the SST of a flush refers to. -/
def Sealed (l : Ledger) : LedgerEvent → Prop
  | .flush _ sst => ∀ i ∈ sst.refs, i.fileNumber ∉ l.building.map Prod.fst
  | _ => True

/-- `OnCompactionCompleted` finds every file that the outputs name and the inputs do not. -/
def Orderly (l : Ledger) : LedgerEvent → Prop
  | .compaction inputs outputs _ built _ _ _ =>
    ∀ i ∈ refsOfSsts outputs, Names (refsOfSsts inputs) i.fileNumber ∨
      (l.fs.account cf i.fileNumber).isSome ∨ i.fileNumber ∈ built.map fun b => b.file.fileNumber
  | _ => True

instance (l : Ledger) : (e : LedgerEvent) → Decidable (l.Sealed e)
  | .flush .. => inferInstanceAs (Decidable (∀ _ ∈ _, _))
  | .newFileNumber | .append .. | .forget .. | .sealMemtable .. | .batchFinishFiles .. | .register .. | .lose ..
  | .compaction .. | .deleteFile .. | .purge .. => .isTrue trivial

instance (l : Ledger) : (e : LedgerEvent) → Decidable (l.Orderly cf e)
  | .compaction .. => inferInstanceAs (Decidable (∀ _ ∈ _, _))
  | .newFileNumber | .append .. | .forget .. | .sealMemtable .. | .batchFinishFiles .. | .register .. | .lose ..
  | .flush .. | .deleteFile .. | .purge .. => .isTrue trivial

end Ledger

/-! ### The balance of one file -/

/-- `U`: the references that are not in an SST yet; `L`: those of the live SSTs. A file that no flush has named has an
empty account and all its references in `U`; later its account has room for the references still to come. -/
structure FileBalance (exact accounted : Prop) (U L : Multiset BlobIndex) (n : Nat) (m : BlobFileMeta) (d : Nat) :
    Prop where
  header : kBlobHeaderSize + kBlobFooterSize ≤ m.fileSize
  fits : m.fileSize < 2 ^ 63
  positive : ∀ i ∈ U + L, i.fileNumber = n → 0 < i.blobHandle.size
  pending : ¬ accounted → d = 0 ∧ ¬ Names L n ∧ bytesOf n U + kBlobHeaderSize + kBlobFooterSize ≤ m.fileSize
  charged : accounted → bytesOf n U ≤ d ∧ d + bytesOf n L + kBlobHeaderSize + kBlobFooterSize ≤ m.fileSize
  balanced : exact → accounted → d + bytesOf n L + kBlobHeaderSize + kBlobFooterSize = m.fileSize

/-- The references into file `n`. -/
def refsTo (n : Nat) (r : Multiset BlobIndex) : Multiset BlobIndex := r.filter fun i => i.fileNumber = n

section refsTo

variable {n : Nat} {r t : Multiset BlobIndex}

@[simp] theorem refsTo_add : refsTo n (r + t) = refsTo n r + refsTo n t := filter_add ..

theorem bytesOf_refsTo : bytesOf n (refsTo n r) = bytesOf n r := by
  unfold bytesOf refsTo
  simp

theorem mem_refsTo {i : BlobIndex} : i ∈ refsTo n r ↔ i ∈ r ∧ i.fileNumber = n := mem_filter

theorem names_iff_refsTo : Names r n ↔ refsTo n r ≠ 0 := by
  rw [refsTo, ne_eq]
  simp [Names]

theorem refsTo_eq_zero (h : ¬ Names r n) : refsTo n r = 0 := by
  by_contra hne
  exact h (names_iff_refsTo.2 hne)

theorem bytesOf_le_of_refsTo (h : refsTo n r ≤ refsTo n t) : bytesOf n r ≤ bytesOf n t := by
  rw [← bytesOf_refsTo, ← bytesOf_refsTo (r := t)]
  exact bytesOf_le n h

theorem refsTo_le (h : r ≤ t) : refsTo n r ≤ refsTo n t := filter_le_filter _ h

end refsTo

theorem u64_natCast {x : Nat} (h : x < 2 ^ 64) : u64 x = x := by
  unfold u64
  omega

theorem compactedSize_of_le {d x y : Nat} (h : y ≤ x) (hd : d + x < 2 ^ 63) :
    compactedSize d (i64 (y - x)) = d + (x - y) := by
  unfold compactedSize
  rw [i64]
  split
  · omega
  · rw [u64]
    omega

namespace FileBalance

variable {exact accounted : Prop} {U U' L L' C I O R : Multiset BlobIndex} {n d : Nat} {m : BlobFileMeta}

theorem congr (h : FileBalance exact accounted U L n m d) (hU : refsTo n U' ≤ refsTo n U)
    (hL : refsTo n L' = refsTo n L) {accounted' : Prop} (ha : accounted' ↔ accounted) :
    FileBalance exact accounted' U' L' n m d := by
  have hbytesU := bytesOf_le_of_refsTo hU
  have hbytesL : bytesOf n L' = bytesOf n L := by rw [← bytesOf_refsTo, hL, bytesOf_refsTo]
  refine ⟨h.header, h.fits, fun i hi hn => h.positive i ?_ hn, fun hna => ?_, fun hacc => ?_, fun he hacc => ?_⟩
  · rcases mem_add.1 hi with hi | hi
    · exact mem_add.2 (.inl (mem_refsTo.1 (mem_of_le hU (mem_refsTo.2 ⟨hi, hn⟩))).1)
    · exact mem_add.2 (.inr (mem_refsTo.1 (hL ▸ mem_refsTo.2 ⟨hi, hn⟩)).1)
  · obtain ⟨hd, hnames, hsize⟩ := h.pending fun hacc => hna (ha.2 hacc)
    refine ⟨hd, ?_, by omega⟩
    rwa [names_iff_refsTo, hL, ← names_iff_refsTo]
  · have := h.charged (ha.1 hacc)
    omega
  · have := h.balanced he (ha.1 hacc)
    omega

theorem flush {r : Multiset BlobIndex} (h : FileBalance exact accounted (C + U) L n m d) (hr : r ≤ C)
    (hn : Names r n) : FileBalance exact True U (r + L) n m (flushedSize m d (u64 (bytesOf n r))) := by
  have hle := bytesOf_le n hr
  have hpos : 0 < bytesOf n r := by
    by_contra hzero
    obtain ⟨i, hi, hin⟩ := hn
    refine not_mem_of_bytesOf_eq_zero ?_ (Nat.eq_zero_of_not_pos hzero) i hi hin
    intro j hj hjn
    exact h.positive j (by simp [mem_of_le hr hj]) hjn
  have hfits := h.fits
  have hadd := bytesOf_add n C U
  have hsize : flushedSize m d (u64 (bytesOf n r)) + bytesOf n r + bytesOf n L + kBlobHeaderSize + kBlobFooterSize ≤
        m.fileSize ∧ bytesOf n U ≤ flushedSize m d (u64 (bytesOf n r)) ∧
      (exact → flushedSize m d (u64 (bytesOf n r)) + bytesOf n r + bytesOf n L + kBlobHeaderSize + kBlobFooterSize =
        m.fileSize) := by
    by_cases hacc : accounted
    · have hch := h.charged hacc
      -- a later flush takes back what the first has counted as discardable
      rw [u64_natCast (by omega), flushedSize, if_neg (by omega), u64]
      refine ⟨by omega, by omega, fun he => ?_⟩
      have := h.balanced he hacc
      omega
    · obtain ⟨rfl, hnames, hp⟩ := h.pending hacc
      have hzero := bytesOf_eq_zero_of_not_names hnames
      rw [u64_natCast (by omega), flushedSize, if_pos rfl, u64]
      omega
  refine ⟨h.header, h.fits, fun i hi => h.positive i ?_, by simp, fun _ => ?_, fun he _ => ?_⟩
  · simp only [mem_add] at hi ⊢
    rcases hi with hi | hi | hi
    · exact .inl (.inr hi)
    · exact .inl (.inl (mem_of_le hr hi))
    · exact .inr hi
  · rw [bytesOf_add]
    omega
  · rw [bytesOf_add]
    have := hsize.2.2 he
    omega

section
variable (h : FileBalance exact accounted U (I + R) n m d)
include h

theorem room : d + bytesOf n I < 2 ^ 63 := by
  have hsum := bytesOf_add n I R
  have hfits := h.fits
  by_cases hacc : accounted
  · have := h.charged hacc
    omega
  · obtain ⟨hd, hno, -⟩ := h.pending hacc
    have := bytesOf_eq_zero_of_not_names hno
    omega

theorem compaction (hO : refsTo n O ≤ refsTo n I) :
    FileBalance exact accounted U (R + O) n m (compactedSize d (i64 (bytesOf n O - bytesOf n I))) := by
  have hle := bytesOf_le_of_refsTo hO
  have hmem : ∀ i ∈ R + O, i.fileNumber = n → i ∈ I + R := by
    intro i hi hn
    rcases mem_add.1 hi with hi | hi
    · exact mem_add.2 (.inr hi)
    · exact mem_add.2 (.inl (mem_refsTo.1 (mem_of_le hO (mem_refsTo.2 ⟨hi, hn⟩))).1)
  have hsum := bytesOf_add n I R
  have hsum' := bytesOf_add n R O
  rw [compactedSize_of_le hle h.room]
  refine ⟨h.header, h.fits, fun i hi hn => h.positive i ?_ hn, fun hacc => ?_, fun hacc => ?_, fun he hacc => ?_⟩
  · exact mem_add.2 ((mem_add.1 hi).imp id fun hi => hmem i hi hn)
  · obtain ⟨hd, hno, hp⟩ := h.pending hacc
    have := bytesOf_eq_zero_of_not_names hno
    exact ⟨by omega, fun ⟨i, hi, hn⟩ => hno ⟨i, hmem i hi hn, hn⟩, hp⟩
  · have := h.charged hacc
    omega
  · have := h.balanced he hacc
    omega

theorem compaction_early (hO : refsTo n O ≤ refsTo n I) : FileBalance False accounted U (R + O) n m d := by
  have hdone := h.compaction hO
  refine ⟨h.header, h.fits, hdone.positive, fun hacc => ⟨(h.pending hacc).1, (hdone.pending hacc).2⟩, fun hacc => ?_,
    False.elim⟩
  have hch := h.charged hacc
  have hle := bytesOf_le_of_refsTo hO
  simp only [bytesOf_add] at hch ⊢
  omega

end

theorem of_pending (b : BuiltFile) (hU : refsTo b.file.fileNumber U ≤ b.records)
    (hL : ¬ Names L b.file.fileNumber) (ha : ¬ accounted) :
    FileBalance exact accounted U L b.file.fileNumber b.file.persisted 0 := by
  have hsize : b.file.persisted.fileSize = _ := b.size
  have hle : bytesOf b.file.fileNumber U ≤ bytesOf b.file.fileNumber b.records := by
    rw [← bytesOf_refsTo]
    exact bytesOf_le _ hU
  refine ⟨by omega, b.fits, fun i hi hn => ?_, fun _ => ⟨rfl, hL, by omega⟩, fun hacc => absurd hacc ha,
    fun _ hacc => absurd hacc ha⟩
  rcases mem_add.1 hi with hi | hi
  · exact b.positive i (mem_coe.1 (mem_of_le hU (mem_refsTo.2 ⟨hi, hn⟩)))
  · exact absurd ⟨i, hi, hn⟩ hL

theorem of_compaction (b : BuiltFile) (hU : ¬ Names U b.file.fileNumber) (hL : refsTo b.file.fileNumber L = b.records) :
    FileBalance exact True U L b.file.fileNumber b.file.persisted 0 := by
  have hsize : b.file.persisted.fileSize = _ := b.size
  have hzero := bytesOf_eq_zero_of_not_names hU
  have heq : bytesOf b.file.fileNumber L = bytesOf b.file.fileNumber b.records := by
    rw [← bytesOf_refsTo, hL]
  refine ⟨by omega, b.fits, fun i hi hn => ?_, by simp, fun _ => by omega, fun _ _ => by omega⟩
  rcases mem_add.1 hi with hi | hi
  · exact absurd ⟨i, hi, hn⟩ hU
  · have hmem := mem_refsTo.2 ⟨hi, hn⟩
    rw [hL] at hmem
    exact b.positive i (mem_coe.1 hmem)

theorem not_names_of_noLiveData (h : FileBalance exact accounted U L n m d)
    (hd : d = u64 (m.fileSize - kBlobHeaderSize - kBlobFooterSize)) : ¬ Names L n := by
  by_cases hacc : accounted
  · have hch := h.charged hacc
    have hfits := h.fits
    have hzero : bytesOf n L = 0 := by
      rw [u64] at hd
      omega
    rintro ⟨i, hi, hn⟩
    exact not_mem_of_bytesOf_eq_zero (fun j hj => h.positive j (mem_add.2 (.inr hj))) hzero i hi hn
  · exact (h.pending hacc).2.1

theorem imp (h : FileBalance exact accounted U L n m d) {exact' : Prop} (himp : exact' → exact) :
    FileBalance exact' accounted U L n m d :=
  { h with balanced := fun he => h.balanced (himp he) }

end FileBalance

/-! ### Accounts after the operations of a step -/

section accounts

variable {o : Options} {fs : BlobFileSets} {cf n d : Nat} {m : BlobFileMeta}

theorem BlobFileSets.account_eq_some {p : BlobFileMeta × Nat} :
    fs.account cf n = some p ↔ ∃ s, fs.getBlobStorage cf = some s ∧ s.account n = some p := by
  simp [account, bind_eq_some_iff]

theorem BlobFileSets.account_mapStorage (fs : BlobFileSets) (cf n : Nat) (f : BlobStorage → BlobStorage) :
    (fs.mapStorage cf f).account cf n = (fs.getBlobStorage cf).bind fun s => (f s).account n := by
  unfold mapStorage
  split
  next hs => rw [account, hs]; rfl
  next s hs => rw [account_setBlobStorage, if_pos rfl, hs]; rfl

theorem BlobFileSets.nextFileNumber_mapStorage (f : BlobStorage → BlobStorage) :
    (fs.mapStorage cf f).nextFileNumber = fs.nextFileNumber := by
  unfold mapStorage
  split <;> rfl

theorem BlobStorage.account_addBlobFile (s : BlobStorage) (sep : Bool) (file : BlobFileMeta) (n : Nat) :
    (s.addBlobFile sep file).account n =
      (s.account n).or (if file.fileNumber = n then some (file.persisted, file.discardableSize) else none) := by
  rw [account, findFile_addBlobFile, account]
  cases s.findFile n with
  | none => simp only [map_none]; split <;> rfl
  | some file' => rfl

theorem account_foldl_addBlobFile (sep : Bool) (built : List BuiltFile) (s : BlobStorage) :
    (built.foldl (fun s b => s.addBlobFile sep b.file) s).account n =
      (s.account n).or ((built.find? fun b => b.file.fileNumber == n).map fun b => (b.file.persisted, 0)) := by
  induction built generalizing s with
  | nil => simp
  | cons b built ih =>
    rw [List.foldl_cons, ih, account_addBlobFile, b.new, List.find?_cons]
    by_cases hn : b.file.fileNumber = n
    · simp [hn]
    · have hne : (b.file.fileNumber == n) = false := by simpa using hn
      simp [hn, hne]

variable {built : List BuiltFile} {l : Ledger}

theorem account_addFiles (h : (l.addFiles o cf built).account cf n = some (m, d)) : l.fs.account cf n = some (m, d) ∨
      ∃ b ∈ built, b.file.fileNumber = n ∧ b.file.persisted = m ∧ d = 0 := by
  rw [Ledger.addFiles, account_mapStorage, bind_eq_some_iff] at h
  obtain ⟨s, hs, h⟩ := h
  rw [account_foldl_addBlobFile, or_eq_some_iff] at h
  rcases h with h | ⟨-, h⟩
  · exact .inl (account_eq_some.2 ⟨s, hs, h⟩)
  · obtain ⟨b, hb, heq⟩ := map_eq_some_iff.1 h
    have hn := find?_some hb
    cases heq
    exact .inr ⟨b, mem_of_find?_eq_some hb, by simpa using hn, rfl, rfl⟩

theorem account_addFiles_eq_none (h : l.fs.account cf n = none)
    (hb : ∀ b ∈ built, b.file.fileNumber ≠ n) : (l.addFiles o cf built).account cf n = none := by
  refine eq_none_iff_forall_ne_some.2 fun p hp => ?_
  rcases account_addFiles hp with hold | ⟨b, hmem, hn, -⟩
  · rw [h] at hold
    cases hold
  · exact hb b hmem hn

theorem isSome_account_addFiles {k : Nat} {p : BlobFileMeta × Nat}
    (hstorage : (l.addFiles o cf built).account cf n = some p)
    (hk : (l.fs.account cf k).isSome ∨ k ∈ built.map fun b => b.file.fileNumber) :
    ((l.addFiles o cf built).account cf k).isSome := by
  rw [Ledger.addFiles, account_mapStorage] at hstorage ⊢
  obtain ⟨s, hs, -⟩ := bind_eq_some_iff.1 hstorage
  rw [hs, bind_some, account_foldl_addBlobFile, isSome_or]
  rcases hk with hk | hk
  · rw [BlobFileSets.account, hs, bind_some] at hk
    rw [hk]
    rfl
  · obtain ⟨b, hb, rfl⟩ := mem_map.1 hk
    have hfind : (built.find? fun b' => b'.file.fileNumber == b.file.fileNumber).isSome := by
      rw [find?_isSome]
      exact ⟨b, hb, by simp⟩
    rw [isSome_map, hfind, Bool.or_true]

theorem account_onFlush {refs : List BlobIndex} (hc : Collectable refs)
    (h : (fs.mapStorage cf (onFlushCompleted (propertyOf refs))).account cf n = some (m, d)) :
    ∃ d₀, fs.account cf n = some (m, d₀) ∧
      d = if Names (refs : Multiset BlobIndex) n then
        flushedSize m d₀ (u64 (bytesOf n (refs : Multiset BlobIndex))) else d₀ := by
  rw [account_mapStorage, bind_eq_some_iff] at h
  obtain ⟨s, hs, h⟩ := h
  rw [account_onFlushCompleted hc] at h
  by_cases hno : ∀ i ∈ refs, i.fileNumber ≠ n
  · rw [if_pos hno] at h
    exact ⟨d, account_eq_some.2 ⟨s, hs, h⟩, (if_neg fun hn => names_coe.1 hn hno).symm⟩
  · rw [if_neg hno] at h
    obtain ⟨⟨m', d₀⟩, hd₀, heq⟩ := map_eq_some_iff.1 h
    cases heq
    exact ⟨d₀, account_eq_some.2 ⟨s, hs, hd₀⟩, (if_pos (names_coe.2 hno)).symm⟩

theorem compactedSize_of_nonneg {x : Nat} (h : x < 2 ^ 63) : compactedSize d (i64 x) = d := by
  unfold compactedSize
  rw [if_pos]
  unfold i64
  omega

theorem account_onCompaction {env : CompactionEnv} {info : CompactionJobInfo} {refsOf : Nat → List BlobIndex}
    (hc : info.Complete refsOf) (hok : info.ok = true)
    (h : (onCompactionCompleted o env info fs).account info.cfId n = some (m, d)) :
    ∃ d₀, fs.account info.cfId n = some (m, d₀) ∧ (d = compactedSize d₀
          (i64 (bytesOf n (refsIn refsOf info.outputFiles) - bytesOf n (refsIn refsOf info.inputFiles))) ∨
        d = d₀ ∧ ∃ k, Names (refsIn refsOf info.outputFiles) k ∧ ¬ Names (refsIn refsOf info.inputFiles) k ∧
          fs.account info.cfId k = none) := by
  cases hs : fs.getBlobStorage info.cfId with
  | none =>
    have hsame : onCompactionCompleted o env info fs = fs := by
      unfold onCompactionCompleted
      rw [if_pos hok, hs]
    rw [hsame, BlobFileSets.account, hs] at h
    cases h
  | some s =>
    rw [account_onCompactionCompleted hc hok hs] at h
    have hfs : ∀ k, fs.account info.cfId k = s.account k := fun k => by rw [BlobFileSets.account, hs]; rfl
    rcases compactionAccounting_cases hc s with ⟨hreg, -, hsame⟩ | ⟨-, a, ha, -, hacc, -⟩
    · rw [hsame] at h
      refine ⟨d, (hfs n).trans h, .inr ⟨rfl, ?_⟩⟩
      simp only [CompactionJobInfo.OutputsRegistered, not_forall] at hreg
      obtain ⟨k, hout, hin, hnone⟩ := hreg
      refine ⟨k, hout, hin, ?_⟩
      rw [hfs]
      simpa using hnone
    · rw [ha, hacc] at h
      by_cases hn : Names (refsIn refsOf info.inputFiles + refsIn refsOf info.outputFiles) n
      · rw [if_pos hn] at h
        obtain ⟨⟨m', d₀⟩, hd₀, heq⟩ := map_eq_some_iff.1 h
        cases heq
        exact ⟨d₀, (hfs n).trans hd₀, .inl rfl⟩
      · rw [if_neg hn] at h
        refine ⟨d, (hfs n).trans h, .inl ?_⟩
        have hin := bytesOf_eq_zero_of_not_names fun hin => hn (names_add.2 (.inl hin))
        have hout := bytesOf_eq_zero_of_not_names fun hout => hn (names_add.2 (.inr hout))
        rw [hin, hout]
        exact (compactedSize_of_nonneg (by decide)).symm

theorem nextFileNumber_onCompactionCompleted (env : CompactionEnv) (info : CompactionJobInfo) :
    (onCompactionCompleted o env info fs).nextFileNumber = fs.nextFileNumber :=
  onCompactionCompleted_rule (P := fun fs' => fs'.nextFileNumber = fs.nextFileNumber) rfl (fun _ _ _ => rfl)
    (fun _ _ h _ => nextFileNumber_logAndApply.trans h) fun _ _ _ h _ => h

end accounts

/-! ### Every step keeps the balance -/

variable {n : Nat} {i : BlobIndex} {r : Multiset BlobIndex}

theorem names_mono {r t : Multiset BlobIndex} (h : r ≤ t) (hn : Names r n) : Names t n := by
  obtain ⟨i, hi, hin⟩ := hn
  exact ⟨i, mem_of_le h hi, hin⟩

theorem names_cons : Names (i ::ₘ r) n ↔ i.fileNumber = n ∨ Names r n := by simp [Names]

theorem refsTo_cons_of_ne (h : i.fileNumber ≠ n) : refsTo n (i ::ₘ r) = refsTo n r := filter_cons_of_neg _ h

theorem refsTo_cons_of_eq (h : i.fileNumber = n) : refsTo n (i ::ₘ r) = i ::ₘ refsTo n r := filter_cons_of_pos _ h

@[simp] theorem refsOfSsts_add (a b : Multiset Sst) : refsOfSsts (a + b) = refsOfSsts a + refsOfSsts b := by
  simp [refsOfSsts]

namespace Ledger

variable {o : Options} {cf n : Nat} {l l' : Ledger} {exact : Prop}

/-- A number that no record and no file has yet. -/
structure Unused (cf : Nat) (l : Ledger) (n : Nat) : Prop where
  account : l.fs.account cf n = none
  refs : ¬ Names (l.waiting + l.immutable + l.live) n
  accounted : n ∉ l.accounted
  building : n ∉ l.building.map Prod.fst

/-- No file or account, and only memtables may refer to it. -/
def Fresh (cf : Nat) (l : Ledger) (n : Nat) : Prop :=
  l.fs.account cf n = none ∧ n ∉ l.accounted ∧ ¬ Names l.live n

structure Balanced (exact : Prop) (cf : Nat) (l : Ledger) : Prop where
  reserved_lt : ∀ n ∈ l.reserved, n < l.fs.nextFileNumber
  unused : ∀ n, n ∈ l.reserved ∨ l.fs.nextFileNumber ≤ n → l.Unused cf n
  building_new : ∀ p ∈ l.building, l.Fresh cf p.1
  building_refs : ∀ p ∈ l.building, refsTo p.1 (l.waiting + l.immutable) ≤ p.2
  file : ∀ n m d, l.fs.account cf n = some (m, d) →
    FileBalance exact (n ∈ l.accounted) (l.waiting + l.immutable) l.live n m d

theorem unused_iff :
    l.Unused cf n ↔ l.Fresh cf n ∧ ¬ Names (l.waiting + l.immutable) n ∧ n ∉ l.building.map Prod.fst := by
  constructor
  · rintro ⟨hnone, hrefs, haccounted, hbuilding⟩
    rw [names_add, not_or] at hrefs
    exact ⟨⟨hnone, haccounted, hrefs.2⟩, hrefs.1, hbuilding⟩
  · rintro ⟨⟨hnone, haccounted, hlive⟩, hrefs, hbuilding⟩
    exact ⟨hnone, by rw [names_add]; exact not_or.2 ⟨hrefs, hlive⟩, haccounted, hbuilding⟩

namespace Balanced

theorem newFileNumber (h : l.Balanced exact cf) (hstep : l.step o cf .newFileNumber = some l') : l'.Balanced exact cf := by
  cases hstep
  refine ⟨fun n hn => ?_, fun n hn => ?_, h.building_new, h.building_refs, h.file⟩
  · rcases mem_cons.1 hn with rfl | hn
    · exact Nat.lt_succ_self _
    · exact Nat.lt_succ_of_lt (h.reserved_lt n hn)
  · have hold : n ∈ l.reserved ∨ l.fs.nextFileNumber ≤ n := by
      rcases hn with hn | hn
      · exact (mem_cons.1 hn).elim (fun heq => .inr heq.ge) .inl
      · exact .inr (Nat.le_of_succ_le hn)
    obtain ⟨hnone, hrefs, haccounted, hbuilding⟩ := h.unused n hold
    exact ⟨hnone, hrefs, haccounted, hbuilding⟩

theorem cons_waiting (h : l.Balanced exact cf) {i : BlobIndex} (hnew : l.fs.account cf i.fileNumber = none)
    {m : BlobFileMeta} {d : Nat} (hn : l.fs.account cf n = some (m, d)) :
    FileBalance exact (n ∈ l.accounted) (i ::ₘ l.waiting + l.immutable) l.live n m d := by
  have hne : i.fileNumber ≠ n := by
    rintro rfl
    rw [hnew] at hn
    cases hn
  refine (h.file n m d hn).congr ?_ rfl Iff.rfl
  rw [cons_add, refsTo_cons_of_ne hne]

theorem append (h : l.Balanced exact cf) {handle : BlobHandle} (hstep : l.append n handle = some l') :
    l'.Balanced exact cf := by
  unfold Ledger.append at hstep
  split at hstep
  · cases hstep
  split at hstep
  next hbuilding =>
    cases hstep
    have hkeys : (l.building.map fun p => if p.1 = n then (p.1, ⟨n, handle⟩ :: p.2) else p).map Prod.fst =
        l.building.map Prod.fst := by
      rw [List.map_map]
      refine map_congr_left fun p _ => ?_
      simp only [Function.comp_apply]
      split <;> rfl
    obtain ⟨q, hq, rfl⟩ := mem_map.1 hbuilding
    refine ⟨h.reserved_lt, fun k hk => ?_, fun p hp => ?_, fun p hp => ?_, fun k m d hk => ?_⟩
    · obtain ⟨hfresh, hrefs, hnot⟩ := unused_iff.1 (h.unused k hk)
      refine unused_iff.2 ⟨hfresh, ?_, by dsimp only; rwa [hkeys]⟩
      rw [cons_add, names_cons]
      rintro (rfl | hn)
      · exact hnot hbuilding
      · exact hrefs hn
    · obtain ⟨p', hp', rfl⟩ := mem_map.1 hp
      have hfst : (if p'.1 = q.1 then (p'.1, ⟨q.1, handle⟩ :: p'.2) else p').1 = p'.1 := by split <;> rfl
      rw [hfst]
      exact h.building_new p' hp'
    · obtain ⟨p', hp', rfl⟩ := mem_map.1 hp
      have hrefs := h.building_refs p' hp'
      rw [cons_add]
      split
      next heq =>
        rw [refsTo_cons_of_eq heq.symm]
        exact cons_le_cons _ hrefs
      next hne => rwa [refsTo_cons_of_ne (Ne.symm hne)]
    · exact h.cons_waiting (h.building_new q hq).1 hk
  next hnot =>
    obtain ⟨hreserved, ⟨⟩⟩ := ite_none_right_eq_some.1 hstep
    obtain ⟨hun, hrefs, -⟩ := unused_iff.1 (h.unused n (.inl hreserved))
    refine ⟨fun k hk => h.reserved_lt k (mem_filter.1 hk).1, fun k hk => ?_, fun p hp => ?_, fun p hp => ?_,
      fun k m d hk => h.cons_waiting hun.1 hk⟩
    · have hne : n ≠ k := by
        rintro rfl
        rcases hk with hk | hk
        · simp at hk
        · exact absurd (h.reserved_lt n hreserved) (Nat.not_lt.2 hk)
      obtain ⟨hold, hrefs, hbuilding⟩ :=
        unused_iff.1 (h.unused k (hk.imp_left fun hk => (mem_filter.1 hk).1))
      refine unused_iff.2 ⟨hold, ?_, ?_⟩
      · rw [cons_add, names_cons]
        exact not_or.2 ⟨hne, hrefs⟩
      · simp only [List.map_cons, List.mem_cons, not_or]
        exact ⟨hne.symm, hbuilding⟩
    · rcases mem_cons.1 hp with rfl | hp
      · exact hun
      · exact h.building_new p hp
    · rw [cons_add]
      rcases mem_cons.1 hp with rfl | hmem
      · rw [refsTo_cons_of_eq (n := n) rfl, refsTo_eq_zero hrefs]
        rfl
      · have hne : n ≠ p.1 := by
          rintro rfl
          exact hnot (mem_map_of_mem hmem)
        rw [refsTo_cons_of_ne hne]
        exact h.building_refs p hmem

variable {refs : Multiset BlobIndex} {built : List BuiltFile} {lost : Multiset BlobIndex}

theorem forget (h : l.Balanced exact cf) (hstep : l.step o cf (.forget refs) = some l') : l'.Balanced exact cf := by
  obtain ⟨-, ⟨⟩⟩ := ite_none_right_eq_some.1 hstep
  have hsub : l.waiting - refs + l.immutable ≤ l.waiting + l.immutable :=
    add_le_add (Multiset.sub_le_self ..) le_rfl
  refine ⟨h.reserved_lt, fun k hk => ?_, h.building_new, fun p hp => (refsTo_le hsub).trans (h.building_refs p hp),
    fun k m d hk => (h.file k m d hk).congr (refsTo_le hsub) rfl Iff.rfl⟩
  obtain ⟨hold, hrefs, hbuilding⟩ := unused_iff.1 (h.unused k hk)
  exact unused_iff.2 ⟨hold, fun hn => hrefs (names_mono hsub hn), hbuilding⟩

theorem sealMemtable (h : l.Balanced exact cf) (hstep : l.sealMemtable refs = some l') : l'.Balanced exact cf := by
  obtain ⟨hmoved, ⟨⟩⟩ := ite_none_right_eq_some.1 hstep
  have hU : l.waiting - refs + (l.immutable + refs) = l.waiting + l.immutable := by
    rw [add_comm l.immutable, ← add_assoc, Multiset.sub_add_cancel hmoved]
  refine ⟨h.reserved_lt, fun k hk => ?_, h.building_new, ?_, ?_⟩
  · obtain ⟨hold, hrefs, hbuilding⟩ := unused_iff.1 (h.unused k hk)
    exact unused_iff.2 ⟨hold, by rwa [hU], hbuilding⟩
  · rw [hU]
    exact h.building_refs
  · rw [hU]
    exact h.file

theorem file_addFiles {accounted : List Nat} {U L : Multiset BlobIndex}
    (hold : ∀ n m d, l.fs.account cf n = some (m, d) → FileBalance exact (n ∈ accounted) U L n m d)
    (hnew : ∀ b ∈ built, FileBalance exact (b.file.fileNumber ∈ accounted) U L b.file.fileNumber b.file.persisted 0)
    (n : Nat) (m : BlobFileMeta) (d : Nat) (h : (l.addFiles o cf built).account cf n = some (m, d)) :
    FileBalance exact (n ∈ accounted) U L n m d := by
  rcases account_addFiles h with h | ⟨b, hb, rfl, rfl, rfl⟩
  · exact hold n m d h
  · exact hnew b hb

theorem batchFinishFiles (h : l.Balanced exact cf) {closed : List Nat}
    (hstep : l.batchFinishFiles o cf closed built = some l') : l'.Balanced exact cf := by
  obtain ⟨⟨-, hbuilt⟩, ⟨⟩⟩ := ite_none_right_eq_some.1 hstep
  refine ⟨fun k hk => ?_, fun k hk => ?_, fun p hp => ?_, fun p hp => h.building_refs p (mem_filter.1 hp).1, ?_⟩
  · rw [addFiles, nextFileNumber_mapStorage]
    exact h.reserved_lt k hk
  · rw [addFiles, nextFileNumber_mapStorage] at hk
    obtain ⟨⟨hnone, hfresh⟩, hrefs, hbuilding⟩ := unused_iff.1 (h.unused k hk)
    refine unused_iff.2 ⟨⟨account_addFiles_eq_none hnone ?_, hfresh⟩, hrefs, fun hmem => hbuilding ?_⟩
    · rintro b hb rfl
      exact hbuilding (mem_map_of_mem (hbuilt b hb).2)
    · exact (filter_sublist.map Prod.fst).subset hmem
  · obtain ⟨hp, hopen⟩ := mem_filter.1 hp
    obtain ⟨hnone, hfresh⟩ := h.building_new p hp
    refine ⟨account_addFiles_eq_none hnone fun b hb heq => ?_, hfresh⟩
    exact of_decide_eq_true hopen (heq ▸ (hbuilt b hb).1)
  · refine file_addFiles h.file fun b hb => ?_
    obtain ⟨-, haccounted, hnames⟩ := h.building_new _ (hbuilt b hb).2
    exact .of_pending b (h.building_refs _ (hbuilt b hb).2) hnames haccounted

theorem mem_unreserve :
    n ∈ l.unreserve built lost ↔ n ∈ l.reserved ∧ (∀ b ∈ built, b.file.fileNumber ≠ n) ∧ ¬ Names lost n := by
  simp [unreserve]

section
variable (h : l.Balanced exact cf)
include h

/-- A number that is still unused is none of the new files' and none of the lost records'. -/
theorem not_new (hnew : l.NewNumbers built lost) (hn : n ∈ l.unreserve built lost ∨ l.fs.nextFileNumber ≤ n) :
    (∀ b ∈ built, b.file.fileNumber ≠ n) ∧ ¬ Names lost n ∧ l.Unused cf n := by
  rcases hn with hn | hn
  · obtain ⟨hres, hb, hlost⟩ := mem_unreserve.1 hn
    exact ⟨hb, hlost, h.unused n (.inl hres)⟩
  · refine ⟨?_, ?_, h.unused n (.inr hn)⟩
    · rintro b hb rfl
      exact absurd (h.reserved_lt _ (hnew.2.1 b hb)) (Nat.not_lt.2 hn)
    · rintro ⟨i, hi, rfl⟩
      exact absurd (h.reserved_lt _ (hnew.2.2 i hi).1) (Nat.not_lt.2 hn)

theorem refsTo_lost (hnew : l.NewNumbers built lost) (hn : (l.fs.account cf n).isSome) : refsTo n lost = 0 := by
  refine refsTo_eq_zero ?_
  rintro ⟨i, hi, rfl⟩
  rw [(h.unused _ (.inl (hnew.2.2 i hi).1)).account] at hn
  cases hn

theorem register {b : BuiltFile} {flushing : Bool}
    (hstep : l.register o cf b refs flushing = some l') : l'.Balanced exact cf := by
  obtain ⟨⟨hrefs, hnew⟩, ⟨⟩⟩ := ite_none_right_eq_some.1 hstep
  have hU : (if flushing then l.waiting else l.waiting + refs) +
      (if flushing then l.immutable + refs else l.immutable) = l.waiting + l.immutable + refs := by
    cases flushing with
    | false => simp only [Bool.false_eq_true, if_false]; rw [add_right_comm]
    | true => simp only [if_true]; rw [add_assoc]
  have hzero : ∀ {k}, b.file.fileNumber ≠ k → ¬ Names refs k := by
    rintro k hne ⟨i, hi, rfl⟩
    exact hne (b.number i (mem_coe.1 (mem_of_le hrefs hi))).symm
  have hun := h.unused _ (.inl (hnew.2.1 b (List.mem_singleton_self b)))
  have hbuilding : ∀ p ∈ l.building, b.file.fileNumber ≠ p.1 := fun p hp heq =>
    hun.building (heq ▸ mem_map_of_mem hp)
  refine ⟨fun k hk => ?_, fun k hk => ?_, fun p hp => ?_, fun p hp => ?_, ?_⟩
  · rw [addFiles, nextFileNumber_mapStorage]
    exact h.reserved_lt k (mem_unreserve.1 hk).1
  · rw [addFiles, nextFileNumber_mapStorage] at hk
    obtain ⟨hb, -, hold⟩ := h.not_new hnew hk
    refine ⟨account_addFiles_eq_none hold.account hb, ?_, hold.accounted, hold.building⟩
    rw [hU, add_right_comm, names_add]
    exact not_or.2 ⟨hold.refs, hzero (hb b (List.mem_singleton_self b))⟩
  · obtain ⟨haccount, haccounted, hnames⟩ := h.building_new p hp
    exact ⟨account_addFiles_eq_none haccount (by simpa using hbuilding p hp), haccounted, hnames⟩
  · rw [hU, refsTo_add, refsTo_eq_zero (hzero (hbuilding p hp)), add_zero]
    exact h.building_refs p hp
  · rw [hU]
    refine file_addFiles (fun k m d hk => ?_) fun b' hb' => ?_
    · have hne : b.file.fileNumber ≠ k := by
        rintro rfl
        rw [hun.account] at hk
        cases hk
      refine (h.file k m d hk).congr ?_ rfl Iff.rfl
      rw [refsTo_add, refsTo_eq_zero (hzero hne), add_zero]
    · obtain rfl := List.mem_singleton.1 hb'
      refine .of_pending b' ?_ (fun hl => hun.refs (names_add.2 (.inr hl))) hun.accounted
      rw [refsTo_add, refsTo_eq_zero fun hn => hun.refs (names_add.2 (.inl hn)), zero_add]
      exact (filter_le _ _).trans hrefs

theorem lose (hstep : l.lose refs = some l') : l'.Balanced exact cf := by
  obtain ⟨hnew, ⟨⟩⟩ := ite_none_right_eq_some.1 hstep
  refine ⟨fun k hk => h.reserved_lt k (mem_unreserve.1 hk).1, fun k hk => ?_, h.building_new, fun p hp => ?_,
    fun k m d hk => (h.file k m d hk).congr ?_ rfl Iff.rfl⟩
  · obtain ⟨-, hlost, hold⟩ := h.not_new hnew hk
    obtain ⟨hold, hrefs, hbuilding⟩ := unused_iff.1 hold
    refine unused_iff.2 ⟨hold, ?_, hbuilding⟩
    rw [← add_assoc, names_add]
    exact not_or.2 ⟨hrefs, hlost⟩
  · have hlost : ¬ Names refs p.1 := by
      rintro ⟨i, hi, hip⟩
      exact (h.unused _ (.inl (hnew.2.2 i hi).1)).building (hip ▸ mem_map_of_mem hp)
    rw [← add_assoc, refsTo_add, refsTo_eq_zero hlost, add_zero]
    exact h.building_refs p hp
  · have hzero := h.refsTo_lost hnew (by rw [hk]; rfl)
    rw [← add_assoc, refsTo_add, hzero, add_zero]

end

theorem mem_map_fileNumber {refs : List BlobIndex} :
    n ∈ refs.map BlobIndex.fileNumber ↔ Names (refs : Multiset BlobIndex) n := by
  simp [Names]

theorem flush (h : l.Balanced exact cf) {chosen : Multiset BlobIndex} {sst : Sst}
    (hsealed : l.Sealed (.flush chosen sst)) (hstep : l.flush cf chosen sst = some l') : l'.Balanced exact cf := by
  obtain ⟨⟨hchosen, hrefs, hcoll⟩, ⟨⟩⟩ := ite_none_right_eq_some.1 hstep
  have hsub : l.waiting + (l.immutable - chosen) ≤ l.waiting + l.immutable :=
    add_le_add le_rfl (Multiset.sub_le_self ..)
  have hU : chosen + (l.waiting + (l.immutable - chosen)) = l.waiting + l.immutable := by
    rw [add_left_comm, add_comm chosen, Multiset.sub_add_cancel hchosen]
  have hlive : refsOfSsts (sst ::ₘ l.ssts) = sst.refs + l.live := by simp [refsOfSsts, live]
  have hfresh : ∀ {k}, ¬ Names sst.refs k → l.Fresh cf k → Fresh cf { l with
      fs := l.fs.mapStorage cf (onFlushCompleted (propertyOf sst.refs))
      immutable := l.immutable - chosen
      ssts := sst ::ₘ l.ssts
      accounted := sst.refs.map BlobIndex.fileNumber ++ l.accounted } k := by
    rintro k hnot ⟨hnone, haccounted, hnames⟩
    refine ⟨eq_none_iff_forall_ne_some.2 fun p hp => ?_, ?_, ?_⟩
    · obtain ⟨d₀, hd₀, -⟩ := account_onFlush hcoll hp
      rw [hnone] at hd₀
      cases hd₀
    · simp only [mem_append, mem_map_fileNumber, not_or]
      exact ⟨hnot, haccounted⟩
    · change ¬ Names (refsOfSsts (sst ::ₘ l.ssts)) k
      rw [hlive, names_add]
      exact not_or.2 ⟨hnot, hnames⟩
  refine ⟨?_, fun k hk => ?_, fun p hp => hfresh ?_ (h.building_new p hp),
    fun p hp => (refsTo_le hsub).trans (h.building_refs p hp), fun k m d hk => ?_⟩
  · rw [nextFileNumber_mapStorage]
    exact h.reserved_lt
  · rw [nextFileNumber_mapStorage] at hk
    obtain ⟨hold, hunnamed, hbuilding⟩ := unused_iff.1 (h.unused k hk)
    refine unused_iff.2 ⟨hfresh (fun hn => hunnamed ?_) hold, fun hn => hunnamed (names_mono hsub hn), hbuilding⟩
    exact names_add.2 (.inr (names_mono (hrefs.trans hchosen) hn))
  · rintro ⟨i, hi, heq⟩
    exact hsealed i (mem_coe.1 hi) (heq ▸ mem_map_of_mem hp)
  · obtain ⟨d₀, hd₀, rfl⟩ := account_onFlush hcoll hk
    have hold := h.file k m d₀ hd₀
    change FileBalance exact _ (l.waiting + (l.immutable - chosen)) (refsOfSsts (sst ::ₘ l.ssts)) k m _
    rw [hlive]
    by_cases hn : Names sst.refs k
    · rw [if_pos hn]
      rw [← hU] at hold
      refine (hold.flush hrefs hn).congr le_rfl rfl ?_
      simp [mem_map_fileNumber, hn]
    · rw [if_neg hn]
      refine hold.congr (refsTo_le hsub) ?_ ?_
      · rw [refsTo_add, refsTo_eq_zero hn, zero_add]
      · simp [mem_map_fileNumber, hn]

end Balanced

end Ledger

/-! ### Compactions -/

@[simp] theorem recordsOf_cons (b : BuiltFile) (built : List BuiltFile) :
    recordsOf (b :: built) = b.records + recordsOf built := by simp [recordsOf]

theorem BuiltFile.refsTo_records (b : BuiltFile) (n : Nat) :
    refsTo n (b.records : Multiset BlobIndex) = if b.file.fileNumber = n then (b.records : Multiset BlobIndex) else 0 := by
  split
  next heq => exact filter_eq_self.2 fun i hi => (b.number i hi).trans heq
  next hne => exact filter_eq_nil.2 fun i hi heq => hne ((b.number i hi).symm.trans heq)

theorem refsTo_recordsOf_of_ne {built : List BuiltFile} (h : ∀ b ∈ built, b.file.fileNumber ≠ n) :
    refsTo n (recordsOf built) = 0 := by
  induction built with
  | nil => rfl
  | cons b built ih =>
    rw [List.forall_mem_cons] at h
    rw [recordsOf_cons, refsTo_add, b.refsTo_records, if_neg h.1, ih h.2, add_zero]

theorem refsTo_recordsOf {built : List BuiltFile} (hnodup : (built.map fun b => b.file.fileNumber).Nodup)
    {b : BuiltFile} (hb : b ∈ built) : refsTo b.file.fileNumber (recordsOf built) = b.records := by
  induction built with
  | nil => cases hb
  | cons b' built ih =>
    rw [List.map_cons, List.nodup_cons] at hnodup
    rw [recordsOf_cons, refsTo_add, b'.refsTo_records]
    rcases mem_cons.1 hb with rfl | hb
    · rw [if_pos rfl, refsTo_recordsOf_of_ne, add_zero]
      intro b' hb' heq
      exact hnodup.1 (heq ▸ mem_map_of_mem hb')
    · rw [if_neg, ih hnodup.2 hb, zero_add]
      intro heq
      exact hnodup.1 (heq ▸ mem_map_of_mem hb)

section jobInfo

variable {cf outputLevel : Nat} {inputs outputs : List Sst}

/-- The references by the name of the SST. -/
def refsByName (ssts : List Sst) (f : Nat) : List BlobIndex :=
  ((ssts.find? fun t => t.number == f).map Sst.refs).getD []

theorem find?_number {ssts : List Sst} (h : ∀ t ∈ ssts, ∀ t' ∈ ssts, t.number = t'.number → t = t') {t : Sst}
    (ht : t ∈ ssts) : ssts.find? (fun t' => t'.number == t.number) = some t := by
  cases hfind : ssts.find? (fun t' => t'.number == t.number) with
  | none =>
    have hno := find?_eq_none.1 hfind t ht
    simp at hno
  | some t' =>
    have heq := find?_some hfind
    rw [h t' (mem_of_find?_eq_some hfind) t ht (by simpa using heq)]

theorem complete_compactionJobInfo (hcoll : ∀ t ∈ inputs ++ outputs, Collectable t.refs)
    (hnames : ∀ t ∈ inputs ++ outputs, ∀ t' ∈ inputs ++ outputs, t.number = t'.number → t = t') :
    (compactionJobInfo cf inputs outputs outputLevel).Complete (refsByName (inputs ++ outputs)) := by
  have hall : ∀ t ∈ inputs ++ outputs,
      (compactionJobInfo cf inputs outputs outputLevel).tableProperties t.number =
        some (propertyOf (refsByName (inputs ++ outputs) t.number)) ∧
      Collectable (refsByName (inputs ++ outputs) t.number) := by
    intro t ht
    unfold compactionJobInfo refsByName
    dsimp only
    rw [find?_number hnames ht]
    exact ⟨rfl, hcoll t ht⟩
  constructor
  · intro f hf
    obtain ⟨t, ht, rfl⟩ := mem_map.1 hf
    exact hall t (mem_append_left _ ht)
  · intro f hf
    obtain ⟨t, ht, rfl⟩ := mem_map.1 hf
    exact hall t (mem_append_right _ ht)

theorem refsIn_refsByName {ssts : List Sst} (hnames : ∀ t ∈ ssts, ∀ t' ∈ ssts, t.number = t'.number → t = t')
    {some : List Sst} (hsub : ∀ t ∈ some, t ∈ ssts) :
    refsIn (refsByName ssts) (some.map Sst.number) = refsOfSsts some := by
  unfold refsIn refsOfSsts
  rw [List.map_map, Multiset.map_coe]
  congr 1
  refine map_congr_left fun t ht => ?_
  simp only [Function.comp_apply, refsByName, find?_number hnames (hsub t ht)]
  rfl

end jobInfo

namespace Ledger.Balanced

variable {o : Options} {cf n : Nat} {l l' : Ledger} {exact : Prop}

/-- What the guard of a compaction says. -/
structure Compaction (l : Ledger) (inputs outputs : List Sst) (kept : Multiset BlobIndex) (built : List BuiltFile)
    (lost : Multiset BlobIndex) : Prop where
  inputs_le : (inputs : Multiset Sst) ≤ l.ssts
  kept_le : kept ≤ refsOfSsts inputs
  outputs_eq : refsOfSsts outputs = kept + recordsOf built + lost
  new : l.NewNumbers built lost
  collectable : ∀ t ∈ inputs ++ outputs, Collectable t.refs
  names : ∀ t ∈ inputs ++ outputs, ∀ t' ∈ inputs ++ outputs, t.number = t'.number → t = t'

namespace Compaction

variable {inputs outputs : List Sst} {kept lost : Multiset BlobIndex} {built : List BuiltFile}

theorem complete (hc : Compaction l inputs outputs kept built lost) {outputLevel : Nat} :
    (compactionJobInfo cf inputs outputs outputLevel).Complete (refsByName (inputs ++ outputs)) :=
  complete_compactionJobInfo hc.collectable hc.names

theorem live_eq (hc : Compaction l inputs outputs kept built lost) :
    refsOfSsts inputs + refsOfSsts (l.ssts - inputs) = l.live := by
  rw [← refsOfSsts_add, add_comm, Multiset.sub_add_cancel hc.inputs_le, live]

theorem not_names_outputs (hc : Compaction l inputs outputs kept built lost) (hlive : ¬ Names l.live n)
    (hb : ∀ b ∈ built, b.file.fileNumber ≠ n) (hlost : ¬ Names lost n) :
    ¬ Names (refsOfSsts (l.ssts - inputs + outputs)) n := by
  rw [refsOfSsts_add, hc.outputs_eq]
  simp only [names_add, not_or]
  refine ⟨fun hn => hlive ?_, ⟨fun hn => hlive ?_, ?_⟩, hlost⟩
  · rw [← hc.live_eq]
    exact names_add.2 (.inr hn)
  · rw [← hc.live_eq]
    exact names_add.2 (.inl (names_mono hc.kept_le hn))
  · rw [names_iff_refsTo, not_not]
    exact refsTo_recordsOf_of_ne hb

section
variable (h : l.Balanced exact cf) (hc : Compaction l inputs outputs kept built lost)
include h hc

theorem refsTo_outputs_le
    (hn : (l.fs.account cf n).isSome) : refsTo n (refsOfSsts outputs) ≤ refsTo n (refsOfSsts inputs) := by
  have hb : ∀ b ∈ built, b.file.fileNumber ≠ n := by
    rintro b hb rfl
    rw [(h.unused _ (.inl (hc.new.2.1 b hb))).account] at hn
    cases hn
  rw [hc.outputs_eq, refsTo_add, refsTo_add, refsTo_recordsOf_of_ne hb, h.refsTo_lost hc.new hn, add_zero, add_zero]
  exact refsTo_le hc.kept_le

theorem refsTo_new {b : BuiltFile} (hb : b ∈ built) :
    refsTo b.file.fileNumber (refsOfSsts inputs) = 0 ∧ refsTo b.file.fileNumber (refsOfSsts (l.ssts - inputs)) = 0 ∧
      refsTo b.file.fileNumber (refsOfSsts outputs) = b.records := by
  have hun := h.unused _ (.inl (hc.new.2.1 b hb))
  have hlive : ¬ Names l.live b.file.fileNumber := fun hn => hun.refs (names_add.2 (.inr hn))
  rw [← hc.live_eq, names_add, not_or] at hlive
  have hlost : ¬ Names lost b.file.fileNumber := by
    rintro ⟨i, hi, heq⟩
    exact (hc.new.2.2 i hi).2 b hb heq.symm
  refine ⟨refsTo_eq_zero hlive.1, refsTo_eq_zero hlive.2, ?_⟩
  rw [hc.outputs_eq, refsTo_add, refsTo_add, refsTo_recordsOf hc.new.1 hb, refsTo_eq_zero hlost,
    refsTo_eq_zero fun hn => hlive.1 (names_mono hc.kept_le hn), add_zero, zero_add]

theorem file {env : CompactionEnv}
    {outputLevel : Nat} (hord : exact → l.Orderly cf (.compaction inputs outputs kept built lost env outputLevel))
    {m : BlobFileMeta} {d : Nat} (hacc : (onCompactionCompleted o env (compactionJobInfo cf inputs outputs outputLevel)
      (l.addFiles o cf built)).account cf n = some (m, d)) :
    FileBalance exact (n ∈ (built.map fun b => b.file.fileNumber) ++ l.accounted) (l.waiting + l.immutable)
      (refsOfSsts (l.ssts - inputs) + refsOfSsts outputs) n m d := by
  have hins : refsIn (refsByName (inputs ++ outputs)) (inputs.map Sst.number) = refsOfSsts inputs :=
    refsIn_refsByName hc.names fun t ht => mem_append_left _ ht
  have houts : refsIn (refsByName (inputs ++ outputs)) (outputs.map Sst.number) = refsOfSsts outputs :=
    refsIn_refsByName hc.names fun t ht => mem_append_right _ ht
  obtain ⟨d₀, hd₀, hcase⟩ := account_onCompaction hc.complete rfl hacc
  change _ = compactedSize d₀ (i64 (bytesOf n (refsIn _ (outputs.map Sst.number)) -
    bytesOf n (refsIn _ (inputs.map Sst.number)))) ∨ _ = d₀ ∧ ∃ k, Names (refsIn _ (outputs.map Sst.number)) k ∧
    ¬ Names (refsIn _ (inputs.map Sst.number)) k ∧ (l.addFiles o cf built).account cf k = none at hcase
  rw [hins, houts] at hcase
  -- the callback returns early only in a step that is not orderly
  have hearly : (∃ k, Names (refsOfSsts outputs) k ∧ ¬ Names (refsOfSsts inputs) k ∧
      (l.addFiles o cf built).account cf k = none) → ¬ exact := by
    rintro ⟨k, ⟨i, hi, rfl⟩, hin, hnone⟩ he
    have hsome := isSome_account_addFiles hd₀ ((hord he i hi).resolve_left hin)
    rw [hnone] at hsome
    cases hsome
  rcases account_addFiles hd₀ with hold | ⟨b, hb, rfl, rfl, rfl⟩
  · have hbalance := h.file n m d₀ hold
    rw [← hc.live_eq] at hbalance
    have hle := refsTo_outputs_le h hc (by rw [hold]; rfl)
    have haccounted : n ∈ (built.map fun b => b.file.fileNumber) ++ l.accounted ↔ n ∈ l.accounted := by
      rw [mem_append, or_iff_right]
      intro hmem
      obtain ⟨b, hb, rfl⟩ := mem_map.1 hmem
      rw [(h.unused _ (.inl (hc.new.2.1 b hb))).account] at hold
      cases hold
    rcases hcase with rfl | ⟨rfl, hk⟩
    · exact (hbalance.compaction hle).congr le_rfl rfl haccounted
    · exact ((hbalance.compaction_early hle).imp (hearly hk)).congr le_rfl rfl haccounted
  · obtain ⟨hin, hrest, hout⟩ := refsTo_new h hc hb
    have hun := h.unused _ (.inl (hc.new.2.1 b hb))
    have hnew : FileBalance exact True (l.waiting + l.immutable)
        (refsOfSsts (l.ssts - inputs) + refsOfSsts outputs) b.file.fileNumber b.file.persisted 0 := by
      refine .of_compaction b (fun hn => hun.refs (names_add.2 (.inl hn))) ?_
      rw [refsTo_add, hrest, hout, zero_add]
    have hd : d = 0 := by
      rcases hcase with rfl | ⟨rfl, -⟩
      · have hbytes : bytesOf b.file.fileNumber (refsOfSsts inputs) = 0 := by
          rw [← bytesOf_refsTo, hin, bytesOf_zero]
        have hsmall : bytesOf b.file.fileNumber (refsOfSsts outputs) < 2 ^ 63 := by
          have hsize := b.size
          have hfits := b.fits
          rw [← bytesOf_refsTo, hout]
          omega
        rw [hbytes, Int.natCast_zero, sub_zero, compactedSize_of_nonneg hsmall]
      · rfl
    rw [hd]
    refine hnew.congr le_rfl rfl (iff_true_intro ?_)
    exact mem_append_left _ (mem_map_of_mem hb)

end

theorem fresh (hc : Compaction l inputs outputs kept built lost) {env : CompactionEnv} {outputLevel : Nat}
    (h : l.Fresh cf n) (hb : ∀ b ∈ built, b.file.fileNumber ≠ n) (hlost : ¬ Names lost n) : Fresh cf { l with
      fs := onCompactionCompleted o env (compactionJobInfo cf inputs outputs outputLevel) (l.addFiles o cf built)
      ssts := l.ssts - inputs + outputs
      accounted := (built.map fun b => b.file.fileNumber) ++ l.accounted } n := by
  obtain ⟨hnone, haccounted, hnames⟩ := h
  refine ⟨eq_none_iff_forall_ne_some.2 fun p hp => ?_, ?_, ?_⟩
  · obtain ⟨d₀, hd₀, -⟩ := account_onCompaction hc.complete rfl hp
    change (l.addFiles o cf built).account cf n = _ at hd₀
    rw [account_addFiles_eq_none hnone hb] at hd₀
    cases hd₀
  · rw [mem_append, not_or]
    refine ⟨fun hmem => ?_, haccounted⟩
    obtain ⟨b, hmem, heq⟩ := mem_map.1 hmem
    exact hb b hmem heq
  · exact hc.not_names_outputs hnames hb hlost

end Compaction

variable {inputs outputs : List Sst} {kept lost : Multiset BlobIndex} {built : List BuiltFile} {env : CompactionEnv}
  {outputLevel : Nat}

theorem compaction_cases (hstep : l.compaction o cf inputs outputs kept built lost env outputLevel = some l') :
    Compaction l inputs outputs kept built lost ∧
      l' = { l with
        fs := onCompactionCompleted o env (compactionJobInfo cf inputs outputs outputLevel) (l.addFiles o cf built)
        reserved := l.unreserve built lost
        ssts := l.ssts - inputs + outputs
        accounted := (built.map fun b => b.file.fileNumber) ++ l.accounted } := by
  obtain ⟨⟨hin, hkept, hout, hnew, hcoll, hnames⟩, ⟨⟩⟩ := ite_none_right_eq_some.1 hstep
  exact ⟨⟨hin, hkept, hout, hnew, hcoll, hnames⟩, rfl⟩

theorem compaction (h : l.Balanced exact cf)
    (hord : exact → l.Orderly cf (.compaction inputs outputs kept built lost env outputLevel))
    (hstep : l.compaction o cf inputs outputs kept built lost env outputLevel = some l') : l'.Balanced exact cf := by
  obtain ⟨hc, rfl⟩ := compaction_cases hstep
  have hnext : (onCompactionCompleted o env (compactionJobInfo cf inputs outputs outputLevel)
      (l.addFiles o cf built)).nextFileNumber = l.fs.nextFileNumber := by
    rw [nextFileNumber_onCompactionCompleted, addFiles, nextFileNumber_mapStorage]
  refine ⟨fun k hk => ?_, fun k hk => ?_, fun p hp => ?_, h.building_refs, fun k m d hk => ?_⟩
  · rw [hnext]
    exact h.reserved_lt k (mem_unreserve.1 hk).1
  · rw [hnext] at hk
    obtain ⟨hb, hlost, hold⟩ := h.not_new hc.new hk
    obtain ⟨hold, hrest⟩ := unused_iff.1 hold
    exact unused_iff.2 ⟨hc.fresh hold hb hlost, hrest⟩
  · refine hc.fresh (h.building_new p hp) (fun b hb heq => ?_) fun ⟨i, hi, heq⟩ => ?_
    · exact (h.unused _ (.inl (hc.new.2.1 b hb))).building (heq ▸ mem_map_of_mem hp)
    · exact (h.unused _ (.inl (hc.new.2.2 i hi).1)).building (heq ▸ mem_map_of_mem hp)
  · change FileBalance exact _ _ (refsOfSsts (l.ssts - inputs + outputs)) k m d
    rw [refsOfSsts_add]
    exact hc.file h hord hk

theorem mapStorage (h : l.Balanced exact cf) {f : BlobStorage → BlobStorage}
    (hf : ∀ s k p, (f s).account k = some p → s.account k = some p) :
    ({ l with fs := l.fs.mapStorage cf f } : Ledger).Balanced exact cf := by
  have hback : ∀ {k p}, (l.fs.mapStorage cf f).account cf k = some p → l.fs.account cf k = some p := by
    intro k p hk
    rw [account_mapStorage] at hk
    obtain ⟨s, hs, hk⟩ := bind_eq_some_iff.1 hk
    exact account_eq_some.2 ⟨s, hs, hf s k p hk⟩
  have hfresh : ∀ {k}, l.Fresh cf k → Fresh cf { l with fs := l.fs.mapStorage cf f } k := by
    rintro k ⟨hnone, hrest⟩
    refine ⟨eq_none_iff_forall_ne_some.2 fun p hp => ?_, hrest⟩
    rw [hback hp] at hnone
    cases hnone
  refine ⟨?_, fun k hk => ?_, fun p hp => hfresh (h.building_new p hp), h.building_refs,
    fun k m d hk => h.file k m d (hback hk)⟩
  · rw [nextFileNumber_mapStorage]
    exact h.reserved_lt
  · rw [nextFileNumber_mapStorage] at hk
    obtain ⟨hold, hrest⟩ := unused_iff.1 (h.unused k hk)
    exact unused_iff.2 ⟨hfresh hold, hrest⟩

theorem account_getObsoleteFiles {s : BlobStorage} {q : SequenceNumber} {p : BlobFileMeta × Nat}
    (h : (s.getObsoleteFiles q).1.account n = some p) : s.account n = some p := by
  rw [BlobStorage.account, findFile_getObsoleteFiles] at h
  split at h
  · cases h
  · exact h

theorem step {e : LedgerEvent} (h : l.Balanced exact cf) (hsealed : l.Sealed e) (hord : exact → l.Orderly cf e)
    (hstep : l.step o cf e = some l') : l'.Balanced exact cf := by
  cases e with
  | newFileNumber => exact h.newFileNumber hstep
  | append n handle => exact h.append hstep
  | forget refs => exact h.forget hstep
  | sealMemtable moved => exact h.sealMemtable hstep
  | batchFinishFiles closed built => exact h.batchFinishFiles hstep
  | register b refs flushing => exact h.register hstep
  | lose refs => exact h.lose hstep
  | flush chosen sst => exact h.flush hsealed hstep
  | compaction inputs outputs kept built lost env outputLevel => exact h.compaction hord hstep
  | deleteFile n q =>
    cases hstep
    refine h.mapStorage fun s k p hk => ?_
    rwa [account_markFileObsolete] at hk
  | purge q =>
    cases hstep
    exact h.mapStorage fun s k p hk => account_getObsoleteFiles hk

theorem imp (h : l.Balanced exact cf) {exact' : Prop} (himp : exact' → exact) : l.Balanced exact' cf :=
  { h with file := fun n m d hn => (h.file n m d hn).imp himp }

theorem deletionEdit (h : l.Balanced exact cf)
    (hstep : l.compaction o cf inputs outputs kept built lost env outputLevel = some l') {p : Nat × SequenceNumber}
    (hp : p ∈ l.deletionEdit o cf inputs outputs built env outputLevel) : ¬ Names l'.live p.1 := by
  have hafter : l'.Balanced False cf := (h.imp False.elim).compaction False.elim hstep
  obtain ⟨hc, rfl⟩ := compaction_cases hstep
  unfold Ledger.deletionEdit at hp
  split at hp
  · cases hp
  next s hs =>
    rcases compactionAccounting_cases hc.complete s with ⟨-, hnone, -⟩ | ⟨-, a, ha, -, -, hdel⟩
    · rw [hnone] at hp
      cases hp
    · rw [ha] at hp
      obtain ⟨m, d, hacc, -, hd⟩ := hdel p hp
      have hfinal : (onCompactionCompleted o env (compactionJobInfo cf inputs outputs outputLevel)
          (l.addFiles o cf built)).account cf p.1 = some (m, d) := by
        have hsame : (onCompactionCompleted o env (compactionJobInfo cf inputs outputs outputLevel)
            (l.addFiles o cf built)).account cf p.1 = _ := account_onCompactionCompleted hc.complete rfl hs
        rw [ha] at hsame
        exact hsame.trans hacc
      exact (hafter.file p.1 m d hfinal).not_names_of_noLiveData hd

end Ledger.Balanced

/-! ### The accounting law -/

namespace Ledger

variable {o : Options} {cf : Nat} {fs : BlobFileSets} {l l' : Ledger} {es : List LedgerEvent}

def start (fs : BlobFileSets) : Ledger := ⟨fs, [], [], 0, 0, 0, []⟩

section
variable (hfs : ∀ n, fs.account cf n = none)
include hfs

theorem balanced_start (exact : Prop) : (start fs).Balanced exact cf := by
  refine ⟨nofun, fun n hn => ⟨hfs n, ?_, not_mem_nil, not_mem_nil⟩, nofun, nofun, fun n m d hn => ?_⟩
  · simp [start, live, refsOfSsts]
  · change fs.account cf n = _ at hn
    rw [hfs n] at hn
    cases hn

/-- Whatever the compactions leave behind, no account is ever too large, if no flush is over before the files it refers
to are registered. -/
theorem balanced_run (hsealed : AllSteps (step o cf) Sealed (start fs) es)
    (hrun : run (step o cf) (start fs) es = some l) : l.Balanced False cf :=
  run_inv (fun _ _ _ h hP hstep => h.step hP False.elim hstep) (balanced_start hfs False) hsealed hrun

theorem balanced_run_exact (hord : AllSteps (step o cf) (fun l e => l.Sealed e ∧ l.Orderly cf e) (start fs) es)
    (hrun : run (step o cf) (start fs) es = some l) : l.Balanced True cf :=
  run_inv (fun _ _ _ h hP hstep => h.step hP.1 (fun _ => hP.2) hstep) (balanced_start hfs True) hord hrun

end

/-- The accounting law, in every run in which the callbacks find the files that flushes and the outputs of compactions
name. -/
theorem discardable_accounting (hfs : ∀ n, fs.account cf n = none)
    (hord : AllSteps (Ledger.step o cf) (fun l e => l.Sealed e ∧ l.Orderly cf e) (start fs) es)
    (hrun : run (Ledger.step o cf) (start fs) es = some l) :
    (∀ s n file, l.fs.getBlobStorage cf = some s → s.findFile n = some file →
      file.discardableSize + bytesOf n l.live + kBlobHeaderSize + kBlobFooterSize ≤ file.fileSize ∧ (n ∈ l.accounted →
        file.discardableSize + bytesOf n l.live + kBlobHeaderSize + kBlobFooterSize = file.fileSize)) ∧
    ∀ inputs outputs kept built lost env outputLevel l',
      l.step o cf (.compaction inputs outputs kept built lost env outputLevel) = some l' →
      ∀ p ∈ l.deletionEdit o cf inputs outputs built env outputLevel, ¬ Names l'.live p.1 := by
  have h := balanced_run_exact hfs hord hrun
  constructor
  · intro s n file hs hfile
    have hacc : l.fs.account cf n = some (file.persisted, file.discardableSize) := by
      refine account_eq_some.2 ⟨s, hs, ?_⟩
      rw [BlobStorage.account, hfile]
      rfl
    have hbalance := h.file n _ _ hacc
    constructor
    · by_cases haccounted : n ∈ l.accounted
      · exact (hbalance.balanced trivial haccounted).le
      · obtain ⟨hd, hno, hsize⟩ := hbalance.pending haccounted
        rw [bytesOf_eq_zero_of_not_names hno]
        change _ ≤ file.persisted.fileSize
        omega
    · exact hbalance.balanced trivial
  · intro inputs outputs kept built lost env outputLevel l' hstep p hp
    exact h.deletionEdit hstep hp

/-- A file with a record of 10 bytes and one of 20. -/
def twoRecords : BuiltFile where
  file := ⟨1, 70, 2, .sorted, 0, [1], [2], .pendingLSM, 0⟩
  records := [⟨1, 8, 10⟩, ⟨1, 18, 20⟩]
  number := by decide
  positive := by decide
  size := by decide
  fits := by decide
  new := rfl

def quietEnv : CompactionEnv := ⟨0, 7, false, fun _ => false, fun _ => [], {}⟩

/-- The file is flushed; then a compaction keeps its first record, and has written the other to a file that it has
deleted again (`lost`) or has dropped it. -/
def flushAndCompact (lost : List BlobIndex) : List LedgerEvent :=
  [.newFileNumber, .register twoRecords twoRecords.records true,
    .flush twoRecords.records ⟨1, twoRecords.records⟩, .newFileNumber,
    .compaction [⟨1, twoRecords.records⟩] [⟨2, ⟨1, 8, 10⟩ :: lost⟩] {⟨1, 8, 10⟩} [] lost quietEnv 1]

/-- The record that the compaction drops is charged. -/
theorem discardable_accounting_dropped :
    ∃ l, run (Ledger.step (.small false true) 0) (start (emptyFileSets 1)) (flushAndCompact []) = some l ∧
      (l.fs.account 0 1).map Prod.snd = some 20 ∧
      ∀ s n file, l.fs.getBlobStorage 0 = some s → s.findFile n = some file →
        file.discardableSize + bytesOf n l.live + kBlobHeaderSize + kBlobFooterSize ≤ file.fileSize ∧ (n ∈ l.accounted →
          file.discardableSize + bytesOf n l.live + kBlobHeaderSize + kBlobFooterSize = file.fileSize) := by
  refine exists_of_map (fun l => (l.fs.account 0 1).map Prod.snd) (some 20) (by decide +kernel) fun l hl hd => ⟨hd, ?_⟩
  exact (discardable_accounting (fun _ => rfl) (by decide +kernel) hl).1

/-- The first of two flushes is over before the file is registered: 10 of its 30 bytes end up discardable, and all are
live. -/
example :
    let file : BuiltFile := { twoRecords with
      records := [⟨1, 18, 20⟩, ⟨1, 8, 10⟩], number := by decide, positive := by decide, size := by decide }
    (run (Ledger.step (.small false true) 0) (start (emptyFileSets 1))
      [.newFileNumber, .append 1 ⟨8, 10⟩, .append 1 ⟨18, 20⟩, .sealMemtable {⟨1, 8, 10⟩},
        .flush {⟨1, 8, 10⟩} ⟨1, [⟨1, 8, 10⟩]⟩, .sealMemtable {⟨1, 18, 20⟩}, .batchFinishFiles [1] [file],
        .flush {⟨1, 18, 20⟩} ⟨2, [⟨1, 18, 20⟩]⟩]).map
      (fun l => ((l.fs.account 0 1).map Prod.snd, bytesOf 1 l.live)) = some (some 10, 30) := by
  decide +kernel

theorem balanced_run_lost_output : ∃ l, run (Ledger.step (.small false true) 0) (start (emptyFileSets 1))
    (flushAndCompact [⟨2, 8, 20⟩]) = some l ∧ l.Balanced False 0 :=
  exists_of_map (fun _ => ()) () (by decide +kernel) fun _ hrun _ =>
    balanced_run (fun _ => rfl) (by decide +kernel) hrun

/-- The callback does not find the lost file, and returns before it charges the record that is gone: of the 30 bytes
of file 1, which a flush has named, 10 are referred to and none is discardable. -/
theorem discardable_accounting_lost_output :
    (run (Ledger.step (.small false true) 0) (start (emptyFileSets 1)) (flushAndCompact [⟨2, 8, 20⟩])).map
        (fun l => (((l.fs.getBlobStorage 0).bind (·.findFile 1)).map fun m =>
          (m.fileSize, m.discardableSize, m.isObsolete), bytesOf 1 l.live, decide (1 ∈ l.accounted))) =
      some (some (70, 0, false), 10, true) ∧ 0 + 10 + kBlobHeaderSize + kBlobFooterSize ≠ 70 := by
  decide +kernel

end Ledger

end ValueSep.DiffKV
