import ValueSep.DiffKV.ColumnFamilies
import ValueSep.DiffKV.StorageIndex

/-!
# The blob file set with all members of its storages

`BlobFileSet` once more, with storages that have all their members and with the options of each column family. Nothing
in `AddEdit` and `Seal` depends on the other members, so these two are the functions that are there already, on the
files alone. `Apply` is repeated; `status_logAndApply` and `find?_logAndApply` say what comes of an edit.
-/

namespace ValueSep.DiffKV

open List EditCollectors IndexedStorage OrdMap

variable {ρ : Type}

/-- A `BlobStorage` with the options it was made with. -/
structure FamilyStorage (ρ : Type) where
  options : IndexOptions ρ
  trans : Std.TransCmp options.comparator
  storage : IndexedStorage options

def FamilyStorage.toBlobStorage (b : FamilyStorage ρ) : BlobStorage := b.storage.toBlobStorage

/-- `CFEditCollector::Apply`. -/
def FamilyStorage.apply [LinearOrder ρ] (b : FamilyStorage ρ) (c : EditCollector) : FamilyStorage ρ × Status :=
  have := b.trans
  ({ b with storage := (c.applyIndexed b.storage).1 }, (c.applyIndexed b.storage).2)

/-- `EditCollector::Apply`, over the column families of the collector. -/
def EditCollectors.applyFamilies [LinearOrder ρ] :
    OrdMap Nat (FamilyStorage ρ) → List (Nat × EditCollector) → OrdMap Nat (FamilyStorage ρ) × Status
  | cfs, [] => (cfs, .ok)
  | cfs, (cf, collector) :: rest =>
    match cfs.find? cf with
    | none => applyFamilies cfs rest
    | some b =>
      match b.apply collector with
      | (b, .ok) => applyFamilies (cfs.alter cf fun _ => b) rest
      | (b, st) => (cfs.alter cf fun _ => b, st)

section apply

variable [LinearOrder ρ]

theorem FamilyStorage.toBlobStorage_apply (b : FamilyStorage ρ) (c : EditCollector) :
    ((b.apply c).1.toBlobStorage, (b.apply c).2) = c.apply b.options.sepBeforeFlush b.toBlobStorage :=
  have := b.trans
  applyIndexed_eq c b.storage

theorem FamilyStorage.status_apply {b : FamilyStorage ρ} {c : EditCollector}
    (hseal : c.sealStatus b.toBlobStorage = .ok) : (b.apply c).2 = .ok := by
  have heq := congrArg Prod.snd (toBlobStorage_apply b c)
  rw [EditCollector.apply_status hseal] at heq
  exact heq

/-- Each collector finds its storage as `Seal` has seen it: those before it belong to other column families. -/
theorem EditCollectors.status_applyFamilies {cfs : OrdMap Nat (FamilyStorage ρ)} {l : List (Nat × EditCollector)}
    (hnodup : (l.map Prod.fst).Nodup)
    (h : ∀ p ∈ l, ∀ b, cfs.find? p.1 = some b → p.2.sealStatus b.toBlobStorage = .ok) : (applyFamilies cfs l).2 = .ok := by
  induction l generalizing cfs with
  | nil => rfl
  | cons p l ih =>
    obtain ⟨cf, collector⟩ := p
    rw [map_cons, nodup_cons] at hnodup
    unfold applyFamilies
    split
    · exact ih hnodup.2 fun q hq => h q (mem_cons_of_mem _ hq)
    next b hb =>
      have hok : (b.apply collector).2 = .ok := FamilyStorage.status_apply (h _ (mem_cons_self ..) b hb)
      split
      next b' _ =>
        refine ih hnodup.2 fun q hq b hb => ?_
        have hne : q.1 ≠ cf := fun heq => hnodup.1 (mem_map.2 ⟨q, hq, heq⟩)
        rw [find?_alter_of_ne _ _ hne] at hb
        exact h q (mem_cons_of_mem _ hq) b hb
      next hst happly =>
        rw [happly] at hok
        exact absurd hok hst

end apply

structure IndexedFileSet (ρ : Type) where
  columnFamilies : OrdMap Nat (FamilyStorage ρ)
  manifest : List Coding.Bytes
  nextFileNumber : Nat

namespace IndexedFileSet

variable (fs : IndexedFileSet ρ)

def toBlobFileSets : BlobFileSets where
  columnFamilies := fs.columnFamilies.map fun _ b => b.toBlobStorage
  manifest := fs.manifest
  nextFileNumber := fs.nextFileNumber

/-- `BlobFileSet::LogAndApply`. -/
def logAndApply [LinearOrder ρ] (f : ManifestFaults) (edit : ColumnFamilyEdit) : IndexedFileSet ρ × Status :=
  let edit := { edit with nextFileNumber := some fs.nextFileNumber }
  let written := { fs with manifest := fs.manifest ++ [edit.encodeTo] }
  f.log fs (EditCollectors.empty.addEdit edit) (·.sealStatus fs.toBlobFileSets.columnFamilies) written fun c =>
    let r := applyFamilies fs.columnFamilies c.columnFamilies.entries
    ({ written with columnFamilies := r.1 }, r.2)

variable {fs}

theorem getBlobStorage_toBlobFileSets (cf : Nat) :
    fs.toBlobFileSets.getBlobStorage cf = (fs.columnFamilies.find? cf).map FamilyStorage.toBlobStorage :=
  find?_map ..

section edit

variable [LinearOrder ρ] {f : ManifestFaults} {e : ColumnFamilyEdit}

/-- Whatever the collector has gathered: what `Seal` lets through, `Apply` applies. -/
theorem status_applyFamilies_of_sealed {c : EditCollectors}
    (hseal : c.sealStatus fs.toBlobFileSets.columnFamilies = .ok) :
    (applyFamilies fs.columnFamilies c.columnFamilies.entries).2 = .ok := by
  have hall := sealAll_eq_ok.1 hseal
  refine status_applyFamilies c.columnFamilies.nodup_keys fun p hp b hb => hall p hp _ ?_
  rw [← BlobFileSets.getBlobStorage, getBlobStorage_toBlobFileSets, hb]
  rfl

theorem columnFamilies_of_failed (h : (fs.logAndApply f e).2 ≠ .ok) :
    (fs.logAndApply f e).1.columnFamilies = fs.columnFamilies := by
  generalize hr : fs.logAndApply f e = r at h
  revert h
  exact ManifestFaults.log_rule hr (fun _ _ _ => rfl) (fun _ _ _ _ _ _ => rfl)
    fun _ _ hseal _ _ h => absurd (status_applyFamilies_of_sealed hseal) h

theorem status_logAndApply (sep : Bool) : (fs.logAndApply f e).2 = (fs.toBlobFileSets.logAndApply sep f e).2 := by
  generalize hr : fs.logAndApply f e = r
  generalize hr' : fs.toBlobFileSets.logAndApply sep f e = r'
  refine (ManifestFaults.log_rel (R := fun _ _ => True) hr hr' (congrFun Except.map_id _).symm (fun _ => rfl) trivial
    trivial fun c hseal => ⟨?_, trivial⟩).1
  obtain ⟨cfs, happly, -⟩ := applyAll_ok sep c.columnFamilies.nodup_keys (sealAll_eq_ok.1 hseal)
  exact (status_applyFamilies_of_sealed hseal).trans (congrArg Prod.snd happly).symm

theorem find?_logAndApply_of_accepted (h : e.Accepted fs.toBlobFileSets) (hadd : f.addRecord = none)
    (hsync : f.sync = none) (cf : Nat) :
    (fs.logAndApply f e).1.columnFamilies.find? cf =
      if cf = e.columnFamilyId then (fs.columnFamilies.find? cf).map fun b => (b.apply e.collector).1
      else fs.columnFamilies.find? cf := by
  have hseals : ∀ s, fs.toBlobFileSets.getBlobStorage e.columnFamilyId = some s → e.collector.sealStatus s = .ok :=
    fun s hs => VersionEdit.sealed_iff.2 (h.sealed s hs)
  have hfamilies : (fs.logAndApply f e).1.columnFamilies =
      (applyFamilies fs.columnFamilies [(e.columnFamilyId, e.collector)]).1 :=
    congrArg (fun r : IndexedFileSet ρ × Status => r.1.columnFamilies) (ManifestFaults.log_eq (BlobFileSets.addEdit_of_accepted h _)
      (BlobFileSets.seals_singleton.2 hseals) hadd hsync)
  rw [hfamilies]
  unfold applyFamilies
  split
  next hnone =>
    split
    next heq => rw [heq, hnone]; exact hnone
    · rfl
  next b hb =>
    have hok : (b.apply e.collector).2 = .ok := by
      refine FamilyStorage.status_apply (hseals _ ?_)
      rw [getBlobStorage_toBlobFileSets, hb]
      rfl
    split
    next b' happly =>
      show (fs.columnFamilies.alter e.columnFamilyId fun _ => b').find? cf = _
      rw [find?_alter]
      split
      next heq => rw [heq, hb, Option.map_some, happly]
      · rfl
    next hst happly =>
      rw [happly] at hok
      exact absurd hok hst

variable (fs f e)

/-- An edit that fails leaves every storage as it is, and none fails in `Apply`. -/
theorem logAndApply_all_or_nothing :
    ((fs.logAndApply f e).2 ≠ .ok → (fs.logAndApply f e).1.columnFamilies = fs.columnFamilies) ∧
      ∀ c : EditCollectors, c.sealStatus fs.toBlobFileSets.columnFamilies = .ok →
        (applyFamilies fs.columnFamilies c.columnFamilies.entries).2 = .ok :=
  ⟨columnFamilies_of_failed, fun _ => status_applyFamilies_of_sealed⟩

end edit

/-- One column family with number 3 and one file in it. -/
def sampleFileSet : IndexedFileSet Nat where
  columnFamilies := OrdMap.empty.alter 3 fun _ =>
    ⟨sampleOptions, sampleTrans,
      (empty _).step (.edits [.ofAdded [sampleFile 1 100 0 .sorted]])⟩
  manifest := []
  nextFileNumber := 2

/-- The edit adds a file and deletes one that is not there. -/
def sampleRejected : ColumnFamilyEdit :=
  { ColumnFamilyEdit.empty with
    columnFamilyId := 3
    addedFiles := [sampleFile 2 50 0 .sorted]
    deletedFiles := [(7, 1)] }

theorem logAndApply_all_or_nothing_sample :
    (sampleFileSet.logAndApply ⟨none, none⟩ sampleRejected).2 = .corruption "Blob file 7 doesn't exist before" ∧
      (sampleFileSet.logAndApply ⟨none, none⟩ sampleRejected).1.columnFamilies = sampleFileSet.columnFamilies := by
  have hst : (sampleFileSet.logAndApply ⟨none, none⟩ sampleRejected).2 =
      .corruption "Blob file 7 doesn't exist before" := by decide +kernel
  exact ⟨hst, (logAndApply_all_or_nothing ..).1 (by rw [hst]; nofun)⟩

end IndexedFileSet

end ValueSep.DiffKV
