import ValueSep.DiffKV.VersionEdits
import ValueSep.Lib.OrdMap

/-!
# The blob file set with its column families

`BlobFileSet` as a whole: one `BlobStorage` for each column family, an `EditCollector` that keeps the edits of the
column families apart, and the manifest as the records that were written to it. An edit belongs to the column family
it names, and a new edit names family 0. The maps keyed by column family are iterated in the order of the ids.
-/

namespace ValueSep.DiffKV

open List EditCollector BlobFileMeta

abbrev Storages := OrdMap Nat BlobStorage

/-- `EditCollector`: the collectors of the column families that were named, and `next_file_number_` if any edit had
one. -/
structure EditCollectors where
  columnFamilies : OrdMap Nat EditCollector
  nextFileNumber : Option Nat

namespace EditCollectors

def empty : EditCollectors := ⟨.empty, none⟩

variable (c : EditCollectors)

/-- `column_families_[cf_id]`. -/
def of (cf : Nat) : EditCollector := (c.columnFamilies.find? cf).getD .empty

def addEdit (e : ColumnFamilyEdit) : Except String EditCollectors :=
  match (c.of e.columnFamilyId).addEdit { e.toVersionEdit with nextFileNumber := none } with
  | .error m => .error m
  | .ok collector =>
    let columnFamilies := c.columnFamilies.alter e.columnFamilyId fun _ => collector
    match e.nextFileNumber with
    | none => .ok { c with columnFamilies }
    | some n =>
      if n < c.nextFileNumber.getD 0 then
        .error ("Edit has a smaller next file number " ++ toString n ++ " than current " ++
          toString (c.nextFileNumber.getD 0))
      else .ok ⟨columnFamilies, some n⟩

/-- `Seal`, over the column families of the collector; those that are not open are skipped. -/
def sealAll (cfs : Storages) : List (Nat × EditCollector) → Status
  | [] => .ok
  | (cf, collector) :: rest =>
    match cfs.find? cf with
    | none => sealAll cfs rest
    | some s =>
      match collector.sealStatus s with
      | .ok => sealAll cfs rest
      | st => st

def sealStatus (cfs : Storages) : Status := sealAll cfs c.columnFamilies.entries

def applyAll (sep : Bool) : Storages → List (Nat × EditCollector) → Storages × Status
  | cfs, [] => (cfs, .ok)
  | cfs, (cf, collector) :: rest =>
    match cfs.find? cf with
    | none => applyAll sep cfs rest
    | some s =>
      match collector.apply sep s with
      | (s, .ok) => applyAll sep (cfs.alter cf fun _ => s) rest
      | (s, st) => (cfs.alter cf fun _ => s, st)

def apply (sep : Bool) (cfs : Storages) : Storages × Status := applyAll sep cfs c.columnFamilies.entries

end EditCollectors

structure BlobFileSets where
  columnFamilies : Storages
  manifest : List Coding.Bytes
  nextFileNumber : Nat

/-- Column family 0 alone, without files. -/
def emptyFileSets (nextFileNumber : Nat) : BlobFileSets :=
  ⟨OrdMap.empty.alter 0 fun _ => ⟨[], [], []⟩, [], nextFileNumber⟩

namespace BlobFileSets

variable (fs : BlobFileSets)

def getBlobStorage (cf : Nat) : Option BlobStorage := fs.columnFamilies.find? cf

def setBlobStorage (cf : Nat) (s : BlobStorage) : BlobFileSets :=
  { fs with columnFamilies := fs.columnFamilies.alter cf fun _ => s }

/-- `BlobFileSet::LogAndApply`. -/
def logAndApply (sep : Bool) (f : ManifestFaults) (edit : ColumnFamilyEdit) : BlobFileSets × Status :=
  let edit := { edit with nextFileNumber := some fs.nextFileNumber }
  let written := { fs with manifest := fs.manifest ++ [edit.encodeTo] }
  f.log fs (EditCollectors.empty.addEdit edit) (·.sealStatus fs.columnFamilies) written fun c =>
    ({ written with columnFamilies := (c.apply sep fs.columnFamilies).1 }, (c.apply sep fs.columnFamilies).2)

end BlobFileSets

/-! ### One edit -/

namespace EditCollectors

variable {e : ColumnFamilyEdit} {c : EditCollectors} {cfs : Storages} {s : BlobStorage}

theorem addEdit_empty {n : Nat} (hn : e.nextFileNumber = some n) :
    EditCollectors.empty.addEdit e =
      (EditCollector.empty.addEdit { e.toVersionEdit with nextFileNumber := none }).map fun collector =>
        ⟨OrdMap.empty.alter e.columnFamilyId fun _ => collector, some n⟩ := by
  have hof : EditCollectors.empty.of e.columnFamilyId = .empty := rfl
  unfold EditCollectors.addEdit
  rw [hof]
  cases EditCollector.empty.addEdit { e.toVersionEdit with nextFileNumber := none } with
  | error m => rfl
  | ok collector => simp [hn, Except.map, EditCollectors.empty]

theorem sealAll_eq_ok {l : List (Nat × EditCollector)} :
    sealAll cfs l = .ok ↔ ∀ p ∈ l, ∀ s, cfs.find? p.1 = some s → p.2.sealStatus s = .ok := by
  induction l with
  | nil => exact ⟨nofun, fun _ => rfl⟩
  | cons p l ih =>
    rw [forall_mem_cons]
    unfold sealAll
    split
    next hnone => exact ih.trans ⟨fun h => ⟨fun s hs => absurd (hnone.symm.trans hs) nofun, h⟩, fun h => h.2⟩
    next s hs =>
      split
      next hok =>
        refine ih.trans ⟨fun h => ⟨fun s' hs' => ?_, h⟩, fun h => h.2⟩
        cases hs.symm.trans hs'
        exact hok
      next hst => exact ⟨fun h => absurd h hst, fun h => absurd (h.1 s hs) hst⟩

theorem applyAll_ok (sep : Bool) {l : List (Nat × EditCollector)} (hnodup : (l.map Prod.fst).Nodup)
    (h : ∀ p ∈ l, ∀ s, cfs.find? p.1 = some s → p.2.sealStatus s = .ok) :
    ∃ cfs', applyAll sep cfs l = (cfs', .ok) ∧
      ∀ cf, cfs'.find? cf = (cfs.find? cf).map fun s => (((OrdMap.findIn cf l).getD .empty).apply sep s).1 := by
  induction l generalizing cfs with
  | nil =>
    refine ⟨cfs, rfl, fun cf => ?_⟩
    show cfs.find? cf = (cfs.find? cf).map id
    rw [Option.map_id]
    rfl
  | cons p l ih =>
    obtain ⟨cf₀, collector⟩ := p
    rw [map_cons, nodup_cons] at hnodup
    have hfind : ∀ cf, OrdMap.findIn cf ((cf₀, collector) :: l) = if cf = cf₀ then some collector else OrdMap.findIn cf l :=
      fun _ => rfl
    have hother : OrdMap.findIn cf₀ l = none := OrdMap.findIn_eq_none hnodup.1
    cases hs : cfs.find? cf₀ with
    | none =>
      obtain ⟨cfs', happ, hget⟩ := @ih cfs hnodup.2 fun q hq => h q (mem_cons_of_mem _ hq)
      refine ⟨cfs', by simpa only [applyAll, hs] using happ, fun cf => ?_⟩
      rw [hget, hfind]
      by_cases heq : cf = cf₀
      · rw [heq, hs]
        rfl
      · rw [if_neg heq]
    | some s =>
      have hseal := h _ (mem_cons_self ..) s hs
      have hst : (collector.apply sep s).2 = .ok := apply_status hseal
      obtain ⟨cfs', happ, hget⟩ := @ih (cfs.alter cf₀ fun _ => (collector.apply sep s).1) hnodup.2 (by
        intro q hq s' hs'
        have hne : q.1 ≠ cf₀ := fun heq => hnodup.1 (mem_map.2 ⟨q, hq, heq⟩)
        rw [OrdMap.find?_alter_of_ne _ _ hne] at hs'
        exact h q (mem_cons_of_mem _ hq) s' hs')
      refine ⟨cfs', ?_, fun cf => ?_⟩
      · unfold applyAll
        rw [hs]
        dsimp only
        rw [show collector.apply sep s = ((collector.apply sep s).1, .ok) from Prod.ext rfl hst]
        exact happ
      · rw [hget, hfind, OrdMap.find?_alter]
        by_cases heq : cf = cf₀
        · rw [if_pos heq, if_pos heq, heq, hother, hs]
          rfl
        · rw [if_neg heq, if_neg heq]

end EditCollectors

/-- The edit passes `AddEdit` and `Seal`. -/
structure ColumnFamilyEdit.Accepted (e : ColumnFamilyEdit) (fs : BlobFileSets) : Prop where
  added : (e.addedFiles.map BlobFileMeta.fileNumber).Nodup
  deleted : (e.deletedFiles.map Prod.fst).Nodup
  sealed : ∀ s, fs.getBlobStorage e.columnFamilyId = some s →
    (∀ f ∈ e.addedFiles, s.findFile f.fileNumber = none) ∧
      ∀ p ∈ e.deletedFiles, p.1 ∈ e.addedFiles.map BlobFileMeta.fileNumber ∨
        ∃ m, s.findFile p.1 = some m ∧ m.isObsolete = false

/-- The collector after this edit alone. -/
def VersionEdit.collector (e : VersionEdit) : EditCollector :=
  ⟨e.addedFiles, e.deletedFiles, e.updatedDiscardableSize.foldl updateFile [], none⟩

theorem VersionEdit.adds_collector {e : VersionEdit} {n : Nat} :
    e.collector.adds n = true ↔ n ∈ e.addedFiles.map fileNumber := decide_eq_true_iff

theorem VersionEdit.deletes_collector {e : VersionEdit} {n : Nat} :
    e.collector.deletes n = true ↔ n ∈ e.deletedFiles.map Prod.fst := decide_eq_true_iff

theorem VersionEdit.sealed_iff {e : VersionEdit} {s : BlobStorage} : e.collector.sealStatus s = .ok ↔
    (∀ f ∈ e.addedFiles, s.findFile f.fileNumber = none) ∧
      ∀ p ∈ e.deletedFiles, p.1 ∈ e.addedFiles.map fileNumber ∨
        ∃ m, s.findFile p.1 = some m ∧ m.isObsolete = false := by
  rw [sealStatus_eq_ok]
  simp [collector, adds]

namespace BlobFileSets

variable {sep : Bool} {f : ManifestFaults} {fs : BlobFileSets} {e : ColumnFamilyEdit}

theorem addEdit_collector (ha : (e.addedFiles.map fileNumber).Nodup)
    (hd : (e.deletedFiles.map Prod.fst).Nodup) :
    empty.addEdit { e.toVersionEdit with nextFileNumber := none } = .ok e.collector := by
  have hadded : e.addedFiles.foldlM addFile [] = .ok ([] ++ e.addedFiles) :=
    Keyed.foldlM_insertNew ha
  have hdeleted : e.deletedFiles.foldlM deleteFile [] = .ok ([] ++ e.deletedFiles) :=
    Keyed.foldlM_insertNew hd
  unfold addEdit empty
  rw [hadded, hdeleted]
  rfl

theorem seals_singleton {next : Option Nat} :
    EditCollectors.sealStatus ⟨OrdMap.empty.alter e.columnFamilyId fun _ => e.collector, next⟩ fs.columnFamilies = .ok ↔
      ∀ s, fs.getBlobStorage e.columnFamilyId = some s → e.collector.sealStatus s = .ok := by
  change EditCollectors.sealAll fs.columnFamilies [(e.columnFamilyId, e.collector)] = .ok ↔ _
  rw [EditCollectors.sealAll_eq_ok, forall_mem_singleton]
  rfl

theorem addEdit_of_accepted (h : e.Accepted fs) (n : Nat) :
    EditCollectors.empty.addEdit { e with nextFileNumber := some n } =
      .ok ⟨OrdMap.empty.alter e.columnFamilyId fun _ => e.collector, some n⟩ := by
  rw [EditCollectors.addEdit_empty rfl, addEdit_collector (e := { e with nextFileNumber := some n }) h.added h.deleted]
  rfl

section
variable (h : e.Accepted fs) (hadd : f.addRecord = none) (hsync : f.sync = none)
include h hadd hsync

theorem logAndApply_eq_of_accepted :
    ∃ cfs, fs.logAndApply sep f e =
        (⟨cfs, fs.manifest ++ [({ e with nextFileNumber := some fs.nextFileNumber } : ColumnFamilyEdit).encodeTo],
          fs.nextFileNumber⟩, .ok) ∧
      ∀ cf, cfs.find? cf = if cf = e.columnFamilyId then (fs.getBlobStorage cf).map fun s => (e.collector.apply sep s).1
        else fs.getBlobStorage cf := by
  have hseals : ∀ s, fs.getBlobStorage e.columnFamilyId = some s → e.collector.sealStatus s = .ok :=
    fun s hs => VersionEdit.sealed_iff.2 (h.sealed s hs)
  obtain ⟨cfs, happ, hget⟩ : ∃ cfs, EditCollectors.applyAll sep _ [(e.columnFamilyId, e.collector)] = (cfs, .ok) ∧ _ :=
    EditCollectors.applyAll_ok _ (nodup_singleton e.columnFamilyId) (forall_mem_singleton.2 hseals)
  refine ⟨cfs, ?_, fun cf => ?_⟩
  · refine (ManifestFaults.log_eq (addEdit_of_accepted h _) (seals_singleton.2 hseals) hadd hsync).trans ?_
    change EditCollectors.apply ⟨OrdMap.empty.alter e.columnFamilyId fun _ => e.collector,
      some fs.nextFileNumber⟩ sep fs.columnFamilies = _ at happ
    rw [happ]
  · rw [hget]
    change (fs.getBlobStorage cf).map (fun s =>
      (((if cf = e.columnFamilyId then some e.collector else none).getD .empty).apply sep s).1) = _
    split
    · rfl
    · exact congrFun Option.map_id _

theorem logAndApply_of_accepted :
    (fs.logAndApply sep f e).1.manifest =
        fs.manifest ++ [({ e with nextFileNumber := some fs.nextFileNumber } : ColumnFamilyEdit).encodeTo] ∧
      ∀ cf, (fs.logAndApply sep f e).1.getBlobStorage cf =
        if cf = e.columnFamilyId then (fs.getBlobStorage cf).map fun s => (e.collector.apply sep s).1
        else fs.getBlobStorage cf := by
  obtain ⟨cfs, heq, hget⟩ : ∃ cfs, fs.logAndApply sep f e = _ ∧ _ := logAndApply_eq_of_accepted h hadd hsync
  rw [heq]
  exact ⟨rfl, hget⟩

theorem status_logAndApply_of_accepted : (fs.logAndApply sep f e).2 = .ok := by
  obtain ⟨cfs, heq, -⟩ : ∃ cfs, fs.logAndApply sep f e = _ ∧ _ := logAndApply_eq_of_accepted h hadd hsync
  rw [heq]

end

theorem logAndApply_of_not_accepted (h : ¬ e.Accepted fs) :
    (fs.logAndApply sep f e).1 = fs ∧ (fs.logAndApply sep f e).2 ≠ .ok := by
  unfold logAndApply ManifestFaults.log
  dsimp only
  rw [EditCollectors.addEdit_empty rfl]
  cases hc : EditCollector.empty.addEdit { e.toVersionEdit with nextFileNumber := none } with
  | error m => exact ⟨rfl, nofun⟩
  | ok c =>
    obtain ⟨hadded, hdeleted⟩ := nodup_of_addEdit hc
    rw [addEdit_collector hadded hdeleted] at hc
    cases hc
    simp only [Except.map]
    split
    next hok => exact absurd ⟨hadded, hdeleted, fun s hs => VersionEdit.sealed_iff.1 (seals_singleton.1 hok s hs)⟩ h
    next hbad => exact ⟨rfl, hbad⟩

theorem logAndApply_of_fault (hf : f.addRecord ≠ none ∨ f.sync ≠ none) :
    (fs.logAndApply sep f e).1.columnFamilies = fs.columnFamilies ∧ (fs.logAndApply sep f e).2 ≠ .ok := by
  generalize hr : fs.logAndApply sep f e = r
  refine ManifestFaults.log_rule hr (fun _ hst => ⟨rfl, hst⟩) (fun _ _ _ _ _ => ⟨rfl, nofun⟩) fun _ _ _ hadd hsync => ?_
  exact absurd hf (by simp [hadd, hsync])

@[simp] theorem nextFileNumber_logAndApply : (fs.logAndApply sep f e).1.nextFileNumber = fs.nextFileNumber := by
  generalize hr : fs.logAndApply sep f e = r
  exact ManifestFaults.log_rule hr (fun _ _ => rfl) (fun _ _ _ _ _ => rfl) fun _ _ _ _ _ => rfl

theorem getBlobStorage_logAndApply (cf : Nat) :
    (fs.logAndApply sep f e).1.getBlobStorage cf = fs.getBlobStorage cf ∨
      (e.Accepted fs ∧ f.addRecord = none ∧ f.sync = none) ∧ cf = e.columnFamilyId ∧
        (fs.logAndApply sep f e).1.getBlobStorage cf =
          (fs.getBlobStorage cf).map fun s => (e.collector.apply sep s).1 := by
  by_cases hf : f.addRecord = none ∧ f.sync = none
  · by_cases hacc : e.Accepted fs
    · have hget : (fs.logAndApply sep f e).1.getBlobStorage cf = _ := (logAndApply_of_accepted hacc hf.1 hf.2).2 cf
      by_cases heq : cf = e.columnFamilyId
      · exact .inr ⟨⟨hacc, hf⟩, heq, hget.trans (if_pos heq)⟩
      · exact .inl (hget.trans (if_neg heq))
    · rw [(logAndApply_of_not_accepted hacc).1]
      exact .inl rfl
  · have hcfs : (fs.logAndApply sep f e).1.columnFamilies = _ := (logAndApply_of_fault (not_and_or.1 hf)).1
    exact .inl (by rw [getBlobStorage, hcfs]; rfl)

end BlobFileSets

end ValueSep.DiffKV
