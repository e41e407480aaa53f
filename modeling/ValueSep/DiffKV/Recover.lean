import ValueSep.DiffKV.FileSet

/-!
# What recovery makes of a manifest

`Recover` collects all edits of the manifest in one `EditCollector` and applies them to an empty storage.
`Manifest.Ok` is what the collector accepts; `recover_spec` says that the recovered files are those added and not
deleted, and `Manifest.Ok.snoc` that a record written by `LogAndApply` keeps the manifest acceptable.
-/

namespace ValueSep.DiffKV

open List Option BlobFileMeta BlobStorage EditCollector BlobFileSet Prod

namespace Manifest

def added (es : List VersionEdit) : List BlobFileMeta := es.flatMap VersionEdit.addedFiles
def deleted (es : List VersionEdit) : List (Nat × SequenceNumber) := es.flatMap VersionEdit.deletedFiles

/-- The file is in the manifest and has not been deleted again. -/
def Alive (es : List VersionEdit) (m : BlobFileMeta) : Prop :=
  m ∈ added es ∧ m.fileNumber ∉ (deleted es).map fst

structure Ok (es : List VersionEdit) : Prop where
  added : ((added es).map fileNumber).Nodup
  deleted : ((deleted es).map fst).Nodup
  deleted_added : ∀ p ∈ Manifest.deleted es, p.1 ∈ (Manifest.added es).map fileNumber
  next : ∀ e ∈ es, e.nextFileNumber.isSome
  mono : es.Pairwise fun e e' => e.nextFileNumber.getD 0 ≤ e'.nextFileNumber.getD 0

@[simp] theorem added_snoc (es : List VersionEdit) (e : VersionEdit) : added (es ++ [e]) = added es ++ e.addedFiles := by simp [added]

@[simp] theorem deleted_snoc (es : List VersionEdit) (e : VersionEdit) :
    deleted (es ++ [e]) = deleted es ++ e.deletedFiles := by simp [deleted]

theorem added_subset {es es' : List VersionEdit} (h : es ⊆ es') : added es ⊆ added es' := by
  intro m hm
  obtain ⟨e, he, hme⟩ := mem_flatMap.1 hm
  exact mem_flatMap.2 ⟨e, h he, hme⟩

theorem deleted_subset {es es' : List VersionEdit} (h : es ⊆ es') : deleted es ⊆ deleted es' := by
  intro p hp
  obtain ⟨e, he, hpe⟩ := mem_flatMap.1 hp
  exact mem_flatMap.2 ⟨e, h he, hpe⟩

end Manifest

open Manifest

/-! ### Collecting all edits -/

namespace EditCollector

variable {c : EditCollector} {es : List VersionEdit}

theorem foldlM_addEdit (ha : ((added es).map fileNumber).Nodup) (hd : ((deleted es).map fst).Nodup)
    (hn : ∀ e ∈ es, e.nextFileNumber.isSome)
    (hm : es.Pairwise fun e e' => e.nextFileNumber.getD 0 ≤ e'.nextFileNumber.getD 0) :
    ∃ c, es.foldlM addEdit .empty = .ok c ∧ c.addedFiles = added es ∧ c.deletedFiles = deleted es ∧
      c.nextFileNumber = es.getLast?.bind VersionEdit.nextFileNumber := by
  induction es using reverseRecOn with
  | nil => exact ⟨.empty, rfl, rfl, rfl, rfl⟩
  | append_singleton es e ih =>
    rw [added_snoc] at ha
    rw [deleted_snoc] at hd
    rw [forall_mem_append, forall_mem_singleton] at hn
    rw [pairwise_append] at hm
    obtain ⟨c, hfold, hadded, hdeleted, hnext⟩ := ih (List.Nodup.of_append_left (map_append ▸ ha))
      (List.Nodup.of_append_left (map_append ▸ hd)) hn.1 hm.1
    obtain ⟨n, hne⟩ := isSome_iff_exists.1 hn.2
    have hle : c.nextFileNumber.getD 0 ≤ n := by
      rw [hnext]
      cases hlast : es.getLast? with
      | none => exact Nat.zero_le n
      | some e' => simpa [hne] using hm.2.2 e' (mem_of_getLast? hlast) e (mem_singleton_self e)
    rw [← hadded] at ha
    rw [← hdeleted] at hd
    exact ⟨_, Keyed.foldlM_snoc_eq_ok.2 ⟨c, hfold, addEdit_ok ha hd hne hle⟩, by rw [added_snoc, hadded],
      by rw [deleted_snoc, hdeleted], by simp [hne]⟩

theorem findFile_foldl_discardable (ds : List (Nat × Nat)) (s : BlobStorage) :
    let s' := ds.foldl (fun s d => s.updateFile d.1 (·.addDiscardableSize d.2)) s
    s'.buildingFiles = s.buildingFiles ∧ s'.obsoleteFiles = s.obsoleteFiles ∧
      ∀ n, ∃ f : BlobFileMeta → BlobFileMeta, s'.findFile n = (s.findFile n).map f ∧
        ∀ m, (f m).persisted = m.persisted ∧ (f m).state = m.state := by
  induction ds generalizing s with
  | nil => exact ⟨rfl, rfl, fun n => ⟨id, by simp, fun _ => ⟨rfl, rfl⟩⟩⟩
  | cons d ds ih =>
    obtain ⟨hb, ho, hf⟩ := ih (s.updateFile d.1 (·.addDiscardableSize d.2))
    refine ⟨hb, ho, fun n => ?_⟩
    obtain ⟨f, hfind, hsame⟩ := hf n
    rw [findFile_updateFile (f := (·.addDiscardableSize d.2)) fun _ => rfl] at hfind
    by_cases h : n = d.1
    · exact ⟨f ∘ (·.addDiscardableSize d.2), by simpa [h] using hfind,
        fun m => ⟨(hsame _).1, (hsame _).2⟩⟩
    · exact ⟨f, by simpa [h] using hfind, hsame⟩

theorem apply_empty (sep : Bool) (hsub : ∀ p ∈ c.deletedFiles, c.adds p.1 = true) :
    ∃ s, c.apply sep ⟨[], [], []⟩ = (s, .ok) ∧ s.buildingFiles = [] ∧ s.obsoleteFiles = [] ∧
      ∀ n, ∃ f : BlobFileMeta → BlobFileMeta,
        s.findFile n = ((c.addedFiles.filter fun m => !c.deletes m.fileNumber).find? fun m => m.fileNumber == n).map f ∧
        ∀ m, (f m).persisted = m.persisted := by
  have hdel : (c.deletedFiles.filter fun p => !c.adds p.1) = [] := by
    rw [filter_eq_nil_iff]
    intro p hp
    simp [hsub p hp]
  have happ : c.apply sep ⟨[], [], []⟩ = (c.updatedDiscardableSize.foldl
      (fun s d => s.updateFile d.1 (·.addDiscardableSize d.2))
      ((c.addedFiles.filter fun m => !c.deletes m.fileNumber).foldl (·.addBlobFile sep ·) ⟨[], [], []⟩), .ok) := by
    simp only [apply, hdel, markFilesObsolete]
  obtain ⟨hb, ho, hf⟩ := findFile_foldl_discardable c.updatedDiscardableSize
    ((c.addedFiles.filter fun m => !c.deletes m.fileNumber).foldl (·.addBlobFile sep ·) ⟨[], [], []⟩)
  refine ⟨_, happ, ?_, ?_, fun n => ?_⟩
  · rw [hb]
    refine eq_nil_iff_forall_not_mem.2 fun n hn => ?_
    have hbuild := findBuildingFile_foldl_addBlobFile sep (c.addedFiles.filter fun m => !c.deletes m.fileNumber)
      ⟨[], [], []⟩ n
    simp [findBuildingFile, hn] at hbuild
  · rw [ho, obsoleteFiles_foldl_addBlobFile]
  · obtain ⟨f, hfind, hsame⟩ := hf n
    refine ⟨f, ?_, fun m => (hsame m).1⟩
    rw [hfind, findFile_foldl_addBlobFile]
    rfl

variable {s : BlobStorage}

theorem fst_apply (sep : Bool) (h : c.sealStatus s = .ok) :
    (c.apply sep s).1 = c.updatedDiscardableSize.foldl (fun s d => s.updateFile d.1 (·.addDiscardableSize d.2))
      (markFilesObsolete ((c.addedFiles.filter fun m => !c.deletes m.fileNumber).foldl (·.addBlobFile sep ·) s)
        (c.deletedFiles.filter fun p => !c.adds p.1)).1 := by
  have hmark := markFilesObsolete_of_sealed sep h
  unfold apply
  dsimp only
  split
  next heq => rw [heq]
  next hne heq => rw [heq] at hmark; exact absurd hmark hne

theorem findFile_apply {s : BlobStorage} (sep : Bool) (h : c.sealStatus s = .ok) (n : Nat) :
    let found := (s.findFile n).or
      ((c.addedFiles.filter fun m => !c.deletes m.fileNumber).find? fun m => m.fileNumber == n)
    ∃ f : BlobFileMeta → BlobFileMeta,
      (c.apply sep s).1.findFile n =
        (if n ∈ (c.deletedFiles.filter fun p => !c.adds p.1).map fst then
          found.map (fileStateTransit .delete) else found).map f ∧
      ∀ m, (f m).persisted = m.persisted ∧ (f m).state = m.state := by
  intro found
  rw [fst_apply sep h]
  obtain ⟨-, -, hf⟩ := findFile_foldl_discardable c.updatedDiscardableSize (markFilesObsolete
    ((c.addedFiles.filter fun m => !c.deletes m.fileNumber).foldl (·.addBlobFile sep ·) s)
    (c.deletedFiles.filter fun p => !c.adds p.1)).1
  obtain ⟨f, hfind, hsame⟩ := hf n
  refine ⟨f, ?_, hsame⟩
  rw [hfind, findFile_markFilesObsolete (markFilesObsolete_of_sealed sep h)]
  simp only [findFile_foldl_addBlobFile]
  rfl

theorem obsoleteFiles_apply (sep : Bool) (h : c.sealStatus s = .ok) :
    (c.apply sep s).1.obsoleteFiles = s.obsoleteFiles ++ c.deletedFiles.filter fun p => !c.adds p.1 := by
  rw [fst_apply sep h, (findFile_foldl_discardable c.updatedDiscardableSize _).2.1,
    (markFilesObsolete_frame (markFilesObsolete_of_sealed sep h)).2, obsoleteFiles_foldl_addBlobFile]

end EditCollector

/-! ### Recovery -/

theorem findFile_recover {s : BlobStorage} (ho : s.obsoleteFiles = []) (n : Nat) :
    (({ s with files := s.files.map (fileStateTransit .dbRestart) } : BlobStorage).getObsoleteFiles
      kMaxSequenceNumber).1.findFile n = (s.findFile n).map (fileStateTransit .dbRestart) := by
  rw [findFile_getObsoleteFiles]
  simp only [getObsoleteFiles, ho, filter_nil, map_nil, not_mem_nil, if_false,
    findFile, find?_map]
  rfl

/-- A manifest the collector accepts is recovered to the files it adds and does not delete again. -/
theorem recover_spec {es : List VersionEdit} (sep : Bool) (h : Ok es) (hne : es ≠ []) :
    ∃ s n, recover sep es = .ok (s, n) ∧ s.buildingFiles = [] ∧
      (∀ m, Alive es m → ∃ m', s.findFile m.fileNumber = some m' ∧ m'.persisted = m.persisted ∧ m'.isObsolete = false) ∧
      ∀ k m', s.findFile k = some m' → ∃ m, Alive es m ∧ m.fileNumber = k := by
  obtain ⟨c, hc, ha, hd, hn⟩ := foldlM_addEdit h.added h.deleted h.next h.mono
  rw [getLast?_eq_some_getLast hne, bind_some] at hn
  obtain ⟨next, hnext⟩ := isSome_iff_exists.1 (hn ▸ h.next _ (getLast_mem hne))
  have hsub : ∀ p ∈ c.deletedFiles, c.adds p.1 = true := by
    rw [hd]
    intro p hp
    simpa [adds, ha] using h.deleted_added p hp
  have hseal : c.sealStatus ⟨[], [], []⟩ = .ok := sealStatus_eq_ok.2
    ⟨fun _ _ => rfl, fun p hp => .inl (hsub p hp)⟩
  obtain ⟨s, happ, hb, ho, hfind⟩ := apply_empty sep hsub
  have hfilter : (c.addedFiles.filter fun m => !c.deletes m.fileNumber) =
      (added es).filter fun m => m.fileNumber ∉ (deleted es).map fst := by
    simp only [deletes, ha, hd, decide_not]
  have hrec : recover sep es = .ok
      ((({ s with files := s.files.map (fileStateTransit .dbRestart) } : BlobStorage).getObsoleteFiles
        kMaxSequenceNumber).1, next) := by
    simp only [recover, hc, hseal, happ, hnext]
  refine ⟨_, next, hrec, hb, fun m hm => ?_, fun k m' hm' => ?_⟩
  · obtain ⟨f, hf, hsame⟩ := hfind m.fileNumber
    -- the numbers of the added files are distinct, so the search finds this one
    have hfirst : ((added es).filter fun m => m.fileNumber ∉ (deleted es).map fst).find?
        (fun m' => m'.fileNumber == m.fileNumber) = some m :=
      Keyed.find?_of_mem (h.added.sublist (filter_sublist.map _)) (mem_filter.2 ⟨hm.1, by simpa using hm.2⟩)
    rw [findFile_recover ho, hf, hfilter, hfirst]
    exact ⟨_, rfl, hsame m, rfl⟩
  · rw [findFile_recover ho] at hm'
    obtain ⟨f, hf, -⟩ := hfind k
    rw [hf, hfilter] at hm'
    simp only [Option.map_map, Option.map_eq_some_iff] at hm'
    obtain ⟨m, hm, -⟩ := hm'
    have hmem := List.mem_filter.1 (List.mem_of_find?_eq_some hm)
    exact ⟨m, ⟨hmem.1, by simpa using hmem.2⟩, by simpa using find?_some hm⟩

/-! ### Appending a record -/

/-- A record that adds new files and deletes live ones, under a next file number no smaller than any so far. -/
theorem Manifest.Ok.snoc {es : List VersionEdit} {e : VersionEdit} {n : Nat} (h : Ok es)
    (hn : e.nextFileNumber = some n) (hle : ∀ e' ∈ es, e'.nextFileNumber.getD 0 ≤ n)
    (ha : (e.addedFiles.map fileNumber).Nodup)
    (hfresh : ∀ m ∈ e.addedFiles, m.fileNumber ∉ (Manifest.added es).map fileNumber)
    (hd : (e.deletedFiles.map fst).Nodup)
    (hlive : ∀ p ∈ e.deletedFiles, ∃ m, Alive es m ∧ m.fileNumber = p.1) : Ok (es ++ [e]) where
  added := by
    rw [added_snoc, map_append, nodup_append]
    refine ⟨h.added, ha, fun k hk k' hk' hkk => ?_⟩
    obtain ⟨m, hm, rfl⟩ := mem_map.1 hk'
    exact hfresh m hm (hkk ▸ hk)
  deleted := by
    rw [deleted_snoc, map_append, nodup_append]
    refine ⟨h.deleted, hd, fun k hk k' hk' hkk => ?_⟩
    obtain ⟨p, hp, rfl⟩ := mem_map.1 hk'
    obtain ⟨m, hm, hnum⟩ := hlive p hp
    exact hm.2 (by rw [hnum, ← hkk]; exact hk)
  deleted_added p hp := by
    rw [added_snoc, map_append]
    rw [deleted_snoc, mem_append] at hp
    refine mem_append_left _ (hp.elim (h.deleted_added p) fun hp => ?_)
    obtain ⟨m, hm, hnum⟩ := hlive p hp
    exact hnum ▸ mem_map_of_mem hm.1
  next e' he' := by
    rcases mem_append.1 he' with he' | he'
    · exact h.next e' he'
    · rw [mem_singleton.1 he', hn]; rfl
  mono := by
    rw [pairwise_append]
    refine ⟨h.mono, pairwise_singleton .., fun e' he' e'' he'' => ?_⟩
    rw [mem_singleton.1 he'', hn]
    exact hle e' he'

end ValueSep.DiffKV
