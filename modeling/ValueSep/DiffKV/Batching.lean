import Mathlib.Data.Nat.ModEq
import ValueSep.DiffKV.Replay

/-!
# Discardable sizes in batches

`LogAndApply` gives each edit a collector of its own, `Recover` collects all edits of the manifest in one. A collector
keeps the first delta it sees for a file, so that the deltas of a file add up in memory and only the first of them
comes back. A snapshot has no deltas at all.

Sizes are 64-bit numbers and are compared modulo 2^64.
-/

namespace ValueSep.DiffKV

open Coding Exec
open List Option BlobFileMeta
open EditCollectors BlobFileSets FileSetLog Prod ColumnFamilyEdit EditCollector BlobStorage

/-! ### One collector -/

/-- The delta that a collector keeps for file `n`. -/
def deltaOf (n : Nat) (ds : List (Nat × Nat)) : Option Nat := (ds.find? fun d => d.1 == n).map snd

/-- What the delta does to the file. -/
def BlobFileMeta.charged (delta : Option Nat) (m : BlobFileMeta) : BlobFileMeta := delta.elim m m.addDiscardableSize

theorem BlobFileMeta.discardableSize_charged (delta : Option Nat) (m : BlobFileMeta) :
    (m.charged delta).discardableSize ≡ m.discardableSize + delta.getD 0 [MOD 2 ^ 64] := by
  cases delta with
  | none => exact Nat.ModEq.refl _
  | some d => exact Nat.mod_modEq ..

@[simp] theorem BlobFileMeta.state_charged (delta : Option Nat) (m : BlobFileMeta) :
    (m.charged delta).state = m.state := by cases delta <;> rfl

theorem deltaOf_eq_findIn (n : Nat) (ds : List (Nat × Nat)) : deltaOf n ds = OrdMap.findIn n ds := by
  induction ds with
  | nil => rfl
  | cons d ds ih =>
    rw [OrdMap.findIn, ← ih]
    by_cases hn : n = d.1
    · simp [deltaOf, hn]
    · simp [deltaOf, hn, Ne.symm hn]

theorem findFile_foldl_charged {ds : List (Nat × Nat)} (hnodup : (ds.map fst).Nodup) (s : BlobStorage) (n : Nat) :
    (ds.foldl (fun s d => s.updateFile d.1 (·.addDiscardableSize d.2)) s).findFile n =
      (s.findFile n).map (charged (deltaOf n ds)) := by
  rw [OrdMap.foldl_view (w := findFile) (g := fun d => Option.map (·.addDiscardableSize d))
    (fun s d n => findFile_updateFile (f := (·.addDiscardableSize d.2)) (fun _ => rfl) d.1 n) hnodup,
    deltaOf_eq_findIn]
  cases OrdMap.findIn n ds with
  | none => exact Option.map_id.symm ▸ rfl
  | some d => rfl

namespace EditCollector

variable {c : EditCollector} {s : BlobStorage}

/-- `findFile_apply` with what becomes of the sizes. -/
theorem findFile_apply_charged (sep : Bool) (h : c.sealStatus s = .ok)
    (hnodup : (c.updatedDiscardableSize.map fst).Nodup) (n : Nat) :
    let found := (s.findFile n).or
      ((c.addedFiles.filter fun m => !c.deletes m.fileNumber).find? fun m => m.fileNumber == n)
    (c.apply sep s).1.findFile n =
      (if n ∈ (c.deletedFiles.filter fun p => !c.adds p.1).map fst then
        found.map (fileStateTransit .delete) else found).map
          (charged (deltaOf n c.updatedDiscardableSize)) := by
  intro found
  rw [fst_apply sep h, findFile_foldl_charged hnodup, findFile_markFilesObsolete (markFilesObsolete_of_sealed sep h)]
  simp only [findFile_foldl_addBlobFile]
  rfl

end EditCollector

/-! ### Edit by edit -/

open Manifest

/-- Each edit with its own collector: `Seal` and `Apply`. -/
inductive AppliedEach (sep : Bool) : BlobStorage → List VersionEdit → BlobStorage → Prop
  | nil {s : BlobStorage} : AppliedEach sep s [] s
  | cons {s s' : BlobStorage} {e : VersionEdit} {es : List VersionEdit} (hseal : e.collector.sealStatus s = .ok)
      (hrest : AppliedEach sep (e.collector.apply sep s).1 es s') : AppliedEach sep s (e :: es) s'

/-- What the edits add to the size of file `n`. -/
def deltaSum (n : Nat) (es : List VersionEdit) : Nat :=
  (es.map fun e => (deltaOf n e.updatedDiscardableSize).getD 0).sum

/-- The edits from the one that adds file `n` on. -/
def sinceAdded (n : Nat) (es : List VersionEdit) : List VersionEdit :=
  es.dropWhile fun e => n ∉ e.addedFiles.map fileNumber

section each

variable {sep : Bool} {s s' : BlobStorage} {e : VersionEdit} {es : List VersionEdit} {n : Nat} {m m' : BlobFileMeta}

theorem VersionEdit.deltaOf_collector (e : VersionEdit) (n : Nat) :
    deltaOf n e.collector.updatedDiscardableSize = deltaOf n e.updatedDiscardableSize := by
  exact congrArg (Option.map snd) (Keyed.find?_foldl_emplace [] e.updatedDiscardableSize n)

theorem VersionEdit.nodup_collector (e : VersionEdit) : (e.collector.updatedDiscardableSize.map fst).Nodup :=
  Keyed.nodup_foldl_emplace nodup_nil

theorem VersionEdit.apply_present (sep : Bool) (hseal : e.collector.sealStatus s = .ok) (hm : s.findFile n = some m) :
    ∃ m', (e.collector.apply sep s).1.findFile n = some m' ∧
      m'.discardableSize ≡ m.discardableSize + (deltaOf n e.updatedDiscardableSize).getD 0 [MOD 2 ^ 64] ∧
      (m'.isObsolete = false → m.isObsolete = false ∧ n ∉ e.deletedFiles.map fst) := by
  have hadds : e.collector.adds n = false := by
    rw [← Bool.not_eq_true, adds, decide_eq_true_iff]
    intro hmem
    obtain ⟨f, hf, rfl⟩ := mem_map.1 hmem
    rw [(sealed_iff.1 hseal).1 f hf] at hm
    cases hm
  have hdeleted : n ∈ (e.collector.deletedFiles.filter fun p => !e.collector.adds p.1).map fst ↔
      n ∈ e.deletedFiles.map fst := by
    constructor
    · intro hmem
      exact (filter_sublist.map _).subset hmem
    · intro hmem
      obtain ⟨p, hp, rfl⟩ := mem_map.1 hmem
      exact mem_map_of_mem (mem_filter.2 ⟨hp, by rw [hadds]; rfl⟩)
  have hfind := findFile_apply_charged sep hseal e.nodup_collector n
  simp only [hm, hdeleted, deltaOf_collector] at hfind
  split at hfind
  next hdel =>
    refine ⟨_, hfind, discardableSize_charged .., fun hobs => ?_⟩
    simp [isObsolete, fileStateTransit, FileState.transit] at hobs
  next hdel =>
    refine ⟨_, hfind, discardableSize_charged .., fun hobs => ⟨?_, hdel⟩⟩
    simpa [isObsolete] using hobs

theorem VersionEdit.apply_absent (sep : Bool) (hseal : e.collector.sealStatus s = .ok) (hnone : s.findFile n = none) :
    (e.collector.apply sep s).1.findFile n =
      if n ∈ e.deletedFiles.map fst then none
      else (e.addedFiles.find? fun m => m.fileNumber == n).map
        (charged (deltaOf n e.updatedDiscardableSize)) := by
  have hdeleted : n ∉ (e.collector.deletedFiles.filter fun p => !e.collector.adds p.1).map fst := by
    intro hmem
    obtain ⟨p, hp, rfl⟩ := mem_map.1 hmem
    obtain ⟨hp, hadds⟩ := mem_filter.1 hp
    rcases (sealStatus_eq_ok.1 hseal).2 p hp with hpaired | ⟨m, hm, -⟩
    · rw [hpaired] at hadds
      cases hadds
    · rw [hnone] at hm
      cases hm
  have hfind := findFile_apply_charged sep hseal e.nodup_collector n
  dsimp only at hfind
  rw [if_neg hdeleted, hnone, find?_filter_fileNumber, deltaOf_collector] at hfind
  rw [hfind]
  have hdeletes : e.collector.deletes n = true ↔ n ∈ e.deletedFiles.map fst := decide_eq_true_iff
  simp only [hdeletes]
  split <;> rfl

@[simp] theorem deltaSum_cons : deltaSum n (e :: es) = (deltaOf n e.updatedDiscardableSize).getD 0 + deltaSum n es := by
  rw [deltaSum, map_cons, sum_cons, deltaSum]

theorem AppliedEach.present (h : AppliedEach sep s es s') (hm : s.findFile n = some m) :
    ∃ m', s'.findFile n = some m' ∧ m'.discardableSize ≡ m.discardableSize + deltaSum n es [MOD 2 ^ 64] ∧
      (m'.isObsolete = false → m.isObsolete = false ∧ n ∉ (deleted es).map fst) := by
  induction h generalizing m with
  | nil => exact ⟨m, hm, Nat.ModEq.refl _, fun hobs => ⟨hobs, not_mem_nil⟩⟩
  | @cons s s' e es hseal _ ih =>
    obtain ⟨m₁, hm₁, hsize₁, hobs₁⟩ := VersionEdit.apply_present sep hseal hm
    obtain ⟨m', hm', hsize, hobs⟩ := ih hm₁
    refine ⟨m', hm', ?_, fun hlive => ?_⟩
    · rw [deltaSum_cons, ← Nat.add_assoc]
      exact hsize.trans (hsize₁.add_right _)
    · obtain ⟨hlive₁, hrest⟩ := hobs hlive
      obtain ⟨hlive, hfirst⟩ := hobs₁ hlive₁
      refine ⟨hlive, fun hmem => ?_⟩
      rw [deleted, flatMap_cons, map_append, mem_append] at hmem
      exact hmem.elim hfirst hrest

theorem AppliedEach.absent (h : AppliedEach sep s es s') (hnodup : ((added es).map fileNumber).Nodup)
    (hnone : s.findFile n = none) (hm' : s'.findFile n = some m') (hlive : m'.isObsolete = false) :
    ∃ a, (added es).find? (fun m => m.fileNumber == n) = some a ∧ n ∉ (deleted es).map fst ∧
      m'.discardableSize ≡ a.discardableSize + deltaSum n (sinceAdded n es) [MOD 2 ^ 64] := by
  induction h with
  | nil =>
    rw [hnone] at hm'
    cases hm'
  | @cons s s' e es hseal hrest ih =>
    have hadded : added (e :: es) = e.addedFiles ++ added es := flatMap_cons ..
    have hdeleted : (deleted (e :: es)).map fst = e.deletedFiles.map fst ++ (deleted es).map fst := by
      rw [deleted, flatMap_cons, map_append]
      rfl
    rw [hadded, map_append, nodup_append] at hnodup
    have happly := VersionEdit.apply_absent sep hseal hnone
    rcases hfirst : e.addedFiles.find? (fun m => m.fileNumber == n) with _ | a
    · -- not yet
      have hnotadded : n ∉ e.addedFiles.map fileNumber := by
        intro hmem
        obtain ⟨f, hf, hnum⟩ := mem_map.1 hmem
        exact absurd hnum (by simpa using find?_eq_none.1 hfirst f hf)
      have hnotdeleted : n ∉ e.deletedFiles.map fst := by
        intro hmem
        obtain ⟨p, hp, rfl⟩ := mem_map.1 hmem
        rcases (VersionEdit.sealed_iff.1 hseal).2 p hp with hpaired | ⟨m, hm, -⟩
        · exact hnotadded hpaired
        · rw [hnone] at hm
          cases hm
      rw [if_neg hnotdeleted, hfirst] at happly
      obtain ⟨a, ha, hdel, hsize⟩ := ih hnodup.2.1 happly hm'
      refine ⟨a, by rw [hadded, find?_append, hfirst]; exact ha, ?_, ?_⟩
      · rw [hdeleted, mem_append]
        exact fun hmem => hmem.elim hnotdeleted hdel
      · rw [sinceAdded, dropWhile_cons_of_pos (by simpa using hnotadded)]
        exact hsize
    · have hnum : a.fileNumber = n := by simpa using find?_some hfirst
      have hmem : n ∈ e.addedFiles.map fileNumber :=
        hnum ▸ mem_map_of_mem (mem_of_find?_eq_some hfirst)
      by_cases hdel : n ∈ e.deletedFiles.map fst
      · -- added and deleted by one edit: no other edit adds it
        rw [if_pos hdel] at happly
        obtain ⟨a', ha', -⟩ := ih hnodup.2.1 happly hm'
        have hnum' : a'.fileNumber = n := by simpa using find?_some ha'
        exact absurd rfl (hnodup.2.2 n hmem n (hnum' ▸ mem_map_of_mem (mem_of_find?_eq_some ha')))
      · rw [if_neg hdel, hfirst] at happly
        obtain ⟨m₁, hm₁, hsize, hobs⟩ := hrest.present happly
        rw [hm'] at hm₁
        cases hm₁
        refine ⟨a, by rw [hadded, find?_append, hfirst]; rfl, ?_, ?_⟩
        · rw [hdeleted, mem_append]
          exact fun hmem => hmem.elim hdel (hobs hlive).2
        · rw [sinceAdded, dropWhile_cons_of_neg (by simpa using hmem), deltaSum_cons, ← Nat.add_assoc]
          exact hsize.trans ((discardableSize_charged _ a).add_right _)

theorem EditCollector.Collects.findFile_apply_charged {c : EditCollector} (hc : c.Collects es) (sep : Bool)
    (hseal : c.sealStatus s = .ok) (n : Nat) :
    (c.apply sep s).1.findFile n =
      (if n ∈ ((deleted es).filter fun p => !c.adds p.1).map fst then
        ((s.findFile n).or (if c.deletes n = true then none else (added es).find? fun m => m.fileNumber == n)).map
          (fileStateTransit .delete)
      else (s.findFile n).or (if c.deletes n = true then none else (added es).find? fun m => m.fileNumber == n)).map
        (charged (deltaOf n (updated es))) := by
  have hdelta : deltaOf n c.updatedDiscardableSize = deltaOf n (updated es) := by
    rw [hc.updatedDiscardableSize]
    exact congrArg (Option.map snd) (Keyed.find?_foldl_emplace [] (updated es) n)
  have hfind := EditCollector.findFile_apply_charged sep hseal
    (by rw [hc.updatedDiscardableSize]; exact Keyed.nodup_foldl_emplace nodup_nil) n
  rwa [find?_filter_fileNumber, hc.addedFiles, hc.deletedFiles, hdelta] at hfind

/-- A file that no edit deletes is found as it was or as it is added, with the first delta for it. -/
theorem EditCollector.Collects.findFile_apply {c : EditCollector} (hc : c.Collects es) (sep : Bool)
    (hseal : c.sealStatus s = .ok) (n : Nat) (hdel : n ∉ (deleted es).map fst) :
    (c.apply sep s).1.findFile n = ((s.findFile n).or ((added es).find? fun m => m.fileNumber == n)).map
      (charged (deltaOf n (updated es))) := by
  have hdeletes : c.deletes n = false := by
    rw [deletes, hc.deletedFiles]
    exact decide_eq_false hdel
  rw [hc.findFile_apply_charged sep hseal, if_neg fun hmem => hdel ((filter_sublist.map _).subset hmem), hdeletes,
    if_neg Bool.false_ne_true]

/-- The edits that reach file `n`: all if it is there before them, and otherwise from the one that adds it on. -/
def reaching (s : BlobStorage) (n : Nat) (es : List VersionEdit) : List VersionEdit :=
  if (s.findFile n).isSome then es else sinceAdded n es

/-- A live file after the edits one by one is there after all of them at once, and has the same size if the first delta
is what the deltas add up to. -/
theorem AppliedEach.batch {c : EditCollector} (h : AppliedEach sep s es s') (hc : c.Collects es)
    (hseal : c.sealStatus s = .ok) (hm : s'.findFile n = some m) (hlive : m.isObsolete = false) :
    ∃ m', (c.apply sep s).1.findFile n = some m' ∧
      (m'.discardableSize ≡ m.discardableSize [MOD 2 ^ 64] ↔
        (deltaOf n (updated es)).getD 0 ≡ deltaSum n (reaching s n es) [MOD 2 ^ 64]) := by
  -- what is in the storage or in the edits at first
  obtain ⟨base, hbase, hdel, hsize⟩ : ∃ base,
      (s.findFile n).or ((added es).find? fun m => m.fileNumber == n) = some base ∧
        n ∉ (deleted es).map fst ∧
        m.discardableSize ≡ base.discardableSize + deltaSum n (reaching s n es) [MOD 2 ^ 64] := by
    unfold reaching
    rcases hs : s.findFile n with _ | m₀
    · obtain ⟨a, ha, hdel, hsize⟩ := h.absent hc.nodup hs hm hlive
      exact ⟨a, ha, hdel, hsize⟩
    · obtain ⟨m₁, hm₁, hsize, hobs⟩ := h.present hs
      rw [hm] at hm₁
      cases hm₁
      exact ⟨m₀, rfl, (hobs hlive).2, hsize⟩
  have hfind := hc.findFile_apply sep hseal n hdel
  rw [hbase] at hfind
  refine ⟨_, hfind, ?_⟩
  have hcharged := discardableSize_charged (deltaOf n (updated es)) base
  constructor
  · intro heq
    exact Nat.ModEq.add_left_cancel' _ (hcharged.symm.trans (heq.trans hsize))
  · intro heq
    exact hcharged.trans ((heq.add_left _).trans hsize.symm)

end each

/-! ### All column families -/

namespace EditCollectors

variable {c c' : EditCollectors} {es : List ColumnFamilyEdit} {e : ColumnFamilyEdit}

/-- The collectors that `Seal` passes are applied, each to the storage of its column family. -/
theorem find?_apply {cfs : Storages} (sep : Bool) (hseal : c.sealStatus cfs = .ok) (cf : Nat) :
    (c.apply sep cfs).1.find? cf = (cfs.find? cf).map (fun s => ((c.of cf).apply sep s).1) ∧
      ∀ s, cfs.find? cf = some s → (c.of cf).sealStatus s = .ok := by
  have hall := sealAll_eq_ok.1 hseal
  obtain ⟨cfs', happly, hget⟩ : ∃ cfs', applyAll sep cfs c.columnFamilies.entries = (cfs', .ok) ∧
      ∀ cf, cfs'.find? cf = (cfs.find? cf).map fun s => ((c.of cf).apply sep s).1 :=
    applyAll_ok _ c.columnFamilies.nodup_keys hall
  refine ⟨by rw [apply, happly]; exact hget cf, fun s hs => ?_⟩
  rcases hcf : c.columnFamilies.find? cf with _ | collector
  · rw [of, hcf]
    rfl
  · rw [of, hcf]
    exact hall (cf, collector) ((OrdMap.mem_entries _).2 hcf) s hs

end EditCollectors

namespace BlobFileSets

/-- `LogAndApply` for one edit after the other, as long as it returns OK. -/
def logEach (sep : Bool) : BlobFileSets → List ColumnFamilyEdit → Option BlobFileSets
  | fs, [] => some fs
  | fs, e :: es =>
    match fs.logAndApply sep {} e with
    | (fs, .ok) => logEach sep fs es
    | _ => none

theorem logEach_applied {sep : Bool} {fs fs' : BlobFileSets} {es : List ColumnFamilyEdit} (h : fs.logEach sep es = some fs')
    {cf : Nat} {s' : BlobStorage} (hs' : fs'.getBlobStorage cf = some s') :
    ∃ s, fs.getBlobStorage cf = some s ∧ AppliedEach sep s (ofFamily cf es) s' := by
  induction es generalizing fs with
  | nil =>
    cases h
    exact ⟨s', hs', .nil⟩
  | cons e es ih =>
    unfold logEach at h
    split at h
    next fs₁ hlog =>
      have hacc : e.Accepted fs := by
        by_contra hnot
        exact (logAndApply_of_not_accepted hnot).2 (by rw [hlog])
      obtain ⟨s₁, hs₁, happlied⟩ := ih h
      have hget : (fs.logAndApply sep {} e).1.getBlobStorage cf = _ := (logAndApply_of_accepted hacc rfl rfl).2 cf
      rw [hlog] at hget
      rw [hs₁] at hget
      rw [ofFamily_cons]
      by_cases heq : e.columnFamilyId = cf
      · rw [if_pos heq.symm] at hget
        obtain ⟨s, hs, rfl⟩ := map_eq_some_iff.1 hget.symm
        rw [if_pos heq]
        exact ⟨s, hs, .cons (VersionEdit.sealed_iff.2 (hacc.sealed s (heq ▸ hs))) happlied⟩
      · rw [if_neg (Ne.symm heq)] at hget
        rw [if_neg heq]
        exact ⟨s₁, hget.symm, happlied⟩
    · cases h

end BlobFileSets

section sizes

variable {sep : Bool} {fs fs' : BlobFileSets} {es : List ColumnFamilyEdit} {c : EditCollectors}

/-- All edits at once leave the live files with the sizes that the edits one by one leave them with. -/
def BatchKeepsSizes (sep : Bool) (fs fs' : BlobFileSets) (c : EditCollectors) : Prop :=
  ∀ cf s' n m, fs'.getBlobStorage cf = some s' → s'.findFile n = some m → m.isObsolete = false →
    ∃ b m', (c.apply sep fs.columnFamilies).1.find? cf = some b ∧ b.findFile n = some m' ∧
      m'.discardableSize ≡ m.discardableSize [MOD 2 ^ 64]

/-- For each live file, the first delta is what the deltas that reach it add up to. -/
def FirstIsAll (fs fs' : BlobFileSets) (es : List ColumnFamilyEdit) : Prop :=
  ∀ cf s s' n m, fs.getBlobStorage cf = some s → fs'.getBlobStorage cf = some s' → s'.findFile n = some m →
    m.isObsolete = false →
      (deltaOf n (updated (ofFamily cf es))).getD 0 ≡ deltaSum n (reaching s n (ofFamily cf es)) [MOD 2 ^ 64]

theorem batchKeepsSizes_iff (heach : fs.logEach sep es = some fs') (hc : es.foldlM EditCollectors.addEdit .empty = .ok c)
    (hseal : c.sealStatus fs.columnFamilies = .ok) : BatchKeepsSizes sep fs fs' c ↔ FirstIsAll fs fs' es := by
  -- the two sizes of one live file
  have hfile : ∀ {cf s s' n m}, fs.getBlobStorage cf = some s → fs'.getBlobStorage cf = some s' →
      s'.findFile n = some m → m.isObsolete = false →
      ∃ b m', (c.apply sep fs.columnFamilies).1.find? cf = some b ∧ b.findFile n = some m' ∧
        (m'.discardableSize ≡ m.discardableSize [MOD 2 ^ 64] ↔
          (deltaOf n (updated (ofFamily cf es))).getD 0 ≡ deltaSum n (reaching s n (ofFamily cf es)) [MOD 2 ^ 64]) := by
    intro cf s s' n m hs hs' hm hlive
    obtain ⟨s₀, hs₀, happlied⟩ := logEach_applied heach hs'
    cases hs.symm.trans hs₀
    obtain ⟨hfind, hsealed⟩ := find?_apply sep hseal cf
    rw [show fs.columnFamilies.find? cf = some s from hs] at hfind
    obtain ⟨m', hm', hiff⟩ := happlied.batch (collects_foldlM hc cf) (hsealed s hs) hm hlive
    exact ⟨_, m', hfind, hm', hiff⟩
  constructor
  · intro h cf s s' n m hs hs' hm hlive
    obtain ⟨b, m', hb, hm', hiff⟩ := hfile hs hs' hm hlive
    obtain ⟨b₁, m₁, hb₁, hm₁, hsize⟩ := h cf s' n m hs' hm hlive
    cases hb.symm.trans hb₁
    cases hm'.symm.trans hm₁
    exact hiff.1 hsize
  · intro h cf s' n m hs' hm hlive
    obtain ⟨s, hs, -⟩ := logEach_applied heach hs'
    obtain ⟨b, m', hb, hm', hiff⟩ := hfile hs hs' hm hlive
    exact ⟨b, m', hb, hm', hiff.2 (h cf s s' n m hs hs' hm hlive)⟩

end sizes

/-! ### What is recovered -/

theorem BlobFileSets.replay_eq_ok {sep : Bool} {cfs cfs' : Storages} {records : List Bytes} {n : Nat}
    (h : replay sep cfs records = .ok (cfs', n)) :
    ∃ c, collect records .empty = .ok c ∧ c.sealStatus cfs = .ok ∧ (c.apply sep cfs).1 = cfs' := by
  unfold replay at h
  repeat' split at h
  all_goals cases h
  next c hc _ hseal _ _ happly _ => exact ⟨c, hc, hseal, by rw [happly]⟩

theorem EditCollector.Collects.size_apply_empty {c : EditCollector} {es : List VersionEdit} (hc : c.Collects es)
    (sep : Bool) (hseal : c.sealStatus ⟨[], [], []⟩ = .ok) (hzero : ∀ m ∈ added es, m.discardableSize = 0) {n : Nat}
    {m' : BlobFileMeta} (hm' : (c.apply sep ⟨[], [], []⟩).1.findFile n = some m') :
    m'.discardableSize = (deltaOf n (updated es)).getD 0 % 2 ^ 64 := by
  have hsize : ∀ a : BlobFileMeta, a.discardableSize = 0 →
      (a.charged (deltaOf n (updated es))).discardableSize = (deltaOf n (updated es)).getD 0 % 2 ^ 64 := by
    intro a ha
    cases deltaOf n (updated es) with
    | none => exact ha
    | some d =>
      show (a.discardableSize + d) % 2 ^ 64 = d % 2 ^ 64
      rw [ha, Nat.zero_add]
  have hadded : ∀ a, (findFile ⟨[], [], []⟩ n).or
      (if c.deletes n = true then none else (added es).find? fun m => m.fileNumber == n) = some a →
        a.discardableSize = 0 := by
    intro a ha
    split at ha
    · cases ha
    · exact hzero a (mem_of_find?_eq_some ha)
  rw [hc.findFile_apply_charged sep hseal] at hm'
  obtain ⟨a, ha, rfl⟩ := map_eq_some_iff.1 hm'
  refine hsize a ?_
  split at ha
  · obtain ⟨a₀, ha₀, rfl⟩ := map_eq_some_iff.1 ha
    exact hadded a₀ ha₀
  · exact hadded a ha

namespace FileSetLog

/-- The edits in the manifest that have come since it was last rewritten. -/
def pend (es : List ColumnFamilyEdit) : FileSetEvent → List ColumnFamilyEdit
  | .edit e => es ++ [e]
  | .rewrite => []
  | .newFileNumber => es
  | .purge _ => es

def pending (events : List FileSetEvent) : List ColumnFamilyEdit := events.foldl pend []

/-- The manifest mirrors the storages, and its deltas are those of the edits `es`. -/
def Recorded (ids : List Nat) (es : List ColumnFamilyEdit) (l : FileSetLog) : Prop :=
  (∀ cf ∈ ids, (l.fs.getBlobStorage cf).isSome) ∧ ∃ rs, Logged l rs ∧
    (∀ r ∈ rs, ∀ m ∈ r.addedFiles, m.discardableSize = 0) ∧
      ∀ cf, updated (ofFamily cf rs) = updated (ofFamily cf es)

section

variable {sep : Bool} {ids : List Nat} {es : List ColumnFamilyEdit} {l l' : FileSetLog}

/-- A snapshot has no deltas, and neither have its files. -/
theorem snapshot_sizes (fs : BlobFileSets) :
    (∀ r ∈ fs.snapshot.map ColumnFamilyEdit.persisted, ∀ m ∈ r.addedFiles, m.discardableSize = 0) ∧
      ∀ cf, updated (ofFamily cf (fs.snapshot.map persisted)) = [] := by
  constructor
  · intro r hr m hm
    obtain ⟨e, -, rfl⟩ := mem_map.1 hr
    obtain ⟨-, -, rfl⟩ := mem_map.1 hm
    rfl
  · intro cf
    rw [updated, flatMap_eq_nil_iff]
    intro v hv
    obtain ⟨r, hr, rfl⟩ := mem_map.1 hv
    obtain ⟨e, he, rfl⟩ := mem_map.1 (mem_of_mem_filter hr)
    rcases mem_cons.1 he with rfl | he
    · rfl
    · obtain ⟨p, -, rfl⟩ := mem_map.1 he
      rfl

theorem Recorded.step {ev : FileSetEvent} (h : Recorded ids es l) (hfits : ∀ e, ev = .edit e → Fits ids e)
    (hnext : l.fs.nextFileNumber < 2 ^ 64) (hstep : FileSetLog.step sep l ev = some l') :
    Recorded ids (pend es ev) l' := by
  obtain ⟨hopen, rs, hlogged, hzero, hdeltas⟩ := h
  obtain ⟨hopen', hlogged'⟩ := hlogged.step hopen hfits hnext hstep
  refine ⟨hopen', _, hlogged', ?_⟩
  cases ev with
  | newFileNumber => exact ⟨hzero, hdeltas⟩
  | purge oldest => exact ⟨hzero, hdeltas⟩
  | rewrite => exact snapshot_sizes l.fs
  | edit e =>
    constructor
    · refine forall_mem_append.2 ⟨hzero, forall_mem_singleton.2 fun m hm => ?_⟩
      obtain ⟨-, -, rfl⟩ := mem_map.1 hm
      rfl
    · intro cf
      rw [pend, recordsAfter, ofFamily_snoc, ofFamily_snoc]
      show updated (if e.columnFamilyId = cf then _ else _) = _
      split
      · rw [updated_snoc, updated_snoc, hdeltas]
        rfl
      · exact hdeltas cf

theorem recorded_run (hids : ∀ id ∈ ids, id < 2 ^ 32) {events : List FileSetEvent}
    (hfits : ∀ e, .edit e ∈ events → Fits ids e) (hrun : run (step sep) (create ids) events = some l)
    (hnext : l.fs.nextFileNumber < 2 ^ 64) : Recorded ids (pending events) l :=
  run_inv_ghost (fun _ _ _ _ hrec hP hstep => Recorded.step hrec hP.1 hP.2 hstep)
    ⟨fun _ => isSome_create, _, logged_create hids, snapshot_sizes _⟩ (allSteps_of_run hfits hrun hnext) hrun

theorem Recorded.replay (h : Recorded ids es l) (sep : Bool) :
    ∃ cfs n, BlobFileSets.replay sep l.fs.reopened l.fs.manifest = .ok (cfs, n) ∧
      ∀ cf s, l.fs.getBlobStorage cf = some s → ∃ s', cfs.find? cf = some s' ∧
        ∀ k, (s'.findFile k).map discardableSize =
          (s.live k).map fun _ => (deltaOf k (updated (ofFamily cf es))).getD 0 % 2 ^ 64 := by
  obtain ⟨-, rs, hlogged, hzero, hdeltas⟩ := h
  obtain ⟨cfs, n, hreplay, hfiles⟩ := hlogged.replay sep
  obtain ⟨c, hcollect, hseal, rfl⟩ := replay_eq_ok hreplay
  have hc := collects_foldlM ((collect_eq_ok hlogged.records).1 hcollect)
  refine ⟨_, n, hreplay, fun cf s hs => ?_⟩
  obtain ⟨s', hs', hlive, -⟩ := hfiles cf s hs
  refine ⟨s', hs', fun k => ?_⟩
  have hreopened : l.fs.reopened.find? cf = some ⟨[], [], []⟩ := by
    rw [reopened, OrdMap.find?_map, show l.fs.columnFamilies.find? cf = some s from hs]
    rfl
  obtain ⟨hfind, hsealed⟩ := find?_apply sep hseal cf
  rw [hs', hreopened] at hfind
  cases hfind
  rw [← hlive k, ← hdeltas cf, Option.map_map]
  refine map_congr fun m hm => ?_
  refine (hc cf).size_apply_empty sep (hsealed _ hreopened) (fun m hm => ?_) hm
  obtain ⟨r, hr, hmr⟩ := added_ofFamily_subset hm
  exact hzero r hr m hmr

/-- Nothing in memory depends on what the manifest holds. -/
theorem logAndApply_manifest (fs : BlobFileSets) (sep : Bool) (f : ManifestFaults) (e : ColumnFamilyEdit)
    (records : List Bytes) : ∃ records',
      ({ fs with manifest := records } : BlobFileSets).logAndApply sep f e =
        ({ (fs.logAndApply sep f e).1 with manifest := records' }, (fs.logAndApply sep f e).2) := by
  unfold logAndApply ManifestFaults.log
  dsimp only
  split
  · exact ⟨records, rfl⟩
  · split
    · split
      · exact ⟨records, rfl⟩
      · exact ⟨_, rfl⟩
      · exact ⟨_, rfl⟩
    · exact ⟨records, rfl⟩

theorem run_manifest {events : List FileSetEvent} (records : List Bytes) (h : run (step sep) l events = some l') :
    ∃ records', run (step sep) { l with fs := { l.fs with manifest := records } } events =
      some { l' with fs := { l'.fs with manifest := records' } } := by
  induction events generalizing l records with
  | nil =>
    cases h
    exact ⟨records, rfl⟩
  | cons ev events ih =>
    obtain ⟨l₁, h₁, h₂⟩ := run_cons_eq_some.1 h
    suffices hstep : ∃ records', step sep { l with fs := { l.fs with manifest := records } } ev =
        some { l₁ with fs := { l₁.fs with manifest := records' } } by
      obtain ⟨records₁, hstep⟩ := hstep
      obtain ⟨records', hrest⟩ := ih records₁ h₂
      exact ⟨records', run_cons_eq_some.2 ⟨_, hstep, hrest⟩⟩
    cases ev with
    | newFileNumber => cases h₁; exact ⟨records, rfl⟩
    | edit e =>
      obtain ⟨hres, hok, rfl⟩ := step_edit h₁
      obtain ⟨records', hlog⟩ := logAndApply_manifest l.fs sep {} e records
      refine ⟨records', ?_⟩
      simp only [step, hlog]
      rw [if_pos ⟨hres, hok⟩]
    | rewrite => cases h₁; exact ⟨_, rfl⟩
    | purge oldest => cases h₁; exact ⟨records, rfl⟩

/-- With the manifest rewritten in between, the same files are recovered with the same sizes. -/
def RewriteKeepsSizes (ids : List Nat) (cfs cfs' : Storages) : Prop :=
  ∀ cf ∈ ids, ∀ k, ((cfs.find? cf).bind (·.findFile k)).map discardableSize =
    ((cfs'.find? cf).bind (·.findFile k)).map discardableSize

/-- The first delta that each live file has in the manifest is the same. -/
def SameFirst (ids : List Nat) (l : FileSetLog) (es es' : List ColumnFamilyEdit) : Prop :=
  ∀ cf ∈ ids, ∀ s k m, l.fs.getBlobStorage cf = some s → s.findFile k = some m → m.isObsolete = false →
    (deltaOf k (updated (ofFamily cf es))).getD 0 ≡ (deltaOf k (updated (ofFamily cf es'))).getD 0 [MOD 2 ^ 64]

theorem rewriteKeepsSizes_iff (hids : ∀ id ∈ ids, id < 2 ^ 32) {ev₁ ev₂ : List FileSetEvent}
    (hfits : ∀ e, .edit e ∈ ev₁ ++ ev₂ → Fits ids e) (hrun : run (step sep) (create ids) (ev₁ ++ ev₂) = some l)
    (hnext : l.fs.nextFileNumber < 2 ^ 64) :
    ∃ l' cfs n cfs' n', run (step sep) (create ids) (ev₁ ++ .rewrite :: ev₂) = some l' ∧
      l'.fs.columnFamilies = l.fs.columnFamilies ∧ replay sep l.fs.reopened l.fs.manifest = .ok (cfs, n) ∧
      replay sep l'.fs.reopened l'.fs.manifest = .ok (cfs', n') ∧
      (RewriteKeepsSizes ids cfs cfs' ↔ SameFirst ids l (pending (ev₁ ++ ev₂)) (pending (ev₁ ++ .rewrite :: ev₂))) := by
  obtain ⟨l₁, h₁, h₂⟩ := run_append_eq_some.1 hrun
  obtain ⟨records, h₂'⟩ := run_manifest (l₁.fs.snapshot.map ColumnFamilyEdit.encodeTo) h₂
  have hrun' : run (step sep) (create ids) (ev₁ ++ .rewrite :: ev₂) =
      some { l with fs := { l.fs with manifest := records } } :=
    run_append_eq_some.2 ⟨l₁, h₁, run_cons_eq_some.2 ⟨_, rfl, h₂'⟩⟩
  have hrec := recorded_run hids hfits hrun hnext
  have hrec' := recorded_run hids
    (fun e he => hfits e (by simpa using he)) hrun' hnext
  obtain ⟨cfs, n, hreplay, hsizes⟩ := hrec.replay sep
  obtain ⟨cfs', n', hreplay', hsizes'⟩ := hrec'.replay sep
  refine ⟨_, cfs, n, cfs', n', hrun', rfl, hreplay, hreplay', ?_⟩
  have hboth : ∀ cf s, l.fs.getBlobStorage cf = some s → ∀ k,
      ((cfs.find? cf).bind (·.findFile k)).map discardableSize =
          (s.live k).map (fun _ => (deltaOf k (updated (ofFamily cf (pending (ev₁ ++ ev₂))))).getD 0 % 2 ^ 64) ∧
        ((cfs'.find? cf).bind (·.findFile k)).map discardableSize = (s.live k).map
          fun _ => (deltaOf k (updated (ofFamily cf (pending (ev₁ ++ .rewrite :: ev₂))))).getD 0 % 2 ^ 64 := by
    intro cf s hs k
    obtain ⟨b, hb, hsize⟩ := hsizes cf s hs
    obtain ⟨b', hb', hsize'⟩ := hsizes' cf s hs
    rw [hb, hb']
    exact ⟨hsize k, hsize' k⟩
  constructor
  · intro h cf hcf s k m hs hm hlive
    have hk : s.live k = some m.persisted := by
      rw [live, hm, filter_some, hlive]
      rfl
    obtain ⟨hsize, hsize'⟩ := hboth cf s hs k
    have heq := h cf hcf k
    rw [hsize, hsize', hk] at heq
    exact some.inj heq
  · intro h cf hcf k
    obtain ⟨s, hs⟩ := isSome_iff_exists.1 (hrec.1 cf hcf)
    obtain ⟨hsize, hsize'⟩ := hboth cf s hs k
    rw [hsize, hsize']
    refine map_congr fun m hm => ?_
    obtain ⟨m₀, hm₀, -⟩ := map_eq_some_iff.1 hm
    obtain ⟨hfind, hlive⟩ := filter_eq_some_iff.1 hm₀
    exact h cf hcf s k m₀ hs hfind (by simpa using hlive)

end

end FileSetLog

/-- When a batch of edits and when a manifest that was rewritten in between leave the sizes as they are. -/
theorem discardable_sizes_iff (sep : Bool) :
    (∀ (fs fs' : BlobFileSets) (es : List ColumnFamilyEdit) (c : EditCollectors), fs.logEach sep es = some fs' →
      es.foldlM EditCollectors.addEdit .empty = .ok c → c.sealStatus fs.columnFamilies = .ok →
        (BatchKeepsSizes sep fs fs' c ↔ FirstIsAll fs fs' es)) ∧
    ∀ (ids : List Nat) (ev₁ ev₂ : List FileSetEvent) (l : FileSetLog), (∀ id ∈ ids, id < 2 ^ 32) →
      (∀ e, .edit e ∈ ev₁ ++ ev₂ → FileSetLog.Fits ids e) →
      run (step sep) (.create ids) (ev₁ ++ ev₂) = some l → l.fs.nextFileNumber < 2 ^ 64 →
        ∃ l' cfs n cfs' n', run (step sep) (.create ids) (ev₁ ++ .rewrite :: ev₂) = some l' ∧
          l'.fs.columnFamilies = l.fs.columnFamilies ∧ replay sep l.fs.reopened l.fs.manifest = .ok (cfs, n) ∧
          replay sep l'.fs.reopened l'.fs.manifest = .ok (cfs', n') ∧
          (FileSetLog.RewriteKeepsSizes ids cfs cfs' ↔ FileSetLog.SameFirst ids l
            (pending (ev₁ ++ ev₂)) (pending (ev₁ ++ .rewrite :: ev₂))) :=
  ⟨fun _ _ _ _ heach hc hseal => batchKeepsSizes_iff heach hc hseal,
    fun _ _ _ _ hids hfits hrun hnext => rewriteKeepsSizes_iff hids hfits hrun hnext⟩

/-! One file with number 2, and edits that add to its discardable size. -/

def addTwo : ColumnFamilyEdit :=
  { ColumnFamilyEdit.empty with addedFiles := [⟨2, 70, 2, .unSorted, 0, [97], [98], .normal, 0⟩] }

def chargeTwo (d : Nat) : ColumnFamilyEdit := { ColumnFamilyEdit.empty with updatedDiscardableSize := [(2, d)] }

def sizeOfTwo (cfs : Storages) : Option Nat :=
  ((cfs.find? 0).bind (·.findFile 2)).map discardableSize

theorem sizeOfTwo_eq {cfs : Storages} {d : Nat} (h : sizeOfTwo cfs = some d) :
    ∃ s m, cfs.find? 0 = some s ∧ s.findFile 2 = some m ∧ m.discardableSize = d := by
  obtain ⟨m, hm, hd⟩ := map_eq_some_iff.1 h
  obtain ⟨s, hs, hm⟩ := bind_eq_some_iff.1 hm
  exact ⟨s, m, hs, hm, hd⟩

theorem exists_of_toOption {ε α : Type} {r : Except ε α} {p : α → Prop} (h : ∃ a ∈ r.toOption, p a) :
    ∃ a, r = .ok a ∧ p a := by
  obtain ⟨a, ha, hp⟩ := h
  cases r with
  | error e => cases ha
  | ok _ => cases ha; exact ⟨a, rfl, hp⟩

/-- One delta, and a rewrite before it. -/
theorem discardable_sizes_iff_sample :
    (∃ fs' c, (emptyFileSets 3).logEach false [addTwo, chargeTwo 10] = some fs' ∧
      [addTwo, chargeTwo 10].foldlM EditCollectors.addEdit .empty = .ok c ∧
      c.sealStatus (emptyFileSets 3).columnFamilies = .ok ∧
      (BatchKeepsSizes false (emptyFileSets 3) fs' c ↔ FirstIsAll (emptyFileSets 3) fs' [addTwo, chargeTwo 10])) ∧
    ∃ l l' cfs n cfs' n',
      run (FileSetLog.step false) (.create [0]) ([.newFileNumber, .edit addTwo] ++ [.edit (chargeTwo 8)]) = some l ∧
      run (FileSetLog.step false) (.create [0]) ([.newFileNumber, .edit addTwo] ++ [.rewrite, .edit (chargeTwo 8)]) =
        some l' ∧ BlobFileSets.replay false l.fs.reopened l.fs.manifest = .ok (cfs, n) ∧
      BlobFileSets.replay false l'.fs.reopened l'.fs.manifest = .ok (cfs', n') ∧
      FileSetLog.RewriteKeepsSizes [0] cfs cfs' := by
  constructor
  · have heach : ((emptyFileSets 3).logEach false [addTwo, chargeTwo 10]).isSome := by decide +kernel
    have hbatch : ∃ c ∈ ([addTwo, chargeTwo 10].foldlM EditCollectors.addEdit .empty).toOption,
        c.sealStatus (emptyFileSets 3).columnFamilies = .ok := by decide +kernel
    obtain ⟨fs', hfs'⟩ := isSome_iff_exists.1 heach
    obtain ⟨c, hc, hseal⟩ := exists_of_toOption hbatch
    exact ⟨fs', c, hfs', hc, hseal, (discardable_sizes_iff false).1 _ _ _ _ hfs' hc hseal⟩
  · have hrun : (run (step false) (.create [0])
        ([.newFileNumber, .edit addTwo] ++ [.edit (chargeTwo 8)])).map (fun l => l.fs.nextFileNumber) = some 3 := by
      decide +kernel
    obtain ⟨l, hl, hnext⟩ := map_eq_some_iff.1 hrun
    have hfits : ∀ e, .edit e ∈ [FileSetEvent.newFileNumber, .edit addTwo] ++ [.edit (chargeTwo 8)] →
        FileSetLog.Fits [0] e := by
      intro e he
      simp only [cons_append, nil_append, mem_cons, not_mem_nil, or_false, reduceCtorEq, false_or,
        FileSetEvent.edit.injEq] at he
      rcases he with rfl | rfl
      · refine ⟨mem_singleton_self 0, by decide, ⟨nofun, by decide, forall_mem_singleton.2 ?_, nofun, nofun, nodup_nil⟩,
          forall_mem_singleton.2 ⟨by decide, by decide⟩⟩
        exact ⟨by decide, by decide, by decide, by decide, by decide⟩
      · exact ⟨mem_singleton_self 0, nofun, ⟨nofun, by decide, nofun, nofun, by decide, by decide⟩, nofun⟩
    obtain ⟨l', cfs, n, cfs', n', hl', -, hreplay, hreplay', hiff⟩ := (discardable_sizes_iff false).2 [0]
      [.newFileNumber, .edit addTwo] [.edit (chargeTwo 8)] l (by decide) hfits hl (by rw [hnext]; decide)
    refine ⟨l, l', cfs, n, cfs', n', hl, hl', hreplay, hreplay', hiff.2 fun cf _ s k m _ _ _ => ?_⟩
    have hpend : (pending ([.newFileNumber, .edit addTwo] ++ [.edit (chargeTwo 8)])) =
        [addTwo, chargeTwo 8] := rfl
    have hpend' : (pending ([.newFileNumber, .edit addTwo] ++ .rewrite :: [.edit (chargeTwo 8)])) =
        [chargeTwo 8] := rfl
    have hsame : updated (ofFamily cf [addTwo, chargeTwo 8]) = updated (ofFamily cf [chargeTwo 8]) := by
      by_cases hcf : cf = 0
      · subst hcf; rfl
      · have h0 : ¬ 0 = cf := fun h => hcf h.symm
        simp [ofFamily, addTwo, ColumnFamilyEdit.empty, h0]
    rw [hpend, hpend', hsame]

/-- One by one the deltas 10 and 5 make 15, at once they make 10. And the delta 8 is not in a manifest that was
rewritten after it. -/
theorem second_delta_lost :
    (∃ fs' c, (emptyFileSets 3).logEach false [addTwo, chargeTwo 10, chargeTwo 5] = some fs' ∧
      [addTwo, chargeTwo 10, chargeTwo 5].foldlM EditCollectors.addEdit .empty = .ok c ∧
      c.sealStatus (emptyFileSets 3).columnFamilies = .ok ∧ ¬ BatchKeepsSizes false (emptyFileSets 3) fs' c) ∧
    ∃ l l' cfs n cfs' n',
      run (FileSetLog.step false) (.create [0]) ([.newFileNumber, .edit addTwo, .edit (chargeTwo 8)] ++ []) = some l ∧
      run (FileSetLog.step false) (.create [0]) ([.newFileNumber, .edit addTwo, .edit (chargeTwo 8)] ++ [.rewrite]) =
        some l' ∧ BlobFileSets.replay false l.fs.reopened l.fs.manifest = .ok (cfs, n) ∧
      BlobFileSets.replay false l'.fs.reopened l'.fs.manifest = .ok (cfs', n') ∧
      ¬ FileSetLog.RewriteKeepsSizes [0] cfs cfs' := by
  constructor
  · have heach : ((emptyFileSets 3).logEach false [addTwo, chargeTwo 10, chargeTwo 5]).map (fun fs' =>
        (sizeOfTwo fs'.columnFamilies,
          ((fs'.getBlobStorage 0).bind (·.findFile 2)).map isObsolete)) =
          some (some 15, some false) := by decide +kernel
    have hbatch : ∃ c ∈ ([addTwo, chargeTwo 10, chargeTwo 5].foldlM EditCollectors.addEdit .empty).toOption,
        c.sealStatus (emptyFileSets 3).columnFamilies = .ok ∧
          sizeOfTwo (c.apply false (emptyFileSets 3).columnFamilies).1 = some 10 := by decide +kernel
    obtain ⟨fs', hfs', hpair⟩ := map_eq_some_iff.1 heach
    obtain ⟨hsize, hobs⟩ := mk.inj hpair
    obtain ⟨c, hc, hseal, hsize'⟩ := exists_of_toOption hbatch
    obtain ⟨s', m, hs', hm, hd⟩ := sizeOfTwo_eq hsize
    obtain ⟨b, m', hb, hm', hd'⟩ := sizeOfTwo_eq hsize'
    refine ⟨fs', c, hfs', hc, hseal, fun hkeeps => ?_⟩
    have hlive : m.isObsolete = false := by
      rw [getBlobStorage, hs'] at hobs
      simpa [hm] using hobs
    obtain ⟨b₁, m₁, hb₁, hm₁, hmod⟩ := hkeeps 0 s' 2 m hs' hm hlive
    cases hb.symm.trans hb₁
    cases hm'.symm.trans hm₁
    rw [hd, hd'] at hmod
    exact absurd hmod (by decide)
  · have hplain : (run (step false) (.create [0])
        ([.newFileNumber, .edit addTwo, .edit (chargeTwo 8)] ++ [])).bind (fun l =>
          (replay false l.fs.reopened l.fs.manifest).toOption.map fun r => sizeOfTwo r.1) =
        some (some 8) := by decide +kernel
    have hrewritten : (run (step false) (.create [0])
        ([.newFileNumber, .edit addTwo, .edit (chargeTwo 8)] ++ [.rewrite])).bind (fun l =>
          (replay false l.fs.reopened l.fs.manifest).toOption.map fun r => sizeOfTwo r.1) =
        some (some 0) := by decide +kernel
    obtain ⟨l, hl, hr⟩ := bind_eq_some_iff.1 hplain
    obtain ⟨l', hl', hr'⟩ := bind_eq_some_iff.1 hrewritten
    obtain ⟨⟨cfs, n⟩, hreplay, hsize⟩ := exists_of_toOption (map_eq_some_iff.1 hr)
    obtain ⟨⟨cfs', n'⟩, hreplay', hsize'⟩ := exists_of_toOption (map_eq_some_iff.1 hr')
    refine ⟨l, l', cfs, n, cfs', n', hl, hl', hreplay, hreplay', fun hkeeps => ?_⟩
    have heq : sizeOfTwo cfs = sizeOfTwo cfs' := hkeeps 0 (mem_singleton_self 0) 2
    rw [hsize, hsize'] at heq
    cases heq

end ValueSep.DiffKV
