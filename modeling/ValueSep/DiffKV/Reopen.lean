import ValueSep.DiffKV.Crash
import ValueSep.DiffKV.Get

/-!
# Closing and reopening

`Close` purges obsolete files, closes the base DB and ends the builder threads. A thread that finds the end of its
queue returns without finishing its file, and the files it had finished are registered by nobody. `Open` recovers
the blob file set from the manifest and deletes the files it does not know; the base DB replays all of its log.
-/

namespace ValueSep.DiffKV

open World Manifest
open List BlobFileMeta DiffKV.System BlobStorage Exec

namespace World

/-- `TitanDBImpl::Close`. -/
def close (oldest : SequenceNumber) (w : World) : World :=
  { purgeWorld oldest w with fg := fun _ => ⟨none, []⟩ }

/-- `TitanDBImpl::Open` after a `Close`: both logs are complete. -/
def reopen (o : Options) (w : World) : Except Status World :=
  w.crash o w.db.latestSequence w.fileSet.manifest.length

variable {o : Options} {freed : Slice → Slice} {w w' : World} {r : BlobRecord} {i : BlobIndex}

/-- What is left of the engine when it is open again. -/
structure Reopened (w w' : World) : Prop where
  get : ∀ k, w'.db.get k = w.db.get k
  building : w'.storage.buildingFiles = []
  alive : ∀ m, Alive w.fileSet.manifest m →
    ∃ m', w'.storage.findFile m.fileNumber = some m' ∧ m'.persisted = m.persisted
  found : ∀ n m', w'.storage.findFile n = some m' → n ∈ (added w.fileSet.manifest).map fileNumber
  disk : ∀ n, (w'.storage.findFile n).isSome → w'.disk n = w.disk n

theorem reopen_spec (h : ClientOk o w) (oldest : SequenceNumber) :
    ∃ w', (w.close oldest).reopen o = .ok w' ∧ Reopened w w' := by
  -- no file is obsolete, so the purge removes nothing
  have hdisk : (w.close oldest).disk = w.disk := by
    simp [close, purgeWorld, getObsoleteFiles, h.untagged]
  have hmanifest : (w.close oldest).fileSet.manifest = w.fileSet.manifest := rfl
  obtain ⟨storage, next, hrec, hbuild, halive, hfound⟩ := recover_spec o.sepBeforeFlush h.log.ok h.log.ne
  simp only [reopen, crash, hmanifest, take_length, hrec, Except.ok.injEq, exists_eq_left']
  refine ⟨fun k => ?_, hbuild, fun m hm => ?_, fun n m' hm' => ?_, fun n hn => ?_⟩
  · simp [BaseDb.get, BaseDb.asOf, BaseDb.latestSequence, close, System.purgeWorld]
  · obtain ⟨m', hm', hsame, -⟩ := halive m hm
    exact ⟨m', hm', hsame⟩
  · obtain ⟨m, hm, rfl⟩ := hfound n m' hm'
    exact mem_map_of_mem hm.1
  · exact (if_pos hn).trans (congrFun hdisk n)

theorem Reopened.getBlob_eq_ok (hr : Reopened w w') (h : ClientOk o w) (hb : Backed o w r i)
    (henc : Encodable o false r) :
    w'.getBlob o freed i = .ok r.value ↔ i.fileNumber ∈ (added w.fileSet.manifest).map fileNumber := by
  constructor
  · intro hget
    by_contra hnot
    have hnone : w'.storage.findFile i.fileNumber = none := by
      cases hm : w'.storage.findFile i.fileNumber with
      | none => rfl
      | some m' => exact absurd (hr.found _ m' hm) hnot
    simp only [getBlob, hnone, readBuildingFile, findBuildingFile, hr.building, contains_nil] at hget
    split at hget <;> cases hget
  · intro hmem
    obtain ⟨m, hm, hnum⟩ := mem_map.1 hmem
    obtain ⟨htype, hdel⟩ := hb.logged m hm hnum
    have hal : Alive w.fileSet.manifest m := ⟨hm, by rw [hnum]; exact hdel⟩
    obtain ⟨m', hm', hsame⟩ := hr.alive m hal
    rw [hnum] at hm'
    have hdisk := hr.disk i.fileNumber (by rw [hm']; rfl)
    have hnum' := fileNumber_of_findFile hm'
    -- a builder in error would own the file, which the manifest does not know then
    have hnot : ¬ w.Lost i := by
      rintro ⟨b, bd, file, hbd, -, hbn, -⟩
      exact h.log.owned b _ (mem_owned_of_builder hbd) (hbn ▸ hmem)
    have hread := hb.stored.resolve_right hnot henc
    have hmode : readsOnlyValue o m' = false := by
      simp [readsOnlyValue, fileType_of_persisted hsame, htype]
    have hc : Complete o w' m' := by
      obtain ⟨file, data, hfile, hbuf, hsize, hcontent⟩ := h.logged m hal
      rw [hnum] at hfile
      refine ⟨file, data, by rw [hnum', hdisk, hfile], hbuf, ?_, hcontent⟩
      rw [fileSize_of_persisted hsame, hsize]
    simp only [getBlob, hm']
    refine readRegisteredFile_of_complete hc hnum' ?_
    rw [hmode]
    simpa only [readFile, hdisk] using hread

end World

namespace System

variable {o : Options} {freed : Slice → Slice} {s₀ s : System} {es : List SysEvent}

/-- Clients and seals, then `Close` and `Open`: if no record is too large for the format, every key reads its last
acknowledged operation exactly when each index among them names a file the manifest knows, and the empty key's last Put
was not taken for a flush marker. -/
theorem reopen_reads_acked_iff (h : ClientStart o s₀) (hes : ∀ e ∈ es, e.isClient = true)
    (hrun : Exec.run (System.step o) s₀ es = some s) (oldest : SequenceNumber)
    (henc : ∀ k v i, s.acked.lookup k = some (some v) → s.world.db.get k = some (.blobIndex i) →
      Encodable o false ⟨k, v⟩) :
    (∃ w', (s.world.close oldest).reopen o = .ok w' ∧ ∀ k x, s.acked.lookup k = some x → w'.get o freed k = .ok x) ↔
    (∀ k i, (s.acked.lookup k).isSome = true → s.world.db.get k = some (.blobIndex i) →
      i.fileNumber ∈ (added s.world.fileSet.manifest).map BlobFileMeta.fileNumber) ∧
      ∀ v, s.acked.lookup [] = some (some v) → separates o v = false := by
  have hinv := h.run hes hrun
  obtain ⟨w', hopen, hre⟩ := reopen_spec hinv.ok oldest
  have hget : ∀ k, w'.get o freed k = w'.getEntry o freed (s.world.db.get k) := fun k => by
    rw [World.get, hre.get]
  constructor
  · rintro ⟨w'', hopen', hreads⟩
    obtain rfl : w' = w'' := by rw [hopen] at hopen'; exact Except.ok.inj hopen'
    refine ⟨fun k i hk hi => ?_, fun v hv => ?_⟩
    · obtain ⟨x, hx⟩ := Option.isSome_iff_exists.1 hk
      have hread := hreads k x hx
      rw [hget, hi] at hread
      cases x with
      | none => rw [show s.world.db.get k = none from hinv.acked k none hx] at hi; cases hi
      | some v =>
        rcases hinv.acked k _ hx with (hval | ⟨i', hidx, hb⟩) | ⟨rfl, -⟩
        · rw [hval] at hi; cases hi
        · rw [hidx] at hi
          cases hi
          exact (hre.getBlob_eq_ok hinv.ok hb (henc k v _ hx hidx)).1 (getEntry_blobIndex_eq_ok.1 hread)
        · obtain ⟨v', heq, -⟩ := hinv.emptyKey _ hi
          cases heq
    · have hread := hreads [] _ hv
      rw [hget] at hread
      cases he : s.world.db.get [] with
      | none => rw [he] at hread; cases hread
      | some e =>
        obtain ⟨v', rfl, hv'⟩ := hinv.emptyKey e he
        rw [he] at hread
        cases hread
        exact hv'
  · rintro ⟨hlogged, hempty⟩
    refine ⟨w', hopen, fun k x hx => ?_⟩
    rw [hget]
    cases x with
    | none => rw [show s.world.db.get k = none from hinv.acked k none hx]; rfl
    | some v =>
      rcases hinv.acked k _ hx with (hval | ⟨i, hidx, hb⟩) | ⟨rfl, hv⟩
      · rw [hval]; rfl
      · rw [hidx]
        refine getEntry_blobIndex_eq_ok.2 ((hre.getBlob_eq_ok hinv.ok hb (henc k v i hx hidx)).2 ?_)
        exact hlogged k i (by rw [hx]; rfl) hidx
      · rw [hempty v hx] at hv; cases hv

/-- A memtable was sealed after the Put. -/
theorem reopen_reads_acked_sealed :
    ∃ s w', run (step (.small true false)) fresh [.putAdd {} [1] [10], .putWrite 0 none, .sealSlot 0 {}] = some s ∧
      (s.world.close kMaxSequenceNumber).reopen (.small true false) = .ok w' ∧
      ∀ k x, s.acked.lookup k = some x → w'.get (.small true false) id k = .ok x := by
  let es : List SysEvent := [.putAdd {} [1] [10], .putWrite 0 none, .sealSlot 0 {}]
  have hend : (run (step (.small true false)) fresh es).map (fun s =>
      (s.acked, s.world.db.get [1], (added s.world.fileSet.manifest).map fileNumber)) =
      some ([([1], some [10])], some (.blobIndex ⟨1, ⟨8, 13⟩⟩), [1]) := by
    decide +kernel
  obtain ⟨s, hrun, heq⟩ := Option.map_eq_some_iff.1 hend
  simp only [Prod.mk.injEq] at heq
  obtain ⟨hacked, hget, hadded⟩ := heq
  have hkey (k : Slice) (x : Option Slice) (hx : s.acked.lookup k = some x) : k = [1] ∧ some [10] = x := by
    rw [hacked, lookup_cons] at hx
    split at hx
    next hk => exact ⟨beq_iff_eq.1 hk, Option.some.inj hx⟩
    · cases hx
  have henc (k v : Slice) (i : BlobIndex) (hx : s.acked.lookup k = some (some v))
      (_ : s.world.db.get k = some (.blobIndex i)) : Encodable (.small true false) false ⟨k, v⟩ := by
    obtain ⟨rfl, ⟨⟩⟩ := hkey k _ hx
    decide
  have hcond : (∀ k i, (s.acked.lookup k).isSome = true → s.world.db.get k = some (.blobIndex i) →
      i.fileNumber ∈ (added s.world.fileSet.manifest).map fileNumber) ∧
      ∀ v, s.acked.lookup [] = some (some v) → separates (.small true false) v = false := by
    refine ⟨fun k i hk hi => ?_, fun v hv => absurd (hkey [] _ hv).1 (by decide)⟩
    obtain ⟨x, hx⟩ := Option.isSome_iff_exists.1 hk
    obtain ⟨rfl, -⟩ := hkey k x hx
    rw [hget] at hi
    cases hi
    rw [hadded]
    exact mem_singleton_self _
  obtain ⟨w', hopen, hreads⟩ :=
    (reopen_reads_acked_iff clientStart_fresh (by decide) hrun kMaxSequenceNumber henc).2 hcond
  exact ⟨s, w', hrun, hopen, hreads⟩

/-- No memtable was sealed: `Close` leaves file 1 unregistered, and `Recover` deletes it. -/
theorem reopen_loses_unsealed_put :
    ClientStart (.small true false) fresh ∧
      (run (step (.small true false)) fresh [.putAdd {} [1] [10], .putWrite 0 none]).map
        (fun s => (s.acked, ((s.world.close kMaxSequenceNumber).reopen (.small true false)).map fun w' =>
          w'.get (.small true false) id [1])) =
      some ([([1], some [10])], .ok (.error (.corruption "File 1 not exist"))) :=
  ⟨clientStart_fresh, by decide +kernel⟩

end System

end ValueSep.DiffKV
