import ValueSep.DiffKV.World

/-!
# The file manager and the foreground builders

`TitanDBImpl::FileManager` and `ForegroundBuilder`, the separation of values before they reach the memtable.
A request with an empty key is the flush marker of `ForegroundBuilder::Flush`. A call that ends in `abort()`
has no result.
-/

namespace ValueSep.DiffKV

open List Function Option BlobFileBuilder

/-- Faults of `BatchFinishFiles`, by file number. -/
structure FinishFaults where
  sync : Nat → Fault := fun _ => none
  close : Nat → Fault := fun _ => none
  manifest : ManifestFaults := {}

/-- Faults of one request to a foreground builder. -/
structure AddFaults where
  newFile : Fault := none
  header : Fault := none
  addBuildingFile : Fault := none
  append : Fault := none
  finish : Fault := none
  batch : FinishFaults := {}

/-- `writable_file_max_buffer_size` of the foreground builders. -/
def kForegroundBufferSize : Nat := 4 * 1024

namespace World

/-! ### File manager -/

/-- `NewFile`: the number is used up even when the file cannot be created. -/
def newFile (fault : Fault) (maxBufferSize : Nat) (w : World) : World × Status × Nat :=
  let number := w.nextFileNumber
  let fileSet := { w.fileSet with nextFileNumber := number + 1 }
  if fault = none then
    ({ w with fileSet, disk := update w.disk number (some (.create maxBufferSize)) }, .ok, number)
  else ({ w with fileSet }, fault.status, number)

def logAndApply (o : Options) (f : ManifestFaults) (edit : VersionEdit) (w : World) : World × Status :=
  let r := w.fileSet.logAndApply o.sepBeforeFlush f edit
  ({ w with fileSet := r.1 }, r.2)

/-- `BatchFinishFiles`: sync and close each file in turn, then one manifest record for all of them. -/
def batchFinishFiles (o : Options) (f : FinishFaults) (files : List BlobFileMeta) (w : World) : World × Status :=
  match files.findSome? fun m => (f.sync m.fileNumber).or (f.close m.fileNumber) with
  | some msg => (w, .ioError msg)
  | none => w.logAndApply o f.manifest (.ofAdded files)

/-- `BatchDeleteFiles`: the status is that of the last deletion. -/
def batchDeleteFiles (delete : Nat → Fault) : List Nat → World × Status → World × Status
  | [], r => r
  | n :: ns, (w, _) =>
    batchDeleteFiles delete ns
      (if delete n = none then { w with disk := update w.disk n none } else w, (delete n).status)

/-! ### Foreground builders -/

/-- `FinishBlob`: the metadata starts in the state kNormal, by way of `kReset`. -/
def finishBlob (o : Options) (fault : Fault) (b : Nat) (w : World) : Option World :=
  match (w.fg b).builder with
  | none => some w
  | some bd => (w.disk bd.number).bind fun file =>
    let (file, bd) := bd.finish o fault file
    if bd.status ≠ .ok then none
    else
      let file' : BlobFileMeta :=
        { fileNumber := bd.number, fileSize := file.fileSize, fileEntries := bd.numEntries, fileType := .unSorted,
          fileLevel := 0, smallestKey := bd.smallestKey, largestKey := bd.largestKey,
          state := FileState.init.transit .reset, discardableSize := 0 }
      some { w with
        disk := update w.disk bd.number (some file)
        fg := update w.fg b ⟨none, (w.fg b).finished ++ [file']⟩ }

/-- The flush marker in `handleRequest`: the result of `BatchFinishFiles` is not looked at. -/
def flushSlot (o : Options) (f : AddFaults) (b : Nat) (w : World) : Option World :=
  (w.finishBlob o f.finish b).map fun w =>
    if (w.fg b).finished = [] then w
    else
      let w' := (w.batchFinishFiles o f.batch (w.fg b).finished).1
      { w' with fg := update w'.fg b { w'.fg b with finished := [] } }

/-- The builder of slot `b`, opened if there is none. A failing `AddBuildingFile` goes unnoticed. -/
def openBuilder (f : AddFaults) (b : Nat) (w : World) : World × Status × BlobFileBuilder :=
  match (w.fg b).builder with
  | some bd => (w, .ok, bd)
  | none =>
    let (w, st, number) := w.newFile f.newFile kForegroundBufferSize
    let (file, bd) := create f.header number (.create kForegroundBufferSize)
    if st ≠ .ok then (w, st, bd)
    else
      ({ w with
         disk := update w.disk number (some file)
         fileSet := { w.fileSet with
           storage := if f.addBuildingFile = none then w.storage.addBuildingFile number else w.storage }
         fg := update w.fg b { w.fg b with builder := some bd } }, .ok, bd)

/-- The rest of `handleRequest` for a record: append it, roll the file over when it has reached its target
size, return the index. The builder's own status is not looked at. -/
def appendRecord (o : Options) (f : AddFaults) (b : Nat) (r : BlobRecord) (w : World) :
    Option (World × Status × Option BlobIndex) :=
  let (w, st, bd) := w.openBuilder f b
  if st ≠ .ok then some (w, st, none)
  else
    (w.disk bd.number).bind fun file =>
      let (file, bd, handle) := bd.add o false f.append file r
      let w := { w with
        disk := update w.disk bd.number (some file)
        fg := update w.fg b { w.fg b with builder := some bd } }
      (if o.blobFileTargetSize ≤ file.fileSize then w.finishBlob o f.finish b else some w).map fun w =>
        (w, .ok, some ⟨bd.number, handle⟩)

/-- The builder thread a key is hashed to. -/
def slotOf (o : Options) (key : Slice) : Nat :=
  if 1 < o.numForegroundBuilders then o.hash key % o.numForegroundBuilders else 0

/-- Whether `ForegroundBuilder::Add` takes a value of this size. -/
def separates (o : Options) (value : Slice) : Bool :=
  !(value.length < o.minBlobSize || (o.levelMerge && value.length < o.midBlobSize))

/-- `ForegroundBuilder::Add`: status, and the index it put into the write batch, if any. -/
def foregroundAdd (o : Options) (f : AddFaults) (key value : Slice) (w : World) :
    Option (World × Status × Option BlobIndex) :=
  if separates o value = false then some (w, .invalidArgument "", none)
  else if key = [] then (w.flushSlot o f (slotOf o key)).map fun w => (w, .ok, none)
  else w.appendRecord o f (slotOf o key) ⟨key, value⟩

/-- `DB::Write` of a batch that holds at most one blob index. -/
def writeBatch (fault : Fault) (by' : Writer) (key : Slice) (wb : Option BlobIndex) (w : World) : World × Status :=
  if fault = none then
    (match wb with
     | some i => { w with db := w.db.write key (some (.blobIndex i)) by' }
     | none => w, .ok)
  else (w, fault.status)

/-- `TitanDBImpl::Put`, up to the write of its batch: what goes to the base DB. -/
def putEntry (o : Options) (f : AddFaults) (key value : Slice) (w : World) : Option (World × Option LsmEntry) :=
  if o.sepBeforeFlush then
    (w.foregroundAdd o f key value).map fun (w, st, wb) =>
      if st = .ok then (w, wb.map .blobIndex) else (w, some (.value value))
  else some (w, some (.value value))

/-- The write of a Put's batch, which holds one entry or none. -/
def commit (key : Slice) (e : Option LsmEntry) (w : World) : World :=
  match e with
  | some e => { w with db := w.db.write key (some e) .user }
  | none => w

/-- `TitanDBImpl::Put` whose base-DB write succeeds. -/
def put (o : Options) (f : AddFaults) (key value : Slice) (w : World) : Option World :=
  (w.putEntry o f key value).map fun (w, e) => w.commit key e

/-- `TitanDBImpl::Delete` that succeeds. -/
def delete (key : Slice) (w : World) : World := { w with db := w.db.write key none .user }

/-! ### What the foreground builders own -/

/-- The files slot `b` is building or has finished without registering them. -/
def owned (w : World) (b : Nat) : List Nat :=
  (w.fg b).finished.map BlobFileMeta.fileNumber ++ ((w.fg b).builder.map number).toList

structure FgWf (w : World) : Prop where
  fresh : ∀ n, w.nextFileNumber ≤ n →
    w.disk n = none ∧ w.storage.findFile n = none ∧ w.storage.findBuildingFile n = false
  owned_some : ∀ b, ∀ n ∈ w.owned b, (w.disk n).isSome ∧ w.storage.findFile n = none
  owned_nodup : ∀ b, (w.owned b).Nodup
  owned_disjoint : ∀ b b', b ≠ b' → (w.owned b).Disjoint (w.owned b')
  finished : ∀ b, ∀ m ∈ (w.fg b).finished, m.fileType = .unSorted ∧ m.state = .normal

/-- Each file of a builder can be read while it is not registered. -/
def FgBuilding (w : World) : Prop := ∀ b, ∀ n ∈ w.owned b, w.storage.findBuildingFile n = true

/-- Moreover no builder has met an error. -/
structure FgHealthy (w : World) : Prop where
  status : ∀ b bd, (w.fg b).builder = some bd → bd.status = .ok
  building : FgBuilding w

/-- A change to foreground files only: nothing is registered, committed or logged. -/
structure Quiet (w w' : World) : Prop where
  db : w'.db = w.db
  find : ∀ n, w'.storage.findFile n = w.storage.findFile n
  obsolete : w'.storage.obsoleteFiles = w.storage.obsoleteFiles
  manifest : w'.fileSet.manifest = w.fileSet.manifest
  synced : w'.fileSet.manifestSynced = w.fileSet.manifestSynced
  building : ∀ n, w.storage.findBuildingFile n = true → w'.storage.findBuildingFile n = true
  building_new : ∀ n, w'.storage.findBuildingFile n = true → w.storage.findBuildingFile n = true ∨ w.nextFileNumber ≤ n
  owned_new : ∀ b, ∀ n ∈ w'.owned b, n ∈ w.owned b ∨ w.nextFileNumber ≤ n
  grows : Grows w w'
  next_le : w.nextFileNumber ≤ w'.nextFileNumber
  created : ∀ n, n < w.nextFileNumber → w.disk n = none → w'.disk n = none

variable {o : Options} {f : AddFaults} {w w' w'' : World} {b : Nat} {r : BlobRecord} {st : Status}

theorem Quiet.refl (w : World) : Quiet w w :=
  ⟨rfl, fun _ => rfl, rfl, rfl, rfl, fun _ h => h, fun _ h => .inl h, fun _ _ h => .inl h, .refl w, le_rfl,
    fun _ _ h => h⟩

theorem Quiet.trans (h : Quiet w w') (h' : Quiet w' w'') : Quiet w w'' where
  db := h'.db.trans h.db
  find n := (h'.find n).trans (h.find n)
  obsolete := h'.obsolete.trans h.obsolete
  manifest := h'.manifest.trans h.manifest
  synced := h'.synced.trans h.synced
  building n hn := h'.building n (h.building n hn)
  building_new n hn := (h'.building_new n hn).elim (h.building_new n) fun hle => .inr (h.next_le.trans hle)
  owned_new b n hn := (h'.owned_new b n hn).elim (h.owned_new b n) fun hle => .inr (h.next_le.trans hle)
  grows := h.grows.trans h'.grows
  next_le := h.next_le.trans h'.next_le
  created n hn hnone := h'.created n (hn.trans_le h.next_le) (h.created n hn hnone)

theorem Quiet.keeps (h : Quiet w w') : Keeps o w w' := .of_grows h.grows h.find h.building

theorem Quiet.framed (h : Quiet w w') : Framed o w w' := ⟨h.db, h.keeps⟩

theorem FgWf.lt_next (hw : FgWf w) {n : Nat} (h : n ∈ w.owned b) : n < w.nextFileNumber := by
  by_contra hle
  have := (hw.owned_some b n h).1
  rw [(hw.fresh n (by omega)).1] at this
  cases this

/-- Replacing the file of an owned number by a longer one, with slot `b` holding the same files. -/
theorem FgWf.replace (hw : FgWf w) {n : Nat} {file file' : WritableFile} {slot : FgSlot} (hn : n ∈ w.owned b)
    (hfile : w.disk n = some file) (hgrow : ∃ data, file'.content = file.content ++ data)
    (hdisk : w'.disk = update w.disk n (some file')) (hfg : w'.fg = update w.fg b slot)
    (hset : w'.fileSet = w.fileSet) (hdb : w'.db = w.db) (howned : w'.owned b = w.owned b)
    (hfin : ∀ m ∈ slot.finished, m.fileType = .unSorted ∧ m.state = .normal) : FgWf w' ∧ Quiet w w' := by
  have hstorage : w'.storage = w.storage := by rw [storage, storage, hset]
  have hnext : w'.nextFileNumber = w.nextFileNumber := by rw [nextFileNumber, nextFileNumber, hset]
  have hown : ∀ b', w'.owned b' = w.owned b' := by
    intro b'
    by_cases hb : b' = b
    · rw [hb, howned]
    · simp only [owned, hfg, update_of_ne hb]
  have hother : ∀ m, m ≠ n → w'.disk m = w.disk m := fun m hm => by rw [hdisk, update_of_ne hm]
  refine ⟨⟨?_, ?_, ?_, ?_, ?_⟩, ⟨hdb, ?_, by rw [hstorage], by rw [hset], by rw [hset], ?_, ?_, ?_, ?_, hnext.ge, ?_⟩⟩
  · intro m hm
    rw [hnext] at hm
    have hlt := hw.lt_next hn
    rw [hother m (by omega), hstorage]
    exact hw.fresh m hm
  · intro b' m hm
    rw [hown] at hm
    rw [hstorage]
    refine ⟨?_, (hw.owned_some b' m hm).2⟩
    by_cases hmn : m = n
    · rw [hmn, hdisk, update_self]; rfl
    · rw [hother m hmn]; exact (hw.owned_some b' m hm).1
  · exact fun b' => hown b' ▸ hw.owned_nodup b'
  · exact fun b₁ b₂ hne => by rw [hown, hown]; exact hw.owned_disjoint b₁ b₂ hne
  · intro b' m hm
    rw [hfg] at hm
    by_cases hb : b' = b
    · rw [hb, update_self] at hm; exact hfin m hm
    · rw [update_of_ne hb] at hm; exact hw.finished b' m hm
  · exact fun m => by rw [hstorage]
  · exact fun m hm => hstorage ▸ hm
  · exact fun m hm => .inl (hstorage ▸ hm)
  · exact fun b' m hm => .inl (hown b' ▸ hm)
  · exact .update hfile hgrow hdisk
  · intro m _ hm
    rw [hother m (by rintro rfl; rw [hfile] at hm; cases hm), hm]

variable {bd : BlobFileBuilder} {wb : Option BlobIndex} {k v : Slice}

theorem mem_owned_of_builder (h : (w.fg b).builder = some bd) : bd.number ∈ w.owned b := by
  simp [owned, h]

theorem FgHealthy.replace (hh : FgHealthy w) {slot : FgSlot} (hfg : w'.fg = update w.fg b slot)
    (hset : w'.fileSet = w.fileSet) (howned : w'.owned b = w.owned b)
    (hst : ∀ bd, slot.builder = some bd → bd.status = .ok) : FgHealthy w' := by
  constructor
  · intro b' bd hbd
    rw [hfg] at hbd
    by_cases hb : b' = b
    · rw [hb, update_self] at hbd; exact hst bd hbd
    · rw [update_of_ne hb] at hbd; exact hh.status b' bd hbd
  · intro b' n hn
    have hown : w'.owned b' = w.owned b' := by
      by_cases hb : b' = b
      · rw [hb, howned]
      · simp only [owned, hfg, update_of_ne hb]
    rw [storage, hset]
    exact hh.building b' n (hown ▸ hn)

theorem finishBlob_spec {fault : Fault} (hw : FgWf w) (h : w.finishBlob o fault b = some w') :
    FgWf w' ∧ Quiet w w' ∧ (FgHealthy w → FgHealthy w') ∧ w'.fileSet = w.fileSet ∧ (w'.fg b).builder = none ∧
      (∀ b', w'.owned b' = w.owned b') := by
  unfold finishBlob at h
  cases hbd : (w.fg b).builder with
  | none =>
    rw [hbd] at h; cases h
    exact ⟨hw, .refl w, id, rfl, hbd, fun _ => rfl⟩
  | some bd =>
    simp only [hbd, bind_eq_some_iff] at h
    obtain ⟨file, hfile, h⟩ := h
    obtain ⟨hgrow, hnum, -⟩ := bd.finish_spec o fault file
    split at h
    · cases h
    · rw [hnum, some.injEq] at h
      have hn := mem_owned_of_builder hbd
      -- the finished file takes the builder's place in the list of owned files
      have hown : w'.owned b = w.owned b := by rw [← h]; simp [owned, hbd]
      have hfg : w'.fg = update w.fg b (w'.fg b) := by rw [← h]; simp
      have hset : w'.fileSet = w.fileSet := by rw [← h]
      have hrep := hw.replace hn hfile hgrow (by rw [← h]) hfg hset (by rw [← h]) hown fun m hm => by
        rw [← h] at hm
        simp only [update_self, mem_append, mem_singleton] at hm
        rcases hm with hm | rfl
        · exact hw.finished b m hm
        · exact ⟨rfl, rfl⟩
      have hnone : (w'.fg b).builder = none := by rw [← h]; simp
      refine ⟨hrep.1, hrep.2, fun hh => hh.replace hfg hset hown (by simp [hnone]), hset, hnone, fun b' => ?_⟩
      by_cases hb : b' = b
      · rw [hb, hown]
      · simp only [owned]; rw [hfg, update_of_ne hb]

theorem FgWf.bump (hw : FgWf w) (hdb : w'.db = w.db) (hfg : w'.fg = w.fg)
    (hset : w'.fileSet = { w.fileSet with nextFileNumber := w.nextFileNumber + 1 })
    (hdisk : ∀ n, n ≠ w.nextFileNumber → w'.disk n = w.disk n) : FgWf w' ∧ Quiet w w' := by
  have hstorage : w'.storage = w.storage := by rw [storage, storage, hset]
  have hnext : w'.nextFileNumber = w.nextFileNumber + 1 := by rw [nextFileNumber, hset]
  have hown : ∀ b, w'.owned b = w.owned b := fun b => by simp only [owned, hfg]
  refine ⟨⟨fun n hn => ?_, fun b n hn => ?_, fun b => hown b ▸ hw.owned_nodup b, fun b b' hne => ?_, ?_⟩,
    hdb, fun n => by rw [hstorage], by rw [hstorage], by rw [hset], by rw [hset], fun n hn => hstorage ▸ hn,
    fun n hn => .inl (hstorage ▸ hn), fun b n hn => .inl (hown b ▸ hn), fun n f hf => ⟨f, ?_, [], by simp⟩, by omega,
    fun n hn h => by rw [hdisk n (by omega), h]⟩
  · rw [hdisk n (by omega), hstorage]
    exact hw.fresh n (by omega)
  · rw [hown] at hn
    have := hw.lt_next hn
    rw [hdisk n (by omega), hstorage]
    exact hw.owned_some b n hn
  · rw [hown, hown]; exact hw.owned_disjoint b b' hne
  · rw [hfg]; exact hw.finished
  · rw [hdisk n, hf]
    rintro rfl
    rw [(hw.fresh _ le_rfl).1] at hf; cases hf

theorem newFile_spec (hw : FgWf w) (fault : Fault) (maxBufferSize : Nat) :
    FgWf (w.newFile fault maxBufferSize).1 ∧ Quiet w (w.newFile fault maxBufferSize).1 ∧
      (w.newFile fault maxBufferSize).1.fg = w.fg ∧ (w.newFile fault maxBufferSize).1.storage = w.storage ∧
      (w.newFile fault maxBufferSize).2.2 = w.nextFileNumber ∧ ((w.newFile fault maxBufferSize).2.1 = .ok →
        (w.newFile fault maxBufferSize).1.disk w.nextFileNumber = some (.create maxBufferSize)) := by
  unfold newFile
  split
  next =>
    rw [← and_assoc]
    exact ⟨hw.bump rfl rfl rfl fun n hn => update_of_ne hn .., rfl, rfl, rfl, fun _ => update_self ..⟩
  next h =>
    rw [← and_assoc]
    exact ⟨hw.bump rfl rfl rfl fun _ _ => rfl, rfl, rfl, rfl, fun h' => absurd (Fault.status_eq_ok.1 h') h⟩

/-- A new file handed to slot `b`, which was building nothing. -/
theorem FgWf.adopt (hw : FgWf w) {file : WritableFile} (hb : (w.fg b).builder = none)
    (hnum : bd.number = w.nextFileNumber) (hdb : w'.db = w.db)
    (hfg : w'.fg = update w.fg b { w.fg b with builder := some bd })
    (hdisk : w'.disk = update w.disk w.nextFileNumber (some file))
    (hset : w'.fileSet = { w.fileSet with storage := w'.storage, nextFileNumber := w.nextFileNumber + 1 })
    (hst : w'.storage = w.storage ∨ w'.storage = w.storage.addBuildingFile w.nextFileNumber) :
    FgWf w' ∧ Quiet w w' := by
  have hnew := hw.fresh w.nextFileNumber le_rfl
  have hnext : w'.nextFileNumber = w.nextFileNumber + 1 := by rw [nextFileNumber, hset]
  have hfind : ∀ n, w'.storage.findFile n = w.storage.findFile n := by rcases hst with h | h <;> simp [h]
  have hbuild : ∀ n, n ≠ w.nextFileNumber → w'.storage.findBuildingFile n = w.storage.findBuildingFile n := by
    intro n hn; rcases hst with h | h <;> simp [h, hn]
  have hown : w'.owned b = w.owned b ++ [w.nextFileNumber] := by simp [owned, hfg, hb, hnum]
  have hother : ∀ b', b' ≠ b → w'.owned b' = w.owned b' := fun b' h => by
    simp only [owned, hfg, update_of_ne h]
  have hmem : ∀ b' n, n ∈ w'.owned b' → n ∈ w.owned b' ∨ n = w.nextFileNumber ∧ b' = b := by
    intro b' n hn
    by_cases h : b' = b
    · subst h; rw [hown, mem_append, mem_singleton] at hn; exact hn.imp_right fun h => ⟨h, rfl⟩
    · exact .inl (hother b' h ▸ hn)
  have hnot : ∀ b', w.nextFileNumber ∉ w.owned b' := fun b' h => lt_irrefl _ (hw.lt_next h)
  refine ⟨⟨fun n hn => ?_, fun b' n hn => ?_, fun b' => ?_, fun b₁ b₂ hne n h₁ h₂ => ?_, fun b' m hm => ?_⟩,
    hdb, hfind, by rcases hst with h | h <;> simp [h], by rw [hset], by rw [hset], fun n hn => ?_,
    fun n hn => ?_, fun b' n hn => ?_, .create hnew.1 hdisk, by omega,
    fun n hn h => by rw [hdisk, update_of_ne (by omega), h]⟩
  · rw [hdisk, update_of_ne (by omega), hfind, hbuild n (by omega)]
    exact hw.fresh n (by omega)
  · rw [hdisk, hfind]
    rcases hmem b' n hn with h | ⟨rfl, -⟩
    · have := hw.lt_next h
      rw [update_of_ne (by omega)]
      exact hw.owned_some b' n h
    · rw [update_self]; exact ⟨rfl, hnew.2.1⟩
  · by_cases h : b' = b
    · subst h
      rw [hown, nodup_append]
      exact ⟨hw.owned_nodup b', nodup_singleton _, fun n hn m hm hnm =>
        hnot b' (mem_singleton.1 hm ▸ hnm ▸ hn)⟩
    · rw [hother b' h]; exact hw.owned_nodup b'
  · rcases hmem b₁ n h₁ with h₁ | ⟨hn, rfl⟩
    · rcases hmem b₂ n h₂ with h₂ | ⟨hn, rfl⟩
      · exact hw.owned_disjoint b₁ b₂ hne h₁ h₂
      · exact hnot b₁ (hn ▸ h₁)
    · rcases hmem b₂ n h₂ with h₂ | ⟨-, rfl⟩
      · exact hnot b₂ (hn ▸ h₂)
      · exact hne rfl
  · rw [hfg] at hm
    by_cases h : b' = b
    · subst h; rw [update_self] at hm; exact hw.finished b' m hm
    · rw [update_of_ne h] at hm; exact hw.finished b' m hm
  · rcases hst with h | h <;> simp [h, hn]
  · by_cases h : n = w.nextFileNumber
    · exact .inr h.ge
    · exact .inl (hbuild n h ▸ hn)
  · exact (hmem b' n hn).imp_right fun h => h.1.ge

theorem FgBuilding.adopt (hf : FgBuilding w) (hb : (w.fg b).builder = none) (hnum : bd.number = w.nextFileNumber)
    (hfg : w'.fg = update w.fg b { w.fg b with builder := some bd })
    (hst : w'.storage = w.storage.addBuildingFile w.nextFileNumber) : FgBuilding w' := by
  intro b' n hn
  rw [hst, BlobStorage.findBuildingFile_addBuildingFile, Bool.or_eq_true, decide_eq_true_eq]
  by_cases h : b' = b
  · subst h
    have hn' : n ∈ w.owned b' ∨ n = w.nextFileNumber := by simpa [owned, hfg, hb, hnum] using hn
    exact hn'.symm.imp_right (hf b' n)
  · refine .inr (hf b' n ?_)
    simpa only [owned, hfg, update_of_ne h] using hn

theorem FgHealthy.adopt (hh : FgHealthy w) (hb : (w.fg b).builder = none)
    (hnum : bd.number = w.nextFileNumber) (hok : bd.status = .ok)
    (hfg : w'.fg = update w.fg b { w.fg b with builder := some bd })
    (hst : w'.storage = w.storage.addBuildingFile w.nextFileNumber) : FgHealthy w' := by
  refine ⟨fun b' bd' hbd => ?_, hh.building.adopt hb hnum hfg hst⟩
  rw [hfg] at hbd
  by_cases h : b' = b
  · subst h
    rw [update_self, some.injEq] at hbd
    exact hbd ▸ hok
  · rw [update_of_ne h] at hbd; exact hh.status b' bd' hbd

theorem openBuilder_spec (hw : FgWf w) (f : AddFaults) (b : Nat) :
    FgWf (w.openBuilder f b).1 ∧ Quiet w (w.openBuilder f b).1 ∧ (f.newFile = none → (w.openBuilder f b).2.1 = .ok) ∧
      ((w.openBuilder f b).2.1 = .ok → ((w.openBuilder f b).1.fg b).builder = some (w.openBuilder f b).2.2) ∧
      (FgHealthy w → f.header = none → f.addBuildingFile = none → FgHealthy (w.openBuilder f b).1) := by
  unfold openBuilder
  cases hbd : (w.fg b).builder with
  | some bd => exact ⟨hw, .refl w, fun _ => rfl, fun _ => hbd, fun hh _ _ => hh⟩
  | none =>
    dsimp only [newFile]
    rw [← and_assoc]
    by_cases hnew : f.newFile = none
    · simp only [if_pos hnew, ne_eq, not_true, if_false]
      refine ⟨hw.adopt hbd rfl rfl rfl (update_idem ..) rfl ?_, fun _ => trivial, fun _ => by simp,
        fun hh hhead hadd => ?_⟩
      · by_cases h : f.addBuildingFile = none
        · exact .inr (if_pos h)
        · exact .inl (if_neg h)
      · exact hh.adopt hbd rfl (Fault.status_eq_ok.2 hhead) rfl (if_pos hadd)
    · simp only [hnew, if_false, ne_eq, Fault.status_eq_ok, not_false_iff, if_true]
      exact ⟨hw.bump rfl rfl rfl fun _ _ => rfl, False.elim, False.elim, fun hh _ _ => ⟨hh.status, hh.building⟩⟩

/-! ### Registering and deleting files -/

theorem batchFinishFiles_cases (o : Options) (f : FinishFaults) (files : List BlobFileMeta) (w : World) :
    ∃ fs, (w.batchFinishFiles o f files).1 = { w with fileSet := fs } ∧
      BlobFileSet.Logs (.ofAdded files) (FilesAdded o.sepBeforeFlush files w.storage) w.fileSet
        (fs, (w.batchFinishFiles o f files).2) := by
  unfold batchFinishFiles
  split
  · exact ⟨w.fileSet, rfl, .inl ⟨nofun, rfl, rfl, rfl, .inl rfl⟩⟩
  · exact ⟨_, rfl, BlobFileSet.logAndApply_ofAdded ..⟩

theorem batchDeleteFiles_spec (delete : Nat → Fault) (ns : List Nat) (w : World) (st : Status) :
    ∃ disk, (batchDeleteFiles delete ns (w, st)).1 = { w with disk } ∧
      (∀ n, n ∉ ns → disk n = w.disk n) ∧ (∀ n, disk n = w.disk n ∨ disk n = none) ∧
      (batchDeleteFiles delete ns (w, st)).2 = (ns.getLast?.map fun n => (delete n).status).getD st := by
  induction ns generalizing w st with
  | nil => exact ⟨w.disk, rfl, fun _ _ => rfl, fun _ => .inl rfl, rfl⟩
  | cons n ns ih =>
    rw [batchDeleteFiles]
    obtain ⟨disk, hworld, hdisk, hgone, hst⟩ :=
      ih (if delete n = none then { w with disk := update w.disk n none } else w) (delete n).status
    refine ⟨disk, ?_, fun m hm => ?_, fun m => ?_, ?_⟩
    · rw [hworld]; split <;> rfl
    · rw [mem_cons, not_or] at hm
      rw [hdisk m hm.2]
      split
      · exact update_of_ne hm.1 ..
      · rfl
    · refine (hgone m).elim (fun h => ?_) .inr
      rw [h]
      split
      · by_cases hm : m = n
        · exact .inr (by rw [hm]; exact update_self ..)
        · exact .inl (update_of_ne hm ..)
      · exact .inl rfl
    · rw [hst]
      cases ns with
      | nil => rfl
      | cons k ns =>
        rfl

/-- Slot `b`, which builds no file, has handed over its finished ones: they are registered, or the write has failed. -/
structure HandsOver (b : Nat) (w : World) (fs : BlobFileSet) (w' : World) : Prop where
  idle : (w.fg b).builder = none
  next : fs.nextFileNumber = w.nextFileNumber
  storage : fs.storage = w.storage ∨ FilesAdded true (w.fg b).finished w.storage fs.storage
  world : w' = { w with fileSet := fs, fg := update w.fg b { w.fg b with finished := [] } }

variable {fs : BlobFileSet}

theorem HandsOver.obsolete (h : HandsOver b w fs w') : w'.storage.obsoleteFiles = w.storage.obsoleteFiles := by
  rw [h.world]
  exact h.storage.elim (congrArg _) FilesAdded.obsolete

theorem HandsOver.find {n : Nat} {m : BlobFileMeta} (h : HandsOver b w fs w') (hm : w'.storage.findFile n = some m) :
    w.storage.findFile n = some m ∨ m ∈ (w.fg b).finished := by
  rw [h.world] at hm
  rcases h.storage with hst | hadd
  · exact .inl (by rw [← hst]; exact hm)
  · rw [hadd.find, or_eq_some_iff] at hm
    exact hm.imp_right fun hm => mem_of_find?_eq_some hm.2

theorem flushSlot_cases (hw : FgWf w) (hsep : o.sepBeforeFlush = true) (h : w.flushSlot o f b = some w') :
    ∃ w₁, w.finishBlob o f.finish b = some w₁ ∧ (w' = w₁ ∨ ∃ fs, HandsOver b w₁ fs w' ∧
      (BlobFileSet.Unapplied (.ofAdded (w₁.fg b).finished) w₁.fileSet fs ∨
        BlobFileSet.Logged (.ofAdded (w₁.fg b).finished) w₁.fileSet fs)) := by
  simp only [flushSlot, map_eq_some_iff] at h
  obtain ⟨w₁, hfin, rfl⟩ := h
  refine ⟨w₁, hfin, ?_⟩
  split
  · exact .inl rfl
  · obtain ⟨-, -, -, -, hnone, -⟩ := finishBlob_spec hw hfin
    obtain ⟨fs, hworld, ⟨-, hun⟩ | ⟨-, hlog, hadd⟩⟩ := batchFinishFiles_cases o f.batch (w₁.fg b).finished w₁
    · exact .inr ⟨fs, ⟨hnone, hun.next, .inl hun.storage, by rw [hworld]⟩, .inl hun⟩
    · exact .inr ⟨fs, ⟨hnone, hlog.next, .inr (hsep ▸ hadd), by rw [hworld]⟩, .inr hlog⟩

theorem FgWf.handOver (hw : FgWf w) (h : HandsOver b w fs w') :
    FgWf w' ∧ (∀ b', ∀ n ∈ w'.owned b', n ∈ w.owned b' ∧ b' ≠ b) ∧
      ∀ n, n ∉ w.owned b → w'.storage.findFile n = w.storage.findFile n ∧
        w'.storage.findBuildingFile n = w.storage.findBuildingFile n := by
  obtain ⟨hb, hnext, hst, hw'⟩ := h
  have hown : w'.owned b = [] := by simp [hw', owned, hb]
  have hother : ∀ b', b' ≠ b → w'.owned b' = w.owned b' := fun b' hne => by
    simp only [hw', owned, update_of_ne hne]
  have hmem : ∀ b', ∀ n ∈ w'.owned b', n ∈ w.owned b' ∧ b' ≠ b := by
    intro b' n hn
    have hne : b' ≠ b := by rintro rfl; rw [hown] at hn; cases hn
    exact ⟨hother b' hne ▸ hn, hne⟩
  have hdb : w'.storage = fs.storage := by rw [hw']
  -- outside the slot's own files nothing changes
  have hsame : ∀ n, n ∉ w.owned b → w'.storage.findFile n = w.storage.findFile n ∧
      w'.storage.findBuildingFile n = w.storage.findBuildingFile n := by
    intro n hn
    rw [hdb]
    rcases hst with hst | hadd
    · rw [hst]; exact ⟨rfl, rfl⟩
    · have hnone : ∀ m ∈ (w.fg b).finished, ¬ (m.fileNumber == n) = true := fun m hm hmn =>
        hn (beq_iff_eq.1 hmn ▸ mem_append_left _ (mem_map_of_mem hm))
      rw [hadd.find, hadd.building, find?_eq_none.2 hnone, or_none,
        any_eq_false.2 fun m hm => hnone m hm]
      simp
  refine ⟨⟨fun n hn => ?_, fun b' n hn => ?_, fun b' => ?_, fun b₁ b₂ hne n h₁ h₂ => ?_, fun b' m hm => ?_⟩, hmem, hsame⟩
  · have hn' : w.nextFileNumber ≤ n := by rw [hw', nextFileNumber, hnext] at hn; exact hn
    have hno : n ∉ w.owned b := fun hb => absurd (hw.lt_next hb) (by omega)
    rw [(hsame n hno).1, (hsame n hno).2, hw']
    exact hw.fresh n hn'
  · obtain ⟨hn, hne⟩ := hmem b' n hn
    rw [(hsame n fun hb => hw.owned_disjoint b' b hne hn hb).1, hw']
    exact hw.owned_some b' n hn
  · by_cases hne : b' = b
    · rw [hne, hown]; exact nodup_nil
    · rw [hother b' hne]; exact hw.owned_nodup b'
  · exact hw.owned_disjoint b₁ b₂ hne (hmem b₁ n h₁).1 (hmem b₂ n h₂).1
  · simp only [hw'] at hm
    by_cases hne : b' = b
    · subst hne; rw [update_self] at hm; cases hm
    · rw [update_of_ne hne] at hm; exact hw.finished b' m hm

/-- Slot `b` after the builder has taken a record into its file. -/
def afterAdd (b : Nat) (file : WritableFile) (bd : BlobFileBuilder) (w : World) : World :=
  { w with
    disk := update w.disk bd.number (some file)
    fg := update w.fg b { w.fg b with builder := some bd } }

theorem appendRecord_cases (h : w.appendRecord o f b r = some (w', st, wb)) :
    ((w.openBuilder f b).2.1 ≠ .ok ∧ w' = (w.openBuilder f b).1 ∧ st = (w.openBuilder f b).2.1 ∧ wb = none) ∨
      (w.openBuilder f b).2.1 = .ok ∧ st = .ok ∧ ∃ file file' bd' handle,
        (w.openBuilder f b).1.disk (w.openBuilder f b).2.2.number = some file ∧
        (w.openBuilder f b).2.2.add o false f.append file r = (file', bd', handle) ∧ wb = some ⟨bd'.number, handle⟩ ∧
        (((w.openBuilder f b).1.afterAdd b file' bd').finishBlob o f.finish b = some w' ∨
          w' = (w.openBuilder f b).1.afterAdd b file' bd') := by
  unfold appendRecord at h
  dsimp only at h
  split at h
  next hst =>
    cases h
    exact .inl ⟨hst, rfl, rfl, rfl⟩
  next hst =>
    simp only [bind_eq_some_iff, map_eq_some_iff, Prod.mk.injEq] at h
    obtain ⟨file, hfile, w₃, hroll, rfl, rfl, rfl⟩ := h
    rcases hadd : (w.openBuilder f b).2.2.add o false f.append file r with ⟨file', bd', handle⟩
    rw [hadd] at hroll
    refine .inr ⟨not_not.1 hst, rfl, file, file', bd', handle, hfile, hadd, rfl, ?_⟩
    split at hroll
    · exact .inl hroll
    · exact .inr (some.inj hroll).symm

theorem afterAdd_spec {bd bd' : BlobFileBuilder} {file file' : WritableFile} {handle : BlobHandle} (hw : FgWf w)
    (hbd : (w.fg b).builder = some bd) (hfile : w.disk bd.number = some file)
    (hadd : bd.add o false f.append file r = (file', bd', handle)) :
    FgWf (w.afterAdd b file' bd') ∧ Quiet w (w.afterAdd b file' bd') ∧
      ∀ b', (w.afterAdd b file' bd').owned b' = w.owned b' := by
  obtain ⟨hgrow, hnum, -⟩ := add_spec hadd
  have hown : (w.afterAdd b file' bd').owned b = w.owned b := by simp [afterAdd, owned, hbd, hnum]
  have hdisk : (w.afterAdd b file' bd').disk = update w.disk bd.number (some file') := by rw [← hnum]; rfl
  obtain ⟨hwf, hq⟩ := hw.replace (mem_owned_of_builder hbd) hfile hgrow hdisk rfl rfl rfl hown (hw.finished b)
  refine ⟨hwf, hq, fun b' => ?_⟩
  by_cases hb : b' = b
  · rw [hb, hown]
  · simp only [owned, afterAdd, update_of_ne hb]

theorem appendRecord_spec (hw : FgWf w) (h : w.appendRecord o f b r = some (w', st, wb)) :
    FgWf w' ∧ Quiet w w' ∧ (f.newFile = none → st = .ok) ∧
      (st = .ok → FgHealthy w → f.header = none → f.addBuildingFile = none → f.append = none →
        FgHealthy w' ∧ ∃ i, wb = some i ∧ (Encodable o false r → w'.readFile o false i = some r) ∧
          i.fileNumber ∈ w'.owned b) := by
  obtain ⟨hw₁, hq₁, hnew, hslot, hh₁⟩ := openBuilder_spec hw f b
  rcases appendRecord_cases h with ⟨hst, rfl, rfl, rfl⟩ | ⟨hst, rfl, file, file', bd', handle, hfile, hadd, rfl, hroll⟩
  · exact ⟨hw₁, hq₁, hnew, fun h => absurd h hst⟩
  have hbd := hslot hst
  obtain ⟨hwf₂, hq₂, hown⟩ := afterAdd_spec hw₁ hbd hfile hadd
  obtain ⟨hwf₃, hq₃, hh₃, hown₃⟩ : FgWf w' ∧ Quiet ((w.openBuilder f b).1.afterAdd b file' bd') w' ∧
      (FgHealthy ((w.openBuilder f b).1.afterAdd b file' bd') → FgHealthy w') ∧
      w'.owned b = ((w.openBuilder f b).1.afterAdd b file' bd').owned b := by
    rcases hroll with hroll | rfl
    · obtain ⟨h₁, h₂, h₃, -, -, h₄⟩ := finishBlob_spec hwf₂ hroll
      exact ⟨h₁, h₂, h₃, h₄ b⟩
    · exact ⟨hwf₂, .refl _, id, rfl⟩
  refine ⟨hwf₃, hq₁.trans (hq₂.trans hq₃), fun _ => rfl, fun _ hh hhead hbuild happ => ?_⟩
  have hh₁ := hh₁ hh hhead hbuild
  have hbdok := hh₁.status b _ hbd
  obtain ⟨-, hnum, -⟩ := add_spec hadd
  rw [happ, add_of_ok hbdok] at hadd
  cases hadd
  refine ⟨hh₃ (hh₁.replace rfl rfl (hown b) ?_), _, rfl, fun he => readFile_of_grows hq₃.grows ?_, ?_⟩
  · rintro _ ⟨⟩; simpa using hbdok
  · exact readFile_appended he (update_self ..)
  · rw [hown₃, hown, hnum]; exact mem_owned_of_builder hbd

theorem openBuilder_building (hf : FgBuilding w) (hadd : f.addBuildingFile = none) : FgBuilding (w.openBuilder f b).1 := by
  unfold openBuilder
  cases hbd : (w.fg b).builder with
  | some bd => exact hf
  | none =>
    dsimp only [newFile]
    by_cases hnew : f.newFile = none
    · simp only [if_pos hnew, ne_eq, not_true, if_false]
      exact hf.adopt hbd rfl rfl (if_pos hadd)
    · simp only [hnew, if_false, ne_eq, Fault.status_eq_ok, not_false_iff, if_true]
      exact hf

/-- The index handed out names a file of the builder; that file can be read if `AddBuildingFile` could open it. -/
theorem appendRecord_building (hw : FgWf w) (hf : FgBuilding w)
    (hadd : f.addBuildingFile = none) (h : w.appendRecord o f b r = some (w', st, wb)) :
    FgBuilding w' ∧ ∀ i, wb = some i → i.fileNumber ∈ w'.owned b := by
  obtain ⟨hw₁, -, -, hslot, -⟩ := openBuilder_spec hw f b
  have hf₁ : FgBuilding (w.openBuilder f b).1 := openBuilder_building hf hadd
  rcases appendRecord_cases h with ⟨-, rfl, rfl, rfl⟩ | ⟨hst, rfl, file, file', bd', handle, hfile, hadd, rfl, hroll⟩
  · exact ⟨hf₁, nofun⟩
  have hbd := hslot hst
  obtain ⟨-, hnum, -⟩ := add_spec hadd
  obtain ⟨hwf₂, -, hown⟩ := afterAdd_spec hw₁ hbd hfile hadd
  have hf₂ : FgBuilding ((w.openBuilder f b).1.afterAdd b file' bd') := fun b' n hn => hf₁ b' n (hown b' ▸ hn)
  have hmem : bd'.number ∈ ((w.openBuilder f b).1.afterAdd b file' bd').owned b := by
    rw [hown, hnum]; exact mem_owned_of_builder hbd
  rcases hroll with hroll | rfl
  · obtain ⟨-, -, -, hset, -, hown₃⟩ := finishBlob_spec hwf₂ hroll
    refine ⟨fun b' n hn => ?_, ?_⟩
    · rw [storage, hset]; exact hf₂ b' n (hown₃ b' ▸ hn)
    · rintro _ ⟨⟩; rw [hown₃]; exact hmem
  · exact ⟨hf₂, by rintro _ ⟨⟩; exact hmem⟩

/-- An index into a healthy builder's file leads to what its bytes say. -/
theorem resolve_owned (hw : FgWf w) (hh : FgHealthy w) (hsep : o.sepBeforeFlush = true) {i : BlobIndex}
    (hi : i.fileNumber ∈ w.owned b) (hr : w.readFile o false i = some r) : w.resolve o i = some r :=
  resolve_eq_some.2 (.inr ⟨(hw.owned_some b _ hi).2, hsep, hh.building b _ hi, hr⟩)

/-- After a quiet change the entry `e` stands for `v`; an index names a foreground builder's file. -/
structure Prepared (o : Options) (v : Slice) (w w₁ : World) (e : LsmEntry) : Prop where
  fgWf : FgWf w₁
  fgHealthy : FgHealthy w₁
  quiet : Quiet w w₁
  value : w₁.entryValue o (some e) = .value v
  owned : ∀ i, e = .blobIndex i → ∃ b, i.fileNumber ∈ w₁.owned b

/-- Whether a Put goes through the foreground builder. -/
def putSeparates (o : Options) (v : Slice) : Bool := o.sepBeforeFlush && separates o v

theorem putEntry_inline (h : putSeparates o v = false) : w.putEntry o f k v = some (w, some (.value v)) := by
  unfold putEntry
  by_cases hsep : o.sepBeforeFlush = true
  · have hs : separates o v = false := by simpa [putSeparates, hsep] using h
    simp [hsep, foregroundAdd, hs]
  · simp [hsep]

theorem putEntry_spec {e : Option LsmEntry} (hw : FgWf w) (hh : FgHealthy w)
    (h : w.putEntry o {} k v = some (w', e)) (hk : k ≠ [] ∧ Encodable o false ⟨k, v⟩ ∨ putSeparates o v = false) :
    ∃ e', e = some e' ∧ Prepared o v w w' e' := by
  cases hsep : putSeparates o v with
  | false =>
    rw [putEntry_inline hsep] at h
    cases h
    exact ⟨_, rfl, hw, hh, .refl _, rfl, nofun⟩
  | true =>
    obtain ⟨hne, henc⟩ := hk.resolve_right (by simp [hsep])
    rw [putSeparates, Bool.and_eq_true] at hsep
    simp only [putEntry, foregroundAdd, hsep.1, hsep.2, hne, if_true, if_false, Bool.true_eq_false,
      map_eq_some_iff, Prod.exists] at h
    obtain ⟨w₁, st, wb, happ, h⟩ := h
    obtain ⟨hw₁, hq₁, hst, hok⟩ := appendRecord_spec hw happ
    obtain rfl := hst rfl
    obtain ⟨hh₁, i, rfl, hread, hown⟩ := hok rfl hh rfl rfl rfl
    obtain ⟨rfl, rfl⟩ := h
    refine ⟨_, rfl, hw₁, hh₁, hq₁, ?_, ?_⟩
    · simp only [entryValue, resolve_owned hw₁ hh₁ hsep.1 hown (hread henc)]
    · rintro _ ⟨⟩; exact ⟨_, hown⟩

theorem put_spec (hw : FgWf w) (hh : FgHealthy w) (h : w.put o {} k v = some w')
    (hk : k ≠ [] ∧ Encodable o false ⟨k, v⟩ ∨ putSeparates o v = false) :
    ∃ w₁ e, Prepared o v w w₁ e ∧ w' = { w₁ with db := w₁.db.write k (some e) .user } := by
  simp only [put, map_eq_some_iff, Prod.exists] at h
  obtain ⟨w₁, e, he, rfl⟩ := h
  obtain ⟨e', rfl, hp⟩ := putEntry_spec hw hh he hk
  exact ⟨w₁, e', hp, rfl⟩

end World

end ValueSep.DiffKV
