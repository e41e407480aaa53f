import ValueSep.DiffKV.Client

/-!
# Point reads

`TitanDBImpl::GetImpl` and `BlobStorage::Get`. A registered file is read through `BlobFileReader`, a file still
being built through the reader that `AddBuildingFile` has opened on it; both see flushed bytes only. The record
that `ReadBuildingFile` returns lies in a buffer of its own that is gone when it returns, so what `GetImpl` then
copies is whatever that memory yields: `freed` is that answer.
-/

namespace ValueSep.DiffKV

open Option WritableFile Exec

namespace World

variable (o : Options) (freed : Slice → Slice) (w : World)

/-- `ReadBuildingFile`, with the copy of the value. -/
def readBuildingFile (i : BlobIndex) : Except Status Slice :=
  if w.storage.findBuildingFile i.fileNumber then
    match w.disk i.fileNumber with
    | none => .error (.ioError "")
    | some file =>
      match readRecord o.codec false file.flushed i.blobHandle with
      | .error e => .error e
      | .ok r => .ok (freed r.value)
  else .error (.corruption ("File " ++ toString i.fileNumber ++ " not exist"))

/-- `BlobFileCache::Get` on a registered file. -/
def readRegisteredFile (m : BlobFileMeta) (i : BlobIndex) : Except Status Slice :=
  match w.disk i.fileNumber with
  | none => .error (.ioError "")
  | some file =>
    match openReader o m.fileSize file.flushed with
    | .ok =>
      match readRecord o.codec (readsOnlyValue o m) file.flushed i.blobHandle with
      | .error e => .error e
      | .ok r => .ok r.value
    | st => .error st

/-- `BlobStorage::Get`, with the copy of the value. -/
def getBlob (i : BlobIndex) : Except Status Slice :=
  match w.storage.findFile i.fileNumber with
  | some m => w.readRegisteredFile o m i
  | none =>
    if o.sepBeforeFlush then w.readBuildingFile o freed i
    else .error (.corruption ("Missing blob file: " ++ toString i.fileNumber))

/-- What `GetImpl` makes of an LSM entry; no value is `NotFound`. -/
def getEntry : Option LsmEntry → Except Status (Option Slice)
  | none => .ok none
  | some (.value v) => .ok (some v)
  | some (.blobIndex i) => (w.getBlob o freed i).map some

/-- `TitanDBImpl::Get` at the latest sequence number. -/
def get (k : Slice) : Except Status (Option Slice) := w.getEntry o freed (w.db.get k)

/-! ### Reading what has been flushed -/

variable {o freed w} {m : BlobFileMeta} {r : BlobRecord} {i : BlobIndex}

/-- All of the record has left the writer's buffer. -/
def Flushed (w : World) (i : BlobIndex) : Prop :=
  i.blobHandle.size ≠ 0 ∧
    ∃ file, w.disk i.fileNumber = some file ∧ i.blobHandle.offset + i.blobHandle.size ≤ file.flushed.length

instance (w : World) (i : BlobIndex) : Decidable (w.Flushed i) :=
  match h : w.disk i.fileNumber with
  | none => .isFalse fun ⟨_, file, hf, _⟩ => by rw [h] at hf; cases hf
  | some file => decidable_of_iff
      (i.blobHandle.size ≠ 0 ∧ i.blobHandle.offset + i.blobHandle.size ≤ file.flushed.length) (by simp [Flushed, h])

end World

open Coding in
theorem length_readAt (content : Bytes) (offset size : Nat) :
    (readAt content offset size).length = min size (content.length - offset) := by
  simp [readAt]

section

variable {c : Codec} {onlyValue : Bool} {content flushed buf : Coding.Bytes} {handle : BlobHandle} {r : BlobRecord}

theorem bounds_of_readRecord (h : readRecord c onlyValue content handle = .ok r) :
    0 < handle.size ∧ handle.offset + handle.size ≤ content.length := by
  unfold readRecord at h
  dsimp only at h
  split at h
  · cases h
  next hlen =>
    rw [length_readAt] at hlen
    have hpos : 0 < handle.size := by
      by_contra hzero
      have hnil : readAt content handle.offset handle.size = [] := by simp [readAt, show handle.size = 0 by omega]
      rw [hnil] at h
      cases h
    omega

theorem readRecord_flushed (h : readRecord c onlyValue (flushed ++ buf) handle = .ok r)
    (hle : handle.offset + handle.size ≤ flushed.length) : readRecord c onlyValue flushed handle = .ok r := by
  have hlen : (readAt flushed handle.offset handle.size).length = handle.size := by rw [length_readAt]; omega
  simpa only [readRecord, readAt_append hlen] using h

end

namespace World

variable {o : Options} {freed : Slice → Slice} {w : World} {m : BlobFileMeta} {r : BlobRecord} {i : BlobIndex}

theorem readFile_eq_some {onlyValue : Bool} : w.readFile o onlyValue i = some r ↔
    ∃ file, w.disk i.fileNumber = some file ∧ readRecord o.codec onlyValue file.content i.blobHandle = .ok r := by
  simp only [readFile, bind_eq_some_iff]
  refine exists_congr fun file => and_congr_right fun _ => ?_
  cases readRecord o.codec onlyValue file.content i.blobHandle <;> simp [Except.toOption]

theorem readRegisteredFile_of_complete (hc : Complete o w m) (hn : m.fileNumber = i.fileNumber)
    (hr : w.readFile o (readsOnlyValue o m) i = some r) : w.readRegisteredFile o m i = .ok r.value := by
  obtain ⟨file, data, hfile, hbuf, hsize, hcontent⟩ := hc
  rw [hn] at hfile
  obtain ⟨file', hfile', hread⟩ := readFile_eq_some.1 hr
  obtain rfl : file = file' := by rw [hfile] at hfile'; exact some.inj hfile'
  have hflushed : file.flushed = file.content := by simp [content, hbuf]
  have hlen : file.fileSize = data.length + kBlobFooterSize := by
    rw [fileSize, hcontent, List.length_append, length_encodeFooter]
  have hopen : openReader o m.fileSize file.flushed = .ok := by
    rw [hflushed, hcontent, hsize, hlen]
    exact openReader_encodeFooter o data
  simp only [readRegisteredFile, hfile, hopen]
  rw [hflushed, hread]

theorem getEntry_blobIndex_eq_ok {v : Slice} :
    w.getEntry o freed (some (.blobIndex i)) = .ok (some v) ↔ w.getBlob o freed i = .ok v := by
  rw [getEntry]
  cases w.getBlob o freed i <;> simp [Except.map]

theorem not_lost_of_found (hw : FgWf w) (hm : (w.storage.findFile i.fileNumber).isSome) : ¬ w.Lost i := by
  rintro ⟨b, bd, file, hbd, -, hnum, -⟩
  rw [← hnum, (hw.owned_some b _ (mem_owned_of_builder hbd)).2] at hm
  cases hm

/-- A file still being built gives a value exactly when the record is in it and flushed. -/
theorem readBuildingFile_eq_ok (hs : Stored o w r i) (henc : Encodable o false r) {v : Slice} :
    w.readBuildingFile o freed i = .ok v ↔ w.storage.findBuildingFile i.fileNumber = true ∧ w.Flushed i ∧ freed r.value = v := by
  unfold readBuildingFile
  by_cases hb : w.storage.findBuildingFile i.fileNumber = true
  swap
  · simp [hb]
  obtain ⟨file, hfile, hread⟩ : ∃ file, w.disk i.fileNumber = some file ∧
      (readRecord o.codec false file.content i.blobHandle = .ok r ∨
        i.blobHandle.size = 0 ∨ file.fileSize < i.blobHandle.offset + i.blobHandle.size) := by
    rcases hs with hr | ⟨b, bd, file, -, -, hnum, hfile, hshort⟩
    · obtain ⟨file, hfile, hread⟩ := readFile_eq_some.1 (hr henc)
      exact ⟨file, hfile, .inl hread⟩
    · exact ⟨file, hnum ▸ hfile, .inr hshort⟩
  have hle : file.flushed.length ≤ file.fileSize := by simp [fileSize, content]
  have hflushed : w.Flushed i ↔ i.blobHandle.size ≠ 0 ∧
      i.blobHandle.offset + i.blobHandle.size ≤ file.flushed.length := by simp [Flushed, hfile]
  simp only [hfile, hb, true_and]
  by_cases hf : w.Flushed i
  · obtain ⟨hpos, hin⟩ := hflushed.1 hf
    have hok := hread.resolve_right (by omega)
    rw [readRecord_flushed hok hin]
    simp [hf]
  · -- what is read from the flushed bytes would have been flushed
    have herr : ∀ r', readRecord o.codec false file.flushed i.blobHandle ≠ .ok r' := fun r' h =>
      hf (hflushed.2 ⟨(bounds_of_readRecord h).1.ne', (bounds_of_readRecord h).2⟩)
    cases hrec : readRecord o.codec false file.flushed i.blobHandle with
    | error e => simp [hf]
    | ok r' => exact absurd hrec (herr r')

theorem getBlob_eq_ok (hsep : o.sepBeforeFlush = true) (hok : ClientOk o w) (hb : Backed o w r i)
    (henc : Encodable o false r) :
    w.getBlob o freed i = .ok r.value ↔ (w.storage.findFile i.fileNumber).isSome = true ∨
      w.storage.findBuildingFile i.fileNumber = true ∧ w.Flushed i ∧ freed r.value = r.value := by
  unfold getBlob
  cases hm : w.storage.findFile i.fileNumber with
  | some m =>
    have hread := hb.stored.resolve_right (not_lost_of_found hok.fgWf (by rw [hm]; rfl)) henc
    have hmode : readsOnlyValue o m = false := by simp [readsOnlyValue, hb.found m hm]
    have hget := readRegisteredFile_of_complete (hok.found _ m hm) (BlobStorage.fileNumber_of_findFile hm)
      (by rw [hmode]; exact hread)
    simp [hget]
  | none =>
    simp only [hsep, if_true, isSome_none, Bool.false_eq_true, false_or]
    exact readBuildingFile_eq_ok hb.stored henc

end World

namespace System

open World

variable {o : Options} {freed : Slice → Slice} {s₀ s : System} {es : List SysEvent} {k v : Slice}

/-- After any run of clients and seals, a Get returns the value of the key's last acknowledged Put, if its record is not
too large for the format, exactly when the Put was not taken for a flush marker, and the file its value went to is
registered, or is still being built with all of the record flushed and the freed memory intact. -/
theorem get_acked_iff (h : ClientStart o s₀) (hes : ∀ e ∈ es, e.isClient = true)
    (hrun : Exec.run (System.step o) s₀ es = some s) (hk : s.acked.lookup k = some (some v))
    (henc : ∀ i, s.world.db.get k = some (.blobIndex i) → Encodable o false ⟨k, v⟩) :
    s.world.get o freed k = .ok (some v) ↔ (k = [] → separates o v = false) ∧
      ∀ i, s.world.db.get k = some (.blobIndex i) → (s.world.storage.findFile i.fileNumber).isSome = true ∨
        s.world.storage.findBuildingFile i.fileNumber = true ∧ s.world.Flushed i ∧ freed v = v := by
  have hinv := h.run hes hrun
  unfold World.get
  rcases hinv.acked k _ hk with (hval | ⟨i, hidx, hb⟩) | ⟨rfl, hv⟩
  · -- inline; the empty key holds inline values of unseparated size only
    rw [hval]
    refine iff_of_true rfl ⟨?_, nofun⟩
    rintro rfl
    obtain ⟨v', heq, hv'⟩ := hinv.emptyKey _ hval
    cases heq
    exact hv'
  · have hne : k ≠ [] := by
      rintro rfl
      obtain ⟨v', heq, -⟩ := hinv.emptyKey _ hidx
      cases heq
    have hget : s.world.getBlob o freed i = .ok v ↔ _ := getBlob_eq_ok h.mode hinv.ok hb (henc i hidx)
    rw [hidx, getEntry_blobIndex_eq_ok, hget]
    constructor
    · intro hcond
      refine ⟨fun hnil => absurd hnil hne, ?_⟩
      rintro _ ⟨⟩
      exact hcond
    · exact fun hcond => hcond.2 i rfl
  · refine iff_of_false (fun hget => ?_) fun hcond => ?_
    · cases he : s.world.db.get [] with
      | none => rw [he] at hget; cases hget
      | some e =>
        obtain ⟨v', rfl, hv'⟩ := hinv.emptyKey e he
        rw [he] at hget
        cases hget
        rw [hv] at hv'; cases hv'
    · rw [hcond.1 rfl] at hv; cases hv

/-- The value is read once a seal has registered its file. -/
theorem get_acked_sealed :
    ∃ s, run (step (.small true false)) fresh [.putAdd {} [1] [10], .putWrite 0 none, .sealSlot 0 {}] = some s ∧
      s.world.get (.small true false) (fun _ => []) [1] = .ok (some [10]) := by
  refine exists_of_map (fun s => (s.acked, s.world.db.get [1], (s.world.storage.findFile 1).isSome))
    ([([1], some [10])], some (.blobIndex ⟨1, ⟨8, 13⟩⟩), true) (by decide +kernel) fun s hrun heq => ?_
  simp only [Prod.mk.injEq] at heq
  obtain ⟨hacked, hget, hfound⟩ := heq
  have henc : Encodable (.small true false) false ⟨[1], [10]⟩ := by decide
  refine (get_acked_iff clientStart_fresh (by decide) hrun (by rw [hacked]; rfl) fun _ _ => henc).2
    ⟨nofun, fun i hi => ?_⟩
  rw [hget] at hi
  cases hi
  exact .inl hfound

/-- The record of the only Put so far is all in the writer's buffer. -/
theorem get_unflushed_record :
    ClientStart (.small true false) fresh ∧
      (run (step (.small true false)) fresh [.putAdd {} [1] [10], .putWrite 0 none]).map
        (fun s => (s.acked, s.world.get (.small true false) id [1])) =
      some ([([1], some [10])], .error (.corruption "ReadRecord actual size: 0 not equal to blob size 13")) :=
  ⟨clientStart_fresh, by decide +kernel⟩

end System

end ValueSep.DiffKV
