import ValueSep.DiffKV.Format
import ValueSep.Lib.Exec
import ValueSep.Lib.Heap

/-!
# Where the slices of a record live

`BlobStorage::Get` returns slices. This module follows the memory behind them: the scratch buffer of
`ReadRecord`, the output of `Uncompress`, the `OwnedSlice` that moves into the blob cache or under the cleanup of the
caller's `PinnableSlice`, the local `OwnedSlice` of `ReadBuildingFile`, and the mapping of the file that a read
returns when the environment reads through mmap. The blob cache is used through its contract: an entry is deleted
when it is out of the table and no handle to it is left.

A file only grows, so every record is read from the bytes its file has in the end; a read that is too early, or
fails otherwise, is a `readError`.
-/

namespace ValueSep.DiffKV

open Coding Exec
open List Function Option BlobRecord Prod

structure ReadConfig where
  codec : Codec
  /-- `blob_cache` is set. -/
  cache : Bool
  /-- `EnvOptions::use_mmap_reads`: `RandomAccessFile::Read` returns a slice of the mapping. -/
  mmap : Bool
  bytes : Nat → Bytes

/-- The compression byte of the record header at `offset`. -/
def ReadConfig.compressed (c : ReadConfig) (file offset : Nat) : Bool :=
  match (c.bytes file)[offset + 8]? with
  | some type => type != kNoCompression
  | none => false

/-- One call of `BlobStorage::Get`, with what its environment answers. -/
structure ReadCall where
  index : BlobIndex
  /-- `FindFile` has found nothing and `FindBuildingFile` a reader. -/
  building : Bool
  onlyValue : Bool
  readError : Option Status
  /-- The lookup came before the insertion of another call for the same record. -/
  lookupEarly : Bool
  /-- `Cache::Insert` fails: the cache is full and its limit is strict. -/
  insertFails : Bool

/-- `OwnedSlice`: the block of `buffer_`, the block that `data_` points into, and the bytes. -/
structure OwnedSlice where
  buffer : Nat
  data : Nat
  bytes : Bytes

/-- A record, and whether its slices stay inside the buffer they point into. -/
structure Fetched where
  record : BlobRecord
  inside : Bool
deriving DecidableEq

structure CacheEntry where
  file : Nat
  offset : Nat
  value : OwnedSlice
  refs : Nat

/-- What a `PinnableSlice` runs when it is reset: `UnrefCacheHandle` (on the handle that `Insert` has left) or
`OwnedSlice::CleanupFunc`. -/
inductive Cleanup
  | release (e : Option Nat)
  | delete (b : Nat)
deriving DecidableEq

structure Mem where
  heap : Heap
  nextEntry : Nat
  entries : Nat → Option CacheEntry
  table : Nat → Nat → Option Nat
  /-- The mapping of the open reader of a file, in `building_files_` or in the file cache. -/
  readers : Bool → Nat → Option Nat
  /-- The callers' slices that are pinned. -/
  buffers : List (Nat × Cleanup)

namespace Mem

def empty : Mem := ⟨.empty, 0, fun _ => none, fun _ _ => none, fun _ _ => none, []⟩

def free (m : Mem) (b : Nat) : Mem := { m with heap := m.heap.free b }

/-- The reader that serves the call; in mmap mode opening it maps the file. -/
def mapFile (c : ReadConfig) (building : Bool) (file : Nat) (m : Mem) : Mem × Option Nat :=
  if c.mmap then
    match m.readers building file with
    | some b => (m, some b)
    | none => ({ m with
        heap := m.heap.alloc.1
        readers := fun k n => if k = building ∧ n = file then some m.heap.next else m.readers k n }, some m.heap.next)
  else (m, none)

/-- `BlobDecoder::DecodeRecord` into `buffer`, which is destroyed on an error. -/
def decodeRecord (c : ReadConfig) (onlyValue : Bool) (h : RecordHeader) (buffer : OwnedSlice) (m : Mem) :
    Mem × Except Status (Fetched × OwnedSlice) :=
  match c.codec.unpack h.compression (c.codec.slice buffer.bytes h.recordSize) with
  | .error e => (m.free buffer.buffer, .error e)
  | .ok raw =>
    if h.compression = kNoCompression then
      match decodeInto onlyValue raw with
      | .error e => (m.free buffer.buffer, .error e)
      | .ok r => (m, .ok (⟨r, h.recordSize ≤ buffer.bytes.length⟩, buffer))
    else
      -- `Uncompress` resets the slice to its output, and with it goes the block that was read into
      let out := m.heap.next
      let m := { m with heap := m.heap.alloc.1.free buffer.buffer }
      match decodeInto onlyValue raw with
      | .error e => (m.free out, .error e)
      | .ok r => (m, .ok (⟨r, true⟩, ⟨out, out, raw⟩))

/-- `BlobFileReader::ReadRecord`, and the body of `ReadBuildingFile` up to its last line. -/
def readRecord (c : ReadConfig) (call : ReadCall) (m : Mem) : Mem × Except Status (Fetched × OwnedSlice) :=
  let file := call.index.fileNumber
  let handle := call.index.blobHandle
  let opened := m.mapFile c call.building file
  let ubuf := opened.1.heap.next
  let m := { opened.1 with heap := opened.1.heap.alloc.1 }
  match call.readError with
  | some st => (m.free ubuf, .error st)
  | none =>
    let blob := readAt (c.bytes file) handle.offset handle.size
    if handle.size ≠ blob.length then
      (m.free ubuf, .error (.corruption ("ReadRecord actual size: " ++ toString blob.length ++
        " not equal to blob size " ++ toString handle.size)))
    else
      match decodeHeader blob with
      | .error e => (m.free ubuf, .error e)
      | .ok (h, src) => m.decodeRecord c call.onlyValue h ⟨ubuf, opened.2.getD ubuf, src⟩

/-- The cache deletes an entry. -/
def dropEntry (e : Nat) (en : CacheEntry) (m : Mem) : Mem :=
  { m with heap := m.heap.free en.value.buffer, entries := update m.entries e none }

/-- `Cache::Lookup`. -/
def lookup (file offset : Nat) (m : Mem) : Option (Nat × CacheEntry) :=
  (m.table file offset).bind fun e => (m.entries e).map fun en => (e, en)

/-- An entry leaves the table: it is erased, displaced by another insertion, or the cache needs the room. -/
def evict (file offset : Nat) (m : Mem) : Mem :=
  match m.lookup file offset with
  | none => m
  | some (e, en) =>
    let m := { m with table := fun f o => if f = file ∧ o = offset then none else m.table f o }
    if en.refs = 0 then m.dropEntry e en else m

/-- `Cache::Release`. -/
def release (e : Nat) (m : Mem) : Mem :=
  match m.entries e with
  | none => m
  | some en =>
    if en.refs - 1 = 0 ∧ m.table en.file en.offset ≠ some e then m.dropEntry e en
    else { m with entries := update m.entries e (some { en with refs := en.refs - 1 }) }

def addEntry (buf : Nat) (i : BlobIndex) (blob : OwnedSlice) (m : Mem) : Mem :=
  { m with
    nextEntry := m.nextEntry + 1
    entries := update m.entries m.nextEntry (some ⟨i.fileNumber, i.blobHandle.offset, blob, 1⟩)
    table := fun f o => if f = i.fileNumber ∧ o = i.blobHandle.offset then some m.nextEntry else m.table f o
    buffers := (buf, .release (some m.nextEntry)) :: m.buffers }

/-- `Cache::Insert`, leaving a handle, and `PinSlice`. -/
def insert (buf : Nat) (i : BlobIndex) (blob : OwnedSlice) (m : Mem) : Mem :=
  (m.evict i.fileNumber i.blobHandle.offset).addEntry buf i blob

/-- The part of `BlobFileReader::Get` behind the cache lookup: who owns the `OwnedSlice` from now on. -/
def pin (c : ReadConfig) (buf : Nat) (call : ReadCall) (blob : OwnedSlice) (m : Mem) : Mem :=
  if c.cache then
    if call.insertFails then { m with buffers := (buf, .release none) :: m.buffers }
    else m.insert buf call.index blob
  else { m with buffers := (buf, .delete blob.buffer) :: m.buffers }

/-- `BlobFileReader::Get`: the record and the block that its slices point into. -/
def getRegistered (c : ReadConfig) (buf : Nat) (call : ReadCall) (m : Mem) : Mem × Except Status (Fetched × Nat) :=
  match if c.cache && !call.lookupEarly then m.lookup call.index.fileNumber call.index.blobHandle.offset else none with
  | some (e, en) =>
    ({ m with
        entries := update m.entries e (some { en with refs := en.refs + 1 })
        buffers := (buf, .release (some e)) :: m.buffers },
      match decodeInto call.onlyValue en.value.bytes with
      | .error e => .error e
      | .ok r => .ok (⟨r, true⟩, en.value.data))
  | none =>
    match m.readRecord c call with
    | (m, .error st) => (m, .error st)
    | (m, .ok (r, blob)) => (m.pin c buf call blob, .ok (r, blob.data))

/-- `ReadBuildingFile`: its `OwnedSlice` is a local variable. -/
def getBuilding (c : ReadConfig) (call : ReadCall) (m : Mem) : Mem × Except Status (Fetched × Nat) :=
  match m.readRecord c call with
  | (m, .error st) => (m, .error st)
  | (m, .ok (r, blob)) => (m.free blob.buffer, .ok (r, blob.data))

/-- `BlobStorage::Get`. -/
def get (c : ReadConfig) (buf : Nat) (call : ReadCall) (m : Mem) : Mem × Except Status (Fetched × Nat) :=
  if call.building then m.getBuilding c call else m.getRegistered c buf call

/-- `PinnableSlice::Reset`. -/
def reset (buf : Nat) (m : Mem) : Mem :=
  match m.buffers.lookup buf with
  | none => m
  | some cleanup =>
    let m := { m with buffers := m.buffers.erase (buf, cleanup) }
    match cleanup with
    | .delete b => m.free b
    | .release none => m
    | .release (some e) => m.release e

/-- The file cache, or `AddBlobFile`, lets a reader go. -/
def closeReader (building : Bool) (file : Nat) (m : Mem) : Mem :=
  match m.readers building file with
  | none => m
  | some b => { m with
      heap := m.heap.free b
      readers := fun k n => if k = building ∧ n = file then none else m.readers k n }

end Mem

inductive MemEvent
  | get (buf : Nat) (call : ReadCall)
  | reset (buf : Nat)
  | evict (file offset : Nat)
  | closeReader (building : Bool) (file : Nat)

def Mem.inUse (m : Mem) (buf : Nat) : Bool := (m.buffers.map fst).contains buf

/-- A call brings a `PinnableSlice` that is not in use. -/
def memStep (c : ReadConfig) (m : Mem) : MemEvent → Option Mem
  | .get buf call => if m.inUse buf then none else some (m.get c buf call).1
  | .reset buf => some (m.reset buf)
  | .evict file offset => some (m.evict file offset)
  | .closeReader building file => some (m.closeReader building file)

/-- What a read at the index returns. -/
def ReadConfig.blob (c : ReadConfig) (i : BlobIndex) : Bytes :=
  readAt (c.bytes i.fileNumber) i.blobHandle.offset i.blobHandle.size

variable {c : ReadConfig} {call : ReadCall} {m m' : Mem}

theorem ReadConfig.compressed_of_decodeHeader {file : Nat} {handle : BlobHandle} {h : RecordHeader} {src : Bytes}
    (hh : decodeHeader (readAt (c.bytes file) handle.offset handle.size) = .ok (h, src)) :
    c.compressed file handle.offset = (h.compression != kNoCompression) := by
  set s := readAt (c.bytes file) handle.offset handle.size with hs
  have hbyte : s[8]? = some h.compression := by
    rw [← head?_drop, (of_decodeHeader hh).2.1]
    rfl
  have hread : (c.bytes file)[handle.offset + 8]? = some h.compression := by
    rw [hs, readAt, getElem?_take] at hbyte
    split at hbyte
    · rw [getElem?_drop] at hbyte; exact hbyte
    · cases hbyte
  simp only [ReadConfig.compressed, hread]

/-! ### Ownership -/

inductive Owner
  | reading
  | entry (e : Nat)
  | buffer (buf : Nat)
  | reader (building : Bool) (file : Nat)
  | leaked
deriving DecidableEq

/-- The slices of the record lie in the block that is read into, or in the output of `Uncompress`. -/
def ReadConfig.SelfContained (c : ReadConfig) (i : BlobIndex) : Prop :=
  c.mmap = true → c.compressed i.fileNumber i.blobHandle.offset = true

instance (c : ReadConfig) (i : BlobIndex) : Decidable (c.SelfContained i) := inferInstanceAs (Decidable (_ → _))

def CacheEntry.index (en : CacheEntry) : BlobIndex := ⟨en.file, en.offset, 0⟩

namespace Mem

/-- Every block has one owner, the references of an entry are the buffers pinned on it, and an entry points into
its own block or into the mapping of a reader, which may be gone. -/
structure Owns (c : ReadConfig) (own : Nat → Option Owner) (m : Mem) : Prop where
  heap : m.heap.Owned own
  entry : ∀ e en, m.entries e = some en → own en.value.buffer = some (.entry e)
  fresh : ∀ e, m.nextEntry ≤ e → m.entries e = none
  inside : ∀ e en, m.entries e = some en → c.SelfContained en.index → en.value.data = en.value.buffer
  mapped : ∀ e en, m.entries e = some en → ¬ c.SelfContained en.index →
    m.readers false en.file = some en.value.data ∨ en.value.data < m.heap.next ∧ own en.value.data = none
  table : ∀ f o e, m.table f o = some e → ∃ en, m.entries e = some en ∧ en.file = f ∧ en.offset = o
  reader : ∀ k n b, m.readers k n = some b → own b = some (.reader k n)
  delete : ∀ buf b, (buf, .delete b) ∈ m.buffers → own b = some (.buffer buf)
  release : ∀ buf e, (buf, .release (some e)) ∈ m.buffers → ∃ en, m.entries e = some en
  refs : ∀ e en, m.entries e = some en → en.refs = m.buffers.countP fun p => p.2 = .release (some e)
  nodup : (m.buffers.map fst).Nodup

theorem owns_empty (c : ReadConfig) : Owns c (fun _ => none) empty where
  heap := Heap.owned_empty
  entry := nofun
  fresh _ _ := rfl
  inside := nofun
  mapped := nofun
  table := nofun
  reader := nofun
  delete := nofun
  release := nofun
  refs := nofun
  nodup := nodup_nil

/-- As long as `buf` is pinned, the block `d` stays allocated. -/
def Kept (own : Nat → Option Owner) (buf d : Nat) (m : Mem) : Prop :=
  (∃ e en, (buf, .release (some e)) ∈ m.buffers ∧ m.entries e = some en ∧ en.value.buffer = d) ∨
    (buf, .delete d) ∈ m.buffers ∨ own d = some .leaked

variable {own own' : Nat → Option Owner} {buf d : Nat}

theorem Owns.live_of_kept (H : Owns c own m) (hk : Kept own buf d m) : m.heap.live d = true := by
  rcases hk with ⟨e, en, -, he, rfl⟩ | hdel | hleak
  · exact H.heap.live_of_eq_some (H.entry e en he)
  · exact H.heap.live_of_eq_some (H.delete buf d hdel)
  · exact H.heap.live_of_eq_some hleak

/-- A step that adds blocks and readers and leaves the cache and the buffers alone. -/
structure Frame (own own' : Nat → Option Owner) (m m' : Mem) : Prop where
  entries : m'.entries = m.entries
  table : m'.table = m.table
  nextEntry : m'.nextEntry = m.nextEntry
  buffers : m'.buffers = m.buffers
  keeps : ∀ b x, own b = some x → own' b = some x
  dead : ∀ b, b < m.heap.next → own b = none → own' b = none
  next : m.heap.next ≤ m'.heap.next
  readers : ∀ k n b, m.readers k n = some b → m'.readers k n = some b

theorem Frame.kept (F : Frame own own' m m') (hk : Kept own buf d m) : Kept own' buf d m' := by
  rcases hk with ⟨e, en, hbuf, he, hd⟩ | hdel | hleak
  · exact .inl ⟨e, en, by rwa [F.buffers], by rwa [F.entries], hd⟩
  · exact .inr (.inl (by rwa [F.buffers]))
  · exact .inr (.inr (F.keeps d _ hleak))

theorem Frame.refl : Frame own own m m :=
  ⟨rfl, rfl, rfl, rfl, fun _ _ h => h, fun _ _ h => h, le_refl _, fun _ _ _ h => h⟩

theorem Frame.trans {own'' : Nat → Option Owner} {m'' : Mem} (F : Frame own own' m m')
    (F' : Frame own' own'' m' m'') : Frame own own'' m m'' where
  entries := F'.entries.trans F.entries
  table := F'.table.trans F.table
  nextEntry := F'.nextEntry.trans F.nextEntry
  buffers := F'.buffers.trans F.buffers
  keeps := fun b x h => F'.keeps b x (F.keeps b x h)
  dead := fun b hb h => F'.dead b (hb.trans_le F.next) (F.dead b hb h)
  next := F.next.trans F'.next
  readers := fun k n b h => F'.readers k n b (F.readers k n b h)

theorem Frame.owns (F : Frame own own' m m') (H : Owns c own m) (hheap : m'.heap.Owned own')
    (hreader : ∀ k n b, m'.readers k n = some b → own' b = some (.reader k n)) : Owns c own' m' where
  heap := hheap
  entry := by intro e en h; rw [F.entries] at h; exact F.keeps _ _ (H.entry e en h)
  fresh := by intro e h; rw [F.entries]; rw [F.nextEntry] at h; exact H.fresh e h
  inside := by intro e en h; rw [F.entries] at h; exact H.inside e en h
  mapped := by
    intro e en h hs
    rw [F.entries] at h
    rcases H.mapped e en h hs with hr | ⟨hlt, hdead⟩
    · exact .inl (F.readers _ _ _ hr)
    · exact .inr ⟨hlt.trans_le F.next, F.dead _ hlt hdead⟩
  table := by intro f o e h; rw [F.entries]; rw [F.table] at h; exact H.table f o e h
  reader := hreader
  delete := by intro buf b h; rw [F.buffers] at h; exact F.keeps _ _ (H.delete buf b h)
  release := by intro buf e h; rw [F.buffers] at h; rw [F.entries]; exact H.release buf e h
  refs := by intro e en h; rw [F.entries] at h; rw [F.buffers]; exact H.refs e en h
  nodup := by rw [F.buffers]; exact H.nodup

variable {h' : Heap} {res : Except Status (Fetched × OwnedSlice)} {buf' : Nat} {cleanup : Cleanup}

/-- Only the heap changes: blocks that were allocated keep their owners, blocks that were free stay so. -/
theorem Owns.withHeap (H : Owns c own m) (hheap : h'.Owned own') (hnext : m.heap.next ≤ h'.next)
    (heq : ∀ b, b < m.heap.next → own' b = own b) :
    Owns c own' { m with heap := h' } ∧ Frame own own' m { m with heap := h' } := by
  have F : Frame own own' m { m with heap := h' } :=
    ⟨rfl, rfl, rfl, rfl, fun b x hb => (heq b (H.heap.lt_next hb)).trans hb, fun b hlt hb => (heq b hlt).trans hb, hnext,
      fun _ _ _ h => h⟩
  exact ⟨F.owns H hheap fun k n b h => F.keeps b _ (H.reader k n b h), F⟩

/-! ### Reading a record -/

theorem Owns.mapFile (H : Owns c own m) (building : Bool) (file : Nat) :
    let opened := m.mapFile c building file
    ∃ own', Owns c own' opened.1 ∧ Frame own own' m opened.1 ∧ (c.mmap = false → opened.2 = none) ∧
      (c.mmap = true → ∃ b, opened.2 = some b ∧ opened.1.readers building file = some b) := by
  unfold Mem.mapFile
  split
  next hmmap =>
    cases hr : m.readers building file with
    | some b =>
      exact ⟨own, H, .refl, fun h => absurd h (by simp [hmmap]), fun _ => ⟨b, rfl, hr⟩⟩
    | none =>
      have hnew := H.heap.alloc (.reader building file)
      have hold : ∀ b, b < m.heap.next → update own m.heap.next (some (.reader building file)) b = own b :=
        fun b hb => update_of_ne (by omega) ..
      have F : Frame own (update own m.heap.next (some (.reader building file))) m
          { m with heap := m.heap.alloc.1,
                   readers := fun k n => if k = building ∧ n = file then some m.heap.next else m.readers k n } :=
        ⟨rfl, rfl, rfl, rfl, fun b x hb => (hold b (H.heap.lt_next hb)).trans hb, fun b hlt hb => (hold b hlt).trans hb,
          Nat.le_succ _, fun k n b h => (if_neg (by rintro ⟨rfl, rfl⟩; rw [hr] at h; cases h)).trans h⟩
      refine ⟨_, F.owns H hnew ?_, F, fun h => absurd h (by simp [hmmap]), fun _ => ⟨_, rfl, if_pos ⟨rfl, rfl⟩⟩⟩
      intro k n b h
      dsimp only at h
      split at h
      next hkn =>
        obtain ⟨rfl, rfl⟩ := hkn
        cases h
        exact update_self ..
      · exact F.keeps b _ (H.reader k n b h)
  next hmmap =>
    exact ⟨own, H, .refl, fun _ => rfl, fun h => absurd h hmmap⟩

/-- What `DecodeRecord` does with the block it is given: it goes on errors and when it was compressed. -/
theorem decodeRecord_cases {onlyValue : Bool} {h : RecordHeader} {buffer : OwnedSlice}
    (hres : m.decodeRecord c onlyValue h buffer = (m', res)) : (∃ st, res = .error st ∧ (m' = m.free buffer.buffer ∨
        m' = { m with heap := (m.heap.alloc.1.free buffer.buffer).free m.heap.next })) ∨
      (∃ r, res = .ok (⟨r, h.recordSize ≤ buffer.bytes.length⟩, buffer) ∧ m' = m ∧ h.compression = kNoCompression) ∨
      ∃ r raw, res = .ok (⟨r, true⟩, ⟨m.heap.next, m.heap.next, raw⟩) ∧
        m' = { m with heap := m.heap.alloc.1.free buffer.buffer } ∧ h.compression ≠ kNoCompression := by
  unfold decodeRecord at hres
  split at hres
  · cases hres; exact .inl ⟨_, rfl, .inl rfl⟩
  next raw _ =>
    split at hres
    next hcomp =>
      split at hres
      · cases hres; exact .inl ⟨_, rfl, .inl rfl⟩
      next r _ => cases hres; exact .inr (.inl ⟨r, rfl, rfl, hcomp⟩)
    next hcomp =>
      dsimp only at hres
      split at hres
      · cases hres; exact .inl ⟨_, rfl, .inr rfl⟩
      next r _ => cases hres; exact .inr (.inr ⟨r, raw, rfl, rfl, hcomp⟩)

/-- What `ReadRecord` has added to the heap when it returns: nothing on an error, else the block of the
returned slice, which is the first new one or, after `Uncompress`, the second. -/
theorem readRecord_cases (hres : m.readRecord c call = (m', res)) :
    let opened := m.mapFile c call.building call.index.fileNumber
    let h := opened.1.heap
    (∃ st, res = .error st ∧ (m' = { opened.1 with heap := h.alloc.1.free h.next } ∨
        m' = { opened.1 with heap := (h.alloc.1.alloc.1.free h.next).free (h.next + 1) })) ∨
      (∃ r src, res = .ok (r, ⟨h.next, opened.2.getD h.next, src⟩) ∧ m' = { opened.1 with heap := h.alloc.1 } ∧
        c.compressed call.index.fileNumber call.index.blobHandle.offset = false ∧
        (r.inside = true ↔ HoldsRecord (c.blob call.index))) ∨
      ∃ r raw, res = .ok (r, ⟨h.next + 1, h.next + 1, raw⟩) ∧
        m' = { opened.1 with heap := h.alloc.1.alloc.1.free h.next } ∧
        c.compressed call.index.fileNumber call.index.blobHandle.offset = true ∧ r.inside = true := by
  intro opened h
  unfold readRecord at hres
  dsimp only at hres
  split at hres
  · cases hres; exact .inl ⟨_, rfl, .inl rfl⟩
  · split at hres
    · cases hres; exact .inl ⟨_, rfl, .inl rfl⟩
    · split at hres
      · cases hres; exact .inl ⟨_, rfl, .inl rfl⟩
      next header src hh =>
        have hcomp := ReadConfig.compressed_of_decodeHeader hh
        rcases decodeRecord_cases hres with ⟨st, rfl, hm⟩ | ⟨r, rfl, hm, ht⟩ | ⟨r, raw, rfl, hm, ht⟩
        · exact .inl ⟨st, rfl, hm⟩
        · exact .inr (.inl ⟨_, src, rfl, hm, by rw [hcomp, ht]; rfl, by simp [ReadConfig.blob, holdsRecord_iff hh]⟩)
        · exact .inr (.inr ⟨_, raw, rfl, hm, by rw [hcomp]; simpa using ht, rfl⟩)

/-- The slice that `ReadRecord` has filled is nobody else's, and points into its own block unless the record
stands uncompressed in a mapping. -/
structure Filled (c : ReadConfig) (call : ReadCall) (own : Nat → Option Owner) (m : Mem) (blob : OwnedSlice) :
    Prop where
  owner : own blob.buffer = some .reading
  inside : c.SelfContained call.index → blob.data = blob.buffer
  mapped : ¬ c.SelfContained call.index → m.readers call.building call.index.fileNumber = some blob.data

theorem Owns.readRecord (H : Owns c own m) (hres : m.readRecord c call = (m', res)) :
    ∃ own', Owns c own' m' ∧ Frame own own' m m' ∧ ∀ r blob, res = .ok (r, blob) → Filled c call own' m' blob := by
  obtain ⟨own₁, H₁, F₁, hplain, hmmap⟩ := H.mapFile call.building call.index.fileNumber
  have hcases := readRecord_cases hres
  set opened := m.mapFile c call.building call.index.fileNumber
  have hone := H₁.heap.alloc .reading
  have htwo := hone.alloc .reading
  have hfirst : ∀ b, b < opened.1.heap.next → update own₁ opened.1.heap.next (some Owner.reading) b = own₁ b :=
    fun b hb => update_of_ne (by omega) ..
  have hsecond : ∀ b, b < opened.1.heap.next → update (update (update own₁
      opened.1.heap.next (some Owner.reading)) (opened.1.heap.next + 1) (some .reading)) opened.1.heap.next none b =
        own₁ b := by
    intro b hb
    rw [update_of_ne (by omega), update_of_ne (by omega)]
    exact hfirst b hb
  rcases hcases with ⟨st, rfl, rfl | rfl⟩ | ⟨r, src, rfl, rfl, hcomp, -⟩ | ⟨r, raw, rfl, rfl, hcomp, -⟩
  · obtain ⟨H₂, F₂⟩ := H₁.withHeap H₁.heap.alloc_free (Nat.le_succ _) fun _ _ => rfl
    exact ⟨own₁, H₂, F₁.trans F₂, nofun⟩
  · obtain ⟨H₂, F₂⟩ := H₁.withHeap ((htwo.free opened.1.heap.next).free (opened.1.heap.next + 1))
      (Nat.le_succ_of_le (Nat.le_succ _)) fun b hb => by
        rw [update_of_ne (by omega)]; exact hsecond b hb
    exact ⟨_, H₂, F₁.trans F₂, nofun⟩
  · obtain ⟨H₂, F₂⟩ := H₁.withHeap hone (Nat.le_succ _) hfirst
    refine ⟨_, H₂, F₁.trans F₂, ?_⟩
    rintro r' blob ⟨⟩
    refine ⟨update_self .., fun hs => ?_, fun hs => ?_⟩
    · have hoff : c.mmap = false := by
        by_contra hon
        rw [hs (by simpa using hon)] at hcomp
        cases hcomp
      simp only [hplain hoff, getD_none]
    · have hon : c.mmap = true := by by_contra hoff; exact hs fun h => absurd h hoff
      obtain ⟨b, hb, hreader⟩ := hmmap hon
      simp only [hb, getD_some]
      exact hreader
  · obtain ⟨H₂, F₂⟩ := H₁.withHeap (htwo.free opened.1.heap.next) (Nat.le_succ_of_le (Nat.le_succ _)) hsecond
    refine ⟨_, H₂, F₁.trans F₂, ?_⟩
    rintro r' blob ⟨⟩
    refine ⟨?_, fun _ => rfl, fun hs => absurd (fun _ => hcomp) hs⟩
    rw [update_of_ne (show opened.1.heap.next + 1 ≠ opened.1.heap.next by omega)]
    exact update_self ..

/-! ### Handing the block over -/

variable {b e : Nat} {en : CacheEntry} {blob : OwnedSlice} {x : Option Owner}

theorem owner_update {b' : Nat} {y z : Owner} (hb : own b = some z) (hb' : own b' = some y) (hne : y ≠ z) :
    update own b x b' = some y := by
  rw [update_of_ne]
  · exact hb'
  · rintro rfl; rw [hb] at hb'; exact hne (some.inj hb').symm

theorem owner_free {b' : Nat} (hb : own b' = none) : update own b none b' = none := by
  unfold update
  split
  · next heq => subst heq; rfl
  · exact hb

/-- A block that is not an entry's gets another owner, or none. -/
theorem Owns.regive {y : Owner} {readers : Bool → Nat → Option Nat} (H : Owns c own m) (hb : own b = some y)
    (hy : ∀ e, y ≠ .entry e) (hheap : h'.Owned (update own b x)) (hnext : m.heap.next ≤ h'.next)
    (hdelete : ∀ buf, y = .buffer buf → ∀ p ∈ m.buffers, p.1 ≠ buf)
    (hreader : ∀ k n b', readers k n = some b' → m.readers k n = some b' ∧ y ≠ .reader k n)
    (hmapped : ∀ n d, m.readers false n = some d → readers false n = some d ∨ d = b ∧ x = none) :
    Owns c (update own b x) { m with heap := h', readers } :=
  { H with
    heap := hheap
    entry := fun e en h => owner_update hb (H.entry e en h) (hy e).symm
    mapped := by
      intro e en h hs
      rcases H.mapped e en h hs with hr | ⟨hlt, hdead⟩
      · refine (hmapped _ _ hr).imp_right ?_
        rintro ⟨hd, rfl⟩
        exact ⟨(hd ▸ H.heap.lt_next hb).trans_le hnext, by rw [hd]; exact update_self ..⟩
      · refine .inr ⟨hlt.trans_le hnext, ?_⟩
        rw [update_of_ne]
        · exact hdead
        · intro heq; rw [heq, hb] at hdead; cases hdead
    reader := fun k n b' h => owner_update hb (H.reader k n b' (hreader k n b' h).1) (hreader k n b' h).2.symm
    delete := fun buf b' h => owner_update hb (H.delete buf b' h) fun heq => hdelete buf heq.symm _ h rfl }

theorem Owns.give (H : Owns c own m) (hb : own b = some .reading)
    (hheap : h'.Owned (update own b x)) (hnext : m.heap.next ≤ h'.next) :
    Owns c (update own b x) { m with heap := h' } :=
  H.regive hb nofun hheap hnext nofun (fun _ _ _ h => ⟨h, nofun⟩) fun _ _ h => .inl h

theorem Kept.regive {y : Owner} {readers : Bool → Nat → Option Nat} (hb : own b = some y) (hy : y ≠ .leaked)
    (hk : Kept own buf d m) : Kept (update own b x) buf d { m with heap := h', readers } :=
  hk.imp_right (Or.imp_right fun hleak => owner_update hb hleak hy.symm)

theorem Kept.setBuffers {buffers : List (Nat × Cleanup)} (hk : Kept own buf d m)
    (hmem : ∀ cleanup, (buf, cleanup) ∈ m.buffers → (buf, cleanup) ∈ buffers) : Kept own buf d { m with buffers } := by
  rcases hk with ⟨e, en, hrel, he, hd⟩ | hdel | hleak
  · exact .inl ⟨e, en, hmem _ hrel, he, hd⟩
  · exact .inr (.inl (hmem _ hdel))
  · exact .inr (.inr hleak)

theorem Kept.addBuffer (hk : Kept own buf d m) : Kept own buf d { m with buffers := (buf', cleanup) :: m.buffers } :=
  hk.setBuffers fun _ => mem_cons_of_mem _

section
variable (H : Owns c own m)
include H

theorem nodup_cons_of_inUse (hbuf : m.inUse buf = false) : (((buf, cleanup) :: m.buffers).map fst).Nodup := by
  rw [map_cons, nodup_cons]
  refine ⟨?_, H.nodup⟩
  intro hmem
  have : m.inUse buf = true := by simpa only [inUse, contains_iff_mem] using hmem
  rw [hbuf] at this
  cases this

theorem Owns.addBuffer (hbuf : m.inUse buf = false)
    (hrel : ∀ e, cleanup ≠ .release (some e)) (hdel : ∀ b, cleanup = .delete b → own b = some (.buffer buf)) :
    Owns c own { m with buffers := (buf, cleanup) :: m.buffers } :=
  { H with
    delete := by
      intro buf' b h
      rcases mem_cons.1 h with heq | h
      · cases heq; exact hdel b rfl
      · exact H.delete buf' b h
    release := by
      intro buf' e h
      rcases mem_cons.1 h with heq | h
      · cases heq; exact absurd rfl (hrel e)
      · exact H.release buf' e h
    refs := by
      intro e en h
      rw [countP_cons_of_neg (by simpa using hrel e)]
      exact H.refs e en h
    nodup := nodup_cons_of_inUse H hbuf }

theorem Owns.setRefs {buffers : List (Nat × Cleanup)} {k : Nat} (he : m.entries e = some en)
    (hmem : ∀ p ∈ buffers, p ∈ m.buffers ∨ p.2 = .release (some e)) (hnodup : (buffers.map fst).Nodup)
    (hk : k = buffers.countP fun p => p.2 = .release (some e))
    (hcount : ∀ e', e' ≠ e → (buffers.countP fun p => p.2 = .release (some e')) =
      m.buffers.countP fun p => p.2 = .release (some e')) :
    Owns c own { m with entries := update m.entries e (some { en with refs := k }), buffers } := by
  have hentry : ∀ e' en', update m.entries e (some { en with refs := k }) e' = some en' →
      ∃ en₀, m.entries e' = some en₀ ∧ en'.file = en₀.file ∧ en'.offset = en₀.offset ∧ en'.value = en₀.value := by
    intro e' en' h
    rcases eq_or_ne e' e with rfl | hne
    · rw [update_self] at h; cases h; exact ⟨en, he, rfl, rfl, rfl⟩
    · rw [update_of_ne hne] at h; exact ⟨en', h, rfl, rfl, rfl⟩
  have hindex : ∀ {en' en₀ : CacheEntry}, en'.file = en₀.file → en'.offset = en₀.offset → en'.index = en₀.index := by
    intro en' en₀ hf ho; simp only [CacheEntry.index, hf, ho]
  have hsome : ∀ e', (∃ en', m.entries e' = some en') →
      ∃ en', update m.entries e (some { en with refs := k }) e' = some en' := by
    rintro e' ⟨en', h⟩
    rcases eq_or_ne e' e with rfl | hne
    · exact ⟨_, update_self ..⟩
    · exact ⟨en', by rw [update_of_ne hne]; exact h⟩
  exact
    { heap := H.heap
      entry := by
        intro e' en' h
        obtain ⟨en₀, h₀, -, -, hv⟩ := hentry e' en' h
        rw [hv]; exact H.entry e' en₀ h₀
      fresh := by
        intro e' hge
        have hne : e' ≠ e := by rintro rfl; rw [H.fresh _ hge] at he; cases he
        exact (update_of_ne hne ..).trans (H.fresh e' hge)
      inside := by
        intro e' en' h
        obtain ⟨en₀, h₀, hf, ho, hv⟩ := hentry e' en' h
        rw [hv, hindex hf ho]; exact H.inside e' en₀ h₀
      mapped := by
        intro e' en' h
        obtain ⟨en₀, h₀, hf, ho, hv⟩ := hentry e' en' h
        rw [hv, hindex hf ho, hf]; exact H.mapped e' en₀ h₀
      table := by
        intro f o e' h
        obtain ⟨en', h', hf, ho⟩ := H.table f o e' h
        rcases eq_or_ne e' e with rfl | hne
        · rw [he] at h'; cases h'; exact ⟨_, update_self .., hf, ho⟩
        · exact ⟨en', (update_of_ne hne ..).trans h', hf, ho⟩
      reader := H.reader
      delete := by
        intro buf b h
        rcases hmem _ h with h | h
        · exact H.delete buf b h
        · cases h
      release := by
        intro buf e' h
        rcases hmem _ h with h | h
        · exact hsome e' (H.release buf e' h)
        · cases h; exact hsome e ⟨en, he⟩
      refs := by
        intro e' en' h
        dsimp only at h
        rcases eq_or_ne e' e with rfl | hne
        · rw [update_self] at h; cases h; exact hk
        · rw [update_of_ne hne] at h; rw [hcount e' hne]; exact H.refs e' en' h
      nodup := hnodup }

theorem Owns.ne_of_mem_release {e' : Nat} (he : m.entries e = some en) (hrefs : en.refs = 0)
    (hmem : (buf, .release (some e')) ∈ m.buffers) : e' ≠ e := by
  rintro rfl
  have hzero := H.refs e' en he
  rw [hrefs] at hzero
  exact countP_eq_zero.1 hzero.symm _ hmem (by simp)

/-- An entry that is out of the table and to which no handle is left is deleted. -/
theorem Owns.dropEntry (he : m.entries e = some en) (hrefs : en.refs = 0) (htable : ∀ f o, m.table f o ≠ some e) :
    Owns c (update own en.value.buffer none) (m.dropEntry e en) := by
  have hown := H.entry e en he
  have hentry : ∀ e' en', (m.dropEntry e en).entries e' = some en' → e' ≠ e ∧ m.entries e' = some en' := by
    intro e' en' h
    change update m.entries e none e' = some en' at h
    rcases eq_or_ne e' e with rfl | hne
    · rw [update_self] at h; cases h
    · rw [update_of_ne hne] at h; exact ⟨hne, h⟩
  exact
    { heap := H.heap.free _
      entry := by
        intro e' en' h
        obtain ⟨hne, h⟩ := hentry e' en' h
        exact owner_update hown (H.entry e' en' h) (by simpa using hne)
      fresh := by
        intro e' hge
        have hne : e' ≠ e := by rintro rfl; rw [H.fresh _ hge] at he; cases he
        exact (update_of_ne hne ..).trans (H.fresh e' hge)
      inside := fun e' en' h => H.inside e' en' (hentry e' en' h).2
      mapped := by
        intro e' en' h hs
        exact (H.mapped e' en' (hentry e' en' h).2 hs).imp_right fun ⟨hlt, hdead⟩ => ⟨hlt, owner_free hdead⟩
      table := by
        intro f o e' h
        obtain ⟨en', h', hf, ho⟩ := H.table f o e' h
        have hne : e' ≠ e := by rintro rfl; exact htable f o h
        exact ⟨en', (update_of_ne hne ..).trans h', hf, ho⟩
      reader := fun k n b h => owner_update hown (H.reader k n b h) nofun
      delete := fun buf b h => owner_update hown (H.delete buf b h) nofun
      release := by
        intro buf e' h
        obtain ⟨en', h'⟩ := H.release buf e' h
        exact ⟨en', (update_of_ne (H.ne_of_mem_release he hrefs h) ..).trans h'⟩
      refs := fun e' en' h => H.refs e' en' (hentry e' en' h).2
      nodup := H.nodup }

theorem Owns.kept_dropEntry (he : m.entries e = some en) (hrefs : en.refs = 0)
    (hk : Kept own buf d m) : Kept (update own en.value.buffer none) buf d (m.dropEntry e en) := by
  rcases hk with ⟨e', en', hmem, he', hd⟩ | hdel | hleak
  · exact .inl ⟨e', en', hmem, (update_of_ne (H.ne_of_mem_release he hrefs hmem) ..).trans he', hd⟩
  · exact .inr (.inl hdel)
  · exact .inr (.inr (owner_update (H.entry e en he) hleak nofun))

end

theorem lookup_eq_some {file offset : Nat} :
    m.lookup file offset = some (e, en) ↔ m.table file offset = some e ∧ m.entries e = some en := by
  simp only [lookup, bind_eq_some_iff, map_eq_some_iff, Prod.mk.injEq]
  constructor
  · rintro ⟨e', ht, en', he, rfl, rfl⟩; exact ⟨ht, he⟩
  · rintro ⟨ht, he⟩; exact ⟨e, ht, en, he, rfl, rfl⟩

theorem Owns.evict (H : Owns c own m) (file offset : Nat) :
    ∃ own', Owns c own' (m.evict file offset) ∧ (∀ buf d, Kept own buf d m → Kept own' buf d (m.evict file offset)) ∧
      ∀ b, own b = some .reading → own' b = some .reading := by
  unfold Mem.evict
  split
  · exact ⟨own, H, fun _ _ h => h, fun _ h => h⟩
  next e en hlook =>
    obtain ⟨ht, he⟩ := lookup_eq_some.1 hlook
    set m₁ : Mem := { m with table := fun f o => if f = file ∧ o = offset then none else m.table f o } with hm₁
    have hsub : ∀ f o e', m₁.table f o = some e' → ¬(f = file ∧ o = offset) ∧ m.table f o = some e' := by
      intro f o e' h
      simp only [hm₁] at h
      split at h
      · cases h
      next hne => exact ⟨hne, h⟩
    have H₁ : Owns c own m₁ := { H with table := fun f o e' h => H.table f o e' (hsub f o e' h).2 }
    split
    next hrefs =>
      have htable : ∀ f o, m₁.table f o ≠ some e := by
        intro f o h
        obtain ⟨hne, h⟩ := hsub f o e h
        obtain ⟨en₁, he₁, hf₁, ho₁⟩ := H.table f o e h
        obtain ⟨en₂, he₂, hf₂, ho₂⟩ := H.table file offset e ht
        rw [he₁] at he₂
        cases he₂
        exact hne ⟨hf₁.symm.trans hf₂, ho₁.symm.trans ho₂⟩
      exact ⟨_, H₁.dropEntry he hrefs htable, fun _ _ hk => H₁.kept_dropEntry he hrefs hk,
        fun b hb => owner_update (H.entry e en he) hb nofun⟩
    · exact ⟨own, H₁, fun _ _ h => h, fun _ h => h⟩

@[simp] theorem readers_evict (file offset : Nat) : (m.evict file offset).readers = m.readers := by
  unfold evict
  split
  · rfl
  · dsimp only; split <;> rfl

@[simp] theorem buffers_evict (file offset : Nat) : (m.evict file offset).buffers = m.buffers := by
  unfold evict
  split
  · rfl
  · dsimp only; split <;> rfl

theorem Owns.not_mem_release_nextEntry (H : Owns c own m) (buf : Nat) :
    (buf, .release (some m.nextEntry)) ∉ m.buffers := by
  intro hmem
  obtain ⟨en, he⟩ := H.release buf _ hmem
  rw [H.fresh _ (le_refl _)] at he
  cases he

theorem Owns.addEntry {i : BlobIndex} (H : Owns c own m) (hbuf : m.inUse buf = false)
    (hown : own blob.buffer = some (.entry m.nextEntry)) (hin : c.SelfContained i → blob.data = blob.buffer)
    (hmap : ¬ c.SelfContained i → m.readers false i.fileNumber = some blob.data) : Owns c own (m.addEntry buf i blob) := by
  have hentry : ∀ e' en', (m.addEntry buf i blob).entries e' = some en' →
      (e' = m.nextEntry ∧ en' = ⟨i.fileNumber, i.blobHandle.offset, blob, 1⟩) ∨
        e' ≠ m.nextEntry ∧ m.entries e' = some en' := by
    intro e' en' h
    change update m.entries m.nextEntry _ e' = some en' at h
    rcases eq_or_ne e' m.nextEntry with rfl | hne
    · rw [update_self] at h; exact .inl ⟨rfl, (some.inj h).symm⟩
    · rw [update_of_ne hne] at h; exact .inr ⟨hne, h⟩
  have hold : ∀ e' en', m.entries e' = some en' → (m.addEntry buf i blob).entries e' = some en' := by
    intro e' en' h
    have hne : e' ≠ m.nextEntry := by rintro rfl; rw [H.fresh _ (le_refl _)] at h; cases h
    exact (update_of_ne hne ..).trans h
  exact
    { heap := H.heap
      entry := by
        intro e' en' h
        rcases hentry e' en' h with ⟨rfl, rfl⟩ | ⟨-, h⟩
        · exact hown
        · exact H.entry e' en' h
      fresh := by
        intro e' hge
        have hge : m.nextEntry + 1 ≤ e' := hge
        exact (update_of_ne (by omega) ..).trans (H.fresh e' (by omega))
      inside := by
        intro e' en' h
        rcases hentry e' en' h with ⟨rfl, rfl⟩ | ⟨-, h⟩
        · exact hin
        · exact H.inside e' en' h
      mapped := by
        intro e' en' h hs
        rcases hentry e' en' h with ⟨rfl, rfl⟩ | ⟨-, h⟩
        · exact .inl (hmap hs)
        · exact H.mapped e' en' h hs
      table := by
        intro f o e' h
        simp only [Mem.addEntry] at h
        split at h
        next hfo => cases h; exact ⟨_, update_self .., hfo.1.symm, hfo.2.symm⟩
        · obtain ⟨en', h', hf, ho⟩ := H.table f o e' h
          exact ⟨en', hold e' en' h', hf, ho⟩
      reader := H.reader
      delete := by
        intro buf' b h
        rcases mem_cons.1 h with heq | h
        · cases heq
        · exact H.delete buf' b h
      release := by
        intro buf' e' h
        rcases mem_cons.1 h with heq | h
        · cases heq; exact ⟨_, update_self ..⟩
        · obtain ⟨en', h'⟩ := H.release buf' e' h
          exact ⟨en', hold e' en' h'⟩
      refs := by
        intro e' en' h
        change en'.refs = countP _ (_ :: m.buffers)
        rcases hentry e' en' h with ⟨rfl, rfl⟩ | ⟨hne, h⟩
        · rw [countP_cons_of_pos (by simp)]
          refine (Nat.zero_add 1).symm.trans (congrArg (· + 1) (countP_eq_zero.2 ?_).symm)
          rintro ⟨buf', cleanup⟩ hp hrel
          obtain rfl : cleanup = _ := of_decide_eq_true hrel
          exact H.not_mem_release_nextEntry buf' hp
        · rw [countP_cons_of_neg (by simpa using hne.symm)]
          exact H.refs e' en' h
      nodup := nodup_cons_of_inUse H hbuf }

theorem Owns.kept_addEntry (H : Owns c own m) {i : BlobIndex} (hk : Kept own buf d m) :
    Kept own buf d (m.addEntry buf' i blob) := by
  rcases hk with ⟨e, en, hmem, he, hd⟩ | hdel | hleak
  · have hne : e ≠ m.nextEntry := by rintro rfl; exact H.not_mem_release_nextEntry buf hmem
    exact .inl ⟨e, en, mem_cons_of_mem _ hmem, (update_of_ne hne ..).trans he, hd⟩
  · exact .inr (.inl (mem_cons_of_mem _ hdel))
  · exact .inr (.inr hleak)

theorem Owns.pin (H : Owns c own m) (hbuf : m.inUse buf = false) (hbuilding : call.building = false)
    (hf : Filled c call own m blob) :
    ∃ own', Owns c own' (m.pin c buf call blob) ∧ (∀ buf' d, Kept own buf' d m → Kept own' buf' d (m.pin c buf call blob)) ∧
      Kept own' buf blob.buffer (m.pin c buf call blob) := by
  unfold Mem.pin
  split
  · split
    · -- nobody will ever free it
      have H₁ := H.give hf.owner (H.heap.give hf.owner .leaked) (le_refl _)
      exact ⟨_, H₁.addBuffer hbuf nofun nofun, fun _ _ hk => (hk.regive hf.owner nofun).addBuffer,
        .inr (.inr (update_self ..))⟩
    · obtain ⟨own₁, H₁, hkept, hreading⟩ := H.evict call.index.fileNumber call.index.blobHandle.offset
      have hown := hreading _ hf.owner
      set m₁ := m.evict call.index.fileNumber call.index.blobHandle.offset with hm₁
      have H₂ := H₁.give hown (H₁.heap.give hown (.entry m₁.nextEntry)) (le_refl _)
      have hbuf₁ : m₁.inUse buf = false := by rw [hm₁, inUse, buffers_evict]; exact hbuf
      refine ⟨_, H₂.addEntry hbuf₁ (update_self ..) hf.inside ?_, ?_, ?_⟩
      · intro hs
        have hreader := hf.mapped hs
        rw [hbuilding] at hreader
        exact (congrFun (congrFun (readers_evict ..) _) _).trans hreader
      · intro buf' d hk
        exact H₂.kept_addEntry ((hkept buf' d hk).regive hown nofun)
      · exact .inl ⟨m₁.nextEntry, _, mem_cons_self .., update_self .., rfl⟩
  · have H₁ := H.give hf.owner (H.heap.give hf.owner (.buffer buf)) (le_refl _)
    refine ⟨_, H₁.addBuffer hbuf nofun ?_, fun _ _ hk => (hk.regive hf.owner nofun).addBuffer,
      .inr (.inl (mem_cons_self ..))⟩
    intro b hb
    cases hb
    exact update_self ..

/-! ### The events -/

/-- What a successful `Get` leaves: a block held for the caller, or one that is gone, or one that goes with the
reader of the file. -/
structure Returned (c : ReadConfig) (buf : Nat) (call : ReadCall) (own : Nat → Option Owner) (m : Mem) (d : Nat) :
    Prop where
  kept : call.building = false → c.SelfContained call.index → Kept own buf d m
  lost : ¬ (call.building = false ∧ c.SelfContained call.index) →
    m.heap.live d = false ∨ m.readers call.building call.index.fileNumber = some d

theorem Owns.hit (H : Owns c own m) (hbuf : m.inUse buf = false) (he : m.entries e = some en) :
    Owns c own { m with
      entries := update m.entries e (some { en with refs := en.refs + 1 })
      buffers := (buf, .release (some e)) :: m.buffers } := by
  refine H.setRefs he ?_ (nodup_cons_of_inUse H hbuf) ?_ ?_
  · intro p hp
    rcases mem_cons.1 hp with rfl | hp
    · exact .inr rfl
    · exact .inl hp
  · rw [countP_cons_of_pos (by simp), H.refs e en he]
  · intro e' hne
    exact countP_cons_of_neg (by simpa using hne.symm)

theorem Kept.setRefs {k : Nat} (he : m.entries e = some en) (hk : Kept own buf d m) :
    Kept own buf d { m with entries := update m.entries e (some { en with refs := k }) } := by
  refine hk.imp_left ?_
  rintro ⟨e', en', hrel, he', hd⟩
  rcases eq_or_ne e' e with rfl | hne
  · rw [he] at he'; cases he'; exact ⟨e', _, hrel, update_self .., hd⟩
  · exact ⟨e', en', hrel, (update_of_ne hne ..).trans he', hd⟩

theorem Owns.getRegistered {res : Except Status (Fetched × Nat)} (H : Owns c own m) (hbuf : m.inUse buf = false)
    (hbuilding : call.building = false) (hget : m.getRegistered c buf call = (m', res)) :
    ∃ own', Owns c own' m' ∧ (∀ buf' d, Kept own buf' d m → Kept own' buf' d m') ∧
      ∀ r d, res = .ok (r, d) → Returned c buf call own' m' d := by
  unfold Mem.getRegistered at hget
  split at hget
  next e en hlook =>
    split at hlook
    next =>
      obtain ⟨ht, he⟩ := lookup_eq_some.1 hlook
      obtain ⟨en', he', hfile, hoffset⟩ := H.table _ _ e ht
      rw [he] at he'
      cases he'
      have hself : c.SelfContained en.index ↔ c.SelfContained call.index := by
        simp only [ReadConfig.SelfContained, CacheEntry.index, hfile, hoffset]
      cases hget
      refine ⟨own, H.hit hbuf he, fun _ _ hk => (hk.setRefs he).addBuffer, ?_⟩
      intro r d hres
      split at hres
      · cases hres
      · cases hres
        refine ⟨fun _ hs => ?_, fun hnot => ?_⟩
        · rw [H.inside e en he (hself.2 hs)]
          exact .inl ⟨e, _, mem_cons_self .., update_self .., rfl⟩
        · have hs : ¬ c.SelfContained en.index := fun hs => hnot ⟨hbuilding, hself.1 hs⟩
          rcases H.mapped e en he hs with hr | ⟨-, hdead⟩
          · rw [hfile] at hr; rw [hbuilding]; exact .inr hr
          · exact .inl (H.heap.not_live_of_eq_none hdead)
    · cases hlook
  · split at hget
    next m₁ st hread =>
      cases hget
      obtain ⟨own₁, H₁, F₁, -⟩ := H.readRecord hread
      exact ⟨own₁, H₁, fun _ _ hk => F₁.kept hk, nofun⟩
    next m₁ r blob hread =>
      cases hget
      obtain ⟨own₁, H₁, F₁, hf⟩ := H.readRecord hread
      have hf := hf r blob rfl
      have hbuf₁ : m₁.inUse buf = false := by rw [inUse, F₁.buffers]; exact hbuf
      obtain ⟨own₂, H₂, hkept, hheld⟩ := H₁.pin hbuf₁ hbuilding hf
      refine ⟨own₂, H₂, fun buf' d hk => hkept buf' d (F₁.kept hk), ?_⟩
      rintro r' d ⟨⟩
      refine ⟨fun _ hs => hf.inside hs ▸ hheld, fun hnot => ?_⟩
      · have hs : ¬ c.SelfContained call.index := fun hs => hnot ⟨hbuilding, hs⟩
        refine .inr (Eq.trans ?_ (hf.mapped hs))
        unfold Mem.pin Mem.insert Mem.addEntry
        split
        · split <;> simp
        · rfl

theorem Owns.getBuilding {res : Except Status (Fetched × Nat)} (H : Owns c own m) (hbuilding : call.building = true)
    (hget : m.getBuilding c call = (m', res)) :
    ∃ own', Owns c own' m' ∧ (∀ buf' d, Kept own buf' d m → Kept own' buf' d m') ∧
      ∀ r d, res = .ok (r, d) → Returned c buf call own' m' d := by
  unfold Mem.getBuilding at hget
  split at hget
  next m₁ st hread =>
    cases hget
    obtain ⟨own₁, H₁, F₁, -⟩ := H.readRecord hread
    exact ⟨own₁, H₁, fun _ _ hk => F₁.kept hk, nofun⟩
  next m₁ r blob hread =>
    cases hget
    obtain ⟨own₁, H₁, F₁, hf⟩ := H.readRecord hread
    have hf := hf r blob rfl
    have H₂ := H₁.give hf.owner (H₁.heap.free blob.buffer) (le_refl _)
    refine ⟨_, H₂, fun buf' d hk => (F₁.kept hk).regive hf.owner nofun, ?_⟩
    rintro r' d ⟨⟩
    refine ⟨fun h => absurd (hbuilding.symm.trans h) nofun, fun _ => ?_⟩
    by_cases hs : c.SelfContained call.index
    · rw [hf.inside hs]
      exact .inl (update_self ..)
    · exact .inr (hf.mapped hs)

theorem Owns.get {res : Except Status (Fetched × Nat)} (H : Owns c own m) (hbuf : m.inUse buf = false)
    (hget : m.get c buf call = (m', res)) :
    ∃ own', Owns c own' m' ∧ (∀ buf' d, Kept own buf' d m → Kept own' buf' d m') ∧
      ∀ r d, res = .ok (r, d) → Returned c buf call own' m' d := by
  unfold Mem.get at hget
  split at hget
  next hb => exact H.getBuilding hb hget
  next hb => exact H.getRegistered hbuf (by simpa using hb) hget

theorem mem_of_lookup (h : m.buffers.lookup buf = some cleanup) : (buf, cleanup) ∈ m.buffers := by
  obtain ⟨l₁, l₂, heq, -⟩ := lookup_eq_some_iff.1 h
  rw [heq]
  exact mem_append_right _ (mem_cons_self ..)

theorem Owns.ne_of_mem_erase (H : Owns c own m) (hmem : (buf, cleanup) ∈ m.buffers) :
    ∀ p ∈ m.buffers.erase (buf, cleanup), p.1 ≠ buf := by
  have hperm := perm_cons_erase hmem
  have hnodup : (((buf, cleanup) :: m.buffers.erase (buf, cleanup)).map fst).Nodup :=
    (hperm.map fst).nodup_iff.1 H.nodup
  rw [map_cons, nodup_cons] at hnodup
  intro p hp heq
  exact hnodup.1 (mem_map.2 ⟨p, hp, heq⟩)

theorem Owns.nodup_erase (H : Owns c own m) (p : Nat × Cleanup) : ((m.buffers.erase p).map fst).Nodup :=
  H.nodup.sublist (erase_sublist.map _)

theorem countP_erase {p : Nat × Cleanup} (hmem : p ∈ m.buffers) (q : Nat × Cleanup → Bool) :
    m.buffers.countP q = (m.buffers.erase p).countP q + if q p then 1 else 0 := by
  rw [(perm_cons_erase hmem).countP_eq, countP_cons]

theorem Owns.forget (H : Owns c own m) (hmem : (buf, cleanup) ∈ m.buffers) (hrel : ∀ e, cleanup ≠ .release (some e)) :
    Owns c own { m with buffers := m.buffers.erase (buf, cleanup) } :=
  { H with
    delete := fun buf' b h => H.delete buf' b (mem_of_mem_erase h)
    release := fun buf' e h => H.release buf' e (mem_of_mem_erase h)
    refs := by
      intro e en h
      have hrefs := H.refs e en h
      rw [countP_erase hmem, if_neg (by simpa using hrel e)] at hrefs
      exact hrefs
    nodup := H.nodup_erase _ }

theorem Kept.erase (hne : buf ≠ buf') (hk : Kept own buf d m) :
    Kept own buf d { m with buffers := m.buffers.erase (buf', cleanup) } :=
  hk.setBuffers fun _ => (mem_erase_of_ne (by simp [hne])).2

section
variable (H : Owns c own m)
include H

theorem Owns.freeBuffer (hb : own b = some (.buffer buf)) (hgone : ∀ p ∈ m.buffers, p.1 ≠ buf) :
    Owns c (update own b none) (m.free b) ∧ ∀ buf' d, Kept own buf' d m → Kept (update own b none) buf' d (m.free b) := by
  refine ⟨H.regive hb nofun (H.heap.free b) (le_refl _) ?_ (fun _ _ _ h => ⟨h, nofun⟩) fun _ _ h => .inl h,
    fun _ _ hk => hk.regive hb nofun⟩
  rintro _ ⟨⟩
  exact hgone

theorem Owns.releaseHandle (hmem : (buf, .release (some e)) ∈ m.buffers) :
    ∃ own', Owns c own' (({ m with buffers := m.buffers.erase (buf, .release (some e)) } : Mem).release e) ∧
      ∀ buf' d, buf' ≠ buf → Kept own buf' d m →
        Kept own' buf' d (({ m with buffers := m.buffers.erase (buf, .release (some e)) } : Mem).release e) := by
  obtain ⟨en, he⟩ := H.release buf e hmem
  have hcount : en.refs - 1 = (m.buffers.erase (buf, .release (some e))).countP fun p => p.2 = .release (some e) := by
    rw [H.refs e en he, countP_erase hmem, if_pos (by simp), Nat.add_sub_cancel]
  -- the entry with one handle less
  have H₁ : Owns c own { m with
      entries := update m.entries e (some { en with refs := en.refs - 1 })
      buffers := m.buffers.erase (buf, .release (some e)) } := by
    refine H.setRefs he (fun p hp => .inl (mem_of_mem_erase hp)) (H.nodup_erase _) hcount ?_
    intro e' hne
    rw [countP_erase hmem, if_neg (by simpa using hne.symm), Nat.add_zero]
  have hkept : ∀ buf' d, buf' ≠ buf → Kept own buf' d m → Kept own buf' d { m with
      entries := update m.entries e (some { en with refs := en.refs - 1 })
      buffers := m.buffers.erase (buf, .release (some e)) } := fun buf' d hne hk =>
    (hk.setRefs he).erase hne
  simp only [Mem.release, he]
  split
  next hdrop =>
    obtain ⟨hzero, htable⟩ := hdrop
    have hnone : ∀ f o, m.table f o ≠ some e := by
      intro f o h
      obtain ⟨en', he', hf, ho⟩ := H.table f o e h
      rw [he] at he'
      cases he'
      exact htable (by rw [hf, ho]; exact h)
    have H₂ := H₁.dropEntry (update_self ..) hzero hnone
    have hkept₂ := fun buf' d (hk : Kept own buf' d _) => H₁.kept_dropEntry (update_self ..) hzero hk
    simp only [Mem.dropEntry, update_idem] at H₂ hkept₂ ⊢
    exact ⟨_, H₂, fun buf' d hne hk => hkept₂ buf' d (hkept buf' d hne hk)⟩
  · exact ⟨own, H₁, hkept⟩

theorem Owns.reset (buf : Nat) :
    ∃ own', Owns c own' (m.reset buf) ∧ ∀ buf' d, buf' ≠ buf → Kept own buf' d m → Kept own' buf' d (m.reset buf) := by
  unfold Mem.reset
  split
  · exact ⟨own, H, fun _ _ _ hk => hk⟩
  next cleanup hlook =>
    have hmem := mem_of_lookup hlook
    cases cleanup with
    | delete b =>
      have H₁ : Owns c own _ := H.forget hmem nofun
      obtain ⟨H₂, hkept⟩ := H₁.freeBuffer (H.delete buf b hmem) (H.ne_of_mem_erase hmem)
      exact ⟨_, H₂, fun buf' d hne hk => hkept buf' d (hk.erase hne)⟩
    | release handle =>
      cases handle with
      | none => exact ⟨own, H.forget hmem nofun, fun buf' d hne hk => hk.erase hne⟩
      | some e => exact H.releaseHandle hmem

theorem Owns.closeReader (building : Bool) (file : Nat) :
    ∃ own', Owns c own' (m.closeReader building file) ∧
      ∀ buf d, Kept own buf d m → Kept own' buf d (m.closeReader building file) := by
  unfold Mem.closeReader
  split
  · exact ⟨own, H, fun _ _ hk => hk⟩
  next b hr =>
    have hb := H.reader building file b hr
    refine ⟨update own b none, H.regive hb nofun (H.heap.free b) (le_refl _) nofun (fun k n b' h => ?_) fun n d h => ?_,
      fun buf d hk => hk.regive hb nofun⟩
    · split at h
      · cases h
      next hne => exact ⟨h, by simpa [eq_comm] using hne⟩
    · by_cases hsame : false = building ∧ n = file
      · obtain ⟨rfl, rfl⟩ := hsame
        rw [hr] at h
        exact .inr ⟨(some.inj h).symm, rfl⟩
      · exact .inl ((if_neg hsame).trans h)

/-- One event: ownership stays in order, and only a reset takes from a buffer what it holds. -/
theorem Owns.step {ev : MemEvent} (hstep : memStep c m ev = some m') :
    ∃ own', Owns c own' m' ∧ ∀ buf d, ev ≠ .reset buf → Kept own buf d m → Kept own' buf d m' := by
  cases ev with
  | get buf call =>
    obtain ⟨hbuf, ⟨⟩⟩ := ite_none_left_eq_some.1 hstep
    obtain ⟨own', H', hkept, -⟩ := H.get (by simpa using hbuf) rfl
    exact ⟨own', H', fun buf' d _ hk => hkept buf' d hk⟩
  | reset buf =>
    cases hstep
    obtain ⟨own', H', hkept⟩ := H.reset buf
    exact ⟨own', H', fun buf' d hne hk => hkept buf' d (by rintro rfl; exact hne rfl) hk⟩
  | evict file offset =>
    cases hstep
    obtain ⟨own', H', hkept, -⟩ := H.evict file offset
    exact ⟨own', H', fun buf d _ hk => hkept buf d hk⟩
  | closeReader building file =>
    cases hstep
    obtain ⟨own', H', hkept⟩ := H.closeReader building file
    exact ⟨own', H', fun buf d _ hk => hkept buf d hk⟩

end

theorem owns_run {es : List MemEvent} (hrun : run (memStep c) empty es = some m) : ∃ own, Owns c own m := by
  refine run_inv (P := fun _ _ => True) (I := fun m => ∃ own, Owns c own m) ?_ ⟨_, owns_empty c⟩
    (AllSteps.of_forall fun _ _ => trivial) hrun
  rintro m e m' ⟨own, H⟩ - hstep
  obtain ⟨own', H', -⟩ := H.step hstep
  exact ⟨own', H'⟩

/-- The block is allocated now and stays so until `buf` is reset, whatever else happens. -/
def StaysLive (c : ReadConfig) (buf d : Nat) (m : Mem) : Prop :=
  ∀ es m', (∀ e ∈ es, e ≠ .reset buf) → run (memStep c) m es = some m' → m'.heap.live d = true

theorem Owns.staysLive (H : Owns c own m) (hk : Kept own buf d m) : StaysLive c buf d m := by
  intro es m' hes hrun
  have hlast := run_inv (P := fun _ e => e ≠ .reset buf) (I := fun m => ∃ own, Owns c own m ∧ Kept own buf d m)
    (by
      rintro m e m' ⟨own, H, hk⟩ hne hstep
      obtain ⟨own', H', hkept⟩ := H.step hstep
      exact ⟨own', H', hkept buf d hne hk⟩)
    ⟨own, H, hk⟩ (AllSteps.of_forall hes) hrun
  obtain ⟨own', H', hk'⟩ := hlast
  exact H'.live_of_kept hk'

end Mem

/-- Every file holds the one record `([1], [10])`, uncompressed. -/
def ReadConfig.oneRecord (cache mmap : Bool) : ReadConfig where
  codec := .plain
  cache := cache
  mmap := mmap
  bytes := fun _ => encodeFileHeader ++ encodeRecord (.small true false) false ⟨[1], [10]⟩

def ReadCall.ofRecord (building : Bool) : ReadCall where
  index := ⟨1, 8, 13⟩
  building := building
  onlyValue := false
  readError := none
  lookupEarly := false
  insertFails := false

namespace Mem

variable {buf d : Nat}

/-- The call finds its record in the blob cache. -/
def hits (c : ReadConfig) (call : ReadCall) (m : Mem) : Bool :=
  c.cache && !call.lookupEarly && (m.lookup call.index.fileNumber call.index.blobHandle.offset).isSome

theorem inside_getRegistered {r : Fetched} (hget : m.getRegistered c buf call = (m', .ok (r, d))) :
    r.inside = true ↔ m.hits c call = true ∨
      c.compressed call.index.fileNumber call.index.blobHandle.offset = true ∨ HoldsRecord (c.blob call.index) := by
  unfold getRegistered at hget
  split at hget
  next e en hlook =>
    have hhit : m.hits c call = true := by
      split at hlook
      next hcache => simp [hits, hcache, hlook]
      · cases hlook
    split at hget
    · cases hget
    · cases hget
      exact iff_of_true rfl (.inl hhit)
  next hlook =>
    have hmiss : ¬ m.hits c call = true := by
      intro hhit
      rw [hits, Bool.and_eq_true] at hhit
      rw [if_pos hhit.1] at hlook
      simp [hlook] at hhit
    rw [or_iff_right hmiss]
    split at hget
    · cases hget
    next m₁ r₁ blob hread =>
      cases hget
      rcases readRecord_cases hread with ⟨_, hst, -⟩ | ⟨_, _, hres, -, hcomp, hin⟩ | ⟨_, _, hres, -, hcomp, hin⟩
      · cases hst
      · cases hres
        simp [hcomp, hin]
      · cases hres
        simp [hcomp, hin]

/-- When `BlobStorage::Get` returns a record, its slices stay inside memory that lasts until the caller's buffer is
reset exactly when the file is registered, the record is not handed out uncompressed from a mapping, and it comes from
the cache, is compressed, or has no larger size in its header than the handle has room for. -/
theorem get_staysLive_iff {es : List MemEvent} {r : Fetched} (hrun : run (memStep c) empty es = some m)
    (hbuf : m.inUse buf = false) (hget : m.get c buf call = (m', .ok (r, d))) :
    r.inside = true ∧ StaysLive c buf d m' ↔ call.building = false ∧ c.SelfContained call.index ∧
      (m.hits c call = true ∨ c.compressed call.index.fileNumber call.index.blobHandle.offset = true ∨
        HoldsRecord (c.blob call.index)) := by
  obtain ⟨own, H⟩ := owns_run hrun
  obtain ⟨own', H', -, hret⟩ := H.get hbuf hget
  have hret := hret r d rfl
  have hinside (hb : call.building = false) := inside_getRegistered (by simpa [get, hb] using hget)
  constructor
  · rintro ⟨hin, hstays⟩
    rw [← and_assoc]
    by_contra hnot
    replace hnot : ¬ (call.building = false ∧ c.SelfContained call.index) :=
      fun h => hnot ⟨h, (hinside h.1).1 hin⟩
    rcases hret.lost hnot with hdead | hreader
    · have hlive := hstays [] m' (fun _ h => by cases h) rfl
      rw [hdead] at hlive
      cases hlive
    · -- the reader goes, and the mapping with it
      have hlive := hstays [.closeReader call.building call.index.fileNumber] _ (by simp) rfl
      simp only [closeReader, hreader, Heap.free, update_self] at hlive
      cases hlive
  · rintro ⟨hb, hs, hin⟩
    exact ⟨(hinside hb).2 hin, H'.staysLive (hret.kept hb hs)⟩

/-- A second reader finds the record in the cache, after the first has let it go. -/
theorem get_staysLive_cached :
    let c := ReadConfig.oneRecord true false
    let m := ((empty.get c 1 (.ofRecord false)).1.reset 1)
    (m.get c 2 (.ofRecord false)).2 = .ok (⟨⟨[1], [10]⟩, true⟩, 0) ∧
      StaysLive c 2 0 (m.get c 2 (.ofRecord false)).1 := by
  intro c m
  have hres : (m.get c 2 (.ofRecord false)).2 = .ok (⟨⟨[1], [10]⟩, true⟩, 0) := by decide +kernel
  have hrun : run (memStep c) empty [.get 1 (.ofRecord false), .reset 1] = some m := rfl
  have hbuf : m.inUse 2 = false := by decide +kernel
  exact ⟨hres, ((get_staysLive_iff hrun hbuf (Prod.ext rfl hres)).2 ⟨rfl, nofun, .inl (by decide +kernel)⟩).2⟩

/-- The record of a file that is still being built has been freed when `Get` returns it. -/
theorem get_building_freed :
    let c := ReadConfig.oneRecord true false
    (empty.get c 1 (.ofRecord true)).2 = .ok (⟨⟨[1], [10]⟩, true⟩, 0) ∧
      (empty.get c 1 (.ofRecord true)).1.heap.live 0 = false := by
  decide +kernel

end Mem

end ValueSep.DiffKV
