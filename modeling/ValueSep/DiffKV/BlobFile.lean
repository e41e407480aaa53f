import ValueSep.DiffKV.FileIterator

/-!
# A blob file from the builder to its readers

The whole of `BlobFileBuilder` on a list of records, `BlobFileReader` with its blob cache, and `BlobFileIterator`.
What the cache holds for a record is the buffer that `ReadRecord` leaves: the bytes behind the record's header, or
what they uncompress to. A reader goes through any number of reads, and the cache may drop entries in between.
-/

namespace ValueSep.DiffKV

open Coding
open List Option BlobFileIterator WritableFile BlobRecord Prod

/-! ### The builder on a list of records -/

namespace BlobFileBuilder

/-- `Add` of each record, with the handles that come back. -/
def addAll (o : Options) (onlyValue : Bool) : List BlobRecord → WritableFile → BlobFileBuilder →
    WritableFile × BlobFileBuilder × List BlobHandle
  | [], file, b => (file, b, [])
  | r :: rs, file, b =>
    let (file, b, handle) := b.add o onlyValue none file r
    let (file, b, handles) := addAll o onlyValue rs file b
    (file, b, handle :: handles)

/-- A new file with these records, finished. -/
def build (o : Options) (onlyValue : Bool) (maxBufferSize number : Nat) (rs : List BlobRecord) :
    WritableFile × Status × List BlobHandle :=
  let (file, b) := create none number (.create maxBufferSize)
  let (file, b, handles) := addAll o onlyValue rs file b
  let (file, b) := b.finish o none file
  (file, b.status, handles)

end BlobFileBuilder

/-- The records with their places in the file. -/
def placed (o : Options) (onlyValue : Bool) : Nat → List BlobRecord → List (BlobRecord × BlobHandle)
  | _, [] => []
  | offset, r :: rs =>
    (r, ⟨offset, (encodeRecord o onlyValue r).length⟩) ::
      placed o onlyValue (offset + (encodeRecord o onlyValue r).length) rs

/-! ### The reader -/

/-- The buffer that `ReadRecord` leaves beside the record: what is behind the header, or the output of `Uncompress`. -/
def recordBuffer (c : Codec) (blob : Bytes) : Bytes :=
  match decodeHeader blob with
  | .error _ => []
  | .ok (h, src) =>
    if h.compression = kNoCompression then src
    else
      match c.unpack h.compression (c.slice src h.recordSize) with
      | .error _ => []
      | .ok raw => raw

structure BlobFileReader where
  flushed : Bytes
  /-- `blob_cache` is set. -/
  cached : Bool
  /-- Its entries under the reader's prefix, by offset. -/
  cache : List (Nat × Bytes)

inductive ReaderEvent
  | get (handle : BlobHandle)
  /-- The cache drops an entry. -/
  | evict (offset : Nat)

namespace BlobFileReader

variable (o : Options) (onlyValue : Bool) (rd : BlobFileReader)

/-- `Get` for a record in this mode. -/
def get (handle : BlobHandle) : BlobFileReader × Except Status BlobRecord :=
  match if rd.cached then rd.cache.lookup handle.offset else none with
  | some blob => (rd, decodeInto onlyValue blob)
  | none =>
    match readRecord o.codec onlyValue rd.flushed handle with
    | .error e => (rd, .error e)
    | .ok r =>
      let buffer := recordBuffer o.codec (readAt rd.flushed handle.offset handle.size)
      (if rd.cached then { rd with cache := (handle.offset, buffer) :: rd.cache } else rd, .ok r)

def step : ReaderEvent → BlobFileReader
  | .get handle => (rd.get o onlyValue handle).1
  | .evict offset => { rd with cache := rd.cache.filter fun p => p.1 ≠ offset }

end BlobFileReader

/-! ### Where the records are -/

section

variable {o : Options} {onlyValue : Bool} {rs : List BlobRecord} {offset : Nat}


theorem le_offset_of_placed {p : BlobRecord × BlobHandle} (hp : p ∈ placed o onlyValue offset rs) :
    offset ≤ p.2.offset := by
  induction rs generalizing offset with
  | nil => cases hp
  | cons r rs ih =>
    rcases mem_cons.1 hp with rfl | hp
    · exact Nat.le_refl _
    · have hle := ih hp
      omega

theorem placed_inj {p q : BlobRecord × BlobHandle} (hp : p ∈ placed o onlyValue offset rs)
    (hq : q ∈ placed o onlyValue offset rs) (h : p.2.offset = q.2.offset) : p = q := by
  induction rs generalizing offset with
  | nil => cases hp
  | cons r rs ih =>
    have hpos := length_encodeRecord_pos o onlyValue r
    rcases mem_cons.1 hp with rfl | hp
    · rcases mem_cons.1 hq with rfl | hq
      · rfl
      · have hle := le_offset_of_placed hq
        dsimp only at h
        omega
    · rcases mem_cons.1 hq with rfl | hq
      · have hle := le_offset_of_placed hp
        dsimp only at h
        omega
      · exact ih hp hq

theorem map_fst_placed (o : Options) (onlyValue : Bool) (offset : Nat) (rs : List BlobRecord) :
    (placed o onlyValue offset rs).map fst = rs := by
  induction rs generalizing offset with
  | nil => rfl
  | cons r rs ih => simp [placed, ih]

theorem recordBuffer_encodeRecord {r : BlobRecord} (h : Encodable o onlyValue r) :
    recordBuffer o.codec (encodeRecord o onlyValue r) = r.encodeTo onlyValue := by
  obtain ⟨header, crc, henc, -, hh⟩ := encodeRecord_eq_append h
  have hunpack := Codec.unpack_compress o.codec o.blobFileCompression (r.encodeTo onlyValue)
  rw [recordBuffer, henc, hh]
  simp only [Codec.slice_of_le _ (Nat.le_refl _), take_length, hunpack]
  split
  next ht =>
    rw [ht] at hunpack
    exact Except.ok.inj hunpack
  · rfl

theorem read_placed (hrs : ∀ r ∈ rs, Encodable o onlyValue r) (pre post : Bytes) :
    ∀ p ∈ placed o onlyValue pre.length rs,
      let content := pre ++ rs.flatMap (encodeRecord o onlyValue) ++ post
      readRecord o.codec onlyValue content p.2 = .ok (p.1.readBack onlyValue) ∧
        recordBuffer o.codec (readAt content p.2.offset p.2.size) = p.1.encodeTo onlyValue := by
  induction rs generalizing pre with
  | nil => nofun
  | cons r rs ih =>
    rw [forall_mem_cons] at hrs
    intro p hp
    rcases mem_cons.1 hp with rfl | hp
    · have hread := readRecord_encodeRecord hrs.1 pre (rs.flatMap (encodeRecord o onlyValue) ++ post)
      have hbuffer := recordBuffer_encodeRecord hrs.1
      rw [← readAt_append_left pre (encodeRecord o onlyValue r) (rs.flatMap (encodeRecord o onlyValue) ++ post)] at hbuffer
      simpa only [flatMap_cons, append_assoc] using And.intro hread hbuffer
    · rw [← length_append] at hp
      simpa only [flatMap_cons, append_assoc] using ih hrs.2 (pre ++ encodeRecord o onlyValue r) p hp

end

/-! ### What the builder leaves -/

namespace BlobFileBuilder

variable {o : Options} {onlyValue : Bool}

theorem addAll_eq (o : Options) (onlyValue : Bool) (rs : List BlobRecord) (file : WritableFile) {b : BlobFileBuilder}
    (hb : b.status = .ok) :
    ∃ file', addAll o onlyValue rs file b = (file', (rs.map (·.key)).foldl (·.addKey o) b,
        (placed o onlyValue file.fileSize rs).map snd) ∧
      file'.content = file.content ++ rs.flatMap (encodeRecord o onlyValue) := by
  induction rs generalizing file b with
  | nil => exact ⟨file, rfl, by simp⟩
  | cons r rs ih =>
    have hadded : (b.addKey o r.key).status = .ok := by rw [status_addKey, hb]
    obtain ⟨file', hall, hcontent⟩ := ih (file.append (encodeRecord o onlyValue r)) hadded
    refine ⟨file', ?_, ?_⟩
    · have hsize : (file.append (encodeRecord o onlyValue r)).fileSize =
          file.fileSize + (encodeRecord o onlyValue r).length := by
        simp [fileSize]
      rw [hsize] at hall
      simp [addAll, add_of_ok hb, hall, placed]
    · rw [hcontent, content_append, flatMap_cons, append_assoc]

theorem status_foldl_addKey (keys : List Slice) (b : BlobFileBuilder) :
    (keys.foldl (·.addKey o) b).status = b.status := by
  induction keys generalizing b with
  | nil => rfl
  | cons k keys ih => rw [foldl_cons, ih, status_addKey]

theorem build_eq (o : Options) (onlyValue : Bool) (rs : List BlobRecord) (maxBufferSize number : Nat) :
    ∃ file, build o onlyValue maxBufferSize number rs =
        (file, .ok, (placed o onlyValue kBlobHeaderSize rs).map snd) ∧
      file.flushed = encodeFileHeader ++ rs.flatMap (encodeRecord o onlyValue) ++ encodeFooter o.codec ∧
      file.buf = [] := by
  have hst : (create none number (.create maxBufferSize)).2.status = .ok := rfl
  obtain ⟨file, hall, hcontent⟩ := addAll_eq o onlyValue rs (create none number (.create maxBufferSize)).1 hst
  have hcreate : (create none number (.create maxBufferSize)).1.content = encodeFileHeader := by
    simp [create]
  rw [fileSize, hcreate] at hall
  rw [hcreate] at hcontent
  refine ⟨((file.append (encodeFooter o.codec)).flush), ?_, ?_, rfl⟩
  · have hb := (status_foldl_addKey (o := o) (rs.map (·.key)) _).trans hst
    have hall' : addAll o onlyValue rs (create none number (.create maxBufferSize)).1
        (create none number (.create maxBufferSize)).2 =
        (file, _, (placed o onlyValue kBlobHeaderSize rs).map snd) := hall
    simp [build, hall', finish, hb]
  · show (file.append (encodeFooter o.codec)).content = _
    rw [content_append, hcontent]

end BlobFileBuilder

/-! ### Any number of reads -/

namespace BlobFileReader

variable {o : Options} {onlyValue : Bool} {rs : List BlobRecord} {rd : BlobFileReader}

/-- The reader has the file open, and what its cache holds at a record's offset is that record. -/
structure Holds (o : Options) (onlyValue : Bool) (rs : List BlobRecord) (rd : BlobFileReader) : Prop where
  flushed : rd.flushed = encodeFileHeader ++ rs.flatMap (encodeRecord o onlyValue) ++ encodeFooter o.codec
  cache : ∀ p ∈ placed o onlyValue kBlobHeaderSize rs, ∀ blob,
    rd.cache.lookup p.2.offset = some blob → blob = p.1.encodeTo onlyValue

theorem lookup_evict (cache : List (Nat × Bytes)) (offset n : Nat) :
    (cache.filter fun p => p.1 ≠ offset).lookup n = if n = offset then none else cache.lookup n := by
  induction cache with
  | nil => simp
  | cons p cache ih =>
    obtain ⟨k, -⟩ := p
    rw [filter_cons, lookup_cons]
    by_cases hk : k = offset
    · subst hk
      rw [if_neg (by simp), ih]
      by_cases hn : n = k
      · rw [if_pos hn, if_pos hn]
      · rw [if_neg hn, if_neg hn, beq_eq_false_iff_ne.2 hn]
    · rw [if_pos (by simpa using hk), lookup_cons]
      by_cases hn : n = k
      · subst hn
        rw [beq_self_eq_true, if_neg hk]
      · rw [beq_eq_false_iff_ne.2 hn]
        exact ih

section
variable (h : rd.Holds o onlyValue rs) (hrs : ∀ r ∈ rs, Encodable o onlyValue r)
include h hrs

theorem Holds.get {p : BlobRecord × BlobHandle} (hp : p ∈ placed o onlyValue kBlobHeaderSize rs) :
    (rd.get o onlyValue p.2).1.Holds o onlyValue rs ∧ (rd.get o onlyValue p.2).2 = .ok (p.1.readBack onlyValue) := by
  have hr : p.1 ∈ rs := by
    rw [← map_fst_placed o onlyValue kBlobHeaderSize rs]
    exact mem_map_of_mem hp
  unfold BlobFileReader.get
  split
  next blob hblob =>
    refine ⟨h, ?_⟩
    have hlookup : rd.cache.lookup p.2.offset = some blob := by
      split at hblob
      · exact hblob
      · cases hblob
    rw [h.cache p hp blob hlookup, decodeInto_encodeTo_as (hrs p.1 hr)]
  · obtain ⟨hread, hbuffer⟩ := read_placed hrs encodeFileHeader (encodeFooter o.codec) p hp
    rw [← h.flushed] at hread hbuffer
    simp only [hread, hbuffer, and_true]
    split
    · refine ⟨h.flushed, fun q hq blob hblob => ?_⟩
      rw [lookup_cons] at hblob
      by_cases heq : q.2.offset = p.2.offset
      · obtain rfl := placed_inj hq hp heq
        simpa using hblob.symm
      · rw [beq_eq_false_iff_ne.2 heq] at hblob
        exact h.cache q hq blob hblob
    · exact h

theorem Holds.step {e : ReaderEvent}
    (he : ∀ handle, e = .get handle → handle ∈ (placed o onlyValue kBlobHeaderSize rs).map snd) :
    (rd.step o onlyValue e).Holds o onlyValue rs := by
  cases e with
  | get handle =>
    obtain ⟨p, hp, rfl⟩ := mem_map.1 (he handle rfl)
    exact (h.get hrs hp).1
  | evict offset =>
    refine ⟨h.flushed, fun p hp blob hblob => h.cache p hp blob ?_⟩
    change lookup _ (rd.cache.filter _) = _ at hblob
    rw [lookup_evict] at hblob
    split at hblob
    · cases hblob
    · exact hblob

theorem Holds.foldl {es : List ReaderEvent}
    (hes : ∀ handle, .get handle ∈ es → handle ∈ (placed o onlyValue kBlobHeaderSize rs).map snd) :
    (es.foldl (BlobFileReader.step o onlyValue) rd).Holds o onlyValue rs :=
  foldlRecOn es _ h fun _ h _ he => h.step hrs fun handle heq => hes handle (heq ▸ he)

end

end BlobFileReader

/-! ### Round trip -/

/-- The file as the iterator opens it; no read fails. -/
def InputFile.ofContent (number : Nat) (rs : List BlobRecord) (flushed : Bytes) : InputFile :=
  ⟨number, rs, fun offset n => .ok (readAt flushed offset n)⟩

theorem recordsFrom_eq_zipWith (o : Options) (n offset : Nat) (rs : List BlobRecord) :
    GcState.recordsFrom o n offset rs =
      zipWith (fun r handle => ⟨r, ⟨n, handle⟩⟩) rs ((placed o false offset rs).map snd) := by
  induction rs generalizing offset with
  | nil => rfl
  | cons r rs ih =>
    rw [GcState.recordsFrom, ih]
    rfl

theorem placed_getElem? {o : Options} {onlyValue : Bool} {offset i : Nat} {rs : List BlobRecord} {r : BlobRecord}
    {handle : BlobHandle} (hr : rs[i]? = some r) (hh : ((placed o onlyValue offset rs).map snd)[i]? = some handle) :
    (r, handle) ∈ placed o onlyValue offset rs := by
  rw [← map_fst_placed o onlyValue offset rs, getElem?_map, map_eq_some_iff] at hr
  rw [getElem?_map, map_eq_some_iff] at hh
  obtain ⟨p, hp, rfl⟩ := hr
  obtain ⟨q, hq, rfl⟩ := hh
  obtain rfl : p = q := some_inj.1 (hp.symm.trans hq)
  exact mem_of_getElem? hp

/-- Every record comes back under its handle, from the file and from the cache, and the iterator shows all of them
with their handles before it stops without an error. -/
theorem BlobFileBuilder.build_round_trip (o : Options) (onlyValue : Bool) (maxBufferSize number : Nat)
    {rs : List BlobRecord} (hrs : ∀ r ∈ rs, Encodable o onlyValue r) :
    ∃ file handles, build o onlyValue maxBufferSize number rs = (file, .ok, handles) ∧
      handles.length = rs.length ∧ openReader o file.fileSize file.flushed = .ok ∧
      (∀ (cached : Bool) (es : List ReaderEvent), (∀ handle, .get handle ∈ es → handle ∈ handles) →
        ∀ (i : Nat) r handle, rs[i]? = some r → handles[i]? = some handle →
          ((es.foldl (BlobFileReader.step o onlyValue) ⟨file.flushed, cached, []⟩).get o onlyValue handle).2 =
            .ok (r.readBack onlyValue)) ∧
      (onlyValue = false → file.fileSize < 2 ^ 64 →
        let f := InputFile.ofContent number rs file.flushed
        let it := (BlobFileIterator.create f).seekToFirst o
        f.fileSize o = file.fileSize ∧
          it.yields o = zipWith (fun r handle => ⟨r, ⟨number, handle⟩⟩) rs handles ∧
          ((next o)^[rs.length] it).isValid = false ∧
          ((next o)^[rs.length] it).status = .ok) := by
  obtain ⟨file, hbuild, hflushed, hbuf⟩ := build_eq o onlyValue rs maxBufferSize number
  have hsize : file.fileSize =
      (encodeFileHeader ++ rs.flatMap (encodeRecord o onlyValue)).length + kBlobFooterSize := by
    rw [fileSize, content, hbuf, hflushed, append_nil, length_append,
      length_encodeFooter]
  refine ⟨file, _, hbuild, ?_, ?_, ?_, ?_⟩
  · rw [length_map, ← length_map, map_fst_placed]
  · rw [hsize, hflushed]
    exact openReader_encodeFooter o _
  · intro cached es hes i r handle hr hhandle
    have hnew : BlobFileReader.Holds o onlyValue rs ⟨file.flushed, cached, []⟩ := ⟨hflushed, by simp⟩
    exact ((hnew.foldl hrs hes).get hrs (placed_getElem? hr hhandle)).2
  · rintro rfl h64
    have hwritten : InputFile.ofContent number rs file.flushed = .written o number rs fun _ _ => none := by
      rw [hflushed]
      rfl
    have hfile : (InputFile.written o number rs fun _ _ => none).fileSize o = file.fileSize := by
      rw [hsize, length_append]
      rfl
    have hfails := InputFile.not_fails_written (n := number) hrs
    obtain ⟨hyields, hlast⟩ := shows_seekToFirst hfails (by rw [hfile]; exact h64)
    rw [hwritten]
    exact ⟨hfile, hyields.trans (recordsFrom_eq_zipWith o number kBlobHeaderSize rs), hlast⟩

/-- A record with a value, one without, and one without a key. -/
theorem BlobFileBuilder.build_round_trip_three :
    (∀ r ∈ [(⟨[1], [2, 3]⟩ : BlobRecord), ⟨[4], []⟩, ⟨[], [5]⟩], Encodable (.small true false) false r) ∧
      ∃ file handles, build (.small true false) false 4096 1 [⟨[1], [2, 3]⟩, ⟨[4], []⟩, ⟨[], [5]⟩] =
          (file, .ok, handles) ∧
        ((BlobFileReader.step (.small true false) false ⟨file.flushed, true, []⟩ (.get ⟨8, 14⟩)).get
          (.small true false) false ⟨8, 14⟩).2 = .ok ⟨[1], [2, 3]⟩ := by
  have hrs : ∀ r ∈ [(⟨[1], [2, 3]⟩ : BlobRecord), ⟨[4], []⟩, ⟨[], [5]⟩], Encodable (.small true false) false r := by
    decide +kernel
  obtain ⟨file, handles, hbuild, -, -, hget, -⟩ := build_round_trip (.small true false) false 4096 1 hrs
  have hhead : (build (.small true false) false 4096 1 [⟨[1], [2, 3]⟩, ⟨[4], []⟩, ⟨[], [5]⟩]).2.2[0]? =
      some ⟨8, 14⟩ := by
    decide +kernel
  rw [hbuild] at hhead
  refine ⟨hrs, file, handles, hbuild, ?_⟩
  refine hget true [.get ⟨8, 14⟩] ?_ 0 ⟨[1], [2, 3]⟩ ⟨8, 14⟩ rfl hhead
  rintro handle hmem
  obtain rfl : handle = ⟨8, 14⟩ := by simpa using hmem
  exact mem_of_getElem? hhead

end ValueSep.DiffKV
