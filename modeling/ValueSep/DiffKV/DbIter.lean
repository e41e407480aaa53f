import ValueSep.DiffKV.Get
import ValueSep.Lib.Cursor

/-!
# The iterator

`TitanDBIterator` wraps the base DB's iterator: every move is made there first, and at a blob index the value is
fetched at once through a prefetcher for the index's file. `Valid` asks the base iterator only. A fetch that fails
leaves a status and, in `record_`, what an earlier position has left: the bytes themselves, or the memory they were
in if `buffer_` has been reset in the meantime. The base iterator shows the live keys of its snapshot in the order of
the comparator.
-/

namespace ValueSep.DiffKV

open Coding
open List Option BlobIndex Cursor World Exec

/-! ### Decoding an index -/

namespace BlobIndex

/-- `DecodeInto`: nothing may follow the index. -/
def decodeInto (src : Bytes) : Except Status BlobIndex :=
  match decodeHead src with
  | .error st => .error st
  | .ok (i, rest) => if rest.isEmpty then .ok i else .error (.corruption "")

theorem decodeFrom_of_decodeInto {src : Bytes} {i : BlobIndex} (h : decodeInto src = .ok i) : decodeFrom src = .ok i := by
  unfold decodeInto at h
  repeat' split at h
  all_goals cases h
  next hdec => rw [decodeFrom, hdec]; rfl

theorem ne_ok_of_decodeInto {src : Bytes} {st : Status} (h : decodeInto src = .error st) : st ≠ .ok := by
  unfold decodeInto at h
  repeat' split at h
  all_goals cases h
  next hdec => exact ne_ok_of_decodeHead hdec
  next => exact nofun

end BlobIndex

/-! ### The base iterator -/

structure BaseEntry where
  key : Slice
  isBlob : Bool
  value : Bytes
deriving DecidableEq, Repr

/-- What the base DB's iterator walks over at its snapshot. -/
structure Snapshot (o : Options) where
  entries : List BaseEntry
  sorted : entries.Pairwise fun a b => o.comparator a.key b.key = .lt

inductive IterCall
  | seekToFirst | seekToLast | seek (target : Slice) | seekForPrev (target : Slice) | next | prev
deriving DecidableEq, Repr

/-- The base iterator's position after a call; `Next` and `Prev` are for a valid iterator. -/
def Snapshot.move {o : Options} (snap : Snapshot o) (pos : Option Nat) : IterCall → Option (Option Nat)
  | .seekToFirst => some (first snap.entries)
  | .seekToLast => some (last snap.entries)
  | .seek target => some (seek snap.entries fun e => o.comparator e.key target != .lt)
  | .seekForPrev target => some (seekBack snap.entries fun e => o.comparator e.key target != .gt)
  | .next => pos.map (next snap.entries)
  | .prev => pos.map prev

/-! ### TitanDBIterator -/

/-- What goes wrong during one call, and what memory that has been given back then yields. -/
structure ReadFaults where
  /-- In the base iterator. -/
  base : Fault := none
  /-- Opening the blob file, or reading its footer. -/
  openFile : Fault := none
  /-- Reading the record. -/
  read : Fault := none
  freed : Slice → Slice := id

structure TitanDBIterator where
  /-- Position and status of `iter_`. -/
  pos : Option Nat
  baseStatus : Status
  /-- `status_`. -/
  status : Status
  /-- `record_.value`. -/
  record : Slice
  /-- `files_`: the files with a prefetcher, and its `only_value_`. -/
  files : List (Nat × Bool)

namespace World

variable (o : Options) (w : World)

/-- `BlobStorage::NewPrefetcher`: the `only_value_` of the prefetcher. -/
def newPrefetcher (fault : Fault) (n : Nat) : Except Status Bool :=
  match w.storage.findFile n with
  | none => .error (.corruption ("Missing blob wfile: " ++ toString n))
  | some m =>
    match fault with
    | some msg => .error (.ioError msg)
    | none =>
      match w.disk n with
      | none => .error (.ioError "")
      | some file =>
        match openReader o m.fileSize file.flushed with
        | .ok => .ok (readsOnlyValue o m)
        | st => .error st

/-- `BlobFilePrefetcher::Get` and `PointGet`; reading ahead changes nothing that is returned. -/
def prefetcherGet (fault : Fault) (onlyValue : Bool) (i : BlobIndex) : Except Status Slice :=
  match fault with
  | some msg => .error (.ioError msg)
  | none =>
    match w.disk i.fileNumber with
    | none => .error (.ioError "")
    | some file =>
      match readRecord o.codec onlyValue file.flushed i.blobHandle with
      | .error e => .error e
      | .ok r => .ok r.value

/-- `GetImpl` at an entry of the snapshot. -/
def getBase (freed : Slice → Slice) (e : BaseEntry) : Except Status Slice :=
  if e.isBlob then
    match decodeFrom e.value with
    | .error st => .error st
    | .ok i => w.getBlob o freed i
  else .ok e.value

end World

/-- `Get` at the snapshot. -/
def Snapshot.get {o : Options} (snap : Snapshot o) (w : World) (freed : Slice → Slice) (k : Slice) :
    Except Status (Option Slice) :=
  match snap.entries.find? fun e => e.key == k with
  | none => .ok none
  | some e => (w.getBase o freed e).map some

namespace TitanDBIterator

/-- A new iterator. -/
def start : TitanDBIterator := ⟨none, .ok, .ok, [], []⟩

variable {o : Options} (keyOnly : Bool) (w : World) (snap : Snapshot o) (t : TitanDBIterator)

def entry : Option BaseEntry := get? snap.entries t.pos

def valid : Bool := (t.entry snap).isSome

/-- `status()`. -/
def currentStatus : Status := if t.status = .ok then t.baseStatus else t.status

/-- `value()`; only for a valid iterator. -/
def value : Slice :=
  match t.entry snap with
  | none => []
  | some e => if keyOnly then [] else if e.isBlob then t.record else e.value

/-- The prefetcher in `files_`, or a new one. -/
def prefetcher (fault : Fault) (n : Nat) : Except Status (List (Nat × Bool) × Bool) :=
  match t.files.lookup n with
  | some onlyValue => .ok (t.files, onlyValue)
  | none =>
    match w.newPrefetcher o fault n with
    | .error st => .error st
    | .ok onlyValue => .ok ((n, onlyValue) :: t.files, onlyValue)

def getBlobValue (f : ReadFaults) (e : BaseEntry) : TitanDBIterator :=
  match decodeInto e.value with
  | .error st => { t with status := st }
  | .ok i =>
    match t.prefetcher (o := o) w f.openFile i.fileNumber with
    | .error st => { t with status := st }
    | .ok (files, onlyValue) =>
      -- `buffer_` is reset before the read
      match w.prefetcherGet o f.read onlyValue i with
      | .error st => { t with files, status := st, record := f.freed t.record }
      | .ok v => { t with files, status := .ok, record := v }

/-- The end of every move: `ShouldGetBlobValue` and `GetBlobValue`. -/
def settle (f : ReadFaults) : TitanDBIterator :=
  match t.entry snap with
  | none => { t with status := t.baseStatus }
  | some e => if e.isBlob && !keyOnly then t.getBlobValue (o := o) w f e else { t with status := t.baseStatus }

def step (call : IterCall × ReadFaults) : Option TitanDBIterator :=
  match snap.move t.pos call.1 with
  | none => none
  | some pos =>
    let t : TitanDBIterator := match call.2.base with
      | none => { t with pos, baseStatus := .ok }
      | some msg => { t with pos := none, baseStatus := .ioError msg }
    some (t.settle keyOnly w snap call.2)

end TitanDBIterator

/-! ### Reading through a prefetcher -/

section

variable {o : Options} {w : World} {freed : Slice → Slice} {i : BlobIndex} {n : Nat} {onlyValue : Bool} {v : Slice}

variable {fault : Fault}

theorem World.newPrefetcher_eq_ok : w.newPrefetcher o fault n = .ok onlyValue ↔
    fault = none ∧ w.newPrefetcher o none n = .ok onlyValue := by
  unfold newPrefetcher
  cases w.storage.findFile n with
  | none => simp
  | some m => cases fault <;> simp

theorem World.prefetcherGet_eq_ok : w.prefetcherGet o fault onlyValue i = .ok v ↔
    fault = none ∧ w.prefetcherGet o none onlyValue i = .ok v := by
  unfold prefetcherGet
  cases fault <;> simp

theorem World.readRegisteredFile_eq {m : BlobFileMeta} (hm : w.storage.findFile i.fileNumber = some m) :
    w.readRegisteredFile o m i = (w.newPrefetcher o none i.fileNumber).bind (w.prefetcherGet o none · i) := by
  unfold readRegisteredFile newPrefetcher prefetcherGet
  rw [hm]
  cases w.disk i.fileNumber with
  | none => rfl
  | some file =>
    dsimp only
    cases openReader o m.fileSize file.flushed <;> rfl

theorem ne_ok_of_newPrefetcher {st : Status} (h : w.newPrefetcher o fault n = .error st) : st ≠ .ok := by
  unfold newPrefetcher at h
  repeat' split at h
  all_goals cases h
  iterate 3 exact nofun
  next hopen => exact hopen

theorem ne_ok_of_prefetcherGet {st : Status} (h : w.prefetcherGet o fault onlyValue i = .error st) : st ≠ .ok := by
  unfold prefetcherGet at h
  repeat' split at h
  all_goals cases h
  iterate 2 exact nofun
  next hrec =>
    obtain ⟨m, rfl⟩ := readRecord_error hrec
    exact nofun

theorem World.findFile_of_newPrefetcher (h : w.newPrefetcher o none n = .ok onlyValue) :
    ∃ m, w.storage.findFile n = some m := by
  unfold newPrefetcher at h
  split at h
  · cases h
  next m hm => exact ⟨m, hm⟩

theorem World.getBlob_of_registered {m : BlobFileMeta} (hm : w.storage.findFile i.fileNumber = some m) :
    w.getBlob o freed i = w.readRegisteredFile o m i := by rw [getBlob, hm]

end

namespace TitanDBIterator

variable {o : Options} {w : World} {snap : Snapshot o} {t t' : TitanDBIterator} {f : ReadFaults} {e : BaseEntry}

/-- The prefetchers of the iterator are as new ones would be. -/
def Prefetched (o : Options) (w : World) (t : TitanDBIterator) : Prop :=
  ∀ n onlyValue, t.files.lookup n = some onlyValue → w.newPrefetcher o none n = .ok onlyValue

variable {fault : Fault} {n : Nat} {onlyValue : Bool} {freed : Slice → Slice} {v : Slice} {call : IterCall × ReadFaults}

theorem prefetcher_eq_ok (h : t.Prefetched o w) {files : List (Nat × Bool)}
    : t.prefetcher (o := o) w fault n = .ok (files, onlyValue) →
      ((t.files.lookup n).isSome = true ∨ fault = none) ∧ w.newPrefetcher o none n = .ok onlyValue ∧
        ∀ k, files.lookup k = if k = n then some onlyValue else t.files.lookup k := by
  unfold prefetcher
  cases hl : t.files.lookup n with
  | some ov =>
    rintro ⟨⟩
    refine ⟨.inl rfl, h n onlyValue hl, fun k => ?_⟩
    split
    next hk => rw [hk, hl]
    · rfl
  | none =>
    cases hp : w.newPrefetcher o fault n with
    | error st => exact nofun
    | ok ov =>
      rintro ⟨⟩
      obtain ⟨hfault, hnew⟩ := newPrefetcher_eq_ok.1 hp
      refine ⟨.inr hfault, hnew, fun k => ?_⟩
      rw [lookup_cons]
      by_cases hk : k = n
      · simp [hk]
      · simp [hk, beq_eq_false_iff_ne.2 hk]

theorem prefetcher_ok (h : t.Prefetched o w)
    (hopen : (t.files.lookup n).isSome = true ∨ fault = none) (hnew : w.newPrefetcher o none n = .ok onlyValue) :
    ∃ files, t.prefetcher (o := o) w fault n = .ok (files, onlyValue) := by
  unfold prefetcher
  cases hl : t.files.lookup n with
  | some ov =>
    obtain rfl : ov = onlyValue := Except.ok.inj ((h n ov hl).symm.trans hnew)
    exact ⟨_, rfl⟩
  | none =>
    rcases hopen with hopen | rfl
    · rw [hl] at hopen
      cases hopen
    · rw [hnew]
      exact ⟨_, rfl⟩

theorem ne_ok_of_prefetcher {st : Status} (h : t.prefetcher (o := o) w fault n = .error st) : st ≠ .ok := by
  unfold prefetcher at h
  repeat' split at h
  all_goals cases h
  next hnew => exact ne_ok_of_newPrefetcher hnew

/-- The fetch at a blob index has nothing in its way and yields `v`: the index is well formed, its file is registered,
the file can be opened unless it has been before, and the record can be read. -/
structure Fetches (o : Options) (w : World) (t : TitanDBIterator) (f : ReadFaults) (e : BaseEntry) (v : Slice) :
    Prop where
  read : f.read = none
  found : ∃ i m, decodeInto e.value = .ok i ∧ w.storage.findFile i.fileNumber = some m ∧
    ((t.files.lookup i.fileNumber).isSome = true ∨ f.openFile = none) ∧ w.readRegisteredFile o m i = .ok v

theorem Fetches.getBase (h : Fetches o w t f e v) (he : e.isBlob = true) : w.getBase o freed e = .ok v := by
  obtain ⟨-, i, m, hi, hm, -, hv⟩ := h
  rw [World.getBase, if_pos he, BlobIndex.decodeFrom_of_decodeInto hi]
  exact (getBlob_of_registered hm).trans hv

theorem getBlobValue_of_fetches (hpre : t.Prefetched o w) (h : Fetches o w t f e v) :
    (t.getBlobValue (o := o) w f e).status = .ok ∧ (t.getBlobValue (o := o) w f e).record = v := by
  obtain ⟨hread, i, m, hi, hm, hopen, hv⟩ := h
  rw [readRegisteredFile_eq hm] at hv
  unfold getBlobValue
  rw [hi]
  cases hnew : w.newPrefetcher o none i.fileNumber with
  | error st => rw [hnew] at hv; cases hv
  | ok onlyValue =>
    rw [hnew] at hv
    obtain ⟨files, hfiles⟩ := prefetcher_ok hpre hopen hnew
    have hget : w.prefetcherGet o f.read onlyValue i = .ok v := prefetcherGet_eq_ok.2 ⟨hread, hv⟩
    simp only [hfiles, hget, and_self]

theorem fetches_of_status (hpre : t.Prefetched o w) (h : (t.getBlobValue (o := o) w f e).status = .ok) :
    ∃ v, Fetches o w t f e v := by
  unfold getBlobValue at h
  split at h
  next st hdec => exact absurd h (ne_ok_of_decodeInto hdec)
  next i hdec =>
    split at h
    next st hp => exact absurd h (ne_ok_of_prefetcher hp)
    next files onlyValue hp =>
      obtain ⟨hopen, hnew, -⟩ := prefetcher_eq_ok hpre hp
      obtain ⟨m, hm⟩ := findFile_of_newPrefetcher hnew
      split at h
      next st hget => exact absurd h (ne_ok_of_prefetcherGet hget)
      next v hget =>
        obtain ⟨hread, hv⟩ := prefetcherGet_eq_ok.1 hget
        refine ⟨v, hread, i, m, hdec, hm, hopen, ?_⟩
        rw [readRegisteredFile_eq hm, hnew]
        exact hv

theorem pos_getBlobValue : (t.getBlobValue (o := o) w f e).pos = t.pos := by
  unfold getBlobValue
  repeat' split
  all_goals rfl

theorem baseStatus_getBlobValue : (t.getBlobValue (o := o) w f e).baseStatus = t.baseStatus := by
  unfold getBlobValue
  repeat' split
  all_goals rfl

theorem Prefetched.of_prefetcher (h : t.Prefetched o w) {files : List (Nat × Bool)}
    (hp : t.prefetcher (o := o) w fault n = .ok (files, onlyValue)) :
    ∀ k ov, files.lookup k = some ov → w.newPrefetcher o none k = .ok ov := by
  obtain ⟨-, hnew, hfiles⟩ := prefetcher_eq_ok h hp
  intro k ov hk
  rw [hfiles] at hk
  split at hk
  next heq =>
    cases hk
    rw [heq]
    exact hnew
  · exact h k ov hk

theorem Prefetched.getBlobValue (h : t.Prefetched o w) : (t.getBlobValue (o := o) w f e).Prefetched o w := by
  unfold TitanDBIterator.getBlobValue
  split
  · exact h
  · split
    · exact h
    next hp =>
      split
      · exact h.of_prefetcher hp
      · exact h.of_prefetcher hp

/-! ### Every position of every run -/

/-- The entry at which a call leaves the base iterator. -/
def target (snap : Snapshot o) (t : TitanDBIterator) (call : IterCall × ReadFaults) : Option BaseEntry :=
  if call.2.base = none then (snap.move t.pos call.1).bind (get? snap.entries) else none

/-- The iterator is not valid, or `value()` is what `Get` returns for `key()` and the status says so. -/
def Sound (w : World) (snap : Snapshot o) (freed : Slice → Slice) (t : TitanDBIterator) : Prop :=
  ∀ e, t.entry snap = some e →
    t.currentStatus = .ok ∧ snap.get w freed e.key = .ok (some (t.value false snap))

theorem get_of_mem [Std.ReflCmp o.comparator] (hmem : e ∈ snap.entries) :
    snap.get w freed e.key = (w.getBase o freed e).map some := by
  have hnodup : (snap.entries.map BaseEntry.key).Nodup := by
    refine pairwise_map.2 (snap.sorted.imp fun hlt heq => ?_)
    rw [heq, @Std.ReflCmp.compare_self _ o.comparator] at hlt
    cases hlt
  rw [Snapshot.get, Keyed.find?_of_mem hnodup hmem]

theorem mem_of_entry (he : t.entry snap = some e) : e ∈ snap.entries := by
  rw [entry, get?, bind_eq_some_iff] at he
  obtain ⟨i, -, hi⟩ := he
  exact mem_of_getElem? hi

theorem pos_settle : (t.settle false w snap f).pos = t.pos := by
  unfold settle
  split
  · rfl
  · split
    · exact pos_getBlobValue
    · rfl

theorem entry_settle : (t.settle false w snap f).entry snap = t.entry snap := by rw [entry, pos_settle, entry]

theorem Prefetched.settle (h : t.Prefetched o w) : (t.settle false w snap f).Prefetched o w := by
  unfold TitanDBIterator.settle
  split
  · exact h
  · split
    · exact h.getBlobValue
    · exact h

/-- The position is sound exactly if there is nothing to fetch or the fetch has nothing in its way. -/
theorem sound_settle_iff [Std.ReflCmp o.comparator] (hpre : t.Prefetched o w)
    (hbase : (t.entry snap).isSome = true → t.baseStatus = .ok) : (t.settle false w snap f).Sound w snap freed ↔
      ∀ e, t.entry snap = some e → e.isBlob = true → ∃ v, Fetches o w t f e v := by
  cases he : t.entry snap with
  | none => simp [Sound, entry_settle, he]
  | some e =>
    rw [he] at hbase
    have hbase := hbase rfl
    have hget : snap.get w freed e.key = (w.getBase o freed e).map some := get_of_mem (mem_of_entry he)
    simp only [Sound, entry_settle, he, some.injEq, forall_eq', value, Bool.false_eq_true, if_false, hget]
    cases hb : e.isBlob with
    | false =>
      have hsettle : t.settle false w snap f = { t with status := t.baseStatus } := by
        simp [settle, he, hb]
      have hvalue : w.getBase o freed e = .ok e.value := by simp [getBase, hb]
      simp [hsettle, hvalue, currentStatus, hbase, Except.map]
    | true =>
      have hsettle : t.settle false w snap f = t.getBlobValue (o := o) w f e := by simp [settle, he, hb]
      rw [hsettle]
      simp only [if_true, forall_true_left]
      constructor
      · rintro ⟨hstatus, -⟩
        apply fetches_of_status hpre
        by_contra hne
        rw [currentStatus, if_neg hne] at hstatus
        exact hne hstatus
      · rintro ⟨v, hv⟩
        obtain ⟨hstatus, hrecord⟩ := getBlobValue_of_fetches hpre hv
        have hbase' : (t.getBlobValue (o := o) w f e).baseStatus = .ok := baseStatus_getBlobValue.trans hbase
        rw [currentStatus, if_pos hstatus, hbase', hrecord, hv.getBase hb]
        exact ⟨rfl, rfl⟩

/-- A call moves the base iterator, and then settles. -/
theorem step_eq_some (h : t.step false w snap call = some t') :
    ∃ t₁ : TitanDBIterator, t' = t₁.settle false w snap call.2 ∧ t₁.files = t.files ∧
      t₁.entry snap = t.target snap call ∧ ((t₁.entry snap).isSome = true → t₁.baseStatus = .ok) := by
  unfold step at h
  split at h
  · cases h
  next pos hmove =>
    cases h
    refine ⟨_, rfl, ?_⟩
    unfold target
    rw [hmove]
    cases call.2.base with
    | none => exact ⟨rfl, rfl, fun _ => rfl⟩
    | some msg => exact ⟨rfl, rfl, nofun⟩

theorem Fetches.congr {t₁ : TitanDBIterator} (hfiles : t₁.files = t.files) :
    Fetches o w t₁ f e v ↔ Fetches o w t f e v := by
  constructor
  · rintro ⟨hread, i, m, hi, hm, hopen, hv⟩
    exact ⟨hread, i, m, hi, hm, hfiles ▸ hopen, hv⟩
  · rintro ⟨hread, i, m, hi, hm, hopen, hv⟩
    exact ⟨hread, i, m, hi, hm, hfiles ▸ hopen, hv⟩

theorem Prefetched.step (h : t.Prefetched o w) (hs : t.step false w snap call = some t') : t'.Prefetched o w := by
  obtain ⟨t₁, rfl, hfiles, -⟩ := step_eq_some hs
  have h₁ : t₁.Prefetched o w := fun n onlyValue hn => h n onlyValue (hfiles ▸ hn)
  exact h₁.settle

theorem Prefetched.run {calls : List (IterCall × ReadFaults)}
    (h : run (TitanDBIterator.step false w snap) start calls = some t) : t.Prefetched o w := by
  have hall : Exec.AllSteps (TitanDBIterator.step false w snap) (fun _ _ => True) start calls :=
    .of_forall fun _ _ => trivial
  have hstart : start.Prefetched o w := fun _ _ hn => by cases hn
  exact run_inv (fun _ _ _ hpre _ hs => Prefetched.step hpre hs) hstart hall h

theorem sound_step_iff [Std.ReflCmp o.comparator]
    (hpre : t.Prefetched o w) (hstep : t.step false w snap call = some t') : t'.Sound w snap freed ↔
      ∀ e, t.target snap call = some e → e.isBlob = true → ∃ v, Fetches o w t call.2 e v := by
  obtain ⟨t₁, rfl, hfiles, hentry, hbase⟩ := step_eq_some hstep
  have hpre₁ : t₁.Prefetched o w := fun n onlyValue hn => hpre n onlyValue (hfiles ▸ hn)
  rw [sound_settle_iff hpre₁ hbase, hentry]
  refine forall_congr' fun e => forall_congr' fun _ => forall_congr' fun _ => exists_congr fun v => ?_
  exact Fetches.congr hfiles

/-- After any calls, whatever failed in them, one more call ends at a sound position exactly if there is nothing to
fetch there or the fetch has nothing in its way. -/
theorem sound_iff_fetches [Std.ReflCmp o.comparator] (w : World) (snap : Snapshot o) (freed : Slice → Slice)
    (calls : List (IterCall × ReadFaults)) (call : IterCall × ReadFaults) {t t' : TitanDBIterator}
    (hrun : run (TitanDBIterator.step false w snap) start calls = some t)
    (hstep : t.step false w snap call = some t') :
    t'.Sound w snap freed ↔
      ∀ e, t.target snap call = some e → e.isBlob = true → ∃ v, Fetches o w t call.2 e v :=
  sound_step_iff (Prefetched.run hrun) hstep

/-! Two keys, with their values in one blob file. -/

def twoBlobs : Bytes :=
  encodeFileHeader ++ (encodeRecord (.small false false) false ⟨[1], [10]⟩ ++
    (encodeRecord (.small false false) false ⟨[2], [20]⟩ ++ encodeFooter Codec.plain))

def twoBlobWorld : World where
  db := ⟨[], 0⟩
  fileSet := ⟨⟨[⟨1, 66, 2, .unSorted, 0, [1], [2], .normal, 0⟩], [], []⟩, [], 0, 2⟩
  disk := fun n => if n = 1 then some ⟨twoBlobs, [], 4096, 4096⟩ else none
  fg := fun _ => ⟨none, []⟩

def twoBlobSnapshot : Snapshot (.small false false) where
  entries := [⟨[1], true, encodeTo ⟨1, 8, 13⟩⟩, ⟨[2], true, encodeTo ⟨1, 21, 13⟩⟩]
  sorted := by decide

/-- The second call fetches from the file that the first one has opened. -/
theorem sound_second_blob :
    ∃ t t', run (TitanDBIterator.step false twoBlobWorld twoBlobSnapshot) start [(.seekToFirst, {})] = some t ∧
      t.step false twoBlobWorld twoBlobSnapshot (.next, { openFile := some "not opened again" }) = some t' ∧
      t'.value false twoBlobSnapshot = [20] ∧ t'.Sound twoBlobWorld twoBlobSnapshot id := by
  have hend : (run (TitanDBIterator.step false twoBlobWorld twoBlobSnapshot) start [(.seekToFirst, {})]).map
      (fun t => (t.pos, t.files, (t.step false twoBlobWorld twoBlobSnapshot
        (.next, { openFile := some "not opened again" })).map (TitanDBIterator.value false twoBlobSnapshot))) =
      some (some 0, [(1, false)], some [20]) := by
    decide +kernel
  obtain ⟨t, hrun, heq⟩ := map_eq_some_iff.1 hend
  simp only [Prod.mk.injEq] at heq
  obtain ⟨hpos, hfiles, hnext⟩ := heq
  obtain ⟨t', hstep, hvalue⟩ := map_eq_some_iff.1 hnext
  refine ⟨t, t', hrun, hstep, hvalue, (sound_iff_fetches _ _ _ _ _ hrun hstep).2 fun e he _ => ?_⟩
  have hsecond : t.target twoBlobSnapshot (.next, { openFile := some "not opened again" }) =
      some ⟨[2], true, encodeTo ⟨1, 21, 13⟩⟩ := by
    unfold target
    rw [hpos]
    rfl
  rw [hsecond] at he
  cases he
  refine ⟨[20], rfl, ⟨1, 21, 13⟩, ⟨1, 66, 2, .unSorted, 0, [1], [2], .normal, 0⟩, by decide +kernel, rfl, .inl ?_,
    by decide +kernel⟩
  rw [hfiles]
  rfl

/-- The second read fails: the iterator is valid at the second key, and shows the value of the first. -/
theorem valid_after_failed_read :
    (run (TitanDBIterator.step false twoBlobWorld twoBlobSnapshot) start
      [(.seekToFirst, {}), (.next, { read := some "Injected error" })]).map (fun t =>
        (t.valid twoBlobSnapshot, (t.entry twoBlobSnapshot).map BaseEntry.key, t.value false twoBlobSnapshot,
          t.currentStatus)) = some (true, some [2], [10], .ioError "Injected error") ∧
    twoBlobSnapshot.get twoBlobWorld id [2] = .ok (some [20]) := by
  decide +kernel

end TitanDBIterator

end ValueSep.DiffKV
