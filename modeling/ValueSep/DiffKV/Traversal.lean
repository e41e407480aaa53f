import ValueSep.DiffKV.DbIter

/-!
# A whole traversal and point reads

`SeekToFirst` and then `Next` while the iterator is valid, without any fault of the environment, against `Get` of the
same snapshot. `Get` falls back to the reader of a file that is still being built; `NewPrefetcher` knows registered
files only.
-/

namespace ValueSep.DiffKV

open List Option Cursor BlobIndex World

/-- What the base iterator shows of an LSM entry. -/
def LsmEntry.shown (k : Slice) : LsmEntry → BaseEntry
  | .value v => ⟨k, false, v⟩
  | .blobIndex i => ⟨k, true, i.encodeTo⟩

/-- The fields of an index are 64 bit numbers. -/
structure BlobIndex.Fits (i : BlobIndex) : Prop where
  fileNumber : i.fileNumber < 2 ^ 64
  offset : i.blobHandle.offset < 2 ^ 64
  size : i.blobHandle.size < 2 ^ 64

/-- The snapshot is the contents of the base DB. -/
structure Snapshot.Shows {o : Options} (snap : Snapshot o) (db : BaseDb) : Prop where
  mem : ∀ e, e ∈ snap.entries ↔ ∃ x, db.get e.key = some x ∧ e = x.shown e.key
  fits : ∀ k i, db.get k = some (.blobIndex i) → i.Fits

/-- `Get` at sequence number `q`. -/
def World.getAt (o : Options) (freed : Slice → Slice) (w : World) (q : SequenceNumber) (k : Slice) :
    Except Status (Option Slice) :=
  w.getEntry o freed ((w.db.asOf q).get k)

namespace TitanDBIterator

/-- What a reader of the iterator sees at one position. -/
structure Seen where
  key : Slice
  value : Slice
  status : Status
deriving DecidableEq, Repr

variable {o : Options} (w : World) (snap : Snapshot o)

/-- Reads on while the iterator is valid, and then asks for the status; `none` if the fuel does not last. -/
def walk : Nat → TitanDBIterator → Option (List Seen × Status)
  | 0, _ => none
  | fuel + 1, t =>
    match t.entry snap with
    | none => some ([], t.currentStatus)
    | some e => do
      let t' ← t.step false w snap (.next, {})
      let (rest, st) ← walk fuel t'
      some (⟨e.key, t.value false snap, t.currentStatus⟩ :: rest, st)

def traverse : Option (List Seen × Status) := do
  let t ← start.step false w snap (.seekToFirst, {})
  walk w snap (snap.entries.length + 1) t

end TitanDBIterator

/-! ### What a snapshot shows -/

theorem decodeInto_encodeTo {i : BlobIndex} (h : i.Fits) : decodeInto i.encodeTo = .ok i := by
  have hsize := Coding.getVarint64_putVarint64 h.size []
  rw [append_nil] at hsize
  simp [decodeInto, decodeHead, encodeTo, Coding.getVarint64_putVarint64 h.fileNumber, Coding.getVarint64_putVarint64 h.offset, hsize]

theorem World.getBase_shown {o : Options} {w : World} {freed : Slice → Slice} {k : Slice} {x : LsmEntry}
    (hfits : ∀ i, x = .blobIndex i → i.Fits) : (w.getBase o freed (x.shown k)).map some = w.getEntry o freed (some x) := by
  cases x with
  | value v => rfl
  | blobIndex i =>
    have hdec := decodeFrom_of_decodeInto (decodeInto_encodeTo (hfits i rfl))
    have hbase : w.getBase o freed (LsmEntry.shown k (.blobIndex i)) = w.getBlob o freed i := by
      simp [getBase, LsmEntry.shown, hdec]
    rw [hbase]
    rfl

theorem Snapshot.Shows.get_eq {o : Options} {snap : Snapshot o} {db : BaseDb} (h : snap.Shows db) (w : World)
    (freed : Slice → Slice) (k : Slice) : snap.get w freed k = w.getEntry o freed (db.get k) := by
  unfold Snapshot.get
  cases hfind : snap.entries.find? fun e => e.key == k with
  | none =>
    have hnone : db.get k = none := by
      by_contra hsome
      obtain ⟨x, hx⟩ := ne_none_iff_exists'.1 hsome
      have hkey : (x.shown k).key = k := by cases x <;> rfl
      have hmem := (h.mem (x.shown k)).2 ⟨x, by rw [hkey]; exact hx, by rw [hkey]⟩
      have hne := find?_eq_none.1 hfind _ hmem
      simp [hkey] at hne
    rw [hnone]
    rfl
  | some e =>
    obtain ⟨x, hx, he⟩ := (h.mem e).1 (mem_of_find?_eq_some hfind)
    have hkey : e.key = k := by simpa using find?_some hfind
    rw [hkey] at hx he
    rw [he, hx]
    exact getBase_shown fun i hi => h.fits k i (hi ▸ hx)

/-! ### The walk -/

namespace TitanDBIterator

/-- The blob that an entry names can be read from a registered file. -/
def Readable (o : Options) (w : World) (e : BaseEntry) (v : Slice) : Prop :=
  ∃ i m, decodeInto e.value = .ok i ∧ w.storage.findFile i.fileNumber = some m ∧
    w.readRegisteredFile o m i = .ok v

variable {o : Options} {w : World} {snap : Snapshot o} {freed : Slice → Slice} {t : TitanDBIterator}

theorem fetches_iff_readable {e : BaseEntry} {v : Slice} : Fetches o w t {} e v ↔ Readable o w e v := by
  constructor
  · rintro ⟨-, i, m, hi, hm, -, hv⟩
    exact ⟨i, m, hi, hm, hv⟩
  · rintro ⟨i, m, hi, hm, hv⟩
    exact ⟨rfl, i, m, hi, hm, .inr rfl, hv⟩

theorem step_quiet [Std.ReflCmp o.comparator] (freed : Slice → Slice) (hpre : t.Prefetched o w) {call : IterCall}
    {pos : Option Nat} (hmove : snap.move t.pos call = some pos) :
    ∃ t', t.step false w snap (call, {}) = some t' ∧ t'.Prefetched o w ∧ t'.pos = pos ∧
      (t'.entry snap = none → t'.currentStatus = .ok) ∧ (t'.Sound w snap freed ↔
        ∀ e, get? snap.entries pos = some e → e.isBlob = true → ∃ v, Readable o w e v) := by
  have hstep : t.step false w snap (call, {}) =
      some (settle false w snap { t with pos, baseStatus := .ok } {}) := by
    unfold step
    rw [hmove]
  refine ⟨_, hstep, hpre.step hstep, pos_settle, fun hnone => ?_, ?_⟩
  · rw [entry_settle] at hnone
    simp [settle, hnone, currentStatus]
  · have htarget : t.target snap (call, {}) = get? snap.entries pos := by
      unfold target
      rw [hmove]
      rfl
    rw [sound_step_iff hpre hstep, htarget]
    exact forall_congr' fun e => forall_congr' fun _ => forall_congr' fun _ => exists_congr fun v =>
      fetches_iff_readable

/-- What was seen agrees with `Get`. -/
def Seen.Good (w : World) (snap : Snapshot o) (freed : Slice → Slice) (s : Seen) : Prop :=
  s.status = .ok ∧ snap.get w freed s.key = .ok (some s.value)

/-- What is seen at the entries ahead: each of them in turn, and rightly exactly where it can be read. -/
theorem walk_spec [Std.ReflCmp o.comparator] (freed : Slice → Slice) {fuel : Nat} (hpre : t.Prefetched o w)
    (hend : t.entry snap = none → t.currentStatus = .ok)
    (hsound : t.Sound w snap freed ↔ ∀ e, t.entry snap = some e → e.isBlob = true → ∃ v, Readable o w e v)
    (hfuel : (Cursor.ahead snap.entries t.pos).length < fuel) :
    ∃ seen, walk w snap fuel t = some (seen, .ok) ∧
      List.Forall₂ (fun e s => s.key = e.key ∧ (s.Good w snap freed ↔ (e.isBlob = true → ∃ v, Readable o w e v)))
        (ahead snap.entries t.pos) seen := by
  induction fuel generalizing t with
  | zero => omega
  | succ fuel ih =>
    have hentry : t.entry snap = (ahead snap.entries t.pos).head? := get?_eq_head?
    cases hl : ahead snap.entries t.pos with
    | nil =>
      rw [hl] at hentry
      refine ⟨[], ?_, .nil⟩
      simp only [walk, hentry, head?_nil]
      rw [hend hentry]
    | cons e rest =>
      rw [hl] at hentry hfuel
      obtain ⟨i, hi⟩ : ∃ i, t.pos = some i := by
        cases hpos : t.pos with
        | none => rw [hpos] at hl; cases hl
        | some i => exact ⟨i, rfl⟩
      have hmove : snap.move t.pos .next = some (next snap.entries i) := by rw [hi]; rfl
      have hrest : ahead snap.entries (next snap.entries i) = rest := by
        rw [hi] at hl
        rw [ahead_next, show snap.entries.drop i = e :: rest from hl]
        rfl
      obtain ⟨t', hstep, hpre', hpos', hend', hsound'⟩ := step_quiet freed hpre hmove
      rw [← hpos'] at hrest hsound'
      obtain ⟨seen, hwalk, hseen⟩ := ih hpre' hend' hsound' (by rw [hrest]; simpa using hfuel)
      rw [hrest] at hseen
      refine ⟨⟨e.key, t.value false snap, t.currentStatus⟩ :: seen, ?_, .cons ⟨rfl, ?_⟩ hseen⟩
      · simp [walk, hentry, hstep, hwalk]
      · have hhead : (⟨e.key, t.value false snap, t.currentStatus⟩ : Seen).Good w snap freed ↔
            t.Sound w snap freed := by
          simp [Sound, Seen.Good, hentry]
        rw [hhead, hsound, hentry]
        simp

/-- A move and then a walk, from a new iterator. -/
theorem move_walk_spec [Std.ReflCmp o.comparator] (w : World) (freed : Slice → Slice) {call : IterCall}
    {pos : Option Nat} (hmove : snap.move none call = some pos) :
    ∃ t seen, start.step false w snap (call, {}) = some t ∧ walk w snap (snap.entries.length + 1) t = some (seen, .ok) ∧
      List.Forall₂ (fun e s => s.key = e.key ∧ (s.Good w snap freed ↔ (e.isBlob = true → ∃ v, Readable o w e v)))
        (ahead snap.entries pos) seen := by
  have hstart : start.Prefetched o w := fun _ _ hn => by cases hn
  obtain ⟨t, hstep, hpre, rfl, hend, hsound⟩ := step_quiet freed hstart hmove
  have hfuel : (ahead snap.entries t.pos).length < snap.entries.length + 1 := by
    have hle := length_ahead_le (l := snap.entries) t.pos
    omega
  obtain ⟨seen, hwalk, hseen⟩ := walk_spec freed hpre hend hsound hfuel
  exact ⟨t, seen, hstep, hwalk, hseen⟩

theorem traverse_spec [Std.ReflCmp o.comparator] (w : World) (snap : Snapshot o) (freed : Slice → Slice) :
    ∃ seen, traverse w snap = some (seen, .ok) ∧ seen.map Seen.key = snap.entries.map BaseEntry.key ∧
      ((∀ s ∈ seen, s.Good w snap freed) ↔ ∀ e ∈ snap.entries, e.isBlob = true → ∃ v, Readable o w e v) := by
  have hmove : snap.move none .seekToFirst = some (first snap.entries) := rfl
  obtain ⟨t, seen, hstep, hwalk, hseen⟩ := move_walk_spec w freed hmove
  rw [ahead_first] at hseen
  refine ⟨seen, by simp [traverse, hstep, hwalk], ?_⟩
  clear hwalk
  generalize snap.entries = es at hseen
  constructor
  · induction hseen with
    | nil => rfl
    | cons h _ ih => simp [h.1, ih]
  · induction hseen with
    | nil => simp
    | cons h _ ih => simp only [forall_mem_cons, h.2, ih]

/-- When every `Get` of the snapshot succeeds, the readable entries are those of registered files. -/
theorem readable_iff_registered {q : SequenceNumber} (hsnap : snap.Shows (w.db.asOf q))
    (hread : ∀ k, ∃ x, w.getAt o freed q k = .ok x) :
    (∀ e ∈ snap.entries, e.isBlob = true → ∃ v, Readable o w e v) ↔
      ∀ k i, (w.db.asOf q).get k = some (.blobIndex i) → (w.storage.findFile i.fileNumber).isSome = true := by
  constructor
  · intro h k i hi
    have hmem := (hsnap.mem (LsmEntry.shown k (.blobIndex i))).2 ⟨_, hi, rfl⟩
    obtain ⟨v, i', m, hi', hm, -⟩ := h _ hmem rfl
    obtain rfl : i = i' := Except.ok.inj ((decodeInto_encodeTo (hsnap.fits k i hi)).symm.trans hi')
    rw [hm]
    rfl
  · intro h e he hb
    obtain ⟨x, hx, hshown⟩ := (hsnap.mem e).1 he
    cases x with
    | value v => rw [hshown] at hb; cases hb
    | blobIndex i =>
      obtain ⟨m, hm⟩ := isSome_iff_exists.1 (h _ i hx)
      obtain ⟨y, hy⟩ := hread e.key
      rw [getAt, hx, getEntry, getBlob_of_registered hm] at hy
      cases hv : w.readRegisteredFile o m i with
      | error st => rw [hv] at hy; cases hy
      | ok v =>
        refine ⟨v, i, m, ?_, hm, hv⟩
        rw [hshown]
        exact decodeInto_encodeTo (hsnap.fits _ i hx)

/-- In a state in which no `Get` of the snapshot fails, the traversal reports no error and yields each pair that `Get`
returns, once and in order, exactly if every blob index of the snapshot is in a registered file. -/
theorem traverse_iff_registered [Std.ReflCmp o.comparator] (w : World) (q : SequenceNumber) (snap : Snapshot o)
    (freed : Slice → Slice) (hsnap : snap.Shows (w.db.asOf q)) (hread : ∀ k, ∃ x, w.getAt o freed q k = .ok x) :
    (∃ seen, traverse w snap = some (seen, .ok) ∧ (∀ s ∈ seen, s.status = .ok) ∧
        (seen.map Seen.key).Pairwise (o.comparator · · = .lt) ∧
        ∀ k v, (∃ s ∈ seen, s.key = k ∧ s.value = v) ↔ w.getAt o freed q k = .ok (some v)) ↔
      ∀ k i, (w.db.asOf q).get k = some (.blobIndex i) → (w.storage.findFile i.fileNumber).isSome = true := by
  obtain ⟨seen, htrav, hkeys, hgood⟩ := traverse_spec w snap freed
  have hget : ∀ k, snap.get w freed k = w.getAt o freed q k := hsnap.get_eq w freed
  rw [← readable_iff_registered hsnap hread, ← hgood]
  constructor
  · rintro ⟨seen', htrav', hstatus, -, hpairs⟩ s hs
    obtain rfl : seen = seen' := by
      rw [htrav] at htrav'
      exact congrArg Prod.fst (some.inj htrav')
    refine ⟨hstatus s hs, ?_⟩
    rw [hget]
    exact (hpairs s.key s.value).1 ⟨s, hs, rfl, rfl⟩
  · intro h
    refine ⟨seen, htrav, fun s hs => (h s hs).1, ?_, fun k v => ⟨?_, fun hv => ?_⟩⟩
    · rw [hkeys, pairwise_map]
      exact snap.sorted
    · rintro ⟨s, hs, rfl, rfl⟩
      rw [← hget]
      exact (h s hs).2
    · -- the key is in the snapshot, so the walk has been there
      have hmem : k ∈ seen.map Seen.key := by
        rw [hkeys]
        cases hx : (w.db.asOf q).get k with
        | none => rw [getAt, hx] at hv; cases hv
        | some x =>
          have hkey : (x.shown k).key = k := by cases x <;> rfl
          refine mem_map.2 ⟨x.shown k, (hsnap.mem _).2 ⟨x, ?_, ?_⟩, hkey⟩
          · rw [hkey]; exact hx
          · rw [hkey]
      obtain ⟨s, hs, rfl⟩ := mem_map.1 hmem
      have hv' := (h s hs).2
      rw [hget, hv] at hv'
      cases hv'
      exact ⟨s, hs, rfl, rfl⟩

/-! One Put. Its record fills a file, which is then finished and waits for the next flush to be registered. -/

def oneRecordFiles : Options := { Options.small true false with blobFileTargetSize := 1 }

def oneBlobSnapshot : Snapshot oneRecordFiles where
  entries := [LsmEntry.shown [1] (.blobIndex ⟨1, 8, 13⟩)]
  sorted := pairwise_singleton ..

theorem get_oneBlob {db : BaseDb} (hlog : db.log = [([1], some (.blobIndex ⟨1, 8, 13⟩), .user)]) (k : Slice) :
    db.get k = if k = [1] then some (.blobIndex ⟨1, 8, 13⟩) else none := by
  simp only [BaseDb.get, hlog, lookup_cons, lookup_nil]
  by_cases hk : k = [1]
  · simp [hk]
  · simp [hk, beq_eq_false_iff_ne.2 hk]

theorem shows_oneBlob {db : BaseDb} (hlog : db.log = [([1], some (.blobIndex ⟨1, 8, 13⟩), .user)]) :
    oneBlobSnapshot.Shows db where
  mem := by
    intro e
    rw [get_oneBlob hlog, oneBlobSnapshot, mem_singleton]
    constructor
    · rintro rfl
      exact ⟨.blobIndex ⟨1, 8, 13⟩, rfl, rfl⟩
    · rintro ⟨x, hx, he⟩
      by_cases hk : e.key = [1]
      · rw [if_pos hk] at hx
        cases hx
        rw [he, hk]
      · rw [if_neg hk] at hx
        cases hx
  fits := by
    intro k i hi
    rw [get_oneBlob hlog] at hi
    split at hi
    · cases hi
      exact ⟨by decide, by decide, by decide⟩
    · cases hi

theorem getAt_oneBlob {w : World} {x : Option Slice}
    (hlog : (w.db.asOf 1).log = [([1], some (.blobIndex ⟨1, 8, 13⟩), .user)])
    (h : w.getAt oneRecordFiles freed 1 [1] = .ok x) (k : Slice) : ∃ x, w.getAt oneRecordFiles freed 1 k = .ok x := by
  by_cases hk : k = [1]
  · exact ⟨x, hk ▸ h⟩
  · refine ⟨none, ?_⟩
    rw [getAt, get_oneBlob hlog, if_neg hk]
    rfl

instance : Std.ReflCmp oneRecordFiles.comparator := inferInstanceAs (Std.ReflCmp (compare (α := Slice)))

/-- The flush has registered the file. -/
theorem traverse_sealed :
    ∃ s seen, Exec.run (System.step oneRecordFiles) System.fresh
        [.putAdd {} [1] [10], .putWrite 0 none, .sealSlot 0 {}] = some s ∧
      traverse s.world oneBlobSnapshot = some (seen, .ok) ∧ (∀ m ∈ seen, m.status = .ok) ∧
      ∃ m ∈ seen, m.key = [1] ∧ m.value = [10] := by
  have hend : (Exec.run (System.step oneRecordFiles) System.fresh
      [.putAdd {} [1] [10], .putWrite 0 none, .sealSlot 0 {}]).map (fun s =>
        (s.world.db.asOf 1, s.world.getAt oneRecordFiles id 1 [1], (s.world.storage.findFile 1).isSome)) =
      some (⟨[([1], some (.blobIndex ⟨1, 8, 13⟩), .user)], 0⟩, .ok (some [10]), true) := by
    decide +kernel
  obtain ⟨s, hrun, heq⟩ := map_eq_some_iff.1 hend
  simp only [Prod.mk.injEq] at heq
  obtain ⟨hdb, hget, hfound⟩ := heq
  have hlog := congrArg BaseDb.log hdb
  have hregistered : ∀ k i, (s.world.db.asOf 1).get k = some (.blobIndex i) →
      (s.world.storage.findFile i.fileNumber).isSome = true := by
    intro k i hi
    rw [get_oneBlob hlog] at hi
    split at hi
    · cases hi
      exact hfound
    · cases hi
  obtain ⟨seen, htrav, hstatus, -, hpairs⟩ := (traverse_iff_registered s.world 1 oneBlobSnapshot id
    (shows_oneBlob hlog) (getAt_oneBlob hlog hget)).2 hregistered
  exact ⟨s, seen, hrun, htrav, hstatus, (hpairs [1] [10]).2 hget⟩

/-- Before the flush `Get` reads the value from the finished file; the iterator does not know the file. -/
theorem traverse_building :
    ∃ s, Exec.run (System.step oneRecordFiles) System.fresh [.putAdd {} [1] [10], .putWrite 0 none] = some s ∧
      oneBlobSnapshot.Shows (s.world.db.asOf 1) ∧ (∀ k, ∃ x, s.world.getAt oneRecordFiles id 1 k = .ok x) ∧
      s.world.getAt oneRecordFiles id 1 [1] = .ok (some [10]) ∧
      traverse s.world oneBlobSnapshot = some ([⟨[1], [], .corruption "Missing blob wfile: 1"⟩], .ok) := by
  refine Exec.exists_of_map (fun s => (traverse s.world oneBlobSnapshot, s.world.db.asOf 1,
    s.world.getAt oneRecordFiles id 1 [1])) (some ([⟨[1], [], .corruption "Missing blob wfile: 1"⟩], .ok),
    ⟨[([1], some (.blobIndex ⟨1, 8, 13⟩), .user)], 0⟩, .ok (some [10])) (by decide +kernel) fun s _ heq => ?_
  simp only [Prod.mk.injEq] at heq
  obtain ⟨htrav, hdb, hget⟩ := heq
  have hlog := congrArg BaseDb.log hdb
  exact ⟨shows_oneBlob hlog, getAt_oneBlob hlog hget, hget, htrav⟩

end TitanDBIterator

end ValueSep.DiffKV
