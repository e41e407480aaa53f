import ValueSep.DiffKV.Traversal

/-!
# Scan

`TitanDBImpl::Scan` and `TitanDBIterator::Scan`: a first pass walks the base iterator and writes the keys and the
inline values into the caller's vectors, opening the blob files on the way; a second pass reads the blobs. Which
slots the second pass reads is not remembered: it takes those whose value is empty, whatever made it so, and for an
inline value that is the index of a new `BlobIndex`.
-/

namespace ValueSep.DiffKV

open List Option Cursor BlobIndex World

namespace TitanDBIterator

/-- One position of the three vectors. -/
structure Slot where
  key : Slice
  value : Slice
  index : BlobIndex

/-- A new `BlobIndex`. -/
def noIndex : BlobIndex := ⟨0, 0, 0⟩

structure ScanResult where
  ret : Nat
  keys : List Slice
  vals : List Slice
  /-- The statuses of `PointGet`; nobody looks at them. -/
  reads : List Status

variable {o : Options} (w : World) (snap : Snapshot o) (f : Nat → ReadFaults)

/-- `iter_->Next()`. -/
def advance (fault : Fault) (t : TitanDBIterator) : TitanDBIterator :=
  match fault with
  | some msg => { t with pos := none, baseStatus := .ioError msg }
  | none => { t with pos := t.pos.bind (next snap.entries), baseStatus := .ok }

/-- One turn of the first loop, for a slot that holds `old`: the slot, or the iterator when `Scan` returns. -/
def fillSlot (f : ReadFaults) (e : BaseEntry) (old : Slice) (t : TitanDBIterator) :
    Except TitanDBIterator (Slot × TitanDBIterator) :=
  if e.isBlob then
    match decodeInto e.value with
    | .error st => .error { t with status := st }
    | .ok i =>
      match t.prefetcher (o := o) w f.openFile i.fileNumber with
      | .error st => .error { t with status := st }
      | .ok (files, _) => .ok (⟨e.key, old, i⟩, { t with files, status := .ok })
  else .ok (⟨e.key, e.value, noIndex⟩, { t with status := t.baseStatus })

/-- The first loop, over the slots that are left; whether it has come to its end. -/
def fill : Nat → List Slice → TitanDBIterator → List Slot × TitanDBIterator × Bool
  | _, [], t => ([], t, true)
  | j, old :: olds, t =>
    match t.entry snap with
    | none => ([], t, true)
    | some e =>
      match fillSlot (o := o) w (f j) e old t with
      | .error t => ([], t, false)
      | .ok (slot, t) =>
        let (slots, t, done) := fill (j + 1) olds (advance snap (f (j + 1)).base t)
        (slot :: slots, t, done)

/-- The second loop: the values, and the statuses of the reads. -/
def load (files : List (Nat × Bool)) : Nat → Slice → List Slot → Option (List Slice × List Status)
  | _, _, [] => some ([], [])
  | j, record, slot :: slots =>
    if slot.value.isEmpty then
      -- without a prefetcher this goes through the end of `files_`
      match files.lookup slot.index.fileNumber with
      | none => none
      | some onlyValue =>
        match w.prefetcherGet o (f j).read onlyValue slot.index with
        | .ok v => (load files (j + 1) v slots).map fun (vs, sts) => (v :: vs, .ok :: sts)
        | .error st =>
          let v := (f j).freed record
          (load files (j + 1) v slots).map fun (vs, sts) => (v :: vs, st :: sts)
    else (load files (j + 1) record slots).map fun (vs, sts) => (slot.value :: vs, sts)

/-- `resize`, if the vector is shorter. -/
def resized (len : Nat) (xs : List Slice) : List Slice := xs ++ replicate (len - xs.length) []

/-- `TitanDBImpl::Scan`. A `Scan` that returns from its first loop leaves `len` as it was. -/
def scan (target : Slice) (len : Nat) (keys vals : List Slice) : Option ScanResult :=
  let keys := resized len keys
  let vals := resized len vals
  let pos := match (f 0).base with
    | none => seek snap.entries fun e => o.comparator e.key target != .lt
    | some _ => none
  let (slots, t, done) := fill w snap f 0 (vals.take len) { start with pos }
  let n := slots.length
  let keys := slots.map Slot.key ++ keys.drop n
  if done then
    (load (o := o) w f t.files 0 [] slots).map fun (vs, sts) => ⟨n, keys, vs ++ vals.drop n, sts⟩
  else some ⟨len, keys, slots.map Slot.value ++ vals.drop n, []⟩

/-! ### Without faults -/

/-- The environment does not fail. -/
def quiet : Nat → ReadFaults := fun _ => {}

/-- What the first loop makes of a slot that holds `old`. -/
def slotFor (e : BaseEntry) (old : Slice) : Slot :=
  if e.isBlob then ⟨e.key, old, (decodeInto e.value).toOption.getD noIndex⟩ else ⟨e.key, e.value, noIndex⟩

/-- The value of an entry. -/
def valueOf (o : Options) (w : World) (e : BaseEntry) : Slice := (w.getBase o id e).toOption.getD []

/-- What the second loop leaves in the slot if it reads the blobs with an empty slot. -/
def outFor (o : Options) (w : World) (e : BaseEntry) (old : Slice) : Slice :=
  if e.isBlob && !old.isEmpty then old else valueOf o w e

variable {w snap} {t : TitanDBIterator} {e : BaseEntry} {v : Slice}

theorem Readable.getBase {freed : Slice → Slice} (h : Readable o w e v) (hb : e.isBlob = true) :
    w.getBase o freed e = .ok v := (fetches_iff_readable (t := start).2 h).getBase hb

theorem valueOf_of_readable (h : Readable o w e v) (hb : e.isBlob = true) : valueOf o w e = v := by
  rw [valueOf, h.getBase hb]
  rfl

theorem valueOf_inline (hb : e.isBlob = false) : valueOf o w e = e.value := by
  simp [valueOf, getBase, hb, Except.toOption]

/-- The prefetchers that `t` has, and more. -/
def FilesLe (t t' : TitanDBIterator) : Prop :=
  ∀ n, (t.files.lookup n).isSome = true → (t'.files.lookup n).isSome = true

theorem fillSlot_quiet (hpre : t.Prefetched o w) (hread : e.isBlob = true → ∃ v, Readable o w e v) (old : Slice) :
    ∃ t', fillSlot (o := o) w {} e old t = .ok (slotFor e old, t') ∧ t'.pos = t.pos ∧ t'.Prefetched o w ∧
      FilesLe t t' ∧ (e.isBlob = true → (t'.files.lookup (slotFor e old).index.fileNumber).isSome = true) := by
  unfold fillSlot slotFor
  cases hb : e.isBlob with
  | false => exact ⟨{ t with status := t.baseStatus }, rfl, rfl, hpre, fun _ => id, nofun⟩
  | true =>
    obtain ⟨v, i, m, hi, hm, hv⟩ := hread hb
    rw [readRegisteredFile_eq hm] at hv
    cases hnew : w.newPrefetcher o none i.fileNumber with
    | error st => rw [hnew] at hv; cases hv
    | ok onlyValue =>
      obtain ⟨files, hfiles⟩ := prefetcher_ok hpre (.inr rfl) hnew
      obtain ⟨-, -, hlookup⟩ := prefetcher_eq_ok hpre hfiles
      refine ⟨{ t with files, status := .ok }, ?_, rfl, hpre.of_prefetcher hfiles, fun n hn => ?_, fun _ => ?_⟩
      · simp [hi, hfiles, Except.toOption]
      · rw [hlookup]
        split
        · rfl
        · exact hn
      · rw [hlookup]
        simp [hi, Except.toOption]

theorem ahead_advance {rest : List BaseEntry} (h : ahead snap.entries t.pos = e :: rest) :
    ahead snap.entries (advance snap none t).pos = rest := by
  cases hpos : t.pos with
  | none => rw [hpos] at h; cases h
  | some i =>
    rw [hpos] at h
    show ahead snap.entries (t.pos.bind (next snap.entries)) = rest
    rw [hpos, bind_some, ahead_next, show snap.entries.drop i = e :: rest from h]
    rfl

theorem fill_quiet (olds : List Slice) (j : Nat) {es : List BaseEntry} (hpre : t.Prefetched o w)
    (hes : ahead snap.entries t.pos = es) (hread : ∀ e ∈ es.take olds.length, e.isBlob = true → ∃ v, Readable o w e v) :
    ∃ t', fill w snap quiet j olds t = ((es.zip olds).map fun p => slotFor p.1 p.2, t', true) ∧ t'.Prefetched o w ∧
      FilesLe t t' ∧ ∀ p ∈ es.zip olds, p.1.isBlob = true →
        (t'.files.lookup (slotFor p.1 p.2).index.fileNumber).isSome = true := by
  induction olds generalizing j t es with
  | nil => exact ⟨t, by simp [fill], hpre, fun _ => id, by simp⟩
  | cons old olds ih =>
    have hentry : t.entry snap = es.head? := hes ▸ get?_eq_head?
    cases es with
    | nil => exact ⟨t, by simp [fill, hentry], hpre, fun _ => id, by simp⟩
    | cons e es =>
      rw [length_cons, take_succ_cons, forall_mem_cons] at hread
      obtain ⟨t₁, hslot, hpos, hpre₁, hle₁, hfile⟩ := fillSlot_quiet hpre hread.1 old
      have hahead : ahead snap.entries (advance snap none t₁).pos = es := ahead_advance (by rw [hpos, hes])
      obtain ⟨t', hfill, hpre', hle, hfiles⟩ := ih (j + 1) (t := advance snap none t₁) hpre₁ hahead hread.2
      refine ⟨t', ?_, hpre', fun n hn => hle n (hle₁ n hn), ?_⟩
      · have hslot' : fillSlot (o := o) w (quiet j) e old t = .ok (slotFor e old, t₁) := hslot
        simp only [fill, hentry, head?_cons, hslot']
        rw [show (quiet (j + 1)).base = none from rfl, hfill]
        rfl
      · rw [zip_cons_cons, forall_mem_cons]
        exact ⟨fun hb => hle _ (hfile hb), hfiles⟩

theorem prefetcherGet_noIndex (onlyValue : Bool) : ∃ st, w.prefetcherGet o none onlyValue noIndex = .error st := by
  unfold prefetcherGet
  cases w.disk noIndex.fileNumber with
  | none => exact ⟨_, rfl⟩
  | some file =>
    cases hr : readRecord o.codec onlyValue file.flushed noIndex.blobHandle with
    | error st => exact ⟨_, rfl⟩
    | ok r => exact absurd (bounds_of_readRecord hr).1 (Nat.lt_irrefl 0)

theorem prefetcherGet_slotFor {old : Slice} {onlyValue : Bool} (hpre : t.Prefetched o w) (hb : e.isBlob = true)
    (hread : ∃ v, Readable o w e v) (hfile : t.files.lookup (slotFor e old).index.fileNumber = some onlyValue) :
    w.prefetcherGet o none onlyValue (slotFor e old).index = .ok (valueOf o w e) := by
  obtain ⟨v, hv⟩ := hread
  rw [valueOf_of_readable hv hb]
  obtain ⟨i, m, hi, hm, hv⟩ := hv
  have hindex : (slotFor e old).index = i := by simp [slotFor, hb, hi, Except.toOption]
  rw [hindex] at hfile ⊢
  rw [readRegisteredFile_eq hm, hpre _ _ hfile] at hv
  exact hv

section

variable {ps : List (BaseEntry × Slice)} (hpre : t.Prefetched o w)
  (hread : ∀ p ∈ ps, p.1.isBlob = true → ∃ v, Readable o w p.1 v)
  (hfiles : ∀ p ∈ ps, p.1.isBlob = true → (t.files.lookup (slotFor p.1 p.2).index.fileNumber).isSome = true)

include hpre hread hfiles

/-- Without an empty inline value the second loop reads what it has to, and succeeds. -/
theorem load_ok (hne : ∀ p ∈ ps, p.1.isBlob = false → p.1.value ≠ []) (j : Nat) (record : Slice) :
    ∃ sts, load (o := o) w quiet t.files j record (ps.map fun p => slotFor p.1 p.2) =
      some (ps.map fun p => outFor o w p.1 p.2, sts) ∧ ∀ st ∈ sts, st = .ok := by
  induction ps generalizing j record with
  | nil => exact ⟨[], rfl, nofun⟩
  | cons p ps ih =>
    obtain ⟨e, old⟩ := p
    rw [forall_mem_cons] at hread hfiles hne
    have ih := ih hread.2 hfiles.2 hne.2
    simp only [map_cons, load]
    cases hb : e.isBlob with
    | false =>
      have hvalue : (slotFor e old).value = e.value := by simp [slotFor, hb]
      have hout : outFor o w e old = e.value := by rw [outFor, hb, valueOf_inline hb]; rfl
      obtain ⟨sts, hload, hsts⟩ := ih (j + 1) record
      refine ⟨sts, ?_, hsts⟩
      rw [hvalue, if_neg (by simpa using hne.1 hb), hload, hout]
      rfl
    | true =>
      have hvalue : (slotFor e old).value = old := by simp [slotFor, hb]
      rw [hvalue]
      by_cases hold : old.isEmpty = true
      · obtain ⟨onlyValue, hlookup⟩ := isSome_iff_exists.1 (hfiles.1 hb)
        have hget : w.prefetcherGet o (quiet j).read onlyValue (slotFor e old).index = .ok (valueOf o w e) :=
          prefetcherGet_slotFor hpre hb (hread.1 hb) hlookup
        obtain ⟨sts, hload, hsts⟩ := ih (j + 1) (valueOf o w e)
        refine ⟨.ok :: sts, ?_, by simpa using hsts⟩
        rw [hlookup]
        dsimp only
        rw [hget]
        dsimp only
        rw [hload, outFor, hb, hold]
        rfl
      · obtain ⟨sts, hload, hsts⟩ := ih (j + 1) record
        refine ⟨sts, ?_, hsts⟩
        rw [hload, outFor, hb]
        simp [hold]

end

/-- At an empty inline value it goes through the end of `files_`, or a read fails. -/
theorem load_noIndex {files : List (Nat × Bool)} {slots : List Slot}
    (h : ∃ s ∈ slots, s.value = [] ∧ s.index = noIndex) {j : Nat} {record : Slice} {vs : List Slice} {sts : List Status}
    (hload : load (o := o) w quiet files j record slots = some (vs, sts)) : ∃ st ∈ sts, st ≠ .ok := by
  induction slots generalizing j record vs sts with
  | nil => simp at h
  | cons slot slots ih =>
    obtain ⟨s, hs, hvalue, hindex⟩ := h
    rw [load] at hload
    split at hload
    · split at hload
      · cases hload
      next onlyValue _ =>
        split at hload
        next v hget =>
          obtain ⟨⟨vs', sts'⟩, hrest, heq⟩ := map_eq_some_iff.1 hload
          cases heq
          rcases mem_cons.1 hs with rfl | hs
          · obtain ⟨st, hbad⟩ := prefetcherGet_noIndex (w := w) (o := o) onlyValue
            rw [hindex] at hget
            exact absurd (hget.symm.trans hbad) nofun
          · obtain ⟨st, hst, hne⟩ := ih ⟨s, hs, hvalue, hindex⟩ hrest
            exact ⟨st, mem_cons_of_mem _ hst, hne⟩
        next st hget =>
          obtain ⟨⟨vs', sts'⟩, hrest, heq⟩ := map_eq_some_iff.1 hload
          cases heq
          exact ⟨st, mem_cons_self .., ne_ok_of_prefetcherGet hget⟩
    next hne =>
      obtain ⟨⟨vs', sts'⟩, hrest, heq⟩ := map_eq_some_iff.1 hload
      cases heq
      rcases mem_cons.1 hs with rfl | hs
      · rw [hvalue] at hne
        exact absurd rfl hne
      · exact ih ⟨s, hs, hvalue, hindex⟩ hrest

/-! ### Scan and iteration -/

/-- The entries that a scan is about. -/
def scanned (snap : Snapshot o) (target : Slice) (len : Nat) : List BaseEntry :=
  (snap.entries.filter fun e => o.comparator e.key target != .lt).take len

theorem zip_take (es : List BaseEntry) (xs : List Slice) (n : Nat) : es.zip (xs.take n) = (es.take n).zip xs := by
  induction n generalizing es xs with
  | zero => simp
  | succ n ih =>
    cases es with
    | nil => simp
    | cons e es =>
      cases xs with
      | nil => simp
      | cons x xs => simp [ih]

theorem ahead_seek_eq [Std.TransCmp o.comparator] (snap : Snapshot o) (target : Slice) :
    ahead snap.entries (seek snap.entries fun e => o.comparator e.key target != .lt) =
      snap.entries.filter fun e => o.comparator e.key target != .lt := by
  rw [ahead_seek]
  refine dropWhile_eq_filter snap.sorted fun a b hab ha => ?_
  by_contra hb
  have hlt : o.comparator b.key target = .lt := by simpa using hb
  have htrans : o.comparator a.key target = .lt := Std.TransCmp.lt_trans hab hlt
  simp [htrans] at ha

theorem le_length_resized (len : Nat) (xs : List Slice) : len ≤ (resized len xs).length := by
  rw [resized, length_append, length_replicate]
  omega

theorem seen_scanned [Std.TransCmp o.comparator] (w : World) (snap : Snapshot o) (target : Slice) (len : Nat)
    (hread : ∀ e ∈ scanned snap target len, e.isBlob = true → ∃ v, Readable o w e v) :
    ∃ t seen, start.step false w snap (.seek target, {}) = some t ∧
      walk w snap (snap.entries.length + 1) t = some (seen, .ok) ∧
      (seen.take len).map Seen.key = (scanned snap target len).map BaseEntry.key ∧
      (seen.take len).map Seen.value = (scanned snap target len).map (valueOf o w) := by
  have hmove : snap.move none (.seek target) =
      some (seek snap.entries fun e => o.comparator e.key target != .lt) := rfl
  obtain ⟨t, seen, hstep, hwalk, hseen⟩ := move_walk_spec w id hmove
  rw [ahead_seek_eq] at hseen
  have hsub : ∀ e ∈ scanned snap target len, e ∈ snap.entries := fun e he =>
    mem_of_mem_filter (mem_of_mem_take he)
  have htake := forall₂_take len hseen
  refine ⟨t, seen, hstep, hwalk, ?_⟩
  change List.Forall₂ _ (scanned snap target len) _ at htake
  generalize seen.take len = seen' at htake
  generalize scanned snap target len = es at hread hsub htake
  induction htake with
  | nil => exact ⟨rfl, rfl⟩
  | @cons e s es ss hes _ ih =>
    rw [forall_mem_cons] at hread hsub
    obtain ⟨hkeys, hvalues⟩ := ih hread.2 hsub.2
    obtain ⟨hkey, hgood⟩ := hes
    have hget := (hgood.2 hread.1).2
    rw [hkey, get_of_mem hsub.1] at hget
    have hvalue : s.value = valueOf o w e := by
      unfold valueOf
      cases hbase : w.getBase o id e with
      | error st => rw [hbase] at hget; cases hget
      | ok v => rw [hbase] at hget; cases hget; rfl
    simp [hkey, hkeys, hvalue, hvalues]

/-- The slots of a scan with what they hold once the vectors are long enough. -/
def slots (snap : Snapshot o) (target : Slice) (len : Nat) (vals : List Slice) : List (BaseEntry × Slice) :=
  (scanned snap target len).zip (resized len vals)

theorem map_fst_slots (snap : Snapshot o) (target : Slice) (len : Nat) (vals : List Slice) :
    (slots snap target len vals).map Prod.fst = scanned snap target len := by
  have hlen : (scanned snap target len).length ≤ (resized len vals).length :=
    (length_take_le ..).trans (le_length_resized len vals)
  exact map_fst_zip hlen

theorem scan_quiet [Std.TransCmp o.comparator] (w : World) (snap : Snapshot o) (target : Slice) (len : Nat)
    (keys vals : List Slice) (hread : ∀ e ∈ scanned snap target len, e.isBlob = true → ∃ v, Readable o w e v) :
    ∃ t : TitanDBIterator, t.Prefetched o w ∧ (∀ p ∈ slots snap target len vals, p.1.isBlob = true →
        (t.files.lookup (slotFor p.1 p.2).index.fileNumber).isSome = true) ∧ scan w snap quiet target len keys vals =
        (load (o := o) w quiet t.files 0 [] ((slots snap target len vals).map fun p => slotFor p.1 p.2)).map
          fun r => ⟨(slots snap target len vals).length,
            (scanned snap target len).map BaseEntry.key ++ (resized len keys).drop (slots snap target len vals).length,
            r.1 ++ (resized len vals).drop (slots snap target len vals).length, r.2⟩ := by
  have hstart : ({ start with pos := seek snap.entries fun e => o.comparator e.key target != .lt } :
      TitanDBIterator).Prefetched o w := fun _ _ hn => by cases hn
  have holds : ((resized len vals).take len).length = len := by
    rw [length_take]
    exact Nat.min_eq_left (le_length_resized len vals)
  obtain ⟨t, hfill, hpre, -, hfiles⟩ := fill_quiet ((resized len vals).take len) 0 hstart (ahead_seek_eq snap target)
    (by rw [holds]; exact hread)
  rw [zip_take] at hfill hfiles
  change _ = ((slots snap target len vals).map _, _) at hfill
  refine ⟨t, hpre, hfiles, ?_⟩
  have hkeys : ((slots snap target len vals).map fun p => slotFor p.1 p.2).map Slot.key =
      (scanned snap target len).map BaseEntry.key := by
    rw [← map_fst_slots snap target len vals, List.map_map, List.map_map]
    refine map_congr_left fun p _ => ?_
    show (slotFor p.1 p.2).key = p.1.key
    unfold slotFor
    split <;> rfl
  simp only [scan, show (quiet 0).base = none from rfl, hfill, hkeys, length_map, if_true]

/-- The second loop leaves the right values exactly if a slot for a blob was empty, or held the value already. -/
theorem outFor_eq_iff (old : Slice) (hread : e.isBlob = true → ∃ v, Readable o w e v)
    (hne : e.isBlob = false → e.value ≠ []) :
    outFor o w e old = valueOf o w e ↔ if e.isBlob then old = [] ∨ Readable o w e old else e.value ≠ [] := by
  cases hb : e.isBlob with
  | false => simpa [outFor, hb] using hne hb
  | true =>
    obtain ⟨v, hv⟩ := hread hb
    have hvalue := valueOf_of_readable hv hb
    by_cases hold : old = []
    · simp [outFor, hb, hold]
    · have hout : outFor o w e old = old := by simp [outFor, hb, hold]
      rw [hout, hvalue]
      simp only [if_true, hold, false_or]
      constructor
      · rintro rfl
        exact hv
      · intro hread
        rw [← hvalue, valueOf_of_readable hread hb]

/-- When all reads succeed, `Scan` returns the first pairs that `Seek` and `Next` show, exactly if among its slots no
inline value is empty and every blob's slot was empty before (or held the value already). -/
theorem scan_eq_iteration_iff [Std.TransCmp o.comparator] (w : World) (snap : Snapshot o) (target : Slice) (len : Nat)
    (keys vals : List Slice)
    (hread : ∀ e ∈ scanned snap target len, e.isBlob = true → ∃ v, Readable o w e v)
    (hreads : ∀ r, scan w snap quiet target len keys vals = some r → ∀ st ∈ r.reads, st = .ok) :
    (∃ r t seen, scan w snap quiet target len keys vals = some r ∧
        start.step false w snap (.seek target, {}) = some t ∧
        walk w snap (snap.entries.length + 1) t = some (seen, .ok) ∧
        r.ret = min len (snap.entries.countP fun e => o.comparator e.key target != .lt) ∧
        r.keys.take r.ret = (seen.take len).map Seen.key ∧ r.vals.take r.ret = (seen.take len).map Seen.value) ↔
      ∀ p ∈ (scanned snap target len).zip (resized len vals),
        if p.1.isBlob then p.2 = [] ∨ Readable o w p.1 p.2 else p.1.value ≠ [] := by
  obtain ⟨t, hpre, hfiles, hscan⟩ := scan_quiet w snap target len keys vals hread
  obtain ⟨ti, seen, hstep, hwalk, hkeys, hvalues⟩ := seen_scanned w snap target len hread
  have hfst : ∀ p ∈ slots snap target len vals, p.1 ∈ scanned snap target len := fun p hp => by
    rw [← map_fst_slots snap target len vals]
    exact mem_map_of_mem hp
  change _ ↔ ∀ p ∈ slots snap target len vals, _
  by_cases hne : ∀ p ∈ slots snap target len vals, p.1.isBlob = false → p.1.value ≠ []
  · obtain ⟨sts, hload, -⟩ := load_ok hpre (fun p hp => hread p.1 (hfst p hp)) hfiles hne 0 []
    rw [hload] at hscan
    have hlen : (slots snap target len vals).length = (scanned snap target len).length := by
      rw [← map_fst_slots snap target len vals, length_map]
    have hcount : (slots snap target len vals).length =
        min len (snap.entries.countP fun e => o.comparator e.key target != .lt) := by
      rw [hlen, scanned, length_take, ← countP_eq_length_filter]
    have hout : (∀ p ∈ slots snap target len vals,
        if p.1.isBlob then p.2 = [] ∨ Readable o w p.1 p.2 else p.1.value ≠ []) ↔
          ((slots snap target len vals).map fun p => outFor o w p.1 p.2) =
            (scanned snap target len).map (valueOf o w) := by
      rw [← map_fst_slots snap target len vals, List.map_map, List.map_inj_left]
      refine forall_congr' fun p => forall_congr' fun hp => ?_
      exact (outFor_eq_iff p.2 (hread p.1 (hfst p hp)) (hne p hp)).symm
    rw [hout, hscan]
    constructor
    · rintro ⟨r, t', seen', hr, hstep', hwalk', -, -, hvals⟩
      cases hr
      rw [hstep] at hstep'
      cases hstep'
      rw [hwalk] at hwalk'
      cases hwalk'
      rw [← hvalues, ← hvals, take_left' (by simp)]
    · intro hvals
      refine ⟨_, ti, seen, rfl, hstep, hwalk, hcount, ?_, ?_⟩
      · rw [hkeys, take_left' (by simp [hlen])]
      · rw [hvalues, ← hvals, take_left' (by simp)]
  · -- an inline value is empty: the second loop does not get past it
    refine iff_of_false ?_ fun h => hne fun p hp hb => ?_
    · rintro ⟨r, -, -, hr, -⟩
      simp only [not_forall, not_not] at hne
      obtain ⟨p, hp, hb, hempty⟩ := hne
      obtain ⟨⟨vs, sts⟩, hload, rfl⟩ := map_eq_some_iff.1 (hscan.symm.trans hr)
      have hslot : slotFor p.1 p.2 ∈ (slots snap target len vals).map fun p => slotFor p.1 p.2 :=
        mem_map.2 ⟨p, hp, rfl⟩
      obtain ⟨st, hst, hbad⟩ := load_noIndex ⟨_, hslot, by simp [slotFor, hb, hempty], by simp [slotFor, hb]⟩ hload
      exact hbad (hreads _ hr st hst)
    · have hp := h p hp
      rw [hb] at hp
      exact hp

/-! A snapshot with a blob and an inline value. -/

def mixedSnapshot (inlined : Slice) : Snapshot (.small false false) where
  entries := [⟨[1], true, encodeTo ⟨1, 8, 13⟩⟩, ⟨[2], false, inlined⟩]
  sorted := List.pairwise_pair.2 (show compare (α := Slice) [1] [2] = .lt by decide)

/-- The vectors are new. -/
theorem scan_mixed :
    ∃ r t seen, scan twoBlobWorld (mixedSnapshot [7]) quiet [1] 5 [] [] = some r ∧
      start.step false twoBlobWorld (mixedSnapshot [7]) (.seek [1], {}) = some t ∧
      walk twoBlobWorld (mixedSnapshot [7]) 3 t = some (seen, .ok) ∧ r.ret = 2 ∧
      r.keys.take r.ret = (seen.take 5).map Seen.key ∧ r.vals.take r.ret = (seen.take 5).map Seen.value := by
  have hscanned : scanned (mixedSnapshot [7]) [1] 5 =
      [⟨[1], true, encodeTo ⟨1, 8, 13⟩⟩, ⟨[2], false, [7]⟩] := by decide +kernel
  refine (scan_eq_iteration_iff twoBlobWorld (mixedSnapshot [7]) [1] 5 [] [] ?_ ?_).2 ?_
  · intro e he hb
    rcases mem_cons.1 he with rfl | he
    · exact ⟨[10], ⟨1, 8, 13⟩, ⟨1, 66, 2, .unSorted, 0, [1], [2], .normal, 0⟩, by decide +kernel, rfl, by decide +kernel⟩
    · obtain rfl := mem_singleton.1 he
      cases hb
  · intro r hr
    have hreads : (scan twoBlobWorld (mixedSnapshot [7]) quiet [1] 5 [] []).map ScanResult.reads = some [.ok] := by
      decide +kernel
    rw [hr] at hreads
    rw [show r.reads = [.ok] from some.inj hreads]
    simp
  · intro p hp
    rcases mem_cons.1 hp with rfl | hp
    · exact .inl rfl
    · rcases mem_cons.1 hp with rfl | hp
      · exact nofun
      · cases hp

/-- The vectors come from an earlier call, with 99 in the first slot: `Scan` leaves it there. With an empty inline
value it goes through the end of `files_`. -/
theorem scan_reused_vectors :
    (scan twoBlobWorld (mixedSnapshot [7]) quiet [1] 2 [[0], [0]] [[99], []]).map (fun r => (r.ret, r.keys, r.vals)) =
        some (2, [[1], [2]], [[99], [7]]) ∧
      (mixedSnapshot [7]).get twoBlobWorld id [1] = .ok (some [10]) ∧
      (scan twoBlobWorld (mixedSnapshot []) quiet [1] 2 [] []).isNone = true := by
  decide +kernel

end TitanDBIterator

end ValueSep.DiffKV
