import ValueSep.DiffKV.Recover
import ValueSep.DiffKV.Slots
import ValueSep.DiffKV.System

/-!
# Clients in `sep_before_flush` mode

Runs of Puts, Deletes and memtable seals, with every failure of the file system. `ClientInv` says what each
acknowledged operation has left in the LSM tree, what stands behind an index there (`Backed`), and what the
manifest knows of the files. A Put of a separated value under the empty key is taken for a flush marker and
leaves nothing. The last part is about the builders alone, as a machine that takes records and flush markers.
-/

namespace ValueSep.DiffKV

open World Manifest
open List Function Option BlobFileMeta BaseDb DiffKV.System

def SysEvent.isClient : SysEvent → Bool
  | .putAdd .. | .putWrite .. | .delete _ | .sealSlot .. => true
  | _ => false

/-- `Recover` accepts the manifest, and no file of a builder is in it. -/
structure LogInv (w : World) : Prop where
  ne : w.fileSet.manifest ≠ []
  ok : Ok w.fileSet.manifest
  next : ∀ e ∈ w.fileSet.manifest, e.nextFileNumber.getD 0 ≤ w.nextFileNumber
  logged : ∀ m ∈ added w.fileSet.manifest, m.fileNumber < w.nextFileNumber
  owned : ∀ b, ∀ n ∈ w.owned b, n ∉ (added w.fileSet.manifest).map fileNumber

/-- Every finished file is complete, every file registered in memory or in the manifest is too, and none is
obsolete. -/
structure ClientOk (o : Options) (w : World) : Prop where
  fgWf : FgWf w
  log : LogInv w
  finished : ∀ b, ∀ m ∈ (w.fg b).finished, Complete o w m
  found : ∀ n m, w.storage.findFile n = some m → Complete o w m
  logged : ∀ m, Alive w.fileSet.manifest m → Complete o w m
  untagged : w.storage.obsoleteFiles = []

/-- The index was handed out for the record, and its file is read in the mode it was written in. -/
structure Backed (o : Options) (w : World) (r : BlobRecord) (i : BlobIndex) : Prop where
  stored : Stored o w r i
  lt : i.fileNumber < w.nextFileNumber
  found : ∀ m, w.storage.findFile i.fileNumber = some m → m.fileType = .unSorted
  logged : ∀ m ∈ added w.fileSet.manifest, m.fileNumber = i.fileNumber →
    m.fileType = .unSorted ∧ i.fileNumber ∉ (deleted w.fileSet.manifest).map Prod.fst

section

variable {o : Options} {f : AddFaults} {w w' : World} {b : Nat} {r : BlobRecord} {i : BlobIndex}

/-! ### Requests -/

theorem LogInv.quiet (h : LogInv w) (hq : Quiet w w') : LogInv w' := by
  refine ⟨hq.manifest ▸ h.ne, hq.manifest ▸ h.ok, ?_, ?_, ?_⟩
  · rw [hq.manifest]; exact fun e he => (h.next e he).trans hq.next_le
  · rw [hq.manifest]; exact fun m hm => (h.logged m hm).trans_le hq.next_le
  · rw [hq.manifest]
    intro b n hn hmem
    rcases hq.owned_new b n hn with hn | hle
    · exact h.owned b n hn hmem
    · obtain ⟨m, hm, rfl⟩ := mem_map.1 hmem
      exact absurd (h.logged m hm) (by omega)

theorem ClientOk.advance (h : ClientOk o w) (hw : FgWf w') (ha : Advances o w w') : ClientOk o w' := by
  refine ⟨hw, h.log.quiet ha.toQuiet, fun b m hm => ?_, fun n m hm => ?_, fun m hm => ?_,
    ha.obsolete.trans h.untagged⟩
  · rcases ha.finished_new b m hm with hm | hc
    · exact (h.finished b m hm).of_disk (ha.settled _ (h.fgWf.settled_of_finished hm))
    · exact hc
  · rw [ha.find] at hm
    have hnum := BlobStorage.fileNumber_of_findFile hm
    refine (h.found n m hm).of_disk (ha.settled _ (FgWf.settled_of_not_owned ?_ fun b hb => ?_))
    · by_contra hle
      rw [(h.fgWf.fresh n (by omega)).2.1] at hm; cases hm
    · rw [(h.fgWf.owned_some b n (hnum ▸ hb)).2] at hm; cases hm
  · rw [ha.manifest] at hm
    refine (h.logged m hm).of_disk (ha.settled _ (FgWf.settled_of_not_owned (h.log.logged m hm.1) fun b hb => ?_))
    exact h.log.owned b _ hb (mem_map_of_mem hm.1)

theorem Backed.advance (h : Backed o w r i) (ha : Advances o w w') : Backed o w' r i := by
  refine ⟨h.stored.advance ha, h.lt.trans_le ha.next_le, fun m hm => h.found m (ha.find _ ▸ hm), ?_⟩
  rw [ha.manifest]; exact h.logged

theorem ClientOk.appendRecord {st : Status} {wb : Option BlobIndex} (h : ClientOk o w)
    (hs : w.appendRecord o f b r = some (w', st, wb)) :
    ClientOk o w' ∧ Advances o w w' ∧ ∀ i, wb = some i → Backed o w' r i := by
  obtain ⟨ha, hi⟩ := appendRecord_stored h.fgWf hs
  have hok := h.advance (appendRecord_spec h.fgWf hs).1 ha
  refine ⟨hok, ha, fun i hwb => ?_⟩
  obtain ⟨hst, hown⟩ := hi i hwb
  refine ⟨hst, hok.fgWf.lt_next hown, fun m hm => ?_, fun m hm hn => ?_⟩
  · rw [(hok.fgWf.owned_some _ _ hown).2] at hm; cases hm
  · exact absurd (mem_map.2 ⟨m, hm, hn⟩) (hok.log.owned _ _ hown)

/-! ### Flush markers -/

/-- The manifest after the finished files of slot `b` have left it. -/
inductive HandedOver (b : Nat) (w : World) (fs : BlobFileSet) : Prop
  | kept (h : fs.manifest = w.fileSet.manifest)
  | logged (hnodup : ((w.fg b).finished.map fileNumber).Nodup)
      (h : fs.manifest = w.fileSet.manifest ++ [BlobFileSet.logRecord (.ofAdded (w.fg b).finished) w.fileSet])

variable {fs : BlobFileSet} {k v : Slice}

theorem HandedOver.added (h : HandedOver b w fs) {m : BlobFileMeta} (hm : m ∈ added fs.manifest) :
    m ∈ added w.fileSet.manifest ∨ ∃ m' ∈ (w.fg b).finished, m = m'.persisted := by
  cases h with
  | kept h => exact .inl (h ▸ hm)
  | logged _ h =>
    rw [h, added_snoc, mem_append] at hm
    refine hm.imp_right fun hm => ?_
    obtain ⟨m', hm', rfl⟩ := mem_map.1 hm
    exact ⟨m', hm', rfl⟩

theorem HandedOver.deleted (h : HandedOver b w fs) : deleted fs.manifest = deleted w.fileSet.manifest := by
  cases h with
  | kept h => rw [h]
  | logged _ h =>
    rw [h, deleted_snoc]
    simp [BlobFileSet.logRecord, VersionEdit.persisted, VersionEdit.ofAdded]

theorem mem_owned_of_finished {m : BlobFileMeta} (h : m ∈ (w.fg b).finished) : m.fileNumber ∈ w.owned b :=
  mem_append_left _ (mem_map_of_mem h)

theorem LogInv.handOver (h : LogInv w) (hw : FgWf w) (hh : HandedOver b w fs)
    (hnext : fs.nextFileNumber = w.nextFileNumber) (hset : w'.fileSet = fs)
    (hown : ∀ b', ∀ n ∈ w'.owned b', n ∈ w.owned b' ∧ b' ≠ b) : LogInv w' := by
  have hnext' : w'.nextFileNumber = w.nextFileNumber := by rw [nextFileNumber, hset, hnext]
  refine ⟨?_, ?_, ?_, fun m hm => ?_, fun b' n hn hmem => ?_⟩
  · rw [hset]
    cases hh with
    | kept hm => rw [hm]; exact h.ne
    | logged _ hm => rw [hm]; simp
  · rw [hset]
    cases hh with
    | kept hm => rw [hm]; exact h.ok
    | logged hnodup hm =>
      have hnum : (BlobFileSet.logRecord (.ofAdded (w.fg b).finished) w.fileSet).addedFiles.map
          fileNumber = (w.fg b).finished.map fileNumber := by
        simp [BlobFileSet.logRecord, VersionEdit.persisted, VersionEdit.ofAdded]
      rw [hm]
      refine h.ok.snoc rfl h.next (by rw [hnum]; exact hnodup) (fun m hm => ?_) nodup_nil fun _ hd => by cases hd
      obtain ⟨m', hm', heq⟩ := mem_map.1 (hnum ▸ mem_map_of_mem hm)
      rw [← heq]
      exact h.owned b _ (mem_owned_of_finished hm')
  · rw [hset, hnext']
    cases hh with
    | kept hm => rw [hm]; exact h.next
    | logged _ hm =>
      intro e he
      rw [hm, mem_append, mem_singleton] at he
      rcases he with he | rfl
      · exact h.next e he
      · exact Nat.le_refl _
  · rw [hset] at hm
    rw [hnext']
    rcases hh.added hm with hm | ⟨m', hm', rfl⟩
    · exact h.logged m hm
    · rw [fileNumber_persisted]
      exact hw.lt_next (mem_owned_of_finished hm')
  · obtain ⟨hn, hne⟩ := hown b' n hn
    obtain ⟨m, hm, rfl⟩ := mem_map.1 hmem
    rw [hset] at hm
    rcases hh.added hm with hm | ⟨m', hm', rfl⟩
    · exact h.owned b' _ hn (mem_map_of_mem hm)
    · rw [fileNumber_persisted] at hn
      exact hw.owned_disjoint b' b hne hn (mem_owned_of_finished hm')

theorem Backed.handOver (h : Backed o w r i) (hw : FgWf w) (hl : LogInv w) (hh : HandedOver b w fs)
    (hover : HandsOver b w fs w') : Backed o w' r i := by
  have hw' := hover.world
  have hdisk : w'.disk = w.disk := by rw [hw']
  refine ⟨?_, ?_, fun m hm => ?_, fun m hm hn => ?_⟩
  · refine h.stored.imp (fun hr => by simpa only [readFile, hdisk] using hr) ?_
    rintro ⟨b', bd, file, hbd, hrest⟩
    have hne : b' ≠ b := by rintro rfl; rw [hover.idle] at hbd; cases hbd
    exact ⟨b', bd, file, by rw [hw']; simpa [update_of_ne hne] using hbd, by rw [hdisk]; exact hrest⟩
  · rw [hw', nextFileNumber, hover.next]; exact h.lt
  · exact (hover.find hm).elim (h.found m) fun hm => (hw.finished b m hm).1
  · rw [hw'] at hm ⊢
    rw [hh.deleted]
    rcases hh.added hm with hm | ⟨m', hm', rfl⟩
    · exact h.logged m hm hn
    · refine ⟨(hw.finished b m' hm').1, fun hdel => ?_⟩
      obtain ⟨p, hp, hpn⟩ := mem_map.1 hdel
      refine hl.owned b _ (mem_owned_of_finished hm') ?_
      rw [← fileNumber_persisted, hn, ← hpn]
      exact hl.ok.deleted_added p hp

theorem ClientOk.handOver (h : ClientOk o w) (hh : HandedOver b w fs) (hover : HandsOver b w fs w') :
    ClientOk o w' := by
  obtain ⟨hwf, hown, -⟩ := h.fgWf.handOver hover
  have hw' := hover.world
  have hdisk : w'.disk = w.disk := by rw [hw']
  refine ⟨hwf, h.log.handOver h.fgWf hh hover.next (by rw [hw']) hown, fun b' m hm => ?_, fun n m hm => ?_,
    fun m hm => ?_, hover.obsolete ▸ h.untagged⟩
  · refine (h.finished b' m ?_).of_disk (by rw [hdisk])
    simp only [hw'] at hm
    by_cases hne : b' = b
    · subst hne; rw [update_self] at hm; cases hm
    · rwa [update_of_ne hne] at hm
  · refine Complete.of_disk (w := w) ?_ (by rw [hdisk])
    exact (hover.find hm).elim (h.found n m) (h.finished b m)
  · rw [hw'] at hm
    refine Complete.of_disk (w := w) ?_ (by rw [hdisk])
    rcases hh.added hm.1 with hold | ⟨m', hm', rfl⟩
    · exact h.logged m ⟨hold, by rw [← hh.deleted]; exact hm.2⟩
    · exact h.finished b m' hm'

/-- A flush marker keeps what stands behind every index, whether or not `BatchFinishFiles` succeeds. -/
theorem ClientOk.flushSlot (h : ClientOk o w) (hsep : o.sepBeforeFlush = true) (hs : w.flushSlot o f b = some w') :
    ClientOk o w' ∧ w'.db = w.db ∧ ∀ r i, Backed o w r i → Backed o w' r i := by
  obtain ⟨w₁, hfin, hcases⟩ := flushSlot_cases h.fgWf hsep hs
  obtain ⟨hw₁, hq, -⟩ := finishBlob_spec h.fgWf hfin
  have ha := finishBlob_advances h.fgWf hfin
  have hok := h.advance hw₁ ha
  rcases hcases with rfl | ⟨fs, hover, hcases⟩
  · exact ⟨hok, hq.db, fun r i hi => hi.advance ha⟩
  have hh : HandedOver b w₁ fs := by
    rcases hcases with hun | hlog
    · rcases hun.manifest with hm | ⟨hacc, hm⟩
      · exact .kept hm
      · exact .logged hacc.added hm
    · exact .logged hlog.accepted.added hlog.manifest
  refine ⟨hok.handOver hh hover, by rw [hover.world]; exact hq.db, fun r i hi => ?_⟩
  exact (hi.advance ha).handOver hw₁ hok.log hh hover

/-! ### Operations -/

/-- The entry stands for the value. -/
def EntryFor (o : Options) (w : World) (k v : Slice) (e : Option LsmEntry) : Prop :=
  e = some (.value v) ∨ ∃ i, e = some (.blobIndex i) ∧ Backed o w ⟨k, v⟩ i

theorem EntryFor.mono {e : Option LsmEntry} (h : EntryFor o w k v e)
    (hb : ∀ r i, Backed o w r i → Backed o w' r i) : EntryFor o w' k v e :=
  h.imp_right fun ⟨i, he, hi⟩ => ⟨i, he, hb _ i hi⟩

/-- What the first half of a Put has prepared: an entry, or nothing for what looks like a flush marker. -/
def PutFor (o : Options) (w : World) (k v : Slice) (e : Option LsmEntry) : Prop :=
  (EntryFor o w k v e ∧ (k = [] → separates o v = false ∧ e = some (.value v))) ∨
    k = [] ∧ separates o v = true ∧ e = none

/-- How `ForegroundBuilder::Add` can end for the pair. -/
inductive AddResult (o : Options) (w : World) (k v : Slice) : Status → Option BlobIndex → Prop
  | refused {st : Status} (hv : separates o v = false) (hst : st ≠ .ok) : AddResult o w k v st none
  | marker (hk : k = []) (hv : separates o v = true) : AddResult o w k v .ok none
  | failed {st : Status} (hk : k ≠ []) (hst : st ≠ .ok) : AddResult o w k v st none
  | stored {i : BlobIndex} (hk : k ≠ []) (hi : Backed o w ⟨k, v⟩ i) : AddResult o w k v .ok (some i)

theorem ClientOk.foregroundAdd {st : Status} {wb : Option BlobIndex} (h : ClientOk o w)
    (hsep : o.sepBeforeFlush = true) (hs : w.foregroundAdd o f k v = some (w', st, wb)) :
    ClientOk o w' ∧ w'.db = w.db ∧ (∀ r i, Backed o w r i → Backed o w' r i) ∧ AddResult o w' k v st wb := by
  unfold World.foregroundAdd at hs
  split at hs
  next hv =>
    cases hs
    exact ⟨h, rfl, fun _ _ hi => hi, .refused hv nofun⟩
  next hv =>
    split at hs
    next hk =>
      obtain ⟨w₂, hflush, hs⟩ := map_eq_some_iff.1 hs
      cases hs
      obtain ⟨hok, hdb, hb⟩ := h.flushSlot hsep hflush
      exact ⟨hok, hdb, hb, .marker hk (by simpa using hv)⟩
    next hk =>
      obtain ⟨hok, ha, hi⟩ := h.appendRecord hs
      refine ⟨hok, ha.db, fun r i hi => hi.advance ha, ?_⟩
      rcases appendRecord_cases hs with ⟨hne, -, rfl, rfl⟩ | ⟨-, rfl, _, _, _, _, -, -, rfl, -⟩
      · exact .failed hk hne
      · exact .stored hk (hi _ rfl)

theorem ClientOk.putEntry {e : Option LsmEntry} (h : ClientOk o w) (hsep : o.sepBeforeFlush = true)
    (hs : w.putEntry o f k v = some (w', e)) :
    ClientOk o w' ∧ w'.db = w.db ∧ (∀ r i, Backed o w r i → Backed o w' r i) ∧ PutFor o w' k v e := by
  simp only [World.putEntry, hsep, if_true, map_eq_some_iff, Prod.exists] at hs
  obtain ⟨w₁, st, wb, hs, heq⟩ := hs
  obtain ⟨hok, hdb, hb, hres⟩ := h.foregroundAdd hsep hs
  split at heq
  next hst =>
    cases heq
    refine ⟨hok, hdb, hb, ?_⟩
    cases hres with
    | refused _ hne | failed _ hne => exact absurd hst hne
    | marker hk hv => exact .inr ⟨hk, hv, rfl⟩
    | stored hk hi => exact .inl ⟨.inr ⟨_, rfl, hi⟩, fun hnil => absurd hnil hk⟩
  next hst =>
    cases heq
    refine ⟨hok, hdb, hb, .inl ⟨.inl rfl, fun hnil => ?_⟩⟩
    cases hres with
    | refused hv _ => exact ⟨hv, rfl⟩
    | marker | stored => exact absurd rfl hst
    | failed hk _ => exact absurd hnil hk

/-- What an acknowledged operation has left in the LSM tree. -/
def AckedFor (o : Options) (w : World) (k : Slice) : Option Slice → Prop
  | none => w.db.get k = none
  | some v => EntryFor o w k v (w.db.get k) ∨ k = [] ∧ separates o v = true

theorem AckedFor.mono {k : Slice} {x : Option Slice} (h : AckedFor o w k x) (hdb : w'.db = w.db)
    (hb : ∀ r i, Backed o w r i → Backed o w' r i) : AckedFor o w' k x := by
  cases x with
  | none => exact (congrArg (get · k) hdb).trans h
  | some v => exact h.imp_left fun h => by rw [hdb]; exact h.mono hb

end

structure ClientInv (o : Options) (s : System) : Prop where
  mode : o.sepBeforeFlush = true
  ok : ClientOk o s.world
  puts : ∀ p ∈ s.puts, PutFor o s.world p.1 p.2.1 p.2.2
  acked : ∀ k x, s.acked.lookup k = some x → AckedFor o s.world k x
  emptyKey : ∀ e, s.world.db.get [] = some e → ∃ v, e = .value v ∧ separates o v = false

section

variable {o : Options} {s s' : System} {w' : World} {k : Slice}

theorem ClientInv.quiet (h : ClientInv o s) (hok : ClientOk o s'.world) (hdb : s'.world.db = s.world.db)
    (hb : ∀ r i, Backed o s.world r i → Backed o s'.world r i)
    (hputs : ∀ p ∈ s'.puts, p ∈ s.puts ∨ PutFor o s'.world p.1 p.2.1 p.2.2) (hacked : s'.acked = s.acked) :
    ClientInv o s' := by
  refine ⟨h.mode, hok, fun p hp => ?_, fun k x hx => ?_, hdb ▸ h.emptyKey⟩
  · rcases hputs p hp with hp | hp
    · exact (h.puts p hp).imp_left fun ⟨he, hk⟩ => ⟨he.mono hb, hk⟩
    · exact hp
  · exact (h.acked k x (hacked ▸ hx)).mono hdb hb

theorem AckedFor.write {w : World} {k' : Slice} {x : Option Slice} {e : Option LsmEntry} (h : AckedFor o w k' x)
    (hne : k' ≠ k) : AckedFor o { w with db := w.db.write k e .user } k' x := by
  cases x with
  | none => exact (get_write_of_ne hne).trans h
  | some v =>
    refine h.imp_left fun h => ?_
    rw [get_write_of_ne hne]
    exact h.mono fun _ _ hi => ⟨hi.stored, hi.lt, hi.found, hi.logged⟩

theorem ClientInv.write (h : ClientInv o s) {e : Option LsmEntry} {x : Option Slice}
    (hw : s'.world = { s.world with db := s.world.db.write k e .user }) (hputs : s'.puts ⊆ s.puts)
    (hacked : s'.acked = (k, x) :: s.acked)
    (hx : AckedFor o s'.world k x) (hk : k = [] → ∀ e', e = some e' → ∃ v, e' = .value v ∧ separates o v = false) :
    ClientInv o s' := by
  have hb : ∀ r i, Backed o s.world r i → Backed o s'.world r i := by
    rw [hw]; exact fun r i hi => ⟨hi.stored, hi.lt, hi.found, hi.logged⟩
  refine ⟨h.mode, ?_, fun p hp => ?_, fun k' x' hx' => ?_, fun e' he' => ?_⟩
  · rw [hw]
    refine ⟨?_, ?_, h.ok.finished, h.ok.found, h.ok.logged, h.ok.untagged⟩
    · exact ⟨h.ok.fgWf.fresh, h.ok.fgWf.owned_some, h.ok.fgWf.owned_nodup, h.ok.fgWf.owned_disjoint, h.ok.fgWf.finished⟩
    · exact ⟨h.ok.log.ne, h.ok.log.ok, h.ok.log.next, h.ok.log.logged, h.ok.log.owned⟩
  · exact (h.puts p (hputs hp)).imp_left fun ⟨he, hk⟩ => ⟨he.mono hb, hk⟩
  · rw [hacked, lookup_cons] at hx'
    by_cases hkk : k' = k
    · subst hkk
      simp only [beq_self_eq_true, some.injEq] at hx'
      exact hx' ▸ hx
    · rw [beq_eq_false_iff_ne.2 hkk] at hx'
      rw [hw]
      exact (h.acked k' x' hx').write hkk
  · rw [hw] at he'
    rw [get_write] at he'
    split at he'
    next hnil => exact hk hnil.symm e' he'
    next => exact h.emptyKey e' he'

theorem ClientInv.putWrite {n : Nat} {fault : Fault} (h : ClientInv o s)
    (hs : s.step o (.putWrite n fault) = some s') : ClientInv o s' := by
  simp only [step, map_eq_some_iff, Prod.exists] at hs
  obtain ⟨k, v, e, hput, rfl⟩ := hs
  have hsub : s.puts.eraseIdx n ⊆ s.puts := (eraseIdx_sublist ..).subset
  have hfor : PutFor o s.world k v e := h.puts _ (mem_of_getElem? hput)
  split
  · rcases hfor with ⟨he, hk⟩ | ⟨rfl, hv, hnone⟩
    · obtain ⟨e', rfl⟩ : ∃ e', e = some e' := by
        rcases he with he | ⟨i, he, -⟩ <;> exact ⟨_, he⟩
      refine h.write rfl hsub rfl (.inl ?_) fun hnil e'' he'' => ?_
      · show EntryFor o _ k v ((s.world.db.write k (some e') .user).get k)
        rw [get_write_self]
        exact he.mono fun _ _ hi => ⟨hi.stored, hi.lt, hi.found, hi.logged⟩
      · obtain ⟨hv, hval⟩ := hk hnil
        cases hval
        cases he''
        exact ⟨v, rfl, hv⟩
    · -- the batch is empty: nothing is written, and the Put is acknowledged
      subst hnone
      refine ⟨h.mode, h.ok, fun p hp => h.puts p (hsub hp), fun k' x' hx' => ?_, h.emptyKey⟩
      rw [lookup_cons] at hx'
      by_cases hkk : k' = []
      · subst hkk
        simp only [beq_self_eq_true, some.injEq] at hx'
        subst hx'
        exact .inr ⟨rfl, hv⟩
      · rw [beq_eq_false_iff_ne.2 hkk] at hx'
        exact h.acked k' x' hx'
  · exact h.quiet h.ok rfl (fun _ _ hi => hi) (fun p hp => .inl (hsub hp)) rfl

theorem ClientInv.step {e : SysEvent} (h : ClientInv o s) (hc : e.isClient = true) (hs : s.step o e = some s') :
    ClientInv o s' := by
  cases e with
  | putAdd f k v =>
    simp only [System.step, map_eq_some_iff, Prod.exists] at hs
    obtain ⟨w, e, hput, rfl⟩ := hs
    obtain ⟨hok, hdb, hb, hfor⟩ := h.ok.putEntry h.mode hput
    refine h.quiet hok hdb hb (fun p hp => ?_) rfl
    rcases mem_append.1 hp with hp | hp
    · exact .inl hp
    · rw [mem_singleton.1 hp]; exact .inr hfor
  | putWrite n fault => exact h.putWrite hs
  | delete k =>
    cases hs
    exact h.write rfl (List.Subset.refl _) rfl get_write_self fun _ _ he => nomatch he
  | sealSlot b f =>
    simp only [System.step, h.mode, if_true, map_eq_some_iff] at hs
    obtain ⟨w, hflush, rfl⟩ := hs
    obtain ⟨hok, hdb, hb⟩ := h.ok.flushSlot h.mode hflush
    exact h.quiet hok hdb hb (fun p hp => .inl hp) rfl
  | pick | gc | getSnapshot | releaseSnapshot | readOldest | removeObsolete => cases hc

end

/-- The engine after `Open` in `sep_before_flush` mode. -/
structure ClientStart (o : Options) (s : System) : Prop where
  mode : o.sepBeforeFlush = true
  ok : ClientOk o s.world
  puts : s.puts = []
  acked : s.acked = []
  emptyKey : ∀ e, s.world.db.get [] = some e → ∃ v, e = .value v ∧ separates o v = false

theorem ClientStart.inv {o : Options} {s : System} (h : ClientStart o s) : ClientInv o s :=
  ⟨h.mode, h.ok, by simp [h.puts], by simp [h.acked], h.emptyKey⟩

theorem ClientStart.run {o : Options} {s s' : System} {es : List SysEvent} (h : ClientStart o s)
    (hes : ∀ e ∈ es, e.isClient = true) (hrun : Exec.run (step o) s es = some s') : ClientInv o s' := by
  have hall : Exec.AllSteps (step o) (fun _ e => e.isClient = true) s es := .of_forall hes
  exact Exec.run_inv (fun _ _ _ hi hc hs => hi.step hc hs) h.inv hall hrun

theorem System.clientStart_fresh : ClientStart (.small true false) fresh where
  mode := rfl
  ok :=
    { fgWf := worldOk_fresh.fgWf
      log :=
        { ne := nofun
          ok := ⟨nodup_nil, nodup_nil, nofun, by simp [fresh], pairwise_singleton ..⟩
          next := by simp [fresh]
          logged := nofun
          owned := nofun }
      finished := nofun
      found := nofun
      logged := fun _ h => nomatch h.1
      untagged := rfl }
  puts := rfl
  acked := rfl
  emptyKey := nofun

/-! ### Request sequences -/

/-- What a builder thread takes from its queue. `Flush` sends a marker to each of them. -/
inductive BuilderRequest
  | add (f : AddFaults) (key value : Slice)
  | flush (f : AddFaults) (b : Nat)

/-- `handleRequest` for one request, up to the answer. -/
def World.handleRequest (o : Options) (w : World) : BuilderRequest → Option World
  | .add f key value => (w.foregroundAdd o f key value).map Prod.fst
  | .flush f b => w.flushSlot o f b

section

variable {o : Options} {w₀ w w' : World} {es : List BuilderRequest}

theorem ClientOk.handleRequest {e : BuilderRequest} (h : ClientOk o w) (hsep : o.sepBeforeFlush = true)
    (hs : w.handleRequest o e = some w') : ClientOk o w' ∧ ∀ r i, Backed o w r i → Backed o w' r i := by
  cases e with
  | add f key value =>
    obtain ⟨⟨w₁, st, wb⟩, hadd, rfl⟩ := map_eq_some_iff.1 hs
    obtain ⟨hok, -, hb, -⟩ := h.foregroundAdd hsep hadd
    exact ⟨hok, hb⟩
  | flush f b =>
    obtain ⟨hok, -, hb⟩ := h.flushSlot hsep hs
    exact ⟨hok, hb⟩

theorem ClientOk.handleRequests (h : ClientOk o w) (hsep : o.sepBeforeFlush = true)
    (hrun : Exec.run (World.handleRequest o) w es = some w') :
    ClientOk o w' ∧ ∀ r i, Backed o w r i → Backed o w' r i := by
  refine Exec.run_inv (I := fun w' => ClientOk o w' ∧ ∀ r i, Backed o w r i → Backed o w' r i)
    (fun w₁ e w₂ hi _ hs => ?_) ⟨h, fun _ _ hb => hb⟩ (.of_forall fun _ _ => trivial) hrun
  obtain ⟨hok, hb⟩ := hi.1.handleRequest hsep hs
  exact ⟨hok, fun r i hbacked => hb r i (hi.2 r i hbacked)⟩

/-- A builder in error never gives its file up. -/
theorem Backed.read_of_settled {r : BlobRecord} {i : BlobIndex} (h : Backed o w r i) (henc : Encodable o false r)
    (hset : w.Settled i.fileNumber) : w.readFile o false i = some r := by
  rcases h.stored with hread | ⟨b, bd, _, hbd, -, hnum, -⟩
  · exact hread henc
  · exact absurd hnum (hset.2 b bd hbd)

theorem foregroundAdd_ok_iff (hsep : o.sepBeforeFlush = true) (h₀ : ClientOk o w₀)
    (hrun : Exec.run (World.handleRequest o) w₀ es = some w) {f : AddFaults} {key value : Slice}
    {wb : Option BlobIndex} (hadd : w.foregroundAdd o f key value = some (w', .ok, wb))
    (henc : Encodable o false ⟨key, value⟩) :
    (∃ i, wb = some i ∧ ∀ es' w'', Exec.run (World.handleRequest o) w' es' = some w'' →
        w''.Settled i.fileNumber → w''.readFile o false i = some ⟨key, value⟩) ↔ key ≠ [] := by
  obtain ⟨hok, -⟩ := h₀.handleRequests hsep hrun
  obtain ⟨hok', -, -, hres⟩ := hok.foregroundAdd hsep hadd
  cases hres with
  | refused _ hne | failed _ hne => exact absurd rfl hne
  | marker hk _ => exact iff_of_false (fun ⟨_, hwb, _⟩ => nomatch hwb) (fun hne => hne hk)
  | stored hk hi =>
    refine iff_of_true ⟨_, rfl, fun es' w'' hrun' hset => ?_⟩ hk
    exact ((hok'.handleRequests hsep hrun').2 _ _ hi).read_of_settled henc hset

end

theorem foregroundAdd_ok_first :
    ∃ w' i, System.fresh.world.foregroundAdd (.small true false) {} [1] [10] = some (w', .ok, some i) ∧
      ∀ es w'', Exec.run (handleRequest (.small true false)) w' es = some w'' →
        w''.Settled i.fileNumber → w''.readFile (.small true false) false i = some ⟨[1], [10]⟩ := by
  have hadd : (fresh.world.foregroundAdd (.small true false) {} [1] [10]).map Prod.snd =
      some (.ok, some ⟨1, ⟨8, 13⟩⟩) := by decide +kernel
  obtain ⟨⟨w', st, wb⟩, hadd, heq⟩ := map_eq_some_iff.1 hadd
  cases heq
  have hrun : Exec.run (handleRequest (.small true false)) fresh.world [] = some fresh.world := rfl
  have henc : Encodable (.small true false) false ⟨[1], [10]⟩ := by decide
  obtain ⟨i, hi, hlater⟩ := (foregroundAdd_ok_iff rfl clientStart_fresh.ok hrun hadd henc).2 (cons_ne_nil _ _)
  exact ⟨w', i, hi ▸ hadd, hlater⟩

/-- The value goes nowhere: the request looks like a flush marker. -/
theorem foregroundAdd_emptyKey :
    ClientOk (.small true false) System.fresh.world ∧
      (fresh.world.foregroundAdd (.small true false) {} [] [10]).map Prod.snd = some (.ok, none) :=
  ⟨clientStart_fresh.ok, by decide +kernel⟩

end ValueSep.DiffKV
