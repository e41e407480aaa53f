import Mathlib.Data.List.Forall2
import ValueSep.DiffKV.TableBuilder

/-!
# Flushes and compactions keep the meaning of entries

An entry stands for its inline value, or for what is read through its blob index. While the builder runs, the records
it has written are in files that are not registered: `view` reads them there, and otherwise as `BlobStorage::Get`
does. Files of the builder only grow, under numbers that no readable index has, so `view` keeps every answer that was
given once (`view_mono`), and after `Finish` it is what `Get` returns (`get_after`).
-/

namespace ValueSep.DiffKV

open Coding Exec
open List Option WritableFile BlobIndex Prod TableEnv

/-! ### Internal keys -/

theorem packed_sequence {q t : Nat} (hq : q < 2 ^ 56) (ht : t < 256) :
    q * 256 + t < 256 ^ 8 ∧ (q * 256 + t) % 256 = t ∧ (q * 256 + t) / 256 = q := by omega

variable {k : ParsedInternalKey}

theorem parseInternalKey_appendInternalKey (hseq : k.sequence < 2 ^ 56)
    (htype : isExtendedValueType k.type = true) : parseInternalKey (appendInternalKey k) = some k := by
  have hlen : (appendInternalKey k).length = k.userKey.length + 8 := by simp [appendInternalKey]
  obtain ⟨hnum, hlow, hhigh⟩ := packed_sequence hseq k.type.toNat_lt
  have hdrop : (appendInternalKey k).drop k.userKey.length = putFixed 8 (k.sequence * 256 + k.type.toNat) :=
    drop_left
  have hget : getFixed 8 (putFixed 8 (k.sequence * 256 + k.type.toNat)) =
      some (k.sequence * 256 + k.type.toNat, []) := by simpa using getFixed_of_lt hnum []
  have htake : (appendInternalKey k).take k.userKey.length = k.userKey := take_left
  unfold parseInternalKey
  rw [if_neg (by omega), hlen, Nat.add_sub_cancel, hdrop, hget]
  simp only [hlow, hhigh, htake, UInt8.ofNat_toNat, htype, if_true]

theorem sequence_lt_of_parseInternalKey {key : Bytes} (h : parseInternalKey key = some k) : k.sequence < 2 ^ 56 := by
  unfold parseInternalKey at h
  repeat' split at h
  all_goals cases h
  next num _ hget _ =>
    have := lt_of_getFixed hget
    show num / 256 < 2 ^ 56
    omega

/-- The key under another type of value has the same user key and sequence number. -/
theorem parseInternalKey_withType {key : Bytes} (h : parseInternalKey key = some k)
    {t : UInt8} (ht : isExtendedValueType t = true) :
    parseInternalKey (appendInternalKey { k with type := t }) = some { k with type := t } :=
  have hseq : k.sequence < 2 ^ 56 := sequence_lt_of_parseInternalKey h
  parseInternalKey_appendInternalKey hseq ht

/-! ### The meaning of an entry -/

/-- The value an entry stands for, if it has one. -/
def resolve (get : BlobIndex → Except Status Slice) (key value : Bytes) : Option Slice :=
  (parseInternalKey key).bind fun k =>
    if k.type = kTypeValue then some value
    else if k.type = kTypeBlobIndex then
      match BlobIndex.decodeFrom value with
      | .error _ => none
      | .ok i => (get i).toOption
    else none

/-- The entry handed over for a call: it has the user key and the sequence number, stands for the same value, and is
the same entry if that is of another type or leads nowhere. -/
structure SameEntry (get get' : BlobIndex → Except Status Slice) (call : AddCall) (out : Bytes × Bytes) : Prop where
  key : ∃ k k', parseInternalKey call.key = some k ∧ parseInternalKey out.1 = some k' ∧
    k'.userKey = k.userKey ∧ k'.sequence = k.sequence
  value : ∀ v, resolve get call.key call.value = some v → resolve get' out.1 out.2 = some v
  other : ∀ k, parseInternalKey call.key = some k → k.type ≠ kTypeValue → k.type ≠ kTypeBlobIndex →
    out = (call.key, call.value)
  unresolved : resolve get call.key call.value = none → out = (call.key, call.value)

section meaning
variable {get get' get'' : BlobIndex → Except Status Slice} {call : AddCall} {k : ParsedInternalKey} {v : Slice}
  {i : BlobIndex}

variable {key value : Bytes}

theorem resolve_value (h : parseInternalKey key = some k) (ht : k.type = kTypeValue) :
    resolve get key value = some value := by
  simp [resolve, h, ht]

theorem resolve_blobIndex (h : parseInternalKey key = some k) (ht : k.type = kTypeBlobIndex)
    (hi : BlobIndex.decodeFrom value = .ok i) : resolve get key value = (get i).toOption := by
  have hne : kTypeBlobIndex ≠ kTypeValue := by decide
  simp [resolve, h, ht, hi, hne]

theorem resolve_mono (hle : ∀ i v, get i = .ok v → get' i = .ok v)
    (h : resolve get key value = some v) : resolve get' key value = some v := by
  obtain ⟨k, hk, hv⟩ := bind_eq_some_iff.1 h
  refine bind_eq_some_iff.2 ⟨k, hk, ?_⟩
  by_cases h₁ : k.type = kTypeValue
  · rw [if_pos h₁] at hv ⊢
    exact hv
  · rw [if_neg h₁] at hv ⊢
    by_cases h₂ : k.type = kTypeBlobIndex
    · rw [if_pos h₂] at hv ⊢
      cases hi : BlobIndex.decodeFrom value with
      | error st => rw [hi] at hv; cases hv
      | ok i =>
        rw [hi] at hv
        cases hg : get i with
        | error st => simp [hg, Except.toOption] at hv
        | ok v' =>
          simp only [hg, Except.toOption] at hv
          cases hv
          simp only [hle i _ hg, Except.toOption]
    · rw [if_neg h₂] at hv
      cases hv

theorem SameEntry.mono {out : Bytes × Bytes} (hle : ∀ i v, get' i = .ok v → get'' i = .ok v)
    (h : SameEntry get get' call out) : SameEntry get get'' call out :=
  ⟨h.key, fun v hv => resolve_mono hle (h.value v hv), h.other, h.unresolved⟩

theorem SameEntry.refl (hle : ∀ i v, get i = .ok v → get' i = .ok v) (h : parseInternalKey call.key = some k) :
    SameEntry get get' call (call.key, call.value) :=
  ⟨⟨k, k, h, h, rfl, rfl⟩, fun _ hv => resolve_mono hle hv, fun _ _ _ _ => rfl, fun _ => rfl⟩

theorem SameEntry.moved {t : UInt8} {value : Bytes} (h : parseInternalKey call.key = some k)
    (hfrom : k.type = kTypeValue ∨ k.type = kTypeBlobIndex) (ht : isExtendedValueType t = true)
    (hv : resolve get call.key call.value = some v)
    (hv' : resolve get' (appendInternalKey { k with type := t }) value = some v) :
    SameEntry get get' call (appendInternalKey { k with type := t }, value) := by
  refine ⟨⟨k, _, h, parseInternalKey_withType h ht, rfl, rfl⟩, fun v' hv'' => ?_, fun k' hk' h₁ h₂ => ?_, fun hnone => ?_⟩
  · rw [hv] at hv''
    cases hv''
    exact hv'
  · rw [h] at hk'
    cases hk'
    rcases hfrom with ht | ht
    · exact absurd ht h₁
    · exact absurd ht h₂
  · rw [hv] at hnone
    cases hnone

end meaning

/-! ### Files that grow -/

/-- Every file is still there, with more at its end. -/
def Grown (files files' : List (Nat × Bytes)) : Prop :=
  ∀ n c, files.lookup n = some c → ∃ data, files'.lookup n = some (c ++ data)

namespace Grown

variable {files files' files'' : List (Nat × Bytes)}

theorem refl (files : List (Nat × Bytes)) : Grown files files := fun _ _ h => ⟨[], by rw [h, append_nil]⟩

theorem trans (h : Grown files files') (h' : Grown files' files'') : Grown files files'' := by
  intro n c hc
  obtain ⟨data, hdata⟩ := h n c hc
  obtain ⟨data', hdata'⟩ := h' n _ hdata
  exact ⟨data ++ data', by rw [hdata', append_assoc]⟩

theorem snoc (files : List (Nat × Bytes)) (p : Nat × Bytes) : Grown files (files ++ [p]) := by
  intro n c hc
  exact ⟨[], by rw [lookup_append, hc, append_nil]; rfl⟩

theorem last (files : List (Nat × Bytes)) (n : Nat) (c data : Bytes) :
    Grown (files ++ [(n, c)]) (files ++ [(n, c ++ data)]) := by
  intro n' c' hc
  rw [lookup_append] at hc ⊢
  cases hold : files.lookup n' with
  | some c₁ =>
    rw [hold] at hc
    cases hc
    exact ⟨[], by simp⟩
  | none =>
    rw [hold, lookup_cons] at hc
    rw [lookup_cons]
    split at hc
    · cases hc
      exact ⟨data, rfl⟩
    · cases hc

end Grown

/-! ### The files of a builder -/

namespace TableBuilder

/-- The finished files and the open one, by number. -/
def contents (b : TableBuilder) : List (Nat × Bytes) :=
  b.finished.map (fun p => (p.1.fileNumber, p.2.content)) ++ b.handle.toList.map fun p => (p.1, p.2.content)

/-- Reads through an index into the files of the builder, or as `BlobStorage::Get` does. -/
def view (env : TableEnv) (b : TableBuilder) (i : BlobIndex) : Except Status Slice :=
  match b.contents.lookup i.fileNumber with
  | some c =>
    match readRecord env.options.codec env.options.levelMerge c i.blobHandle with
    | .error f => .error f
    | .ok r => .ok r.value
  | none => env.get none i

/-- The size an open file stays below, as it is finished at the target size; a new one has a header. -/
def sizeBound (env : TableEnv) : Nat := max env.options.blobFileTargetSize (kBlobHeaderSize + 1)

def Opened (env : TableEnv) (b : TableBuilder) : Prop :=
  ∃ n file blob, b.handle = some (n, file) ∧ b.blob = some blob ∧ blob.status = .ok ∧ file.fileSize < sizeBound env

/-- A file as `FinishBlobFile` leaves it. -/
structure FinishedFile (env : TableEnv) (p : BlobFileMeta × WritableFile) : Prop where
  sorted : p.1.fileType = .sorted
  flushed : p.2.buf = []
  size : p.1.fileSize = p.2.fileSize
  footer : ∃ data, p.2.content = data ++ encodeFooter env.options.codec

/-- A builder that has met no error, its files numbered from `start` on. -/
structure Clean (env : TableEnv) (start : Nat) (b : TableBuilder) : Prop where
  status : b.status = .ok
  baseStatus : b.baseStatus = .ok
  opened : (b.handle = none ∧ b.blob = none) ∨ b.Opened env
  start_le : start ≤ b.nextFileNumber
  nodup : (b.contents.map fst).Nodup
  numbers : ∀ n ∈ b.contents.map fst, start ≤ n ∧ n < b.nextFileNumber
  finished : ∀ p ∈ b.finished, FinishedFile env p

section view
variable {env : TableEnv} {start : Nat} {b b' : TableBuilder} {i : BlobIndex} {v : Slice}

theorem lookup_eq_none_of_lt (h : Clean env start b) {n : Nat} (hn : n < start) : b.contents.lookup n = none := by
  rw [lookup_eq_none_iff]
  intro p hp
  have := (h.numbers p.1 (mem_map_of_mem hp)).1
  rw [bne_iff_ne]
  omega

section
variable (hfresh : ∀ i v, env.get none i = .ok v → i.fileNumber < start)
include hfresh

theorem get_le_view (h : Clean env start b) (hi : env.get none i = .ok v) : b.view env i = .ok v := by
  rw [view, lookup_eq_none_of_lt h (hfresh i v hi)]
  exact hi

theorem view_mono (h : Clean env start b')
    (hgrown : Grown b.contents b'.contents) (hi : b.view env i = .ok v) : b'.view env i = .ok v := by
  unfold view at hi
  split at hi
  next c hc =>
    obtain ⟨data, hdata⟩ := hgrown _ _ hc
    split at hi
    · cases hi
    next r hr =>
      cases hi
      simp only [view, hdata, readRecord_append hr data]
  · exact get_le_view hfresh h hi

end

end view

/-! ### One call without errors -/

/-- From one builder to the next, with at most `d` file numbers gone. -/
structure Advance (env : TableEnv) (start d : Nat) (b b' : TableBuilder) : Prop where
  clean : Clean env start b'
  grown : Grown b.contents b'.contents
  base : b'.base = b.base
  next : b'.nextFileNumber ≤ b.nextFileNumber + d

section clean
variable {env : TableEnv} {start d d' : Nat} {b b' b'' : TableBuilder} {f : TableFaults}

theorem Advance.trans (h : Advance env start d b b') (h' : Advance env start d' b' b'') :
    Advance env start (d + d') b b'' := by
  refine ⟨h'.clean, h.grown.trans h'.grown, h'.base.trans h.base, ?_⟩
  have := h.next
  have := h'.next
  omega

theorem Clean.ok (h : Clean env start b) : b.ok = true := by
  refine ok_iff.2 ⟨h.status, h.baseStatus, ?_⟩
  rintro ⟨blob, hmem, hne⟩
  rcases h.opened with ⟨-, hnone⟩ | ⟨n, file, blob', -, hblob, hst, -⟩
  · rw [hnone] at hmem
    cases hmem
  · rw [hblob] at hmem
    cases hmem
    exact hne hst

variable {n : Nat}

theorem contents_of_handle {file : WritableFile} (h : b.handle = some (n, file)) :
    b.contents = b.finished.map (fun p => (p.1.fileNumber, p.2.content)) ++ [(n, file.content)] := by
  simp [contents, h]

theorem contents_of_no_handle (h : b.handle = none) :
    b.contents = b.finished.map fun p => (p.1.fileNumber, p.2.content) := by
  simp [contents, h]

theorem openBlob_clean (h : Clean env start b) (skipped : Nat) (hnew : f.newFile = none) (hheader : f.header = none) :
    Advance env start (skipped + 1) b (b.openBlob env skipped f) ∧ (b.openBlob env skipped f).Opened env := by
  rcases h.opened with ⟨hhandle, hblob⟩ | hopen
  · have hsize : ((create env.maxBufferSize).append encodeFileHeader).fileSize < sizeBound env := by
      rw [fileSize, content_append, content_create]
      exact lt_max_of_lt_right (by decide)
    have heq : b.openBlob env skipped f = { b with
        nextFileNumber := b.nextFileNumber + skipped + 1
        handle := some (b.nextFileNumber + skipped, (WritableFile.create env.maxBufferSize).append encodeFileHeader)
        blob := some ⟨b.nextFileNumber + skipped, .ok, 0, [], []⟩
        files := b.files.newFile (b.nextFileNumber + skipped) } := by
      simp [openBlob, hblob, hnew, hheader, BlobFileBuilder.create, Fault.status]
    have hopened : (b.openBlob env skipped f).Opened env := by
      rw [heq]
      exact ⟨_, _, _, rfl, rfl, rfl, hsize⟩
    have hcontents : (b.openBlob env skipped f).contents = b.contents ++
        [(b.nextFileNumber + skipped, ((create env.maxBufferSize).append encodeFileHeader).content)] := by
      rw [heq, contents_of_no_handle hhandle]
      exact contents_of_handle rfl
    refine ⟨⟨?_, hcontents ▸ Grown.snoc _ _, by rw [heq], by rw [heq]; exact (Nat.add_assoc ..).le⟩, hopened⟩
    refine ⟨by rw [heq]; exact h.status, by rw [heq]; exact h.baseStatus, .inr hopened, ?_, ?_, ?_, ?_⟩
    · rw [heq]
      exact h.start_le.trans (by show b.nextFileNumber ≤ b.nextFileNumber + skipped + 1; omega)
    · rw [hcontents, map_append, nodup_append]
      refine ⟨h.nodup, nodup_singleton _, fun n hn n' hn' heq' => ?_⟩
      have := (h.numbers n hn).2
      rw [map_singleton, mem_singleton] at hn'
      omega
    · intro n hn
      rw [hcontents, map_append, mem_append] at hn
      have hstart := h.start_le
      rw [heq]
      show start ≤ n ∧ n < b.nextFileNumber + skipped + 1
      rcases hn with hn | hn
      · have := h.numbers n hn
        omega
      · rw [map_singleton, mem_singleton] at hn
        omega
    · rw [heq]
      exact h.finished
  · obtain ⟨n, file, blob, hhandle, hblob, hst, hsize⟩ := hopen
    have heq : b.openBlob env skipped f = b := by simp [openBlob, hblob]
    rw [heq]
    exact ⟨⟨h, Grown.refl _, rfl, Nat.le_add_right _ _⟩, ⟨n, file, blob, hhandle, hblob, hst, hsize⟩⟩

theorem Clean.replace {file file' : WritableFile} {blob : BlobFileBuilder} {data : Bytes}
    (h : Clean env start b) (hhandle : b.handle = some (n, file)) (hst : blob.status = .ok)
    (hdata : file'.content = file.content ++ data) (hsize : file'.fileSize < sizeBound env) :
    Advance env start 0 b { b with handle := some (n, file'), blob := some blob } := by
  have hcontents : contents { b with handle := some (n, file'), blob := some blob } =
      b.finished.map (fun p => (p.1.fileNumber, p.2.content)) ++ [(n, file.content ++ data)] := by
    rw [← hdata]
    exact contents_of_handle rfl
  have hkeys : (contents { b with handle := some (n, file'), blob := some blob }).map fst =
      b.contents.map fst := by
    rw [hcontents, contents_of_handle hhandle, map_append, map_append]
    rfl
  refine ⟨⟨h.status, h.baseStatus, .inr ⟨n, file', blob, rfl, rfl, hst, hsize⟩, h.start_le, ?_, ?_, h.finished⟩, ?_, rfl,
    le_rfl⟩
  · rw [hkeys]
    exact h.nodup
  · rw [hkeys]
    exact h.numbers
  · rw [hcontents, contents_of_handle hhandle]
    exact Grown.last _ _ _ _

theorem finishBlobFile_clean {file file' : WritableFile} {blob : BlobFileBuilder} {data : Bytes}
    (deleteFile : Fault) (h : Clean env start b) (hhandle : b.handle = some (n, file)) (hst : blob.status = .ok)
    (hdata : file'.content = file.content ++ data) :
    ∃ b', finishBlobFile env { b with handle := some (n, file'), blob := some blob } none deleteFile = some b' ∧
      Advance env start 0 b b' ∧ b'.handle = none ∧
      b'.contents = b.finished.map (fun p => (p.1.fileNumber, p.2.content)) ++
        [(n, file'.content ++ encodeFooter env.options.codec)] := by
  have hok : ok { b with
      handle := some (n, (file'.append (encodeFooter env.options.codec)).flush)
      blob := some blob } = true := by
    refine ok_iff.2 ⟨h.status, h.baseStatus, ?_⟩
    rintro ⟨blob', hmem, hne⟩
    cases hmem
    exact hne hst
  have hfinish : blob.finish env.options none file' =
      ((file'.append (encodeFooter env.options.codec)).flush, blob) := by simp [BlobFileBuilder.finish, hst]
  let file'' := (file'.append (encodeFooter env.options.codec)).flush
  let p : BlobFileMeta × WritableFile := (⟨n, file''.fileSize, blob.numEntries, .sorted, env.targetLevel.toNat,
    blob.smallestKey, blob.largestKey, .pendingLSM, 0⟩, file'')
  let b' : TableBuilder := { b with finished := b.finished ++ [p], handle := none, blob := none }
  have heq : finishBlobFile env { b with handle := some (n, file'), blob := some blob } none deleteFile = some b' := by
    simp only [finishBlobFile, hfinish]
    rw [if_pos hok]
  have hp : p.2.content = file'.content ++ encodeFooter env.options.codec := by simp [p, file'']
  have hcontents : b'.contents = b.finished.map (fun p => (p.1.fileNumber, p.2.content)) ++
      [(n, file'.content ++ encodeFooter env.options.codec)] := by
    rw [contents_of_no_handle rfl, ← hp]
    exact map_append
  have hkeys : b'.contents.map fst = b.contents.map fst := by
    rw [hcontents, contents_of_handle hhandle, map_append, map_append]
    rfl
  refine ⟨b', heq, ⟨⟨h.status, h.baseStatus, .inl ⟨rfl, rfl⟩, h.start_le, ?_, ?_, fun q hq => ?_⟩, ?_, rfl, le_rfl⟩, rfl,
    hcontents⟩
  · rw [hkeys]
    exact h.nodup
  · rw [hkeys]
    exact h.numbers
  · rcases mem_append.1 hq with hq | hq
    · exact h.finished q hq
    · rw [mem_singleton.1 hq]
      exact ⟨rfl, rfl, rfl, file'.content, hp⟩
  · rw [hcontents, contents_of_handle hhandle, hdata, append_assoc]
    exact Grown.last _ _ _ _

theorem view_appended {files : List (Nat × Bytes)} {pre post : Bytes} {key value : Slice}
    (h : Clean env start b) (henc : Encodable env.options env.options.levelMerge ⟨key, value⟩)
    (hcontents : b.contents = files ++
      [(n, pre ++ encodeRecord env.options env.options.levelMerge ⟨key, value⟩ ++ post)]) :
    b.view env ⟨n, pre.length, (encodeRecord env.options env.options.levelMerge ⟨key, value⟩).length⟩ = .ok value := by
  have hnew : files.lookup n = none := by
    have hnodup := h.nodup
    rw [hcontents, map_append, nodup_append] at hnodup
    rw [lookup_eq_none_iff]
    intro p hp
    rw [bne_iff_ne]
    exact fun heq => hnodup.2.2 p.1 (mem_map_of_mem hp) n (by simp) heq.symm
  have hlookup : b.contents.lookup n =
      some (pre ++ encodeRecord env.options env.options.levelMerge ⟨key, value⟩ ++ post) := by
    rw [hcontents, lookup_append, hnew, none_or, lookup_cons, beq_self_eq_true]
  have hvalue : (BlobRecord.readBack env.options.levelMerge ⟨key, value⟩).value = value := by
    unfold BlobRecord.readBack
    split <;> rfl
  simp only [view, hlookup, readRecord_encodeRecord henc pre post, hvalue]

theorem addBlob_clean (h : Clean env start b) (skipped : Nat) {key value : Slice}
    (henc : Encodable env.options env.options.levelMerge ⟨key, value⟩)
    (hnumber : b.nextFileNumber + (skipped + 1) ≤ 2 ^ 64) (htarget : env.options.blobFileTargetSize < 2 ^ 64) :
    ∃ b' i, b.addBlob env skipped {} key value = some (b', BlobIndex.encodeTo i) ∧ Advance env start (skipped + 1) b b' ∧
      BlobIndex.decodeFrom (BlobIndex.encodeTo i) = .ok i ∧ b'.view env i = .ok value := by
  obtain ⟨hadv, n, file, blob, hhandle, hblob, hst, hsize⟩ := openBlob_clean (f := {}) h skipped rfl rfl
  let record := encodeRecord env.options env.options.levelMerge ⟨key, value⟩
  have hadd : blob.add env.options env.options.levelMerge none file ⟨key, value⟩ =
      (file.append record, blob.addKey env.options key, ⟨file.fileSize, record.length⟩) := BlobFileBuilder.add_of_ok hst _
  have hst' : (blob.addKey env.options key).status = .ok := by rw [BlobFileBuilder.status_addKey, hst]
  have hdecode : BlobIndex.decodeFrom (BlobIndex.encodeTo ⟨n, file.fileSize, record.length⟩) =
      .ok ⟨n, file.fileSize, record.length⟩ := by
    refine decodeFrom_encodeTo ?_ ?_ ?_
    · have hn := (hadv.clean.numbers n (by rw [contents_of_handle hhandle]; simp)).2
      exact (hn.trans_le hadv.next).trans_le hnumber
    · exact hsize.trans_le (max_le htarget.le (by decide))
    · have hlen : record.length < kRecordHeaderSize + 2 ^ 32 := by
        rw [show record.length = _ from length_encodeRecord ..]
        exact Nat.add_lt_add_left henc.2.2 _
      exact hlen.trans (by decide)
  have hok : ok { b.openBlob env skipped {} with
      handle := some (n, file.append record)
      blob := some (blob.addKey env.options key) } = true := by
    refine ok_iff.2 ⟨hadv.clean.status, hadv.clean.baseStatus, ?_⟩
    rintro ⟨blob', hmem, hne⟩
    cases hmem
    exact hne hst'
  have hcontent : (file.append record).content = file.content ++ record := content_append _ _
  by_cases htarget' : env.options.blobFileTargetSize ≤ (file.append record).fileSize
  · obtain ⟨b', hfinish, hadv', -, hcontents⟩ :=
      finishBlobFile_clean none hadv.clean hhandle hst' hcontent
    refine ⟨b', ⟨n, file.fileSize, record.length⟩, ?_, hadv.trans hadv', hdecode, ?_⟩
    · unfold addBlob
      rw [if_pos h.ok]
      simp only [hhandle, hblob, hadd]
      rw [if_pos hok, if_pos htarget', hfinish]
      rfl
    · rw [hcontent] at hcontents
      exact view_appended hadv'.clean henc hcontents
  · have hadv' := hadv.clean.replace hhandle hst' hcontent
      (lt_max_of_lt_left (not_le.1 htarget'))
    refine ⟨_, ⟨n, file.fileSize, record.length⟩, ?_, hadv.trans hadv', hdecode, ?_⟩
    · unfold addBlob
      rw [if_pos h.ok]
      simp only [hhandle, hblob, hadd]
      rw [if_pos hok, if_neg htarget']
    · have hcontents := contents_of_handle (b := { b.openBlob env skipped {} with
        handle := some (n, file.append record)
        blob := some (blob.addKey env.options key) }) rfl
      rw [hcontent, ← append_nil (_ ++ record)] at hcontents
      exact view_appended hadv'.clean henc hcontents

end clean

/-- A call in which nothing fails: the key parses, the index decodes, and the value has a size that the encoder
accepts. -/
structure Sound (env : TableEnv) (call : AddCall) : Prop where
  faults : call.faults = {}
  key : ∃ k, parseInternalKey call.key = some k
  index : ∀ k, parseInternalKey call.key = some k → k.type = kTypeBlobIndex →
    ∃ i, BlobIndex.decodeFrom call.value = .ok i
  sizes : ∀ k v, parseInternalKey call.key = some k → resolve (env.get none) call.key call.value = some v →
    Encodable env.options env.options.levelMerge ⟨k.userKey, v⟩

/-- Registered files can be opened, and whatever can be read has a number handed out before `start`. -/
structure Ready (env : TableEnv) (start : Nat) : Prop where
  registered : ∀ m ∈ env.storage.files, m.fileNumber < start
  building : ∀ i v, env.building i = .ok v → i.fileNumber < start
  readers : ∀ m ∈ env.storage.files, openReader env.options m.fileSize (env.disk m.fileNumber) = .ok
  target : env.options.blobFileTargetSize < 2 ^ 64

/-- The call has handed over one entry of the same meaning. -/
structure Hands (env : TableEnv) (start : Nat) (call : AddCall) (b b' : TableBuilder) : Prop where
  clean : Clean env start b'
  grown : Grown b.contents b'.contents
  next : b'.nextFileNumber ≤ b.nextFileNumber + (call.skipped + 1)
  base : ∃ out, b'.base = b.base ++ [out] ∧ SameEntry (env.get none) (b'.view env) call out

section add
variable {env : TableEnv} {start d : Nat} {b b' : TableBuilder} {call : AddCall} {k : ParsedInternalKey} {i : BlobIndex}
  {v : Slice}

theorem Ready.fresh (h : Ready env start) (i : BlobIndex) (v : Slice) (hi : env.get none i = .ok v) :
    i.fileNumber < start := by
  unfold TableEnv.get at hi
  split at hi
  next m hm =>
    rw [← BlobStorage.fileNumber_of_findFile hm]
    exact h.registered m (mem_of_find?_eq_some hm)
  · split at hi
    · exact h.building i v hi
    · cases hi

theorem Ready.findFile_eq_none (h : Ready env start) {n : Nat} (hn : start ≤ n) : env.storage.findFile n = none := by
  rw [BlobStorage.findFile, find?_eq_none]
  intro m hm heq
  have := h.registered m hm
  rw [beq_iff_eq] at heq
  omega

theorem Clean.baseAdd (h : Clean env start b) (key value : Bytes) : Clean env start (b.baseAdd none key value) :=
  ⟨h.status, (if_pos h.baseStatus).trans rfl, h.opened, h.start_le, h.nodup, h.numbers, h.finished⟩

theorem Hands.of_baseAdd {key value : Bytes} (h : Advance env start d b b') (hd : d ≤ call.skipped + 1)
    (hsame : SameEntry (env.get none) (b'.view env) call (key, value)) :
    Hands env start call b (b'.baseAdd none key value) := by
  refine ⟨h.clean.baseAdd key value, h.grown, ?_, (key, value), ?_, hsame⟩
  · exact h.next.trans (Nat.add_le_add_left hd _)
  · show b'.base ++ [(key, value)] = b.base ++ [(key, value)]
    rw [h.base]

theorem Clean.advance (h : Clean env start b) : Advance env start 0 b b := ⟨h, Grown.refl _, rfl, le_rfl⟩

section
variable (hready : Ready env start)
include hready

theorem Hands.through (h : Advance env start d b b') (hd : d ≤ call.skipped + 1)
    (hk : parseInternalKey call.key = some k) : Hands env start call b (b'.baseAdd none call.key call.value) :=
  .of_baseAdd h hd (.refl (fun _ _ => get_le_view hready.fresh h.clean) hk)

theorem Hands.separated (hs : Sound env call) (h : Advance env start 0 b b')
    (hk : parseInternalKey call.key = some k) (hfrom : k.type = kTypeValue ∨ k.type = kTypeBlobIndex)
    (hv : resolve (env.get none) call.key call.value = some v)
    (hnumber : b.nextFileNumber + (call.skipped + 1) ≤ 2 ^ 64) :
    ∃ b₁ indexValue, b'.addBlob env call.skipped {} k.userKey v = some (b₁, indexValue) ∧ b₁.ok = true ∧
      Hands env start call b (b₁.baseAdd none (appendInternalKey { k with type := kTypeBlobIndex }) indexValue) := by
  have hnext := h.next
  obtain ⟨b₁, i, hadd, hadv, hdecode, hview⟩ := addBlob_clean h.clean call.skipped (hs.sizes k v hk hv)
    (by omega) hready.target
  refine ⟨b₁, _, hadd, hadv.clean.ok, .of_baseAdd (h.trans hadv) (by omega) (.moved hk hfrom rfl hv ?_)⟩
  rw [resolve_blobIndex (parseInternalKey_withType (t := kTypeBlobIndex) hk rfl) rfl hdecode, hview]
  rfl

theorem merge_clean (hs : Sound env call) (h : Clean env start b)
    (hk : parseInternalKey call.key = some k) (ht : k.type = kTypeBlobIndex)
    (hnumber : b.nextFileNumber + (call.skipped + 1) ≤ 2 ^ 64) :
    ∃ b', b.merge env call k = some b' ∧ Hands env start call b b' := by
  obtain ⟨i, hi⟩ := hs.index k hk ht
  have hthrough : ∀ b' : TableBuilder, Advance env start 0 b b' →
      Hands env start call b (b'.baseAdd none call.key call.value) :=
    fun b' hadv => .through hready hadv (Nat.zero_le _) hk
  unfold merge
  rw [hs.faults, hi]
  dsimp only
  cases hm : env.storage.findFile i.fileNumber with
  | none => exact ⟨_, rfl, hthrough b h.advance⟩
  | some m =>
    have hopen : (if i.fileNumber ∈ b.merging then .ok else env.openFile none m) = .ok := by
      split
      · rfl
      · exact hready.readers m (mem_of_find?_eq_some hm)
    have hadv : Advance env start 0 b
        (if i.fileNumber ∈ b.merging then b else { b with merging := i.fileNumber :: b.merging }) := by
      split
      · exact h.advance
      · exact ⟨⟨h.status, h.baseStatus, h.opened, h.start_le, h.nodup, h.numbers, h.finished⟩, Grown.refl _, rfl, le_rfl⟩
    dsimp only
    rw [hopen]
    split
    · cases hread : env.readBlob none m i with
      | error st => exact ⟨_, rfl, hthrough _ hadv⟩
      | ok value =>
        have hv : resolve (env.get none) call.key call.value = some value := by
          rw [resolve_blobIndex hk ht hi, TableEnv.get, hm]
          simp only [hread, Except.toOption]
        obtain ⟨b₁, indexValue, hadd, hok, hhands⟩ := Hands.separated hready hs hadv hk (.inr ht) hv hnumber
        exact ⟨_, by simp only [hadd, hok, if_true], hhands⟩
    · exact ⟨_, rfl, hthrough b h.advance⟩

theorem add_clean (hs : Sound env call) (h : Clean env start b)
    (hnumber : b.nextFileNumber + (call.skipped + 1) ≤ 2 ^ 64) :
    ∃ b', b.add env call = some b' ∧ Hands env start call b b' := by
  obtain ⟨k, hk⟩ := hs.key
  unfold add
  rw [if_pos h.ok, hk]
  dsimp only
  split
  next hfallback =>
    obtain ⟨i, hi⟩ := hs.index k hk hfallback.1
    rw [hs.faults, hi]
    dsimp only
    cases hget : env.get none i with
    | error st => exact ⟨_, rfl, .through hready h.advance (Nat.zero_le _) hk⟩
    | ok value =>
      have hv : resolve (env.get none) call.key call.value = some value := by
        rw [resolve_blobIndex hk hfallback.1 hi, hget]
        rfl
      refine ⟨_, rfl, .of_baseAdd h.advance (Nat.zero_le _) (.moved hk (.inr hfallback.1) rfl hv ?_)⟩
      exact resolve_value (parseInternalKey_withType hk rfl) rfl
  · split
    next hvalue =>
      rw [hs.faults]
      obtain ⟨b₁, indexValue, hadd, hok, hhands⟩ :=
        Hands.separated hready hs h.advance hk (.inl hvalue.1) (resolve_value hk hvalue.1) hnumber
      exact ⟨_, by simp only [hadd, hok, if_true], hhands⟩
    · split
      next hmerge => exact merge_clean hready hs h hk hmerge.1 hnumber
      · rw [hs.faults]
        exact ⟨_, rfl, .through hready h.advance (Nat.zero_le _) hk⟩

end

end add

/-! ### Whole runs -/

section run
variable {env : TableEnv} {start : Nat} {b b' : TableBuilder} {calls : List AddCall}

theorem run_clean (hready : Ready env start) (hs : ∀ call ∈ calls, Sound env call) (h : Clean env start b)
    (hnumber : b.nextFileNumber + (calls.map fun call => call.skipped + 1).sum ≤ 2 ^ 64) :
    ∃ b' outs, run (add env) b calls = some b' ∧ Clean env start b' ∧ Grown b.contents b'.contents ∧
      b'.base = b.base ++ outs ∧ List.Forall₂ (SameEntry (env.get none) (b'.view env)) calls outs := by
  induction calls generalizing b with
  | nil => exact ⟨b, [], rfl, h, Grown.refl _, (append_nil _).symm, .nil⟩
  | cons call calls ih =>
    rw [map_cons, sum_cons] at hnumber
    obtain ⟨b₁, hadd, hhands⟩ := add_clean hready (hs call (mem_cons_self ..)) h (by omega)
    have hnext := hhands.next
    obtain ⟨b', outs, hrun, hclean, hgrown, hbase, hsame⟩ :=
      ih (fun c hc => hs c (mem_cons_of_mem _ hc)) hhands.clean (by omega)
    obtain ⟨out, hout, hentry⟩ := hhands.base
    refine ⟨b', out :: outs, run_cons_eq_some.2 ⟨b₁, hadd, hrun⟩, hclean, hhands.grown.trans hgrown, ?_, ?_⟩
    · rw [hbase, hout, append_assoc, singleton_append]
    · exact .cons (hentry.mono fun _ _ hi => view_mono hready.fresh hclean hgrown hi) hsame

/-- The environment once the finished files are registered in `s`. -/
def after (env : TableEnv) (s : BlobStorage) (b : TableBuilder) : TableEnv :=
  { env with
    storage := s
    disk := fun n => ((b.finished.find? fun p => p.1.fileNumber == n).map fun p => p.2.flushed).getD (env.disk n) }

theorem clean_start (env : TableEnv) (n : Nat) : Clean env n (TableBuilder.start n) :=
  ⟨rfl, rfl, .inl ⟨rfl, rfl⟩, le_rfl, nodup_nil, fun _ h => absurd h not_mem_nil,
    fun _ h => absurd h not_mem_nil⟩

theorem lookup_map_eq_find? {α : Type} (f : α → Nat) (g : α → Bytes) (l : List α) (n : Nat) :
    (l.map fun p => (f p, g p)).lookup n = (l.find? fun p => f p == n).map g := by
  induction l with
  | nil => rfl
  | cons p l ih =>
    rw [map_cons, lookup_cons, find?_cons, ih, Bool.beq_comm]
    cases f p == n <;> rfl

theorem FinishedFile.opens {p : BlobFileMeta × WritableFile} (h : FinishedFile env p) :
    p.2.flushed = p.2.content ∧ openReader env.options p.1.fileSize p.2.content = .ok := by
  obtain ⟨data, hdata⟩ := h.footer
  refine ⟨by simp [content, h.flushed], ?_⟩
  rw [h.size, fileSize, hdata, length_append]
  exact openReader_encodeFooter env.options data

theorem get_after {s : BlobStorage} (hready : Ready env start) (h : Clean env start b) (hhandle : b.handle = none)
    (hs : ∀ n, s.findFile n = (env.storage.findFile n).or ((b.finished.map fst).find? (·.fileNumber == n)))
    (i : BlobIndex) : (b.after env s).get none i = b.view env i := by
  have hlookup : b.contents.lookup i.fileNumber =
      (b.finished.find? fun p => p.1.fileNumber == i.fileNumber).map fun p => p.2.content := by
    rw [contents_of_no_handle hhandle]
    exact lookup_map_eq_find? ..
  have hfind : s.findFile i.fileNumber = (env.storage.findFile i.fileNumber).or
      ((b.finished.find? fun p => p.1.fileNumber == i.fileNumber).map fst) := by
    rw [hs, find?_map]
    rfl
  have hstorage : (b.after env s).storage = s := rfl
  unfold view TableEnv.get
  rw [hstorage]
  cases hp : b.finished.find? fun p => p.1.fileNumber == i.fileNumber with
  | none =>
    rw [hp] at hlookup hfind
    rw [hlookup, hfind, map_none, or_none]
    dsimp only [map_none]
    cases hm : env.storage.findFile i.fileNumber with
    | none => rfl
    | some m =>
      have hdisk : (b.after env s).disk m.fileNumber = env.disk m.fileNumber := by
        rw [BlobStorage.fileNumber_of_findFile hm]
        simp [after, hp]
      simp only [readBlob, openFile, hdisk]
      rfl
  | some p =>
    have hn : p.1.fileNumber = i.fileNumber := by simpa using find?_some hp
    have hmem := mem_of_find?_eq_some hp
    obtain ⟨hflushed, hopen⟩ := (h.finished p hmem).opens
    have hnew : env.storage.findFile i.fileNumber = none := by
      refine hready.findFile_eq_none (h.numbers i.fileNumber ?_).1
      rw [contents_of_no_handle hhandle, List.map_map]
      exact mem_map.2 ⟨p, hmem, hn⟩
    have hdisk : (b.after env s).disk p.1.fileNumber = p.2.content := by
      rw [hn, ← hflushed]
      simp [after, hp]
    have hmode : World.readsOnlyValue (b.after env s).options p.1 = env.options.levelMerge := by
      simp [World.readsOnlyValue, (h.finished p hmem).sorted, after]
    rw [hp] at hlookup hfind
    rw [hlookup, hfind, hnew]
    show (b.after env s).readBlob none p.1 i = _
    simp only [readBlob, openFile, hdisk, hmode]
    rw [show openReader (b.after env s).options p.1.fileSize p.2.content = .ok from hopen]
    rfl

theorem finishBlobFile_of_clean (h : Clean env start b) :
    ∃ b', b.finishBlobFile env none none = some b' ∧ Advance env start 0 b b' ∧ b'.handle = none := by
  rcases h.opened with ⟨hhandle, hblob⟩ | ⟨n, file, blob, hhandle, hblob, hst, -⟩
  · exact ⟨b, by simp [finishBlobFile, hblob], h.advance, hhandle⟩
  · obtain ⟨b', hfinish, hadv, hnone, -⟩ :=
      finishBlobFile_clean none h hhandle hst (append_nil file.content).symm
    have heq : { b with handle := some (n, file), blob := some blob } = b := by rw [← hhandle, ← hblob]
    rw [heq] at hfinish
    exact ⟨b', hfinish, hadv, hnone⟩

theorem batchFinishFiles_clean {fs : BlobFileSets} {s : BlobStorage} {files : List BlobFileMeta}
    (hs : fs.getBlobStorage env.cf = some s) (hnodup : (files.map BlobFileMeta.fileNumber).Nodup)
    (hnew : ∀ m ∈ files, s.findFile m.fileNumber = none) :
    (batchFinishFiles env {} files fs).2 = .ok ∧
      ∃ s', (batchFinishFiles env {} files fs).1.getBlobStorage env.cf = some s' ∧
        ∀ n, s'.findFile n = (s.findFile n).or (files.find? (·.fileNumber == n)) := by
  let edit : ColumnFamilyEdit := { ColumnFamilyEdit.empty with columnFamilyId := env.cf, addedFiles := files }
  have heq : batchFinishFiles env {} files fs = fs.logAndApply env.options.sepBeforeFlush {} edit := by
    rw [batchFinishFiles, if_neg (fun h => h.2 rfl)]
  have hacc : edit.Accepted fs := by
    refine ⟨hnodup, nodup_nil, fun s₁ hs₁ => ?_⟩
    rw [show fs.getBlobStorage edit.columnFamilyId = some s from hs] at hs₁
    cases hs₁
    exact ⟨hnew, fun _ h => absurd h not_mem_nil⟩
  rw [heq]
  refine ⟨BlobFileSets.status_logAndApply_of_accepted hacc rfl rfl, ?_⟩
  have hget : (fs.logAndApply env.options.sepBeforeFlush {} edit).1.getBlobStorage env.cf = _ :=
    (BlobFileSets.logAndApply_of_accepted hacc rfl rfl).2 env.cf
  rw [if_pos rfl, hs, map_some] at hget
  refine ⟨_, hget, fun n => ?_⟩
  have happly : (edit.collector.apply env.options.sepBeforeFlush s).1 =
      files.foldl (·.addBlobFile env.options.sepBeforeFlush ·) s := by
    simp [edit, VersionEdit.collector, ColumnFamilyEdit.empty, EditCollector.apply, EditCollector.deletes,
      EditCollector.markFilesObsolete]
  rw [happly, EditCollector.findFile_foldl_addBlobFile]

/-- When nothing fails, `Finish` returns OK, and the entries handed over stand, one by one, for what the entries of
the calls stand for: those before with the storage as it was, those after with the new files registered. -/
theorem finish_preserves_meaning (env : TableEnv) (fs : BlobFileSets) (next : Nat) (calls : List AddCall)
    (hready : Ready env next) (hfs : fs.getBlobStorage env.cf = some env.storage)
    (hcalls : ∀ call ∈ calls, Sound env call)
    (hnumbers : next + (calls.map fun call => call.skipped + 1).sum ≤ 2 ^ 64) :
    ∃ b b' fs' s, run (add env) (TableBuilder.start next) calls = some b ∧ b.finish env {} fs = some (b', fs', .ok) ∧
      fs'.getBlobStorage env.cf = some s ∧
      List.Forall₂ (SameEntry (env.get none) ((b'.after env s).get none)) calls b'.base := by
  obtain ⟨b, outs, hrun, hclean, -, hbase, hsame⟩ := run_clean hready hcalls (clean_start env next) hnumbers
  have hb : { b with baseStatus := if b.baseStatus = .ok then Fault.status none else b.baseStatus } = b := by
    rw [if_pos hclean.baseStatus]
    exact congrArg (fun st => { b with baseStatus := st }) hclean.baseStatus.symm
  obtain ⟨b', hfinish, hadv, hnone⟩ := finishBlobFile_of_clean hclean
  have hkeys : b'.contents.map fst = (b'.finished.map fst).map BlobFileMeta.fileNumber := by
    rw [contents_of_no_handle hnone, List.map_map, List.map_map]
    rfl
  have hnew : ∀ m ∈ b'.finished.map fst, env.storage.findFile m.fileNumber = none := by
    intro m hm
    refine hready.findFile_eq_none (hadv.clean.numbers m.fileNumber ?_).1
    rw [hkeys]
    exact mem_map_of_mem hm
  obtain ⟨hst, s, hget, hfind⟩ := batchFinishFiles_clean hfs (hkeys ▸ hadv.clean.nodup) hnew
  have hstatus : { b' with status := .ok } = b' := congrArg (fun st => { b' with status := st }) hadv.clean.status.symm
  have hok : b'.currentStatus = .ok := of_decide_eq_true hadv.clean.ok
  refine ⟨b, b', _, s, hrun, ?_, hget, ?_⟩
  · unfold TableBuilder.finish
    dsimp only
    rw [hb, hfinish]
    simp only [hst, hstatus, hok]
  · have hview : (b'.after env s).get none = b'.view env :=
      funext (get_after hready hadv.clean hnone hfind)
    rw [hview, show b'.base = outs from hadv.base.trans hbase]
    exact hsame.imp fun _ _ hentry => hentry.mono fun _ _ hi => view_mono hready.fresh hadv.clean hadv.grown hi

/-- A compaction to a level that merges the values of file 1, and sees two entries. -/
def compactionEnv : TableEnv :=
  ⟨.small false true, .normal, 6, 5, false, 0, 65536,
    ⟨[⟨1, 50, 1, .sorted, 2, [97], [97], .normal, 0⟩], [], []⟩,
    fun _ => encodeFileHeader ++ encodeRecord (.small false true) true ⟨[97], [7]⟩ ++ encodeFooter .plain,
    fun _ => .error (.corruption "")⟩

def compactionCalls : List AddCall :=
  [{ key := appendInternalKey ⟨[97], 5, kTypeBlobIndex⟩, value := encodeTo ⟨1, 8, 10⟩ },
    { key := appendInternalKey ⟨[98], 6, kTypeValue⟩, value := [9] }]

theorem finish_preserves_meaning_compaction :
    ∃ b b' fs' s, run (add compactionEnv) (TableBuilder.start 2) compactionCalls = some b ∧
      b.finish compactionEnv {} ⟨OrdMap.empty.alter 0 fun _ => compactionEnv.storage, [], 2⟩ = some (b', fs', .ok) ∧
      fs'.getBlobStorage 0 = some s ∧
      List.Forall₂ (SameEntry (compactionEnv.get none) ((b'.after compactionEnv s).get none)) compactionCalls b'.base := by
  refine finish_preserves_meaning compactionEnv _ 2 compactionCalls
    ⟨by decide, nofun, by decide +kernel, by decide⟩ rfl (fun call hcall => ?_) (by decide)
  have hkeys : compactionCalls.map (fun call => parseInternalKey call.key) =
      [some ⟨[97], 5, kTypeBlobIndex⟩, some ⟨[98], 6, kTypeValue⟩] := by decide +kernel
  have hvalues : compactionCalls.map (fun call => resolve (compactionEnv.get none) call.key call.value) =
      [some [7], some [9]] := by decide +kernel
  simp only [compactionCalls, map_cons, map_nil, cons.injEq, and_true] at hkeys hvalues
  simp only [compactionCalls, mem_cons, not_mem_nil, or_false] at hcall
  rcases hcall with rfl | rfl
  · refine ⟨rfl, ⟨_, hkeys.1⟩, fun k hk _ => ⟨⟨1, 8, 10⟩, decodeFrom_encodeTo ?_ ?_ ?_⟩, fun k v hk hv => ?_⟩
    · decide
    · decide
    · decide
    · rw [hkeys.1] at hk
      cases hk
      cases hv
      decide +kernel
  · refine ⟨rfl, ⟨_, hkeys.2⟩, fun k hk ht => ?_, fun k v hk hv => ?_⟩
    · cases hk
      exact absurd ht (by decide)
    · rw [hkeys.2] at hk
      cases hk
      cases hv
      decide +kernel

end run

end TableBuilder

end ValueSep.DiffKV
