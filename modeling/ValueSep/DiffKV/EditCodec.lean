import ValueSep.DiffKV.VersionEdits

/-!
# The codec of version edits on arbitrary bytes

What `VersionEdit::DecodeFrom` makes of whatever bytes it is given. The messages of the decoder are `const char *`; the
one of a file that cannot be decoded points into a temporary string and is read after that string is gone
(`DecodeOutcome.readFreed`).
-/

namespace ValueSep.DiffKV

open Coding
open List

variable {src rest : Bytes}

/-! ### Files -/

namespace FileRecord

variable {f : FileRecord}

/-- What is read is consumed, and the keys that are read have a 32-bit length. -/
theorem of_decodeFrom (h : decodeFrom src = .ok (f, rest)) : rest.length < src.length ∧ f.KeysFit := by
  unfold decodeFrom at h
  split at h
  · cases h
  next hnumbers =>
    simp only [decodeNumbers, Option.bind_eq_bind, Option.bind_eq_some_iff, Option.pure_def, Option.some.injEq,
      Prod.mk.injEq, Prod.exists] at hnumbers
    obtain ⟨_, _, h₁, _, _, h₂, _, _, h₃, _, _, h₄, _, _, h₅, _, rfl⟩ := hnumbers
    have := length_lt_of_getVarint64 h₁
    have := length_lt_of_getVarint64 h₂
    have := length_lt_of_getVarint64 h₃
    have := length_lt_of_getVarint32 h₄
    have := length_lt_of_getVarint32 h₅
    split at h
    · cases h
    next hsmallest =>
      have hsmallest := length_lt_of_getLengthPrefixed hsmallest
      split at h
      · cases h
      next hlargest =>
        have hlargest := length_lt_of_getLengthPrefixed hlargest
        cases h
        exact ⟨by omega, hsmallest.2, hlargest.2⟩

theorem of_decodeFromLegacy (h : decodeFromLegacy src = .ok (f, rest)) : rest.length < src.length ∧ f.KeysFit := by
  unfold decodeFromLegacy at h
  split at h
  · cases h
  next hnumbers =>
    cases h
    simp only [Option.bind_eq_some_iff, Option.map_eq_some_iff, Prod.mk.injEq, Prod.exists] at hnumbers
    obtain ⟨_, _, h₁, _, _, h₂, -, -, rfl⟩ := hnumbers
    exact ⟨(length_lt_of_getVarint64 h₂).trans (length_lt_of_getVarint64 h₁), Nat.two_pow_pos _, Nat.two_pow_pos _⟩

end FileRecord

/-! ### Items -/

namespace EditItem

variable {item : EditItem}

def KeysFit : EditItem → Prop
  | addedBlobFile f => f.KeysFit
  | _ => True

/-- The tag of a file, and then bytes that are no such file. -/
def CutFile (src : Bytes) : Prop :=
  ∃ tag rest m, getVarint32 src = some (tag, rest) ∧
    (tag = kAddedBlobFile ∧ FileRecord.decodeFromLegacy rest = .error m ∨
      tag = kAddedBlobFileV2 ∧ FileRecord.decodeFrom rest = .error m)

/-- What one turn can give: it reads an item, it stops in a file, or it has a text of its own. -/
inductive Turn (src : Bytes) : Except ErrorText (EditItem × Bytes) → Prop
  | item {item : EditItem} {rest : Bytes} (hlt : rest.length < src.length) (hk : item.KeysFit) :
    Turn src (.ok (item, rest))
  | cut {m : String} (hcut : CutFile src) : Turn src (.error (.freed m))
  | bad {m : String} (hcut : ¬CutFile src) : Turn src (.error (.text m))

theorem turn_ofFile {r : Except String (FileRecord × Bytes)}
    (hr : ∀ f rest, r = .ok (f, rest) → rest.length < src.length ∧ f.KeysFit) (hcut : ∀ m, r = .error m → CutFile src) :
    Turn src (ofFile r) := by
  cases r with
  | error m => exact .cut (hcut m rfl)
  | ok p => exact .item (hr p.1 p.2 rfl).1 (hr p.1 p.2 rfl).2

theorem turn_decodeFrom (src : Bytes) : Turn src (decodeFrom src) := by
  unfold decodeFrom
  cases htag : getVarint32 src with
  | none =>
    refine .bad ?_
    rintro ⟨_, _, _, h, _⟩
    rw [htag] at h
    cases h
  | some p =>
    obtain ⟨tag, src₁⟩ := p
    dsimp only
    have hlt := length_lt_of_getVarint32 htag
    -- the files are the only items whose failure leaves no text
    have hcut : tag ≠ kAddedBlobFile → tag ≠ kAddedBlobFileV2 → ¬CutFile src := by
      rintro h₁ h₂ ⟨tag', rest', m, h, h'⟩
      rw [htag] at h
      cases h
      rcases h' with h' | h'
      · exact h₁ h'.1
      · exact h₂ h'.1
    split_ifs with h₁ h₂ h₃ h₄ h₅ h₆
    · split
      next n rest hn => exact .item ((length_lt_of_getVarint64 hn).trans hlt) trivial
      · exact .bad (hcut (by rw [h₁]; decide) (by rw [h₁]; decide))
    · split
      next n rest hn => exact .item ((length_lt_of_getVarint32 hn).trans hlt) trivial
      · exact .bad (hcut (by rw [h₂]; decide) (by rw [h₂]; decide))
    · exact turn_ofFile (fun f rest hf => (FileRecord.of_decodeFromLegacy hf).imp_left hlt.trans')
        fun m hf => ⟨tag, src₁, m, htag, .inl ⟨h₃, hf⟩⟩
    · exact turn_ofFile (fun f rest hf => (FileRecord.of_decodeFrom hf).imp_left hlt.trans')
        fun m hf => ⟨tag, src₁, m, htag, .inr ⟨h₄, hf⟩⟩
    · split
      next n rest hn => exact .item ((length_lt_of_getVarint64 hn).trans hlt) trivial
      · exact .bad (hcut h₃ h₄)
    · split
      next n size rest hn =>
        simp only [Option.bind_eq_some_iff, Option.map_eq_some_iff, Prod.mk.injEq, Prod.exists] at hn
        obtain ⟨_, _, hn, _, _, hsize, rfl, rfl, rfl⟩ := hn
        exact .item ((length_lt_of_getVarint64 hsize).trans ((length_lt_of_getVarint64 hn).trans hlt)) trivial
      · exact .bad (hcut h₃ h₄)
    · exact .bad (hcut h₃ h₄)

theorem of_decodeFrom (h : decodeFrom src = .ok (item, rest)) : rest.length < src.length ∧ item.KeysFit := by
  have hturn := turn_decodeFrom src
  rw [h] at hturn
  cases hturn with
  | item hlt hk => exact ⟨hlt, hk⟩

theorem cutFile_iff : CutFile src ↔ ∃ m, decodeFrom src = .error (.freed m) := by
  constructor
  · rintro ⟨tag, rest, m, htag, ⟨rfl, hf⟩ | ⟨rfl, hf⟩⟩
    · exact ⟨m, by simp [decodeFrom, htag, hf, ofFile, kNextFileNumber, kColumnFamilyID, kAddedBlobFile]⟩
    · exact ⟨m, by simp [decodeFrom, htag, hf, ofFile, kNextFileNumber, kColumnFamilyID, kAddedBlobFile,
        kAddedBlobFileV2]⟩
  · rintro ⟨m, h⟩
    have hturn := turn_decodeFrom src
    rw [h] at hturn
    cases hturn with
    | cut hcut => exact hcut

end EditItem

/-! ### The loop -/

namespace EditRecord

open EditItem (CutFile)

variable {e : EditRecord} {turns : Nat}

/-- The first item of the record that cannot be read is a file. -/
inductive StopsInFile : Bytes → Prop
  | here {src : Bytes} (h : CutFile src) : StopsInFile src
  | later {src rest : Bytes} {item : EditItem} (hitem : EditItem.decodeFrom src = .ok (item, rest))
    (h : StopsInFile rest) : StopsInFile src

theorem keysFit_of_decodeLoop {r : EditRecord} (hfit : ∀ f ∈ e.addedFiles, f.KeysFit)
    (h : decodeLoop turns src e = .decoded r) : ∀ f ∈ r.addedFiles, f.KeysFit := by
  fun_induction decodeLoop turns src e with
  | case1 | case2 => cases h; exact hfit
  | case3 _ _ _ _ text => cases text <;> cases h
  | case4 _ src e _ item rest hitem ih =>
    refine ih ?_ h
    cases item with
    | addedBlobFile f => exact forall_mem_append.2 ⟨hfit, forall_mem_singleton.2 (EditItem.of_decodeFrom hitem).2⟩
    | _ => exact hfit

/-- The freed text is read exactly when a file is what cannot be read. -/
theorem decodeLoop_eq_readFreed_iff (hturns : src.length ≤ turns) :
    (∃ m, decodeLoop turns src e = .readFreed m) ↔ StopsInFile src := by
  fun_induction decodeLoop turns src e with
  | case1 =>
    constructor
    · rintro ⟨_, h⟩
      cases h
    · intro h
      cases h with
      | here hcut =>
        obtain ⟨_, _, _, htag, _⟩ := hcut
        cases htag
      | later hitem _ => exact absurd (EditItem.of_decodeFrom hitem).1 (Nat.not_lt_zero _)
  | case2 => exact absurd hturns (by simp)
  | case3 _ src _ _ text hitem =>
    constructor
    · rintro ⟨m, h⟩
      cases text with
      | text _ => cases h
      | freed m => exact .here (EditItem.cutFile_iff.2 ⟨m, hitem⟩)
    · intro h
      cases h with
      | here hcut =>
        obtain ⟨m, hm⟩ := EditItem.cutFile_iff.1 hcut
        rw [hitem] at hm
        cases hm
        exact ⟨_, rfl⟩
      | later hread _ => rw [hitem] at hread; cases hread
  | case4 _ src _ _ item rest hitem ih =>
    have hlt := (EditItem.of_decodeFrom hitem).1
    rw [ih (by omega)]
    refine ⟨.later hitem, fun h => ?_⟩
    cases h with
    | here hcut =>
      obtain ⟨m, hm⟩ := EditItem.cutFile_iff.1 hcut
      rw [hitem] at hm
      cases hm
    | later hread h =>
      rw [hitem] at hread
      cases hread
      exact h

/-! ### The codec -/

/-- Decoding an encoded edit gives it back, without the obsolete sequences, exactly when its keys fit; any other bytes
are decoded or are a corruption, unless what cannot be read is a file. -/
theorem codec_iff (e : EditRecord) (he : e.Typed) (src : Bytes) :
    (empty.decodeFrom e.encodeTo = .decoded e.persisted ↔ ∀ f ∈ e.addedFiles, f.KeysFit) ∧
    (((∃ e, empty.decodeFrom src = .decoded e) ∨ ∃ m, empty.decodeFrom src = .corruption m) ↔ ¬StopsInFile src) := by
  refine ⟨⟨fun h => ?_, decodeFrom_encodeTo he⟩, ?_⟩
  · exact keysFit_of_decodeLoop (e := empty) (r := e.persisted) (fun f hf => (not_mem_nil hf).elim) h
  · rw [← decodeLoop_eq_readFreed_iff (e := empty) (Nat.le_refl src.length)]
    change _ ↔ ¬∃ m, empty.decodeFrom src = .readFreed m
    cases empty.decodeFrom src <;> simp

/-- One file with keys, one deletion and one update. -/
def sample : EditRecord :=
  ⟨some 7, 2, [⟨5, 70, 1, 9, 6, [1], [2]⟩], [(3, 40)], [(4, 11)]⟩

theorem codec_iff_sample :
    sample.Typed ∧ empty.decodeFrom sample.encodeTo = .decoded { sample with deletedFiles := [(3, 0)] } ∧
      ¬StopsInFile [1] := by
  have htyped : sample.Typed := by
    constructor <;> simp [sample]
    constructor <;> simp
  obtain ⟨hback, hstops⟩ := codec_iff sample htyped [1]
  refine ⟨htyped, hback.2 ?_, hstops.1 (.inr ⟨"VersionEdit: next file number", rfl⟩)⟩
  simp [sample, FileRecord.KeysFit]

/-- A key of 4 GiB comes back as another edit or not at all, and a record that ends after the tag of a file makes the
decoder read a text that is gone. -/
theorem long_key_and_cut_file :
    (∃ e : EditRecord, e.Typed ∧ empty.decodeFrom e.encodeTo ≠ .decoded e.persisted) ∧
      empty.decodeFrom [13] = .readFreed "VersionEdit: Corruption: BlobFileMeta decode failed" := by
  obtain ⟨key, hkey⟩ : ∃ key : Bytes, key.length = 2 ^ 32 := ⟨replicate _ 0, length_replicate⟩
  refine ⟨⟨⟨none, 0, [⟨1, 1, 1, 1, 0, key, []⟩], [], []⟩, ?_, fun h => ?_⟩, rfl⟩
  · constructor <;> simp
    constructor <;> simp
  · have hfit := keysFit_of_decodeLoop (fun f hf => (not_mem_nil hf).elim) h _ (mem_singleton_self _)
    exact Nat.lt_irrefl _ (hkey ▸ hfit.1)

end EditRecord

end ValueSep.DiffKV
