import ValueSep.DiffKV.Foreground

/-!
# The files of the foreground builders, with every error

`ForegroundBuilder` looks neither at its builder's status nor at the result of `BatchFinishFiles`. A builder
whose file has failed stays in its slot: it takes no more records, hands out indexes all the same, and aborts the
process when it is to be finished. So an index handed out leads to its record (if that is not too large for the
format), or is `Lost` in the file of such a builder. A file that has been finished is `Complete` and does not change
any more.
-/

namespace ValueSep.DiffKV.World

open List Function Option BlobFileBuilder

/-- The file ends with a footer, all of it is flushed, and the metadata has its size. -/
def Complete (o : Options) (w : World) (m : BlobFileMeta) : Prop :=
  ∃ file data, w.disk m.fileNumber = some file ∧ file.buf = [] ∧ m.fileSize = file.fileSize ∧
    file.content = data ++ encodeFooter o.codec

/-- The index was handed out by a builder in error, and the file does not hold what it points to. -/
def Lost (w : World) (i : BlobIndex) : Prop :=
  ∃ b bd file, (w.fg b).builder = some bd ∧ bd.status ≠ .ok ∧ bd.number = i.fileNumber ∧
    w.disk bd.number = some file ∧
    (i.blobHandle.size = 0 ∨ file.fileSize < i.blobHandle.offset + i.blobHandle.size)

/-- What an index handed out for the record is worth. -/
def Stored (o : Options) (w : World) (r : BlobRecord) (i : BlobIndex) : Prop :=
  (Encodable o false r → w.readFile o false i = some r) ∨ w.Lost i

/-- A file there is, and that no builder appends to. -/
def Settled (w : World) (n : Nat) : Prop :=
  n < w.nextFileNumber ∧ ∀ b bd, (w.fg b).builder = some bd → bd.number ≠ n

/-- A quiet change that leaves settled files and failed builders alone and finishes complete files only. -/
structure Advances (o : Options) (w w' : World) : Prop extends Quiet w w' where
  stuck : ∀ b bd, (w.fg b).builder = some bd → bd.status ≠ .ok →
    (w'.fg b).builder = some bd ∧ w'.disk bd.number = w.disk bd.number
  finished_subset : ∀ b, (w.fg b).finished ⊆ (w'.fg b).finished
  finished_new : ∀ b, ∀ m ∈ (w'.fg b).finished, m ∈ (w.fg b).finished ∨ Complete o w' m
  settled : ∀ n, w.Settled n → w'.disk n = w.disk n
  builder_new : ∀ b bd', (w'.fg b).builder = some bd' →
    (∃ bd, (w.fg b).builder = some bd ∧ bd.number = bd'.number) ∨ w.nextFileNumber ≤ bd'.number

variable {o : Options} {f : AddFaults} {w w' w'' : World} {b : Nat} {r : BlobRecord} {i : BlobIndex} {st : Status}

variable {m : BlobFileMeta}

theorem Complete.of_disk (h : Complete o w m) (hd : w'.disk m.fileNumber = w.disk m.fileNumber) : Complete o w' m := by
  obtain ⟨file, data, hfile, hrest⟩ := h
  exact ⟨file, data, hd.trans hfile, hrest⟩

theorem not_builder_of_finished (hw : FgWf w) (hm : m ∈ (w.fg b).finished) {b' : Nat}
    {bd : BlobFileBuilder} (hbd : (w.fg b').builder = some bd) : bd.number ≠ m.fileNumber := by
  intro heq
  have hown := mem_owned_of_builder hbd
  have hmem : m.fileNumber ∈ w.owned b := mem_append_left _ (mem_map_of_mem hm)
  by_cases hb : b' = b
  · subst hb
    have hnd := hw.owned_nodup b'
    rw [owned, hbd, map_some, nodup_append] at hnd
    exact hnd.2.2 _ (mem_map_of_mem hm) _ (mem_singleton_self _) heq.symm
  · exact hw.owned_disjoint b' b hb hown (heq ▸ hmem)

theorem FgWf.settled_of_finished (hw : FgWf w) (hm : m ∈ (w.fg b).finished) : w.Settled m.fileNumber :=
  ⟨hw.lt_next (mem_append_left _ (mem_map_of_mem hm)), fun _ _ hbd => not_builder_of_finished hw hm hbd⟩

theorem FgWf.settled_of_not_owned {n : Nat} (hlt : n < w.nextFileNumber) (hn : ∀ b, n ∉ w.owned b) : w.Settled n :=
  ⟨hlt, fun b _ hbd heq => hn b (heq ▸ mem_owned_of_builder hbd)⟩

theorem Advances.refl (o : Options) (w : World) : Advances o w w :=
  ⟨.refl w, fun _ _ h _ => ⟨h, rfl⟩, fun _ => List.Subset.refl _, fun _ _ h => .inl h, fun _ _ => rfl,
    fun _ bd h => .inl ⟨bd, h, rfl⟩⟩

theorem Advances.trans (h : Advances o w w') (hw' : FgWf w') (h' : Advances o w' w'') : Advances o w w'' where
  toQuiet := h.toQuiet.trans h'.toQuiet
  stuck b bd hbd hst := by
    obtain ⟨hbd', hd⟩ := h.stuck b bd hbd hst
    obtain ⟨hbd'', hd'⟩ := h'.stuck b bd hbd' hst
    exact ⟨hbd'', hd'.trans hd⟩
  finished_subset b := List.Subset.trans (h.finished_subset b) (h'.finished_subset b)
  finished_new b m hm := by
    rcases h'.finished_new b m hm with hm' | hc
    · exact (h.finished_new b m hm').imp_right fun hc => hc.of_disk (h'.settled _ (hw'.settled_of_finished hm'))
    · exact .inr hc
  settled n hn := by
    refine (h'.settled n ⟨hn.1.trans_le h.next_le, fun b bd' hbd' heq => ?_⟩).trans (h.settled n hn)
    rcases h.builder_new b bd' hbd' with ⟨bd, hbd, hnum⟩ | hle
    · exact hn.2 b bd hbd (hnum.trans heq)
    · exact absurd hn.1 (by omega)
  builder_new b bd'' hbd'' := by
    rcases h'.builder_new b bd'' hbd'' with ⟨bd', hbd', hnum'⟩ | hle
    · exact (h.builder_new b bd' hbd').imp (fun ⟨bd, hbd, hnum⟩ => ⟨bd, hbd, hnum.trans hnum'⟩) fun hle => hnum' ▸ hle
    · exact .inr (h.next_le.trans hle)

theorem Lost.advance (h : w.Lost i) (ha : Advances o w w') : w'.Lost i := by
  obtain ⟨b, bd, file, hbd, hst, hnum, hfile, hshort⟩ := h
  obtain ⟨hbd', hd⟩ := ha.stuck b bd hbd hst
  exact ⟨b, bd, file, hbd', hst, hnum, hd.trans hfile, hshort⟩

theorem Stored.advance (h : Stored o w r i) (ha : Advances o w w') : Stored o w' r i :=
  h.imp (fun hr he => readFile_of_grows ha.grows (hr he)) fun hl => hl.advance ha

theorem not_settled_of_builder {bd : BlobFileBuilder} (hbd : (w.fg b).builder = some bd) : ¬ w.Settled bd.number := fun h => h.2 b bd hbd rfl

theorem builder_number_ne (hw : FgWf w) {b' : Nat} {bd bd' : BlobFileBuilder} (hne : b' ≠ b)
    (hbd : (w.fg b).builder = some bd) (hbd' : (w.fg b').builder = some bd') : bd'.number ≠ bd.number := fun h =>
  hw.owned_disjoint b' b hne (mem_owned_of_builder hbd') (h ▸ mem_owned_of_builder hbd)

theorem Quiet.advances {x : Nat} {slot : FgSlot} (hq : Quiet w w') (hfg : w'.fg = update w.fg b slot)
    (hdisk : ∀ n, n ≠ x → w'.disk n = w.disk n) (hx : ¬ w.Settled x)
    (hother : ∀ b' bd, b' ≠ b → (w.fg b').builder = some bd → bd.number ≠ x)
    (hstuck : ∀ bd, (w.fg b).builder = some bd → bd.status ≠ .ok →
      slot.builder = some bd ∧ w'.disk bd.number = w.disk bd.number) (hsub : (w.fg b).finished ⊆ slot.finished)
    (hnew : ∀ m ∈ slot.finished, m ∈ (w.fg b).finished ∨ Complete o w' m) (hbuilder : ∀ bd', slot.builder = some bd' →
      (∃ bd, (w.fg b).builder = some bd ∧ bd.number = bd'.number) ∨ w.nextFileNumber ≤ bd'.number) : Advances o w w' := by
  refine ⟨hq, fun b' bd hbd hst => ?_, fun b' => ?_, fun b' m hm => ?_, fun n hn => hdisk n ?_, fun b' bd' hbd' => ?_⟩
  · by_cases hb : b' = b
    · subst hb
      rw [hfg, update_self]
      exact hstuck bd hbd hst
    · rw [hfg, update_of_ne hb]
      exact ⟨hbd, hdisk _ (hother b' bd hb hbd)⟩
  · rw [hfg]
    by_cases hb : b' = b
    · subst hb; rw [update_self]; exact hsub
    · rw [update_of_ne hb]; exact List.Subset.refl _
  · rw [hfg] at hm
    by_cases hb : b' = b
    · subst hb; rw [update_self] at hm; exact hnew m hm
    · rw [update_of_ne hb] at hm; exact .inl hm
  · rintro rfl; exact hx hn
  · rw [hfg] at hbd'
    by_cases hb : b' = b
    · subst hb; rw [update_self] at hbd'; exact hbuilder bd' hbd'
    · rw [update_of_ne hb] at hbd'; exact .inl ⟨bd', hbd', rfl⟩

/-! ### One request -/

theorem openBuilder_advances (hw : FgWf w) (f : AddFaults) (b : Nat) : Advances o w (w.openBuilder f b).1 := by
  have hq := (openBuilder_spec hw f b).2.1
  unfold openBuilder at hq ⊢
  cases hbd : (w.fg b).builder with
  | some bd => exact .refl o w
  | none =>
    simp only [hbd, newFile] at hq ⊢
    by_cases hnew : f.newFile = none
    · simp only [if_pos hnew, ne_eq, not_true, if_false] at hq ⊢
      refine hq.advances (x := w.nextFileNumber) rfl (fun n hn => ?_) ?_ (fun b' bd _ hbd' => ?_)
        (fun bd hbd' => ?_) (List.Subset.refl _) (fun _ h => .inl h) (fun bd' hbd' => .inr ?_)
      · simp only [update_of_ne hn]
      · exact fun hset => lt_irrefl _ hset.1
      · exact (hw.lt_next (mem_owned_of_builder hbd')).ne
      · rw [hbd] at hbd'; cases hbd'
      · cases hbd'; exact Nat.le_refl _
    · simp only [hnew, if_false, ne_eq, Fault.status_eq_ok, not_false_iff, if_true] at hq ⊢
      exact ⟨hq, fun _ _ h _ => ⟨h, rfl⟩, fun _ => List.Subset.refl _, fun _ _ h => .inl h, fun _ _ => rfl,
        fun _ bd h => .inl ⟨bd, h, rfl⟩⟩

theorem afterAdd_advances {bd bd' : BlobFileBuilder} {file file' : WritableFile} {handle : BlobHandle} (hw : FgWf w)
    (hbd : (w.fg b).builder = some bd) (hfile : w.disk bd.number = some file)
    (hadd : bd.add o false f.append file r = (file', bd', handle)) : Advances o w (w.afterAdd b file' bd') := by
  have hnum := (add_spec hadd).2.1
  refine (afterAdd_spec hw hbd hfile hadd).2.1.advances rfl (fun n hn => ?_)
    (not_settled_of_builder hbd) (fun b' bd₁ hne h => builder_number_ne hw hne hbd h) (fun bd₁ hbd₁ hst => ?_)
    (List.Subset.refl _) (fun _ h => .inl h) (fun bd₁ hbd₁ => ?_)
  · exact update_of_ne (hnum ▸ hn) ..
  · -- a builder in error leaves the file and itself as they are
    obtain rfl : bd = bd₁ := by rw [hbd] at hbd₁; exact some.inj hbd₁
    simp only [add, ne_eq, hst, not_false_iff, if_true, Prod.mk.injEq] at hadd
    obtain ⟨rfl, rfl, -⟩ := hadd
    exact ⟨rfl, (update_self ..).trans hfile.symm⟩
  · cases hbd₁; exact .inl ⟨bd, hbd, hnum.symm⟩

theorem finishBlob_advances {fault : Fault} (hw : FgWf w) (h : w.finishBlob o fault b = some w') : Advances o w w' := by
  have hq := (finishBlob_spec hw h).2.1
  unfold finishBlob at h
  cases hbd : (w.fg b).builder with
  | none => rw [hbd] at h; cases h; exact .refl o w
  | some bd =>
    simp only [hbd, bind_eq_some_iff] at h
    obtain ⟨file, hfile, h⟩ := h
    obtain ⟨-, hnum, hok⟩ := bd.finish_spec o fault file
    split at h
    · cases h
    next hfine =>
      obtain ⟨hst, rfl⟩ := hok.1 (not_not.1 hfine)
      have hfin : bd.finish o none file = ((file.append (encodeFooter o.codec)).flush, bd) := by
        simp [finish, hst]
      rw [hfin, some.injEq] at h
      have hdisk : w'.disk = update w.disk bd.number (some (file.append (encodeFooter o.codec)).flush) := by
        rw [← h]
      have hfg : w'.fg = update w.fg b (w'.fg b) := by rw [← h]; simp
      refine hq.advances hfg (fun n hn => ?_)
        (not_settled_of_builder hbd) (fun b' bd₁ hne h => builder_number_ne hw hne hbd h)
        (fun bd₁ hbd₁ hst₁ => ?_) (fun m hm => ?_) (fun m hm => ?_) (fun bd₁ hbd₁ => ?_)
      · rw [hdisk, update_of_ne hn]
      · obtain rfl : bd = bd₁ := by rw [hbd] at hbd₁; exact some.inj hbd₁
        exact absurd hst hst₁
      · rw [← h]; simp [hm]
      · have hm : m ∈ (w.fg b).finished ∨ m.fileNumber = bd.number ∧
            m.fileSize = (file.append (encodeFooter o.codec)).flush.fileSize := by
          rw [← h] at hm
          simp only [update_self, mem_append, mem_singleton] at hm
          exact hm.imp_right fun hm => by rw [hm]; exact ⟨rfl, rfl⟩
        refine hm.imp_right fun ⟨hn, hsize⟩ => ?_
        refine ⟨_, file.content, by rw [hdisk, hn]; exact update_self .., rfl, hsize, ?_⟩
        rw [WritableFile.content_flush, WritableFile.content_append]
      · rw [← h] at hbd₁
        simp at hbd₁

/-- The index a request gets is worth something, and a file of the slot stands behind it. -/
theorem appendRecord_stored {wb : Option BlobIndex} (hw : FgWf w) (h : w.appendRecord o f b r = some (w', st, wb)) :
    Advances o w w' ∧ ∀ i, wb = some i → Stored o w' r i ∧ i.fileNumber ∈ w'.owned b := by
  obtain ⟨hw₁, -, -, hslot, -⟩ := openBuilder_spec hw f b
  have ha₁ : Advances o w (w.openBuilder f b).1 := openBuilder_advances hw f b
  rcases appendRecord_cases h with ⟨-, rfl, -, rfl⟩ | ⟨hok, -, file, file', bd', handle, hfile, hadd, rfl, hroll⟩
  · exact ⟨ha₁, nofun⟩
  have hbd := hslot hok
  obtain ⟨hgrow, hnum, hfine⟩ := add_spec hadd
  obtain ⟨hw₂, -, hown⟩ := afterAdd_spec hw₁ hbd hfile hadd
  have ha₂ : Advances o _ ((w.openBuilder f b).1.afterAdd b file' bd') := afterAdd_advances hw₁ hbd hfile hadd
  have hbd' : (((w.openBuilder f b).1.afterAdd b file' bd').fg b).builder = some bd' := by simp [afterAdd]
  have hfile' : ((w.openBuilder f b).1.afterAdd b file' bd').disk bd'.number = some file' := update_self ..
  have hmem : bd'.number ∈ ((w.openBuilder f b).1.afterAdd b file' bd').owned b := mem_owned_of_builder hbd'
  have hstored : Stored o ((w.openBuilder f b).1.afterAdd b file' bd') r ⟨bd'.number, handle⟩ := by
    by_cases hst : bd'.status = .ok
    · obtain ⟨-, rfl, rfl⟩ := hfine hst
      exact .inl fun he => readFile_appended he hfile'
    · refine .inr ⟨b, bd', file', hbd', hst, rfl, hfile', ?_⟩
      exact short_of_add hadd hst
  rcases hroll with hroll | rfl
  · have ha₃ := finishBlob_advances hw₂ hroll
    refine ⟨ha₁.trans hw₁ (ha₂.trans hw₂ ha₃), ?_⟩
    rintro _ ⟨⟩
    exact ⟨hstored.advance ha₃, by rw [(finishBlob_spec hw₂ hroll).2.2.2.2.2]; exact hmem⟩
  · exact ⟨ha₁.trans hw₁ ha₂, by rintro _ ⟨⟩; exact ⟨hstored, hmem⟩⟩

end ValueSep.DiffKV.World
