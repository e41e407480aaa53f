import ValueSep.DiffKV.GcRun

/-!
# What a key reads during and after a job

The value of a key is the one of the last user operation on it. The job writes indexes too, and it writes them
blindly: `RewriteValidKeyToLSM` calls `Write` where `WriteWithCallback` is commented out, so nothing stops a
batch from superseding a user write that came after the record's check. `CallbackOk` is the test the callback
would have made.
-/

namespace ValueSep.DiffKV.GcState

open World Exec
open BaseDb Function List

/-- What the keys read according to the user operations alone. -/
def expect (g : Slice → Visible) : GcEvent → Slice → Visible
  | .put key value => update g key (.value value)
  | .delete key => update g key .absent
  | .gc _ => g

/-- A batch the job writes finds the index it replaces in the LSM tree, and leads to a file whose records are
read in the mode they were written in. -/
def CallbackOk (o : Options) (s : GcState) : GcEvent → Prop
  | .gc env => ∀ b, s.gcWrite env = some b →
      s.world.db.get b.key = some (.blobIndex b.oldIndex) ∧ outputsReadable o = true
  | _ => True

instance (o : Options) (s : GcState) : (e : GcEvent) → Decidable (CallbackOk o s e)
  | .gc env => match h : s.gcWrite env with
    | none => .isTrue (by simp [CallbackOk, h])
    | some b => decidable_of_iff (s.world.db.get b.key = some (.blobIndex b.oldIndex) ∧ outputsReadable o = true)
        (by simp [CallbackOk, h])
  | .put .. => .isTrue trivial
  | .delete _ => .isTrue trivial

/-- Every key that should read something reads it. -/
def Reads (o : Options) (g : Slice → Visible) (w : World) : Prop := ∀ k, g k ≠ .missing → w.visible o k = g k

variable {o : Options} {env : GcEnv} {s s' : GcState} {g : Slice → Visible}

theorem Inv.gcWrite {b : RewriteBatch} (h : Inv o s) (hb : s.gcWrite env = some b) :
    b.newIndex.fileNumber ∉ s.job.inputs ∧ ∃ r, r.key = b.key ∧ s.world.resolve o b.oldIndex = some r ∧
      (outputsReadable o → s.world.resolve o b.newIndex = some r) := by
  have hp := h.phase
  unfold GcState.gcWrite at hb
  split at hb
  next r i todo hphase =>
    rw [hphase] at hp
    obtain ⟨-, hc, -, i', hi, hres, hnot⟩ := hp
    cases hi
    split at hb
    · cases hb
      exact ⟨hnot, r.record, rfl, (hc.ahead r (mem_cons_self ..)).2, fun _ => hres⟩
    · cases hb
  next b' bs hphase =>
    rw [hphase] at hp
    split at hb
    · cases hb
    · cases hb
      exact Rewriting.batches hp b (mem_cons_self ..)
  next => cases hb

theorem Reads.write {w w₁ : World} {k : Slice} {e : Option LsmEntry} {v : Visible} (h : Reads o g w)
    (hf : Framed o w w₁) (he : w₁.entryValue o e = v) :
    Reads o (update g k v) { w₁ with db := w₁.db.write k e .user } := by
  intro k' hk'
  by_cases hk : k' = k
  · subst hk
    rw [update_self, visible, get_write_self]
    exact he
  · rw [update_of_ne hk] at hk' ⊢
    have hg := h k' hk'
    rw [← hg] at hk' ⊢
    refine visible_eq ?_ (fun i r _ hr => hf.2 i r hr) hk'
    rw [get_write_of_ne hk, hf.1]

theorem Reads.step (h : Reads o g s.world) (hi : Inv o s) (hcall : CallbackOk o s (.gc env))
    (hs : Stepped o env s s') : Reads o g s'.world := by
  intro k hk
  have hg := h k hk
  rw [← hg] at hk ⊢
  cases hw : s.gcWrite env with
  | some b =>
    obtain ⟨-, r, hkey, hold, hnew⟩ := hi.gcWrite hw
    obtain ⟨hget, hout⟩ := hcall b hw
    rw [hs.written hw]
    by_cases hkb : k = b.key
    · -- the old index and the new one lead to the same record
      subst hkb
      have h₁ : resolve o { s.world with
          db := s.world.db.write b.key (some (.blobIndex b.newIndex)) .gc } b.newIndex = some r := hnew hout
      simp only [visible, get_write_self, hget, entryValue, hold, h₁]
    · exact visible_eq (get_write_of_ne hkb) (fun i r _ hr => hr) hk
  | none =>
    replace hs := hs.kept hw
    refine visible_eq (by rw [hs.1]) (fun i r hget hr => hs.2 i r (fun hp hin => ?_) hr) hk
    -- nothing in the LSM tree names an input any more
    have hphase := hi.phase
    rw [hp] at hphase
    rcases Rewriting.pending hphase k i hget hin with ⟨_, h, _⟩ | ⟨_, h, _⟩ <;> cases h

theorem Reads.react {e : GcEvent} (h : Reads o g s.world) (hi : Inv o s) (hrel : Relocates o s e)
    (hcall : CallbackOk o s e) (hs : s.react o e = some s') : Reads o (expect g e) s'.world := by
  cases e with
  | put k v =>
    simp only [GcState.react, Option.map_eq_some_iff] at hs
    obtain ⟨w', hput, rfl⟩ := hs
    obtain ⟨w₁, e, hp, rfl, -⟩ := hi.put hrel hput
    exact h.write hp.quiet.framed hp.value
  | delete k =>
    cases hs
    exact h.write (.refl ..) rfl
  | gc env => exact h.step hi hcall (hi.step hrel hs).2

/-- After every step of every run whose steps give no record up, and whose batches the callback would have let
through, a key reads what the last user operation on it wrote. -/
theorem visible_eq_expected {es : List GcEvent} (h : JobStart o s)
    (hall : AllSteps (react o) (fun s e => Relocates o s e ∧ CallbackOk o s e) s es)
    (hrun : run (react o) s es = some s') (k : Slice) (hk : es.foldl expect (s.world.visible o) k ≠ .missing) :
    s'.world.visible o k = es.foldl expect (s.world.visible o) k := by
  have hinv := run_inv_ghost (I := fun g s => Inv o s ∧ Reads o g s.world) (u := expect)
    (fun g s e s' hI hP hs => ⟨hI.1.react hP.1 hs, hI.2.react hI.1 hP.1 hP.2 hs⟩)
    ⟨h.inv, fun _ _ => rfl⟩ hall hrun
  exact hinv.2 k hk

/-- A Put before the record's check, and a record that moves to a new file. -/
theorem visible_eq_expected_put_before_check :
    ∃ s', run (react (.small false false)) (single (.small false false) [⟨[1], [10]⟩, ⟨[2], [11]⟩])
        [.gc {}, .put [1] [20], .gc {}, .gc {}, .gc {}, .gc {}, .gc {}, .gc {}, .gc {}] = some s' ∧
      s'.world.visible (.small false false) [1] = .value [20] ∧
      s'.world.visible (.small false false) [2] = .value [11] := by
  refine exists_of_map (fun _ => ()) () (by decide +kernel) fun s' hs _ => ?_
  have hread := visible_eq_expected (jobStart_single (by decide)) (by decide +kernel) hs
  exact ⟨(hread [1] (by decide +kernel)).trans (by decide +kernel),
    (hread [2] (by decide +kernel)).trans (by decide +kernel)⟩

/-- The record is checked and copied, the user overwrites the key, the job's blind write brings the old value
back. -/
theorem put_superseded_by_rewrite :
    JobStart (.small false false) (single (.small false false) [⟨[1], [10]⟩]) ∧
      (run (react (.small false false)) (single (.small false false) [⟨[1], [10]⟩])
        [.gc {}, .gc {}, .gc {}, .gc {}, .put [1] [20], .gc {}, .gc {}, .gc {}]).map
        (fun s => (s.job.phase, s.world.visible (.small false false) [1])) = some (.finished .ok, .value [10]) ∧
      foldl expect ((single (.small false false) [⟨[1], [10]⟩]).world.visible (.small false false))
        [.gc {}, .gc {}, .gc {}, .gc {}, .put [1] [20], .gc {}, .gc {}, .gc {}] [1] = .value [20] :=
  ⟨jobStart_single (by decide), by decide +kernel, by decide +kernel⟩

end ValueSep.DiffKV.GcState
