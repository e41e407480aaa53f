import Mathlib.Data.List.Basic

/-!
# Runs of a machine with guarded events

A machine is a partial step function `step : σ → ε → Option σ`; an event that is not enabled has no
successor. `run` folds a list of events, `AllSteps P` says that every step taken meets `P` in the state
before it. The induction over a run is done once, in `run_inv` and in `run_inv_ghost` (an invariant that
also reads a value computed from the events alone).
-/

namespace ValueSep.Exec

open List

variable {σ ε γ : Type*} {step : σ → ε → Option σ} {s s' s'' : σ} {e : ε} {es es' : List ε}

/-- The state after the events, if each of them is enabled when its turn comes. -/
def run (step : σ → ε → Option σ) : σ → List ε → Option σ
  | s, [] => some s
  | s, e :: es => (step s e).bind fun s' => run step s' es

/-- Every step of the run meets `P` in the state before it. -/
def AllSteps (step : σ → ε → Option σ) (P : σ → ε → Prop) : σ → List ε → Prop
  | _, [] => True
  | s, e :: es => P s e ∧ ∀ s', step s e = some s' → AllSteps step P s' es

instance AllSteps.decidable {P : σ → ε → Prop} [∀ s e, Decidable (P s e)] :
    (s : σ) → (es : List ε) → Decidable (AllSteps step P s es)
  | _, [] => .isTrue trivial
  | s, e :: es =>
    match h : step s e with
    | none => decidable_of_iff (P s e) (by simp [AllSteps, h])
    | some s' =>
      have : Decidable (AllSteps step P s' es) := AllSteps.decidable s' es
      decidable_of_iff (P s e ∧ AllSteps step P s' es) (by simp [AllSteps, h])

@[simp] theorem run_nil : run step s [] = some s := rfl

theorem run_cons_eq_some : run step s (e :: es) = some s'' ↔ ∃ s', step s e = some s' ∧ run step s' es = some s'' := by
  simp only [run, Option.bind_eq_some_iff]

theorem run_append_eq_some :
    run step s (es ++ es') = some s'' ↔ ∃ s', run step s es = some s' ∧ run step s' es' = some s'' := by
  induction es generalizing s with
  | nil => simp
  | cons e es ih =>
    simp only [cons_append, run_cons_eq_some, ih]
    constructor
    · rintro ⟨s₁, h₁, s₂, h₂, h₃⟩; exact ⟨s₂, ⟨s₁, h₁, h₂⟩, h₃⟩
    · rintro ⟨s₂, ⟨s₁, h₁, h₂⟩, h₃⟩; exact ⟨s₁, h₁, s₂, h₂, h₃⟩

theorem AllSteps.append {P : σ → ε → Prop} (h : AllSteps step P s (es ++ es')) : AllSteps step P s es := by
  induction es generalizing s with
  | nil => trivial
  | cons e es ih => exact ⟨h.1, fun s' hs => ih (h.2 s' hs)⟩

theorem AllSteps.of_append {P : σ → ε → Prop} (h : AllSteps step P s (es ++ es')) (hrun : run step s es = some s') :
    AllSteps step P s' es' := by
  induction es generalizing s with
  | nil => cases hrun; exact h
  | cons e es ih =>
    obtain ⟨s₁, h₁, h₂⟩ := run_cons_eq_some.1 hrun
    exact ih (h.2 s₁ h₁) h₂

theorem AllSteps.of_forall {P : ε → Prop} (h : ∀ e ∈ es, P e) : AllSteps step (fun _ e => P e) s es := by
  induction es generalizing s with
  | nil => trivial
  | cons e es ih =>
    exact ⟨h e (mem_cons_self ..), fun _ _ => ih fun e' he' => h e' (mem_cons_of_mem _ he')⟩

theorem AllSteps.and {P Q : σ → ε → Prop} (h : AllSteps step P s es) (h' : AllSteps step Q s es) :
    AllSteps step (fun s e => P s e ∧ Q s e) s es := by
  induction es generalizing s with
  | nil => trivial
  | cons e es ih => exact ⟨⟨h.1, h'.1⟩, fun s' hs => ih (h.2 s' hs) (h'.2 s' hs)⟩

/-- A quantity that never decreases is bounded all along by what it is at the end. -/
theorem AllSteps.of_le_final {q : σ → Nat} {n : Nat} (hmono : ∀ s e s', step s e = some s' → q s ≤ q s')
    (hrun : run step s es = some s') (hn : q s' < n) : AllSteps step (fun s _ => q s < n) s es := by
  have hle : ∀ (s : σ) (es : List ε), run step s es = some s' → q s ≤ q s' := by
    intro s es h
    induction es generalizing s with
    | nil => cases h; exact Nat.le_refl _
    | cons e es ih =>
      obtain ⟨s₁, h₁, h₂⟩ := run_cons_eq_some.1 h
      exact Nat.le_trans (hmono s e s₁ h₁) (ih s₁ h₂)
  induction es generalizing s with
  | nil => trivial
  | cons e es ih =>
    refine ⟨Nat.lt_of_le_of_lt (hle s _ hrun) hn, fun s₁ h₁ => ?_⟩
    obtain ⟨s₂, h₂, hrest⟩ := run_cons_eq_some.1 hrun
    rw [h₁] at h₂
    cases h₂
    exact ih hrest

/-- The machine, fed by a stream of events, passes through `s'`. -/
def Reaches (step : σ → ε → Option σ) (events : Nat → ε) (s s' : σ) : Prop :=
  ∃ n, run step s ((range n).map events) = some s'

theorem Reaches.refl (events : Nat → ε) (s : σ) : Reaches step events s s := ⟨0, rfl⟩

variable {events : Nat → ε}

theorem Reaches.head (h : step s (events 0) = some s')
    (h' : Reaches step (fun n => events (n + 1)) s' s'') : Reaches step events s s'' := by
  obtain ⟨n, hn⟩ := h'
  refine ⟨n + 1, ?_⟩
  rw [range_succ_eq_map, map_cons, map_map, run_cons_eq_some]
  exact ⟨s', h, hn⟩

/-- Fed by the stream, the machine never stops. -/
def Endless (step : σ → ε → Option σ) (events : Nat → ε) (s : σ) : Prop :=
  ∀ n, (run step s ((range n).map events)).isSome

theorem endless_of_inv {I : σ → Prop} (hstep : ∀ s, I s → ∃ s', step s e = some s' ∧ I s') (h : I s) :
    Endless step (fun _ => e) s := by
  intro n
  rw [map_const', length_range]
  induction n generalizing s with
  | zero => rfl
  | succ n ih =>
    obtain ⟨s', hs, hI⟩ := hstep s h
    rw [replicate_succ, run, hs]
    exact ih hI

theorem Endless.cons (hs : step s e = some s') (h : Endless step events s') :
    Endless step (fun n => Nat.casesOn n e events) s := by
  rintro (_ | n)
  · rfl
  · rw [range_succ_eq_map, map_cons, map_map]
    show ((step s e).bind fun s' => run step s' ((range n).map events)).isSome
    rw [hs]
    exact h n

theorem AllSteps.of_run_eq_none {P : σ → ε → Prop} (h : AllSteps step P s es) (hrun : run step s es = none) :
    AllSteps step P s (es ++ es') := by
  induction es generalizing s with
  | nil => cases hrun
  | cons e es ih =>
    refine ⟨h.1, fun s' hs => ih (h.2 s' hs) ?_⟩
    rwa [run, hs] at hrun

/-- So a stream that stops the machine is judged by its beginning. -/
theorem AllSteps.of_stream {P : σ → ε → Prop} {k : Nat}
    (h : AllSteps step P s ((range k).map events)) (hrun : run step s ((range k).map events) = none) (n : Nat) :
    AllSteps step P s ((range n).map events) := by
  rcases Nat.le_total n k with hle | hle
  · obtain ⟨j, rfl⟩ := Nat.exists_eq_add_of_le hle
    rw [range_add, map_append] at h
    exact h.append
  · obtain ⟨j, rfl⟩ := Nat.exists_eq_add_of_le hle
    rw [range_add, map_append]
    exact h.of_run_eq_none hrun

/-- A quantity that every step decreases bounds the length of a run. -/
theorem length_le_of_measure {I : σ → Prop} {P : σ → ε → Prop} {μ : σ → Nat}
    (hstep : ∀ s e s', I s → P s e → step s e = some s' → I s' ∧ μ s' < μ s) (h : I s) (hP : AllSteps step P s es)
    (hrun : run step s es = some s') : es.length ≤ μ s := by
  induction es generalizing s with
  | nil => exact Nat.zero_le _
  | cons e es ih =>
    obtain ⟨s₁, h₁, h₂⟩ := run_cons_eq_some.1 hrun
    obtain ⟨hI, hlt⟩ := hstep s e s₁ h hP.1 h₁
    exact Nat.lt_of_le_of_lt (ih hI (hP.2 s₁ h₁) h₂) hlt

/-- An invariant kept by every step that meets `P`, together with a ghost value that the events
update, holds at the end of every run whose steps meet `P`. -/
theorem run_inv_ghost {I : γ → σ → Prop} {P : σ → ε → Prop} {u : γ → ε → γ} {g : γ}
    (hstep : ∀ g s e s', I g s → P s e → step s e = some s' → I (u g e) s')
    (h : I g s) (hP : AllSteps step P s es) (hrun : run step s es = some s') :
    I (es.foldl u g) s' := by
  induction es generalizing s g with
  | nil => simp only [run_nil, Option.some.injEq] at hrun; subst hrun; exact h
  | cons e es ih =>
    obtain ⟨s₁, h₁, h₂⟩ := run_cons_eq_some.1 hrun
    exact ih (hstep g s e s₁ h hP.1 h₁) (hP.2 s₁ h₁) h₂

theorem run_inv {I : σ → Prop} {P : σ → ε → Prop} (hstep : ∀ s e s', I s → P s e → step s e = some s' → I s')
    (h : I s) (hP : AllSteps step P s es) (hrun : run step s es = some s') : I s' :=
  run_inv_ghost (γ := Unit) (u := fun _ _ => ()) (g := ())
    (fun _ s e s' => hstep s e s') h hP hrun

/-! ### Samples -/

section

variable {α β δ : Type*} {x : Option α} {y : α → Option β}

/-- What is computed from the end of a run says that the run has an end, and more about it. -/
theorem exists_of_map {Q : α → Prop} (f : α → δ) (d : δ) (h : x.map f = some d)
    (hQ : ∀ a, x = some a → f a = d → Q a) : ∃ a, x = some a ∧ Q a := by
  obtain ⟨a, ha, hd⟩ := Option.map_eq_some_iff.1 h
  exact ⟨a, ha, hQ a ha hd⟩

theorem exists₂_of_bind {Q : α → β → Prop} (f : α → β → δ) (d : δ) (h : (x.bind fun a => (y a).map (f a)) = some d)
    (hQ : ∀ a b, x = some a → y a = some b → f a b = d → Q a b) : ∃ a b, x = some a ∧ y a = some b ∧ Q a b := by
  obtain ⟨a, ha, h⟩ := Option.bind_eq_some_iff.1 h
  obtain ⟨b, hb, hd⟩ := Option.map_eq_some_iff.1 h
  exact ⟨a, b, ha, hb, hQ a b ha hb hd⟩

end

end ValueSep.Exec
