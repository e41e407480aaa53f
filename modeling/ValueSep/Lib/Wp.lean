import Mathlib.Data.List.Basic

/-!
# Weakest preconditions of computations that can stop

`wp m Q E`: the computation `m` returns a value that meets `Q`, or stops with an error that meets `E`. With
`E := fun _ => True` this is partial correctness (`wp_iff`); a specification that also says what each stop means
puts that into `E`. Loops over a list have one rule, with an invariant that reads the elements still to come.
-/

namespace ValueSep.Wp

universe u v

variable {ε : Type u} {α β : Type v} {m : Except ε α} {f : α → Except ε β} {Q Q' : α → Prop} {E E' : ε → Prop}

def wp (m : Except ε α) (Q : α → Prop) (E : ε → Prop) : Prop :=
  match m with
  | .ok a => Q a
  | .error e => E e

variable {a : α}

@[simp] theorem wp_ok : wp (.ok a) Q E ↔ Q a := Iff.rfl

@[simp] theorem wp_pure : wp (pure a : Except ε α) Q E ↔ Q a := Iff.rfl

@[simp] theorem wp_error {e : ε} : wp (.error e : Except ε α) Q E ↔ E e := Iff.rfl

theorem wp_bind {R : β → Prop} : wp (m >>= f) R E ↔ wp m (fun a => wp (f a) R E) E := by
  cases m <;> rfl

/-- A first part about which nothing need be known. -/
theorem wp_bind_of_forall {R : β → Prop} (h : ∀ a, wp (f a) R fun _ => True) : wp (m >>= f) R fun _ => True := by
  cases m with
  | ok a => exact h a
  | error e => trivial

theorem wp_map {g : α → β} {R : β → Prop} : wp (g <$> m) R E ↔ wp m (fun a => R (g a)) E := by
  cases m <;> rfl

theorem wp_mono (h : wp m Q E) (hQ : ∀ a, Q a → Q' a) (hE : ∀ e, E e → E' e) : wp m Q' E' := by
  cases m with
  | ok a => exact hQ a h
  | error e => exact hE e h

/-- Sequencing: what the first part ensures is what the second needs. -/
theorem wp_seq {R : β → Prop} (h : wp m Q E) (hf : ∀ a, Q a → wp (f a) R E) : wp (m >>= f) R E :=
  wp_bind.2 (wp_mono h hf fun _ => id)

theorem wp_self (h : wp m Q E) : wp m (fun a => m = .ok a ∧ Q a) E := by
  cases m with
  | ok a => exact ⟨rfl, h⟩
  | error e => exact h

/-- What is known of the errors besides. -/
theorem wp_of_errors (h : wp m Q fun _ => True) (hE : ∀ e, m = .error e → E e) : wp m Q E := by
  cases m with
  | ok a => exact h
  | error e => exact hE e rfl

theorem wp_iff : wp m Q (fun _ => True) ↔ ∀ a, m = .ok a → Q a := by
  cases m with
  | ok a => simp
  | error e => simp

theorem wp_eq_error {e : ε} : wp m (fun _ => False) (· = e) ↔ m = .error e := by
  cases m <;> simp

theorem toOption_eq_some : m.toOption = some a ↔ m = .ok a := by
  cases m <;> simp [Except.toOption]

theorem wp_ite {c : Prop} [Decidable c] {m₁ m₂ : Except ε α} (h₁ : c → wp m₁ Q E) (h₂ : ¬c → wp m₂ Q E) :
    wp (if c then m₁ else m₂) Q E := by
  by_cases hc : c
  · rw [if_pos hc]; exact h₁ hc
  · rw [if_neg hc]; exact h₂ hc

/-- The loop rule: the invariant reads the elements not yet visited. -/
theorem wp_foldlM {step : β → α → Except ε β} {I : List α → β → Prop} {xs : List α} {b : β}
    (hstep : ∀ x xs b, I (x :: xs) b → wp (step b x) (I xs) E) (h : I xs b) : wp (xs.foldlM step b) (I []) E := by
  induction xs generalizing b with
  | nil => exact h
  | cons x xs ih =>
    exact wp_seq (hstep x xs b h) fun _ => ih

theorem mapM_eq_ok {g : α → Except ε β} {xs : List α} {ys : List β} :
    xs.mapM g = .ok ys ↔ List.Forall₂ (fun x y => g x = .ok y) xs ys := by
  induction xs generalizing ys with
  | nil =>
    cases ys with
    | nil => exact ⟨fun _ => .nil, fun _ => rfl⟩
    | cons y ys => exact ⟨nofun, nofun⟩
  | cons x xs ih =>
    rw [List.mapM_cons]
    cases hx : g x with
    | error e =>
      constructor
      · intro h; cases h
      · intro h
        cases h with
        | cons h _ => rw [hx] at h; cases h
    | ok y =>
      cases hxs : xs.mapM g with
      | error e =>
        constructor
        · intro h; cases h
        · intro h
          cases h with
          | cons _ h =>
            rw [ih.2 h] at hxs
            cases hxs
      | ok ys' =>
        have hys' := ih.1 hxs
        constructor
        · intro h
          cases h
          exact .cons hx hys'
        · intro h
          cases h with
          | cons h h' =>
            rw [hx] at h
            cases h
            rw [← Except.ok.inj (hxs.symm.trans (ih.2 h'))]
            rfl

end ValueSep.Wp
