import Mathlib.Data.List.Basic

/-!
# Addresses that wrap around

`cell C a i` is the `i`-th of `C` cells from `a` on. Two positions less than a turn apart are different cells; a sum of
two addresses wraps at most once (`mod_cases`), which turns a modulus into cases for linear arithmetic.
-/

namespace ValueSep.Circular

variable {C a i j n k : Nat}

def cell (C a i : Nat) : Nat := (a + i) % C

theorem mod_cases (h : a < 2 * C) : (a < C ∧ a % C = a) ∨ (C ≤ a ∧ a % C = a - C) := by
  rcases Nat.lt_or_ge a C with hlt | hge
  · exact .inl ⟨hlt, Nat.mod_eq_of_lt hlt⟩
  · refine .inr ⟨hge, ?_⟩
    rw [Nat.mod_eq_sub_mod hge, Nat.mod_eq_of_lt (by omega)]

@[simp] theorem cell_cell : cell C (cell C a i) j = cell C a (i + j) := by
  unfold cell
  rw [Nat.mod_add_mod, Nat.add_assoc]

theorem cell_ne (hij : i < j) (hj : j < i + C) : cell C a i ≠ cell C a j := by
  intro h
  have hdvd : C ∣ (a + j) - (a + i) := Nat.dvd_of_mod_eq_zero (Nat.sub_mod_eq_zero_of_mod_eq h.symm)
  have := Nat.le_of_dvd (by omega) hdvd
  omega

/-- The cells of two ranges from one start, the second behind the first, are different within a turn. -/
theorem cell_ne_of_le (hle : n + k ≤ C) (hi : i < n) (hj : j < k) : cell C a i ≠ cell C a (n + j) :=
  cell_ne (by omega) (by omega)

end ValueSep.Circular
