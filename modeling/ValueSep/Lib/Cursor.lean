import Mathlib.Data.List.Basic

/-!
# Cursors on a list

A cursor is a position in a fixed list, or none once it has run off either end. `ahead` is what a forward walk from
the position has before it; the moves are described by what they do to it.
-/

namespace ValueSep.Cursor

open List

variable {α : Type*} (l : List α)

def first : Option Nat := if l.length = 0 then none else some 0

def last : Option Nat := if l.length = 0 then none else some (l.length - 1)

/-- The first element that meets `p`. -/
def seek (p : α → Bool) : Option Nat := l.findIdx? p

/-- The last element that meets `p`. -/
def seekBack (p : α → Bool) : Option Nat := (l.reverse.findIdx? p).map fun i => l.length - 1 - i

def next (i : Nat) : Option Nat := if i + 1 < l.length then some (i + 1) else none

def prev : Nat → Option Nat
  | 0 => none
  | i + 1 => some i

/-- The element at the cursor. -/
def get? (pos : Option Nat) : Option α := pos.bind (l[·]?)

def ahead : Option Nat → List α
  | none => []
  | some i => l.drop i

variable {l} {pos : Option Nat} {i : Nat}

theorem get?_eq_head? : get? l pos = (ahead l pos).head? := by
  cases pos with
  | none => rfl
  | some i => exact (List.head?_drop ..).symm

theorem length_ahead_le (pos : Option Nat) : (ahead l pos).length ≤ l.length := by
  cases pos with
  | none => exact Nat.zero_le _
  | some i =>
    rw [ahead, length_drop]
    omega

theorem ahead_first : ahead l (first l) = l := by
  unfold first
  split
  next h => exact (eq_nil_of_length_eq_zero h).symm
  · rfl

theorem ahead_next : ahead l (next l i) = (l.drop i).tail := by
  rw [tail_drop]
  unfold next
  split
  · rfl
  next h => exact (drop_eq_nil_of_le (by omega)).symm

theorem ahead_seek (p : α → Bool) : ahead l (seek l p) = l.dropWhile fun a => !p a := by
  unfold seek
  induction l with
  | nil => rfl
  | cons a l ih =>
    rw [List.findIdx?_cons, dropWhile_cons]
    cases hp : p a with
    | true => rfl
    | false =>
      rw [← ih]
      cases l.findIdx? p <;> rfl

theorem dropWhile_eq_filter {r : α → α → Prop} {p : α → Bool} (hsorted : l.Pairwise r)
    (hmono : ∀ a b, r a b → p a = true → p b = true) : (l.dropWhile fun a => !p a) = l.filter p := by
  induction l with
  | nil => rfl
  | cons a l ih =>
    rw [pairwise_cons] at hsorted
    rw [dropWhile_cons, filter_cons]
    cases hp : p a with
    | false =>
      exact ih hsorted.2
    | true =>
      simp only [Bool.not_true, Bool.false_eq_true, if_false, if_true]
      have hall : l.filter p = l := filter_eq_self.2 fun b hb => hmono a b (hsorted.1 b hb) hp
      rw [hall]

/-! ### The first elements of a set -/

/-- `l` lists the first `n` elements of `S` in the order `lt`, or all of them if there are fewer. -/
structure Leading (lt : α → α → Prop) (n : Nat) (S : α → Prop) (l : List α) : Prop where
  sorted : l.Pairwise lt
  mem : ∀ a ∈ l, S a
  length_le : l.length ≤ n
  rest : ∀ a, S a → a ∉ l → l.length = n ∧ ∀ b ∈ l, lt b a

theorem rest_of_not_mem_take {lt : α → α → Prop} {n : Nat} {a : α} (hsorted : l.Pairwise lt) (ha : a ∈ l)
    (hn : a ∉ l.take n) : (l.take n).length = n ∧ ∀ b ∈ l.take n, lt b a := by
  have hdrop : a ∈ l.drop n := by
    rw [← take_append_drop n l] at ha
    exact (mem_append.1 ha).resolve_left hn
  rw [← take_append_drop n l, pairwise_append] at hsorted
  refine ⟨?_, fun b hb => hsorted.2.2 b hb a hdrop⟩
  have := length_pos_of_mem hdrop
  rw [length_drop] at this
  rw [length_take]
  omega

end ValueSep.Cursor
