import Mathlib.Data.List.Basic

/-!
# Cells at addresses

A memory is a function from addresses to cells; a store of a list of cells touches the addresses it covers and no
other. `Holds m a l` says that the cells from `a` on are `l`: it splits along `++`, a store establishes it, and it
survives a store elsewhere.
-/

namespace ValueSep.Memory

open List Option

variable {β : Type*} {m : Nat → β} {a b n k : Nat} {l l' : List β}

/-- `n` cells from address `a` on. -/
def read (m : Nat → β) (a n : Nat) : List β := (range n).map fun i => m (a + i)

/-- The cells of `l` stored from address `a` on. -/
def write (m : Nat → β) (a : Nat) (l : List β) : Nat → β :=
  fun i => if a ≤ i then l[i - a]?.getD (m i) else m i

def Holds (m : Nat → β) (a : Nat) (l : List β) : Prop := read m a l.length = l

@[simp] theorem length_read : (read m a n).length = n := by simp [read]

theorem read_add : read m a (n + k) = read m a n ++ read m (a + n) k := by
  simp [read, range_add, Nat.add_assoc]

variable {m' : Nat → β}

theorem read_congr (h : ∀ i, a ≤ i → i < a + n → m i = m' i) : read m a n = read m' a n :=
  map_congr_left fun i hi => h (a + i) (Nat.le_add_right ..) (Nat.add_lt_add_left (mem_range.1 hi) a)

theorem write_of_lt {i : Nat} (h : i < a) : write m a l i = m i := if_neg (Nat.not_le.2 h)

theorem write_of_le {i : Nat} (h : a + l.length ≤ i) : write m a l i = m i := by
  unfold write
  rw [if_pos (by omega), getElem?_eq_none (by omega), getD_none]

@[simp] theorem write_nil : write m a [] = m := by
  funext i
  simp [write]

theorem write_append : write m a (l ++ l') = write (write m a l) (a + l.length) l' := by
  funext i
  by_cases hlo : i < a
  · rw [write_of_lt hlo, write_of_lt (by omega), write_of_lt hlo]
  · by_cases hmid : i < a + l.length
    · rw [write_of_lt hmid]
      simp only [write, if_pos (Nat.not_lt.1 hlo)]
      rw [getElem?_append_left (by omega), getElem?_eq_getElem (by omega)]
    · simp only [write, if_pos (Nat.not_lt.1 hlo), if_pos (Nat.not_lt.1 hmid)]
      rw [getElem?_append_right (by omega), getElem?_eq_none (show l.length ≤ i - a by omega),
        getD_none]
      congr 2
      omega

theorem holds_nil : Holds m a [] := rfl

theorem holds_append : Holds m a (l ++ l') ↔ Holds m a l ∧ Holds m (a + l.length) l' := by
  unfold Holds
  rw [length_append, read_add]
  constructor
  · intro h
    exact append_inj h length_read
  · rintro ⟨h, h'⟩
    rw [h, h']

theorem holds_write_self : Holds (write m a l) a l := by
  refine ext_getElem (by simp) fun i hi hi' => ?_
  simp only [read, getElem_map, getElem_range, write, Nat.le_add_right, if_true, Nat.add_sub_cancel_left,
    getElem?_eq_getElem hi', getD_some]

theorem read_write_self : read (write m (a + n) l) a (n + l.length) = read m a n ++ l := by
  have hself : Holds (write m (a + n) l) (a + n) l := holds_write_self
  rw [read_add]
  congr 1
  exact read_congr fun i _ hi => write_of_lt hi

theorem read_write_of_disjoint (h : b + n ≤ a ∨ a + l.length ≤ b) : read (write m a l) b n = read m b n :=
  read_congr fun i hi hi' => by
    rcases h with h | h
    · exact write_of_lt (by omega)
    · exact write_of_le (by omega)

theorem Holds.write (h : Holds m a l) (hd : a + l.length ≤ b ∨ b + l'.length ≤ a) : Holds (Memory.write m b l') a l :=
  (read_write_of_disjoint hd).trans h

theorem Holds.copy (h : Holds m a l) (hm : ∀ i < l.length, m' (b + i) = m (a + i)) : Holds m' b l := by
  refine Eq.trans ?_ h
  exact map_congr_left fun i hi => hm i (mem_range.1 hi)

theorem Holds.congr (h : Holds m a l) (hm : ∀ i, a ≤ i → i < a + l.length → m i = m' i) : Holds m' a l :=
  (read_congr hm).symm.trans h

end ValueSep.Memory
