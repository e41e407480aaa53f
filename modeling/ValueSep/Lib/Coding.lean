import Mathlib.Algebra.Order.Ring.Nat
import Mathlib.Data.List.Basic

/-!
# Little-endian integers, varints and length-prefixed strings

The byte coding that storage engines of this family share. A parser takes the bytes in front of it and
returns the value with the bytes left. `putVarint`/`getVarint` carry the largest number of further bytes as
an argument, so that both are structural.
-/

namespace ValueSep.Coding

open List Option Prod UInt8

abbrev Bytes := List UInt8

variable {n : Nat} {s t : Bytes}

theorem toNat_ofNat_of_lt (h : n < 256) : (ofNat n).toNat = n := by
  rw [toNat_ofNat']; exact Nat.mod_eq_of_lt h

/-! ### Fixed width -/

def putFixed : Nat → Nat → Bytes
  | 0, _ => []
  | k + 1, n => UInt8.ofNat n :: putFixed k (n / 256)

def getFixed : Nat → Bytes → Option (Nat × Bytes)
  | 0, s => some (0, s)
  | _ + 1, [] => none
  | k + 1, b :: s => (getFixed k s).map fun (n, s) => (b.toNat + 256 * n, s)

@[simp] theorem length_putFixed (k n : Nat) : (putFixed k n).length = k := by
  induction k generalizing n with
  | zero => rfl
  | succ k ih => simp [putFixed, ih]

theorem getFixed_putFixed (k n : Nat) (s : Bytes) : getFixed k (putFixed k n ++ s) = some (n % 256 ^ k, s) := by
  induction k generalizing n with
  | zero => simp [getFixed, putFixed, Nat.mod_one]
  | succ k ih =>
    simp only [putFixed, cons_append, getFixed, ih, map_some, Option.some.injEq, mk.injEq,
      and_true, toNat_ofNat']
    rw [pow_succ' 256 k]; exact Nat.mod_mul.symm

theorem getFixed_of_lt {k n : Nat} (h : n < 256 ^ k) (s : Bytes) : getFixed k (putFixed k n ++ s) = some (n, s) := by
  rw [getFixed_putFixed, Nat.mod_eq_of_lt h]

theorem getFixed_append {k : Nat} {s : Bytes} (h : s.length = k) : ∃ n, ∀ t, getFixed k (s ++ t) = some (n, t) := by
  induction k generalizing s with
  | zero => exact ⟨0, fun t => by rw [eq_nil_of_length_eq_zero h]; rfl⟩
  | succ k ih =>
    obtain ⟨b, s, rfl⟩ := exists_cons_of_length_eq_add_one h
    obtain ⟨n, hn⟩ := ih (Nat.succ.inj h)
    exact ⟨b.toNat + 256 * n, fun t => by simp [getFixed, hn]⟩

theorem drop_of_getFixed {k n : Nat} (h : getFixed k s = some (n, t)) : t = s.drop k := by
  induction k generalizing n s with
  | zero => simp only [getFixed, Option.some.injEq, mk.injEq] at h; rw [← h.2, drop_zero]
  | succ k ih =>
    cases s with
    | nil => cases h
    | cons b s =>
      simp only [getFixed, map_eq_some_iff, mk.injEq] at h
      obtain ⟨⟨n', t'⟩, hrest, -, rfl⟩ := h
      exact ih hrest

theorem lt_of_getFixed {k n : Nat} (h : getFixed k s = some (n, t)) : n < 256 ^ k := by
  induction k generalizing n s t with
  | zero => simp only [getFixed, Option.some.injEq, mk.injEq] at h; rw [← h.1]; exact Nat.one_pos
  | succ k ih =>
    cases s with
    | nil => cases h
    | cons b s =>
      simp only [getFixed, map_eq_some_iff, mk.injEq] at h
      obtain ⟨⟨n', t'⟩, hrest, rfl, -⟩ := h
      have hn := ih hrest
      have hb := b.toNat_lt
      omega

/-! ### Varints -/

/-- Base-128 digits, lowest first, at most `f + 1` of them. -/
def putVarint : Nat → Nat → Bytes
  | 0, v => [UInt8.ofNat v]
  | f + 1, v => if v < 128 then [UInt8.ofNat v] else UInt8.ofNat (v % 128 + 128) :: putVarint f (v / 128)

def getVarint : Nat → Bytes → Option (Nat × Bytes)
  | _, [] => none
  | 0, b :: s => if b.toNat < 128 then some (b.toNat, s) else none
  | f + 1, b :: s =>
    if b.toNat < 128 then some (b.toNat, s)
    else (getVarint f s).map fun (n, s) => (b.toNat - 128 + 128 * n, s)

theorem getVarint_putVarint {f v : Nat} (h : v < 128 ^ (f + 1)) (s : Bytes) :
    getVarint f (putVarint f v ++ s) = some (v, s) := by
  induction f generalizing v with
  | zero =>
    have hv : v < 128 := by simpa using h
    have hb : (ofNat v).toNat = v := toNat_ofNat_of_lt (by omega)
    simp only [putVarint, singleton_append, getVarint, hb, if_pos hv]
  | succ f ih =>
    unfold putVarint
    split
    next hv =>
      have hb : (ofNat v).toNat = v := toNat_ofNat_of_lt (by omega)
      simp only [singleton_append, getVarint, hb, if_pos hv]
    next hv =>
      have hb : (ofNat (v % 128 + 128)).toNat = v % 128 + 128 := toNat_ofNat_of_lt (by omega)
      have hlt : v / 128 < 128 ^ (f + 1) := Nat.div_lt_of_lt_mul (by rw [← pow_succ']; exact h)
      simp only [cons_append, getVarint, hb, ih hlt, map_some]
      rw [if_neg (by omega)]
      simp only [Option.some.injEq, mk.injEq, and_true]
      omega

/-! ### Varints of a fixed width and length-prefixed strings -/

def putVarint64 (n : Nat) : Bytes := putVarint 9 (n % 2 ^ 64)

/-- Bits shifted out of the 64-bit accumulator by a tenth byte are lost. -/
def getVarint64 (s : Bytes) : Option (Nat × Bytes) := (getVarint 9 s).map fun (n, s) => (n % 2 ^ 64, s)

theorem getVarint64_putVarint64 (h : n < 2 ^ 64) (s : Bytes) : getVarint64 (putVarint64 n ++ s) = some (n, s) := by
  have hlt : n < 128 ^ (9 + 1) := h.trans_le (by decide)
  simp only [getVarint64, putVarint64, Nat.mod_eq_of_lt h, getVarint_putVarint hlt, map_some]

def putVarint32 (n : Nat) : Bytes := putVarint 4 (n % 2 ^ 32)

/-- Bits shifted out of the 32-bit accumulator by a fifth byte are lost. -/
def getVarint32 (s : Bytes) : Option (Nat × Bytes) := (getVarint 4 s).map fun (n, s) => (n % 2 ^ 32, s)

def putLengthPrefixed (s : Bytes) : Bytes := putVarint32 s.length ++ s

def getLengthPrefixed (s : Bytes) : Option (Bytes × Bytes) :=
  (getVarint32 s).bind fun (n, s) => if n ≤ s.length then some (s.take n, s.drop n) else none

theorem getVarint32_putVarint32 (h : n < 2 ^ 32) (s : Bytes) : getVarint32 (putVarint32 n ++ s) = some (n, s) := by
  have hlt : n < 128 ^ (4 + 1) := h.trans_le (by decide)
  simp only [getVarint32, putVarint32, Nat.mod_eq_of_lt h, getVarint_putVarint hlt, map_some]

theorem getLengthPrefixed_putLengthPrefixed {x : Bytes} (h : x.length < 2 ^ 32) (s : Bytes) :
    getLengthPrefixed (putLengthPrefixed x ++ s) = some (x, s) := by
  simp [getLengthPrefixed, putLengthPrefixed, getVarint32_putVarint32 h]

/-! ### Progress: what was read is gone, and nothing else -/

theorem length_lt_of_getVarint {f n : Nat} (h : getVarint f s = some (n, t)) : t.length < s.length := by
  induction f generalizing n s with
  | zero =>
    cases s with
    | nil => cases h
    | cons b s =>
      simp only [getVarint, ite_none_right_eq_some, Option.some.injEq, mk.injEq] at h
      rw [← h.2.2]
      exact Nat.lt_succ_self _
  | succ f ih =>
    cases s with
    | nil => cases h
    | cons b s =>
      unfold getVarint at h
      split at h
      · simp only [Option.some.injEq, mk.injEq] at h
        rw [← h.2]
        exact Nat.lt_succ_self _
      · simp only [map_eq_some_iff, mk.injEq] at h
        obtain ⟨⟨n', t'⟩, hrest, -, rfl⟩ := h
        exact Nat.lt_succ_of_lt (ih hrest)

theorem length_lt_of_getVarint64 (h : getVarint64 s = some (n, t)) : t.length < s.length := by
  simp only [getVarint64, map_eq_some_iff, mk.injEq] at h
  obtain ⟨⟨n', t'⟩, hrest, -, rfl⟩ := h
  exact length_lt_of_getVarint hrest

theorem length_lt_of_getVarint32 (h : getVarint32 s = some (n, t)) : t.length < s.length := by
  simp only [getVarint32, map_eq_some_iff, mk.injEq] at h
  obtain ⟨⟨n', t'⟩, hrest, -, rfl⟩ := h
  exact length_lt_of_getVarint hrest

theorem length_lt_of_getLengthPrefixed {x s t : Bytes} (h : getLengthPrefixed s = some (x, t)) :
    t.length < s.length ∧ x.length < 2 ^ 32 := by
  simp only [getLengthPrefixed, bind_eq_some_iff, ite_none_right_eq_some, Option.some.injEq,
    mk.injEq] at h
  obtain ⟨⟨n, u⟩, hn, hle, rfl, rfl⟩ := h
  have hlt := length_lt_of_getVarint32 hn
  have hsize : n < 2 ^ 32 := by
    simp only [getVarint32, map_eq_some_iff, mk.injEq] at hn
    obtain ⟨⟨n', t'⟩, -, rfl, -⟩ := hn
    exact Nat.mod_lt _ (by decide)
  dsimp only
  rw [length_drop, length_take]
  omega

end ValueSep.Coding
