import Mathlib.Data.List.Basic
import Mathlib.Data.Nat.Find
import ValueSep.HashKV.Basic

/-!
# The bitmap of the segments (`ds/bitmap.cc`)

One bit for each segment, in words of 64. `getFirstZeroSince` finds the word by scanning and the bit in it by halving;
`getFirstZeroSince_eq` says that this is the first clear bit in the plain sense.
-/

namespace ValueSep.HashKV

open List Option Function

/-- `BitMap`: the words `_bv`, of which there are enough for `_size` bits. -/
structure BitMap where
  bv : List (BitVec 64)
  size : Nat
  size_le : size ≤ 64 * bv.length

namespace BitMap

/-- `_unit`. -/
def unit : Nat := 64

/-- `_onemask`. -/
def onemask : BitVec 64 := .allOnes 64

def bitmask (i : Nat) : BitVec 64 := .twoPow 64 i

def clearmask (i : Nat) : BitVec 64 := ~~~bitmask i

/-- The constructor. -/
def new (size : Nat) : BitMap where
  bv := replicate (size / unit + if size % unit = 0 then 0 else 1) 0
  size := size
  size_le := by
    rw [length_replicate, unit]
    split <;> omega

def getBit (b : BitMap) (addr : Nat) : Bool := b.bv.getD (addr / unit) 0 &&& bitmask (addr % unit) ≠ 0

/-- An address from `_size` on fails the assertion. -/
def setBit (addr : Nat) (b : BitMap) : Except Stop BitMap :=
  if addr < b.size then .ok { b with
    bv := b.bv.modify (addr / unit) (· ||| bitmask (addr % unit))
    size_le := by rw [length_modify]; exact b.size_le }
  else .error .assertion

def clearBit (addr : Nat) (b : BitMap) : Except Stop BitMap :=
  if addr < b.size then .ok { b with
    bv := b.bv.modify (addr / unit) (· &&& clearmask (addr % unit))
    size_le := by rw [length_modify]; exact b.size_le }
  else .error .assertion

/-- The inner loop of `getFirstZeroSince`: the lower half of `pos` if there is a bit in it, else the upper half. -/
def firstOne : Nat → Nat → BitVec 64 → BitVec 64 → Nat → Nat
  | 0, _, _, _, depth => depth
  | fuel + 1, width, mask, pos, depth =>
    let width := width / 2
    let mask := mask >>> width
    let next := if pos &&& mask ≠ 0 then (pos &&& mask, depth) else ((pos >>> width) &&& mask, depth + width)
    if width = 0 then next.2 else firstOne fuel width mask next.1 next.2

/-- All bits from the `i`-th on. -/
def stmask (i : Nat) : BitVec 64 := ~~~((1#64 <<< i) - 1#64)

/-- The outer loop, over the words from the `i`-th on. -/
def scan (st : Nat) (stmask : BitVec 64) : List (BitVec 64) → Nat → Option Nat
  | [], _ => none
  | w :: ws, i =>
    let pos := w ^^^ onemask
    let pos := if i = st then pos &&& stmask else pos
    if pos ≠ 0 then some (i * unit + firstOne 7 unit onemask pos 0) else scan st stmask ws (i + 1)

/-- `none` is `INVALID_OFFSET`. The last word may have clear bits behind the last segment. -/
def getFirstZeroSince (b : BitMap) (addr : Nat) : Option Nat :=
  let st := addr / unit
  match scan st (stmask (addr % unit)) (b.bv.drop st) st with
  | none => none
  | some ret => if b.size ≤ ret then none else some ret

def getFirstZeroAndFlip (writeFront : Nat) (b : BitMap) : Except Stop (Option Nat × BitMap) :=
  match b.getFirstZeroSince writeFront with
  | none => .ok (none, b)
  | some ret => do
    let b ← b.setBit ret
    .ok (some ret, b)

/-! ### The lowest bit of a word -/

/-- Bit `d` is set and none below it. -/
def IsLowest (pos : BitVec 64) (d : Nat) : Prop := pos.getLsbD d = true ∧ ∀ j < d, pos.getLsbD j = false

variable {pos : BitVec 64}

theorem exists_isLowest (h : pos ≠ 0) : ∃ d, IsLowest pos d := by
  have hbit : ∃ d, pos.getLsbD d = true := by
    by_contra hnone
    refine h (BitVec.eq_of_getLsbD_eq fun j _ => ?_)
    rw [BitVec.ofNat_eq_ofNat, BitVec.getLsbD_zero]
    exact Bool.eq_false_iff.2 fun hj => hnone ⟨j, hj⟩
  classical
  exact ⟨Nat.find hbit, Nat.find_spec hbit, fun j hj => Bool.eq_false_iff.2 (Nat.find_min hbit hj)⟩

theorem IsLowest.lt {d : Nat} (h : IsLowest pos d) : d < 64 := by
  by_contra hge
  have := h.1
  rw [BitVec.getLsbD_of_ge _ _ (Nat.le_of_not_lt hge)] at this
  cases this

theorem and_ne_zero_iff {pos mask : BitVec 64} : pos &&& mask ≠ 0 ↔ ∃ j, pos.getLsbD j = true ∧ mask.getLsbD j = true := by
  constructor
  · intro h
    obtain ⟨d, hd, -⟩ := exists_isLowest h
    rw [BitVec.getLsbD_and, Bool.and_eq_true] at hd
    exact ⟨d, hd⟩
  · rintro ⟨j, hpos, hmask⟩ h
    have hj : (pos &&& mask).getLsbD j = true := by rw [BitVec.getLsbD_and, hpos, hmask]; rfl
    rw [h, BitVec.ofNat_eq_ofNat, BitVec.getLsbD_zero] at hj
    cases hj

/-- Halving finds the lowest bit, among `2 ^ k`, in `k + 1` rounds. -/
theorem firstOne_eq {k d depth : Nat} {mask pos : BitVec 64} (hmask : ∀ j, mask.getLsbD j = decide (j < 2 ^ k))
    (hpos : ∀ j, pos.getLsbD j = true → j < 2 ^ k) (hd : IsLowest pos d) :
    firstOne (k + 1) (2 ^ k) mask pos depth = depth + d := by
  induction k generalizing mask pos depth d with
  | zero =>
    have hzero : d = 0 := by
      have := hpos d hd.1
      omega
    subst hzero
    simp only [firstOne, pow_zero, Nat.reduceDiv, if_true]
    split <;> rfl
  | succ k ih =>
    have hhalf : 2 ^ (k + 1) / 2 = 2 ^ k := by rw [pow_succ]; omega
    have hne : 2 ^ k ≠ 0 := (Nat.two_pow_pos k).ne'
    have hmask' : ∀ j, (mask >>> 2 ^ k).getLsbD j = decide (j < 2 ^ k) := by
      intro j
      rw [BitVec.getLsbD_ushiftRight, hmask]
      exact decide_eq_decide.2 (by omega)
    rw [firstOne]
    simp only [hhalf, if_neg hne]
    by_cases hlow : pos &&& mask >>> 2 ^ k ≠ 0
    · -- the lowest bit is in the lower half
      rw [if_pos hlow]
      obtain ⟨j, hj, hjmask⟩ := and_ne_zero_iff.1 hlow
      rw [hmask', decide_eq_true_eq] at hjmask
      have hdj : d ≤ j := by
        by_contra hlt
        rw [hd.2 j (Nat.lt_of_not_le hlt)] at hj
        cases hj
      refine ih hmask' (fun i hi => ?_) ⟨?_, fun i hi => ?_⟩
      · rw [BitVec.getLsbD_and, hmask', Bool.and_eq_true, decide_eq_true_eq] at hi
        exact hi.2
      · rw [BitVec.getLsbD_and, hmask', hd.1, decide_eq_true (by omega)]
        rfl
      · rw [BitVec.getLsbD_and, hd.2 i hi, Bool.false_and]
    · rw [if_neg hlow]
      have hge : 2 ^ k ≤ d := by
        by_contra hlt
        exact hlow (and_ne_zero_iff.2 ⟨d, hd.1, by rw [hmask']; exact decide_eq_true (by omega)⟩)
      have hlt := hpos d hd.1
      have hupper : IsLowest ((pos >>> 2 ^ k) &&& mask >>> 2 ^ k) (d - 2 ^ k) := by
        refine ⟨?_, fun i hi => ?_⟩
        · rw [BitVec.getLsbD_and, hmask', BitVec.getLsbD_ushiftRight, Nat.add_sub_cancel' hge, hd.1,
            decide_eq_true (by omega)]
          rfl
        · rw [BitVec.getLsbD_and, BitVec.getLsbD_ushiftRight, hd.2 _ (by omega), Bool.false_and]
      refine (ih hmask' (fun i hi => ?_) hupper).trans (by omega)
      rw [BitVec.getLsbD_and, hmask', Bool.and_eq_true, decide_eq_true_eq] at hi
      exact hi.2

theorem firstOne_unit {d : Nat} (hd : IsLowest pos d) : firstOne 7 unit onemask pos 0 = d := by
  have h := @firstOne_eq 6 d 0 onemask pos (fun j => BitVec.getLsbD_allOnes)
    (fun j hj => Nat.lt_of_not_le fun hge => by rw [BitVec.getLsbD_of_ge _ _ hge] at hj; cases hj) hd
  rwa [Nat.zero_add] at h

/-! ### The bits as a function -/

variable {b b' : BitMap} {addr c : Nat}

theorem getBit_eq : b.getBit addr = (b.bv.getD (addr / 64) 0).getLsbD (addr % 64) := by
  rw [getBit, Bool.eq_iff_iff, decide_eq_true_eq, and_ne_zero_iff]
  constructor
  · rintro ⟨j, hj, hmask⟩
    rw [bitmask, BitVec.getLsbD_twoPow, Bool.and_eq_true, decide_eq_true_eq, decide_eq_true_eq] at hmask
    obtain ⟨-, rfl⟩ := hmask
    exact hj
  · intro h
    refine ⟨addr % 64, h, ?_⟩
    rw [bitmask, BitVec.getLsbD_twoPow, unit, decide_eq_true (Nat.mod_lt _ (by decide)), decide_eq_true rfl]
    rfl

@[simp] theorem getBit_new {size : Nat} : (new size).getBit addr = false := by
  rw [getBit_eq, new, getD_eq_getElem?_getD, getElem?_replicate]
  split <;> split <;> exact BitVec.getLsbD_zero

/-- Changing one bit of a word changes the function at one address. -/
theorem getBit_modify {f : BitVec 64 → BitVec 64} {x : Bool} (hc : c < b.size) (hbv : b'.bv = b.bv.modify (c / 64) f)
    (hf : ∀ w j, j < 64 → (f w).getLsbD j = if j = c % 64 then x else w.getLsbD j) :
    b'.getBit = update b.getBit c x := by
  have hword : c / 64 < b.bv.length := by
    have := b.size_le
    omega
  funext addr
  rw [update_apply, getBit_eq, getBit_eq, hbv, getD_eq_getElem?_getD, getD_eq_getElem?_getD, getElem?_modify]
  by_cases heq : c / 64 = addr / 64
  · simp only [if_pos heq]
    rw [← heq, getElem?_eq_getElem hword, Option.map_eq_map, Option.map_some, getD_some, hf _ _ (Nat.mod_lt _ (by decide))]
    exact if_congr (by omega) rfl rfl
  · have hne : addr ≠ c := fun h => heq (by rw [h])
    simp only [if_neg heq, if_neg hne, id_map']

theorem setBit_eq_ok (h : b.setBit c = .ok b') : c < b.size ∧ b'.size = b.size ∧ b'.getBit = update b.getBit c true := by
  unfold setBit at h
  by_cases hc : c < b.size
  · rw [if_pos hc] at h
    cases h
    refine ⟨hc, rfl, getBit_modify hc rfl fun w j hj => ?_⟩
    rw [BitVec.getLsbD_or, bitmask, unit, BitVec.getLsbD_twoPow, decide_eq_true (Nat.mod_lt c (by decide : 0 < 64))]
    by_cases hjc : j = c % 64
    · simp [hjc]
    · simp [hjc, Ne.symm hjc]
  · rw [if_neg hc] at h; cases h

theorem clearBit_eq_ok (h : b.clearBit c = .ok b') :
    c < b.size ∧ b'.size = b.size ∧ b'.getBit = update b.getBit c false := by
  unfold clearBit at h
  by_cases hc : c < b.size
  · rw [if_pos hc] at h
    cases h
    refine ⟨hc, rfl, getBit_modify hc rfl fun w j hj => ?_⟩
    rw [BitVec.getLsbD_and, clearmask, bitmask, unit, BitVec.getLsbD_not, BitVec.getLsbD_twoPow,
      decide_eq_true (Nat.mod_lt c (by decide : 0 < 64)), decide_eq_true hj]
    by_cases hjc : j = c % 64
    · simp [hjc]
    · simp [hjc, Ne.symm hjc]
  · rw [if_neg hc] at h; cases h

/-! ### The first clear bit -/

theorem getLsbD_stmask {a j : Nat} (ha : a < 64) (hj : j < 64) : (stmask a).getLsbD j = decide (a ≤ j) := by
  have hone : (1#64 <<< a) - 1#64 = BitVec.ofNat 64 (2 ^ a - 1) := by
    have hlt : 2 ^ a < 2 ^ 64 := Nat.pow_lt_pow_right (by decide) ha
    have hpos := Nat.two_pow_pos a
    refine BitVec.eq_of_toNat_eq ?_
    rw [BitVec.toNat_sub, BitVec.toNat_shiftLeft, BitVec.toNat_ofNat, BitVec.toNat_ofNat]
    omega
  rw [stmask, hone, BitVec.getLsbD_not, BitVec.getLsbD_ofNat, decide_eq_true hj, Bool.eq_iff_iff]
  simp

/-- What is left of the `i`-th word to search in are the clear bits from `addr` on. -/
theorem getLsbD_pos {w : BitVec 64} {i j : Nat} (hi : addr / 64 ≤ i) (hj : j < 64) :
    (if i = addr / 64 then (w ^^^ onemask) &&& stmask (addr % 64) else w ^^^ onemask).getLsbD j =
      (!w.getLsbD j && decide (addr ≤ i * 64 + j)) := by
  have hclear : (w ^^^ onemask).getLsbD j = !w.getLsbD j := by
    rw [BitVec.getLsbD_xor, onemask, BitVec.getLsbD_allOnes, decide_eq_true hj, Bool.xor_true]
  split
  · rw [BitVec.getLsbD_and, getLsbD_stmask (Nat.mod_lt _ (by decide)) hj]
    congr 1
    exact decide_eq_decide.2 (by omega)
  · rw [hclear, decide_eq_true (by omega), Bool.and_true]

/-- `r` is the first clear bit from `lo` on. -/
structure IsFirst (b : BitMap) (lo r : Nat) : Prop where
  le : lo ≤ r
  clear : b.getBit r = false
  set : ∀ j, lo ≤ j → j < r → b.getBit j = true

theorem scan_spec {ws : List (BitVec 64)} {i : Nat} (hi : addr / 64 ≤ i) (hws : ws = b.bv.drop i) :
    match scan (addr / 64) (stmask (addr % 64)) ws i with
    | none => ∀ j, max addr (i * 64) ≤ j → j < 64 * b.bv.length → b.getBit j = true
    | some r => b.IsFirst (max addr (i * 64)) r := by
  induction ws generalizing i with
  | nil =>
    intro j hle hlt
    have := drop_eq_nil_iff.1 hws.symm
    omega
  | cons w ws ih =>
    have hlt : i < b.bv.length := by
      by_contra hge
      rw [drop_eq_nil_of_le (Nat.le_of_not_lt hge)] at hws
      cases hws
    rw [drop_eq_getElem_cons hlt, cons.injEq] at hws
    obtain ⟨hw, hws⟩ := hws
    have hbit : ∀ j < 64, b.getBit (i * 64 + j) = w.getLsbD j := by
      intro j hj
      rw [getBit_eq, show (i * 64 + j) / 64 = i by omega, show (i * 64 + j) % 64 = j by omega,
        getD_eq_getElem?_getD, getElem?_eq_getElem hlt, getD_some, hw]
    obtain ⟨pos, hdef⟩ : ∃ pos, pos = if i = addr / 64 then (w ^^^ onemask) &&& stmask (addr % 64) else w ^^^ onemask :=
      ⟨_, rfl⟩
    have hpos : ∀ j < 64, pos.getLsbD j = (!b.getBit (i * 64 + j) && decide (addr ≤ i * 64 + j)) := by
      intro j hj
      rw [hdef, getLsbD_pos hi hj, hbit j hj]
    have hscan : scan (addr / 64) (stmask (addr % 64)) (w :: ws) i = if pos ≠ 0 then
        some (i * 64 + firstOne 7 unit onemask pos 0) else scan (addr / 64) (stmask (addr % 64)) ws (i + 1) := by
      rw [hdef]
      rfl
    -- a bit of this word that is not searched for is set or lies before the start
    have hset : ∀ j < 64, pos.getLsbD j = false → addr ≤ i * 64 + j → b.getBit (i * 64 + j) = true := by
      intro j hj hfalse hle
      rw [hpos j hj, decide_eq_true hle] at hfalse
      simpa using hfalse
    rw [hscan]
    by_cases hne : pos ≠ 0
    · obtain ⟨d, hd⟩ := exists_isLowest hne
      have hclear := hd.1
      rw [hpos d hd.lt, Bool.and_eq_true, decide_eq_true_eq, Bool.not_eq_true'] at hclear
      rw [if_pos hne, firstOne_unit hd]
      refine ⟨by omega, hclear.1, fun j hle hlt => ?_⟩
      have hsub : j = i * 64 + (j - i * 64) := by omega
      rw [hsub]
      have := hd.lt
      exact hset _ (by omega) (hd.2 _ (by omega)) (by omega)
    · have hzero : ∀ j, pos.getLsbD j = false := fun j => by
        rw [not_not.1 hne, BitVec.ofNat_eq_ofNat, BitVec.getLsbD_zero]
      have hword : ∀ j, max addr (i * 64) ≤ j → j < (i + 1) * 64 → b.getBit j = true := by
        intro j hle hlt
        have hsub : j = i * 64 + (j - i * 64) := by omega
        rw [hsub]
        exact hset _ (by omega) (hzero _) (by omega)
      rw [if_neg hne]
      have hrest := ih (by omega) hws
      split at hrest
      · intro j hle hlt
        by_cases hj : j < (i + 1) * 64
        · exact hword j hle hj
        · exact hrest j (by omega) hlt
      · refine ⟨by have := hrest.le; omega, hrest.clear, fun j hle hlt => ?_⟩
        by_cases hj : j < (i + 1) * 64
        · exact hword j hle hj
        · exact hrest.set j (by omega) hlt

theorem getFirstZeroSince_eq : b.getFirstZeroSince addr = (range' addr (b.size - addr)).find? fun c => !b.getBit c := by
  have hspec := @scan_spec b addr _ _ (Nat.le_refl _) rfl
  have hmax : max addr (addr / 64 * 64) = addr := by omega
  have hsize := b.size_le
  rw [getFirstZeroSince]
  simp only [unit]
  rw [hmax] at hspec
  split at hspec
  · refine (find?_range'_eq_none.2 fun j hle hlt => ?_).symm
    rw [hspec j hle (by omega)]
    rfl
  · split
    · rename_i hge
      refine (find?_range'_eq_none.2 fun j hle hlt => ?_).symm
      rw [hspec.set j hle (by omega)]
      rfl
    · rename_i hlt
      have hle := hspec.le
      refine (find?_range'_eq_some.2 ⟨by rw [hspec.clear]; rfl, mem_range'_1.2 ⟨hle, by omega⟩,
        fun j hj hjr => ?_⟩).symm
      rw [hspec.set j hj hjr]
      rfl

end BitMap

end ValueSep.HashKV
