import Mathlib.Data.List.Perm.Basic
import Mathlib.Data.List.TakeWhile
import Mathlib.Data.List.Pairwise
import ValueSep.Lib.Cursor
import Mathlib.Order.Compare

/-!
# Multimaps in the order of a comparison

A `std::multimap` as the list that a program walks: its keys never decrease, and equal keys keep the order in which
they came. `erase` is the loop over `equal_range` that stops at the first entry it looks for, and `walk` a loop from
one position to another.
-/

namespace ValueSep

open List

structure Multimap (κ β : Type*) (cmp : κ → κ → Ordering) where
  entries : List (κ × β)
  sorted : entries.Pairwise fun a b => cmp a.1 b.1 ≠ .gt

namespace Multimap

variable {κ β : Type*} {cmp : κ → κ → Ordering}

def empty : Multimap κ β cmp := ⟨[], List.Pairwise.nil⟩

/-- Behind every entry that is not greater. -/
def insertIn (cmp : κ → κ → Ordering) (k : κ) (v : β) : List (κ × β) → List (κ × β)
  | [] => [(k, v)]
  | e :: es => if cmp k e.1 = .lt then (k, v) :: e :: es else e :: insertIn cmp k v es

/-- From the lower bound of `k` to its upper bound. -/
def eraseIn (cmp : κ → κ → Ordering) (k : κ) (p : β → Bool) : List (κ × β) → List (κ × β)
  | [] => []
  | e :: es =>
    match cmp e.1 k with
    | .lt => e :: eraseIn cmp k p es
    | .eq => if p e.2 then es else e :: eraseIn cmp k p es
    | .gt => e :: es

variable {k : κ} {v : β} {p : β → Bool} {es : List (κ × β)}

theorem perm_insertIn : (insertIn cmp k v es).Perm ((k, v) :: es) := by
  induction es with
  | nil => exact .refl _
  | cons e es ih =>
    unfold insertIn
    split
    · exact .refl _
    · exact (ih.cons e).trans (.swap ..)

theorem eraseIn_sublist : (eraseIn cmp k p es).Sublist es := by
  induction es with
  | nil => exact .slnil
  | cons e es ih =>
    unfold eraseIn
    split
    · exact ih.cons_cons e
    · split
      · exact sublist_cons_self e es
      · exact ih.cons_cons e
    · exact .refl _

/-- An entry with the key is found if the list is sorted, and erased if it is the only one looked for. -/
theorem perm_eraseIn [Std.ReflCmp cmp] (hsorted : es.Pairwise fun a b => cmp a.1 b.1 ≠ .gt)
    (hmem : (k, v) ∈ es) (hv : p v = true) (honly : ∀ e ∈ es, p e.2 = true → e = (k, v)) :
    es.Perm ((k, v) :: eraseIn cmp k p es) := by
  have hself : cmp k k = .eq := Std.ReflCmp.compare_self
  induction es with
  | nil => cases hmem
  | cons e es ih =>
    obtain ⟨hfirst, hrest⟩ := pairwise_cons.1 hsorted
    have ih' (hne : e ≠ (k, v)) : (e :: es).Perm ((k, v) :: e :: eraseIn cmp k p es) := by
      have hmem' := (mem_cons.1 hmem).resolve_left fun h => hne h.symm
      exact ((ih hrest hmem' fun e' he' => honly e' (mem_cons_of_mem _ he')).cons e).trans (.swap ..)
    unfold eraseIn
    split
    next hlt =>
      refine ih' ?_
      rintro rfl
      rw [hself] at hlt
      cases hlt
    next heq =>
      split
      next hp =>
        rw [honly e (mem_cons_self ..) hp]
      next hp =>
        refine ih' ?_
        rintro rfl
        exact hp hv
    next hgt =>
      rcases mem_cons.1 hmem with rfl | hmem'
      · rw [hself] at hgt
        cases hgt
      · exact absurd hgt (hfirst _ hmem')

section order

variable [Std.TransCmp cmp]

theorem sorted_insertIn (hsorted : es.Pairwise fun a b => cmp a.1 b.1 ≠ .gt) :
    (insertIn cmp k v es).Pairwise fun a b => cmp a.1 b.1 ≠ .gt := by
  induction es with
  | nil => exact pairwise_singleton ..
  | cons e es ih =>
    obtain ⟨hfirst, hrest⟩ := pairwise_cons.1 hsorted
    unfold insertIn
    split
    next hlt =>
      refine pairwise_cons.2 ⟨fun e' he' => ?_, hsorted⟩
      rcases mem_cons.1 he' with rfl | he'
      · rw [hlt]
        nofun
      · have hle := Std.TransCmp.lt_of_lt_of_isLE hlt (Ordering.isLE_iff_ne_gt.2 (hfirst e' he'))
        rw [hle]
        nofun
    next hge =>
      refine pairwise_cons.2 ⟨fun e' he' => ?_, ih hrest⟩
      rcases mem_cons.1 (perm_insertIn.mem_iff.1 he') with rfl | he'
      · intro hgt
        exact hge (Std.OrientedCmp.gt_iff_lt.1 hgt)
      · exact hfirst e' he'

def insert (m : Multimap κ β cmp) (k : κ) (v : β) : Multimap κ β cmp :=
  ⟨insertIn cmp k v m.entries, sorted_insertIn m.sorted⟩

theorem perm_insert (m : Multimap κ β cmp) : (m.insert k v).entries.Perm ((k, v) :: m.entries) := perm_insertIn

end order

def erase (m : Multimap κ β cmp) (k : κ) (p : β → Bool) : Multimap κ β cmp :=
  ⟨eraseIn cmp k p m.entries, m.sorted.sublist eraseIn_sublist⟩

theorem perm_erase [Std.ReflCmp cmp] (m : Multimap κ β cmp) (hmem : (k, v) ∈ m.entries) (hv : p v = true)
    (honly : ∀ e ∈ m.entries, p e.2 = true → e = (k, v)) : m.entries.Perm ((k, v) :: (m.erase k p).entries) :=
  perm_eraseIn m.sorted hmem hv honly

/-! ### Walking between two bounds -/

/-- In a list where `p` holds of the front only, the elements with `p` are that front. -/
theorem filter_eq_takeWhile {α : Type*} {p : α → Bool} {l : List α} (h : l.Pairwise fun a b => p b = true → p a = true) :
    l.filter p = l.takeWhile p := by
  induction l with
  | nil => rfl
  | cons a l ih =>
    obtain ⟨hfirst, hrest⟩ := pairwise_cons.1 h
    by_cases ha : p a = true
    · rw [filter_cons_of_pos ha, takeWhile_cons_of_pos ha, ih hrest]
    · rw [filter_cons_of_neg ha, takeWhile_cons_of_neg ha]
      exact filter_eq_nil_iff.2 fun b hb hpb => ha (hfirst b hb hpb)

theorem filter_not_eq_dropWhile {α : Type*} {p : α → Bool} {l : List α}
    (h : l.Pairwise fun a b => p b = true → p a = true) : (l.filter fun a => !p a) = l.dropWhile p := by
  rw [← Cursor.dropWhile_eq_filter h fun a b hab => by simpa using mt hab]
  simp only [Bool.not_not]

/-- The position of the first entry that is not less. -/
def lowerBound (m : Multimap κ β cmp) (k : κ) : Nat := (m.entries.takeWhile fun e => cmp e.1 k == .lt).length

/-- The position of the first entry that is greater. -/
def upperBound (m : Multimap κ β cmp) (k : κ) : Nat := (m.entries.takeWhile fun e => cmp e.1 k != .gt).length

/-- What a loop sees that starts at position `i` and ends when it is at position `j`; it does not end if it starts
behind it. -/
def walk (m : Multimap κ β cmp) (i j : Nat) : Option (List (κ × β)) :=
  if i ≤ j then some ((m.entries.take j).drop i) else none

/-- Two conditions that hold of a front of the list each, the first of a shorter one. -/
theorem drop_take_takeWhile {α : Type*} {p q : α → Bool} {l : List α}
    (hp : l.Pairwise fun a b => p b = true → p a = true) (hq : l.Pairwise fun a b => q b = true → q a = true)
    (hpq : ∀ a ∈ l, p a = true → q a = true) :
    (l.takeWhile p).length ≤ (l.takeWhile q).length ∧
      (l.take (l.takeWhile q).length).drop (l.takeWhile p).length = l.filter fun a => !p a && q a := by
  have hfront : (l.takeWhile q).takeWhile p = l.takeWhile p := by
    rw [← filter_eq_takeWhile hq, ← filter_eq_takeWhile hp, ← filter_eq_takeWhile (hp.sublist filter_sublist),
      filter_filter]
    exact filter_congr fun a ha => by
      cases hpa : p a
      · rfl
      · rw [hpq a ha hpa]; rfl
  have htake : l.take (l.takeWhile q).length = l.takeWhile q :=
    (prefix_iff_eq_take.1 (List.takeWhile_prefix q)).symm
  constructor
  · rw [← hfront]
    exact (List.takeWhile_prefix p).length_le
  · have hsplit : (l.takeWhile q).drop (l.takeWhile p).length = (l.takeWhile q).dropWhile p := by
      rw [← hfront]
      nth_rewrite 2 [← takeWhile_append_dropWhile (p := p) (l := l.takeWhile q)]
      exact drop_left
    rw [htake, hsplit, ← filter_eq_takeWhile hq, ← filter_not_eq_dropWhile (hp.sublist filter_sublist),
      filter_filter]

/-- The walk from the lower bound of `lo` to the upper bound of `hi`, where a bound that is missing is the end on its
side. -/
theorem walk_eq_filter [Std.TransCmp cmp] (m : Multimap κ β cmp) {lo hi : Option κ}
    (h : ∀ a ∈ lo, ∀ b ∈ hi, cmp a b ≠ .gt) :
    m.walk (lo.elim 0 m.lowerBound) (hi.elim m.entries.length m.upperBound) =
      some (m.entries.filter fun e => (lo.all fun a => cmp e.1 a != .lt) && hi.all fun b => cmp e.1 b != .gt) := by
  let p (e : κ × β) : Bool := lo.any fun a => cmp e.1 a == .lt
  let q (e : κ × β) : Bool := hi.all fun b => cmp e.1 b != .gt
  have hi_eq : hi.elim m.entries.length m.upperBound = (m.entries.takeWhile q).length := by
    cases hi with
    | none =>
      have hall : m.entries.takeWhile q = m.entries := takeWhile_eq_self_iff.2 fun _ _ => rfl
      rw [hall]
      rfl
    | some b => rfl
  have hlo_eq : lo.elim 0 m.lowerBound = (m.entries.takeWhile p).length := by
    cases lo with
    | none =>
      have hnone : m.entries.takeWhile p = [] := takeWhile_eq_nil_iff.2 fun _ => Bool.false_ne_true
      rw [hnone]
      rfl
    | some a => rfl
  have hp : m.entries.Pairwise fun e e' => p e' = true → p e = true := by
    refine m.sorted.imp fun {e e'} hle hlt => ?_
    cases lo with
    | none => cases hlt
    | some a =>
      have hlt' : cmp e'.1 a = .lt := by simpa [p] using hlt
      simpa [p] using Std.TransCmp.lt_of_isLE_of_lt (Ordering.isLE_iff_ne_gt.2 hle) hlt'
  have hq : m.entries.Pairwise fun e e' => q e' = true → q e = true := by
    refine m.sorted.imp fun {e e'} hle hle' => ?_
    cases hi with
    | none => rfl
    | some b =>
      have hle' : cmp e'.1 b ≠ .gt := by simpa [q] using hle'
      have htrans := Std.TransCmp.isLE_trans (Ordering.isLE_iff_ne_gt.2 hle) (Ordering.isLE_iff_ne_gt.2 hle')
      simpa [q] using Ordering.isLE_iff_ne_gt.1 htrans
  have hpq : ∀ e ∈ m.entries, p e = true → q e = true := by
    intro e _ hlt
    cases lo with
    | none => cases hlt
    | some a =>
      cases hi with
      | none => rfl
      | some b =>
        have hlt' : cmp e.1 a = .lt := by simpa [p] using hlt
        have := Std.TransCmp.lt_of_lt_of_isLE hlt' (Ordering.isLE_iff_ne_gt.2 (h a rfl b rfl))
        simp [q, this]
  obtain ⟨hle, heq⟩ := drop_take_takeWhile hp hq hpq
  rw [walk, hi_eq, hlo_eq, if_pos hle, heq]
  refine congrArg some (filter_congr fun e _ => ?_)
  cases lo with
  | none => rfl
  | some a => simp [p, q, bne]

end Multimap

end ValueSep
