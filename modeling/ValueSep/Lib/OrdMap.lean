import Mathlib.Data.List.Nodup
import Mathlib.Order.Lattice

/-!
# Finite maps with their entries in key order

What a program iterates over when it walks a `std::map`: a list of entries with strictly increasing keys. The one
operation is `alter`, insertion and update in one; `find?_alter` says what it does and `mem_entries` ties the
entries to the lookups.
-/

namespace ValueSep

open List Prod

structure OrdMap (κ β : Type*) [LinearOrder κ] where
  entries : List (κ × β)
  sorted : (entries.map fst).Pairwise (· < ·)

namespace OrdMap

variable {κ β γ : Type*} [LinearOrder κ]

instance [DecidableEq β] : DecidableEq (OrdMap κ β) := fun a b =>
  decidable_of_iff (a.entries = b.entries) (by cases a; cases b; simp)

def empty : OrdMap κ β := ⟨[], List.Pairwise.nil⟩

def keys (m : OrdMap κ β) : List κ := m.entries.map fst

def findIn (k : κ) : List (κ × β) → Option β
  | [] => none
  | (k', v) :: es => if k = k' then some v else findIn k es

def find? (m : OrdMap κ β) (k : κ) : Option β := findIn k m.entries

/-- The entry of `k` becomes `f` of what it was. -/
def alterIn (k : κ) (f : Option β → β) : List (κ × β) → List (κ × β)
  | [] => [(k, f none)]
  | (k', v) :: es =>
    if k = k' then (k', f (some v)) :: es
    else if k < k' then (k, f none) :: (k', v) :: es
    else (k', v) :: alterIn k f es

variable {k k' : κ} {v : β} {f : Option β → β} {es : List (κ × β)}

theorem mem_keys_alterIn {x : κ} (h : x ∈ (alterIn k f es).map fst) : x = k ∨ x ∈ es.map fst := by
  induction es with
  | nil => simpa [alterIn] using h
  | cons e es ih =>
    unfold alterIn at h
    split at h
    · exact .inr (by simpa using h)
    · split at h
      · simpa using h
      · rcases mem_cons.1 h with rfl | h
        · exact .inr (mem_cons_self ..)
        · exact (ih h).imp_right (mem_cons_of_mem _)

theorem sorted_alterIn (h : (es.map fst).Pairwise (· < ·)) : ((alterIn k f es).map fst).Pairwise (· < ·) := by
  induction es with
  | nil => simp [alterIn]
  | cons e es ih =>
    rw [map_cons, pairwise_cons] at h
    unfold alterIn
    split
    · rw [map_cons, pairwise_cons]; exact h
    next hne =>
      split
      next hlt =>
        rw [map_cons, pairwise_cons]
        refine ⟨?_, by rw [map_cons, pairwise_cons]; exact h⟩
        intro x hx
        rcases mem_cons.1 hx with rfl | hx
        · exact hlt
        · exact hlt.trans (h.1 x hx)
      next hnlt =>
        rw [map_cons, pairwise_cons]
        refine ⟨?_, ih h.2⟩
        intro x hx
        rcases mem_keys_alterIn hx with rfl | hx
        · exact lt_of_le_of_ne (not_lt.1 hnlt) (Ne.symm hne)
        · exact h.1 x hx

def alter (m : OrdMap κ β) (k : κ) (f : Option β → β) : OrdMap κ β := ⟨alterIn k f m.entries, sorted_alterIn m.sorted⟩

theorem findIn_eq_none (h : k ∉ es.map fst) : findIn k es = none := by
  induction es with
  | nil => rfl
  | cons e es ih =>
    simp only [map_cons, mem_cons, not_or] at h
    unfold findIn
    rw [if_neg h.1]
    exact ih h.2

/-- A fold in which each step changes what is seen at its own key only. -/
theorem foldl_view {σ γ : Type*} {w : σ → κ → γ} {step : σ → κ × β → σ} {g : β → γ → γ}
    (hstep : ∀ s p k, w (step s p) k = if k = p.1 then g p.2 (w s k) else w s k)
    (h : (es.map fst).Nodup) (s : σ) (k : κ) :
    w (es.foldl step s) k = (findIn k es).elim (w s k) fun v => g v (w s k) := by
  induction es generalizing s with
  | nil => rfl
  | cons p es ih =>
    rw [map_cons, nodup_cons] at h
    rw [foldl_cons, ih h.2, hstep]
    by_cases hk : k = p.1
    · subst hk
      simp only [findIn, findIn_eq_none h.1, if_true, Option.elim]
    · simp only [findIn, if_neg hk]

theorem findIn_alterIn (h : (es.map fst).Pairwise (· < ·)) :
    findIn k' (alterIn k f es) = if k' = k then some (f (findIn k es)) else findIn k' es := by
  induction es with
  | nil => simp [alterIn, findIn]
  | cons e es ih =>
    obtain ⟨k₀, v⟩ := e
    rw [map_cons, pairwise_cons] at h
    unfold alterIn
    split
    next heq =>
      subst heq
      simp only [findIn, if_true]
      split <;> rfl
    next hne =>
      split
      next hlt =>
        -- `k` comes before all the keys there are
        have hnone : findIn k ((k₀, v) :: es) = none := by
          refine findIn_eq_none ?_
          rw [map_cons, mem_cons, not_or]
          exact ⟨hne, fun hmem => lt_irrefl k (hlt.trans (h.1 k hmem))⟩
        rw [hnone, findIn]
      · simp only [findIn, if_neg hne, ih h.2]
        by_cases hk : k' = k₀
        · subst hk; simp [Ne.symm hne]
        · simp [hk]

theorem find?_alter (m : OrdMap κ β) (k k' : κ) (f : Option β → β) :
    (m.alter k f).find? k' = if k' = k then some (f (m.find? k)) else m.find? k' := findIn_alterIn m.sorted

@[simp] theorem find?_alter_self (m : OrdMap κ β) (k : κ) (f : Option β → β) :
    (m.alter k f).find? k = some (f (m.find? k)) := by rw [find?_alter, if_pos rfl]

theorem find?_alter_of_ne (m : OrdMap κ β) (f : Option β → β) (h : k' ≠ k) : (m.alter k f).find? k' = m.find? k' := by rw [find?_alter, if_neg h]

@[simp] theorem find?_empty (k : κ) : (empty : OrdMap κ β).find? k = none := rfl

theorem nodup_keys (m : OrdMap κ β) : m.keys.Nodup := m.sorted.imp ne_of_lt

theorem mem_findIn (h : (es.map fst).Nodup) : (k, v) ∈ es ↔ findIn k es = some v := by
  induction es with
  | nil => simp [findIn]
  | cons e es ih =>
    obtain ⟨k₀, v₀⟩ := e
    rw [map_cons, nodup_cons] at h
    unfold findIn
    split
    next heq =>
      subst heq
      constructor
      · intro hmem
        rcases mem_cons.1 hmem with heq | hmem
        · cases heq; rfl
        · exact absurd (mem_map.2 ⟨_, hmem, rfl⟩) h.1
      · intro hv; cases hv; exact mem_cons_self ..
    next hne =>
      rw [mem_cons, ih h.2]
      exact or_iff_right fun heq => hne (congrArg fst heq)

theorem mem_entries (m : OrdMap κ β) : (k, v) ∈ m.entries ↔ m.find? k = some v := mem_findIn m.nodup_keys

theorem mem_keys (m : OrdMap κ β) : k ∈ m.keys ↔ (m.find? k).isSome := by
  simp only [keys, mem_map, Option.isSome_iff_exists]
  constructor
  · rintro ⟨⟨k', v⟩, hmem, rfl⟩; exact ⟨v, m.mem_entries.1 hmem⟩
  · rintro ⟨v, hv⟩; exact ⟨(k, v), m.mem_entries.2 hv, rfl⟩

/-- Every value, under its key, becomes `g` of what it was. -/
def map (g : κ → β → γ) (m : OrdMap κ β) : OrdMap κ γ :=
  ⟨m.entries.map fun e => (e.1, g e.1 e.2), by
    rw [List.map_map]
    exact m.sorted⟩

theorem findIn_map (g : κ → β → γ) (es : List (κ × β)) :
    findIn k (es.map fun e => (e.1, g e.1 e.2)) = (findIn k es).map (g k) := by
  induction es with
  | nil => rfl
  | cons e es ih =>
    rw [map_cons, findIn, findIn]
    split
    next heq => rw [heq]; rfl
    · exact ih

theorem find?_map (g : κ → β → γ) (m : OrdMap κ β) (k : κ) : (m.map g).find? k = (m.find? k).map (g k) :=
  findIn_map g m.entries

end OrdMap

end ValueSep
