import Mathlib.Data.List.Perm.Basic
import Mathlib.Data.List.Flatten

/-!
# Merging several sources through a heap

`Merges le sources out`: `out` comes from taking, again and again, a least head among the sources and putting
the source back while it has more. Which of several least heads is taken is left open. A heap that implements
the choice is a `HeapPolicy`.
-/

namespace ValueSep.Merge

open List

variable {α ι : Type*} {le : α → α → Prop}

/-- A source goes back when it is not exhausted. -/
def push (source : List α) (sources : List (List α)) : List (List α) :=
  if source = [] then sources else source :: sources

theorem flatten_push (source : List α) (sources : List (List α)) :
    (push source sources).flatten = source ++ sources.flatten := by
  unfold push
  split
  next h => rw [h, nil_append]
  next => rfl

variable {sources : List (List α)} {out : List α}

theorem mem_of_mem_push {source l : List α} (h : l ∈ push source sources) : l = source ∨ l ∈ sources := by
  unfold push at h
  split at h
  · exact .inr h
  · exact mem_cons.1 h

inductive Merges (le : α → α → Prop) : List (List α) → List α → Prop
  | nil : Merges le [] []
  | cons {a : α} {as out : List α} {rest sources : List (List α)} :
    ((a :: as) :: rest).Perm sources → (∀ l ∈ rest, ∀ b ∈ l.head?, le a b) → Merges le (push as rest) out →
    Merges le sources (a :: out)

theorem Merges.of_perm {sources sources' : List (List α)} (h : Merges le sources out)
    (hp : sources.Perm sources') : Merges le sources' out := by
  cases h with
  | nil => rw [hp.nil_eq.symm]; exact .nil
  | cons hs hle hm => exact .cons (hs.trans hp) hle hm

theorem Merges.perm (h : Merges le sources out) : out.Perm sources.flatten := by
  induction h with
  | nil => exact .refl _
  | @cons a as out rest sources hp _ _ ih =>
    calc (a :: out).Perm (a :: (push as rest).flatten) := ih.cons a
      _ = ((a :: as) :: rest).flatten := by rw [flatten_push]; rfl
      List.Perm _ sources.flatten := hp.flatten

theorem Merges.pairwise [IsTrans α le] (h : Merges le sources out)
    (hs : ∀ l ∈ sources, l.Pairwise le) : out.Pairwise le := by
  induction h with
  | nil => exact .nil
  | @cons a as out rest sources hp hle hm ih =>
    have hs' : ∀ l ∈ (a :: as) :: rest, l.Pairwise le := fun l hl => hs l (hp.mem_iff.1 hl)
    have hhead : (a :: as).Pairwise le := hs' _ (mem_cons_self ..)
    refine .cons ?_ (ih ?_)
    · -- what comes out later is behind `a` in its own source or behind another source's head
      intro b hb
      have hb' : b ∈ as ++ rest.flatten := by
        rw [← flatten_push]; exact hm.perm.mem_iff.1 hb
      rcases mem_append.1 hb' with hb | hb
      · exact rel_of_pairwise_cons hhead hb
      · obtain ⟨l, hl, hbl⟩ := mem_flatten.1 hb
        cases l with
        | nil => cases hbl
        | cons c l =>
          have hac : le a c := hle _ hl c rfl
          rcases mem_cons.1 hbl with rfl | hbl
          · exact hac
          · have hcl := hs' _ (mem_cons_of_mem _ hl)
            exact IsTrans.trans _ _ _ hac (rel_of_pairwise_cons hcl hbl)
    · intro l hl
      rcases mem_of_mem_push hl with rfl | hl
      · exact hhead.of_cons
      · exact hs' l (mem_cons_of_mem _ hl)

/-- A heap by what `top` and `pop` give: a least element and the others. -/
structure HeapPolicy (le : ι → ι → Prop) where
  pop : List ι → Option (ι × List ι)
  nil_of_pop : ∀ {heap}, pop heap = none → heap = []
  perm : ∀ {heap x rest}, pop heap = some (x, rest) → (x :: rest).Perm heap
  least : ∀ {heap x rest}, pop heap = some (x, rest) → ∀ y ∈ rest, le x y

/-- Takes the first of the least elements. -/
def popFirst (le : ι → ι → Prop) [DecidableRel le] : List ι → Option (ι × List ι)
  | [] => none
  | x :: heap =>
    match popFirst le heap with
    | none => some (x, [])
    | some (y, rest) => if le x y then some (x, heap) else some (y, x :: rest)

section

variable {le : ι → ι → Prop} [DecidableRel le]

theorem nil_of_popFirst {heap : List ι} (h : popFirst le heap = none) : heap = [] := by
  cases heap with
  | nil => rfl
  | cons x heap =>
    simp only [popFirst] at h
    split at h
    · cases h
    · split at h <;> cases h

theorem popFirst_spec [IsTrans ι le] [Std.Total le] {heap rest : List ι} {x : ι}
    (h : popFirst le heap = some (x, rest)) : (x :: rest).Perm heap ∧ ∀ y ∈ rest, le x y := by
  induction heap generalizing x rest with
  | nil => cases h
  | cons z heap ih =>
    simp only [popFirst] at h
    split at h
    next hn =>
      cases h
      rw [nil_of_popFirst hn]
      exact ⟨.refl _, nofun⟩
    next y rest' hsome =>
      obtain ⟨hp, hle⟩ := ih hsome
      split at h
      next hzy =>
        cases h
        refine ⟨.refl _, fun w hw => ?_⟩
        rcases mem_cons.1 (hp.mem_iff.2 hw) with rfl | hw
        · exact hzy
        · exact IsTrans.trans _ _ _ hzy (hle w hw)
      next hzy =>
        cases h
        refine ⟨(List.Perm.swap ..).trans (hp.cons z), fun w hw => ?_⟩
        rcases mem_cons.1 hw with rfl | hw
        · exact (Std.Total.total w x).resolve_left hzy
        · exact hle w hw

/-- The heap that takes the first of the least elements. -/
def HeapPolicy.first (le : ι → ι → Prop) [DecidableRel le] [IsTrans ι le] [Std.Total le] : HeapPolicy le where
  pop := popFirst le
  nil_of_pop := nil_of_popFirst
  perm h := (popFirst_spec h).1
  least h := (popFirst_spec h).2

end

end ValueSep.Merge
