import Mathlib.Algebra.BigOperators.Group.List.Basic
import Mathlib.Algebra.GroupWithZero.Nat
import Mathlib.Data.List.Induction
import Mathlib.Data.List.Nodup

/-!
# Journals

Items laid one behind the other: `offsets` gives each item its address, `total` the space of all. Of the items with one
key the last counts (`latest`), and compaction keeps just these (`collect`), in any order.
-/

namespace ValueSep.Journal

open List Prod

variable {α β κ : Type*}

/-! ### Addresses -/

section Offsets

variable {size : α → Nat} {o p : Nat} {x : α} {xs ys : List α}

def total (size : α → Nat) (xs : List α) : Nat := (xs.map size).sum

@[simp] theorem total_nil : total size [] = 0 := rfl

@[simp] theorem total_cons : total size (x :: xs) = size x + total size xs := by simp [total]

@[simp] theorem total_append : total size (xs ++ ys) = total size xs + total size ys := by simp [total]

theorem total_perm (h : xs.Perm ys) : total size xs = total size ys := (h.map size).sum_eq

/-- The items with their addresses, from `o` on. -/
def offsets (size : α → Nat) : Nat → List α → List (Nat × α)
  | _, [] => []
  | o, x :: xs => (o, x) :: offsets size (o + size x) xs

@[simp] theorem offsets_nil : offsets size o [] = [] := rfl

theorem offsets_append : offsets size o (xs ++ ys) = offsets size o xs ++ offsets size (o + total size xs) ys := by
  induction xs generalizing o with
  | nil => simp
  | cons x xs ih => simp [offsets, ih, Nat.add_assoc]

theorem offsets_concat : offsets size o (xs ++ [x]) = offsets size o xs ++ [(o + total size xs, x)] := offsets_append

@[simp] theorem map_snd_offsets : (offsets size o xs).map snd = xs := by
  induction xs generalizing o with
  | nil => rfl
  | cons x xs ih => simp [offsets, ih]

theorem bounds_of_mem_offsets (h : (p, x) ∈ offsets size o xs) : o ≤ p ∧ p + size x ≤ o + total size xs := by
  induction xs generalizing o with
  | nil => cases h
  | cons y xs ih =>
    rcases mem_cons.1 h with h | h
    · cases h; simp
    · have := ih h
      rw [total_cons]
      omega

theorem pairwise_offsets (hpos : ∀ x, 0 < size x) : (offsets size o xs).Pairwise fun a b => a.1 < b.1 := by
  induction xs generalizing o with
  | nil => exact .nil
  | cons x xs ih =>
    refine pairwise_cons.2 ⟨fun b hb => ?_, ih⟩
    have := (bounds_of_mem_offsets hb).1
    have := hpos x
    omega

theorem map_offsets_replace {y : α} (hpos : ∀ x, 0 < size x) (hsize : size y = size x) :
    (offsets size o (xs ++ x :: ys)).map (fun p => if p.1 = o + total size xs then (p.1, y) else p) =
      offsets size o (xs ++ y :: ys) := by
  rw [offsets_append, offsets_append, map_append]
  congr 1
  · refine (map_congr_left fun p hp => ?_).trans (map_id _)
    have hle := (bounds_of_mem_offsets hp).2
    have := hpos p.2
    exact if_neg (by omega)
  · rw [offsets, offsets, map_cons, if_pos rfl, hsize]
    congr 1
    refine (map_congr_left fun p hp => ?_).trans (map_id _)
    have hle := (bounds_of_mem_offsets hp).1
    have := hpos x
    exact if_neg (by omega)

theorem mem_offsets_iff : (p, x) ∈ offsets size o xs ↔ ∃ ys zs, xs = ys ++ x :: zs ∧ p = o + total size ys := by
  constructor
  · intro h
    induction xs generalizing o with
    | nil => cases h
    | cons y xs ih =>
      rcases mem_cons.1 h with h | h
      · cases h; exact ⟨[], xs, rfl, rfl⟩
      · obtain ⟨ys, zs, rfl, rfl⟩ := ih h
        exact ⟨y :: ys, zs, rfl, by rw [total_cons]; omega⟩
  · rintro ⟨ys, zs, rfl, rfl⟩
    rw [offsets_append]
    exact mem_append_right _ (mem_cons_self ..)

end Offsets

/-! ### The last item of a key -/

section Latest

variable [DecidableEq κ] {key : α → κ} {k : κ} {x y : α} {xs ys : List α}

def latest (key : α → κ) (xs : List α) (k : κ) : Option α := xs.reverse.find? fun x => key x = k

theorem latest_append : latest key (xs ++ ys) k = (latest key ys k).or (latest key xs k) := by
  rw [latest, reverse_append, find?_append]; rfl

theorem latest_concat : latest key (xs ++ [x]) k = if key x = k then some x else latest key xs k := by
  by_cases h : key x = k <;> simp [latest, h]

theorem latest_eq_none : latest key xs k = none ↔ ∀ x ∈ xs, key x ≠ k := by
  simp [latest]

theorem mem_of_latest (h : latest key xs k = some x) : x ∈ xs := mem_reverse.1 (mem_of_find?_eq_some h)

theorem key_of_latest (h : latest key xs k = some x) : key x = k := by
  simpa using find?_some h

theorem latest_map (f : β → α) (l : List β) : latest key (l.map f) k = (latest (key ∘ f) l k).map f := by
  rw [latest, ← map_reverse, find?_map]; rfl

theorem latest_congr {key' : α → κ} (h : ∀ x ∈ xs, key' x = key x) : latest key' xs k = latest key xs k := by
  induction xs with
  | nil => rfl
  | cons x xs ih =>
    rw [← singleton_append, latest_append, ih fun y hy => h y (mem_cons_of_mem _ hy)]
    simp [latest, h x (mem_cons_self ..)]

theorem latest_isSome_of_mem (h : x ∈ xs) : ∃ y, latest key xs (key x) = some y := by
  rcases hl : latest key xs (key x) with _ | y
  · exact absurd rfl (latest_eq_none.1 hl x h)
  · exact ⟨y, rfl⟩

theorem latest_of_nodup (h : (xs.map key).Nodup) (hx : x ∈ xs) : latest key xs (key x) = some x := by
  obtain ⟨y, hy⟩ : ∃ y, latest key xs (key x) = some y := latest_isSome_of_mem hx
  rw [hy, inj_on_of_nodup_map h (mem_of_latest hy) hx (key_of_latest hy)]

theorem latest_perm (h : (ys.map key).Nodup) (hp : xs.Perm ys) : latest key xs k = latest key ys k := by
  have h' : (xs.map key).Nodup := (hp.map key).nodup_iff.2 h
  rcases hl : latest key ys k with _ | y
  · exact latest_eq_none.2 fun x hx => latest_eq_none.1 hl x (hp.mem_iff.1 hx)
  · have := latest_of_nodup h' (hp.mem_iff.2 (mem_of_latest hl))
    rwa [key_of_latest hl] at this

/-- What compaction keeps: the last item of every key. -/
def collect (key : α → κ) (xs : List α) : List α :=
  xs.foldl (fun ys x => ys.filter (fun y => key y ≠ key x) ++ [x]) []

theorem collect_concat : collect key (xs ++ [x]) = (collect key xs).filter (fun y => key y ≠ key x) ++ [x] := by
  simp [collect]

theorem latest_collect : latest key (collect key xs) k = latest key xs k := by
  induction xs using reverseRecOn with
  | nil => rfl
  | append_singleton xs x ih =>
    rw [collect_concat, latest_concat, latest_concat]
    by_cases h : key x = k
    · rw [if_pos h, if_pos h]
    · rw [if_neg h, if_neg h, ← ih]
      -- the items dropped for `x` have another key than `k`
      rw [latest, ← filter_reverse, find?_filter]
      congr 1
      funext y
      by_cases hy : key y = k
      · simp [hy, Ne.symm h]
      · simp [hy]

theorem nodup_collect : ((collect key xs).map key).Nodup := by
  induction xs using reverseRecOn with
  | nil => exact nodup_nil
  | append_singleton xs x ih =>
    rw [collect_concat, map_append, nodup_append]
    refine ⟨ih.sublist (filter_sublist.map key), by simp, ?_⟩
    intro a ha b hb
    obtain ⟨y, hy, rfl⟩ := mem_map.1 ha
    rw [map_singleton, mem_singleton] at hb
    rw [hb]
    simpa using (mem_filter.1 hy).2

theorem collect_of_nodup (h : (xs.map key).Nodup) : collect key xs = xs := by
  induction xs using reverseRecOn with
  | nil => rfl
  | append_singleton xs x ih =>
    rw [map_append, nodup_append] at h
    obtain ⟨hxs, -, hne⟩ := h
    rw [collect_concat, ih hxs, filter_eq_self.2 fun y hy => ?_]
    simpa using hne _ (mem_map_of_mem hy) (key x) (by simp)

theorem mem_of_mem_collect (h : x ∈ collect key xs) : x ∈ xs := by
  have := latest_of_nodup nodup_collect h
  rw [latest_collect] at this
  exact mem_of_latest this

variable {x y : Nat × α}

/-- In a list in the order of addresses the last item of a key is the one with the largest address. -/
theorem le_of_latest {key : Nat × α → κ} {xs : List (Nat × α)}
    (hs : xs.Pairwise fun a b => a.1 < b.1) (h : latest key xs k = some x) (hy : y ∈ xs) (hk : key y = k) :
    y.1 ≤ x.1 := by
  induction xs using reverseRecOn with
  | nil => cases hy
  | append_singleton xs z ih =>
    obtain ⟨hs', -, hlt⟩ := pairwise_append.1 hs
    rw [latest_concat] at h
    by_cases hz : key z = k
    · rw [if_pos hz, Option.some.injEq] at h
      subst h
      rcases mem_append.1 hy with hy | hy
      · exact Nat.le_of_lt (hlt y hy z (mem_singleton_self _))
      · exact Nat.le_of_eq (congrArg fst (mem_singleton.1 hy))
    · rw [if_neg hz] at h
      rcases mem_append.1 hy with hy | hy
      · exact ih hs' h hy
      · exact absurd (mem_singleton.1 hy ▸ hk) hz

theorem eq_of_mem_of_fst_eq {xs : List (Nat × α)} (hs : xs.Pairwise fun a b => a.1 < b.1)
    (hx : x ∈ xs) (hy : y ∈ xs) (heq : x.1 = y.1) : x = y := by
  have hn : (xs.map fst).Nodup := pairwise_map.2 (hs.imp Nat.ne_of_lt)
  exact inj_on_of_nodup_map hn hx hy heq

theorem latest_sublist {key : Nat × α → κ} {xs ys : List (Nat × α)} {x : Nat × α}
    (hs : xs.Pairwise fun a b => a.1 < b.1) (hsub : ys.Sublist xs) (h : latest key xs k = some x) (hx : x ∈ ys) :
    latest key ys k = some x := by
  obtain ⟨y, hy⟩ : ∃ y, latest key ys (key x) = some y := latest_isSome_of_mem hx
  rw [key_of_latest h] at hy
  have hle := le_of_latest hs h (hsub.mem (mem_of_latest hy)) (key_of_latest hy)
  have hge := le_of_latest (hs.sublist hsub) hy hx (key_of_latest h)
  rw [hy, eq_of_mem_of_fst_eq hs (hsub.mem (mem_of_latest hy)) (mem_of_latest h) (Nat.le_antisymm hle hge)]

theorem mem_suffix_of_le {xs ys : List (Nat × α)} (hs : xs.Pairwise fun a b => a.1 < b.1)
    (hsuf : ys <:+ xs) (hx : x ∈ ys) (hy : y ∈ xs) (hle : x.1 ≤ y.1) : y ∈ ys := by
  obtain ⟨zs, rfl⟩ := hsuf
  rcases mem_append.1 hy with hy | hy
  · have := (pairwise_append.1 hs).2.2 y hy x hx
    omega
  · exact hy

end Latest

end ValueSep.Journal
