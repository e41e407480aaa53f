import Mathlib.Data.List.Induction
import Mathlib.Data.List.Nodup

/-!
# Lists as maps under a key

A list whose elements carry their own key, used as a map: insertion that refuses a key already there
(`insertNew`), insertion that keeps the element already there (`emplace`).
-/

namespace ValueSep.Keyed

open List

variable {α κ ε : Type*} [DecidableEq κ] {key : α → κ} {err : α → ε}

def insertNew (key : α → κ) (err : α → ε) (xs : List α) (x : α) : Except ε (List α) :=
  if key x ∈ xs.map key then .error (err x) else .ok (xs ++ [x])

def emplace (key : α → κ) (xs : List α) (x : α) : List α := if key x ∈ xs.map key then xs else xs ++ [x]

omit [DecidableEq κ] in
/-- A fold whose steps all leave `g` as it was. -/
theorem foldl_frame {g : α → ε} {f : α → κ → α} (h : ∀ a b, g (f a b) = g a) (bs : List κ) (a : α) :
    g (bs.foldl f a) = g a :=
  foldlRecOn (motive := fun a' => g a' = g a) bs _ rfl fun a' ha' b _ => (h a' b).trans ha'

omit [DecidableEq κ] in
theorem foldlM_snoc_eq_ok {f : α → κ → Except ε α} {bs : List κ} {b : κ} {a a' : α} :
    (bs ++ [b]).foldlM f a = .ok a' ↔ ∃ a₁, bs.foldlM f a = .ok a₁ ∧ f a₁ b = .ok a' := by
  rw [foldlM_append]
  cases bs.foldlM f a with
  | error e => exact ⟨nofun, nofun⟩
  | ok a₁ => cases h : f a₁ b <;> simp [bind, Except.bind, pure, Except.pure, h]

theorem foldlM_insertNew_eq_ok {xs ys zs : List α} (h : ys.foldlM (insertNew key err) xs = .ok zs) : zs = xs ++ ys := by
  induction ys generalizing xs with
  | nil => cases h; simp
  | cons y ys ih =>
    rw [foldlM_cons] at h
    unfold insertNew at h
    split at h
    · cases h
    · rw [ih h]; simp

theorem nodup_of_foldlM_insertNew {xs ys zs : List α} (h : ys.foldlM (insertNew key err) xs = .ok zs)
    (hx : (xs.map key).Nodup) : (zs.map key).Nodup := by
  induction ys generalizing xs with
  | nil => cases h; exact hx
  | cons y ys ih =>
    rw [foldlM_cons] at h
    unfold insertNew at h
    split at h
    · cases h
    next hy =>
      refine ih h ?_
      rw [map_append, nodup_append]
      refine ⟨hx, nodup_singleton _, fun k hk k' hk' hkk => hy ?_⟩
      rw [← mem_singleton.1 hk', ← hkk]
      exact hk

variable {xs ys : List α}

theorem foldlM_insertNew (h : ((xs ++ ys).map key).Nodup) : ys.foldlM (insertNew key err) xs = .ok (xs ++ ys) := by
  induction ys generalizing xs with
  | nil => simp; rfl
  | cons y ys ih =>
    have hy : key y ∉ xs.map key := by
      rw [map_append, nodup_append] at h
      exact fun hm => h.2.2 _ hm _ (by simp) rfl
    rw [foldlM_cons, insertNew, if_neg hy]
    have hrest := @ih (xs ++ [y]) (by simpa using h)
    rw [append_assoc] at hrest
    exact hrest

theorem foldl_emplace (h : ((xs ++ ys).map key).Nodup) : ys.foldl (emplace key) xs = xs ++ ys := by
  induction ys generalizing xs with
  | nil => simp
  | cons y ys ih =>
    have hy : key y ∉ xs.map key := by
      rw [map_append, nodup_append] at h
      exact fun hm => h.2.2 _ hm _ (by simp) rfl
    rw [append_cons] at h ⊢
    rw [foldl_cons, emplace, if_neg hy, ih h]

theorem nodup_foldl_emplace (h : (xs.map key).Nodup) : ((ys.foldl (emplace key) xs).map key).Nodup := by
  induction ys generalizing xs with
  | nil => exact h
  | cons y ys ih =>
    rw [foldl_cons, emplace]
    split
    · exact ih h
    next hy =>
      refine ih ?_
      rw [map_append, nodup_append]
      refine ⟨h, nodup_singleton _, fun k hk k' hk' hkk => hy ?_⟩
      rw [← mem_singleton.1 hk', ← hkk]
      exact hk

theorem mem_foldl_emplace {x : α} (hinj : ∀ a ∈ xs ++ ys, ∀ b ∈ xs ++ ys, key a = key b → a = b) :
    x ∈ ys.foldl (emplace key) xs ↔ x ∈ xs ∨ x ∈ ys := by
  induction ys generalizing xs with
  | nil => simp
  | cons y ys ih =>
    rw [foldl_cons, emplace]
    split
    next hy =>
      obtain ⟨z, hz, hzy⟩ := mem_map.1 hy
      have hmem : y ∈ xs := hinj z (by simp [hz]) y (by simp) hzy ▸ hz
      rw [ih fun a ha b hb => hinj a (by simp at ha ⊢; tauto) b (by simp at hb ⊢; tauto)]
      constructor
      · rintro (h | h)
        · exact .inl h
        · exact .inr (mem_cons_of_mem _ h)
      · rintro (h | h)
        · exact .inl h
        · rcases mem_cons.1 h with rfl | h
          · exact .inl hmem
          · exact .inr h
    · rw [ih (by simpa using hinj)]
      simp [or_assoc]

omit [DecidableEq κ] in
theorem find?_of_mem [BEq κ] [LawfulBEq κ] {xs : List α} {x : α} (h : (xs.map key).Nodup) (hx : x ∈ xs) :
    xs.find? (fun y => key y == key x) = some x := by
  induction xs with
  | nil => cases hx
  | cons y ys ih =>
    rw [map_cons, nodup_cons] at h
    rcases mem_cons.1 hx with rfl | hx
    · simp
    · have hne : key y ≠ key x := fun hk => h.1 (hk ▸ mem_map_of_mem hx)
      rw [find?_cons, beq_eq_false_iff_ne.2 hne]
      exact ih h.2 hx

/-- The first element with a key is the one that is found, and the one that is kept. -/
theorem find?_foldl_emplace (xs ys : List α) (k : κ) :
    (ys.foldl (emplace key) xs).find? (fun x => key x == k) = (xs ++ ys).find? fun x => key x == k := by
  induction ys generalizing xs with
  | nil => rw [foldl_nil, append_nil]
  | cons y ys ih =>
    rw [foldl_cons, ih, emplace]
    split
    next hy =>
      rw [find?_append, find?_append, find?_cons]
      split
      next hk =>
        obtain ⟨x, hx, hxy⟩ := mem_map.1 hy
        have hsome : (xs.find? fun x => key x == k).isSome :=
          find?_isSome.2 ⟨x, hx, by rw [hxy]; exact hk⟩
        obtain ⟨z, hz⟩ := Option.isSome_iff_exists.1 hsome
        rw [hz]
        rfl
      · rfl
    · rw [append_assoc]
      rfl

end ValueSep.Keyed
