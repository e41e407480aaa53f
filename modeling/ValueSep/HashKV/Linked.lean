import ValueSep.HashKV.Flushing

/-!
# Pool, tree and the map they stand for

`Linked` ties the update pool to the tree: the last record of a key in the pool is the value of the key; it waits for
its group, or the tree leads to its value already. All records of a key in the pool go the same way, so the order in
which groups are flushed does not matter.
-/

namespace ValueSep.HashKV

open Coding (Bytes)
open List Function Option Journal Record Pooled

variable {cfg : Config} {i : PoolIndex} {P : List (Record cfg)} {pend : Nat → List (Nat × Record cfg)}
  {G G' : Nat → Content cfg} {T m : Bytes → Option Bytes} {p : Pool} {g : Nat} {r : Record cfg} {k : Bytes}
  {done rest : List (Nat × Record cfg)} {x : Nat × Record cfg}

/-- The last record of a key in the pool, with its offset. -/
def lastIn (P : List (Record cfg)) (k : Bytes) : Option (Nat × Record cfg) :=
  latest (fun x => x.2.key) (offsets size 0 P) k

theorem key_of_lastIn (h : lastIn P k = some x) : x.2.key = k := by
  have := key_of_latest h
  exact this

theorem mem_of_lastIn (h : lastIn P k = some x) : x ∈ offsets size 0 P := mem_of_latest h

theorem mem_of_mem_offsets (h : x ∈ offsets size 0 P) : x.2 ∈ P := by
  have := mem_map_of_mem (f := Prod.snd) h
  rwa [map_snd_offsets] at this

/-- A record overwritten by one of its key and length is the last of its key where it was before. -/
theorem lastIn_swap {A B : List (Record cfg)} {r₀ : Record cfg} (hkey : r.key = r₀.key)
    (hlen : r.value.length = r₀.value.length) :
    lastIn (A ++ r :: B) k = (lastIn (A ++ r₀ :: B) k).map (swap (total size A) r) := by
  rw [lastIn, offsets_swap hlen, latest_map]
  congr 1
  exact latest_congr fun x hx => (swap_eq hkey hlen hx).1

structure Linked (cfg : Config) (P : List (Record cfg)) (pend : Nat → List (Nat × Record cfg)) (G : Nat → Content cfg)
    (T m : Bytes → Option Bytes) : Prop where
  kind : ∀ r ∈ P, ∀ r' ∈ P, r.key = r'.key → r.home = r'.home
  lsm : ∀ x ∈ pend lsmSegment, recordOf G x.2.key = none
  group : ∀ g, g ≠ lsmSegment → pend g ≠ [] → G g ≠ []
  settled : ∀ k x, lastIn P k = some x → x ∈ pend x.2.home ∨ T k = some x.2.value
  value : ∀ k, m k = settle (offsets size 0 P) T k

namespace Linked

theorem init : Linked cfg [] (fun _ => []) G (fun _ => none) (fun _ => none) where
  kind _ h := by cases h
  lsm _ h := by cases h
  group _ _ h := absurd rfl h
  settled _ _ h := by cases h
  value _ := rfl

section
variable (h : Linked cfg P pend G T m)
include h

theorem value_of_lastIn (hk : lastIn P k = some x) : m k = some x.2.value := by
  rw [h.value, settle, show latest _ _ k = some x from hk]; rfl

theorem value_of_none (hk : lastIn P k = none) : m k = T k := by
  rw [h.value, settle, show latest _ _ k = none from hk]; rfl

/-- Some of the records that wait for `g` reach it. -/
theorem advance (hpool : Pooled cfg i P pend p) (hsplit : pend g = done ++ rest)
    (hnonempty : ∀ g', G g' ≠ [] → G' g' ≠ [])
    (habsent : ∀ k, recordOf G k = none → (∀ x ∈ done, x.2.home ≠ lsmSegment → x.2.key ≠ k) → recordOf G' k = none) :
    Linked cfg P (update pend g rest) G' (settle done T) m := by
  have hdone : ∀ x ∈ done, x ∈ pend g := fun x hx => hsplit ▸ mem_append_left _ hx
  have hsub : ∀ g', ∀ x ∈ update pend g rest g', x ∈ pend g' := by
    intro g' x hx
    by_cases hg : g' = g
    · subst hg
      rw [update_self] at hx
      exact hsplit ▸ mem_append_right _ hx
    · rwa [update_of_ne hg] at hx
  refine ⟨h.kind, fun x hx => ?_, fun g' hg' hne => ?_, fun k x hx => ?_, fun k => ?_⟩
  · refine habsent _ (h.lsm x (hsub _ x hx)) fun y hy hlsm hkey => hlsm ?_
    rw [h.kind _ (hpool.mem_records (hdone y hy)) _ (hpool.mem_records (hsub _ x hx)) hkey]
    exact hpool.home (hsub _ x hx)
  · refine hnonempty g' (h.group g' hg' fun hnil => hne ?_)
    rw [eq_nil_iff_forall_not_mem]
    intro x hx
    have := hsub g' x hx
    rw [hnil] at this
    cases this
  · have hkey := key_of_lastIn hx
    by_cases hmem : x ∈ pend x.2.home
    · by_cases hg : x.2.home = g
      · rw [hg] at hmem ⊢
        rw [update_self]
        rw [hsplit] at hmem
        rcases mem_append.1 hmem with hmem | hmem
        · -- it was the last of its key among those flushed
          have hsubl : done.Sublist (offsets size 0 P) :=
            (hsplit ▸ sublist_append_left done rest : done.Sublist (pend g)).trans (hpool.sublist g)
          have hl : latest (fun x => x.2.key) done k = some x :=
            latest_sublist (sorted P) hsubl hx hmem
          exact .inr (by rw [settle, hl]; rfl)
        · exact .inl hmem
      · rw [update_of_ne hg]
        exact .inl hmem
    · -- no record of the key waits, so none was flushed
      have hT := (h.settled k x hx).resolve_left hmem
      refine .inr ?_
      have hl : latest (fun x => x.2.key) done k = none := by
        refine latest_eq_none.2 fun y hy hyk => hmem ?_
        have hy' := hdone y hy
        have hhome : x.2.home = g := by
          rw [← hpool.home hy']
          exact h.kind _ (mem_of_mem_offsets (mem_of_lastIn hx)) _ (hpool.mem_records hy') (hkey.trans hyk.symm)
        rw [hhome]
        exact hpool.mem_of_le hy' (mem_of_lastIn hx) hhome
          (le_of_latest (sorted P) hx (hpool.mem_filter hy').1 hyk)
      rw [settle, hl]
      exact hT
  · rw [h.value, ← settle_append, settle, settle, latest_append]
    rcases hx : latest (fun x => x.2.key) (offsets size 0 P) k with _ | x
    · have hl : latest (fun x => x.2.key) done k = none := by
        refine latest_eq_none.2 fun y hy => ?_
        exact latest_eq_none.1 hx y (hpool.mem_filter (hdone y hy)).1
      rw [hl, or_none]
    · rw [hx]; rfl

theorem reset (hpend : ∀ g, pend g = []) : Linked cfg [] (fun _ => []) G T m where
  kind _ h := by cases h
  lsm _ h := by cases h
  group _ _ h := absurd rfl h
  settled _ _ h := by cases h
  value k := by
    show m k = T k
    rcases hx : lastIn P k with _ | x
    · exact h.value_of_none hx
    · rw [h.value_of_lastIn hx]
      have := h.settled k x hx
      rw [hpend] at this
      exact (this.resolve_left (not_mem_nil)).symm

theorem append (hkind : ∀ r' ∈ P, r'.key = r.key → r'.home = r.home)
    (hlsm : r.home = lsmSegment → recordOf G r.key = none) (hgroup : r.home ≠ lsmSegment → G r.home ≠ []) :
    Linked cfg (P ++ [r]) (update pend r.home (pend r.home ++ [(total size P, r)])) G T
      (update m r.key (some r.value)) := by
  have hlast : ∀ k, lastIn (P ++ [r]) k = if r.key = k then some (total size P, r) else lastIn P k := by
    intro k
    rw [lastIn, offsets_concat, latest_concat, Nat.zero_add]
    rfl
  refine ⟨fun a ha b hb hab => ?_, fun x hx => ?_, fun g hg hne => ?_, fun k x hx => ?_, fun k => ?_⟩
  · rcases mem_append.1 ha with ha | ha <;> rcases mem_append.1 hb with hb | hb
    · exact h.kind a ha b hb hab
    · rw [mem_singleton.1 hb] at hab ⊢
      exact hkind a ha hab
    · rw [mem_singleton.1 ha] at hab ⊢
      exact (hkind b hb hab.symm).symm
    · rw [mem_singleton.1 ha, mem_singleton.1 hb]
  · by_cases hr : r.home = lsmSegment
    · rw [hr] at hx
      rcases mem_append.1 hx with hx | hx
      · exact h.lsm x hx
      · rw [mem_singleton.1 hx]
        exact hlsm hr
    · rw [update_of_ne (Ne.symm hr)] at hx
      exact h.lsm x hx
  · by_cases hr : g = r.home
    · subst hr; exact hgroup hg
    · rw [update_of_ne hr] at hne
      exact h.group g hg hne
  · rw [hlast] at hx
    by_cases hk : r.key = k
    · rw [if_pos hk, Option.some.injEq] at hx
      subst hx
      exact .inl (by simp)
    · rw [if_neg hk] at hx
      refine (h.settled k x hx).imp_left fun hmem => ?_
      by_cases hr : x.2.home = r.home
      · rw [hr] at hmem ⊢
        rw [update_self]
        exact mem_append_left _ hmem
      · rwa [update_of_ne hr]
  · have hl : latest (fun x => x.2.key) (offsets size 0 (P ++ [r])) k =
        if r.key = k then some (total size P, r) else latest (fun x => x.2.key) (offsets size 0 P) k :=
      hlast k
    rw [settle, hl]
    by_cases hk : r.key = k
    · rw [if_pos hk, ← hk, update_self]; rfl
    · rw [if_neg hk, update_of_ne (Ne.symm hk), h.value, settle]

end

/-- A record that waits is overwritten by one of the same key and length. -/
theorem replace {A B : List (Record cfg)} {r₀ : Record cfg} (h : Linked cfg (A ++ r₀ :: B) pend G T m)
    (hpool : Pooled cfg i (A ++ r₀ :: B) pend p) (hlast : lastIn (A ++ r₀ :: B) r.key = some (total size A, r₀))
    (hwaits : (total size A, r₀) ∈ pend r₀.home) (hlen : r.value.length = r₀.value.length) :
    Linked cfg (A ++ r :: B) (fun g => (pend g).map (swap (total size A) r)) G T (update m r.key (some r.value)) := by
  have hkey : r.key = r₀.key := (key_of_lastIn hlast).symm
  have hhome : r.home = r₀.home := by rw [Record.home, Record.home, hkey, hlen]
  have hmem : ∀ a ∈ A ++ r :: B, ∃ b ∈ A ++ r₀ :: B, a.key = b.key ∧ a.home = b.home := by
    intro a ha
    rcases mem_append.1 ha with ha | ha
    · exact ⟨a, by simp [ha], rfl, rfl⟩
    · rcases mem_cons.1 ha with rfl | ha
      · exact ⟨r₀, by simp, hkey, hhome⟩
      · exact ⟨a, by simp [ha], rfl, rfl⟩
  have hpend : ∀ g, ∀ x ∈ pend g, x ∈ offsets size 0 (A ++ r₀ :: B) := fun g x hx => (hpool.mem_filter hx).1
  -- the last record of a key is at the same place
  have hlastIn : ∀ k, lastIn (A ++ r :: B) k =
      (lastIn (A ++ r₀ :: B) k).map (swap (total size A) r) := fun _ => lastIn_swap hkey hlen
  refine ⟨fun a ha b hb hab => ?_, fun x hx => ?_, fun g hg hne => ?_, fun k x hx => ?_, fun k => ?_⟩
  · obtain ⟨a', ha', hak, hah⟩ := hmem a ha
    obtain ⟨b', hb', hbk, hbh⟩ := hmem b hb
    rw [hah, hbh]
    exact h.kind a' ha' b' hb' (by rw [← hak, ← hbk, hab])
  · obtain ⟨y, hy, rfl⟩ := mem_map.1 hx
    rw [(swap_eq hkey hlen (hpend _ y hy)).1]
    exact h.lsm y hy
  · exact h.group g hg fun hnil => hne (by rw [hnil]; rfl)
  · rw [hlastIn] at hx
    obtain ⟨y, hy, rfl⟩ := map_eq_some_iff.1 hx
    have hyin := mem_of_lastIn hy
    rw [(swap_eq hkey hlen hyin).2]
    by_cases ho : y.1 = total size A
    · refine .inl (mem_map_of_mem ?_)
      rw [eq_of_offset hyin ho]
      exact hwaits
    · refine (h.settled k y hy).imp (fun hmem => mem_map_of_mem hmem) fun hT => ?_
      rw [swap_of_ne ho]
      exact hT
  · rw [settle, show latest (fun x => x.2.key) (offsets Record.size 0 (A ++ r :: B)) k = _ from hlastIn k]
    by_cases hk : r.key = k
    · subst hk
      rw [hlast]
      simp [Pooled.swap]
    · rw [update_of_ne (Ne.symm hk), h.value]
      show ((lastIn (A ++ r₀ :: B) k).map _).or _ = _
      rcases hy : lastIn (A ++ r₀ :: B) k with _ | y
      · rfl
      · have ho : y.1 ≠ total size A := by
          intro ho
          have hy₀ := eq_of_offset (mem_of_lastIn hy) ho
          refine hk ?_
          rw [hkey, ← key_of_lastIn hy, hy₀]
        rw [map_some, map_some, map_some, swap_of_ne ho]

end Linked

end ValueSep.HashKV
