import ValueSep.DiffKV.BlobFile

/-!
# The key bounds of a blob file

`BlobFileBuilder::Add` takes an empty `smallest_key_` for "no key yet". An empty key is one that a client may write, so
the key after it sets both bounds anew, and the keys before are forgotten. `Tracks` says since which key the bounds have
been kept.
-/

namespace ValueSep.DiffKV

open List Std

namespace BlobFileBuilder

section

variable (o : Options) (b : BlobFileBuilder) (keys since : List Slice)

/-- The bounds are added keys, and all added keys lie between them. -/
def Bounds : Prop :=
  b.smallestKey ∈ keys ∧ b.largestKey ∈ keys ∧
    ∀ k ∈ keys, (o.comparator b.smallestKey k).isLE ∧ (o.comparator k b.largestKey).isLE

/-- After these keys the builder takes the next one for the first: there are none, or the last one is empty and the
others are empty or greater. -/
def Unset : Prop := keys = [] ∨ ∃ ks, keys = ks ++ [[]] ∧ ∀ k ∈ ks, k = [] ∨ o.comparator [] k = .lt

/-- The keys that are forgotten lie between keys that come later. -/
def ForgottenCovered : Prop :=
  ∀ ks after, keys = ks ++ after → after ≠ [] → Unset o ks →
    ∀ k ∈ ks, (∃ a ∈ after, (o.comparator a k).isLE) ∧ ∃ a ∈ after, (o.comparator k a).isLE

/-- The bounds are those of the keys `since` the last one that was taken for the first. -/
structure Tracks : Prop where
  unset : b.smallestKey = [] ↔ Unset o keys
  bounds : keys ≠ [] → b.Bounds o since
  split : ∃ ks, keys = ks ++ since ∧ Unset o ks
  longest : ∀ ks after, keys = ks ++ after → after ≠ [] → Unset o ks → since <:+ after

end

section
variable {o : Options} {b : BlobFileBuilder} {keys since : List Slice}

theorem unset_concat {k : Slice} :
    Unset o (keys ++ [k]) ↔ k = [] ∧ ∀ k' ∈ keys, k' = [] ∨ o.comparator [] k' = .lt := by
  constructor
  · rintro (hnil | ⟨ks, heq, hks⟩)
    · simp at hnil
    · obtain ⟨rfl, hk⟩ := append_inj' heq rfl
      cases hk
      exact ⟨rfl, hks⟩
  · rintro ⟨rfl, hks⟩
    exact .inr ⟨keys, rfl, hks⟩

theorem Unset.forall_mem (h : Unset o keys) : ∀ k ∈ keys, k = [] ∨ o.comparator [] k = .lt := by
  rcases h with rfl | ⟨ks, rfl, hks⟩
  · nofun
  · exact forall_mem_append.2 ⟨hks, forall_mem_singleton.2 (.inl rfl)⟩

theorem suffix_concat {ks after : List Slice} {k : Slice} (h : keys ++ [k] = ks ++ after) (hne : after ≠ []) :
    ∃ t, after = t ++ [k] ∧ keys = ks ++ t := by
  obtain ⟨t, x, rfl⟩ := (eq_nil_or_concat' after).resolve_left hne
  rw [← append_assoc] at h
  obtain ⟨rfl, hx⟩ := append_inj' h rfl
  cases hx
  exact ⟨t, rfl, rfl⟩

theorem bounds_finish (fault : Fault) (file : WritableFile) : (b.finish o fault file).2.Bounds o keys ↔ b.Bounds o keys := by
  unfold finish
  split_ifs <;> rfl

variable [TransCmp o.comparator]

theorem Tracks.reset (h : Tracks o b keys since) (hb : b.smallestKey = []) (k : Slice) :
    Tracks o (b.addKey o k) (keys ++ [k]) [k] := by
  have heq : b.addKey o k = { b with smallestKey := k, largestKey := k, numEntries := b.numEntries + 1 } := by
    simp [addKey, hb, ReflCmp.compare_self]
  have hunset := h.unset.1 hb
  refine ⟨?_, fun _ => ?_, ⟨keys, rfl, hunset⟩, fun ks after heq hne _ => ?_⟩
  · rw [heq, unset_concat]
    exact ⟨fun hk => ⟨hk, hunset.forall_mem⟩, And.left⟩
  · simp [heq, Bounds, ReflCmp.isLE_rfl]
  · obtain ⟨t, rfl, -⟩ := suffix_concat heq hne
    exact suffix_append t [k]

theorem Bounds.addKey (h : b.Bounds o since) (hb : b.smallestKey ≠ []) (k : Slice) :
    (b.addKey o k).Bounds o (since ++ [k]) ∧
      (b.addKey o k).smallestKey = if o.comparator k b.smallestKey = .lt then k else b.smallestKey := by
  obtain ⟨hs, hl, hall⟩ := h
  have hmem : k ∈ since ++ [k] := mem_append_right _ (mem_singleton_self k)
  simp only [BlobFileBuilder.addKey, if_neg hb]
  split
  next hgt =>
    have hlt := OrientedCmp.gt_iff_lt.1 hgt
    have hlow := TransCmp.lt_of_isLE_of_lt (hall _ hl).1 hlt
    rw [if_neg (by simp [OrientedCmp.gt_iff_lt.2 hlow])]
    exact ⟨⟨mem_append_left _ hs, hmem, forall_mem_append.2 ⟨fun k' hk' => ⟨(hall k' hk').1,
      TransCmp.isLE_trans (hall k' hk').2 (Ordering.isLE_of_eq_lt hlt)⟩,
      forall_mem_singleton.2 ⟨Ordering.isLE_of_eq_lt hlow, ReflCmp.isLE_rfl⟩⟩⟩, rfl⟩
  next hgt =>
    have hhigh := Ordering.isLE_iff_ne_gt.2 hgt
    split
    next hlt =>
      exact ⟨⟨hmem, mem_append_left _ hl, forall_mem_append.2 ⟨fun k' hk' =>
        ⟨TransCmp.isLE_trans (Ordering.isLE_of_eq_lt hlt) (hall k' hk').1, (hall k' hk').2⟩,
        forall_mem_singleton.2 ⟨ReflCmp.isLE_rfl, hhigh⟩⟩⟩, rfl⟩
    next hlt =>
      exact ⟨⟨mem_append_left _ hs, mem_append_left _ hl, forall_mem_append.2 ⟨hall, forall_mem_singleton.2
        ⟨Ordering.isLE_iff_ne_gt.2 fun h => hlt (OrientedCmp.gt_iff_lt.1 h), hhigh⟩⟩⟩, rfl⟩

theorem Tracks.extend (h : Tracks o b keys since) (hb : b.smallestKey ≠ []) (k : Slice) :
    Tracks o (b.addKey o k) (keys ++ [k]) (since ++ [k]) := by
  obtain ⟨ks, hsplit, hks⟩ := h.split
  have hbounds := h.bounds fun hnil => hb (h.unset.2 (.inl hnil))
  obtain ⟨hnew, hsmall⟩ := hbounds.addKey hb k
  refine ⟨?_, fun _ => hnew, ⟨ks, by rw [hsplit, append_assoc], hks⟩, fun p after heq hne hp => ?_⟩
  · rw [unset_concat, hsmall]
    split
    next hlt =>
      refine ⟨fun hk => ⟨hk, ?_⟩, And.left⟩
      rw [hk] at hlt
      rw [hsplit]
      exact forall_mem_append.2 ⟨hks.forall_mem, fun k' hk' => .inr (TransCmp.lt_of_lt_of_isLE hlt (hbounds.2.2 k' hk').1)⟩
    next hlt =>
      refine ⟨fun hnil => absurd hnil hb, fun ⟨hk, hok⟩ => absurd ?_ hlt⟩
      exact hk ▸ (hok _ (hsplit ▸ mem_append_right ks hbounds.1)).resolve_left hb
  · obtain ⟨t, rfl, hkeys⟩ := suffix_concat heq hne
    by_cases ht : t = []
    · rw [ht, append_nil] at hkeys
      exact absurd (h.unset.2 (hkeys ▸ hp)) hb
    · obtain ⟨u, rfl⟩ := h.longest p t hkeys ht hp
      exact ⟨u, (append_assoc ..).symm⟩

theorem Tracks.foldl (h : Tracks o b keys since) (ks : List Slice) :
    ∃ since, Tracks o (ks.foldl (·.addKey o) b) (keys ++ ks) since := by
  induction ks generalizing b keys since with
  | nil => exact ⟨since, (append_nil keys).symm ▸ h⟩
  | cons k ks ih =>
    rw [append_cons]
    by_cases hnil : b.smallestKey = []
    · exact ih (h.reset hnil k)
    · exact ih (h.extend hnil k)

theorem Tracks.bounds_iff (h : Tracks o b keys since) : b.Bounds o keys ↔ keys ≠ [] ∧ ForgottenCovered o keys := by
  obtain ⟨ks, hsplit, hks⟩ := h.split
  constructor
  · rintro ⟨hsmall, -, hall⟩
    have hne := ne_nil_of_mem hsmall
    obtain ⟨hs, hl, -⟩ := h.bounds hne
    refine ⟨hne, fun p after heq hafter hp k hk => ?_⟩
    have hsub := (h.longest p after heq hafter hp).subset
    obtain ⟨hlow, hhigh⟩ := hall k (heq ▸ mem_append_left after hk)
    exact ⟨⟨_, hsub hs, hlow⟩, ⟨_, hsub hl, hhigh⟩⟩
  · rintro ⟨hne, hcovered⟩
    obtain ⟨hs, hl, hall⟩ := h.bounds hne
    have hsub : since ⊆ keys := hsplit ▸ subset_append_right ks since
    refine ⟨hsub hs, hsub hl, ?_⟩
    rw [hsplit]
    refine forall_mem_append.2 ⟨fun k hk => ?_, hall⟩
    obtain ⟨⟨a, ha, hlow⟩, c, hc, hhigh⟩ := hcovered ks since hsplit (ne_nil_of_mem hs) hks k hk
    exact ⟨TransCmp.isLE_trans (hall a ha).1 hlow, TransCmp.isLE_trans hhigh (hall c hc).2⟩

theorem bounds_addAll_iff (rs : List BlobRecord) (onlyValue : Bool) (maxBufferSize number : Nat) (fault : Fault) :
    let new := create none number (.create maxBufferSize)
    ∃ file b handles, addAll o onlyValue rs new.1 new.2 = (file, b, handles) ∧
      ((b.finish o fault file).2.Bounds o (rs.map (·.key)) ↔ rs ≠ [] ∧ ForgottenCovered o (rs.map (·.key))) := by
  intro new
  obtain ⟨file, hall, -⟩ := addAll_eq o onlyValue rs new.1 (b := new.2) rfl
  have hnew : Tracks o new.2 [] [] :=
    ⟨⟨fun _ => .inl rfl, fun _ => rfl⟩, fun h => absurd rfl h, ⟨[], rfl, .inl rfl⟩, fun _ _ _ _ _ => nil_suffix⟩
  obtain ⟨since, h⟩ := hnew.foldl (rs.map (·.key))
  exact ⟨file, _, _, hall, by rw [bounds_finish]; simpa using h.bounds_iff⟩

theorem bounds_addAll_two_keys :
    let new := create none 2 (.create 0)
    let rs : List BlobRecord := [⟨[5], [1]⟩, ⟨[4], [1]⟩]
    ∃ file b handles, addAll (.small false false) false rs new.1 new.2 = (file, b, handles) ∧
      ((b.finish (.small false false) none file).2.Bounds (.small false false) (rs.map (·.key)) ↔
        rs ≠ [] ∧ ForgottenCovered (.small false false) (rs.map (·.key))) :=
  bounds_addAll_iff _ false 0 2 none

theorem empty_key_forgotten :
    let new := create none 2 (.create 0)
    ∃ file b handles, addAll (.small false false) false [⟨[], [1]⟩, ⟨[4], [1]⟩] new.1 new.2 = (file, b, handles) ∧
      ¬ (b.finish (.small false false) none file).2.Bounds (.small false false) [[], [4]] := by
  intro new
  obtain ⟨file, hall, -⟩ := addAll_eq _ _ [⟨[], [1]⟩, ⟨[4], [1]⟩] new.1 (b := new.2) rfl
  refine ⟨file, _, _, hall, ?_⟩
  rw [bounds_finish]
  unfold Bounds
  decide

end

end BlobFileBuilder

end ValueSep.DiffKV
