import ValueSep.HashKV.Layout

/-!
# What the LSM tree says

For every key of a client the tree has the place of the latest record in the key's group; for a key without a record
there, the value itself or nothing. During a collection this is suspended for the keys on their way back (`X`).
-/

namespace ValueSep.HashKV

open Coding (Bytes)
open List Function Journal ValueLocation

variable {cfg : Config} {G : Nat → Content cfg} {C : Content cfg} {lsm : Bytes → Option Bytes}
  {T : Bytes → Option Bytes} {X : Bytes → Prop} {g c o : Nat} {r : Record cfg} {k : Bytes}

/-- The latest record of a key in its group. -/
def recordOf (G : Nat → Content cfg) (k : Bytes) : Option (Place cfg) :=
  latest (fun x => x.record.key) (G (cfg.mainSegmentOf k)).layout k

/-- The tree leads from `k` to `v`. -/
def Resolves (cfg : Config) (lsm : Bytes → Option Bytes) (G : Nat → Content cfg) (k : Bytes) (v : Option Bytes) : Prop :=
  match recordOf G k with
  | some x =>
    lsm k = some ((stored x.segment x.offset x.record.value.length).serialize cfg) ∧
      v = some x.record.value
  | none => (lsm k = none ∧ v = none) ∨
    ∃ w : Bytes, w.length < 2 ^ 31 ∧ lsm k = some ((ValueLocation.inline w).serialize cfg) ∧ v = some w

/-- It does so for every key outside `X`. -/
def Tree (cfg : Config) (lsm : Bytes → Option Bytes) (G : Nat → Content cfg) (T : Bytes → Option Bytes)
    (X : Bytes → Prop) : Prop := ∀ k, cfg.UserKey k → ¬X k → Resolves cfg lsm G k (T k)

theorem Resolves.congr {lsm' : Bytes → Option Bytes} {G' : Nat → Content cfg} {v v' : Option Bytes}
    (h : Resolves cfg lsm G k v) (hlsm : lsm' k = lsm k) (hG : recordOf G' k = recordOf G k) (hv : v' = v) :
    Resolves cfg lsm' G' k v' := by
  unfold Resolves at h ⊢
  rw [hG, hlsm, hv]
  exact h

theorem mem_of_recordOf {x : Place cfg} (h : recordOf G k = some x) :
    x ∈ (G (cfg.mainSegmentOf k)).layout ∧ x.record.key = k := by
  have hkey := key_of_latest h
  exact ⟨mem_of_latest h, hkey⟩

theorem recordOf_eq_none : recordOf G k = none ↔ ∀ r ∈ (G (cfg.mainSegmentOf k)).records, r.key ≠ k := by
  rw [recordOf, latest_eq_none, ← Content.map_record_layout]
  simp

theorem map_record_recordOf (hk : cfg.mainSegmentOf k = g) :
    (recordOf G k).map Place.record = latest Record.key (G g).records k := by
  rw [recordOf, hk, ← Content.map_record_layout, latest_map]
  rfl

theorem recordOf_grown (hr : cfg.mainSegmentOf r.key = g) (h : (G g).Grown c o r C) :
    recordOf (update G g C) k = if r.key = k then some ⟨c, o, r⟩ else recordOf G k := by
  unfold recordOf
  by_cases hk : cfg.mainSegmentOf k = g
  · rw [hk, update_self, h.layout, latest_concat]
  · have hne : r.key ≠ k := fun heq => hk (heq ▸ hr)
    rw [update_of_ne hk, if_neg hne]

theorem recordOf_update_nil : recordOf (update G g [(g, [])]) k =
    if cfg.mainSegmentOf k = g then none else recordOf G k := by
  unfold recordOf
  by_cases hk : cfg.mainSegmentOf k = g
  · rw [hk, update_self, if_pos rfl]; rfl
  · rw [update_of_ne hk, if_neg hk]

namespace Tree

theorem init : Tree cfg (fun _ => none) (fun _ => []) (fun _ => none) X :=
  fun _ _ _ => .inl ⟨rfl, rfl⟩

section
variable (h : Tree cfg lsm G T X)
include h

theorem congr {lsm' : Bytes → Option Bytes} {G' : Nat → Content cfg}
    (hlsm : ∀ k, cfg.UserKey k → lsm' k = lsm k) (hG : ∀ k, recordOf G' k = recordOf G k) : Tree cfg lsm' G' T X :=
  fun k hk hX => (h k hk hX).congr (hlsm k hk) (hG k) rfl

theorem mono {Y : Bytes → Prop} (hXY : ∀ k, X k → Y k) : Tree cfg lsm G T Y :=
  fun k hk hY => h k hk fun hX => hY (hXY k hX)

theorem congr_values {T' : Bytes → Option Bytes} (hT : ∀ k, ¬X k → T' k = T k) : Tree cfg lsm G T' X :=
  fun k hk hX => (h k hk hX).congr rfl rfl (hT k hX)

theorem value_of_recordOf {x : Place cfg} (hk : cfg.UserKey k) (hX : ¬X k)
    (hx : recordOf G k = some x) : T k = some x.record.value := by
  have hres := h k hk hX
  unfold Resolves at hres
  rw [hx] at hres
  exact hres.2

theorem stored (hr : cfg.mainSegmentOf r.key = g) (hgrown : (G g).Grown c o r C) :
    Tree cfg (update lsm r.key (some ((ValueLocation.stored c o r.value.length).serialize cfg)))
      (update G g C) (update T r.key (some r.value)) fun k => X k ∧ r.key ≠ k := by
  intro k hk hX
  by_cases heq : r.key = k
  · subst heq
    unfold Resolves
    rw [recordOf_grown hr hgrown, if_pos rfl, update_self, update_self]
    exact ⟨rfl, rfl⟩
  · have hne : k ≠ r.key := Ne.symm heq
    refine (h k hk fun hk' => hX ⟨hk', heq⟩).congr (update_of_ne hne ..) ?_ (update_of_ne hne ..)
    rw [recordOf_grown hr hgrown, if_neg heq]

theorem inlined (hnone : recordOf G r.key = none) :
    Tree cfg (Function.update lsm r.key (some ((ValueLocation.inline r.value).serialize cfg))) G
      (update T r.key (some r.value)) fun k => X k ∧ r.key ≠ k := by
  intro k hk hX
  by_cases heq : r.key = k
  · subst heq
    unfold Resolves
    rw [hnone, update_self, update_self]
    exact .inr ⟨r.value, r.value_lt, rfl, rfl⟩
  · have hne : k ≠ r.key := Ne.symm heq
    exact (h k hk fun hk' => hX ⟨hk', heq⟩).congr (update_of_ne hne ..) rfl (update_of_ne hne ..)

theorem released {Y : Bytes → Prop} (hX : ∀ k, X k → Y k)
    (hY : ∀ r ∈ (G g).records, Y r.key) : Tree cfg lsm (update G g [(g, [])]) T Y := by
  intro k hk hkY
  refine (h k hk fun hk' => hkY (hX k hk')).congr rfl ?_ rfl
  rw [recordOf_update_nil]
  by_cases hg : cfg.mainSegmentOf k = g
  · rw [if_pos hg]
    refine (recordOf_eq_none.2 fun r hr heq => hkY ?_).symm
    rw [hg] at hr
    exact heq ▸ hY r hr
  · rw [if_neg hg]

end

end Tree

namespace Store

theorem writeKeyBatch_concat {batch : List (Bytes × ValueLocation)} {loc : ValueLocation} :
    writeKeyBatch cfg (batch ++ [(k, loc)]) lsm = update (writeKeyBatch cfg batch lsm) k (some (loc.serialize cfg)) := by
  simp [writeKeyBatch]

/-- The metadata of segments and groups does not meet the keys of clients. -/
theorem logMetaPersist_userKey {m : SegmentGroupManager} {segments groups : List Nat} (hk : cfg.UserKey k)
    (hs : ∀ c ∈ segments, c < cfg.numSegment) (hg : ∀ g ∈ groups, g < cfg.numMainSegment) :
    logMetaPersist m segments groups lsm k = lsm k := by
  have hsegs : segments.foldl (writeSegmentMeta m) lsm k = lsm k :=
    foldlRecOn (motive := fun t : Bytes → Option Bytes => t k = lsm k) segments _ rfl fun t ht c hc =>
      (update_of_ne (hk.2.1 c (hs c hc)) ..).trans ht
  exact foldlRecOn (motive := fun t : Bytes → Option Bytes => t k = lsm k) groups _ hsegs fun t ht c hc =>
    (update_of_ne (hk.2.2 c (hg c hc)) ..).trans ht

end Store

end ValueSep.HashKV
