import ValueSep.HashKV.Record

/-!
# What a pool holds

The records appended since the pool was last empty lie in its buffer one behind the other; those that wait for a group
are, for every group, the last few that go there.
-/

namespace ValueSep.HashKV

open Coding (Bytes)
open List Function Record Journal Memory AList

/-- The sizes of the two pools. -/
def Config.sizeOfPool (cfg : Config) : PoolIndex → Nat
  | .update => cfg.poolSize
  | .gc => cfg.mainSegmentSize * 2

theorem Config.sizeOfPool_lt (cfg : Config) (i : PoolIndex) : cfg.sizeOfPool i < 2 ^ 63 := by
  have := cfg.poolSize_lt
  have := cfg.main_lt
  cases i
  · show cfg.poolSize < _; omega
  · show cfg.mainSegmentSize * 2 < _; omega

/-- The pool `i` holds the records `P`, of which `pend g` are still to be flushed to `g`. -/
structure Pooled (cfg : Config) (i : PoolIndex) (P : List (Record cfg)) (pend : Nat → List (Nat × Record cfg))
    (p : Pool) : Prop where
  length : p.pool.length = cfg.sizeOfPool i
  holds : Holds p.pool.buf 0 (images P)
  front : p.pool.writeFront = total size P
  le : total size P ≤ cfg.sizeOfPool i
  pending : ∀ g, (p.segmentsInPool.lookup g).getD [] = (pend g).map Prod.fst
  suffix : ∀ g, pend g <:+ (offsets size 0 P).filter fun x => x.2.home = g
  groups : ∀ g ∈ p.groupsInPool.keys, g = lsmSegment ∨ g < cfg.numMainSegment
  /-- Both maps know the same groups. -/
  keys : ∀ g, g ∈ p.segmentsInPool ↔ g ∈ p.groupsInPool
  sums : ∀ g, ((p.groupsInPool.lookup g).getD []).sum ≤ total size P
  lower : ∀ g, total size ((pend g).map Prod.snd) ≤ ((p.groupsInPool.lookup g).getD []).sum

namespace Pooled

variable {cfg : Config} {i : PoolIndex} {P : List (Record cfg)} {pend : Nat → List (Nat × Record cfg)} {p : Pool}
  {g o : Nat} {r : Record cfg} {x y : Nat × Record cfg} {k : Bytes}

theorem init (i : PoolIndex) : Pooled cfg i [] (fun _ => []) (Pool.init (cfg.sizeOfPool i)) where
  length := rfl
  holds := holds_nil
  front := rfl
  le := Nat.zero_le _
  pending _ := rfl
  suffix _ := nil_suffix
  groups _ h := by cases h
  keys _ := Iff.rfl
  sums _ := Nat.zero_le _
  lower _ := Nat.zero_le _

theorem sorted (P : List (Record cfg)) : (offsets size 0 P).Pairwise fun a b => a.1 < b.1 :=
  pairwise_offsets size_pos

section
variable (h : Pooled cfg i P pend p)
include h

theorem has (hx : (o, r) ∈ offsets size 0 P) : p.pool.Has o r := by
  refine ⟨?_, ?_⟩
  · have := holds_of_mem_offsets h.holds hx
    rwa [Nat.zero_add] at this
  · have hle := (bounds_of_mem_offsets hx).2
    rw [h.length]
    exact Nat.le_trans (by omega) h.le

theorem mem_filter (hx : x ∈ pend g) : x ∈ offsets size 0 P ∧ x.2.home = g := by
  have := List.mem_filter.1 ((h.suffix g).mem hx)
  exact ⟨this.1, by simpa using this.2⟩

theorem home (hx : x ∈ pend g) : x.2.home = g := (h.mem_filter hx).2

theorem mem_records (hx : x ∈ pend g) : x.2 ∈ P := by
  have := mem_map_of_mem (f := Prod.snd) (h.mem_filter hx).1
  rwa [map_snd_offsets] at this

theorem sublist (g : Nat) : (pend g).Sublist (offsets size 0 P) :=
  (h.suffix g).sublist.trans filter_sublist

theorem mem_of_le (hx : x ∈ pend g) (hy : y ∈ offsets size 0 P) (hhome : y.2.home = g) (hle : x.1 ≤ y.1) : y ∈ pend g :=
  mem_suffix_of_le ((sorted P).sublist filter_sublist) (h.suffix g) hx
    (List.mem_filter.2 ⟨hy, by simpa using hhome⟩) hle

theorem congr {p' : Pool} (hpool : p'.pool = p.pool)
    (hpend : p'.segmentsInPool = p.segmentsInPool) (hgroups : p'.groupsInPool = p.groupsInPool) :
    Pooled cfg i P pend p' where
  length := hpool ▸ h.length
  holds := hpool ▸ h.holds
  front := hpool ▸ h.front
  le := h.le
  pending := hpend ▸ h.pending
  suffix := h.suffix
  groups := hgroups ▸ h.groups
  keys := hpend ▸ hgroups ▸ h.keys
  sums := hgroups ▸ h.sums
  lower := hgroups ▸ h.lower

theorem pend_eq_nil (hg : g ∉ p.groupsInPool) : pend g = [] := by
  have hnone : p.segmentsInPool.lookup g = none := lookup_eq_none.2 fun hmem => hg ((h.keys g).1 hmem)
  have := h.pending g
  rw [hnone] at this
  exact map_eq_nil_iff.1 this.symm

theorem eraseGroup {p' : Pool} (hnil : pend g = []) (hpool : p'.pool = p.pool)
    (hpend : p'.segmentsInPool = p.segmentsInPool.erase g) (hgroups : p'.groupsInPool = p.groupsInPool.erase g) :
    Pooled cfg i P pend p' where
  length := hpool ▸ h.length
  holds := hpool ▸ h.holds
  front := hpool ▸ h.front
  le := h.le
  pending g' := by
    rw [hpend]
    by_cases hg : g' = g
    · rw [hg, lookup_erase, hnil]; rfl
    · rw [lookup_erase_ne hg]; exact h.pending g'
  suffix := h.suffix
  groups g' hg' := by
    rw [hgroups] at hg'
    exact h.groups g' (mem_erase.1 (mem_keys.2 hg')).2
  keys g' := by rw [hpend, hgroups, mem_erase, mem_erase, h.keys]
  sums g' := by
    rw [hgroups]
    by_cases hg : g' = g
    · rw [hg, lookup_erase]; exact Nat.zero_le _
    · rw [lookup_erase_ne hg]; exact h.sums g'
  lower g' := by
    rw [hgroups]
    by_cases hg : g' = g
    · rw [hg, hnil]; exact Nat.zero_le _
    · rw [lookup_erase_ne hg]; exact h.lower g'

end

theorem getD_lookup_insert (g g' : Nat) (l : List Nat) (a : AList fun _ : Nat => List Nat) :
    ((a.insert g l).lookup g').getD [] = if g' = g then l else (a.lookup g').getD [] := by
  by_cases h : g' = g
  · rw [h, lookup_insert, if_pos rfl]; rfl
  · rw [lookup_insert_ne h, if_neg h]

section
variable (h : Pooled cfg i P pend p)
include h

theorem setOffsets {l : List (Nat × Record cfg)} (hl : l <:+ pend g) (hg : g ∈ p.segmentsInPool) :
    Pooled cfg i P (update pend g l) (p.setOffsets g (l.map Prod.fst)) where
  length := h.length
  holds := h.holds
  front := h.front
  le := h.le
  pending g' := by
    rw [Pool.setOffsets, getD_lookup_insert]
    by_cases hg : g' = g
    · rw [if_pos hg, hg, update_self]
    · rw [if_neg hg, update_of_ne hg, h.pending]
  suffix g' := by
    by_cases hg : g' = g
    · rw [hg, update_self]; exact hl.trans (h.suffix g)
    · rw [update_of_ne hg]; exact h.suffix g'
  groups := h.groups
  keys g' := by
    rw [Pool.setOffsets, mem_insert, ← h.keys]
    exact ⟨fun h => h.elim (fun heq => heq ▸ hg) id, .inr⟩
  sums := h.sums
  lower g' := by
    by_cases hg : g' = g
    · subst hg
      rw [update_self]
      obtain ⟨l', hl'⟩ := hl
      have := h.lower g'
      rw [← hl', map_append, total_append] at this
      exact Nat.le_trans (Nat.le_add_left ..) this
    · rw [update_of_ne hg]; exact h.lower g'

theorem mem_segmentsInPool (hg : pend g ≠ []) : g ∈ p.segmentsInPool := by
  by_contra hnot
  exact hg (h.pend_eq_nil fun hmem => hnot ((h.keys g).2 hmem))

theorem pop {l : List (Nat × Record cfg)} (hl : pend g = (o, r) :: l) :
    Pooled cfg i P (update pend g l) (p.setOffsets g (((p.segmentsInPool.lookup g).getD []).erase o)) := by
  have hg : g ∈ p.segmentsInPool := h.mem_segmentsInPool (by rw [hl]; simp)
  rw [h.pending g, hl, map_cons, erase_cons_head]
  exact h.setOffsets (hl ▸ suffix_cons ..) hg

theorem dropIfEmpty (g : Nat) : Pooled cfg i P pend (p.dropIfEmpty g) := by
  unfold Pool.dropIfEmpty
  split
  · rename_i hempty
    rw [h.pending, List.isEmpty_iff, List.map_eq_nil_iff] at hempty
    exact h.eraseGroup hempty rfl rfl rfl
  · exact h

theorem keys_dropIfEmpty (hnil : pend g = []) (hkeys : p.groupsInPool.keys = [g]) :
    (p.dropIfEmpty g).groupsInPool.keys = [] := by
  unfold Pool.dropIfEmpty
  rw [h.pending, hnil, map_nil, isEmpty_nil, if_pos rfl]
  rw [keys_erase, hkeys, erase_cons_head]

theorem releaseGroup (hnil : pend g = []) : Pooled cfg i P pend (p.releaseGroup g) := by
  refine h.eraseGroup hnil rfl ?_ rfl
  rw [Pool.releaseGroup, h.pending, hnil]
  rfl

/-- An empty map of sizes means that nothing waits, and the buffer may start again. -/
theorem reset (hgroups : p.groupsInPool.keys = []) :
    (∀ g, pend g = []) ∧ p.segmentsInPool.entries.isEmpty ∧ ∀ keysInPool, Pooled cfg i [] (fun _ => [])
      { p with keysInPool := keysInPool, pool := p.pool.resetFronts } := by
  have hnot : ∀ g, g ∉ p.groupsInPool := fun g hg => by
    rw [AList.mem_keys, hgroups] at hg
    cases hg
  have hnone : ∀ g, p.segmentsInPool.lookup g = none := fun g =>
    AList.lookup_eq_none.2 fun hmem => hnot g ((h.keys g).1 hmem)
  have hnone' : ∀ g, p.groupsInPool.lookup g = none := fun g => AList.lookup_eq_none.2 (hnot g)
  refine ⟨fun g => h.pend_eq_nil (hnot g), ?_, fun keysInPool => ⟨h.length, Memory.holds_nil, rfl, Nat.zero_le _,
    fun g => ?_, fun _ => List.nil_suffix, h.groups, h.keys, fun g => ?_, fun g => Nat.zero_le _⟩⟩
  · rw [List.isEmpty_iff, List.eq_nil_iff_forall_not_mem]
    intro x hx
    exact hnot x.1 ((h.keys x.1).1 (AList.mem_keys.2 (List.mem_map_of_mem hx)))
  · rw [hnone g]; rfl
  · rw [hnone' g]; exact Nat.zero_le _

end

theorem insertOffset_of_lt {o : Nat} {l : List Nat} (h : ∀ b ∈ l, b < o) : Pool.insertOffset o l = l ++ [o] := by
  have hnot : o ∉ l := fun hmem => Nat.lt_irrefl o (h o hmem)
  rw [Pool.insertOffset, if_neg hnot]
  clear hnot
  induction l with
  | nil => rfl
  | cons b l ih =>
    have hb := h b (mem_cons_self ..)
    rw [orderedInsert, if_neg (by omega), ih fun c hc => h c (mem_cons_of_mem _ hc), cons_append]

section
variable (h : Pooled cfg i P pend p) (hfit : total size P + r.size ≤ cfg.sizeOfPool i)
include h hfit

theorem has_push : (p.pool.push r.image).Has (total size P) r := by
  refine ⟨?_, ?_⟩
  · rw [← h.front]; exact holds_write_self
  · rw [Segment.length_push, h.length]; exact hfit

theorem append (hg : r.home = lsmSegment ∨ r.home < cfg.numMainSegment) :
    Pooled cfg i (P ++ [r]) (update pend r.home (pend r.home ++ [(total size P, r)]))
      (({ p with pool := p.pool.push r.image } : Pool).addUpdate r.home r.home (total size P) r.size) := by
  have htotal : total size (P ++ [r]) = total size P + r.size := by simp
  have hoffsets : offsets size 0 (P ++ [r]) = offsets size 0 P ++ [(total size P, r)] := by
    rw [offsets_concat, Nat.zero_add]
  refine ⟨h.length, ?_, ?_, htotal ▸ hfit, fun g => ?_, fun g => ?_, fun g hgk => ?_, fun g => ?_, fun g => ?_,
    fun g => ?_⟩
  · rw [images_append, images_singleton, holds_append, Nat.zero_add, length_images, ← h.front]
    refine ⟨h.holds.write (.inl ?_), holds_write_self⟩
    rw [Nat.zero_add, length_images, h.front]
  · show p.pool.writeFront + r.image.length = _
    rw [htotal, h.front, r.length_image]
  · show (lookup g (insert r.home _ p.segmentsInPool)).getD [] = _
    rw [getD_lookup_insert]
    by_cases heq : g = r.home
    · subst heq
      rw [if_pos rfl, update_self, map_append, h.pending]
      refine insertOffset_of_lt fun o ho => ?_
      obtain ⟨x, hx, rfl⟩ := mem_map.1 ho
      have hle := (bounds_of_mem_offsets (h.mem_filter hx).1).2
      have := x.2.size_pos
      omega
    · rw [if_neg heq, update_of_ne heq, h.pending]
  · rw [hoffsets, filter_append]
    by_cases heq : g = r.home
    · subst heq
      obtain ⟨zs, hzs⟩ := h.suffix r.home
      exact ⟨zs, by rw [← hzs]; simp⟩
    · rw [update_of_ne heq]
      have hne : ¬r.home = g := Ne.symm heq
      simpa [hne] using h.suffix g
  · rcases (mem_insert _).1 (AList.mem_keys.2 hgk) with rfl | hgk
    · exact hg
    · exact h.groups g hgk
  · rw [Pool.addUpdate, mem_insert, mem_insert, h.keys]
  · show ((lookup g (insert r.home _ p.groupsInPool)).getD []).sum ≤ _
    rw [getD_lookup_insert, htotal]
    have hsum := h.sums g
    by_cases heq : g = r.home
    · subst heq
      rw [if_pos rfl, sum_cons]
      show r.size + ((p.groupsInPool.lookup r.home).getD []).sum ≤ _
      omega
    · rw [if_neg heq]
      omega
  · show _ ≤ ((lookup g (insert r.home _ p.groupsInPool)).getD []).sum
    rw [getD_lookup_insert]
    have hlower := h.lower g
    by_cases heq : g = r.home
    · subst heq
      rw [if_pos rfl, sum_cons, update_self, map_append, total_append]
      simp only [map_cons, map_nil, total_cons, total_nil]
      omega
    · rw [if_neg heq, update_of_ne heq]
      exact hlower

end

/-! ### Updates in place -/

/-- The record `r` takes the place of the one at `o`. -/
def swap (o : Nat) (r : Record cfg) (x : Nat × Record cfg) : Nat × Record cfg := if x.1 = o then (x.1, r) else x

@[simp] theorem fst_swap : (swap o r x).1 = x.1 := by
  unfold swap
  split <;> rfl

theorem swap_of_ne (h : x.1 ≠ o) : swap o r x = x := if_neg h

section

variable {A B : List (Record cfg)} {r₀ : Record cfg}

theorem offsets_swap (hlen : r.value.length = r₀.value.length) : offsets size 0 (A ++ r :: B) =
    (offsets size 0 (A ++ r₀ :: B)).map (swap (total size A) r) := by
  have hsize : r.size = r₀.size := by rw [size, hlen, size]
  rw [← map_offsets_replace size_pos hsize, Nat.zero_add]
  rfl

theorem eq_of_offset (hx : x ∈ offsets size 0 (A ++ r₀ :: B)) (ho : x.1 = total size A) : x = (total size A, r₀) := by
  refine eq_of_mem_of_fst_eq (sorted _) hx (mem_offsets_iff.2 ⟨A, B, rfl, ?_⟩) ho
  rw [Nat.zero_add]

/-- A record keeps its key and its group. -/
theorem swap_eq (hkey : r.key = r₀.key) (hlen : r.value.length = r₀.value.length)
    (hx : x ∈ offsets size 0 (A ++ r₀ :: B)) :
    (swap (total size A) r x).2.key = x.2.key ∧ (swap (total size A) r x).2.home = x.2.home := by
  by_cases ho : x.1 = total size A
  · have hx₀ := eq_of_offset hx ho
    rw [swap, if_pos ho, hx₀]
    exact ⟨hkey, by rw [Record.home, Record.home, hkey, hlen]⟩
  · rw [swap_of_ne ho]
    exact ⟨rfl, rfl⟩

theorem replace (h : Pooled cfg i (A ++ r₀ :: B) pend p) (hkey : r.key = r₀.key)
    (hlen : r.value.length = r₀.value.length) :
    Pooled cfg i (A ++ r :: B) (fun g => (pend g).map (swap (total size A) r))
      { p with pool := { p.pool with
          buf := write p.pool.buf (total size A + keySize + lenSize) r.value } } := by
  have hsize : r.size = r₀.size := by rw [size, hlen, size]
  have htotal : total size (A ++ r :: B) = total size (A ++ r₀ :: B) := by simp [hsize]
  have heq := r₀.size_eq
  refine ⟨h.length, ?_, h.front.trans htotal.symm, htotal ▸ h.le, fun g => ?_, fun g => ?_, h.groups, h.keys, fun g => ?_,
    fun g => ?_⟩
  · -- only the value of the record is written
    have hholds := h.holds
    rw [images_append, images_cons, holds_append, holds_append, holds_image,
      length_images, length_image, Nat.zero_add] at hholds ⊢
    obtain ⟨hA, ⟨hk, hl, -⟩, hB⟩ := hholds
    rw [hkey, hlen, hsize]
    refine ⟨hA.write (.inl ?_), ⟨hk.write (.inl ?_), hl.write (.inl ?_), holds_write_self⟩, hB.write (.inr ?_)⟩
    · rw [length_images]; omega
    · rw [key_length]; omega
    · rw [length_encodeLen]
    · rw [hlen]; omega
  · rw [map_map]
    refine (h.pending g).trans (map_congr_left fun x _ => ?_)
    exact fst_swap.symm
  · rw [offsets_swap hlen, filter_map]
    have hfilter : (offsets size 0 (A ++ r₀ :: B)).filter
        ((fun x => decide (x.2.home = g)) ∘ swap (total size A) r) =
        (offsets size 0 (A ++ r₀ :: B)).filter fun x => x.2.home = g :=
      filter_congr fun x hx => by
        show decide ((swap (total size A) r x).2.home = g) = _
        rw [(swap_eq hkey hlen hx).2]
    rw [hfilter]
    exact (h.suffix g).map _
  · rw [htotal]
    exact h.sums g
  · refine Nat.le_trans (Nat.le_of_eq ?_) (h.lower g)
    simp only [total, map_map]
    congr 1
    refine map_congr_left fun x hx => ?_
    show (swap (total size A) r x).2.size = x.2.size
    by_cases ho : x.1 = total size A
    · rw [swap, if_pos ho, eq_of_offset (h.mem_filter hx).1 ho]
      exact hsize
    · rw [swap_of_ne ho]

end

end Pooled

end ValueSep.HashKV
