import ValueSep.HashKV.Putting

/-!
# The store as a map

`getValue` reads the map a store stands for, and every call of a client whose step is `Tame` takes a store for a map to
a store for the map after the call. So in a run of such steps the store and a map cannot be told apart.
-/

namespace ValueSep.HashKV

open Coding (Bytes)
open Memory (Holds)
open Wp
open List Journal Store ValueLocation

variable {cfg : Config} {P : List (Record cfg)} {pend : Nat → List (Nat × Record cfg)} {G : Nat → Content cfg}
  {T m : Bytes → Option Bytes} {s s' : Store} {g : Nat} {k : Bytes} {r : Record cfg}

/-! ### Reads -/

variable {x : Place cfg}

theorem Laid.place {mgr : SegmentGroupManager} {front : Nat → Nat} {disk : Nat → UInt8}
    (h : Laid cfg mgr front disk G) (hx : x ∈ (G g).layout) : x.segment < cfg.numSegment ∧
      x.offset + x.record.size ≤ cfg.segmentSize x.segment ∧ x.record.home = g ∧ g ≠ lsmSegment ∧
      Holds disk (cfg.segmentOffset x.segment + x.offset) x.record.image := by
  obtain ⟨rs, hC, ho⟩ := Content.mem_layout.1 hx
  have hlaid := h.of_ne_nil (ne_nil_of_mem hC)
  have hg : g ≠ lsmSegment := by
    rintro rfl
    rw [h.lsm.2] at hC
    cases hC
  refine ⟨h.wf.lt_numSegment hlaid.segments (mem_map_of_mem hC), ?_, ?_, hg, ?_⟩
  · have hle := (bounds_of_mem_offsets ho).2
    have := hlaid.inside _ hC
    simp only [Nat.zero_add] at hle
    exact Nat.le_trans hle this
  · exact hlaid.home _ hC _ (mem_of_mem_offsets ho)
  · have hholds := hlaid.holds _ hC
    exact Record.holds_of_mem_offsets hholds ho

theorem Settled.getKey_of_record {X : Bytes → Prop} (h : Settled cfg s G T X) (hk : cfg.UserKey k)
    (hX : ¬X k) (hx : recordOf G k = some x) :
    s.getKey cfg k = .ok (.stored x.segment x.offset x.record.value.length) ∧ cfg.disableKvSeparation = false := by
  have hres := h.tree k hk hX
  unfold Resolves at hres
  rw [hx] at hres
  obtain ⟨hmem, -⟩ := mem_of_recordOf hx
  obtain ⟨hc, hle, hhome, hg, -⟩ := h.laid.place hmem
  have hseg := x.record.segmental (hhome ▸ hg)
  have hsep : cfg.disableKvSeparation = false := by
    rcases hd : cfg.disableKvSeparation with _ | _
    · rfl
    · refine absurd (x.record.home_lsm ?_) (hhome ▸ hg)
      simp [Config.toLSM, hd]
  refine ⟨?_, hsep⟩
  rw [getKey, hres.1]
  refine deserialize_stored hsep hc ?_ hseg.2.2.1
  have := x.record.size_pos
  omega

theorem Settled.getValueFromDisk {X : Bytes → Prop} (h : Settled cfg s G T X) (hx : recordOf G k = some x) :
    s.getValueFromDisk cfg k (.stored x.segment x.offset x.record.value.length) = .ok x.record.value := by
  obtain ⟨hmem, hkey⟩ := mem_of_recordOf hx
  obtain ⟨hc, hle, -, -, hholds⟩ := h.laid.place hmem
  have hlt := x.record.value_lt
  have hread : Memory.read s.disk ((cfg.segmentOffset x.segment + x.offset) % 2 ^ 64)
      (lenSize + x.record.value.length + keySize) = x.record.image := by
    have := segmentOffset_lt hc
    rw [Nat.mod_eq_of_lt (by omega)]
    have := hholds
    unfold Holds at this
    rw [Record.length_image, x.record.size_eq] at this
    rwa [Nat.add_comm (lenSize + _) keySize]
  have hklen := x.record.key_length
  have htake : x.record.image.take keySize = x.record.key := take_left' hklen
  have hdrop : x.record.image.drop keySize = encodeLen x.record.value.length ++ x.record.value := drop_left' hklen
  have hlen : (encodeLen x.record.value.length ++ x.record.value).take lenSize = encodeLen x.record.value.length :=
    take_left' (length_encodeLen _)
  have hvalue : x.record.image.drop (keySize + lenSize) = x.record.value := by
    rw [← drop_drop, hdrop]
    exact drop_left' (length_encodeLen _)
  unfold Store.getValueFromDisk
  simp only [stored, hread, htake, hdrop, hlen, hvalue,
    decodeLen_encodeLen (show x.record.value.length < 2 ^ 64 by omega), take_length]
  rw [if_neg (by omega), if_pos ⟨hkey, Nat.add_comm ..⟩]

theorem Store.getValue_of_getKey {loc : ValueLocation} (hk : k.length = keySize)
    (hbuf : s.getValueFromBuffer k = .ok none) (hloc : s.getKey cfg k = .ok loc) : s.getValue cfg k =
      if (loc.segmentId = lsmSegment ∨ cfg.disableKvSeparation) ∧ loc.length ≠ invalid then .ok (some loc.value)
      else if loc.segmentId = invalid then .ok none
      else some <$> s.getValueFromDisk cfg k loc := by
  rw [getValue, if_neg (not_not_intro hk), hbuf]
  rw [hloc]
  rfl

theorem Settled.getValue_of_none (h : Settled cfg s G T fun _ => False) (hk : cfg.UserKey k)
    (hbuf : s.getValueFromBuffer k = .ok none) : s.getValue cfg k = .ok (T k) := by
  rcases hx : recordOf G k with _ | x
  · have hres := h.tree k hk id
    unfold Resolves at hres
    rw [hx] at hres
    rcases hres with ⟨hlsm, hT⟩ | ⟨w, hw, hlsm, hT⟩
    · have hkey : s.getKey cfg k = .ok {} := by rw [getKey, hlsm]
      rw [getValue_of_getKey hk.1 hbuf hkey, hT, if_neg (fun hc => hc.2 rfl), if_pos rfl]
    · have hkey : s.getKey cfg k = .ok (.inline w) := by
        rw [getKey, hlsm]
        exact deserialize_inline hw
      have hne : w.length ≠ invalid := by unfold invalid; omega
      rw [getValue_of_getKey hk.1 hbuf hkey, hT]
      exact if_pos ⟨.inl rfl, hne⟩
  · obtain ⟨hkey, hsep⟩ := h.getKey_of_record hk id hx
    obtain ⟨hc, -⟩ := h.laid.place (mem_of_recordOf hx).1
    have hlt := cfg.numSegment_lt
    have hlsm : x.segment ≠ lsmSegment := by unfold lsmSegment; omega
    have hinv : x.segment ≠ invalid := cfg.ne_invalid hc
    rw [getValue_of_getKey hk.1 hbuf hkey, if_neg, if_neg, h.getValueFromDisk hx,
      h.tree.value_of_recordOf hk id hx]
    · rfl
    · exact hinv
    · rw [hsep]
      rintro ⟨hor, -⟩
      exact hor.elim hlsm nofun

theorem Models.getValue_eq (h : Models cfg s m) (hk : cfg.UserKey k) : s.getValue cfg k = .ok (m k) := by
  obtain ⟨P, pend, G, T, hrep, hidx⟩ := h
  have hkeys := hidx k
  rcases hlast : lastIn P k with _ | ⟨o, r⟩
  · rw [hlast] at hkeys
    have hbuf : s.getValueFromBuffer k = .ok none := by
      simp [getValueFromBuffer, hkeys]
    rw [hrep.settled.getValue_of_none hk hbuf, hrep.linked.value_of_none hlast]
  · rw [hlast] at hkeys
    have hhas := hrep.update.has (mem_of_lastIn hlast)
    have hpos := r.value_pos
    have hbuf : s.getValueFromBuffer k = .ok (some r.value) := by
      simp only [getValueFromBuffer, hkeys, Option.map_some, hhas.len]
      show (if r.value.length = 0 then _ else _) = _
      rw [if_neg (by omega), hhas.value]
      rfl
    rw [getValue, if_neg (by simpa using hk.1), hbuf, hrep.linked.value_of_lastIn hlast]
    rfl

/-! ### Tame steps -/

namespace Store

/-- The record of a key that the index of the pool points at: its offset, and the length of its value. -/
def pooled (s : Store) (key : Bytes) : Option (Nat × Nat) :=
  match (s.pools .update).keysInPool key with
  | none => none
  | some o => match (s.pools .update).pool.readLen (o + keySize) with
    | .ok n => some (o, n)
    | .error _ => none

/-- Whether the tree has a place in a segment for the key. -/
def located (cfg : Config) (s : Store) (key : Bytes) : Bool :=
  match s.getKey cfg key with
  | .ok loc => loc.segmentId ≠ invalid ∧ loc.segmentId ≠ lsmSegment
  | .error _ => true

/-- A put that the rest of the store copes with: the pair can be stored, the pooled record of the key goes the same
way, a value for the LSM tree has no older record in a segment, and a record to be overwritten still waits for the
flush, at the offset the erased iterator shows. -/
def TamePut (cfg : Config) (s : Store) (key value : Bytes) : Prop :=
  cfg.Storable key value ∧
  (∀ x ∈ s.pooled key, cfg.toLSM x.2 = cfg.toLSM value.length) ∧
  (cfg.toLSM value.length → s.located cfg key = false) ∧
  (cfg.inPlaceUpdate → ∀ x ∈ s.pooled key, cfg.erased x.1 = x.1 ∧ (x.2 = value.length →
    x.1 ∈ ((s.pools .update).segmentsInPool.lookup (cfg.home key value.length)).getD []))

instance (s : Store) (key value : Bytes) : Decidable (s.TamePut cfg key value) := inferInstanceAs (Decidable (_ ∧ _))

/-- A put is rejected or as above, a deletion is of a key that the tree does not have. -/
def Tame (cfg : Config) (s : Store) : Event → Prop
  | .put key value _ => (key.length ≠ keySize ∨ cfg.mainSegmentSize ≤ value.length) ∨ s.TamePut cfg key value
  | .del key _ => s.lsm key = none
  | .flush _ => True
  | .gc .. => True

instance (s : Store) : (e : Event) → Decidable (s.Tame cfg e)
  | .put .. => inferInstanceAs (Decidable (_ ∨ _))
  | .del .. => inferInstanceAs (Decidable (_ = _))
  | .flush _ => .isTrue trivial
  | .gc .. => .isTrue trivial

end Store

/-- What a call that answers `done` means for the map. -/
def Event.apply (e : Event) (done : Bool) (m : Bytes → Option Bytes) : Bytes → Option Bytes :=
  match e with
  | .put key value _ => putMap key value done m
  | .del key _ => if done then Function.update m key none else m
  | .flush _ => m
  | .gc .. => m

section
variable (h : Represents cfg s P pend G T m)
include h

theorem Represents.pooled_of_lastIn {x : Nat × Record cfg}
    (hidx : Indexed P (s.pools .update).keysInPool) (hx : lastIn P k = some x) :
    s.pooled k = some (x.1, x.2.value.length) := by
  have hkeys := hidx k
  rw [hx, Option.map_some] at hkeys
  have hhas := h.update.has (mem_of_lastIn hx)
  simp only [pooled, hkeys, hhas.len]

theorem Represents.recordOf_eq_none (hk : cfg.UserKey k) (hloc : s.located cfg k = false) : recordOf G k = none := by
  rcases hx : recordOf G k with _ | x
  · rfl
  · obtain ⟨hkey, -⟩ := h.settled.getKey_of_record hk id hx
    obtain ⟨hc, -⟩ := h.settled.laid.place (mem_of_recordOf hx).1
    have hlt := cfg.numSegment_lt
    have hlsm : x.segment ≠ lsmSegment := by unfold lsmSegment; omega
    have hinv : x.segment ≠ invalid := cfg.ne_invalid hc
    simp only [located, hkey, stored, decide_eq_false_iff_not] at hloc
    exact absurd ⟨hinv, hlsm⟩ hloc

theorem Represents.accepts (hidx : Indexed P (s.pools .update).keysInPool)
    (ht : s.TamePut cfg r.key r.value) : Accepts cfg P pend G r := by
  obtain ⟨-, hkind, hlsm, hin⟩ := ht
  refine ⟨fun r' hr' hkey => ?_, fun hr => ?_, fun hip x hx => ?_⟩
  · rw [← @map_snd_offsets _ Record.size 0 P] at hr'
    obtain ⟨y, hy, rfl⟩ := mem_map.1 hr'
    obtain ⟨x, hx⟩ : ∃ x, lastIn P y.2.key = some x := latest_isSome_of_mem hy
    have hxk := key_of_lastIn hx
    rw [hkey] at hx hxk
    rw [h.linked.kind y.2 (mem_of_mem_offsets hy) x.2 (mem_of_mem_offsets (mem_of_lastIn hx)) (hkey.trans hxk.symm)]
    have := hkind _ (h.pooled_of_lastIn hidx hx)
    rw [Record.home, Record.home, Config.home, Config.home, hxk, this]
  · exact h.recordOf_eq_none r.storable.1 (hlsm (r.toLSM_iff.2 hr))
  · obtain ⟨herased, hwaits⟩ := hin hip _ (h.pooled_of_lastIn hidx hx)
    refine ⟨herased, fun hlen => ?_⟩
    have hmem := hwaits hlen
    have hhome : x.2.home = cfg.home r.key r.value.length := by rw [Record.home, key_of_lastIn hx, hlen]
    rw [← hhome, h.update.pending] at hmem
    obtain ⟨y, hy, hyx⟩ := mem_map.1 hmem
    have hyx' := eq_of_mem_of_fst_eq (Pooled.sorted P) (h.update.mem_filter hy).1 (mem_of_lastIn hx) hyx
    rwa [hyx'] at hy

end

theorem Models.call {e : Event} (h : Models cfg s m) (ht : s.Tame cfg e) :
    wp (s.call cfg e) (fun (done, s') => Models cfg s' (e.apply done m)) (fun _ => True) := by
  obtain ⟨P, pend, G, T, hrep, hidx⟩ := h
  cases e with
  | put key value cs =>
    refine wp_ite (fun _ => ⟨P, pend, G, T, hrep, hidx⟩) fun hacc => ?_
    have ht' := ht.resolve_left hacc
    exact wp_mono (hrep.wp_putLoop (r := ⟨key, value, ht'.1⟩) hidx (hrep.accepts hidx ht')) (fun _ => id)
      fun _ _ => trivial
  | del key cs =>
    refine wp_ite (fun _ => ⟨P, pend, G, T, hrep, hidx⟩) fun _ => ?_
    have hkey : s.getKey cfg key = .ok {} := by rw [getKey, show s.lsm key = none from ht]
    rw [hkey, wp_bind]
    exact ⟨P, pend, G, T, hrep, hidx⟩
  | flush cs =>
    show wp ((true, ·) <$> (s.flushCentralizedReservedPool cfg false none cs >>= _)) _ _
    rw [wp_map]
    refine wp_seq hrep.wp_flush ?_
    rintro ⟨s', report, cs'⟩ ⟨⟨G', T', hrep', -⟩, hkeys⟩
    exact ⟨[], _, G', T', hrep', fun k => hkeys k⟩
  | gc all candidates =>
    show wp ((true, ·) <$> (s.gcGreedy cfg _ candidates none >>= _)) _ _
    rw [wp_map, wp_bind]
    refine wp_mono hrep.wp_gcGreedy ?_ fun _ _ => trivial
    rintro ⟨s', report⟩ ⟨⟨pend', G', T', hrep', -⟩, hkeys⟩
    refine ⟨P, pend', G', T', hrep', fun k => ?_⟩
    rw [hkeys]
    exact hidx k

theorem Models.init (disk : Nat → UInt8) : Models cfg (init cfg disk) fun _ => none :=
  ⟨[], fun _ => [], fun _ => [], fun _ => none,
    ⟨⟨Laid.init disk, Tree.init⟩, Pooled.init .update, Pooled.init .gc, rfl, Linked.init⟩, fun _ => rfl⟩

theorem Models.step {e : Event} (h : Models cfg s m) (ht : s.Tame cfg e) (hstep : s.step cfg e = some s') :
    ∃ done, s.call cfg e = .ok (done, s') ∧ Models cfg s' (e.apply done m) := by
  have hcall := wp_iff.1 (h.call ht)
  unfold Store.step at hstep
  rcases hc : s.call cfg e with e' | ⟨done, s₁⟩
  · rw [hc] at hstep; cases hstep
  · rw [hc] at hstep
    cases hstep
    exact ⟨done, rfl, hcall _ hc⟩

end ValueSep.HashKV
