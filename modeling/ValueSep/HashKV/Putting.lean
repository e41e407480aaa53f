import ValueSep.HashKV.Represent

/-!
# What a put does to the store

A put takes the key out of the index of the pool, may flush the pool, and then appends its record or writes it over the
last one of its key. `Accepts` says when that is right: all records of the key in the pool go where the new one goes,
a value for the LSM tree has no older record in a segment, and a record is overwritten only where it still waits.
-/

namespace ValueSep.HashKV

open Coding (Bytes)
open Wp
open List Function Option Journal Store Record SegmentGroupManager

variable {cfg : Config} {P P' : List (Record cfg)} {pend pend' : Nat → List (Nat × Record cfg)} {G : Nat → Content cfg}
  {T m m' : Bytes → Option Bytes} {s : Store} {g : Nat} {k : Bytes} {r : Record cfg} {p : Pool}

/-- The index has the last record of every key, except that it may not have `key`. -/
def IndexedBut (P : List (Record cfg)) (key : Bytes) (keysInPool : Bytes → Option Nat) : Prop :=
  ∀ k, k ≠ key → keysInPool k = (lastIn P k).map Prod.fst

def Indexed (P : List (Record cfg)) (keysInPool : Bytes → Option Nat) : Prop :=
  ∀ k, keysInPool k = (lastIn P k).map Prod.fst

/-- The store stands for the map `m`. -/
def Models (cfg : Config) (s : Store) (m : Bytes → Option Bytes) : Prop :=
  ∃ P pend G T, Represents cfg s P pend G T m ∧ Indexed P (s.pools .update).keysInPool

structure Accepts (cfg : Config) (P : List (Record cfg)) (pend : Nat → List (Nat × Record cfg)) (G : Nat → Content cfg)
    (r : Record cfg) : Prop where
  kind : ∀ r' ∈ P, r'.key = r.key → r'.home = r.home
  lsm : r.home = lsmSegment → recordOf G r.key = none
  inPlace : cfg.inPlaceUpdate → ∀ x, lastIn P r.key = some x → cfg.erased x.1 = x.1 ∧
    (x.2.value.length = r.value.length → x ∈ pend x.2.home)

namespace Represents

theorem setUpdate (h : Represents cfg s P pend G T m) (hp : Pooled cfg .update P' pend' p)
    (hl : Linked cfg P' pend' G T m') : Represents cfg (s.setPool .update p) P' pend' G T m' where
  settled := ⟨h.settled.laid, h.settled.tree⟩
  update := by
    simp only [setPool]
    exact hp
  gc := by
    simp only [setPool]
    exact h.gc
  names := by
    simp only [setPool]
    exact h.names
  linked := hl

end Represents

/-! ### Writing to the pool -/

theorem insertKey_indexed {o : Nat} (hread : p.pool.readData o keySize = .ok r.key) (hnone : p.keysInPool r.key = none)
    (hidx : ∀ k, k ≠ r.key → p.keysInPool k = (lastIn P k).map Prod.fst)
    (hlast : (lastIn P r.key).map Prod.fst = some o) :
    ∃ p', p.insertKey o = .ok p' ∧ p' = { p with keysInPool := p'.keysInPool } ∧ Indexed P p'.keysInPool := by
  refine ⟨{ p with keysInPool := update p.keysInPool r.key (some o) }, ?_, rfl, fun k => ?_⟩
  · rw [Pool.insertKey, hread]
    show Except.ok _ = _
    rw [hnone]
    rfl
  · show update p.keysInPool r.key (some o) k = _
    by_cases hk : k = r.key
    · rw [hk, update_self, hlast]
    · rw [update_of_ne hk]
      exact hidx k hk

theorem lastIn_concat : lastIn (P ++ [r]) k = if r.key = k then some (total size P, r) else lastIn P k := by
  rw [lastIn, offsets_concat, latest_concat, Nat.zero_add]
  rfl

theorem wp_writeAppend (hp : Pooled cfg .update P pend p) (hidx : IndexedBut P r.key p.keysInPool)
    (hnone : p.keysInPool r.key = none) (hfit : total size P + r.size ≤ cfg.poolSize)
    (hg : r.home = lsmSegment ∨ r.home < cfg.numMainSegment) :
    wp (writeUpdate r.key r.value r.value.length r.home r.home none p)
      (fun p' => Pooled cfg .update (P ++ [r]) (update pend r.home (pend r.home ++ [(total size P, r)])) p' ∧
        Indexed (P ++ [r]) p'.keysInPool) (fun _ => False) := by
  have hsize := r.size_eq
  have hkeyLen := r.key_length
  have hlenLen := length_encodeLen r.value.length
  have hcap := cfg.sizeOfPool_lt .update
  have hlen := hp.length
  have hfront := hp.front
  have hfit' : total size P + r.size ≤ cfg.sizeOfPool .update := hfit
  have h₁ : p.pool.appendData r.key keySize = .ok (p.pool.push r.key) :=
    Segment.appendData_ok hkeyLen.symm (by omega) (by omega)
  have h₂ : (p.pool.push r.key).appendData (encodeLen r.value.length) lenSize =
      .ok ((p.pool.push r.key).push (encodeLen r.value.length)) :=
    Segment.appendData_ok hlenLen.symm (by rw [Segment.writeFront_push, Segment.length_push]; omega)
      (by rw [Segment.length_push]; omega)
  have h₃ : ((p.pool.push r.key).push (encodeLen r.value.length)).appendData r.value r.value.length =
      .ok (p.pool.push r.image) := by
    rw [← Segment.push_image]
    refine Segment.appendData_ok rfl ?_ (by rw [Segment.length_push, Segment.length_push]; omega)
    rw [Segment.writeFront_push, Segment.writeFront_push, Segment.length_push, Segment.length_push]
    omega
  have happ := hp.append hfit' hg
  have hread := (hp.has_push hfit').key
  obtain ⟨p', hins, heq, hidx'⟩ := insertKey_indexed
    (p := ({ p with pool := p.pool.push r.image } : Pool).addUpdate r.home r.home (total size P) r.size)
    hread hnone (fun k hk => by rw [lastIn_concat, if_neg (Ne.symm hk)]; exact hidx k hk)
    (by rw [lastIn_concat, if_pos rfl]; rfl)
  simp only [writeUpdate]
  rw [h₁, wp_bind, wp_ok, h₂, wp_bind, wp_ok, if_pos r.value_pos, h₃, wp_bind, wp_ok, hfront,
    show recordSize r.value.length = r.size from rfl, hins, wp_ok]
  refine ⟨?_, hidx'⟩
  rw [heq]
  exact happ.congr rfl rfl rfl

theorem wp_writeInPlace {A B : List (Record cfg)} {r₀ : Record cfg} (hp : Pooled cfg .update (A ++ r₀ :: B) pend p)
    (hidx : IndexedBut (A ++ r₀ :: B) r.key p.keysInPool) (hnone : p.keysInPool r.key = none)
    (hlast : lastIn (A ++ r₀ :: B) r.key = some (total size A, r₀)) (hlen : r.value.length = r₀.value.length) :
    wp (Store.writeUpdate r.key r.value r.value.length g g (some (total size A)) p)
      (fun p' => Pooled cfg .update (A ++ r :: B) (fun g => (pend g).map (Pooled.swap (total size A) r)) p' ∧
        Indexed (A ++ r :: B) p'.keysInPool) (fun _ => False) := by
  have hkey : r.key = r₀.key := (key_of_lastIn hlast).symm
  have hmem : (total size A, r) ∈ offsets size 0 (A ++ r :: B) :=
    Journal.mem_offsets_iff.2 ⟨A, B, rfl, by rw [Nat.zero_add]⟩
  have hrep := hp.replace hkey hlen
  have hhas := hrep.has hmem
  have hsize := r.size_eq
  have hle := hhas.le
  have hcap := cfg.sizeOfPool_lt .update
  have hplen := hp.length
  have hover : p.pool.overwriteData r.value (total size A + keySize + lenSize) r.value.length =
      .ok { p.pool with buf := Memory.write p.pool.buf (total size A + keySize + lenSize) r.value } := by
    have hin : total size A + keySize + lenSize + r.value.length ≤ p.pool.length := by
      have : total size A + r.size ≤ p.pool.length := hle
      omega
    rw [Segment.overwriteData, Nat.mod_eq_of_lt (by omega), if_neg (by omega), if_pos ⟨Nat.le_refl _, hin⟩,
      List.take_length]
  have hlastIn : ∀ k, (lastIn (A ++ r :: B) k).map Prod.fst = (lastIn (A ++ r₀ :: B) k).map Prod.fst := by
    intro k
    rw [lastIn_swap hkey hlen, Option.map_map]
    congr 1
    funext x
    exact Pooled.fst_swap
  obtain ⟨p', hins, heq, hidx'⟩ := insertKey_indexed (p := { p with pool := { p.pool with
      buf := Memory.write p.pool.buf (total size A + keySize + lenSize) r.value } }) hhas.key hnone
    (fun k hk => (hidx k hk).trans (hlastIn k).symm) (by rw [hlastIn, hlast]; rfl)
  simp only [Store.writeUpdate]
  rw [hover, wp_bind, wp_ok, hins]
  refine ⟨?_, hidx'⟩
  rw [heq]
  exact hrep.congr rfl rfl rfl

/-! ### `ValueManager::putValue` -/

theorem Laid.segment_iff {m : SegmentGroupManager} {front : Nat → Nat} {disk : Nat → UInt8} {c : Nat}
    (h : Laid cfg m front disk G) (hc : c < cfg.numMainSegment) : m.segment c = some g ↔ g = c ∧ G c ≠ [] := by
  constructor
  · intro hg
    obtain ⟨l, hl, hmem⟩ := h.wf.owned c g hg
    obtain ⟨-, logs, rfl, -, hlogs⟩ := h.wf.shape g l hl
    have hcg : g = c := by
      rcases mem_cons.1 hmem with heq | hmem
      · exact heq.symm
      · have := (hlogs c hmem).1
        omega
    refine ⟨hcg, fun hnil => ?_⟩
    have := (h.of_segmentsOf hl).segments
    rw [hcg, hnil] at this
    rw [← hcg, hl] at this
    cases this
  · rintro ⟨rfl, hne⟩
    have hlaid := h.of_ne_nil hne
    exact h.wf.owner g _ hlaid.segments g (by rw [hlaid.cons_logs h.wf]; exact mem_cons_self ..)

/-- The offset to overwrite, if the record there has the length of the new value. -/
theorem wp_inPlaceOffset (hp : Pooled cfg .update P pend p) {found : Option Nat}
    (hfound : found = (lastIn P r.key).map Prod.fst) (hacc : Accepts cfg P pend G r) :
    wp (inPlaceOffset cfg p.pool found r.value.length) (fun inPlace => ∀ o, inPlace = some o → ∃ r₀,
        lastIn P r.key = some (o, r₀) ∧ r.value.length = r₀.value.length ∧ (o, r₀) ∈ pend r₀.home)
      (fun _ => False) := by
  rcases hlast : lastIn P r.key with _ | ⟨o, r₀⟩
  · rw [hfound, hlast]
    exact nofun
  · rw [hfound, hlast]
    refine wp_ite (fun hin => ?_) fun _ => nofun
    obtain ⟨herased, hwaits⟩ := hacc.inPlace hin _ hlast
    have hhas := hp.has (mem_of_lastIn hlast)
    have hpos := r₀.value_pos
    have hlt := r₀.value_lt
    have hne : r₀.value.length ≠ invalid := by unfold invalid; omega
    have herased' : cfg.erased o = o := herased
    simp only [herased', hhas.len]
    rw [wp_bind, wp_ok, if_neg (by omega), if_neg hne]
    intro o' ho'
    by_cases hlen : r₀.value.length = r.value.length
    · rw [if_pos hlen, Option.some.injEq] at ho'
      subst ho'
      exact ⟨r₀, rfl, hlen.symm, hwaits hlen⟩
    · rw [if_neg hlen] at ho'
      cases ho'

/-- Where the record goes: behind the others, or over the last one of its key, which waits and is as long. -/
def Writable (cfg : Config) (P : List (Record cfg)) (pend : Nat → List (Nat × Record cfg)) (r : Record cfg) :
    Option Nat → Prop
  | none => total Record.size P + r.size ≤ cfg.poolSize
  | some o => ∃ r₀, lastIn P r.key = some (o, r₀) ∧ r.value.length = r₀.value.length ∧ (o, r₀) ∈ pend r₀.home

/-- What a put of `r` returns: the length of the location and the store with the value, or none and the store
flushed. -/
def Put (cfg : Config) (r : Record cfg) (m : Bytes → Option Bytes) (inLSM : Bool) : Option Nat × Store × List Choice → Prop
  | (some n, s, _) => n = r.value.length + (if inLSM then 0 else lenSize) ∧
    Models cfg s (update m r.key (some r.value))
  | (none, s, _) => ∃ G T, Represents cfg s [] (fun _ => []) G T m ∧ ∀ k, (s.pools .update).keysInPool k = none

/-- The store waits for the record `r`: its key is out of the index. -/
structure Awaits (cfg : Config) (s : Store) (P : List (Record cfg)) (pend : Nat → List (Nat × Record cfg))
    (G : Nat → Content cfg) (T m : Bytes → Option Bytes) (r : Record cfg) : Prop where
  represents : Represents cfg s P pend G T m
  index : IndexedBut P r.key (s.pools .update).keysInPool
  absent : (s.pools .update).keysInPool r.key = none
  kind : ∀ r' ∈ P, r'.key = r.key → r'.home = r.home
  lsm : r.home = lsmSegment → recordOf G r.key = none

theorem Represents.unindex (h : Represents cfg s P pend G T m) (key : Bytes) :
    Represents cfg (s.unindex key) P pend G T m :=
  h.setUpdate (h.update.congr rfl rfl rfl) h.linked

theorem Represents.awaits (h : Represents cfg s P pend G T m) (hidx : Indexed P (s.pools .update).keysInPool)
    (hacc : Accepts cfg P pend G r) : Awaits cfg (s.unindex r.key) P pend G T m r where
  represents := h.unindex r.key
  index k hk := by
    simp only [Store.unindex, Store.setPool, update_self]
    rw [update_of_ne hk]
    exact hidx k
  absent := by simp only [Store.unindex, Store.setPool, update_self]
  kind := hacc.kind
  lsm := hacc.lsm

theorem Represents.awaits_flushed {s' : Store} {G' : Nat → Content cfg} {T' : Bytes → Option Bytes}
    (h : Represents cfg s' [] (fun _ => []) G' T' m) (hspare : Spares P G G')
    (hkeys : ∀ k, (s'.pools .update).keysInPool k = none) (hacc : Accepts cfg P pend G r) :
    Awaits cfg s' [] (fun _ => []) G' T' m r where
  represents := h
  index k _ := hkeys k
  absent := hkeys r.key
  kind _ hr' := by cases hr'
  lsm hr := hspare r.key (hacc.lsm hr) fun r' hr' hne hkey => hne (by rw [hacc.kind r' hr' hkey, hr])

theorem writable_nil : Writable cfg [] (fun _ => []) r none := by
  show 0 + r.size ≤ cfg.poolSize
  rw [Nat.zero_add]
  exact r.size_le_poolSize

theorem Represents.writable_of_canFit (h : Represents cfg s P pend G T m)
    (hcan : (s.pools .update).pool.canFit (recordSize r.value.length) = true) : Writable cfg P pend r none := by
  have hsize := r.size_eq
  have hlt := r.value_lt
  have hcap := cfg.sizeOfPool_lt .update
  have hle := h.update.le
  have hfront := h.update.front
  have hlen := h.update.length
  have hcan' : (s.pools .update).pool.canFit r.size = true := hcan
  have := (Segment.canFit_iff (by unfold keySize lenSize at hsize; omega) (by omega)).1 hcan'
  rwa [hfront, hlen] at this

theorem Awaits.wp_writeUpdate {inPlace : Option Nat} (h : Awaits cfg s P pend G T m r)
    (hgroup : r.home ≠ lsmSegment → G r.home ≠ []) (hw : Writable cfg P pend r inPlace) :
    wp (writeUpdate r.key r.value r.value.length r.home r.home inPlace (s.pools .update))
      (fun p => ∃ P' pend', Represents cfg (s.setPool .update p) P' pend' G T (update m r.key (some r.value)) ∧
        Indexed P' p.keysInPool) (fun _ => False) := by
  have hrep := h.represents
  cases inPlace with
  | none =>
    refine wp_mono (wp_writeAppend hrep.update h.index h.absent hw (or_iff_not_imp_left.2 r.home_lt)) ?_ fun _ => id
    rintro p ⟨hp, hidx'⟩
    exact ⟨_, _, hrep.setUpdate hp (hrep.linked.append h.kind h.lsm hgroup), hidx'⟩
  | some o =>
    obtain ⟨r₀, hlast, hlen, hwaits⟩ := hw
    obtain ⟨A, B, rfl, ho⟩ := mem_offsets_iff.1 (mem_of_lastIn hlast)
    rw [Nat.zero_add] at ho
    subst ho
    refine wp_mono (wp_writeInPlace hrep.update h.index h.absent hlast hlen) ?_ fun _ => id
    rintro p ⟨hp, hidx'⟩
    exact ⟨_, _, hrep.setUpdate hp (hrep.linked.replace hrep.update hlast hwaits hlen), hidx'⟩

/-- Only the group of the record has its main segment. -/
theorem Represents.home_of_group {groupId : Nat} (h : Represents cfg s P pend G T m)
    (hof : (if r.home = lsmSegment then some lsmSegment else s.groups.segment r.home) = some groupId) :
    groupId = r.home ∧ (r.home ≠ lsmSegment → G r.home ≠ []) := by
  by_cases hr : r.home = lsmSegment
  · rw [if_pos hr, Option.some.injEq] at hof
    exact ⟨hof.symm.trans hr.symm, fun hne => absurd hr hne⟩
  · rw [if_neg hr] at hof
    obtain ⟨heq, hne⟩ := (h.settled.laid.segment_iff (r.home_lt hr)).1 hof
    exact ⟨heq, fun _ => hne⟩

theorem Awaits.wp_putRest {inPlace : Option Nat} {cs : List Choice} {E : Stop → Prop} (h : Awaits cfg s P pend G T m r)
    (hw : Writable cfg P pend r inPlace)
    (hgone : (if r.home = lsmSegment then some lsmSegment else s.groups.segment r.home) = none →
      Put cfg r m (decide (r.home = lsmSegment)) (none, s, cs))
    (hE : ∀ p e, (if r.home = lsmSegment then some lsmSegment else s.groups.segment r.home) = some r.home →
      writeUpdate r.key r.value r.value.length r.home r.home inPlace (s.pools .update) = .ok p →
      ¬p.pool.canFit 1 ∨ cfg.updateKVBufferSize = 0 →
      (s.setPool .update p).flushCentralizedReservedPool cfg true none cs = .error e → E e) :
    wp (s.putRest cfg r.key r.value r.value.length r.home (r.value.length + if r.home = lsmSegment then 0 else lenSize)
        inPlace (if r.home = lsmSegment then some lsmSegment else s.groups.segment r.home) cs)
      (Put cfg r m (decide (r.home = lsmSegment))) E := by
  rcases hof : (if r.home = lsmSegment then some lsmSegment else s.groups.segment r.home) with _ | groupId
  · exact hgone hof
  · obtain ⟨rfl, hgroup⟩ := h.represents.home_of_group hof
    refine wp_bind.2 (wp_mono (wp_self (h.wp_writeUpdate hgroup hw)) ?_ fun _ => False.elim)
    rintro p ⟨hp, P', pend', hrep, hidx'⟩
    refine wp_ite (fun hfull => ?_) fun _ => ?_
    · refine wp_seq (wp_of_errors hrep.wp_flush fun e => hE p e hof hp (by simpa using hfull)) ?_
      rintro ⟨s', report, cs'⟩ ⟨⟨G', T', hrep', -⟩, hkeys⟩
      exact ⟨by simp, [], _, G', T', hrep', fun k => hkeys k⟩
    · refine ⟨by simp, P', pend', G, T, hrep, ?_⟩
      simpa [setPool] using hidx'

/-- A group that exists is its main segment's, and has that segment first. -/
theorem Represents.home_group (h : Represents cfg s P pend G T m) (hgroup : r.home ≠ lsmSegment → G r.home ≠ []) :
    (if r.home = lsmSegment then some lsmSegment else s.groups.segment r.home) = some r.home ∧
      (if r.home = lsmSegment then some lsmSegment
        else (s.groups.group r.home).bind fun g => g.segments.head?) = some r.home := by
  by_cases hr : r.home = lsmSegment
  · rw [if_pos hr, if_pos hr, hr]
    exact ⟨rfl, rfl⟩
  · have hlaid := h.settled.laid.of_ne_nil (hgroup hr)
    obtain ⟨gm, hgm, hseg⟩ := map_eq_some_iff.1 hlaid.segments
    rw [if_neg hr, if_neg hr, hgm, bind_some, hseg, hlaid.cons_logs h.settled.laid.wf]
    exact ⟨(h.settled.laid.segment_iff (r.home_lt hr)).2 ⟨rfl, hgroup hr⟩, rfl⟩

theorem Represents.wp_putRecord {s₀ : Store} {cs : List Choice} (h : Represents cfg s P pend G T m)
    (hidx : Indexed P (s.pools .update).keysInPool) (hacc : Accepts cfg P pend G r)
    (hgroup : r.home ≠ lsmSegment → G r.home ≠ []) (hnew : s₀.newMain cfg r.key r.value.length = .ok s) :
    wp (s.putRecord cfg r.key r.value r.value.length r.home cs) (Put cfg r m (decide (r.home = lsmSegment)))
      (s₀.Stops cfg r.key r.value) := by
  obtain ⟨hgroupOf, hmain⟩ := h.home_group hgroup
  -- the flush after the record is written
  have hafter : ∀ {s₁ : Store} {inPlace : Option Nat} {cs : List Choice} (p : Pool) (e : Stop),
      s.Ready cfg r.key r.value s₁ inPlace →
      (if r.home = lsmSegment then some lsmSegment else s₁.groups.segment r.home) = some r.home →
      writeUpdate r.key r.value r.value.length r.home r.home inPlace (s₁.pools .update) = .ok p →
      ¬p.pool.canFit 1 ∨ cfg.updateKVBufferSize = 0 →
      (s₁.setPool .update p).flushCentralizedReservedPool cfg true none cs = .error e →
      s₀.Stops cfg r.key r.value e := by
    intro s₁ inPlace cs p e hready hof hp hfull herr _
    refine ⟨_, _, _, .after hnew hready ?_ hp hfull, herr⟩
    by_cases hr : r.home = lsmSegment
    · exact .inl (r.toLSM_iff.2 hr)
    · rw [if_neg hr, r.home_of_ne hr] at hof
      exact .inr hof
  unfold putRecord
  simp only [hgroupOf, hmain]
  rw [wp_bind]
  refine wp_mono (wp_self (wp_inPlaceOffset h.update (hidx r.key) hacc)) ?_ fun _ => False.elim
  rintro inPlace ⟨hplace, hin⟩
  have hawaits := h.awaits hidx hacc
  refine wp_ite (fun hroom => ?_) fun hroom => ?_
  · obtain ⟨hfit, rfl⟩ : ¬(s.pools .update).pool.canFit (recordSize r.value.length) ∧ inPlace = none := by
      simpa using hroom
    refine wp_seq (wp_self (wp_of_errors hawaits.represents.wp_flush fun e herr _ =>
      ⟨_, _, _, .before hnew hplace hfit, herr⟩)) ?_
    rintro ⟨s', report, cs'⟩ ⟨hflush, ⟨G', T', hrep, hspare⟩, hkeys⟩
    have hput : Put cfg r m (decide (r.home = lsmSegment)) (none, s', cs') := ⟨G', T', hrep, hkeys⟩
    exact wp_ite (fun _ => hput) fun _ => (hrep.awaits_flushed hspare hkeys hacc).wp_putRest writable_nil (fun _ => hput)
      fun p e => hafter p e (.flushed hplace hfit hflush)
  · have hfit : (s.pools .update).pool.canFit (recordSize r.value.length) ∨ inPlace.isSome := by
      simpa [or_iff_not_imp_left, Option.isSome_iff_ne_none] using hroom
    refine wp_ite (fun hrep => ?_) fun _ => ?_
    · have hne : r.home ≠ invalid := by
        have hlt := r.home_lt
        have := cfg.numSegment_lt
        unfold Config.numSegment at *
        unfold lsmSegment invalid at *
        omega
      exact absurd (Option.some.inj hrep.1) hne
    · refine hawaits.wp_putRest ?_ (fun hnone => ?_) fun p e => hafter p e (.fits hplace hfit)
      · cases inPlace with
        | none => exact h.writable_of_canFit (hfit.resolve_right nofun)
        | some o => exact hin o rfl
      · rw [show (s.unindex r.key).groups = s.groups from rfl, hgroupOf] at hnone
        cases hnone

/-! ### `KvServer::putValue` -/

section
variable (h : Represents cfg s P pend G T m) (hlt : g < cfg.numMainSegment)
include h hlt

theorem Represents.created (hG : G g = []) (hgroup : s.groups.group g = none) (hseg : s.groups.segment g = none) :
    Represents cfg { s with groups := { s.groups with
      bitmap := Function.update s.groups.bitmap g true
      segment := Function.update s.groups.segment g (some g)
      group := Function.update s.groups.group g (some ⟨[g], 0, 0⟩) } } P pend (Function.update G g [(g, [])]) T m := by
  have hsame : ∀ k, recordOf (Function.update G g [(g, [])]) k = recordOf G k := by
    intro k
    rw [recordOf_update_nil]
    split
    · rename_i hk
      rw [recordOf, hk, hG]
      rfl
    · rfl
  have hlaid := h.settled.laid.created hlt (by rw [segmentsOf, hgroup]; rfl) hseg
  refine ⟨⟨hlaid.congr rfl rfl rfl rfl rfl fun g' _ => ?_, h.settled.tree.congr (fun _ _ => rfl) hsame⟩, h.update, h.gc,
    h.names, ?_⟩
  · by_cases heq : g' = g
    · subst heq
      simp [getGroupFlushFront]
    · simp [getGroupFlushFront, update_of_ne heq]
  · refine ⟨h.linked.kind, fun x hx => (hsame _).trans (h.linked.lsm x hx), fun g' hg' hne => ?_, h.linked.settled,
      h.linked.value⟩
    by_cases heq : g' = g
    · subst heq
      simp
    · rw [update_of_ne heq]
      exact h.linked.group g' hg' hne

theorem Represents.wp_getNewMainSegment :
    wp (s.groups.getNewMainSegment cfg g) (fun groups => ∃ G', Represents cfg { s with groups } P pend G' T m ∧ G' g ≠ [] ∧
        ∀ k, recordOf G' k = recordOf G k) (fun _ => True) := by
  refine wp_ite (fun hsome => ?_) fun hnone => ?_
  · obtain ⟨g', hg'⟩ := isSome_iff_exists.1 hsome
    exact ⟨G, h, ((h.settled.laid.segment_iff hlt).1 hg').2, fun _ => rfl⟩
  · have hlog : ¬cfg.isLogSegment g = true := by
      simpa [Config.isLogSegment] using hlt
    rw [if_neg hlog]
    refine wp_ite (fun _ => trivial) fun hgroup => ?_
    have hseg : s.groups.segment g = none := by simpa using hnone
    have hG : G g = [] := by
      by_contra hne
      rw [(h.settled.laid.segment_iff hlt).2 ⟨rfl, hne⟩] at hseg
      cases hseg
    refine ⟨Function.update G g [(g, [])], h.created hlt hG (by simpa using hgroup) hseg, ?_, fun k => ?_⟩
    · rw [update_self]; simp
    · rw [recordOf_update_nil]
      split
      · rename_i hk
        rw [recordOf, hk, hG]
        rfl
      · rfl

end

theorem Accepts.of_nil (h : r.home ≠ lsmSegment) : Accepts cfg [] (fun _ => []) G r where
  kind _ hr := by cases hr
  lsm hr := absurd hr h
  inPlace _ _ hx := by cases hx

theorem Accepts.congr {G' : Nat → Content cfg} (h : Accepts cfg P pend G r) (hG : ∀ k, recordOf G' k = recordOf G k) :
    Accepts cfg P pend G' r :=
  ⟨h.kind, fun hr => (hG _).trans (h.lsm hr), h.inPlace⟩

/-- The map after a put: it has the value if the call says so. -/
def putMap (key value : Bytes) (done : Bool) (m : Bytes → Option Bytes) : Bytes → Option Bytes :=
  if done then update m key (some value) else m

variable {cs : List Choice}

theorem Represents.newMain {s' : Store} (h : Represents cfg s P pend G T m)
    (hnew : s.newMain cfg r.key r.value.length = .ok s') :
    ∃ G', Represents cfg s' P pend G' T m ∧ s'.pools = s.pools ∧ (r.home ≠ lsmSegment → G' r.home ≠ []) ∧
      ∀ k, recordOf G' k = recordOf G k := by
  unfold Store.newMain at hnew
  by_cases hl : cfg.toLSM r.value.length
  · rw [if_pos hl] at hnew
    cases hnew
    exact ⟨G, h, rfl, fun hr => absurd (r.home_lsm hl) hr, fun _ => rfl⟩
  · rw [if_neg hl] at hnew
    have hhome := r.home_main (by simpa using hl)
    rw [← hhome] at hnew
    rcases hg : s.groups.getNewMainSegment cfg r.home with e | groups
    · rw [hg] at hnew; cases hnew
    · rw [hg] at hnew
      cases hnew
      obtain ⟨G', hrep, hne, hsame⟩ := wp_iff.1 (h.wp_getNewMainSegment (hhome ▸ cfg.mainSegmentOf_lt r.key)) _ hg
      exact ⟨G', hrep, rfl, fun _ => hne, hsame⟩

section
variable (h : Represents cfg s P pend G T m) (hidx : Indexed P (s.pools .update).keysInPool) (hacc : Accepts cfg P pend G r)
include h hidx hacc

theorem Represents.wp_putLoop {retries : Nat} :
    wp (s.putLoop cfg r.key r.value retries cs) (fun (done, s') => Models cfg s' (putMap r.key r.value done m))
      (s.Stops cfg r.key r.value) := by
  have hlsm : decide (r.home = lsmSegment) = cfg.toLSM r.value.length := by
    rw [Bool.eq_iff_iff, decide_eq_true_iff, r.toLSM_iff]
  -- a flush of a later attempt is one of the put
  refine wp_putLoop_of (I := fun s' => (∃ P pend G T, Represents cfg s' P pend G T m ∧
    Indexed P (s'.pools .update).keysInPool ∧ Accepts cfg P pend G r) ∧
    ∀ s₂, s'.Flushes cfg r.key r.value s₂ → s.Flushes cfg r.key r.value s₂) nofun ?_
    ⟨⟨P, pend, G, T, h, hidx, hacc⟩, fun _ => id⟩
  rintro s₀ cs s₁ ⟨⟨P, pend, G, T, h, hidx, hacc⟩, hlater⟩ hnew
  obtain ⟨G', hrep, hpools, hne, hsame⟩ := h.newMain hnew
  refine wp_mono (wp_self (hrep.wp_putRecord (hpools ▸ hidx) (hacc.congr hsame) hne hnew)) ?_ fun e he hlog => ?_
  swap
  · obtain ⟨s₂, report, cs', hflushes, herr⟩ := he hlog
    exact ⟨s₂, report, cs', hlater s₂ hflushes, herr⟩
  rw [hlsm]
  rintro ⟨_ | length, s', cs'⟩ ⟨hrecord, hput⟩
  · obtain ⟨G', T', hrep', hkeys⟩ := hput
    show if cfg.toLSM r.value.length then Models cfg s' m else _
    split
    · exact ⟨[], _, G', T', hrep', fun k => hkeys k⟩
    next hl =>
      exact ⟨⟨[], _, G', T', hrep', fun k => hkeys k, .of_nil fun hr => hl (r.toLSM_iff.2 hr)⟩,
        fun s₂ hflushes => hlater s₂ (.retry hnew hrecord hl hflushes)⟩
  · obtain ⟨hlen, hmodels⟩ := hput
    show Models cfg s' (putMap r.key r.value (decide _) m)
    rw [decide_eq_true hlen]
    exact hmodels

end

end ValueSep.HashKV
