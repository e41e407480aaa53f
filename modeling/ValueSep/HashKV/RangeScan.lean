import Mathlib.Data.Nat.Bitwise
import ValueSep.HashKV.Calls
import ValueSep.HashKV.TreeKeys
import ValueSep.Lib.Cursor

/-!
# Range scans (`KvServer::getRangeValues`)

A scan walks LevelDB's iterator from the starting key on and looks every key up again in the update pool and on the
device. It is right about keys that the tree knows, while it meets no metadata and no value kept in the tree itself:
a value from the tree is looked up on the device all the same. The starting key is passed on as a C string.
-/

namespace ValueSep.HashKV

open Coding (Bytes)
open Exec (run)
open Cursor (Leading)
open Wp
open List Function Option ValueLocation Store Prod

/-- What `getRangeValues` fills in. A slot of `values` without a value is a null pointer. -/
structure RangeResult where
  keys : List Bytes
  values : List (Option Bytes)
  valueSize : List Nat

namespace Store

/-- `leveldb::Slice(startingKey)`: the bytes up to the first zero. -/
def cString (buf : Bytes) : Bytes := buf.takeWhile (· ≠ 0)

/-- `getKeyIterator`: what there is to walk through after `Seek`. The buffer of the starting key is read up to a zero
byte. -/
def getKeyIterator (it : List (Bytes × Bytes)) (startingKey : Bytes) : Except Stop (List (Bytes × Bytes)) :=
  if 0 ∈ startingKey then .ok (it.dropWhile fun e => e.1 < cString startingKey) else .error .outOfBounds

/-- The copy of `KEY_SIZE` bytes from `kit->key().c_str()`. -/
def copyKey (key : Bytes) : Except Stop Bytes :=
  if key.length + 1 < keySize then .error .outOfBounds else .ok ((key ++ [0]).take keySize)

/-- `getValueMt`: what becomes of the slot `value`. -/
def getValueMt (cfg : Config) (s : Store) (key : Bytes) (loc : ValueLocation) (value : Option Bytes) :
    Except Stop (Option Bytes) := do
  match ← s.getValueFromBuffer key with
  | some v => .ok (some v)
  | none =>
    if ¬cfg.disableKvSeparation ∧ loc.segmentId ≠ invalid then some <$> s.getValueFromDisk cfg key loc else .ok value

/-- One pass of the loop. -/
def rangeEntry (cfg : Config) (s : Store) (e : Bytes × Bytes) : Except Stop (Bytes × Option Bytes) := do
  let key ← copyKey e.1
  let loc ← deserialize cfg e.2
  let value := if (loc.segmentId = lsmSegment ∨ cfg.disableKvSeparation) ∧ loc.length ≠ invalid then some loc.value
    else none
  let value ← s.getValueMt cfg key loc value
  .ok (key, value)

/-- `it` is the iterator over the present tree. -/
def getRangeValues (cfg : Config) (s : Store) (it : List (Bytes × Bytes)) (startingKey : Bytes) (numKeys : Nat) :
    Except Stop RangeResult := do
  let it ← getKeyIterator it startingKey
  let found ← (it.take numKeys).mapM (s.rangeEntry cfg)
  let values := (range numKeys).map fun i => found[i]?.bind snd
  .ok { keys := found.map Prod.fst, values, valueSize := values.map fun v => (v.map List.length).getD 0 }

end Store

/-! ### What a scan should do -/

/-- Keys the store uses for its metadata begin with `HA5HKV_c` or `HA5HKV_g`. -/
def Reserved (key : Bytes) : Prop :=
  ['H', 'A', '5', 'H', 'K', 'V', '_', 'c'].map ascii <+: key ∨
    ['H', 'A', '5', 'H', 'K', 'V', '_', 'g'].map ascii <+: key

instance (key : Bytes) : Decidable (Reserved key) := inferInstanceAs (Decidable (_ ∨ _))

/-- These beginnings cover the metadata keys of every configuration. -/
theorem Config.userKey_of_not_reserved {cfg : Config} {key : Bytes} (hlen : key.length = keySize)
    (h : ¬Reserved key) : cfg.UserKey key :=
  ⟨hlen, fun _ _ heq => h (.inl ⟨_, heq.symm⟩), fun _ _ heq => h (.inr ⟨_, heq.symm⟩)⟩

namespace Store

/-- A key of a client, not before `start`, that a point read finds. -/
def Finds (cfg : Config) (s : Store) (start key : Bytes) : Prop :=
  (key.length = keySize ∧ ¬Reserved key) ∧ start ≤ key ∧ ∃ v, s.getValue cfg key = .ok (some v)

/-- The scan returns the first `numKeys` keys that point reads find, each with the value and the size a point read
gives. -/
def RangeAgrees (cfg : Config) (s : Store) (it : List (Bytes × Bytes)) (buf : Bytes) (numKeys : Nat) : Prop :=
  ∃ r, s.getRangeValues cfg it buf numKeys = .ok r ∧
    Leading (· < ·) numKeys (s.Finds cfg (buf.take keySize)) r.keys ∧
    ∀ (i : Nat) key, r.keys[i]? = some key → ∃ v, s.getValue cfg key = .ok (some v) ∧ r.values[i]? = some (some v) ∧
      r.valueSize[i]? = some v.length

/-- The entries of the tree that the scan meets. -/
def met (it : List (Bytes × Bytes)) (buf : Bytes) (numKeys : Nat) : List (Bytes × Bytes) :=
  (it.dropWhile fun e => e.1 < cString buf).take numKeys

/-- When a scan is right: the buffer of the starting key has a zero byte; the entries it meets are of keys that it
should return, none of them with a value in the tree unless the key is pooled as well; a key that the tree does not have
yet comes after all of them; and what follows the starting key in the buffer does not make it skip that key. -/
structure Scannable (cfg : Config) (s : Store) (it : List (Bytes × Bytes)) (buf : Bytes) (numKeys : Nat) : Prop where
  terminated : 0 ∈ buf
  entries : ∀ e ∈ met it buf numKeys, s.Finds cfg (buf.take keySize) e.1 ∧ ∃ loc, s.getKey cfg e.1 = .ok loc ∧
    (cfg.disableKvSeparation ∨ loc.segmentId ≠ lsmSegment ∨ (s.pools .update).keysInPool e.1 ≠ none)
  pooled : ∀ key, s.Finds cfg (buf.take keySize) key → s.lsm key = none →
    (met it buf numKeys).length = numKeys ∧ ∀ e ∈ met it buf numKeys, e.1 < key
  skipped : numKeys = 0 ∨ cString buf ≤ buf.take keySize ∨ s.lsm (buf.take keySize) = none ∨
    ¬s.Finds cfg (buf.take keySize) (buf.take keySize)

end Store

/-! ### Locations -/

theorem ValueLocation.deserialize_ok {cfg : Config} {v : Bytes} {loc : ValueLocation}
    (h : deserialize cfg v = .ok loc) : loc.length ≠ invalid ∧ loc.segmentId ≠ invalid ∧
      (loc.segmentId = lsmSegment → loc.value.length = loc.length) ∧
      (cfg.disableKvSeparation → loc.segmentId = lsmSegment) := by
  have hnum := cfg.numSegment_lt
  have hsum : cfg.numSegment = cfg.numMainSegment + cfg.numLogSegment := rfl
  -- the mark bit is never set in a length
  have hmark : ∀ n : Nat, (if n &&& lsmMask ≠ 0 then n ^^^ lsmMask else n) ≠ invalid := by
    intro n heq
    have hbit : (if n &&& lsmMask ≠ 0 then n ^^^ lsmMask else n).testBit 31 = true := by
      rw [heq]
      decide
    have hand : n &&& lsmMask = (n.testBit 31).toNat * 2 ^ 31 := Nat.and_two_pow n 31
    rcases hn : n.testBit 31 with _ | _
    · rw [if_neg (by rw [hand, hn]; decide), hn] at hbit
      cases hbit
    · rw [if_pos (by rw [hand, hn]; decide), Nat.testBit_xor, hn, lsmMask] at hbit
      cases hbit
  revert loc
  refine @(wp_iff.1 ?_)
  unfold deserialize
  have hlen := hmark (decodeLen (v.take lenSize))
  dsimp only
  generalize (if decodeLen (v.take lenSize) &&& lsmMask ≠ 0 then decodeLen (v.take lenSize) ^^^ lsmMask
    else decodeLen (v.take lenSize)) = len at hlen ⊢
  refine wp_ite (fun _ => trivial) fun _ => wp_ite (fun _ => ?_) fun hsep => wp_ite (fun _ => trivial) fun _ => ?_
  · refine wp_ite (fun _ => trivial) fun hrest => ?_
    exact ⟨hlen, show lsmSegment ≠ invalid by decide, fun _ => length_take_of_le (Nat.le_of_not_lt hrest), fun _ => rfl⟩
  · -- a segment that there is, or the one behind them
    have hseg : ∀ c, c ≤ cfg.numSegment → c ≠ invalid ∧ (c = lsmSegment → 0 = len) ∧
        (cfg.disableKvSeparation → c = lsmSegment) := fun c hc => by
      unfold invalid lsmSegment
      exact ⟨by omega, fun heq => absurd heq (by omega), fun hd => absurd (.inr hd) hsep⟩
    refine wp_ite (fun hoff => ⟨hlen, hseg _ ?_⟩) fun _ => wp_ite (fun _ => ⟨hlen, hseg _ (Nat.le_refl _)⟩) fun hlog =>
      ⟨hlen, hseg _ ?_⟩
    · have := (Nat.div_lt_iff_lt_mul cfg.mainSegmentSize_pos).2 hoff
      dsimp only
      omega
    · have := Nat.div_le_of_le_mul (Nat.le_of_not_lt hlog)
      dsimp only
      omega

namespace Store

variable {cfg : Config} {s : Store} {k v value start buf : Bytes} {it : List (Bytes × Bytes)} {n : Nat}

theorem length_getValueFromDisk {loc : ValueLocation} :
    wp (s.getValueFromDisk cfg k loc) (fun v => v.length < loc.length) fun _ => True := by
  refine wp_ite (fun _ => trivial) fun _ => wp_ite (fun h => ?_) fun _ => trivial
  rw [wp_ok, length_take]
  have : 0 < lenSize := by decide
  omega

theorem copyKey_of_length (h : k.length = keySize) : copyKey k = .ok k := by
  rw [copyKey, if_neg (by omega), take_left' h]

theorem copyKey_reserved {key : Bytes} (h : copyKey key = .ok k) (hr : Reserved key) : Reserved k := by
  have hlen : ∀ p : Bytes, p.length = 8 → p <+: key → p <+: k := by
    intro p hp hpre
    unfold copyKey at h
    split at h
    · cases h
    · cases h
      refine prefix_take_iff.2 ⟨hpre.trans (prefix_append ..), ?_⟩
      rw [hp]
      decide
  exact hr.imp (hlen _ rfl) (hlen _ rfl)

/-! ### One entry -/

/-- The scan gives what a point read gives exactly where it need not look a value of the tree up on the device. -/
theorem rangeEntry_iff (hlsm : s.lsm k = some v) (hk : k.length = keySize) :
    s.getValue cfg k = .ok (some value) ∧ s.rangeEntry cfg (k, v) = .ok (k, some value) ↔
      s.getValue cfg k = .ok (some value) ∧ ∃ loc, s.getKey cfg k = .ok loc ∧
        (cfg.disableKvSeparation ∨ loc.segmentId ≠ lsmSegment ∨ (s.pools .update).keysInPool k ≠ none) := by
  refine and_congr_right fun hget => ?_
  have hkey : s.getKey cfg k = deserialize cfg v := by rw [getKey, hlsm]
  rw [rangeEntry, copyKey_of_length hk, hkey]
  rcases hloc : deserialize cfg v with e | loc
  · constructor
    · intro h; cases h
    · rintro ⟨_, h, -⟩; cases h
  obtain ⟨hlen, hinv, hvalue, hsep⟩ := deserialize_ok hloc
  rw [getValue, if_neg (not_not_intro hk)] at hget
  show (s.getValueMt cfg k loc _ >>= fun value => Except.ok (k, value)) = _ ↔ _
  unfold getValueMt
  rcases hbuf : s.getValueFromBuffer k with e | found
  · rw [hbuf] at hget
    cases hget
  rw [hbuf] at hget
  cases found with
  | some w =>
    cases hget
    refine ⟨fun _ => ⟨loc, rfl, .inr (.inr fun hnone => ?_)⟩, fun _ => rfl⟩
    rw [getValueFromBuffer, hnone] at hbuf
    cases hbuf
  | none =>
    have hpool : (s.pools .update).keysInPool k = none := by
      unfold getValueFromBuffer at hbuf
      dsimp only at hbuf
      split at hbuf
      · assumption
      · revert hbuf
        cases (s.pools .update).pool.readLen _ with
        | error e => intro h; cases h
        | ok n =>
          show (if n = 0 then _ else _) = _ → _
          split
          · intro h; cases h
          · cases (s.pools .update).pool.readData _ n <;> intro h <;> cases h
    rw [hkey, hloc] at hget
    change (if (loc.segmentId = lsmSegment ∨ cfg.disableKvSeparation) ∧ loc.length ≠ invalid then _ else _) = _ at hget
    by_cases hd : cfg.disableKvSeparation = true
    · -- pairs are found entirely in the tree
      rw [if_pos ⟨.inr hd, hlen⟩] at hget
      cases hget
      rw [if_neg (fun h => h.1 hd), if_pos ⟨.inr hd, hlen⟩]
      exact ⟨fun _ => ⟨loc, rfl, .inl hd⟩, fun _ => rfl⟩
    · rw [if_pos ⟨hd, hinv⟩]
      by_cases hl : loc.segmentId = lsmSegment
      · -- what the device has is too short
        rw [if_pos ⟨.inl hl, hlen⟩] at hget
        cases hget
        constructor
        · intro h
          have hshort := @length_getValueFromDisk cfg s k loc
          rcases hdisk : s.getValueFromDisk cfg k loc with e | w
          · rw [hdisk] at h
            cases h
          · rw [hdisk] at h hshort
            cases h
            rw [wp_ok] at hshort
            omega
        · rintro ⟨loc', hloc', hor⟩
          cases hloc'
          rcases hor with h | h | h
          · exact absurd h hd
          · exact absurd hl h
          · exact absurd hpool h
      · rw [if_neg (fun h => h.1.elim hl hd), if_neg hinv] at hget
        rw [hget]
        exact ⟨fun _ => ⟨loc, rfl, .inr (.inl hl)⟩, fun _ => rfl⟩

/-! ### The whole scan -/

theorem length_met_le : (met it buf n).length ≤ n := length_take_le ..

theorem rangeAgrees_iff_found : s.RangeAgrees cfg it buf n ↔ 0 ∈ buf ∧ ∃ found,
    List.Forall₂ (fun e x => s.rangeEntry cfg e = .ok x) (met it buf n) found ∧
    Leading (· < ·) n (s.Finds cfg (buf.take keySize)) (found.map fst) ∧
    ∀ x ∈ found, ∃ v, s.getValue cfg x.1 = .ok (some v) ∧ x.2 = some v := by
  unfold RangeAgrees getRangeValues getKeyIterator
  by_cases hbuf : 0 ∈ buf
  · rw [if_pos hbuf]
    show (∃ r, ((met it buf n).mapM (s.rangeEntry cfg) >>= _) = .ok r ∧ _) ↔ _
    -- the slot of an entry that was met
    have hslot : ∀ found : List (Bytes × Option Bytes), found.length ≤ n → ∀ (i : Nat) (x : Bytes × Option Bytes),
        found[i]? = some x → ((range n).map fun i => found[i]?.bind snd)[i]? = some x.2 := by
      intro found hle i x hx
      have hi : i < found.length := (List.getElem?_eq_some_iff.1 hx).1
      rw [getElem?_map, getElem?_range (by omega), map_some, hx, bind_some]
    constructor
    · rintro ⟨r, hr, hlead, hvals⟩
      refine ⟨hbuf, ?_⟩
      rcases hm : (met it buf n).mapM (s.rangeEntry cfg) with e | found
      · rw [hm] at hr; cases hr
      · rw [hm] at hr
        cases hr
        have hall := mapM_eq_ok.1 hm
        refine ⟨found, hall, hlead, fun x hx => ?_⟩
        obtain ⟨i, hi⟩ := mem_iff_getElem?.1 hx
        have hle : found.length ≤ n := hall.length_eq ▸ length_met_le
        obtain ⟨v, hv, hval, -⟩ := hvals i x.1 (by rw [getElem?_map, hi]; rfl)
        rw [hslot found hle i x hi] at hval
        exact ⟨v, hv, some.inj hval⟩
    · rintro ⟨-, found, hall, hlead, hvals⟩
      have hle : found.length ≤ n := hall.length_eq ▸ length_met_le
      rw [mapM_eq_ok.2 hall]
      refine ⟨_, rfl, hlead, fun i key hkey => ?_⟩
      rw [getElem?_map] at hkey
      obtain ⟨x, hx, rfl⟩ := map_eq_some_iff.1 hkey
      obtain ⟨v, hv, hval⟩ := hvals x (mem_iff_getElem?.2 ⟨i, hx⟩)
      have hs := hslot found hle i x hx
      rw [hval] at hs
      exact ⟨v, hv, hs, by rw [getElem?_map, hs]; rfl⟩
  · rw [if_neg hbuf]
    exact ⟨fun ⟨_, h, _⟩ => (nomatch h), fun h => absurd h.1 hbuf⟩

theorem shaped_of_run {disk : Nat → UInt8} {es : List Event} (hrun : run (step cfg) (.init cfg disk) es = some s) :
    ∀ k, s.lsm k ≠ none → k.length = keySize ∨ Reserved k := by
  refine lsm_of_run (I := fun lsm => ∀ k, lsm k ≠ none → k.length = keySize ∨ Reserved k) ⟨?_, ?_, ?_⟩
    (fun k hk => absurd rfl hk) hrun
  · intro lsm k v h hlen k' hk'
    by_cases heq : k' = k
    · exact .inl (heq ▸ hlen)
    · rw [update_of_ne heq] at hk'
      exact h k' hk'
  · intro lsm c v h k' hk'
    by_cases heq : k' = segmentKey c
    · exact .inr (.inl ⟨_, heq.symm⟩)
    · rw [update_of_ne heq] at hk'
      exact h k' hk'
  · intro lsm g v h k' hk'
    by_cases heq : k' = groupKey g
    · exact .inr (.inr ⟨_, heq.symm⟩)
    · rw [update_of_ne heq] at hk'
      exact h k' hk'

theorem mem_met (h : Lists it s.lsm) {e : Bytes × Bytes} (he : e ∈ met it buf n) : s.lsm e.1 = some e.2 :=
  (h.2 _ _).1 ((dropWhile_sublist _).subset (mem_of_mem_take he))

/-- From the C string on, in order. -/
theorem dropWhile_eq_filter (h : Lists it s.lsm) :
    (it.dropWhile fun e => e.1 < cString buf) = it.filter fun e => cString buf ≤ e.1 := by
  have hsorted : it.Pairwise fun a b => a.1 < b.1 := List.pairwise_map.1 h.1
  have hfilter := Cursor.dropWhile_eq_filter (p := fun e => decide (cString buf ≤ e.1)) hsorted fun a b hab ha =>
    decide_eq_true (List.le_of_lt (List.lt_of_le_of_lt (of_decide_eq_true ha) hab))
  rw [← hfilter]
  congr 1
  funext e
  rw [Bool.eq_iff_iff]
  simp

theorem le_of_mem_met (hit : Lists it s.lsm) {e : Bytes × Bytes} (he : e ∈ met it buf n) : cString buf ≤ e.1 := by
  have hmem := mem_of_mem_take he
  rw [dropWhile_eq_filter hit, mem_filter] at hmem
  exact of_decide_eq_true hmem.2

/-- Between a string and its extensions there is no other string of its length. -/
theorem eq_of_lt_append {a t : Bytes} (hlen : k.length = a.length) (hle : a ≤ k) (hlt : k < a ++ t) : k = a := by
  induction a generalizing k with
  | nil => exact eq_nil_of_length_eq_zero hlen
  | cons x a ih =>
    cases k with
    | nil => cases hlen
    | cons y k =>
      rw [cons_append, cons_lt_cons_iff] at hlt
      rw [← List.not_lt, List.cons_lt_cons_iff, not_or, not_and] at hle
      obtain ⟨rfl, htail⟩ := hlt.resolve_left hle.1
      rw [ih (Nat.succ.inj hlen) (List.not_lt.1 (hle.2 rfl)) htail]

/-- `Seek` skips at most the starting key itself. -/
theorem eq_start_of_lt (hlen : keySize ≤ buf.length) (hk : k.length = keySize) (hle : buf.take keySize ≤ k)
    (hlt : k < cString buf) : ¬cString buf ≤ buf.take keySize ∧ k = buf.take keySize := by
  have hnot : ¬cString buf ≤ buf.take keySize := fun h => List.not_le.2 hlt (List.le_trans h hle)
  refine ⟨hnot, ?_⟩
  have hpre : buf.take keySize <+: cString buf := by
    refine ( prefix_or_prefix_of_prefix ( take_prefix ..) ( takeWhile_prefix ..)).resolve_right fun h => ?_
    obtain ⟨t, ht⟩ := h
    refine hnot ?_
    rw [← ht]
    exact le_append_left
  obtain ⟨t, ht⟩ := hpre
  rw [← ht] at hlt
  exact eq_of_lt_append (by rw [hk, length_take_of_le hlen]) hle hlt

theorem RangeAgrees.scannable (h : s.RangeAgrees cfg it buf n) (hit : Lists it s.lsm)
    (hshape : ∀ k, s.lsm k ≠ none → k.length = keySize ∨ Reserved k) : s.Scannable cfg it buf n := by
  obtain ⟨hbuf, found, hall, hlead, hvals⟩ := rangeAgrees_iff_found.1 h
  -- an entry that is not of a client's key would not be returned under one
  have hentry : ∀ e x, e ∈ met it buf n → x ∈ found → s.rangeEntry cfg e = .ok x → x.1 = e.1 ∧ e.1.length = keySize := by
    intro e x he hx hex
    have hcopy : copyKey e.1 = .ok x.1 := by
      unfold rangeEntry at hex
      rcases hc : copyKey e.1 with err | key
      · rw [hc] at hex; cases hex
      · rw [hc] at hex
        have hwp : wp (s.rangeEntry cfg e) (fun x => x.1 = key) fun _ => True := by
          unfold rangeEntry
          rw [hc, wp_bind]
          refine wp_bind_of_forall fun loc => wp_bind_of_forall fun value => rfl
        have := wp_iff.1 hwp x (by unfold rangeEntry; rw [hc]; exact hex)
        rw [this]
    have hfinds := hlead.mem x.1 (mem_map_of_mem hx)
    have hk : e.1.length = keySize := by
      refine (hshape e.1 ?_).resolve_right fun hr => hfinds.1.2 (copyKey_reserved hcopy hr)
      rw [mem_met hit he]
      exact some_ne_none _
    rw [copyKey_of_length hk] at hcopy
    exact ⟨(Except.ok.inj hcopy).symm, hk⟩
  have hpairs : ∀ {l : List (Bytes × Bytes)} {l' : List (Bytes × Option Bytes)},
      List.Forall₂ (fun e x => s.rangeEntry cfg e = .ok x) l l' → (∀ e ∈ l, e ∈ met it buf n) → (∀ x ∈ l', x ∈ found) →
      l'.map fst = l.map fst ∧ ∀ e ∈ l, ∃ x ∈ found, s.rangeEntry cfg e = .ok x := by
    intro l l' h
    induction h with
    | nil => exact fun _ _ => ⟨rfl, nofun⟩
    | cons hex _ ih =>
      intro hl hl'
      rw [forall_mem_cons] at hl hl'
      obtain ⟨hmap, hrest⟩ := ih hl.2 hl'.2
      rw [map_cons, hmap, (hentry _ _ hl.1 hl'.1 hex).1, forall_mem_cons]
      exact ⟨rfl, ⟨_, hl'.1, hex⟩, hrest⟩
  obtain ⟨hkeys, hfound⟩ := hpairs hall (fun _ => id) fun _ => id
  rw [hkeys] at hlead
  refine ⟨hbuf, fun e he => ?_, fun key hkey hnone => ?_, ?_⟩
  · refine ⟨hlead.mem _ (mem_map_of_mem he), ?_⟩
    obtain ⟨x, hx, hex⟩ := hfound e he
    obtain ⟨hfst, hk⟩ := hentry e x he hx hex
    obtain ⟨v, hv, hval⟩ := hvals x hx
    obtain ⟨k, w⟩ := x
    cases hfst
    cases hval
    exact ((rangeEntry_iff (mem_met hit he) hk).1 ⟨hv, hex⟩).2
  · have hnotin : key ∉ (met it buf n).map fst := by
      intro hin
      obtain ⟨e, he, rfl⟩ := mem_map.1 hin
      rw [mem_met hit he] at hnone
      cases hnone
    obtain ⟨hfull, hafter⟩ := hlead.rest key hkey hnotin
    rw [length_map] at hfull
    exact ⟨hfull, fun e he => hafter _ (mem_map_of_mem he)⟩
  · by_contra hskip
    simp only [not_or, not_not] at hskip
    obtain ⟨hn, hle, -, hfinds⟩ := hskip
    -- the starting key lies before everything that is met
    have hbefore : ∀ e ∈ met it buf n, buf.take keySize < e.1 := by
      intro e he
      exact List.not_le.1 fun h => hle (List.le_trans (le_of_mem_met hit he) h)
    have hnotin : buf.take keySize ∉ (met it buf n).map fst := by
      intro hin
      obtain ⟨e, he, heq⟩ := mem_map.1 hin
      have := hbefore e he
      rw [heq] at this
      exact List.lt_irrefl _ this
    obtain ⟨hfull, hafter⟩ := hlead.rest _ hfinds hnotin
    rcases hmet : met it buf n with _ | ⟨e, l⟩
    · rw [hmet] at hfull
      exact hn hfull.symm
    · have he : e ∈ met it buf n := hmet ▸ mem_cons_self ..
      exact List.lt_irrefl _ (List.lt_trans (hbefore e he) (hafter _ (List.mem_map_of_mem he)))

theorem Scannable.rangeAgrees (h : s.Scannable cfg it buf n) (hit : Lists it s.lsm) (hlen : keySize ≤ buf.length) :
    s.RangeAgrees cfg it buf n := by
  -- every entry yields what a point read gives
  have hentry : ∀ e ∈ met it buf n, ∃ v, s.getValue cfg e.1 = .ok (some v) ∧ s.rangeEntry cfg e = .ok (e.1, some v) := by
    intro e he
    obtain ⟨hfinds, hloc⟩ := h.entries e he
    obtain ⟨v, hv⟩ := hfinds.2.2
    exact ⟨v, hv, ((rangeEntry_iff (mem_met hit he) hfinds.1.1).2 ⟨hv, hloc⟩).2⟩
  have hfound : ∀ {l : List (Bytes × Bytes)}, (∀ e ∈ l, e ∈ met it buf n) → ∃ found,
      List.Forall₂ (fun e x => s.rangeEntry cfg e = .ok x) l found ∧ found.map fst = l.map fst ∧
      ∀ x ∈ found, ∃ v, s.getValue cfg x.1 = .ok (some v) ∧ x.2 = some v := by
    intro l
    induction l with
    | nil => exact fun _ => ⟨[], .nil, rfl, nofun⟩
    | cons e l ih =>
      intro hl
      rw [forall_mem_cons] at hl
      obtain ⟨found, hall, hmap, hvals⟩ := ih hl.2
      obtain ⟨v, hv, hex⟩ := hentry e hl.1
      refine ⟨(e.1, some v) :: found, .cons hex hall, by rw [map_cons, hmap, map_cons], ?_⟩
      rw [forall_mem_cons]
      exact ⟨⟨v, hv, rfl⟩, hvals⟩
  obtain ⟨found, hall, hmap, hvals⟩ := hfound fun _ => id
  refine rangeAgrees_iff_found.2 ⟨h.terminated, found, hall, ?_, hvals⟩
  rw [hmap]
  have hsub : (met it buf n).Sublist it := (take_sublist ..).trans (dropWhile_sublist _)
  refine ⟨hit.1.sublist (hsub.map _), fun key hkey => ?_, ?_, fun key hkey hnotin => ?_⟩
  · obtain ⟨e, he, rfl⟩ := mem_map.1 hkey
    exact (h.entries e he).1
  · rw [length_map]
    exact length_met_le
  · rw [length_map]
    suffices hrest : (met it buf n).length = n ∧ ∀ e ∈ met it buf n, e.1 < key by
      refine ⟨hrest.1, fun b hb => ?_⟩
      obtain ⟨e, he, rfl⟩ := mem_map.1 hb
      exact hrest.2 e he
    rcases hlsm : s.lsm key with _ | v
    · exact h.pooled key hkey hlsm
    · have hmem : (key, v) ∈ it := (hit.2 _ _).2 hlsm
      by_cases hseek : cString buf ≤ key
      · -- it comes after the `n` entries that were met
        have hsorted : (it.dropWhile fun e => e.1 < cString buf).Pairwise fun a b => a.1 < b.1 :=
          (pairwise_map.1 hit.1).sublist (dropWhile_sublist _)
        refine Cursor.rest_of_not_mem_take hsorted (a := (key, v)) ?_ fun hin => hnotin (List.mem_map_of_mem hin)
        rw [dropWhile_eq_filter hit, List.mem_filter]
        exact ⟨hmem, decide_eq_true hseek⟩
      · -- it is the starting key, and the scan is empty
        obtain ⟨hnot, rfl⟩ := eq_start_of_lt hlen hkey.1.1 hkey.2.1 (List.not_le.1 hseek)
        rcases h.skipped with rfl | hle | hnone | hn
        · have hnil : met it buf 0 = [] := take_zero
          exact ⟨rfl, nofun⟩
        · exact absurd hle hnot
        · rw [hnone] at hlsm
          cases hlsm
        · exact absurd hkey hn

theorem met_one (hit : Lists it s.lsm) (hstart : cString buf = k) (hlsm : s.lsm k = some v) : met it buf 1 = [(k, v)] := by
  subst hstart
  have hin : (cString buf, v) ∈ met it buf 1 := by
    by_contra hnotin
    have hsorted : (it.dropWhile fun e => e.1 < cString buf).Pairwise fun a b => a.1 < b.1 :=
      (pairwise_map.1 hit.1).sublist (dropWhile_sublist _)
    obtain ⟨hfull, hafter⟩ := Cursor.rest_of_not_mem_take hsorted (a := (cString buf, v)) (by
      rw [dropWhile_eq_filter hit, mem_filter]
      exact ⟨(hit.2 _ _).2 hlsm, decide_eq_true (List.le_refl _)⟩) hnotin
    obtain ⟨e, he⟩ := length_eq_one_iff.1 hfull
    have hmem : e ∈ met it buf 1 := by
      unfold met
      rw [he]
      exact mem_singleton_self e
    exact List.not_le.2 (hafter e hmem) (le_of_mem_met hit hmem)
  have hle := @length_met_le buf it 1
  have hpos := length_pos_of_mem hin
  obtain ⟨e, he⟩ := length_eq_one_iff.1 (show (met it buf 1).length = 1 by omega)
  rw [he] at hin ⊢
  rw [mem_singleton.1 hin]

/-- In every reachable store, for every starting key and number of keys. -/
theorem rangeAgrees_iff {disk : Nat → UInt8} {es : List Event}
    (hrun : run (step cfg) (.init cfg disk) es = some s) (hit : Lists it s.lsm) (hlen : keySize ≤ buf.length) :
    s.RangeAgrees cfg it buf n ↔ s.Scannable cfg it buf n :=
  ⟨fun h => h.scannable hit (shaped_of_run hrun), fun h => h.rangeAgrees hit hlen⟩

/-- A key with a record in a segment. -/
theorem rangeAgrees_iff_small : ∃ s it, run (step smallConfig) (.init smallConfig fun _ => 0)
    [.put (replicate 16 1) (replicate 8 1) [], .flush [.group 0]] = some s ∧ Lists it s.lsm ∧
    s.RangeAgrees smallConfig it (replicate 16 1 ++ [0]) 1 := by
  have hrun : (run (step smallConfig) (.init smallConfig fun _ => 0)
      [.put (replicate 16 1) (replicate 8 1) []]).bind (fun s =>
      (s.flushBuffer smallConfig [.group 0]).toOption.bind fun s' =>
      (s'.lsm (replicate 16 1)).bind fun v => (s'.getKey smallConfig (replicate 16 1)).toOption.bind fun loc =>
      (s'.getValue smallConfig (replicate 16 1)).toOption.map fun w => (v, loc, w)) =
      some ((stored 0 0 8).serialize smallConfig, .stored 0 0 8, some (replicate 8 1)) := by
    decide +kernel
  simp only [bind_eq_some_iff, map_eq_some_iff, toOption_eq_some] at hrun
  obtain ⟨s, hs, s', hflush, v, hv, loc, hloc, w, hw, rfl, rfl, rfl⟩ := hrun
  have hs' : run (step smallConfig) (.init smallConfig fun _ => 0)
      [.put (replicate 16 1) (replicate 8 1) [], .flush [.group 0]] = some s' := by
    refine Exec.run_append_eq_some.2 ⟨s, hs, ?_⟩
    rw [Exec.run_cons_eq_some]
    refine ⟨s', ?_, rfl⟩
    rw [step, call, hflush]
    rfl
  obtain ⟨it, hit⟩ := exists_lists_of_run hs'
  refine ⟨s', it, hs', hit, (rangeAgrees_iff hs' hit (by decide)).2 ?_⟩
  have hstart : cString (replicate 16 1 ++ [0]) = replicate 16 1 := by decide
  have hmet := met_one hit hstart hv
  -- a flush leaves nothing in the pool
  have hempty : ∀ key, (s'.pools .update).keysInPool key = none := by
    obtain ⟨m, P, pend, G, T, hrep, -⟩ := models_of_run (by decide +kernel) hs
    unfold flushBuffer at hflush
    rcases hf : s.flushCentralizedReservedPool smallConfig false none [.group 0] with e | ⟨s₁, report, cs⟩
    · rw [hf] at hflush; cases hflush
    · rw [hf] at hflush
      cases hflush
      exact (wp_iff.1 hrep.wp_flush _ hf).2
  refine ⟨by decide, fun e he => ?_, fun key hkey hnone => ?_, .inr (.inl (by decide))⟩
  · rw [hmet, mem_singleton] at he
    subst he
    exact ⟨⟨by decide, by decide, _, hw⟩, _, hloc, .inr (.inl (by decide))⟩
  · obtain ⟨hk, -, w, hw⟩ := hkey
    have hbuf : s'.getValueFromBuffer key = .ok none := by simp [getValueFromBuffer, hempty key]
    have hkey : s'.getKey smallConfig key = .ok {} := by rw [getKey, hnone]
    rw [getValue_of_getKey hk.1 hbuf hkey, if_pos rfl] at hw
    cases hw

/-- A short value, which the flush leaves in the tree: the scan looks for it on the device. And a key that is only in the
pool: the scan does not meet it. -/
theorem not_rangeAgrees_small : (∃ s it, run (step smallConfig) (.init smallConfig fun _ => 0)
    [.put (replicate 16 1) [7, 7] [], .flush [.group lsmSegment]] = some s ∧ Lists it s.lsm ∧
    s.getValue smallConfig (replicate 16 1) = .ok (some [7, 7]) ∧
    ¬s.RangeAgrees smallConfig it (replicate 16 1 ++ [0]) 1) ∧
    ∃ s it, run (step smallConfig) (.init smallConfig fun _ => 0)
    [.put (replicate 16 1) (replicate 8 1) []] = some s ∧ Lists it s.lsm ∧
    s.getValue smallConfig (replicate 16 1) = .ok (some (replicate 8 1)) ∧
    ¬s.RangeAgrees smallConfig it (replicate 16 1 ++ [0]) 1 := by
  have hstart : cString (replicate 16 1 ++ [0]) = replicate 16 1 := by decide
  constructor
  · have hrun : (run (step smallConfig) (.init smallConfig fun _ => 0)
        [.put (replicate 16 1) [7, 7] [], .flush [.group lsmSegment]]).bind (fun s =>
        (s.lsm (replicate 16 1)).bind fun v => (s.getKey smallConfig (replicate 16 1)).toOption.bind fun loc =>
        (s.getValue smallConfig (replicate 16 1)).toOption.map fun w =>
        (v, loc, w, (s.pools .update).keysInPool (replicate 16 1))) =
        some ((ValueLocation.inline [7, 7]).serialize smallConfig, .inline [7, 7], some [7, 7], none) := by
      decide +kernel
    simp only [bind_eq_some_iff, map_eq_some_iff, toOption_eq_some, Prod.mk.injEq] at hrun
    obtain ⟨s, hs, v, hv, loc, hloc, w, hw, rfl, rfl, rfl, hpool⟩ := hrun
    obtain ⟨it, hit⟩ := exists_lists_of_run hs
    refine ⟨s, it, hs, hit, hw, fun h => ?_⟩
    have hmet := met_one hit hstart hv
    obtain ⟨-, loc, hloc', hor⟩ := (h.scannable hit (shaped_of_run hs)).entries _ (hmet ▸ mem_singleton_self _)
    rw [hloc] at hloc'
    cases hloc'
    rcases hor with h | h | h
    · cases h
    · exact h rfl
    · exact h hpool
  · have hrun : (run (step smallConfig) (.init smallConfig fun _ => 0)
        [.put (replicate 16 1) (replicate 8 1) []]).bind (fun s =>
        (s.getValue smallConfig (replicate 16 1)).toOption.map fun w => (w, s.lsm (replicate 16 1))) =
        some (some (replicate 8 1), none) := by
      decide +kernel
    simp only [bind_eq_some_iff, map_eq_some_iff, toOption_eq_some, Prod.mk.injEq] at hrun
    obtain ⟨s, hs, w, hw, rfl, hnone⟩ := hrun
    obtain ⟨it, hit⟩ := exists_lists_of_run hs
    refine ⟨s, it, hs, hit, hw, fun h => ?_⟩
    obtain ⟨hfull, hbefore⟩ := (h.scannable hit (shaped_of_run hs)).pooled (replicate 16 1)
      ⟨by decide, by decide, _, hw⟩ hnone
    obtain ⟨e, he⟩ := length_eq_one_iff.1 hfull
    have hmem : e ∈ met it (replicate 16 1 ++ [0]) 1 := he ▸ mem_singleton_self e
    have hle := le_of_mem_met hit hmem
    exact List.not_le.2 (hbefore e hmem) hle

end Store

end ValueSep.HashKV
