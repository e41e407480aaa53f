import ValueSep.HashKV.ValueLocation

/-!
# The key cache (`ds/lru.cc`, `leveldbKeyManager.cc`)

Used records are linked in a list, the most recent first, and found by a hash map. Locks, and what nothing calls, are
left out.
-/

namespace ValueSep.HashKV

open Coding (Bytes)
open List Function Wp

structure LruListRecord where
  key : Bytes
  segmentId : Nat

/-- A record is named by its place in `_slots`. -/
structure LruList where
  slots : Nat → LruListRecord
  existingRecords : Bytes → Option Nat
  freeRecords : List Nat
  lruList : List Nat

namespace LruList

/-- On fresh memory. -/
def init (slots : Nat → LruListRecord) (listSize : Nat) : LruList :=
  ⟨slots, fun _ => none, (range listSize).reverse, []⟩

/-- Without any record the oldest one would be the head of the list itself. -/
def insert (l : LruList) (key : Bytes) (segmentId : Nat) : Except Stop LruList :=
  match l.existingRecords key, l.freeRecords, l.lruList.getLast? with
  | some target, _, _ =>
    .ok { l with lruList := target :: l.lruList.erase target
                 slots := update l.slots target { l.slots target with segmentId } }
  | none, target :: freeRecords, _ =>
    .ok { freeRecords, lruList := target :: l.lruList, slots := update l.slots target ⟨key, segmentId⟩
          existingRecords := update l.existingRecords key (some target) }
  | none, [], some target =>
    .ok { l with lruList := target :: l.lruList.dropLast, slots := update l.slots target ⟨key, segmentId⟩
                 existingRecords := update (update l.existingRecords (l.slots target).key none) key (some target) }
  | none, [], none => .error .outOfBounds

def get (l : LruList) (key : Bytes) : Nat := ((l.existingRecords key).map fun i => (l.slots i).segmentId).getD invalid

def removeItem (l : LruList) (key : Bytes) : LruList :=
  match l.existingRecords key with
  | some target => ⟨l.slots, update l.existingRecords key none, target :: l.freeRecords, l.lruList.erase target⟩
  | none => l

/-- A cache of `n` records for the map `tree`. -/
structure Caches (n : Nat) (tree : Bytes → Option Nat) (l : LruList) : Prop where
  pos : 0 < n
  perm : l.lruList ++ l.freeRecords ~ range n
  used : ∀ k i, l.existingRecords k = some i → i ∈ l.lruList ∧ (l.slots i).key = k
  found : ∀ i ∈ l.lruList, l.existingRecords (l.slots i).key = some i
  tree : ∀ i ∈ l.lruList, tree (l.slots i).key = some (l.slots i).segmentId

namespace Caches

variable {n t c : Nat} {l : LruList} {key : Bytes} {tree : Bytes → Option Nat} (h : l.Caches n tree)

include h

/-- The record `t`, at the front, now has the key. -/
theorem front {m : Bytes → Option Nat} {free rest : List Nat} (hperm : t :: (rest ++ free) ~ range n)
    (hrest : ∀ i ∈ rest, i ∈ l.lruList ∧ (l.slots i).key ≠ key)
    (hm : ∀ k i, m k = some i ↔ if k = key then i = t else i ∈ rest ∧ (l.slots i).key = k) :
    Caches n (update tree key (some c)) ⟨update l.slots t ⟨key, c⟩, m, free, t :: rest⟩ := by
  have htree := h.tree
  have hnodup := hperm.nodup_iff.2 nodup_range
  exact ⟨h.pos, hperm, by grind, by grind, by grind⟩

theorem wp_insert : wp (l.insert key c) (Caches n (update tree key (some c))) fun _ => False := by
  obtain ⟨hpos, hperm, hused, hfound, -⟩ := id h
  have hnodup := hperm.nodup_iff.2 nodup_range
  unfold insert
  split
  next target hkey =>
    obtain ⟨ht, rfl⟩ := hused _ _ hkey
    refine h.front (((perm_cons_erase ht).symm.append_right _).trans hperm) ?_ ?_
    all_goals grind
  next target free _ hkey hfree =>
    refine h.front (perm_middle.symm.trans (hfree ▸ hperm)) ?_ ?_
    all_goals grind
  next target hkey hfree hlast =>
    have hsnoc := dropLast_append_getLast? target hlast
    refine h.front ?_ ?_ ?_
    · rw [← hsnoc] at hperm
      exact perm_middle.symm.trans (by simpa using hperm)
    all_goals grind
  next hkey hfree hlast =>
    have hlen := hperm.length_eq
    simp [getLast?_eq_none_iff.1 hlast, hfree, hpos.ne] at hlen

theorem removeItem (v : Option Nat) : (l.removeItem key).Caches n (update tree key v) := by
  obtain ⟨hpos, hperm, hused, hfound, htree⟩ := h
  have hnodup := hperm.nodup_iff.2 nodup_range
  unfold LruList.removeItem
  split
  next target hkey =>
    obtain ⟨ht, rfl⟩ := hused _ _ hkey
    have hmoved := perm_middle.trans (((perm_cons_erase ht).symm.append_right _).trans hperm)
    exact ⟨hpos, hmoved, by grind, by grind, by grind⟩
  next hkey => exact ⟨hpos, hperm, hused, hfound, by grind⟩

end Caches

end LruList

/-- `LevelDBKeyManager`. -/
structure KeyManager where
  lru : Option LruList
  lsm : Bytes → Option Bytes

inductive KeyEvent
  | writeKeyBatch (pairs : List (Bytes × ValueLocation)) (ok : Bool)
  | deleteKey (key : Bytes) (ok : Bool)

/-- A write that succeeds, or a deletion. -/
def KeyEvent.Fits (cfg : Config) (vlog : Bool) : KeyEvent → Prop
  | .writeKeyBatch pairs ok => ok ∧ ∀ p ∈ pairs, p.2.Storable cfg vlog
  | .deleteKey .. => True

namespace KeyManager

def init (slots : Nat → LruListRecord) (cacheSize : Nat) (lsm : Bytes → Option Bytes) : KeyManager :=
  ⟨if cacheSize = 0 then none else some (.init slots cacheSize), lsm⟩

variable (cfg : Config) (vlog : Bool)

/-- The cache comes first, with `needCache` 1 as in every call; `ok` is the answer of the LSM tree. -/
def step (m : KeyManager) : KeyEvent → Except Stop KeyManager
  | .writeKeyBatch pairs ok => do
    let lru ← pairs.foldlM (fun lru p => lru.mapM fun l => l.insert p.1 p.2.segmentId) m.lru
    return ⟨lru, if ok then pairs.foldl (fun lsm p => update lsm p.1 (p.2.encode cfg vlog)) m.lsm else m.lsm⟩
  | .deleteKey key ok => .ok ⟨m.lru.map (·.removeItem key), update m.lsm key (if ok then none else m.lsm key)⟩

/-- A cached key gives a location with the segment only. -/
def getKey (m : KeyManager) (key : Bytes) (checkExist : Bool) : Except Stop ValueLocation :=
  let segmentId := if checkExist then (m.lru.map (·.get key)).getD invalid else invalid
  if segmentId = invalid then (m.lsm key).elim (.ok {}) (ValueLocation.decode cfg vlog) else .ok { segmentId }

/-- With the cache and without it, a look-up names the same segment. -/
def Transparent (m : KeyManager) : Prop :=
  ∀ key, (m.getKey cfg vlog key true).map (·.segmentId) = (m.getKey cfg vlog key false).map (·.segmentId)

/-- The segment that an entry of the LSM tree names. -/
def segmentOf (v : Option Bytes) : Option Nat :=
  v.bind fun v => (ValueLocation.decode cfg vlog v).toOption.map (·.segmentId)

def Coherent (n : Nat) (m : KeyManager) : Prop := ∀ l ∈ m.lru, l.Caches n (segmentOf cfg vlog ∘ m.lsm)

variable {cfg : Config} {vlog : Bool} {m : KeyManager} {n : Nat}

theorem Coherent.wp_step (h : m.Coherent cfg vlog n) {e : KeyEvent} (he : e.Fits cfg vlog) :
    wp (m.step cfg vlog e) (Coherent cfg vlog n) fun _ => False := by
  cases e with
  | writeKeyBatch pairs ok =>
    obtain ⟨rfl, hp⟩ := he
    refine wp_bind.2 ?_
    obtain ⟨lru, lsm⟩ := m
    -- as if the tree were written pair by pair beside the cache
    induction pairs generalizing lru lsm with
    | nil => exact h
    | cons p pairs ih =>
      rw [forall_mem_cons] at hp
      obtain ⟨loc, hloc, hid, -⟩ := hp.1.roundTrips
      refine wp_seq (Q := fun lru => Coherent cfg vlog n ⟨lru, update lsm p.1 (p.2.encode cfg vlog)⟩) ?_
        fun lru' => ih hp.2 lru' _
      have hseg : segmentOf cfg vlog (p.2.encode cfg vlog) = some p.2.segmentId := by
        simp [segmentOf, hloc, hid, Except.toOption]
      simp only [Coherent, comp_update, hseg]
      cases lru with
      | none => simp
      | some l =>
        refine wp_map.2 (wp_mono (h l rfl).wp_insert (fun l' h' => ?_) fun _ => id)
        rintro _ ⟨⟩
        exact h'
  | deleteKey key ok =>
    rintro _ hl'
    obtain ⟨l, hl, rfl⟩ := Option.map_eq_some_iff.1 hl'
    rw [comp_update]
    exact (h l hl).removeItem _

theorem Coherent.transparent (h : m.Coherent cfg vlog n) : m.Transparent cfg vlog := by
  intro key
  obtain ⟨_ | l, lsm⟩ := m
  · rfl
  · have hl := h l rfl
    cases hkey : l.existingRecords key with
    | none => simp [getKey, LruList.get, hkey]
    | some i =>
      obtain ⟨hi, rfl⟩ := hl.used _ _ hkey
      have htree := hl.tree i hi
      simp only [segmentOf, comp_apply, Option.bind_eq_some_iff, Option.map_eq_some_iff, toOption_eq_some] at htree
      obtain ⟨v, hv, loc, hloc, hid⟩ := htree
      by_cases hinv : loc.segmentId = invalid
      all_goals simp [getKey, LruList.get, hkey, hv, hloc, ← hid, hinv, Except.map]

theorem transparent_run (slots : Nat → LruListRecord) (lsm : Bytes → Option Bytes) {es : List KeyEvent}
    (hes : ∀ e ∈ es, e.Fits cfg vlog) :
    wp (es.foldlM (step cfg vlog) (init slots n lsm)) (Transparent cfg vlog) fun _ => False := by
  have hinit : (init slots n lsm).Coherent cfg vlog n := by
    rintro _ hl
    obtain ⟨hn, ⟨⟩⟩ := Option.ite_none_left_eq_some.1 hl
    refine ⟨Nat.pos_of_ne_zero hn, reverse_perm _, ?_, ?_, ?_⟩
    all_goals simp [LruList.init]
  refine wp_mono (wp_foldlM (I := fun es m => (∀ e ∈ es, KeyEvent.Fits cfg vlog e) ∧ Coherent cfg vlog n m)
    (fun e es m h => ?_) ⟨hes, hinit⟩) (fun m h => h.2.transparent) fun _ => id
  obtain ⟨he, hes⟩ := forall_mem_cons.1 h.1
  exact wp_mono (h.2.wp_step he) (fun m' h' => ⟨hes, h'⟩) fun _ => id

/-- The second key takes the place of the first. -/
theorem transparent_run_evicted :
    wp ([.writeKeyBatch [([1], .stored 0 0 1), ([2], .stored 1 8 1)] true].foldlM (step smallConfig false)
      (init (fun _ => ⟨[], 0⟩) 1 fun _ => none)) (Transparent smallConfig false) fun _ => False := by
  refine transparent_run _ _ ?_
  simp only [forall_mem_cons, KeyEvent.Fits, ValueLocation.Storable]
  simp
  decide

end KeyManager

end ValueSep.HashKV
