import ValueSep.HashKV.Basic
import ValueSep.Lib.Circular
import ValueSep.Lib.Exec

/-!
# The fronts of the circular log (`segmentGroupManager.cc`)

In vLog mode, and for cold storage, values go to a circular log between a GC front and a write front. A write is granted
the range behind the write front, unless it would come too close to the GC front; other writes than those of the GC
keep `gcSize` bytes away from it. The fronts alone cannot tell an empty log from a full one; `LogRun` carries the number
of live bytes along.
-/

namespace ValueSep.HashKV

open Circular (cell)
open Option

/-- The parameters of `getAndIncrementVLogOffset`. -/
structure VLogConfig where
  isSlave : Bool
  /-- `getColdStorageCapacity`, or `getSystemEffectiveCapacity`. -/
  capacity : Nat
  gcSize : Nat
  capacity_pos : 0 < capacity
  capacity_lt : capacity < 2 ^ 62
  gcSize_lt : gcSize < 2 ^ 32

structure VLog where
  writeFront : Nat
  gcFront : Nat
  deriving DecidableEq, Repr

namespace VLog

/-- `(_vlog.gcFront - (isGC? 0 : gcSize) + capacity) % capacity`, in 64-bit words. -/
def limit (c : VLogConfig) (isGC : Bool) (v : VLog) : Nat :=
  (v.gcFront + (2 ^ 64 - (if isGC then 0 else c.gcSize)) + c.capacity) % 2 ^ 64 % c.capacity

/-- The condition under which a write is granted. -/
def grants (c : VLogConfig) (incOffset gcFront : Nat) (v : VLog) : Bool :=
  (v.writeFront ≥ gcFront ∧ (incOffset > v.writeFront ∨ (c.isSlave ∧ incOffset ≤ gcFront) ∨
    (¬c.isSlave ∧ incOffset < gcFront))) ∨
  (v.writeFront < gcFront ∧ (incOffset > v.writeFront ∧ ((c.isSlave ∧ incOffset ≤ gcFront) ∨
    (¬c.isSlave ∧ incOffset < gcFront))))

/-- The offset granted; `none` is `INVALID_LEN`. -/
def getAndIncrementVLogWriteOffset (c : VLogConfig) (diff : Nat) (isGC : Bool) (v : VLog) :
    Except Stop (Option Nat × VLog) :=
  if diff = 0 then .ok (none, v)
  else if c.capacity ≤ diff then .error .assertion
  else
    let incOffset := (v.writeFront + diff) % c.capacity
    if v.grants c incOffset (v.limit c isGC) then .ok (some v.writeFront, { v with writeFront := incOffset })
    else .ok (none, v)

def getAndIncrementVLogGCOffset (c : VLogConfig) (diff : Nat) (v : VLog) : Option Nat × VLog :=
  if diff = 0 then (none, v)
  else (some v.gcFront, { v with gcFront := (v.gcFront + diff) % c.capacity })

end VLog

/-- A pass of the GC: how many bytes were live when it began, how many it has released and written since. -/
structure Pass where
  start : Nat
  released : Nat
  written : Nat
  deriving DecidableEq, Repr

/-- The fronts, the number of live bytes between them, and the pass under way. -/
structure LogRun where
  log : VLog
  live : Nat
  pass : Option Pass
  deriving DecidableEq, Repr

inductive LogEvent
  | write (diff : Nat)
  | beginGC
  | release (diff : Nat)
  | writeGC (diff : Nat)
  | endGC
  deriving DecidableEq, Repr

namespace LogRun

def init : LogRun := ⟨⟨0, 0⟩, 0, none⟩

/-- The range an event is granted: its start and its length. -/
def granted (c : VLogConfig) (s : LogRun) (diff : Nat) (isGC : Bool) : Option Nat :=
  match s.log.getAndIncrementVLogWriteOffset c diff isGC with
  | .ok (start, _) => start
  | .error _ => none

/-- A write; a refused one changes nothing. -/
def append (c : VLogConfig) (s : LogRun) (diff : Nat) (isGC : Bool) : Option LogRun :=
  match s.log.getAndIncrementVLogWriteOffset c diff isGC with
  | .ok (some _, log) => some { s with log, live := s.live + diff }
  | .ok (none, _) => some s
  | .error _ => none

/-- User writes, and passes of the GC that do not release more than there is, write no more than they have released, and
gain `gcSize` bytes when they end. -/
def step (c : VLogConfig) (s : LogRun) : LogEvent → Option LogRun
  | .write diff => if s.pass = none ∧ 0 < diff ∧ diff < c.capacity then s.append c diff false else none
  | .beginGC => if s.pass = none then some { s with pass := some ⟨s.live, 0, 0⟩ } else none
  | .release diff => s.pass.bind fun p =>
    if diff ≤ s.live then some ⟨(s.log.getAndIncrementVLogGCOffset c diff).2, s.live - diff,
      some { p with released := p.released + diff }⟩ else none
  | .writeGC diff => s.pass.bind fun p =>
    if p.written + diff ≤ p.released then
      (s.append c diff true).map fun s' => { s' with pass := some { p with written := p.written + (s'.live - s.live) } }
    else none
  | .endGC => s.pass.bind fun p =>
    if p.written + c.gcSize ≤ p.released then some { s with pass := none } else none

/-- A write of `diff` bytes is not granted a live byte. -/
def Clear (c : VLogConfig) (s : LogRun) (diff : Nat) (isGC : Bool) : Prop :=
  ∀ start, s.granted c diff isGC = some start → ∀ i < diff, ∀ j < s.live,
    cell c.capacity start i ≠ cell c.capacity s.log.gcFront j

def Safe (c : VLogConfig) (s : LogRun) : LogEvent → Prop
  | .write diff => s.Clear c diff false
  | .writeGC diff => s.Clear c diff true
  | _ => True

/-- In cold storage, no user write finds the write front of a log in use exactly `gcSize` before the GC front. -/
def OffLimit (c : VLogConfig) (s : LogRun) : LogEvent → Prop
  | .write _ => c.isSlave → s.log.writeFront = s.log.limit c false → s.live = 0
  | _ => True

/-! ### What is granted -/

variable {c : VLogConfig} {v : VLog} {s s' : LogRun} {live diff : Nat} {isGC : Bool}

theorem VLog.limit_of_le (h : c.gcSize ≤ v.gcFront + c.capacity) (hgc : v.gcFront < c.capacity) :
    v.limit c false = (v.gcFront + c.capacity - c.gcSize) % c.capacity := by
  have := c.capacity_lt
  have hwrap : (v.gcFront + (2 ^ 64 - c.gcSize) + c.capacity) % 2 ^ 64 = v.gcFront + c.capacity - c.gcSize := by omega
  unfold VLog.limit
  rw [if_neg Bool.false_ne_true, hwrap]

theorem VLog.limit_lt : v.limit c isGC < c.capacity := Nat.mod_lt _ c.capacity_pos

/-- Between passes the live bytes leave the reserve alone. A reserve as large as the log is none; with a larger one no
pass can end, and the GC front does not move. -/
structure Ready (c : VLogConfig) (v : VLog) (live : Nat) : Prop where
  le : live ≤ c.capacity
  lt : c.isSlave = false → live < c.capacity
  reserve : c.gcSize < c.capacity → live + c.gcSize ≤ c.capacity ∧ (c.isSlave = false → live + c.gcSize < c.capacity)
  excess : c.capacity < c.gcSize → v.gcFront = 0 ∧
    (v.limit c false = 0 ∨ (live ≤ v.limit c false ∧ (c.isSlave = false → live < v.limit c false)))

/-- The live bytes lie from the GC front up to the write front. -/
structure Fronts (c : VLogConfig) (v : VLog) (live : Nat) : Prop where
  gc_lt : v.gcFront < c.capacity
  write_eq : v.writeFront = cell c.capacity v.gcFront live

theorem Fronts.append (h : Fronts c v live) :
    Fronts c { v with writeFront := (v.writeFront + diff) % c.capacity } (live + diff) :=
  ⟨h.gc_lt, by rw [h.write_eq]; exact Circular.cell_cell⟩

theorem Fronts.release (h : Fronts c v live) (hle : diff ≤ live) :
    Fronts c (v.getAndIncrementVLogGCOffset c diff).2 (live - diff) := by
  unfold VLog.getAndIncrementVLogGCOffset
  split
  · rename_i hzero
    rw [hzero]
    exact h
  · refine ⟨Nat.mod_lt _ c.capacity_pos, ?_⟩
    refine h.write_eq.trans ?_
    have hsum : live = diff + (live - diff) := by omega
    rw [hsum, Nat.add_sub_cancel_left]
    exact Circular.cell_cell.symm

/-- What is granted to a user write fits into the rest of the log, reserve excepted. -/
theorem Ready.of_grants (h : Ready c v live) (hf : Fronts c v live) (hpos : 0 < diff) (hlt : diff < c.capacity)
    (hoff : c.isSlave = true → v.writeFront = v.limit c false → live = 0)
    (hg : v.grants c ((v.writeFront + diff) % c.capacity) (v.limit c false) = true) :
    live + diff ≤ c.capacity ∧ Ready c { v with writeFront := (v.writeFront + diff) % c.capacity } (live + diff) := by
  obtain ⟨hle, hltc, hres, hexc⟩ := h
  have hgc := hf.gc_lt
  have hwf : v.writeFront = (v.gcFront + live) % c.capacity := hf.write_eq
  have hW := Circular.mod_cases (show v.gcFront + live < 2 * c.capacity by omega)
  have hinc := Circular.mod_cases (show v.writeFront + diff < 2 * c.capacity by omega)
  have hlim := @VLog.limit_lt c v false
  -- where the limit is, if the reserve is no larger than the log
  have hp : c.gcSize ≤ c.capacity → (v.gcFront < c.gcSize ∧ v.limit c false = v.gcFront + c.capacity - c.gcSize) ∨
      (c.gcSize ≤ v.gcFront ∧ v.limit c false = v.gcFront - c.gcSize) ∨
      (c.gcSize = 0 ∧ v.limit c false = v.gcFront) := by
    intro hs
    rw [VLog.limit_of_le (by omega) hgc]
    rcases Nat.eq_zero_or_pos c.gcSize with hzero | hspos
    · rw [hzero, Nat.sub_zero, Nat.add_mod_right, Nat.mod_eq_of_lt hgc]
      exact .inr (.inr ⟨rfl, rfl⟩)
    · have := Circular.mod_cases (show v.gcFront + c.capacity - c.gcSize < 2 * c.capacity by omega)
      omega
  have hkey : live + diff ≤ c.capacity ∧ (c.isSlave = false → live + diff < c.capacity) ∧
      (c.gcSize < c.capacity → live + diff + c.gcSize ≤ c.capacity ∧
        (c.isSlave = false → live + diff + c.gcSize < c.capacity)) ∧
      (c.capacity < c.gcSize → v.limit c false = 0 ∨ (live + diff ≤ v.limit c false ∧
        (c.isSlave = false → live + diff < v.limit c false))) := by
    simp only [VLog.grants, decide_eq_true_eq] at hg
    generalize v.limit c false = p at hg hoff hexc hlim hp ⊢
    cases hslave : c.isSlave with
    | true =>
      simp only [hslave, true_and, not_true_eq_false, false_and, or_false, Bool.true_eq_false, false_implies,
        and_true, forall_const] at hg hoff hres hexc ⊢
      refine ⟨?_, fun hs => ?_, fun hs => ?_⟩
      · rcases Nat.lt_or_ge c.capacity c.gcSize with hs | hs
        · omega
        · rcases Nat.lt_or_ge c.gcSize c.capacity with hs' | hs'
          · omega
          · omega
      · have := hres hs
        omega
      · omega
    | false =>
      simp only [hslave, Bool.false_eq_true, not_false_eq_true, true_and, false_and, false_or, forall_const] at hg hltc hres hexc ⊢
      have hlt : live + diff < c.capacity := by
        rcases Nat.lt_or_ge c.capacity c.gcSize with hs | hs
        · omega
        · rcases Nat.lt_or_ge c.gcSize c.capacity with hs' | hs'
          · omega
          · omega
      refine ⟨Nat.le_of_lt hlt, hlt, fun hs => ?_, fun hs => ?_⟩
      · have := hres hs
        omega
      · omega
  exact ⟨hkey.1, hkey.1, hkey.2.1, hkey.2.2.1, fun hs => ⟨(hexc hs).1, hkey.2.2.2 hs⟩⟩

variable {v' : VLog}

theorem writeOffset_cases {r : Option Nat}
    (h : v.getAndIncrementVLogWriteOffset c diff isGC = .ok (r, v')) : (r = none ∧ v' = v) ∨
      (r = some v.writeFront ∧ v' = { v with writeFront := (v.writeFront + diff) % c.capacity } ∧ 0 < diff ∧
        diff < c.capacity ∧ v.grants c ((v.writeFront + diff) % c.capacity) (v.limit c isGC) = true) := by
  unfold VLog.getAndIncrementVLogWriteOffset at h
  split at h
  · cases h
    exact .inl ⟨rfl, rfl⟩
  · rename_i hzero
    split at h
    · cases h
    · rename_i hge
      dsimp only at h
      split at h
      · rename_i hg
        cases h
        exact .inr ⟨rfl, rfl, Nat.pos_of_ne_zero hzero, Nat.lt_of_not_le hge, hg⟩
      · cases h
        exact .inl ⟨rfl, rfl⟩

/-! ### Runs -/

/-- A pass never has more live bytes than it began with. -/
structure Inv (c : VLogConfig) (s : LogRun) : Prop where
  fronts : Fronts c s.log s.live
  ready : s.pass = none → Ready c s.log s.live
  pass : ∀ p, s.pass = some p → s.live + p.released = p.start + p.written ∧ p.written ≤ p.released ∧
    ∃ v, Ready c v p.start

theorem inv_init : Inv c init where
  fronts := ⟨c.capacity_pos, (Nat.zero_mod _).symm⟩
  ready _ := by
    have := c.capacity_pos
    refine ⟨Nat.zero_le _, fun _ => this, fun hs => ⟨?_, fun _ => ?_⟩, fun hs => ⟨rfl, ?_⟩⟩
    · exact Nat.le_of_lt (by simpa [init] using hs)
    · simpa [init] using hs
    · rcases Nat.eq_zero_or_pos (init.log.limit c false) with hzero | hpos
      · exact .inl hzero
      · exact .inr ⟨Nat.zero_le _, fun _ => hpos⟩
  pass _ h := by cases h

theorem granted_eq_some {start : Nat} (h : s.granted c diff isGC = some start) :
    ∃ v', s.log.getAndIncrementVLogWriteOffset c diff isGC = .ok (some start, v') := by
  unfold granted at h
  rcases hw : s.log.getAndIncrementVLogWriteOffset c diff isGC with e | ⟨r, v'⟩
  · rw [hw] at h
    cases h
  · rw [hw] at h
    dsimp only at h
    rw [h]
    exact ⟨v', rfl⟩

/-- A write that leaves the log within its capacity gets bytes that are not live. -/
theorem Inv.clear (h : Inv c s) (hroom : ∀ start, s.granted c diff isGC = some start → s.live + diff ≤ c.capacity) :
    s.Clear c diff isGC := by
  intro start hstart i hi j hj
  have hle := hroom start hstart
  have heq : start = cell c.capacity s.log.gcFront s.live := by
    obtain ⟨v', hw⟩ := granted_eq_some hstart
    obtain ⟨⟨⟩, -⟩ | ⟨⟨⟩, -⟩ := writeOffset_cases hw
    exact h.fronts.write_eq
  rw [heq, Circular.cell_cell]
  exact (Circular.cell_ne_of_le (by omega) hj hi).symm

/-- The room for a write, user or GC, and what a granted one leads to. -/
theorem Inv.room_write (h : Inv c s) (hpass : s.pass = none) (hoff : s.OffLimit c (.write diff)) {r : Nat}
    (hw : s.log.getAndIncrementVLogWriteOffset c diff false = .ok (some r, v')) :
    s.live + diff ≤ c.capacity ∧ Ready c v' (s.live + diff) := by
  obtain ⟨hnone, -⟩ | ⟨-, rfl, hpos, hlt, hg⟩ := writeOffset_cases hw
  · cases hnone
  · exact (h.ready hpass).of_grants h.fronts hpos hlt hoff hg

theorem append_eq_some (h : s.append c diff isGC = some s') : s' = s ∨ ∃ start v',
    s.log.getAndIncrementVLogWriteOffset c diff isGC = .ok (some start, v') ∧ s' = { s with log := v', live := s.live + diff } := by
  unfold append at h
  rcases hw : s.log.getAndIncrementVLogWriteOffset c diff isGC with e | ⟨r, v'⟩
  · rw [hw] at h
    cases h
  · rw [hw] at h
    cases r with
    | none =>
      cases h
      exact .inl rfl
    | some start =>
      cases h
      exact .inr ⟨start, v', rfl, rfl⟩

theorem Fronts.of_write {start : Nat} (h : Fronts c v live)
    (hw : v.getAndIncrementVLogWriteOffset c diff isGC = .ok (some start, v')) : Fronts c v' (live + diff) := by
  obtain ⟨hnone, -⟩ | ⟨-, rfl, -⟩ := writeOffset_cases hw
  · cases hnone
  · exact h.append

theorem Inv.safe {e : LogEvent} (h : Inv c s) (hoff : s.OffLimit c e) (hstep : step c s e = some s') : s.Safe c e := by
  cases e with
  | write diff =>
    refine h.clear fun start hstart => ?_
    obtain ⟨v', hw⟩ := granted_eq_some hstart
    obtain ⟨hguard, -⟩ := ite_none_right_eq_some.1 hstep
    exact (h.room_write hguard.1 hoff hw).1
  | writeGC diff =>
    refine h.clear fun start _ => ?_
    cases hp : s.pass with
    | none => simp [step, hp] at hstep
    | some p =>
      simp only [step, hp] at hstep
      obtain ⟨hguard, -⟩ := ite_none_right_eq_some.1 hstep
      obtain ⟨hsum, -, v, hready⟩ := h.pass p hp
      have := hready.le
      omega
  | beginGC | release _ | endGC => trivial

theorem Inv.step {e : LogEvent} (h : Inv c s) (hoff : s.OffLimit c e) (hstep : LogRun.step c s e = some s') :
    Inv c s' := by
  cases e with
  | write diff =>
    obtain ⟨hguard, hstep⟩ := ite_none_right_eq_some.1 hstep
    obtain rfl | ⟨start, v', hw, rfl⟩ := append_eq_some hstep
    · exact h
    · refine ⟨h.fronts.of_write hw, fun _ => (h.room_write hguard.1 hoff hw).2, fun p hp => ?_⟩
      cases hguard.1.symm.trans hp
  | beginGC =>
    obtain ⟨hnone, ⟨⟩⟩ := ite_none_right_eq_some.1 hstep
    refine ⟨h.fronts, nofun, fun p hp => ?_⟩
    cases hp
    exact ⟨rfl, Nat.le_refl _, s.log, h.ready hnone⟩
  | release diff =>
    obtain ⟨p, hp, hstep⟩ := bind_eq_some_iff.1 hstep
    obtain ⟨hle, ⟨⟩⟩ := ite_none_right_eq_some.1 hstep
    refine ⟨h.fronts.release hle, nofun, fun q hq => ?_⟩
    cases hq
    obtain ⟨hsum, hwr, hready⟩ := h.pass p hp
    exact ⟨by dsimp only; omega, by dsimp only; omega, hready⟩
  | writeGC diff =>
    obtain ⟨p, hp, hstep⟩ := bind_eq_some_iff.1 hstep
    obtain ⟨hguard, hstep⟩ := ite_none_right_eq_some.1 hstep
    obtain ⟨hsum, hwr, hready⟩ := h.pass p hp
    obtain ⟨s₁, happ, rfl⟩ := map_eq_some_iff.1 hstep
    obtain rfl | ⟨start, v', hw, rfl⟩ := append_eq_some happ
    · refine ⟨h.fronts, nofun, fun q hq => ?_⟩
      cases hq
      exact ⟨by dsimp only; omega, by dsimp only; omega, hready⟩
    · refine ⟨h.fronts.of_write hw, nofun, fun q hq => ?_⟩
      cases hq
      exact ⟨by dsimp only; omega, by dsimp only; omega, hready⟩
  | endGC =>
    obtain ⟨p, hp, hstep⟩ := bind_eq_some_iff.1 hstep
    obtain ⟨hguard, ⟨⟩⟩ := ite_none_right_eq_some.1 hstep
    obtain ⟨hsum, hwr, v, hready⟩ := h.pass p hp
    refine ⟨h.fronts, fun _ => ?_, nofun⟩
    -- the pass released at least `gcSize` bytes more than it wrote
    have hle := hready.le
    have hlt := hready.lt
    have hres := hready.reserve
    refine ⟨by dsimp only; omega, fun hm => ?_, fun hs => ⟨?_, fun hm => ?_⟩, fun hs => ?_⟩
    · have := hlt hm
      dsimp only
      omega
    · dsimp only
      omega
    · have := (hres hs).2 hm
      dsimp only
      omega
    · omega

open Exec (run AllSteps exists₂_of_bind)

/-- No write is granted a byte that is live: never in the master's log, and not in cold storage as long as no user write
comes upon the write front exactly at the limit. -/
theorem grants_clear {events : List LogEvent} (hoff : AllSteps (step c) (OffLimit c) init events)
    (hrun : run (step c) init events = some s) {e : LogEvent} (he : s.OffLimit c e) (hstep : step c s e = some s') :
    s.Safe c e :=
  (Exec.run_inv (fun _ _ _ hs hP h => hs.step hP h) inv_init hoff hrun).safe he hstep

/-- 16 bytes, of which 4 are kept for the GC. -/
def smallLog (isSlave : Bool) : VLogConfig where
  isSlave := isSlave
  capacity := 16
  gcSize := 4
  capacity_pos := by decide
  capacity_lt := by decide
  gcSize_lt := by decide

/-- A log is filled, collected, and written around its end. -/
theorem grants_clear_small : ∃ s s', run (step (smallLog true)) init [.write 11, .beginGC, .release 8, .writeGC 3, .endGC] =
      some s ∧ step (smallLog true) s (.write 5) = some s' ∧ s'.log.writeFront = 3 ∧
    s.Safe (smallLog true) (.write 5) := by
  refine exists₂_of_bind (fun s s' => (s'.log.writeFront,
    decide (s.log.writeFront = s.log.limit (smallLog true) false))) (3, false) (by decide +kernel) fun s s' hs hstep heq => ?_
  simp only [Prod.mk.injEq, decide_eq_false_iff_not] at heq
  obtain ⟨hfront, hne⟩ := heq
  have hoff : AllSteps (step (smallLog true)) (OffLimit (smallLog true)) init
      [.write 11, .beginGC, .release 8, .writeGC 3, .endGC] :=
    ⟨fun _ h => absurd h (by decide), fun _ _ => ⟨trivial, fun _ _ => ⟨trivial, fun _ _ => ⟨trivial, fun _ _ =>
      ⟨trivial, fun _ _ => trivial⟩⟩⟩⟩⟩
  exact ⟨hfront, grants_clear hoff hs (fun _ h => absurd h hne) hstep⟩

/-- In cold storage a write may end at the limit; the next one is granted ten bytes although four are free. -/
theorem not_grants_clear_small : ∃ s s', run (step (smallLog true)) init [.write 12] = some s ∧
    step (smallLog true) s (.write 10) = some s' ∧ ¬s.Safe (smallLog true) (.write 10) := by
  refine exists₂_of_bind (fun s _ => (s.granted (smallLog true) 10 false, s.live, s.log.gcFront)) (some 12, 12, 0)
    (by decide +kernel) fun s s' hs hstep heq hsafe => ?_
  simp only [Prod.mk.injEq] at heq
  obtain ⟨hgrant, hlive, hgc⟩ := heq
  refine hsafe 12 hgrant 4 (by decide) 0 (by omega) ?_
  rw [hgc]
  rfl

end LogRun

end ValueSep.HashKV
