import ValueSep.Lib.Exec

/-!
# Writers blocked by the size limit (`block_write_size`)

`Put` waits on `size_cv_` while `block_for_size_` is set. `BackgroundGC` and `CloseImpl` clear the flag and signal with
`size_mutex_` held; `OnCompactionCompleted` does so without it.
-/

namespace ValueSep.DiffKV

open Exec

/-- Who holds `size_mutex_`: a `Put` before and after it has looked at the flag again, or a thread that clears the flag,
before and after the store. -/
inductive SizeMutex
  | free
  | checking
  | rechecked
  | clearing
  | cleared
deriving DecidableEq

structure WriteStall where
  blockForSize : Bool := false
  holder : SizeMutex := .free
  /-- Calls of `Put`: past the first load, waiting on `size_cv_`, and woken. -/
  locking : Nat := 0
  waiting : Nat := 0
  woken : Nat := 0
  /-- Calls of `OnCompactionCompleted` that are about to clear the flag, and about to signal. -/
  storing : Nat := 0
  signalling : Nat := 0

inductive StallEvent
  | putLoad
  | putLock
  | putCheck
  | putWait
  | putWake
  | compactionBlocks
  | compactionLoad
  | compactionStore
  | compactionSignal
  | clearLock
  | clearStore
  | clearSignal
deriving DecidableEq

namespace WriteStall

/-- `size_cv_.SignalAll()`. -/
def signalAll (s : WriteStall) : WriteStall :=
  { s with waiting := 0, woken := s.woken + s.waiting }

def step (s : WriteStall) : StallEvent → Option WriteStall
  | .putLoad => if s.blockForSize then some { s with locking := s.locking + 1 } else some s
  | .putLock =>
    if 0 < s.locking ∧ s.holder = .free then some { s with locking := s.locking - 1, holder := .checking } else none
  | .putCheck =>
    if s.holder = .checking then some { s with holder := if s.blockForSize then .rechecked else .free } else none
  | .putWait => if s.holder = .rechecked then some { s with holder := .free, waiting := s.waiting + 1 } else none
  -- takes the mutex again and releases it at the end of the loop's body
  | .putWake => if 0 < s.woken ∧ s.holder = .free then some { s with woken := s.woken - 1 } else none
  | .compactionBlocks => some { s with blockForSize := true }
  | .compactionLoad => if s.blockForSize then some { s with storing := s.storing + 1 } else some s
  | .compactionStore =>
    if 0 < s.storing then
      some { s with storing := s.storing - 1, blockForSize := false, signalling := s.signalling + 1 }
    else none
  | .compactionSignal => if 0 < s.signalling then some { s with signalling := s.signalling - 1 }.signalAll else none
  | .clearLock => if s.holder = .free then some { s with holder := .clearing } else none
  | .clearStore => if s.holder = .clearing then some { s with holder := .cleared, blockForSize := false } else none
  | .clearSignal => if s.holder = .cleared then some { s with holder := .free }.signalAll else none

/-- A `Put` waits although the flag is clear, and nobody is about to signal. -/
def Lost (s : WriteStall) : Prop :=
  0 < s.waiting ∧ s.blockForSize = false ∧ s.signalling = 0 ∧ s.holder ≠ .cleared

/-- A compaction signals while no `Put` is between its second look at the flag and the wait. -/
def SignalSeen (s : WriteStall) (e : StallEvent) : Prop :=
  e = .compactionSignal → s.holder ≠ .rechecked

instance (s : WriteStall) (e : StallEvent) : Decidable (s.SignalSeen e) := by unfold SignalSeen; infer_instance

/-- Whoever waits, or is about to, has seen the flag set, and whoever clears it has still to signal. -/
structure Inv (s : WriteStall) : Prop where
  waiting : ¬s.Lost
  rechecked : s.holder = .rechecked → s.blockForSize ∨ 0 < s.signalling

variable {s s' : WriteStall} {e : StallEvent} {es : List StallEvent}

theorem inv_step (h : s.Inv) (hseen : s.SignalSeen e) (hs : s.step e = some s') : s'.Inv := by
  obtain ⟨hw, hr⟩ := h
  cases e <;> dsimp only [step] at hs
  case compactionBlocks => cases hs; exact ⟨by simp [Lost], by simp⟩
  case compactionSignal =>
    have hholder := hseen rfl
    split at hs <;> cases hs
    exact ⟨by simp [Lost, signalAll], fun h => absurd h hholder⟩
  all_goals split at hs <;> cases hs <;> constructor <;> grind [Lost, signalAll]

/-- No wake-up is lost in a run in which no compaction signals between a `Put`'s second look and its wait. -/
theorem not_lost_run (hseen : AllSteps step SignalSeen {} es) (hrun : run step {} es = some s) : ¬s.Lost :=
  (run_inv (fun _ _ _ => inv_step) ⟨by simp [Lost], by simp⟩ hseen hrun).waiting

theorem not_lost_run_woken : ∃ s, run step {} [.compactionBlocks, .putLoad, .putLock, .putCheck, .putWait,
    .compactionLoad, .compactionStore, .compactionSignal] = some s ∧ s.woken = 1 ∧ ¬s.Lost :=
  ⟨_, rfl, rfl, not_lost_run (show AllSteps step SignalSeen {} [.compactionBlocks, .putLoad, .putLock, .putCheck,
    .putWait, .compactionLoad, .compactionStore, .compactionSignal] by decide) rfl⟩

/-- The compaction clears the flag and signals when the `Put` has looked at the flag for the second time; then the `Put`
waits. -/
theorem lost_run : ∃ s, run step {} [.compactionBlocks, .putLoad, .putLock, .putCheck, .compactionLoad,
    .compactionStore, .compactionSignal, .putWait] = some s ∧ s.Lost :=
  ⟨_, rfl, Nat.one_pos, rfl, rfl, nofun⟩

end WriteStall

end ValueSep.DiffKV
