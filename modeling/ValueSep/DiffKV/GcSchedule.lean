import Mathlib.Tactic.Linarith
import ValueSep.Lib.Exec

/-!
# Scheduling of GC jobs (`db_impl_gc.cc`)

The counters that `mutex_` protects, in steps between two moments at which it is free. Workers of the thread pool enter
`BackgroundCallGC`, wait there for drops of column families, run a job and leave; `DropColumnFamilies` waits for the
jobs; `CloseImpl` stops the scheduling, takes the workers that have not begun out of the pool and waits for the others.
Who waits on `bg_cv_` looks at their condition again after a signal, or when a spurious wake-up happens.
-/

namespace ValueSep.DiffKV

open Exec Option

/-- Where `CloseImpl` is; `unscheduled n` before it subtracts the `n` workers taken out of the pool. -/
inductive CloseStage
  | opened
  | shut
  | unscheduled (n : Nat)
  | awake
  | asleep
  | closed
deriving DecidableEq

@[grind] def CloseStage.removed : CloseStage → Nat
  | .unscheduled n => n
  | _ => 0

def CloseStage.signalled : CloseStage → CloseStage
  | .asleep => .awake
  | c => c

/-- The steps left, and whether the next one looks at `bg_gc_scheduled_`. -/
@[grind] def CloseStage.ahead : CloseStage → Nat
  | .shut => 3
  | .unscheduled _ => 2
  | .awake | .asleep => 1
  | _ => 0

@[grind] def CloseStage.looking : CloseStage → Nat
  | .awake => 1
  | _ => 0

namespace CloseStage

variable {c : CloseStage}

@[grind =] theorem removed_signalled : c.signalled.removed = c.removed := by cases c <;> rfl

@[grind =] theorem signalled_eq_opened : c.signalled = .opened ↔ c = .opened := by cases c <;> simp [signalled]

@[grind ←] theorem signalled_ne_asleep : c.signalled ≠ .asleep := by cases c <;> simp [signalled]

end CloseStage

structure GcSchedule where
  queue : List Nat := []
  unscheduled : Nat := 0
  scheduled : Nat := 0
  running : Nat := 0
  dropRequests : Nat := 0
  close : CloseStage := .opened
  /-- Workers in the thread pool. -/
  pooled : Nat := 0
  /-- Workers in the loop of `BackgroundCallGC`: about to look at `drop_cf_requests_`, and waiting. -/
  awake : Nat := 0
  asleep : Nat := 0
  /-- Calls of `DropColumnFamilies`: about to look at `bg_gc_running_`, waiting, and past the wait. -/
  dropAwake : Nat := 0
  dropAsleep : Nat := 0
  dropping : Nat := 0
  /-- Calls that have returned after an error of the base DB. -/
  failed : Nat := 0

inductive ScheduleEvent
  | addToGCQueue (cf : Nat)
  | maybeScheduleGC
  | enter
  | check
  | finish
  | drop
  | dropCheck
  /-- With what the base DB's and the blob file set's `DropColumnFamilies` answer. -/
  | dropEnd (base blobs : Bool)
  | shutDown
  | unSchedule
  | subtract
  | closeCheck
  /-- A worker, a call of `DropColumnFamilies` or `CloseImpl` wakes up without a signal. -/
  | wakeWorker
  | wakeDrop
  | wakeClose

/-- The events by which calls that have begun go on. -/
def ScheduleEvent.isInner : ScheduleEvent → Bool
  | .addToGCQueue _ | .maybeScheduleGC | .drop | .shutDown | .wakeWorker | .wakeDrop | .wakeClose => false
  | _ => true

def ScheduleEvent.baseFails : ScheduleEvent → Bool
  | .dropEnd base _ => !base
  | _ => false

namespace GcSchedule

-- `disable_background_gc` and `max_background_gc`
variable (disabled : Bool) (maxGC : Nat)

/-- The loop of `MaybeScheduleGC`, at most as many turns as jobs are unscheduled. -/
def scheduleLoop : Nat → GcSchedule → GcSchedule
  | 0, s => s
  | fuel + 1, s =>
    if 0 < s.unscheduled ∧ s.scheduled < maxGC then
      scheduleLoop fuel
        { s with unscheduled := s.unscheduled - 1, scheduled := s.scheduled + 1, pooled := s.pooled + 1 }
    else s

def maybeScheduleGC (s : GcSchedule) : GcSchedule :=
  if disabled then s
  else if s.close ≠ .opened then s
  else s.scheduleLoop maxGC s.unscheduled

/-- `bg_cv_.SignalAll()`. -/
def signalAll (s : GcSchedule) : GcSchedule :=
  { s with
    awake := s.awake + s.asleep, asleep := 0
    dropAwake := s.dropAwake + s.dropAsleep, dropAsleep := 0
    close := s.close.signalled }

/-- A worker looks at `drop_cf_requests_`, and goes on to the point where its job releases the mutex. -/
def beginJob (s : GcSchedule) : GcSchedule :=
  if 0 < s.dropRequests then { s with asleep := s.asleep + 1 }
  else { s with running := s.running + 1, queue := s.queue.tail }

/-- The end of `BackgroundCallGC`. -/
def endJob (s : GcSchedule) : GcSchedule :=
  let s := maybeScheduleGC disabled maxGC
    { s with running := s.running - 1, scheduled := s.scheduled - 1 }
  if s.scheduled = 0 ∨ s.running = 0 then s.signalAll else s

/-- The end of `DropColumnFamilies`; the counters are touched only if the base DB's drop was successful. -/
def endDrop (base : Bool) (s : GcSchedule) : GcSchedule :=
  if base then
    let s := { s with dropRequests := s.dropRequests - 1 }
    if s.dropRequests = 0 then s.signalAll else s
  else { s with failed := s.failed + 1 }

def step (s : GcSchedule) : ScheduleEvent → Option GcSchedule
  | .addToGCQueue cf => some { s with unscheduled := s.unscheduled + 1, queue := s.queue ++ [cf] }
  | .maybeScheduleGC => some (s.maybeScheduleGC disabled maxGC)
  | .enter => if 0 < s.pooled then some (beginJob { s with pooled := s.pooled - 1 }) else none
  | .check => if 0 < s.awake then some (beginJob { s with awake := s.awake - 1 }) else none
  | .finish => if 0 < s.running then some (s.endJob disabled maxGC) else none
  | .drop => some { s with dropRequests := s.dropRequests + 1, dropAwake := s.dropAwake + 1 }
  | .dropCheck =>
    if 0 < s.dropAwake then
      if 0 < s.running then some { s with dropAwake := s.dropAwake - 1, dropAsleep := s.dropAsleep + 1 }
      else some { s with dropAwake := s.dropAwake - 1, dropping := s.dropping + 1 }
    else none
  | .dropEnd base _ => if 0 < s.dropping then some (endDrop base { s with dropping := s.dropping - 1 }) else none
  | .shutDown => if s.close = .opened then some { s with close := .shut } else none
  | .unSchedule => if s.close = .shut then some { s with close := .unscheduled s.pooled, pooled := 0 } else none
  | .subtract =>
    match s.close with
    | .unscheduled n => some { s with close := .awake, scheduled := s.scheduled - n }
    | _ => none
  | .closeCheck =>
    if s.close = .awake then some { s with close := if 0 < s.scheduled then .asleep else .closed } else none
  | .wakeWorker => if 0 < s.asleep then some { s with asleep := s.asleep - 1, awake := s.awake + 1 } else none
  | .wakeDrop =>
    if 0 < s.dropAsleep then some { s with dropAsleep := s.dropAsleep - 1, dropAwake := s.dropAwake + 1 } else none
  | .wakeClose => if s.close = .asleep then some { s with close := .awake } else none

/-- The counters, against where the workers and the calls are. -/
structure Counted (s : GcSchedule) : Prop where
  queue : s.close = .opened → s.queue.length + s.running = s.unscheduled + s.scheduled
  workers : s.scheduled = s.pooled + s.close.removed + s.awake + s.asleep + s.running
  le_max : s.scheduled ≤ maxGC
  drops : s.dropRequests = s.dropAwake + s.dropAsleep + s.dropping + s.failed
  idle : 0 < s.dropping + s.failed → s.running = 0

/-- Nobody waits whose condition has come. -/
structure Inv (s : GcSchedule) : Prop extends Counted maxGC s where
  asleep : 0 < s.asleep → 0 < s.dropRequests
  dropAsleep : 0 < s.dropAsleep → 0 < s.running
  close : s.close = .asleep → 0 < s.scheduled

variable {disabled maxGC} {s s' : GcSchedule} {e : ScheduleEvent} {es : List ScheduleEvent}

/-- `MaybeScheduleGC` moves some of the unscheduled jobs to the pool, within the bound. -/
theorem scheduleLoop_eq (fuel : Nat) :
    ∃ k ≤ s.unscheduled, (s.scheduled ≤ maxGC → s.scheduled + k ≤ maxGC) ∧
      s.scheduleLoop maxGC fuel =
        { s with unscheduled := s.unscheduled - k, scheduled := s.scheduled + k, pooled := s.pooled + k } := by
  induction fuel generalizing s with
  | zero => exact ⟨0, Nat.zero_le _, id, rfl⟩
  | succ fuel ih =>
    unfold scheduleLoop
    split
    · rename_i h
      obtain ⟨k, hk, hmax, heq⟩ := @ih
        { s with unscheduled := s.unscheduled - 1, scheduled := s.scheduled + 1, pooled := s.pooled + 1 }
      dsimp only at hk hmax heq
      refine ⟨k + 1, by omega, by omega, ?_⟩
      rw [heq, Nat.sub_sub, Nat.add_assoc, Nat.add_assoc, Nat.add_comm 1 k]
    · exact ⟨0, Nat.zero_le _, id, rfl⟩

theorem maybeScheduleGC_eq (d : Bool) (maxGC : Nat) (s : GcSchedule) :
    ∃ k ≤ s.unscheduled, (s.scheduled ≤ maxGC → s.scheduled + k ≤ maxGC) ∧
      s.maybeScheduleGC d maxGC =
        { s with unscheduled := s.unscheduled - k, scheduled := s.scheduled + k, pooled := s.pooled + k } := by
  unfold maybeScheduleGC
  split_ifs
  exacts [⟨0, Nat.zero_le _, id, rfl⟩, ⟨0, Nat.zero_le _, id, rfl⟩, scheduleLoop_eq _]

theorem Counted.maybeScheduleGC (h : s.Counted maxGC) : (s.maybeScheduleGC disabled maxGC).Counted maxGC := by
  obtain ⟨k, hk, hmax, heq⟩ := maybeScheduleGC_eq disabled maxGC s
  obtain ⟨hq, hw, hm, hd, hi⟩ := h
  rw [heq]
  exact ⟨by grind, by grind, hmax hm, hd, hi⟩

theorem Counted.signalAll (h : s.Counted maxGC) : s.signalAll.Inv maxGC := by
  obtain ⟨hq, hw, hm, hd, hi⟩ := h
  refine ⟨⟨?_, ?_, hm, ?_, hi⟩, ?_, ?_, ?_⟩ <;> simp only [GcSchedule.signalAll] <;> grind

section
variable (h : s.Inv maxGC)
include h

theorem Inv.maybeScheduleGC : (s.maybeScheduleGC disabled maxGC).Inv maxGC := by
  obtain ⟨k, -, -, heq⟩ := maybeScheduleGC_eq disabled maxGC s
  have hcounted : (s.maybeScheduleGC disabled maxGC).Counted maxGC :=
    h.toCounted.maybeScheduleGC
  rw [heq] at hcounted ⊢
  exact ⟨hcounted, h.asleep, h.dropAsleep, fun hc => Nat.lt_of_lt_of_le (h.close hc) (Nat.le_add_right ..)⟩

/-- A worker that leaves the pool or the wait goes to a job or waits (again). -/
theorem Inv.beginJob {n m : Nat} (hn : n + m + 1 = s.pooled + s.awake) :
    (GcSchedule.beginJob { s with pooled := n, awake := m }).Inv maxGC := by
  obtain ⟨⟨hq, hw, hm, hd, hi⟩, ha, hda, hc⟩ := h
  unfold GcSchedule.beginJob
  split <;> refine ⟨⟨?_, ?_, hm, hd, ?_⟩, ?_, ?_, hc⟩ <;> grind

theorem Inv.endJob (hrun : 0 < s.running) : (s.endJob disabled maxGC).Inv maxGC := by
  obtain ⟨⟨hq, hw, hm, hd, hi⟩, ha, hda, hc⟩ := h
  have hcounted : Counted maxGC { s with running := s.running - 1, scheduled := s.scheduled - 1 } :=
    ⟨by grind, by grind, by grind, hd, by grind⟩
  unfold GcSchedule.endJob
  dsimp only
  split
  · exact hcounted.maybeScheduleGC.signalAll
  · obtain ⟨k, -, -, heq⟩ := maybeScheduleGC_eq disabled maxGC
      { s with running := s.running - 1, scheduled := s.scheduled - 1 }
    exact ⟨hcounted.maybeScheduleGC, by grind, by grind, by grind⟩

theorem Inv.endDrop {base : Bool} (hdrop : 0 < s.dropping) :
    (GcSchedule.endDrop base { s with dropping := s.dropping - 1 }).Inv maxGC := by
  obtain ⟨⟨hq, hw, hm, hd, hi⟩, ha, hda, hc⟩ := h
  unfold GcSchedule.endDrop
  split
  · have hcounted : Counted maxGC
        { s with dropping := s.dropping - 1, dropRequests := s.dropRequests - 1 } :=
      ⟨hq, hw, hm, by grind, by grind⟩
    dsimp only
    split
    · exact hcounted.signalAll
    · exact ⟨hcounted, by grind, hda, hc⟩
  · exact ⟨⟨hq, hw, hm, by grind, by grind⟩, ha, hda, hc⟩

theorem inv_step (hs : s.step disabled maxGC e = some s') : s'.Inv maxGC := by
  have ⟨⟨hq, hw, hm, hd, hi⟩, ha, hda, hc⟩ := h
  cases e with
  | addToGCQueue cf => cases hs; exact ⟨⟨by grind, hw, hm, hd, hi⟩, ha, hda, hc⟩
  | maybeScheduleGC => cases hs; exact h.maybeScheduleGC
  | enter =>
    obtain ⟨hpos, ⟨⟩⟩ := ite_none_right_eq_some.1 hs
    exact h.beginJob (by omega)
  | check =>
    obtain ⟨hpos, ⟨⟩⟩ := ite_none_right_eq_some.1 hs
    exact h.beginJob (by omega)
  | finish =>
    obtain ⟨hpos, ⟨⟩⟩ := ite_none_right_eq_some.1 hs
    exact h.endJob hpos
  | drop => cases hs; exact ⟨⟨hq, hw, hm, by grind, hi⟩, by grind, hda, hc⟩
  | dropCheck =>
    obtain ⟨hpos, hs⟩ := ite_none_right_eq_some.1 hs
    split at hs <;> cases hs
    · exact ⟨⟨hq, hw, hm, by grind, hi⟩, ha, by grind, hc⟩
    · exact ⟨⟨hq, hw, hm, by grind, by grind⟩, ha, hda, hc⟩
  | dropEnd base blobs =>
    obtain ⟨hpos, ⟨⟩⟩ := ite_none_right_eq_some.1 hs
    exact h.endDrop hpos
  | shutDown =>
    obtain ⟨hopen, ⟨⟩⟩ := ite_none_right_eq_some.1 hs
    exact ⟨⟨nofun, by grind, hm, hd, hi⟩, ha, hda, nofun⟩
  | unSchedule =>
    obtain ⟨hshut, ⟨⟩⟩ := ite_none_right_eq_some.1 hs
    exact ⟨⟨nofun, by grind, hm, hd, hi⟩, ha, hda, nofun⟩
  | subtract =>
    dsimp only [step] at hs
    split at hs <;> cases hs
    exact ⟨⟨nofun, by grind, by grind, hd, hi⟩, ha, hda, nofun⟩
  | closeCheck =>
    obtain ⟨hawake, ⟨⟩⟩ := ite_none_right_eq_some.1 hs
    exact ⟨⟨by grind, by grind, hm, hd, hi⟩, ha, hda, by grind⟩
  | wakeWorker =>
    obtain ⟨hpos, ⟨⟩⟩ := ite_none_right_eq_some.1 hs
    exact ⟨⟨hq, by grind, hm, hd, hi⟩, by grind, hda, hc⟩
  | wakeDrop =>
    obtain ⟨hpos, ⟨⟩⟩ := ite_none_right_eq_some.1 hs
    exact ⟨⟨hq, hw, hm, by grind, hi⟩, ha, by grind, hc⟩
  | wakeClose =>
    obtain ⟨hasleep, ⟨⟩⟩ := ite_none_right_eq_some.1 hs
    exact ⟨⟨nofun, by grind, hm, hd, hi⟩, ha, hda, nofun⟩

end

theorem inv_run (hrun : run (step disabled maxGC) {} es = some s) : s.Inv maxGC :=
  run_inv (fun _ _ _ h _ hs => inv_step h hs)
    ⟨⟨fun _ => rfl, rfl, Nat.zero_le _, rfl, fun _ => rfl⟩, id, id, by simp⟩
    (AllSteps.of_forall fun _ _ => trivial) hrun

/-- Whenever the mutex is free before the shutdown: the jobs in the queue are those that no running worker has taken, so
a worker that is to begin finds one, and no job runs while a call of `DropColumnFamilies` is past its wait. -/
theorem queue_length_run (hrun : run (step disabled maxGC) {} es = some s) (hopen : s.close = .opened) :
    s.queue.length = s.unscheduled + s.scheduled - s.running ∧ s.running ≤ s.scheduled ∧
      s.scheduled ≤ maxGC ∧ (0 < s.pooled + s.awake + s.asleep → s.queue ≠ []) ∧
      (0 < s.dropping + s.failed → s.running = 0) := by
  obtain ⟨⟨hq, hw, hm, -, hi⟩, -, -, -⟩ := inv_run hrun
  have hlength := hq hopen
  refine ⟨by omega, by omega, hm, fun hpos hnil => ?_, hi⟩
  rw [hnil, List.length_nil] at hlength
  omega

/-- A job is running, another waits for a worker, and a column family is to be dropped. -/
theorem queue_length_run_two : ∃ s,
    run (step false 1) {} [.addToGCQueue 7, .maybeScheduleGC, .addToGCQueue 8, .enter, .drop, .dropCheck] = some s ∧
      s.running = 1 ∧ s.dropAsleep = 1 ∧ s.queue.length = s.unscheduled + s.scheduled - s.running :=
  ⟨_, rfl, rfl, rfl, (queue_length_run (show run (step false 1) {}
    [.addToGCQueue 7, .maybeScheduleGC, .addToGCQueue 8, .enter, .drop, .dropCheck] = some _ from rfl) rfl).1⟩

/-! ### What waits for a drop -/

@[simp] theorem failed_signalAll : s.signalAll.failed = s.failed := rfl

@[simp] theorem failed_beginJob : s.beginJob.failed = s.failed := by
  unfold beginJob; split <;> rfl

@[simp] theorem failed_maybeScheduleGC : (s.maybeScheduleGC disabled maxGC).failed = s.failed := by
  obtain ⟨k, -, -, heq⟩ := maybeScheduleGC_eq disabled maxGC s
  rw [heq]

theorem failed_step (hs : s.step disabled maxGC e = some s') :
    s'.failed = s.failed + if e.baseFails then 1 else 0 := by
  cases e <;> dsimp only [step, endJob, endDrop] at hs
  case addToGCQueue | maybeScheduleGC | drop => cases hs; simp [ScheduleEvent.baseFails]
  case subtract => split at hs <;> cases hs; rfl
  all_goals split_ifs at hs <;> cases hs <;> simp_all [ScheduleEvent.baseFails]

theorem failed_run (hrun : run (step disabled maxGC) s es = some s') :
    s'.failed = s.failed + es.countP ScheduleEvent.baseFails := by
  induction es generalizing s with
  | nil => cases hrun; rfl
  | cons e es ih =>
    obtain ⟨s₁, hs, hrest⟩ := run_cons_eq_some.1 hrun
    rw [ih hrest, failed_step hs, List.countP_cons, Nat.add_assoc, Nat.add_comm (ite ..)]

/-- What calls that have begun still have to do. -/
def ahead (s : GcSchedule) : Nat :=
  4 * s.unscheduled + 3 * s.pooled + 2 * (s.awake + s.asleep) + s.running + 2 * (s.dropAwake + s.dropAsleep) +
    s.dropping + s.close.ahead

/-- Those that are about to look at their condition. -/
def looking (s : GcSchedule) : Nat :=
  s.awake + s.dropAwake + s.close.looking

/-- Bounds the steps of calls that have begun: a call may look in vain once after each step that gets on. -/
def work (s : GcSchedule) : Nat :=
  s.ahead * (s.ahead + 1) + s.looking

theorem work_lt (hlooking : s'.looking ≤ s'.ahead)
    (h : s'.ahead < s.ahead ∨ s'.ahead = s.ahead ∧ s'.looking < s.looking) : s'.work < s.work := by
  unfold work
  rcases h with h | ⟨heq, hlt⟩
  · nlinarith [Nat.mul_le_mul h h]
  · rw [heq]; omega

theorem looking_le_ahead : s.looking ≤ s.ahead := by
  have : s.close.looking ≤ s.close.ahead := by cases s.close <;> simp [CloseStage.looking, CloseStage.ahead]
  unfold looking ahead
  omega

theorem ahead_signalAll : s.signalAll.ahead = s.ahead := by
  have : s.close.signalled.ahead = s.close.ahead := by cases s.close <;> rfl
  unfold signalAll ahead
  dsimp only
  omega

theorem ahead_maybeScheduleGC : (s.maybeScheduleGC disabled maxGC).ahead ≤ s.ahead := by
  obtain ⟨k, hk, -, heq⟩ := maybeScheduleGC_eq disabled maxGC s
  rw [heq]
  unfold ahead
  dsimp only
  omega

theorem work_step (hi : e.isInner) (hs : s.step disabled maxGC e = some s') : s'.work < s.work := by
  apply work_lt looking_le_ahead
  cases e <;> try cases hi
  case finish =>
    obtain ⟨hpos, ⟨⟩⟩ := ite_none_right_eq_some.1 hs
    refine .inl (Nat.lt_of_le_of_lt
      (m := ahead { s with running := s.running - 1, scheduled := s.scheduled - 1 }) ?_ ?_)
    · unfold endJob
      dsimp only
      split
      · rw [ahead_signalAll]; exact ahead_maybeScheduleGC
      · exact ahead_maybeScheduleGC
    · unfold ahead; dsimp only; omega
  case dropEnd base blobs =>
    obtain ⟨hpos, ⟨⟩⟩ := ite_none_right_eq_some.1 hs
    left
    dsimp only [endDrop]
    split_ifs
    · rw [ahead_signalAll]; unfold ahead; dsimp only; omega
    all_goals unfold ahead; dsimp only; omega
  case subtract =>
    dsimp only [step] at hs
    split at hs <;> cases hs
    left
    grind [ahead]
  all_goals
    dsimp only [step, beginJob] at hs
    split_ifs at hs <;> cases hs <;> grind [ahead, looking]

/-- Where no call can go on and no drop has failed, everybody is done. -/
theorem Inv.quiet (h : s.Inv maxGC) (hf : s.failed = 0)
    (hstuck : ∀ e : ScheduleEvent, e.isInner → s.step disabled maxGC e = none) :
    s.scheduled = 0 ∧ s.dropRequests = 0 ∧ (s.close = .opened ∨ s.close = .closed) := by
  obtain ⟨⟨-, hw, -, hd, -⟩, ha, hda, hc⟩ := h
  have henter := hstuck .enter rfl
  have hcheck := hstuck .check rfl
  have hfinish := hstuck .finish rfl
  have hdropCheck := hstuck .dropCheck rfl
  have hdropEnd := hstuck (.dropEnd true true) rfl
  have hunSchedule := hstuck .unSchedule rfl
  have hsubtract := hstuck .subtract rfl
  have hcloseCheck := hstuck .closeCheck rfl
  dsimp only [step] at *
  cases hclose : s.close <;> grind

/-- `drop_cf_requests_` counts the calls of `DropColumnFamilies` that have not returned exactly if no call of the base
DB has failed. Then nobody waits for drops when there are none, and whatever order they go on in, the calls that have
begun come to an end, `CloseImpl` among them. After a failure no job ever runs again. -/
theorem dropRequests_run_iff (hrun : run (step disabled maxGC) {} es = some s) :
    (s.dropRequests = s.dropAwake + s.dropAsleep + s.dropping ↔ ∀ e ∈ es, e.baseFails = false) ∧
    ((∀ e ∈ es, e.baseFails = false) → (s.dropRequests = 0 → s.asleep = 0) ∧
      ∀ es' s', (∀ e ∈ es', e.isInner ∧ e.baseFails = false) →
        run (step disabled maxGC) s es' = some s' → es'.length ≤ s.work ∧
          ((∀ e : ScheduleEvent, e.isInner → s'.step disabled maxGC e = none) →
            s'.scheduled = 0 ∧ s'.dropRequests = 0 ∧ (s'.close = .opened ∨ s'.close = .closed))) ∧
    ((∃ e ∈ es, e.baseFails) → ∀ es' s', run (step disabled maxGC) s es' = some s' →
      s'.running = 0) := by
  have h := inv_run hrun
  have hfailed : s.failed = es.countP ScheduleEvent.baseFails := by simpa using failed_run hrun
  refine ⟨?_, fun hok => ⟨by have := h.asleep; omega, fun es' s' hes' hrun' => ⟨?_, fun hstuck => ?_⟩⟩, ?_⟩
  · rw [h.drops, Nat.add_eq_left, hfailed]
    simp
  · exact length_le_of_measure (I := fun _ => True) (P := fun _ e => e.isInner)
      (fun _ _ _ _ hi hs => ⟨trivial, work_step hi hs⟩) trivial (AllSteps.of_forall fun e he => (hes' e he).1) hrun'
  · refine (inv_run (run_append_eq_some.2 ⟨s, hrun, hrun'⟩)).quiet ?_ hstuck
    rw [failed_run hrun', hfailed, List.countP_eq_zero.2 (by simpa using hok),
      List.countP_eq_zero.2 fun e he => by simp [(hes' e he).2]]
  · intro hfail es' s' hrun'
    refine (inv_run (run_append_eq_some.2 ⟨s, hrun, hrun'⟩)).idle ?_
    have := List.countP_pos_iff.2 hfail
    have := failed_run hrun'
    omega

/-- A column family is dropped while a job waits in the queue, and the database is closed. -/
theorem dropRequests_run_closed : ∃ s,
    run (step false 1) {} [.drop, .dropCheck, .addToGCQueue 7, .maybeScheduleGC, .enter, .dropEnd true true, .shutDown,
      .unSchedule, .subtract, .closeCheck] = some s ∧ s.close = .asleep ∧
      s.dropRequests = s.dropAwake + s.dropAsleep + s.dropping :=
  ⟨_, rfl, rfl, (dropRequests_run_iff (show run (step false 1) {}
    [.drop, .dropCheck, .addToGCQueue 7, .maybeScheduleGC, .enter, .dropEnd true true, .shutDown, .unSchedule,
      .subtract, .closeCheck] = some _ from rfl)).1.2 (by simp [ScheduleEvent.baseFails])⟩

/-- The base DB refuses to drop a column family: the call has returned, but its request stays, the worker waits, and
nothing is left that could signal it or `CloseImpl`. -/
theorem dropRequests_run_stuck : ∃ s,
    run (step false 1) {} [.drop, .dropCheck, .addToGCQueue 7, .maybeScheduleGC, .enter, .dropEnd false true, .shutDown,
      .unSchedule, .subtract, .closeCheck] = some s ∧
      s.dropRequests = 1 ∧ s.dropAwake + s.dropAsleep + s.dropping = 0 ∧ s.asleep = 1 ∧ s.close = .asleep ∧
      ∀ e : ScheduleEvent, e.isInner → s.step false 1 e = none :=
  ⟨_, rfl, rfl, rfl, rfl, rfl, fun e he => by cases e <;> first | rfl | cases he⟩

end GcSchedule

end ValueSep.DiffKV
