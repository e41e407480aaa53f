import ValueSep.HashKV.Calls

/-!
# Flushes that wait for a collection

A put flushes the update pool before it writes its record, if there is no room for it, and after it, if the pool is full
then (`Flushes`). Where the log segments run short, that flush waits for collections (`FlushState.Waits`). A collection
takes the pooled updates of its group along and packs what it keeps anew, in the order of a hash map, so it may need
more log segments than it released and than are left. `roomy` is a bound under which it does not.
-/

namespace ValueSep.HashKV

open Coding (Bytes)
open Journal (collect)
open Exec (run AllSteps)
open Wp
open Option List Store Flush

variable {cfg : Config} {P : List (Record cfg)} {pend : Nat → List (Nat × Record cfg)} {G : Nat → Content cfg}
  {T m : Bytes → Option Bytes} {s s₁ : Store} {g : Nat} {r : Record cfg}

section
variable (h : Represents cfg s P pend G T m)
include h

section
variable (hidx : Indexed P (s.pools .update).keysInPool) (hacc : Accepts cfg P pend G r)
include hidx hacc

theorem Represents.ready {inPlace : Option Nat} (hready : s.Ready cfg r.key r.value s₁ inPlace) :
    ∃ P' pend' G' T', Awaits cfg s₁ P' pend' G' T' m r ∧ Writable cfg P' pend' r inPlace := by
  have hawaits := h.awaits hidx hacc
  cases hready with
  | fits hplace hfit =>
    have hin := wp_iff.1 (wp_mono (wp_inPlaceOffset h.update (hidx r.key) hacc) (fun _ => id) fun _ => False.elim) _
      hplace
    refine ⟨P, pend, G, T, hawaits, ?_⟩
    cases inPlace with
    | none => exact h.writable_of_canFit (hfit.resolve_right nofun)
    | some o => exact hin o rfl
  | flushed _ _ hflush =>
    obtain ⟨⟨G', T', hrep, hspare⟩, hkeys⟩ := wp_iff.1 hawaits.represents.wp_flush _ hflush
    exact ⟨[], _, G', T', hrep.awaits_flushed hspare hkeys hacc, writable_nil⟩

theorem Represents.flushes (hf : s.Flushes cfg r.key r.value s₁) :
    ∃ P' pend' G' T' m', Represents cfg s₁ P' pend' G' T' m' := by
  generalize hkey : r.key = key, hvalue : r.value = value at hf
  induction hf generalizing P pend G T with
  | before hnew _ _ =>
    subst hkey hvalue
    obtain ⟨G', hrep, -⟩ := h.newMain hnew
    exact ⟨P, pend, G', T, m, hrep.unindex _⟩
  | after hnew hready hgroup hwrite _ =>
    subst hkey hvalue
    obtain ⟨G', hrep, hpools, -, hsame⟩ := h.newMain hnew
    obtain ⟨P', pend', G₁, T₁, hawaits, hw⟩ := hrep.ready (hpools ▸ hidx) (hacc.congr hsame) hready
    have hG : r.home ≠ lsmSegment → G₁ r.home ≠ [] := fun hr => by
      have hseg := hgroup.resolve_left fun hl => hr (r.home_lsm hl)
      rw [← r.home_of_ne hr] at hseg
      exact ((hawaits.represents.settled.laid.segment_iff (r.home_lt hr)).1 hseg).2
    obtain ⟨P'', pend'', hrep'', -⟩ := wp_iff.1 (wp_mono (hawaits.wp_writeUpdate hG hw) (fun _ => id)
      fun _ => False.elim) _ hwrite
    exact ⟨P'', pend'', G₁, T₁, _, hrep''⟩
  | retry hnew hput hlsm _ ih =>
    subst hkey hvalue
    obtain ⟨G', hrep, hpools, hne, hsame⟩ := h.newMain hnew
    have hr : r.home ≠ lsmSegment := fun hr => hlsm (r.toLSM_iff.2 hr)
    obtain ⟨G₁, T₁, hrep₁, hkeys⟩ := wp_iff.1 (wp_mono
      (hrep.wp_putRecord (hpools ▸ hidx) (hacc.congr hsame) hne hnew) (fun _ => id) fun _ _ => trivial) _ hput
    exact ih hrep₁ (fun k => hkeys k) (.of_nil hr)

end

end

/-! ### Waiting -/

/-- The loop of a flush for user updates. -/
def FlushState.step (cfg : Config) (x : FlushState) (c : Choice) : Option FlushState := (next cfg true x c).toOption

def FlushState.init (s : Store) (report : Option Nat) : FlushState := ⟨.next, .start s, report⟩

/-- The next step is a call of `gcGreedy`. -/
def FlushState.Waits (x : FlushState) : Prop := ∃ groupId size, x.pc = .collect groupId size

variable {disk : Nat → UInt8} {es : List Event} {key value : Bytes} {cs : List Choice} {x : FlushState}
  {candidates : List (Nat × Order)} {report : Option Nat}

theorem Represents.waits (h : Represents cfg s P pend G T m)
    (hrun : run (FlushState.step cfg) (.init s report) cs = some x) (hx : x.Waits) :
    ∃ pend' G' T', Represents cfg x.flush.store P pend' G' T' m := by
  have hat : x.flush.At cfg P G m x.pc := Exec.run_inv (I := fun x => x.flush.At cfg P G m x.pc)
    (fun _ _ _ hI _ hstep => wp_iff.1 (wp_next hI) _ (toOption_eq_some.1 hstep))
    (show (start s).At cfg P G m .next from ⟨pend, G, T, rep_start h, .refl⟩)
    (AllSteps.of_forall fun _ _ => trivial) hrun
  obtain ⟨g, size, hpc⟩ := hx
  rw [hpc] at hat
  obtain ⟨⟨pend', G', T', hrep, -⟩, hbatch⟩ := hat
  exact ⟨pend', G', T', hrep.represents hbatch⟩

/-- A state in which a flush of the put of the pair, after the calls `es`, calls `gcGreedy`. -/
def GcPoint (cfg : Config) (disk : Nat → UInt8) (es : List Event) (key value : Bytes) (x : FlushState) : Prop :=
  (key.length = keySize ∧ value.length < cfg.mainSegmentSize) ∧
  ∃ s s₁ report cs, run (Store.step cfg) (.init cfg disk) es = some s ∧ s.Flushes cfg key value s₁ ∧
    run (FlushState.step cfg) (.init s₁ report) cs = some x ∧ x.Waits

/-- The write-back of the groups that the heap gives, in whatever order, finds its log segments. -/
def GcHasRoom (cfg : Config) (x : FlushState) (candidates : List (Nat × Order)) : Prop :=
  x.flush.store.gcGreedy cfg cfg.greedyGCSize candidates x.report ≠ .error .outOfLogSegments

theorem GcPoint.represents
    (htame : AllSteps (Store.step cfg) (Store.Tame cfg) (.init cfg disk) (es ++ [.put key value cs]))
    (hx : GcPoint cfg disk es key value x) : ∃ P pend G T m, Represents cfg x.flush.store P pend G T m := by
  obtain ⟨⟨hkey, hvalue⟩, s, s₁, report, cs', hrun, hflush, hrun', hwaits⟩ := hx
  obtain ⟨m, P, pend, G, T, hrep, hidx⟩ := models_of_run htame.append hrun
  have ht := (htame.of_append hrun).1.resolve_left (by omega)
  obtain ⟨P', pend', G', T', m', hrep'⟩ := hrep.flushes hidx
    (hrep.accepts (r := ⟨key, value, ht.1⟩) hidx ht) hflush
  obtain ⟨pend'', G'', T'', hrep''⟩ := hrep'.waits hrun' hwaits
  exact ⟨P', pend'', G'', T'', m', hrep''⟩

/-- A put that runs out of log segments does so in one of these flushes. -/
theorem flushes_of_putValue
    (htame : AllSteps (Store.step cfg) (Store.Tame cfg) (.init cfg disk) (es ++ [.put key value cs]))
    (hrun : run (Store.step cfg) (.init cfg disk) es = some s)
    (hput : s.putValue cfg key value cs = .error .outOfLogSegments) :
    ∃ s₁ report cs', s.Flushes cfg key value s₁ ∧
      s₁.flushCentralizedReservedPool cfg true report cs' = .error .outOfLogSegments := by
  unfold putValue at hput
  split at hput
  · cases hput
  next hlen =>
    obtain ⟨m, P, pend, G, T, hrep, hidx⟩ := models_of_run htame.append hrun
    have ht := (htame.of_append hrun).1.resolve_left hlen
    have hstop : wp (s.putLoop cfg key value (cfg.retryMax + 1) cs) _ (s.Stops cfg key value) :=
      hrep.wp_putLoop (r := ⟨key, value, ht.1⟩) hidx (hrep.accepts hidx ht)
    rw [hput] at hstop
    exact hstop rfl

theorem gcHasRoom_of_roomy
    (htame : AllSteps (Store.step cfg) (Store.Tame cfg) (.init cfg disk) (es ++ [.put key value cs]))
    (hx : GcPoint cfg disk es key value x)
    (hroomy : AllSteps (Store.gcStep cfg) (fun s c => s.roomy cfg c.1) x.flush.store candidates) :
    GcHasRoom cfg x candidates := by
  obtain ⟨P, pend, G, T, m, hrep⟩ := hx.represents htame
  intro herr
  have hgc : wp (x.flush.store.gcGreedy cfg cfg.greedyGCSize candidates x.report) _ _ := hrep.wp_gcGreedy
  rw [herr] at hgc
  exact hgc rfl hroomy

/-- A put that flushes before it writes, with the state of that flush after the choices. -/
theorem gcPoint_of_before {s s' : Store} (hlen : key.length = keySize ∧ value.length < cfg.mainSegmentSize)
    (hrun : run (Store.step cfg) (.init cfg disk) es = some s) (hnew : s.newMain cfg key value.length = .ok s')
    (hplace : s'.placeFor cfg key value = .ok none)
    (hfit : (s'.pools .update).pool.canFit (recordSize value.length) = false)
    (hx : run (FlushState.step cfg) (.init (s'.unindex key) report) cs = some x) (hwaits : x.Waits) :
    GcPoint cfg disk es key value x :=
  ⟨hlen, s, _, report, cs, hrun, .before hnew hplace (by rw [hfit]; exact Bool.false_ne_true), hx, hwaits⟩

/-- The group in a waiting state. -/
def FlushState.waitsFor (x : FlushState) : Option Nat :=
  match x.pc with
  | .next => none
  | .collect groupId _ => some groupId

theorem FlushState.waits_of_waitsFor {g : Nat} (h : x.waitsFor = some g) : x.Waits := by
  obtain ⟨pc, f, report⟩ := x
  cases pc with
  | next => cases h
  | collect groupId size => exact ⟨groupId, size, rfl⟩

/-- Two keys are written over and over, so that little of the group is kept. -/
def overwrites : List Event :=
  [.put (replicate 16 1) (replicate 8 1) [], .put (replicate 16 2) (replicate 8 2) [], .flush [.group 0],
    .put (replicate 16 1) (replicate 8 3) [], .flush [.group 0],
    .put (replicate 16 2) (replicate 8 4) [], .flush [.group 0]] ++
  [8, 9, 10, 11, 12].map fun n => .put (replicate 16 1) (replicate n 5) []

theorem gcHasRoom_of_roomy_small : ∃ x, GcPoint smallConfig (fun _ => 0) overwrites (List.replicate 16 1)
    (List.replicate 13 6) x ∧ GcHasRoom smallConfig x [(0, .inserted)] := by
  have hrun : (run (Store.step smallConfig) (.init smallConfig fun _ => 0) overwrites).bind (fun s =>
      (s.newMain smallConfig (List.replicate 16 1) 13).toOption.bind fun s' =>
      (run (FlushState.step smallConfig) (.init (s'.unindex (List.replicate 16 1)) (some 0)) [.group 0]).map fun x =>
      (s'.placeFor smallConfig (List.replicate 16 1) (List.replicate 13 6),
        (s'.pools .update).pool.canFit (recordSize 13), x.waitsFor, x.flush.store.roomy smallConfig 0)) =
      some (.ok none, false, some 0, true) := by decide +kernel
  simp only [bind_eq_some_iff, map_eq_some_iff, toOption_eq_some, Prod.mk.injEq] at hrun
  obtain ⟨s, hs, s', hnew, x, hx, hplace, hfit, hwaits, hroomy⟩ := hrun
  have hpoint : GcPoint smallConfig (fun _ => 0) overwrites (List.replicate 16 1) (List.replicate 13 6) x :=
    gcPoint_of_before (by decide) hs hnew hplace hfit hx (x.waits_of_waitsFor hwaits)
  have htame : AllSteps (Store.step smallConfig) (Store.Tame smallConfig) (.init smallConfig fun _ => 0)
      (overwrites ++ [.put (List.replicate 16 1) (List.replicate 13 6) []]) := by decide +kernel
  exact ⟨x, hpoint, gcHasRoom_of_roomy htame hpoint ⟨hroomy, fun _ _ => trivial⟩⟩

/-- Four keys fill the main segment and two log segments, six more wait in the pool. -/
def tenPuts : List Event :=
  ([1, 2, 3, 4].map fun b => .put (replicate 16 b) (replicate 8 b) []) ++ [.flush [.group 0]] ++
  [5, 6, 7, 8, 9, 10].map fun b => .put (replicate 16 b) (replicate 8 b) []

/-- All ten records are live, and a log segment holds one: the collection needs eight log segments of four. -/
theorem not_gcHasRoom_small : ∃ x, GcPoint smallConfig (fun _ => 0) tenPuts (List.replicate 16 11) (List.replicate 8 11) x ∧
    ¬GcHasRoom smallConfig x [(0, .inserted)] := by
  have hrun : (run (Store.step smallConfig) (.init smallConfig fun _ => 0) tenPuts).bind (fun s =>
      (s.newMain smallConfig (List.replicate 16 11) 8).toOption.bind fun s' =>
      (run (FlushState.step smallConfig) (.init (s'.unindex (List.replicate 16 11)) (some 0)) [.group 0]).map fun x =>
      (s'.placeFor smallConfig (List.replicate 16 11) (List.replicate 8 11),
        (s'.pools .update).pool.canFit (recordSize 8), x.waitsFor,
        match x.flush.store.gcGreedy smallConfig 1 [(0, .inserted)] x.report with
        | .ok _ => none
        | .error e => some e)) =
      some (.ok none, false, some 0, some .outOfLogSegments) := by decide +kernel
  simp only [bind_eq_some_iff, map_eq_some_iff, toOption_eq_some, Prod.mk.injEq] at hrun
  obtain ⟨s, hs, s', hnew, x, hx, hplace, hfit, hwaits, herr⟩ := hrun
  refine ⟨x, gcPoint_of_before (by decide) hs hnew hplace hfit hx (x.waits_of_waitsFor hwaits), fun h => h ?_⟩
  rcases hgc : x.flush.store.gcGreedy smallConfig 1 [(0, .inserted)] x.report with e | y
  · rw [hgc] at herr
    exact hgc.trans (congrArg _ (Option.some.inj herr))
  · rw [hgc] at herr
    cases herr

end ValueSep.HashKV
