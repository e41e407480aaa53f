import ValueSep.DiffKV.Foreground

/-!
# The foreground builders of the column families

`builders_` maps a column family to its `ForegroundBuilder`, which has a queue of requests and a worker thread for each
of its `num_builders_` slots. `Open` makes and initialises one for every column family that there is. `Put` and the GC
reach it by `builders_[cf]`, which makes a builder without slots where there was none.
-/

namespace ValueSep.DiffKV

open List Function

/-- A `ForegroundBuilder`, without the files it has at hand: the number of queues in `requests_` (`handle_`, `builder_` and
`finished_files_` have as many slots) and of threads in `pool_`, of which the `i`-th serves queue `i`. -/
structure ForegroundBuilder where
  numBuilders : Nat
  cfOptions : Options
  requests : Nat
  pool : Nat

namespace ForegroundBuilder

def create (numForegroundBuilders : Nat) (cfOptions : Options) : ForegroundBuilder :=
  ⟨numForegroundBuilders, cfOptions, numForegroundBuilders, 0⟩

def init (b : ForegroundBuilder) : ForegroundBuilder := { b with pool := b.pool + b.numBuilders }

/-- The queue that `Add` puts a request into. -/
def requestIndex (b : ForegroundBuilder) (key : Slice) : Nat :=
  World.slotOf { b.cfOptions with numForegroundBuilders := b.numBuilders } key

/-- It has the options of its column family, and every request goes into a queue that a thread serves. -/
structure Usable (cfOptions : Options) (b : ForegroundBuilder) : Prop where
  options : b.cfOptions = cfOptions
  requests : b.requests = b.numBuilders
  pool : b.pool = b.numBuilders
  index : ∀ key, b.requestIndex key < b.requests

end ForegroundBuilder

/-- A database and its column families. `created`: the ones that `CreateColumnFamilies` has added since `Open`. -/
structure FamilyDb where
  /-- The next column family of the base DB. -/
  nextFamily : Nat
  families : List Nat
  cfOptions : Nat → Options
  builders : Nat → Option ForegroundBuilder
  created : List Nat

inductive FamilyEvent
  /-- `Open`, after `Close` or a crash, with options for the column families. With `create_missing_column_families` the
  base DB makes those that are missing before. -/
  | reopen (cfOptions : Nat → Options) (missing : List Options := [])
  | createColumnFamilies (descs : List Options)
  | dropColumnFamilies (ids : List Nat)
  | put (cf : Nat)
  | backgroundGC (cf : Nat)

namespace FamilyDb

/-- The builder that the default constructor leaves, the members of class type aside all zero. -/
def defaultBuilder (defaults : Options) : ForegroundBuilder := ⟨0, defaults, 0, 0⟩

variable (defaults : Options) (numForegroundBuilders : Nat) (db : FamilyDb)

/-- `builders_[cf]`, which enters a builder if there is none. -/
def builderAt (cf : Nat) : ForegroundBuilder := (db.builders cf).getD (defaultBuilder defaults)

/-- One turn of the loop of `Open`: `emplace` and `Init`. -/
def addBuilder (cfOptions : Nat → Options) (builders : Nat → Option ForegroundBuilder) (cf : Nat) :
    Nat → Option ForegroundBuilder :=
  update builders cf (some ((builders cf).getD (.create numForegroundBuilders (cfOptions cf))).init)

/-- `Open`, of a new `TitanDBImpl`. -/
def openDb (cfOptions : Nat → Options) : FamilyDb :=
  { db with
    cfOptions
    builders := db.families.foldl (addBuilder numForegroundBuilders cfOptions) fun _ => none
    created := [] }

def createColumnFamily (desc : Options) : FamilyDb :=
  { db with
    nextFamily := db.nextFamily + 1
    families := db.nextFamily :: db.families
    cfOptions := update db.cfOptions db.nextFamily desc
    created := db.nextFamily :: db.created }

def step : FamilyEvent → FamilyDb
  | .reopen cfOptions missing => (missing.foldl createColumnFamily db).openDb numForegroundBuilders cfOptions
  | .createColumnFamilies descs => descs.foldl createColumnFamily db
  | .dropColumnFamilies ids => { db with families := db.families.filter (· ∉ ids) }
  | .put cf | .backgroundGC cf =>
    { db with builders := update db.builders cf (some (db.builderAt defaults cf)) }

/-- A new database, which has the default column family, opened. -/
def opened (cfOptions : Nat → Options) : FamilyDb :=
  openDb numForegroundBuilders ⟨1, [0], cfOptions, fun _ => none, []⟩ cfOptions

/-! ### What the builders are -/

variable {defaults numForegroundBuilders db}

/-- The loop of `Open` over the column families, each of which occurs once. -/
theorem foldl_addBuilder {cfOptions : Nat → Options} {ids : List Nat} (hnodup : ids.Nodup)
    (builders : Nat → Option ForegroundBuilder) (hnone : ∀ cf ∈ ids, builders cf = none) (cf : Nat) :
    ids.foldl (addBuilder numForegroundBuilders cfOptions) builders cf =
      if cf ∈ ids then some (ForegroundBuilder.create numForegroundBuilders (cfOptions cf)).init else builders cf := by
  induction ids generalizing builders with
  | nil => rfl
  | cons id ids ih =>
    rw [nodup_cons] at hnodup
    rw [forall_mem_cons] at hnone
    rw [foldl_cons, ih hnodup.2]
    · unfold addBuilder
      rw [hnone.1]
      by_cases heq : cf = id
      · simp [heq]
      · simp [heq]
    · intro cf hcf
      have hne : cf ≠ id := fun heq => hnodup.1 (heq ▸ hcf)
      rw [addBuilder, update_of_ne hne]
      exact hnone.2 cf hcf

/-- A live column family has the builder that `Open` has made; one that was created since has none, or the one that
`builders_[cf]` has made. -/
structure Inv (defaults : Options) (numForegroundBuilders : Nat) (db : FamilyDb) : Prop where
  nodup : db.families.Nodup
  lt : ∀ cf ∈ db.families, cf < db.nextFamily
  builder : ∀ cf ∈ db.families, db.builderAt defaults cf =
    if cf ∈ db.created then defaultBuilder defaults else (ForegroundBuilder.create numForegroundBuilders (db.cfOptions cf)).init
  later : ∀ cf, db.nextFamily ≤ cf → db.builderAt defaults cf = defaultBuilder defaults ∧ cf ∉ db.created

theorem Inv.openDb (hnodup : db.families.Nodup) (hlt : ∀ cf ∈ db.families, cf < db.nextFamily)
    (cfOptions : Nat → Options) : Inv defaults numForegroundBuilders (db.openDb numForegroundBuilders cfOptions) := by
  have hbuilder (cf : Nat) : (db.openDb numForegroundBuilders cfOptions).builders cf = _ :=
    foldl_addBuilder hnodup (fun _ => none) (fun _ _ => rfl) cf
  refine ⟨hnodup, hlt, fun cf hcf => ?_, fun cf hcf => ⟨?_, not_mem_nil⟩⟩
  · rw [builderAt, hbuilder, if_pos (show cf ∈ db.families from hcf)]
    rfl
  · have hnew : cf ∉ db.families := fun hmem => Nat.not_lt.2 hcf (hlt cf hmem)
    rw [builderAt, hbuilder, if_neg hnew]
    rfl

section
variable (h : Inv defaults numForegroundBuilders db)
include h

theorem Inv.createColumnFamily (desc : Options) : Inv defaults numForegroundBuilders (db.createColumnFamily desc) := by
  have hnew : db.nextFamily ∉ db.families := fun hmem => Nat.lt_irrefl _ (h.lt _ hmem)
  refine ⟨nodup_cons.2 ⟨hnew, h.nodup⟩, ?_, ?_, fun cf hcf => ?_⟩
  · exact forall_mem_cons.2 ⟨Nat.lt_succ_self _, fun cf hcf => Nat.lt_succ_of_lt (h.lt cf hcf)⟩
  · refine forall_mem_cons.2 ⟨?_, fun cf hcf => ?_⟩
    · exact (h.later _ le_rfl).1.trans (if_pos (mem_cons_self ..)).symm
    · have hne : cf ≠ db.nextFamily := fun heq => hnew (heq ▸ hcf)
      simp only [FamilyDb.createColumnFamily, mem_cons, hne, false_or, update_of_ne hne]
      exact h.builder cf hcf
  · obtain ⟨hdefault, hcreated⟩ := h.later cf (Nat.le_of_succ_le hcf)
    refine ⟨hdefault, fun hmem => ?_⟩
    rcases mem_cons.1 hmem with rfl | hmem
    · exact Nat.lt_irrefl _ hcf
    · exact hcreated hmem

theorem Inv.createColumnFamilies (descs : List Options) :
    Inv defaults numForegroundBuilders (descs.foldl FamilyDb.createColumnFamily db) :=
  foldlRecOn descs _ h fun _ h desc _ => h.createColumnFamily desc

theorem Inv.use (cf : Nat) :
    Inv defaults numForegroundBuilders
      { db with builders := update db.builders cf (some (db.builderAt defaults cf)) } := by
  have hsame (k : Nat) : builderAt defaults
      { db with builders := update db.builders cf (some (db.builderAt defaults cf)) } k =
        db.builderAt defaults k := by
    rcases eq_or_ne k cf with rfl | hne
    · simp [builderAt]
    · simp [builderAt, update_of_ne hne]
  exact ⟨h.nodup, h.lt, fun k hk => (hsame k).trans (h.builder k hk),
    fun k hk => ⟨(hsame k).trans (h.later k hk).1, (h.later k hk).2⟩⟩

theorem Inv.step (e : FamilyEvent) : Inv defaults numForegroundBuilders (db.step defaults numForegroundBuilders e) := by
  cases e with
  | reopen cfOptions missing =>
    have hmade := h.createColumnFamilies missing
    exact .openDb hmade.nodup hmade.lt cfOptions
  | createColumnFamilies descs => exact h.createColumnFamilies descs
  | dropColumnFamilies ids =>
    exact ⟨h.nodup.filter _, fun cf hcf => h.lt cf (mem_of_mem_filter hcf),
      fun cf hcf => h.builder cf (mem_of_mem_filter hcf), h.later⟩
  | put cf => exact h.use cf
  | backgroundGC cf => exact h.use cf

end

theorem inv_run (defaults : Options) (numForegroundBuilders : Nat) (cfOptions : Nat → Options) (es : List FamilyEvent) :
    Inv defaults numForegroundBuilders
      (es.foldl (step defaults numForegroundBuilders) (opened numForegroundBuilders cfOptions)) := by
  have hstart : Inv defaults numForegroundBuilders (opened numForegroundBuilders cfOptions) :=
    .openDb (nodup_singleton 0) (fun cf hcf => mem_singleton.1 hcf ▸ Nat.zero_lt_one) cfOptions
  exact foldlRecOn es _ hstart fun _ h e _ => h.step e

/-- Whatever was opened, created and dropped, the builder that a `Put` or a GC job gets for a live column family is
usable if and only if there are slots and the column family was there at the last `Open`. -/
theorem usable_iff (defaults : Options) (numForegroundBuilders : Nat) (cfOptions : Nat → Options)
    (es : List FamilyEvent) (db : FamilyDb)
    (hdb : db = es.foldl (step defaults numForegroundBuilders) (opened numForegroundBuilders cfOptions)) (cf : Nat)
    (hlive : cf ∈ db.families) :
    (db.builderAt defaults cf).Usable (db.cfOptions cf) ↔ cf ∉ db.created ∧ 0 < numForegroundBuilders := by
  have hbuilder := (hdb ▸ inv_run defaults numForegroundBuilders cfOptions es).builder cf hlive
  rw [hbuilder]
  constructor
  · intro husable
    have hpos := Nat.zero_lt_of_lt (husable.index [])
    split at hpos
    · exact absurd hpos (Nat.lt_irrefl 0)
    next hcf => exact ⟨hcf, hpos⟩
  · rintro ⟨hcf, hpos⟩
    rw [if_neg hcf]
    refine ⟨rfl, rfl, Nat.zero_add _, fun key => ?_⟩
    show (if 1 < numForegroundBuilders then _ % numForegroundBuilders else 0) < numForegroundBuilders
    split
    · exact Nat.mod_lt _ hpos
    · exact hpos

/-- After a reopen a column family that was created before is usable. -/
theorem usable_iff_reopened : ∃ db, db =
      [FamilyEvent.createColumnFamilies [.small true false], .reopen fun _ => .small true false].foldl
        (step (.small true false) 1) (opened 1 fun _ => .small true false) ∧
    1 ∈ db.families ∧ (db.builderAt (.small true false) 1).Usable (db.cfOptions 1) :=
  ⟨_, rfl, by decide, (usable_iff (.small true false) 1 _ _ _ rfl 1 (by decide)).2 (by decide)⟩

/-- Before it is not: the first `Put` has a request for queue 0 of none. -/
theorem created_family_unusable : ∃ db, db =
      [FamilyEvent.createColumnFamilies [.small true false]].foldl (step (.small true false) 1)
        (opened 1 fun _ => .small true false) ∧ 1 ∈ db.families ∧ (db.builderAt (.small true false) 1).requests = 0 ∧
      ∀ key, ¬(db.builderAt (.small true false) 1).requestIndex key < 0 :=
  ⟨_, rfl, by decide, rfl, fun _ => Nat.not_lt_zero _⟩

end FamilyDb

end ValueSep.DiffKV
