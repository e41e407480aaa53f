import Mathlib.Data.List.Nodup
import ValueSep.DiffKV.Storage

/-!
# Marking files for a range merge (`TitanDBImpl::MarkFileIfNeedMerge`)

Both ends of the files are sorted, and a sweep counts how many files are open. `std::sort` is its contract: a
permutation in which no end comes before a smaller one.
-/

namespace ValueSep.DiffKV

open List BlobFileMeta Function

/-- A file with the flag for its smallest end. -/
abbrev BlobEnd := BlobFileMeta × Bool

def BlobEnd.key (e : BlobEnd) : Slice := if e.2 then e.1.smallestKey else e.1.largestKey

open BlobEnd

def blobEnds (files : List BlobFileMeta) : List BlobEnd := files.flatMap fun file => [(file, true), (file, false)]

/-- `blob_ends_cmp`; keys are compared as strings. -/
def blobEndsCmp (a b : BlobEnd) : Bool :=
  if key a = key b then if a.1 = b.1 then a.2 else !a.2 && b.2
  else key a < key b

/-! ### The comparator -/

/-- What `std::sort` asks of a comparator. -/
structure StrictWeakOrder {α : Type} (lt : α → α → Bool) (l : List α) : Prop where
  irrefl : ∀ a ∈ l, lt a a = false
  asymm : ∀ a ∈ l, ∀ b ∈ l, lt a b = true → lt b a = false
  trans : ∀ a ∈ l, ∀ b ∈ l, ∀ c ∈ l, lt a b = true → lt b c = true → lt a c = true
  incomp : ∀ a ∈ l, ∀ b ∈ l, ∀ c ∈ l, lt a b = false → lt b a = false → lt b c = false → lt c b = false →
    lt a c = false ∧ lt c a = false

/-- The comparator without its answer for an end and itself. -/
def blobEndsCmpDistinct (a b : BlobEnd) : Bool := a ≠ b && blobEndsCmp a b

variable {files : List BlobFileMeta} {f g : BlobFileMeta} {a b : BlobEnd}

theorem slice_lt_of_le_of_ne {a b : Slice} (h : a ≤ b) (hne : a ≠ b) : a < b :=
  Decidable.byContradiction fun hn => hne (List.le_antisymm h (List.not_lt.1 hn))

theorem mem_blobEnds : a ∈ blobEnds files ↔ a.1 ∈ files := by
  obtain ⟨f, e⟩ := a
  cases e <;> simp [blobEnds]

/-- No end of another file is at the key of a file with a single key. -/
def Apart (files : List BlobFileMeta) : Prop :=
  ∀ f ∈ files, f.smallestKey = f.largestKey → ∀ g ∈ files, g ≠ f → ∀ e, key (g, e) ≠ f.smallestKey

/-- The place of an end among those with its key. -/
def BlobEnd.rank (e : BlobEnd) : Nat := if (e.1.smallestKey = e.1.largestKey) = (e.2 = true) then 0 else 1

theorem blobEndsCmpDistinct_iff (h : Apart files) (ha : a.1 ∈ files) (hb : b.1 ∈ files) :
    blobEndsCmpDistinct a b = true ↔ key a < key b ∨
      key a = key b ∧ rank a < rank b := by
  obtain ⟨f, e⟩ := a
  obtain ⟨g, d⟩ := b
  by_cases hkey : key (f, e) = key (g, d)
  · simp only [blobEndsCmpDistinct, blobEndsCmp, hkey, if_true]
    by_cases hfile : f = g
    · cases e <;> cases d <;> simp_all [key, rank]
    · have hf : f.smallestKey ≠ f.largestKey := fun hs =>
        h f ha hs g hb (Ne.symm hfile) d (by rw [← hkey]; cases e <;> simp [key, hs])
      have hg : g.smallestKey ≠ g.largestKey := fun hs =>
        h g hb hs f ha hfile e (by rw [hkey]; cases d <;> simp [key, hs])
      cases e <;> cases d <;> simp [hfile, hf, hg, rank]
  · have hne : (f, e) ≠ (g, d) := fun heq => hkey (by rw [heq])
    simp [blobEndsCmpDistinct, blobEndsCmp, hkey, hne]

/-- An order by keys and then by ranks is one for `std::sort`. -/
theorem StrictWeakOrder.of_rank {lt : BlobEnd → BlobEnd → Bool} {l : List BlobEnd} (h : ∀ a ∈ l, ∀ b ∈ l,
    (lt a b = true ↔ a.key < b.key ∨ a.key = b.key ∧ a.rank < b.rank)) : StrictWeakOrder lt l := by
  have htrans : ∀ a ∈ l, ∀ b ∈ l, ∀ c ∈ l, lt a b = true → lt b c = true → lt a c = true := by
    intro a ha b hb c hc hab hbc
    rw [h a ha b hb] at hab
    rw [h b hb c hc] at hbc
    rw [h a ha c hc]
    rcases hab with hab | ⟨hk, hab⟩ <;> rcases hbc with hbc | ⟨hk', hbc⟩
    · exact .inl (List.lt_trans hab hbc)
    · exact .inl (hk' ▸ hab)
    · exact .inl (hk ▸ hbc)
    · exact .inr ⟨hk.trans hk', by omega⟩
  have hirrefl : ∀ a ∈ l, lt a a = false := fun a ha => by
    rw [← Bool.not_eq_true, h a ha a ha]
    simp
  -- ends that are not ordered have one key and one rank
  have hfalse : ∀ a ∈ l, ∀ b ∈ l, lt a b = false → lt b a = false → a.key = b.key ∧ a.rank = b.rank := by
    intro a ha b hb hab hba
    rw [← Bool.not_eq_true, h a ha b hb, not_or] at hab
    rw [← Bool.not_eq_true, h b hb a ha, not_or] at hba
    have hkey : a.key = b.key := List.le_antisymm (List.not_lt.1 hba.1) (List.not_lt.1 hab.1)
    exact ⟨hkey, by have := hab.2; have := hba.2; simp only [hkey, true_and] at *; omega⟩
  refine ⟨hirrefl, fun a ha b hb hab => ?_, htrans, fun a ha b hb c hc hab hba hbc hcb => ?_⟩
  · rw [← Bool.not_eq_true]
    intro hba
    exact Bool.false_ne_true ((hirrefl a ha).symm.trans (htrans a ha b hb a ha hab hba))
  · obtain ⟨hk, hr⟩ := hfalse a ha b hb hab hba
    obtain ⟨hk', hr'⟩ := hfalse b hb c hc hbc hcb
    rw [← Bool.not_eq_true, ← Bool.not_eq_true, h a ha c hc, h c hc a ha, hk, hk', hr, hr']
    simp

/-- The smallest end of a file is smaller than itself. Even without that, two ends of one file are ordered the other
way than the ends of two files, so a file with a single key must not share it. -/
theorem blobEndsCmp_strictWeakOrder_iff (files : List BlobFileMeta) :
    (StrictWeakOrder blobEndsCmp (blobEnds files) ↔ files = []) ∧
      (StrictWeakOrder blobEndsCmpDistinct (blobEnds files) ↔ Apart files) := by
  refine ⟨⟨fun h => ?_, ?_⟩, ⟨fun h f hf hs g hg hne e hkey => ?_, fun h => .of_rank fun a ha b hb => ?_⟩⟩
  · cases files with
    | nil => rfl
    | cons f files =>
      have hself := h.irrefl (f, true) (mem_blobEnds.2 (mem_cons_self ..))
      simp [blobEndsCmp] at hself
  · rintro rfl
    exact ⟨nofun, nofun, nofun, nofun⟩
  · have hmem : ∀ e, (f, e) ∈ blobEnds files ∧ (g, e) ∈ blobEnds files := fun e =>
      ⟨mem_blobEnds.2 hf, mem_blobEnds.2 hg⟩
    cases e with
    | true =>
      have := h.trans _ (hmem true).1 _ (hmem false).1 _ (hmem true).2
      simp_all [blobEndsCmpDistinct, blobEndsCmp, key, Ne.symm hne]
    | false =>
      have := h.trans _ (hmem false).2 _ (hmem true).1 _ (hmem false).1
      simp_all [blobEndsCmpDistinct, blobEndsCmp, key]
  · exact blobEndsCmpDistinct_iff h (mem_blobEnds.1 ha) (mem_blobEnds.1 hb)

/-- Two files with the same single key: their ends go round. -/
theorem blobEndsCmp_cycle :
    let file n : BlobFileMeta := ⟨n, 0, 0, .sorted, 0, [1], [1], .normal, 0⟩
    blobEndsCmp (file 1, true) (file 1, true) = true ∧
      blobEndsCmp (file 1, true) (file 1, false) = true ∧ blobEndsCmp (file 1, false) (file 2, true) = true ∧
      blobEndsCmp (file 2, true) (file 2, false) = true ∧ blobEndsCmp (file 2, false) (file 1, true) = true := by
  decide

/-! ### The sweep -/

/-- The counters, `tmp` with the files closed before each start, and the files to be marked. -/
structure Sweep where
  curAdd : Int := 0
  curRemove : Int := 0
  tmp : BlobFileMeta → Option Int := fun _ => none
  marked : List BlobFileMeta := []

/-- The files that can be marked. -/
def BlobFileMeta.markable (f : BlobFileMeta) : Bool := f.state ≠ .obsolete && f.state ≠ .toMerge && f.state ≠ .toGC

def Sweep.visit (maxSortedRuns : Int) (s : Sweep) (e : BlobEnd) : Sweep :=
  if e.2 then { s with curAdd := s.curAdd + 1, tmp := update s.tmp e.1 (some s.curRemove) }
  else
    let s := { s with curRemove := s.curRemove + 1 }
    match s.tmp e.1 with
    | none => s
    | some removed =>
      if s.curAdd - removed > maxSortedRuns ∧ e.1.markable then { s with marked := e.1 :: s.marked } else s

open Sweep

/-- `MarkFileIfNeedMerge` with the ends as they were sorted. -/
def markFiles (maxSortedRuns : Int) (ends : List BlobEnd) (files : List BlobFileMeta) : List BlobFileMeta :=
  let s := ends.foldl (visit maxSortedRuns) {}
  files.map fun f => if f ∈ s.marked then f.fileStateTransit .needMerge else f

/-- The open intervals between the ends of the files meet. -/
def BlobFileMeta.overlaps (f g : BlobFileMeta) : Bool := g.smallestKey < f.largestKey && f.smallestKey < g.largestKey

/-- The contract of `std::sort`. -/
def SortedEnds (ends : List BlobEnd) (files : List BlobFileMeta) : Prop :=
  ends.Perm (blobEnds files) ∧ ends.Pairwise fun a b => blobEndsCmp b a = false

variable {maxSortedRuns : Int} {s : Sweep} {ends pre mid post : List BlobEnd}

theorem curAdd_visit (s : Sweep) (e : BlobEnd) :
    (s.visit maxSortedRuns e).curAdd = s.curAdd + if e.2 then 1 else 0 := by
  unfold visit
  split <;> simp_all
  split <;> [rfl; split <;> rfl]

theorem curRemove_visit (s : Sweep) (e : BlobEnd) :
    (s.visit maxSortedRuns e).curRemove = s.curRemove + if e.2 then 0 else 1 := by
  unfold visit
  split <;> simp_all
  split <;> [rfl; split <;> rfl]

theorem counters (maxSortedRuns : Int) (l : List BlobEnd) (s : Sweep) :
    (l.foldl (visit maxSortedRuns) s).curAdd = s.curAdd + l.countP (·.2) ∧
      (l.foldl (visit maxSortedRuns) s).curRemove = s.curRemove + l.countP (!·.2) := by
  induction l generalizing s with
  | nil => simp
  | cons e l ih =>
    rw [foldl_cons, (ih _).1, (ih _).2, curAdd_visit, curRemove_visit, countP_cons, countP_cons]
    cases e.2 <;> simp <;> omega

/-- Ends of other files. -/
theorem foldl_visit_of_ne (maxSortedRuns : Int) (l : List BlobEnd) (s : Sweep) (h : ∀ e ∈ l, e.1 ≠ f) :
    (l.foldl (visit maxSortedRuns) s).tmp f = s.tmp f ∧
      (f ∈ (l.foldl (visit maxSortedRuns) s).marked ↔ f ∈ s.marked) := by
  induction l generalizing s with
  | nil => exact ⟨rfl, Iff.rfl⟩
  | cons e l ih =>
    obtain ⟨he, hl⟩ := forall_mem_cons.1 h
    rw [foldl_cons, (ih _ hl).1, (ih _ hl).2]
    unfold visit
    split
    · exact ⟨update_of_ne (Ne.symm he) .., Iff.rfl⟩
    · dsimp only
      split
      · exact ⟨rfl, Iff.rfl⟩
      · split <;> simp [Ne.symm he]

/-- Whether a file is marked depends on the starts before its end and the ends before its start. -/
theorem mem_marked_iff (maxSortedRuns : Int) (hpre : ∀ e ∈ pre, e.1 ≠ f) (hmid : ∀ e ∈ mid, e.1 ≠ f)
    (hpost : ∀ e ∈ post, e.1 ≠ f) :
    f ∈ ((pre ++ (f, true) :: mid ++ (f, false) :: post).foldl (visit maxSortedRuns) {}).marked ↔
      maxSortedRuns < ((pre ++ (f, true) :: mid).countP (·.2) : Int) - pre.countP (!·.2) ∧ f.markable = true := by
  rw [append_assoc, foldl_append, cons_append, foldl_cons, foldl_append, foldl_cons, (foldl_visit_of_ne _ post _ hpost).2]
  have hs := counters maxSortedRuns pre {}
  have hmarked := (foldl_visit_of_ne maxSortedRuns pre {} hpre).2
  generalize pre.foldl (visit maxSortedRuns) {} = s at *
  have ht := counters maxSortedRuns mid (s.visit maxSortedRuns (f, true))
  have hkeep := foldl_visit_of_ne maxSortedRuns mid (s.visit maxSortedRuns (f, true)) hmid
  generalize mid.foldl (visit maxSortedRuns) (s.visit maxSortedRuns (f, true)) = t at *
  have htmp : t.tmp f = some s.curRemove := by simp [hkeep.1, visit]
  have hnot : f ∉ t.marked := fun h => by
    have := hmarked.1 (hkeep.2.1 h)
    cases this
  have hadd : t.curAdd = ((pre ++ (f, true) :: mid).countP (·.2) : Int) := by
    rw [ht.1, curAdd_visit, hs.1]
    simp [countP_append]
    omega
  have hrem : s.curRemove = (pre.countP (!·.2) : Int) := by simpa using hs.2
  simp only [visit, Bool.false_eq_true, if_false, htmp, hadd, hrem]
  split <;> simp_all

/-- The smallest end of one file and the largest end of another, or of the same if it has two keys. -/
theorem blobEndsCmp_start_end (h : f.smallestKey ≠ f.largestKey) (g : BlobFileMeta) :
    blobEndsCmp (f, true) (g, false) = decide (f.smallestKey < g.largestKey) ∧
      blobEndsCmp (g, false) (f, true) = !decide (f.smallestKey < g.largestKey) := by
  by_cases hkey : f.smallestKey = g.largestKey
  · have hfile : f ≠ g := by rintro rfl; exact h hkey
    simp [blobEndsCmp, key, hkey, hfile, Ne.symm hfile]
  · have hlt : g.largestKey < f.smallestKey ↔ ¬f.smallestKey < g.largestKey := by
      exact ⟨List.le_of_lt, fun hle => slice_lt_of_le_of_ne hle (Ne.symm hkey)⟩
    simp only [blobEndsCmp, key, if_true, Bool.false_eq_true, if_false, if_neg hkey, if_neg (Ne.symm hkey), hlt,
      decide_not, and_self]

theorem blobEndsCmp_other (hf : f.smallestKey ≠ f.largestKey) (hg : g.smallestKey ≠ g.largestKey) (d : Bool) :
    blobEndsCmp (f, !d) (g, d) = !blobEndsCmp (g, d) (f, !d) := by
  cases d
  · simp [blobEndsCmp_start_end hf g]
  · simp [blobEndsCmp_start_end hg f]

/-- The ends of the other kind before an end. -/
theorem SortedEnds.countP_before {d : Bool} (h : SortedEnds (pre ++ (f, !d) :: post) files)
    (hne : ∀ f ∈ files, f.smallestKey ≠ f.largestKey) :
    pre.countP (·.2 == d) = files.countP fun g => blobEndsCmp (g, d) (f, !d) := by
  obtain ⟨-, hrest, hcross⟩ := pairwise_append.1 h.2
  have hmem : ∀ e ∈ pre ++ (f, !d) :: post, e.1 ∈ files := fun e he => mem_blobEnds.1 (h.1.mem_iff.1 he)
  have hpost : post.countP (fun e => e.2 == d && blobEndsCmp e (f, !d)) = 0 :=
    countP_eq_zero.2 fun e he hq => by simp [(pairwise_cons.1 hrest).1 e he] at hq
  have hblobEnds : ∀ files : List BlobFileMeta, (blobEnds files).countP (fun e => e.2 == d && blobEndsCmp e (f, !d)) =
      files.countP fun g => blobEndsCmp (g, d) (f, !d) := by
    intro files
    induction files with
    | nil => rfl
    | cons g files ih =>
      simp only [blobEnds, flatMap_cons, countP_append, countP_cons, countP_nil] at ih ⊢
      rw [ih]
      cases d <;> simp <;> omega
  have hself : ((!d) == d) = false := by cases d <;> rfl
  rw [← hblobEnds, ← h.1.countP_eq, countP_append, countP_cons, hpost, hself]
  refine countP_congr fun e he => ?_
  obtain ⟨g, d'⟩ := e
  by_cases hd : d' = d
  · subst hd
    have hle := hcross _ he _ (mem_cons_self ..)
    rw [blobEndsCmp_other (hne f (hmem _ (mem_append_right _ (mem_cons_self ..))))
      (hne g (hmem _ (mem_append_left _ he)))] at hle
    simp_all
  · simp [hd]

theorem countP_overlaps (hne : ∀ f ∈ files, f.smallestKey ≠ f.largestKey) (hf : f.smallestKey < f.largestKey)
    (h : ∀ g ∈ files, g.smallestKey < g.largestKey) :
    files.countP (fun g => blobEndsCmp (g, true) (f, false)) =
      files.countP f.overlaps + files.countP fun g => blobEndsCmp (g, false) (f, true) := by
  have hfne : f.smallestKey ≠ f.largestKey := fun heq => List.lt_irrefl _ (heq ▸ hf)
  induction files with
  | nil => rfl
  | cons g files ih =>
    obtain ⟨hg, hfiles⟩ := forall_mem_cons.1 h
    obtain ⟨hgne, hnes⟩ := forall_mem_cons.1 hne
    rw [countP_cons, countP_cons, countP_cons, ih hnes hfiles, (blobEndsCmp_start_end hgne f).1,
      (blobEndsCmp_start_end hfne g).2]
    by_cases hmeet : f.smallestKey < g.largestKey
    · simp [overlaps, hmeet]
      omega
    · have hlt : g.smallestKey < f.largestKey :=
        List.lt_trans hg (List.lt_of_le_of_lt (List.not_lt.1 hmeet) hf)
      simp [overlaps, hmeet, hlt]
      omega

theorem nodup_blobEnds (h : files.Nodup) : (blobEnds files).Nodup := by
  refine nodup_flatMap.2 ⟨fun f _ => by simp, h.imp fun {f g} hne => ?_⟩
  simp [disjoint_left, hne]

/-- The two ends of a file among the sorted ends. -/
theorem SortedEnds.split (h : SortedEnds ends files) (hnodup : files.Nodup) (hf : f ∈ files)
    (hlt : f.smallestKey < f.largestKey) : ∃ pre mid post, ends = pre ++ (f, true) :: mid ++ (f, false) :: post ∧
      (∀ e ∈ pre, e.1 ≠ f) ∧ (∀ e ∈ mid, e.1 ≠ f) ∧ ∀ e ∈ post, e.1 ≠ f := by
  have hmem : ∀ e, (f, e) ∈ ends := fun e => h.1.mem_iff.2 (mem_blobEnds.2 hf)
  have hends : ends.Nodup := h.1.nodup_iff.2 (nodup_blobEnds hnodup)
  obtain ⟨l, post, rfl⟩ := append_of_mem (hmem false)
  have hfirst : (f, true) ∈ l := by
    rcases mem_append.1 (hmem true) with hl | hl
    · exact hl
    · have hpost : (f, true) ∈ post := by simpa using hl
      have hcmp := (pairwise_cons.1 (pairwise_append.1 h.2).2.1).1 _ hpost
      have hne : f.smallestKey ≠ f.largestKey := fun heq => List.lt_irrefl _ (heq ▸ hlt)
      simp [blobEndsCmp, key, hne, hlt] at hcmp
  obtain ⟨pre, mid, rfl⟩ := append_of_mem hfirst
  refine ⟨pre, mid, post, rfl, ?_, ?_, ?_⟩ <;>
  · rintro ⟨g, e⟩ he rfl
    cases e <;> grind

/-- A file is marked exactly if it can be and more than `max_sorted_runs` files, itself included, overlap with it. -/
theorem markFiles_eq (hnodup : files.Nodup) (hkeys : ∀ f ∈ files, f.smallestKey < f.largestKey)
    (hsorted : SortedEnds ends files) : markFiles maxSortedRuns ends files = files.map fun f =>
      if f.markable ∧ maxSortedRuns < (files.countP f.overlaps : Int) then { f with state := .toMerge } else f := by
  refine map_congr_left fun f hf => ?_
  have hlt := hkeys f hf
  obtain ⟨pre, mid, post, rfl, hpre, hmid, hpost⟩ := hsorted.split hnodup hf hlt
  have hne : ∀ f ∈ files, f.smallestKey ≠ f.largestKey := fun f hf heq => List.lt_irrefl _ (heq ▸ hkeys f hf)
  have hadd := hsorted.countP_before (d := true) hne
  rw [append_assoc] at hsorted
  have hrem := hsorted.countP_before (d := false) hne
  have hmarked := mem_marked_iff maxSortedRuns hpre hmid hpost
  simp only [beq_true, beq_false] at hadd hrem
  rw [hadd, hrem, Bool.not_true, Bool.not_false, countP_overlaps hne hlt hkeys] at hmarked
  have hstate : f.markable = true → f.fileStateTransit .needMerge = { f with state := .toMerge } := by
    intro h
    simp only [markable, Bool.and_eq_true, decide_eq_true_eq] at h
    simp [fileStateTransit, FileState.transit, h.1.1, h.2]
  by_cases hm : f.markable = true ∧ maxSortedRuns < (files.countP f.overlaps : Int)
  · rw [if_pos hm, if_pos (hmarked.2 ⟨by omega, hm.1⟩), hstate hm.1]
  · rw [if_neg hm, if_neg fun h => hm ⟨(hmarked.1 h).2, by have := (hmarked.1 h).1; omega⟩]

/-- Two files overlap, and a third touches the second. -/
theorem markFiles_three :
    let file n (lo hi : UInt8) : BlobFileMeta := ⟨n, 0, 0, .sorted, 0, [lo], [hi], .normal, 0⟩
    let files := [file 1 1 3, file 2 2 4, file 3 4 5]
    let ends := [(file 1 1 3, true), (file 2 2 4, true), (file 1 1 3, false), (file 2 2 4, false), (file 3 4 5, true),
      (file 3 4 5, false)]
    SortedEnds ends files ∧ (markFiles 1 ends files).map state = [.toMerge, .toMerge, .normal] := by
  intro file files ends
  have hsorted : SortedEnds ends files := ⟨by decide, by decide⟩
  refine ⟨hsorted, ?_⟩
  rw [markFiles_eq (by decide) (by decide) hsorted]
  decide

end ValueSep.DiffKV
