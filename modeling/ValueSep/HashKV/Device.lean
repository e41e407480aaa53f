import ValueSep.HashKV.ValueLocation
import ValueSep.Lib.Memory

/-!
# Segments on disks and in files (`deviceManager.cc`)

In hash-group mode a segment is a range of a raw device, a range of one file that all segments share, or a file of its
own. The offset of a segment is computed for its disk, also where the disk does not choose the file.
-/

namespace ValueSep.HashKV

open Coding (Bytes)
open List Function Memory Config

inductive StorageMode
  /-- Neither `segmentAsFile` nor `segmentAsSeparateFile`. -/
  | raw
  /-- `segmentAsFile`. -/
  | sharedFile
  /-- Both. -/
  | separateFiles
  deriving DecidableEq, Repr

/-- `DeviceManager` over disks `0, …, numDisks - 1`. -/
structure DeviceConfig extends Config where
  numDisks : Nat
  /-- The `capacity` of a disk; a raw device has as many bytes. -/
  capacity : Nat → Nat
  mode : StorageMode
  numDisks_pos : 0 < numDisks

structure File where
  size : Nat
  byte : Nat → UInt8

namespace File

/-- `fseek` and `fwrite`; a gap behind the end reads as zero. -/
def fwrite (offset : Nat) (data : Bytes) (f : File) : File where
  size := max f.size (offset + data.length)
  byte := write (fun i => if i < f.size then f.byte i else 0) offset data

/-- `fseek` and `fread`, which stops at the end of the file. -/
def fread (offset length : Nat) (f : File) : Bytes := read f.byte offset (min length (f.size - offset))

theorem fread_fwrite_self {f : File} {o : Nat} {data : Bytes} : (f.fwrite o data).fread o data.length = data := by
  unfold fread fwrite
  have hmin : min data.length (max f.size (o + data.length) - o) = data.length := by omega
  rw [hmin]
  exact holds_write_self

theorem fread_fwrite_of_disjoint {f : File} {o o' n : Nat} {data : Bytes} (hfull : (f.fread o' n).length = n)
    (hdisj : o + data.length ≤ o' ∨ o' + n ≤ o) : (f.fwrite o data).fread o' n = f.fread o' n := by
  unfold fread at hfull ⊢
  rw [length_read] at hfull
  unfold fwrite
  have hmin : min n (max f.size (o + data.length) - o') = n := by omega
  rw [hmin, hfull, read_write_of_disjoint hdisj.symm]
  exact read_congr fun i hi hi' => if_pos (by omega)

end File

structure Storage where
  disk : Nat → Nat → UInt8
  /-- The file `c<id>`, of size 0 before it is created. -/
  file : Nat → File

/-- `INVALID_LBA`, a 32-bit word. -/
def invalidLba : Nat := 2 ^ 32 - 1

namespace DeviceConfig

def getDiskBySegmentId (dev : DeviceConfig) (segmentId : Nat) : Nat := segmentId % dev.numDisks

def getOffsetBySegmentId (dev : DeviceConfig) (segmentId : Nat) : Nat :=
  if segmentId < dev.numMainSegment then segmentId / dev.numDisks * dev.mainSegmentSize
  else (dev.numMainSegment + dev.numDisks - 1) / dev.numDisks * dev.mainSegmentSize +
    (segmentId - dev.numMainSegment) / dev.numDisks * dev.logSegmentSize

/-- The test of `accessDataOnDisk`, which leaves out where the segment begins. -/
def rejects (dev : DeviceConfig) (segmentId startingOffset length : Nat) : Bool :=
  length = 0 ∨ dev.capacity (dev.getDiskBySegmentId segmentId) < startingOffset + length

/-- `writePartialSegment`: the offset written at, or `INVALID_LBA`. -/
def writePartialSegment (dev : DeviceConfig) (segmentId startingOffset : Nat) (data : Bytes) (st : Storage) :
    Except Stop (Nat × Storage) :=
  let diskId := dev.getDiskBySegmentId segmentId
  let diskOffset := dev.getOffsetBySegmentId segmentId + startingOffset
  if dev.rejects segmentId startingOffset data.length then .ok (invalidLba, st)
  else match dev.mode with
    | .separateFiles => .ok (invalidLba, { st with
        file := update st.file segmentId ((st.file segmentId).fwrite startingOffset data) })
    | .sharedFile => .ok (diskOffset, { st with
        -- `accessFileFd(0)`
        file := update st.file 0 ((st.file 0).fwrite diskOffset data) })
    | .raw =>
      if dev.capacity diskId < diskOffset + data.length then .error .assertion
      else .ok (diskOffset, { st with
        disk := update st.disk diskId (write (st.disk diskId) diskOffset data) })

/-- `readPartialSegment`: its result, which compares an `INVALID_LBA` with `INVALID_OFFSET`, and what it puts into the
buffer. A read that stops early ends the process, but not from a file of the segment's own. -/
def readPartialSegment (dev : DeviceConfig) (segmentId startingOffset length : Nat) (st : Storage) :
    Except Stop (Bool × Bytes) :=
  let diskId := dev.getDiskBySegmentId segmentId
  let diskOffset := dev.getOffsetBySegmentId segmentId + startingOffset
  if dev.rejects segmentId startingOffset length then .ok (decide (invalidLba ≠ invalid), [])
  else match dev.mode with
    | .separateFiles => .ok (decide (invalidLba ≠ invalid), (st.file segmentId).fread startingOffset length)
    | .sharedFile =>
      let data := (st.file 0).fread diskOffset length
      if data.length ≠ length then .error .assertion else .ok (decide (diskOffset ≠ invalid), data)
    | .raw =>
      if dev.capacity diskId < diskOffset + length then .error .assertion
      else .ok (decide (diskOffset ≠ invalid), read (st.disk diskId) diskOffset length)

/-! ### Where segments lie -/

variable {dev : DeviceConfig} {c d : Nat}

theorem getOffsetBySegmentId_main (h : c < dev.numMainSegment) :
    dev.getOffsetBySegmentId c = c / dev.numDisks * dev.mainSegmentSize := if_pos h

theorem getOffsetBySegmentId_log (i : Nat) : dev.getOffsetBySegmentId (dev.numMainSegment + i) =
    (dev.numMainSegment + dev.numDisks - 1) / dev.numDisks * dev.mainSegmentSize +
      i / dev.numDisks * dev.logSegmentSize := by
  rw [getOffsetBySegmentId, if_neg (by omega), Nat.add_sub_cancel_left]

theorem segmentSize_main (h : c < dev.numMainSegment) : dev.segmentSize c = dev.mainSegmentSize := by
  simp [segmentSize, isLogSegment, h]

theorem segmentSize_log (i : Nat) : dev.segmentSize (dev.numMainSegment + i) = dev.logSegmentSize := by
  simp [segmentSize, isLogSegment]

theorem getOffsetBySegmentId_le : dev.getOffsetBySegmentId c ≤ dev.segmentOffset c := by
  have hmain : (dev.numMainSegment + dev.numDisks - 1) / dev.numDisks ≤ dev.numMainSegment := by
    have hpos := dev.numDisks_pos
    have hlt : dev.numMainSegment + dev.numDisks - 1 < (dev.numMainSegment + 1) * dev.numDisks := by
      have := Nat.le_mul_of_pos_right dev.numMainSegment hpos
      rw [Nat.succ_mul]
      omega
    exact Nat.le_of_lt_succ ((Nat.div_lt_iff_lt_mul hpos).2 hlt)
  unfold getOffsetBySegmentId segmentOffset
  split
  · exact Nat.mul_le_mul_right _ (Nat.div_le_self ..)
  · exact Nat.add_le_add (Nat.mul_le_mul_right _ hmain) (Nat.mul_le_mul_right _ (Nat.div_le_self ..))

/-- A main segment lies before the log segments of all disks. -/
theorem main_le_log (hc : c < dev.numMainSegment) (i : Nat) :
    dev.getOffsetBySegmentId c + dev.segmentSize c ≤ dev.getOffsetBySegmentId (dev.numMainSegment + i) := by
  have hlt : c / dev.numDisks < (dev.numMainSegment + dev.numDisks - 1) / dev.numDisks := by
    have hpos := dev.numDisks_pos
    rw [Nat.lt_iff_add_one_le, Nat.le_div_iff_mul_le hpos, Nat.add_mul]
    have := Nat.div_mul_le_self c dev.numDisks
    omega
  rw [getOffsetBySegmentId_main hc, segmentSize_main hc, getOffsetBySegmentId_log]
  calc c / dev.numDisks * dev.mainSegmentSize + dev.mainSegmentSize
      = (c / dev.numDisks + 1) * dev.mainSegmentSize := by rw [Nat.succ_mul]
    _ ≤ (dev.numMainSegment + dev.numDisks - 1) / dev.numDisks * dev.mainSegmentSize := Nat.mul_le_mul_right _ hlt
    _ ≤ _ := Nat.le_add_right ..

theorem offset_le_of_disk (hdisk : dev.getDiskBySegmentId c = dev.getDiskBySegmentId d) (hlt : c < d) :
    dev.getOffsetBySegmentId c + dev.segmentSize c ≤ dev.getOffsetBySegmentId d := by
  have hpos := dev.numDisks_pos
  by_cases hd : d < dev.numMainSegment
  · have hquot : c / dev.numDisks < d / dev.numDisks := by
      have hc := Nat.div_add_mod c dev.numDisks
      have hd := Nat.div_add_mod d dev.numDisks
      unfold getDiskBySegmentId at hdisk
      by_contra hle
      have := Nat.mul_le_mul_left dev.numDisks (Nat.le_of_not_lt hle)
      omega
    rw [getOffsetBySegmentId_main hd, getOffsetBySegmentId_main (by omega), segmentSize_main (by omega), ← Nat.succ_mul]
    exact Nat.mul_le_mul_right _ hquot
  · obtain ⟨j, rfl⟩ := Nat.exists_eq_add_of_le (Nat.le_of_not_lt hd)
    by_cases hc : c < dev.numMainSegment
    · exact main_le_log hc j
    · obtain ⟨i, rfl⟩ := Nat.exists_eq_add_of_le (Nat.le_of_not_lt hc)
      -- the distance of the two is a multiple of the number of disks
      obtain ⟨k, hk⟩ : ∃ k, j = i + dev.numDisks * k := by
        obtain ⟨k, hk⟩ := Nat.dvd_of_mod_eq_zero (Nat.sub_mod_eq_zero_of_mod_eq hdisk.symm)
        exact ⟨k, by omega⟩
      have hkpos : 0 < k := Nat.pos_of_ne_zero fun hk0 => by
        rw [hk0] at hk
        omega
      rw [getOffsetBySegmentId_log, getOffsetBySegmentId_log, segmentSize_log, hk, Nat.add_mul_div_left _ _ hpos,
        Nat.add_assoc, ← Nat.succ_mul]
      exact Nat.add_le_add_left (Nat.mul_le_mul_right _ (by omega)) _

/-! ### Reads after writes -/

variable {st st' : Storage} {o o' n n' r : Nat} {data : Bytes}

/-- `n` bytes at offset `o`, all of them in the segment. -/
structure InRange (dev : DeviceConfig) (c o n : Nat) : Prop where
  lt : c < dev.numSegment
  pos : 0 < n
  le : o + n ≤ dev.segmentSize c

/-- Every segment fits on its disk; on a raw device also from where it begins. -/
def Sized (dev : DeviceConfig) : Prop :=
  ∀ c < dev.numSegment, dev.segmentSize c ≤ dev.capacity (dev.getDiskBySegmentId c) ∧
    (dev.mode = .raw → dev.getOffsetBySegmentId c + dev.segmentSize c ≤ dev.capacity (dev.getDiskBySegmentId c))

/-- One file is not shared by the layouts of several disks, unless these have no two segments of a kind. -/
def Unshared (dev : DeviceConfig) : Prop :=
  dev.mode = .sharedFile → dev.numDisks = 1 ∨ (dev.numMainSegment = 1 ∧ dev.numLogSegment = 1)

theorem Unshared.offset_le (h : dev.Unshared) (hd : d < dev.numSegment) (hlt : c < d)
    (hsame : dev.mode = .raw ∧ dev.getDiskBySegmentId c = dev.getDiskBySegmentId d ∨ dev.mode = .sharedFile) :
    dev.getOffsetBySegmentId c + dev.segmentSize c ≤ dev.getOffsetBySegmentId d := by
  rcases hsame with ⟨-, hdisk⟩ | hmode
  · exact offset_le_of_disk hdisk hlt
  · rcases h hmode with hone | ⟨hmain, hlog⟩
    · refine offset_le_of_disk ?_ hlt
      rw [getDiskBySegmentId, getDiskBySegmentId, hone, Nat.mod_one, Nat.mod_one]
    · unfold numSegment at hd
      have hd1 : d = dev.numMainSegment + 0 := by omega
      rw [hd1]
      exact main_le_log (by omega) 0

/-- Bytes of different segments, or different bytes of one. -/
def Apart (c o n d o' n' : Nat) : Prop := c = d → o + n ≤ o' ∨ o' + n' ≤ o

theorem Unshared.disjoint (h : dev.Unshared) (hc : dev.InRange c o n) (hd : dev.InRange d o' n')
    (hapart : Apart c o n d o' n')
    (hsame : dev.mode = .raw ∧ dev.getDiskBySegmentId c = dev.getDiskBySegmentId d ∨ dev.mode = .sharedFile) :
    dev.getOffsetBySegmentId c + o + n ≤ dev.getOffsetBySegmentId d + o' ∨
      dev.getOffsetBySegmentId d + o' + n' ≤ dev.getOffsetBySegmentId c + o := by
  have hcle := hc.le
  have hdle := hd.le
  rcases Nat.lt_trichotomy c d with hlt | rfl | hlt
  · have := h.offset_le hd.lt hlt hsame
    omega
  · have := hapart rfl
    omega
  · have := h.offset_le hc.lt hlt (hsame.imp (fun hraw => ⟨hraw.1, hraw.2.symm⟩) id)
    omega

theorem Sized.not_rejects (h : dev.Sized) (hc : dev.InRange c o n) : dev.rejects c o n = false := by
  have := (h c hc.lt).1
  have := hc.le
  have := hc.pos
  exact decide_eq_false (by omega)

theorem diskOffset_ne_invalid (hc : dev.InRange c o n) : dev.getOffsetBySegmentId c + o ≠ invalid := by
  have hle := @getOffsetBySegmentId_le dev c
  have hin := hc.le
  have hlast : dev.segmentOffset c + dev.segmentSize c ≤ dev.segmentOffset dev.numSegment :=
    ValueLocation.segmentOffset_le hc.lt
  have hcap := dev.capacity_lt
  have hend : dev.segmentOffset dev.numSegment =
      dev.numMainSegment * dev.mainSegmentSize + dev.numLogSegment * dev.logSegmentSize :=
    ValueLocation.segmentOffset_log _
  unfold invalid
  omega

theorem write_self (hs : dev.Sized) (hc : dev.InRange c o data.length) :
    ∃ r st', dev.writePartialSegment c o data st = .ok (r, st') ∧
      dev.readPartialSegment c o data.length st' = .ok (true, data) := by
  have hrej := hs.not_rejects hc
  have hoff := decide_eq_true (diskOffset_ne_invalid hc)
  unfold writePartialSegment readPartialSegment
  simp only [hrej, Bool.false_eq_true, if_false]
  cases hmode : dev.mode with
  | separateFiles =>
    refine ⟨_, _, rfl, ?_⟩
    dsimp only
    rw [update_self, File.fread_fwrite_self]
    rfl
  | sharedFile =>
    refine ⟨_, _, rfl, ?_⟩
    simp only [update_self, File.fread_fwrite_self, ne_eq, not_true_eq_false, if_false] at hoff ⊢
    rw [hoff]
  | raw =>
    have hcap : ¬dev.capacity (dev.getDiskBySegmentId c) < dev.getOffsetBySegmentId c + o + data.length := by
      have := (hs c hc.lt).2 hmode
      have := hc.le
      omega
    rw [if_neg hcap]
    refine ⟨_, _, rfl, ?_⟩
    dsimp only
    rw [if_neg hcap, hoff, update_self]
    exact congrArg (fun x => Except.ok (true, x)) holds_write_self

theorem read_of_write (hs : dev.Sized) (hu : dev.Unshared) (hc : dev.InRange c o data.length) (hd : dev.InRange d o' n')
    (hapart : Apart c o data.length d o' n') (hw : dev.writePartialSegment c o data st = .ok (r, st')) {b : Bool} {x : Bytes}
    (hr : dev.readPartialSegment d o' n' st = .ok (b, x)) (hfull : c = d → x.length = n') :
    dev.readPartialSegment d o' n' st' = .ok (b, x) := by
  have hdisj := hu.disjoint hc hd hapart
  unfold writePartialSegment at hw
  unfold readPartialSegment at hr ⊢
  rw [hs.not_rejects hc, if_neg Bool.false_ne_true] at hw
  rw [hs.not_rejects hd] at hr ⊢
  cases hmode : dev.mode with
  | separateFiles =>
    simp only [hmode] at hw hr ⊢
    cases hw
    rw [← hr]
    by_cases hcd : c = d
    · subst hcd
      cases hr
      simp only [update_self, File.fread_fwrite_of_disjoint (hfull rfl) (hapart rfl)]
    · simp only [update_of_ne (Ne.symm hcd)]
  | sharedFile =>
    simp only [hmode] at hw hr ⊢
    cases hw
    by_cases hlen : (File.fread (dev.getOffsetBySegmentId d + o') n' (st.file 0)).length ≠ n'
    · rw [if_pos hlen] at hr
      cases hr
    · rw [if_neg hlen] at hr
      simp only [update_self, File.fread_fwrite_of_disjoint (not_not.1 hlen) (hdisj (.inr hmode))]
      rw [if_neg hlen, hr]
  | raw =>
    simp only [hmode] at hw hr ⊢
    split at hw
    · cases hw
    · cases hw
      rw [← hr]
      by_cases hdisk : dev.getDiskBySegmentId d = dev.getDiskBySegmentId c
      · simp only [hdisk, update_self,
          read_write_of_disjoint ((hdisj (.inl ⟨hmode, hdisk.symm⟩)).symm)]
      · simp only [update_of_ne hdisk]

/-- The arguments of a `writePartialSegment`. -/
structure Write where
  segmentId : Nat
  startingOffset : Nat
  data : Bytes

def Write.InRange (dev : DeviceConfig) (w : Write) : Prop :=
  dev.InRange w.segmentId w.startingOffset w.data.length

def Write.Apart (v w : Write) : Prop :=
  DeviceConfig.Apart v.segmentId v.startingOffset v.data.length w.segmentId w.startingOffset w.data.length

/-- One write after the other. -/
def writes (dev : DeviceConfig) (ws : List Write) (st : Storage) : Except Stop Storage :=
  ws.foldlM (fun st w => Prod.snd <$> dev.writePartialSegment w.segmentId w.startingOffset w.data st) st

/-- A write in range is done, what it wrote is read back after any later writes to other bytes, and what can be read of
other segments is the same before and after it. -/
def Isolated (dev : DeviceConfig) : Prop :=
  ∀ (st : Storage) (w : Write), w.InRange dev →
    ∃ r st', dev.writePartialSegment w.segmentId w.startingOffset w.data st = .ok (r, st') ∧
      (∀ ws st'', (∀ v ∈ ws, v.InRange dev ∧ v.Apart w) → dev.writes ws st' = .ok st'' →
        dev.readPartialSegment w.segmentId w.startingOffset w.data.length st'' = .ok (true, w.data)) ∧
      ∀ d o n x, d ≠ w.segmentId → dev.InRange d o n → dev.readPartialSegment d o n st = .ok x →
        dev.readPartialSegment d o n st' = .ok x

theorem read_of_writes (hs : dev.Sized) (hu : dev.Unshared) {w : Write} (hw : w.InRange dev) {ws : List Write}
    (hws : ∀ v ∈ ws, v.InRange dev ∧ v.Apart w)
    (hr : dev.readPartialSegment w.segmentId w.startingOffset w.data.length st = .ok (true, w.data))
    (h : dev.writes ws st = .ok st') :
    dev.readPartialSegment w.segmentId w.startingOffset w.data.length st' = .ok (true, w.data) := by
  induction ws generalizing st with
  | nil =>
    cases h
    exact hr
  | cons v ws ih =>
    obtain ⟨hv, hapart⟩ := hws v (mem_cons_self ..)
    unfold writes at h
    rw [foldlM_cons] at h
    rcases hstep : dev.writePartialSegment v.segmentId v.startingOffset v.data st with e | ⟨r, st₁⟩
    · rw [hstep] at h
      cases h
    · rw [hstep] at h
      exact ih (fun u hu => hws u (mem_cons_of_mem _ hu)) (read_of_write hs hu hv hw hapart hstep hr fun _ => rfl) h

theorem Sized.isolated (hs : dev.Sized) (hu : dev.Unshared) : dev.Isolated := by
  intro st w hw
  obtain ⟨r, st', hwrite, hread⟩ := @write_self _ _ st _ _ hs hw
  refine ⟨r, st', hwrite, fun ws st'' hws hrun => read_of_writes hs hu hw hws hread hrun, fun d o n x hne hd hx => ?_⟩
  exact read_of_write hs hu hw hd (fun heq => absurd heq.symm hne) hwrite hx fun heq => absurd heq.symm hne

/-- Without room for a segment its last byte cannot be written. -/
theorem Isolated.sized (h : dev.Isolated) : dev.Sized := by
  intro c hc
  have hpos : 0 < dev.segmentSize c := by
    unfold segmentSize
    split
    · exact dev.logSegmentSize_pos
    · exact dev.mainSegmentSize_pos
  obtain ⟨r, st', hwrite, hread, -⟩ := h ⟨fun _ _ => 0, fun _ => ⟨0, fun _ => 0⟩⟩ ⟨c, dev.segmentSize c - 1, [0]⟩
    ⟨hc, Nat.one_pos, by simp only [length_singleton]; omega⟩
  have hread := hread [] st' (fun v hv => by cases hv) rfl
  unfold readPartialSegment at hread
  unfold writePartialSegment at hwrite
  dsimp only [length_singleton] at hread hwrite
  by_cases hrej : dev.rejects c (dev.segmentSize c - 1) 1 = true
  · rw [if_pos hrej] at hread
    cases hread
  · have hfit : dev.segmentSize c ≤ dev.capacity (dev.getDiskBySegmentId c) := by
      by_contra hlt
      exact hrej (decide_eq_true (.inr (by omega)))
    refine ⟨hfit, fun hmode => ?_⟩
    rw [if_neg hrej, hmode] at hwrite
    by_contra hlt
    rw [if_pos (by omega)] at hwrite
    cases hwrite

/-- In a file that both use, two segments with one offset overwrite each other. -/
theorem Isolated.offset_ne (h : dev.Isolated) (hmode : dev.mode = .sharedFile) (hc : c < dev.numSegment)
    (hd : d < dev.numSegment) (hne : d ≠ c) : dev.getOffsetBySegmentId c ≠ dev.getOffsetBySegmentId d := by
  intro heq
  have hs := h.sized
  have hrange : ∀ c < dev.numSegment, dev.InRange c 0 1 := fun c hc => ⟨hc, Nat.one_pos, by
    unfold segmentSize
    have := dev.mainSegmentSize_pos
    have := dev.logSegmentSize_pos
    split <;> omega⟩
  obtain ⟨r, st₁, -, hread, -⟩ := h ⟨fun _ _ => 0, fun _ => ⟨0, fun _ => 0⟩⟩ ⟨c, 0, [0]⟩ (hrange c hc)
  obtain ⟨r₂, st₂, hwrite₂, hread₂⟩ := @write_self dev d st₁ 0 [1] hs (hrange d hd)
  have hlater := hread [⟨d, 0, [1]⟩] st₂ (fun v hv => by
      rw [mem_singleton.1 hv]
      exact ⟨hrange d hd, fun heq => absurd heq hne⟩) (by
    unfold writes
    rw [foldlM_cons, hwrite₂]
    rfl)
  -- both reads are of the same byte
  have hsame : dev.readPartialSegment c 0 1 st₂ = dev.readPartialSegment d 0 1 st₂ := by
    unfold readPartialSegment
    simp only [hs.not_rejects (hrange c hc), hs.not_rejects (hrange d hd), hmode, heq]
  have hbyte : (Except.ok (true, [0]) : Except Stop (Bool × Bytes)) = .ok (true, [1]) :=
    hlater.symm.trans (hsame.trans hread₂)
  simp at hbyte

theorem Isolated.unshared (h : dev.Isolated) : dev.Unshared := by
  intro hmode
  by_contra hshared
  have hpos := dev.numDisks_pos
  have hmain := dev.numMainSegment_pos
  have hlog := dev.numLogSegment_pos
  have hone : 1 / dev.numDisks = 0 := Nat.div_eq_of_lt (by omega)
  by_cases htwo : 1 < dev.numMainSegment
  · -- the first two main segments
    refine h.offset_ne hmode (c := 0) (d := 1) (by unfold numSegment; omega) (by unfold numSegment; omega)
      (by decide) ?_
    rw [getOffsetBySegmentId_main hmain, getOffsetBySegmentId_main htwo, hone, Nat.zero_div]
  · -- the first two log segments
    refine h.offset_ne hmode (c := dev.numMainSegment + 0) (d := dev.numMainSegment + 1)
      (by unfold numSegment; omega) (by unfold numSegment; omega) (by omega) ?_
    rw [getOffsetBySegmentId_log, getOffsetBySegmentId_log, hone, Nat.zero_div]

/-- Segments are kept apart exactly if they fit on their disks and one file is not laid out by several disks. -/
theorem isolated_iff (dev : DeviceConfig) : dev.Isolated ↔ dev.Sized ∧ dev.Unshared :=
  ⟨fun h => ⟨h.sized, h.unshared⟩, fun h => h.1.isolated h.2⟩

/-- Two disks with paths, and `segmentAsFile`. -/
def twoDisks : DeviceConfig where
  toConfig := smallConfig
  numDisks := 2
  capacity _ := 1000
  mode := .sharedFile
  numDisks_pos := by decide

/-- Log segments 1 and 2 are the first of their disks, and both begin at byte 64 of the file `c0`. -/
theorem not_isolated_small : (do
      let (_, st) ← twoDisks.writePartialSegment 1 0 [7] ⟨fun _ _ => 0, fun _ => ⟨0, fun _ => 0⟩⟩
      let (_, st) ← twoDisks.writePartialSegment 2 0 [8] st
      twoDisks.readPartialSegment 1 0 1 st) = .ok (true, [8]) ∧ ¬twoDisks.Isolated := by
  refine ⟨by decide +kernel, fun h => ?_⟩
  have hne := h.offset_ne (c := 1) (d := 2) rfl (by decide) (by decide) (by decide)
  exact hne (by decide)

end DeviceConfig

end ValueSep.HashKV
