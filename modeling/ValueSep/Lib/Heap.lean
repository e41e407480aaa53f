import Mathlib.Logic.Function.Basic

/-!
# A heap of blocks with one owner each

Blocks are numbered in the order in which they are allocated and are never reused. The program frees blocks by
number; `Heap.Owned own` says that the map `own` gives every allocated block its one owner, so that an argument
about who may free a block is an argument about a function.
-/

namespace ValueSep

open Function

structure Heap where
  next : Nat
  live : Nat → Bool

namespace Heap

def empty : Heap := ⟨0, fun _ => false⟩

def alloc (h : Heap) : Heap × Nat := (⟨h.next + 1, update h.live h.next true⟩, h.next)

def free (h : Heap) (b : Nat) : Heap := { h with live := update h.live b false }

variable {ω : Type*}

structure Owned (h : Heap) (own : Nat → Option ω) : Prop where
  live : ∀ b, h.live b = (own b).isSome
  fresh : ∀ b, h.next ≤ b → own b = none

variable {h : Heap} {own : Nat → Option ω} {b : Nat} {x : ω}

theorem owned_empty : empty.Owned (fun _ => (none : Option ω)) := ⟨fun _ => rfl, fun _ _ => rfl⟩

section
variable (H : h.Owned own)
include H

theorem Owned.live_of_eq_some (hb : own b = some x) : h.live b = true := by
  rw [H.live, hb]; rfl

theorem Owned.not_live_of_eq_none (hb : own b = none) : h.live b = false := by
  rw [H.live, hb]; rfl

theorem Owned.lt_next (hb : own b = some x) : b < h.next := by
  by_contra hge
  rw [H.fresh b (by omega)] at hb
  cases hb

theorem Owned.alloc (x : ω) : h.alloc.1.Owned (update own h.next (some x)) := by
  constructor
  · intro b
    rcases eq_or_ne b h.next with rfl | hb
    · simp [Heap.alloc]
    · simp [Heap.alloc, hb, H.live]
  · intro b hb
    have hge : h.next + 1 ≤ b := hb
    rw [update_of_ne (by omega)]
    exact H.fresh b (by omega)

theorem Owned.free (b : Nat) : (h.free b).Owned (update own b none) := by
  constructor
  · intro b'
    rcases eq_or_ne b' b with rfl | hb
    · simp [Heap.free]
    · simp [Heap.free, hb, H.live]
  · intro b' hb
    rcases eq_or_ne b' b with rfl | hne
    · simp
    · rw [update_of_ne hne]; exact H.fresh b' hb

theorem Owned.alloc_free : (h.alloc.1.free h.next).Owned own := by
  constructor
  · intro b
    rcases eq_or_ne b h.next with rfl | hb
    · simp [Heap.alloc, Heap.free, H.fresh _ (Nat.le_refl _)]
    · simp [Heap.alloc, Heap.free, hb, H.live]
  · intro b hb
    have hge : h.next + 1 ≤ b := hb
    exact H.fresh b (by omega)

theorem Owned.give (hb : own b = some x) (y : ω) : h.Owned (update own b (some y)) := by
  constructor
  · intro b'
    rcases eq_or_ne b' b with rfl | hne
    · simp [H.live, hb]
    · simp [hne, H.live]
  · intro b' hge
    rw [update_of_ne]
    · exact H.fresh b' hge
    · rintro rfl
      exact absurd (H.lt_next hb) (by omega)

end

end Heap

end ValueSep
