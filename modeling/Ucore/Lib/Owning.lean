import Mathlib

set_option autoImplicit false

/-!
# Ownership of blocks

A store hands out blocks to slots: each slot holds a block or none (`0`), and a set of blocks is
free. The store is sound if what the slots hold is in use and no block is held twice.

## Main definitions

* `Owning` — what the slots hold is in use, and no block is held twice.
* `Owning.lost` — the blocks that are in use although no slot holds them.

## Main results

* `Owning.give`, `Owning.assign`, `Owning.release` — giving a block that no slot holds, or a free
  block, to a slot, and taking a slot's block back.
* `Owning.lost_assign`, `Owning.lost_release` — neither loses a block.
-/

variable {σ β : Type} [Zero β]

/-- The blocks that the slots hold are in use, and no block is held twice. -/
structure Owning (free : Finset β) (ref : σ → β) : Prop where
  inUse : ∀ x, ref x ≠ 0 → ref x ∉ free
  inj : ∀ x y, ref x ≠ 0 → ref x = ref y → x = y

namespace Owning

open Function Finset

variable {free : Finset β} {ref : σ → β} {x : σ} {b : β}

/-- The blocks that are in use although no slot holds them. -/
def lost (free : Finset β) (ref : σ → β) : Set β := {b | b ≠ 0 ∧ b ∉ free ∧ ∀ x, ref x ≠ b}

lemma ne_of_free (h : Owning free ref) (hb : b ∈ free) (hb0 : b ≠ 0) (x : σ) : ref x ≠ b := by
  rintro rfl
  exact h.inUse x hb0 hb

lemma mono {free' : Finset β} (h : Owning free ref) (hf : free' ⊆ free) : Owning free' ref :=
  ⟨fun x hx hm => h.inUse x hx (hf hm), h.inj⟩

/-- **Giving a block that no slot holds to a slot.** -/
lemma give [DecidableEq σ] (h : Owning free ref) (hb : b ∉ free) (hne : ∀ y, ref y ≠ b) :
    Owning free (update ref x b) := by
  refine ⟨fun y hy => ?_, fun y z hy e => ?_⟩
  · by_cases hyx : y = x
    · subst hyx
      rwa [update_self]
    · rw [update_of_ne hyx] at hy ⊢
      exact h.inUse y hy
  · by_cases hyx : y = x <;> by_cases hzx : z = x
    · rw [hyx, hzx]
    · subst hyx
      rw [update_self, update_of_ne hzx] at e
      exact absurd e.symm (hne z)
    · subst hzx
      rw [update_self, update_of_ne hyx] at e
      exact absurd e (hne y)
    · rw [update_of_ne hyx] at hy
      rw [update_of_ne hyx, update_of_ne hzx] at e
      exact h.inj y z hy e

variable [DecidableEq σ] [DecidableEq β]

/-- **Giving a free block to an empty slot.** -/
lemma assign (h : Owning free ref) (hb : b ∈ free) (hb0 : b ≠ 0) :
    Owning (free.erase b) (update ref x b) :=
  (h.mono (erase_subset b free)).give (notMem_erase b free) (h.ne_of_free hb hb0)

/-- Giving out a block loses none. -/
lemma lost_assign (hx : ref x = 0) (hb : b ∈ free) :
    lost (free.erase b) (update ref x b) = lost free ref := by
  ext c
  constructor
  · rintro ⟨hc0, hc, hr⟩
    have hcb : c ≠ b := by
      rintro rfl
      exact hr x (update_self ..)
    refine ⟨hc0, fun hm => hc (mem_erase.mpr ⟨hcb, hm⟩), fun y e => ?_⟩
    by_cases hyx : y = x
    · subst hyx
      exact hc0 (e ▸ hx)
    · exact hr y (by rw [update_of_ne hyx, e])
  · rintro ⟨hc0, hc, hr⟩
    refine ⟨hc0, fun hm => hc (mem_of_mem_erase hm), fun y e => ?_⟩
    by_cases hyx : y = x
    · subst hyx
      rw [update_self] at e
      exact hc (e ▸ hb)
    · rw [update_of_ne hyx] at e
      exact hr y e

/-- **Taking a slot's block back.** -/
lemma release (h : Owning free ref) (hx : ref x ≠ 0) :
    Owning (insert (ref x) free) (update ref x 0) := by
  refine ⟨fun y hy => ?_, fun y z hy e => ?_⟩
  · by_cases hyx : y = x
    · subst hyx
      simp at hy
    · rw [update_of_ne hyx] at hy ⊢
      rw [mem_insert, not_or]
      exact ⟨fun e => hyx (h.inj y x hy e), h.inUse y hy⟩
  · by_cases hyx : y = x
    · subst hyx
      simp at hy
    · rw [update_of_ne hyx] at hy e
      by_cases hzx : z = x
      · subst hzx
        rw [update_self] at e
        exact absurd e hy
      · rw [update_of_ne hzx] at e
        exact h.inj y z hy e

/-- Taking a block back loses none. -/
lemma lost_release (free : Finset β) (ref : σ → β) (x : σ) :
    lost (insert (ref x) free) (update ref x 0) = lost free ref := by
  ext c
  constructor
  · rintro ⟨hc0, hc, hr⟩
    rw [mem_insert, not_or] at hc
    refine ⟨hc0, hc.2, fun y e => ?_⟩
    by_cases hyx : y = x
    · subst hyx
      exact hc.1 e.symm
    · exact hr y (by rw [update_of_ne hyx, e])
  · rintro ⟨hc0, hc, hr⟩
    refine ⟨hc0, ?_, fun y e => ?_⟩
    · rw [mem_insert, not_or]
      exact ⟨(hr x).symm, hc⟩
    · by_cases hyx : y = x
      · subst hyx
        rw [update_self] at e
        exact hc0 e.symm
      · rw [update_of_ne hyx] at e
        exact hr y e

end Owning
