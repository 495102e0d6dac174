import Mathlib

set_option autoImplicit false

/-!
# Counting the members of a set whose value has a property

## Main results

* `card_filter_update` — the number after one value has changed.
-/

open Function Finset

section Count

variable {ι α : Type} {U : Finset ι} {f : ι → α} {P : α → Bool} {p : ι}

/-- The number of members of `U` whose value has a property, after the value of `p` has changed. -/
lemma card_filter_update [DecidableEq ι] (U : Finset ι) (f : ι → α) (P : α → Bool) (hp : p ∈ U)
    (a : α) : ((U.filter fun q => P (update f p a q)).card : ℤ) =
      (U.filter fun q => P (f q)).card - (P (f p)).toNat + (P a).toNat := by
  have key : ∀ g : ι → α, (U.filter fun q => P (g q)).card =
      ((U.erase p).filter fun q => P (g q)).card + (P (g p)).toNat := by
    intro g
    conv_lhs => rw [← insert_erase hp, filter_insert]
    split_ifs with h
    · rw [card_insert_of_notMem (by simp), h]
      rfl
    · rw [Bool.eq_false_of_not_eq_true h]
      rfl
  have hrest : ((U.erase p).filter fun q => P (update f p a q)) =
      (U.erase p).filter fun q => P (f q) := by
    refine filter_congr fun q hq => ?_
    rw [update_of_ne (ne_of_mem_erase hq)]
  rw [key (update f p a), key f, hrest, update_self]
  omega

end Count
