import Mathlib

set_option autoImplicit false

/-!
# Tilings

A set of tiles covers a region exactly and without overlaps. Tiles are named, so that two tiles
with different names are different even if they would cover the same points.

## Main definitions

* `Tiling` — the tiles `T` are pairwise disjoint and cover exactly `R`.

## Main results

* `Tiling.exchange` — some tiles are replaced by others that cover the same points.
* `Tiling.add` — a tile is added outside the region.
-/

variable {β α : Type} {span : β → Set α} {T T' : Set β} {R : Set α} {b c : β} {x : α}

/-- The tiles `T` are pairwise disjoint and cover exactly `R`. -/
structure Tiling (span : β → Set α) (T : Set β) (R : Set α) : Prop where
  disjoint : T.PairwiseDisjoint span
  cover : ⋃ b ∈ T, span b = R

namespace Tiling

lemma empty : Tiling span ∅ ∅ := ⟨Set.pairwiseDisjoint_empty, by simp⟩

lemma single (b : β) : Tiling span {b} (span b) :=
  ⟨Set.pairwiseDisjoint_singleton b span, by simp⟩

lemma pair (h : Disjoint (span b) (span c)) : Tiling span {b, c} (span b ∪ span c) := by
  refine ⟨?_, by simp⟩
  intro x hx y hy hne
  rcases hx with rfl | rfl <;> rcases hy with rfl | rfl
  · exact absurd rfl hne
  · exact h
  · exact h.symm
  · exact absurd rfl hne

section

variable (h : Tiling span T R)
include h

lemma eq_of_mem (hb : b ∈ T) (hc : c ∈ T) (hxb : x ∈ span b) (hxc : x ∈ span c) : b = c := by
  by_contra hne
  exact Set.disjoint_left.mp (h.disjoint hb hc hne) hxb hxc

lemma mem_iff : x ∈ R ↔ ∃ b ∈ T, x ∈ span b := by
  rw [← h.cover]
  simp

lemma subset (hb : b ∈ T) : span b ⊆ R :=
  fun _ hx => h.mem_iff.mpr ⟨b, hb, hx⟩

/-- **Exchanging tiles**: the tiles `S` are replaced by tiles `S'` that cover the same points.

**Proof sketch.** A new tile lies in the part that `S` covered, from which the remaining tiles are
disjoint. -/
lemma exchange (S S' : Set β) (hS : S ⊆ T) (h' : Tiling span S' (⋃ b ∈ S, span b))
    (hT : T' = T \ S ∪ S') : Tiling span T' R := by
  subst hT
  -- an old tile that stays and a new one have no point in common
  have hsep : ∀ b ∈ T \ S, ∀ c ∈ S', Disjoint (span b) (span c) := by
    intro b hb c hc
    rw [Set.disjoint_left]
    intro x hxb hxc
    have hx : x ∈ ⋃ d ∈ S, span d := h'.subset hc hxc
    simp only [Set.mem_iUnion] at hx
    obtain ⟨d, hd, hxd⟩ := hx
    exact hb.2 (h.eq_of_mem hb.1 (hS hd) hxb hxd ▸ hd)
  refine ⟨?_, ?_⟩
  · intro b hb c hc hne
    rcases hb with hb | hb <;> rcases hc with hc | hc
    · exact h.disjoint hb.1 hc.1 hne
    · exact hsep b hb c hc
    · exact (hsep c hc b hb).symm
    · exact h'.disjoint hb hc hne
  · rw [Set.biUnion_union, h'.cover, ← Set.biUnion_union, Set.sdiff_union_of_subset hS, h.cover]

/-- **Adding a tile** outside the region. -/
lemma add (hb : Disjoint (span b) R) : Tiling span (insert b T) (span b ∪ R) := by
  refine ⟨?_, by rw [Set.biUnion_insert, h.cover]⟩
  refine h.disjoint.insert fun c hc _ => ?_
  exact hb.mono_right (h.subset hc)

end

end Tiling
