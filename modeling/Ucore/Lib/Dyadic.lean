import Ucore.Lib.Tiling

set_option autoImplicit false

/-!
# Dyadic tilings

Tilings of a set of numbers by blocks of `2 ^ k` numbers, each at a multiple of its size. If no two
blocks are the halves of a larger one, there is one such tiling only.

## Main definitions

* `DyadicTiling` — a tiling by aligned blocks in which no two halves can be merged.

## Main results

* `exists_halves` — where a block lies strictly inside an aligned interval of the region, there are
  two halves.
* `DyadicTiling.unique` — a region has at most one such tiling.
-/

variable {i j k m x y K : ℕ} {T T' : Set (ℕ × ℕ)} {R : Set ℕ}

/-- The numbers of the block `b`, given by its first number and its order. -/
def dyadicSpan (b : ℕ × ℕ) : Set ℕ := Set.Ico b.1 (b.1 + 2 ^ b.2)

/-- The blocks `T` tile `R`, each is at a multiple of its size `2 ^ k` with `k ≤ K`, and no two of
them are the halves of a block of order at most `K`. -/
structure DyadicTiling (K : ℕ) (T : Set (ℕ × ℕ)) (R : Set ℕ) : Prop where
  tiles : Tiling dyadicSpan T R
  aligned : ∀ i k, (i, k) ∈ T → 2 ^ k ∣ i
  le : ∀ i k, (i, k) ∈ T → k ≤ K
  apart : ∀ i k, k < K → 2 ^ (k + 1) ∣ i → (i, k) ∈ T → (i + 2 ^ k, k) ∉ T

/-- A number is in an aligned block exactly if the quotients are the same. -/
lemma mem_dyadicSpan (h : 2 ^ k ∣ i) : x ∈ dyadicSpan (i, k) ↔ x / 2 ^ k = i / 2 ^ k := by
  have hpos := Nat.two_pow_pos k
  obtain ⟨q, rfl⟩ := h
  rw [Nat.mul_div_cancel_left q hpos, Nat.div_eq_iff hpos, Nat.mul_comm q]
  change (2 ^ k * q ≤ x ∧ x < 2 ^ k * q + 2 ^ k) ↔ _
  omega

lemma div_two_pow_congr (h : x / 2 ^ m = y / 2 ^ m) (hmk : m ≤ k) : x / 2 ^ k = y / 2 ^ k := by
  rw [← Nat.add_sub_cancel' hmk, Nat.pow_add, ← Nat.div_div_eq_div_mul, ← Nat.div_div_eq_div_mul, h]

lemma eq_of_div_two_pow (hx : 2 ^ k ∣ x) (hy : 2 ^ k ∣ y) (h : x / 2 ^ k = y / 2 ^ k) : x = y := by
  rw [← Nat.div_mul_cancel hx, h, Nat.div_mul_cancel hy]

/-- **Two halves** are among the blocks if one of them lies inside a larger aligned interval.

**Proof sketch.** Take a block of the least order in the interval. The block that covers a number of
its other half is not larger, since it would contain the first one, and not smaller. -/
lemma exists_halves (ht : Tiling dyadicSpan T R) (ha : ∀ i k, (i, k) ∈ T → 2 ^ k ∣ i)
    (hi : 2 ^ k ∣ i) (hR : dyadicSpan (i, k) ⊆ R) (hb : (j, m) ∈ T) (hj : j ∈ dyadicSpan (i, k))
    (hm : m < k) : ∃ j m, m < k ∧ 2 ^ (m + 1) ∣ j ∧ (j, m) ∈ T ∧ (j + 2 ^ m, m) ∈ T := by
  classical
  have hex : ∃ m, ∃ j, (j, m) ∈ T ∧ j ∈ dyadicSpan (i, k) := ⟨m, j, hb, hj⟩
  replace hm : Nat.find hex < k := lt_of_le_of_lt (Nat.find_min' hex ⟨j, hb, hj⟩) hm
  obtain ⟨j, hb, hj⟩ := Nat.find_spec hex
  have hmin : ∀ c a, (a, c) ∈ T → a ∈ dyadicSpan (i, k) → Nat.find hex ≤ c :=
    fun c a h1 h2 => Nat.find_min' hex ⟨a, h1, h2⟩
  generalize Nat.find hex = m at hm hb hmin
  rw [mem_dyadicSpan hi] at hj
  -- what covers the two halves
  have hcover : ∀ x, 2 ^ m ∣ x → x / 2 ^ (m + 1) = j / 2 ^ (m + 1) → (x, m) ∈ T := by
    intro x hx hxj
    have hxi : x / 2 ^ k = i / 2 ^ k := (div_two_pow_congr hxj hm).trans hj
    obtain ⟨⟨a, c⟩, hac, hmem⟩ := ht.mem_iff.mp (hR ((mem_dyadicSpan hi).mpr hxi))
    have hxa := (mem_dyadicSpan (ha _ _ hac)).mp hmem
    have hcm : c ≤ m := by
      by_contra hlt
      have hja : j ∈ dyadicSpan (a, c) :=
        (mem_dyadicSpan (ha _ _ hac)).mpr ((div_two_pow_congr hxj (by omega)).symm.trans hxa)
      have e := ht.eq_of_mem hac hb hja ((mem_dyadicSpan (ha _ _ hb)).mpr rfl)
      exact hlt (Prod.mk.inj e).2.le
    have hmc := hmin c a hac
      ((mem_dyadicSpan hi).mpr ((div_two_pow_congr hxa (by omega)).symm.trans hxi))
    obtain rfl : c = m := by omega
    rwa [eq_of_div_two_pow hx (ha _ _ hac) hxa]
  have hdiv : 2 ^ m ∣ 2 ^ (m + 1) * (j / 2 ^ (m + 1)) :=
    Nat.dvd_trans (Nat.pow_dvd_pow 2 (Nat.le_succ m)) (Nat.dvd_mul_right _ _)
  refine ⟨2 ^ (m + 1) * (j / 2 ^ (m + 1)), m, hm, Nat.dvd_mul_right _ _, hcover _ hdiv ?_,
    hcover _ (Nat.dvd_add hdiv (Nat.dvd_refl _)) ?_⟩
  · exact Nat.mul_div_cancel_left _ (Nat.two_pow_pos _)
  · rw [Nat.mul_add_div (Nat.two_pow_pos _), Nat.div_eq_of_lt (Nat.pow_lt_pow_succ Nat.one_lt_two),
      Nat.add_zero]

namespace DyadicTiling

lemma subset (h : DyadicTiling K T R) (h' : DyadicTiling K T' R) : T ⊆ T' := by
  rintro ⟨i, k⟩ hb
  have hi := h.aligned _ _ hb
  obtain ⟨⟨j, m⟩, hc, hmem⟩ := h'.tiles.mem_iff.mp (h.tiles.subset hb ((mem_dyadicSpan hi).mpr rfl))
  have hj := h'.aligned _ _ hc
  have hij := (mem_dyadicSpan hj).mp hmem
  rcases lt_trichotomy m k with hlt | rfl | hlt
  · obtain ⟨a, c, hck, h1, h2, h3⟩ := exists_halves h'.tiles h'.aligned hi (h.tiles.subset hb) hc
      ((mem_dyadicSpan hi).mpr (div_two_pow_congr hij hlt.le).symm) hlt
    exact absurd h3 (h'.apart a c (lt_of_lt_of_le hck (h.le _ _ hb)) h1 h2)
  · rwa [eq_of_div_two_pow hi hj hij]
  · obtain ⟨a, c, hck, h1, h2, h3⟩ :=
      exists_halves h.tiles h.aligned hj (h'.tiles.subset hc) hb hmem hlt
    exact absurd h3 (h.apart a c (lt_of_lt_of_le hck (h'.le _ _ hc)) h1 h2)

/-- **Uniqueness.** -/
lemma unique (h : DyadicTiling K T R) (h' : DyadicTiling K T' R) : T = T' :=
  Set.Subset.antisymm (h.subset h') (h'.subset h)

end DyadicTiling
