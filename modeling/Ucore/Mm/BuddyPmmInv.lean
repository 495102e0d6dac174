import Ucore.Lib.Tiling
import Ucore.Mm.BuddyPmm

set_option autoImplicit false

/-!
# The free lists of the buddy allocator

What the state of the buddy allocator represents: a tiling of the region by free and held blocks,
each free block being on the list of its order. The functions are made of a few changes of such a
state: a block moves between its list and the held blocks, a held block is split, and two held
blocks are merged.

## Main definitions

* `Block` — a block of the region, free or held.
* `BuddyInv` — the lists, the flags and the counters describe a tiling of the region.
* `Settled` — the blocks are aligned, and no two free buddies are left.
* `MergesUp` — a freed block is merged with buddies above it only.

## Main results

* `BuddyInv.drop`, `BuddyInv.push`, `BuddyInv.split`, `BuddyInv.merge` —
  the changes.
* `buddyAllocPages_spec`, `buddyFreePages_spec` — allocation and release.
* `buddyBoot_inv` — the initialised region.
-/

namespace Ucore

open Function Comp List Finset Set

/-! ## Arithmetic -/

/-- Flipping the last bit. -/
lemma xor_one_cases (q : ℕ) :
    (q % 2 = 0 ∧ q ^^^ 1 = q + 1) ∨ (q % 2 = 1 ∧ q ^^^ 1 = q - 1) := by
  have h2 : (q ^^^ 1) / 2 = q / 2 := by
    have := Nat.xor_div_two_pow (a := q) (b := 1) (n := 1)
    simpa using this
  have h3 : (q ^^^ 1) % 2 = 1 - q % 2 := by
    have := Nat.xor_mod_two_pow (a := q) (b := 1) (n := 1)
    rcases Nat.mod_two_eq_zero_or_one q with h | h <;> simp [h] at this ⊢ <;> omega
  omega

/-- The buddy of a block is the block of the same order right above it or right below it. -/
lemma buddyIdx_cases (b k : ℕ) : (b / 2 ^ k % 2 = 0 ∧ buddyIdx b k = b + 2 ^ k) ∨
    (b / 2 ^ k % 2 = 1 ∧ buddyIdx b k + 2 ^ k = b) := by
  have hpos : 0 < 2 ^ k := Nat.two_pow_pos k
  have hb := Nat.div_add_mod b (2 ^ k)
  have hc := Nat.div_add_mod (buddyIdx b k) (2 ^ k)
  have hdiv : buddyIdx b k / 2 ^ k = b / 2 ^ k ^^^ 1 := by
    rw [buddyIdx, Nat.xor_div_two_pow, Nat.div_self hpos]
  have hmod : buddyIdx b k % 2 ^ k = b % 2 ^ k := by
    rw [buddyIdx, Nat.xor_mod_two_pow, Nat.mod_self, Nat.xor_zero]
  rw [hdiv, hmod] at hc
  generalize b / 2 ^ k = q at hb hc
  rcases xor_one_cases q with ⟨heven, h⟩ | ⟨hodd, h⟩
  · left
    rw [h, mul_add] at hc
    exact ⟨heven, by omega⟩
  · right
    refine ⟨hodd, ?_⟩
    obtain ⟨r, rfl⟩ : ∃ r, q = r + 1 := ⟨q - 1, by omega⟩
    rw [h, Nat.add_sub_cancel] at hc
    rw [mul_add] at hb
    omega

lemma buddyIdx_buddyIdx (b k : ℕ) : buddyIdx (buddyIdx b k) k = b := by
  rw [buddyIdx, buddyIdx, Nat.xor_assoc, Nat.xor_self, Nat.xor_zero]

/-- The lower half of an aligned block has the upper half as its buddy. -/
lemma buddyIdx_lower {b k : ℕ} (h : 2 ^ (k + 1) ∣ b) : buddyIdx b k = b + 2 ^ k := by
  obtain ⟨q, rfl⟩ := h
  rcases buddyIdx_cases (2 ^ (k + 1) * q) k with ⟨-, e⟩ | ⟨hodd, -⟩
  · exact e
  · rw [pow_succ, mul_assoc, Nat.mul_div_cancel_left _ (Nat.two_pow_pos k)] at hodd
    omega

/-- A block and its buddy are the halves of an aligned block. -/
lemma min_buddyIdx_dvd {b k : ℕ} (h : 2 ^ k ∣ b) : 2 ^ (k + 1) ∣ min b (buddyIdx b k) := by
  obtain ⟨q, rfl⟩ := h
  have hc := buddyIdx_cases (2 ^ k * q) k
  rw [Nat.mul_div_cancel_left _ (Nat.two_pow_pos k)] at hc
  rcases hc with ⟨hq, e⟩ | ⟨hq, e⟩
  · rw [e, Nat.min_eq_left (Nat.le_add_right _ _), pow_succ]
    exact Nat.mul_dvd_mul_left _ (Nat.dvd_of_mod_eq_zero hq)
  · obtain ⟨r, rfl⟩ : ∃ r, q = r + 1 := ⟨q - 1, by omega⟩
    rw [mul_add, mul_one] at e ⊢
    rw [Nat.add_right_cancel e, Nat.min_eq_right (Nat.le_add_right _ _), pow_succ]
    exact Nat.mul_dvd_mul_left _ (by omega)

/-- The loop of `log2_ceil`.

**Proof sketch.** Induction on the number of rounds left. As long as `2 ^ order < n` the loop goes
on; if `n` exceeds `2 ^ 63` that is so until `size` has become `0`, and forever then. -/
lemma log2CeilLoop_eq {n : ℕ} (hn : 0 < n) (fuel : ℕ) : ∀ order, fuel + order = 65 →
    order ≤ Nat.clog 2 n ∨ 2 ^ 63 < n →
    log2CeilLoop n fuel order (2 ^ order % 2 ^ 64) =
      if n ≤ 2 ^ 63 then some (Nat.clog 2 n) else none := by
  induction fuel with
  | zero =>
    intro order ho hc
    have hlt : ¬n ≤ 2 ^ 63 := by
      rintro hle
      have := Nat.clog_le_of_le_pow hle
      omega
    rw [if_neg hlt]
    rfl
  | succ fuel ih =>
    intro order ho hc
    have hnext : 2 ^ order % 2 ^ 64 * 2 % 2 ^ 64 = 2 ^ (order + 1) % 2 ^ 64 := by
      rw [Nat.mod_mul_mod, ← pow_succ]
    rw [log2CeilLoop, hnext]
    by_cases h64 : order = 64
    · -- `size` is zero
      subst h64
      have hlt : 2 ^ 63 < n := by
        rcases hc with hc | hc
        · exact Nat.pow_lt_of_lt_clog (b := 2) (by omega)
        · exact hc
      rw [if_pos (by rw [Nat.mod_self]; exact hn)]
      exact ih 65 (by omega) (.inr hlt)
    · have hsize : 2 ^ order % 2 ^ 64 = 2 ^ order :=
        Nat.mod_eq_of_lt (Nat.pow_lt_pow_right (by decide) (by omega))
      rw [hsize]
      by_cases hlt : 2 ^ order < n
      · rw [if_pos hlt]
        refine ih (order + 1) (by omega) (.inl ?_)
        exact (Nat.lt_clog_iff_pow_lt (by decide)).mpr hlt
      · have hle : n ≤ 2 ^ 63 :=
          le_trans (not_lt.mp hlt) (Nat.pow_le_pow_right (by decide) (by omega))
        have hclog : Nat.clog 2 n ≤ order := Nat.clog_le_of_le_pow (not_lt.mp hlt)
        rw [if_neg hlt, if_pos hle]
        congr 1
        omega

/-- **`log2_ceil`** is the logarithm rounded up; it does not end for more than `2 ^ 63` pages. -/
lemma log2Ceil_eq {n : ℕ} (hn : 0 < n) :
    log2Ceil n = if n ≤ 2 ^ 63 then some (Nat.clog 2 n) else none :=
  log2CeilLoop_eq hn 65 0 rfl (.inl (Nat.zero_le _))

/-! ## Blocks -/

/-- A block of `2 ^ order` pages: on the list of its order, or held. -/
inductive Block
  | free (start order : ℕ)
  | held (start order : ℕ)

/-- The pages of a block. -/
def Block.span : Block → Set ℕ
  | free i k => Set.Ico i (i + 2 ^ k)
  | held i k => Set.Ico i (i + 2 ^ k)

/-- The blocks given by the lists of the orders and the set of held blocks. -/
def Block.all (L : ℕ → List ℕ) (H : Set (ℕ × ℕ)) : Set Block
  | free i k => k < maxOrder ∧ i ∈ L k
  | held i k => (i, k) ∈ H

lemma mem_all_free {L : ℕ → List ℕ} {H : Set (ℕ × ℕ)} {i k : ℕ} :
    Block.free i k ∈ Block.all L H ↔ k < maxOrder ∧ i ∈ L k := Iff.rfl

lemma mem_all_held {L : ℕ → List ℕ} {H : Set (ℕ × ℕ)} {i k : ℕ} :
    Block.held i k ∈ Block.all L H ↔ (i, k) ∈ H := Iff.rfl

/-- The state of the allocator describes the lists `L` of free blocks and the held blocks `H`, which
tile the region `R`. Of the `npage` descriptors, exactly those of the first pages of free blocks and
those of `F` are flagged. -/
structure BuddyInv (npage : ℕ) (R : Set ℕ) (s : BuddyPmm) (L : ℕ → List ℕ) (H : Set (ℕ × ℕ))
    (F : Set ℕ) : Prop where
  ring : ∀ k < maxOrder, s.links.Ring (.head k) ((L k).map .page)
  count : ∀ k < maxOrder, s.nrFree k = (L k).length
  flag : ∀ i < npage, (s.pages i).pgProperty = true ↔ (∃ k < maxOrder, i ∈ L k) ∨ i ∈ F
  order : ∀ k < maxOrder, ∀ i ∈ L k, (s.pages i).property = k
  reserved : ∀ i ∈ R, (s.pages i).pgReserved = false
  tiles : Tiling Block.span (Block.all L H) R

lemma start_mem_span (i k : ℕ) : i ∈ Set.Ico i (i + 2 ^ k) :=
  ⟨le_rfl, Nat.lt_add_of_pos_right (Nat.two_pow_pos k)⟩

/-- **Settled blocks**: each is at a multiple of its size, and of two buddies that could be merged
at most one is free. -/
structure Settled (L : ℕ → List ℕ) (H : Set (ℕ × ℕ)) : Prop where
  free : ∀ k < maxOrder, ∀ i ∈ L k, 2 ^ k ∣ i
  held : ∀ i k, (i, k) ∈ H → 2 ^ k ∣ i
  apart : ∀ k, k + 1 < maxOrder → ∀ i ∈ L k, buddyIdx i k ∉ L k

variable {R F : Set ℕ} {s : BuddyPmm} {L : ℕ → List ℕ} {H : Set (ℕ × ℕ)}

section Basic

variable {npage i j k : ℕ} {L L' : ℕ → List ℕ} {H H' : Set (ℕ × ℕ)}

lemma buddyIdx_notMem (b : ℕ) (hk : k ≤ i) : buddyIdx b i ∉ Set.Ico b (b + 2 ^ k) := by
  intro h
  have hle := Nat.pow_le_pow_right (show 0 < 2 by omega) hk
  obtain ⟨h1, h2⟩ := h
  rcases buddyIdx_cases b i with ⟨-, e⟩ | ⟨-, e⟩ <;> omega

/-- One list has been changed, as far as the page `i` is concerned. -/
lemma mem_update_iff {l : List ℕ} {x : ℕ} (hl : ∀ x, x ≠ i → (x ∈ l ↔ x ∈ L k))
    (hx : x ≠ i) (j : ℕ) : x ∈ update L k l j ↔ x ∈ L j := by
  by_cases hjk : j = k
  · subst hjk
    rw [update_self, hl x hx]
  · rw [update_of_ne hjk]

lemma update_erase_subset (L : ℕ → List ℕ) (k i j : ℕ) : update L k ((L k).erase i) j ⊆ L j := by
  by_cases hjk : j = k
  · subst hjk
    rw [update_self]
    exact erase_subset
  · rw [update_of_ne hjk]
    exact .refl _

/-- Blocks have been taken from the lists. -/
lemma Settled.shrink (h : Settled L H) (hL : ∀ k, L' k ⊆ L k)
    (hH : ∀ i k, (i, k) ∈ H' → 2 ^ k ∣ i) : Settled L' H' where
  free k hk i hi := h.free k hk i (hL k hi)
  held := hH
  apart k hk i hi hb := h.apart k hk i (hL k hi) (hL k hb)

lemma Settled.of_insert {b : ℕ × ℕ} (h : Settled L (insert b H)) : Settled L H :=
  h.shrink (fun _ => .refl _) fun i k hx => h.held i k (mem_insert_of_mem _ hx)

/-- A block has been taken from its list, and a block is held. -/
lemma Settled.take (h : Settled L H) {b : ℕ × ℕ} (hb : 2 ^ b.2 ∣ b.1) :
    Settled (update L k ((L k).erase i)) (insert b H) := by
  refine h.shrink (update_erase_subset L k i) ?_
  rintro x y (rfl | hx)
  · exact hb
  · exact h.held x y hx

/-- A block has been put on its list. -/
lemma Settled.add (h : Settled L H) (hi : 2 ^ k ∣ i) (hno : k + 1 < maxOrder → buddyIdx i k ∉ L k)
    {l : List ℕ} (hl : ∀ x ∈ l, x = i ∨ x ∈ L k) (hH : ∀ i k, (i, k) ∈ H' → 2 ^ k ∣ i) :
    Settled (update L k l) H' := by
  refine ⟨fun m hm x hx => ?_, hH, fun m hm x hx hb => ?_⟩
  · by_cases hmk : m = k
    · subst hmk
      rw [update_self] at hx
      rcases hl x hx with rfl | hx
      · exact hi
      · exact h.free m hm x hx
    · rw [update_of_ne hmk] at hx
      exact h.free m hm x hx
  · by_cases hmk : m = k
    · subst hmk
      rw [update_self] at hx hb
      rcases hl x hx with rfl | hx <;> rcases hl _ hb with e | hb
      · exact buddyIdx_notMem x le_rfl (by rw [e]; exact start_mem_span x m)
      · exact hno hm hb
      · exact hno hm (by rw [← e, buddyIdx_buddyIdx]; exact hx)
      · exact h.apart m hm x hx hb
    · rw [update_of_ne hmk] at hx hb
      exact h.apart m hm x hx hb

lemma length_le_of_nodup {l : List ℕ} {lo n : ℕ} (hl : l.Nodup)
    (hR : ∀ i ∈ l, i ∈ Set.Ico lo (lo + n)) : l.length ≤ n := by
  have hsub : l.toFinset ⊆ Finset.Ico lo (lo + n) :=
    fun i hi => mem_Ico.mpr (hR i (List.mem_toFinset.mp hi))
  have := Finset.card_le_card hsub
  rw [toFinset_card_of_nodup hl, Nat.card_Ico] at this
  omega

namespace BuddyInv

section

variable (h : BuddyInv npage R s L H F)
include h

lemma nodup (hk : k < maxOrder) : (L k).Nodup :=
  Nodup.of_map _ (h.ring k hk).nodup_tail

lemma order_eq (hk : k < maxOrder) (hj : j < maxOrder) (hik : i ∈ L k) (hij : i ∈ L j) : k = j := by
  have e : Block.free i k = Block.free i j :=
    h.tiles.eq_of_mem (mem_all_free.mpr ⟨hk, hik⟩) (mem_all_free.mpr ⟨hj, hij⟩)
      (start_mem_span i k) (start_mem_span i j)
  exact (Block.free.inj e).2

lemma notMem_of_held {b m : ℕ} (hb : (b, m) ∈ H) (hi : i ∈ Set.Ico b (b + 2 ^ m))
    (hk : k < maxOrder) : i ∉ L k := by
  intro hik
  have e : Block.free i k = Block.held b m :=
    h.tiles.eq_of_mem (mem_all_free.mpr ⟨hk, hik⟩) (mem_all_held.mpr hb) (start_mem_span i k) hi
  cases e

lemma start_notMem {b m : ℕ} (hb : (b, m) ∈ H) : ∀ k < maxOrder, b ∉ L k :=
  fun _ hk => h.notMem_of_held hb (start_mem_span b m) hk

lemma mem_region (hk : k < maxOrder) (hi : i ∈ L k) : i ∈ R :=
  h.tiles.subset (mem_all_free.mpr ⟨hk, hi⟩) (start_mem_span i k)

/-- The rings of two orders have no entry in common. -/
lemma ring_disjoint (hk : k < maxOrder) (hj : j < maxOrder) (hkj : k ≠ j) {e : BuddyLink}
    (he : e ∈ BuddyLink.head k :: (L k).map .page) : e ∉ BuddyLink.head j :: (L j).map .page := by
  intro he'
  simp only [List.mem_cons, List.mem_map] at he he'
  rcases he with rfl | ⟨i, hi, rfl⟩ <;> rcases he' with e | ⟨i', hi', e⟩
  · cases e
    exact hkj rfl
  · cases e
  · cases e
  · cases e
    exact hkj (h.order_eq hk hj hi hi')

end

end BuddyInv

end Basic

/-! ## The changes of a state -/

section Changes

variable {npage lo n i j k : ℕ} {xs ys : List ℕ}

/-- The tiles after a block has been taken from its list. -/
lemma all_erase (hnd : (L k).Nodup) (hk : k < maxOrder) :
    Block.all (update L k ((L k).erase i)) (insert (i, k) H) =
      Block.all L H \ {.free i k} ∪ {.held i k} := by
  ext b
  cases b with
  | free x m =>
    simp only [mem_all_free, mem_union, mem_sdiff, mem_singleton_iff, Block.free.injEq,
      reduceCtorEq, or_false]
    by_cases hm : m = k
    · subst hm
      rw [update_self, hnd.mem_erase_iff]
      tauto
    · rw [update_of_ne hm]
      tauto
  | held x m =>
    simp only [mem_all_held, mem_union, mem_sdiff, mem_singleton_iff,
      Block.held.injEq, reduceCtorEq, not_false_eq_true, and_true, mem_insert_iff,
      Prod.mk.injEq]
    tauto

/-- The tiles after a held block has been put on its list. -/
lemma all_insert (hL : L k = xs ++ ys) (hk : k < maxOrder) :
    Block.all (update L k (xs ++ i :: ys)) (H \ {(i, k)}) =
      Block.all L H \ {.held i k} ∪ {.free i k} := by
  ext b
  cases b with
  | free x m =>
    simp only [mem_all_free, mem_union, mem_sdiff, mem_singleton_iff, Block.free.injEq,
      reduceCtorEq, not_false_eq_true, and_true]
    by_cases hm : m = k
    · subst hm
      rw [update_self, hL]
      simp only [List.mem_append, List.mem_cons]
      tauto
    · rw [update_of_ne hm]
      tauto
  | held x m =>
    simp only [mem_all_held, Set.mem_union, Set.mem_sdiff, Set.mem_singleton_iff,
      Block.held.injEq, reduceCtorEq, or_false, Prod.mk.injEq]

namespace BuddyInv

section

variable (h : BuddyInv npage R s L H F) (hR : R ⊆ Set.Ico lo (lo + n))
include h hR

/-- A page that is not on a list leaves room on the list. -/
lemma length_lt (hk : k < maxOrder) (hi : i ∈ R) (hik : i ∉ L k) : (L k).length < n := by
  refine length_le_of_nodup (nodup_cons.mpr ⟨hik, h.nodup hk⟩) (forall_mem_cons.mpr ⟨hR hi, ?_⟩)
  exact fun x hx => hR (h.mem_region hk hx)

section

variable (hn : n < uintRange) (hk : k < maxOrder)
include hn hk

/-- **A block is taken from its list** and is held then. -/
lemma drop (hi : i ∈ L k) :
    BuddyInv npage R (s.dropBlock i k) (update L k ((L k).erase i)) (insert (i, k) H)
      (insert i F) := by
  have hnd := h.nodup hk
  refine ⟨fun j hj => ?_, fun j hj => ?_, fun x hx => ?_, fun j hj x hx => ?_, h.reserved, ?_⟩
  · by_cases hjk : j = k
    · subst hjk
      obtain ⟨xs, ys, hL⟩ := append_of_mem hi
      have hxs : i ∉ xs := by
        rw [hL, nodup_append] at hnd
        exact fun hx => hnd.2.2 i hx i (by simp) rfl
      have r := h.ring j hj
      rw [hL, List.map_append, List.map_cons] at r
      rw [update_self, hL, erase_append_right _ hxs, erase_cons_head, map_append]
      exact ring_listDel r
    · -- the neighbours of the entry are in the ring of order `k`
      rw [update_of_ne hjk]
      have hmem : BuddyLink.page i ∈ BuddyLink.head k :: (L k).map .page :=
        mem_cons_of_mem _ (mem_map_of_mem hi)
      obtain ⟨hnext, hprev⟩ := (h.ring k hk).neighbours_mem hmem
      exact (h.ring j hj).unsplice_of_disjoint (h.ring_disjoint hk hj (Ne.symm hjk) hprev)
        (h.ring_disjoint hk hj (Ne.symm hjk) hnext)
  · by_cases hjk : j = k
    · subst hjk
      have hle := length_le_of_nodup hnd fun x hx => hR (h.mem_region hj hx)
      have hpos := length_pos_of_mem hi
      simp only [BuddyPmm.dropBlock, update_self, length_erase_of_mem hi, h.count j hj]
      unfold uintRange at *
      omega
    · simp only [BuddyPmm.dropBlock, update_of_ne hjk, h.count j hj]
  · change (s.pages x).pgProperty = true ↔ _
    rw [h.flag x hx]
    by_cases hxi : x = i
    · subst hxi
      exact iff_of_true (.inl ⟨k, hk, hi⟩) (.inr (mem_insert _ _))
    · simp only [mem_update_iff (fun _ hx => mem_erase_of_ne hx) hxi, Set.mem_insert_iff,
        or_iff_right hxi]
  · exact h.order j hj x (update_erase_subset L k i j hx)
  · refine h.tiles.exchange _ _ (singleton_subset_iff.mpr (mem_all_free.mpr ⟨hk, hi⟩)) ?_
      (all_erase hnd hk)
    rw [Set.biUnion_singleton]
    exact Tiling.single (Block.held i k)

section

variable (hi : (i, k) ∈ H) (hF : i ∈ F) (hp : (s.pages i).property = k)
include hi hF hp

/-- **A held block is put on its list**, between `xs` and `ys`. -/
lemma link (hL : L k = xs ++ ys) : BuddyInv npage R
      { s with
        links := s.links.splice (.page i) ((xs.map .page).getLastD (.head k))
          ((ys.map .page).headD (.head k)),
        nrFree := update s.nrFree k ((s.nrFree k + 1) % uintRange) }
      (update L k (xs ++ i :: ys)) (H \ {(i, k)}) (F \ {i}) := by
  have hnot := h.start_notMem hi
  have r := h.ring k hk
  have hmem : ∀ x, x ≠ i → (x ∈ xs ++ i :: ys ↔ x ∈ L k) := fun x hx => by simp [hL, hx]
  refine ⟨fun j hj => ?_, fun j hj => ?_, fun x hx => ?_, fun j hj x hx => ?_, h.reserved, ?_⟩
  · have hfresh : ∀ m < maxOrder, BuddyLink.page i ∉ BuddyLink.head m :: (L m).map .page := by
      intro m hm hmem
      simp only [List.mem_cons, reduceCtorEq, List.mem_map, BuddyLink.page.injEq, exists_eq_right,
        false_or] at hmem
      exact hnot m hm hmem
    by_cases hjk : j = k
    · subst hjk
      have hf := hfresh j hj
      rw [hL, map_append] at r hf
      rw [update_self, List.map_append, List.map_cons]
      exact r.insert hf
    · -- the neighbours of the new entry are in the ring of order `k`
      rw [update_of_ne hjk]
      have hsep := fun e he => h.ring_disjoint hk hj (Ne.symm hjk) (e := e) he
      refine (h.ring j hj).splice_of_disjoint (hfresh j hj) (hsep _ ?_) (hsep _ ?_)
      · have hmem := Links.getLastD_mem_cons (xs.map BuddyLink.page) (.head k)
        rw [hL, map_append]
        simp only [List.mem_cons, List.mem_append] at hmem ⊢
        tauto
      · have hmem := Links.headD_mem_append (ys.map BuddyLink.page) (.head k)
        rw [hL, map_append]
        simp only [List.mem_append, List.mem_cons] at hmem ⊢
        tauto
  · by_cases hjk : j = k
    · subst hjk
      have hlt := h.length_lt hR hj
        (h.tiles.subset (mem_all_held.mpr hi) (start_mem_span i j)) (hnot j hj)
      have hc := h.count j hj
      rw [hL] at hc hlt
      simp only [update_self, hc, length_append, length_cons] at hlt ⊢
      unfold uintRange at *
      omega
    · simp only [update_of_ne hjk, h.count j hj]
  · rw [h.flag x hx]
    by_cases hxi : x = i
    · subst hxi
      exact iff_of_true (.inr hF) (.inl ⟨k, hk, by simp⟩)
    · simp only [mem_update_iff hmem hxi, Set.mem_sdiff, Set.mem_singleton_iff, and_iff_left hxi]
  · by_cases hxi : x = i
    · subst hxi
      by_cases hjk : j = k
      · rw [hjk]
        exact hp
      · rw [update_of_ne hjk] at hx
        exact absurd hx (hnot j hj)
    · exact h.order j hj x ((mem_update_iff hmem hxi j).mp hx)
  · refine h.tiles.exchange _ _ (singleton_subset_iff.mpr (mem_all_held.mpr hi)) ?_
      (all_insert hL hk)
    rw [Set.biUnion_singleton]
    exact Tiling.single (Block.free i k)

lemma push :
    BuddyInv npage R (s.pushBlock i k) (update L k (i :: L k)) (H \ {(i, k)}) (F \ {i}) := by
  have hins := h.link hR hn hk hi hF hp (nil_append (L k)).symm
  have hnext : s.links.next (.head k) = ((L k).map .page).headD (.head k) :=
    (h.ring k hk).head_neighbours.1
  rw [← hnext] at hins
  exact hins

lemma append :
    BuddyInv npage R (s.appendBlock i k) (update L k (L k ++ [i])) (H \ {(i, k)}) (F \ {i}) := by
  have hins := h.link hR hn hk hi hF hp (append_nil (L k)).symm
  have hprev : s.links.prev (.head k) = ((L k).map .page).getLastD (.head k) :=
    (h.ring k hk).head_neighbours.2
  rw [← hprev] at hins
  exact hins

end

end

end

section

variable (h : BuddyInv npage R s L H F) (hi : ∀ k < maxOrder, i ∉ L k)
include h hi

/-- **A descriptor that is not on a list is changed**, the reserved bit apart. -/
lemma modPage (f : Page → Page) (hres : (f (s.pages i)).pgReserved = (s.pages i).pgReserved) :
    BuddyInv npage R (s.modPage i f) L H
      (if (f (s.pages i)).pgProperty = true then insert i F else F \ {i}) := by
  have hpages : ∀ x, x ≠ i → (s.modPage i f).pages x = s.pages x := fun x hx => update_of_ne hx ..
  have hself : (s.modPage i f).pages i = f (s.pages i) := update_self ..
  refine ⟨h.ring, h.count, fun x hx => ?_, fun k hk x hx => ?_, fun x hx => ?_, h.tiles⟩
  · by_cases hxi : x = i
    · subst hxi
      have hno : ¬∃ k < maxOrder, x ∈ L k := fun ⟨k, hk, hm⟩ => hi k hk hm
      rw [hself, or_iff_right hno]
      split_ifs with hf
      · simp [hf]
      · simp [hf]
    · rw [hpages x hxi, h.flag x hx]
      split_ifs
      · rw [mem_insert_iff, or_iff_right hxi]
      · rw [mem_sdiff, mem_singleton_iff, and_iff_left hxi]
  · have hxi : x ≠ i := fun e => hi k hk (e ▸ hx)
    rw [hpages x hxi]
    exact h.order k hk x hx
  · by_cases hxi : x = i
    · subst hxi
      rw [hself, hres]
      exact h.reserved x hx
    · rw [hpages x hxi]
      exact h.reserved x hx

/-- A page is marked as the first one of a free block. -/
lemma mark (k : ℕ) : BuddyInv npage R (s.markBlock i k) L H (insert i F) ∧
      ((s.markBlock i k).pages i).property = k := by
  refine ⟨?_, ?_⟩
  · have hm := (h.modPage hi (fun p => { p with property := k }) rfl).modPage hi setPageProperty rfl
    rw [if_pos (show (setPageProperty _).pgProperty = true from rfl)] at hm
    have hF : insert i (if (s.pages i).pgProperty = true then insert i F
        else F \ {i}) = insert i F := by
      split_ifs <;> simp
    rw [hF] at hm
    exact hm
  · simp [BuddyPmm.markBlock, BuddyPmm.modPage, setPageProperty]

lemma clear : BuddyInv npage R (s.modPage i clearPageProperty) L H (F \ {i}) := by
  have hm := h.modPage hi clearPageProperty rfl
  rwa [if_neg (by simp [clearPageProperty])] at hm

/-- The order is recorded in a page that is not on a list. -/
lemma setOrder (k : ℕ) (hlt : i < npage) :
    BuddyInv npage R (s.modPage i fun p => { p with property := k }) L H F := by
  have hm := h.modPage hi (fun p => { p with property := k }) rfl
  have hno : ¬∃ k < maxOrder, i ∈ L k := fun ⟨k, hk, hmem⟩ => hi k hk hmem
  have hflag := h.flag i hlt
  rw [or_iff_right hno] at hflag
  by_cases hf : (s.pages i).pgProperty = true
  · rw [if_pos hf, insert_eq_of_mem (hflag.mp hf)] at hm
    exact hm
  · rw [if_neg hf, sdiff_singleton_eq_self (mt hflag.mpr hf)] at hm
    exact hm

end

lemma span_halves (i k : ℕ) :
    Set.Ico i (i + 2 ^ (k + 1)) = Set.Ico i (i + 2 ^ k) ∪ Set.Ico (i + 2 ^ k) (i + 2 ^ k + 2 ^ k) ∧
    Disjoint (Set.Ico i (i + 2 ^ k)) (Set.Ico (i + 2 ^ k) (i + 2 ^ k + 2 ^ k)) := by
  refine ⟨?_, Set.Ico_disjoint_Ico_same⟩
  rw [Set.Ico_union_Ico_eq_Ico (Nat.le_add_right _ _) (Nat.le_add_right _ _), pow_succ]
  congr 1
  omega

/-- **A held block is split** into its halves. -/
lemma split (h : BuddyInv npage R s L H F) (hi : (i, k + 1) ∈ H) :
    BuddyInv npage R s L
      (insert (i, k) (insert (i + 2 ^ k, k) (H \ {(i, k + 1)}))) F := by
  refine { h with tiles := ?_ }
  obtain ⟨hspan, hdisj⟩ := span_halves i k
  have hpair : Tiling Block.span {.held i k, .held (i + 2 ^ k) k}
      (Block.span (.held i k) ∪ Block.span (.held (i + 2 ^ k) k)) := Tiling.pair hdisj
  refine h.tiles.exchange {.held i (k + 1)} {.held i k, .held (i + 2 ^ k) k}
    (singleton_subset_iff.mpr (mem_all_held.mpr hi)) ?_ ?_
  · rw [biUnion_singleton, show Block.span (.held i (k + 1)) = _ from hspan]
    exact hpair
  · ext b
    cases b with
    | free x m => simp [mem_all_free]
    | held x m =>
      simp only [mem_all_held, mem_insert_iff, Prod.mk.injEq, mem_sdiff,
        mem_singleton_iff, mem_union, Block.held.injEq]
      tauto

/-- **Two held halves are merged** into one block. -/
lemma merge (h : BuddyInv npage R s L H F) (hi : (i, k) ∈ H) (hi' : (i + 2 ^ k, k) ∈ H) :
    BuddyInv npage R s L (insert (i, k + 1) (H \ {(i, k), (i + 2 ^ k, k)})) F := by
  refine { h with tiles := ?_ }
  obtain ⟨hspan, -⟩ := span_halves i k
  refine h.tiles.exchange {.held i k, .held (i + 2 ^ k) k} {.held i (k + 1)} ?_ ?_ ?_
  · rintro b (rfl | rfl)
    · exact mem_all_held.mpr hi
    · exact mem_all_held.mpr hi'
  · have hu : ⋃ b ∈ ({.held i k, .held (i + 2 ^ k) k} : Set Block), b.span =
        Block.span (.held i (k + 1)) := by
      rw [biUnion_insert, biUnion_singleton]
      exact hspan.symm
    rw [hu]
    exact Tiling.single (Block.held i (k + 1))
  · ext b
    cases b with
    | free x m => simp [mem_all_free]
    | held x m =>
      simp only [mem_all_held, mem_insert_iff, Prod.mk.injEq, mem_sdiff,
        mem_singleton_iff, mem_union, Block.held.injEq]
      tauto

/-- **A held block is added** outside the region. -/
lemma grow (h : BuddyInv npage R s L H F) (hd : Disjoint (Set.Ico i (i + 2 ^ k)) R)
    (hres : ∀ x ∈ Set.Ico i (i + 2 ^ k), (s.pages x).pgReserved = false) :
    BuddyInv npage (Set.Ico i (i + 2 ^ k) ∪ R) s L (insert (i, k) H) F := by
  refine { h with reserved := ?_, tiles := ?_ }
  · rintro x (hx | hx)
    · exact hres x hx
    · exact h.reserved x hx
  · have hd' : Disjoint (Block.span (.held i k)) R := hd
    have hadd := h.tiles.add hd'
    have hall : Block.all L (insert (i, k) H) =
        insert (.held i k) (Block.all L H) := by
      ext b
      cases b with
      | free x m => simp [mem_all_free]
      | held x m => simp [mem_all_held]
    rw [hall]
    exact hadd

end BuddyInv

end Changes

/-! ## Allocation -/

section Alloc

variable {npage lo n i k m page order : ℕ}

lemma BuddyInv.free_sep (h : BuddyInv npage R s L H F) (hk : k < maxOrder) (hi : i ∈ L k) (x y : ℕ)
    (hx : (x, y) ∈ H) : x ∉ Set.Ico i (i + 2 ^ k) := by
  intro hmem
  have e : Block.held x y = Block.free i k :=
    h.tiles.eq_of_mem (mem_all_held.mpr hx) (mem_all_free.mpr ⟨hk, hi⟩) (start_mem_span x y) hmem
  cases e

/-- **The loop that splits a block**: the lower half stays, the upper halves go to their lists.

**Proof sketch.** Induction on the number of splits. The held block is split, its upper half is
marked and put on its list. -/
lemma splitLoop_inv (hR : R ⊆ Set.Ico lo (lo + n)) (hn : n < uintRange) (m : ℕ) :
    ∀ {s : BuddyPmm} {L : ℕ → List ℕ}, order + m < maxOrder →
      BuddyInv npage R s L (insert (page, order + m) H) {page} →
      (∀ x y, (x, y) ∈ H → x ∉ Set.Ico page (page + 2 ^ (order + m))) →
      ∃ L', BuddyInv npage R (splitLoop page order m s) L' (insert (page, order) H) {page} ∧
        (Settled L (insert (page, order + m) H) → Settled L' (insert (page, order) H)) := by
  induction m with
  | zero => exact fun _ h _ => ⟨_, h, id⟩
  | succ m ih =>
    intro s L hlt h hsep
    have hpos := Nat.two_pow_pos (order + m)
    have hpow : 2 ^ (order + (m + 1)) = 2 ^ (order + m) + 2 ^ (order + m) := by
      rw [← add_assoc, pow_succ]
      omega
    have hp : (page, order + m + 1) ∉ H := fun hx => hsep _ _ hx (start_mem_span _ _)
    have hb : (page + 2 ^ (order + m), order + m) ∉ H :=
      fun hx => hsep _ _ hx ⟨by omega, by omega⟩
    -- split
    rw [← add_assoc] at h
    have h1 := h.split (i := page) (k := order + m) (mem_insert _ _)
    rw [insert_sdiff_self_of_notMem hp] at h1
    have hheld : (page + 2 ^ (order + m), order + m) ∈
        insert (page, order + m) (insert (page + 2 ^ (order + m), order + m) H) := by simp
    -- mark the upper half and put it on its list
    obtain ⟨h2, hprop⟩ := h1.mark (h1.start_notMem hheld) (order + m)
    have h3 := h2.push hR hn (by omega) hheld (mem_insert _ _) hprop
    have hH : insert (page, order + m) (insert (page + 2 ^ (order + m), order + m) H) \
        {(page + 2 ^ (order + m), order + m)} = insert (page, order + m) H := by
      rw [insert_comm, insert_sdiff_self_of_notMem]
      simp [hb]
    rw [hH, insert_sdiff_self_of_notMem (by simp)] at h3
    obtain ⟨L', h4, hset⟩ := ih (by omega) h3 fun x y hx hmem =>
      hsep x y hx ⟨hmem.1, lt_of_lt_of_le hmem.2 (by omega)⟩
    refine ⟨L', h4, fun hs => hset ?_⟩
    have hdvd : 2 ^ (order + m + 1) ∣ page := hs.held _ _ (mem_insert _ _)
    have hdvd' : 2 ^ (order + m) ∣ page := (pow_dvd_pow 2 (Nat.le_succ _)).trans hdvd
    refine hs.add (Nat.dvd_add hdvd' (Nat.dvd_refl _)) (fun _ => ?_) (fun x hx => mem_cons.mp hx) ?_
    · rw [← buddyIdx_lower hdvd, buddyIdx_buddyIdx]
      exact h1.start_notMem (mem_insert _ _) _ (by omega)
    · rintro x y (hx | hx)
      · cases hx
        exact hdvd'
      · exact hs.held x y (mem_insert_of_mem _ hx)

/-- **The search** finds the first nonempty list. -/
lemma findOrder_spec (h : BuddyInv npage R s L H F) (c : ℕ) : ∀ order, order + c = maxOrder →
    (∃ j, order ≤ j ∧ j < maxOrder ∧ findOrder s.links c order = some j ∧ L j ≠ []) ∨
    (findOrder s.links c order = none ∧ ∀ j, order ≤ j → j < maxOrder → L j = []) := by
  induction c with
  | zero => exact fun order ho => .inr ⟨rfl, fun j h1 h2 => by omega⟩
  | succ c ih =>
    intro order ho
    have hempty := listEmpty_iff (h.ring order (by omega))
    rw [map_eq_nil_iff] at hempty
    rw [findOrder]
    by_cases hL : L order = []
    · rw [if_pos (hempty.mpr hL)]
      rcases ih (order + 1) (by omega) with ⟨j, h1, h2, e, h3⟩ | ⟨e, h1⟩
      · exact .inl ⟨j, by omega, h2, e, h3⟩
      · refine .inr ⟨e, fun j hj hlt => ?_⟩
        rcases eq_or_lt_of_le hj with rfl | hj
        · exact hL
        · exact h1 j hj hlt
    · rw [if_neg (mt hempty.mp hL)]
      exact .inl ⟨order, le_rfl, by omega, rfl, hL⟩

/-- **Allocation** of `m` pages: a free block of at least `m` pages is taken and split; the result
is `NULL` only if there is none. -/
lemma buddyAllocPages_spec (hR : R ⊆ Set.Ico lo (lo + n)) (hn : n < uintRange)
    (hnp : lo + n ≤ npage) (h : BuddyInv npage R s L H ∅) (hm : 0 < m) (hm' : m ≤ 2 ^ 63) :
    (buddyAllocPages m s = .ok (none, s) ∧ ∀ j, Nat.clog 2 m ≤ j → j < maxOrder → L j = []) ∨
    ∃ p s' L', buddyAllocPages m s = .ok (some p, s') ∧ Nat.clog 2 m < maxOrder ∧
      (∃ j, Nat.clog 2 m ≤ j ∧ j < maxOrder ∧ p ∈ L j) ∧
      BuddyInv npage R s' L' (insert (p, Nat.clog 2 m) H) ∅ ∧
      (Settled L H → Settled L' (insert (p, Nat.clog 2 m) H)) := by
  have hlog : log2Ceil m = some (Nat.clog 2 m) := by rw [log2Ceil_eq hm, if_pos hm']
  rw [buddyAllocPages, ensure_bind_apply, if_pos hm, hlog]
  generalize Nat.clog 2 m = order
  simp only
  by_cases ho : maxOrder ≤ order
  · left
    rw [if_pos ho]
    exact ⟨rfl, fun j h1 h2 => by omega⟩
  rw [if_neg ho, read_bind_apply]
  rcases findOrder_spec h (maxOrder - order) order (by omega) with
    ⟨cur, hle, hlt, e, hne⟩ | ⟨e, hnil⟩
  · right
    obtain ⟨p, rest, hL⟩ := exists_cons_of_ne_nil hne
    have hp : p ∈ L cur := by simp [hL]
    have hnext : listNext s.links (.head cur) = .page p := by
      have := (h.ring cur hlt).head_neighbours.1
      rwa [hL] at this
    have hsum : order + (cur - order) = cur := by omega
    have h1 := h.drop hR hn hlt hp
    rw [← hsum, insert_empty_eq] at h1
    obtain ⟨L', h2, hset⟩ := splitLoop_inv hR hn (cur - order) (by omega) h1
      (by rw [hsum]; exact h.free_sep hlt hp)
    rw [hsum] at h2 hset
    have hnot := h2.start_notMem (mem_insert _ _)
    have h3 := (h2.clear hnot).setOrder hnot order
      (lt_of_lt_of_le (hR (h.mem_region hlt hp)).2 hnp)
    rw [sdiff_self] at h3
    refine ⟨p, _, L', ?_, by omega, ⟨cur, hle, hlt, hp⟩, h3, fun hs => hset (hs.take ?_)⟩
    · rw [e]
      simp only [hnext]
      rfl
    · exact hs.free cur hlt p hp
  · left
    rw [e]
    exact ⟨rfl, hnil⟩

/-- A request of more than `2 ^ 63` pages does not return. -/
lemma buddyAllocPages_diverges (hm : 2 ^ 63 < m) (s : BuddyPmm) :
    buddyAllocPages m s = .error .diverges := by
  have hpos : 0 < m := by omega
  have hlog : log2Ceil m = none := by rw [log2Ceil_eq hpos, if_neg (by omega)]
  rw [buddyAllocPages, ensure_bind_apply, if_pos hpos, hlog]
  rfl

end Alloc

/-! ## Release -/

section Free

variable {npage lo n i k m b base order : ℕ} {pages pages' : ℕ → Page}

/-- The test of the loop of `buddy_free_pages`: the buddy of the block of order `order` at `b` is
taken to be free. -/
def FreeBuddy (npage : ℕ) (pages : ℕ → Page) (b order : ℕ) : Prop :=
  buddyIdx b order < npage ∧ (pages (buddyIdx b order)).pgProperty = true ∧
    (pages (buddyIdx b order)).property = order

instance (npage : ℕ) (pages : ℕ → Page) (b order : ℕ) : Decidable (FreeBuddy npage pages b order) :=
  inferInstanceAs (Decidable (_ ∧ _ ∧ _))

/-- **Merges upwards only**: as long as the buddies of the blocks of order `order`, `order + 1`, …
at `b` are free, they are the blocks above. -/
def MergesUp (npage : ℕ) (pages : ℕ → Page) (b order : ℕ) : Prop :=
  ∀ j, order ≤ j → j < maxOrder - 1 →
    (∀ i, order ≤ i → i ≤ j → FreeBuddy npage pages b i) → b < buddyIdx b j

lemma mergesUp_of_not_freeBuddy (hf : ¬FreeBuddy npage pages b order) :
    MergesUp npage pages b order :=
  fun _ hj _ hall => absurd (hall order le_rfl hj) hf

lemma not_mergesUp_of_below (hf : FreeBuddy npage pages b order) (hlt : order < maxOrder - 1)
    (hb : ¬b < buddyIdx b order) : ¬MergesUp npage pages b order := by
  refine fun h => hb (h order le_rfl hlt fun i h1 h2 => ?_)
  rwa [show i = order by omega]

lemma mergesUp_congr (hp : ∀ i, order ≤ i → pages' (buddyIdx b i) = pages (buddyIdx b i)) :
    MergesUp npage pages' b order ↔ MergesUp npage pages b order := by
  have hfree : ∀ i, order ≤ i → (FreeBuddy npage pages' b i ↔ FreeBuddy npage pages b i) := by
    intro i hi
    rw [FreeBuddy, FreeBuddy, hp i hi]
  constructor
  · exact fun h j hj hlt hall => h j hj hlt fun i hi hij => (hfree i hi).mpr (hall i hi hij)
  · exact fun h j hj hlt hall => h j hj hlt fun i hi hij => (hfree i hi).mp (hall i hi hij)

/-- After a merge with the buddy above the condition is the same for the next order. -/
lemma mergesUp_succ (hf : FreeBuddy npage pages b order) (hb : b < buddyIdx b order) :
    MergesUp npage pages b order ↔ MergesUp npage pages b (order + 1) := by
  constructor
  · intro h j hj hlt hall
    refine h j (by omega) hlt fun i hi hij => ?_
    rcases eq_or_lt_of_le hi with rfl | hi
    · exact hf
    · exact hall i hi hij
  · intro h j hj hlt hall
    rcases eq_or_lt_of_le hj with rfl | hj
    · exact hb
    · exact h j hj hlt fun i hi hij => hall i (by omega) hij

/-- Only the flags and the orders of the descriptors matter. -/
lemma BuddyInv.congr_pages (h : BuddyInv npage R s L H F)
    (hp : ∀ i, (pages' i).pgProperty = (s.pages i).pgProperty ∧
      (pages' i).pgReserved = (s.pages i).pgReserved ∧
      (pages' i).property = (s.pages i).property) :
    BuddyInv npage R { s with pages := pages' } L H F where
  ring := h.ring
  count := h.count
  flag i hi := by rw [(hp i).1]; exact h.flag i hi
  order k hk i hi := by rw [(hp i).2.2]; exact h.order k hk i hi
  reserved i hi := by rw [(hp i).2.1]; exact h.reserved i hi
  tiles := h.tiles

/-- A page that passes the test of the loop is on the list of its order. The only other flagged page
is `b`, inside the block. -/
lemma BuddyInv.mem_of_freeBuddy (h : BuddyInv npage R s L H {b})
    (hb : b ∈ Set.Ico base (base + 2 ^ order)) (hf : FreeBuddy npage s.pages base order) :
    order < maxOrder ∧ buddyIdx base order ∈ L order := by
  obtain ⟨hlt, hflag, hprop⟩ := hf
  rcases (h.flag _ hlt).mp hflag with ⟨k, hk, hmem⟩ | hbuddy
  · have e := h.order k hk _ hmem
    rw [hprop] at e
    subst e
    exact ⟨hk, hmem⟩
  · rw [mem_singleton_iff] at hbuddy
    rw [← hbuddy] at hb
    exact absurd hb (buddyIdx_notMem base le_rfl)

/-- A round of the loop clears the flag of the buddy, be it above or below, and sets the order of
the lower of the two. -/
lemma mergeBuddy_eq (base buddy order : ℕ) (s : BuddyPmm) :
    mergeBuddy base buddy order s = (min base buddy,
      ((s.dropBlock buddy order).modPage buddy clearPageProperty).modPage (min base buddy)
        fun p => { p with property := order + 1 }) := by
  by_cases hlt : buddy < base
  · have hmin : min base buddy = buddy := by omega
    simp only [mergeBuddy, if_pos hlt, hmin, ite_self]
  · have hmin : min base buddy = base := by omega
    simp only [mergeBuddy, if_neg hlt, hmin]

/-- **One round of the merge loop.** The block and its buddy become one block at the lower of the
two; `b` is still the only page outside the lists whose flag is set.

**Proof sketch.** The buddy leaves its list, so that both halves are held; its flag is cleared, the
halves become one block and the order of its first page is recorded. -/
lemma mergeBuddy_inv (hR : R ⊆ Set.Ico lo (lo + n)) (hn : n < uintRange) (hnp : lo + n ≤ npage)
    (hlt : order < maxOrder) (h : BuddyInv npage R s L (insert (base, order) H) {b})
    (hb : b ∈ Set.Ico base (base + 2 ^ order))
    (hsep : ∀ x y, (x, y) ∈ H → x ∉ Set.Ico base (base + 2 ^ order))
    (hmem : buddyIdx base order ∈ L order) :
    let t := mergeBuddy base (buddyIdx base order) order s
    (t.2.pages t.1).property = order + 1 ∧ b ∈ Set.Ico t.1 (t.1 + 2 ^ (order + 1)) ∧
      (∀ x y, (x, y) ∈ H → x ∉ Set.Ico t.1 (t.1 + 2 ^ (order + 1))) ∧
      ∃ L', BuddyInv npage R t.2 L' (insert (t.1, order + 1) H) {b} ∧
        (Settled L (insert (base, order) H) → Settled L' (insert (t.1, order + 1) H)) := by
  rw [mergeBuddy_eq]
  simp only
  have hcases := (buddyIdx_cases base order).imp And.right And.right
  have hdvd := min_buddyIdx_dvd (b := base) (k := order)
  have hfree := h.free_sep hlt hmem
  have hbaseR : base ∈ R :=
    h.tiles.subset (mem_all_held.mpr (mem_insert _ _)) (start_mem_span _ _)
  have hbuddyR := h.mem_region hlt hmem
  have hout : buddyIdx base order ∉ Set.Ico base (base + 2 ^ order) := buddyIdx_notMem base le_rfl
  generalize buddyIdx base order = buddy at *
  have hbuddyH : (buddy, order) ∉ H :=
    fun hx => hfree _ _ (mem_insert_of_mem _ hx) (start_mem_span _ _)
  have hbaseH : (base, order) ∉ H := fun hx => hsep _ _ hx (start_mem_span _ _)
  -- the lower half, and the two halves
  have hpair : ({(min base buddy, order), (min base buddy + 2 ^ order, order)} : Set (ℕ × ℕ)) =
      {(base, order), (buddy, order)} := by
    rcases hcases with rfl | rfl
    · rw [Nat.min_eq_left (Nat.le_add_right _ _)]
    · rw [Nat.min_eq_right (Nat.le_add_right _ _), pair_comm]
  have hspan : Set.Ico (min base buddy) (min base buddy + 2 ^ (order + 1)) =
      Set.Ico base (base + 2 ^ order) ∪ Set.Ico buddy (buddy + 2 ^ order) := by
    rw [(BuddyInv.span_halves _ order).1]
    rcases hcases with rfl | rfl
    · rw [Nat.min_eq_left (Nat.le_add_right _ _)]
    · rw [Nat.min_eq_right (Nat.le_add_right _ _), union_comm]
  have hminR : min base buddy ∈ R := by
    rcases min_choice base buddy with e | e <;> rw [e] <;> assumption
  -- the buddy leaves its list and loses its flag
  have h1 := h.drop hR hn hlt hmem
  have hheld : (buddy, order) ∈ insert (buddy, order) (insert (base, order) H) := mem_insert _ _
  have h2 := h1.clear (h1.start_notMem hheld)
  have hne : buddy ∉ ({b} : Set ℕ) := by
    rintro rfl
    exact hout hb
  rw [insert_sdiff_self_of_notMem hne] at h2
  -- the halves become one block
  have hmin : (min base buddy, order) ∈ insert (buddy, order) (insert (base, order) H) ∧
      (min base buddy + 2 ^ order, order) ∈ insert (buddy, order) (insert (base, order) H) := by
    rcases hcases with rfl | rfl
    · simp
    · simp
  have h3 := h2.merge hmin.1 hmin.2
  have hH : insert (buddy, order)
      (insert (base, order) H) \ {(base, order), (buddy, order)} = H := by
    ext x
    constructor
    · rintro ⟨hx | hx | hx, hno⟩
      · exact absurd (.inr hx) hno
      · exact absurd (.inl hx) hno
      · exact hx
    · refine fun hx => ⟨.inr (.inr hx), ?_⟩
      rintro (rfl | rfl)
      · exact hbaseH hx
      · exact hbuddyH hx
  rw [hpair, hH] at h3
  have h4 := h3.setOrder (h3.start_notMem (mem_insert _ _)) (order + 1)
    (lt_of_lt_of_le (hR hminR).2 hnp)
  rw [hspan]
  refine ⟨?_, .inl hb, ?_, _, h4, fun hs => ?_⟩
  · simp only [BuddyPmm.modPage, update_self]
  · rintro x y hx (hmem | hmem)
    · exact hsep x y hx hmem
    · exact hfree x y (mem_insert_of_mem _ hx) hmem
  · exact hs.of_insert.take (hdvd (hs.held _ _ (mem_insert _ _)))

/-- A merge with the buddy above changes no descriptor of a later buddy. -/
lemma mergeBuddy_pages (hup : base < buddyIdx base order) (hi : order < i) (s : BuddyPmm) :
    (mergeBuddy base (buddyIdx base order) order s).2.pages (buddyIdx base i) =
      s.pages (buddyIdx base i) := by
  have hout := buddyIdx_notMem base hi
  rw [(BuddyInv.span_halves base order).1, mem_union, not_or] at hout
  have hne : buddyIdx base i ≠ base := fun e => hout.1 (by rw [e]; exact start_mem_span _ _)
  have hne' : buddyIdx base i ≠ buddyIdx base order := by
    intro e
    have hpos := Nat.two_pow_pos order
    rcases buddyIdx_cases base order with ⟨-, e'⟩ | ⟨-, e'⟩
    · exact hout.2 (by rw [e, e']; exact start_mem_span _ _)
    · omega
  rw [mergeBuddy_eq, min_eq_left hup.le]
  simp only [BuddyPmm.modPage, update_of_ne hne, update_of_ne hne', BuddyPmm.dropBlock]

/-- The test of the loop of `buddy_free_pages`. -/
lemma mergeLoop_succ (npage r base order : ℕ) (s : BuddyPmm) :
    mergeLoop npage (r + 1) base order s =
      if FreeBuddy npage s.pages base order then
        let t := mergeBuddy base (buddyIdx base order) order s
        mergeLoop npage r t.1 (order + 1) t.2
      else (base, order, s) := by
  rw [mergeLoop]
  by_cases hf : FreeBuddy npage s.pages base order
  · obtain ⟨hlt, hflag, hprop⟩ := hf
    have hgo : ¬((s.pages (buddyIdx base order)).pgProperty = false ∨
        (s.pages (buddyIdx base order)).property ≠ order) := by
      rw [hflag, hprop]
      simp
    rw [if_neg (not_le.mpr hlt), if_neg hgo, if_pos ⟨hlt, hflag, hprop⟩]
  · rw [if_neg hf]
    by_cases hlt : npage ≤ buddyIdx base order
    · rw [if_pos hlt]
    · rw [if_neg hlt, if_pos]
      by_contra hno
      push Not at hno
      exact hf ⟨by omega, by simpa using hno.1, hno.2⟩

/-- **The merge loop** ends with one block around `b`. It starts at the same page as before exactly
if the block was merged with buddies above it only.

**Proof sketch.** Induction on the number of rounds. The base never moves up, so that one merge with
a buddy below makes it different for good; a merge with the buddy above passes the condition to the
next order, because it changes no descriptor of a later buddy. -/
lemma mergeLoop_inv (hR : R ⊆ Set.Ico lo (lo + n)) (hn : n < uintRange) (hnp : lo + n ≤ npage)
    (r : ℕ) : ∀ {s : BuddyPmm} {L : ℕ → List ℕ} {base order : ℕ}, order + r = maxOrder - 1 →
      BuddyInv npage R s L (insert (base, order) H) {b} → b ∈ Set.Ico base (base + 2 ^ order) →
      (∀ x y, (x, y) ∈ H → x ∉ Set.Ico base (base + 2 ^ order)) → (s.pages base).property = order →
      ∃ base' order' s' L', mergeLoop npage r base order s = (base', order', s') ∧
        order' < maxOrder ∧ BuddyInv npage R s' L' (insert (base', order') H) {b} ∧
        b ∈ Set.Ico base' (base' + 2 ^ order') ∧ (base', order') ∉ H ∧
        (s'.pages base').property = order' ∧ base' ≤ base ∧
        (base' = base ↔ MergesUp npage s.pages base order) ∧
        (order' + 1 < maxOrder → ¬FreeBuddy npage s'.pages base' order') ∧
        (Settled L (insert (base, order) H) → Settled L' (insert (base', order') H)) := by
  have hmax : maxOrder - 1 < maxOrder := by decide
  induction r with
  | zero =>
    intro s L base order ho h hb hsep hprop
    refine ⟨base, order, s, L, rfl, by omega, h, hb, fun hx => hsep _ _ hx (start_mem_span _ _),
      hprop, le_rfl, iff_of_true rfl fun j hj hlt => by omega, fun hlt => by omega, id⟩
  | succ r ih =>
    intro s L base order ho h hb hsep hprop
    rw [mergeLoop_succ]
    by_cases hf : FreeBuddy npage s.pages base order
    · obtain ⟨hlt, hmem⟩ := h.mem_of_freeBuddy hb hf
      obtain ⟨hprop', hb', hsep', L', h', hset⟩ := mergeBuddy_inv hR hn hnp hlt h hb hsep hmem
      rw [if_pos hf]
      obtain ⟨base', order', s', L'', e, h1, h2, h3, h4, h5, hle, hiff, h6, hset'⟩ :=
        ih (by omega) h' hb' hsep' hprop'
      have hbase : (mergeBuddy base (buddyIdx base order) order s).1 =
          min base (buddyIdx base order) := by
        rw [mergeBuddy_eq]
      rw [hbase] at hle hiff
      refine ⟨base', order', s', L'', e, h1, h2, h3, h4, h5, by omega, ?_, h6,
        fun hs => hset' (hset hs)⟩
      by_cases hup : base < buddyIdx base order
      · rw [min_eq_left (by omega)] at hiff
        rw [hiff, mergesUp_succ hf hup]
        exact mergesUp_congr fun i hi => mergeBuddy_pages hup hi s
      · refine iff_of_false ?_ (not_mergesUp_of_below hf (by omega) hup)
        have hpos := Nat.two_pow_pos order
        rcases buddyIdx_cases base order with ⟨-, e'⟩ | ⟨-, e'⟩ <;> omega
    · rw [if_neg hf]
      exact ⟨base, order, s, L, rfl, by omega, h, hb, fun hx => hsep _ _ hx (start_mem_span _ _),
        hprop, le_rfl, iff_of_true rfl (mergesUp_of_not_freeBuddy hf), fun _ => hf, id⟩

lemma forPages_buddy (ok : Page → Bool) (why : PmmPanic) (reset : Page → Page) (base n : ℕ)
    (s : BuddyPmm) (hok : ∀ i, base ≤ i → i < base + n → ok (s.pages i) = true) :
    BuddyPmm.forPages ok why reset base n s = .ok ((),
      { s with pages := fun i => if base ≤ i ∧ i < base + n then reset (s.pages i)
                                 else s.pages i }) := by
  rw [BuddyPmm.forPages, read_bind_apply, forPages_ok ok why reset base n s.pages hok]
  rfl

/-- A block whose first page is not flagged is put on a list, with another flagged page inside: the
flags do not describe the lists.

**Proof sketch.** The lists of the new state are those of the state in which the first page has its
flag (the links do not depend on it), and the flagged page is on none of them. -/
lemma BuddyInv.not_of_push (h : BuddyInv npage R s L (insert (base, order) H) {b})
    (hR : R ⊆ Set.Ico lo (lo + n)) (hn : n < uintRange) (hnp : lo + n ≤ npage)
    (hlt : order < maxOrder) (hb : b ∈ Set.Ico base (base + 2 ^ order)) (hne : base ≠ b)
    (hprop : (s.pages base).property = order) (L' : ℕ → List ℕ) (H' : Set (ℕ × ℕ)) :
    ¬BuddyInv npage R (s.pushBlock base order) L' H' ∅ := by
  intro h'
  have hheld : (base, order) ∈ insert (base, order) H := mem_insert _ _
  have hbR : b ∈ R := h.tiles.subset (mem_all_held.mpr hheld) hb
  have hbnp : b < npage := lt_of_lt_of_le (hR hbR).2 hnp
  have hmark := h.modPage (h.start_notMem hheld) setPageProperty rfl
  rw [if_pos (show (setPageProperty _).pgProperty = true from rfl)] at hmark
  have hpush := hmark.push hR hn hlt hheld (mem_insert _ _)
    (by simpa [BuddyPmm.modPage, setPageProperty] using hprop)
  rcases (h'.flag b hbnp).mp ((h.flag b hbnp).mpr (.inr rfl)) with ⟨k, hk, hmem⟩ | hmem
  · have e := map_injective_iff.mpr (fun _ _ => BuddyLink.page.inj)
      ((h'.ring k hk).unique (hpush.ring k hk))
    rw [e] at hmem
    by_cases hko : k = order
    · subst hko
      rw [update_self, List.mem_cons] at hmem
      rcases hmem with hmem | hmem
      · exact hne hmem.symm
      · exact h.notMem_of_held hheld hb hk hmem
    · rw [update_of_ne hko] at hmem
      exact h.notMem_of_held hheld hb hk hmem
  · exact hmem

/-- The loop of `buddy_free_pages` over the pages of a held block passes its assertion, and the
block is marked. No descriptor of a buddy of the block is changed. -/
lemma BuddyInv.release (hR : R ⊆ Set.Ico lo (lo + n)) (hnp : lo + n ≤ npage)
    (h : BuddyInv npage R s L (insert (b, order) H) ∅) :
    ∃ t, BuddyPmm.forPages (fun p => !p.pgReserved && !p.pgProperty) .notAllocated
        (fun p => { p with ref := 0, pgReserved := false, pgProperty := false }) b (2 ^ order) s =
        .ok ((), t) ∧
      BuddyInv npage R (t.markBlock b order) L (insert (b, order) H) {b} ∧
      ((t.markBlock b order).pages b).property = order ∧
      ∀ i, order ≤ i → (t.markBlock b order).pages (buddyIdx b i) = s.pages (buddyIdx b i) := by
  have hblock : ∀ i, b ≤ i → i < b + 2 ^ order →
      (s.pages i).pgReserved = false ∧ (s.pages i).pgProperty = false := by
    intro i h1 h2
    have hi : i ∈ R := h.tiles.subset (mem_all_held.mpr (mem_insert _ _)) ⟨h1, h2⟩
    refine ⟨h.reserved i hi, ?_⟩
    have hflag := h.flag i (lt_of_lt_of_le (hR hi).2 hnp)
    rw [← Bool.not_eq_true, hflag]
    rintro (⟨k, hk, hmem⟩ | hmem)
    · exact h.notMem_of_held (mem_insert _ _) ⟨h1, h2⟩ hk hmem
    · exact hmem
  refine ⟨_, forPages_buddy _ _ _ _ _ _ fun i h1 h2 => by simp [hblock i h1 h2], ?_⟩
  -- the loop over the block changes the reference counts only
  set pages' : ℕ → Page := fun i => if b ≤ i ∧ i < b + 2 ^ order then
    { s.pages i with ref := 0, pgReserved := false, pgProperty := false } else s.pages i with hpages
  have h1 : BuddyInv npage R { s with pages := pages' } L (insert (b, order) H) ∅ := by
    refine h.congr_pages fun i => ?_
    by_cases hi : b ≤ i ∧ i < b + 2 ^ order
    · simp only [hpages, if_pos hi, hblock i hi.1 hi.2, and_self]
    · simp only [hpages, if_neg hi, and_self]
  obtain ⟨h2, hprop⟩ := h1.mark (h1.start_notMem (mem_insert _ _)) order
  rw [insert_empty_eq] at h2
  refine ⟨h2, hprop, fun i hi => ?_⟩
  have hout := buddyIdx_notMem b hi
  have hne : buddyIdx b i ≠ b := fun e => hout (by rw [e]; exact start_mem_span _ _)
  simp only [BuddyPmm.markBlock, BuddyPmm.modPage, update_of_ne hne, hpages]
  exact if_neg hout

/-- **Release** of a held block returns: the assertion holds. The block, merged with its free
buddies, is then on a list with the flags in order exactly if it was merged with buddies above it
only. -/
lemma buddyFreePages_spec (hR : R ⊆ Set.Ico lo (lo + n)) (hn : n < uintRange) (hnp : lo + n ≤ npage)
    (h : BuddyInv npage R s L (insert (b, Nat.clog 2 m) H) ∅) (hm : 0 < m) (hm' : m ≤ 2 ^ 63)
    (hlt : Nat.clog 2 m < maxOrder)
    (hsep : ∀ x y, (x, y) ∈ H → x ∉ Set.Ico b (b + 2 ^ Nat.clog 2 m)) :
    ∃ s', buddyFreePages npage b m s = .ok ((), s') ∧
      (MergesUp npage s.pages b (Nat.clog 2 m) → ∃ L', BuddyInv npage R s' L' H ∅ ∧
        (Settled L (insert (b, Nat.clog 2 m) H) → Settled L' H)) ∧
      (¬MergesUp npage s.pages b (Nat.clog 2 m) → ∀ L' H', ¬BuddyInv npage R s' L' H' ∅) := by
  have hlog : log2Ceil m = some (Nat.clog 2 m) := by rw [log2Ceil_eq hm, if_pos hm']
  rw [buddyFreePages, ensure_bind_apply, if_pos hm, hlog]
  generalize Nat.clog 2 m = order at *
  simp only [pow2]
  rw [if_neg (by omega : ¬maxOrder ≤ order)]
  obtain ⟨t, et, h2, hprop, hpages⟩ := h.release hR hnp
  rw [bind_of_ok et]
  obtain ⟨base, order', s', L', e, hlt', h3, hb, hno, hprop', -, hiff, hlast, hset⟩ :=
    mergeLoop_inv hR hn hnp (maxOrder - 1 - order) (by omega) h2 (start_mem_span _ _) hsep hprop
  rw [mergesUp_congr hpages] at hiff
  refine ⟨s'.pushBlock base order', ?_, fun hm => ?_, fun hm => ?_⟩
  · simp only [modify_bind_apply, modify_apply, e]
  · obtain rfl := hiff.mpr hm
    have h4 := h3.push hR hn hlt' (mem_insert _ _) (mem_singleton _) hprop'
    rw [insert_sdiff_self_of_notMem hno, sdiff_self] at h4
    refine ⟨_, h4, fun hs => (hset hs).of_insert.add ((hset hs).held _ _ (mem_insert _ _)) ?_
      (fun x hx => mem_cons.mp hx) fun x y hx => (hset hs).held x y (mem_insert_of_mem _ hx)⟩
    -- a buddy on the list would have been merged
    intro ho hmem
    have hlt := lt_of_lt_of_le (hR (h3.mem_region hlt' hmem)).2 hnp
    exact hlast ho ⟨hlt, (h3.flag _ hlt).mpr (.inl ⟨_, hlt', hmem⟩), h3.order _ hlt' _ hmem⟩
  · exact h3.not_of_push hR hn hnp hlt' hb (fun e => hm (hiff.mp e)) hprop'

end Free

/-! ## Initialisation -/

section Boot

variable {npage lo n : ℕ}

/-- The heads initialised so far are empty lists, with the counters zero. -/
lemma buddyInit_heads (s : BuddyPmm) (m : ℕ) :
    let t := (List.range m).foldl (fun s i =>
      { s with links := listInit s.links (.head i), nrFree := update s.nrFree i 0 }) s
    (∀ k < m, t.links.Ring (.head k) [] ∧ t.nrFree k = 0) ∧ t.pages = s.pages := by
  induction m with
  | zero => exact ⟨fun k hk => absurd hk (Nat.not_lt_zero k), rfl⟩
  | succ m ih =>
    simp only [range_succ, foldl_append, foldl_cons, foldl_nil] at ih ⊢
    obtain ⟨hall, hp⟩ := ih
    refine ⟨fun k hk => ?_, hp⟩
    by_cases hkm : k = m
    · subst hkm
      exact ⟨Links.ring_loop _ _, update_self ..⟩
    · obtain ⟨hring, hcount⟩ := hall k (by omega)
      exact ⟨hring.loop_of_notMem
        (by simpa using Ne.symm hkm), by rw [update_of_ne hkm]; exact hcount⟩

lemma buddyInit_spec (s : BuddyPmm) :
    (∀ k < maxOrder, (buddyInit s).links.Ring (.head k) [] ∧ (buddyInit s).nrFree k = 0) ∧
      (buddyInit s).pages = s.pages :=
  buddyInit_heads s maxOrder

/-- The order found by the inner loop is the greatest one of a block that fits. -/
lemma initOrder_spec (remaining fuel : ℕ) : ∀ order, pow2 order ≤ remaining → order < maxOrder →
    maxOrder ≤ order + fuel → pow2 (initOrder remaining fuel order) ≤ remaining ∧
      initOrder remaining fuel order < maxOrder ∧
      (initOrder remaining fuel order + 1 < maxOrder →
        remaining < pow2 (initOrder remaining fuel order + 1)) := by
  induction fuel with
  | zero => exact fun order _ h2 h3 => absurd h2 (not_lt.mpr h3)
  | succ fuel ih =>
    intro order h1 h2 h3
    rw [initOrder]
    by_cases hc : pow2 (order + 1) ≤ remaining ∧ order + 1 < maxOrder
    · rw [if_pos hc]
      exact ih _ hc.1 hc.2 (by omega)
    · rw [if_neg hc]
      exact ⟨h1, h2, fun hlt => not_le.mp fun hle => hc ⟨hle, hlt⟩⟩

/-- What holds of the lists between two rounds, if the first block is aligned: the blocks to come
are aligned, and smaller than those below the greatest order. -/
structure InitSettled (base off rem : ℕ) (L : ℕ → List ℕ) : Prop where
  settled : Settled L ∅
  aligned : ∀ k < maxOrder, 2 ^ k ≤ rem → 2 ^ k ∣ base + off
  below : ∀ k, k + 1 < maxOrder → L k ≠ [] → rem < 2 ^ k

/-- **A round** of the outer loop. -/
lemma InitSettled.step {base off rem order : ℕ} {L : ℕ → List ℕ} (h : InitSettled base off rem L)
    (hfit : 2 ^ order ≤ rem) (hlt : order < maxOrder)
    (hmax : order + 1 < maxOrder → rem < 2 ^ (order + 1)) :
    InitSettled base (off + 2 ^ order) (rem - 2 ^ order)
      (update L order (L order ++ [base + off])) := by
  have hpos := Nat.two_pow_pos order
  have hnil : order + 1 < maxOrder → L order = [] := by
    intro ho
    by_contra hne
    exact absurd hfit (not_le.mpr (h.below order ho hne))
  refine ⟨h.settled.add (h.aligned order hlt hfit) (fun ho => ?_) ?_
    fun _ _ hx => absurd hx (notMem_empty _), fun k hk hle => ?_, fun k hk hne => ?_⟩
  · rw [hnil ho]
    exact not_mem_nil
  · intro x hx
    rw [List.mem_append, List.mem_singleton] at hx
    exact hx.symm
  · have hko : k ≤ order := by
      by_contra hgt
      have hpow := Nat.pow_le_pow_right Nat.two_pos (show order + 1 ≤ k by omega)
      omega
    rw [← add_assoc]
    exact Nat.dvd_add (h.aligned k hk (by omega)) (pow_dvd_pow 2 hko)
  · by_cases hko : k = order
    · subst hko
      have := hmax hk
      rw [pow_succ] at this
      omega
    · rw [update_of_ne hko] at hne
      have := h.below k hk hne
      omega

/-- **The outer loop of `buddy_init_memmap`** tiles the rest of the region with free blocks. -/
lemma initBlocks_inv (hn : n < uintRange) (fuel : ℕ) :
    ∀ {off rem : ℕ} {s : BuddyPmm} {L : ℕ → List ℕ}, rem ≤ fuel → off + rem = n →
      BuddyInv npage (Set.Ico lo (lo + off)) s L ∅ ∅ →
      (∀ i ∈ Set.Ico lo (lo + n), (s.pages i).pgReserved = false) →
      ∃ L', BuddyInv npage (Set.Ico lo (lo + n)) (initBlocks lo fuel off rem s) L' ∅ ∅ ∧
        (InitSettled lo off rem L → Settled L' ∅) := by
  induction fuel with
  | zero =>
    intro off rem s L hle hsum h hres
    rw [show off = n by omega] at h
    exact ⟨L, h, InitSettled.settled⟩
  | succ fuel ih =>
    intro off rem s L hle hsum h hres
    rw [initBlocks]
    by_cases hrem : 0 < rem
    · obtain ⟨hfit, hlt, hmax⟩ := initOrder_spec rem maxOrder 0 hrem (by decide) (by decide)
      rw [if_pos hrem]
      simp only
      generalize initOrder rem maxOrder 0 = order at hfit hlt hmax
      rw [pow2] at hfit hmax ⊢
      have hpos := Nat.two_pow_pos order
      have hregion : Set.Ico (lo + off) (lo + off + 2 ^ order) ∪ Set.Ico lo (lo + off) =
          Set.Ico lo (lo + (off + 2 ^ order)) := by
        rw [Set.union_comm, Set.Ico_union_Ico_eq_Ico (Nat.le_add_right _ _) (Nat.le_add_right _ _),
          add_assoc]
      have h1 := h.grow (i := lo + off) (k := order) Ico_disjoint_Ico_same.symm
        fun x hx => hres x ⟨le_trans (Nat.le_add_right _ _) hx.1, by
          have := hx.2
          omega⟩
      rw [hregion] at h1
      have hheld : (lo + off, order) ∈ insert (lo + off, order) (∅ : Set (ℕ × ℕ)) :=
        mem_insert _ _
      obtain ⟨h2, hprop⟩ := h1.mark (h1.start_notMem hheld) order
      have hR : Set.Ico lo (lo + (off + 2 ^ order)) ⊆ Set.Ico lo (lo + n) :=
        Ico_subset_Ico_right (by omega)
      have h3 := h2.append hR hn hlt hheld (mem_insert _ _) hprop
      rw [insert_empty_eq, insert_empty_eq, Set.sdiff_self, Set.sdiff_self] at h3
      obtain ⟨L', h4, hset⟩ := @ih _ (rem - 2 ^ order) _ _ (by omega) (by omega) h3 fun i hi => by
        rw [← hres i hi]
        simp only [BuddyPmm.appendBlock, BuddyPmm.markBlock, BuddyPmm.modPage, update_apply]
        split_ifs with hi' <;> simp [hi', setPageProperty]
      exact ⟨L', h4, fun hs => hset (hs.step hfit hlt hmax)⟩
    · rw [if_neg hrem]
      rw [show off = n by omega] at h
      exact ⟨L, h, InitSettled.settled⟩

/-- **Initialisation**: `buddy_init` and then `buddy_init_memmap` of a region of reserved pages. -/
def buddyBoot (base n : ℕ) : Comp PmmPanic BuddyPmm Unit := do
  Comp.modify buddyInit
  buddyInitMemmap base n

/-- After the initialisation the region consists of free blocks. -/
lemma buddyBoot_inv {s : BuddyPmm} (hn0 : 0 < n) (hn : n < uintRange)
    (hres : ∀ i ∈ Set.Ico lo (lo + n), (s.pages i).pgReserved = true)
    (hflag : ∀ i < npage, i ∉ Set.Ico lo (lo + n) → (s.pages i).pgProperty = false) :
    ∃ t L, buddyBoot lo n s = .ok ((), t) ∧ BuddyInv npage (Set.Ico lo (lo + n)) t L ∅ ∅ ∧
      (2 ^ min (Nat.log 2 n) (maxOrder - 1) ∣ lo → Settled L ∅) := by
  obtain ⟨hheads, hp⟩ := buddyInit_spec s
  rw [buddyBoot, modify_bind_apply, buddyInitMemmap, ensure_bind_apply, if_pos hn0,
    bind_of_ok (forPages_buddy _ _ _ _ _ _ fun i h1 h2 => by rw [hp]; exact hres i ⟨h1, h2⟩)]
  have hbase : BuddyInv npage (Set.Ico lo (lo + 0))
      { buddyInit s with pages := fun i => if lo ≤ i ∧ i < lo + n then
          { ref := 0, pgReserved := false, pgProperty := false, property := 0 }
          else (buddyInit s).pages i } (fun _ => []) ∅ ∅ := by
    refine ⟨fun k hk => (hheads k hk).1, fun k hk => (hheads k hk).2, fun i hi => ?_,
      fun k _ i hi => absurd hi not_mem_nil, fun i hi => ?_, ?_⟩
    · simp only [not_mem_nil, and_false, exists_false, mem_empty_iff_false, or_self,
        iff_false, Bool.not_eq_true]
      by_cases hin : lo ≤ i ∧ i < lo + n
      · rw [if_pos hin]
      · rw [if_neg hin, hp]
        exact hflag i hi hin
    · rw [add_zero, Set.Ico_self] at hi
      exact absurd hi (notMem_empty i)
    · have hall : Block.all (fun _ => []) ∅ = ∅ := by
        ext b
        cases b with
        | free x m => simp [mem_all_free]
        | held x m => simp [mem_all_held]
      rw [hall, add_zero, Set.Ico_self]
      exact Tiling.empty
  obtain ⟨L, h, hset⟩ := initBlocks_inv hn n le_rfl (zero_add n) hbase
    fun i hi => by simp only [if_pos (show lo ≤ i ∧ i < lo + n from hi)]
  refine ⟨_, L, rfl, h, fun hdvd => hset ⟨⟨fun _ _ _ hi => absurd hi not_mem_nil,
    fun _ _ hx => absurd hx (notMem_empty _), fun _ _ _ hi => absurd hi not_mem_nil⟩,
    fun k hk hle => (pow_dvd_pow 2 (le_min ?_ (by omega))).trans hdvd,
    fun _ _ hne => absurd rfl hne⟩⟩
  exact Nat.le_log_of_pow_le Nat.one_lt_two hle

end Boot

end Ucore
