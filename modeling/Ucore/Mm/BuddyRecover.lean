import Ucore.Lib.Dyadic
import Ucore.Mm.BuddyPmmRun

set_option autoImplicit false

/-!
# The buddy allocator gets its blocks back

When nothing is outstanding, the free blocks are those right after the initialisation: the blocks
are aligned and no two buddies are left, and a region has one such tiling only. Buddies are computed
on the index in `pages[]`, whereas the first blocks are laid out from the base of the region, so
that the blocks are aligned only if the first one is.

## Main results

* `buddy_recovers` — the free blocks after any run that merges upwards only.
* `buddy_not_recovered` — the halves of a block that is not aligned are not merged again.
-/

namespace Ucore

open Function

section Recover

variable {npage m k : ℕ} {R : Set ℕ} {s t : BuddyPmm} {L L' : ℕ → List ℕ}

/-- With nothing held, settled free blocks are a dyadic tiling. -/
lemma BuddyInv.dyadic (h : BuddyInv npage R s L ∅ ∅) (hs : Settled L ∅) :
    DyadicTiling (maxOrder - 1) {b | b.2 < maxOrder ∧ b.1 ∈ L b.2} R where
  tiles := by
    refine ⟨fun b hb c hc hne => h.tiles.disjoint (mem_all_free.mpr hb)
      (mem_all_free.mpr hc) ?_, ?_⟩
    · exact fun e => hne (Prod.ext (Block.free.inj e).1 (Block.free.inj e).2)
    · ext x
      rw [h.tiles.mem_iff]
      simp only [Set.mem_iUnion]
      constructor
      · rintro ⟨⟨i, k⟩, hb, hx⟩
        exact ⟨.free i k, hb, hx⟩
      · rintro ⟨b, hb, hx⟩
        cases b with
        | free i k => exact ⟨(i, k), hb, hx⟩
        | held i k => exact absurd (mem_all_held.mp hb) (Set.notMem_empty _)
  aligned i k hb := hs.free k hb.1 i hb.2
  le i k hb := Nat.le_sub_one_of_lt hb.1
  apart i k hk hd hb hb' := by
    rw [← buddyIdx_lower hd] at hb'
    exact hs.apart k (by omega) i hb.2 hb'.2

/-- **The lists are determined** by the region, up to their order. -/
lemma BuddyInv.perm (h : BuddyInv npage R s L ∅ ∅) (hs : Settled L ∅)
    (h' : BuddyInv npage R t L' ∅ ∅) (hs' : Settled L' ∅) (hk : k < maxOrder) :
    (L k).Perm (L' k) := by
  rw [List.perm_ext_iff_of_nodup (h.nodup hk) (h'.nodup hk)]
  intro i
  have e := Set.ext_iff.mp ((h.dyadic hs).unique (h'.dyadic hs')) (i, k)
  exact ⟨fun hi => (e.mp ⟨hk, hi⟩).2, fun hi => (e.mpr ⟨hk, hi⟩).2⟩

/-- **A request is served** exactly if there is a block that is large enough. -/
lemma BuddyInv.served_iff (h : BuddyInv npage R s L ∅ ∅) {lo n : ℕ} (hR : R ⊆ Set.Ico lo (lo + n))
    (hn : n < uintRange) (hnp : lo + n ≤ npage) (hm : 0 < m) (hm' : m ≤ 2 ^ 63) :
    (∃ p u, buddyAllocPages m s = .ok (some p, u)) ↔ ∃ j, Nat.clog 2 m ≤ j ∧ j < maxOrder ∧
      L j ≠ [] := by
  rcases buddyAllocPages_spec hR hn hnp h hm hm'
    with ⟨e, hnil⟩ | ⟨p, u, -, e, -, ⟨j, h1, h2, hp⟩, -⟩
  · rw [e]
    refine iff_of_false (fun ⟨_, _, e'⟩ => nomatch e') ?_
    exact fun ⟨j, h1, h2, hne⟩ => hne (hnil j h1 h2)
  · exact iff_of_true ⟨p, u, e⟩ ⟨j, h1, h2, List.ne_nil_of_mem hp⟩

end Recover

/-- **Memory is fully recovered** if the first block of the region is aligned. After any run none of
whose frees merges with a buddy below, and after which nothing is outstanding, there are as many
free blocks of each order as right after the initialisation, and the same requests are served. -/
theorem buddy_recovers (npage lo n : ℕ) (s₀ : BuddyPmm) (hn0 : 0 < n) (hn : n < uintRange)
    (hnp : lo + n ≤ npage) (hres : ∀ i ∈ Set.Ico lo (lo + n), (s₀.pages i).pgReserved = true)
    (hflag : ∀ i < npage, i ∉ Set.Ico lo (lo + n) → (s₀.pages i).pgProperty = false)
    (hlo : 2 ^ min (Nat.log 2 n) (maxOrder - 1) ∣ lo) :
    ∃ s, buddyBoot lo n s₀ = .ok ((), s) ∧
      ∀ st, BuddyReach (FreesUp npage) npage lo n s₀ st → (∀ b, st.out b = none) →
        (∀ k < maxOrder, st.pmm.nrFree k = s.nrFree k) ∧
        ∀ m, (∃ p u, buddyAllocPages m st.pmm = .ok (some p, u)) ↔
          ∃ p u, buddyAllocPages m s = .ok (some p, u) := by
  obtain ⟨s, L, hs, h, hset⟩ := buddyBoot_inv hn0 hn hres hflag
  refine ⟨s, hs, fun st hst hout => ?_⟩
  obtain ⟨L', ⟨h', -⟩, hset'⟩ := hst.lists hn0 hn hnp hres hflag
  have hheld : BuddyRun.held st.out = ∅ := by
    ext ⟨x, y⟩
    simp [mem_held, hout]
  rw [hheld] at h' hset'
  have hperm : ∀ k < maxOrder, (L' k).Perm (L k) := fun k hk => h'.perm (hset' hlo) h (hset hlo) hk
  refine ⟨fun k hk => ?_, fun m => ?_⟩
  · rw [h'.count k hk, h.count k hk, (hperm k hk).length_eq]
  · rcases Nat.eq_zero_or_pos m with rfl | hm
    · exact iff_of_false (fun ⟨_, _, e⟩ => nomatch e) fun ⟨_, _, e⟩ => nomatch e
    rcases lt_or_ge (2 ^ 63) m with hlt | hle
    · rw [buddyAllocPages_diverges hlt, buddyAllocPages_diverges hlt]
    rw [h'.served_iff subset_rfl hn hnp hm hle, h.served_iff subset_rfl hn hnp hm hle]
    refine exists_congr fun j => and_congr_right fun _ => and_congr_right fun hj => not_congr ?_
    exact ⟨fun e => (e ▸ hperm j hj).nil_eq.symm, fun e => (e ▸ hperm j hj).eq_nil⟩

/-- Two pages at index 0: a page is allocated and freed. -/
theorem buddy_recovers_two_pages : ∃ s st, buddyBoot 0 2 reservedBuddyPages = .ok ((), s) ∧
    BuddyReach (FreesUp 2) 2 0 2 reservedBuddyPages st ∧ st.pmm.nrFree 1 = s.nrFree 1 := by
  obtain ⟨s, hs, h⟩ := buddy_recovers 2 0 2 reservedBuddyPages (by decide) (by decide) (by decide)
    (fun _ _ => rfl) (fun _ _ _ => rfl) ⟨0, rfl⟩
  obtain ⟨st, hst, hout⟩ : ∃ st, BuddyReach (FreesUp 2) 2 0 2 reservedBuddyPages st ∧
      ∀ b, st.out b = none := by
    refine ⟨_, ⟨_, rfl, (Relation.ReflTransGen.refl.tail ⟨.alloc 1, one_pos, trivial, rfl⟩).tail
      ⟨.free 0 1, by exact rfl, fun j _ _ _ => ?_, rfl⟩⟩, fun b => ?_⟩
    · rw [buddyIdx, Nat.zero_xor]
      exact Nat.two_pow_pos j
    · change update (update (fun _ => none) 0 (some 1)) 0 none b = none
      rw [update_idem, update_apply, ite_self]
  exact ⟨s, st, hs, hst, (h st hst hout).1 1 (by decide)⟩

/-- **A block that is not aligned is not recovered.** On the pages 1 and 2: a page is allocated and
freed. Its buddy is page 0, so that the two halves stay apart, and a request of two pages is not
served any more. -/
theorem buddy_not_recovered : ∃ s st, buddyBoot 1 2 reservedBuddyPages = .ok ((), s) ∧
    BuddyReach (fun _ _ => True) 3 1 2 reservedBuddyPages st ∧ (∀ b, st.out b = none) ∧
    s.nrFree 1 = 1 ∧ st.pmm.nrFree 1 = 0 ∧ st.pmm.nrFree 0 = 2 ∧
    (∃ u, buddyAllocPages 2 s = .ok (some 1, u)) ∧
      ∃ u, buddyAllocPages 2 st.pmm = .ok (none, u) := by
  refine ⟨_, _, rfl, ⟨_, rfl,
    (Relation.ReflTransGen.refl.tail ⟨.alloc 1, one_pos, trivial, rfl⟩).tail
    ⟨.free 1 1, by exact rfl, trivial, rfl⟩⟩, fun b => ?_, by exact rfl, by exact rfl, by exact rfl,
    ⟨_, rfl⟩, ⟨_, rfl⟩⟩
  change update (update (fun _ => none) 1 (some 1)) 1 none b = none
  rw [update_idem, update_apply, ite_self]

end Ucore
