import Mathlib

set_option autoImplicit false

/-!
# Lists of segments

Segments `[start, start + size)` of natural numbers and lists of them in increasing order, as
free lists of allocators keep them.

## Main definitions

* `Seg`, `Seg.Contains` — a segment and its elements.
* `Seg.Before`, `Seg.Apart` — one segment ends at or before the other's start; they also do not
  touch.
* `Seg.Covered`, `Seg.total` — the elements of a list of segments; the sum of the sizes.
* `Seg.cov` — how many segments of a list contain a number.

## Main results

* `Seg.total_le` — disjoint segments inside an interval have at most its length in total.
* `Seg.exists_of_run` — if no two segments touch, a run of covered numbers lies in one segment.
* `Seg.total_eq` — lists that cover the same numbers equally often have the same total.
* `Seg.exists_split` — where a number belongs in a list in order.
* `Seg.end_le` — two segments that share no number are one before the other.
-/

/-- The segment `[start, start + size)`. -/
structure Seg where
  start : ℕ
  size : ℕ
  deriving DecidableEq, Repr

namespace Seg

open List Finset

/-- The elements of a segment. -/
abbrev Contains (b : Seg) (i : ℕ) : Prop := b.start ≤ i ∧ i < b.start + b.size

/-- `a` ends at or before the start of `b`. -/
abbrev Before (a b : Seg) : Prop := a.start + a.size ≤ b.start

/-- `a` ends before the start of `b`, with a number in between. -/
abbrev Apart (a b : Seg) : Prop := a.start + a.size < b.start

/-- The numbers in some segment of the list. -/
def Covered (bs : List Seg) (i : ℕ) : Prop := ∃ b ∈ bs, b.Contains i

/-- The sum of the sizes. -/
def total (bs : List Seg) : ℕ := (bs.map size).sum

variable {bs cs : List Seg} {b : Seg} {i k lo hi : ℕ}

@[simp] lemma total_nil : total [] = 0 := rfl

@[simp] lemma total_cons : total (b :: bs) = b.size + total bs := by simp [total]

@[simp] lemma total_append : total (bs ++ cs) = total bs + total cs := by simp [total]

@[simp] lemma covered_nil : ¬Covered [] i := by simp [Covered]

@[simp] lemma covered_cons : Covered (b :: bs) i ↔ b.Contains i ∨ Covered bs i := by
  simp [Covered]

@[simp] lemma covered_append : Covered (bs ++ cs) i ↔ Covered bs i ∨ Covered cs i := by
  simp [Covered, or_and_right, exists_or]

/-- Segments in order inside `[lo, hi)` have at most `hi - lo` elements in total. -/
lemma total_le (hs : bs.Pairwise Before) (hlo : lo ≤ hi)
    (hb : ∀ b ∈ bs, lo ≤ b.start ∧ b.start + b.size ≤ hi) : total bs ≤ hi - lo := by
  induction bs generalizing lo with
  | nil => simp
  | cons b bs ih =>
    obtain ⟨hb1, hb2⟩ := hb b (by simp)
    rw [List.pairwise_cons] at hs
    have := ih hs.2 hb2 fun c hc => ⟨hs.1 c hc, (hb c (by simp [hc])).2⟩
    rw [total_cons]
    omega

lemma length_le_total (h : ∀ b ∈ bs, 0 < b.size) : bs.length ≤ total bs := by
  rw [← length_map (f := size)]
  exact length_le_sum_of_one_le _ (forall_mem_map.mpr h)

lemma size_le_total (hb : b ∈ bs) : b.size ≤ total bs := by
  obtain ⟨as, cs, rfl⟩ := append_of_mem hb
  simp only [total_append, total_cons]
  omega

/-- Two segments of a list in order are equal or one is before the other. -/
lemma eq_or_rel {R : Seg → Seg → Prop} (hs : bs.Pairwise R) {a b : Seg} (ha : a ∈ bs)
    (hb : b ∈ bs) : a = b ∨ R a b ∨ R b a := by
  induction bs with
  | nil => cases ha
  | cons c bs ih =>
    rw [List.pairwise_cons] at hs
    rcases mem_cons.mp ha with h1 | h1 <;> rcases mem_cons.mp hb with h2 | h2
    · exact .inl (h1.trans h2.symm)
    · exact .inr (.inl (h1 ▸ hs.1 b h2))
    · exact .inr (.inr (h2 ▸ hs.1 a h1))
    · exact ih hs.2 h1 h2

/-- **Runs lie in one segment**: if no two segments touch, `k` consecutive covered numbers are
covered by a single segment.

**Proof sketch.** Induction on `k`. The first `k` numbers lie in a segment `b`, the next one in a
segment `c`. If `c` is not `b`, then `b` ends right where `c` starts, so the two touch. -/
lemma exists_of_run (hs : bs.Pairwise Apart) (hk : 0 < k)
    (hc : ∀ j < k, Covered bs (i + j)) : ∃ b ∈ bs, b.start ≤ i ∧ i + k ≤ b.start + b.size := by
  induction k with
  | zero => omega
  | succ k ih =>
    rcases eq_zero_or_pos k with rfl | hk'
    · obtain ⟨b, hb, h1, h2⟩ := hc 0 (by omega)
      exact ⟨b, hb, by omega, by omega⟩
    · obtain ⟨b, hb, h1, h2⟩ := ih hk' fun j hj => hc j (by omega)
      obtain ⟨c, hcb, h3, h4⟩ := hc k (by omega)
      rcases eq_or_rel hs hb hcb with rfl | h | h
      · exact ⟨b, hb, h1, by omega⟩
      · omega
      · omega

/-! ## Counting the segments that contain a number -/

/-- 1 for the elements of a segment, 0 for the other numbers. -/
def hit (b : Seg) (x : ℕ) : ℕ := if b.start ≤ x ∧ x < b.start + b.size then 1 else 0

/-- How many segments of a list contain a number. -/
def cov (bs : List Seg) (x : ℕ) : ℕ := (bs.map fun b => b.hit x).sum

variable {c : Seg} {x : ℕ}

@[simp] lemma cov_nil : cov [] x = 0 := rfl

@[simp] lemma cov_cons : cov (b :: bs) x = b.hit x + cov bs x := by simp [cov]

@[simp] lemma cov_append : cov (bs ++ cs) x = cov bs x + cov cs x := by simp [cov]

lemma cov_perm (h : bs.Perm cs) (x : ℕ) : cov bs x = cov cs x := (h.map _).sum_nat

lemma hit_of_contains (h : b.Contains x) : b.hit x = 1 := if_pos h

lemma hit_join (a n m x : ℕ) : hit ⟨a, n⟩ x + hit ⟨a + n, m⟩ x = hit ⟨a, n + m⟩ x := by
  unfold hit
  dsimp only
  split_ifs <;> omega

lemma cov_erase (hb : b ∈ bs) (x : ℕ) : b.hit x + cov (bs.erase b) x = cov bs x := by
  rw [← cov_cons]
  exact cov_perm (perm_cons_erase hb).symm x

lemma cov_pos (hb : b ∈ bs) (hx : b.Contains x) : 1 ≤ cov bs x := by
  rw [← cov_erase hb, hit_of_contains hx]
  omega

lemma sum_cov {n : ℕ} (h : ∀ b ∈ bs, b.start + b.size ≤ n) :
    ∑ x ∈ Finset.range n, cov bs x = total bs := by
  induction bs with
  | nil => simp
  | cons b bs ih =>
    have hb := h b mem_cons_self
    have hhit : (Finset.range n).filter b.Contains = Finset.Ico b.start (b.start + b.size) := by
      ext x
      simp only [Contains, Finset.mem_filter, Finset.mem_range, Finset.mem_Ico]
      omega
    simp only [cov_cons, total_cons, Finset.sum_add_distrib,
      ih fun c hc => h c (List.mem_cons_of_mem _ hc)]
    have e : ∑ x ∈ Finset.range n, b.hit x = _ := (card_filter b.Contains (Finset.range n)).symm
    rw [e, hhit, Nat.card_Ico, Nat.add_sub_cancel_left]

/-- The total can be counted number by number. -/
lemma total_eq (h : ∀ x, cov bs x = cov cs x) : total bs = total cs := by
  have hle : ∀ b ∈ bs ++ cs, b.start + b.size ≤ ((bs ++ cs).map fun b => b.start + b.size).sum :=
    fun b hb => single_le_sum (fun _ _ => Nat.zero_le _) _ (mem_map_of_mem hb)
  rw [← sum_cov fun b hb => hle b (mem_append_left _ hb),
    ← sum_cov fun b hb => hle b (mem_append_right _ hb)]
  exact sum_congr rfl fun x _ => h x

/-- Where a number belongs in a list in order. -/
lemma exists_split (hs : bs.Pairwise Before) (hb : b.start < x) :
    ∃ as c ds, b :: bs = as ++ c :: ds ∧ (∀ a ∈ as, a.start < x) ∧ c.start < x ∧
      ∀ d ∈ ds.head?, x ≤ d.start := by
  induction bs generalizing b with
  | nil => exact ⟨[], b, [], rfl, by simp, hb, by simp⟩
  | cons d bs ih =>
    by_cases hd : d.start < x
    · obtain ⟨as, c, ds, h1, h2, h3, h4⟩ := ih (pairwise_cons.mp hs).2 hd
      refine ⟨b :: as, c, ds, by rw [h1, cons_append], ?_, h3, h4⟩
      intro a ha
      rcases mem_cons.mp ha with rfl | ha
      · exact hb
      · exact h2 a ha
    · refine ⟨[], b, d :: bs, rfl, by simp, hb, ?_⟩
      intro e he
      cases he
      exact Nat.le_of_not_lt hd

lemma end_le (hc : 0 < c.size) (h : b.start < c.start)
    (hx : ¬(b.Contains c.start ∧ c.Contains c.start)) : b.start + b.size ≤ c.start := by
  by_contra hn
  exact hx ⟨⟨by omega, by omega⟩, ⟨by omega, by omega⟩⟩

end Seg
