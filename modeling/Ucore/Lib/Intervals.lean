import Mathlib

set_option autoImplicit false

/-!
# Lists of half-open intervals

Lists of objects that each occupy a half-open interval `[lo a, hi a)`, in increasing order and
without overlaps.

## Main definitions

* `Intervals` — the intervals are not empty, in order, and disjoint.
* `Intervals.At` — the object `a` occupies the point `x`.

## Main results

* `Intervals.unique` — at most one object occupies a point.
* `Intervals.insert` — an object is put where it belongs.
* `Intervals.forall_iff` — what holds of all points from `x` on, in terms of the object at `x` and
  of the points behind it.
-/

variable {ι τ : Type} [LinearOrder τ]

/-- **Disjoint intervals in order.** -/
structure Intervals (lo hi : ι → τ) (l : List ι) : Prop where
  proper : ∀ a ∈ l, lo a < hi a
  ordered : l.Pairwise fun a b => hi a ≤ lo b

namespace Intervals

open List

/-- The object `a` occupies the point `x`. -/
def At (lo hi : ι → τ) (x : τ) (a : ι) : Prop := lo a ≤ x ∧ x < hi a

instance (lo hi : ι → τ) (x : τ) : DecidablePred (At lo hi x) :=
  fun _ => inferInstanceAs (Decidable (_ ∧ _))

variable {lo hi : ι → τ} {l : List ι} {a b c : ι} {x y : τ}

lemma nil : Intervals lo hi ([] : List ι) := ⟨fun _ h => absurd h not_mem_nil, Pairwise.nil⟩

/-- Of two objects, one ends before the other starts. -/
lemma apart (h : Intervals lo hi l) (ha : a ∈ l) (hb : b ∈ l) :
    a = b ∨ hi a ≤ lo b ∨ hi b ≤ lo a := by
  obtain ⟨-, hord⟩ := h
  induction hord with
  | nil => exact absurd ha not_mem_nil
  | cons hc _ ih =>
    rcases mem_cons.mp ha with rfl | ha' <;> rcases mem_cons.mp hb with rfl | hb'
    · exact .inl rfl
    · exact .inr (.inl (hc b hb'))
    · exact .inr (.inr (hc a ha'))
    · exact ih ha' hb'

lemma unique (h : Intervals lo hi l) (ha : a ∈ l) (hb : b ∈ l) (hxa : At lo hi x a)
    (hxb : At lo hi x b) : a = b := by
  rcases h.apart ha hb with e | e | e
  · exact e
  · exact absurd (hxa.2.trans_le (e.trans hxb.1)) (lt_irrefl x)
  · exact absurd (hxb.2.trans_le (e.trans hxa.1)) (lt_irrefl x)

/-- **Searching** the list for the object at a point. -/
lemma find_eq_some (h : Intervals lo hi l) :
    l.find? (fun a => decide (At lo hi x a)) = some a ↔ a ∈ l ∧ At lo hi x a := by
  constructor
  · intro e
    exact ⟨mem_of_find?_eq_some e, by simpa using List.find?_some e⟩
  · rintro ⟨ha, hx⟩
    cases e : l.find? (fun a => decide (At lo hi x a)) with
    | none =>
      rw [List.find?_eq_none] at e
      exact absurd (decide_eq_true hx) (e a ha)
    | some b =>
      have hb : At lo hi x b := by simpa using List.find?_some e
      rw [h.unique (mem_of_find?_eq_some e) ha hb hx]

lemma lo_le_of_mem_takeWhile (hb : b ∈ l.takeWhile fun a => decide (lo a ≤ x)) : lo b ≤ x := by
  simpa using mem_takeWhile_imp hb

/-- The others come after them. -/
lemma lt_lo_of_mem_dropWhile (h : Intervals lo hi l)
    (hb : b ∈ l.dropWhile fun a => decide (lo a ≤ x)) : x < lo b := by
  obtain ⟨hp, hord⟩ := h
  induction hord with
  | nil => exact absurd hb not_mem_nil
  | @cons c l hc _ ih =>
    by_cases hx : lo c ≤ x
    · rw [dropWhile_cons_of_pos (by simpa using hx)] at hb
      exact ih hb fun a ha => hp a (mem_cons_of_mem c ha)
    · rw [dropWhile_cons_of_neg (by simpa using hx)] at hb
      rw [not_le] at hx
      rcases mem_cons.mp hb with rfl | hb'
      · exact hx
      · exact hx.trans ((hp c mem_cons_self).trans_le (hc b hb'))

/-- **An object is put between those that end before it starts and those that start after it
ends.** -/
lemma insert {l' : List ι} (h : Intervals lo hi (l ++ l')) (hc : lo c < hi c)
    (hl : ∀ a ∈ l, hi a ≤ lo c) (hr : ∀ a ∈ l', hi c ≤ lo a) : Intervals lo hi (l ++ c :: l') := by
  obtain ⟨hp, hord⟩ := h
  obtain ⟨h1, h2, h3⟩ := pairwise_append.mp hord
  refine ⟨fun a ha => ?_, pairwise_append.mpr ⟨h1, pairwise_cons.mpr ⟨hr, h2⟩, ?_⟩⟩
  · rcases mem_append.mp ha with ha | ha
    · exact hp a (mem_append_left l' ha)
    · rcases mem_cons.mp ha with rfl | ha
      · exact hc
      · exact hp a (mem_append_right l ha)
  · intro a ha b hb
    rcases mem_cons.mp hb with rfl | hb
    · exact hl a ha
    · exact h3 a ha b hb

/-- **Going on behind an object.** A property `P` of objects and points that, at the points of `c`
from `x` on, follows from its truth at `x`: it holds at all points of `[x, y)` iff it holds at `x`
and from the end of `c` on. -/
lemma forall_iff {P : ι → τ → Prop} (h : Intervals lo hi l) (hc : c ∈ l) (hx : At lo hi x c)
    (hxy : x < y) (hP : ∀ z, x ≤ z → z < hi c → P c x → P c z) :
    (∀ z, x ≤ z → z < y → ∃ a ∈ l, At lo hi z a ∧ P a z) ↔
      P c x ∧ ∀ z, hi c ≤ z → z < y → ∃ a ∈ l, At lo hi z a ∧ P a z := by
  constructor
  · intro hall
    refine ⟨?_, fun z hz => hall z (hx.2.le.trans hz)⟩
    obtain ⟨a, ha, hxa, hPa⟩ := hall x le_rfl hxy
    rwa [h.unique hc ha hx hxa]
  · rintro ⟨hPx, hall⟩ z hz hzy
    rcases lt_or_ge z (hi c) with hlt | hge
    · exact ⟨c, hc, ⟨hx.1.trans hz, hlt⟩, hP z hz hlt hPx⟩
    · exact hall z hge hzy

end Intervals
