import Ucore.Mm.DefaultPmmInv

set_option autoImplicit false

/-!
# Runs of the first-fit allocator

Every sequence of allocations and frees on one memory region, each freed range being allocated.

## Main definitions

* `PmmRun` — the allocator's state with the pages handed out and not yet freed;
  `pmmStep` — one call.
* `BelowLastFree` — a free does not go behind the last free block.

## Main results

* `defaultAllocPages_spec` — what an allocation returns.
* `first_fit_invariant_iff_below_last_free` — the free list stays well formed exactly as
  long as no free goes behind the last free block.
* `first_fit_invariant_broken_by_free_at_tail` — a run of four calls that breaks it.
-/

namespace Ucore

open Comp List

/-- The allocator's state and the pages that are handed out and not yet freed. -/
structure PmmRun where
  pmm : Pmm
  out : Set ℕ

/-- The pages `[base, base + n)`. -/
def pageRange (base n : ℕ) : Set ℕ := {i | base ≤ i ∧ i < base + n}

/-- What callers owe the allocator: requests are not empty, and a freed range is allocated. -/
def PmmOp.Legit (st : PmmRun) : PmmOp → Prop
  | .alloc n => 0 < n
  | .free base n => 0 < n ∧ pageRange base n ⊆ st.out

/-- One call. -/
def pmmStep (fuel : ℕ) (st : PmmRun) : PmmOp → Except PmmPanic PmmRun
  | .alloc n =>
    match defaultAllocPages fuel n st.pmm with
    | .ok (some p, s) => .ok ⟨s, st.out ∪ pageRange p n⟩
    | .ok (none, s) => .ok ⟨s, st.out⟩
    | .error e => .error e
  | .free base n =>
    match defaultFreePages fuel base n st.pmm with
    | .ok (_, s) => .ok ⟨s, st.out \ pageRange base n⟩
    | .error e => .error e

/-- A call that does not free behind the last free block: the free list is empty or the head of
some free block lies above the freed range. -/
def BelowLastFree (lo n : ℕ) (st : PmmRun) : PmmOp → Prop
  | .alloc _ => True
  | .free base _ => listEmpty st.pmm.links .head = true ∨
      ∃ i, base < i ∧ lo ≤ i ∧ i < lo + n ∧ (st.pmm.pages i).pgProperty = true

/-- `default_init` followed by `default_init_memmap` of the region `[lo, lo + n)`. -/
def defaultBoot (fuel lo n : ℕ) : Comp PmmPanic Pmm Unit := do
  Comp.modify defaultInit
  defaultInitMemmap fuel lo n

/-- The states reached from a freshly initialised region by calls that keep their obligations and
satisfy `C`. -/
def PmmReach (C : PmmRun → PmmOp → Prop) (fuel lo n : ℕ) (s₀ : Pmm) (st : PmmRun) : Prop :=
  ∃ s, defaultBoot fuel lo n s₀ = .ok ((), s) ∧
    Relation.ReflTransGen
      (fun st st' => ∃ op : PmmOp, op.Legit st ∧ C st op ∧ pmmStep fuel st op = .ok st') ⟨s, ∅⟩ st

/-- The free list of a state of a run is well formed. -/
def WellFormed (lo n : ℕ) (st : PmmRun) : Prop := ∃ bs, FirstFit lo n st.pmm st.out bs

section Steps

variable {lo n fuel k : ℕ} {s : Pmm} {A : Set ℕ} {bs : List Seg} {st : PmmRun}

/-- The initialised region is one free block. -/
lemma defaultBoot_firstFit (fuel : ℕ) (s₀ : Pmm) (hn : 0 < n) (hu : n < uintRange)
    (hres : ∀ i, lo ≤ i → i < lo + n → (s₀.pages i).pgReserved = true) :
    ∃ s, defaultBoot fuel lo n s₀ = .ok ((), s) ∧ FirstFit lo n s ∅ [⟨lo, n⟩] := by
  have hloop := Links.ring_loop s₀.links PageLink.head
  have he : listEmpty (listInit s₀.links .head) .head = true := (listEmpty_iff hloop).mpr rfl
  have hring : (listAdd (listInit s₀.links .head) .head (.page lo)).Ring .head [.page lo] :=
    @ring_listAdd _ _ _ _ _ [] [] hloop (by simp)
  have hpages := forPages_apply (·.pgReserved) .notReserved
    (fun _ => { ref := 0, pgReserved := false, pgProperty := false, property := 0 }) lo n
    (defaultInit s₀) hres
  refine ⟨{ links := listAdd (listInit s₀.links .head) .head (.page lo),
            pages := fun i => if i = lo then ⟨0, false, true, n⟩
              else if lo ≤ i ∧ i < lo + n then ⟨0, false, false, 0⟩ else s₀.pages i,
            nrFree := n }, ?_, ?_⟩
  · rw [defaultBoot, modify_bind_apply, defaultInitMemmap, ensure_bind_apply,
      if_pos hn, bind_of_ok hpages]
    simp only [modify_bind_apply, insertBlock, read_bind_apply, Pmm.modPage,
      defaultInit, he, if_true, modify_apply, zero_add, Nat.mod_eq_of_lt hu]
    congr 3
    funext i
    by_cases hi : i = lo
    · simp [hi, setPageProperty, hn]
    · simp [hi]
  · refine ⟨⟨hring, pairwise_singleton _ _, ?_, ?_, ?_, ?_, ?_, ?_⟩,
      pairwise_singleton _ _⟩
    · simpa using hn
    · simp
    · intro i h1 h2
      by_cases hi : i = lo
      · simp [hi]
      · simp [hi, h1, h2, Ne.symm hi]
    · intro i h1 h2
      by_cases hi : i = lo
      · simp [hi]
      · simp [hi, h1, h2]
    · simp
    · intro i
      simpa [Seg.Contains] using And.intro

/-- **What an allocation returns** on a well-formed free list: the first `k` pages of a free
block, or `NULL` if no block has `k` pages. The free list stays well formed.

**Proof sketch.** If `nr_free < k` no block can have `k` pages. Otherwise the search loop gives the
first block that does (`findLoop_spec`), and `FirstFit.takeBlock` describes the new list. -/
lemma defaultAllocPages_spec (h : FirstFit lo n s A bs) (hu : n < uintRange) (hf : n < fuel)
    (hk : 0 < k) :
    (defaultAllocPages fuel k s = .ok (none, s) ∧ ∀ b ∈ bs, b.size < k) ∨
    ∃ b ∈ bs, k ≤ b.size ∧ ∃ s' bs', defaultAllocPages fuel k s = .ok (some b.start, s') ∧
      FirstFit lo n s' (A ∪ pageRange b.start k) bs' := by
  have hfind := findLoop_spec (k := k) bs [] fuel (by simpa using h.ring) h.size
    (lt_of_le_of_lt h.length_le hf)
  simp only [map_nil, getLastD_nil] at hfind
  by_cases hnr : s.nrFree < k
  · left
    refine ⟨by simp [defaultAllocPages, hk, hnr], fun b hb => ?_⟩
    have := Seg.size_le_total hb
    rw [h.count] at hnr
    omega
  · cases hb : bs.find? fun b => k ≤ b.size with
    | none =>
      left
      rw [hb] at hfind
      refine ⟨by simp [defaultAllocPages, hk, hnr, hfind], fun b hbs => ?_⟩
      simpa using List.find?_eq_none.mp hb b hbs
    | some b =>
      right
      rw [hb] at hfind
      have hkb : k ≤ b.size := by simpa using List.find?_some hb
      have hmem := mem_of_find?_eq_some hb
      obtain ⟨pre, post, rfl⟩ := append_of_mem hmem
      refine ⟨b, hmem, hkb, takeBlock s b.start k, _, ?_, h.takeBlock hu hk hkb⟩
      simp [defaultAllocPages, hk, hnr, hfind]

lemma FirstFit.exists_block (h : FirstFit lo n s A bs) (hk : 0 < k) {p : ℕ}
    (hp : ∀ i ∈ pageRange p k, lo ≤ i ∧ i < lo + n ∧ i ∉ A) : ∃ b ∈ bs, k ≤ b.size := by
  obtain ⟨b, hb, h1, h2⟩ := Seg.exists_of_run (i := p) h.apart hk fun j hj => by
    obtain ⟨h1, h2, h3⟩ := hp (p + j) ⟨by omega, by omega⟩
    by_contra hc
    exact h3 ((h.alloc _).mpr ⟨h1, h2, hc⟩)
  exact ⟨b, hb, by omega⟩

/-- In a well-formed free list a block head never points back to itself. -/
lemma FirstFit.prev_ne (h : FirstFit lo n s A bs) {i : ℕ} (h1 : lo ≤ i) (h2 : i < lo + n)
    (hp : (s.pages i).pgProperty = true) : s.links.prev (.page i) ≠ .page i := by
  have hmem := (link_mem_map bs i).mpr ((h.flag i h1 h2).mp hp)
  obtain ⟨xs, ys, e⟩ := append_of_mem hmem
  have r := h.ring
  rw [e] at r
  rw [r.neighbours.1]
  intro hlast
  have hnd := r.nodup
  rcases eq_nil_or_concat xs with rfl | ⟨zs, z, rfl⟩
  · simp at hlast
  · have hz : z = .page i := by simpa using hlast
    subst hz
    simp [nodup_append] at hnd

/-- The condition on a free, in terms of the blocks. -/
lemma belowLastFree_iff (h : FirstFit lo n st.pmm st.out bs) (base m : ℕ) :
    BelowLastFree lo n st (.free base m) ↔ bs = [] ∨ ∃ b ∈ bs, base < b.start := by
  rw [BelowLastFree, listEmpty_iff h.ring, map_eq_nil_iff]
  refine or_congr_right ⟨?_, ?_⟩
  · rintro ⟨i, h1, h2, h3, h4⟩
    obtain ⟨b, hb, rfl⟩ := (h.flag i h2 h3).mp h4
    exact ⟨b, hb, h1⟩
  · rintro ⟨b, hb, h1⟩
    have hb' := h.bounds b hb
    exact ⟨b.start, h1, hb'.2.1, by omega, (h.flag _ hb'.2.1 (by omega)).mpr ⟨b, hb, rfl⟩⟩

/-- **One call** on a well-formed free list returns, and leaves a well-formed free list iff it does
not free behind the last free block. -/
lemma pmmStep_wellFormed_iff (h : WellFormed lo n st) (hu : n < uintRange) (hf : n + 1 < fuel)
    {op : PmmOp} (hop : op.Legit st) :
    ∃ st', pmmStep fuel st op = .ok st' ∧ (WellFormed lo n st' ↔ BelowLastFree lo n st op) := by
  obtain ⟨bs, h⟩ := h
  cases op with
  | alloc k =>
    rcases defaultAllocPages_spec h hu (Nat.lt_of_succ_lt hf) hop
      with ⟨e, -⟩ | ⟨b, -, -, s', bs', e, h'⟩
    · exact ⟨⟨st.pmm, st.out⟩, by simp [pmmStep, e], by simpa [BelowLastFree] using ⟨bs, h⟩⟩
    · exact ⟨⟨s', _⟩, by simp only [pmmStep, e]; rfl, by simpa [BelowLastFree] using ⟨bs', h'⟩⟩
  | free base k =>
    obtain ⟨hk, hout⟩ := hop
    have hA : ∀ i, base ≤ i → i < base + k → i ∈ st.out := fun i h1 h2 => hout ⟨h1, h2⟩
    by_cases hc : BelowLastFree lo n st (.free base k)
    · obtain ⟨s', bs', e, h'⟩ := h.freePages hu (Nat.lt_of_succ_lt hf) hk hA
        ((belowLastFree_iff h _ k).mp hc)
      exact ⟨⟨s', _⟩, by simp only [pmmStep, e]; rfl, iff_of_true ⟨bs', h'⟩ hc⟩
    · have hc' := hc
      rw [belowLastFree_iff h] at hc'
      push Not at hc'
      have hbase := hA base le_rfl (by omega)
      have htail : ∀ b ∈ bs, b.start < base := by
        intro b hb
        refine lt_of_le_of_ne (hc'.2 b hb) ?_
        rintro rfl
        exact h.notMem_of_contains hb ⟨le_rfl, by have := (h.bounds b hb).1; omega⟩ hbase
      obtain ⟨s', e, hprev, hprop⟩ := freePages_tail h hu hf hk hA hc'.1 htail
      refine ⟨⟨s', _⟩, by simp only [pmmStep, e]; rfl, iff_of_false ?_ hc⟩
      rintro ⟨bs', h'⟩
      have hreg := (h.alloc _).mp hbase
      exact h'.prev_ne hreg.1 hreg.2.1 hprop hprev

/-- Along a run whose frees stay below the last free block the free list is well formed. -/
lemma PmmReach.wellFormed {s₀ : Pmm} (hn : 0 < n) (hu : n < uintRange) (hf : n + 1 < fuel)
    (hres : ∀ i, lo ≤ i → i < lo + n → (s₀.pages i).pgReserved = true)
    (h : PmmReach (BelowLastFree lo n) fuel lo n s₀ st) : WellFormed lo n st := by
  obtain ⟨s, hs, hrun⟩ := h
  induction hrun with
  | refl =>
    obtain ⟨s', hs', h'⟩ := defaultBoot_firstFit fuel s₀ hn hu hres
    rw [hs] at hs'
    cases hs'
    exact ⟨_, h'⟩
  | tail _ hstep ih =>
    obtain ⟨op, hop, hc, e⟩ := hstep
    obtain ⟨st', e', hiff⟩ := pmmStep_wellFormed_iff ih hu hf hop
    rw [e] at e'
    cases e'
    exact hiff.mpr hc

end Steps

/-- **The first-fit invariant.** After `default_init_memmap` of a region of reserved pages, in every
state reached by calls none of which frees behind the last free block:

* the free list is well formed;
* every allocation returns; the pages it hands out are free pages of the region, and it returns
  `NULL` only if no `k` contiguous pages of the region are free;
* every next call returns, and the free list is well formed afterwards exactly if that call does
  not free behind the last free block either. -/
theorem first_fit_invariant_iff_below_last_free (lo n fuel : ℕ) (s₀ : Pmm) (hn : 0 < n)
    (hu : n < uintRange) (hf : n + 1 < fuel)
    (hres : ∀ i, lo ≤ i → i < lo + n → (s₀.pages i).pgReserved = true) :
    (∃ s, defaultBoot fuel lo n s₀ = .ok ((), s)) ∧
    ∀ st, PmmReach (BelowLastFree lo n) fuel lo n s₀ st →
      WellFormed lo n st ∧
      (∀ k, 0 < k → ∃ r s', defaultAllocPages fuel k st.pmm = .ok (r, s') ∧
        (∀ p, r = some p → ∀ i ∈ pageRange p k, lo ≤ i ∧ i < lo + n ∧ i ∉ st.out) ∧
        (r = none → ¬∃ p, ∀ i ∈ pageRange p k, lo ≤ i ∧ i < lo + n ∧ i ∉ st.out)) ∧
      ∀ op : PmmOp, op.Legit st → ∃ st', pmmStep fuel st op = .ok st' ∧
        (WellFormed lo n st' ↔ BelowLastFree lo n st op) := by
  refine ⟨?_, fun st hst => ?_⟩
  · obtain ⟨s, hs, -⟩ := defaultBoot_firstFit fuel s₀ hn hu hres
    exact ⟨s, hs⟩
  have hwf := hst.wellFormed hn hu hf hres
  refine ⟨hwf, fun k hk => ?_, fun op hop => pmmStep_wellFormed_iff hwf hu hf hop⟩
  obtain ⟨bs, h⟩ := hwf
  rcases defaultAllocPages_spec h hu (Nat.lt_of_succ_lt hf) hk with
    ⟨e, hnone⟩ | ⟨b, hb, hkb, s', bs', e, -⟩
  · refine ⟨none, st.pmm, e, by simp, fun _ hex => ?_⟩
    obtain ⟨p, hp⟩ := hex
    obtain ⟨b, hb, hkb⟩ := h.exists_block hk hp
    exact absurd (hnone b hb) (by omega)
  · refine ⟨some b.start, s', e, ?_, by simp⟩
    rintro p ⟨⟩ i ⟨h1, h2⟩
    have hb' := h.bounds b hb
    exact ⟨by omega, by omega, h.notMem_of_contains hb ⟨h1, by omega⟩⟩

/-- Reserved descriptors, as `page_init` leaves them. -/
def reservedPages : Pmm where
  links := ⟨fun x => x, fun x => x⟩
  pages := fun _ => ⟨0, true, false, 0⟩
  nrFree := 0

/-- A page of two is allocated and freed. -/
theorem first_fit_invariant_two_pages :
    ∃ st st', PmmReach (BelowLastFree 0 2) 4 0 2 reservedPages st ∧ st.out = pageRange 0 1 ∧
      pmmStep 4 st (.free 0 1) = .ok st' ∧ WellFormed 0 2 st' := by
  obtain ⟨st, hst, hout, hc⟩ : ∃ st, PmmReach (BelowLastFree 0 2) 4 0 2 reservedPages st ∧
      st.out = pageRange 0 1 ∧ BelowLastFree 0 2 st (.free 0 1) :=
    ⟨_, ⟨_, rfl, .single ⟨.alloc 1, one_pos, trivial, rfl⟩⟩, Set.empty_union _,
      .inr ⟨1, by decide, by decide, by decide, rfl⟩⟩
  obtain ⟨-, h⟩ := first_fit_invariant_iff_below_last_free 0 2 4 reservedPages (by decide)
    (by decide) (by decide) fun _ _ _ => rfl
  obtain ⟨st', e, hiff⟩ := (h st hst).2.2 (.free 0 1) ⟨one_pos, hout.ge⟩
  exact ⟨st, st', hst, hout, e, hiff.mpr hc⟩

/-- **Freeing at the tail damages the list.** On a region of two pages: allocate a page, allocate
the other, free page 0, free page 1. Afterwards the `prev` pointer of page 1 is page 1 itself and
the free list is not well formed. -/
theorem first_fit_invariant_broken_by_free_at_tail :
    ∃ st, PmmReach (fun _ _ => True) 4 0 2 reservedPages st ∧
      st.pmm.links.prev (.page 1) = .page 1 ∧ ¬WellFormed 0 2 st := by
  refine ⟨_, ⟨_, rfl, ((((Relation.ReflTransGen.refl.tail
    ⟨.alloc 1, one_pos, trivial, rfl⟩).tail
    ⟨.alloc 1, one_pos, trivial, rfl⟩).tail
    ⟨.free 0 1, ⟨one_pos, fun _ h => Or.inl (Or.inr h)⟩, trivial, rfl⟩).tail
    ⟨.free 1 1, ⟨one_pos, fun _ h => ?_⟩, trivial, rfl⟩)⟩, rfl, ?_⟩
  · refine ⟨.inr h, fun h' => ?_⟩
    have h1 := h.1
    have h2 := h'.2
    omega
  · rintro ⟨bs, h⟩
    exact h.prev_ne (Nat.zero_le 1) (by decide) rfl rfl

end Ucore
