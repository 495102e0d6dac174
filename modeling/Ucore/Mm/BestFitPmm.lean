import Ucore.Mm.DefaultPmmInv

set_option autoImplicit false

/-!
# The best-fit allocator (`lab2/kern/mm/best_fit_pmm.c`)

`best_fit_alloc_pages` runs through the whole free list, keeps the smallest block that is large
enough, and then does with it what `default_alloc_pages` does with the first one.

## Main definitions

* `bestFitLoop`, `bestFitAllocPages` — the functions.
* `FreeList` — the free list, the flags of its blocks and the counter describe a list of blocks.
* `IsBest` — the best block for a request: the lowest one of those of minimal size.

## Main results

* `best_fit_alloc` — an allocation takes the best block, and fails only if no block is large
  enough.
-/

namespace Ucore

open Comp List

/-- The search of `best_fit_alloc_pages`. The outer option is the loop's fuel, the inner one the
variable `page`. -/
def bestFitLoop (s : Pmm) (n : ℕ) : ℕ → PageLink → Option ℕ → ℕ → Option (Option ℕ)
  | 0, _, _, _ => none
  | fuel + 1, le, page, minSize =>
    match listNext s.links le with
    | .head => some page
    | .page p =>
      if n ≤ (s.pages p).property ∧ (s.pages p).property < minSize then
        bestFitLoop s n fuel (.page p) (some p) (s.pages p).property
      else bestFitLoop s n fuel (.page p) page minSize

/-- `best_fit_alloc_pages`. The statements after the search are those of `default_alloc_pages`. -/
def bestFitAllocPages (fuel n : ℕ) : Comp PmmPanic Pmm (Option ℕ) := do
  Comp.ensure (0 < n) .zeroPages
  let s ← Comp.read
  if s.nrFree < n then
    pure none
  else
    -- `nr_free + 1` is an `unsigned int`
    match bestFitLoop s n fuel .head none ((s.nrFree + 1) % uintRange) with
    | none => Comp.halt .diverges
    | some none => pure none
    | some (some page) => do
      Comp.modify (takeBlock · page n)
      pure (some page)

/-- The free list consists of the blocks `bs`. -/
structure FreeList (s : Pmm) (bs : List Seg) : Prop where
  /-- the list runs through the block heads, in both directions -/
  ring : s.links.Ring .head (bs.map link)
  /-- the blocks are disjoint and in increasing address order -/
  sorted : bs.Pairwise Seg.Before
  pos : ∀ b ∈ bs, 0 < b.size
  /-- `property` of a block head is the block's size -/
  size : ∀ b ∈ bs, (s.pages b.start).property = b.size
  /-- `PG_property` is set on block heads -/
  flag : ∀ b ∈ bs, (s.pages b.start).pgProperty = true
  /-- `nr_free` is the number of free pages -/
  count : s.nrFree = Seg.total bs

/-- `b` is the lowest block among those of minimal size that have `n` pages. -/
def IsBest (n : ℕ) (bs : List Seg) (b : Seg) : Prop :=
  b ∈ bs ∧ n ≤ b.size ∧
    ∀ c ∈ bs, n ≤ c.size → b.size < c.size ∨ b.size = c.size ∧ b.start ≤ c.start

/-- What `page` and `min_size` say when the loop has seen the blocks `bs`. -/
def Seen (n m : ℕ) (bs : List Seg) (minSize : ℕ) : Option ℕ → Prop
  | none => minSize = m ∧ ∀ c ∈ bs, c.size < n
  | some p => ∃ b, b.start = p ∧ b.size = minSize ∧ IsBest n bs b

section Search

variable {s : Pmm} {n m : ℕ} {bs pre : List Seg} {b c : Seg}

lemma IsBest.concat_of_le (h : IsBest n bs b) (hc : c.size < n ∨ b.size ≤ c.size)
    (hbc : b.start ≤ c.start) : IsBest n (bs ++ [c]) b := by
  obtain ⟨h1, h2, h3⟩ := h
  refine ⟨by simp [h1], h2, ?_⟩
  simp only [mem_append, mem_singleton]
  rintro d (hd | rfl) hn
  · exact h3 d hd hn
  · omega

lemma isBest_concat (hc : n ≤ c.size) (h : ∀ d ∈ bs, n ≤ d.size → c.size < d.size) :
    IsBest n (bs ++ [c]) c := by
  refine ⟨by simp, hc, ?_⟩
  simp only [mem_append, mem_singleton]
  rintro d (hd | rfl) hn
  · exact .inl (h d hd hn)
  · exact .inr ⟨rfl, le_rfl⟩

/-- One round of the search. -/
lemma Seen.step {minSize : ℕ} {page : Option ℕ} (h : Seen n m bs minSize page)
    (hm : c.size < m) (hle : ∀ b ∈ bs, b.start ≤ c.start) :
    if n ≤ c.size ∧ c.size < minSize then Seen n m (bs ++ [c]) c.size (some c.start)
    else Seen n m (bs ++ [c]) minSize page := by
  cases page with
  | none =>
    obtain ⟨rfl, hsmall⟩ := h
    split_ifs with hc
    · exact ⟨c, rfl, rfl, isBest_concat hc.1 fun d hd hn => by have := hsmall d hd; omega⟩
    · refine ⟨rfl, ?_⟩
      simp only [mem_append, mem_singleton]
      rintro d (hd | rfl)
      · exact hsmall d hd
      · omega
  | some p =>
    obtain ⟨b, rfl, rfl, hb⟩ := h
    split_ifs with hc
    · exact ⟨c, rfl, rfl, isBest_concat hc.1 fun d hd hn => by have := hb.2.2 d hd hn; omega⟩
    · exact ⟨b, rfl, rfl, hb.concat_of_le (by omega) (hle b hb.1)⟩

/-- **The search** sees every block of the list. The induction is on the blocks `post` still
ahead, the loop standing at the last entry of `pre`. -/
lemma bestFitLoop_spec (post : List Seg) : ∀ (pre : List Seg) (fuel : ℕ) (page : Option ℕ)
    (minSize : ℕ), s.links.Ring .head ((pre ++ post).map link) →
      (pre ++ post).Pairwise Seg.Before →
      (∀ b ∈ post, (s.pages b.start).property = b.size ∧ b.size < m) → post.length < fuel →
      Seen n m pre minSize page →
      ∃ r minSize', bestFitLoop s n fuel ((pre.map link).getLastD .head) page minSize = some r ∧
        Seen n m (pre ++ post) minSize' r := by
  induction post with
  | nil =>
    intro pre fuel page minSize r _ _ hf h
    obtain ⟨fuel, rfl⟩ : ∃ f, fuel = f + 1 := ⟨fuel - 1, by omega⟩
    refine ⟨page, minSize, ?_, by simpa using h⟩
    rw [bestFitLoop, ring_next r]
    simp
  | cons c post ih =>
    intro pre fuel page minSize r hs hsz hf h
    obtain ⟨fuel, rfl⟩ : ∃ f, fuel = f + 1 := ⟨fuel - 1, by omega⟩
    obtain ⟨hc, hm⟩ := hsz c (by simp)
    have hstep := h.step hm fun b hb => by
      have := (pairwise_around hs).2.2.1 b hb
      omega
    have next := fun page minSize => ih (pre ++ [c]) fuel page minSize (by simpa using r)
      (by simpa using hs) (fun b hb => hsz b (by simp [hb])) (by simpa using hf)
    simp only [getLastD_map_concat, link, append_assoc, cons_append,
      nil_append] at next
    rw [bestFitLoop, ring_next r]
    simp only [map_cons, headD_cons, link, hc]
    split_ifs at hstep ⊢ with hif
    · exact next _ _ hstep
    · exact next _ _ hstep

end Search

/-- Taking a block out of a free list puts the rest of it in its place. -/
lemma FreeList.takeBlock {s : Pmm} {n : ℕ} {pre post : List Seg} {b : Seg}
    (h : FreeList s (pre ++ b :: post)) (hu : s.nrFree < uintRange) (hn : 0 < n)
    (hnb : n ≤ b.size) : FreeList (takeBlock s b.start n) (pre ++ rest b n ++ post) := by
  have hsize := h.size b (by simp)
  have hsorted := rest_sorted (k := n) h.sorted
  have hpos : ∀ c ∈ pre ++ rest b n ++ post, 0 < c.size := by
    simp only [mem_append, mem_rest]
    rintro c ((hc | ⟨rfl, hlt⟩) | hc)
    · exact h.pos c (by simp [hc])
    · exact Nat.sub_pos_of_lt hlt
    · exact h.pos c (by simp [hc])
  -- a block of the list is the rest of `b` or an old block, with its old descriptor
  have hpage : ∀ c ∈ pre ++ rest b n ++ post,
      ((Ucore.takeBlock s b.start n).pages c.start).property = c.size ∧
      ((Ucore.takeBlock s b.start n).pages c.start).pgProperty = true := by
    intro c hc
    by_cases hr : c ∈ rest b n
    · obtain ⟨rfl, hlt⟩ := mem_rest.mp hr
      simp [takeBlock_pages hsize hn, hlt, hn.ne']
    · have hold : c ∈ pre ++ post := by
        simp only [mem_append] at hc ⊢
        tauto
      have hmem : c ∈ pre ++ b :: post := by
        simp only [mem_append, mem_cons] at hold ⊢
        tauto
      have h1 : c.start ≠ b.start := by
        have h' : (pre ++ [b] ++ post).Pairwise Seg.Before := by simpa using h.sorted
        exact start_ne_of_sorted h' (fun d hd => h.pos d (by simpa using hd)) hold (by simp)
      have h2 : ¬(c.start = b.start + n ∧ n < b.size) := fun e =>
        start_ne_of_sorted hsorted hpos hold (mem_rest.mpr ⟨rfl, e.2⟩) e.1
      simp [takeBlock_pages hsize hn, h1, h2, h.size c hmem, h.flag c hmem]
  refine ⟨takeBlock_ring h.ring h.sorted h.pos hsize, hsorted, hpos, fun c hc => (hpage c hc).1,
    fun c hc => (hpage c hc).2, ?_⟩
  have hc := h.count
  simp only [Seg.total_append, Seg.total_cons] at hc
  rw [takeBlock_nrFree (by omega) hu]
  simp only [Seg.total_append, total_rest]
  omega

/-- **Best fit.** On a free list of blocks in order an allocation of `n` pages returns. It returns
`NULL`, with nothing changed, exactly if no block has `n` pages. Otherwise it returns the best
block; in the free list the rest of the block stands in its place, `nr_free` has gone down by
`n`, and `PG_property` has moved from the block to the rest. -/
theorem best_fit_alloc (s : Pmm) (bs : List Seg) (n fuel : ℕ) (h : FreeList s bs)
    (hu : s.nrFree < uintRange - 1) (hn : 0 < n) (hf : bs.length < fuel) :
    (bestFitAllocPages fuel n s = .ok (none, s) ↔ ∀ b ∈ bs, b.size < n) ∧
    ((∃ b ∈ bs, n ≤ b.size) → ∃ pre b post s', bs = pre ++ b :: post ∧ IsBest n bs b ∧
      bestFitAllocPages fuel n s = .ok (some b.start, s') ∧
      FreeList s' (pre ++ rest b n ++ post) ∧ s'.nrFree = s.nrFree - n ∧
      ∀ i, s'.pages i =
        if i = b.start then clearPageProperty (s.pages i)
        else if i = b.start + n ∧ n < b.size then
          { s.pages i with property := b.size - n, pgProperty := true }
        else s.pages i) := by
  have hlt : ∀ b ∈ bs, b.size < s.nrFree + 1 := fun b hb => by
    have := Seg.size_le_total hb
    rw [h.count]
    omega
  have hmod : (s.nrFree + 1) % uintRange = s.nrFree + 1 := Nat.mod_eq_of_lt (by omega)
  obtain ⟨r, minSize, hr, hseen⟩ := bestFitLoop_spec (n := n) (m := s.nrFree + 1) bs [] fuel none
    (s.nrFree + 1) (by simpa using h.ring) (by simpa using h.sorted)
    (fun b hb => ⟨h.size b hb, hlt b hb⟩) hf ⟨rfl, by simp⟩
  simp only [map_nil, getLastD_nil, nil_append] at hr hseen
  by_cases hex : ∃ b ∈ bs, n ≤ b.size
  · obtain ⟨c, hc, hnc⟩ := hex
    have hfree : ¬s.nrFree < n := by have := hlt c hc; omega
    cases r with
    | none => exact absurd (hseen.2 c hc) (by omega)
    | some p =>
      obtain ⟨b, rfl, -, hb⟩ := hseen
      have hrun : bestFitAllocPages fuel n s = .ok (some b.start, takeBlock s b.start n) := by
        simp [bestFitAllocPages, hn, hfree, hmod, hr]
      obtain ⟨pre, post, e⟩ := append_of_mem hb.1
      refine ⟨?_, fun _ => ⟨pre, b, post, _, e, hb, hrun, ?_, ?_, ?_⟩⟩
      · rw [hrun]
        simp only [Except.ok.injEq, Prod.mk.injEq, reduceCtorEq, false_and, false_iff]
        intro hall
        exact absurd (hall c hc) (by omega)
      · exact (e ▸ h).takeBlock (by omega) hn hb.2.1
      · exact takeBlock_nrFree (by omega) (by omega)
      · exact takeBlock_pages (h.size b hb.1) hn
  · have hall : ∀ b ∈ bs, b.size < n := by
      push Not at hex
      exact hex
    refine ⟨⟨fun _ => hall, fun _ => ?_⟩, fun h' => absurd h' hex⟩
    by_cases hfree : s.nrFree < n
    · simp [bestFitAllocPages, hn, hfree]
    · cases r with
      | none => simp [bestFitAllocPages, hn, hfree, hmod, hr]
      | some p =>
        obtain ⟨b, -, -, hb⟩ := hseen
        exact absurd (hall b hb.1) (by have := hb.2.1; omega)

/-- The blocks of a free list; the second and the third one have the same size. -/
def fourBlocks : List Seg := [⟨0, 5⟩, ⟨6, 3⟩, ⟨10, 3⟩, ⟨14, 4⟩]

/-- A free list of these blocks. -/
def fourFreeBlocks : Pmm where
  links := fourBlocks.foldr (fun b l => listAdd l .head (.page b.start))
    (listInit ⟨fun x => x, fun x => x⟩ .head)
  pages := fun i => match fourBlocks.find? (·.start = i) with
    | some b => ⟨0, false, true, b.size⟩
    | none => ⟨0, false, false, 0⟩
  nrFree := 15

lemma fourFreeBlocks_freeList : FreeList fourFreeBlocks fourBlocks where
  ring := @ring_listAdd _ _ _ _ _ [] _ (@ring_listAdd _ _ _ _ _ [] _ (@ring_listAdd _ _ _ _ _ [] _
    (@ring_listAdd _ _ _ _ _ [] [] (Links.ring_loop _ _) (by decide)) (by decide)) (by decide))
    (by decide)
  sorted := by
    decide
  pos := by decide
  size := by decide
  flag := by decide
  count := rfl

/-- Two pages are taken from the lower one of the two smallest blocks that have them. -/
theorem best_fit_alloc_tie : ∃ s', bestFitAllocPages 5 2 fourFreeBlocks = .ok (some 6, s') ∧
    FreeList s' [⟨0, 5⟩, ⟨8, 1⟩, ⟨10, 3⟩, ⟨14, 4⟩] := by
  obtain ⟨pre, b, post, s', e, hb, hrun, hlist, -⟩ := (best_fit_alloc fourFreeBlocks fourBlocks 2 5
    fourFreeBlocks_freeList (by decide) (by decide) (by decide)).2 ⟨⟨6, 3⟩, by decide, by decide⟩
  have hbest : b = ⟨6, 3⟩ := by
    have h := hb.2.2 ⟨6, 3⟩ (by decide) (by decide)
    have hmem := hb.1
    simp only [fourBlocks, mem_cons, not_mem_nil, or_false] at hmem
    rcases hmem with rfl | rfl | rfl | rfl
    · exact absurd h (by decide)
    · rfl
    · exact absurd h (by decide)
    · exact absurd h (by decide)
  subst hbest
  rcases pre with _ | ⟨x, _ | ⟨y, pre⟩⟩
  · cases e
  · cases e
    exact ⟨s', hrun, hlist⟩
  · -- the block is not once more in the list
    injection e with _ e
    injection e with _ e
    have hmem : (⟨6, 3⟩ : Seg) ∈ [(⟨10, 3⟩ : Seg), ⟨14, 4⟩] := by
      rw [e]
      exact mem_append_right _ mem_cons_self
    exact absurd hmem (by decide)

end Ucore
