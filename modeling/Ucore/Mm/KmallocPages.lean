import Ucore.Mm.DefaultPmmRun
import Ucore.Mm.Kmalloc

set_option autoImplicit false

/-!
# The pages of `kmalloc`

`alloc_pages` and `free_pages` call `default_pmm`. While its free list is well formed, and as long
as no free goes behind the last free block, it is a page allocator as `kmalloc` needs it.

## Main definitions

* `Slob.PageRegion` — the pages that `default_pmm` manages, and where they lie.
* `Slob.defaultPages` — `default_pmm` as the page allocator of `kmalloc`.
-/

namespace Ucore.Slob

variable {lo n fuel k p : ℕ} {a : PmmRun}

/-- The pages that `default_pmm` manages, the address of page 0 and the one of `arena`. -/
structure PageRegion where
  lo : ℕ
  n : ℕ
  base : ℕ
  arena : ℕ
  small : n < uintRange
  base_aligned : pageSize ∣ base
  above : arena + slobUnit < base + lo * pageSize

/-- `alloc_pages`; the pages are noted as handed out. -/
def allocPages (fuel k : ℕ) (a : PmmRun) : Option (Option ℕ × PmmRun) :=
  match defaultAllocPages fuel k a.pmm with
  | .ok (some p, s) => some (some p, ⟨s, a.out ∪ pageRange p k⟩)
  | .ok (none, s) => some (none, ⟨s, a.out⟩)
  | .error _ => none

/-- `free_pages` -/
def freePages (fuel p k : ℕ) (a : PmmRun) : Option PmmRun := (pmmStep fuel a (.free p k)).toOption

/-- The pages of the region that are not handed out. -/
def freeSet (lo n : ℕ) (a : PmmRun) : Set ℕ := Set.Ico lo (lo + n) \ a.out

/-- **`alloc_pages` on a well-formed free list.** -/
lemma allocPages_spec (h : WellFormed lo n a) (hu : n < uintRange) (hf : n < fuel) (hk : 0 < k) :
    allocPages fuel k a = some (none, a) ∨
    ∃ p a', allocPages fuel k a = some (some p, a') ∧ WellFormed lo n a' ∧
      Set.Ico p (p + k) ⊆ freeSet lo n a ∧
      freeSet lo n a' = freeSet lo n a \ Set.Ico p (p + k) := by
  obtain ⟨bs, h⟩ := h
  rcases defaultAllocPages_spec h hu hf hk with ⟨e, -⟩ | ⟨b, hb, hkb, s, bs', e, h'⟩
  · left
    rw [allocPages, e]
  · right
    refine ⟨b.start, ⟨s, a.out ∪ pageRange b.start k⟩, by rw [allocPages, e], ⟨bs', h'⟩,
      fun i hi => ?_, Set.sdiff_sdiff.symm⟩
    have hb' := h.bounds b hb
    rw [Set.mem_Ico] at hi
    exact ⟨⟨by omega, by omega⟩, h.notMem_of_contains hb ⟨hi.1, by omega⟩⟩

/-- **`free_pages` on a well-formed free list**, not behind the last free block. -/
lemma freePages_spec (h : WellFormed lo n a) (hu : n < uintRange) (hf : n + 1 < fuel) (hk : 0 < k)
    (hp : Set.Ico p (p + k) ⊆ Set.Ico lo (lo + n) \ freeSet lo n a)
    (hlast : BelowLastFree lo n a (.free p k)) :
    ∃ a', freePages fuel p k a = some a' ∧ WellFormed lo n a' ∧
      freeSet lo n a' = freeSet lo n a ∪ Set.Ico p (p + k) := by
  have hop : (PmmOp.free p k).Legit a := by
    refine ⟨hk, fun i hi => ?_⟩
    by_contra hno
    exact (hp hi).2 ⟨(hp hi).1, hno⟩
  obtain ⟨a', e, hiff⟩ := pmmStep_wellFormed_iff h hu hf hop
  refine ⟨a', by rw [freePages, e]; rfl, hiff.mpr hlast, ?_⟩
  have hout' : a'.out = a.out \ Set.Ico p (p + k) := by
    rw [pmmStep] at e
    cases hr : defaultFreePages fuel p k a.pmm with
    | ok r =>
      rw [hr] at e
      cases e
      rfl
    | error _ =>
      rw [hr] at e
      cases e
  rw [freeSet, hout', Set.sdiff_sdiff_right, Set.inter_eq_right.mpr fun i hi => (hp hi).1]
  rfl

/-- **`default_pmm` under `kmalloc`.** -/
def defaultPages (r : PageRegion) : PageAllocator PmmRun where
  Good := WellFormed r.lo r.n
  free := freeSet r.lo r.n
  alloc := allocPages (r.n + 2)
  release := freePages (r.n + 2)
  CanRelease p k a := BelowLastFree r.lo r.n a (.free p k)
  first := r.lo
  npage := r.lo + r.n
  base := r.base
  arena := r.arena
  base_aligned := r.base_aligned
  above := r.above
  free_subset _ := Set.sdiff_subset
  alloc_spec _ _ h hk := allocPages_spec h r.small (by omega) hk
  release_spec _ _ _ h hk hp hlast := freePages_spec h r.small (by omega) hk hp hlast

end Ucore.Slob
