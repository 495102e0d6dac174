import Mathlib

set_option autoImplicit false

/-!
# Page descriptors (`kern/mm/memlayout.h`)

The descriptors that all page allocators work on, and the loop over a range of descriptors that
their functions start with.

## Main definitions

* `Page` — a page descriptor.
* `forPages` — check and reset a range of descriptors.

## Main results

* `forPages_ok` — the loop resets its range if all checks pass.
-/

namespace Ucore

open Function

/-- `struct Page`, with the two bits of `flags` that are used. -/
structure Page where
  ref : ℤ
  pgReserved : Bool
  pgProperty : Bool
  property : ℕ
  deriving DecidableEq, Repr

/-- The ways a page allocator function can fail to return. -/
inductive PmmPanic
  /-- `assert(n > 0)` -/
  | zeroPages
  /-- `assert(PageReserved(p))` in `init_memmap` -/
  | notReserved
  /-- `assert(!PageReserved(p) && !PageProperty(p))` in `free_pages` -/
  | notAllocated
  /-- a loop that does not end -/
  | diverges
  /-- a list entry that is not the one of a page -/
  | badLink
  deriving DecidableEq, Repr

/-- The range of `unsigned int`, the type of `property` and `nr_free`. -/
def uintRange : ℕ := 2 ^ 32

/-- `SetPageProperty` -/
def setPageProperty (p : Page) : Page := { p with pgProperty := true }

/-- `ClearPageProperty` -/
def clearPageProperty (p : Page) : Page := { p with pgProperty := false }

/-- `for (; p != base + n; p ++)` of `init_memmap` and `free_pages`: each of `n` descriptors is
checked and then reset. -/
def forPages (ok : Page → Bool) (why : PmmPanic) (reset : Page → Page) (base : ℕ) :
    ℕ → (ℕ → Page) → Except PmmPanic (ℕ → Page)
  | 0, pages => .ok pages
  | n + 1, pages =>
    if ok (pages base) then
      forPages ok why reset (base + 1) n (update pages base (reset (pages base)))
    else .error why

/-- **The loop over descriptors** with all checks passing resets the descriptors of the range.

**Proof sketch.** Induction on `n`: the first descriptor is reset, the others are the range
`[base + 1, base + 1 + n)`. -/
lemma forPages_ok (ok : Page → Bool) (why : PmmPanic) (reset : Page → Page) (base n : ℕ)
    (pages : ℕ → Page) (hok : ∀ i, base ≤ i → i < base + n → ok (pages i) = true) :
    forPages ok why reset base n pages =
      .ok fun i => if base ≤ i ∧ i < base + n then reset (pages i) else pages i := by
  induction n generalizing base pages with
  | zero =>
    rw [forPages]
    congr 1
    funext i
    rw [if_neg (by omega)]
  | succ n ih =>
    rw [forPages, if_pos (hok base (Nat.le_refl _) (by omega)), ih]
    · congr 1
      funext i
      by_cases hi : i = base
      · subst hi
        rw [if_neg (by omega), update_self, if_pos (by omega)]
      · rw [update_of_ne hi]
        by_cases hr : base + 1 ≤ i ∧ i < base + 1 + n
        · rw [if_pos hr, if_pos (by omega)]
        · rw [if_neg hr, if_neg (by omega)]
    · intro i h1 h2
      rw [update_of_ne (by omega)]
      exact hok i (by omega) (by omega)

/-- The calls `alloc_pages(n)` and `free_pages(base, n)` on a physical memory manager. -/
inductive PmmOp
  | alloc (n : ℕ)
  | free (base n : ℕ)
  deriving DecidableEq, Repr

end Ucore
