import Ucore.Mm.KmallocRun

set_option autoImplicit false

/-!
# Runs of `slob_alloc` and `slob_free`

The heap of units under the functions of `kmalloc` that use it: any sequence of `slob_alloc` and of
`slob_free` on blocks that are outstanding. In between their owners write to them, and the other
parts of the kernel take pages and return pages of their own.

## Main definitions

* `Slob.SlobRun` — the runs.
* `Slob.UnitHeap` — the invariant in one state.

## Main results

* `Slob.HeapOk.total` — free and other blocks together are `arena` and the pages.
* `Slob.slob_unit_heap` — the invariant holds in all runs.
-/

namespace Ucore.Slob

open Comp List

variable {A : Type} {al : PageAllocator A} {s t : Kmem A} {fl L : List Seg} {out : List Out}

/-- The units of a block that `slob_alloc` has returned. -/
def Out.block (o : Out) : Seg := ⟨o.ptr, slobUnits o.size * slobUnit⟩

/-- `slob_free(o, size)` is called with the size of the block, or with 0 and the units in place. -/
def Releases (s : Kmem A) (o : Out) (size : ℕ) : Prop :=
  size = o.size ∨ size = 0 ∧ s.units o.ptr = slobUnits o.size

/-- **The runs**: the heaps that are reached, with the outstanding blocks. -/
inductive SlobRun (al : PageAllocator A) : Kmem A → List Out → Prop
  | boot {s : Kmem A} : Boot al s → SlobRun al s []
  | alloc {s t : Kmem A} {out : List Out} {size : ℕ} {r : Option ℕ} : SlobRun al s out →
      16 < size → size < 4080 → slobAlloc al size s = .ok (r, t) → SlobRun al t (addOut size out r)
  | free {s t : Kmem A} {out : List Out} {o : Out} {size : ℕ} : SlobRun al s out → o ∈ out →
      Releases s o size → slobFree al o.ptr size s = .ok ((), t) → SlobRun al t (out.erase o)
  | write {s t : Kmem A} {out : List Out} : SlobRun al s out → WriteIn out s t → SlobRun al t out
  | others {s : Kmem A} {out : List Out} {a : A} : SlobRun al s out → Owns al s.taken a →
      SlobRun al { s with alloc := a } out

/-- **The unit heap in one state**: the free blocks `fl` are a ring through `arena` and `slobfree`,
in the order of their addresses, and no two of them touch (`HeapOk`); they have no byte in common
with an outstanding block; free and outstanding units are those of `arena` and of the pages; and
each call returns. -/
structure UnitHeap (al : PageAllocator A) (s : Kmem A) (out : List Out) : Prop where
  heap : ∃ fl, HeapOk al fl (out.map Out.block) s ∧
    (∀ b ∈ fl, ∀ o ∈ out, ∀ x, b.Contains x → ¬o.block.Contains x) ∧
    (fl.map fun b => s.units b.start).sum + (out.map fun o => slobUnits o.size).sum =
      1 + 256 * s.taken.card
  alloc : ∀ size, 16 < size → size < 4080 → ∃ r t, slobAlloc al size s = .ok (r, t)
  free : ∀ o ∈ out, ∀ size, Releases s o size → ∃ t, slobFree al o.ptr size s = .ok ((), t)

/-! ## Counting units -/

lemma cov_pages {l : List ℕ} (hl : l.Nodup) (x : ℕ) : Seg.cov (l.map (pagesSeg al · 1)) x =
    if al.base ≤ x ∧ al.kva2page x ∈ l then 1 else 0 := by
  induction l with
  | nil => simp
  | cons p l ih =>
    rw [nodup_cons] at hl
    have hhit : (pagesSeg al p 1).hit x = if al.base ≤ x ∧ al.kva2page x = p then 1 else 0 := by
      refine if_congr (pagesSeg_contains.trans (and_congr_right fun _ => ?_)) rfl rfl
      rw [Finset.mem_Ico]
      omega
    rw [map_cons, Seg.cov_cons, ih hl.2, hhit]
    by_cases hp : al.kva2page x = p
    · simp [hp, hl.1]
    · simp [hp]

/-- **All blocks together** are as large as `arena` and the pages. -/
lemma HeapOk.total (h : HeapOk al fl L s) :
    Seg.total fl + Seg.total L = slobUnit + s.taken.card * pageSize := by
  rw [← Seg.total_append, @Seg.total_eq _ (arenaSeg al :: s.taken.toList.map (pagesSeg al · 1))]
  · simp [Seg.total, Function.comp_def, pagesSeg, arenaSeg]
  · intro x
    rw [Seg.cov_append, h.cover, Seg.cov_cons, cov_pages s.taken.nodup_toList, owned]
    simp only [Finset.mem_toList]

/-- The sizes of blocks are their units. -/
lemma total_units {α : Type} (l : List α) (f : α → Seg) (u : α → ℕ)
    (h : ∀ x ∈ l, u x * slobUnit = (f x).size) :
    Seg.total (l.map f) = (l.map u).sum * slobUnit := by
  rw [Seg.total, map_map, ← sum_map_mul_right]
  exact congrArg List.sum (map_congr_left fun x hx => (h x hx).symm)

/-! ## All runs -/

/-- The calls of `slob_free` that are allowed return. -/
lemma slobFree_out {o : Out} {size : ℕ} (h : HeapOk al fl (out.map Out.block) s) (ho : o ∈ out)
    (hpos : 16 < o.size) (hr : Releases s o size) :
    Returns (slobFree al o.ptr size) s fun _ t =>
      ∃ fl', HeapOk al fl' ((out.erase o).map Out.block) t := by
  have hmem : o.block ∈ out.map Out.block := mem_map_of_mem ho
  refine (slobFree_spec size h hmem ?_).mono fun _ t ⟨fl', h', _⟩ => ⟨fl', h'.perm ?_⟩
  · rcases hr with rfl | ⟨rfl, hu⟩
    · rw [if_pos (by omega)]
      rfl
    · rw [if_neg (by omega)]
      exact congrArg (· * slobUnit) hu
  · have hp := (((perm_cons_erase ho).map Out.block).erase o.block).symm
    rwa [map_cons, erase_cons_head] at hp

/-- **The invariant along a run.** -/
lemma SlobRun.heapOk (h : SlobRun al s out) :
    (∃ fl, HeapOk al fl (out.map Out.block) s) ∧ ∀ o ∈ out, 16 < o.size := by
  induction h with
  | boot hb => exact ⟨⟨_, hb.accounted.heap⟩, fun o ho => absurd ho not_mem_nil⟩
  | @alloc _ _ _ _ r _ hmin hmax e ih =>
    obtain ⟨⟨fl, h⟩, hsize⟩ := ih
    obtain ⟨_, t, e', hpost⟩ := slobAlloc_spec _ h hmin (by unfold slobUnit pageSize; omega)
    cases e.symm.trans e'
    cases r with
    | none =>
      cases hpost
      exact ⟨⟨fl, h⟩, hsize⟩
    | some a =>
      obtain ⟨fl', h', -⟩ := hpost
      exact ⟨⟨fl', h'⟩, forall_mem_cons.mpr ⟨hmin, hsize⟩⟩
  | free _ ho hr e ih =>
    obtain ⟨⟨fl, h⟩, hsize⟩ := ih
    obtain ⟨_, t, e', hpost⟩ := slobFree_out h ho (hsize _ ho) hr
    cases e.symm.trans e'
    exact ⟨hpost, fun o ho => hsize o (mem_of_mem_erase ho)⟩
  | write _ hw ih =>
    obtain ⟨⟨fl, h⟩, hsize⟩ := ih
    refine ⟨⟨fl, h.write_out (fun o ho => by have := hsize o ho; omega)
      (fun o ho b hb x hx hbx => ?_) hw⟩, hsize⟩
    refine h.disjoint hb (mem_map_of_mem ho) hbx ⟨hx.1, lt_of_lt_of_le hx.2 ?_⟩
    change o.ptr + o.size ≤ o.ptr + slobUnits o.size * slobUnit
    unfold slobUnits slobUnit
    omega
  | others _ ha ih =>
    obtain ⟨⟨fl, h⟩, hsize⟩ := ih
    exact ⟨⟨fl, h.others ha⟩, hsize⟩

/-- **The unit heap** is in order in every state of every run of `slob_alloc` with sizes between 17
and 4079 and of `slob_free` on outstanding blocks. -/
theorem slob_unit_heap (al : PageAllocator A) {s : Kmem A} {out : List Out} (h : SlobRun al s out) :
    UnitHeap al s out := by
  obtain ⟨⟨fl, h⟩, hsize⟩ := h.heapOk
  refine ⟨⟨fl, h, fun b hb o ho x hx hox => h.disjoint hb (mem_map_of_mem ho) hx hox, ?_⟩,
    fun size hmin hmax => ?_, fun o ho size hr => ?_⟩
  · have htotal := h.total
    have hfree := total_units fl id (fun b => s.units b.start) h.units
    have hout := total_units out Out.block (fun o => slobUnits o.size) fun _ _ => rfl
    rw [map_id] at hfree
    rw [hfree, hout] at htotal
    unfold slobUnit pageSize at htotal
    omega
  · obtain ⟨r, t, e, -⟩ := slobAlloc_spec size h hmin (by unfold slobUnit pageSize; omega)
    exact ⟨r, t, e⟩
  · obtain ⟨_, t, e, -⟩ := slobFree_out h ho (hsize o ho) hr
    exact ⟨t, e⟩

/-- Three blocks on the small machine, of which two are freed; the second one is merged with the
first one and with the rest of the page. -/
theorem slob_unit_heap_eightPages : ∃ s, SlobRun eightPages s [⟨8192, 300⟩] ∧ s.units 8496 = 237 ∧
    UnitHeap eightPages s [⟨8192, 300⟩] := by
  obtain ⟨v, e⟩ : ∃ v, (slobAlloc eightPages 300 >>= fun a => slobAlloc eightPages 100 >>= fun b =>
      slobAlloc eightPages 200 >>= fun c => slobFree eightPages 8496 100 >>= fun _ =>
      slobFree eightPages 8608 200 >>= fun _ => Comp.read >>= fun s => pure (a, b, c, s.units 8496))
      eightPagesBoot = .ok ((some 8192, some 8496, some 8608, 237), v) :=
    Comp.exists_of_result (by decide +kernel)
  simp only [bind_eq_ok] at e
  obtain ⟨a, s, e1, b, t, e2, c, u, e3, _, w, e4, _, x, e5, _, _, hr, e⟩ := e
  cases hr
  obtain ⟨hv, -⟩ := Prod.mk.inj (Except.ok.inj e)
  simp only [Prod.mk.injEq] at hv
  obtain ⟨rfl, rfl, rfl, hunits⟩ := hv
  have h : SlobRun eightPages u [⟨8608, 200⟩, ⟨8496, 100⟩, ⟨8192, 300⟩] :=
    .alloc (.alloc (.alloc (.boot eightPagesBoot_boot) (by decide) (by decide) e1) (by decide)
      (by decide) e2) (by decide) (by decide) e3
  have h' := (h.free (o := ⟨8496, 100⟩) (by decide) (.inl rfl) e4).free (o := ⟨8608, 200⟩)
    (by decide) (.inl rfl) e5
  exact ⟨x, h', hunits, slob_unit_heap eightPages h'⟩

end Ucore.Slob
