import Ucore.Schedule.DefaultSchedStride

set_option autoImplicit false

/-!
# Strides without wrap-around

The strides of the processes are 32-bit words. The true stride of a process is the sum that its
stride would be without wrap-around. As long as the true strides of the queued processes are less
than `2 ^ 31` apart, the heap is ordered by the true strides and a process with the least one is
picked.

## Main definitions

* `Near` — two true strides are less than `2 ^ 31` apart.
* `StrideKeys` — the strides are the true strides modulo `2 ^ 32`, and the heap is ordered.

## Main results

* `agrees_of_near` — near strides are compared correctly.
* `StrideKeys.queued`, `StrideKeys.picked` — enqueueing, and picking with removal.
-/

namespace Ucore

open Function

/-- Two numbers that are less than `2 ^ 31` apart. -/
def Near (a b : ℕ) : Prop := a < b + 2 ^ 31 ∧ b < a + 2 ^ 31

lemma Near.symm {a b : ℕ} (h : Near a b) : Near b a := ⟨h.2, h.1⟩

lemma Near.refl (a : ℕ) : Near a a := ⟨by omega, by omega⟩

/-- The true strides `T` stand behind the strides, and the heap is ordered by them. -/
structure StrideKeys (s : SchedState) (T : ℕ → ℕ) : Prop where
  stride : ∀ p, (s.ent p).stride = BitVec.ofNat 32 (T p)
  ordered : s.rq.pool.Ordered T

section Keys

variable {par : StrideParams} {s : SchedState} {T : ℕ → ℕ} {p q : ℕ}

/-- **The comparison of near strides** is the comparison of the true strides. -/
lemma StrideKeys.compF (h : StrideKeys s T) (hn : Near (T p) (T q)) :
    procStrideCompF s.ent p q = if T q < T p then 1 else if T p = T q then 0 else -1 :=
  procStrideCompF_eq (h.stride p) (h.stride q) hn.1 hn.2

lemma agrees_of_near {ent : ℕ → SchedEnt} (hs : ∀ p, (ent p).stride = BitVec.ofNat 32 (T p))
    (hn : Near (T p) (T q)) : Agrees (procStrideCompF ent) T p q := by
  unfold Agrees
  rw [procStrideCompF_eq (hs p) (hs q) hn.1 hn.2]
  split_ifs with h1 h2
  · constructor
    · intro h
      cases h
    · omega
  · constructor
    · intro h
      cases h
    · omega
  · constructor
    · omega
    · exact fun _ => rfl

lemma StrideKeys.modEnt {f : SchedEnt → SchedEnt} (h : StrideKeys s T)
    (hf : (f (s.ent p)).stride = (s.ent p).stride) : StrideKeys (s.modEnt p f) T := by
  refine ⟨fun q => ?_, h.ordered⟩
  by_cases hq : q = p
  · rw [hq, modEnt_self, hf, h.stride]
  · rw [modEnt_of_ne hq, h.stride]

/-- **Enqueueing** a process whose true stride is near those of the queued ones. -/
lemma StrideKeys.queued (h : StrideKeys s T) (hok : StrideOk s)
    (hn : ∀ q ∈ s.rq.runList, Near (T q) (T p)) : StrideKeys (s.strideQueued par p) T := by
  have hm : StrideKeys (s.modEnt p (·.strideQueued par s.rq.maxTimeSlice)) T := h.modEnt rfl
  refine ⟨hm.stride, skewHeapInsert_ordered h.ordered fun x hx => ?_⟩
  rw [hok.pool, Multiset.mem_coe] at hx
  exact agrees_of_near h.stride (hn x hx)

/-- **The root of the heap** has a least true stride. -/
lemma StrideKeys.root_le {l r : SkewHeap ℕ} (h : StrideKeys s T) (hok : StrideOk s)
    (hp : s.rq.pool = .node l p r) (hq : q ∈ s.rq.runList) : T p ≤ T q := by
  have ho := h.ordered
  rw [hp] at ho
  refine ho.root_le ?_
  rw [← hp, hok.pool]
  exact hq

variable (par) in
/-- **Picking a process and removing it**: its true stride grows by its pass.

**Proof sketch.** The removal merges the two subtrees of the root. They do not contain the root, so
neither its new key nor its new stride plays a role in the comparisons. -/
lemma StrideKeys.picked {l r : SkewHeap ℕ} (h : StrideKeys s T) (hok : StrideOk s)
    (hn : ∀ x ∈ s.rq.runList, ∀ y ∈ s.rq.runList, Near (T x) (T y))
    (hp : s.rq.pool = .node l p r) :
    StrideKeys ((s.stridePicked par p).strideDropped p)
      (update T p (T p + ((s.ent p).pass par).toNat)) := by
  set T' := update T p (T p + ((s.ent p).pass par).toNat) with hT'
  have hstride : ∀ q, ((s.stridePicked par p).ent q).stride = BitVec.ofNat 32 (T' q) := by
    intro q
    by_cases hq : q = p
    · rw [hq, hT', update_self, SchedState.stridePicked, modEnt_self, BitVec.ofNat_add, h.stride]
      simp
    · rw [hT', update_of_ne hq, SchedState.stridePicked, modEnt_of_ne hq, h.stride]
  have hpool := hok.pool
  rw [hp, elems_node] at hpool
  have hnodup : (p ::ₘ (l.elems + r.elems)).Nodup := by
    rw [hpool]
    exact Multiset.coe_nodup.mpr hok.nodup
  have hnot : p ∉ l.elems + r.elems := (Multiset.nodup_cons.mp hnodup).1
  have hmem : ∀ q ∈ l.elems + r.elems, q ∈ s.rq.runList ∧ T' q = T q := by
    intro q hq
    constructor
    · rw [← Multiset.mem_coe, ← hpool]
      exact Multiset.mem_cons_of_mem hq
    · rw [hT', update_of_ne]
      rintro rfl
      exact hnot hq
  have ho := h.ordered
  rw [hp] at ho
  refine ⟨fun q => ?_, ?_⟩
  · rw [← hstride q]
    exact (strideDropped_ent q).1
  · change (skewHeapRemove (procStrideCompF (s.stridePicked par p).ent) s.rq.pool p).Ordered T'
    rw [hp, skewHeapRemove_root]
    have hl : ∀ q ∈ l.elems, q ∈ l.elems + r.elems := fun q hq => Multiset.mem_add.mpr (.inl hq)
    have hr : ∀ q ∈ r.elems, q ∈ l.elems + r.elems := fun q hq => Multiset.mem_add.mpr (.inr hq)
    refine skewHeapMerge_ordered (ho.2.1.congr fun q hq => (hmem q (hl q hq)).2)
      (ho.2.2.congr fun q hq => (hmem q (hr q hq)).2) fun x hx y hy => agrees_of_near hstride ?_
    obtain ⟨hx1, hx2⟩ := hmem x (hl x hx)
    obtain ⟨hy1, hy2⟩ := hmem y (hr y hy)
    rw [hx2, hy2]
    exact hn x hx1 y hy1

end Keys

end Ucore
