import Mathlib

set_option autoImplicit false

/-!
# Skew heaps (`libs/skew_heap.h`)

A heap is the tree of its entries. The comparison function is an argument, as in the source; what is
proved about a heap is proved for keys with which the comparisons agree.

## Main definitions

* `SkewHeap` — heaps; `SkewHeap.elems` — their entries.
* `skewHeapMerge`, `skewHeapInsert`, `skewHeapRemove`.
* `SkewHeap.Ordered` — no entry is smaller than one above it.

## Main results

* `elems_skewHeapMerge`, `elems_skewHeapInsert`, `elems_skewHeapRemove_root` — no
  entry is lost or duplicated, whatever the comparison function does.
* `skewHeapMerge_ordered` — merging keeps the order.
-/

namespace Ucore

/-- A `skew_heap_entry_t *`: `NULL`, or an entry with its two subtrees. -/
inductive SkewHeap (α : Type)
  | nil
  | node (left : SkewHeap α) (a : α) (right : SkewHeap α)
  deriving DecidableEq

variable {α : Type}

namespace SkewHeap

/-- The number of entries. -/
def size : SkewHeap α → ℕ
  | nil => 0
  | node l _ r => l.size + r.size + 1

/-- The entries, with multiplicities. -/
def elems : SkewHeap α → Multiset α
  | nil => 0
  | node l a r => a ::ₘ (l.elems + r.elems)

/-- The entry at the root. -/
def root? : SkewHeap α → Option α
  | nil => none
  | node _ a _ => some a

end SkewHeap

/-- `skew_heap_merge` -/
def skewHeapMerge (comp : α → α → ℤ) : SkewHeap α → SkewHeap α → SkewHeap α
  | .nil, b => b
  | a, .nil => a
  | .node l x r, .node l' y r' =>
    if comp x y = -1 then .node (skewHeapMerge comp r (.node l' y r')) x l
    else .node (skewHeapMerge comp (.node l x r) r') y l'
  termination_by a b => a.size + b.size
  decreasing_by
    all_goals simp only [SkewHeap.size]; omega

/-- `skew_heap_insert` -/
def skewHeapInsert (comp : α → α → ℤ) (a : SkewHeap α) (b : α) : SkewHeap α :=
  skewHeapMerge comp a (.node .nil b .nil)

/-- `skew_heap_remove`: the subtree of `b` is replaced by the merge of its two subtrees. -/
def skewHeapRemove [DecidableEq α] (comp : α → α → ℤ) : SkewHeap α → α → SkewHeap α
  | .nil, _ => .nil
  | .node l x r, b =>
    if x = b then skewHeapMerge comp l r
    else if b ∈ l.elems then .node (skewHeapRemove comp l b) x r
    else .node l x (skewHeapRemove comp r b)

/-! ## Entries -/

section Elems

variable {comp : α → α → ℤ}

@[simp] lemma elems_nil : (SkewHeap.nil : SkewHeap α).elems = 0 := rfl

@[simp] lemma elems_node (l r : SkewHeap α) (a : α) :
    (SkewHeap.node l a r).elems = a ::ₘ (l.elems + r.elems) := rfl

@[simp] lemma skewHeapMerge_nil_left (b : SkewHeap α) : skewHeapMerge comp .nil b = b := by
  rw [skewHeapMerge]

@[simp] lemma skewHeapMerge_nil_right (a : SkewHeap α) : skewHeapMerge comp a .nil = a := by
  cases a with
  | nil => rw [skewHeapMerge]
  | node l x r => rw [skewHeapMerge]; simp

/-- **Merging** loses no entry. -/
lemma elems_skewHeapMerge (a b : SkewHeap α) :
    (skewHeapMerge comp a b).elems = a.elems + b.elems := by
  induction a, b using skewHeapMerge.induct comp with
  | case1 b | case2 a h => simp
  | case3 l x r l' y r' h ih =>
    rw [skewHeapMerge, if_pos h, elems_node, ih]
    simp only [elems_node, Multiset.cons_add, Multiset.add_cons]
    rw [add_right_comm, add_comm r.elems l.elems, Multiset.cons_swap]
  | case4 l x r l' y r' h ih =>
    rw [skewHeapMerge, if_neg h, elems_node, ih]
    simp only [elems_node, Multiset.cons_add, Multiset.add_cons]
    rw [add_assoc, add_comm r'.elems l'.elems]

/-- **Inserting** adds one entry. -/
lemma elems_skewHeapInsert (a : SkewHeap α) (b : α) :
    (skewHeapInsert comp a b).elems = b ::ₘ a.elems := by
  rw [skewHeapInsert, elems_skewHeapMerge, elems_node, elems_nil, add_zero, Multiset.add_cons,
    add_zero]

lemma skewHeapRemove_root [DecidableEq α] (l r : SkewHeap α) (a : α) :
    skewHeapRemove comp (.node l a r) a = skewHeapMerge comp l r := by
  rw [skewHeapRemove, if_pos rfl]

/-- **Removing the root** removes one entry. -/
lemma elems_skewHeapRemove_root [DecidableEq α] (l r : SkewHeap α) (a : α) :
    (skewHeapRemove comp (.node l a r) a).elems = l.elems + r.elems := by
  rw [skewHeapRemove_root, elems_skewHeapMerge]

end Elems

/-! ## Order -/

section Order

variable {α κ : Type} [LinearOrder κ] {comp : α → α → ℤ} {key key' : α → κ}

/-- No entry has a smaller key than an entry above it. -/
def SkewHeap.Ordered (key : α → κ) : SkewHeap α → Prop
  | .nil => True
  | .node l a r => (∀ b ∈ l.elems + r.elems, key a ≤ key b) ∧ l.Ordered key ∧ r.Ordered key

/-- The comparison function says which of two entries has the smaller key. -/
def Agrees (comp : α → α → ℤ) (key : α → κ) (x y : α) : Prop := comp x y = -1 ↔ key x < key y

/-- Only the keys of the entries matter. -/
lemma SkewHeap.Ordered.congr {t : SkewHeap α} (h : t.Ordered key)
    (hk : ∀ a ∈ t.elems, key' a = key a) : t.Ordered key' := by
  induction t with
  | nil => trivial
  | node l a r ihl ihr =>
    obtain ⟨h1, h2, h3⟩ := h
    have hl : ∀ b ∈ l.elems, key' b = key b := fun b hb => hk b (by simp [hb])
    have hr : ∀ b ∈ r.elems, key' b = key b := fun b hb => hk b (by simp [hb])
    refine ⟨fun b hb => ?_, ihl h2 hl, ihr h3 hr⟩
    rw [hk a (by simp), hk b (by simpa using Or.inr (Multiset.mem_add.mp hb))]
    exact h1 b hb

/-- **The root is a smallest entry.** -/
lemma SkewHeap.Ordered.root_le {l r : SkewHeap α} {a b : α} (h : (node l a r).Ordered key)
    (hb : b ∈ (node l a r).elems) : key a ≤ key b := by
  rw [elems_node, Multiset.mem_cons] at hb
  rcases hb with rfl | hb
  · exact le_rfl
  · exact h.1 b hb

lemma SkewHeap.ordered_of_eq {t : SkewHeap α} {c : κ} (h : ∀ a ∈ t.elems, key a = c) :
    t.Ordered key := by
  induction t with
  | nil => trivial
  | node l a r ihl ihr =>
    refine ⟨fun b hb => ?_, ihl fun b hb => h b (by simp [hb]), ihr fun b hb => h b (by simp [hb])⟩
    rw [h a (by simp), h b (by simpa using Or.inr (Multiset.mem_add.mp hb))]

/-- **Merging keeps the order**, if the comparison function agrees with the keys on the entries.

**Proof sketch.** By induction along the merge. If the root `x` of the first heap has the smaller
key, it is smaller than the root `y` of the second one and so than all its entries; together with
the order of the first heap this puts `x` below everything that is merged. -/
lemma skewHeapMerge_ordered {a b : SkewHeap α} (ha : a.Ordered key) (hb : b.Ordered key)
    (h : ∀ x ∈ a.elems, ∀ y ∈ b.elems, Agrees comp key x y) :
    (skewHeapMerge comp a b).Ordered key := by
  induction a, b using skewHeapMerge.induct comp with
  | case1 b => simpa using hb
  | case2 a => simpa using ha
  | case3 l x r l' y r' hc ih =>
    have hxy : key x < key y := (h x (by simp) y (by simp)).mp hc
    rw [skewHeapMerge, if_pos hc]
    refine ⟨fun c hm => ?_, ih ha.2.2 hb fun u hu v hv => h u (by simp [hu]) v hv, ha.2.1⟩
    rw [elems_skewHeapMerge, add_right_comm, Multiset.mem_add] at hm
    rcases hm with hm | hm
    · rw [add_comm] at hm
      exact ha.1 c hm
    · exact hxy.le.trans (hb.root_le hm)
  | case4 l x r l' y r' hc ih =>
    have hyx : key y ≤ key x := not_lt.mp (mt (h x (by simp) y (by simp)).mpr hc)
    rw [skewHeapMerge, if_neg hc]
    refine ⟨fun c hm => ?_, ih ha hb.2.2 fun u hu v hv => h u hu v (by simp [hv]), hb.2.1⟩
    rw [elems_skewHeapMerge, add_assoc, Multiset.mem_add] at hm
    rcases hm with hm | hm
    · exact hyx.trans (ha.root_le hm)
    · rw [add_comm] at hm
      exact hb.1 c hm

lemma skewHeapInsert_ordered {a : SkewHeap α} {b : α} (ha : a.Ordered key)
    (h : ∀ x ∈ a.elems, Agrees comp key x b) : (skewHeapInsert comp a b).Ordered key := by
  refine skewHeapMerge_ordered ha ⟨by simp, trivial, trivial⟩ fun x hx y hy => ?_
  rw [elems_node, elems_nil, add_zero, Multiset.cons_zero, Multiset.mem_singleton] at hy
  subst hy
  exact h x hx

end Order

end Ucore
