import Mathlib

set_option autoImplicit false

/-!
# Circular doubly linked lists

Intrusive circular lists over an arbitrary type of nodes: two pointer fields per node, one
operation that links a node between two others and one that makes two nodes point at each
other. A list is described by the nodes met from a distinguished head node.

## Main definitions

* `Links` — the `next` and `prev` fields of all nodes.
* `Links.splice`, `Links.unsplice` — link a node between two nodes; bypass what lies between
  two nodes.
* `Links.Path` — the nodes met between two nodes, with the back pointers in agreement.
* `Links.Ring` — the ring through a head node.

## Main results

* `Links.Ring.insert` — linking a fresh node into a ring.
* `Links.Ring.remove` — bypassing a node of a ring.
* `Links.Ring.splice_of_disjoint`, `Links.Ring.unsplice_of_disjoint` — other rings are left
  alone.
-/

/-- The two pointer fields of every node. -/
structure Links (ν : Type) where
  /-- The successor of a node. -/
  next : ν → ν
  /-- The predecessor of a node. -/
  prev : ν → ν

namespace Links

open Function List

variable {ν : Type} [DecidableEq ν]

/-- Make `e` a ring of its own. -/
def loop (l : Links ν) (e : ν) : Links ν :=
  ⟨update l.next e e, update l.prev e e⟩

/-- Link `e` between `p` and `q`. The fields of `p` and `q` are written first and those of `e`
last, which matters when `e` is one of them. -/
def splice (l : Links ν) (e p q : ν) : Links ν :=
  ⟨update (update l.next p e) e q,
    update (update l.prev q e) e p⟩

/-- Make `p` and `q` point at each other. -/
def unsplice (l : Links ν) (p q : ν) : Links ν :=
  ⟨update l.next p q, update l.prev q p⟩

omit [DecidableEq ν] in
/-- `l.Path a xs b`: from `a` the `next` pointers lead through `xs` to `b`, and along the way
`prev` undoes `next`. -/
def Path (l : Links ν) : ν → List ν → ν → Prop
  | a, [], b => l.next a = b ∧ l.prev b = a
  | a, x :: xs, b => l.next a = x ∧ l.prev x = a ∧ l.Path x xs b

/-- The ring through the head `h` consists of the pairwise distinct nodes `xs`, in the order
in which `next` meets them. -/
structure Ring (l : Links ν) (h : ν) (xs : List ν) : Prop where
  path : l.Path h xs h
  nodup : (h :: xs).Nodup

section Path

variable {l l' : Links ν} {a b x y : ν} {xs ys : List ν}

omit [DecidableEq ν] in
lemma path_append : l.Path a (xs ++ y :: ys) b ↔ l.Path a xs y ∧ l.Path y ys b := by
  induction xs generalizing a with
  | nil => simp [Path, and_assoc]
  | cons x xs ih => simp [Path, ih, and_assoc]

omit [DecidableEq ν] in
/-- A path only depends on the `next` fields of its nodes but the last and on the `prev` fields
of its nodes but the first. -/
lemma Path.congr (h : l.Path a xs b) (hn : ∀ x ∈ a :: xs, l'.next x = l.next x)
    (hp : ∀ x ∈ xs ++ [b], l'.prev x = l.prev x) : l'.Path a xs b := by
  induction xs generalizing a with
  | nil =>
    obtain ⟨h1, h2⟩ := h
    exact ⟨by rw [hn a (by simp), h1], by rw [hp b (by simp), h2]⟩
  | cons x xs ih =>
    obtain ⟨h1, h2, h3⟩ := h
    refine ⟨by rw [hn a (by simp), h1], by rw [hp x (by simp), h2], ih h3 ?_ ?_⟩
    · intro y hy
      exact hn y (mem_cons_of_mem _ hy)
    · intro y hy
      exact hp y (mem_cons_of_mem _ hy)

omit [DecidableEq ν] in
/-- At every cut of a path the two neighbours point at each other. -/
lemma Path.cut (xs ys : List ν) (h : l.Path a (xs ++ ys) b) :
    l.next (xs.getLastD a) = ys.headD b ∧ l.prev (ys.headD b) = xs.getLastD a := by
  induction xs generalizing a with
  | nil =>
    cases ys with
    | nil => exact h
    | cons y ys => exact ⟨h.1, h.2.1⟩
  | cons x xs ih =>
    rw [getLastD_cons]
    exact ih h.2.2

omit [DecidableEq ν] in
lemma Path.split_last (h : l.Path a (xs ++ x :: ys) b) :
    l.prev x = xs.getLastD a ∧ l.next x = ys.headD b := by
  refine ⟨(Path.cut xs (x :: ys) h).2, ?_⟩
  have h' : l.Path a ((xs ++ [x]) ++ ys) b := by simpa using h
  simpa using (Path.cut _ ys h').1

end Path

section Ring

variable {l : Links ν} {h e x : ν} {xs ys : List ν}

omit [DecidableEq ν] in
lemma Ring.head_notMem (r : l.Ring h xs) : h ∉ xs := (nodup_cons.mp r.nodup).1

omit [DecidableEq ν] in
lemma Ring.nodup_tail (r : l.Ring h xs) : xs.Nodup := (nodup_cons.mp r.nodup).2

omit [DecidableEq ν] in
lemma Ring.neighbours (r : l.Ring h (xs ++ e :: ys)) :
    l.prev e = xs.getLastD h ∧ l.next e = ys.headD h := r.path.split_last

omit [DecidableEq ν] in
lemma Ring.head_neighbours (r : l.Ring h xs) :
    l.next h = xs.headD h ∧ l.prev h = xs.getLastD h := by
  have h1 := Path.cut [] xs r.path
  have h2 := Path.cut xs [] (by simpa using r.path)
  exact ⟨by simpa using h1.1, by simpa using h2.2⟩

omit [DecidableEq ν] in
lemma Ring.next_head_eq_iff (r : l.Ring h xs) : l.next h = h ↔ xs = [] := by
  rw [r.head_neighbours.1]
  cases xs with
  | nil => simp
  | cons x xs =>
    have := r.head_notMem
    simp only [mem_cons, not_or] at this
    simp [Ne.symm this.1]

lemma ring_loop (l : Links ν) (h : ν) : (l.loop h).Ring h [] :=
  ⟨by simp [Path, loop], by simp⟩

omit [DecidableEq ν] in
lemma getLastD_mem_cons (xs : List ν) (a : ν) : xs.getLastD a ∈ a :: xs := by
  rcases eq_nil_or_concat xs with rfl | ⟨ys, y, rfl⟩ <;> simp

omit [DecidableEq ν] in
lemma headD_mem_append (ys : List ν) (b : ν) : ys.headD b ∈ ys ++ [b] := by
  cases ys <;> simp

/-- **Linking a fresh node** `e` between the nodes `xs` and `ys` of a ring.

**Proof sketch.** Cut the path at `xs | ys`. The splice writes only the `next` field of the last
node before the cut, the `prev` field of the first node after it, and the fields of `e`, which
is not in the ring; by distinctness the two halves of the path keep the fields they read, except
the ones at the cut, which now point at `e`. -/
lemma Ring.insert (r : l.Ring h (xs ++ ys)) (he : e ∉ h :: (xs ++ ys)) :
    (l.splice e (xs.getLastD h) (ys.headD h)).Ring h (xs ++ e :: ys) := by
  have hnd := r.nodup
  simp only [mem_cons, mem_append, not_or] at he
  obtain ⟨heh, hex, hey⟩ := he
  refine ⟨?_, ?_⟩
  swap
  · grind
  have hp : xs.getLastD h ≠ e := by
    intro heq
    have := getLastD_mem_cons xs h
    rw [heq, mem_cons] at this
    exact this.elim heh hex
  have hq : ys.headD h ≠ e := by
    intro heq
    have := headD_mem_append ys h
    rw [heq, mem_append, mem_singleton] at this
    exact this.elim hey heh
  rw [path_append]
  constructor
  · -- the nodes before `e`
    rcases eq_nil_or_concat xs with rfl | ⟨zs, z, rfl⟩
    · simp only [getLastD_nil, ne_eq] at hp ⊢
      refine ⟨?_, ?_⟩
      · simp [splice, update_of_ne hp]
      · simp [splice]
    · simp only [concat_eq_append, append_assoc, cons_append, nil_append] at *
      have hcut := (path_append.mp r.path).1
      rw [path_append]
      refine ⟨hcut.congr ?_ ?_, ?_, ?_⟩
      · intro x hx
        simp only [splice, getLastD_eq_getLast?, List.getLast?_append]
        rw [update_of_ne, update_of_ne] <;> grind
      · intro x hx
        simp only [splice]
        have hxy : x ≠ ys.headD h := by
          cases ys <;> grind
        rw [update_of_ne (by grind), update_of_ne hxy]
      · have : e ≠ z := by grind
        simp [splice, update_of_ne this.symm]
      · simp [splice]
  · -- the nodes after `e`
    cases ys with
    | nil =>
      simp only [headD_nil, ne_eq] at hq ⊢
      refine ⟨?_, ?_⟩
      · simp [splice]
      · simp [splice, update_of_ne hq]
    | cons y ys =>
      have hcut := (path_append.mp r.path).2
      simp only [headD_cons] at hq ⊢
      refine ⟨?_, ?_, hcut.congr ?_ ?_⟩
      · simp [splice]
      · simp [splice, update_of_ne hq]
      · intro x hx
        simp only [splice]
        have hxl : x ≠ xs.getLastD h := by
          grind
        rw [update_of_ne (by grind), update_of_ne hxl]
      · intro x hx
        simp only [splice]
        rw [update_of_ne (by grind), update_of_ne (by grind)]

/-- **Bypassing a node** `e` of a ring removes exactly that node.

**Proof sketch.** The neighbours of `e` are the last node before it and the first one after it.
Making them point at each other changes no other field, and by distinctness no other node of the
path reads the changed fields. -/
lemma Ring.remove (r : l.Ring h (xs ++ e :: ys)) :
    (l.unsplice (l.prev e) (l.next e)).Ring h (xs ++ ys) := by
  obtain ⟨hprev, hnext⟩ := r.neighbours
  have hnd := r.nodup
  obtain ⟨hl, hr⟩ := path_append.mp r.path
  rw [hprev, hnext]
  have hlast : xs.getLastD h ∈ h :: xs := by
    rcases eq_nil_or_concat xs with rfl | ⟨zs, z, rfl⟩ <;> simp
  have hright : (l.unsplice (xs.getLastD h) (ys.headD h)).Path (xs.getLastD h) ys h := by
    cases ys with
    | nil => exact ⟨by simp [unsplice], by simp [unsplice]⟩
    | cons y ys =>
      refine ⟨by simp [unsplice], by simp [unsplice], hr.2.2.congr ?_ ?_⟩
      · intro x hx
        simp only [unsplice]
        rw [update_of_ne]
        grind
      · intro x hx
        simp only [unsplice, headD_cons]
        rw [update_of_ne]
        grind
  refine ⟨?_, ?_⟩
  swap
  · grind
  rcases eq_nil_or_concat xs with rfl | ⟨zs, z, rfl⟩
  · exact hright
  · simp only [concat_eq_append, append_assoc, cons_append, nil_append] at *
    obtain ⟨hz, -⟩ := path_append.mp hl
    rw [path_append]
    refine ⟨hz.congr ?_ ?_, by simpa using hright⟩
    · intro x hx
      simp only [unsplice, getLastD_eq_getLast?, List.getLast?_append]
      rw [update_of_ne]
      grind
    · intro x hx
      have hxy : x ≠ ys.headD h := by cases ys <;> grind
      simp only [unsplice]
      rw [update_of_ne hxy]

omit [DecidableEq ν] in
lemma Ring.congr {l' : Links ν} (r : l.Ring h xs) (hn : ∀ x ∈ h :: xs, l'.next x = l.next x)
    (hp : ∀ x ∈ h :: xs, l'.prev x = l.prev x) : l'.Ring h xs :=
  ⟨r.path.congr hn fun x hx => hp x (by simpa [or_comm] using hx), r.nodup⟩

omit [DecidableEq ν] in
/-- The pointers determine the nodes of a path that ends where it first meets `b`. -/
lemma Path.unique {a b : ν} : ∀ {xs ys : List ν}, l.Path a xs b → l.Path a ys b → b ∉ xs → b ∉ ys →
    xs = ys := by
  intro xs
  induction xs generalizing a with
  | nil =>
    intro ys hx hy _ hb
    cases ys with
    | nil => rfl
    | cons y ys => exact absurd (by simp [← hy.1, hx.1]) hb
  | cons x xs ih =>
    intro ys hx hy hb hb'
    cases ys with
    | nil => exact absurd (by simp [← hx.1, hy.1]) hb
    | cons y ys =>
      obtain rfl : x = y := hx.1.symm.trans hy.1
      rw [ih hx.2.2 hy.2.2 (fun h => hb (mem_cons_of_mem _ h))
        (fun h => hb' (mem_cons_of_mem _ h))]

omit [DecidableEq ν] in
lemma Ring.unique {ys : List ν} (r : l.Ring h xs) (r' : l.Ring h ys) : xs = ys :=
  r.path.unique r'.path r.head_notMem r'.head_notMem

lemma Ring.loop_of_notMem {e : ν} (r : l.Ring h xs) (he : e ∉ h :: xs) : (l.loop e).Ring h xs := by
  refine r.congr ?_ ?_ <;> intro x hx <;> simp only [loop] <;> rw [update_of_ne]
  all_goals exact fun hxe => he (hxe ▸ hx)

lemma Ring.splice_of_disjoint {p q : ν} (r : l.Ring h xs) (he : e ∉ h :: xs) (hp : p ∉ h :: xs)
    (hq : q ∉ h :: xs) : (l.splice e p q).Ring h xs := by
  refine r.congr ?_ ?_ <;> intro x hx <;> simp only [splice] <;>
    rw [update_of_ne (ne_of_mem_of_not_mem hx he), update_of_ne]
  · exact ne_of_mem_of_not_mem hx hp
  · exact ne_of_mem_of_not_mem hx hq

lemma Ring.unsplice_of_disjoint {p q : ν} (r : l.Ring h xs) (hp : p ∉ h :: xs)
    (hq : q ∉ h :: xs) : (l.unsplice p q).Ring h xs := by
  refine r.congr ?_ ?_ <;> intro x hx <;> simp only [unsplice] <;> rw [update_of_ne]
  · exact ne_of_mem_of_not_mem hx hp
  · exact ne_of_mem_of_not_mem hx hq

omit [DecidableEq ν] in
/-- The neighbours of a ring's nodes are in the ring. -/
lemma Ring.neighbours_mem (r : l.Ring h xs) (hx : x ∈ h :: xs) :
    l.next x ∈ h :: xs ∧ l.prev x ∈ h :: xs := by
  rcases mem_cons.mp hx with rfl | hx
  · rw [r.head_neighbours.1, r.head_neighbours.2]
    exact ⟨by simpa [or_comm] using headD_mem_append xs x, getLastD_mem_cons xs x⟩
  · obtain ⟨ys, zs, rfl⟩ := append_of_mem hx
    rw [r.neighbours.1, r.neighbours.2]
    have h1 := getLastD_mem_cons ys h
    have h2 := headD_mem_append zs h
    simp only [mem_cons, mem_append, not_mem_nil, or_false] at h1 h2 ⊢
    tauto

end Ring

end Links
