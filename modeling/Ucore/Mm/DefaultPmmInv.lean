import Ucore.Lib.Segments
import Ucore.Mm.DefaultPmm

set_option autoImplicit false

/-!
# The free list of the first-fit allocator

What the free list of `Pmm` represents: the free blocks in increasing address order, the
pages outside them being the allocated ones. Each function is shown to keep this, on the branches
where it does.

## Main definitions

* `Blocks` — the free list, the flags and the counter describe a list of free blocks that
  are disjoint and in order; the allocated pages are the rest of the region.
* `FirstFit` — moreover no two free blocks touch.

## Main results

* `FirstFit.takeBlock` — what `default_alloc_pages` does to the block it has found.
* `insertLoop_spec`, `insertLoop_tail` — where the insertion loop puts a block, and
  what it does at the tail of the list.
* `FirstFit.freePages` — `default_free_pages` below the last free block.
* `freePages_tail` — `default_free_pages` above the last free block.
-/

namespace Ucore

open Function Comp List Seg

/-- The list entry of a free block. -/
def link (b : Seg) : PageLink := .page b.start

/-- The allocator's state describes the free blocks `bs` of the region `[lo, lo + n)`, the pages
`A` being allocated. -/
structure Blocks (lo n : ℕ) (s : Pmm) (A : Set ℕ) (bs : List Seg) : Prop where
  /-- the list runs through the block heads, in both directions -/
  ring : s.links.Ring .head (bs.map link)
  /-- the blocks are disjoint and in increasing address order -/
  sorted : bs.Pairwise Seg.Before
  /-- they are nonempty and lie in the region -/
  bounds : ∀ b ∈ bs, 0 < b.size ∧ lo ≤ b.start ∧ b.start + b.size ≤ lo + n
  /-- `property` of a block head is the block's size -/
  size : ∀ b ∈ bs, (s.pages b.start).property = b.size
  /-- `PG_property` is set exactly on block heads -/
  flag : ∀ i, lo ≤ i → i < lo + n → ((s.pages i).pgProperty = true ↔ ∃ b ∈ bs, b.start = i)
  /-- no page of the region is reserved -/
  reserved : ∀ i, lo ≤ i → i < lo + n → (s.pages i).pgReserved = false
  /-- `nr_free` is the number of free pages -/
  count : s.nrFree = Seg.total bs
  /-- the allocated pages are the region's other pages -/
  alloc : ∀ i, i ∈ A ↔ lo ≤ i ∧ i < lo + n ∧ ¬Seg.Covered bs i

/-- The free blocks are also maximal: no two of them touch. -/
structure FirstFit (lo n : ℕ) (s : Pmm) (A : Set ℕ) (bs : List Seg) : Prop
    extends Blocks lo n s A bs where
  apart : bs.Pairwise Seg.Apart

variable {lo n k : ℕ} {s : Pmm} {A : Set ℕ} {b c : Seg} {pre post : List Seg}

section Basic

variable {bs pre post : List Seg}

lemma Blocks.total_le (h : Blocks lo n s A bs) : Seg.total bs ≤ n := by
  have := Seg.total_le h.sorted (Nat.le_add_right lo n) fun b hb => (h.bounds b hb).2
  omega

/-- There are no more free blocks than pages. -/
lemma Blocks.length_le (h : Blocks lo n s A bs) : bs.length ≤ n :=
  (length_le_total fun b hb => (h.bounds b hb).1).trans h.total_le

lemma Blocks.notMem_of_contains (h : Blocks lo n s A bs) (hb : b ∈ bs) {i : ℕ}
    (hi : b.Contains i) : i ∉ A := by
  intro hA
  exact ((h.alloc i).mp hA).2.2 ⟨b, hb, hi⟩

lemma Blocks.flags_of_mem (h : Blocks lo n s A bs) {i : ℕ} (hi : i ∈ A) :
    (s.pages i).pgReserved = false ∧ (s.pages i).pgProperty = false := by
  obtain ⟨h1, h2, h3⟩ := (h.alloc i).mp hi
  refine ⟨h.reserved i h1 h2, ?_⟩
  rw [Bool.eq_false_iff, Ne, h.flag i h1 h2]
  rintro ⟨b, hb, rfl⟩
  exact h3 ⟨b, hb, le_rfl, by have := (h.bounds b hb).1; omega⟩

lemma link_mem_map (bs : List Seg) (i : ℕ) :
    PageLink.page i ∈ bs.map link ↔ ∃ b ∈ bs, b.start = i := by
  simp [link]

end Basic

/-! ## Loops over descriptors and over the list -/

lemma forPages_apply (ok : Page → Bool) (why : PmmPanic) (reset : Page → Page) (base n : ℕ)
    (s : Pmm) (hok : ∀ i, base ≤ i → i < base + n → ok (s.pages i) = true) :
    Pmm.forPages ok why reset base n s = .ok ((),
      { s with pages := fun i => if base ≤ i ∧ i < base + n then reset (s.pages i)
                                 else s.pages i }) := by
  rw [Pmm.forPages, read_bind_apply, forPages_ok ok why reset base n s.pages hok]
  rfl

variable {l : Links PageLink}

lemma ring_next {pre post : List Seg} (r : l.Ring .head ((pre ++ post).map link)) :
    listNext l ((pre.map link).getLastD .head) = (post.map link).headD .head := by
  rw [map_append] at r
  exact (r.path.cut _ _).1

lemma getLastD_map_concat (pre : List Seg) (b : Seg) :
    ((pre ++ [b]).map link).getLastD .head = link b := by simp

/-- **The search loop** finds the first block of the rest of the list that is large enough.

**Proof sketch.** Induction on the rest `post` of the list, the loop standing at the last entry
of `pre`. -/
lemma findLoop_spec {s : Pmm} {k : ℕ} (post : List Seg) :
    ∀ (pre : List Seg) (fuel : ℕ), s.links.Ring .head ((pre ++ post).map link) →
      (∀ b ∈ post, (s.pages b.start).property = b.size) → post.length < fuel →
      findLoop s k fuel ((pre.map link).getLastD .head) =
        some ((post.find? fun b => k ≤ b.size).map Seg.start) := by
  induction post with
  | nil =>
    intro pre fuel r _ hf
    obtain ⟨fuel, rfl⟩ : ∃ f, fuel = f + 1 := ⟨fuel - 1, by omega⟩
    rw [findLoop, ring_next r]
    simp
  | cons b post ih =>
    intro pre fuel r hsz hf
    obtain ⟨fuel, rfl⟩ : ∃ f, fuel = f + 1 := ⟨fuel - 1, by omega⟩
    rw [findLoop, ring_next r]
    simp only [map_cons, headD_cons, link, hsz b (by simp)]
    by_cases hk : k ≤ b.size
    · simp [hk]
    · rw [if_neg hk, List.find?_cons_of_neg (by simpa using hk)]
      have := ih (pre ++ [b]) fuel (by simpa using r) (fun c hc => hsz c (by simp [hc]))
        (by simpa using hf)
      rw [getLastD_map_concat] at this
      exact this

/-- **The insertion loop** passes the blocks below `base` and links `base` before the first one
above it. -/
lemma insertLoop_spec {base : ℕ} {c : Seg} {high : List Seg} (hc : base < c.start) (low : List Seg)
    : ∀ (pre : List Seg) (fuel : ℕ), l.Ring .head ((pre ++ low ++ c :: high).map link) →
      (∀ b ∈ low, b.start ≤ base) → low.length < fuel →
      insertLoop base fuel ((pre.map link).getLastD .head) l =
        some (listAddBefore l (link c) (.page base)) := by
  induction low with
  | nil =>
    intro pre fuel r _ hf
    obtain ⟨fuel, rfl⟩ : ∃ f, fuel = f + 1 := ⟨fuel - 1, by omega⟩
    rw [append_nil] at r
    rw [insertLoop, ring_next r]
    simp [link, hc]
  | cons b low ih =>
    intro pre fuel r hlow hf
    obtain ⟨fuel, rfl⟩ : ∃ f, fuel = f + 1 := ⟨fuel - 1, by omega⟩
    have r' : l.Ring .head ((pre ++ (b :: low ++ c :: high)).map link) := by simpa using r
    rw [insertLoop, ring_next r']
    have hb : ¬base < b.start := by have := hlow b (by simp); omega
    have r'' : l.Ring .head (((pre ++ [b]) ++ (low ++ c :: high)).map link) := by simpa using r
    have hnext := ring_next r''
    rw [getLastD_map_concat] at hnext
    have hne : listNext l (.page b.start) ≠ .head := by
      rw [show PageLink.page b.start = link b from rfl, hnext]
      cases low <;> simp [link]
    simp only [cons_append, map_cons, headD_cons, link, if_neg hb, if_neg hne]
    have := ih (pre ++ [b]) fuel (by simpa using r) (fun d hd => hlow d (by simp [hd]))
      (by simpa using hf)
    rw [getLastD_map_concat] at this
    exact this

/-- **The insertion loop at the tail**: if every block is below `base`, the loop links `base`
behind the last one and then, since it goes on, behind itself.

**Proof sketch.** Induction on the blocks. At the last block `list_add` makes `base` the last
entry; the next iteration stands at `base`, whose successor is the head, so `base` is added once
more, after itself (`listAdd_self`), and the loop ends at the head. -/
lemma insertLoop_tail (base : ℕ) (low : List Seg) :
    ∀ (pre : List Seg) (fuel : ℕ), l.Ring .head ((pre ++ low).map link) → low ≠ [] →
      (∀ b ∈ pre ++ low, b.start < base) → low.length + 1 < fuel →
      ∃ l', insertLoop base fuel ((pre.map link).getLastD .head) l = some l' ∧
        l'.prev (.page base) = .page base ∧ l'.next (.page base) = .head := by
  induction low with
  | nil => intro _ _ _ h; exact absurd rfl h
  | cons b low ih =>
    intro pre fuel r _ hlow hf
    obtain ⟨fuel, rfl⟩ : ∃ f, fuel = f + 1 := ⟨fuel - 1, by omega⟩
    have hb := hlow b (by simp)
    rw [insertLoop, ring_next r]
    simp only [map_cons, headD_cons, link, if_neg (show ¬base < b.start by omega)]
    have r' : l.Ring .head (((pre ++ [b]) ++ low).map link) := by simpa using r
    have hnext := ring_next r'
    rw [getLastD_map_concat, link] at hnext
    cases low with
    | nil =>
      simp only [map_nil, headD_nil] at hnext
      obtain ⟨fuel, rfl⟩ : ∃ f, fuel = f + 2 := ⟨fuel - 2, by simp at hf; omega⟩
      have hbb : PageLink.page b.start ≠ PageLink.page base := by simp; omega
      -- the list after the first `list_add`
      set l₁ := listAdd l (.page b.start) (.page base) with hl₁
      have hn₁ : listNext l₁ (.page b.start) = .page base := by
        simp [hl₁, listAdd, listAddAfter, listAddRaw, Links.splice, listNext, hbb]
      have hn₂ : listNext l₁ (.page base) = .head := by
        simp only [listNext] at hnext
        simp [hl₁, listAdd, listAddAfter, listAddRaw, Links.splice, listNext, hnext]
      obtain ⟨hself₁, hself₂⟩ := listAdd_self l₁ (.page base)
      refine ⟨listAdd l₁ (.page base) (.page base), ?_, hself₂, ?_⟩
      · rw [if_pos hnext, insertLoop, hn₁]
        simp only [lt_irrefl, if_false, hn₂, if_true]
        rw [insertLoop]
        simp only [listNext] at hn₂ ⊢
        rw [hself₁, hn₂]
      · rw [hself₁]
        exact hn₂
    | cons c low =>
      have hne : listNext l (.page b.start) ≠ .head := by rw [hnext]; simp [link]
      rw [if_neg hne]
      have := ih (pre ++ [b]) fuel (by simpa using r') (by simp)
        (fun d hd => hlow d (by simpa using hd)) (by simpa using hf)
      rw [getLastD_map_concat] at this
      exact this

/-! ## Replacing blocks -/

section Replace

variable {s s' : Pmm} {A A' : Set ℕ} {pre mid mid' post : List Seg}

variable {R : Seg → Seg → Prop}

lemma pairwise_around (h : (pre ++ b :: post).Pairwise R) :
    pre.Pairwise R ∧ post.Pairwise R ∧ (∀ a ∈ pre, R a b) ∧ (∀ c ∈ post, R b c) ∧
      ∀ a ∈ pre, ∀ c ∈ post, R a c := by
  simp only [pairwise_append, pairwise_cons, mem_cons] at h
  obtain ⟨h1, ⟨h2, h3⟩, h4⟩ := h
  exact ⟨h1, h3, fun a ha => h4 a ha b (.inl rfl), h2, fun a ha c hc => h4 a ha c (.inr hc)⟩

lemma pairwise_insert (h1 : pre.Pairwise R) (h2 : post.Pairwise R) (h3 : ∀ a ∈ pre, R a b)
    (h4 : ∀ c ∈ post, R b c) (h5 : ∀ a ∈ pre, ∀ c ∈ post, R a c) :
    (pre ++ b :: post).Pairwise R := by
  simp only [pairwise_append, pairwise_cons, mem_cons]
  refine ⟨h1, ⟨h4, h2⟩, ?_⟩
  rintro a ha c (rfl | hc)
  · exact h3 a ha
  · exact h5 a ha c hc

/-- Blocks on the two sides of a middle part start at other pages than the blocks of that part. -/
lemma start_ne_of_sorted (hs : (pre ++ mid ++ post).Pairwise Seg.Before)
    (hpos : ∀ b ∈ pre ++ mid ++ post, 0 < b.size) {c : Seg} (hc : c ∈ pre ++ post) (hb : b ∈ mid) :
    c.start ≠ b.start := by
  simp only [pairwise_append, mem_append] at hs hc
  obtain ⟨⟨-, -, h1⟩, -, h2⟩ := hs
  have hbpos := hpos b (by simp [hb])
  rcases hc with hc | hc
  · have hcb := h1 c hc b hb
    have hcpos := hpos c (by simp [hc])
    omega
  · have hbc := h2 b (.inr hb) c hc
    omega

/-- **Replacing the middle part** of the block list. A new state describes the new list if its
list entries do, the new blocks have their flag and size, the flags of the old ones are cleared,
and the other descriptors are as before. -/
lemma Blocks.replace (h : Blocks lo n s A (pre ++ mid ++ post))
    (ring : s'.links.Ring .head ((pre ++ mid' ++ post).map link))
    (sorted : (pre ++ mid' ++ post).Pairwise Seg.Before)
    (bounds : ∀ b ∈ mid', 0 < b.size ∧ lo ≤ b.start ∧ b.start + b.size ≤ lo + n)
    (new : ∀ b ∈ mid', (s'.pages b.start).property = b.size ∧
      (s'.pages b.start).pgProperty = true)
    (old : ∀ b ∈ mid, (∀ c ∈ mid', c.start ≠ b.start) → (s'.pages b.start).pgProperty = false)
    (same : ∀ i, (∀ b ∈ mid ++ mid', b.start ≠ i) →
      (s'.pages i).pgProperty = (s.pages i).pgProperty ∧
      (s'.pages i).property = (s.pages i).property)
    (reserved : ∀ i, (s.pages i).pgReserved = false → (s'.pages i).pgReserved = false)
    (count : s'.nrFree + Seg.total mid = s.nrFree + Seg.total mid')
    (alloc : ∀ i, i ∈ A' ↔ (i ∈ A ∨ Seg.Covered mid i) ∧ ¬Seg.Covered mid' i) :
    Blocks lo n s' A' (pre ++ mid' ++ post) := by
  have hbounds : ∀ b ∈ pre ++ mid' ++ post,
      0 < b.size ∧ lo ≤ b.start ∧ b.start + b.size ≤ lo + n := by
    intro b hb
    simp only [mem_append] at hb
    rcases hb with (hb | hb) | hb
    · exact h.bounds b (by simp [hb])
    · exact bounds b hb
    · exact h.bounds b (by simp [hb])
  -- the other blocks start elsewhere
  have hne : ∀ c ∈ pre ++ post, ∀ b ∈ mid ++ mid', b.start ≠ c.start := by
    intro c hc b hb
    rcases mem_append.mp hb with hb | hb
    · exact (start_ne_of_sorted h.sorted (fun d hd => (h.bounds d hd).1) hc hb).symm
    · exact (start_ne_of_sorted sorted (fun d hd => (hbounds d hd).1) hc hb).symm
  have hother : ∀ c ∈ pre ++ post, (s'.pages c.start).property = c.size := fun c hc => by
    rw [(same _ (hne c hc)).2]
    exact h.size c (by rcases mem_append.mp hc with hc | hc <;> simp [hc])
  refine ⟨ring, sorted, hbounds, ?_, ?_, fun i h1 h2 => reserved i (h.reserved i h1 h2), ?_, ?_⟩
  · intro b hb
    simp only [mem_append] at hb
    rcases hb with (hb | hb) | hb
    · exact hother b (by simp [hb])
    · exact (new b hb).1
    · exact hother b (by simp [hb])
  · intro i hlo hhi
    by_cases h1 : ∃ b ∈ mid', b.start = i
    · obtain ⟨b, hb, rfl⟩ := h1
      exact ⟨fun _ => ⟨b, by simp [hb], rfl⟩, fun _ => (new b hb).2⟩
    · push Not at h1
      by_cases h2 : ∃ b ∈ mid, b.start = i
      · obtain ⟨b, hb, rfl⟩ := h2
        rw [old b hb h1]
        simp only [Bool.false_eq_true, false_iff, not_exists, not_and, mem_append]
        rintro c ((hc | hc) | hc)
        · exact (hne c (by simp [hc]) b (by simp [hb])).symm
        · exact h1 c hc
        · exact (hne c (by simp [hc]) b (by simp [hb])).symm
      · push Not at h2
        have hi : ∀ b ∈ mid ++ mid', b.start ≠ i := fun b hb =>
          (mem_append.mp hb).elim (h2 b) (h1 b)
        rw [(same i hi).1, h.flag i hlo hhi]
        simp only [mem_append, or_and_right, exists_or]
        have e1 : ¬∃ b ∈ mid, b.start = i := by push Not; exact h2
        have e2 : ¬∃ b ∈ mid', b.start = i := by push Not; exact h1
        simp only [e1, e2]
  · have hc := h.count
    simp only [total_append] at hc ⊢
    omega
  · intro i
    have hmid : Seg.Covered mid i → lo ≤ i ∧ i < lo + n ∧ ¬Seg.Covered pre i ∧
        ¬Seg.Covered post i := by
      rintro ⟨b, hb, hbi⟩
      have hs := h.sorted
      simp only [pairwise_append, mem_append] at hs
      have h1 := h.bounds b (by simp [hb])
      refine ⟨by omega, by omega, ?_, ?_⟩
      · rintro ⟨c, hc, hci⟩
        have := hs.1.2.2 c hc b hb
        unfold Seg.Before at this; unfold Seg.Contains at hci; omega
      · rintro ⟨c, hc, hci⟩
        have := hs.2.2 b (.inr hb) c hc
        unfold Seg.Before at this; unfold Seg.Contains at hci; omega
    rw [alloc i, h.alloc i]
    simp only [covered_append]
    tauto

end Replace

/-! ## Allocation -/

/-- The rest of the block `b` once its first `k` pages are taken. -/
def rest (b : Seg) (k : ℕ) : List Seg :=
  if k < b.size then [⟨b.start + k, b.size - k⟩] else []

lemma mem_rest {c : Seg} : c ∈ rest b k ↔ c = ⟨b.start + k, b.size - k⟩ ∧ k < b.size := by
  unfold rest
  split_ifs with hlt <;> simp [hlt]

lemma covered_rest (i : ℕ) :
    Seg.Covered (rest b k) i ↔ b.start + k ≤ i ∧ i < b.start + b.size := by
  unfold rest
  split_ifs with hlt
  · simp only [covered_cons, covered_nil, or_false, Seg.Contains]
    omega
  · simp only [covered_nil, false_iff]
    omega

lemma total_rest : Seg.total (rest b k) = b.size - k := by
  unfold rest
  split_ifs with hlt
  · simp
  · simp only [total_nil]; omega

/-- The descriptors after `takeBlock`. -/
lemma takeBlock_pages (hsize : (s.pages b.start).property = b.size) (hk : 0 < k) (i : ℕ) :
    (takeBlock s b.start k).pages i =
      if i = b.start then clearPageProperty (s.pages i)
      else if i = b.start + k ∧ k < b.size then
        { s.pages i with property := b.size - k, pgProperty := true }
      else s.pages i := by
  unfold takeBlock
  simp only [Pmm.modPage, hsize]
  by_cases hi : i = b.start
  · subst hi
    rw [if_pos rfl]
    split_ifs <;> simp [hk.ne']
  · by_cases hik : i = b.start + k
    · split_ifs <;> simp_all [setPageProperty]
    · split_ifs <;> simp_all

lemma takeBlock_nrFree (hk : k ≤ s.nrFree) (hu : s.nrFree < uintRange) :
    (takeBlock s b.start k).nrFree = s.nrFree - k := by
  have hnr : (takeBlock s b.start k).nrFree =
      (s.nrFree + uintRange - k % uintRange) % uintRange := by
    unfold takeBlock
    simp only [Pmm.modPage]
    split_ifs <;> rfl
  rw [hnr, Nat.mod_eq_of_lt (lt_of_le_of_lt hk hu)]
  unfold uintRange at *
  omega

/-- The list after `takeBlock`: the rest of the block stands in the block's place. -/
lemma takeBlock_ring (r : s.links.Ring .head ((pre ++ b :: post).map link))
    (hs : (pre ++ b :: post).Pairwise Seg.Before) (hpos : ∀ c ∈ pre ++ b :: post, 0 < c.size)
    (hsize : (s.pages b.start).property = b.size) :
    (takeBlock s b.start k).links.Ring .head ((pre ++ rest b k ++ post).map link) := by
  simp only [map_append, map_cons] at r
  have hdel := ring_listDel r
  by_cases hlt : k < b.size
  · have hlinks : (takeBlock s b.start k).links =
        listAdd (listDel s.links (link b)) (listPrev s.links (link b)) (.page (b.start + k)) := by
      simp [takeBlock, Pmm.modPage, hsize, hlt, link]
    rw [hlinks, show listPrev s.links (link b) = (pre.map link).getLastD .head from r.neighbours.1]
    simp only [rest, if_pos hlt, map_append, map_cons, append_assoc,
      cons_append, nil_append]
    refine ring_listAdd hdel ?_
    -- no other block starts inside `b`
    simp only [mem_cons, mem_append, link_mem_map, reduceCtorEq, false_or, not_or,
      not_exists, not_and]
    obtain ⟨-, -, hp3, hp4, -⟩ := pairwise_around hs
    constructor
    · intro c hc
      have h1 := hp3 c hc
      have h2 := hpos c (by simp [hc])
      omega
    · intro c hc
      have := hp4 c hc
      omega
  · have hlinks : (takeBlock s b.start k).links = listDel s.links (link b) := by
      simp [takeBlock, Pmm.modPage, hsize, hlt, link]
    rw [hlinks]
    simpa [rest, hlt] using hdel

/-- The order of the list after `takeBlock`. -/
lemma rest_pairwise {R : Seg → Seg → Prop} (h : (pre ++ b :: post).Pairwise R)
    (hl : ∀ a, R a b → R a ⟨b.start + k, b.size - k⟩)
    (hr : k < b.size → ∀ a, R b a → R ⟨b.start + k, b.size - k⟩ a) :
    (pre ++ rest b k ++ post).Pairwise R := by
  obtain ⟨hp1, hp2, hp3, hp4, hp5⟩ := pairwise_around h
  unfold rest
  split_ifs with hlt
  · rw [append_assoc]
    exact pairwise_insert hp1 hp2 (fun a ha => hl a (hp3 a ha))
      (fun c hc => hr hlt c (hp4 c hc)) hp5
  · simpa using pairwise_append.mpr ⟨hp1, hp2, hp5⟩

lemma rest_sorted (h : (pre ++ b :: post).Pairwise Seg.Before) :
    (pre ++ rest b k ++ post).Pairwise Seg.Before := by
  refine rest_pairwise h (fun a ha => ?_) (fun hlt a ha => ?_)
  · simp only [Seg.Before] at *
    omega
  · simp only [Seg.Before] at *
    omega

/-- **Taking a block**: `default_alloc_pages` hands out the first `k` pages of the block it has
found; the rest of the block stays free. -/
lemma FirstFit.takeBlock (h : FirstFit lo n s A (pre ++ b :: post)) (hn : n < uintRange)
    (hk : 0 < k) (hkb : k ≤ b.size) :
    FirstFit lo n (takeBlock s b.start k) (A ∪ {i | b.start ≤ i ∧ i < b.start + k})
      (pre ++ rest b k ++ post) := by
  have hsize := h.size b (by simp)
  have hb := h.bounds b (by simp)
  have hpages := takeBlock_pages hsize hk
  have h' : Blocks lo n s A (pre ++ [b] ++ post) := by simpa using h.toBlocks
  refine ⟨h'.replace (takeBlock_ring h.ring h.sorted (fun c hc => (h.bounds c hc).1) hsize)
    (rest_sorted h.sorted) ?_ ?_ ?_ ?_ ?_ ?_ ?_, ?_⟩
  · intro c hc
    obtain ⟨rfl, hlt⟩ := mem_rest.mp hc
    simp only
    omega
  · intro c hc
    obtain ⟨rfl, hlt⟩ := mem_rest.mp hc
    simp [hpages, hlt, hk.ne']
  · intro c hc _
    obtain rfl : c = b := by simpa using hc
    simp [hpages, clearPageProperty]
  · intro i hi
    have hib : i ≠ b.start := fun e => hi b (by simp) e.symm
    have hik : ¬(i = b.start + k ∧ k < b.size) := fun e =>
      hi _ (mem_append_right _ (mem_rest.mpr ⟨rfl, e.2⟩)) e.1.symm
    simp [hpages, hib, hik]
  · intro i hi
    rw [hpages]
    split_ifs <;> simpa [clearPageProperty] using hi
  · have htot := h.total_le
    have hc := h.count
    simp only [total_append, total_cons] at hc htot
    rw [takeBlock_nrFree (by omega) (by omega), total_rest]
    simp only [total_cons, total_nil]
    omega
  · intro i
    simp only [Set.mem_union, Set.mem_ofPred_eq, covered_cons, covered_nil, or_false,
      covered_rest, Seg.Contains]
    by_cases hA : i ∈ A
    · have hi : ¬b.Contains i := fun hc => h.notMem_of_contains (by simp) hc hA
      simp only [hA, true_or, true_and, true_iff]
      omega
    · simp only [hA, false_or]
      omega
  · refine rest_pairwise h.apart (fun a ha => ?_) (fun hlt a ha => ?_)
    · simp only [Seg.Apart] at *
      omega
    · simp only [Seg.Apart] at *
      omega

/-! ## Freeing -/

section Free

/-- **Merging two touching blocks** of the list into the lower one. -/
lemma Blocks.absorb (h : Blocks lo n s A (pre ++ b :: c :: post)) (hn : n < uintRange)
    (hbc : b.start + b.size = c.start) :
    Blocks lo n (absorb s b.start c.start) A (pre ++ ⟨b.start, b.size + c.size⟩ :: post) := by
  have h' : Blocks lo n s A (pre ++ [b, c] ++ post) := by simpa using h
  have hb := h.bounds b (by simp)
  have hc := h.bounds c (by simp)
  have hne : b.start ≠ c.start := by omega
  have hsum : (b.size + c.size) % uintRange = b.size + c.size := Nat.mod_eq_of_lt (by omega)
  have hpages : ∀ i, (Ucore.absorb s b.start c.start).pages i =
      if i = c.start then clearPageProperty (s.pages i)
      else if i = b.start then { s.pages i with property := b.size + c.size } else s.pages i := by
    intro i
    simp only [Ucore.absorb, Pmm.modPage, h.size b (by simp), h.size c (by simp), hsum]
    by_cases hic : i = c.start
    · subst hic
      simp [update_of_ne hne.symm]
    · by_cases hib : i = b.start
      · subst hib
        simp [hic]
      · simp [hic, hib]
  have hflag := (h.flag b.start hb.2.1 (by omega)).mpr ⟨b, by simp, rfl⟩
  have key := @Blocks.replace lo n s (Ucore.absorb s b.start c.start) A A pre [b, c]
    [⟨b.start, b.size + c.size⟩] post h'
  simp only [append_assoc, cons_append, nil_append, mem_cons, not_mem_nil,
    or_false, forall_eq_or_imp, forall_eq] at key
  refine key ?_ ?_ (by omega) ?_ ?_ ?_ ?_ ?_ ?_
  · have r' : s.links.Ring .head ((pre.map link ++ [link b]) ++ link c :: post.map link) := by
      simpa using h.ring
    change (listDel s.links (link c)).Ring _ _
    simpa [link] using ring_listDel r'
  · obtain ⟨hp1, hp2, hp3, hp4, hp5⟩ := pairwise_around h.sorted
    rw [pairwise_cons] at hp2
    refine pairwise_insert hp1 hp2.2 hp3 ?_ fun a ha d hd => hp5 a ha d (by simp [hd])
    intro a ha
    have := hp2.1 a ha
    simp only [Seg.Before] at *
    omega
  · simp [hpages, hne, hflag]
  · exact ⟨fun hn => absurd rfl hn, fun _ => by simp [hpages, clearPageProperty]⟩
  · rintro i ⟨hib, hic, -⟩
    simp [hpages, Ne.symm hib, Ne.symm hic]
  · intro i hi
    rw [hpages]
    split_ifs <;> simpa [clearPageProperty] using hi
  · change s.nrFree + _ = _
    simp only [total_cons, total_nil]
    omega
  · intro i
    simp only [covered_cons, covered_nil, or_false, Seg.Contains]
    by_cases hA : i ∈ A
    · have h1 : ¬b.Contains i := fun hc => h.notMem_of_contains (by simp) hc hA
      have h2 : ¬c.Contains i := fun hc => h.notMem_of_contains (by simp) hc hA
      simp only [hA, true_or, true_and, true_iff]
      omega
    · simp only [hA, false_or, false_iff]
      omega

section

variable (h : Blocks lo n s A (pre ++ b :: post)) (hn : n < uintRange)
  (hpre : pre.Pairwise Seg.Apart)
include h hn hpre

/-- **The lower merge**: if the block before `b` touches `b`, the two become one block; no block
before the resulting one touches it. -/
lemma Blocks.mergePrev (hpp : ∀ a ∈ pre, ∀ d ∈ post, a.Apart d) :
    ∃ pre' b', (mergePrev s b.start).2 = b'.start ∧
      Blocks lo n (mergePrev s b.start).1 A (pre' ++ b' :: post) ∧ pre'.Pairwise Seg.Apart ∧
      (∀ a ∈ pre', a.Apart b') ∧ ∀ a ∈ pre', ∀ d ∈ post, a.Apart d := by
  have r := h.ring
  simp only [map_append, map_cons] at r
  have hprev : listPrev s.links (.page b.start) = (pre.map link).getLastD .head := r.neighbours.1
  rcases eq_nil_or_concat pre with rfl | ⟨zs, z, rfl⟩
  · refine ⟨[], b, ?_, ?_, by simp, by simp, by simp⟩
    · simp [Ucore.mergePrev, hprev]
    · simpa [Ucore.mergePrev, hprev] using h
  · rw [concat_eq_append] at *
    rw [getLastD_map_concat] at hprev
    have hz := h.size z (by simp)
    have hzs : ∀ a ∈ zs, a.Apart z := by
      have := pairwise_append.mp hpre
      exact fun a ha => this.2.2 a ha z (by simp)
    by_cases htouch : z.start + z.size = b.start
    · refine ⟨zs, ⟨z.start, z.size + b.size⟩, ?_, ?_, (pairwise_append.mp hpre).1, hzs,
        fun a ha => hpp a (by simp [ha])⟩
      · simp [Ucore.mergePrev, hprev, link, hz, htouch]
      · have h' : Blocks lo n s A (zs ++ z :: b :: post) := by simpa using h
        have := h'.absorb hn htouch
        simpa [Ucore.mergePrev, hprev, link, hz, htouch] using this
    · refine ⟨zs ++ [z], b, ?_, ?_, hpre, ?_, hpp⟩
      · simp [Ucore.mergePrev, hprev, link, hz, htouch]
      · simpa [Ucore.mergePrev, hprev, link, hz, htouch] using h
      · intro a ha
        have hab := (pairwise_around h.sorted).2.2.1 a ha
        rcases mem_append.mp ha with ha | ha
        · -- a block before `z` ends below `z`
          have h1 := hzs a ha
          have h2 := (pairwise_around h.sorted).2.2.1 z (by simp)
          omega
        · obtain rfl : a = z := by simpa using ha
          omega

/-- **The upper merge**: if the block after `b` touches `b`, the two become one block, and then no
two blocks of the list touch. -/
lemma Blocks.mergeNext (hpost : post.Pairwise Seg.Apart) (hb : ∀ a ∈ pre, a.Apart b)
    (hpp : ∀ a ∈ pre, ∀ d ∈ post, a.Apart d) : ∃ bs, FirstFit lo n (mergeNext s b.start) A bs := by
  have r := h.ring
  simp only [map_append, map_cons] at r
  have hnext : listNext s.links (.page b.start) = (post.map link).headD .head := r.neighbours.2
  have hsz := h.size b (by simp)
  cases post with
  | nil =>
    refine ⟨pre ++ [b], ?_, ?_⟩
    · simpa [Ucore.mergeNext, hnext] using h
    · exact pairwise_insert hpre hpost hb (by simp) hpp
  | cons d post =>
    rw [pairwise_cons] at hpost
    have hbd : b.Before d := (pairwise_around h.sorted).2.2.2.1 d (by simp)
    by_cases htouch : b.start + b.size = d.start
    · refine ⟨pre ++ ⟨b.start, b.size + d.size⟩ :: post, ?_, ?_⟩
      · have := h.absorb hn htouch
        simpa [Ucore.mergeNext, hnext, link, hsz, htouch] using this
      · refine pairwise_insert hpre hpost.2 hb ?_ fun a ha e he => hpp a ha e (by simp [he])
        intro a ha
        have := hpost.1 a ha
        unfold Seg.Apart at *
        simp only
        omega
    · refine ⟨pre ++ b :: d :: post, ?_, ?_⟩
      · simpa [Ucore.mergeNext, hnext, link, hsz, htouch] using h
      · refine pairwise_insert hpre (pairwise_cons.mpr hpost) hb ?_ hpp
        intro a ha
        rcases mem_cons.mp ha with rfl | ha
        · omega
        · have h1 := hpost.1 a ha
          omega

end

variable {bs : List Seg} {base : ℕ}

/-- A page that is not free cuts the list into the blocks below it and those above it. -/
lemma Blocks.split_at (h : Blocks lo n s A bs) (hb : base ∈ A) :
    ∃ pre post, bs = pre ++ post ∧ (∀ a ∈ pre, a.start + a.size ≤ base) ∧
      ∀ d ∈ post, base < d.start := by
  have hnc := ((h.alloc base).mp hb).2.2
  have hs := h.sorted
  clear h
  induction bs with
  | nil => exact ⟨[], [], rfl, by simp, by simp⟩
  | cons b bs ih =>
    rw [pairwise_cons] at hs
    rw [covered_cons, not_or] at hnc
    by_cases hlt : base < b.start
    · refine ⟨[], b :: bs, rfl, by simp, ?_⟩
      intro d hd
      rcases mem_cons.mp hd with rfl | hd
      · exact hlt
      · have := hs.1 d hd
        omega
    · obtain ⟨pre, post, rfl, h1, h2⟩ := ih hnc.2 hs.2
      refine ⟨b :: pre, post, rfl, ?_, h2⟩
      intro a ha
      rcases mem_cons.mp ha with rfl | ha
      · have := hnc.1
        omega
      · exact h1 a ha

/-- The descriptors of a freed range before it is linked in: all of them are reset, and the first
one becomes the head of a block. -/
def freedPages (pages : ℕ → Page) (base k : ℕ) (i : ℕ) : Page :=
  if i = base then ⟨0, false, true, k⟩
  else if base ≤ i ∧ i < base + k then
    { pages i with ref := 0, pgReserved := false, pgProperty := false }
  else pages i

/-- The state with a freed range, its list being `l`. -/
def Pmm.freed (s : Pmm) (base k : ℕ) (l : Links PageLink) : Pmm :=
  { links := l, pages := freedPages s.pages base k, nrFree := (s.nrFree + k) % uintRange }

/-- An allocated range lies in the region. -/
lemma Blocks.range_bounds (h : Blocks lo n s A bs) (hk : 0 < k)
    (hA : ∀ i, base ≤ i → i < base + k → i ∈ A) : lo ≤ base ∧ base + k ≤ lo + n := by
  have hlast := (h.alloc _).mp (hA (base + k - 1) (by omega) (by omega))
  have hfirst := (h.alloc _).mp (hA base le_rfl (by omega))
  omega

/-- `default_free_pages` on an allocated range up to the insertion into the free list. -/
lemma Blocks.freePages_eq {fuel : ℕ} (h : Blocks lo n s A bs) (hn : n < uintRange) (hk : 0 < k)
    (hA : ∀ i, base ≤ i → i < base + k → i ∈ A) :
    defaultFreePages fuel base k s = linkAndMerge fuel base (s.freed base k s.links) := by
  have hku : k < uintRange := by
    have := h.range_bounds hk hA
    omega
  rw [defaultFreePages, ensure_bind_apply, if_pos hk,
    bind_of_ok (forPages_apply _ _ _ _ _ _ _)]
  · refine congrArg (linkAndMerge fuel base) ?_
    simp only [Pmm.modPage, Pmm.freed, Pmm.mk.injEq, true_and, and_true]
    funext i
    unfold freedPages
    by_cases hi : i = base
    · subst hi
      simp [setPageProperty, Nat.mod_eq_of_lt hku, hk]
    · simp [hi]
  · intro i h1 h2
    simp [h.flags_of_mem (hA i h1 h2)]

/-- Once the freed range is linked into its place, the state describes the old blocks and the
freed one. -/
lemma FirstFit.insert (h : FirstFit lo n s A (pre ++ post)) (hn : n < uintRange) (hk : 0 < k)
    (hA : ∀ i, base ≤ i → i < base + k → i ∈ A) (hpre : ∀ a ∈ pre, a.start + a.size ≤ base)
    (hpost : ∀ d ∈ post, base < d.start) (r : l.Ring .head ((pre ++ ⟨base, k⟩ :: post).map link)) :
    Blocks lo n (s.freed base k l) (A \ {i | base ≤ i ∧ i < base + k})
      (pre ++ ⟨base, k⟩ :: post) := by
  -- the blocks above `base` start above the freed range
  have hpost' : ∀ d ∈ post, base + k ≤ d.start := by
    intro d hd
    by_contra hlt
    have h1 := hpost d hd
    have h2 := h.bounds d (by simp [hd])
    exact h.notMem_of_contains (b := d) (by simp [hd]) ⟨le_rfl, by omega⟩
      (hA d.start (by omega) (by omega))
  obtain ⟨hs1, hs2, hs3⟩ := pairwise_append.mp h.sorted
  have hsorted : (pre ++ ⟨base, k⟩ :: post).Pairwise Seg.Before :=
    pairwise_insert hs1 hs2 hpre hpost' hs3
  have hmid : 0 < k ∧ lo ≤ base ∧ base + k ≤ lo + n := ⟨hk, h.range_bounds hk hA⟩
  have h' : Blocks lo n s A (pre ++ [] ++ post) := by simpa using h.toBlocks
  have key := @Blocks.replace lo n s (s.freed base k l) A (A \ {i | base ≤ i ∧ i < base + k}) pre []
    [⟨base, k⟩] post h'
  simp only [append_assoc, cons_append, nil_append, mem_cons, not_mem_nil,
    or_false, forall_eq] at key
  refine key r hsorted hmid (by simp [Pmm.freed, freedPages]) (by simp) ?_ ?_ ?_ ?_
  · intro i hi
    simp only [Pmm.freed, freedPages, if_neg (Ne.symm hi)]
    split_ifs with hr
    · exact ⟨(h.flags_of_mem (hA i hr.1 hr.2)).2.symm, rfl⟩
    · exact ⟨rfl, rfl⟩
  · intro i hi
    simp only [Pmm.freed, freedPages]
    split_ifs <;> first | rfl | exact hi
  · have hc := h.count
    have htot := total_le hsorted (Nat.le_add_right lo n) (by
      intro b hb
      simp only [mem_append, mem_cons] at hb
      rcases hb with hb | rfl | hb
      · exact (h.bounds b (by simp [hb])).2
      · exact hmid.2
      · exact (h.bounds b (by simp [hb])).2)
    simp only [Pmm.freed, total_append, total_cons, total_nil] at hc htot ⊢
    rw [Nat.mod_eq_of_lt (by omega)]
    omega
  · intro i
    simp [Seg.Contains]

/-- **Freeing below the last free block** (or into an empty list): the freed range is linked in
order and merged with the blocks it touches.

**Proof sketch.** The range cuts the list into `pre` and `post` (`Blocks.split_at`). If the list is
empty `list_add` behind the head links it; otherwise `post` is not empty and the insertion loop
links it before the first block of `post` (`insertLoop_spec`). Then the two merges
(`Blocks.mergePrev`, `Blocks.mergeNext`) restore that no two blocks touch. -/
lemma FirstFit.freePages {fuel : ℕ} (h : FirstFit lo n s A bs) (hn : n < uintRange) (hf : n < fuel)
    (hk : 0 < k) (hA : ∀ i, base ≤ i → i < base + k → i ∈ A)
    (hcond : bs = [] ∨ ∃ b ∈ bs, base < b.start) :
    ∃ s' bs', defaultFreePages fuel base k s = .ok ((), s') ∧
      FirstFit lo n s' (A \ {i | base ≤ i ∧ i < base + k}) bs' := by
  have hbA := hA base le_rfl (by omega)
  obtain ⟨pre, post, rfl, hpre, hpost⟩ := h.split_at hbA
  have hnotin : .page base ∉ .head :: ((pre ++ post).map link) := by
    simp only [mem_cons, reduceCtorEq, link_mem_map, false_or, not_exists, not_and]
    rintro b hb rfl
    exact h.notMem_of_contains hb ⟨le_rfl, by have := (h.bounds b hb).1; omega⟩ hbA
  -- the list after the insertion
  have hins : ∃ l, insertBlock fuel base (s.freed base k s.links) = .ok ((), s.freed base k l) ∧
      l.Ring .head ((pre ++ ⟨base, k⟩ :: post).map link) := by
    have r := h.ring
    rcases hcond with hnil | ⟨b, hb, hlt⟩
    · obtain ⟨rfl, rfl⟩ := append_eq_nil_iff.mp hnil
      refine ⟨listAdd s.links .head (.page base), ?_, ?_⟩
      · have he : listEmpty s.links .head = true := (listEmpty_iff r).mpr (by simp)
        simp [insertBlock, Pmm.freed, he]
      · have r' : s.links.Ring .head ([] ++ []) := by simpa using r
        simpa [link] using ring_listAdd r' (e := .page base) (by simp)
    · cases post with
      | nil =>
        simp only [append_nil] at hb
        have := hpre b hb
        omega
      | cons c post =>
        refine ⟨listAddBefore s.links (link c) (.page base), ?_, ?_⟩
        · have he : listEmpty s.links .head = false := by
            rw [Bool.eq_false_iff, Ne, listEmpty_iff r]
            simp
          have hloop := insertLoop_spec (hpost c (by simp)) pre [] fuel (by simpa using r)
            (fun a ha => by have := hpre a ha; omega)
            (by have := h.length_le; simp at this; omega)
          simp only [map_nil, getLastD_nil] at hloop
          simp [insertBlock, Pmm.freed, he, hloop]
        · rw [map_append] at r hnotin
          have := ring_listAddBefore r hnotin
          simpa [link] using this
  obtain ⟨l, hl, rl⟩ := hins
  have hblocks := h.insert hn hk hA hpre hpost rl
  obtain ⟨hp1, hp2, hp3⟩ := pairwise_append.mp h.apart
  obtain ⟨pre', b', hbase, hB, hq1, hq2, hq3⟩ := hblocks.mergePrev hn hp1 hp3
  obtain ⟨bs', hbs'⟩ := hB.mergeNext hn hq1 hp2 hq2 hq3
  refine ⟨_, bs', ?_, hbs'⟩
  rw [h.freePages_eq hn hk hA, linkAndMerge, bind_of_ok hl, modify_apply, ← hbase]

/-- **Freeing above the last free block**: the freed block ends up with a `prev` pointer to
itself.

**Proof sketch.** The insertion loop links the block behind the last one and then behind itself
(`insertLoop_tail`). Its `prev` neighbour is then itself, which does not end where it starts, and
its `next` neighbour is the head, so neither merge happens. -/
lemma freePages_tail {fuel : ℕ} (h : FirstFit lo n s A bs) (hn : n < uintRange) (hf : n + 1 < fuel)
    (hk : 0 < k) (hA : ∀ i, base ≤ i → i < base + k → i ∈ A) (hne : bs ≠ [])
    (htail : ∀ b ∈ bs, b.start < base) : ∃ s', defaultFreePages fuel base k s = .ok ((), s') ∧
      s'.links.prev (.page base) = .page base ∧ (s'.pages base).pgProperty = true := by
  obtain ⟨l, hl, hprev, hnext⟩ := insertLoop_tail base bs [] fuel (by simpa using h.ring)
    hne (by simpa using htail) (by have := h.length_le; omega)
  simp only [map_nil, getLastD_nil] at hl
  have he : listEmpty s.links .head = false := by
    rw [Bool.eq_false_iff, Ne, listEmpty_iff h.ring]
    simpa using hne
  refine ⟨s.freed base k l, ?_, hprev, by simp [Pmm.freed, freedPages]⟩
  have hins : insertBlock fuel base (s.freed base k s.links) = .ok ((), s.freed base k l) := by
    simp [insertBlock, Pmm.freed, he, hl]
  rw [h.freePages_eq hn hk hA, linkAndMerge, bind_of_ok hins, modify_apply]
  simp [Ucore.mergePrev, Ucore.mergeNext, Pmm.freed, listPrev, listNext, hprev, hnext, freedPages,
    hk.ne']

end Free

end Ucore
