import Ucore.Lib.Segments
import Ucore.Mm.Kmalloc

set_option autoImplicit false

/-!
# The heap of `kmalloc`

The free blocks form a ring in increasing order of their addresses that begins with `arena`, and no
two of them touch. Together with the blocks that have been handed out they cover the memory that the
module owns, every byte once.

## Main definitions

* `Slob.FreeList` — the ring of the free blocks in memory.
* `Slob.owned` — the memory that the module owns.
* `Slob.HeapOk` — the invariant of the heap.

## Main results

* `Slob.slobInsert_spec` — `slob_free` returns and makes a block free.
* `Slob.slobLoop_spec` — the loop of `slob_alloc` returns, and what it returns is a new block.
-/

namespace Ucore.Slob

open Function Comp List Finset Seg

variable {A : Type} (al : PageAllocator A)

/-- The static block `arena`. -/
def arenaSeg : Seg := ⟨al.arena, slobUnit⟩

/-- The bytes of `n` pages. -/
def pagesSeg (p n : ℕ) : Seg := ⟨al.page2kva p, n * pageSize⟩

/-- 1 for the bytes that the module owns: those of `arena` and of the pages it has taken. -/
def owned (taken : Finset ℕ) (x : ℕ) : ℕ :=
  (arenaSeg al).hit x + if al.base ≤ x ∧ al.kva2page x ∈ taken then 1 else 0

/-- **The free blocks in memory**: a ring of the blocks `fl`, of which `slobfree` is one. -/
structure FreeList (fl : List Seg) (s : Kmem A) : Prop where
  head : ∃ fs, fl = arenaSeg al :: fs
  ring : Sll s.next (fl.map Seg.start) al.arena
  units : ∀ b ∈ fl, s.units b.start * slobUnit = b.size
  cur : s.slobfree ∈ fl.map Seg.start

/-- The page allocator is in order, and the pages `T` are pages of it that are not free. -/
structure Owns (T : Finset ℕ) (a : A) : Prop where
  good : al.Good a
  mem : ∀ p ∈ T, p ∈ Set.Ico al.first al.npage \ al.free a

/-- **The invariant of the heap**, with the free blocks `fl` and all other blocks `L`. -/
structure HeapOk (fl L : List Seg) (s : Kmem A) : Prop extends FreeList al fl s where
  apart : fl.Pairwise Seg.Apart
  pos : ∀ b ∈ fl ++ L, 0 < b.size
  cover : ∀ x, Seg.cov fl x + Seg.cov L x = owned al s.taken x
  taken : Owns al s.taken s.alloc

/-- Memory outside the free blocks is as before, and so is all other data. -/
structure Keeps (fl : List Seg) (s t : Kmem A) : Prop where
  units : ∀ x, (∀ b ∈ fl, ¬b.Contains x) → t.units x = s.units x
  next : ∀ x, (∀ b ∈ fl, ¬b.Contains x) → t.next x = s.next x
  bigblocks : t.bigblocks = s.bigblocks

variable {al} {fl L : List Seg} {s t : Kmem A} {b c : Seg} {x : ℕ}

/-! ## Pages -/

lemma pageSize_pos : 0 < pageSize := by decide

lemma page2kva_le (h : al.base ≤ x) : al.page2kva (al.kva2page x) ≤ x := by
  have hdiv := Nat.div_mul_le_self (x - al.base) pageSize
  unfold PageAllocator.page2kva PageAllocator.kva2page
  omega

lemma kva2page_of_mem {p i : ℕ} (h : i < pageSize) : al.kva2page (al.page2kva p + i) = p := by
  unfold PageAllocator.page2kva PageAllocator.kva2page
  rw [show al.base + p * pageSize + i - al.base = i + p * pageSize by omega,
    Nat.add_mul_div_right _ _ pageSize_pos, Nat.div_eq_of_lt h, zero_add]

/-- The bytes of a run of pages. -/
lemma pagesSeg_contains {p n : ℕ} : (pagesSeg al p n).Contains x ↔
    al.base ≤ x ∧ al.kva2page x ∈ Finset.Ico p (p + n) := by
  unfold Seg.Contains pagesSeg PageAllocator.page2kva PageAllocator.kva2page
  rw [mem_Ico]
  have hpos := pageSize_pos
  dsimp only
  constructor
  · rintro ⟨h1, h2⟩
    refine ⟨by omega, ?_, ?_⟩
    · rw [Nat.le_div_iff_mul_le hpos]
      omega
    · rw [Nat.div_lt_iff_lt_mul hpos, add_mul]
      omega
  · rintro ⟨h0, h1, h2⟩
    rw [Nat.le_div_iff_mul_le hpos] at h1
    rw [Nat.div_lt_iff_lt_mul hpos, add_mul] at h2
    omega

lemma Owns.above {T : Finset ℕ} {a : A} {p : ℕ} (h : Owns al T a) (hp : p ∈ T) :
    al.arena + slobUnit < al.page2kva p :=
  lt_of_lt_of_le al.above (Nat.add_le_add_left (Nat.mul_le_mul_right _ (h.mem p hp).1.1) _)

/-- More pages are owned. -/
lemma owned_union {T : Finset ℕ} {p n : ℕ} (hT : ∀ q ∈ Finset.Ico p (p + n), q ∉ T) (x : ℕ) :
    owned al (T ∪ Finset.Ico p (p + n)) x = owned al T x + (pagesSeg al p n).hit x := by
  have h1 : (pagesSeg al p n).hit x =
      if al.base ≤ x ∧ al.kva2page x ∈ Finset.Ico p (p + n) then 1 else 0 :=
    if_congr pagesSeg_contains rfl rfl
  simp only [owned, h1, add_assoc, mem_union]
  by_cases hx : al.kva2page x ∈ Finset.Ico p (p + n)
  · simp [hx, hT _ hx]
  · simp [hx]

/-! ## The blocks of the heap -/

namespace HeapOk

variable (h : HeapOk al fl L s)

include h

/-- The bytes of `arena` are in no page. -/
lemma owned_le_one (x : ℕ) : owned al s.taken x ≤ 1 := by
  unfold owned Seg.hit
  split_ifs with h1 h2
  · have h3 := h.taken.above h2.2
    have h4 := page2kva_le h2.1
    unfold arenaSeg at h1
    dsimp only at h1
    omega
  all_goals omega

lemma arena_mem : arenaSeg al ∈ fl := by
  obtain ⟨fs, rfl⟩ := h.head
  exact mem_cons_self

lemma disjoint (hb : b ∈ fl) (hc : c ∈ L) (hx : b.Contains x) (hx' : c.Contains x) : False := by
  have h1 := cov_pos hb hx
  have h2 := cov_pos hc hx'
  have h3 := h.cover x
  have h4 := h.owned_le_one x
  omega

lemma disjoint_live (hb : b ∈ L) (hc : c ∈ L.erase b) (hx : b.Contains x) (hx' : c.Contains x) :
    False := by
  have h1 := hit_of_contains hx
  have h2 := cov_pos hc hx'
  have h3 := h.cover x
  have h4 := h.owned_le_one x
  have h5 := cov_erase hb x
  omega

/-- The bytes of a block that has been handed out lie in pages that have been taken. -/
lemma page_of_live (hb : b ∈ L) (hx : b.Contains x) : al.base ≤ x ∧ al.kva2page x ∈ s.taken := by
  by_contra hn
  have h1 := cov_pos hb hx
  have h2 := h.cover x
  unfold owned at h2
  rw [if_neg hn] at h2
  have h3 : (arenaSeg al).Contains x := by
    by_contra hc
    have h4 : (arenaSeg al).hit x = 0 := if_neg hc
    omega
  exact h.disjoint h.arena_mem hb h3 hx

lemma arena_lt (hb : b ∈ L) : al.arena + slobUnit < b.start := by
  have hx : b.Contains b.start := ⟨le_rfl, by have := h.pos b (by simp [hb]); omega⟩
  obtain ⟨h1, h2⟩ := h.page_of_live hb hx
  exact lt_of_lt_of_le (h.taken.above h2) (page2kva_le h1)

lemma before : fl.Pairwise Seg.Before := h.apart.imp fun hab => le_of_lt hab

lemma arena_le (hb : b ∈ fl) : al.arena ≤ b.start := by
  obtain ⟨fs, hfl⟩ := h.head
  have hp := h.before
  rw [hfl, List.pairwise_cons] at hp
  rw [hfl] at hb
  rcases List.mem_cons.mp hb with rfl | hb
  · exact le_rfl
  · have h1 : al.arena + slobUnit ≤ b.start := hp.1 b hb
    omega

/-- There are not more free blocks than bytes. -/
lemma length_le : fl.length ≤ al.fuel := by
  obtain ⟨fs, hfl⟩ := h.head
  have hb := h.before
  rw [hfl, List.pairwise_cons] at hb
  -- the blocks other than `arena` lie in the pages
  have hin : ∀ b ∈ fs, ∀ x, b.Contains x → al.base ≤ x ∧ al.kva2page x < al.npage := by
    intro b hbs x hx
    have h1 : 1 ≤ Seg.cov fl x := cov_pos (by rw [hfl]; exact mem_cons_of_mem _ hbs) hx
    have h2 := h.cover x
    have h3 : (arenaSeg al).hit x = 0 := by
      refine if_neg fun hc => ?_
      have h4 : al.arena + slobUnit ≤ b.start := hb.1 b hbs
      have h5 : x < al.arena + slobUnit := hc.2
      omega
    unfold owned at h2
    by_cases hp : al.base ≤ x ∧ al.kva2page x ∈ s.taken
    · exact ⟨hp.1, (h.taken.mem _ hp.2).1.2⟩
    · rw [if_neg hp] at h2
      omega
  have hpos : ∀ b ∈ fs, 0 < b.size := fun b hbs => h.pos b (by simp [hfl, hbs])
  have htotal : Seg.total fs ≤ al.base + al.npage * pageSize - al.base := by
    refine total_le hb.2 (by omega) fun b hbs => ?_
    have h0 := hpos b hbs
    obtain ⟨h1, -⟩ := hin b hbs b.start ⟨le_rfl, by omega⟩
    obtain ⟨h2, h3⟩ := hin b hbs (b.start + b.size - 1) ⟨by omega, by omega⟩
    refine ⟨h1, ?_⟩
    unfold PageAllocator.kva2page at h3
    rw [Nat.div_lt_iff_lt_mul pageSize_pos] at h3
    omega
  have hlen := length_le_total hpos
  rw [hfl, length_cons]
  unfold PageAllocator.fuel
  omega

lemma headD_start : (fl.map Seg.start).headD al.arena = al.arena := by
  obtain ⟨fs, rfl⟩ := h.head
  rfl

lemma next_eq {as bs : List Seg} (hfl : fl = as ++ b :: bs) :
    s.next b.start = (bs.map Seg.start).headD al.arena := by
  have hr := h.ring
  rw [hfl, List.map_append, List.map_cons, Sll.append] at hr
  exact hr.2.1

/-- **Where a block belongs** in the ring: the blocks before and behind it. -/
lemma exists_place (hb : b ∈ L) : ∃ as c bs, fl = as ++ c :: bs ∧
    (∀ d ∈ as ++ [c], d.start + d.size ≤ b.start) ∧ ∀ d ∈ bs, b.start + b.size ≤ d.start := by
  obtain ⟨fs, hfl⟩ := h.head
  have hbefore := h.before
  have hpair := h.before
  rw [hfl, List.pairwise_cons] at hpair
  have h0 : (arenaSeg al).start < b.start := by
    have := h.arena_lt hb
    change al.arena < b.start
    omega
  obtain ⟨as, c, bs, h1, h2, h3, h4⟩ := exists_split hpair.2 h0
  rw [← hfl] at h1
  have hbpos := h.pos b (by simp [hb])
  refine ⟨as, c, bs, h1, fun d hd => ?_, fun d hd => ?_⟩
  · have hd' : d ∈ fl := by
      rw [h1]
      rcases mem_append.mp hd with hd | hd
      · exact mem_append_left _ hd
      · rw [List.mem_singleton.mp hd]
        exact mem_append_right _ mem_cons_self
    have hlt : d.start < b.start := by
      rcases mem_append.mp hd with hd | hd
      · exact h2 d hd
      · rw [List.mem_singleton.mp hd]
        exact h3
    exact end_le hbpos hlt fun hx => h.disjoint hd' hb hx.1 hx.2
  · have hd' : d ∈ fl := by
      rw [h1]
      exact mem_append_right _ (mem_cons_of_mem _ hd)
    have hdpos := h.pos d (by simp [hd'])
    -- the first block behind begins above, and the others are behind it
    have hle : b.start ≤ d.start := by
      cases bs with
      | nil => cases hd
      | cons e bs =>
        have h5 := h4 e rfl
        rcases mem_cons.mp hd with rfl | hd
        · exact h5
        · rw [h1, List.pairwise_append, List.pairwise_cons] at hbefore
          have h6 : e.Before d := (pairwise_cons.mp hbefore.2.1.2).1 d hd
          omega
    have hne : b.start ≠ d.start := fun e => h.disjoint (x := d.start) hd' hb ⟨le_rfl, by omega⟩
      ⟨by omega, by omega⟩
    exact end_le hdpos (by omega) fun hx => h.disjoint hd' hb hx.2 hx.1

/-- **The search of `slob_free`** finds the block before the one that is freed. -/
lemma seek_place {as bs : List Seg} (hfl : fl = as ++ c :: bs)
    (hbelow : ∀ d ∈ as ++ [c], d.start + d.size ≤ b.start)
    (habove : ∀ d ∈ bs, b.start + b.size ≤ d.start) (hb : b ∈ L) :
    Sll.seek s.next (freeStop s b.start) al.fuel s.slobfree = some c.start := by
  have harena := h.arena_lt hb
  have hbpos := h.pos b (by simp [hb])
  have hpos : ∀ d ∈ fl, 0 < d.size := fun d hd => h.pos d (by simp [hd])
  refine h.ring.seek_ring h.headD_start h.cur
    (mem_map.mpr ⟨c, by rw [hfl]; simp, rfl⟩) (fun y hy => ?_) (by simpa using h.length_le)
  obtain ⟨d, hd, rfl⟩ := mem_map.mp hy
  have hcstart : c.start < b.start := by
    have h1 := hbelow c (by simp)
    have h2 := hpos c (by rw [hfl]; simp)
    omega
  unfold freeStop
  rw [decide_eq_true_iff]
  have hd' := hd
  rw [hfl] at hd'
  rcases mem_append.mp hd' with hda | hda
  · -- a block before the place: the next one is not above the block either
    obtain ⟨as1, as2, rfl⟩ := append_of_mem hda
    have hsplit : fl = as1 ++ d :: (as2 ++ c :: bs) := by rw [hfl]; simp
    have hnext := h.next_eq hsplit
    have hp := h.apart
    rw [hfl, List.append_assoc, List.cons_append, List.pairwise_append, List.pairwise_cons] at hp
    have hdc : d.Apart c := hp.2.1.1 c (by simp)
    have hnlt : s.next d.start < b.start ∧ d.start < s.next d.start := by
      rw [hnext]
      cases as2 with
      | nil => exact ⟨hcstart, by change d.start < c.start; omega⟩
      | cons e as2 =>
        have h1 := hbelow e (by simp)
        have h2 := hpos e (by rw [hfl]; simp)
        have h3 : d.Apart e := hp.2.1.1 e (by simp)
        exact ⟨by change e.start < b.start; omega, by change d.start < e.start; omega⟩
    constructor
    · intro hs
      omega
    · intro hs
      omega
  · rcases mem_cons.mp hda with rfl | hdb
    · -- the place itself
      have hnext := h.next_eq hfl
      refine ⟨fun _ => rfl, fun _ => ?_⟩
      cases bs with
      | nil =>
        rw [hnext]
        exact .inr ⟨h.arena_le hd, .inl hcstart⟩
      | cons e bs =>
        rw [hnext]
        refine .inl ⟨hcstart, ?_⟩
        have h1 := habove e (by simp)
        change b.start < e.start
        omega
    · -- a block behind the place
      obtain ⟨bs1, bs2, rfl⟩ := append_of_mem hdb
      have hsplit : fl = (as ++ c :: bs1) ++ d :: bs2 := by rw [hfl]; simp
      have hnext := h.next_eq hsplit
      have hp := h.apart
      rw [hfl, ← List.cons_append, ← List.append_assoc, List.pairwise_append, List.pairwise_cons]
        at hp
      have h1 := habove d (by simp)
      have hn : ¬(s.next d.start ≤ d.start ∧ b.start < s.next d.start) := by
        rw [hnext]
        cases bs2 with
        | nil =>
          change ¬(al.arena ≤ d.start ∧ b.start < al.arena)
          omega
        | cons e bs2 =>
          have h3 : d.Apart e := hp.2.1.1 e (by simp)
          change ¬(e.start ≤ d.start ∧ b.start < e.start)
          omega
      constructor
      · intro hs
        omega
      · intro hs
        omega

end HeapOk

/-! ## The end of the ring -/

/-- **The free blocks at the end of the ring**, linked and in order. -/
structure Chain (al : PageAllocator A) (bs : List Seg) (s : Kmem A) : Prop where
  ring : Sll s.next (bs.map Seg.start) al.arena
  units : ∀ b ∈ bs, s.units b.start * slobUnit = b.size
  apart : bs.Pairwise Seg.Apart
  pos : ∀ b ∈ bs, 0 < b.size

section Chain

variable {as bs ds M : List Seg} {d : Seg}

lemma Chain.tail (h : Chain al (b :: bs) s) : Chain al bs s :=
  ⟨h.ring.2, fun c hc => h.units c (mem_cons_of_mem _ hc), h.apart.of_cons,
    fun c hc => h.pos c (mem_cons_of_mem _ hc)⟩

/-- A block in front of a chain. -/
lemma Chain.cons (h : Chain al bs s) (hn : s.next b.start = (bs.map Seg.start).headD al.arena)
    (hu : s.units b.start * slobUnit = b.size) (ha : ∀ d ∈ bs, b.Apart d) (hpos : 0 < b.size) :
    Chain al (b :: bs) s :=
  ⟨⟨hn, h.ring⟩, forall_mem_cons.mpr ⟨hu, h.units⟩, pairwise_cons.mpr ⟨ha, h.apart⟩,
    forall_mem_cons.mpr ⟨hpos, h.pos⟩⟩

lemma Chain.congr (h : Chain al bs s)
    (hk : ∀ b ∈ bs, t.units b.start = s.units b.start ∧ t.next b.start = s.next b.start) :
    Chain al bs t := by
  refine ⟨h.ring.congr fun y hy => ?_, fun b hb => ?_, h.apart, h.pos⟩
  · obtain ⟨b, hb, rfl⟩ := mem_map.mp hy
    exact (hk b hb).2
  · rw [(hk b hb).1]
    exact h.units b hb

lemma HeapOk.chain (h : HeapOk al (as ++ bs) L s) : Chain al bs s := by
  have hr := h.ring
  rw [map_append, Sll.append] at hr
  exact ⟨hr.2, fun b hb => h.units b (mem_append_right _ hb), (pairwise_append.mp h.apart).2.1,
    fun b hb => h.pos b (by simp [hb])⟩

/-- **The end of the ring is replaced** by a chain that begins at the same address. -/
lemma HeapOk.splice (h : HeapOk al (as ++ d :: ds) L s) (hc : Chain al (c :: bs) t)
    (hstart : c.start = d.start) (harena : d = arenaSeg al → c = arenaSeg al)
    (hkeep : ∀ b ∈ as, t.units b.start = s.units b.start ∧ t.next b.start = s.next b.start)
    (hcur : t.slobfree ∈ (c :: bs).map Seg.start) (hM : ∀ b ∈ M, 0 < b.size)
    (hcov : ∀ x, Seg.cov (c :: bs) x + Seg.cov M x = Seg.cov (d :: ds) x + Seg.cov L x)
    (halloc : t.alloc = s.alloc) (htaken : t.taken = s.taken) : HeapOk al (as ++ c :: bs) M t := by
  have hr := h.ring
  rw [map_append, Sll.append] at hr
  have hp := pairwise_append.mp h.apart
  refine ⟨⟨?_, ?_, fun b hb => ?_, ?_⟩, ?_, fun b hb => ?_,
    fun x => ?_, by rw [halloc, htaken]; exact h.taken⟩
  · obtain ⟨fs, hfs⟩ := h.head
    cases as with
    | nil => exact ⟨bs, by rw [harena (List.cons.inj hfs).1]; rfl⟩
    | cons a as => exact ⟨as ++ c :: bs, by rw [(List.cons.inj hfs).1]; rfl⟩
  · rw [map_append, Sll.append]
    refine ⟨?_, hc.ring⟩
    change Sll t.next (as.map Seg.start) c.start
    rw [hstart]
    refine hr.1.congr fun y hy => ?_
    obtain ⟨b, hb, rfl⟩ := mem_map.mp hy
    exact (hkeep b hb).2
  · rcases mem_append.mp hb with hb | hb
    · rw [(hkeep b hb).1]
      exact h.units b (mem_append_left _ hb)
    · exact hc.units b hb
  · rw [map_append]
    exact mem_append_right _ hcur
  · refine pairwise_append.mpr ⟨hp.1, hc.apart, fun a ha e he => ?_⟩
    have h1 : a.Apart d := hp.2.2 a ha d mem_cons_self
    rcases mem_cons.mp he with rfl | he
    · omega
    · have h2 : c.Apart e := (pairwise_cons.mp hc.apart).1 e he
      omega
  · rcases mem_append.mp hb with hb | hb
    · rcases mem_append.mp hb with hb | hb
      · exact h.pos b (by simp [hb])
      · exact hc.pos b hb
    · exact hM b hb
  · have h1 := h.cover x
    have h2 := hcov x
    rw [cov_append] at h1 ⊢
    rw [htaken]
    omega

end Chain

/-! ## `slob_free` -/

/-- Both merges of `slob_free` are the same: a block is merged with the next one. -/
lemma joinPrev_eq (b cur : ℕ) (s : Kmem A) : joinPrev b cur s = joinNext cur b s := rfl

lemma joinNext_of_ne {y : ℕ} (nxt : ℕ) (s : Kmem A) (hy : y ≠ x) :
    (joinNext x nxt s).units y = s.units y ∧ (joinNext x nxt s).next y = s.next y := by
  unfold joinNext
  split_ifs
  · exact ⟨update_of_ne hy .., update_of_ne hy ..⟩
  · exact ⟨rfl, update_of_ne hy ..⟩

lemma joinNext_rest (x nxt : ℕ) (s : Kmem A) : (joinNext x nxt s).bigblocks = s.bigblocks ∧
    (joinNext x nxt s).alloc = s.alloc ∧ (joinNext x nxt s).taken = s.taken := by
  unfold joinNext
  split_ifs <;> exact ⟨rfl, rfl, rfl⟩

/-- **Merging with the next block**: the block, or the two in one, comes before the rest. -/
lemma joinNext_spec {bs : List Seg} (h : Chain al bs s) (hpos : 0 < b.size)
    (hbefore : ∀ d ∈ bs, b.Before d) (harena : al.arena ≤ b.start)
    (hub : s.units b.start * slobUnit = b.size) :
    ∃ b' bs', Chain al (b' :: bs') (joinNext b.start ((bs.map Seg.start).headD al.arena) s) ∧
      b'.start = b.start ∧ (∀ d ∈ b :: bs, ∃ d' ∈ b' :: bs', d.size ≤ d'.size) ∧
      (∀ x, Seg.cov (b' :: bs') x = Seg.cov (b :: bs) x) ∧ ((∀ d ∈ bs, b.Apart d) → b' = b) := by
  have hrest : ∀ d ∈ bs, d.start ≠ b.start := by
    intro d hd e
    have := hbefore d hd
    omega
  have hchain : Chain al bs (joinNext b.start ((bs.map Seg.start).headD al.arena) s) :=
    h.congr fun d hd => joinNext_of_ne _ s (hrest d hd)
  by_cases he : b.start + b.size = (bs.map Seg.start).headD al.arena
  · have e : joinNext b.start ((bs.map Seg.start).headD al.arena) s = _ := if_pos (hub ▸ he)
    cases bs with
    | nil =>
      rw [map_nil, headD_nil] at he
      omega
    | cons n bs =>
      have he' : b.start + b.size = n.start := he
      have hnu := h.units n mem_cons_self
      have hsub : ∀ d ∈ bs, n.Apart d := (pairwise_cons.mp h.apart).1
      refine ⟨⟨b.start, b.size + n.size⟩, bs, hchain.tail.cons ?_ ?_ (fun d hd => ?_) ?_, rfl,
        ?_, ?_, ?_⟩
      · rw [e]
        exact (update_self ..).trans h.ring.1
      · rw [e]
        change update s.units b.start (s.units b.start + s.units n.start) b.start * slobUnit = _
        rw [update_self, add_mul, hub, hnu]
      · have h1 := hsub d hd
        unfold Seg.Apart at h1 ⊢
        dsimp only
        omega
      · dsimp only
        omega
      · intro d hd
        rcases mem_cons.mp hd with rfl | hd
        · exact ⟨_, mem_cons_self, Nat.le_add_right ..⟩
        · rcases mem_cons.mp hd with rfl | hd
          · exact ⟨_, mem_cons_self, Nat.le_add_left ..⟩
          · exact ⟨d, mem_cons_of_mem _ hd, le_rfl⟩
      · intro x
        have h1 := hit_join b.start b.size n.size x
        rw [he'] at h1
        have h2 : Seg.hit ⟨n.start, n.size⟩ x = n.hit x := rfl
        have h3 : Seg.hit ⟨b.start, b.size⟩ x = b.hit x := rfl
        simp only [cov_cons]
        omega
      · intro hap
        have h1 := hap n mem_cons_self
        omega
  · have e : joinNext b.start ((bs.map Seg.start).headD al.arena) s = _ := if_neg (hub ▸ he)
    refine ⟨b, bs, hchain.cons ?_ ?_ (fun d hd => ?_) hpos, rfl, fun d hd => ⟨d, hd, le_rfl⟩,
      fun _ => rfl, fun _ => rfl⟩
    · rw [e]
      exact update_self ..
    · rw [e]
      exact hub
    · -- the first block behind is not adjacent, and the others are behind it
      have h1 := hbefore d hd
      cases bs with
      | nil => cases hd
      | cons n bs =>
        have hn : b.start + b.size ≠ n.start := he
        rcases mem_cons.mp hd with rfl | hd
        · omega
        · have h2 := (pairwise_cons.mp h.apart).1 d hd
          have h3 := hbefore n mem_cons_self
          omega

/-- **`slob_free`** returns, and the block is free afterwards.

**Proof sketch.** The search ends at the block `c` before the one that is freed. First the block is
merged with the chain behind `c`, then `c` with what has come out. -/
lemma slobInsert_spec (h : HeapOk al fl L s) (hb : b ∈ L)
    (hu : s.units b.start * slobUnit = b.size) :
    Returns (slobInsert al b.start) s fun _ t => ∃ fl', HeapOk al fl' (L.erase b) t ∧
      (∃ d ∈ fl', b.size ≤ d.size) ∧ t.alloc = s.alloc ∧ t.taken = s.taken ∧
      Keeps (b :: fl) s t := by
  obtain ⟨as, c, bs, rfl, hbelow, habove⟩ := h.exists_place hb
  have hseek := h.seek_place rfl hbelow habove hb
  have harena := h.arena_lt hb
  have hbpos := h.pos b (by simp [hb])
  have hcb : c.start + c.size ≤ b.start := hbelow c (by simp)
  have hchain := h.chain
  have hcpos := hchain.pos c mem_cons_self
  have hcb' : c.start ≠ b.start := by omega
  obtain ⟨b', bs', h1, hstart, hsize, hcov, -⟩ :=
    joinNext_spec hchain.tail hbpos habove (by omega) hu
  rw [← hchain.ring.1] at h1
  -- the block before is merged with what is behind it now
  have hbefore : ∀ d ∈ b' :: bs', c.Before d := by
    intro d hd
    rcases mem_cons.mp hd with rfl | hd
    · omega
    · have h2 := (pairwise_cons.mp h1.apart).1 d hd
      omega
  obtain ⟨c', cs, h2, hstart2, hsize2, hcov2, hsep⟩ :=
    joinNext_spec h1 hcpos hbefore (h.arena_le (by simp))
      (by rw [(joinNext_of_ne _ s hcb').1]; exact hchain.units c mem_cons_self)
  have hhead : ((b' :: bs').map Seg.start).headD al.arena = b.start := hstart
  rw [hhead, ← joinPrev_eq] at h2
  obtain ⟨hbig1, halloc1, htaken1⟩ := joinNext_rest b.start (s.next c.start) s
  obtain ⟨hbig2, halloc2, htaken2⟩ :=
    joinNext_rest c.start b.start (joinNext b.start (s.next c.start) s)
  have hkeep : ∀ y, y ≠ b.start → y ≠ c.start →
      (joinPrev b.start c.start (joinNext b.start (s.next c.start) s)).units y = s.units y ∧
      (joinPrev b.start c.start (joinNext b.start (s.next c.start) s)).next y = s.next y := by
    intro y hy hyc
    have h3 := joinNext_of_ne b.start (joinNext b.start (s.next c.start) s) hyc
    have h4 := joinNext_of_ne (s.next c.start) s hy
    exact ⟨h3.1.trans h4.1, h3.2.trans h4.2⟩
  have e : slobInsert al b.start s = .ok ((),
      { joinPrev b.start c.start (joinNext b.start (s.next c.start) s) with
        slobfree := c.start }) := by
    rw [slobInsert, read_bind_apply, hseek]
    rfl
  have hout : ∀ y, (∀ d ∈ b :: (as ++ c :: bs), ¬d.Contains y) → y ≠ b.start ∧ y ≠ c.start := by
    intro y hy
    constructor
    · rintro rfl
      exact hy b mem_cons_self ⟨le_rfl, by omega⟩
    · rintro rfl
      exact hy c (by simp) ⟨le_rfl, by omega⟩
  refine ⟨(), _, e, as ++ c' :: cs, ?_, ?_, halloc2.trans halloc1, htaken2.trans htaken1,
    fun y hy => (hkeep y (hout y hy).1 (hout y hy).2).1,
    fun y hy => (hkeep y (hout y hy).1 (hout y hy).2).2, hbig2.trans hbig1⟩
  · refine h.splice { h2 with } hstart2 (fun hc => ?_) (fun a ha => ?_)
      (by rw [List.map_cons, hstart2]; exact List.mem_cons_self)
      (fun d hd => h.pos d (mem_append_right _ (mem_of_mem_erase hd))) (fun x => ?_)
      (halloc2.trans halloc1) (htaken2.trans htaken1)
    · rw [← hc]
      refine hsep fun d hd => ?_
      have h3 : c.start + c.size = al.arena + slobUnit := by rw [hc]; rfl
      rcases mem_cons.mp hd with rfl | hd
      · omega
      · have h4 := (pairwise_cons.mp h1.apart).1 d hd
        omega
    · have h3 : a.Apart c := (pairwise_append.mp h.apart).2.2 a ha c mem_cons_self
      exact hkeep a.start (by omega) (by omega)
    · have h3 := hcov2 x
      have h4 := hcov x
      have h5 := cov_erase hb x
      simp only [cov_cons] at h3 h4 ⊢
      omega
  · obtain ⟨d, hd, hdle⟩ := hsize b mem_cons_self
    obtain ⟨d', hd', hdle'⟩ := hsize2 d (mem_cons_of_mem _ hd)
    exact ⟨d', mem_append_right _ hd', hdle.trans hdle'⟩

/-! ## `slob_alloc` -/

namespace HeapOk

/-- A block other than `arena` has a block before it in the ring. -/
lemma exists_succ {q : ℕ} (h : HeapOk al fl L s) (hq : q ∈ fl.map Seg.start)
    (hne : s.next q ≠ al.arena) :
    ∃ as d c bs, fl = as ++ d :: c :: bs ∧ d.start = q ∧ c.start = s.next q := by
  obtain ⟨d, hd, rfl⟩ := mem_map.mp hq
  obtain ⟨as, bs, hfl⟩ := append_of_mem hd
  have hnext := h.next_eq hfl
  cases bs with
  | nil => exact absurd hnext hne
  | cons c bs => exact ⟨as, d, c, bs, hfl, rfl, hnext.symm⟩

lemma units_arena (h : HeapOk al fl L s) : s.units al.arena = 1 := by
  have h1 := h.units (arenaSeg al) h.arena_mem
  have h2 : (arenaSeg al).size = 16 := rfl
  have h3 : (arenaSeg al).start = al.arena := rfl
  rw [h2, h3, slobUnit] at h1
  omega

/-- Only the fields of the two blocks and of the rest are changed. -/
lemma slobTake_of_ne {u q c y : ℕ} (s : Kmem A) (hq : y ≠ q) (hc : y ≠ c)
    (hr : s.units c ≠ u → y ≠ c + u * slobUnit) :
    (slobTake u q c s).units y = s.units y ∧ (slobTake u q c s).next y = s.next y := by
  unfold slobTake
  split_ifs with he
  · exact ⟨rfl, update_of_ne hq ..⟩
  · exact ⟨(update_of_ne hc ..).trans (update_of_ne (hr he) ..),
      (update_of_ne (hr he) ..).trans (update_of_ne hq ..)⟩

lemma slobTake_units (u q c : ℕ) (s : Kmem A) : (slobTake u q c s).units c = u := by
  unfold slobTake
  split_ifs with he
  · exact he
  · exact update_self ..

lemma slobTake_rest (u q c : ℕ) (s : Kmem A) : (slobTake u q c s).slobfree = q ∧
    (slobTake u q c s).bigblocks = s.bigblocks ∧ (slobTake u q c s).alloc = s.alloc ∧
    (slobTake u q c s).taken = s.taken := by
  unfold slobTake
  split_ifs <;> exact ⟨rfl, rfl, rfl, rfl⟩

section Take

variable {as bs : List Seg} {d : Seg} {u : ℕ} (h : HeapOk al (as ++ d :: c :: bs) L s)

include h

/-- The blocks before and behind two neighbours `d` and `c` are elsewhere. -/
lemma others_ne {e : Seg} : (e ∈ as → e.start + e.size < d.start) ∧
    (e ∈ bs → c.start + c.size < e.start) ∧ d.start + d.size < c.start ∧ 0 < d.size ∧
      0 < c.size := by
  have hp := pairwise_append.mp h.apart
  have hc := h.chain
  refine ⟨fun he => hp.2.2 e he d mem_cons_self, fun he => ?_, ?_, hc.pos d (by simp),
    hc.pos c (by simp)⟩
  · exact (pairwise_cons.mp hc.tail.apart).1 e he
  · exact (pairwise_cons.mp hc.apart).1 c mem_cons_self

/-- **A whole block is taken.** -/
lemma take_all (hu : s.units c.start = u) :
    HeapOk al (as ++ d :: bs) (⟨c.start, u * slobUnit⟩ :: L) (slobTake u d.start c.start s) := by
  have e : slobTake u d.start c.start s =
      { s with next := update s.next d.start (s.next c.start), slobfree := d.start } := if_pos hu
  have hc := h.chain
  have hsize : u * slobUnit = c.size := hu ▸ hc.units c (by simp)
  obtain ⟨-, -, hdc, hd, hcpos⟩ := h.others_ne (e := c)
  rw [e]
  refine h.splice ((hc.tail.tail.congr fun b hb => ?_).cons ?_ (hc.units d (by simp))
    (fun b hb => ?_) hd)
    rfl id (fun a ha => ?_) mem_cons_self ?_ (fun x => ?_) rfl rfl
  · have h1 := (h.others_ne (e := b)).2.1 hb
    exact ⟨rfl, update_of_ne (by omega) ..⟩
  · exact (update_self ..).trans hc.ring.2.1
  · exact (pairwise_cons.mp hc.apart).1 b (mem_cons_of_mem _ hb)
  · have h1 := (h.others_ne (e := a)).1 ha
    exact ⟨rfl, update_of_ne (by omega) ..⟩
  · refine forall_mem_cons.mpr ⟨by rw [hsize]; exact hcpos, fun b hb => h.pos b (by simp [hb])⟩
  · have h1 : Seg.hit ⟨c.start, u * slobUnit⟩ x = c.hit x := by rw [hsize]
    simp only [cov_cons]
    omega

/-- **The first part of a block is taken.** -/
lemma take_part (hpos : 0 < u) (hu : u < s.units c.start) :
    HeapOk al (as ++ d :: ⟨c.start + u * slobUnit, c.size - u * slobUnit⟩ :: bs)
      (⟨c.start, u * slobUnit⟩ :: L) (slobTake u d.start c.start s) := by
  have hc := h.chain
  have hsize := hc.units c (by simp)
  have hlt : u * slobUnit < c.size := by
    rw [← hsize]
    exact Nat.mul_lt_mul_of_pos_right hu (by decide)
  have hupos : 0 < u * slobUnit := Nat.mul_pos hpos (by decide)
  obtain ⟨-, -, hdc, hd, -⟩ := h.others_ne (e := c)
  have e : slobTake u d.start c.start s =
      { s with
        next := update (update s.next d.start (c.start + u * slobUnit)) (c.start + u * slobUnit)
          (update s.next d.start (c.start + u * slobUnit) c.start)
        units := update (update s.units (c.start + u * slobUnit) (s.units c.start - u)) c.start u
        slobfree := d.start } := if_neg hu.ne'
  have hrest : Chain al (⟨c.start + u * slobUnit, c.size - u * slobUnit⟩ :: bs)
      (slobTake u d.start c.start s) := by
    refine (hc.tail.tail.congr fun b hb => ?_).cons ?_ ?_ (fun b hb => ?_) (Nat.sub_pos_of_lt hlt)
    · have h1 := (h.others_ne (e := b)).2.1 hb
      exact slobTake_of_ne s (by omega) (by omega) fun _ => by omega
    · rw [e]
      dsimp only
      rw [update_self, update_of_ne (show c.start ≠ d.start by omega)]
      exact hc.ring.2.1
    · rw [e]
      change update (update s.units _ _) c.start u (c.start + u * slobUnit) * slobUnit = _
      rw [update_of_ne (by omega), update_self, Nat.sub_mul, hsize]
    · have h1 := (h.others_ne (e := b)).2.1 hb
      unfold Seg.Apart
      dsimp only
      omega
  refine h.splice (hrest.cons ?_ ?_ (fun b hb => ?_) hd) rfl id (fun a ha => ?_) ?_ ?_ (fun x => ?_)
    (slobTake_rest ..).2.2.1 (slobTake_rest ..).2.2.2
  · rw [e]
    exact (update_of_ne (by omega) ..).trans (update_self ..)
  · rw [e]
    change update (update s.units _ _) c.start u d.start * slobUnit = _
    rw [update_of_ne (by omega), update_of_ne (by omega)]
    exact hc.units d (by simp)
  · unfold Seg.Apart
    rcases mem_cons.mp hb with rfl | hb
    · dsimp only
      omega
    · have h1 := (h.others_ne (e := b)).2.1 hb
      omega
  · have h1 := (h.others_ne (e := a)).1 ha
    exact slobTake_of_ne s (by omega) (by omega) fun _ => by omega
  · rw [e]
    exact mem_cons_self
  · exact forall_mem_cons.mpr ⟨hupos, fun b hb => h.pos b (by simp [hb])⟩
  · have h1 := hit_join c.start (u * slobUnit) (c.size - u * slobUnit) x
    rw [Nat.add_sub_cancel' hlt.le] at h1
    have h2 : Seg.hit ⟨c.start, c.size⟩ x = c.hit x := rfl
    simp only [cov_cons]
    omega

end Take

/-- **A block is taken from the ring**, or its first part. -/
lemma take {q u : ℕ} (h : HeapOk al fl L s) (hq : q ∈ fl.map Seg.start) (hu : 2 ≤ u)
    (hfit : u ≤ s.units (s.next q)) :
    ∃ fl', HeapOk al fl' (⟨s.next q, u * slobUnit⟩ :: L) (slobTake u q (s.next q) s) ∧
      (slobTake u q (s.next q) s).units (s.next q) = u ∧
      Keeps fl s (slobTake u q (s.next q) s) := by
  have hne : s.next q ≠ al.arena := by
    intro e
    rw [e, h.units_arena] at hfit
    omega
  obtain ⟨as, d, c, bs, rfl, rfl, hc⟩ := h.exists_succ hq hne
  rw [← hc] at hfit ⊢
  have hsize : s.units c.start * slobUnit = c.size := h.units c (by simp)
  obtain ⟨-, -, -, hdpos, hcpos⟩ := h.others_ne (e := c)
  -- only fields inside the two blocks change
  have hout : ∀ y, (∀ b ∈ as ++ d :: c :: bs, ¬b.Contains y) → y ≠ d.start ∧ ¬c.Contains y := by
    intro y hy
    refine ⟨?_, hy c (by simp)⟩
    rintro rfl
    exact hy d (by simp) ⟨le_rfl, by omega⟩
  have hkeep : ∀ y, (∀ b ∈ as ++ d :: c :: bs, ¬b.Contains y) →
      (slobTake u d.start c.start s).units y = s.units y ∧
      (slobTake u d.start c.start s).next y = s.next y := by
    intro y hy
    obtain ⟨hd, hc⟩ := hout y hy
    refine slobTake_of_ne s hd ?_ fun hne => ?_
    · rintro rfl
      exact hc ⟨le_rfl, by omega⟩
    · rintro rfl
      have hlt : u * slobUnit < s.units c.start * slobUnit :=
        Nat.mul_lt_mul_of_pos_right (hfit.lt_of_ne hne.symm) (by decide)
      exact hc ⟨by omega, by omega⟩
  have hk : Keeps (as ++ d :: c :: bs) s (slobTake u d.start c.start s) :=
    ⟨fun y hy => (hkeep y hy).1, fun y hy => (hkeep y hy).2, (slobTake_rest ..).2.1⟩
  rcases hfit.eq_or_lt with he | hlt
  · exact ⟨_, h.take_all he.symm, slobTake_units .., hk⟩
  · exact ⟨_, h.take_part (by omega) hlt, slobTake_units .., hk⟩

end HeapOk

/-! ## What stays as it is -/

/-- The memory of the blocks `L` is as before, and so is the list of the large blocks. -/
structure Saves (L : List Seg) (s t : Kmem A) : Prop where
  units : ∀ b ∈ L, ∀ x, b.Contains x → t.units x = s.units x
  next : ∀ b ∈ L, ∀ x, b.Contains x → t.next x = s.next x
  bigblocks : t.bigblocks = s.bigblocks

lemma Saves.trans {u : Kmem A} (h : Saves L s t) (h' : Saves L t u) : Saves L s u :=
  ⟨fun b hb x hx => (h'.units b hb x hx).trans (h.units b hb x hx),
    fun b hb x hx => (h'.next b hb x hx).trans (h.next b hb x hx), h'.bigblocks.trans h.bigblocks⟩

lemma Saves.mono {M : List Seg} (h : Saves L s t) (hM : ∀ b ∈ M, b ∈ L) : Saves M s t :=
  ⟨fun b hb => h.units b (hM b hb), fun b hb => h.next b (hM b hb), h.bigblocks⟩

namespace HeapOk

section

variable (h : HeapOk al fl L s)
include h

lemma saves (hk : Keeps fl s t) : Saves L s t :=
  ⟨fun _ hb x hx => hk.units x fun _ hd hdx => h.disjoint hd hb hdx hx,
    fun _ hb x hx => hk.next x fun _ hd hdx => h.disjoint hd hb hdx hx, hk.bigblocks⟩

/-- A change of the free blocks and of one other block saves the remaining ones. -/
lemma saves_erase (hb : b ∈ L) (hk : Keeps (b :: fl) s t) : Saves (L.erase b) s t := by
  have hout : ∀ d ∈ L.erase b, ∀ x, d.Contains x → ∀ e ∈ b :: fl, ¬e.Contains x := by
    intro d hd x hx e he hex
    rcases mem_cons.mp he with rfl | he
    · exact h.disjoint_live hb hd hex hx
    · exact h.disjoint he (mem_of_mem_erase hd) hex hx
  exact ⟨fun d hd x hx => hk.units x (hout d hd x hx), fun d hd x hx => hk.next x (hout d hd x hx),
    hk.bigblocks⟩

/-- The invariant depends on the fields of the free blocks only. -/
lemma congr (hu : ∀ b ∈ fl, t.units b.start = s.units b.start)
    (hn : ∀ b ∈ fl, t.next b.start = s.next b.start) (hf : t.slobfree = s.slobfree)
    (ha : t.alloc = s.alloc) (ht : t.taken = s.taken) : HeapOk al fl L t := by
  refine ⟨⟨h.head, h.ring.congr fun y hy => ?_, fun b hb => ?_, hf ▸ h.cur⟩, h.apart, h.pos, ?_, ?_⟩
  · obtain ⟨b, hb, rfl⟩ := mem_map.mp hy
    exact hn b hb
  · rw [hu b hb]
    exact h.units b hb
  · rw [ht]
    exact h.cover
  · rw [ht, ha]
    exact h.taken

lemma relist {M : List Seg} (hcov : ∀ x, Seg.cov M x = Seg.cov L x) (hpos : ∀ b ∈ M, 0 < b.size) :
    HeapOk al fl M s := by
  refine ⟨h.toFreeList, h.apart, fun b hb => ?_, fun x => ?_, h.taken⟩
  · rcases mem_append.mp hb with hb | hb
    · exact h.pos b (mem_append_left _ hb)
    · exact hpos b hb
  · rw [hcov x]
    exact h.cover x

lemma perm {M : List Seg} (hM : M.Perm L) : HeapOk al fl M s :=
  h.relist (cov_perm hM) fun b hb => h.pos b (mem_append_right _ (hM.mem_iff.mp hb))

lemma start_out (hb : b ∈ L) (hc : c ∈ fl) : ¬b.Contains c.start := by
  have hpos := h.pos c (mem_append_left _ hc)
  exact fun hx => h.disjoint hc hb ⟨le_rfl, by omega⟩ hx

lemma nodup_start : (fl.map Seg.start).Nodup := by
  refine pairwise_map.mpr (h.apart.imp fun hbc => ?_)
  omega

/-! ## Pages of the heap -/

/-- **Pages are taken** from the page allocator. -/
lemma addPages {p n : ℕ} {a : A} (hn : 0 < n) (hgood : al.Good a)
    (hsub : Set.Ico p (p + n) ⊆ al.free s.alloc)
    (hfree : al.free a = al.free s.alloc \ Set.Ico p (p + n)) :
    HeapOk al fl (pagesSeg al p n :: L)
      { s with alloc := a, taken := s.taken ∪ Finset.Ico p (p + n) } := by
  have hnew : ∀ q ∈ Finset.Ico p (p + n), q ∉ s.taken := fun q hq ht =>
    (h.taken.mem q ht).2 (hsub (mem_Ico.mp hq))
  refine ⟨⟨h.head, h.ring, h.units, h.cur⟩, h.apart, fun b hb => ?_, fun x => ?_, hgood,
    fun q hq => ?_⟩
  · rcases mem_append.mp hb with hb | hb
    · exact h.pos b (mem_append_left _ hb)
    · rcases mem_cons.mp hb with rfl | hb
      · exact Nat.mul_pos hn pageSize_pos
      · exact h.pos b (mem_append_right _ hb)
  · have h1 := h.cover x
    rw [cov_cons, owned_union hnew]
    omega
  · rw [hfree]
    rcases mem_union.mp hq with hq | hq
    · exact ⟨(h.taken.mem q hq).1, fun hf => (h.taken.mem q hq).2 hf.1⟩
    · exact ⟨al.free_subset _ (hsub (mem_Ico.mp hq)), fun hf => hf.2 (mem_Ico.mp hq)⟩

/-- **Pages are returned** to the page allocator. -/
lemma dropPages {p n : ℕ} (hn : 0 < n) (hp : pagesSeg al p n ∈ L)
    (hrel : al.CanRelease p n s.alloc) : ∃ a, al.release p n s.alloc = some a ∧
      HeapOk al fl (L.erase (pagesSeg al p n))
        { s with alloc := a, taken := s.taken \ Finset.Ico p (p + n) } := by
  have hall : ∀ q ∈ Finset.Ico p (p + n), q ∈ s.taken := by
    intro q hq
    have hk : al.kva2page (al.page2kva q) = q := kva2page_of_mem (i := 0) pageSize_pos
    have hx : (pagesSeg al p n).Contains (al.page2kva q) :=
      pagesSeg_contains.mpr ⟨Nat.le_add_right .., by rw [hk]; exact hq⟩
    have h1 := (h.page_of_live hp hx).2
    rwa [hk] at h1
  obtain ⟨a, e, hgood, hfree⟩ := al.release_spec p n s.alloc h.taken.good hn
    (fun q hq => h.taken.mem q (hall q (mem_Ico.mpr hq))) hrel
  refine ⟨a, e, ⟨h.head, h.ring, h.units, h.cur⟩, h.apart, fun b hb => ?_, fun x => ?_, hgood,
    fun q hq => ?_⟩
  · rcases mem_append.mp hb with hb | hb
    · exact h.pos b (mem_append_left _ hb)
    · exact h.pos b (mem_append_right _ (mem_of_mem_erase hb))
  · have h1 := h.cover x
    have h2 := cov_erase hp x
    have h3 := @owned_union _ al (s.taken \ Finset.Ico p (p + n)) _ _
      (fun q hq hq' => (mem_sdiff.mp hq').2 hq) x
    rw [sdiff_union_of_subset hall] at h3
    dsimp only
    omega
  · obtain ⟨hq, hout⟩ := mem_sdiff.mp hq
    obtain ⟨h1, h2⟩ := h.taken.mem q hq
    rw [hfree]
    exact ⟨h1, fun hf => hf.elim h2 fun hf => hout (mem_Ico.mpr hf)⟩

end

end HeapOk

lemma slobGetFreePages_none {k : ℕ} (ha : al.alloc (2 ^ k) s.alloc = some (none, s.alloc)) :
    slobGetFreePages al k s = .ok (none, s) := by
  rw [slobGetFreePages, read_bind_apply, ha]
  rfl

lemma slobGetFreePages_some {k p : ℕ} {a : A} (ha : al.alloc (2 ^ k) s.alloc = some (some p, a)) :
    slobGetFreePages al k s = .ok (some (al.page2kva p),
      { s with alloc := a, taken := s.taken ∪ Finset.Ico p (p + 2 ^ k) }) := by
  rw [slobGetFreePages, read_bind_apply, ha]
  rfl

/-! ## `slob_free` and `slob_alloc` -/

/-- **`slob_free`** of a block whose size is given, or stands in its header. -/
lemma slobFree_spec (size : ℕ) (h : HeapOk al fl L s) (hb : b ∈ L)
    (hsize : (if size ≠ 0 then slobUnits size else s.units b.start) * slobUnit = b.size) :
    Returns (slobFree al b.start size) s fun _ t => ∃ fl', HeapOk al fl' (L.erase b) t ∧
      (∃ d ∈ fl', b.size ≤ d.size) ∧ Saves (L.erase b) s t := by
  have hne : b.start ≠ 0 := by
    have := h.arena_lt hb
    omega
  have hbpos := h.pos b (mem_append_right _ hb)
  have hbc : b.Contains b.start := ⟨le_rfl, by omega⟩
  unfold slobFree
  rw [if_neg hne]
  by_cases hz : size ≠ 0
  · rw [if_pos hz] at hsize
    have h1 : HeapOk al fl L { s with units := update s.units b.start (slobUnits size) } := by
      refine h.congr (fun c hc => update_of_ne ?_ ..) (fun _ _ => rfl) rfl rfl rfl
      intro e
      exact h.start_out hb hc (e ▸ hbc)
    obtain ⟨_, t, e, fl', hok, hbig, -, -, hk⟩ := slobInsert_spec h1 hb
      (by dsimp only; rwa [update_self])
    refine ⟨(), t, ?_, fl', hok, hbig, ?_⟩
    · rw [modify_bind_apply, if_pos hz]
      exact e
    · refine Saves.trans ?_ (h1.saves_erase hb hk)
      refine ⟨fun d hd x hx => update_of_ne ?_ .., fun _ _ _ _ => rfl, rfl⟩
      rintro rfl
      exact h.disjoint_live hb hd hbc hx
  · rw [if_neg hz] at hsize
    obtain ⟨_, t, e, fl', hok, hbig, -, -, hk⟩ := slobInsert_spec h hb hsize
    refine ⟨(), t, ?_, fl', hok, hbig, h.saves_erase hb hk⟩
    rw [modify_bind_apply, if_neg hz]
    exact e

/-- What `slob_alloc` returns: nothing and the heap as it was, or a new block of `u` units. -/
def Allocated (al : PageAllocator A) (L : List Seg) (s : Kmem A) (u : ℕ) : Option ℕ → Kmem A → Prop
  | none, t => t = s
  | some a, t => ∃ fl', HeapOk al fl' (⟨a, u * slobUnit⟩ :: L) t ∧ t.units a = u ∧ Saves L s t

lemma slobUnits_pageSize : slobUnits pageSize * slobUnit = 2 ^ 0 * pageSize := by decide

/-- A search along the ring that finds a block takes it. -/
lemma slobLoop_found {size u n : ℕ} (h : HeapOk al fl L s) (hu : 2 ≤ u) {r : ℕ × ℕ}
    (hr : Sll.seekPair s.next (fun cur => u ≤ s.units cur ∨ cur = s.slobfree) al.fuel s.slobfree
      (s.next s.slobfree) = some r) (hq : r.1 ∈ fl.map Seg.start) (hc : r.2 = s.next r.1)
    (hfit : u ≤ s.units r.2) :
    ∃ a t, slobLoop al size u (n + 1) s = .ok (some a, t) ∧ Allocated al L s u (some a) t := by
  obtain ⟨q, c⟩ := r
  obtain rfl : c = s.next q := hc
  obtain ⟨fl', hok, hunits, hk⟩ := h.take hq hu hfit
  refine ⟨s.next q, slobTake u q (s.next q) s, ?_, fl', hok, hunits, h.saves hk⟩
  rw [slobLoop, read_bind_apply, hr]
  dsimp only at hfit ⊢
  rw [if_pos hfit]
  rfl

/-- **The loop of `slob_alloc`** returns after at most one new page.

**Proof sketch.** The search ends, at the latest, when it comes back to `slobfree`. If it has found
nothing, a page is added to the ring; it makes room for every request, and the second search goes
around the whole ring before it gives up. -/
lemma slobLoop_spec {size u n : ℕ} (h : HeapOk al fl L s) (hu : 2 ≤ u)
    (hmax : u * slobUnit ≤ pageSize) (hsize : size ≠ pageSize) :
    Returns (slobLoop al size u (n + 2)) s (Allocated al L s u) := by
  have hsearch : ∀ {fl : List Seg} {s : Kmem A}, HeapOk al fl L s → ∃ q c,
      Sll.seekPair s.next (fun cur => u ≤ s.units cur ∨ cur = s.slobfree) al.fuel s.slobfree
        (s.next s.slobfree) = some (q, c) ∧ q ∈ fl.map Seg.start ∧ c = s.next q := by
    intro fl s h
    refine (h.ring.seekPair_ring h.headD_start h.cur h.cur ?_ ?_).imp
      fun q ⟨c, hr, hq, hc, _⟩ => ⟨c, hr, hq, hc⟩
    · simp
    · simpa using h.length_le
  obtain ⟨q, c, hr, hq, hc⟩ := hsearch h
  by_cases hfit : u ≤ s.units c
  · obtain ⟨a, t, e, hpost⟩ := slobLoop_found h hu hr hq hc hfit
    exact ⟨some a, t, e, hpost⟩
  rcases al.alloc_spec (2 ^ 0) _ h.taken.good (by decide) with ha | ⟨p, a, ha, hgood, hsub, hfree⟩
  · -- there is no page left
    refine ⟨none, s, ?_, rfl⟩
    rw [slobLoop, read_bind_apply, hr]
    dsimp only
    rw [if_neg hfit, if_neg hsize, bind_of_ok (slobGetFreePages_none ha)]
    rfl
  · have h1 := h.addPages (by decide) hgood hsub hfree
    obtain ⟨_, s2, e2, fl2, h2, ⟨d, hd, hdsize⟩, hs2⟩ := slobFree_spec pageSize h1
      mem_cons_self (by rw [if_pos (by decide)]; exact slobUnits_pageSize)
    rw [erase_cons_head] at h2 hs2
    have hrun : slobLoop al size u (n + 2) s = slobLoop al size u (n + 1) s2 := by
      rw [slobLoop, read_bind_apply, hr]
      dsimp only
      rw [if_neg hfit, if_neg hsize, bind_of_ok (slobGetFreePages_some ha)]
      exact bind_of_ok e2 _
    obtain ⟨q', c', hr', hq', hc'⟩ := hsearch h2
    have hfit' : u ≤ s2.units c' := by
      refine h2.ring.seekPair_around (P := fun c => u ≤ s2.units c) h2.headD_start
        h2.nodup_start h2.cur (mem_map.mpr ⟨d, hd, rfl⟩) ?_ (fun c => by simp) hr'
      have h3 := h2.units d hd
      have h4 : (pagesSeg al p (2 ^ 0)).size = pageSize := rfl
      refine Nat.le_of_mul_le_mul_right (c := slobUnit) ?_ (by decide)
      omega
    obtain ⟨b, t, e, fl', hok, hunits, hs⟩ := slobLoop_found h2 hu hr' hq' hc' hfit'
    refine ⟨some b, t, hrun.trans e, fl', hok, hunits, Saves.trans ?_ hs⟩
    exact ⟨hs2.units, hs2.next, hs2.bigblocks⟩

end Ucore.Slob
