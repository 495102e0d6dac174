import Ucore.Mm.KmallocInv
import Ucore.Mm.KmallocPages

set_option autoImplicit false

/-!
# Runs of `kmalloc` and `kfree`

A run is any sequence of calls of `kmalloc` and of `kfree` on blocks that are outstanding. Between
the calls the owners of the outstanding blocks write to them, and the other parts of the kernel take
pages and return pages of their own.

`kmalloc` does not serve all sizes. A size from 4064 to 4079 is small by the test of `__kmalloc` and
too large by the assertion of `slob_alloc`. For large sizes `find_order` halves and rounds down, so
that a size just above a power of two gets half of the pages it needs; and it takes an `int`.
`Served` is the condition that is left.

## Main definitions

* `Slob.Served` — the sizes for which `kmalloc` works.
* `Slob.HeapRun` — the runs.
* `Slob.Grant` — what stands behind an outstanding block.
* `Slob.Accounted` — every byte that the module owns is in one free block or behind one
  outstanding block.

## Main results

* `Slob.served_iff` — a size is served iff `slob_alloc` accepts it or its pages hold it.
* `Slob.kmalloc_contract` — what holds in all runs in which the sizes are served.
* `Slob.kmalloc_fails` — sizes that are not served.
-/

namespace Ucore.Slob

open Function Comp List Finset Seg

/-! ## The sizes -/

/-- **The sizes for which `kmalloc` works.** -/
def Served (size : ℕ) : Prop :=
  size < 4064 ∨ 4080 ≤ size ∧ size < 2 ^ 31 ∧ ∀ k, size ≤ 4096 * 2 ^ k ∨ 4097 * 2 ^ k ≤ size

/-- The number of pages of a large block holds the size, up to the bits that the halving has
dropped; half of it would not. -/
lemma orderLoop_spec (n size : ℕ) (h : size < 4097 * 2 ^ n) :
    size < 4097 * 2 ^ orderLoop n size ∧
      ∀ k, orderLoop n size = k + 1 → 4097 * 2 ^ k ≤ size := by
  induction n generalizing size with
  | zero => exact ⟨h, fun k hk => by cases hk⟩
  | succ n ih =>
    rw [orderLoop]
    by_cases hs : (4096 : ℤ) < size
    · rw [if_pos hs]
      have hdiv : (size : ℤ) / 2 = ((size / 2 : ℕ) : ℤ) := by omega
      rw [hdiv]
      rw [pow_succ] at h
      obtain ⟨h1, h2⟩ := ih (size / 2) (by omega)
      refine ⟨by rw [pow_succ]; omega, fun k hk => ?_⟩
      have hk' : orderLoop n ((size / 2 : ℕ) : ℤ) = k := by omega
      cases k with
      | zero => omega
      | succ k =>
        have h3 := h2 k hk'
        rw [pow_succ]
        omega
    · rw [if_neg hs]
      exact ⟨by omega, fun k hk => by cases hk⟩

variable {size : ℕ}

lemma intOfSize_of_lt (h : size < 2 ^ 31) : intOfSize size = size := by
  unfold intOfSize
  rw [BitVec.toInt_eq_toNat_of_lt]
  · rw [BitVec.toNat_ofNat, Nat.mod_eq_of_lt (by omega)]
  · rw [BitVec.toNat_ofNat, Nat.mod_eq_of_lt (by omega)]
    omega

/-- The pages of a size of 2 GB or more do not hold it. -/
lemma findOrder_lt (h : 2 ^ 31 ≤ size) : 4096 * 2 ^ findOrder (intOfSize size) < size := by
  by_cases hm : size % 2 ^ 32 < 2 ^ 31
  · have hi : intOfSize size = (size % 2 ^ 32 : ℕ) := by
      unfold intOfSize
      rw [BitVec.toInt_eq_toNat_of_lt] <;> rw [BitVec.toNat_ofNat]
      omega
    obtain ⟨-, h2⟩ := orderLoop_spec 31 (size % 2 ^ 32) (by omega)
    rw [hi, findOrder]
    rcases hk : orderLoop 31 ((size % 2 ^ 32 : ℕ) : ℤ) with _ | k
    · omega
    · have h3 := h2 k hk
      rw [pow_succ]
      omega
  · -- the `int` is negative
    have hneg : intOfSize size ≤ 4096 := by
      unfold intOfSize
      rw [BitVec.toInt_eq_toNat_cond, BitVec.toNat_ofNat, if_neg (by omega)]
      omega
    have h0 : findOrder (intOfSize size) = 0 := by
      unfold findOrder
      rw [orderLoop, if_neg (by omega)]
    rw [h0]
    omega

/-- **A size is served** iff `slob_alloc` accepts it, or it is large and its pages hold it. -/
lemma served_iff : Served size ↔ size + 2 * slobUnit < pageSize ∨
    pageSize - slobUnit ≤ size ∧ size ≤ pageSize * 2 ^ findOrder (intOfSize size) := by
  unfold Served slobUnit pageSize
  refine or_congr (by omega) (and_congr (by omega) ?_)
  by_cases hlt : size < 2 ^ 31
  · rw [intOfSize_of_lt hlt]
    obtain ⟨h1, h2⟩ := orderLoop_spec 31 size (by omega)
    refine ⟨fun h => (h.2 (findOrder size)).resolve_right (by rw [findOrder]; omega),
      fun h => ⟨hlt, ?_⟩⟩
    intro k
    rcases lt_or_ge k (findOrder size) with hk | hk
    · obtain ⟨m, hm⟩ : ∃ m, findOrder size = m + 1 := ⟨findOrder size - 1, by omega⟩
      have h3 := h2 m hm
      have h4 : 2 ^ k ≤ 2 ^ m := Nat.pow_le_pow_right (by decide) (by omega)
      omega
    · have h4 : 2 ^ findOrder size ≤ 2 ^ k := Nat.pow_le_pow_right (by decide) hk
      omega
  · have h1 := findOrder_lt (Nat.le_of_not_lt hlt)
    constructor
    · exact fun h => absurd h.1 hlt
    · intro h
      omega

/-! ## Runs -/

/-- A block that `kmalloc` has returned and that has not been freed, with the size it was asked
for. -/
structure Out where
  ptr : ℕ
  size : ℕ
  deriving DecidableEq

/-- The bytes that the caller of `kmalloc` uses. -/
def Out.seg (o : Out) : Seg := ⟨o.ptr, o.size⟩

/-- The outstanding blocks after a call of `kmalloc`. -/
def addOut (size : ℕ) (out : List Out) : Option ℕ → List Out
  | none => out
  | some p => ⟨p, size⟩ :: out

variable {A : Type}

/-- The heap before the first call. -/
structure Boot (al : PageAllocator A) (s : Kmem A) : Prop where
  alloc : al.Good s.alloc
  next : s.next al.arena = al.arena
  units : s.units al.arena = 1
  slobfree : s.slobfree = al.arena
  bigblocks : s.bigblocks = []
  taken : s.taken = ∅

/-- The owners of the outstanding blocks write to them: the fields that lie elsewhere stay. -/
structure WriteIn (out : List Out) (s t : Kmem A) : Prop where
  units : ∀ x, (∀ o ∈ out, x + slobUnit ≤ o.ptr ∨ o.ptr + o.size ≤ x) → t.units x = s.units x
  next : ∀ x, (∀ o ∈ out, x + slobUnit ≤ o.ptr ∨ o.ptr + o.size ≤ x) → t.next x = s.next x
  slobfree : t.slobfree = s.slobfree
  bigblocks : t.bigblocks = s.bigblocks
  alloc : t.alloc = s.alloc
  taken : t.taken = s.taken

/-- The pages of a large block can be given back. -/
def Releasable (al : PageAllocator A) (s : Kmem A) (o : Out) : Prop :=
  ∀ bb ∈ s.bigblocks, bb.pages = o.ptr → al.CanRelease (al.kva2page o.ptr) (2 ^ bb.order) s.alloc

/-- **The runs**: the heaps that are reached, with the outstanding blocks. The sizes that `kmalloc`
is called with satisfy `P`, and the blocks that `kfree` is called with satisfy `R`. -/
inductive HeapRun (al : PageAllocator A) (P : ℕ → Prop) (R : Kmem A → Out → Prop) :
    Kmem A → List Out → Prop
  | boot {s : Kmem A} : Boot al s → HeapRun al P R s []
  | malloc {s t : Kmem A} {out : List Out} {size : ℕ} {r : Option ℕ} : HeapRun al P R s out →
      0 < size → size < 2 ^ 64 → P size → kmalloc al size s = .ok (r, t) →
      HeapRun al P R t (addOut size out r)
  | free {s t : Kmem A} {out : List Out} {o : Out} : HeapRun al P R s out → o ∈ out → R s o →
      kfree al o.ptr s = .ok ((), t) → HeapRun al P R t (out.erase o)
  | write {s t : Kmem A} {out : List Out} : HeapRun al P R s out → WriteIn out s t →
      HeapRun al P R t out
  | others {s : Kmem A} {out : List Out} {a : A} : HeapRun al P R s out → Owns al s.taken a →
      HeapRun al P R { s with alloc := a } out

/-! ## What stands behind the outstanding blocks -/

/-- What stands behind an outstanding block: a block of the heap at `addr`, or pages. -/
inductive Grant
  | small (size addr : ℕ)
  | big (size : ℕ) (bb : BigBlock)

namespace Grant

/-- The block as the caller sees it. -/
def out : Grant → Out
  | small size a => ⟨a + slobUnit, size⟩
  | big size bb => ⟨bb.pages, size⟩

/-- The memory that `kmalloc` itself uses for it: the header, or the `bigblock_t`. -/
def header : Grant → Seg
  | small _ a => ⟨a, slobUnit⟩
  | big _ bb => ⟨bb.addr, slobUnits bigblockSize * slobUnit⟩

/-- All memory that it takes. -/
def segs : Grant → List Seg
  | small size a => [⟨a, slobUnits (size + slobUnit) * slobUnit⟩]
  | big _ bb => [⟨bb.addr, slobUnits bigblockSize * slobUnit⟩, ⟨bb.pages, 2 ^ bb.order * pageSize⟩]

/-- The record of the pages. -/
def bigBlock : Grant → Option BigBlock
  | small _ _ => none
  | big _ bb => some bb

/-- The header says how long the block is; the pages are whole ones and hold the size. -/
def Ok (al : PageAllocator A) (s : Kmem A) : Grant → Prop
  | small size a => 0 < size ∧ s.units a = slobUnits (size + slobUnit)
  | big size bb => 0 < size ∧ size ≤ 2 ^ bb.order * pageSize ∧ ∃ p, bb.pages = al.page2kva p

variable {al : PageAllocator A} {s t : Kmem A} {g : Grant}

lemma size_le (size : ℕ) : size + slobUnit ≤ slobUnits (size + slobUnit) * slobUnit := by
  unfold slobUnits slobUnit
  omega

/-- The bytes of the caller lie in the memory that is taken for the block, and not in the header. -/
lemma Ok.out_mem {x : ℕ} (h : g.Ok al s) (hx : g.out.seg.Contains x) :
    ∃ b ∈ g.segs, b.Contains x := by
  cases g with
  | small size a =>
    refine ⟨_, List.mem_singleton_self _, ?_⟩
    have h1 := size_le size
    obtain ⟨h2, h3⟩ := hx
    dsimp only [out, Out.seg] at h2 h3
    exact ⟨by dsimp only; omega, by dsimp only; omega⟩
  | big size bb =>
    obtain ⟨-, h1, -⟩ := h
    obtain ⟨h2, h3⟩ := hx
    dsimp only [out, Out.seg] at h2 h3
    exact ⟨⟨bb.pages, 2 ^ bb.order * pageSize⟩, by simp [segs], h2, by dsimp only; omega⟩

/-- The header is part of the memory that is taken for the block. -/
lemma header_mem {x : ℕ} (hx : g.header.Contains x) : ∃ b ∈ g.segs, b.Contains x := by
  cases g with
  | small size a =>
    refine ⟨_, List.mem_singleton_self _, hx.1, ?_⟩
    have h1 := size_le size
    have h2 : x < a + slobUnit := hx.2
    dsimp only
    omega
  | big size bb => exact ⟨_, mem_cons_self, hx⟩

/-- The header of a block is saved with the block. -/
lemma Ok.saves (h : g.Ok al s) (hs : Saves g.segs s t) : g.Ok al t := by
  cases g with
  | small size a =>
    refine ⟨h.1, (hs.units _ (List.mem_singleton_self _) a ⟨le_rfl, ?_⟩).trans h.2⟩
    have h1 := size_le size
    have h2 := h.1
    dsimp only
    omega
  | big size bb => exact h

lemma Ok.congr (h : g.Ok al s) (hu : t.units = s.units) : g.Ok al t := by
  cases g with
  | small size a => exact ⟨h.1, by rw [hu]; exact h.2⟩
  | big size bb => exact h

end Grant

/-- **The accounts of the heap**: the free blocks `fl` and the grants cover the memory that the
module owns, every byte once, and behind every outstanding block there is a grant. -/
structure Accounted (al : PageAllocator A) (fl : List Seg) (gs : List Grant) (s : Kmem A)
    (out : List Out) : Prop where
  heap : HeapOk al fl (gs.flatMap Grant.segs) s
  outs : out.Perm (gs.map Grant.out)
  bigs : s.bigblocks.Perm (gs.filterMap Grant.bigBlock)
  ok : ∀ g ∈ gs, g.Ok al s

namespace Accounted

variable {al : PageAllocator A} {fl : List Seg} {gs hs : List Grant} {s t : Kmem A} {out : List Out}
  {g : Grant} {o : Out} {x : ℕ}

lemma perm (h : Accounted al fl gs s out) (hp : hs.Perm gs) : Accounted al fl hs s out :=
  ⟨h.heap.perm (hp.flatMap_right _), h.outs.trans (hp.map _).symm,
    h.bigs.trans (hp.filterMap _).symm, fun g hg => h.ok g (hp.mem_iff.mp hg)⟩

lemma exists_front (h : Accounted al fl gs s out) (ho : o ∈ out) :
    ∃ g hs, g.out = o ∧ Accounted al fl (g :: hs) s out := by
  obtain ⟨g, hg, rfl⟩ := mem_map.mp (h.outs.mem_iff.mp ho)
  obtain ⟨as, bs, rfl⟩ := append_of_mem hg
  exact ⟨g, as ++ bs, rfl, h.perm perm_middle.symm⟩

lemma disjoint_front {g' : Grant} {b c : Seg} (h : Accounted al fl (g :: hs) s out) (hg : g' ∈ hs)
    (hb : b ∈ g.segs) (hc : c ∈ g'.segs) (hx : b.Contains x) (hx' : c.Contains x) : False := by
  have h1 := cov_pos hb hx
  have h2 := cov_pos (mem_flatMap.mpr ⟨g', hg, hc⟩) hx'
  have h3 := h.heap.cover x
  have h4 := h.heap.owned_le_one x
  rw [flatMap_cons, cov_append] at h3
  omega

lemma out_mem (h : Accounted al fl gs s out) (ho : o ∈ out) (hx : o.seg.Contains x) :
    ∃ b ∈ gs.flatMap Grant.segs, b.Contains x := by
  obtain ⟨g, hg, rfl⟩ := mem_map.mp (h.outs.mem_iff.mp ho)
  obtain ⟨b, hb, hbx⟩ := (h.ok g hg).out_mem hx
  exact ⟨b, mem_flatMap.mpr ⟨g, hg, hb⟩, hbx⟩

lemma inside (h : Accounted al fl gs s out) (ho : o ∈ out) (hx : o.seg.Contains x) :
    al.base ≤ x ∧ al.kva2page x ∈ s.taken := by
  obtain ⟨b, hb, hbx⟩ := h.out_mem ho hx
  exact h.heap.page_of_live hb hbx

lemma out_free {b : Seg} (h : Accounted al fl gs s out) (ho : o ∈ out) (hx : o.seg.Contains x)
    (hb : b ∈ fl) : ¬b.Contains x := by
  obtain ⟨c, hc, hcx⟩ := h.out_mem ho hx
  exact fun hbx => h.heap.disjoint hb hc hbx hcx

/-- The bytes that the caller uses are not those of the header. -/
lemma out_header_self (h : Accounted al fl (g :: hs) s out) (hx : g.out.seg.Contains x) :
    ¬g.header.Contains x := by
  intro hhx
  cases g with
  | small size a =>
    have h1 : a + slobUnit ≤ x := hx.1
    have h2 : x < a + slobUnit := hhx.2
    omega
  | big size bb =>
    have hok := h.ok _ mem_cons_self
    obtain ⟨h1, h2⟩ := hx
    dsimp only [Grant.out, Out.seg] at h1 h2
    have h3 : Seg.Contains ⟨bb.pages, 2 ^ bb.order * pageSize⟩ x :=
      ⟨h1, by have := hok.2.1; dsimp only; omega⟩
    have h4 := h.heap.cover x
    have h5 := h.heap.owned_le_one x
    rw [flatMap_cons, cov_append] at h4
    simp only [Grant.segs, cov_cons, hit_of_contains h3] at h4
    have h6 : Seg.hit ⟨bb.addr, slobUnits bigblockSize * slobUnit⟩ x = 1 := hit_of_contains hhx
    omega

/-- The bytes of an outstanding block are in no header. -/
lemma out_header (h : Accounted al fl gs s out) (ho : o ∈ out) (hx : o.seg.Contains x)
    (hg : g ∈ gs) : ¬g.header.Contains x := by
  obtain ⟨g', hg', rfl⟩ := mem_map.mp (h.outs.mem_iff.mp ho)
  obtain ⟨as, bs, rfl⟩ := append_of_mem hg'
  have h1 : Accounted al fl (g' :: (as ++ bs)) s out := h.perm perm_middle.symm
  rcases mem_cons.mp (perm_middle.mem_iff.mp hg) with rfl | hg
  · exact h1.out_header_self hx
  · intro hhx
    obtain ⟨b, hb, hbx⟩ := (h1.ok g' mem_cons_self).out_mem hx
    obtain ⟨c, hc, hcx⟩ := Grant.header_mem hhx
    exact h1.disjoint_front hg hb hc hbx hcx

/-- The outstanding blocks have no bytes in common. -/
lemma outs_disjoint (h : Accounted al fl gs s out) :
    out.Pairwise fun o o' => ∀ x, ¬(o.seg.Contains x ∧ o'.seg.Contains x) := by
  have hsymm : ∀ {o o' : Out}, (∀ x, ¬(o.seg.Contains x ∧ o'.seg.Contains x)) →
      ∀ x, ¬(o'.seg.Contains x ∧ o.seg.Contains x) := fun h x hx => h x hx.symm
  refine (h.outs.pairwise_iff hsymm).mpr (pairwise_map.mpr ?_)
  have hcover : ∀ x, Seg.cov (gs.flatMap Grant.segs) x ≤ 1 := by
    intro x
    have h1 := h.heap.cover x
    have h2 := h.heap.owned_le_one x
    omega
  have hok := h.ok
  clear h
  induction gs with
  | nil => exact Pairwise.nil
  | cons g gs ih =>
    refine pairwise_cons.mpr ⟨fun g' hg' x hx => ?_, ih (fun x => ?_)
      fun g hg => hok g (by simp [hg])⟩
    · obtain ⟨b, hb, hbx⟩ := (hok g mem_cons_self).out_mem hx.1
      obtain ⟨c, hc, hcx⟩ := (hok g' (mem_cons_of_mem _ hg')).out_mem hx.2
      have h1 := cov_pos hb hbx
      have h2 := cov_pos (mem_flatMap.mpr ⟨g', hg', hc⟩) hcx
      have h3 := hcover x
      rw [flatMap_cons, cov_append] at h3
      omega
    · have h3 := hcover x
      rw [flatMap_cons, cov_append] at h3
      omega

end Accounted

/-! ## The calls -/

section Calls

variable {al : PageAllocator A} {fl L : List Seg} {gs hs : List Grant} {s t : Kmem A}
  {out : List Out} {g : Grant} {o : Out} {size x : ℕ}

lemma HeapOk.write {b : Seg} (h : HeapOk al fl L s) (hb : b ∈ L)
    (hu : ∀ x, ¬b.Contains x → t.units x = s.units x)
    (hn : ∀ x, ¬b.Contains x → t.next x = s.next x) (hf : t.slobfree = s.slobfree)
    (ha : t.alloc = s.alloc) (ht : t.taken = s.taken) : HeapOk al fl L t :=
  h.congr (fun _ hc => hu _ (h.start_out hb hc)) (fun _ hc => hn _ (h.start_out hb hc)) hf ha ht

lemma HeapOk.saves_write {b : Seg} (h : HeapOk al fl (b :: L) s)
    (hu : ∀ x, ¬b.Contains x → t.units x = s.units x)
    (hn : ∀ x, ¬b.Contains x → t.next x = s.next x) :
    Saves L { s with bigblocks := t.bigblocks } t := by
  have hout : ∀ c ∈ L, ∀ x, c.Contains x → ¬b.Contains x := by
    intro c hc x hx hbx
    refine h.disjoint_live (b := b) (c := c) mem_cons_self ?_ hbx hx
    rwa [erase_cons_head]
  exact ⟨fun c hc x hx => hu x (hout c hc x hx), fun c hc x hx => hn x (hout c hc x hx), rfl⟩

/-- **`slob_alloc`** returns for all sizes that it accepts. -/
lemma slobAlloc_spec (size : ℕ) (h : HeapOk al fl L s) (hmin : slobUnit < size)
    (hmax : size + slobUnit < pageSize) :
    Returns (slobAlloc al size) s (Allocated al L s (slobUnits size)) := by
  unfold slobUnit pageSize at *
  have h2 : 2 ≤ slobUnits size := by
    unfold slobUnits slobUnit
    omega
  have h3 : slobUnits size * slobUnit ≤ pageSize := by
    unfold slobUnits slobUnit pageSize
    omega
  obtain ⟨r, t, e, hpost⟩ := slobLoop_spec (n := al.npage * pageSize) h h2 h3
    (by unfold pageSize; omega : size ≠ pageSize)
  refine ⟨r, t, ?_, hpost⟩
  unfold slobAlloc
  rw [ensure_bind_apply, if_pos (by unfold slobUnit pageSize; omega)]
  exact e

lemma ok_of_saves (hok : ∀ g ∈ gs, g.Ok al s) (hsv : Saves (gs.flatMap Grant.segs) s t) :
    ∀ g ∈ gs, g.Ok al t := fun g hg =>
  (hok g hg).saves (hsv.mono fun _ hb => mem_flatMap.mpr ⟨g, hg, hb⟩)

/-- **`kmalloc` of a small size** that `slob_alloc` accepts. -/
lemma kmalloc_small (h : Accounted al fl gs s out) (hpos : 0 < size) (hmax : size < 4064) :
    Returns (kmalloc al size) s fun r t =>
      ∃ fl' gs', Accounted al fl' gs' t (addOut size out r) := by
  obtain ⟨r, t, e, hpost⟩ := slobAlloc_spec (size + slobUnit) h.heap (by omega)
    (by unfold slobUnit pageSize; omega)
  have hrun : kmalloc al size s = .ok (r.map (· + slobUnit), t) := by
    unfold kmalloc
    rw [if_pos (by unfold slobUnit pageSize; omega)]
    exact bind_of_ok e _
  refine ⟨_, t, hrun, ?_⟩
  cases r with
  | none =>
    obtain rfl : t = s := hpost
    exact ⟨fl, gs, h⟩
  | some a =>
    obtain ⟨fl', hok, hunits, hsv⟩ := hpost
    refine ⟨fl', .small size a :: gs, hok, h.outs.cons _, ?_, ?_⟩
    · rw [hsv.bigblocks]
      exact h.bigs
    · intro g hg
      rcases mem_cons.mp hg with rfl | hg
      · exact ⟨hpos, hunits⟩
      · exact ok_of_saves h.ok hsv g hg

/-- The segment of a `bigblock_t`. -/
def bigSeg (bb : ℕ) : Seg := ⟨bb, slobUnits bigblockSize * slobUnit⟩

lemma bigSeg_contains {bb : ℕ} : (bigSeg bb).Contains x ↔ bb ≤ x ∧ x < bb + 32 := Iff.rfl

/-- What the second part of `__kmalloc` returns: nothing, with the `bigblock_t` free again, or the
pages that the `bigblock_t` at the head of the list records. -/
def BigGranted (al : PageAllocator A) (L : List Seg) (s : Kmem A) (k bb : ℕ) :
    Option ℕ → Kmem A → Prop
  | none, t => ∃ fl', HeapOk al fl' L t ∧ Saves L s t
  | some p, t => (∃ q, p = al.page2kva q) ∧
      ∃ fl', HeapOk al fl' (bigSeg bb :: ⟨p, 2 ^ k * pageSize⟩ :: L) t ∧
        Saves L { s with bigblocks := ⟨bb, k, p⟩ :: s.bigblocks } t

/-- **The second part of `__kmalloc`** returns. -/
lemma kmallocBig_spec (size : ℕ) {bb : ℕ} (h : HeapOk al fl (bigSeg bb :: L) s) :
    Returns (kmallocBig al size bb) s (BigGranted al L s (findOrder (intOfSize size)) bb) := by
  set k := findOrder (intOfSize size) with hk
  have hne : ∀ x, ¬(bigSeg bb).Contains x → x ≠ bb ∧ x ≠ bb + slobUnit := by
    intro x hx
    rw [bigSeg_contains] at hx
    unfold slobUnit
    omega
  -- the order and the pages are filled in
  have h1 : HeapOk al fl (bigSeg bb :: L) (setOrder bb k s) :=
    h.write mem_cons_self (fun x hx => update_of_ne (hne x hx).1 ..) (fun _ _ => rfl) rfl rfl rfl
  rcases al.alloc_spec (2 ^ k) _ h.taken.good (Nat.two_pow_pos k) with
    ha | ⟨p, a, ha, hgood, hsub, hfree⟩
  · have h2 : HeapOk al fl (bigSeg bb :: L) (setPages bb 0 (setOrder bb k s)) :=
      h1.write mem_cons_self (fun _ _ => rfl) (fun x hx => update_of_ne (hne x hx).1 ..) rfl rfl rfl
    have hsv := h.saves_write (t := setPages bb 0 (setOrder bb k s))
      (fun x hx => update_of_ne (hne x hx).1 ..) (fun x hx => update_of_ne (hne x hx).1 ..)
    obtain ⟨_, t, e, fl', hok, -, hsv'⟩ := slobFree_spec bigblockSize h2 mem_cons_self
      (by rw [if_pos (by decide)]; rfl)
    rw [erase_cons_head] at hok hsv'
    refine ⟨none, t, ?_, fl', hok, hsv.trans hsv'⟩
    unfold kmallocBig
    rw [← hk, modify_bind_apply, bind_of_ok (slobGetFreePages_none (s := setOrder bb k s) ha),
      modify_bind_apply]
    exact bind_of_ok e _
  · have h2 := (h1.addPages (Nat.two_pow_pos k) hgood hsub hfree).perm
      (Perm.swap (pagesSeg al p (2 ^ k)) _ _)
    set s2 : Kmem A := { setOrder bb k s with
      alloc := a, taken := (setOrder bb k s).taken ∪ Finset.Ico p (p + 2 ^ k) } with hs2
    have h3 : HeapOk al fl (bigSeg bb :: pagesSeg al p (2 ^ k) :: L)
        (pushBigBlock bb k (al.page2kva p) (setPages bb (al.page2kva p) s2)) :=
      h2.write mem_cons_self (fun x hx => update_of_ne (hne x hx).2 ..)
        (fun x hx => update_of_ne (hne x hx).1 ..) rfl rfl rfl
    refine ⟨some (al.page2kva p), _, ?_, ⟨p, rfl⟩, fl, h3, ?_⟩
    · unfold kmallocBig
      rw [← hk, modify_bind_apply, bind_of_ok (slobGetFreePages_some (s := setOrder bb k s) ha),
        modify_bind_apply]
      rfl
    · refine h.saves_write (t := pushBigBlock bb k (al.page2kva p) (setPages bb (al.page2kva p) s2))
        (fun x hx => ?_) (fun x hx => update_of_ne (hne x hx).1 ..)
      exact (update_of_ne (hne x hx).2 ..).trans (update_of_ne (hne x hx).1 ..)

/-- What `kmalloc` of a large size returns. -/
def LargeGranted (al : PageAllocator A) (gs : List Grant) (out : List Out) (size : ℕ) :
    Option ℕ → Kmem A → Prop
  | none, t => ∃ fl', Accounted al fl' gs t out
  | some p, t => ∃ bb ∈ t.bigblocks, bb.pages = p ∧ bb.order = findOrder (intOfSize size) ∧
      (size ≤ 2 ^ bb.order * pageSize →
        ∃ fl', Accounted al fl' (.big size bb :: gs) t (⟨p, size⟩ :: out))

/-- **`kmalloc` of a large size** returns. -/
lemma kmalloc_large (h : Accounted al fl gs s out) (hmin : pageSize - slobUnit ≤ size) :
    Returns (kmalloc al size) s (LargeGranted al gs out size) := by
  have hpos : 0 < size := by
    unfold pageSize slobUnit at hmin
    omega
  obtain ⟨r, s1, e1, hpost1⟩ := slobAlloc_spec bigblockSize h.heap (by decide) (by decide)
  have hrun : kmalloc al size s = (slobAlloc al bigblockSize >>= fun bb => match bb with
      | none => pure none
      | some bb => kmallocBig al size bb) s := by
    exact congrFun (if_neg (not_lt.mpr hmin)) s
  rw [bind_of_ok e1] at hrun
  cases r with
  | none =>
    obtain rfl : s1 = s := hpost1
    exact ⟨none, s1, hrun, fl, h⟩
  | some bb =>
    obtain ⟨fl1, hok1, -, hsv1⟩ := hpost1
    obtain ⟨r, t, e, hpost⟩ := kmallocBig_spec size hok1
    refine ⟨r, t, hrun.trans e, ?_⟩
    cases r with
    | none =>
      obtain ⟨fl', hok, hsv⟩ := hpost
      have hall := hsv1.trans hsv
      refine ⟨fl', hok, h.outs, ?_, ok_of_saves h.ok hall⟩
      rw [hall.bigblocks]
      exact h.bigs
    | some p =>
      obtain ⟨⟨q, hq⟩, fl', hok, hsv⟩ := hpost
      refine ⟨⟨bb, findOrder (intOfSize size), p⟩, ?_, rfl, rfl,
        fun hfit => ⟨fl', hok, h.outs.cons _, ?_, ?_⟩⟩
      · rw [hsv.bigblocks]
        exact mem_cons_self
      · rw [hsv.bigblocks, hsv1.bigblocks]
        exact h.bigs.cons _
      · intro g hg
        rcases mem_cons.mp hg with rfl | hg
        · exact ⟨hpos, hfit, q, hq⟩
        · refine ok_of_saves (fun g hg => ?_) hsv g hg
          exact (ok_of_saves h.ok hsv1 g hg).congr rfl

/-- A record of pages that lie in the memory of a grant is the one of that grant. -/
lemma Accounted.bigBlock_eq (h : Accounted al fl (g :: hs) s out) {b : Seg} (hb : b ∈ g.segs)
    {bb : BigBlock} (hbb : bb ∈ s.bigblocks) (hx : b.Contains bb.pages) : g.bigBlock = some bb := by
  obtain ⟨g', hg, hgb⟩ := mem_filterMap.mp (h.bigs.mem_iff.mp hbb)
  rcases mem_cons.mp hg with rfl | hg
  · exact hgb
  cases g' with
  | small _ _ => cases hgb
  | big size bb' =>
    cases hgb
    have hpos := Nat.mul_pos (Nat.two_pow_pos bb.order) pageSize_pos
    exact (h.disjoint_front (c := ⟨bb.pages, 2 ^ bb.order * pageSize⟩) hg hb
      (by simp [Grant.segs]) hx ⟨le_rfl, by dsimp only; omega⟩).elim

/-- **`kfree` of a small block.** -/
lemma kfree_small {a : ℕ} (h : Accounted al fl (.small size a :: hs) s out) :
    Returns (kfree al (a + slobUnit)) s fun _ t =>
      ∃ fl' gs', Accounted al fl' gs' t (out.erase ⟨a + slobUnit, size⟩) := by
  obtain ⟨hpos, hunits⟩ : 0 < size ∧ s.units a = slobUnits (size + slobUnit) := h.ok _ mem_cons_self
  have hle := Grant.size_le size
  -- the block is not one of the large ones
  have hfind : s.bigblocks.find? (·.pages = a + slobUnit) = none := by
    refine List.find?_eq_none.mpr fun bb hbb hp => ?_
    rw [decide_eq_true_iff] at hp
    have hsome := h.bigBlock_eq (List.mem_singleton_self _) hbb
      ⟨by dsimp only; omega, by dsimp only; omega⟩
    cases hsome
  have hb : (⟨a, slobUnits (size + slobUnit) * slobUnit⟩ : Seg) ∈
      (Grant.small size a :: hs).flatMap Grant.segs := mem_cons_self
  obtain ⟨_, t, e, fl', hok, -, hsv⟩ := slobFree_spec 0 h.heap hb
    (by rw [if_neg (by simp)]; dsimp only; rw [hunits])
  rw [flatMap_cons, Grant.segs, singleton_append, erase_cons_head] at hok hsv
  refine ⟨(), t, ?_, fl', hs, hok, ?_, ?_, ?_⟩
  · unfold kfree
    rw [read_bind_apply, if_neg (by unfold slobUnit; omega), hfind, ite_self, Nat.add_sub_cancel]
    exact e
  · have h1 := h.outs.erase (⟨a + slobUnit, size⟩ : Out)
    rwa [List.map_cons, Grant.out, List.erase_cons_head] at h1
  · rw [hsv.bigblocks]
    exact h.bigs
  · exact ok_of_saves (fun g hg => h.ok g (mem_cons_of_mem _ hg)) hsv

/-- **`kfree` of a large block.** -/
lemma kfree_large {bb : BigBlock} (h : Accounted al fl (.big size bb :: hs) s out)
    (hrel : Releasable al s ⟨bb.pages, size⟩) :
    Returns (kfree al bb.pages) s fun _ t =>
      ∃ fl' gs', Accounted al fl' gs' t (out.erase ⟨bb.pages, size⟩) := by
  obtain ⟨hpos, hfit, p, hp⟩ : 0 < size ∧ size ≤ 2 ^ bb.order * pageSize ∧
      ∃ p, bb.pages = al.page2kva p :=
    h.ok _ mem_cons_self
  have hseg : (⟨bb.pages, 2 ^ bb.order * pageSize⟩ : Seg) = pagesSeg al p (2 ^ bb.order) := by
    rw [hp]
    rfl
  have hkva : al.kva2page bb.pages = p := by
    rw [hp]
    exact kva2page_of_mem (i := 0) pageSize_pos
  have hheap : HeapOk al fl
      (pagesSeg al p (2 ^ bb.order) :: bigSeg bb.addr :: hs.flatMap Grant.segs) s := by
    rw [← hseg]
    exact h.heap.perm (Perm.swap _ _ _)
  have hmem : bb ∈ s.bigblocks := h.bigs.mem_iff.mpr mem_cons_self
  -- the search finds the record
  have hfind : s.bigblocks.find? (·.pages = bb.pages) = some bb := by
    have hsome : (s.bigblocks.find? (·.pages = bb.pages)).isSome :=
      List.find?_isSome.mpr ⟨bb, hmem, decide_eq_true rfl⟩
    obtain ⟨bb', hbb'⟩ := Option.isSome_iff_exists.mp hsome
    rw [hbb', Option.some.injEq]
    have hpages : bb'.pages = bb.pages := by simpa using List.find?_some hbb'
    exact (Option.some.inj (h.bigBlock_eq (b := ⟨bb.pages, 2 ^ bb.order * pageSize⟩)
      (by simp [Grant.segs]) (mem_of_find?_eq_some hbb') ⟨hpages.ge, by dsimp only; omega⟩)).symm
  have hne : bb.pages ≠ 0 := by
    have h1 := hheap.arena_lt mem_cons_self
    rw [← hseg] at h1
    dsimp only at h1
    omega
  have haligned : bb.pages % pageSize = 0 := by
    obtain ⟨m, hm⟩ := al.base_aligned
    rw [hp, PageAllocator.page2kva, hm, mul_comm p, ← mul_add]
    exact Nat.mul_mod_right ..
  obtain ⟨a, ha, h1⟩ := hheap.dropPages (Nat.two_pow_pos _) mem_cons_self (hkva ▸ hrel bb hmem rfl)
  rw [erase_cons_head] at h1
  have h2 : HeapOk al fl (bigSeg bb.addr :: hs.flatMap Grant.segs)
      { s with
        bigblocks := s.bigblocks.erase bb
        alloc := a
        taken := s.taken \ Finset.Ico p (p + 2 ^ bb.order) } :=
    h1.congr (fun _ _ => rfl) (fun _ _ => rfl) rfl rfl rfl
  obtain ⟨_, t, e, fl', hok, -, hsv⟩ := slobFree_spec bigblockSize h2 mem_cons_self
    (by rw [if_pos (by decide)]; rfl)
  rw [erase_cons_head] at hok hsv
  refine ⟨(), t, ?_, fl', hs, hok, ?_, ?_, ?_⟩
  · have hpages : slobFreePages al bb.pages bb.order { s with bigblocks := s.bigblocks.erase bb } =
        .ok ((), { s with
          bigblocks := s.bigblocks.erase bb
          alloc := a
          taken := s.taken \ Finset.Ico p (p + 2 ^ bb.order) }) := by
      rw [slobFreePages, read_bind_apply, hkva, ha]
      rfl
    unfold kfree
    rw [read_bind_apply, if_neg hne, if_pos haligned, hfind]
    dsimp only
    rw [modify_bind_apply, bind_of_ok hpages]
    exact e
  · have h3 := h.outs.erase (⟨bb.pages, size⟩ : Out)
    rwa [List.map_cons, Grant.out, List.erase_cons_head] at h3
  · rw [hsv.bigblocks]
    have h3 := h.bigs.erase bb
    rwa [filterMap_cons, Grant.bigBlock, erase_cons_head] at h3
  · refine ok_of_saves (fun g hg => ?_) hsv
    exact (h.ok g (mem_cons_of_mem _ hg)).congr rfl

/-- **`kfree` of an outstanding block** returns. -/
lemma kfree_spec (h : Accounted al fl gs s out) (ho : o ∈ out) (hrel : Releasable al s o) :
    Returns (kfree al o.ptr) s fun _ t => ∃ fl' gs', Accounted al fl' gs' t (out.erase o) := by
  obtain ⟨g, hs, rfl, hacc⟩ := h.exists_front ho
  cases g with
  | small size a => exact kfree_small hacc
  | big size bb => exact kfree_large hacc hrel

/-- **`kmalloc` of a size that is served** returns. -/
lemma kmalloc_spec (h : Accounted al fl gs s out) (hpos : 0 < size) (hserved : Served size) :
    Returns (kmalloc al size) s fun r t =>
      ∃ fl' gs', Accounted al fl' gs' t (addOut size out r) := by
  rcases served_iff.mp hserved with hsmall | ⟨hlarge, hfit⟩
  · refine kmalloc_small h hpos ?_
    unfold slobUnit pageSize at hsmall
    omega
  · refine (kmalloc_large h hlarge).mono fun r t hpost => ?_
    cases r with
    | none =>
      obtain ⟨fl', hacc⟩ := hpost
      exact ⟨fl', gs, hacc⟩
    | some p =>
      obtain ⟨bb, -, -, horder, hacc⟩ := hpost
      obtain ⟨fl', hacc⟩ := hacc (by rw [horder, mul_comm]; exact hfit)
      exact ⟨fl', _, hacc⟩

/-- **`kmalloc` of a size that is not served** fails an assertion, or the pages do not hold the
size. -/
lemma kmalloc_unserved (h : Accounted al fl gs s out) (hserved : ¬Served size) :
    kmalloc al size s = .error .slobSize ∨ ∃ r t, kmalloc al size s = .ok (r, t) ∧
      ∀ p, r = some p → ∃ bb ∈ t.bigblocks, bb.pages = p ∧ 2 ^ bb.order * pageSize < size := by
  rw [served_iff, not_or, not_and] at hserved
  obtain ⟨hsmall, hlarge⟩ := hserved
  by_cases hlt : size < pageSize - slobUnit
  · left
    unfold kmalloc slobAlloc
    have hno : ¬(size + slobUnit + slobUnit < pageSize) := by omega
    rw [if_pos hlt]
    refine bind_of_error ?_ _
    rw [ensure_bind_apply, if_neg hno]
  · right
    obtain ⟨r, t, e, hpost⟩ := kmalloc_large h (Nat.le_of_not_lt hlt)
    refine ⟨r, t, e, ?_⟩
    rintro p rfl
    obtain ⟨bb, hbb, hp, horder, -⟩ := hpost
    refine ⟨bb, hbb, hp, ?_⟩
    rw [horder, mul_comm]
    omega

end Calls

/-! ## All runs -/

section Run

variable {al : PageAllocator A} {fl L : List Seg} {gs : List Grant} {s t : Kmem A} {out : List Out}

/-- Before the first call all memory is in `arena`. -/
lemma Boot.accounted (h : Boot al s) : Accounted al [arenaSeg al] [] s [] := by
  refine ⟨⟨⟨⟨[], rfl⟩, ⟨h.next, trivial⟩, ?_, ?_⟩, pairwise_singleton .., ?_, ?_, ?_⟩,
    Perm.refl _, ?_, by simp⟩
  · intro b hb
    rw [List.mem_singleton.mp hb]
    change s.units al.arena * slobUnit = slobUnit
    rw [h.units, one_mul]
  · rw [h.slobfree]
    exact List.mem_singleton_self _
  · intro b hb
    rw [flatMap_nil, append_nil] at hb
    rw [List.mem_singleton.mp hb]
    exact (by decide : 0 < slobUnit)
  · intro x
    simp [owned, h.taken]
  · rw [h.taken]
    exact ⟨h.alloc, fun p hp => absurd hp (Finset.notMem_empty p)⟩
  · rw [h.bigblocks]
    exact Perm.refl _

/-- A `slob_t` that has no byte in common with the outstanding blocks is not written to. -/
lemma apart_of_disjoint {x : ℕ} (hpos : ∀ o ∈ out, 0 < o.size)
    (hx : ∀ o ∈ out, ∀ y, Seg.Contains ⟨x, slobUnit⟩ y → ¬o.seg.Contains y) :
    ∀ o ∈ out, x + slobUnit ≤ o.ptr ∨ o.ptr + o.size ≤ x := by
  intro o ho
  have hpos := hpos o ho
  have hunit : 0 < slobUnit := by decide
  by_contra hn
  rcases le_total x o.ptr with hle | hle
  · exact hx o ho o.ptr ⟨hle, by dsimp only; omega⟩
      ⟨le_rfl, by change o.ptr < o.ptr + o.size; omega⟩
  · exact hx o ho x ⟨le_rfl, by dsimp only; omega⟩ ⟨hle, by change x < o.ptr + o.size; omega⟩

/-- Writes to blocks that have no byte in common with the free ones keep the heap. -/
lemma HeapOk.write_out (h : HeapOk al fl L s) (hpos : ∀ o ∈ out, 0 < o.size)
    (hout : ∀ o ∈ out, ∀ b ∈ fl, ∀ x, o.seg.Contains x → ¬b.Contains x) (hw : WriteIn out s t) :
    HeapOk al fl L t := by
  have hfree : ∀ b ∈ fl, ∀ o ∈ out, b.start + slobUnit ≤ o.ptr ∨ o.ptr + o.size ≤ b.start := by
    intro b hb
    refine apart_of_disjoint hpos fun o ho y hy hoy => hout o ho b hb y hoy ⟨hy.1, ?_⟩
    have h1 := h.units b hb
    have h2 := h.pos b (mem_append_left _ hb)
    have h3 : slobUnit ≤ b.size := by
      rw [← h1]
      refine Nat.le_mul_of_pos_left _ (pos_of_ne_zero fun h0 => ?_)
      rw [h0, zero_mul] at h1
      omega
    have h4 : y < b.start + slobUnit := hy.2
    omega
  exact h.congr (fun b hb => hw.units _ (hfree b hb))
    (fun b hb => hw.next _ (hfree b hb)) hw.slobfree hw.alloc hw.taken

lemma HeapOk.others {a : A} (h : HeapOk al fl L s) (ha : Owns al s.taken a) :
    HeapOk al fl L { s with alloc := a } := { h with taken := ha }

section

variable (h : Accounted al fl gs s out)
include h

lemma Accounted.size_pos {o : Out} (ho : o ∈ out) : 0 < o.size := by
  obtain ⟨g, hg, rfl⟩ := mem_map.mp (h.outs.mem_iff.mp ho)
  have hok := h.ok g hg
  cases g with
  | small size a | big size bb => exact hok.1

/-- **Writes to the outstanding blocks** keep the accounts. -/
lemma Accounted.write (hw : WriteIn out s t) : Accounted al fl gs t out := by
  refine ⟨h.heap.write_out (fun _ => h.size_pos)
    (fun o ho b hb x hx => h.out_free ho hx hb) hw, h.outs, hw.bigblocks ▸ h.bigs, fun g hg => ?_⟩
  have hok := h.ok g hg
  cases g with
  | small size a =>
    refine ⟨hok.1, (hw.units a ?_).trans hok.2⟩
    exact apart_of_disjoint (fun _ => h.size_pos) fun o ho y hy hoy => h.out_header ho hoy hg hy
  | big size bb => exact hok

/-- **The other parts of the kernel** take and return pages of their own. -/
lemma Accounted.others {a : A} (ha : Owns al s.taken a) :
    Accounted al fl gs { s with alloc := a } out :=
  ⟨h.heap.others ha, h.outs, h.bigs, fun g hg => (h.ok g hg).congr rfl⟩

end

/-- **All runs with served sizes keep the accounts**, if the pages of freed blocks can be given
back. -/
lemma HeapRun.accounted (h : HeapRun al Served (Releasable al) s out) :
    ∃ fl gs, Accounted al fl gs s out := by
  induction h with
  | boot hb => exact ⟨_, _, hb.accounted⟩
  | malloc _ hpos _ hserved e ih =>
    obtain ⟨fl, gs, hacc⟩ := ih
    obtain ⟨r, t, e', hpost⟩ := kmalloc_spec hacc hpos hserved
    cases e.symm.trans e'
    exact hpost
  | free _ ho hrel e ih =>
    obtain ⟨fl, gs, hacc⟩ := ih
    obtain ⟨r, t, e', hpost⟩ := kfree_spec hacc ho hrel
    cases e.symm.trans e'
    exact hpost
  | write _ hw ih =>
    obtain ⟨fl, gs, hacc⟩ := ih
    exact ⟨fl, gs, hacc.write hw⟩
  | others _ ha ih =>
    obtain ⟨fl, gs, hacc⟩ := ih
    exact ⟨fl, gs, hacc.others ha⟩

/-- **The contract of `kmalloc` in one state**: the bytes of the outstanding blocks are memory of
the module, belong to one block only, and to no free block and no header; every byte of the module
is in one free block or behind one outstanding block; `kmalloc` of a size that satisfies `P` and
`kfree` of an outstanding block that satisfies `R` return. -/
structure Contract (al : PageAllocator A) (P : ℕ → Prop) (R : Kmem A → Out → Prop) (s : Kmem A)
    (out : List Out) : Prop where
  inside : ∀ o ∈ out, ∀ x, o.seg.Contains x → al.base ≤ x ∧ al.kva2page x ∈ s.taken
  disjoint : out.Pairwise fun o o' => ∀ x, ¬(o.seg.Contains x ∧ o'.seg.Contains x)
  accounted : ∃ fl gs, Accounted al fl gs s out ∧ ∀ o ∈ out, ∀ x, o.seg.Contains x →
    (∀ b ∈ fl, ¬b.Contains x) ∧ ∀ g ∈ gs, ¬g.header.Contains x
  malloc : ∀ size, 0 < size → size < 2 ^ 64 → P size → ∃ r t, kmalloc al size s = .ok (r, t)
  free : ∀ o ∈ out, R s o → ∃ t, kfree al o.ptr s = .ok ((), t)

lemma Accounted.contract (hacc : Accounted al fl gs s out) :
    Contract al Served (Releasable al) s out := by
  refine ⟨fun o ho x hx => hacc.inside ho hx, hacc.outs_disjoint, ⟨fl, gs, hacc, ?_⟩, ?_, ?_⟩
  · intro o ho x hx
    exact ⟨fun b hb => hacc.out_free ho hx hb, fun g hg => hacc.out_header ho hx hg⟩
  · intro size hpos _ hserved
    obtain ⟨r, t, e, -⟩ := kmalloc_spec hacc hpos hserved
    exact ⟨r, t, e⟩
  · intro o ho hrel
    obtain ⟨_, t, e, -⟩ := kfree_spec hacc ho hrel
    exact ⟨t, e⟩

end Run

/-- **The contract of `kmalloc`** over `default_pmm` holds in every state of every run in which
`kmalloc` is called with sizes that are served, and `kfree` gives no pages back behind the last free
block of `default_pmm`. For all other sizes `kmalloc` fails the assertion of `slob_alloc`, or the
pages it hands out are too few. -/
theorem kmalloc_contract (r : PageRegion) {s : Kmem PmmRun} {out : List Out}
    (h : HeapRun (defaultPages r) Served (Releasable (defaultPages r)) s out) :
    Contract (defaultPages r) Served (Releasable (defaultPages r)) s out ∧
    ∀ size, ¬Served size → kmalloc (defaultPages r) size s = .error .slobSize ∨
      ∃ p t, kmalloc (defaultPages r) size s = .ok (p, t) ∧
        ∀ q, p = some q → ∃ bb ∈ t.bigblocks, bb.pages = q ∧ 2 ^ bb.order * pageSize < size := by
  obtain ⟨fl, gs, hacc⟩ := h.accounted
  exact ⟨hacc.contract, fun size hserved => kmalloc_unserved hacc hserved⟩

/-! ## A small machine -/

/-- Eight pages behind `arena`. -/
def eightRegion : PageRegion where
  lo := 0
  n := 8
  base := 8192
  arena := 4096
  small := by decide
  base_aligned := ⟨2, rfl⟩
  above := by decide

/-- `default_pmm` on the eight pages. -/
abbrev eightPages : PageAllocator PmmRun := defaultPages eightRegion

/-- `default_pmm` after `default_init_memmap` of the eight pages. -/
def eightPagesPmm : Pmm := ((defaultBoot 10 0 8 reservedPages).toOption.map Prod.snd).getD
    reservedPages

/-- The heap of the small machine before the first call. -/
def eightPagesBoot : Kmem PmmRun where
  units x := if x = 4096 then 1 else 0
  next x := if x = 4096 then 4096 else 0
  slobfree := 4096
  bigblocks := []
  alloc := ⟨eightPagesPmm, ∅⟩
  taken := ∅

lemma eightPagesBoot_boot : Boot eightPages eightPagesBoot := by
  obtain ⟨s, e, h⟩ := defaultBoot_firstFit 10 reservedPages (by decide : 0 < 8) (by decide)
    fun i _ (_ : i < 0 + 8) => rfl
  have hs : eightPagesPmm = s := by
    rw [eightPagesPmm, e]
    rfl
  exact ⟨⟨_, hs ▸ h⟩, rfl, rfl, rfl, rfl, rfl⟩

/-- A run on the small machine: a small block, a large one, and the large one is freed. -/
theorem kmalloc_contract_eightPages : ∃ s,
    HeapRun eightPages Served (Releasable eightPages) s [⟨8208, 100⟩] ∧
    Contract eightPages Served (Releasable eightPages) s [⟨8208, 100⟩] := by
  have hserved : Served 5000 := by
    refine .inr ⟨by decide, by decide, fun k => ?_⟩
    cases k with
    | zero => right; decide
    | succ k =>
      left
      have := Nat.two_pow_pos k
      rw [pow_succ]
      omega
  have hsome : ∃ s t u, kmalloc eightPages 100 eightPagesBoot = .ok (some 8208, s) ∧
      kmalloc eightPages 5000 s = .ok (some 12288, t) ∧ (t.alloc.pmm.pages 3).pgProperty = true ∧
      kfree eightPages 12288 t = .ok ((), u) := by
    obtain ⟨v, e⟩ : ∃ v, (kmalloc eightPages 100 >>= fun a => kmalloc eightPages 5000 >>= fun b =>
        Comp.read >>= fun t => kfree eightPages 12288 >>= fun _ =>
        pure (a, b, (t.alloc.pmm.pages 3).pgProperty)) eightPagesBoot =
        .ok ((some 8208, some 12288, true), v) := Comp.exists_of_result (by decide +kernel)
    simp only [bind_eq_ok] at e
    obtain ⟨a, s, e1, b, t, e2, _, _, hr, _, u, e3, e⟩ := e
    cases hr
    obtain ⟨hv, -⟩ := Prod.mk.inj (Except.ok.inj e)
    simp only [Prod.mk.injEq] at hv
    obtain ⟨rfl, rfl, hflag⟩ := hv
    exact ⟨s, t, u, e1, e2, hflag, e3⟩
  obtain ⟨s, t, u, e1, e2, hflag, e3⟩ := hsome
  have h1 : HeapRun eightPages Served (Releasable eightPages) s [⟨8208, 100⟩] :=
    .malloc (.boot eightPagesBoot_boot) (by decide) (by decide) (.inl (by decide)) e1
  have h2 := h1.malloc (by decide) (by decide) hserved e2
  have h3 := h2.free (o := ⟨12288, 5000⟩) mem_cons_self
    (fun _ _ _ => .inr ⟨3, by decide, by decide, by decide, hflag⟩) e3
  rw [addOut, erase_cons_head] at h3
  exact ⟨u, h3, (kmalloc_contract eightRegion h3).1⟩

/-- The calls. -/
inductive HeapOp
  | malloc (size : ℕ)
  | free (o : Out)

/-- Calls one after the other; `none` if one of them panics or frees what is not outstanding. -/
def execAll (al : PageAllocator A) : List HeapOp → Kmem A → List Out → Option (Kmem A × List Out)
  | [], s, out => some (s, out)
  | .malloc size :: l, s, out =>
    if 0 < size ∧ size < 2 ^ 64 then
      match kmalloc al size s with
      | .ok (r, t) => execAll al l t (addOut size out r)
      | .error _ => none
    else none
  | .free o :: l, s, out =>
    if o ∈ out then
      match kfree al o.ptr s with
      | .ok (_, t) => execAll al l t (out.erase o)
      | .error _ => none
    else none

/-- The calls lead to states of runs without conditions. -/
lemma HeapRun.execAll {al : PageAllocator A} {s t : Kmem A} {out out' : List Out} (l : List HeapOp)
    (h : HeapRun al (fun _ => True) (fun _ _ => True) s out)
    (e : Slob.execAll al l s out = some (t, out')) :
    HeapRun al (fun _ => True) (fun _ _ => True) t out' := by
  induction l generalizing s out with
  | nil =>
    cases e
    exact h
  | cons op l ih =>
    cases op with
    | malloc size =>
      rw [Slob.execAll] at e
      split_ifs at e with hc
      cases hr : kmalloc al size s with
      | ok r =>
        rw [hr] at e
        exact ih (h.malloc hc.1 hc.2 trivial hr) e
      | error _ =>
        rw [hr] at e
        cases e
    | free o =>
      rw [Slob.execAll] at e
      split_ifs at e with hc
      cases hr : kfree al o.ptr s with
      | ok r =>
        rw [hr] at e
        exact ih (h.free hc trivial hr) e
      | error _ =>
        rw [hr] at e
        cases e

/-- A run of the small machine without conditions, at the end of which the contract does not
hold. -/
def Breaks (s : Kmem PmmRun) (out : List Out) : Prop :=
  HeapRun eightPages (fun _ => True) (fun _ _ => True) s out ∧
    ¬Contract eightPages (fun _ => True) (fun _ _ => True) s out

/-- **Without the conditions the contract fails.** `kmalloc(4064)` fails the assertion of
`slob_alloc`; `kmalloc(8193)` returns two pages, of which the last byte that was asked for is not
one; and when the last two pages are freed behind the free page 3, `kmalloc(8192)` hands them out
twice. -/
theorem kmalloc_fails :
    (Breaks eightPagesBoot [] ∧ kmalloc eightPages 4064 eightPagesBoot = .error .slobSize) ∧
    (∃ s, Breaks s [⟨12288, 8193⟩]) ∧
    ∃ s out, Breaks s (⟨32768, 8192⟩ :: ⟨32768, 8192⟩ :: out) := by
  have hboot : HeapRun eightPages (fun _ => True) (fun _ _ => True) eightPagesBoot [] :=
    .boot eightPagesBoot_boot
  have hfail : kmalloc eightPages 4064 eightPagesBoot = .error .slobSize := rfl
  refine ⟨⟨⟨hboot, fun h => ?_⟩, hfail⟩, ?_, ?_⟩
  · obtain ⟨r, t, e⟩ := h.malloc 4064 (by decide) (by decide) trivial
    cases hfail.symm.trans e
  · -- the pages that have been taken after the call
    have h : ((kmalloc eightPages 8193 eightPagesBoot).toOption.map fun r =>
        (r.1, decide (3 ∈ r.2.taken))) = some (some 12288, false) := by decide +kernel
    obtain ⟨⟨r, s⟩, e, h⟩ := exists_ok h
    obtain ⟨rfl, htaken⟩ := Prod.mk.inj h
    refine ⟨s, .malloc hboot (by decide) (by decide) trivial e, fun hc => ?_⟩
    have hin := (hc.inside _ mem_cons_self 20480
      ⟨(by decide : 12288 ≤ 20480), (by decide : 20480 < 12288 + 8193)⟩).2
    exact of_decide_eq_false htaken hin
  · have h : ((execAll eightPages [.malloc 4096, .malloc 4096, .malloc 4096, .malloc 8192,
        .malloc 8192, .free ⟨20480, 4096⟩, .free ⟨12288, 4096⟩, .free ⟨32768, 8192⟩, .malloc 8192,
        .malloc 8192] eightPagesBoot []).map Prod.snd) =
        some [⟨32768, 8192⟩, ⟨32768, 8192⟩, ⟨24576, 8192⟩, ⟨16384, 4096⟩] := by decide +kernel
    obtain ⟨⟨s, _⟩, e, rfl⟩ := Option.map_eq_some_iff.mp h
    refine ⟨s, _, hboot.execAll _ e, fun hc => ?_⟩
    have hin : Seg.Contains ⟨32768, 8192⟩ 32768 := by decide
    exact rel_of_pairwise_cons hc.disjoint mem_cons_self 32768 ⟨hin, hin⟩

end Ucore.Slob
