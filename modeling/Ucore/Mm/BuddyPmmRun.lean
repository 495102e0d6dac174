import Ucore.Mm.BuddyPmmInv

set_option autoImplicit false

/-!
# Runs of the buddy allocator

Every sequence of allocations and frees on one region of `pages[]`, each free being one of an
outstanding allocation.

## Main definitions

* `BuddyRun` — the allocator's state with the outstanding allocations; `buddyStep` — one
  call.
* `BuddyRun.WellFormed` — lists, flags and counters describe a tiling of the region by the free
  and the outstanding blocks.
* `FreesUp` — a free merges with buddies above it only.

## Main results

* `buddyStep_wellFormed_iff` — one call.
* `buddy_invariant_iff_frees_up` — the state stays well formed exactly as long as no free merges
  with a buddy below.
* `buddy_invariant_broken_by_buddy_below` — a run of four calls that breaks it.
-/

namespace Ucore

open Function

/-- The allocator's state and the outstanding allocations: `out b` is the number of pages asked for
in the call that returned `b`. -/
structure BuddyRun where
  pmm : BuddyPmm
  out : ℕ → Option ℕ

namespace BuddyRun

/-- The outstanding blocks: an allocation of `m` pages holds `2 ^ ⌈log₂ m⌉` pages. -/
def held (out : ℕ → Option ℕ) : Set (ℕ × ℕ) :=
  {x | ∃ m, out x.1 = some m ∧ x.2 = Nat.clog 2 m}

/-- **Well-formed states**: each block on the list of order `k` has its flag set and order `k`, no
other page has the flag, free and outstanding blocks tile the region, and the counters are the
lengths of the lists. -/
def WellFormed (npage : ℕ) (R : Set ℕ) (st : BuddyRun) : Prop :=
  (∃ L, BuddyInv npage R st.pmm L (held st.out) ∅) ∧
    ∀ b m, st.out b = some m → 0 < m ∧ Nat.clog 2 m < maxOrder

/-- `L` are the lists of a well-formed state. -/
structure Lists (npage : ℕ) (R : Set ℕ) (st : BuddyRun) (L : ℕ → List ℕ) : Prop where
  inv : BuddyInv npage R st.pmm L (held st.out) ∅
  out : ∀ b m, st.out b = some m → 0 < m ∧ Nat.clog 2 m < maxOrder

lemma wellFormed_iff {npage : ℕ} {R : Set ℕ} {st : BuddyRun} :
    st.WellFormed npage R ↔ ∃ L, st.Lists npage R L :=
  ⟨fun ⟨⟨L, h⟩, hout⟩ => ⟨L, h, hout⟩, fun ⟨L, h, hout⟩ => ⟨⟨L, h⟩, hout⟩⟩

/-- What callers owe the allocator: requests are not empty, and a free has the base and the number
of pages of an outstanding allocation. -/
def Legit (st : BuddyRun) : PmmOp → Prop
  | .alloc m => 0 < m
  | .free base m => st.out base = some m

end BuddyRun

/-- One call. -/
def buddyStep (npage : ℕ) (st : BuddyRun) : PmmOp → Except PmmPanic BuddyRun
  | .alloc m =>
    match buddyAllocPages m st.pmm with
    | .ok (some p, s) => .ok ⟨s, update st.out p (some m)⟩
    | .ok (none, s) => .ok ⟨s, st.out⟩
    | .error e => .error e
  | .free base m =>
    match buddyFreePages npage base m st.pmm with
    | .ok (_, s) => .ok ⟨s, update st.out base none⟩
    | .error e => .error e

/-- A call that merges with no buddy below the freed block: as long as the buddies of the growing
block are free, they lie above it. -/
def FreesUp (npage : ℕ) (st : BuddyRun) : PmmOp → Prop
  | .alloc _ => True
  | .free base m => MergesUp npage st.pmm.pages base (Nat.clog 2 m)

/-- The states reached from a freshly initialised region by calls that keep their obligations and
satisfy `C`. -/
def BuddyReach (C : BuddyRun → PmmOp → Prop) (npage lo n : ℕ) (s₀ : BuddyPmm) (st : BuddyRun) :
    Prop :=
  ∃ s, buddyBoot lo n s₀ = .ok ((), s) ∧
    Relation.ReflTransGen
      (fun st st' => ∃ op : PmmOp, st.Legit op ∧ C st op ∧ buddyStep npage st op = .ok st')
      ⟨s, fun _ => none⟩ st

section Held

variable {out : ℕ → Option ℕ} {p m x y : ℕ}

lemma mem_held : (x, y) ∈ BuddyRun.held out ↔ ∃ m, out x = some m ∧ y = Nat.clog 2 m := Iff.rfl

lemma held_update_some (hp : out p = none) (m : ℕ) :
    BuddyRun.held (update out p (some m)) = insert (p, Nat.clog 2 m) (BuddyRun.held out) := by
  ext ⟨x, y⟩
  rw [Set.mem_insert_iff, mem_held, mem_held, Prod.mk.injEq]
  by_cases hx : x = p
  · subst hx
    simp [hp]
  · simp [hx]

lemma held_update_none (hp : out p = some m) :
    BuddyRun.held out = insert (p, Nat.clog 2 m) (BuddyRun.held (update out p none)) := by
  ext ⟨x, y⟩
  rw [Set.mem_insert_iff, mem_held, mem_held, Prod.mk.injEq]
  by_cases hx : x = p
  · subst hx
    simp [hp]
  · simp [hx]

end Held

section Steps

variable {npage lo n : ℕ} {R : Set ℕ} {st : BuddyRun} {L : ℕ → List ℕ}

/-- An outstanding block has an order that a list has, and no other block starts inside it. -/
lemma BuddyRun.Lists.block (h : st.Lists npage R L) {b m : ℕ} (hb : st.out b = some m) :
    0 < m ∧ Nat.clog 2 m < maxOrder ∧ m ≤ 2 ^ 63 ∧
      ∀ x y, (x, y) ∈ BuddyRun.held (update st.out b none) →
      x ∉ Set.Ico b (b + 2 ^ Nat.clog 2 m) := by
  obtain ⟨h, hout⟩ := h
  obtain ⟨hm, hlt⟩ := hout b m hb
  refine ⟨hm, hlt, ?_, fun x y hx hmem => ?_⟩
  · refine le_trans (Nat.le_pow_clog Nat.one_lt_two m) (Nat.pow_le_pow_right Nat.two_pos ?_)
    unfold maxOrder at hlt
    omega
  · have hxH : (x, y) ∈ BuddyRun.held st.out := by
      rw [held_update_none hb]
      exact Set.mem_insert_of_mem _ hx
    have e : Block.held x y = Block.held b (Nat.clog 2 m) :=
      h.tiles.eq_of_mem (mem_all_held.mpr hxH) (mem_all_held.mpr ⟨m, hb, rfl⟩) (start_mem_span x y)
        hmem
    obtain ⟨rfl, -⟩ := Block.held.inj e
    obtain ⟨m', hm', -⟩ := mem_held.mp hx
    simp at hm'

section

variable (hR : R ⊆ Set.Ico lo (lo + n)) (hn : n < uintRange) (hnp : lo + n ≤ npage)
include hR hn hnp

/-- An allocation on a well-formed state leaves a well-formed state. -/
lemma buddyStep_alloc (h : st.Lists npage R L) {m : ℕ} (hm : 0 < m) (hm' : m ≤ 2 ^ 63) :
    ∃ st' L', buddyStep npage st (.alloc m) = .ok st' ∧ st'.Lists npage R L' ∧
      (Settled L (BuddyRun.held st.out) → Settled L' (BuddyRun.held st'.out)) := by
  obtain ⟨h, hout⟩ := h
  rcases buddyAllocPages_spec hR hn hnp h hm hm' with
    ⟨e, -⟩ | ⟨p, s', L', e, hlt, ⟨j, -, hj, hpj⟩, h', hset⟩
  · exact ⟨⟨st.pmm, st.out⟩, L, by simp only [buddyStep, e], ⟨h, hout⟩, id⟩
  · have hp : st.out p = none := by
      cases hp : st.out p with
      | none => rfl
      | some m' =>
        exact absurd (start_mem_span p j) (h.free_sep hj hpj p _ (mem_held.mpr ⟨m', hp, rfl⟩))
    rw [← held_update_some hp] at h' hset
    refine ⟨⟨s', update st.out p (some m)⟩, L', by simp only [buddyStep, e],
      ⟨h', fun b m' hb => ?_⟩, hset⟩
    by_cases hbp : b = p
    · subst hbp
      simp only [update_self, Option.some.injEq] at hb
      subst hb
      exact ⟨hm, hlt⟩
    · simp only [update_of_ne hbp] at hb
      exact hout b m' hb

/-- A free of an outstanding allocation returns, and leaves a well-formed state exactly if it merges
with buddies above only. -/
lemma buddyStep_free (h : st.Lists npage R L) {b m : ℕ} (hb : st.out b = some m) :
    ∃ st', buddyStep npage st (.free b m) = .ok st' ∧
      (MergesUp npage st.pmm.pages b (Nat.clog 2 m) → ∃ L', st'.Lists npage R L' ∧
        (Settled L (BuddyRun.held st.out) → Settled L' (BuddyRun.held st'.out))) ∧
      (¬MergesUp npage st.pmm.pages b (Nat.clog 2 m) → ¬st'.WellFormed npage R) := by
  obtain ⟨hm, hlt, hle, hsep⟩ := h.block hb
  obtain ⟨h, hout⟩ := h
  rw [held_update_none hb] at h ⊢
  obtain ⟨s', e, hup, hdown⟩ := buddyFreePages_spec hR hn hnp h hm hle hlt hsep
  refine ⟨⟨s', update st.out b none⟩, by simp only [buddyStep, e], fun hm => ?_,
    fun hno ⟨⟨L', h'⟩, _⟩ => hdown hno L' _ h'⟩
  · obtain ⟨L', h', hset⟩ := hup hm
    refine ⟨L', ⟨h', fun x m' hx => ?_⟩, hset⟩
    by_cases hxb : x = b
    · subst hxb
      simp at hx
    · simp only [update_of_ne hxb] at hx
      exact hout x m' hx

/-- **One call** and the lists of a well-formed state. -/
lemma buddyStep_lists (h : st.Lists npage R L) {op : PmmOp} (hop : st.Legit op) :
    (∃ m, op = .alloc m ∧ 2 ^ 63 < m ∧ buddyStep npage st op = .error .diverges) ∨
    ∃ st', buddyStep npage st op = .ok st' ∧
      (FreesUp npage st op → ∃ L', st'.Lists npage R L' ∧
        (Settled L (BuddyRun.held st.out) → Settled L' (BuddyRun.held st'.out))) ∧
      (¬FreesUp npage st op → ¬st'.WellFormed npage R) := by
  cases op with
  | alloc m =>
    by_cases hm : m ≤ 2 ^ 63
    · obtain ⟨st', L', e, h'⟩ := buddyStep_alloc hR hn hnp h hop hm
      exact .inr ⟨st', e, fun _ => ⟨L', h'⟩, fun hno => absurd trivial hno⟩
    · refine .inl ⟨m, rfl, by omega, ?_⟩
      simp only [buddyStep, buddyAllocPages_diverges (not_le.mp hm)]
  | free b m => exact .inr (buddyStep_free hR hn hnp h hop)

/-- **One call** on a well-formed state: a request of more than `2 ^ 63` pages does not return;
every other call does, and leaves a well-formed state exactly if it does not merge with a buddy
below. -/
lemma buddyStep_wellFormed_iff (h : st.WellFormed npage R) {op : PmmOp} (hop : st.Legit op) :
    (∃ m, op = .alloc m ∧ 2 ^ 63 < m ∧ buddyStep npage st op = .error .diverges) ∨
    ∃ st', buddyStep npage st op = .ok st' ∧ (st'.WellFormed npage R ↔ FreesUp npage st op) := by
  obtain ⟨L, h⟩ := BuddyRun.wellFormed_iff.mp h
  refine (buddyStep_lists hR hn hnp h hop).imp_right ?_
  rintro ⟨st', e, hup, hdown⟩
  refine ⟨st', e, fun h' => by_contra fun hno => hdown hno h', fun hc => ?_⟩
  obtain ⟨L', h', -⟩ := hup hc
  exact BuddyRun.wellFormed_iff.mpr ⟨L', h'⟩

end

section

variable {s₀ : BuddyPmm} (hn0 : 0 < n) (hn : n < uintRange) (hnp : lo + n ≤ npage)
  (hres : ∀ i ∈ Set.Ico lo (lo + n), (s₀.pages i).pgReserved = true)
  (hflag : ∀ i < npage, i ∉ Set.Ico lo (lo + n) → (s₀.pages i).pgProperty = false)
  (h : BuddyReach (FreesUp npage) npage lo n s₀ st)
include hn0 hn hnp hres hflag h

/-- **The lists along a run** whose frees merge upwards only; their blocks are settled if the first
block of the region is aligned. -/
lemma BuddyReach.lists : ∃ L, st.Lists npage (Set.Ico lo (lo + n)) L ∧
      (2 ^ min (Nat.log 2 n) (maxOrder - 1) ∣ lo → Settled L (BuddyRun.held st.out)) := by
  obtain ⟨s, hs, hrun⟩ := h
  induction hrun with
  | refl =>
    obtain ⟨t, L, ht, h, hset⟩ := buddyBoot_inv hn0 hn hres hflag
    rw [hs] at ht
    cases ht
    have hheld : BuddyRun.held (fun _ => none) = ∅ := by
      ext ⟨x, y⟩
      simp [mem_held]
    rw [← hheld] at h hset
    exact ⟨L, ⟨h, fun b m hb => by cases hb⟩, hset⟩
  | tail _ hstep ih =>
    obtain ⟨op, hop, hc, e⟩ := hstep
    obtain ⟨L, hL, hset⟩ := ih
    rcases buddyStep_lists subset_rfl hn hnp hL hop with ⟨_, -, -, e'⟩ | ⟨st', e', hup, -⟩
    · rw [e] at e'
      cases e'
    · rw [e] at e'
      cases e'
      obtain ⟨L', hL', hset'⟩ := hup hc
      exact ⟨L', hL', fun hd => hset' (hset hd)⟩

/-- Along a run whose frees merge upwards only the states are well formed. -/
lemma BuddyReach.wellFormed : st.WellFormed npage (Set.Ico lo (lo + n)) := by
  obtain ⟨L, hL, -⟩ := h.lists hn0 hn hnp hres hflag
  exact BuddyRun.wellFormed_iff.mpr ⟨L, hL⟩

end

end Steps

/-- **The buddy invariant.** After `buddy_init_memmap` of a region of reserved pages, in every state
reached by calls none of which merges with a buddy below:

* the state is well formed;
* every next call returns (unless it asks for more than `2 ^ 63` pages, where `log2_ceil` does not
  end), so that the assertion of `buddy_free_pages` holds; and the state is well formed afterwards
  exactly if that call does not merge with a buddy below either. -/
theorem buddy_invariant_iff_frees_up (npage lo n : ℕ) (s₀ : BuddyPmm) (hn0 : 0 < n)
    (hn : n < uintRange) (hnp : lo + n ≤ npage)
    (hres : ∀ i ∈ Set.Ico lo (lo + n), (s₀.pages i).pgReserved = true)
    (hflag : ∀ i < npage, i ∉ Set.Ico lo (lo + n) → (s₀.pages i).pgProperty = false) :
    (∃ s, buddyBoot lo n s₀ = .ok ((), s)) ∧
    ∀ st, BuddyReach (FreesUp npage) npage lo n s₀ st →
      st.WellFormed npage (Set.Ico lo (lo + n)) ∧
      ∀ op : PmmOp, st.Legit op →
        (∃ m, op = .alloc m ∧ 2 ^ 63 < m ∧ buddyStep npage st op = .error .diverges) ∨
        ∃ st', buddyStep npage st op = .ok st' ∧
          (st'.WellFormed npage (Set.Ico lo (lo + n)) ↔ FreesUp npage st op) := by
  refine ⟨?_, fun st hst => ?_⟩
  · obtain ⟨s, -, hs, -⟩ := buddyBoot_inv hn0 hn hres hflag
    exact ⟨s, hs⟩
  · have hwf := hst.wellFormed hn0 hn hnp hres hflag
    exact ⟨hwf, fun op hop => buddyStep_wellFormed_iff subset_rfl hn hnp hwf hop⟩

/-- Reserved descriptors, as `page_init` leaves them. -/
def reservedBuddyPages : BuddyPmm where
  links := ⟨fun x => x, fun x => x⟩
  pages := fun _ => ⟨0, true, false, 0⟩
  nrFree := fun _ => 0

/-- On a region of three pages two are allocated; page 0 is freed and merged with page 1. -/
theorem buddy_invariant_three_pages :
    ∃ st st', BuddyReach (FreesUp 4) 4 0 3 reservedBuddyPages st ∧ FreeBuddy 4 st.pmm.pages 0 0 ∧
      buddyStep 4 st (.free 0 1) = .ok st' ∧ st'.WellFormed 4 (Set.Ico 0 3) := by
  obtain ⟨st, hst, hop, hf, hno⟩ : ∃ st, BuddyReach (FreesUp 4) 4 0 3 reservedBuddyPages st ∧
      st.Legit (.free 0 1) ∧ FreeBuddy 4 st.pmm.pages 0 0 ∧ ¬FreeBuddy 4 st.pmm.pages 0 1 :=
    ⟨_, ⟨_, rfl, (Relation.ReflTransGen.single ⟨.alloc 1, one_pos, trivial, rfl⟩).tail
      ⟨.alloc 1, one_pos, trivial, rfl⟩⟩, by exact rfl, by decide, by decide⟩
  obtain ⟨-, h⟩ := buddy_invariant_iff_frees_up 4 0 3 reservedBuddyPages (by decide) (by decide)
    (by decide) (fun _ _ => rfl) fun _ _ _ => rfl
  rcases (h st hst).2 (.free 0 1) hop with ⟨_, hc, -⟩ | ⟨st', e, hiff⟩
  · cases hc
  · refine ⟨st, st', hst, hf, e, hiff.mpr ?_⟩
    rw [FreesUp, Nat.clog_one_right]
    exact (mergesUp_succ hf (by decide)).mpr (mergesUp_of_not_freeBuddy hno)

/-- **A merge with the buddy below damages the flags.** On a region of two pages: allocate a page,
allocate the other, free page 0, free page 1. The merged block starts at page 0, which has lost its
flag, while page 1 has kept its own; the state is not well formed. -/
theorem buddy_invariant_broken_by_buddy_below :
    ∃ st, BuddyReach (fun _ _ => True) 2 0 2 reservedBuddyPages st ∧
      listNext st.pmm.links (.head 1) = .page 0 ∧ (st.pmm.pages 0).pgProperty = false ∧
      (st.pmm.pages 1).pgProperty = true ∧ ¬st.WellFormed 2 (Set.Ico 0 2) := by
  -- the first three calls keep the invariant, the fourth merges with the buddy below
  obtain ⟨st, st', hreach, hlegit, hdown, e, h1, h2, h3⟩ : ∃ st st',
      BuddyReach (FreesUp 2) 2 0 2 reservedBuddyPages st ∧ st.Legit (.free 1 1) ∧
      ¬FreesUp 2 st (.free 1 1) ∧ buddyStep 2 st (.free 1 1) = .ok st' ∧
      listNext st'.pmm.links (.head 1) = .page 0 ∧ (st'.pmm.pages 0).pgProperty = false ∧
      (st'.pmm.pages 1).pgProperty = true := by
    refine ⟨_, _, ⟨_, rfl, ((Relation.ReflTransGen.refl.tail
      ⟨.alloc 1, one_pos, trivial, rfl⟩).tail
      ⟨.alloc 1, one_pos, trivial, rfl⟩).tail
      ⟨.free 0 1, by exact rfl, ?_, rfl⟩⟩, by exact rfl, ?_, rfl, by exact rfl, by exact rfl,
      by exact rfl⟩
    · rw [FreesUp, Nat.clog_one_right]
      exact mergesUp_of_not_freeBuddy (by decide)
    · rw [FreesUp, Nat.clog_one_right]
      exact not_mergesUp_of_below (by decide) (by decide) (by decide)
  have hwf : st.WellFormed 2 (Set.Ico 0 2) :=
    hreach.wellFormed (by decide) (by decide) (by decide) (fun _ _ => rfl) fun _ _ _ => rfl
  refine ⟨st', ?_, h1, h2, h3, fun h' => ?_⟩
  · obtain ⟨s, hs, hrun⟩ := hreach
    refine ⟨s, hs, (Relation.ReflTransGen.mono ?_ _ _ hrun).tail ⟨_, hlegit, trivial, e⟩⟩
    exact fun _ _ ⟨op, hop, _, e⟩ => ⟨op, hop, trivial, e⟩
  · have hR : Set.Ico 0 2 ⊆ Set.Ico 0 (0 + 2) := subset_rfl
    rcases buddyStep_wellFormed_iff hR (by decide) (by decide) hwf hlegit
      with ⟨_, hop, -⟩ | ⟨_, e', hiff⟩
    · cases hop
    · rw [e] at e'
      cases e'
      exact hdown (hiff.mp h')

end Ucore
