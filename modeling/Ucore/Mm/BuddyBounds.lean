import Ucore.Mm.BuddyPmmRun

set_option autoImplicit false

/-!
# The buddy allocator and the end of `pages[]`

The loop of `buddy_free_pages` compares the index of the buddy with `npage`, a page-frame number,
but `pages[]` has only `npage - nbase` descriptors. Here `len` is their number. A block lies in the
region, so its buddy starts below the end of the region or exactly there. The loop stays in
`pages[]` if the region ends before `pages[]` does, or if `len` is a multiple of
`2 ^ (MAX_ORDER - 1)`: then the buddy of the block in front of the end is the one below.

## Main definitions

* `mergeReads`, `buddyFreeReads` — the descriptors that the loop looks at.
* `EndsInside` — the condition on the region and the length of `pages[]`.

## Main results

* `buddyFreePages_modPage` — the call depends on these and on the descriptors of the block only.
* `buddy_reads_inside` — under the condition the loop stays in `pages[]` and in the region.
* `buddy_reads_outside` — the loop reads the descriptor behind the last one.
-/

namespace Ucore

open Function

/-- The indices at which the loop of `buddy_free_pages` accesses `pages[]`, each with the order of
the round and whether the buddy is merged. -/
def mergeReads (npage : ℕ) : ℕ → ℕ → ℕ → BuddyPmm → List (ℕ × ℕ × Bool)
  | 0, _, _, _ => []
  | k + 1, base, order, s =>
    let buddy := buddyIdx base order
    if npage ≤ buddy then []
    else if (s.pages buddy).pgProperty = false ∨ (s.pages buddy).property ≠ order then
      [(buddy, order, false)]
    else
      let (base, s) := mergeBuddy base buddy order s
      (buddy, order, true) :: mergeReads npage k base (order + 1) s

/-- The accesses of the loop in a call of `buddy_free_pages`. -/
def buddyFreeReads (npage base n : ℕ) (s : BuddyPmm) : List (ℕ × ℕ × Bool) :=
  match log2Ceil n with
  | none => []
  | some order =>
    if maxOrder ≤ order then []
    else
      match BuddyPmm.forPages (fun p => !p.pgReserved && !p.pgProperty) .notAllocated
        (fun p => { p with ref := 0, pgReserved := false, pgProperty := false }) base (pow2 order) s
        with
      | .ok (_, s) => mergeReads npage (maxOrder - 1 - order) base order (s.markBlock base order)
      | .error _ => []

/-- Inside `pages[]`, and blocks of the region `R` only are merged. -/
def ReadsInside (len : ℕ) (R : Set ℕ) (l : List (ℕ × ℕ × Bool)) : Prop :=
  ∀ x ∈ l, x.1 < len ∧ (x.2.2 = true → Set.Ico x.1 (x.1 + 2 ^ x.2.1) ⊆ R)

/-- The region ends before `pages[]` does, or the length of `pages[]` is a multiple of the size of
the largest blocks. -/
def EndsInside (len lo n : ℕ) : Prop := lo + n < len ∨ 2 ^ (maxOrder - 1) ∣ len

variable {len npage lo n b m r order x : ℕ} {R : Set ℕ} {s : BuddyPmm} {st : BuddyRun}
  {L : ℕ → List ℕ} {H : Set (ℕ × ℕ)} {f : Page → Page}

/-! ## What is accessed -/

lemma mergeReads_succ (npage r b order : ℕ) (s : BuddyPmm) :
    mergeReads npage (r + 1) b order s =
      if npage ≤ buddyIdx b order then []
      else if FreeBuddy npage s.pages b order then
        let t := mergeBuddy b (buddyIdx b order) order s
        (buddyIdx b order, order, true) :: mergeReads npage r t.1 (order + 1) t.2
      else [(buddyIdx b order, order, false)] := by
  rw [mergeReads]
  by_cases hlt : npage ≤ buddyIdx b order
  · rw [if_pos hlt, if_pos hlt]
  have hiff : FreeBuddy npage s.pages b order ↔ ¬((s.pages (buddyIdx b order)).pgProperty = false ∨
      (s.pages (buddyIdx b order)).property ≠ order) := by
    simp [FreeBuddy, not_le.mp hlt]
  rw [if_neg hlt, if_neg hlt, if_congr hiff rfl rfl, ite_not]

lemma modPage_comm {i j : ℕ} (h : i ≠ j) (g : Page → Page) :
    (s.modPage i f).modPage j g = (s.modPage j g).modPage i f := by
  simp only [BuddyPmm.modPage, update_of_ne h, update_of_ne h.symm, update_comm h]

/-- A round neither reads nor writes other descriptors than those of the two halves. -/
lemma mergeBuddy_modPage {buddy : ℕ} (h1 : x ≠ b) (h2 : x ≠ buddy) :
    mergeBuddy b buddy order (s.modPage x f) =
      ((mergeBuddy b buddy order s).1, (mergeBuddy b buddy order s).2.modPage x f) := by
  have hmin : x ≠ min b buddy := by rcases min_choice b buddy with e | e <;> rwa [e]
  rw [mergeBuddy_eq, mergeBuddy_eq, ← modPage_comm hmin, ← modPage_comm h2]
  rfl

/-- **The loop accesses nothing else**: it runs alike if another descriptor is changed. -/
lemma mergeLoop_modPage (hb : x ≠ b) (hx : ∀ y ∈ mergeReads npage r b order s, y.1 ≠ x) :
    mergeLoop npage r b order (s.modPage x f) = ((mergeLoop npage r b order s).1,
      (mergeLoop npage r b order s).2.1, (mergeLoop npage r b order s).2.2.modPage x f) := by
  induction r generalizing b order s with
  | zero => rfl
  | succ r ih =>
    rw [mergeReads_succ] at hx
    have hfree : x ≠ buddyIdx b order → (FreeBuddy npage (s.modPage x f).pages b order ↔
        FreeBuddy npage s.pages b order) := fun h => by
      simp only [FreeBuddy, BuddyPmm.modPage, update_of_ne h.symm]
    rw [mergeLoop_succ, mergeLoop_succ]
    by_cases hlt : npage ≤ buddyIdx b order
    · have hno : ∀ pages, ¬FreeBuddy npage pages b order := fun _ hf => absurd hf.1 (not_lt.mpr hlt)
      rw [if_neg (hno _), if_neg (hno _)]
    rw [if_neg hlt] at hx
    by_cases hf : FreeBuddy npage s.pages b order
    · rw [if_pos hf] at hx
      have hne := (hx _ List.mem_cons_self).symm
      rw [if_pos hf, if_pos ((hfree hne).mpr hf), mergeBuddy_modPage hb hne]
      refine ih ?_ fun y hy => hx y (List.mem_cons_of_mem _ hy)
      rw [mergeBuddy_eq]
      rcases min_choice b (buddyIdx b order) with e | e <;> rwa [e]
    · rw [if_neg hf] at hx
      rw [if_neg hf, if_neg (mt (hfree (hx _ List.mem_cons_self).symm).mp hf)]

/-- The loop over descriptors accesses those of its range only. -/
lemma forPages_modPage {ok : Page → Bool} {why : PmmPanic} {reset : Page → Page}
    (hx : x ∉ Set.Ico b (b + n)) : BuddyPmm.forPages ok why reset b n (s.modPage x f) =
      (BuddyPmm.forPages ok why reset b n s).map fun r => (r.1, r.2.modPage x f) := by
  have hloop : ∀ (n b : ℕ) (pages : ℕ → Page), x ∉ Set.Ico b (b + n) →
      forPages ok why reset b n (update pages x (f (pages x))) =
        (forPages ok why reset b n pages).map fun q => update q x (f (q x)) := by
    intro n
    induction n with
    | zero => exact fun _ _ _ => rfl
    | succ n ih =>
      intro b pages hx
      rw [Set.mem_Ico] at hx
      have hb : b ≠ x := by omega
      rw [forPages, forPages, update_of_ne hb, update_comm hb.symm,
        ← update_of_ne hb.symm (reset (pages b)) pages, ih _ _ (by rw [Set.mem_Ico]; omega)]
      split_ifs <;> rfl
  simp only [BuddyPmm.forPages, Comp.read_bind_apply, BuddyPmm.modPage, hloop n b s.pages hx]
  cases forPages ok why reset b n s.pages <;> rfl

/-- **What `buddy_free_pages` depends on**: the descriptors of the block and those that the loop
accesses. -/
lemma buddyFreePages_modPage (hlog : log2Ceil m = some order) (hx : x ∉ Set.Ico b (b + 2 ^ order))
    (hr : ∀ y ∈ buddyFreeReads npage b m s, y.1 ≠ x) :
    buddyFreePages npage b m (s.modPage x f) =
      (buddyFreePages npage b m s).map fun r => (r.1, r.2.modPage x f) := by
  have hb : x ≠ b := fun e => hx (e ▸ start_mem_span _ _)
  simp only [buddyFreeReads, hlog] at hr
  simp only [buddyFreePages, Comp.ensure_bind_apply, hlog]
  by_cases hm : 0 < m
  · rw [if_pos hm, if_pos hm]
    by_cases hlt : maxOrder ≤ order
    · rw [if_pos hlt]
      rfl
    rw [if_neg hlt] at hr ⊢
    simp only [Comp.bind_apply, forPages_modPage hx, pow2] at hr ⊢
    revert hr
    cases BuddyPmm.forPages _ _ _ b (2 ^ order) s with
    | error e => exact fun _ => rfl
    | ok t =>
      intro hr
      have hmark : (t.2.modPage x f).markBlock b order = (t.2.markBlock b order).modPage x f := by
        simp only [BuddyPmm.markBlock, modPage_comm hb]
      simp only [Except.map, Comp.modify_apply, hmark, mergeLoop_modPage hb hr]
      rfl
  · rw [if_neg hm, if_neg hm]
    rfl

/-! ## Where the buddies are -/

/-- **The index of the buddy** of a block of the region.

**Proof sketch.** A buddy above starts where the block ends, which is at most the end of the region.
If that were the end of `pages[]`, the bit `order` of `len` would be the one set in the index. -/
lemma EndsInside.buddyIdx_lt (hend : EndsInside len lo n) (hnp : lo + n ≤ len)
    (ho : order < maxOrder - 1) (hblock : Set.Ico b (b + 2 ^ order) ⊆ Set.Ico lo (lo + n)) :
    buddyIdx b order < len := by
  have hpos := Nat.two_pow_pos order
  have hlast := hblock (Set.mem_Ico.mpr ⟨(by omega : b ≤ b + 2 ^ order - 1), by omega⟩)
  rw [Set.mem_Ico] at hlast
  rcases buddyIdx_cases b order with ⟨heven, e⟩ | ⟨-, e⟩
  · rcases hend with hlt | hdvd
    · omega
    refine lt_of_le_of_ne (by omega) fun heq => ?_
    obtain ⟨q, hq⟩ := (pow_dvd_pow 2 (by omega : order + 1 ≤ maxOrder - 1)).trans hdvd
    have hdiv : len / 2 ^ order = 2 * q := by
      rw [hq, pow_succ, mul_assoc, Nat.mul_div_cancel_left _ hpos]
    rw [← heq, e, Nat.add_div_right _ hpos] at hdiv
    omega
  · omega

/-- **The merge loop** stays in `pages[]`, and takes the way that it would take if it compared the
index with the number of descriptors.

**Proof sketch.** Induction on the number of rounds. The block is in the region, so the index of its
buddy is in `pages[]`. If the buddy is free, it is a block of the region; the merged block starts at
the same page, and the condition for it is that for the rest of the rounds. -/
lemma mergeReads_inside (hR : R ⊆ Set.Ico lo (lo + n)) (hn : n < uintRange) (hnp : lo + n ≤ len)
    (hle : len ≤ npage) (hend : EndsInside len lo n) (r : ℕ) :
    ∀ {s : BuddyPmm} {L : ℕ → List ℕ} {order : ℕ}, order + r = maxOrder - 1 →
      BuddyInv len R s L (insert (b, order) H) {b} →
      (∀ x y, (x, y) ∈ H → x ∉ Set.Ico b (b + 2 ^ order)) → MergesUp len s.pages b order →
      ReadsInside len R (mergeReads npage r b order s) ∧
        mergeLoop npage r b order s = mergeLoop len r b order s := by
  induction r with
  | zero => exact fun _ _ _ _ => ⟨fun _ hx => absurd hx List.not_mem_nil, rfl⟩
  | succ r ih =>
    intro s L order ho h hsep hup
    have hidx : buddyIdx b order < len :=
      hend.buddyIdx_lt hnp (by omega) ((h.tiles.subset (mem_all_held.mpr (.inl rfl))).trans hR)
    have hsame : FreeBuddy npage s.pages b order ↔ FreeBuddy len s.pages b order :=
      and_congr_left fun _ => by omega
    rw [mergeLoop_succ, mergeLoop_succ, mergeReads_succ, if_neg (by omega)]
    simp only [hsame]
    by_cases hf : FreeBuddy len s.pages b order
    · obtain ⟨hlt, hmem⟩ := h.mem_of_freeBuddy (start_mem_span _ _) hf
      obtain ⟨-, -, hsep', L', h', -⟩ :=
        mergeBuddy_inv hR hn hnp hlt h (start_mem_span _ _) hsep hmem
      have hb : b < buddyIdx b order := hup order le_rfl (by omega) fun i h1 h2 => by
        rwa [le_antisymm h2 h1]
      have hbase : (mergeBuddy b (buddyIdx b order) order s).1 = b := by
        rw [mergeBuddy_eq, min_eq_left hb.le]
      rw [hbase] at h' hsep'
      obtain ⟨hreads, heq⟩ := ih (by omega) h' hsep'
        ((mergesUp_congr fun i hi => mergeBuddy_pages hb hi s).mpr ((mergesUp_succ hf hb).mp hup))
      simp only [if_pos hf, hbase]
      refine ⟨fun x hx => ?_, heq⟩
      rcases List.mem_cons.mp hx with rfl | hx
      · exact ⟨hidx, fun _ => h.tiles.subset (mem_all_free.mpr ⟨hlt, hmem⟩)⟩
      · exact hreads x hx
    · simp only [if_neg hf]
      refine ⟨fun x hx => ?_, trivial⟩
      rw [List.mem_singleton.mp hx]
      exact ⟨hidx, fun e => absurd e Bool.false_ne_true⟩

/-- **A free** of an outstanding block. -/
lemma buddyFreeReads_inside (hR : R ⊆ Set.Ico lo (lo + n)) (hn : n < uintRange) (hnp : lo + n ≤ len)
    (hle : len ≤ npage) (hend : EndsInside len lo n) (h : st.Lists len R L) (hb : st.out b = some m)
    (hup : MergesUp len st.pmm.pages b (Nat.clog 2 m)) :
    ReadsInside len R (buddyFreeReads npage b m st.pmm) ∧
      buddyFreePages npage b m st.pmm = buddyFreePages len b m st.pmm := by
  obtain ⟨hm, hlt, hm', hsep⟩ := h.block hb
  have hinv := h.inv
  rw [held_update_none hb] at hinv
  obtain ⟨t, e, h1, -, hpages⟩ := hinv.release hR hnp
  obtain ⟨hreads, heq⟩ := mergeReads_inside hR hn hnp hle hend (maxOrder - 1 - Nat.clog 2 m)
    (by omega) h1 hsep ((mergesUp_congr hpages).mpr hup)
  have hlog : log2Ceil m = some (Nat.clog 2 m) := by rw [log2Ceil_eq hm, if_pos hm']
  simp only [buddyFreeReads, buddyFreePages, hlog, pow2, if_neg (not_le.mpr hlt)]
  refine ⟨?_, ?_⟩
  · rw [e]
    exact hreads
  · simp only [Comp.ensure_bind_apply, if_pos hm, Comp.bind_of_ok e, Comp.modify_bind_apply,
      Comp.modify_apply, heq]

/-- The run is one in which the index is compared with the number of descriptors. -/
lemma BuddyReach.of_endsInside {s₀ : BuddyPmm} (hle : len ≤ npage) (hend : EndsInside len lo n)
    (hn0 : 0 < n) (hn : n < uintRange) (hnp : lo + n ≤ len)
    (hres : ∀ i ∈ Set.Ico lo (lo + n), (s₀.pages i).pgReserved = true)
    (hflag : ∀ i < len, i ∉ Set.Ico lo (lo + n) → (s₀.pages i).pgProperty = false)
    (h : BuddyReach (FreesUp len) npage lo n s₀ st) : BuddyReach (FreesUp len) len lo n s₀ st := by
  obtain ⟨s, hs, hrun⟩ := h
  induction hrun with
  | refl => exact ⟨s, hs, .refl⟩
  | tail _ hstep ih =>
    obtain ⟨op, hop, hc, e⟩ := hstep
    obtain ⟨L, hL, -⟩ := ih.lists hn0 hn hnp hres hflag
    obtain ⟨s', hs', hrun⟩ := ih
    refine ⟨s', hs', hrun.tail ⟨op, hop, hc, ?_⟩⟩
    cases op with
    | alloc m => exact e
    | free b m =>
      rw [buddyStep, (buddyFreeReads_inside subset_rfl hn hnp hle hend hL hop hc).2] at e
      exact e

/-- **The merge loop stays in `pages[]`.** After `buddy_init_memmap` of a region of reserved pages
in a `pages[]` with `len` descriptors, where the region ends before `pages[]` or `len` is a multiple
of the size of the largest blocks, in every state reached by calls that merge upwards only, each
free that does so too accesses only descriptors of `pages[]` and merges only blocks of the region;
what is behind `pages[]` is neither read nor written. -/
theorem buddy_reads_inside (len npage lo n : ℕ) (s₀ : BuddyPmm) (hle : len ≤ npage)
    (hend : EndsInside len lo n) (hn0 : 0 < n) (hn : n < uintRange) (hnp : lo + n ≤ len)
    (hres : ∀ i ∈ Set.Ico lo (lo + n), (s₀.pages i).pgReserved = true)
    (hflag : ∀ i < len, i ∉ Set.Ico lo (lo + n) → (s₀.pages i).pgProperty = false) (st : BuddyRun)
    (hst : BuddyReach (FreesUp len) npage lo n s₀ st) (b m : ℕ) (hop : st.Legit (.free b m))
    (hup : FreesUp len st (.free b m)) :
    ReadsInside len (Set.Ico lo (lo + n)) (buddyFreeReads npage b m st.pmm) ∧
      ∀ x, len ≤ x → ∀ f, buddyFreePages npage b m (st.pmm.modPage x f) =
        (buddyFreePages npage b m st.pmm).map fun r => (r.1, r.2.modPage x f) := by
  obtain ⟨L, hL, -⟩ :=
    (hst.of_endsInside hle hend hn0 hn hnp hres hflag).lists hn0 hn hnp hres hflag
  obtain ⟨hreads, -⟩ := buddyFreeReads_inside subset_rfl hn hnp hle hend hL hop hup
  obtain ⟨hm, -, hm', -⟩ := hL.block hop
  have hlog : log2Ceil m = some (Nat.clog 2 m) := by rw [log2Ceil_eq hm, if_pos hm']
  refine ⟨hreads, fun x hx f => buddyFreePages_modPage hlog ?_ ?_⟩
  · intro hin
    have hblock := hL.inv.tiles.subset (mem_all_held.mpr (mem_held.mpr ⟨m, hop, rfl⟩)) hin
    rw [Set.mem_Ico] at hblock
    omega
  · intro y hy e
    have := (hreads y hy).1
    omega

/-- `pages[]` has 1024 descriptors and the region is its last two. A page is allocated and given
back, and merged with the other one; the buddy of the merged block is the one below. -/
theorem buddy_reads_inside_last_pages :
    ∃ st, BuddyReach (FreesUp 1024) 0x80400 1022 2 reservedBuddyPages st ∧ st.Legit (.free 1022 1) ∧
      buddyFreeReads 0x80400 1022 1 st.pmm = [(1023, 0, true), (1020, 1, false)] ∧
      ReadsInside 1024 (Set.Ico 1022 1024) (buddyFreeReads 0x80400 1022 1 st.pmm) := by
  obtain ⟨st, hst, hop, hbuddy, hfree, hreads⟩ : ∃ st, BuddyReach (FreesUp 1024) 0x80400 1022 2
      reservedBuddyPages st ∧ st.Legit (.free 1022 1) ∧ FreeBuddy 1024 st.pmm.pages 1022 0 ∧
      ¬FreeBuddy 1024 st.pmm.pages 1022 1 ∧
      buddyFreeReads 0x80400 1022 1 st.pmm = [(1023, 0, true), (1020, 1, false)] :=
    ⟨_, ⟨_, rfl, .single ⟨.alloc 1, one_pos, trivial, rfl⟩⟩, by exact rfl, by decide, by decide,
      by decide⟩
  refine ⟨st, hst, hop, hreads,
    (buddy_reads_inside 1024 0x80400 1022 2 reservedBuddyPages (by decide) (.inr (by decide))
      (by decide) (by decide) (by decide) (fun _ _ => rfl) (fun _ _ _ => rfl) st hst
    1022 1 hop ?_).1⟩
  rw [FreesUp, Nat.clog_one_right]
  exact (mergesUp_succ hbuddy (by decide)).mpr (mergesUp_of_not_freeBuddy hfree)

/-- **The loop leaves `pages[]`**: with three descriptors, the last of which is the region, a page
is allocated and given back. The index of its buddy is `3`, far below `npage`. -/
theorem buddy_reads_outside :
    ∃ st, BuddyReach (fun _ _ => True) 0x80003 2 1 reservedBuddyPages st ∧ st.Legit (.free 2 1) ∧
      ¬ReadsInside 3 (Set.Ico 2 3) (buddyFreeReads 0x80003 2 1 st.pmm) := by
  obtain ⟨st, hst, hop, hmem⟩ :
    ∃ st, BuddyReach (fun _ _ => True) 0x80003 2 1 reservedBuddyPages st ∧
      st.Legit (.free 2 1) ∧ (3, 0, false) ∈ buddyFreeReads 0x80003 2 1 st.pmm :=
    ⟨_, ⟨_, rfl, .single ⟨.alloc 1, one_pos, trivial, rfl⟩⟩, by exact rfl, by decide⟩
  exact ⟨st, hst, hop, fun h => absurd (h _ hmem).1 (by decide)⟩

end Ucore
