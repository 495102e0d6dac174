import Ucore.Mm.PageTableSpec

set_option autoImplicit false

/-!
# Ranges of pages

`unmap_range` and `copy_range` go from page to page, and over a whole table where there is none.

## Main definitions

* `Clears` — the entries for a range of pages have been cleared.
* `Link` — a step at whose ends the reference counts are exact, and which returns the frames
  whose last entry it has removed.
* `Copies` — the pages of a range that are mapped have been copied.

## Main results

* `pageRemove_spec`, `unmapRange_spec`, `copyRange_spec` — the functions.
-/

namespace Ucore

open Function Comp Relation

section Range

variable {A : Type} {al : FrameAllocator A} {D : Finset ℕ} {R R' R'' : ℕ → Role} {s t u : PmState A}
  {E : PtPanic → Prop} {d i j k f g p la lo hi mid start stop : ℕ}

/-! ## Clearing entries -/

/-- **The entries for the pages from `lo` to `hi` below `d` have been cleared.** -/
structure Clears (D : Finset ℕ) (R : ℕ → Role) (s : PmState A) (d lo hi : ℕ) (R' : ℕ → Role)
    (t : PmState A) : Prop extends Unmaps D R s R' t where
  leaf : ∀ d' ∈ D, ∀ v < userPages, t.leaf d' v =
    if d' = d ∧ lo ≤ v ∧ v < hi then cleared (s.leaf d' v) else s.leaf d' v

/-- There is nothing to clear. -/
lemma Clears.none (h : ∀ v < userPages, lo ≤ v → v < hi → pteValid (s.leaf d v) = false) :
    Clears D R s d lo hi R s := by
  refine ⟨Unmaps.refl D R s, fun d' _ v hv => ?_⟩
  split_ifs with hc
  · obtain ⟨rfl, h1, h2⟩ := hc
    rw [cleared, if_neg]
    rw [h v hv h1 h2]
    decide
  · rfl

lemma Clears.trans (h : Clears D R s d lo mid R' t) (h' : Clears D R' t d mid hi R'' u)
    (h1 : lo ≤ mid) (h2 : mid ≤ hi) : Clears D R s d lo hi R'' u := by
  refine ⟨h.toUnmaps.trans h'.toUnmaps, fun d' hd' v hv => ?_⟩
  rw [h'.leaf d' hd' v hv, h.leaf d' hd' v hv]
  by_cases hd : d' = d
  · by_cases hlo : lo ≤ v ∧ v < mid
    · rw [if_pos (show d' = d ∧ lo ≤ v ∧ v < mid from ⟨hd, hlo⟩),
        if_neg (by omega), if_pos (by omega)]
    · rw [if_neg (show ¬(d' = d ∧ lo ≤ v ∧ v < mid) from fun h3 => hlo h3.2)]
      by_cases hhi : mid ≤ v ∧ v < hi
      · rw [if_pos ⟨hd, hhi⟩, if_pos (by omega)]
      · rw [if_neg (fun h3 => hhi h3.2), if_neg (by omega)]
  · rw [if_neg (fun h3 => hd h3.1), if_neg (fun h3 => hd h3.1), if_neg (fun h3 => hd h3.1)]

/-- **`page_remove_pte`** clears the entry for one page. -/
lemma removeEntry_spec (h : PtInv al D (fun _ => 0) R s) (hg : R g = .pt d i j) (hk : k < 512) :
    Spec (pageRemovePte al g k) s E fun _ t => ∃ R', PtInv al D (fun _ => 0) R' t ∧
      Clears D R s d (pageOf i j k) (pageOf i j k + 1) R' t := by
  refine (pageRemovePte_spec h hg hk fun _ => rfl).mono fun _ t ht => ?_
  obtain ⟨R', h1, h2, h3, h4, -⟩ := ht
  refine ⟨R', h1, h2, fun d' hd' v hv => ?_⟩
  rw [h.leaf_write h1.toForest hg hk h2.pt_iff h3 hd' hv, h4]
  by_cases he : (d', v) = (d, pageOf i j k)
  · cases he
    rw [update_self, if_pos ⟨rfl, le_rfl, Nat.lt_succ_self _⟩, (h.leaf_pt hg hk).2.2.2]
  · rw [update_of_ne he, if_neg]
    rintro ⟨rfl, h5, h6⟩
    exact he (by rw [show v = pageOf i j k by omega])

/-- **`page_remove`.** -/
lemma pageRemove_spec (h : PtInv al D (fun _ => 0) R s) (hd : d ∈ D) (hla : la < userTop) :
    Spec (pageRemove al d la) s E fun _ t => ∃ R', PtInv al D (fun _ => 0) R' t ∧
      Clears D R s d (la / pgSize) (la / pgSize + 1) R' t := by
  obtain ⟨-, -, hk, hpage, -⟩ := user_indices hla
  rcases getPte_false h.toForest hd hla with ⟨hget, -, h0⟩ | ⟨g, hg, hget, -⟩
  · refine .bind_ok hget (.pure ⟨R, h, Clears.none fun v hv h1 h2 => ?_⟩)
    obtain rfl : v = la / pgSize := by omega
    rw [h0, pteValid_zero]
  · rw [← hpage]
    exact .bind_ok hget (removeEntry_spec h hg hk)

/-! ## The loops -/

/-- The next address is behind the page, on a boundary. -/
lemma nextAddr_spec (ptep : Option (ℕ × ℕ)) (hla : la % pgSize = 0) :
    la + pgSize ≤ nextAddr la ptep ∧ nextAddr la ptep % pgSize = 0 := by
  cases ptep with
  | none =>
    simp only [nextAddr, roundDown, ptSize, pgSize] at *
    omega
  | some r =>
    simp only [nextAddr, pgSize] at *
    omega

/-- **Where there is no table**, no page up to the next address is mapped. -/
lemma Forest.no_table (h : Forest al D R s) (hd : d ∈ D) (hla : la < userTop)
    (hno : ∀ g, R g ≠ .pt d (pdx1 la) (pdx0 la)) {v : ℕ} (hv : v < userPages) (h1 : la / pgSize ≤ v)
    (h2 : v < nextAddr la none / pgSize) : s.leaf d v = 0 := by
  rcases h.leaf_cases hd hv with ⟨h3, -⟩ | ⟨g, hg, -⟩
  · exact h3
  · have hidx : v / 2 ^ 18 = pdx1 la ∧ v / 512 % 512 = pdx0 la := by
      simp only [nextAddr, roundDown, ptSize, pgSize, userTop, pdx1, pdx0] at *
      omega
    rw [hidx.1, hidx.2] at hg
    exact absurd hg (hno g)

/-- **The search at the start of a round**: there is no table, and nothing is mapped up to the next
address, or the entry for the page has been found. -/
lemma Forest.round (h : Forest al D R s) (hd : d ∈ D) (hstop : stop ≤ userTop)
    (hlt : la + pgSize ≤ stop) :
    ∃ ptep, getPte al d la false s = .ok (ptep, s) ∧
      (ptep = none ∧ (∀ v < userPages, la / pgSize ≤ v → v < min (nextAddr la ptep) stop / pgSize →
          pteValid (s.leaf d v) = false) ∨
        ∃ g, ptep = some (g, ptx la) ∧ R g = .pt d (pdx1 la) (pdx0 la) ∧
          min (nextAddr la ptep) stop / pgSize = la / pgSize + 1 ∧
          s.leaf d (la / pgSize) = s.mem g (ptx la)) := by
  have hpos : 0 < pgSize := by decide
  have htop : la < userTop := by omega
  rcases getPte_false h hd htop with ⟨hget, hno, -⟩ | ⟨g, hg, hget, hleaf⟩
  · refine ⟨none, hget, .inl ⟨rfl, fun v hv h1 h2 => ?_⟩⟩
    have h3 : v < nextAddr la none / pgSize :=
      lt_of_lt_of_le h2 (Nat.div_le_div_right (min_le_left _ _))
    rw [h.no_table hd htop hno hv h1 h3, pteValid_zero]
  · refine ⟨some (g, ptx la), hget, .inr ⟨g, rfl, hg, ?_, hleaf⟩⟩
    change min (la + pgSize) stop / pgSize = _
    rw [min_eq_left hlt, Nat.add_div_right _ hpos]

/-- **The end of a round**: the loop goes on, with a page less at least, or it has come to
`stop`. -/
lemma next_or_stop (ptep : Option (ℕ × ℕ)) (hal : start % pgSize = 0) {n : ℕ}
    (hn : stop - start ≤ n + 1) :
    (nextAddr start ptep ≠ 0 ∧ nextAddr start ptep < stop → stop - nextAddr start ptep ≤ n ∧
      min (nextAddr start ptep) stop = nextAddr start ptep) ∧
    (¬(nextAddr start ptep ≠ 0 ∧ nextAddr start ptep < stop) →
      min (nextAddr start ptep) stop = stop) := by
  have h := (nextAddr_spec ptep hal).1
  unfold pgSize at h
  omega

/-- **One round of `unmap_range`.** -/
lemma unmapRound_spec (h : PtInv al D (fun _ => 0) R s) (hd : d ∈ D) (hstop : stop ≤ userTop)
    (hlt : la + pgSize ≤ stop) :
    ∃ ptep, getPte al d la false s = .ok (ptep, s) ∧
      Spec (unmapPage al ptep) s E fun _ t => ∃ R', PtInv al D (fun _ => 0) R' t ∧
        Clears D R s d (la / pgSize) (min (nextAddr la ptep) stop / pgSize) R' t := by
  obtain ⟨-, -, hk, hpage, -⟩ := user_indices (show la < userTop by unfold pgSize at hlt; omega)
  obtain ⟨ptep, hget, ⟨rfl, hno⟩ | ⟨g, rfl, hg, hmin, hleaf⟩⟩ := h.round hd hstop hlt
  · exact ⟨none, hget, .pure ⟨R, h, Clears.none hno⟩⟩
  · refine ⟨some (g, ptx la), hget, ?_⟩
    rw [hmin]
    refine .read_bind (.ite (fun _ => ?_) fun h0 =>
      .pure ⟨R, h, Clears.none fun v hv h1 h2 => ?_⟩)
    · rw [← hpage]
      exact removeEntry_spec h hg hk
    · obtain rfl : v = la / pgSize := by omega
      rw [hleaf, not_not.mp h0, pteValid_zero]

/-- **The loop of `unmap_range`**, with enough rounds.

**Proof sketch.** Induction on the number of rounds. Each one goes on by a page at least. -/
lemma unmapLoop_spec (hd : d ∈ D) (hstop : stop ≤ userTop) (hst : stop % pgSize = 0) (n : ℕ) :
    ∀ {R : ℕ → Role} {s : PmState A} {start : ℕ}, PtInv al D (fun _ => 0) R s → start % pgSize = 0 →
      start < stop → stop - start ≤ n →
      Spec (unmapLoop al d stop n start) s E fun _ t => ∃ R', PtInv al D (fun _ => 0) R' t ∧
        Clears D R s d (start / pgSize) (stop / pgSize) R' t := by
  induction n with
  | zero =>
    intro R s start h hs hlt hn
    omega
  | succ n ih =>
    intro R s start h hs hlt hn
    have hle : start + pgSize ≤ stop := by
      unfold pgSize at *
      omega
    obtain ⟨ptep, hget, hround⟩ := unmapRound_spec (E := E) h hd hstop hle
    obtain ⟨h1, h2⟩ := nextAddr_spec ptep hs
    obtain ⟨hgo, hend⟩ := next_or_stop ptep hs hn
    refine .bind_ok hget (hround.bind fun _ t ht => ?_)
    obtain ⟨R', h3, h4⟩ := ht
    refine .ite (fun hc => ?_) fun hc => .pure ⟨R', h3, hend hc ▸ h4⟩
    rw [(hgo hc).2] at h4
    refine (ih h3 h2 hc.2 (hgo hc).1).mono fun _ u hu => ?_
    obtain ⟨R'', h5, h6⟩ := hu
    exact ⟨R'', h5, h4.trans h6 (Nat.div_le_div_right (by omega)) (Nat.div_le_div_right hc.2.le)⟩

lemma checkRange_apply (hs : start % pgSize = 0) (hst : stop % pgSize = 0)
    (hu : UserAccess start stop) : (checkRange start stop : Pt A Unit) s = .ok ((), s) := by
  rw [checkRange, ensure_bind_apply, if_pos ⟨hs, hst⟩, ensure_apply, if_pos hu]

/-- **`unmap_range`.** -/
lemma unmapRange_spec (h : PtInv al D (fun _ => 0) R s) (hd : d ∈ D) (hs : start % pgSize = 0)
    (hst : stop % pgSize = 0) (hu : UserAccess start stop) :
    Spec (unmapRange al d start stop) s E fun _ t => ∃ R', PtInv al D (fun _ => 0) R' t ∧
      Clears D R s d (start / pgSize) (stop / pgSize) R' t := by
  exact .bind_ok (checkRange_apply hs hst hu) (unmapLoop_spec hd hu.2.2 hst _ h hs hu.2.1 le_rfl)

/-! ## Steps that return frames -/

/-- **A step** at whose ends the reference counts are exact, and which returns the frames whose last
entry it has removed, and no others. -/
structure Link (al : FrameAllocator A) (D : Finset ℕ) (s t : PmState A) : Prop where
  before : Counted al D s
  after : Counted al D t
  returned : ∀ q, q ∉ al.free s.alloc ∧ q ∈ al.free t.alloc ↔ 0 < s.maps D q ∧ t.maps D q = 0

lemma Link.of_frees (h : PtInv al D (fun _ => 0) R s) (h' : PtInv al D (fun _ => 0) R' t)
    (hf : Frees D R s R' t) : Link al D s t := by
  refine ⟨h.counted, h'.counted, fun q => ?_⟩
  rw [← h.free, ← h'.free]
  exact hf q

/-! ## Copying -/

/-- **The copy of a page is inserted** where there is a table for it. -/
lemma copyInsert_spec (hg : R g = .pt d (pdx1 la) (pdx0 la))
    (hla : la < userTop) (hp : R p = .free) (h0 : s.maps D p = 0) {a : A}
    (ha : PtInv al D (fun _ => 0) (update R p .data) { s with alloc := a }) (words : ℕ → BitVec 64)
    (perm : BitVec 10) :
    Spec (pageInsert al d p la perm) (PmState.setFrame { s with alloc := a } p words) E fun r t =>
      r = .ok () ∧ ∃ R', PtInv al D (fun _ => 0) R' t ∧
        Inserts D R s d (la / pgSize) (pteCreate p (pteV ||| perm)) R' t := by
  have hp1 : update R p .data p = .data := update_self ..
  have hgp : g ≠ p := by
    rintro rfl
    rw [hp] at hg
    cases hg
  have hg1 : update R p .data g = .pt d (pdx1 la) (pdx0 la) := by rw [update_of_ne hgp, hg]
  refine (pageInsert_found (ha.setFrame hp1 words) hg1 hla hp1 (fun _ _ => rfl) perm).mono
    fun r u hu => ?_
  obtain ⟨rfl, R', h1, -, h2⟩ := hu
  refine ⟨rfl, R', h1, h2.of_alloc hp h0 (fun d' hd' v' hv' => ?_) fun q hq => update_of_ne hq ..⟩
  exact ha.leaf_setFrame hp1 _ hd' hv'

/-- **`copy_range` for one page.** It panics only if there is no frame for the copy. -/
lemma copyPage_spec (h : PtInv al D (fun _ => 0) R s) (hd : d ∈ D) (hla : la < userTop)
    (pte : BitVec 64) :
    Spec (copyPage al d la pte) s (· = .noPage) fun done t => ∃ R',
      PtInv al D (fun _ => 0) R' t ∧ match done with
      | true => ∃ p, R p = .free ∧
          Inserts D R s d (la / pgSize) (pteCreate p (pteV ||| (pteFlags pte &&& pteUser))) R' t
      | false => Extends D d (la / pgSize) R s R' t := by
  refine (getPte_spec h hd hla).bind fun o t ht => ?_
  obtain ⟨R', h1, h2, h3⟩ := ht
  cases o with
  | none => exact .pure ⟨R', h1, h2⟩
  | some r =>
    obtain ⟨g, k⟩ := r
    obtain ⟨hg, rfl⟩ := h3 g k rfl
    refine (allocPage_spec h1).bind fun o u hu => ?_
    cases o with
    | none => exact .halt rfl
    | some p =>
      obtain ⟨hp, h0, a, rfl, h4⟩ := hu
      refine .modify_bind ((copyInsert_spec hg hla hp h0 h4 _ _).bind fun r u hu => ?_)
      obtain ⟨rfl, R'', h5, h6⟩ := hu
      exact .pure ⟨R'', h5, p, h2.free_of_free hp, Inserts.of_extends h2 h6⟩

/-- **The pages from `lo` to `hi` that `src` maps have been copied to `dst`**, and no other walk has
changed. -/
def Copies (al : FrameAllocator A) (D : Finset ℕ) (s : PmState A) (dst src lo hi : ℕ)
    (t : PmState A) : Prop :=
  ∀ d ∈ D, ∀ v < userPages, (¬(d = dst ∧ lo ≤ v ∧ v < hi ∧ pteValid (s.leaf src v) = true) ∧
      t.leaf d v = s.leaf d v) ∨
    (d = dst ∧ lo ≤ v ∧ v < hi ∧ pteValid (s.leaf src v) = true ∧ ∃ p < al.npage,
      t.leaf d v = pteCreate p (pteV ||| (pteFlags (s.leaf src v) &&& pteUser)))

lemma Copies.none {dst src : ℕ} (hleaf : ∀ d ∈ D, ∀ v < userPages, t.leaf d v = s.leaf d v)
    (h : ∀ v < userPages, lo ≤ v → v < hi → pteValid (s.leaf src v) = false) :
    Copies al D s dst src lo hi t := by
  intro d hd v hv
  refine .inl ⟨fun h1 => ?_, hleaf d hd v hv⟩
  rw [h v hv h1.2.1 h1.2.2.1] at h1
  cases h1.2.2.2

lemma Copies.trans {dst src : ℕ} (hsrc : src ∈ D) (h : Copies al D s dst src lo mid t)
    (h' : Copies al D t dst src mid hi u) (h1 : lo ≤ mid) (h2 : mid ≤ hi) :
    Copies al D s dst src lo hi u := by
  intro d hd v hv
  by_cases hm : v < mid
  · -- the second part does not reach the page
    have hu : u.leaf d v = t.leaf d v := by
      rcases h' d hd v hv with h3 | h3
      · exact h3.2
      · omega
    rw [hu]
    rcases h d hd v hv with ⟨h3, h4⟩ | ⟨h3, h4, -, h6, h7⟩
    · exact .inl ⟨fun h5 => h3 ⟨h5.1, h5.2.1, hm, h5.2.2.2⟩, h4⟩
    · exact .inr ⟨h3, h4, by omega, h6, h7⟩
  · -- the first part does not reach the page, in both directories
    have ht : ∀ d ∈ D, t.leaf d v = s.leaf d v := by
      intro d hd
      rcases h d hd v hv with h3 | h3
      · exact h3.2
      · omega
    have h3 := h' d hd v hv
    rw [ht d hd, ht src hsrc] at h3
    rcases h3 with ⟨h3, h4⟩ | ⟨h3, h4, h5, h6⟩
    · exact .inl ⟨fun h5 => h3 ⟨h5.1, by omega, h5.2.2⟩, h4⟩
    · exact .inr ⟨h3, by omega, h5, h6⟩

/-- **A step of `copy_range`**: the copy of one page. -/
structure CopyLink (al : FrameAllocator A) (D : Finset ℕ) (dst : ℕ) (s t : PmState A) : Prop
    extends Link al D s t where
  call : ∃ la pte done, copyPage al dst la pte s = .ok (done, t)

/-- **One round of `copy_range`.** -/
lemma copyRound_spec {dst src : ℕ} (h : PtInv al D (fun _ => 0) R s) (hdst : dst ∈ D)
    (hsrc : src ∈ D) (hstop : stop ≤ userTop) (hlt : la + pgSize ≤ stop) :
    ∃ ptep, getPte al src la false s = .ok (ptep, s) ∧
      Spec (copyEntry al dst la ptep) s (· = .noPage) fun done t =>
        ReflTransGen (CopyLink al D dst) s t ∧
        (∃ R', PtInv al D (fun _ => 0) R' t) ∧ match done with
        | true => Copies al D s dst src (la / pgSize) (min (nextAddr la ptep) stop / pgSize) t
        | false => Copies al D s dst src (la / pgSize) (la / pgSize) t := by
  have htop : la < userTop := by
    unfold pgSize at hlt
    omega
  have hself : ReflTransGen (CopyLink al D dst) s s := .refl
  have hnone : ∀ hi, (∀ v < userPages, la / pgSize ≤ v → v < hi → pteValid (s.leaf src v) = false) →
      Copies al D s dst src (la / pgSize) hi s := fun hi => Copies.none fun _ _ _ _ => rfl
  obtain ⟨ptep, hget, ⟨rfl, hno⟩ | ⟨g, rfl, hg, hmin, hleaf⟩⟩ := h.round hsrc hstop hlt
  · exact ⟨none, hget, .pure ⟨hself, ⟨R, h⟩, hnone _ hno⟩⟩
  · refine ⟨some (g, ptx la), hget, ?_⟩
    rw [hmin]
    refine .read_bind (.ite (fun hv => ?_) fun hv => .pure
      ⟨hself, ⟨R, h⟩, hnone _ fun v _ h1 h2 => ?_⟩)
    · have hcopy := copyPage_spec h hdst htop (s.mem g (ptx la))
      refine ⟨fun done t e => ?_, hcopy.panic⟩
      have hstep : Link al D s t → ReflTransGen (CopyLink al D dst) s t := fun hl =>
        .single ⟨hl, la, s.mem g (ptx la), done, e⟩
      obtain ⟨R', h1, h2⟩ := hcopy.ok done t e
      cases done with
      | false =>
        refine ⟨hstep (Link.of_frees h h1 h2.frees), ⟨R', h1⟩, Copies.none h2.leaf
          fun v _ h3 h4 => ?_⟩
        omega
      | true =>
        obtain ⟨p, hp, h2⟩ := h2
        refine ⟨hstep (Link.of_frees h h1 h2.frees), ⟨R', h1⟩, fun d' hd' v' hv' => ?_⟩
        rw [h2.leaf d' hd' v' hv']
        by_cases he : (d', v') = (dst, la / pgSize)
        · cases he
          rw [update_self, hleaf]
          exact .inr ⟨rfl, le_rfl, Nat.lt_succ_self _, hv, p, (h.lt p).mp (by rw [hp]; simp), rfl⟩
        · rw [update_of_ne he]
          refine .inl ⟨?_, rfl⟩
          rintro ⟨rfl, h3, h4, -⟩
          exact he (by rw [show v' = la / pgSize by omega])
    · obtain rfl : v = la / pgSize := by omega
      rw [hleaf]
      exact Bool.eq_false_of_not_eq_true hv

/-- **The loop of `copy_range`**, with enough rounds.

**Proof sketch.** As for `unmap_range`; each round is one step that returns frames. A frame that one
round returns may be the copy that a later round makes. -/
lemma copyLoop_spec {dst src : ℕ} (hdst : dst ∈ D) (hsrc : src ∈ D) (hstop : stop ≤ userTop)
    (hst : stop % pgSize = 0) (n : ℕ) :
    ∀ {R : ℕ → Role} {s : PmState A} {start : ℕ}, PtInv al D (fun _ => 0) R s → start % pgSize = 0 →
      start < stop → stop - start ≤ n →
      Spec (copyLoop al dst src stop n start) s (· = .noPage) fun r t =>
        ReflTransGen (CopyLink al D dst) s t ∧ (∃ R', PtInv al D (fun _ => 0) R' t) ∧
        match r with
        | .ok () => Copies al D s dst src (start / pgSize) (stop / pgSize) t
        | .error e => e = .noMem ∧
          ∃ hi ≤ stop / pgSize, Copies al D s dst src (start / pgSize) hi t := by
  induction n with
  | zero =>
    intro R s start h hs hlt hn
    omega
  | succ n ih =>
    intro R s start h hs hlt hn
    have hle : start + pgSize ≤ stop := by
      unfold pgSize at *
      omega
    obtain ⟨ptep, hget, hround⟩ := copyRound_spec h hdst hsrc hstop hle
    obtain ⟨h1, h2⟩ := nextAddr_spec ptep hs
    obtain ⟨hgo, hend⟩ := next_or_stop ptep hs hn
    refine .bind_ok hget (hround.bind fun done t ht => ?_)
    obtain ⟨hlink, ⟨R', h4⟩, h5⟩ := ht
    cases done with
    | false => exact .pure ⟨hlink, ⟨R', h4⟩, rfl, _, Nat.div_le_div_right hlt.le, h5⟩
    | true =>
      refine .ite (fun _ => .ite (fun hc => ?_) fun hc =>
        .pure ⟨hlink, ⟨R', h4⟩, hend hc ▸ h5⟩) fun hc => absurd rfl hc
      rw [(hgo hc).2] at h5
      have hlo : start / pgSize ≤ nextAddr start ptep / pgSize := Nat.div_le_div_right (by omega)
      refine (ih h4 h2 hc.2 (hgo hc).1).mono fun r u hu => ?_
      obtain ⟨h6, h7, h8⟩ := hu
      refine ⟨hlink.trans h6, h7, ?_⟩
      cases r with
      | ok _ => exact h5.trans hsrc h8 hlo (Nat.div_le_div_right hc.2.le)
      | error e =>
        obtain ⟨rfl, hi, h9, h10⟩ := h8
        by_cases hcmp : nextAddr start ptep / pgSize ≤ hi
        · exact ⟨rfl, hi, h9, h5.trans hsrc h10 hlo hcmp⟩
        · refine ⟨rfl, nextAddr start ptep / pgSize, Nat.div_le_div_right hc.2.le, h5.trans hsrc
            (fun d hd v hv => ?_) hlo le_rfl⟩
          rcases h10 d hd v hv with ⟨-, h11⟩ | h11
          · exact .inl ⟨by omega, h11⟩
          · omega

/-- **`copy_range`.** -/
lemma copyRange_spec {dst src : ℕ} (h : PtInv al D (fun _ => 0) R s) (hdst : dst ∈ D)
    (hsrc : src ∈ D) (hs : start % pgSize = 0) (hst : stop % pgSize = 0)
    (hu : UserAccess start stop) : Spec (copyRange al dst src start stop) s (· = .noPage) fun r t =>
      ReflTransGen (CopyLink al D dst) s t ∧ (∃ R', PtInv al D (fun _ => 0) R' t) ∧
      match r with
      | .ok () => Copies al D s dst src (start / pgSize) (stop / pgSize) t
      | .error e => e = .noMem ∧
        ∃ hi ≤ stop / pgSize, Copies al D s dst src (start / pgSize) hi t := by
  exact .bind_ok (checkRange_apply hs hst hu)
    (copyLoop_spec hdst hsrc hu.2.2 hst _ h hs hu.2.1 le_rfl)

end Range

end Ucore
