import Ucore.Mm.AddressSpace

set_option autoImplicit false

/-!
# `dup_mmap` copies an address space

With enough memory `dup_mmap` returns, and the child sees what the parent sees, in frames of its
own.

## Main definitions

* `Supplies` — as many calls of `alloc_page` in a row succeed.
* `frameCost` — the frames that the copies of some pages and the tables for them take.
* `PageCopies` — the pages of a set have been copied, and nothing else has changed: the invariant of
  the loops.

## Main results

* `copyPage_supplied`, `copyRange_supplied`, `dupLoop_supplied` — the functions, given
  enough memory.
* `dup_mmap_copies` — the address space of the child.
-/

namespace Ucore

open Function Comp List Finset PmState

variable {A : Type} {al : FrameAllocator A}

/-! ## Enough memory -/

/-- `n` calls of `alloc_page` in a row succeed. -/
inductive Supplies (al : FrameAllocator A) : ℕ → A → Prop
  | zero (a : A) : Supplies al 0 a
  | succ {n p : ℕ} {a a' : A} : al.alloc a = some (p, a') → Supplies al n a' → Supplies al (n + 1) a

variable {W : Finset ℕ} {a : A} {n : ℕ}

lemma Supplies.alloc (h : Supplies al (n + 1) a) :
    ∃ p a', al.alloc a = some (p, a') ∧ Supplies al n a' := by
  cases h with
  | succ h1 h2 => exact ⟨_, _, h1, h2⟩

lemma Supplies.of_succ (h : Supplies al (n + 1) a) : Supplies al n a := by
  induction n generalizing a with
  | zero => exact .zero a
  | succ n ih =>
    obtain ⟨p, a', h1, h2⟩ := h.alloc
    exact .succ h1 (ih h2)

lemma Supplies.mono {m : ℕ} (h : Supplies al n a) (hm : m ≤ n) : Supplies al m a := by
  induction hm with
  | refl => exact h
  | step _ ih => exact ih h.of_succ

/-- **The frames for copies of the pages of `W`**: one for each page, and those for the tables of
both levels. -/
def frameCost (W : Finset ℕ) : ℕ := W.card + (W.image (· / 512)).card + (W.image (· / 2 ^ 18)).card

lemma frameCost_mono {V : Finset ℕ} (h : W ⊆ V) : frameCost W ≤ frameCost V := by
  have h1 := card_le_card h
  have h2 := card_le_card (image_subset_image (f := (· / 512)) h)
  have h3 := card_le_card (image_subset_image (f := (· / 2 ^ 18)) h)
  unfold frameCost
  omega

lemma card_image_insert (f : ℕ → ℕ) (v : ℕ) :
    ∃ a, ((insert v W).image f).card = (W.image f).card + a ∧ ((∃ w ∈ W, f w = f v) ∨ 1 ≤ a) := by
  rw [image_insert]
  by_cases h : f v ∈ W.image f
  · refine ⟨0, by rw [insert_eq_of_mem h, add_zero], .inl ?_⟩
    exact mem_image.mp h
  · exact ⟨1, card_insert_of_notMem h, .inr le_rfl⟩

/-- One page more needs a frame, and one for each table that no other page needs. -/
lemma frameCost_insert {v : ℕ} (hv : v ∉ W) :
    ∃ a b, frameCost (insert v W) = frameCost W + (1 + a + b) ∧
      ((∃ w ∈ W, w / 2 ^ 18 = v / 2 ^ 18) ∨ 1 ≤ a) ∧ ((∃ w ∈ W, w / 512 = v / 512) ∨ 1 ≤ b) := by
  obtain ⟨a, ha, ha'⟩ := card_image_insert (W := W) (· / 2 ^ 18) v
  obtain ⟨b, hb, hb'⟩ := card_image_insert (W := W) (· / 512) v
  refine ⟨a, b, ?_, ha', hb'⟩
  unfold frameCost
  rw [ha, hb, card_insert_of_notMem hv]
  omega

/-! ## Finding an entry and copying a page -/

variable {D : Finset ℕ} {R₀ R : ℕ → Role} {s₀ s : PmState A} {W Z : Finset ℕ}

section Page

variable {δ : ℕ → ℤ} {R : ℕ → Role} {s : PmState A} {d f k v la n a b : ℕ}

/-- **One level of `get_pte`**, with a frame for the table if there is none. -/
lemma getTable_supplied (h : PtInv al D δ R s) {r : Role} (hr : (R f).child f k = some r)
    (hrp : r.OnPath d v) (hs : Supplies al (n + a) s.alloc) (ha : (∃ g, R g = r) ∨ 1 ≤ a) :
    ∃ p t R', getTable al f k true s = .ok (some p, t) ∧ PtInv al D δ R' t ∧
      Extends D d v R s R' t ∧ R' p = r ∧ Supplies al n t.alloc := by
  by_cases hv : pteValid (s.mem f k) = true
  · exact ⟨_, s, R, getTable_of_valid hv true, h, .refl D d v R s, h.points f k r hr hv,
      hs.mono (Nat.le_add_right n a)⟩
  · have ha1 : 1 ≤ a := ha.resolve_left fun hg => hv ((h.valid_iff_table hr hrp.isTable).mpr hg)
    obtain ⟨p, a', halloc, hs'⟩ := (hs.mono (Nat.add_le_add_left ha1 n)).alloc
    obtain ⟨hp, h0, hinv⟩ := h.alloc halloc
    obtain ⟨h1, h2⟩ := PtInv.newTable hr hrp (Bool.eq_false_of_not_eq_true hv) hp h0 hinv
    refine ⟨p, _, _, ?_, h1, h2, update_self .., hs'⟩
    rw [getTable, read_bind_apply, if_neg hv, if_pos rfl, bind_of_ok (allocPage_of_some halloc)]
    rfl

/-- **`get_pte`**, with frames for the tables that are missing. -/
lemma getPte_supplied (h : PtInv al D δ R s) (hd : d ∈ D) (hla : la < userTop)
    (hs : Supplies al (n + a + b) s.alloc) (ha : (∃ f, R f = .pd0 d (pdx1 la)) ∨ 1 ≤ a)
    (hb : (∃ g, R g = .pt d (pdx1 la) (pdx0 la)) ∨ 1 ≤ b) :
    ∃ g t R', getPte al d la true s = .ok (some (g, ptx la), t) ∧ PtInv al D δ R' t ∧
      Extends D d (la / pgSize) R s R' t ∧ R' g = .pt d (pdx1 la) (pdx0 la) ∧
      Supplies al n t.alloc := by
  obtain ⟨-, hj, -⟩ := user_indices hla
  obtain ⟨hroot, hpath, hpath'⟩ := h.walk hd hla
  rw [add_right_comm] at hs
  obtain ⟨f, t, R', g1, h1, h2, hf, hs1⟩ := getTable_supplied h hroot hpath hs ha
  have hmid : (R' f).child f (pdx0 la) = some (.pt d (pdx1 la) (pdx0 la)) := by
    rw [hf]
    exact if_pos hj
  have hb' : (∃ g, R' g = .pt d (pdx1 la) (pdx0 la)) ∨ 1 ≤ b := by
    refine hb.imp_left ?_
    rintro ⟨g, hg⟩
    exact ⟨g, by rw [h2.of_ne_free (by rw [hg]; simp), hg]⟩
  obtain ⟨g, u, R'', g2, h3, h4, hg, hs2⟩ := getTable_supplied h1 hmid hpath' hs1 hb'
  refine ⟨g, u, R'', ?_, h3, h2.trans h4, hg, hs2⟩
  rw [getPte, bind_of_ok g1]
  change (getTable al f (pdx0 la) true >>= _) t = _
  rw [bind_of_ok g2]
  rfl

/-- **`copy_range` for one page** that the destination does not map, with a frame for the copy and
for the tables that are missing. -/
lemma copyPage_supplied (h : PtInv al D (fun _ => 0) R s) (hd : d ∈ D) (hla : la < userTop)
    (hs : Supplies al (n + (1 + a + b)) s.alloc) (ha : (∃ f, R f = .pd0 d (pdx1 la)) ∨ 1 ≤ a)
    (hb : (∃ g, R g = .pt d (pdx1 la) (pdx0 la)) ∨ 1 ≤ b)
    (hold : pteValid (s.leaf d (la / pgSize)) = false) {pte : BitVec 64}
    (hpte : R (ptePpn pte) = .data) :
    ∃ t R' p, copyPage al d la pte s = .ok (true, t) ∧ PtInv al D (fun _ => 0) R' t ∧ R p = .free ∧
      Inserts D R s d (la / pgSize) (pteCreate p (pteV ||| (pteFlags pte &&& pteUser))) R' t ∧
      t.mem p = s.mem (ptePpn pte) ∧ Supplies al n t.alloc := by
  obtain ⟨-, -, hk, hpage, hv⟩ := user_indices hla
  obtain ⟨g, t, R', g1, h1, h2, hg, hs1⟩ := @getPte_supplied _ _ _ _ _ _ _ _ (n + 1) a b h hd hla
    (by rwa [add_assoc (n + 1), add_assoc n, ← add_assoc 1]) ha hb
  obtain ⟨p, a', halloc, hs2⟩ := hs1.alloc
  obtain ⟨hp, h0, hinv⟩ := h1.alloc halloc
  have hgp : g ≠ p := by
    rintro rfl
    rw [hp] at hg
    cases hg
  set x : PmState A := PmState.setFrame { t with alloc := a' } p (t.mem (ptePpn pte)) with hx
  have hxg : x.mem g = t.mem g := update_of_ne hgp ..
  -- the walk has not changed, so the entry is still not valid
  have hempty : pteValid (x.mem g (ptx la)) = false := by
    rw [hxg, ← (h1.leaf_pt hg hk).2.2.2, hpage, h2.leaf d hd _ hv]
    exact hold
  have hgx : update R' p .data g = .pt d (pdx1 la) (pdx0 la) := by rw [update_of_ne hgp, hg]
  have g3 := pageInsert_empty (p := p)
    (hinv.setFrame (update_self ..) (t.mem (ptePpn pte))).toForest hgx hempty
    (pteFlags pte &&& pteUser)
  obtain ⟨-, R'', h3, h4⟩ := (copyInsert_spec (E := fun _ => False) hg hla hp h0 hinv
    (t.mem (ptePpn pte)) (pteFlags pte &&& pteUser)).ok _ _ g3
  refine ⟨_, R'', p, ?_, h3, h2.free_of_free hp, Inserts.of_extends h2 h4, ?_, hs2⟩
  · rw [copyPage, bind_of_ok g1]
    change (allocPage al >>= _) t = _
    rw [bind_of_ok (allocPage_of_some halloc)]
    change (Comp.modify _ >>= _) _ = _
    rw [modify_bind_apply, bind_of_ok g3]
    rfl
  · change update x.mem g _ p = _
    rw [update_of_ne (Ne.symm hgp), hx]
    change update t.mem p _ p = _
    rw [update_self, h2.mem _ (by rw [hpte]; exact Role.offPath_data ..)]

end Page

/-! ## The invariant of the loops -/

section Copies

variable {src dst : ℕ}

/-- A page that has been copied: `PTE_USER` says which rights are kept. -/
def copyOf (page : BitVec 10 × (ℕ → BitVec 64)) :
    BitVec 10 × (ℕ → BitVec 64) := (page.1 &&& pteUser, page.2)

lemma pteFlags_copy (p : ℕ) {w : BitVec 64} (hw : pteValid w = true) :
    pteFlags (pteCreate p (pteV ||| (pteFlags w &&& pteUser))) = pteFlags w &&& pteUser := by
  have h : ∀ f : BitVec 10, f.getLsbD 0 = true →
      pteV ||| (pteV ||| (f &&& pteUser)) = f &&& pteUser := by
    decide +kernel
  rw [pteFlags_create]
  apply h
  rw [pteFlags, BitVec.getLsbD_setWidth]
  simpa [pteValid] using hw

/-- The directory `dst` has no tables. -/
def NoTables (R : ℕ → Role) (dst : ℕ) :
    Prop := ∀ f, (∀ i, R f ≠ .pd0 dst i) ∧ ∀ i j, R f ≠ .pt dst i j

/-- **The pages of `W` have been copied** from `src` to `dst`, since the state `s₀`, in which `dst`
was empty. The tables of `dst` are those that these pages need. -/
structure PageCopies (al : FrameAllocator A) (D : Finset ℕ) (src dst : ℕ) (R₀ : ℕ → Role)
    (s₀ : PmState A) (W : Finset ℕ) (R : ℕ → Role) (s : PmState A) : Prop where
  inv : PtInv al D (fun _ => 0) R s
  roles : ∀ f, R₀ f ≠ .free → R f = R₀ f
  mem : ∀ f, R₀ f ≠ .free → f ≠ dst → s.mem f = s₀.mem f
  leaf : ∀ d ∈ D, d ≠ dst → ∀ v < userPages, s.leaf d v = s₀.leaf d v
  top : ∀ i, (∃ f, R f = .pd0 dst i) ↔ ∃ v ∈ W, v / 2 ^ 18 = i
  mid : ∀ i j, (∃ g, R g = .pt dst i j) ↔ ∃ v ∈ W, v / 2 ^ 18 = i ∧ v / 512 % 512 = j
  page : ∀ v < userPages, s.page dst v = if v ∈ W then (s₀.page src v).map copyOf else none
  own : s.Private D dst

lemma PageCopies.invalid (h : PageCopies al D src dst R₀ s₀ W R s) {v : ℕ} (hv : v < userPages)
    (hW : v ∉ W) : pteValid (s.leaf dst v) = false := by
  have hp := h.page v hv
  rw [if_neg hW, PmState.page] at hp
  split_ifs at hp with hvalid
  exact Bool.eq_false_of_not_eq_true hvalid

/-- Nothing has been copied. -/
lemma PageCopies.nil (h : PtInv al D (fun _ => 0) R₀ s₀) (hdst : dst ∈ D) (hno : NoTables R₀ dst) :
    PageCopies al D src dst R₀ s₀ ∅ R₀ s₀ := by
  have hzero : ∀ v < userPages, pteValid (s₀.leaf dst v) = false := by
    intro v hv
    rcases h.leaf_cases hdst hv with ⟨h1, -⟩ | ⟨g, hg, -⟩
    · rw [h1, pteValid_zero]
    · exact absurd hg ((hno g).2 _ _)
  refine ⟨h, fun _ _ => rfl, fun _ _ _ => rfl, fun _ _ _ _ _ => rfl, fun i => ?_, fun i j => ?_,
    fun v hv => ?_, fun v hv hvalid => ?_⟩
  · refine iff_of_false ?_ (by simp)
    rintro ⟨f, hf⟩
    exact (hno f).1 i hf
  · refine iff_of_false ?_ (by simp)
    rintro ⟨g, hg⟩
    exact (hno g).2 i j hg
  · rw [page_of_invalid (hzero v hv), if_neg (notMem_empty v)]
  · rw [hzero v hv] at hvalid
    cases hvalid

/-- **One page more has been copied.** -/
lemma PageCopies.add (h : PageCopies al D src dst R₀ s₀ W R s) (h₀ : PtInv al D (fun _ => 0) R₀ s₀)
    (hsrc : src ∈ D) (hdst : dst ∈ D) (hno : NoTables R₀ dst) {v p : ℕ} (hv : v < userPages)
    (hW : v ∉ W) (hvalid : pteValid (s₀.leaf src v) = true) {R' : ℕ → Role} {t : PmState A}
    (hinv : PtInv al D (fun _ => 0) R' t) (hp : R p = .free)
    (hins : Inserts D R s dst v (pteCreate p (pteV ||| (pteFlags (s₀.leaf src v) &&& pteUser))) R'
      t)
    (hmem : t.mem p = s.mem (ptePpn (s₀.leaf src v))) :
    PageCopies al D src dst R₀ s₀ (insert v W) R' t := by
  obtain ⟨hroles, -⟩ := hins.of_invalid hdst hv (h.invalid hv hW)
  obtain ⟨hself, hppn, hown, -, hother⟩ := hins.newPage h.inv h.own hdst hv (h.invalid hv hW) hp
  have hself' : pteValid (t.leaf dst v) = true := by rw [hself, pteValid_create]
  -- the tables for the page are there now
  obtain ⟨g, hg⟩ : ∃ g, R' g = .pt dst (v / 2 ^ 18) (v / 512 % 512) := by
    rcases hinv.leaf_cases hdst hv with ⟨h1, -⟩ | ⟨g, hg, -⟩
    · rw [h1, pteValid_zero] at hself'
      cases hself'
    · exact ⟨g, hg⟩
  obtain ⟨f, hf, -⟩ := hinv.pt_entry hg
  have htab : ∀ r : Role, r.isTable = true → ((∃ q, R' q = r) ↔ r.OnPath dst v ∨ ∃ q, R q = r) := by
    refine fun r hr => ⟨?_, ?_⟩
    · rintro ⟨q, rfl⟩
      exact (hins.tables q hr).symm.imp_right fun e => ⟨q, e.symm⟩
    · rintro ((rfl | rfl) | ⟨q, rfl⟩)
      · exact ⟨f, hf⟩
      · exact ⟨g, hg⟩
      · exact ⟨q, hroles q fun e => by rw [e] at hr; cases hr⟩
  refine ⟨hinv, fun q hq => ?_, fun q hq hqd => ?_, fun d hd hdd v' hv' => ?_, fun i => ?_,
    fun i j => ?_, fun v' hv' => ?_, hown⟩
  · rw [hroles q (by rw [h.roles q hq]; exact hq), h.roles q hq]
  · rw [hins.mem q ?_, h.mem q hq hqd]
    rw [h.roles q hq]
    exact ⟨hq, fun _ => hqd, fun hon => hon.elim ((hno q).1 _) ((hno q).2 _ _)⟩
  · rw [hins.leaf d hd v' hv', update_of_ne fun e => hdd (congrArg Prod.fst e)]
    exact h.leaf d hd hdd v' hv'
  · rw [htab _ rfl, h.top, exists_mem_insert]
    simp [Role.OnPath, eq_comm]
  · rw [htab _ rfl, h.mid, exists_mem_insert]
    simp [Role.OnPath, eq_comm]
  · by_cases hvv : v' = v
    · subst hvv
      -- the frame of the parent has not been written
      have hdata : R₀ (ptePpn (s₀.leaf src v')) ≠ .free ∧ ptePpn (s₀.leaf src v') ≠ dst := by
        have h1 := h₀.data_of_leaf hsrc hv hvalid
        refine ⟨by rw [h1]; simp, fun h2 => ?_⟩
        rw [h2, (h₀.dirs dst).mpr hdst] at h1
        cases h1
      rw [if_pos (mem_insert_self v' W), page_of_valid hself', hppn, hself, hmem,
        h.mem _ hdata.1 hdata.2, page_of_valid hvalid, pteFlags_copy p hvalid]
      rfl
    · have hiff : v' ∈ insert v W ↔ v' ∈ W := by simp [hvv]
      rw [hother v' hv' hvv, h.page v' hv']
      simp only [hiff]

end Copies

/-! ## The loop of `copy_range` -/

section Loop

variable {src dst d lo mid hi la stop v : ℕ}

/-- The pages from `lo` to `hi` that are mapped. -/
def PmState.mappedIn (s : PmState A) (d lo hi : ℕ) : Finset ℕ :=
  (Finset.range userPages).filter fun v => lo ≤ v ∧ v < hi ∧ pteValid (s.leaf d v) = true

lemma mem_mappedIn : v ∈ s.mappedIn d lo hi ↔
    v < userPages ∧ lo ≤ v ∧ v < hi ∧ pteValid (s.leaf d v) = true := by
  simp [PmState.mappedIn]

lemma mappedIn_append (h1 : lo ≤ mid) (h2 : mid ≤ hi) :
    s.mappedIn d lo mid ∪ s.mappedIn d mid hi = s.mappedIn d lo hi := by
  ext v
  simp only [mem_union, mem_mappedIn]
  grind

lemma mappedIn_eq_empty (h : ∀ v < userPages, lo ≤ v → v < hi → pteValid (s.leaf d v) = false) :
    s.mappedIn d lo hi = ∅ := by
  ext v
  simp only [mem_mappedIn, notMem_empty, iff_false]
  rintro ⟨h1, h2, h3, h4⟩
  rw [h v h1 h2 h3] at h4
  cases h4

/-- One page is mapped. -/
lemma mappedIn_one (hv : v < userPages) (h : pteValid (s.leaf d v) = true) :
    s.mappedIn d v (v + 1) = {v} := by
  ext u
  simp only [mem_mappedIn, Finset.mem_singleton]
  constructor
  · rintro ⟨-, h1, h2, -⟩
    omega
  · rintro rfl
    exact ⟨hv, le_rfl, Nat.lt_succ_self _, h⟩

section

variable (h₀ : PtInv al D (fun _ => 0) R₀ s₀) (hsrc : src ∈ D) (hdst : dst ∈ D) (hne : src ≠ dst)
  (hno : NoTables R₀ dst)
include h₀ hsrc hdst hne hno

/-- **One round of `copy_range`.** -/
lemma copyRound_supplied (h : PageCopies al D src dst R₀ s₀ W R s) (hstop : stop ≤ userTop)
    (hlt : la + pgSize ≤ stop) (hW : la / pgSize ∉ W)
    (hZ : W ∪ s₀.mappedIn src (la / pgSize) (la / pgSize + 1) ⊆ Z)
    (hs : Supplies al (frameCost Z - frameCost W) s.alloc) :
    ∃ ptep t R', getPte al src la false s = .ok (ptep, s) ∧
      copyEntry al dst la ptep s = .ok (true, t) ∧ PageCopies al D src dst R₀ s₀
        (W ∪ s₀.mappedIn src (la / pgSize) (min (nextAddr la ptep) stop / pgSize)) R' t ∧
      Supplies al (frameCost Z -
        frameCost (W ∪ s₀.mappedIn src (la / pgSize) (min (nextAddr la ptep) stop / pgSize)))
        t.alloc := by
  have htop : la < userTop := by
    unfold pgSize at hlt
    omega
  obtain ⟨-, -, -, -, hv⟩ := user_indices htop
  obtain ⟨e1, e2, -⟩ := page_indices htop
  have hleaf : ∀ v < userPages, s.leaf src v = s₀.leaf src v := h.leaf src hsrc hne
  obtain ⟨ptep, hget, ⟨rfl, hnone⟩ | ⟨g, rfl, hg, hmin, hentry⟩⟩ := h.inv.round hsrc hstop hlt
  · have hempty : s₀.mappedIn src (la / pgSize) (min (nextAddr la none) stop / pgSize) = ∅ := by
      refine mappedIn_eq_empty fun v hv h1 h2 => ?_
      rw [← hleaf v hv, hnone v hv h1 h2]
    refine ⟨none, s, R, hget, rfl, ?_, ?_⟩
    · rwa [hempty, union_empty]
    · rwa [hempty, union_empty]
  · rw [hleaf _ hv] at hentry
    refine ⟨some (g, ptx la), ?_⟩
    rw [hmin]
    by_cases hvalid : pteValid (s₀.leaf src (la / pgSize)) = true
    · rw [mappedIn_one hv hvalid, Finset.union_comm, ← Finset.insert_eq] at hZ ⊢
      obtain ⟨a, b, hcost, ha, hb⟩ := frameCost_insert hW
      have hle := frameCost_mono hZ
      have hneed : frameCost Z - frameCost W = frameCost Z - frameCost (insert (la / pgSize) W) +
          (1 + a + b) := by
        omega
      rw [hneed] at hs
      have hdata : R (ptePpn (s₀.leaf src (la / pgSize))) = .data := by
        rw [← hleaf _ hv] at hvalid ⊢
        exact h.inv.data_of_leaf hsrc hv hvalid
      obtain ⟨t, R', p, g1, h1, h2, h3, h4, h5⟩ := copyPage_supplied h.inv hdst htop hs
        (ha.imp_left fun hw => by rw [← e1]; exact (h.top _).mpr hw)
        (hb.imp_left fun ⟨w, hw, hq⟩ => by
          rw [← e1, ← e2]
          exact (h.mid _ _).mpr ⟨w, hw, by omega, by omega⟩)
        (h.invalid hv hW) hdata
      refine ⟨t, R', hget, ?_, h.add h₀ hsrc hdst hno hv hW hvalid h1 h2 h3 h4, h5⟩
      rw [hentry] at g1 hvalid
      rw [copyEntry]
      rw [read_bind_apply, if_pos hvalid, g1]
    · have hempty : s₀.mappedIn src (la / pgSize) (la / pgSize + 1) = ∅ := by
        refine mappedIn_eq_empty fun v hv h1 h2 => ?_
        obtain rfl : v = la / pgSize := by omega
        exact Bool.eq_false_of_not_eq_true hvalid
      rw [hempty, union_empty]
      refine ⟨s, R, hget, ?_, h, hs⟩
      rw [copyEntry]
      rw [read_bind_apply, ← hentry, if_neg hvalid]
      rfl

/-- **The loop of `copy_range`**, with enough rounds and enough memory.

**Proof sketch.** Induction on the number of rounds; at each one the pages from `lo` up to the
current one have been copied, and there is memory for those of `Z` that have not. -/
lemma copyLoop_supplied (hstop : stop ≤ userTop) (hst : stop % pgSize = 0)
    (hW : ∀ v ∈ W, ¬(lo ≤ v ∧ v < stop / pgSize))
    (hZ : W ∪ s₀.mappedIn src lo (stop / pgSize) ⊆ Z) (n : ℕ) :
    ∀ {R : ℕ → Role} {s : PmState A} {start : ℕ},
      PageCopies al D src dst R₀ s₀ (W ∪ s₀.mappedIn src lo (start / pgSize)) R s →
      Supplies al (frameCost Z - frameCost (W ∪ s₀.mappedIn src lo (start / pgSize))) s.alloc →
      start % pgSize = 0 → lo ≤ start / pgSize → start < stop → stop - start ≤ n →
      ∃ t R', copyLoop al dst src stop n start s = .ok (.ok (), t) ∧
        PageCopies al D src dst R₀ s₀ (W ∪ s₀.mappedIn src lo (stop / pgSize)) R' t ∧
        Supplies al (frameCost Z - frameCost (W ∪ s₀.mappedIn src lo (stop / pgSize))) t.alloc := by
  induction n with
  | zero =>
    intro R s start h hs hal hlo hlt hn
    omega
  | succ n ih =>
    intro R s start h hs hal hlo hlt hn
    have hle : start + pgSize ≤ stop := by
      unfold pgSize at *
      omega
    have hcur : start / pgSize < stop / pgSize := by
      unfold pgSize at *
      omega
    obtain ⟨ptep, t, R', g1, g2, h1, h2⟩ := copyRound_supplied h₀ hsrc hdst hne hno h hstop hle
      (fun hm => by
        rcases mem_union.mp hm with hm | hm
        · exact hW _ hm ⟨hlo, hcur⟩
        · have := (mem_mappedIn.mp hm).2.2.1
          omega)
      (Finset.Subset.trans (by
        rw [union_assoc, mappedIn_append hlo (Nat.le_succ _)]
        refine union_subset_union_right fun v hv => ?_
        rw [mem_mappedIn] at hv ⊢
        exact ⟨hv.1, hv.2.1, by omega, hv.2.2.2⟩) hZ) hs
    obtain ⟨h3, h4⟩ := nextAddr_spec ptep hal
    have hnext : start / pgSize ≤ min (nextAddr start ptep) stop / pgSize :=
      Nat.div_le_div_right (le_min (by omega) hlt.le)
    rw [union_assoc, mappedIn_append hlo hnext] at h1 h2
    obtain ⟨hgo, hend⟩ := next_or_stop ptep hal hn
    rw [copyLoop, bind_of_ok g1, bind_of_ok g2, if_pos rfl]
    by_cases hc : nextAddr start ptep ≠ 0 ∧ nextAddr start ptep < stop
    · rw [(hgo hc).2] at h1 h2 hnext
      rw [if_pos hc]
      exact ih h1 h2 h4 (hlo.trans hnext) hc.2 (hgo hc).1
    · rw [hend hc] at h1 h2
      rw [if_neg hc]
      exact ⟨t, R', rfl, h1, h2⟩

/-- **`copy_range`** with enough memory. -/
lemma copyRange_supplied {start : ℕ} (h : PageCopies al D src dst R₀ s₀ W R s)
    (hu : UserRange start stop) (hW : ∀ v ∈ W, ¬(start / pgSize ≤ v ∧ v < stop / pgSize))
    (hZ : W ∪ s₀.mappedIn src (start / pgSize) (stop / pgSize) ⊆ Z)
    (hs : Supplies al (frameCost Z - frameCost W) s.alloc) :
    ∃ t R', copyRange al dst src start stop s = .ok (.ok (), t) ∧
      PageCopies al D src dst R₀ s₀ (W ∪ s₀.mappedIn src (start / pgSize) (stop / pgSize)) R' t ∧
      Supplies al (frameCost Z - frameCost (W ∪ s₀.mappedIn src (start / pgSize) (stop / pgSize)))
        t.alloc := by
  obtain ⟨hal, hst, hua⟩ := hu
  have hempty : W ∪ s₀.mappedIn src (start / pgSize) (start / pgSize) = W := by
    rw [mappedIn_eq_empty fun v _ h1 h2 => by omega, union_empty]
  rw [copyRange, bind_of_ok (checkRange_apply hal hst hua)]
  exact copyLoop_supplied h₀ hsrc hdst hne hno hua.2.2 hst hW hZ _ (by rwa [hempty])
    (by rwa [hempty]) hal le_rfl hua.2.1 le_rfl

end

end Loop

/-! ## `dup_mmap` -/

section Dup

variable {src dst d : ℕ} {s₀ : PmState A} {s : MmState A} {Z : Finset ℕ}
  {done rest : List VmaStruct} {vma : VmaStruct}

/-- The mapped pages in some areas. -/
def PmState.mappedAreas (s : PmState A) (d : ℕ) (areas : List VmaStruct) : Finset ℕ :=
  (Finset.range userPages).filter fun v =>
    (∃ vma ∈ areas, vma.Has (v * pgSize)) ∧ pteValid (s.leaf d v) = true

lemma mem_mappedAreas {v : ℕ} : v ∈ s₀.mappedAreas d done ↔
    v < userPages ∧ (∃ vma ∈ done, vma.Has (v * pgSize)) ∧ pteValid (s₀.leaf d v) = true := by
  simp [PmState.mappedAreas]

lemma has_page_iff (hu : UserRange vma.vmStart vma.vmEnd) (v : ℕ) :
    vma.Has (v * pgSize) ↔ vma.vmStart / pgSize ≤ v ∧ v < vma.vmEnd / pgSize := by
  obtain ⟨h1, h2, -⟩ := hu
  unfold VmaStruct.Has Intervals.At
  unfold pgSize at *
  omega

lemma mappedAreas_cons (hu : UserRange vma.vmStart vma.vmEnd) :
    s₀.mappedAreas d (vma :: done) =
      s₀.mappedAreas d done ∪ s₀.mappedIn d (vma.vmStart / pgSize) (vma.vmEnd / pgSize) := by
  ext v
  simp only [Finset.mem_union, mem_mappedAreas, mem_mappedIn, List.mem_cons, exists_eq_or_imp,
    has_page_iff hu]
  constructor
  · rintro ⟨h1, h2 | h2, h3⟩
    · exact .inr ⟨h1, h2.1, h2.2, h3⟩
    · exact .inl ⟨h1, h2, h3⟩
  · rintro (⟨h1, h2, h3⟩ | ⟨h1, h2, h3, h4⟩)
    · exact ⟨h1, .inr h2, h3⟩
    · exact ⟨h1, .inl ⟨h2, h3⟩, h4⟩

lemma mappedAreas_mono {l l' : List VmaStruct} (h : ∀ vma ∈ l, vma ∈ l') :
    s₀.mappedAreas d l ⊆ s₀.mappedAreas d l' := by
  intro v hv
  rw [mem_mappedAreas] at hv ⊢
  obtain ⟨h1, ⟨vma, h2, h3⟩, h4⟩ := hv
  exact ⟨h1, ⟨vma, h vma h2, h3⟩, h4⟩

/-- The state of `dup_mmap` after the areas `done`. -/
structure Dups (al : FrameAllocator A) (D : Finset ℕ) (src dst : ℕ) (R₀ : ℕ → Role) (s₀ : MmState A)
    (Z : Finset ℕ) (done : List VmaStruct) (s : MmState A) : Prop where
  mm : s.mm = { s₀.mm with mmapList := done, mapCount := s₀.mm.mapCount + done.length }
  pages : ∃ R, PageCopies al D src dst R₀ s₀.pm (s₀.pm.mappedAreas src done) R s.pm
  grants : ∀ b ∈ s.grants, b = true
  supply : Supplies al (frameCost Z - frameCost (s₀.pm.mappedAreas src done)) s.pm.alloc

variable {s₀ : MmState A}

lemma kmalloc_granted (h : ∀ b ∈ s.grants, b = true) (k : HeapKind) :
    kmalloc k s = .ok (true,
      { s with grants := s.grants.tail, heap := update s.heap k (s.heap k + 1) }) := by
  have hd : s.grants.headD true = true := by
    cases hg : s.grants with
    | nil => rfl
    | cons b l => exact h b (by rw [hg]; exact mem_cons_self)
  rw [kmalloc, read_bind_apply, hd]
  rfl

/-- **The areas of the parent are in front of those that have been copied.** -/
lemma insertVma_front {mm : MmStruct} (hcache : mm.mmapCache = none)
    (hl : Intervals VmaStruct.vmStart VmaStruct.vmEnd (vma :: mm.mmapList)) :
    insertVmaStruct vma mm =
      .ok ((), { mm with mmapList := vma :: mm.mmapList, mapCount := mm.mapCount + 1 }) := by
  obtain ⟨hp, ho⟩ := hl
  have hfront : ∀ v ∈ mm.mmapList, vma.vmEnd ≤ v.vmStart := (pairwise_cons.mp ho).1
  have hpos : vma.vmStart < vma.vmEnd := hp vma mem_cons_self
  have hareas : Areas mm := by
    refine ⟨⟨fun v hv => hp v (mem_cons_of_mem _ hv), (pairwise_cons.mp ho).2⟩, fun v hv => ?_⟩
    rw [hcache] at hv
    cases hv
  have hnot : ∀ v ∈ mm.mmapList, ¬v.vmStart ≤ vma.vmStart := by
    intro v hv
    have := hfront v hv
    omega
  have hbehind : mm.addArea vma =
      { mm with mmapList := vma :: mm.mmapList, mapCount := mm.mapCount + 1 } := by
    unfold MmStruct.addArea
    cases hm : mm.mmapList with
    | nil => rfl
    | cons v l =>
      have hv : decide (v.vmStart ≤ vma.vmStart) = false :=
        decide_eq_false (hnot v (by rw [hm]; exact mem_cons_self))
      rw [takeWhile_cons_of_neg (by rw [hv]; decide), dropWhile_cons_of_neg (by rw [hv]; decide)]
      rfl
  rw [insertVmaStruct_apply hareas hpos fun v hv hhas => hnot v hv hhas.1,
    if_pos (show mm.FreeRange vma.vmStart vma.vmEnd from fun v hv => Or.inr (hfront v hv)), hbehind]

section

variable (h₀ : PtInv al D (fun _ => 0) R₀ s₀.pm) (hsrc : src ∈ D) (hdst : dst ∈ D) (hne : src ≠ dst)
  (hno : NoTables R₀ dst) (hpgdir : s₀.mm.pgdir = dst) (hcache : s₀.mm.mmapCache = none)
include h₀ hsrc hdst hne hno hpgdir hcache

/-- **One area** is copied. -/
lemma dupArea_supplied (h : Dups al D src dst R₀ s₀ Z done s)
    (hu : UserRange vma.vmStart vma.vmEnd)
    (hl : Intervals VmaStruct.vmStart VmaStruct.vmEnd (vma :: done))
    (hZ : s₀.pm.mappedAreas src (vma :: done) ⊆ Z) :
    ∃ t, dupArea al src vma s = .ok (.ok (), t) ∧ Dups al D src dst R₀ s₀ Z (vma :: done) t := by
  obtain ⟨R, hpages⟩ := h.pages
  have hlist : s.mm.mmapList = done := by rw [h.mm]
  have hins : insertVmaStruct ⟨vma.vmStart, vma.vmEnd, vma.vmFlags⟩ s.mm = .ok ((), { s.mm with
      mmapList := vma :: done, mapCount := s.mm.mapCount + 1 }) := by
    have hc : s.mm.mmapCache = none := by rw [h.mm, hcache]
    rw [← hlist] at hl ⊢
    exact insertVma_front hc hl
  have hdisj : ∀ v ∈ s₀.pm.mappedAreas src done,
      ¬(vma.vmStart / pgSize ≤ v ∧ v < vma.vmEnd / pgSize) := by
    intro v hv hin
    obtain ⟨-, ⟨w, hw, hhas⟩, -⟩ := mem_mappedAreas.mp hv
    have h1 := ((has_page_iff hu v).mpr hin).2
    have h2 := (pairwise_cons.mp hl.ordered).1 w hw
    have h3 := hhas.1
    omega
  rw [mappedAreas_cons hu] at hZ
  obtain ⟨pm, R', g1, h1, h2⟩ := copyRange_supplied h₀ hsrc hdst hne hno hpages hu hdisj hZ h.supply
  rw [← mappedAreas_cons hu] at h1 h2
  have hdir : s.mm.pgdir = dst := by rw [h.mm, hpgdir]
  set mm : MmStruct := { s.mm with mmapList := vma :: done, mapCount := s.mm.mapCount + 1 } with hmm
  set x : MmState A :=
    { s with grants := s.grants.tail, heap := update s.heap .vma (s.heap .vma + 1) }
  have g2 : onMm (insertVmaStruct ⟨vma.vmStart, vma.vmEnd, vma.vmFlags⟩) x =
      .ok ((), { x with mm }) :=
    onMm_of_ok hins
  have g3 : onPm (copyRange al mm.pgdir src vma.vmStart vma.vmEnd) { x with mm } =
      .ok (.ok (), { x with mm, pm }) := by
    rw [hdir]
    exact onPm_of_ok g1
  refine ⟨{ x with mm, pm }, ?_, ⟨?_, ⟨R', h1⟩, fun b hb => h.grants b (mem_of_mem_tail hb), h2⟩⟩
  · rw [dupArea, bind_of_ok (kmalloc_granted h.grants .vma), if_pos rfl, bind_of_ok g2,
      read_bind_apply, bind_of_ok g3]
    rfl
  · rw [hmm, h.mm, length_cons]
    simp only [MmStruct.mk.injEq, true_and, and_true]
    omega

/-- **The loop of `dup_mmap`.** -/
lemma dupLoop_supplied (rest : List VmaStruct) :
    ∀ {done : List VmaStruct} {s : MmState A}, Dups al D src dst R₀ s₀ Z done s →
      Intervals VmaStruct.vmStart VmaStruct.vmEnd (rest.reverse ++ done) →
      (∀ vma ∈ rest, UserRange vma.vmStart vma.vmEnd) →
      s₀.pm.mappedAreas src (rest.reverse ++ done) ⊆ Z →
      ∃ t, dupLoop al src rest s = .ok (.ok (), t) ∧
        Dups al D src dst R₀ s₀ Z (rest.reverse ++ done) t := by
  induction rest with
  | nil =>
    intro done s h _ _ _
    exact ⟨s, rfl, h⟩
  | cons vma rest ih =>
    intro done s h hl hu hZ
    have happ : (vma :: rest).reverse ++ done = rest.reverse ++ vma :: done := by simp
    rw [happ] at hl hZ ⊢
    have hcons : Intervals VmaStruct.vmStart VmaStruct.vmEnd (vma :: done) :=
      ⟨fun v hv => hl.proper v (mem_append_right _ hv), (pairwise_append.mp hl.ordered).2.1⟩
    obtain ⟨t, g1, h1⟩ :=
      dupArea_supplied h₀ hsrc hdst hne hno hpgdir hcache h (hu vma mem_cons_self) hcons
        ((mappedAreas_mono fun v hv => mem_append_right _ hv).trans hZ)
    obtain ⟨u, g2, h2⟩ := ih h1 hl (fun v hv => hu v (mem_cons_of_mem _ hv)) hZ
    refine ⟨u, ?_, h2⟩
    rw [dupLoop, Comp.andThen, bind_of_ok g1]
    exact g2

end

/-- **An address space without areas and pages**, as `mm_create` and `setup_pgdir` make it. -/
structure MmState.Empty (s : MmState A) : Prop where
  list : s.mm.mmapList = []
  cache : s.mm.mmapCache = none
  count : s.mm.mapCount = 0
  tables : ∀ i < 2, pteValid (s.pm.mem s.mm.pgdir i) = false

lemma MmState.Empty.noTables (h : s.Empty) (hinv : Forest al D R s.pm) : NoTables R s.mm.pgdir := by
  have hpd0 : ∀ f i, R f ≠ .pd0 s.mm.pgdir i := by
    intro f i hf
    obtain ⟨-, hi, hv, -⟩ := hinv.pd0_entry hf
    rw [h.tables i hi] at hv
    cases hv
  refine fun f => ⟨hpd0 f, fun i j hf => ?_⟩
  obtain ⟨g, hg, -⟩ := hinv.pt_entry hf
  exact hpd0 g i hg

/-- **`dup_mmap` copies an address space.** If there is memory for the copies of the mapped pages
and for their tables, it returns, the child has the areas of the parent, and it sees in them what
the parent sees, in frames that nothing else maps. No frame that was in use has been written, apart
from the directory of the child, and the other address spaces are as they were. -/
theorem dup_mmap_copies {parent : MmStruct} (hvm : VmInv al ⟨s.pm, D⟩) (hparent : Areas parent)
    (huser : ∀ vma ∈ parent.mmapList, UserRange vma.vmStart vma.vmEnd) (hsrc : parent.pgdir ∈ D)
    (hdst : s.mm.pgdir ∈ D) (hne : parent.pgdir ≠ s.mm.pgdir) (hempty : s.Empty)
    (hheap : ∀ b ∈ s.grants, b = true)
    (hmem : Supplies al (frameCost (s.pm.mappedAreas parent.pgdir parent.mmapList)) s.pm.alloc) :
    ∃ t, dupMmap al parent s = .ok (.ok (), t) ∧
      t.mm = { s.mm with mmapList := parent.mmapList, mapCount := parent.mmapList.length } ∧
      (∀ v < userPages, t.pm.page s.mm.pgdir v =
        if parent.Covers v then (s.pm.page parent.pgdir v).map copyOf else none) ∧
      t.pm.Private D s.mm.pgdir ∧
      (∀ f, f ∉ al.free s.pm.alloc → f ≠ s.mm.pgdir → t.pm.mem f = s.pm.mem f) ∧
      (∀ d ∈ D, d ≠ s.mm.pgdir → ∀ v < userPages, t.pm.leaf d v = s.pm.leaf d v) ∧
      VmInv al ⟨t.pm, D⟩ := by
  obtain ⟨R, hinv⟩ := hvm
  have hno : NoTables R s.mm.pgdir := hempty.noTables hinv.toForest
  have hnil : s.pm.mappedAreas parent.pgdir [] = ∅ := by
    ext v
    simp [mem_mappedAreas]
  have hstart : Dups al D parent.pgdir s.mm.pgdir R s
      (s.pm.mappedAreas parent.pgdir parent.mmapList) [] s := by
    refine ⟨?_, ⟨R, ?_⟩, hheap, ?_⟩
    · rw [← hempty.list, length_eq_zero_iff.mpr hempty.list]
      simp
    · rw [hnil]
      exact PageCopies.nil hinv hdst hno
    · exact hmem.mono (Nat.sub_le _ _)
  have happ : parent.mmapList.reverse.reverse ++ [] = parent.mmapList := by simp
  obtain ⟨t, g, h⟩ := dupLoop_supplied hinv hsrc hdst hne hno rfl hempty.cache
    parent.mmapList.reverse hstart (by rw [happ]; exact hparent.list)
    (fun vma hv => huser vma (mem_reverse.mp hv)) (by rw [happ])
  rw [happ] at h
  obtain ⟨R', hpages⟩ := h.pages
  refine ⟨t, g, ?_, fun v hv => ?_, hpages.own, fun f hf hfd => ?_, hpages.leaf, R', hpages.inv⟩
  · rw [h.mm, hempty.count, zero_add]
  · rw [hpages.page v hv]
    by_cases hvalid : pteValid (s.pm.leaf parent.pgdir v) = true
    · have hiff : v ∈ s.pm.mappedAreas parent.pgdir parent.mmapList ↔ parent.Covers v := by
        rw [mem_mappedAreas]
        exact ⟨fun hm => hm.2.1, fun hm => ⟨hv, hm, hvalid⟩⟩
      simp only [hiff]
    · rw [page_of_invalid (Bool.eq_false_of_not_eq_true hvalid)]
      split_ifs <;> rfl
  · refine hpages.mem f (fun hfree => hf ?_) hfd
    exact (hinv.free f).mp hfree

end Dup

/-! ## A parent with one page -/

/-- Two directories and six free frames. -/
def sixFree : PmState (Finset ℕ) where
  mem := fun _ _ => 0
  ref := fun _ => 0
  alloc := {2, 3, 4, 5, 6, 7}
  freed := []

lemma sixFree_initial : Vm.Initial eightFrames ⟨sixFree, {0, 1}⟩ where
  dirs d hd := by
    revert d
    decide
  empty _ _ _ _ := pteValid_zero
  ref _ _ := rfl

/-- The parent, with an area of one page. -/
def onePageMm : MmStruct where
  mmapList := [⟨userBase, userBase + pgSize, vmRead ||| vmWrite⟩]
  mmapCache := none
  pgdir := 0
  mapCount := 1
  mmCount := 1

/-- The page is mapped. Three frames are left. -/
lemma sixFree_page : ∃ u, pgdirAllocPage eightFrames 0 userBase pteUser sixFree = .ok (some 2, u) ∧
    u.alloc = {5, 6, 7} ∧ ∀ i < 2, pteValid (u.mem 1 i) = false := by
  have h : ((pgdirAllocPage eightFrames 0 userBase pteUser sixFree).toOption.map fun r =>
      (r.1, r.2.alloc, pteValid (r.2.mem 1 0), pteValid (r.2.mem 1 1))) =
      some (some 2, {5, 6, 7}, false, false) := by
    decide +kernel
  obtain ⟨⟨o, u⟩, e, h⟩ := exists_ok h
  simp only [Prod.mk.injEq] at h
  obtain ⟨rfl, h1, h2, h3⟩ := h
  refine ⟨u, e, h1, fun i hi => ?_⟩
  obtain rfl | rfl : i = 0 ∨ i = 1 := by omega
  · exact h2
  · exact h3

lemma supplies_three : Supplies eightFrames 3 {5, 6, 7} := by
  have h1 : eightFrames.alloc {5, 6, 7} = some (5, {6, 7}) := by decide +kernel
  have h2 : eightFrames.alloc {6, 7} = some (6, {7}) := by decide +kernel
  have h3 : eightFrames.alloc {7} = some (7, ∅) := by decide +kernel
  exact .succ h1 (.succ h2 (.succ h3 (.zero ∅)))

/-- The child gets a copy of the page. -/
theorem dup_mmap_copies_onePage :
    ∃ u t, pgdirAllocPage eightFrames 0 userBase pteUser sixFree = .ok (some 2, u) ∧
      dupMmap eightFrames onePageMm ⟨u, { mmCreate with pgdir := 1 }, [], fun _ => 0⟩ =
      .ok (.ok (), t) ∧ t.mm.mmapList = onePageMm.mmapList ∧
      t.pm.page 1 (userBase / pgSize) = (u.page 0 (userBase / pgSize)).map copyOf ∧
      t.pm.Private {0, 1} 1 := by
  obtain ⟨u, hu, ha, hdir⟩ := sixFree_page
  obtain ⟨R, hinv⟩ := sixFree_initial.inv
  obtain ⟨R', hinv', -, hins⟩ := (pgdirAllocPage_spec (E := fun _ => False) hinv (by decide)
    (by decide) pteUser).ok _ _ hu
  -- no other page of the parent is mapped
  have hpages : u.mappedAreas 0 onePageMm.mmapList ⊆ {userBase / pgSize} := by
    intro v hv
    obtain ⟨hlt, -, hvalid⟩ := mem_mappedAreas.mp hv
    rw [Finset.mem_singleton]
    by_contra hne
    have hleaf : u.leaf 0 v = 0 := by
      have h0 : sixFree.leaf 0 v = 0 := by
        rw [PmState.leaf, if_neg]
        change ¬pteValid 0 = true
        decide
      rw [hins.leaf 0 (by decide) v hlt, update_of_ne fun e => hne (congrArg Prod.snd e)]
      exact h0
    rw [hleaf, pteValid_zero] at hvalid
    cases hvalid
  have hcost : frameCost {userBase / pgSize} = 3 := rfl
  have hsupply : Supplies eightFrames (frameCost (u.mappedAreas 0 onePageMm.mmapList)) u.alloc := by
    rw [ha]
    exact supplies_three.mono (hcost ▸ frameCost_mono hpages)
  obtain ⟨t, g, h1, h2, h3, -⟩ := @dup_mmap_copies _ eightFrames {0, 1}
    ⟨u, { mmCreate with pgdir := 1 }, [], fun _ => 0⟩ onePageMm ⟨R', hinv'⟩
    ⟨⟨by decide, by decide⟩, by rintro vma ⟨⟩⟩ (by decide) (by decide)
    (show 1 ∈ ({0, 1} : Finset ℕ) by decide) (show 0 ≠ 1 by decide) ⟨rfl, rfl, rfl, hdir⟩
    (fun b hb => absurd hb not_mem_nil) hsupply
  refine ⟨u, t, hu, g, by rw [h1], ?_, h3⟩
  have hpage := h2 (userBase / pgSize) (by decide)
  rwa [if_pos (by decide)] at hpage

end Ucore
