import Ucore.Mm.PageTableRange

set_option autoImplicit false

/-!
# Page tables refine a finite map

Every sequence of calls on any number of page directories. The abstract model is a finite map from
pages of address spaces to frames. The calls change the map as their names say, and the reference
counts stay exact.

## Main definitions

* `Vm` — the state with its directories; `PtOp`, `Vm.exec` — the calls.
* `Vm.map` — the finite map that the tables stand for.
* `MapStep` — the effect of a call on the map.
* `VmLink` — the counts are exact before and after, and a frame is returned exactly if its last
  entry has gone.

## Main results

* `page_tables_refine_map` — the refinement, over all runs.
* `table_count_is_not_entries` — the count of a table is not a number of entries.
-/

namespace Ucore

open Function Comp Finset Relation

variable {A : Type}

/-! ## The system -/

/-- The memory and the page directories in it. -/
structure Vm (A : Type) where
  pm : PmState A
  dirs : Finset ℕ

/-- The calls. -/
inductive PtOp
  /-- `setup_pgdir` -/
  | setup
  /-- `alloc_page`, by whoever needs a frame -/
  | alloc
  /-- `page_insert` -/
  | insert (d page la : ℕ) (perm : BitVec 10)
  /-- `page_remove` -/
  | remove (d la : ℕ)
  /-- `pgdir_alloc_page` -/
  | allocAt (d la : ℕ) (perm : BitVec 10)
  /-- `unmap_range` -/
  | unmap (d start stop : ℕ)
  /-- `copy_range` -/
  | copy (dst src start stop : ℕ)
  deriving DecidableEq

/-- What a call returns. -/
inductive PtOut
  | none
  | page (p : Option ℕ)
  | code (r : Except Errno Unit)

/-- A call that leaves the set of the directories. -/
def Vm.run {α : Type} (m : Pt A α) (out : α → PtOut) (s : Vm A) : Except PtPanic (PtOut × Vm A) :=
  match m s.pm with
  | .ok (a, t) => .ok (out a, ⟨t, s.dirs⟩)
  | .error e => .error e

/-- **One call.** -/
def Vm.exec (al : FrameAllocator A) (boot : ℕ → BitVec 64) (s : Vm A) :
    PtOp → Except PtPanic (PtOut × Vm A)
  | .setup =>
    match setupPgdir al boot s.pm with
    | .ok (some p, t) => .ok (.page (some p), ⟨t, insert p s.dirs⟩)
    | .ok (none, t) => .ok (.page none, ⟨t, s.dirs⟩)
    | .error e => .error e
  | .alloc => s.run (allocPage al) .page
  | .insert d page la perm => s.run (pageInsert al d page la perm) .code
  | .remove d la => s.run (pageRemove al d la) fun _ => .none
  | .allocAt d la perm => s.run (pgdirAllocPage al d la perm) .page
  | .unmap d start stop => s.run (unmapRange al d start stop) fun _ => .none
  | .copy dst src start stop => s.run (copyRange al dst src start stop) .code

/-- The bounds of a range of user pages. -/
def UserRange (start stop : ℕ) : Prop :=
  start % pgSize = 0 ∧ stop % pgSize = 0 ∧ UserAccess start stop

instance (start stop : ℕ) :
    Decidable (UserRange start stop) := inferInstanceAs (Decidable (_ ∧ _ ∧ _))

/-- **What callers owe**: addresses are addresses of the user, in a directory, and a frame that is
mapped has been allocated and is neither a directory nor a table. -/
def Vm.Enabled (al : FrameAllocator A) (s : Vm A) : PtOp → Prop
  | .setup => True
  | .alloc => True
  | .insert d page la _ => d ∈ s.dirs ∧ la < userTop ∧ page < al.npage ∧ page ∉ al.free s.pm.alloc ∧
      page ∉ s.dirs ∧ ¬s.pm.IsTable s.dirs page
  | .remove d la => d ∈ s.dirs ∧ la < userTop
  | .allocAt d la _ => d ∈ s.dirs ∧ la < userTop
  | .unmap d start stop => d ∈ s.dirs ∧ UserRange start stop
  | .copy dst src start stop => dst ∈ s.dirs ∧ src ∈ s.dirs ∧ UserRange start stop

/-- At the start nothing is mapped. -/
structure Vm.Initial (al : FrameAllocator A) (s : Vm A) : Prop where
  dirs : ∀ d ∈ s.dirs, d < al.npage ∧ d ∉ al.free s.pm.alloc
  empty : ∀ d ∈ s.dirs, ∀ i < 2, pteValid (s.pm.mem d i) = false
  ref : ∀ p < al.npage, s.pm.ref p = 0

/-- **A run**: calls whose obligations are met and that return. -/
def VmRun (al : FrameAllocator A) (boot : ℕ → BitVec 64) : Vm A → Vm A → Prop :=
  ReflTransGen fun s t => ∃ op out, s.Enabled al op ∧ s.exec al boot op = .ok (out, t)

/-! ## The finite map -/

/-- The frame that an entry maps. -/
def pteFrame (w : BitVec 64) : Option ℕ := if pteValid w then some (ptePpn w) else none

/-- **The map that the tables stand for**: the frames of the pages of the directories. -/
def Vm.map (s : Vm A) (q : ℕ × ℕ) : Option ℕ :=
  if q.1 ∈ s.dirs ∧ q.2 < userPages then pteFrame (s.pm.leaf q.1 q.2) else none

/-- The pages of a range that are mapped in `src` are mapped in `dst`; nothing else changes. -/
def CopiesMap (dst src lo hi : ℕ) (f g : ℕ × ℕ → Option ℕ) : Prop :=
  (∀ d v, ¬(d = dst ∧ lo ≤ v ∧ v < hi ∧ f (src, v) ≠ none) → g (d, v) = f (d, v)) ∧
    ∀ v, lo ≤ v → v < hi → f (src, v) ≠ none → g (dst, v) ≠ none

/-- **The effect of a call on the map.** -/
def MapStep : PtOp → PtOut → (ℕ × ℕ → Option ℕ) → (ℕ × ℕ → Option ℕ) → Prop
  | .insert d page la _, .code (.ok ()), f, g => g = update f (d, la / pgSize) (some page)
  | .remove d la, _, f, g => g = update f (d, la / pgSize) none
  | .allocAt d la _, .page (some p), f, g => g = update f (d, la / pgSize) (some p)
  | .unmap d start stop, _, f, g => g = fun q =>
      if q.1 = d ∧ start / pgSize ≤ q.2 ∧ q.2 < stop / pgSize then none else f q
  | .copy dst src start stop, .code (.ok ()), f, g =>
      CopiesMap dst src (start / pgSize) (stop / pgSize) f g
  | .copy dst src start stop, _, f, g =>
      ∃ hi ≤ stop / pgSize, CopiesMap dst src (start / pgSize) hi f g
  | _, _, f, g => g = f

/-- **The counts are exact before and after, and a frame is returned exactly if its last entry has
gone.** -/
structure VmLink (al : FrameAllocator A) (s t : Vm A) : Prop where
  before : Counted al s.dirs s.pm
  after : Counted al t.dirs t.pm
  returned : ∀ q, q ∉ al.free s.pm.alloc ∧ q ∈ al.free t.pm.alloc ↔
    0 < s.pm.maps s.dirs q ∧ t.pm.maps t.dirs q = 0

/-- A call is one such step. `copy_range` is one for each page that it copies. -/
def LinkStep (al : FrameAllocator A) (s t : Vm A) : PtOp → Prop
  | .copy dst _ _ _ => ReflTransGen (fun s t : Vm A => VmLink al s t ∧ t.dirs = s.dirs ∧
      ∃ la pte done, copyPage al dst la pte s.pm = .ok (done, t.pm)) s t
  | _ => VmLink al s t

section Lemmas

variable {al : FrameAllocator A} {boot : ℕ → BitVec 64} {R R' : ℕ → Role} {s t u : Vm A}
  {d v p la lo hi : ℕ} {op : PtOp} {out : PtOut}

/-- The invariant of the system. -/
def VmInv (al : FrameAllocator A) (s : Vm A) : Prop := ∃ R, PtInv al s.dirs (fun _ => 0) R s.pm

/-- At the start every frame is free, a directory, or neither. -/
lemma Vm.Initial.inv (h : s.Initial al) : VmInv al s := by
  let R : ℕ → Role := fun p =>
    if p < al.npage then if p ∈ al.free s.pm.alloc then .free
      else if p ∈ s.dirs then .dir else .data
    else .outside
  have hlt := al.lt_npage s.pm.alloc
  have hR : ∀ p, R p = if p < al.npage then if p ∈ al.free s.pm.alloc then .free else
    if p ∈ s.dirs then .dir else .data else .outside := fun _ => rfl
  have htable : ∀ p, (R p).isTable = false := by
    intro p
    rw [hR]
    split_ifs <;> rfl
  have hchild : ∀ f k r, (R f).child f k = some r → f ∈ s.dirs ∧ k < 2 := by
    intro f k r hr
    rw [hR] at hr
    split_ifs at hr with h1 h2 h3
    · cases hr
    · refine ⟨h3, ?_⟩
      by_contra hk
      rw [Role.child, if_neg hk] at hr
      cases hr
    · cases hr
    · cases hr
  have hleaf : ∀ d ∈ s.dirs, ∀ v < userPages, s.pm.leaf d v = 0 := by
    intro d hd v hv
    rw [PmState.leaf, if_neg]
    rw [h.empty d hd _ (pageOf_split hv).1]
    decide
  refine ⟨R, ⟨fun p => ?_, fun p => ?_, fun d => ?_, fun f k r hr hv => ?_, fun p hp => ?_⟩,
    fun p hp => ?_, fun p hp => ?_⟩
  · rw [hR]
    split_ifs with h1 h2 h3
    · exact iff_of_true rfl h2
    · exact iff_of_false (by simp) h2
    · exact iff_of_false (by simp) h2
    · exact iff_of_false (by simp) fun h2 => h1 (hlt p h2)
  · rw [hR]
    split_ifs with h1 h2 h3
    · exact iff_of_true (by simp) h1
    · exact iff_of_true (by simp) h1
    · exact iff_of_true (by simp) h1
    · exact iff_of_false (by simp) h1
  · rw [hR]
    split_ifs with h1 h2 h3
    · exact iff_of_false (by simp) fun hd => (h.dirs d hd).2 h2
    · exact iff_of_true rfl h3
    · exact iff_of_false (by simp) h3
    · exact iff_of_false (by simp) fun hd => h1 (h.dirs d hd).1
  · obtain ⟨hf, hk⟩ := hchild f k r hr
    rw [h.empty f hf k hk] at hv
    cases hv
  · rw [htable p] at hp
    cases hp
  · have hp' : p < al.npage := by
      by_contra h1
      rw [hR, if_neg h1] at hp
      simp at hp
    have h0 : s.pm.maps s.dirs p = 0 := by
      rw [Forest.maps_eq_zero]
      intro d hd v hv hw
      rw [hleaf d hd v hv, pteValid_zero] at hw
      cases hw
    rw [h.ref p hp', h0]
    rfl
  · rw [htable p] at hp
    cases hp

/-- A frame that callers may map. -/
lemma role_data (h : PtInv al s.dirs (fun _ => 0) R s.pm) (h1 : p < al.npage)
    (h2 : p ∉ al.free s.pm.alloc) (h3 : p ∉ s.dirs) (h4 : ¬s.pm.IsTable s.dirs p) :
    R p = .data := by
  rw [← h.free] at h2
  rw [← h.dirs] at h3
  rw [h.toForest.isTable_iff] at h4
  have h5 := (h.lt p).mpr h1
  cases hr : R p with
  | data => rfl
  | free => exact absurd hr h2
  | dir => exact absurd hr h3
  | pd0 d i | pt d i j => rw [hr] at h4; exact absurd rfl h4
  | outside => exact absurd hr h5

lemma pteFrame_invalid {w : BitVec 64} (h : pteValid w = false) : pteFrame w = none := by
  rw [pteFrame, if_neg]
  rw [h]
  decide

lemma pteFrame_create (hp : p < al.npage) (type : BitVec 10) :
    pteFrame (pteCreate p type) = some p := by
  rw [pteFrame, if_pos (pteValid_create p type), ptePpn_create (lt_of_lt_of_le hp al.npage_le)]

/-- **`get_page` looks the map up.** -/
lemma getPage_map (h : VmInv al s) (hd : d ∈ s.dirs) (hla : la < userTop) :
    getPage al d la s.pm = .ok (s.map (d, la / pgSize), s.pm) := by
  obtain ⟨R, h⟩ := h
  obtain ⟨-, -, -, -, hv⟩ := user_indices hla
  rw [Vm.map, if_pos ⟨hd, hv⟩]
  exact getPage_apply h.toForest hd hla

/-! ## The map after a change of the walks -/

lemma map_ext {g : ℕ × ℕ → Option ℕ} (hd : t.dirs = s.dirs)
    (hin : ∀ d ∈ s.dirs, ∀ v < userPages, pteFrame (t.pm.leaf d v) = g (d, v))
    (hout : ∀ q : ℕ × ℕ, ¬(q.1 ∈ s.dirs ∧ q.2 < userPages) → g q = none) : t.map = g := by
  funext q
  rw [Vm.map, hd]
  split_ifs with hq
  · exact hin q.1 hq.1 q.2 hq.2
  · exact (hout q hq).symm

lemma map_inside (hd : d ∈ s.dirs) (hv : v < userPages) : s.map (d, v) = pteFrame (s.pm.leaf d v) :=
  if_pos ⟨hd, hv⟩

lemma map_outside {q : ℕ × ℕ} (hq : ¬(q.1 ∈ s.dirs ∧ q.2 < userPages)) : s.map q = none := if_neg hq

lemma map_same (hd : t.dirs = s.dirs)
    (h : ∀ d ∈ s.dirs, ∀ v < userPages, t.pm.leaf d v = s.pm.leaf d v) : t.map = s.map := by
  refine map_ext hd (fun d hds v hv => ?_) fun q hq => map_outside hq
  rw [h d hds v hv, map_inside hds hv]

/-- **One walk has changed, one page of the map has changed.** -/
lemma map_insert {perm : BitVec 10} (hd : t.dirs = s.dirs) (hds : d ∈ s.dirs) (hv : v < userPages)
    (hp : p < al.npage) (h : Inserts s.dirs R s.pm d v (pteCreate p (pteV ||| perm)) R' t.pm) :
    t.map = update s.map (d, v) (some p) := by
  refine map_ext hd (fun d' hd' v' hv' => ?_) fun q hq => ?_
  · rw [h.leaf d' hd' v' hv']
    by_cases he : (d', v') = (d, v)
    · rw [he, update_self, update_self, pteFrame_create hp]
    · rw [update_of_ne he, update_of_ne he, map_inside hd' hv']
  · rw [update_of_ne, map_outside hq]
    rintro rfl
    exact hq ⟨hds, hv⟩

/-- **Cleared entries are not in the map.** -/
lemma map_clears (hd : t.dirs = s.dirs) (h : Clears s.dirs R s.pm d lo hi R' t.pm) :
    t.map = fun q => if q.1 = d ∧ lo ≤ q.2 ∧ q.2 < hi then none else s.map q := by
  refine map_ext hd (fun d' hd' v' hv' => ?_) fun q hq => ?_
  · rw [h.leaf d' hd' v' hv']
    by_cases hc : d' = d ∧ lo ≤ v' ∧ v' < hi
    · rw [if_pos hc, if_pos hc, pteFrame_invalid (cleared_valid _)]
    · rw [if_neg hc, if_neg hc, map_inside hd' hv']
  · rw [map_outside hq, ite_self]

/-- **The pages that have been copied.** -/
lemma map_copies {dst src : ℕ} (hd : t.dirs = s.dirs) (hdst : dst ∈ s.dirs) (hsrc : src ∈ s.dirs)
    (h : Copies al s.dirs s.pm dst src lo hi t.pm) : CopiesMap dst src lo hi s.map t.map := by
  have hmapped : ∀ v, s.map (src, v) ≠ none ↔ v < userPages ∧
      pteValid (s.pm.leaf src v) = true := by
    intro v
    rw [Vm.map, pteFrame]
    split_ifs with h1 h2
    · exact iff_of_true (by simp) ⟨h1.2, h2⟩
    · exact iff_of_false (by simp) fun h3 => h2 h3.2
    · exact iff_of_false (by simp) fun h3 => h1 ⟨hsrc, h3.1⟩
  have hdt : ∀ {d}, d ∈ s.dirs → d ∈ t.dirs := fun h1 => by rwa [hd]
  refine ⟨fun d v hnot => ?_, fun v h1 h2 h3 => ?_⟩
  · by_cases hq : d ∈ s.dirs ∧ v < userPages
    · rcases h d hq.1 v hq.2 with ⟨-, h1⟩ | ⟨rfl, h1, h2, h3, -⟩
      · rw [map_inside hq.1 hq.2, map_inside (hdt hq.1) hq.2, h1]
      · exact absurd ⟨rfl, h1, h2, (hmapped v).mpr ⟨hq.2, h3⟩⟩ hnot
    · have hqt : ¬(d ∈ t.dirs ∧ v < userPages) := by rwa [hd]
      rw [map_outside hqt, map_outside hq]
  · obtain ⟨hv, hw⟩ := (hmapped v).mp h3
    rcases h dst hdst v hv with ⟨h4, -⟩ | ⟨-, -, -, -, p, hp, h4⟩
    · exact absurd ⟨rfl, h1, h2, hw⟩ h4
    · rw [map_inside (hdt hdst) hv, h4, pteFrame_create hp]
      simp

/-! ## The calls -/

/-- A call that leaves the set of the directories. -/
lemma run_spec {α : Type} {m : Pt A α} {o : α → PtOut} {E : PtPanic → Prop}
    {Q : α → PmState A → Prop} (h : Spec m s.pm E Q) :
    (∀ e, s.run m o = .error e → E e) ∧
      ∀ out t, s.run m o = .ok (out, t) → ∃ a, out = o a ∧ t.dirs = s.dirs ∧ Q a t.pm := by
  unfold Vm.run
  cases hm : m s.pm with
  | error p =>
    refine ⟨fun e he => ?_, fun out t ht => ?_⟩
    · cases he
      exact h.panic p hm
    · cases ht
  | ok r =>
    obtain ⟨a, u⟩ := r
    refine ⟨fun e he => ?_, fun out t ht => ?_⟩
    · cases he
    · cases ht
      exact ⟨a, rfl, rfl, h.ok a u hm⟩

lemma VmLink.of_frees (h : PtInv al s.dirs (fun _ => 0) R s.pm)
    (h' : PtInv al s.dirs (fun _ => 0) R' t.pm) (hd : t.dirs = s.dirs)
    (hf : Frees s.dirs R s.pm R' t.pm) : VmLink al s t := by
  have hl := Link.of_frees h h' hf
  exact ⟨hl.before, by rw [hd]; exact hl.after, by rw [hd]; exact hl.returned⟩

/-- **A call panics only if a copy finds no frame**; otherwise the map changes as the call says. -/
structure Ok (al : FrameAllocator A) (boot : ℕ → BitVec 64) (s : Vm A) (op : PtOp) : Prop where
  panic : ∀ e, s.exec al boot op = .error e → e = .noPage ∧ ∃ dst src start stop,
    op = .copy dst src start stop
  inv : ∀ out t, s.exec al boot op = .ok (out, t) → VmInv al t
  map : ∀ out t, s.exec al boot op = .ok (out, t) → MapStep op out s.map t.map
  link : ∀ out t, s.exec al boot op = .ok (out, t) → LinkStep al s t op

lemma Ok.of_ok (e : s.exec al boot op = .ok (out, t)) (hi : VmInv al t)
    (hm : MapStep op out s.map t.map) (hl : LinkStep al s t op) : Ok al boot s op := by
  refine ⟨fun p hp => ?_, fun out' t' ht => ?_, fun out' t' ht => ?_, fun out' t' ht => ?_⟩
  · cases e.symm.trans hp
  · cases e.symm.trans ht
    exact hi
  · cases e.symm.trans ht
    exact hm
  · cases e.symm.trans ht
    exact hl

/-- A call that does not panic and that returns the frames whose last entry has gone. -/
lemma Ok.of_frees {α : Type} {m : Pt A α} {o : α → PtOut} {Q : α → PmState A → Prop}
    (h : PtInv al s.dirs (fun _ => 0) R s.pm) (hm : Spec m s.pm (fun _ => False) Q)
    (he : s.exec al boot op = s.run m o) (hop : ∀ t, VmLink al s t → LinkStep al s t op)
    (hQ : ∀ a (t : Vm A), t.dirs = s.dirs → Q a t.pm → ∃ R', PtInv al s.dirs (fun _ => 0) R' t.pm ∧
      MapStep op (o a) s.map t.map ∧ Frees s.dirs R s.pm R' t.pm) : Ok al boot s op := by
  obtain ⟨h1, h2⟩ := run_spec (o := o) hm
  rw [← he] at h1 h2
  cases hr : s.exec al boot op with
  | error e => exact absurd (h1 e hr) id
  | ok r =>
    obtain ⟨a, ha, hd, hq⟩ := h2 r.1 r.2 hr
    obtain ⟨R', h3, h4, h5⟩ := hQ a r.2 hd hq
    exact .of_ok hr ⟨R', by rwa [hd]⟩ (ha ▸ h4) (hop _ (.of_frees h h3 hd h5))

variable {D : Finset ℕ} {x : PmState A}

/-- A new directory does not change the number of the entries. -/
lemma maps_insert (h : ∀ v < userPages, x.leaf p v = 0) (q : ℕ) :
    x.maps (insert p D) q = x.maps D q := by
  unfold PmState.maps
  congr 1
  ext ⟨d, v⟩
  simp only [mem_filter, mem_product, mem_insert, mem_range]
  constructor
  · rintro ⟨⟨rfl | hd, hv⟩, hm⟩
    · rw [h v hv, mapsTo_of_invalid pteValid_zero] at hm
      cases hm
    · exact ⟨⟨hd, hv⟩, hm⟩
  · rintro ⟨⟨hd, hv⟩, hm⟩
    exact ⟨⟨.inr hd, hv⟩, hm⟩

/-- **A frame becomes a directory** without entries for the user. -/
lemma PtInv.addDir {δ : ℕ → ℤ} (h : PtInv al D δ R x) (hp : R p = .data) (h0 : x.maps D p = 0)
    (hboot : ∀ k < 2, pteValid (boot k) = false) :
    PtInv al (insert p D) δ (update R p .dir) (x.setFrame p boot) ∧
      ∀ v < userPages, (x.setFrame p boot).leaf p v = 0 := by
  have hself : (x.setFrame p boot).mem p = boot := update_self ..
  have hempty : ∀ v < userPages, (x.setFrame p boot).leaf p v = 0 := by
    intro v hv
    rw [PmState.leaf, if_neg]
    rw [hself, hboot _ (pageOf_split hv).1]
    decide
  have hmaps : ∀ q, (x.setFrame p boot).maps (insert p D) q = x.maps D q := fun q =>
    (maps_insert hempty q).trans
      (Forest.maps_congr (fun d hd v hv => h.leaf_setFrame hp boot hd hv) q)
  refine ⟨⟨h.toForest.relabel ((h.lt p).mp (by rw [hp]; simp)) (by rw [hp]; rfl)
    (fun k => by rw [hp]; rfl) (fun f k r hr hv => h.not_pointed hp h0 hr hv) rfl (by simp)
    (fun k r hr => ?_) (fun f hf => update_of_ne hf ..) (fun q => ?_) fun d => ?_,
    fun q hq => ?_, fun q hq => ?_⟩, hempty⟩
  · rw [hself]
    refine hboot k ?_
    by_contra hk
    rw [Role.child, if_neg hk] at hr
    cases hr
  · change _ ↔ q ∈ al.free x.alloc
    rw [← h.free]
    by_cases hq : q = p
    · subst hq
      simp [hp]
    · rw [update_of_ne hq]
  · rw [mem_insert, ← h.dirs]
    by_cases hd : d = p
    · simp [hd]
    · simp [hd]
  · rw [hmaps]
    refine h.refs q ?_
    by_cases hqp : q = p
    · rw [hqp]
      exact .inl hp
    · rwa [update_of_ne hqp] at hq
  · by_cases hqp : q = p
    · rw [hqp, update_self] at hq
      cases hq
    · rw [update_of_ne hqp] at hq
      exact h.tables q hq

/-- **`setup_pgdir`.** -/
lemma setup_ok (hboot : ∀ k < 2, pteValid (boot k) = false) (h : VmInv al s) :
    Ok al boot s .setup := by
  obtain ⟨R, h⟩ := h
  cases ha : al.alloc s.pm.alloc with
  | none =>
    have e : s.exec al boot .setup = .ok (.page none, s) := by
      unfold Vm.exec setupPgdir allocPage
      simp only [bind_apply, read_apply, ha]
      rfl
    exact .of_ok e ⟨R, h⟩ rfl (VmLink.of_frees h h rfl (Extends.refl _ 0 0 R _).frees)
  | some r =>
    obtain ⟨p, a⟩ := r
    obtain ⟨hp, h0, h1⟩ := h.alloc ha
    obtain ⟨h2, h3⟩ := h1.addDir (update_self ..) h0 hboot
    set x : PmState A := ({ s.pm with alloc := a }).setFrame p boot with hx
    rw [update_idem] at h2
    have e : s.exec al boot .setup = .ok (.page (some p), ⟨x, insert p s.dirs⟩) := by
      unfold Vm.exec setupPgdir allocPage
      simp only [bind_apply, read_apply, ha]
      rfl
    have hpd : p ∉ s.dirs := by
      rw [← h.dirs, hp]
      simp
    have hleaf : ∀ d ∈ s.dirs, ∀ v < userPages, x.leaf d v = s.pm.leaf d v := fun d hd v hv =>
      h1.leaf_setFrame (update_self ..) boot hd hv
    refine .of_ok e ⟨_, h2⟩ ?_
      ⟨h.counted, h2.counted, fun q => iff_of_false (fun hq => hq.1 ?_) fun hq => ?_⟩
    · funext q
      obtain ⟨d, v⟩ := q
      by_cases hq : d ∈ s.dirs ∧ v < userPages
      · rw [map_inside hq.1 hq.2, map_inside (mem_insert_of_mem hq.1) hq.2]
        exact congrArg pteFrame (hleaf d hq.1 v hq.2)
      · rw [map_outside (s := s) hq, Vm.map]
        split_ifs with hq'
        · obtain rfl : d = p := by
            by_contra hd
            exact hq ⟨(mem_insert.mp hq'.1).resolve_left hd, hq'.2⟩
          exact (congrArg pteFrame (h3 v hq'.2)).trans (pteFrame_invalid pteValid_zero)
        · rfl
    · have hfree : q ∈ al.free a := hq.2
      rw [(al.alloc_free _ _ _ ha).2] at hfree
      exact mem_of_mem_erase hfree
    · have hm : x.maps (insert p s.dirs) q = s.pm.maps s.dirs q :=
        (maps_insert h3 q).trans (Forest.maps_congr hleaf q)
      have h4 : x.maps (insert p s.dirs) q = 0 := hq.2
      omega

lemma copyLinks_lift {dst : ℕ} {y : PmState A} (h : ReflTransGen (CopyLink al D dst) x y) :
    ReflTransGen (fun s t : Vm A => VmLink al s t ∧ t.dirs = s.dirs ∧
      ∃ la pte done, copyPage al dst la pte s.pm = .ok (done, t.pm)) ⟨x, D⟩ ⟨y, D⟩ := by
  induction h with
  | refl => exact .refl
  | tail _ hl ih => exact ih.tail ⟨⟨hl.before, hl.after, hl.returned⟩, rfl, hl.call⟩

/-- **Every call does what it says.** -/
lemma exec_ok (hboot : ∀ k < 2, pteValid (boot k) = false) (h : VmInv al s) (he : s.Enabled al op) :
    Ok al boot s op := by
  obtain ⟨R, h⟩ := h
  cases op with
  | setup => exact setup_ok hboot ⟨R, h⟩
  | alloc =>
    refine .of_frees h (allocPage_spec h) rfl (fun _ => id) fun a t hd hq => ?_
    cases a with
    | none =>
      refine ⟨R, by rwa [hq], map_same hd fun d _ v _ => by rw [hq], ?_⟩
      rw [hq]
      exact (Extends.refl _ 0 0 R _).frees
    | some p =>
      obtain ⟨hp, h0, a, hpm, hinv⟩ := hq
      refine ⟨_, hinv, map_same hd fun d _ v _ => by rw [hpm]; rfl, ?_⟩
      rw [hpm]
      refine fun q => iff_of_false (fun hq => hq.1 ?_) fun hq => ?_
      · by_cases hqp : q = p
        · rw [hqp, hp]
        · have h3 := hq.2
          rwa [update_of_ne hqp] at h3
      · have h3 : s.pm.maps s.dirs q = 0 := hq.2
        omega
  | insert d page la perm =>
    obtain ⟨hds, hla, hlt, h3, h4, h5⟩ := he
    obtain ⟨-, -, -, -, hv⟩ := user_indices hla
    refine .of_frees h (pageInsert_spec h hds hla (role_data h hlt h3 h4 h5)
      (fun _ _ => rfl) perm) rfl (fun _ => id) fun a t hd hq => ?_
    obtain ⟨R', h6, -, h7⟩ := hq
    cases a with
    | ok _ => exact ⟨R', h6, map_insert hd hds hv hlt h7, h7.frees⟩
    | error e => exact ⟨R', h6, map_same hd h7.2.leaf, h7.2.frees⟩
  | remove d la =>
    refine .of_frees h (pageRemove_spec h he.1 he.2) rfl (fun _ => id) fun a t hd hq => ?_
    obtain ⟨R', h6, h7⟩ := hq
    refine ⟨R', h6, (map_clears hd h7).trans ?_, h7.frees⟩
    funext q
    by_cases hq : q = (d, la / pgSize)
    · rw [hq, update_self, if_pos ⟨rfl, le_rfl, Nat.lt_succ_self _⟩]
    · rw [update_of_ne hq, if_neg]
      rintro ⟨rfl, h7, h8⟩
      exact hq (Prod.ext rfl (by omega))
  | allocAt d la perm =>
    obtain ⟨-, -, -, -, hv⟩ := user_indices he.2
    refine .of_frees h (pgdirAllocPage_spec h he.1 he.2 perm) rfl (fun _ => id) fun a t hd hq => ?_
    obtain ⟨R', h6, h7⟩ := hq
    refine ⟨R', h6, ?_⟩
    cases a with
    | some p => exact ⟨map_insert hd he.1 hv ((h.lt p).mp (by rw [h7.1]; simp)) h7.2, h7.2.frees⟩
    | none => exact ⟨map_same hd h7.2.1, h7.1⟩
  | unmap d start stop =>
    obtain ⟨hds, hs, hst, hu⟩ := he
    refine .of_frees h (unmapRange_spec h hds hs hst hu) rfl (fun _ => id) fun a t hd hq => ?_
    obtain ⟨R', h6, h7⟩ := hq
    exact ⟨R', h6, map_clears hd h7, h7.frees⟩
  | copy dst src start stop =>
    obtain ⟨hdst, hsrc, hs, hst, hu⟩ := he
    obtain ⟨h1, h2⟩ := run_spec (o := .code) (copyRange_spec h hdst hsrc hs hst hu)
    refine ⟨fun e hp => ⟨h1 e hp, dst, src, start, stop, rfl⟩, fun out t ht => ?_,
      fun out t ht => ?_, fun out t ht => ?_⟩
    · obtain ⟨a, -, hd, -, ⟨R', h6⟩, -⟩ := h2 out t ht
      exact ⟨R', by rwa [hd]⟩
    · obtain ⟨a, rfl, hd, -, -, h6⟩ := h2 out t ht
      cases a with
      | ok _ => exact map_copies hd hdst hsrc h6
      | error e =>
        obtain ⟨-, hi, h7, h8⟩ := h6
        exact ⟨hi, h7, map_copies hd hdst hsrc h8⟩
    · obtain ⟨a, rfl, hd, h6, -⟩ := h2 out t ht
      have ht' : (⟨t.pm, s.dirs⟩ : Vm A) = t := by rw [← hd]
      rw [← ht']
      exact copyLinks_lift h6

/-- **The invariant over a run.** -/
lemma VmRun.inv (hboot : ∀ k < 2, pteValid (boot k) = false) (h0 : s.Initial al)
    (hr : VmRun al boot s t) : VmInv al t := by
  induction hr with
  | refl => exact h0.inv
  | tail _ hstep ih =>
    obtain ⟨op, out, he, e⟩ := hstep
    exact (exec_ok hboot ih he).inv out _ e

end Lemmas

/-- **Page tables refine a finite map, with exact reference counts.** In every state of every run,
`get_page` looks the map up, the count of every table is one, and the count of every other frame is
the number of entries that map it. Every call changes the map as its name says, and returns a frame
exactly if its last entry has gone. The only assertion that can fail is that of `copy_range` for the
frame of a copy. -/
theorem page_tables_refine_map (al : FrameAllocator A) {boot : ℕ → BitVec 64}
    (hboot : ∀ k < 2, pteValid (boot k) = false) {s t : Vm A} (h0 : s.Initial al)
    (hr : VmRun al boot s t) :
    (∀ d ∈ t.dirs, ∀ la < userTop, getPage al d la t.pm = .ok (t.map (d, la / pgSize), t.pm)) ∧
    Counted al t.dirs t.pm ∧
    ∀ op, t.Enabled al op →
      (∀ e, t.exec al boot op = .error e → e = .noPage ∧ ∃ dst src start stop,
        op = .copy dst src start stop) ∧
      ∀ out u, t.exec al boot op = .ok (out, u) →
        MapStep op out t.map u.map ∧ LinkStep al t u op := by
  have hinv := hr.inv hboot h0
  refine ⟨fun d hd la hla => getPage_map hinv hd hla, ?_, fun op he => ?_⟩
  · obtain ⟨R, h⟩ := hinv
    exact h.counted
  · have hok := exec_ok hboot hinv he
    exact ⟨hok.panic, fun out u e => ⟨hok.map out u e, hok.link out u e⟩⟩

/-! ## A small memory -/

lemma lt_eight_of_free (a : Finset ℕ) (p : ℕ) (hp : p ∈ a.filter (· < 8)) :
    p < 8 := (mem_filter.mp hp).2

/-- An allocator of eight frames. -/
def eightFrames : FrameAllocator (Finset ℕ) where
  free a := a.filter (· < 8)
  alloc a := ((List.range 8).find? (· ∈ a)).map fun p => (p, a.erase p)
  release p a := insert p a
  npage := 8
  npage_le := by decide
  lt_npage := lt_eight_of_free
  alloc_free a p a' h := by
    obtain ⟨q, hq, he⟩ := Option.map_eq_some_iff.mp h
    cases he
    have hmem : p ∈ a := by simpa using List.find?_some hq
    have hlt : p < 8 := List.mem_range.mp (List.mem_of_find?_eq_some hq)
    exact ⟨mem_filter.mpr ⟨hmem, hlt⟩, filter_erase ..⟩
  release_free a p hp _ := by rw [filter_insert, if_pos hp]

/-- One directory, four free frames and three others. -/
def eightVm : Vm (Finset ℕ) where
  pm := { mem := fun _ _ => 0, ref := fun _ => 0, alloc := {2, 3, 4, 5}, freed := [] }
  dirs := {1}

lemma eightVm_initial : eightVm.Initial eightFrames where
  dirs d hd := by
    obtain rfl := mem_singleton.mp hd
    decide
  empty _ _ _ _ := pteValid_zero
  ref _ _ := rfl

/-- The frame 6 is mapped at the start of the user's memory. -/
def eightInsert : PtOp := .insert 1 6 userBase (pteU ||| pteW)

lemma eightInsert_enabled : eightVm.Enabled eightFrames eightInsert := by
  refine ⟨by decide, by decide, by decide, by decide, by decide, ?_⟩
  rintro ⟨d, -, i, -, hv, -⟩
  have h0 : pteValid 0 = true := hv
  rw [pteValid_zero] at h0
  cases h0

/-- The state after that. -/
lemma eightInsert_run : ∃ u, VmRun eightFrames (fun _ => 0) eightVm u ∧ u.dirs = {1} ∧
    pteValid (u.pm.mem 1 0) = true ∧ ptePpn (u.pm.mem 1 0) = 2 := by
  have h : ((eightVm.exec eightFrames (fun _ => 0) eightInsert).toOption.map fun r =>
      (r.2.dirs, pteValid (r.2.pm.mem 1 0), ptePpn (r.2.pm.mem 1 0))) = some ({1}, true, 2) := by
    decide +kernel
  obtain ⟨⟨out, u⟩, he, h⟩ := exists_ok h
  simp only [Prod.mk.injEq] at h
  exact ⟨u, .single ⟨eightInsert, out, eightInsert_enabled, he⟩, h⟩

/-- **A table has a reference count of one although no entry of the last level maps it.** -/
theorem table_count_is_not_entries : ∃ u p, VmRun eightFrames (fun _ => 0) eightVm u ∧
    p < eightFrames.npage ∧ u.pm.ref p = 1 ∧ u.pm.maps u.dirs p = 0 := by
  obtain ⟨u, hr, hd, h1, h2⟩ := eightInsert_run
  obtain ⟨R, hinv⟩ := hr.inv (fun _ _ => pteValid_zero) eightVm_initial
  have htable : u.pm.IsTable u.dirs 2 := ⟨1, by rw [hd]; decide, 0, by decide, h1, .inl h2⟩
  exact ⟨u, 2, hr, by decide, hinv.counted.tables 2 htable⟩

/-- A page is mapped, and removing it removes it from the map. -/
theorem page_tables_refine_map_remove : ∃ u, VmRun eightFrames (fun _ => 0) eightVm u ∧
    Counted eightFrames u.dirs u.pm ∧
    ∀ out w, u.exec eightFrames (fun _ => 0) (.remove 1 userBase) = .ok (out, w) →
      w.map = update u.map (1, userBase / pgSize) none := by
  obtain ⟨u, hr, hd, -⟩ := eightInsert_run
  obtain ⟨-, h1, h2⟩ := page_tables_refine_map eightFrames (fun _ _ => pteValid_zero)
    eightVm_initial hr
  have he : u.Enabled eightFrames (.remove 1 userBase) := ⟨by rw [hd]; decide, by decide⟩
  exact ⟨u, hr, h1, fun out w e => ((h2 _ he).2 out w e).1⟩

end Ucore
