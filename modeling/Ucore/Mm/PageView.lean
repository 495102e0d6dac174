import Ucore.Lib.Bytes
import Ucore.Mm.PageTableRun
import Ucore.Mm.VmmSpec

set_option autoImplicit false

/-!
# What a program sees

The page tables of an address space and the frames that they map, as rights and bytes by address. In
an address space whose frames nothing else maps, a write to a frame changes one page.

## Main definitions

* `PmState.page`, `PmState.byte` — the rights and the words of a page; the rights and the byte
  at an address.
* `PmState.writeFrame` — bytes are written to a frame.
* `PmState.Private`, `Owns` — an address space with frames of its own.

## Main results

* `Inserts.newPage` — a page that was not mapped gets a frame.
* `setupPgdir_post` — a new directory.
* `Owns.allocPage`, `Owns.writeFrame` — `pgdir_alloc_page` and writes to a frame.
-/

namespace Ucore

open Function Comp

section View

variable {A : Type} {al : FrameAllocator A} {D : Finset ℕ} {R R' : ℕ → Role} {s t : PmState A}
  {d v p a : ℕ}

/-! ## Pages and bytes -/

/-- **A page of an address space**: its rights and its words, if it is mapped. -/
def PmState.page (s : PmState A) (d v : ℕ) : Option (BitVec 10 × (ℕ → BitVec 64)) :=
  if pteValid (s.leaf d v) then some (pteFlags (s.leaf d v), s.mem (ptePpn (s.leaf d v))) else none

lemma PmState.page_of_valid (h : pteValid (s.leaf d v) = true) :
    s.page d v = some (pteFlags (s.leaf d v), s.mem (ptePpn (s.leaf d v))) := if_pos h

lemma PmState.page_of_invalid (h : pteValid (s.leaf d v) = false) : s.page d v = none := by
  rw [PmState.page, h]
  rfl

lemma PmState.page_eq_none : s.page d v = none ↔ pteValid (s.leaf d v) = false := by
  unfold PmState.page
  split_ifs with h
  · simp [h]
  · simpa using h

/-- **The rights and the byte at an address**, if its page is mapped. -/
def PmState.byte (s : PmState A) (d a : ℕ) : Option (BitVec 10 × UInt8) :=
  (s.page d (a / pgSize)).map fun q => (q.1, Bytes.ofWords q.2 (a % pgSize))

lemma PmState.byte_congr (h : t.page d (a / pgSize) = s.page d (a / pgSize)) :
    t.byte d a = s.byte d a := by
  rw [PmState.byte, PmState.byte, h]

lemma PmState.byte_eq_none : s.byte d a = none ↔ pteValid (s.leaf d (a / pgSize)) = false := by
  rw [PmState.byte, Option.map_eq_none_iff, PmState.page_eq_none]

/-- The bytes of an address space, with zeros where no page is mapped. -/
def PmState.userMem (s : PmState A) (d : ℕ) : Bytes := fun a => ((s.byte d a).map Prod.snd).getD 0

/-- Write `len` bytes of `src`, from the offset `o` on, to the offset `off` of a frame. -/
def PmState.writeFrame (s : PmState A) (p off : ℕ) (src : Bytes) (o len : ℕ) : PmState A :=
  s.setFrame p ((Bytes.ofWords (s.mem p)).copy off src o len).toWords

/-- The page `v` lies in an area. -/
def MmStruct.Covers (mm : MmStruct) (v : ℕ) : Prop :=
  ∃ vma ∈ mm.mmapList, vma.Has (v * pgSize)

instance (mm : MmStruct) (v : ℕ) : Decidable (mm.Covers v) :=
  inferInstanceAs (Decidable (∃ vma ∈ mm.mmapList, _))

/-! ## Address spaces with frames of their own -/

/-- **Frames of its own**: each frame that the address space uses is used once. -/
def PmState.Private (s : PmState A) (D : Finset ℕ) (d : ℕ) : Prop :=
  ∀ v < userPages, pteValid (s.leaf d v) = true → s.maps D (ptePpn (s.leaf d v)) = 1

/-- No two pages have the same frame. -/
lemma PmState.Private.injective (h : s.Private D d) (hd : d ∈ D) {v v' : ℕ} (hv : v < userPages)
    (hv' : v' < userPages) (h1 : pteValid (s.leaf d v) = true) (h2 : pteValid (s.leaf d v') = true)
    (he : ptePpn (s.leaf d v) = ptePpn (s.leaf d v')) : v = v' := by
  have hone := h v hv h1
  have hmem : ∀ u < userPages, pteValid (s.leaf d u) = true →
    ptePpn (s.leaf d u) = ptePpn (s.leaf d v) →
      (d, u) ∈ (D ×ˢ Finset.range userPages).filter fun q => mapsTo (ptePpn (s.leaf d v))
      (s.leaf q.1 q.2) := by
    intro u hu hvalid hppn
    refine Finset.mem_filter.mpr ⟨Finset.mem_product.mpr ⟨hd, Finset.mem_range.mpr hu⟩, ?_⟩
    simp [mapsTo, hvalid, hppn]
  have heq := Finset.card_le_one.mp hone.le _ (hmem v hv h1 rfl) _ (hmem v' hv' h2 he.symm)
  exact congrArg Prod.snd heq

/-- **A page that was not mapped gets a frame** that was free. The other pages are as before, and
the frames are still the address space's own. -/
lemma Inserts.newPage (h : PtInv al D (fun _ => 0) R s) (hown : s.Private D d) (hd : d ∈ D)
    (hv : v < userPages) (hold : pteValid (s.leaf d v) = false) (hp : R p = .free)
    {type : BitVec 10} (hins : Inserts D R s d v (pteCreate p type) R' t) :
    t.leaf d v = pteCreate p type ∧ ptePpn (t.leaf d v) = p ∧ t.Private D d ∧
      (∀ v' < userPages, v' ≠ v → t.leaf d v' = s.leaf d v') ∧
      ∀ v' < userPages, v' ≠ v → t.page d v' = s.page d v' := by
  have hlt : p < al.npage := (h.lt p).mp (by rw [hp]; simp)
  have hppn : ptePpn (pteCreate p type) = p := ptePpn_create (lt_of_lt_of_le hlt al.npage_le) _
  obtain ⟨-, hmaps⟩ := hins.of_invalid hd hv hold
  have hself : t.leaf d v = pteCreate p type := by rw [hins.leaf d hd v hv, update_self]
  have hother : ∀ v' < userPages, v' ≠ v → t.leaf d v' = s.leaf d v' := by
    intro v' hv' hne
    rw [hins.leaf d hd v' hv', update_of_ne fun e => hne (congrArg Prod.snd e)]
  refine ⟨hself, by rw [hself, hppn], fun v' hv' hvalid => ?_, hother, fun v' hv' hne => ?_⟩
  · by_cases hne : v' = v
    · subst hne
      rw [hself, hppn, hmaps, h.maps_of_ne_data (by rw [hp]; simp), mapsTo, pteValid_create, hppn]
      simp
    · rw [hother v' hv' hne] at hvalid ⊢
      have hdata := h.data_of_leaf hd hv' hvalid
      have hqp : p ≠ ptePpn (s.leaf d v') := by
        rintro rfl
        rw [hp] at hdata
        cases hdata
      rw [hmaps, hown v' hv' hvalid, mapsTo, hppn, decide_eq_false hqp]
      simp
  · unfold PmState.page
    rw [hother v' hv' hne]
    split_ifs with h1
    · rw [hins.mem _ (by rw [h.data_of_leaf hd hv' h1]; exact Role.offPath_data ..)]
    · rfl

/-- **An address space with frames of its own**, in a system of page tables. -/
structure Owns (al : FrameAllocator A) (D : Finset ℕ) (d : ℕ) (s : PmState A) : Prop where
  inv : VmInv al ⟨s, D⟩
  dir : d ∈ D
  own : s.Private D d

/-- **`setup_pgdir`**: no frame, or a directory without entries for the user. -/
lemma setupPgdir_post {boot : ℕ → BitVec 64} (h : VmInv al ⟨s, D⟩)
    (hboot : ∀ k < 2, pteValid (boot k) = false) :
    Post (setupPgdir al boot) s fun o t => ∀ p, o = some p → p ∉ D ∧ Owns al (insert p D) p t ∧
      ∀ v < userPages, t.leaf p v = 0 := by
  obtain ⟨R, h⟩ := h
  intro o t e
  cases ha : al.alloc s.alloc with
  | none =>
    unfold setupPgdir allocPage at e
    simp only [bind_apply, read_apply, ha] at e
    cases e
    exact fun p hp => nomatch hp
  | some r =>
    obtain ⟨p, a⟩ := r
    obtain ⟨hp, h0, h1⟩ := h.alloc ha
    obtain ⟨h2, h3⟩ := h1.addDir (update_self ..) h0 hboot
    unfold setupPgdir allocPage at e
    simp only [bind_apply, read_apply, ha] at e
    cases e
    rintro q ⟨⟩
    refine ⟨?_, ⟨⟨_, h2⟩, Finset.mem_insert_self p D, fun v hv hvalid => ?_⟩, h3⟩
    · rw [← h.dirs, hp]
      simp
    · rw [h3 v hv, pteValid_zero] at hvalid
      cases hvalid

/-- **`pgdir_alloc_page`** for a page that is not mapped. -/
lemma Owns.allocPage {E : PtPanic → Prop} {la : ℕ} (h : Owns al D d s) (hla : la < userTop)
    (hold : pteValid (s.leaf d (la / pgSize)) = false) (perm : BitVec 10) :
    Spec (pgdirAllocPage al d la perm) s E fun o t => ∀ p, o = some p →
      Owns al D d t ∧ t.leaf d (la / pgSize) = pteCreate p (pteV ||| perm) ∧
      ptePpn (t.leaf d (la / pgSize)) = p ∧
      (∀ v < userPages, v ≠ la / pgSize → t.leaf d v = s.leaf d v) ∧
      ∀ v < userPages, v ≠ la / pgSize → t.page d v = s.page d v := by
  obtain ⟨R, hinv⟩ := h.inv
  obtain ⟨-, -, -, -, hv⟩ := user_indices hla
  refine (pgdirAllocPage_spec hinv h.dir hla perm).mono fun o t ht p ho => ?_
  subst ho
  obtain ⟨R', hinv', hp, hins⟩ := ht
  obtain ⟨h1, h2, h3, h4, h5⟩ := hins.newPage hinv h.own h.dir hv hold hp
  exact ⟨⟨⟨R', hinv'⟩, h.dir, h3⟩, h1, h2, h4, h5⟩

/-- **A write to the frame of a page** changes the bytes of that page. -/
lemma Owns.writeFrame (h : Owns al D d s) (hv : v < userPages)
    (hvalid : pteValid (s.leaf d v) = true) (off : ℕ) (src : Bytes) (o len : ℕ) :
    Owns al D d (s.writeFrame (ptePpn (s.leaf d v)) off src o len) ∧
      (∀ v' < userPages, (s.writeFrame (ptePpn (s.leaf d v)) off src o len).leaf d v' =
        s.leaf d v') ∧
      (∀ v' < userPages, v' ≠ v →
        (s.writeFrame (ptePpn (s.leaf d v)) off src o len).page d v' = s.page d v') ∧
      (s.writeFrame (ptePpn (s.leaf d v)) off src o len).page d v = some (pteFlags (s.leaf d v),
        ((Bytes.ofWords (s.mem (ptePpn (s.leaf d v)))).copy off src o len).toWords) := by
  obtain ⟨R, hinv⟩ := h.inv
  have hdata : R (ptePpn (s.leaf d v)) = .data := hinv.data_of_leaf h.dir hv hvalid
  set p := ptePpn (s.leaf d v) with hp
  set words := ((Bytes.ofWords (s.mem p)).copy off src o len).toWords with hw
  have hleaf : ∀ d' ∈ D, ∀ v' < userPages, (s.setFrame p words).leaf d' v' = s.leaf d' v' :=
    fun d' hd' v' hv' => hinv.leaf_setFrame hdata words hd' hv'
  change Owns al D d (s.setFrame p words) ∧
    (∀ v' < userPages, (s.setFrame p words).leaf d v' = s.leaf d v') ∧
    (∀ v' < userPages, v' ≠ v → (s.setFrame p words).page d v' = s.page d v') ∧
    (s.setFrame p words).page d v = some (pteFlags (s.leaf d v), words)
  refine ⟨⟨⟨R, hinv.setFrame hdata words⟩, h.dir, fun v' hv' hvalid' => ?_⟩, hleaf d h.dir,
    fun v' hv' hne => ?_, ?_⟩
  · rw [hleaf d h.dir v' hv'] at hvalid' ⊢
    rw [Forest.maps_congr hleaf]
    exact h.own v' hv' hvalid'
  · unfold PmState.page
    rw [hleaf d h.dir v' hv']
    split_ifs with h1
    · have hne' : ptePpn (s.leaf d v') ≠ p := fun e =>
        hne (h.own.injective h.dir hv' hv h1 hvalid e)
      change some (_, update s.mem p words _) = _
      rw [update_of_ne hne']
    · rfl
  · rw [PmState.page_of_valid (by rw [hleaf d h.dir v hv]; exact hvalid), hleaf d h.dir v hv, ← hp]
    change some (_, update s.mem p words p) = _
    rw [update_self]

end View

end Ucore
