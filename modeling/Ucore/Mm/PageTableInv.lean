import Ucore.Lib.Count
import Ucore.Mm.PageTable

set_option autoImplicit false

/-!
# The shape of page tables

Every frame has a role: it is free, a page directory, a table at a certain place below a directory,
or any other frame. That each entry points to a frame of the right role makes the tables a forest: a
table belongs to one place only, so writing an entry changes one translation and no other.

## Main definitions

* `Role`, `Forest` — the roles of the frames.
* `PmState.leaf` — the entry for a page of the user's address space, found by a walk.
* `PmState.maps` — the number of valid entries that map a frame.
* `PtInv` — the invariant: the shape, and the reference counts.
* `Counted` — the reference counts are exact, said without roles.

## Main results

* `Forest.leaf_setEntry`, `Forest.maps_setEntry` — writing an entry.
* `PtInv.setEntry`, `PtInv.link`, `PtInv.release` — the changes that the functions make.
-/

namespace Ucore

open Function Finset BitVec

/-! ## Entries -/

section Entries

variable {p : ℕ}

lemma pteValid_zero : pteValid 0 = false := by decide

@[simp] lemma pteValid_create (p : ℕ) (type : BitVec 10) : pteValid (pteCreate p type) = true := by
  simp [pteValid, pteCreate, pteV]

lemma pteFlags_create (p : ℕ) (type : BitVec 10) : pteFlags (pteCreate p type) = pteV ||| type := by
  unfold pteFlags pteCreate
  ext i hi
  simp

lemma getLsbD_mask {i : ℕ} (hi : i < 64) : (0x3ff#64).getLsbD i = decide (i < 10) := by
  revert i
  decide

/-- Clearing the flags of an entry. -/
lemma pte_mask (w : BitVec 64) : w &&& ~~~0x3ff#64 = (w >>> 10) <<< 10 := by
  apply eq_of_getLsbD_eq
  intro i hi
  rw [getLsbD_and, getLsbD_not, getLsbD_mask hi, getLsbD_shiftLeft,
    getLsbD_ushiftRight]
  by_cases h : i < 10
  · simp [h]
  · rw [show 10 + (i - 10) = i by omega]
    simp [h, hi]

lemma ptePpn_eq {w : BitVec 64} (hw : w.toNat < 2 ^ 62) : ptePpn w = w.toNat / 1024 := by
  unfold ptePpn
  rw [pte_mask]
  simp only [toNat_ushiftRight, toNat_shiftLeft, Nat.shiftRight_eq_div_pow,
    Nat.shiftLeft_eq]
  omega

lemma toNat_pteCreate (hp : p < 2 ^ 44) (type : BitVec 10) :
    (pteCreate p type).toNat = p * 1024 + (pteV ||| type).toNat := by
  unfold pteCreate
  rw [toNat_or, toNat_shiftLeft, toNat_ofNat, toNat_setWidth]
  have hf : (pteV ||| type).toNat < 2 ^ 10 := (pteV ||| type).isLt
  rw [Nat.mod_eq_of_lt (by omega : p < 2 ^ 64), Nat.mod_eq_of_lt (by rw [Nat.shiftLeft_eq]; omega),
    Nat.mod_eq_of_lt (by omega), ← Nat.shiftLeft_add_eq_or_of_lt hf, Nat.shiftLeft_eq]

/-- **An entry points to the frame for which it has been made.** -/
lemma ptePpn_create (hp : p < 2 ^ 44) (type : BitVec 10) : ptePpn (pteCreate p type) = p := by
  have h := toNat_pteCreate hp type
  rw [ptePpn_eq (by omega), h]
  omega

end Entries

/-! ## Roles -/

/-- The role of a frame. Frames outside the managed memory have none. -/
inductive Role
  | free
  | dir
  /-- the table to which the entry `i` of the directory `d` points -/
  | pd0 (d i : ℕ)
  /-- the table to which the entry `j` of the table `pd0 d i` points -/
  | pt (d i j : ℕ)
  | data
  | outside
  deriving DecidableEq

/-- The role of the frame to which the entry `k` of a frame `f` with this role points, if it is an
entry for the user's address space. -/
def Role.child (f k : ℕ) : Role → Option Role
  | .dir => if k < 2 then some (.pd0 f k) else none
  | .pd0 d i => if k < 512 then some (.pt d i k) else none
  | .pt _ _ _ => if k < 512 then some .data else none
  | _ => none

/-- A table below a directory. -/
def Role.isTable : Role → Bool
  | .pd0 _ _ | .pt _ _ _ => true
  | _ => false

/-- The role of a table on the walk from `d` to the entry for the page `v`. -/
def Role.OnPath (d v : ℕ) (r : Role) : Prop :=
  r = .pd0 d (v / 2 ^ 18) ∨ r = .pt d (v / 2 ^ 18) (v / 512 % 512)

/-- The role of a frame `q` that is in use and not on the walk from `d` to the entry for the page
`v`. -/
def Role.OffPath (d v q : ℕ) (r : Role) : Prop := r ≠ .free ∧ (r = .dir → q ≠ d) ∧ ¬r.OnPath d v

section Child

variable {f k d i j v : ℕ} {r r' : Role}

lemma Role.offPath_data (d v q : ℕ) : Role.data.OffPath d v q := by
  refine ⟨by simp, by simp, ?_⟩
  rintro (h | h) <;> cases h

lemma Role.OnPath.isTable (h : r.OnPath d v) : r.isTable = true := by
  rcases h with rfl | rfl <;> rfl

lemma Role.child_pd0 (h : r.child f k = some (.pd0 d i)) : r = .dir ∧ f = d ∧ k = i ∧ i < 2 := by
  cases r with
  | dir =>
    rw [Role.child] at h
    split_ifs at h with hk
    cases h
    exact ⟨rfl, rfl, rfl, hk⟩
  | pd0 d' i' =>
    rw [Role.child] at h
    split_ifs at h
    cases h
  | pt d' i' j' =>
    rw [Role.child] at h
    split_ifs at h
    cases h
  | free | data | outside => cases h

lemma Role.child_pt (h : r.child f k = some (.pt d i j)) : r = .pd0 d i ∧ k = j ∧ j < 512 := by
  cases r with
  | dir =>
    rw [Role.child] at h
    split_ifs at h
    cases h
  | pd0 d' i' =>
    rw [Role.child] at h
    split_ifs at h with hk
    cases h
    exact ⟨rfl, rfl, hk⟩
  | pt d' i' j' =>
    rw [Role.child] at h
    split_ifs at h
    cases h
  | free | data | outside => cases h

/-- An entry of a table points to a table or maps a frame, and only those of the last level do
that. -/
lemma Role.child_cases (h : r.child f k = some r') :
    r'.isTable = true ∨ r' = .data ∧ k < 512 ∧ ∃ d i j, r = .pt d i j := by
  cases r with
  | dir =>
    rw [Role.child] at h
    split_ifs at h
    cases h
    exact .inl rfl
  | pd0 d' i' =>
    rw [Role.child] at h
    split_ifs at h
    cases h
    exact .inl rfl
  | pt d' i' j' =>
    rw [Role.child] at h
    split_ifs at h with hk
    cases h
    exact .inr ⟨rfl, hk, d', i', j', rfl⟩
  | free | data | outside => cases h

lemma Role.OffPath.child_ne {q : ℕ} (h : r.OffPath d v q) (hr' : r'.OnPath d v) :
    r.child q k ≠ some r' := by
  intro hr
  rcases hr' with rfl | rfl
  · obtain ⟨h1, h2, -⟩ := Role.child_pd0 hr
    exact h.2.1 h1 h2
  · obtain ⟨h1, -⟩ := Role.child_pt hr
    exact h.2.2 (.inl h1)

lemma Role.child_ne_free (h : r.child f k = some r') : r' ≠ .free := by
  rintro rfl
  rcases Role.child_cases h with h1 | ⟨h1, -⟩
  · cases h1
  · cases h1

end Child

/-! ## The walk -/

variable {R : ℕ → Role} {D : Finset ℕ} {d i j k f g p v : ℕ} {w : BitVec 64}

section Walk

variable {A : Type}

/-- The pages of the user's address space. -/
def userPages : ℕ := 2 ^ 19

/-- The page with the indices `i`, `j` and `k`. -/
def pageOf (i j k : ℕ) : ℕ := i * 2 ^ 18 + j * 512 + k

/-- **The entry for the page `v`** below the directory `d`; it is zero if there is no table for
it. -/
def PmState.leaf (s : PmState A) (d v : ℕ) : BitVec 64 :=
  if pteValid (s.mem d (v / 2 ^ 18)) then
    if pteValid (s.mem (ptePpn (s.mem d (v / 2 ^ 18))) (v / 512 % 512)) then
      s.mem (ptePpn (s.mem (ptePpn (s.mem d (v / 2 ^ 18))) (v / 512 % 512))) (v % 512)
    else 0
  else 0

/-- The entry is valid and maps the frame `p`. -/
def mapsTo (p : ℕ) (w : BitVec 64) : Bool := pteValid w && decide (ptePpn w = p)

/-- **The number of valid entries that map a frame**, over the directories of `D`. -/
def PmState.maps (s : PmState A) (D : Finset ℕ) (p : ℕ) : ℕ :=
  ((D ×ˢ Finset.range userPages).filter fun q => mapsTo p (s.leaf q.1 q.2)).card

variable {s : PmState A} {al : FrameAllocator A}

lemma PmState.setEntry_mem {f k f' k' : ℕ} {w : BitVec 64} (h : (f', k') ≠ (f, k)) :
    (s.setEntry f k w).mem f' k' = s.mem f' k' := by
  change update s.mem f (update (s.mem f) k w) f' k' = _
  by_cases hf : f' = f
  · subst hf
    rw [update_self, update_of_ne (fun e => h (by rw [e]))]
  · rw [update_of_ne hf]

lemma PmState.setEntry_self (s : PmState A) (f k : ℕ) (w : BitVec 64) :
    (s.setEntry f k w).mem f k = w := by
  change update s.mem f (update (s.mem f) k w) f k = w
  rw [update_self, update_self]

/-- **The roles fit the memory.** -/
structure Forest (al : FrameAllocator A) (D : Finset ℕ) (R : ℕ → Role) (s : PmState A) : Prop where
  free : ∀ p, R p = .free ↔ p ∈ al.free s.alloc
  lt : ∀ p, R p ≠ .outside ↔ p < al.npage
  dirs : ∀ d, R d = .dir ↔ d ∈ D
  points : ∀ f k r, (R f).child f k = some r → pteValid (s.mem f k) = true →
    R (ptePpn (s.mem f k)) = r
  parent : ∀ p, (R p).isTable = true → ∃ f k, (R f).child f k = some (R p) ∧
    pteValid (s.mem f k) = true ∧ ptePpn (s.mem f k) = p

lemma pageOf_lt {i j k : ℕ} (hi : i < 2) (hj : j < 512) (hk : k < 512) :
    pageOf i j k < userPages := by
  unfold pageOf userPages
  omega

lemma pageOf_split {v : ℕ} (hv : v < userPages) :
    v / 2 ^ 18 < 2 ∧ v / 512 % 512 < 512 ∧ v % 512 < 512 ∧
      pageOf (v / 2 ^ 18) (v / 512 % 512) (v % 512) = v := by
  unfold pageOf
  unfold userPages at hv
  omega

lemma pageOf_indices {i j k : ℕ} (hj : j < 512) (hk : k < 512) :
    pageOf i j k / 2 ^ 18 = i ∧ pageOf i j k / 512 % 512 = j ∧ pageOf i j k % 512 = k := by
  unfold pageOf
  omega

namespace Forest

variable {al : FrameAllocator A} {s : PmState A}

section

variable (h : Forest al D R s)
include h

lemma pd0_entry (hf : R f = .pd0 d i) :
    R d = .dir ∧ i < 2 ∧ pteValid (s.mem d i) = true ∧ ptePpn (s.mem d i) = f := by
  obtain ⟨f', k, h1, h2, h3⟩ := h.parent f (by rw [hf]; rfl)
  rw [hf] at h1
  obtain ⟨h4, rfl, rfl, h5⟩ := Role.child_pd0 h1
  exact ⟨h4, h5, h2, h3⟩

lemma pt_entry (hg : R g = .pt d i j) :
    ∃ f, R f = .pd0 d i ∧ j < 512 ∧ pteValid (s.mem f j) = true ∧ ptePpn (s.mem f j) = g := by
  obtain ⟨f, k, h1, h2, h3⟩ := h.parent g (by rw [hg]; rfl)
  rw [hg] at h1
  obtain ⟨h4, rfl, h5⟩ := Role.child_pt h1
  exact ⟨f, h4, h5, h2, h3⟩

lemma root (hd : d ∈ D) (hi : i < 2) (hv : pteValid (s.mem d i) = true) :
    R (ptePpn (s.mem d i)) = .pd0 d i :=
  h.points d i _ (by rw [(h.dirs d).mpr hd]; exact if_pos hi) hv

lemma mid (hf : R f = .pd0 d i) (hj : j < 512) (hv : pteValid (s.mem f j) = true) :
    R (ptePpn (s.mem f j)) = .pt d i j :=
  h.points f j _ (by rw [hf]; exact if_pos hj) hv

lemma leaf_data (hg : R g = .pt d i j) (hk : k < 512) (hv : pteValid (s.mem g k) = true) :
    R (ptePpn (s.mem g k)) = .data :=
  h.points g k _ (by rw [hg]; exact if_pos hk) hv

/-- **An entry for a table is valid iff there is the table.** -/
lemma valid_iff_table {r : Role} (hr : (R f).child f k = some r) (hrt : r.isTable = true) :
    pteValid (s.mem f k) = true ↔ ∃ g, R g = r := by
  refine ⟨fun hv => ⟨_, h.points f k r hr hv⟩, ?_⟩
  rintro ⟨g, hg⟩
  cases r with
  | pd0 d i =>
    obtain ⟨-, rfl, rfl, -⟩ := Role.child_pd0 hr
    exact (h.pd0_entry hg).2.2.1
  | pt d i j =>
    obtain ⟨hf, rfl, -⟩ := Role.child_pt hr
    obtain ⟨f', hf', -, hv, -⟩ := h.pt_entry hg
    rwa [← (h.pd0_entry hf).2.2.2, (h.pd0_entry hf').2.2.2]
  | free | dir | data | outside => cases hrt

/-- **The walk to an entry of a table.** -/
lemma leaf_pt (hg : R g = .pt d i j) (hk : k < 512) :
    d ∈ D ∧ i < 2 ∧ j < 512 ∧ s.leaf d (pageOf i j k) = s.mem g k := by
  obtain ⟨f, hf, hj, h1, h2⟩ := h.pt_entry hg
  obtain ⟨hd, hi, h3, h4⟩ := h.pd0_entry hf
  refine ⟨(h.dirs d).mp hd, hi, hj, ?_⟩
  obtain ⟨e1, e2, e3⟩ := pageOf_indices (i := i) hj hk
  rw [PmState.leaf, e1, e2, e3, if_pos h3, h4, if_pos h1, h2]

/-- **Walks end nowhere or at an entry of a table.** -/
lemma leaf_cases (hd : d ∈ D) (hv : v < userPages) :
    (s.leaf d v = 0 ∧ ∀ g, R g ≠ .pt d (v / 2 ^ 18) (v / 512 % 512)) ∨
      ∃ g, R g = .pt d (v / 2 ^ 18) (v / 512 % 512) ∧ s.leaf d v = s.mem g (v % 512) := by
  obtain ⟨hi, hj, -, -⟩ := pageOf_split hv
  by_cases h1 : pteValid (s.mem d (v / 2 ^ 18)) = true
  · by_cases h2 : pteValid (s.mem (ptePpn (s.mem d (v / 2 ^ 18))) (v / 512 % 512)) = true
    · refine .inr ⟨_, h.mid (h.root hd hi h1) hj h2, ?_⟩
      rw [PmState.leaf, if_pos h1, if_pos h2]
    · refine .inl ⟨by rw [PmState.leaf, if_pos h1, if_neg h2], fun g hg => h2 ?_⟩
      obtain ⟨f, hf, -, h3, -⟩ := h.pt_entry hg
      rw [(h.pd0_entry hf).2.2.2]
      exact h3
  · refine .inl ⟨by rw [PmState.leaf, if_neg h1], fun g hg => h1 ?_⟩
    obtain ⟨f, hf, -, -, -⟩ := h.pt_entry hg
    exact (h.pd0_entry hf).2.2.1

lemma data_of_leaf (hd : d ∈ D) (hv : v < userPages) (hw : pteValid (s.leaf d v) = true) :
    R (ptePpn (s.leaf d v)) = .data := by
  obtain ⟨-, -, hk, -⟩ := pageOf_split hv
  rcases h.leaf_cases hd hv with ⟨h1, -⟩ | ⟨g, hg, h1⟩
  · rw [h1, pteValid_zero] at hw
    cases hw
  · rw [h1] at hw ⊢
    exact h.leaf_data hg hk hw

end

/-- Nothing maps a frame iff no walk ends at an entry for it. -/
lemma maps_eq_zero : s.maps D p = 0 ↔
    ∀ d ∈ D, ∀ v < userPages, pteValid (s.leaf d v) = true → ptePpn (s.leaf d v) ≠ p := by
  unfold PmState.maps
  rw [card_eq_zero, filter_eq_empty_iff]
  constructor
  · intro h d hd v hv hw he
    refine h (x := (d, v)) (mem_product.mpr ⟨hd, mem_range.mpr hv⟩) ?_
    simp [mapsTo, hw, he]
  · rintro h ⟨d, v⟩ hq hm
    obtain ⟨hd, hv⟩ := mem_product.mp hq
    simp only [mapsTo, Bool.and_eq_true, decide_eq_true_eq] at hm
    exact h d hd v (mem_range.mp hv) hm.1 hm.2

lemma maps_of_ne_data (h : Forest al D R s) (hp : R p ≠ .data) : s.maps D p = 0 := by
  rw [maps_eq_zero]
  rintro d hd v hv hw rfl
  exact hp (h.data_of_leaf hd hv hw)

/-! ## Writing an entry -/

/-- Writing an entry of the last level keeps the shape. -/
lemma setEntry (h : Forest al D R s) (hg : R g = .pt d i j)
    (hw : k < 512 → pteValid w = true → R (ptePpn w) = .data) :
    Forest al D R (s.setEntry g k w) := by
  have hmem : ∀ f' k', (f', k') ≠ (g, k) → (s.setEntry g k w).mem f' k' = s.mem f' k' :=
    fun f' k' => PmState.setEntry_mem
  have hself := s.setEntry_self g k w
  refine { h with points := fun f' k' r hr hv => ?_, parent := fun p hp => ?_ }
  · by_cases he : (f', k') = (g, k)
    · cases he
      rw [hself] at hv ⊢
      rw [hg, Role.child] at hr
      split_ifs at hr with hk
      cases hr
      exact hw hk hv
    · rw [hmem f' k' he] at hv ⊢
      exact h.points f' k' r hr hv
  · obtain ⟨f', k', h1, h2, h3⟩ := h.parent p hp
    have hne : (f', k') ≠ (g, k) := by
      rintro ⟨⟩
      rw [hg, Role.child] at h1
      split_ifs at h1
      rw [← Option.some.inj h1] at hp
      cases hp
    refine ⟨f', k', h1, ?_⟩
    rw [hmem f' k' hne]
    exact ⟨h2, h3⟩

variable {t : PmState A}

/-- **A change of one entry changes one walk.** -/
lemma leaf_write {R' : ℕ → Role} (h : Forest al D R s) (h' : Forest al D R' t)
    (hg : R g = .pt d i j) (hk : k < 512) (hpt : ∀ g' d i j, R' g' = .pt d i j ↔ R g' = .pt d i j)
    (hmem : ∀ f' k', (f', k') ≠ (g, k) → t.mem f' k' = s.mem f' k') {d' v' : ℕ} (hd' : d' ∈ D)
    (hv' : v' < userPages) : t.leaf d' v' =
      update (fun q : ℕ × ℕ => s.leaf q.1 q.2) (d, pageOf i j k) (t.mem g k) (d', v') := by
  have hg' : R' g = .pt d i j := (hpt g d i j).mpr hg
  by_cases he : (d', v') = (d, pageOf i j k)
  · cases he
    rw [update_self, (h'.leaf_pt hg' hk).2.2.2]
  · rw [update_of_ne he]
    obtain ⟨-, -, hk', hsplit⟩ := pageOf_split hv'
    rcases h.leaf_cases hd' hv' with ⟨h1, h2⟩ | ⟨b, hb, h1⟩
    · rcases h'.leaf_cases hd' hv' with ⟨h3, -⟩ | ⟨b, hb, -⟩
      · rw [h3, h1]
      · exact absurd ((hpt _ _ _ _).mp hb) (h2 b)
    · have h3 := (h'.leaf_pt ((hpt _ _ _ _).mpr hb) hk').2.2.2
      rw [hsplit] at h3
      rw [h3, h1]
      refine hmem b _ fun e => he ?_
      cases e
      rw [hg] at hb
      cases hb
      rw [hsplit]

lemma leaf_setEntry (h : Forest al D R s) (hg : R g = .pt d i j) (hk : k < 512)
    (hw : pteValid w = true → R (ptePpn w) = .data) {d' v' : ℕ} (hd' : d' ∈ D)
    (hv' : v' < userPages) : (s.setEntry g k w).leaf d' v' =
      update (fun q : ℕ × ℕ => s.leaf q.1 q.2) (d, pageOf i j k) w (d', v') := by
  have hself := s.setEntry_self g k w
  rw [h.leaf_write (h.setEntry hg fun _ => hw) hg hk (fun _ _ _ _ => Iff.rfl)
    (fun f' k' hne => PmState.setEntry_mem hne) hd' hv', hself]

/-- **The number of entries after one walk has changed.** -/
lemma maps_update (hd : d ∈ D) (hv : v < userPages)
    (hleaf : ∀ d' ∈ D, ∀ v' < userPages, t.leaf d' v' = update (fun q : ℕ × ℕ => s.leaf q.1 q.2)
      (d, v) w (d', v'))
    (p : ℕ) :
    (t.maps D p : ℤ) = s.maps D p - (mapsTo p (s.leaf d v)).toNat + (mapsTo p w).toNat := by
  have hmem : (d, v) ∈ D ×ˢ Finset.range userPages :=
    mem_product.mpr ⟨hd, mem_range.mpr hv⟩
  have hcongr : ((D ×ˢ Finset.range userPages).filter fun q => mapsTo p (t.leaf q.1 q.2)) =
      (D ×ˢ Finset.range userPages).filter fun q =>
        mapsTo p (update (fun q : ℕ × ℕ => s.leaf q.1 q.2) (d, v) w q) := by
    refine filter_congr fun q hq => ?_
    obtain ⟨hq1, hq2⟩ := mem_product.mp hq
    rw [hleaf q.1 hq1 q.2 (mem_range.mp hq2)]
  unfold PmState.maps
  rw [hcongr, card_filter_update _ (fun q : ℕ × ℕ => s.leaf q.1 q.2) (mapsTo p) hmem w]

section

variable (h : Forest al D R s)
include h

lemma maps_setEntry (hg : R g = .pt d i j) (hk : k < 512)
    (hw : pteValid w = true → R (ptePpn w) = .data) (p : ℕ) : ((s.setEntry g k w).maps D p : ℤ) =
      s.maps D p - (mapsTo p (s.mem g k)).toNat + (mapsTo p w).toNat := by
  obtain ⟨hd, hi, hj, hleaf⟩ := h.leaf_pt hg hk
  rw [maps_update hd (pageOf_lt hi hj hk) (fun d' hd' v' hv' => h.leaf_setEntry hg hk hw hd' hv') p,
    hleaf]

/-! ## Frames change their roles -/

variable {r : Role}

/-- No entry points to a frame that nothing maps. -/
lemma not_pointed (hp : R p = .data) (h0 : s.maps D p = 0) (hr : (R f).child f k = some r)
    (hv : pteValid (s.mem f k) = true) : ptePpn (s.mem f k) ≠ p := by
  intro he
  have hrole := h.points f k r hr hv
  rw [he, hp] at hrole
  subst hrole
  rcases Role.child_cases hr with h1 | ⟨-, hk, d, i, j, hf⟩
  · cases h1
  · obtain ⟨hd, hi, hj, hleaf⟩ := h.leaf_pt hf hk
    refine maps_eq_zero.mp h0 d hd (pageOf i j k) (pageOf_lt hi hj hk) ?_ ?_
    · rwa [hleaf]
    · rwa [hleaf]

/-- **A frame gets another role**: one to which no entry points and which is not a table, before and
after. If it becomes a directory, its entries are empty. -/
lemma relabel {D' : Finset ℕ} (hp : p < al.npage) (hold : (R p).isTable = false)
    (hchild : ∀ k, (R p).child p k = none)
    (hnot : ∀ f k r, (R f).child f k = some r → pteValid (s.mem f k) = true →
      ptePpn (s.mem f k) ≠ p)
    (hr : r.isTable = false) (hout : r ≠ .outside)
    (hempty : ∀ k r', r.child p k = some r' → pteValid (t.mem p k) = false)
    (hmem : ∀ f, f ≠ p → t.mem f = s.mem f)
    (hfree : ∀ q, update R p r q = .free ↔ q ∈ al.free t.alloc)
    (hdirs : ∀ d, update R p r d = .dir ↔ d ∈ D') : Forest al D' (update R p r) t := by
  have hne : ∀ q, q ≠ p → update R p r q = R q := fun q hq => update_of_ne hq ..
  have hparent : ∀ f k r', (R f).child f k = some r' → f ≠ p := by
    rintro f k r' h1 rfl
    rw [hchild k] at h1
    cases h1
  refine ⟨hfree, fun q => ?_, hdirs, fun f k r' h1 hv => ?_, fun q hq => ?_⟩
  · by_cases hqp : q = p
    · rw [hqp, update_self]
      exact iff_of_true hout hp
    · rw [hne q hqp]
      exact h.lt q
  · by_cases hfp : f = p
    · subst hfp
      rw [update_self] at h1
      rw [hempty k r' h1] at hv
      cases hv
    · rw [hne f hfp] at h1
      rw [hmem f hfp] at hv ⊢
      rw [hne _ (hnot f k r' h1 hv)]
      exact h.points f k r' h1 hv
  · have hqp : q ≠ p := by
      rintro rfl
      rw [update_self, hr] at hq
      cases hq
    rw [hne q hqp] at hq ⊢
    obtain ⟨f, k, h1, h2, h3⟩ := h.parent q hq
    have hfp := hparent f k _ h1
    refine ⟨f, k, ?_, ?_⟩
    · rw [hne f hfp]
      exact h1
    · rw [hmem f hfp]
      exact ⟨h2, h3⟩

/-- `alloc_page` returns a frame, which is then neither free nor a table. -/
lemma alloc {a : A} (ha : al.alloc s.alloc = some (p, a)) :
    R p = .free ∧ Forest al D (update R p .data) { s with alloc := a } := by
  obtain ⟨hp, hfree⟩ := al.alloc_free _ _ _ ha
  have hRp := (h.free p).mpr hp
  refine ⟨hRp, h.relabel (al.lt_npage _ _ hp) (by rw [hRp]; rfl) (fun k => by rw [hRp]; rfl)
    (fun f k r hr hv he => ?_) rfl (by simp) (fun k r' hr => by cases hr) (fun _ _ => rfl)
    (fun q => ?_) fun d => ?_⟩
  · have hq := h.points f k r hr hv
    rw [he, hRp] at hq
    exact Role.child_ne_free hr hq.symm
  · rw [hfree, mem_erase, ← h.free]
    by_cases hq : q = p <;> simp [hq]
  · rw [← h.dirs]
    by_cases hd : d = p
    · subst hd
      simp [hRp]
    · rw [update_of_ne hd]

/-- `free_page` of a frame that nothing maps. -/
lemma release (hp : R p = .data) (h0 : s.maps D p = 0) :
    Forest al D (update R p .free) (s.release al p) := by
  have hnot : p ∉ al.free s.alloc := by
    rw [← h.free, hp]
    simp
  have hlt : p < al.npage := (h.lt p).mp (by rw [hp]; simp)
  refine h.relabel hlt (by rw [hp]; rfl) (fun k => by rw [hp]; rfl)
    (fun f k r hr hv => h.not_pointed hp h0 hr hv) rfl (by simp) (fun k r' hr => by cases hr)
    (fun _ _ => rfl) (fun q => ?_) fun d => ?_
  · change _ ↔ q ∈ al.free (al.release p s.alloc)
    rw [al.release_free _ _ hlt hnot, mem_insert, ← h.free]
    by_cases hq : q = p <;> simp [hq]
  · rw [← h.dirs]
    by_cases hd : d = p
    · subst hd
      simp [hp]
    · rw [update_of_ne hd]

/-- Writing into a frame that is not a table. -/
lemma setFrame (hp : R p = .data) (words : ℕ → BitVec 64) : Forest al D R (s.setFrame p words) := by
  have hmem : ∀ f k r, (R f).child f k = some r → (s.setFrame p words).mem f k = s.mem f k := by
    intro f k r hr
    have hfp : f ≠ p := by
      rintro rfl
      rw [hp] at hr
      cases hr
    change update s.mem p words f k = _
    rw [update_of_ne hfp]
  refine ⟨h.free, h.lt, h.dirs, fun f k r hr hv => ?_, fun q hq => ?_⟩
  · rw [hmem f k r hr] at hv ⊢
    exact h.points f k r hr hv
  · obtain ⟨f, k, h1, h2, h3⟩ := h.parent q hq
    refine ⟨f, k, h1, ?_⟩
    rw [hmem f k _ h1]
    exact ⟨h2, h3⟩

/-- **Two states with the same tables** have the same walks. -/
lemma leaf_congr {R' : ℕ → Role} (h' : Forest al D R' t)
    (hpt : ∀ g d i j, R g = .pt d i j → R' g = .pt d i j ∧ ∀ k < 512, t.mem g k = s.mem g k)
    (hnew : ∀ g d i j, R' g = .pt d i j → R g = .pt d i j ∨ ∀ k < 512, t.mem g k = 0) (hd : d ∈ D)
    (hv : v < userPages) : t.leaf d v = s.leaf d v := by
  obtain ⟨-, -, hk, hsplit⟩ := pageOf_split hv
  rcases h.leaf_cases hd hv with ⟨h1, h2⟩ | ⟨g, hg, h1⟩
  · rcases h'.leaf_cases hd hv with ⟨h3, -⟩ | ⟨g, hg, h3⟩
    · rw [h1, h3]
    · rcases hnew g _ _ _ hg with h4 | h4
      · exact absurd h4 (h2 g)
      · rw [h1, h3, h4 _ hk]
  · obtain ⟨hg', hmem⟩ := hpt g _ _ _ hg
    have h3 := (h'.leaf_pt hg' hk).2.2.2
    rw [hsplit] at h3
    rw [h1, h3, hmem _ hk]

/-- Writing into a frame that is not a table changes no walk. -/
lemma leaf_setFrame (hp : R p = .data) (words : ℕ → BitVec 64) (hd : d ∈ D) (hv : v < userPages) :
    (s.setFrame p words).leaf d v = s.leaf d v := by
  refine h.leaf_congr (h.setFrame hp words) (fun g d i j hg => ⟨hg, fun k _ => ?_⟩)
    (fun g d i j hg => .inl hg) hd hv
  have hgp : g ≠ p := by
    rintro rfl
    rw [hp] at hg
    cases hg
  change update s.mem p words g k = _
  rw [update_of_ne hgp]

/-- **A frame that nothing maps becomes an empty table.** -/
lemma link (hp : R p = .data) (h0 : s.maps D p = 0) (hr : (R f).child f k = some r)
    (hrt : r.isTable = true) (hv : pteValid (s.mem f k) = false) {type : BitVec 10}
    (ht : t.alloc = s.alloc) (hself : ∀ k', t.mem p k' = 0) (hentry : t.mem f k = pteCreate p type)
    (hmem : ∀ f' k', f' ≠ p → (f', k') ≠ (f, k) → t.mem f' k' = s.mem f' k') :
    Forest al D (update R p r) t := by
  have hfp : f ≠ p := by
    rintro rfl
    rw [hp] at hr
    cases hr
  have hlt : p < al.npage := (h.lt p).mp (by rw [hp]; simp)
  have hppn : ptePpn (pteCreate p type) = p :=
    ptePpn_create (lt_of_lt_of_le hlt al.npage_le) type
  have hold : ∀ q, q ≠ p → update R p r q = R q := fun q hq => update_of_ne hq ..
  have hrole : ∀ a : Role, a = .free ∨ a = .dir ∨ a = .outside → r ≠ a := by
    rintro a (rfl | rfl | rfl) rfl <;> cases hrt
  refine ⟨fun q => ?_, fun q => ?_, fun d => ?_, fun f' k' r' hr' hv' => ?_, fun q hq => ?_⟩
  · rw [ht, ← h.free]
    by_cases hq : q = p
    · subst hq
      rw [update_self, hp]
      exact iff_of_false (hrole _ (.inl rfl)) (by simp)
    · rw [hold q hq]
  · by_cases hqp : q = p
    · rw [hqp, update_self]
      exact iff_of_true (hrole _ (.inr (.inr rfl))) hlt
    · rw [hold q hqp]
      exact h.lt q
  · rw [← h.dirs]
    by_cases hd : d = p
    · subst hd
      rw [update_self, hp]
      exact iff_of_false (hrole _ (.inr (.inl rfl))) (by simp)
    · rw [hold d hd]
  · by_cases hf' : f' = p
    · subst hf'
      rw [hself, pteValid_zero] at hv'
      cases hv'
    · rw [hold f' hf'] at hr'
      by_cases he : (f', k') = (f, k)
      · cases he
        rw [hentry, hppn, update_self]
        exact Option.some.inj (hr.symm.trans hr')
      · rw [hmem f' k' hf' he] at hv' ⊢
        rw [hold _ (h.not_pointed hp h0 hr' hv')]
        exact h.points f' k' r' hr' hv'
  · by_cases hqp : q = p
    · subst hqp
      refine ⟨f, k, ?_, ?_, ?_⟩
      · rw [hold f hfp, update_self]
        exact hr
      · rw [hentry, pteValid_create]
      · rw [hentry, hppn]
    · rw [hold q hqp] at hq ⊢
      obtain ⟨f', k', h1, h2, h3⟩ := h.parent q hq
      have hf' : f' ≠ p := by
        rintro rfl
        rw [hp] at h1
        cases h1
      have he : (f', k') ≠ (f, k) := by
        rintro ⟨⟩
        rw [hv] at h2
        cases h2
      refine ⟨f', k', ?_, ?_⟩
      · rw [hold f' hf']
        exact h1
      · rw [hmem f' k' hf' he]
        exact ⟨h2, h3⟩

/-- An empty table changes no walk. -/
lemma leaf_link (hp : R p = .data) (hr : (R f).child f k = some r) (hrt : r.isTable = true)
    (h' : Forest al D (update R p r) t) (hself : ∀ k', t.mem p k' = 0)
    (hmem : ∀ f' k', f' ≠ p → (f', k') ≠ (f, k) → t.mem f' k' = s.mem f' k') (hd : d ∈ D)
    (hv : v < userPages) : t.leaf d v = s.leaf d v := by
  refine h.leaf_congr h' (fun g d i j hg => ?_) (fun g d i j hg => ?_) hd hv
  · have hgp : g ≠ p := by
      rintro rfl
      rw [hp] at hg
      cases hg
    refine ⟨by rw [update_of_ne hgp, hg], fun k' hk' => hmem g k' hgp ?_⟩
    rintro ⟨⟩
    rw [hg, Role.child, if_pos hk'] at hr
    rw [← Option.some.inj hr] at hrt
    cases hrt
  · by_cases hgp : g = p
    · exact .inr fun k' _ => hgp ▸ hself k'
    · rw [update_of_ne hgp] at hg
      exact .inl hg

end

lemma maps_congr (h : ∀ d ∈ D, ∀ v < userPages, t.leaf d v = s.leaf d v) (p : ℕ) :
    t.maps D p = s.maps D p := by
  unfold PmState.maps
  congr 1
  refine filter_congr fun q hq => ?_
  obtain ⟨hd, hv⟩ := mem_product.mp hq
  rw [h _ hd _ (mem_range.mp hv)]

end Forest

/-! ## The reference counts -/

/-- **The invariant**: the shape, reference counts that differ by `δ` from the numbers of entries,
and the counts of the tables. Between calls `δ` is zero. -/
structure PtInv (al : FrameAllocator A) (D : Finset ℕ) (δ : ℕ → ℤ) (R : ℕ → Role) (s : PmState A) :
    Prop extends Forest al D R s where
  refs : ∀ p, R p = .data ∨ R p = .free ∨ R p = .dir → s.ref p = s.maps D p + δ p
  tables : ∀ p, (R p).isTable = true → s.ref p = 1

namespace PtInv

variable {al : FrameAllocator A} {s : PmState A} {δ e : ℕ → ℤ}

section

variable (h : PtInv al D δ R s)
include h

/-- A reference count changes. -/
lemma setRef (hp : R p = .data) (n : ℤ) (hδ : ∀ q, e q = δ q + if q = p then n - s.ref p else 0) :
    PtInv al D e R (s.setRef p n) := by
  refine ⟨{ h.toForest with }, fun q hq => ?_, fun q hq => ?_⟩
  swap
  · change update s.ref p n q = 1
    rw [update_of_ne]
    · exact h.tables q hq
    · rintro rfl
      rw [hp] at hq
      cases hq
  change update s.ref p n q = s.maps D q + e q
  rw [hδ]
  have hold := h.refs q hq
  by_cases hqp : q = p
  · subst hqp
    rw [update_self, if_pos rfl]
    omega
  · rw [update_of_ne hqp, if_neg hqp]
    omega

/-- An entry of the last level is written. -/
lemma setEntry (hg : R g = .pt d i j) (hk : k < 512) (hw : pteValid w = true → R (ptePpn w) = .data)
    (hδ : ∀ q, e q = δ q + (mapsTo q (s.mem g k)).toNat - (mapsTo q w).toNat) :
    PtInv al D e R (s.setEntry g k w) := by
  refine ⟨h.toForest.setEntry hg fun _ => hw, fun q hq => ?_, h.tables⟩
  have hmaps := h.toForest.maps_setEntry hg hk hw q
  have hold := h.refs q hq
  rw [hδ]
  change s.ref q = _
  omega

/-- `alloc_page` returns a frame that nothing maps. -/
lemma alloc {a : A} (ha : al.alloc s.alloc = some (p, a)) :
    R p = .free ∧ s.maps D p = 0 ∧ PtInv al D δ (update R p .data) { s with alloc := a } := by
  obtain ⟨hp, hforest⟩ := h.toForest.alloc ha
  refine ⟨hp, h.maps_of_ne_data (by rw [hp]; simp), hforest, fun q hq => ?_, fun q hq => ?_⟩
  · refine h.refs q ?_
    by_cases hqp : q = p
    · rw [hqp]
      exact .inr (.inl hp)
    · rwa [update_of_ne hqp] at hq
  · by_cases hqp : q = p
    · rw [hqp, update_self] at hq
      cases hq
    · rw [update_of_ne hqp] at hq
      exact h.tables q hq

/-- `free_page` of a frame that nothing maps. -/
lemma release (hp : R p = .data) (h0 : s.maps D p = 0) (hδ : δ p = 0) :
    PtInv al D δ (update R p .free) (s.release al p) := by
  refine ⟨h.toForest.release hp h0, fun q hq => ?_, fun q hq => ?_⟩
  · change update s.ref p 0 q = s.maps D q + δ q
    by_cases hqp : q = p
    · subst hqp
      rw [update_self, h0, hδ]
      rfl
    · rw [update_of_ne hqp] at hq ⊢
      exact h.refs q hq
  · change update s.ref p 0 q = 1
    by_cases hqp : q = p
    · rw [hqp, update_self] at hq
      cases hq
    · rw [update_of_ne hqp] at hq ⊢
      exact h.tables q hq

lemma setFrame (hp : R p = .data) (words : ℕ → BitVec 64) :
    PtInv al D δ R (s.setFrame p words) := by
  refine ⟨h.toForest.setFrame hp words, fun q hq => ?_, h.tables⟩
  rw [Forest.maps_congr fun d hd v hv => h.leaf_setFrame hp words hd hv]
  exact h.refs q hq

/-- A frame that nothing maps becomes an empty table. -/
lemma link (hp : R p = .data) (h0 : s.maps D p = 0) {r : Role} (hr : (R f).child f k = some r)
    (hrt : r.isTable = true) (hv : pteValid (s.mem f k) = false) {t : PmState A} {type : BitVec 10}
    (ht : t.alloc = s.alloc) (hone : t.ref p = 1) (href : ∀ q, q ≠ p → t.ref q = s.ref q)
    (hself : ∀ k', t.mem p k' = 0) (hentry : t.mem f k = pteCreate p type)
    (hmem : ∀ f' k', f' ≠ p → (f', k') ≠ (f, k) → t.mem f' k' = s.mem f' k') :
    PtInv al D δ (update R p r) t ∧ ∀ d ∈ D, ∀ v < userPages, t.leaf d v = s.leaf d v := by
  have hforest := h.toForest.link hp h0 hr hrt hv ht hself hentry hmem
  have hleaf : ∀ d ∈ D, ∀ v < userPages, t.leaf d v = s.leaf d v := fun d hd v hv =>
    h.leaf_link hp hr hrt hforest hself hmem hd hv
  refine ⟨⟨hforest, fun q hq => ?_, fun q hq => ?_⟩, hleaf⟩
  · have hqp : q ≠ p := by
      rintro rfl
      rw [update_self] at hq
      rcases hq with rfl | rfl | rfl <;> cases hrt
    rw [update_of_ne hqp] at hq
    rw [href q hqp, Forest.maps_congr hleaf]
    exact h.refs q hq
  · by_cases hqp : q = p
    · rw [hqp, hone]
    · rw [update_of_ne hqp] at hq
      rw [href q hqp]
      exact h.tables q hq

end

end PtInv

/-! ## The counts without the roles -/

/-- A table below a directory of `D`. -/
def PmState.IsTable (s : PmState A) (D : Finset ℕ) (p : ℕ) : Prop :=
  ∃ d ∈ D, ∃ i < 2, pteValid (s.mem d i) = true ∧ (ptePpn (s.mem d i) = p ∨
    ∃ j < 512, pteValid (s.mem (ptePpn (s.mem d i)) j) = true ∧
      ptePpn (s.mem (ptePpn (s.mem d i)) j) = p)

/-- The tables are those that a walk can meet. -/
lemma Forest.isTable_iff (h : Forest al D R s) (p : ℕ) : s.IsTable D p ↔ (R p).isTable = true := by
  constructor
  · rintro ⟨d, hd, i, hi, hv, rfl | ⟨j, hj, hv', rfl⟩⟩
    · rw [h.root hd hi hv]
      rfl
    · rw [h.mid (h.root hd hi hv) hj hv']
      rfl
  · intro hp
    cases hr : R p with
    | pd0 d i =>
      obtain ⟨hd, hi, h1, h2⟩ := h.pd0_entry hr
      exact ⟨d, (h.dirs d).mp hd, i, hi, h1, .inl h2⟩
    | pt d i j =>
      obtain ⟨f, hf, hj, h1, h2⟩ := h.pt_entry hr
      obtain ⟨hd, hi, h3, h4⟩ := h.pd0_entry hf
      refine ⟨d, (h.dirs d).mp hd, i, hi, h3, .inr ⟨j, hj, ?_⟩⟩
      rw [h4]
      exact ⟨h1, h2⟩
    | free | dir | data | outside => rw [hr] at hp; cases hp

/-- **The reference counts are exact**: the count of a table is one, and the count of any other
frame is the number of entries that map it. -/
structure Counted (al : FrameAllocator A) (D : Finset ℕ) (s : PmState A) : Prop where
  frames : ∀ p < al.npage, ¬s.IsTable D p → s.ref p = s.maps D p
  tables : ∀ p, s.IsTable D p → s.ref p = 1 ∧ s.maps D p = 0

lemma PtInv.counted (h : PtInv al D (fun _ => 0) R s) : Counted al D s := by
  constructor
  · intro p hp hnot
    rw [h.toForest.isTable_iff] at hnot
    refine (h.refs p ?_).trans (Int.add_zero _)
    have hin := (h.lt p).mpr hp
    cases hr : R p with
    | free => exact .inr (.inl rfl)
    | dir => exact .inr (.inr rfl)
    | data => exact .inl rfl
    | pd0 d i | pt d i j => rw [hr] at hnot; exact absurd rfl hnot
    | outside => exact absurd hr hin
  · intro p hp
    rw [h.toForest.isTable_iff] at hp
    refine ⟨h.tables p hp, h.maps_of_ne_data fun hr => ?_⟩
    rw [hr] at hp
    cases hp

end Walk

end Ucore
