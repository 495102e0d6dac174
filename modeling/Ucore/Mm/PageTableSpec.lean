import Ucore.Mm.PageTableInv

set_option autoImplicit false

/-!
# The functions on page tables keep the invariant

## Main definitions

* `Extends` — tables may have been added, and no walk has changed.
* `Frees` — the frames that are returned are those whose last entry has gone.
* `Unmaps` — entries have been cleared.

## Main results

* `getPte_spec`, `pageRemovePte_spec`, `pageInsert_spec`,
  `pgdirAllocPage_spec`, `unmapRange_spec`, `copyRange_spec` — the functions.
-/

namespace Ucore

open Function Comp List PmState

/-! ## Addresses -/

lemma user_indices {la : ℕ} (h : la < userTop) : pdx1 la < 2 ∧ pdx0 la < 512 ∧ ptx la < 512 ∧
    pageOf (pdx1 la) (pdx0 la) (ptx la) = la / pgSize ∧ la / pgSize < userPages := by
  unfold userTop at h
  unfold pdx1 pdx0 ptx pageOf pgSize userPages
  omega

lemma page_indices {la : ℕ} (h : la < userTop) : la / pgSize / 2 ^ 18 = pdx1 la ∧
    la / pgSize / 512 % 512 = pdx0 la ∧ la / pgSize % 512 = ptx la := by
  unfold userTop at h
  unfold pdx1 pdx0 ptx pgSize
  omega

section Spec

variable {A : Type} {al : FrameAllocator A} {D : Finset ℕ} {R R' R'' : ℕ → Role} {s t u : PmState A}
  {δ : ℕ → ℤ} {E : PtPanic → Prop} {d i j k f g p la v : ℕ}

/-! ## Finding an entry -/

lemma getTable_false (f k : ℕ) (s : PmState A) : getTable al f k false s =
    .ok (if pteValid (s.mem f k) then some (ptePpn (s.mem f k)) else none, s) := by
  rw [getTable, read_bind_apply]
  split_ifs <;> first | rfl | contradiction

/-- **The walk without creation.** -/
lemma getPte_false (h : Forest al D R s) (hd : d ∈ D) (hla : la < userTop) :
    (getPte al d la false s = .ok (none, s) ∧ (∀ g, R g ≠ .pt d (pdx1 la) (pdx0 la)) ∧
      s.leaf d (la / pgSize) = 0) ∨
    ∃ g, R g = .pt d (pdx1 la) (pdx0 la) ∧ getPte al d la false s = .ok (some (g, ptx la), s) ∧
      s.leaf d (la / pgSize) = s.mem g (ptx la) := by
  obtain ⟨hi, hj, hk, hpage, hv⟩ := user_indices hla
  have hnone : (∀ g, R g ≠ .pt d (pdx1 la) (pdx0 la)) → s.leaf d (la / pgSize) = 0 := by
    intro hno
    obtain ⟨e1, e2, -⟩ := page_indices hla
    rcases h.leaf_cases hd hv with ⟨h1, -⟩ | ⟨g, hg, -⟩
    · exact h1
    · rw [e1, e2] at hg
      exact absurd hg (hno g)
  have hsome : ∀ g, R g = .pt d (pdx1 la) (pdx0 la) →
      s.leaf d (la / pgSize) = s.mem g (ptx la) := by
    intro g hg
    rw [← hpage]
    exact (h.leaf_pt hg hk).2.2.2
  have hget : getPte al d la false s = _ := bind_of_ok (getTable_false d (pdx1 la) s) _
  by_cases h1 : pteValid (s.mem d (pdx1 la)) = true
  · rw [if_pos h1] at hget
    change _ = (getTable al _ (pdx0 la) false >>= _) s at hget
    rw [bind_apply, getTable_false] at hget
    by_cases h2 : pteValid (s.mem (ptePpn (s.mem d (pdx1 la))) (pdx0 la)) = true
    · rw [if_pos h2] at hget
      have hg := h.mid (h.root hd hi h1) hj h2
      exact .inr ⟨_, hg, hget, hsome _ hg⟩
    · rw [if_neg h2] at hget
      have hno : ∀ g, R g ≠ .pt d (pdx1 la) (pdx0 la) := fun g hg => h2 <| by
        obtain ⟨f, hf, -, h3, -⟩ := h.pt_entry hg
        rw [(h.pd0_entry hf).2.2.2]
        exact h3
      exact .inl ⟨hget, hno, hnone hno⟩
  · rw [if_neg h1] at hget
    have hno : ∀ g, R g ≠ .pt d (pdx1 la) (pdx0 la) := fun g hg => h1 <| by
      obtain ⟨f, hf, -, -, -⟩ := h.pt_entry hg
      exact (h.pd0_entry hf).2.2.1
    exact .inl ⟨hget, hno, hnone hno⟩

/-- `get_page` -/
lemma getPage_apply (h : Forest al D R s) (hd : d ∈ D) (hla : la < userTop) :
    getPage al d la s = .ok (if pteValid (s.leaf d (la / pgSize)) then
      some (ptePpn (s.leaf d (la / pgSize))) else none, s) := by
  rcases getPte_false h hd hla with ⟨hget, -, hleaf⟩ | ⟨g, -, hget, hleaf⟩
  · rw [getPage, bind_of_ok hget, hleaf, pteValid_zero]
    rfl
  · rw [getPage, bind_of_ok hget, hleaf]
    rfl

/-- **Tables may have been added** on the walk to the page `v` of `d`, and no walk has changed. -/
structure Extends (D : Finset ℕ) (d v : ℕ) (R : ℕ → Role) (s : PmState A) (R' : ℕ → Role)
    (t : PmState A) : Prop where
  roles : ∀ p, R' p = R p ∨ R p = .free ∧ (R' p).OnPath d v
  leaf : ∀ d ∈ D, ∀ v < userPages, t.leaf d v = s.leaf d v
  ref : ∀ p, R p = .data → t.ref p = s.ref p
  mem : ∀ p, (R p).OffPath d v p → t.mem p = s.mem p
  freed : t.freed = s.freed

lemma Extends.refl (D : Finset ℕ) (d v : ℕ) (R : ℕ → Role) (s : PmState A) :
    Extends D d v R s R s :=
  ⟨fun _ => .inl rfl, fun _ _ _ _ => rfl, fun _ _ => rfl, fun _ _ => rfl, rfl⟩

section

variable (h : Extends D d v R s R' t)
include h

lemma Extends.of_ne_free (hp : R p ≠ .free) : R' p = R p :=
  (h.roles p).resolve_right fun h1 => hp h1.1

lemma Extends.free_of_free (hp : R' p = .free) : R p = .free := by
  rcases h.roles p with e | e
  · rw [← e, hp]
  · exact e.1

lemma Extends.trans (h' : Extends D d v R' t R'' u) : Extends D d v R s R'' u := by
  refine ⟨fun p => ?_, fun d hd v hv => (h'.leaf d hd v hv).trans (h.leaf d hd v hv),
    fun p hp => ?_, fun p hp => ?_, h'.freed.trans h.freed⟩
  · rcases h.roles p with h1 | ⟨h1, h2⟩
    · rw [← h1]
      exact h'.roles p
    · refine .inr ⟨h1, ?_⟩
      rw [h'.of_ne_free (by rintro e; rw [e] at h2; cases h2.isTable)]
      exact h2
  · have hp' : R' p = .data := by rw [h.of_ne_free (by rw [hp]; simp), hp]
    rw [h'.ref p hp', h.ref p hp]
  · have hp' : (R' p).OffPath d v p := by rwa [h.of_ne_free hp.1]
    rw [h'.mem p hp', h.mem p hp]

lemma Extends.maps (p : ℕ) : t.maps D p = s.maps D p :=
  Forest.maps_congr h.leaf p

/-- **The frames that are returned are those whose last entry has gone.** -/
def Frees (D : Finset ℕ) (R : ℕ → Role) (s : PmState A) (R' : ℕ → Role) (t : PmState A) : Prop :=
  ∀ q, R q ≠ .free ∧ R' q = .free ↔ 0 < s.maps D q ∧ t.maps D q = 0

lemma Extends.frees : Frees D R s R' t := by
  intro q
  rw [h.maps q]
  refine iff_of_false (fun h1 => h1.1 ?_) fun h1 => by omega
  rw [← h.of_ne_free h1.1]
  exact h1.2

end

lemma allocPage_of_some {a : A} (ha : al.alloc s.alloc = some (p, a)) :
    allocPage al s = .ok (some p, { s with alloc := a }) := by
  rw [allocPage, read_bind_apply, ha]
  rfl

/-- **`alloc_page`.** -/
lemma allocPage_spec (h : PtInv al D δ R s) :
    Spec (allocPage al) s E fun o t => match o with
      | none => t = s
      | some p => R p = .free ∧ s.maps D p = 0 ∧ ∃ a, t = { s with alloc := a } ∧
          PtInv al D δ (update R p .data) t := by
  refine .read_bind ?_
  cases ha : al.alloc s.alloc with
  | none => exact .pure rfl
  | some r =>
    obtain ⟨p, a⟩ := r
    obtain ⟨h1, h2, h3⟩ := h.alloc ha
    exact .modify_bind (.pure ⟨h1, h2, a, rfl, h3⟩)

/-- The state after `get_pte` has put the frame `p` into the entry `k` of `f` as a new table. -/
def PmState.withTable (s : PmState A) (p f k : ℕ) : PmState A :=
  ((s.setRef p 1).setFrame p fun _ => 0).setEntry f k (pteCreate p (pteU ||| pteV))

lemma withTable_mem {f' k' : ℕ} (hf : f' ≠ p) (hne : (f', k') ≠ (f, k)) :
    (s.withTable p f k).mem f' k' = s.mem f' k' := by
  change update (update s.mem p fun _ => 0) f (update (update s.mem p (fun _ => 0) f) k _) f' k' = _
  by_cases hff : f' = f
  · subst hff
    rw [update_self, update_of_ne (fun e => hne (by rw [e])), update_of_ne hf]
  · rw [update_of_ne hff, update_of_ne hf]

lemma withTable_new (hf : f ≠ p) (k' : ℕ) : (s.withTable p f k).mem p k' = 0 := by
  change update (update s.mem p fun _ => 0) f _ p k' = 0
  rw [update_of_ne (Ne.symm hf), update_self]

lemma withTable_entry : (s.withTable p f k).mem f k = pteCreate p (pteU ||| pteV) := by
  change update (update s.mem p fun _ => 0) f _ f k = _
  rw [update_self, update_self]

/-- **A table is made of a free frame.** -/
lemma PtInv.newTable {r : Role} (hr : (R f).child f k = some r)
    (hrp : r.OnPath d v) (hv : pteValid (s.mem f k) = false) {a : A} (hp : R p = .free)
    (h0 : s.maps D p = 0) (hinv : PtInv al D δ (update R p .data) { s with alloc := a }) :
    PtInv al D δ (update R p r) (PmState.withTable { s with alloc := a } p f k) ∧
      Extends D d v R s (update R p r) (PmState.withTable { s with alloc := a } p f k) := by
  have hfp : f ≠ p := by
    rintro rfl
    rw [hp] at hr
    cases hr
  have hr' : (update R p .data f).child f k = some r := by rwa [update_of_ne hfp]
  have href : ∀ q, q ≠ p → (PmState.withTable { s with alloc := a } p f k).ref q = s.ref q :=
    fun q hq => update_of_ne hq ..
  obtain ⟨h1, h2⟩ := hinv.link (t := PmState.withTable { s with alloc := a } p f k)
    (update_self ..) h0 hr' hrp.isTable hv rfl (update_self ..) href (withTable_new hfp)
    withTable_entry fun f' k' hf hne => withTable_mem hf hne
  rw [update_idem] at h1
  refine ⟨h1, fun q => ?_, h2, fun q hq => href q ?_, fun q hq => ?_, rfl⟩
  · by_cases hq : q = p
    · rw [hq, update_self]
      exact .inr ⟨hp, hrp⟩
    · exact .inl (update_of_ne hq ..)
  · rintro rfl
    rw [hp] at hq
    cases hq
  · have hqp : q ≠ p := by
      rintro rfl
      exact hq.1 hp
    have hqf : q ≠ f := by
      rintro rfl
      exact hq.child_ne hrp hr
    funext k'
    exact withTable_mem hqp fun e => hqf (congrArg Prod.fst e)

/-- **One level of `get_pte`.** -/
lemma getTable_spec (h : PtInv al D δ R s) {r : Role} (hr : (R f).child f k = some r)
    (hrp : r.OnPath d v) :
    Spec (getTable al f k true) s E fun o t => ∃ R', PtInv al D δ R' t ∧
      Extends D d v R s R' t ∧ ∀ p, o = some p → R' p = r := by
  refine .read_bind (.ite (fun hv => .pure ?_) fun hv => ?_)
  · refine ⟨R, h, .refl D d v R s, fun p hp => ?_⟩
    cases hp
    exact h.points f k r hr hv
  rw [if_pos rfl]
  refine (allocPage_spec h).bind fun o t ht => ?_
  cases o with
  | none =>
    subst ht
    exact .pure ⟨R, h, .refl D d v R t, fun p hp => by cases hp⟩
  | some p =>
    obtain ⟨hp, h0, a, rfl, hinv⟩ := ht
    obtain ⟨h1, h2⟩ := PtInv.newTable hr hrp (Bool.eq_false_of_not_eq_true hv) hp h0 hinv
    refine .modify_bind (.pure ⟨update R p r, h1, h2, fun q hq => ?_⟩)
    cases hq
    exact update_self ..

/-- The tables that `get_pte` looks for. -/
lemma PtInv.walk (h : PtInv al D δ R s) (hd : d ∈ D) (hla : la < userTop) :
    (R d).child d (pdx1 la) = some (.pd0 d (pdx1 la)) ∧
      (Role.pd0 d (pdx1 la)).OnPath d (la / pgSize) ∧
      (Role.pt d (pdx1 la) (pdx0 la)).OnPath d (la / pgSize) := by
  obtain ⟨e1, e2, -⟩ := page_indices hla
  rw [Role.OnPath, Role.OnPath, e1, e2, (h.dirs d).mpr hd]
  exact ⟨if_pos (user_indices hla).1, .inl rfl, .inr rfl⟩

/-- **`get_pte` with creation**: it finds the entry, or there is no memory for a table. -/
lemma getPte_spec (h : PtInv al D δ R s) (hd : d ∈ D) (hla : la < userTop) :
    Spec (getPte al d la true) s E fun o t => ∃ R', PtInv al D δ R' t ∧
      Extends D d (la / pgSize) R s R' t ∧ ∀ g k, o = some (g, k) → R' g = .pt d (pdx1 la)
      (pdx0 la) ∧ k = ptx la := by
  obtain ⟨-, hj, -⟩ := user_indices hla
  obtain ⟨hroot, hpath, hpath'⟩ := h.walk hd hla
  refine (getTable_spec h hroot hpath).bind fun o t ht => ?_
  obtain ⟨R', h1, h2, h3⟩ := ht
  cases o with
  | none => exact .pure ⟨R', h1, h2, fun g k e => by cases e⟩
  | some f =>
    have hmid : (R' f).child f (pdx0 la) = some (.pt d (pdx1 la) (pdx0 la)) := by
      rw [h3 f rfl]
      exact if_pos hj
    refine (getTable_spec h1 hmid hpath').bind fun o u hu => ?_
    obtain ⟨R'', h4, h5, h6⟩ := hu
    cases o with
    | none => exact .pure ⟨R'', h4, h2.trans h5, fun g k e => by cases e⟩
    | some g =>
      refine .pure ⟨R'', h4, h2.trans h5, fun g' k e => ?_⟩
      cases e
      exact ⟨h6 g rfl, rfl⟩

/-! ## Clearing an entry -/

/-- **Entries have been cleared.** -/
structure Unmaps (D : Finset ℕ) (R : ℕ → Role) (s : PmState A) (R' : ℕ → Role) (t : PmState A) :
    Prop where
  roles : ∀ q, R' q = R q ∨ R q = .data ∧ R' q = .free
  frees : Frees D R s R' t
  less : ∀ q, t.maps D q ≤ s.maps D q
  freed : ∃ L, t.freed = s.freed ++ L ∧ (L.map Prod.fst).Nodup ∧
    ∀ q, q ∈ L.map Prod.fst ↔ R q ≠ .free ∧ R' q = .free
  mem : ∀ f, (∀ d i j, R f ≠ .pt d i j) → t.mem f = s.mem f

lemma Unmaps.refl (D : Finset ℕ) (R : ℕ → Role) (s : PmState A) : Unmaps D R s R s := by
  refine ⟨fun _ => .inl rfl, fun q => ?_, fun _ => le_rfl, ⟨[], by simp, nodup_nil, fun q => ?_⟩,
    fun _ _ => rfl⟩
  · constructor
    · exact fun h => absurd h.2 h.1
    · intro h
      omega
  · simp only [map_nil, not_mem_nil, false_iff, not_and]
    exact fun h => h

lemma Unmaps.of_ne_data (h : Unmaps D R s R' t) (hp : R p ≠ .data) : R' p = R p :=
  (h.roles p).resolve_right fun h1 => hp h1.1

lemma Unmaps.pt_iff (h : Unmaps D R s R' t) (g d i j : ℕ) : R' g = .pt d i j ↔ R g = .pt d i j := by
  rcases h.roles g with e | ⟨e1, e2⟩
  · rw [e]
  · rw [e1, e2]
    simp

lemma Unmaps.trans (h : Unmaps D R s R' t) (h' : Unmaps D R' t R'' u) : Unmaps D R s R'' u := by
  have hstay : ∀ q, R' q = .free → R'' q = .free := fun q hq => by
    rw [h'.of_ne_data (by rw [hq]; simp), hq]
  have hback : ∀ q, R'' q = .free → R' q = .free ∨ R' q = .data := by
    intro q hq
    rcases h'.roles q with h1 | h1
    · exact .inl (h1 ▸ hq)
    · exact .inr h1.1
  have hsplit : ∀ q, R q ≠ .free ∧ R'' q = .free ↔
      (R q ≠ .free ∧ R' q = .free) ∨ (R' q ≠ .free ∧ R'' q = .free) := by
    intro q
    constructor
    · rintro ⟨h1, h2⟩
      by_cases h3 : R' q = .free
      · exact .inl ⟨h1, h3⟩
      · exact .inr ⟨h3, h2⟩
    · rintro (⟨h1, h2⟩ | ⟨h1, h2⟩)
      · exact ⟨h1, hstay q h2⟩
      · refine ⟨fun h3 => h1 ?_, h2⟩
        rw [h.of_ne_data (by rw [h3]; simp), h3]
  refine ⟨fun q => ?_, fun q => ?_, fun q => (h'.less q).trans (h.less q), ?_, fun f hf => ?_⟩
  · rcases h.roles q with h1 | h1
    · rw [← h1]
      exact h'.roles q
    · exact .inr ⟨h1.1, hstay q h1.2⟩
  · rw [hsplit, h.frees q, h'.frees q]
    have h1 := h.less q
    have h2 := h'.less q
    omega
  · obtain ⟨L, h1, h2, h3⟩ := h.freed
    obtain ⟨L', h4, h5, h6⟩ := h'.freed
    refine ⟨L ++ L', by rw [h4, h1, append_assoc], ?_, fun q => ?_⟩
    · rw [map_append]
      refine nodup_append.mpr ⟨h2, h5, ?_⟩
      rintro q hq _ hq' rfl
      exact ((h6 q).mp hq').1 ((h3 q).mp hq).2
    · rw [map_append, mem_append, h3, h6, hsplit]
  · rw [h'.mem f ?_, h.mem f hf]
    intro d i j e
    rcases h.roles f with h1 | h1
    · exact hf d i j (h1 ▸ e)
    · rw [h1.2] at e
      cases e

/-- An entry after it has been cleared. -/
def cleared (w : BitVec 64) : BitVec 64 := if pteValid w then 0 else w

lemma cleared_valid (w : BitVec 64) : pteValid (cleared w) = false := by
  unfold cleared
  split_ifs with h
  · exact pteValid_zero
  · exact Bool.eq_false_of_not_eq_true h

lemma mapsTo_of_invalid {w : BitVec 64} (h : pteValid w = false) (q : ℕ) : mapsTo q w = false := by
  simp [mapsTo, h]

/-- **`page_remove_pte`** clears an entry, and returns the frame if that was the last one. -/
lemma pageRemovePte_spec (h : PtInv al D δ R s) (hg : R g = .pt d i j) (hk : k < 512)
    (hδ : pteValid (s.mem g k) = true → δ (ptePpn (s.mem g k)) = 0) :
    Spec (pageRemovePte al g k) s E fun _ t => ∃ R', PtInv al D δ R' t ∧ Unmaps D R s R' t ∧
      (∀ f' k', (f', k') ≠ (g, k) → t.mem f' k' = s.mem f' k') ∧ t.mem g k = cleared (s.mem g k) ∧
      ∀ q, mapsTo q (s.mem g k) = false → R' q = R q ∧ t.ref q = s.ref q := by
  refine .read_bind (.ite (fun hv => ?_) fun hv => .pure ?_)
  · set p := ptePpn (s.mem g k) with hp
    have hdata : R p = .data := h.leaf_data hg hk hv
    -- the entry, the count and the allocator are changed in another order with the same result
    set s₁ := (s.setEntry g k 0).setRef p (s.ref p - 1) with hs₁
    have hold : ∀ q, mapsTo q (s.mem g k) = decide (q = p) := by
      intro q
      simp [mapsTo, hv, hp, eq_comm]
    have hnone : pteValid 0 = true → R (ptePpn 0) = .data := fun h0 => by
      rw [pteValid_zero] at h0
      cases h0
    have hmaps : ∀ q, (s₁.maps D q : ℤ) = s.maps D q - if q = p then 1 else 0 := by
      intro q
      have hm := h.toForest.maps_setEntry (w := 0) hg hk hnone q
      rw [mapsTo_of_invalid pteValid_zero, hold] at hm
      change ((s.setEntry g k 0).maps D q : ℤ) = _
      rw [hm]
      by_cases hq : q = p <;> simp [hq]
    have hinv : PtInv al D δ R s₁ := by
      have h1 := h.setEntry (w := 0) (e := fun q => δ q + if q = p then 1 else 0) hg hk
        hnone fun q => by
          rw [hold, mapsTo_of_invalid pteValid_zero]
          by_cases hq : q = p <;> simp [hq]
      refine h1.setRef hdata (s.ref p - 1) fun q => ?_
      change δ q = _ + if q = p then s.ref p - 1 - s.ref p else 0
      by_cases hq : q = p <;> simp [hq]
    have hpos : 0 < s.maps D p := by
      have h1 := hmaps p
      rw [if_pos rfl] at h1
      omega
    have hmem₁ : ∀ f' k', (f', k') ≠ (g, k) → s₁.mem f' k' = s.mem f' k' :=
      fun f' k' hne => setEntry_mem hne
    have hself : s₁.mem g k = 0 := s.setEntry_self g k 0
    have hclear : cleared (s.mem g k) = 0 := if_pos hv
    have hframe : ∀ f', (∀ d i j, R f' ≠ .pt d i j) → s₁.mem f' = s.mem f' := by
      intro f' hf'
      change update s.mem g (update (s.mem g) k 0) f' = _
      rw [update_of_ne]
      rintro rfl
      exact hf' d i j hg
    have hless : ∀ q, s₁.maps D q ≤ s.maps D q := fun q => by
      have h1 := hmaps q
      split_ifs at h1 <;> omega
    have href₁ : s₁.ref p = s.ref p - 1 := update_self ..
    have hcount : s₁.ref p = s₁.maps D p := by
      have h1 := hinv.refs p (.inl hdata)
      rw [hδ hv] at h1
      omega
    refine .modify_bind (.bind (R := fun _ u => u.setEntry g k 0 =
      if s₁.ref p = 0 then s₁.release al p else s₁) ?_ fun _ u hu => .modify ?_)
    · refine .read_bind (.ite (fun h0 => .modify ?_) fun h0 =>
        .pure ?_)
      · have h1 : s₁.ref p = 0 := by
          rw [href₁]
          exact (update_self (f := s.ref) ..).symm.trans h0
        have hpg : p ≠ g := by
          intro e
          rw [e, hg] at hdata
          cases hdata
        have hlog : s₁.mem p = s.mem p := update_of_ne hpg ..
        rw [if_pos h1]
        unfold PmState.release
        rw [hlog]
        rfl
      · have h1 : s₁.ref p ≠ 0 := by
          rw [href₁]
          exact fun e => h0 ((update_self (f := s.ref) ..).trans e)
        rw [if_neg h1]
        rfl
    · rw [hu, hclear]
      split_ifs with h0
      · have hzero : s₁.maps D p = 0 := by omega
        refine ⟨update R p .free, hinv.release hdata hzero (hδ hv),
          ⟨fun q => ?_, fun q => ?_, hless, ⟨[(p, s₁.mem p)], rfl, nodup_singleton p, fun q => ?_⟩,
            hframe⟩, hmem₁, hself, fun q hq => ?_⟩
        · by_cases hq : q = p
          · rw [hq, update_self]
            exact .inr ⟨hdata, rfl⟩
          · exact .inl (update_of_ne hq ..)
        · change _ ↔ 0 < s.maps D q ∧ s₁.maps D q = 0
          by_cases hq : q = p
          · rw [hq, update_self, hdata]
            exact iff_of_true ⟨by simp, rfl⟩ ⟨hpos, hzero⟩
          · rw [update_of_ne hq]
            have h1 := hmaps q
            rw [if_neg hq] at h1
            refine iff_of_false (fun h2 => h2.1 h2.2) fun h2 => ?_
            omega
        · rw [map_singleton, mem_singleton]
          by_cases hq : q = p
          · rw [hq, update_self, hdata]
            simp
          · rw [update_of_ne hq]
            exact iff_of_false hq fun h2 => h2.1 h2.2
        · rw [hold, decide_eq_false_iff_not] at hq
          refine ⟨update_of_ne hq .., ?_⟩
          change update (update s.ref p _) p 0 q = _
          rw [update_of_ne hq, update_of_ne hq]
      · refine ⟨R, hinv, ⟨fun q => .inl rfl, fun q => ?_, hless,
          ⟨[], (append_nil _).symm, nodup_nil, fun q => ?_⟩, hframe⟩, hmem₁, hself,
          fun q hq => ?_⟩
        · refine iff_of_false (fun h2 => h2.1 h2.2) fun h2 => ?_
          have h1 := hmaps q
          by_cases hq : q = p
          · subst hq
            omega
          · rw [if_neg hq] at h1
            omega
        · exact iff_of_false not_mem_nil fun h2 => h2.1 h2.2
        · rw [hold, decide_eq_false_iff_not] at hq
          exact ⟨rfl, update_of_ne hq ..⟩
  · refine ⟨R, h, Unmaps.refl D R s, fun _ _ _ => rfl, (if_neg hv).symm, fun _ _ => ⟨rfl, rfl⟩⟩

/-! ## Inserting a page -/

/-- **What the entry maps is removed** before another page is inserted. The reference of the new
page has been counted already. -/
lemma pageReplace_spec (h : PtInv al D δ R s) (hg : R g = .pt d i j) (hk : k < 512)
    (hp : R p = .data) (hδ : ∀ q, q ≠ p → δ q = 0) :
    Spec (pageReplace al p g k) s E fun _ t => ∃ R',
      PtInv al D (fun q => δ q - (mapsTo q (t.mem g k)).toNat) R' t ∧ Unmaps D R s R' t ∧
      (∀ f' k', (f', k') ≠ (g, k) → t.mem f' k' = s.mem f' k') ∧ R' p = .data ∧
      ∀ q, q ≠ p → mapsTo q (t.mem g k) = false := by
  -- an entry that is not valid maps nothing
  have hinvalid : ∀ {t : PmState A} {R' : ℕ → Role}, PtInv al D δ R' t →
    pteValid (t.mem g k) = false →
      PtInv al D (fun q => δ q - (mapsTo q (t.mem g k)).toNat) R' t := by
    intro t R' h' hv
    have he : (fun q => δ q - (mapsTo q (t.mem g k)).toNat) = δ := by
      funext q
      rw [mapsTo_of_invalid hv]
      exact Int.sub_zero _
    rwa [he]
  refine .read_bind (.ite (fun hv => .ite (fun hpp => ?_) fun hpp => ?_)
    fun hv => .pure ?_)
  · have hold : ∀ q, mapsTo q (s.mem g k) = decide (q = p) := fun q => by
      simp [mapsTo, hv, hpp, eq_comm]
    refine .modify ⟨R, h.setRef hp (s.ref p - 1) fun q => ?_, ?_, fun _ _ _ => rfl, hp,
      fun q hq => ?_⟩
    · change δ q - (mapsTo q (s.mem g k)).toNat = _
      rw [hold]
      by_cases hq : q = p
      · simp only [hq, decide_true, Bool.toNat_true, if_true]
        omega
      · simp [hq]
    · exact { Unmaps.refl D R s with }
    · exact (hold q).trans (decide_eq_false hq)
  · refine (pageRemovePte_spec h hg hk fun _ => hδ _ hpp).mono fun _ t ht => ?_
    obtain ⟨R', h1, h2, h3, h4, h5⟩ := ht
    have hv' : pteValid (t.mem g k) = false := by
      rw [h4]
      exact cleared_valid _
    refine ⟨R', hinvalid h1 hv', h2, h3, ?_, fun q _ => mapsTo_of_invalid hv' q⟩
    rw [(h5 p ?_).1, hp]
    simp [mapsTo, hpp]
  · have hv' := Bool.eq_false_of_not_eq_true hv
    exact ⟨R, hinvalid h hv', Unmaps.refl D R s, fun _ _ _ => rfl, hp,
      fun q _ => mapsTo_of_invalid hv' q⟩

/-- **One walk has changed**: the entry for the page `v` below `d` is `w`. Frames may have been
allocated, and a frame has been returned if that was its last entry. -/
structure Inserts (D : Finset ℕ) (R : ℕ → Role) (s : PmState A) (d v : ℕ) (w : BitVec 64)
    (R' : ℕ → Role) (t : PmState A) : Prop where
  roles : ∀ q, R' q = R q ∨ R q = .free ∨ R q = .data ∧ R' q = .free
  tables : ∀ q, (R' q).isTable = true → R' q = R q ∨ (R' q).OnPath d v
  frees : Frees D R s R' t
  leaf : ∀ d' ∈ D, ∀ v' < userPages,
    t.leaf d' v' = update (fun q : ℕ × ℕ => s.leaf q.1 q.2) (d, v) w (d', v')
  mem : ∀ q, (R q).OffPath d v q → t.mem q = s.mem q

/-- **`page_insert` after it has found the entry.** -/
lemma pageInsert_at (h : PtInv al D δ R s) (hg : R g = .pt d i j) (hk : k < 512) (hp : R p = .data)
    (hδ : ∀ q, q ≠ p → δ q = 0) (perm : BitVec 10) :
    Spec (do
      pageRefInc p
      pageReplace al p g k
      Comp.modify fun s => s.setEntry g k (pteCreate p (pteV ||| perm))
      pure (.ok ()) : Pt A (Except Errno Unit)) s E fun r t => r = .ok () ∧ ∃ R',
        PtInv al D δ R' t ∧ R' p = .data ∧
        Inserts D R s d (pageOf i j k) (pteCreate p (pteV ||| perm)) R' t := by
  obtain ⟨hd, hi, hj, -⟩ := h.leaf_pt hg hk
  set w := pteCreate p (pteV ||| perm) with hw
  have hppn : ptePpn w = p :=
    ptePpn_create (lt_of_lt_of_le ((h.lt p).mp (by rw [hp]; simp)) al.npage_le) _
  have hnew : ∀ q, mapsTo q w = decide (q = p) := fun q => by
    rw [mapsTo, hppn, hw, pteValid_create, Bool.true_and]
    exact decide_eq_decide.mpr eq_comm
  have h1 : PtInv al D (fun q => δ q + if q = p then 1 else 0) R (s.setRef p (s.ref p + 1)) := by
    refine h.setRef hp _ fun q => ?_
    by_cases hq : q = p
    · simp [hq]
    · simp [hq]
  refine .modify_bind ((pageReplace_spec h1 hg hk hp fun q hq => ?_).bind fun _ t ht =>
    .modify_bind (.pure ⟨rfl, ?_⟩))
  · simp [hq, hδ q hq]
  obtain ⟨R', h2, h3, h4, h5, h6⟩ := ht
  have hg' : R' g = .pt d i j := by rw [h3.of_ne_data (by rw [hg]; simp), hg]
  have hdata : pteValid w = true → R' (ptePpn w) = .data := fun _ => by rw [hppn, h5]
  have h7 : PtInv al D δ R' (t.setEntry g k w) := by
    refine h2.setEntry hg' hk hdata fun q => ?_
    rw [hnew]
    by_cases hq : q = p
    · simp only [hq, decide_true, Bool.toNat_true, if_true]
      omega
    · simp [hq]
  have hleaf : ∀ d' ∈ D, ∀ v' < userPages, (t.setEntry g k w).leaf d' v' =
      update (fun q : ℕ × ℕ => s.leaf q.1 q.2) (d, pageOf i j k) w (d', v') := by
    intro d' hd' v' hv'
    rw [h.leaf_write h7.toForest hg hk h3.pt_iff ?_ hd' hv', setEntry_self]
    intro f' k' hne
    rw [setEntry_mem hne, h4 f' k' hne]
    rfl
  refine ⟨R', h7, h5, fun q => ?_, fun q hq => ?_, fun q => ?_, hleaf, fun q hq => ?_⟩
  rotate_right
  · -- only the table of the entry is written
    have hqg : q ≠ g := by
      rintro rfl
      obtain ⟨e1, e2, -⟩ := @pageOf_indices i j k hj hk
      refine hq.2.2 (.inr ?_)
      rw [hg, e1, e2]
    funext k'
    have hne : (q, k') ≠ (g, k) := fun e => hqg (congrArg Prod.fst e)
    rw [setEntry_mem hne, h4 q k' hne]
    rfl
  · rcases h3.roles q with e | e
    · exact .inl e
    · exact .inr (.inr e)
  · rcases h3.roles q with e | e
    · exact .inl e
    · rw [e.2] at hq
      cases hq
  · by_cases hq : q = p
    · subst hq
      refine iff_of_false (fun h8 => ?_) fun h8 => ?_
      · rw [h5] at h8
        cases h8.2
      · have hself := hleaf d hd _ (pageOf_lt hi hj hk)
        rw [update_self] at hself
        refine Forest.maps_eq_zero.mp h8.2 d hd _ (pageOf_lt hi hj hk) ?_ ?_
        · rw [hself, hw, pteValid_create]
        · rw [hself, hppn]
    · have hm := h2.toForest.maps_setEntry hg' hk hdata q
      rw [h6 q hq, hnew, decide_eq_false hq] at hm
      have hf : _ ↔ 0 < s.maps D q ∧ t.maps D q = 0 := h3.frees q
      rw [hf]
      have hm' : (t.setEntry g k w).maps D q = t.maps D q := by
        omega
      rw [hm']

/-- New tables do not change which frames are returned. -/
lemma Inserts.of_extends {w : BitVec 64} (h : Extends D d v R s R' t)
    (h' : Inserts D R' t d v w R'' u) : Inserts D R s d v w R'' u := by
  have htable : ∀ q, (R' q).isTable = true → R'' q = R' q := by
    intro q hq
    rcases h'.roles q with e | e | ⟨e, -⟩
    · exact e
    · rw [e] at hq
      cases hq
    · rw [e] at hq
      cases hq
  refine ⟨fun q => ?_, fun q hq => ?_, fun q => ?_, fun d' hd' v' hv' => ?_, fun q hq => ?_⟩
  rotate_right
  · rw [h'.mem q (by rwa [h.of_ne_free hq.1]), h.mem q hq]
  · rcases h.roles q with e | ⟨e1, e2⟩
    · rw [← e]
      exact h'.roles q
    · exact .inr (.inl e1)
  · rcases h'.tables q hq with e | e
    · rcases h.roles q with e1 | ⟨-, e2⟩
      · exact .inl (e.trans e1)
      · rw [e]
        exact .inr e2
    · exact .inr e
  · rw [← h.maps q, ← h'.frees q]
    rcases h.roles q with e | ⟨e1, e2⟩
    · rw [e]
    · refine iff_of_false (fun h1 => h1.1 e1) fun h1 => ?_
      rw [htable q e2.isTable] at h1
      exact h1.1 h1.2
  · rw [h'.leaf d' hd' v' hv']
    simp only [update_apply, h.leaf d' hd' v' hv']

/-- **`page_insert`**: it changes one walk, or there is no memory for a table. -/
lemma pageInsert_spec (h : PtInv al D δ R s) (hd : d ∈ D) (hla : la < userTop) (hp : R p = .data)
    (hδ : ∀ q, q ≠ p → δ q = 0) (perm : BitVec 10) :
    Spec (pageInsert al d p la perm) s E fun r t => ∃ R', PtInv al D δ R' t ∧ R' p = .data ∧
      match r with
      | .ok () => Inserts D R s d (la / pgSize) (pteCreate p (pteV ||| perm)) R' t
      | .error e => e = .noMem ∧ Extends D d (la / pgSize) R s R' t := by
  obtain ⟨-, -, hk, hpage, -⟩ := user_indices hla
  refine (getPte_spec h hd hla).bind fun o t ht => ?_
  obtain ⟨R', h1, h2, h3⟩ := ht
  have hp' : R' p = .data := by rw [h2.of_ne_free (by rw [hp]; simp), hp]
  cases o with
  | none => exact .pure ⟨R', h1, hp', rfl, h2⟩
  | some r =>
    obtain ⟨g, k⟩ := r
    obtain ⟨hg, rfl⟩ := h3 g k rfl
    refine (pageInsert_at h1 hg hk hp' hδ perm).mono fun r u hu => ?_
    obtain ⟨rfl, R'', h4, h5, h6⟩ := hu
    rw [hpage] at h6
    exact ⟨R'', h4, h5, Inserts.of_extends h2 h6⟩

lemma getTable_of_valid (hv : pteValid (s.mem f k) = true) (create : Bool) :
    getTable al f k create s = .ok (some (ptePpn (s.mem f k)), s) := by
  rw [getTable, read_bind_apply, if_pos hv]
  rfl

lemma getPte_found (h : Forest al D R s) (hg : R g = .pt d (pdx1 la) (pdx0 la)) :
    getPte al d la true s = .ok (some (g, ptx la), s) := by
  obtain ⟨f, hf, -, h1, h2⟩ := h.pt_entry hg
  obtain ⟨-, -, h3, h4⟩ := h.pd0_entry hf
  rw [getPte, bind_of_ok (getTable_of_valid h3 true), h4]
  change (getTable al f (pdx0 la) true >>= _) s = _
  rw [bind_of_ok (getTable_of_valid h1 true), h2]
  rfl

/-- **`page_insert` succeeds if there is a table.** -/
lemma pageInsert_found (h : PtInv al D δ R s) (hg : R g = .pt d (pdx1 la) (pdx0 la))
    (hla : la < userTop) (hp : R p = .data) (hδ : ∀ q, q ≠ p → δ q = 0) (perm : BitVec 10) :
    Spec (pageInsert al d p la perm) s E fun r t => r = .ok () ∧ ∃ R', PtInv al D δ R' t ∧
      R' p = .data ∧ Inserts D R s d (la / pgSize) (pteCreate p (pteV ||| perm)) R' t := by
  obtain ⟨-, -, hk, hpage, -⟩ := user_indices hla
  refine .bind_ok (getPte_found h.toForest hg) ?_
  refine (pageInsert_at h hg hk hp hδ perm).mono fun r u hu => ?_
  rw [hpage] at hu
  exact hu

/-- **`page_insert` where there is a table and nothing is mapped.** -/
lemma pageInsert_empty (h : Forest al D R s) (hg : R g = .pt d (pdx1 la) (pdx0 la))
    (hv : pteValid (s.mem g (ptx la)) = false) (perm : BitVec 10) :
    pageInsert al d p la perm s = .ok (.ok (),
      (s.setRef p (s.ref p + 1)).setEntry g (ptx la) (pteCreate p (pteV ||| perm))) := by
  have hrep : pageReplace al p g (ptx la) (s.setRef p (s.ref p + 1)) =
      .ok ((), s.setRef p (s.ref p + 1)) := by
    rw [pageReplace, read_bind_apply, if_neg]
    · rfl
    · change ¬pteValid (s.mem g (ptx la)) = true
      rw [hv]
      decide
  rw [pageInsert, bind_of_ok (getPte_found h hg)]
  change (pageRefInc p >>= _) s = _
  rw [bind_of_ok (show pageRefInc p s = .ok ((), s.setRef p (s.ref p + 1)) from rfl),
    bind_of_ok hrep]
  rfl

/-- **The frame that `alloc_page` returns and `page_insert` maps** was free before. -/
lemma Inserts.of_alloc {w : BitVec 64} (h0 : R p = .free) (hmaps : s.maps D p = 0)
    (hleaf : ∀ d ∈ D, ∀ v < userPages, t.leaf d v = s.leaf d v)
    (hmem : ∀ q, q ≠ p → t.mem q = s.mem q) (h : Inserts D (update R p .data) t d v w R' u) :
    Inserts D R s d v w R' u := by
  refine ⟨fun q => ?_, fun q hq => ?_, fun q => ?_, fun d' hd' v' hv' => ?_, fun q hq => ?_⟩
  rotate_right
  · have hqp : q ≠ p := by
      rintro rfl
      exact hq.1 h0
    rw [h.mem q (by rwa [update_of_ne hqp]), hmem q hqp]
  · by_cases hq : q = p
    · rw [hq]
      exact .inr (.inl h0)
    · have h1 := h.roles q
      rwa [update_of_ne hq] at h1
  · rcases h.tables q hq with e | e
    · by_cases hqp : q = p
      · rw [e, hqp, update_self] at hq
        cases hq
      · rw [update_of_ne hqp] at e
        exact .inl e
    · exact .inr e
  · by_cases hq : q = p
    · subst hq
      exact iff_of_false (fun h1 => h1.1 h0) fun h1 => by omega
    · have h1 := h.frees q
      rwa [update_of_ne hq, Forest.maps_congr hleaf q] at h1
  · rw [h.leaf d' hd' v' hv']
    simp only [update_apply, hleaf d' hd' v' hv']

/-- **A walk that led nowhere**: no frame is returned, and one entry more maps a frame. -/
lemma Inserts.of_invalid {w : BitVec 64} (h : Inserts D R s d v w R' t) (hd : d ∈ D)
    (hv : v < userPages) (hold : pteValid (s.leaf d v) = false) :
    (∀ q, R q ≠ .free → R' q = R q) ∧ ∀ q, t.maps D q = s.maps D q + (mapsTo q w).toNat := by
  have hmaps : ∀ q, t.maps D q = s.maps D q + (mapsTo q w).toNat := by
    intro q
    have hm := Forest.maps_update hd hv h.leaf q
    rw [mapsTo_of_invalid hold] at hm
    simp only [Bool.toNat_false] at hm
    omega
  refine ⟨fun q hq => ?_, hmaps⟩
  rcases h.roles q with e | e | ⟨-, e⟩
  · exact e
  · exact absurd e hq
  · have hf := (h.frees q).mp ⟨hq, e⟩
    rw [hmaps q] at hf
    omega

/-- **`pgdir_alloc_page`**: the assertion holds, and a page that cannot be inserted is given
back. -/
lemma pgdirAllocPage_spec (h : PtInv al D (fun _ => 0) R s) (hd : d ∈ D) (hla : la < userTop)
    (perm : BitVec 10) :
    Spec (pgdirAllocPage al d la perm) s E fun o t => ∃ R', PtInv al D (fun _ => 0) R' t ∧
      match o with
      | some p => R p = .free ∧ Inserts D R s d (la / pgSize) (pteCreate p (pteV ||| perm)) R' t
      | none => Frees D R s R' t ∧ (∀ d' ∈ D, ∀ v' < userPages, t.leaf d' v' = s.leaf d' v') ∧
          ∀ q, (R' q).isTable = true → R' q = R q ∨ (R' q).OnPath d (la / pgSize) := by
  have hsame : Frees D R s R s := (Extends.refl D d la R s).frees
  obtain ⟨-, -, -, -, hv⟩ := user_indices hla
  refine (allocPage_spec h).bind fun o t ht => ?_
  cases o with
  | none =>
    subst ht
    exact .pure ⟨R, h, hsame, fun _ _ _ _ => rfl, fun _ _ => .inl rfl⟩
  | some p =>
    obtain ⟨hp, h0, a, rfl, h1⟩ := ht
    have hp1 : update R p .data p = .data := update_self ..
    have hlt : p < al.npage := (h.lt p).mp (by rw [hp]; simp)
    refine (pageInsert_spec h1 hd hla hp1 (fun _ _ => rfl) perm).bind fun r u hu => ?_
    obtain ⟨R', h2, h3, h4⟩ := hu
    cases r with
    | error e =>
      obtain ⟨-, h4⟩ := h4
      have hzero : u.maps D p = 0 := (h4.maps p).trans h0
      refine .modify_bind (.pure ⟨update R' p .free, h2.release h3 hzero rfl,
        fun q => ?_, h4.leaf, fun q hq => ?_⟩)
      · have hm : (u.release al p).maps D q = s.maps D q := h4.maps q
        rw [hm]
        by_cases hq : q = p
        · subst hq
          exact iff_of_false (fun h5 => h5.1 hp) fun h5 => by omega
        · refine iff_of_false (fun h5 => h5.1 ?_) fun h5 => by omega
          rw [update_of_ne hq] at h5
          have hold := h4.roles q
          rw [update_of_ne hq] at hold
          rcases hold with e1 | ⟨e1, -⟩
          · rw [← e1]
            exact h5.2
          · exact e1
      · by_cases hqp : q = p
        · rw [hqp, update_self] at hq
          cases hq
        · rw [update_of_ne hqp] at hq ⊢
          have hold := h4.roles q
          rw [update_of_ne hqp] at hold
          exact hold.imp id And.right
    | ok _ =>
      have hone : u.ref p = 1 := by
        have hm := Forest.maps_update hd hv h4.leaf p
        have hlast : mapsTo p (pteCreate p (pteV ||| perm)) = true := by
          rw [mapsTo, ptePpn_create (lt_of_lt_of_le hlt al.npage_le), pteValid_create]
          simp
        have hfirst : mapsTo p (s.leaf d (la / pgSize)) = false := by
          have hne := Forest.maps_eq_zero.mp h0 d hd _ hv
          simpa [mapsTo] using hne
        have hm' : (u.maps D p : ℤ) = s.maps D p - (mapsTo p (s.leaf d (la / pgSize))).toNat +
          (mapsTo p (pteCreate p (pteV ||| perm))).toNat := hm
        rw [hlast, hfirst, h0] at hm'
        rw [h2.refs p (Or.inl h3), hm']
        rfl
      refine .read_bind (.ensure_bind (fun hne => absurd hone hne) fun _ =>
        .pure ⟨R', h2, hp, ?_⟩)
      exact Inserts.of_alloc (t := { s with alloc := a }) hp h0 (fun _ _ _ _ => rfl)
        (fun _ _ => rfl) h4

end Spec

end Ucore
