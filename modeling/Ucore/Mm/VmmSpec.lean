import Ucore.Mm.Vmm

set_option autoImplicit false

/-!
# What the functions on areas do

## Main definitions

* `Areas` — the areas are in order and disjoint, and the cached one is among them.
* `Visited` — another area is cached.
* `MmStruct.Permits` — a byte that user programs may read or write.
* `MmStep`, `MapExact`, `Clear` — calls on an address space, what `mm_map` should do,
  and when it does.

## Main results

* `findVma_apply` — `find_vma` finds the area of an address.
* `insertVmaStruct_apply` — `insert_vma_struct` puts an area where it belongs.
* `user_mem_check_exact` — `user_mem_check` checks every byte.
* `mm_map_exact_iff` — `mm_map` in all reachable states.
-/

namespace Ucore

open Comp List Relation

/-! ## The invariant -/

/-- **The areas of an address space** are in order and disjoint; the cached one is among them. -/
structure Areas (mm : MmStruct) : Prop where
  list : Intervals VmaStruct.vmStart VmaStruct.vmEnd mm.mmapList
  cache : ∀ vma, mm.mmapCache = some vma → vma ∈ mm.mmapList

/-- Another area of the list is cached, or none. -/
structure Visited (mm mm' : MmStruct) : Prop where
  list : mm'.mmapList = mm.mmapList
  count : mm'.mapCount = mm.mapCount
  pgdir : mm'.pgdir = mm.pgdir
  sharers : mm'.mmCount = mm.mmCount
  areas : Areas mm'

/-- The area of an address. -/
def MmStruct.area (mm : MmStruct) (addr : ℕ) : Option VmaStruct :=
  mm.mmapList.find? fun vma => decide (vma.Has addr)

section Find

variable {mm mm' mm'' : MmStruct} {vma : VmaStruct} {addr : ℕ}

lemma Areas.visited (h : Areas mm) : Visited mm mm := ⟨rfl, rfl, rfl, rfl, h⟩

lemma Visited.trans (h : Visited mm mm') (h' : Visited mm' mm'') : Visited mm mm'' :=
  ⟨h'.list.trans h.list, h'.count.trans h.count, h'.pgdir.trans h.pgdir, h'.sharers.trans h.sharers,
    h'.areas⟩

lemma Areas.area_eq_some (h : Areas mm) :
    mm.area addr = some vma ↔ vma ∈ mm.mmapList ∧ vma.Has addr :=
  h.list.find_eq_some

lemma Areas.area_eq_none : mm.area addr = none ↔ ∀ vma ∈ mm.mmapList, ¬vma.Has addr := by
  simp [MmStruct.area, List.find?_eq_none]

/-- **`find_vma`** finds the area of the address, whatever is cached. -/
lemma findVma_apply (h : Areas mm) (addr : ℕ) :
    ∃ mm', findVma addr mm = .ok (mm.area addr, mm') ∧ Visited mm mm' := by
  have he : findVma addr mm = (mm.area addr).elim (pure none) (fun vma =>
      Comp.modify (fun mm => { mm with mmapCache := some vma }) >>=
        fun _ => pure (some vma)) mm := by
    rw [findVma, read_bind_apply]
    -- the cached area, if it has the address, is the one that the search finds
    cases hc : mm.mmapCache with
    | none =>
      rw [MmStruct.area]
      cases mm.mmapList.find? fun vma => decide (vma.Has addr) <;> rfl
    | some vma =>
      by_cases hv : vma.Has addr
      · simp only [if_pos hv, h.area_eq_some.mpr ⟨h.cache vma hc, hv⟩, Option.elim]
      · simp only [if_neg hv, MmStruct.area]
        cases mm.mmapList.find? fun vma => decide (vma.Has addr) <;> rfl
  rw [he]
  cases ha : mm.area addr with
  | none => exact ⟨mm, rfl, h.visited⟩
  | some vma =>
    refine ⟨{ mm with mmapCache := some vma }, rfl, rfl, rfl, rfl, rfl, h.list, ?_⟩
    rintro v ⟨⟩
    exact (h.area_eq_some.mp ha).1

end Find

/-! ## Checking user addresses -/

/-- **A byte that may be accessed**: it belongs to an area with the right flag and, for writes, is
not in the first page of a stack. -/
def MmStruct.Permits (mm : MmStruct) (write : Bool) (addr : ℕ) : Prop :=
  ∃ vma ∈ mm.mmapList, vma.Has addr ∧ (vma.vmFlags &&& accessFlag write ≠ 0 ∧
    (write = true → vma.vmFlags &&& vmStack ≠ 0 → vma.vmStart + pgSize ≤ addr))

section Check

variable {mm : MmStruct} {vma : VmaStruct} {start stop : ℕ}

/-- The checks of one round. -/
lemma passArea_iff (write : Bool) (hs : vma.vmStart ≤ start) (ht : start < userTop) :
    passArea vma start write = true ↔ vma.vmFlags &&& accessFlag write ≠ 0 ∧
      (write = true → vma.vmFlags &&& vmStack ≠ 0 → vma.vmStart + pgSize ≤ start) := by
  have hadd : addAddr vma.vmStart pgSize = vma.vmStart + pgSize := by
    unfold addAddr userTop pgSize at *
    omega
  unfold passArea
  rw [if_neg (by omega), hadd]
  by_cases hf : vma.vmFlags &&& accessFlag write = 0
  · rw [if_pos hf]
    exact iff_of_false Bool.false_ne_true fun hc => hc.1 hf
  · rw [if_neg hf]
    refine Iff.trans ?_ (and_iff_right hf).symm
    cases write with
    | false => simp
    | true =>
      by_cases hst : vma.vmFlags &&& vmStack = 0
      · rw [if_neg (by simpa using hst)]
        exact iff_of_true rfl fun _ hc => absurd hst hc
      · rw [if_pos (by simpa using hst), decide_eq_true_iff]
        exact ⟨fun hle _ _ => hle, fun hle => hle rfl hst⟩

/-- **The loop of `user_mem_check`** returns, and looks at every byte.

**Proof sketch.** Induction on the number of rounds. The area of `start` ends behind it, so the
range that is left gets shorter; what holds of the byte at `start` holds of all later bytes of the
same area. -/
lemma memCheckLoop_apply (write : Bool) (hstop : stop ≤ userTop) :
    ∀ (n : ℕ) (start : ℕ) (mm : MmStruct), Areas mm → stop - start < n →
      ∃ r mm', memCheckLoop stop write n start mm = .ok (r, mm') ∧ Visited mm mm' ∧
      (r = true ↔ ∀ a, start ≤ a → a < stop → mm.Permits write a) := by
  intro n
  induction n with
  | zero => intro start mm _ hn; omega
  | succ n ih =>
    intro start mm h hn
    rw [memCheckLoop]
    by_cases hlt : start < stop
    · rw [if_pos hlt]
      obtain ⟨mm', e, hv⟩ := findVma_apply h start
      rw [bind_of_ok e]
      cases ha : mm.area start with
      | none =>
        refine ⟨false, mm', rfl, hv, iff_of_false Bool.false_ne_true fun hall => ?_⟩
        obtain ⟨vma, hm, hhas, -⟩ := hall start le_rfl hlt
        exact Areas.area_eq_none.mp ha vma hm hhas
      | some vma =>
        obtain ⟨hm, hhas⟩ := h.area_eq_some.mp ha
        have hpass := passArea_iff write hhas.1 (hlt.trans_le hstop)
        have hiff := h.list.forall_iff (P := fun vma a => vma.vmFlags &&& accessFlag write ≠ 0 ∧
          (write = true → vma.vmFlags &&& vmStack ≠ 0 → vma.vmStart + pgSize ≤ a)) hm hhas hlt
          fun z hz _ hx => ⟨hx.1, fun hw hst => (hx.2 hw hst).trans hz⟩
        dsimp only
        by_cases hp : passArea vma start write = true
        · rw [if_pos hp]
          have hend := hhas.2
          obtain ⟨r, mm'', e', hv', hr⟩ := ih vma.vmEnd mm' hv.areas (by omega)
          refine ⟨r, mm'', e', hv.trans hv', hr.trans ?_⟩
          unfold MmStruct.Permits
          rw [hv.list]
          exact (hiff.trans (and_iff_right (hpass.mp hp))).symm
        · rw [if_neg hp]
          refine ⟨false, mm', rfl, hv, iff_of_false Bool.false_ne_true fun hall => ?_⟩
          exact hp (hpass.mpr (hiff.mp hall).1)
    · rw [if_neg hlt]
      refine ⟨true, mm, rfl, h.visited, iff_of_true rfl fun a ha ha' => ?_⟩
      omega

/-- **`user_mem_check`** in terms of the bytes. -/
lemma userMemCheck_apply (h : Areas mm) (addr len : ℕ) (hlen : len < 2 ^ 64) (write : Bool) :
    ∃ r mm', userMemCheck addr len write mm = .ok (r, mm') ∧ Visited mm mm' ∧
      (r = true ↔ UserAccess addr (addr + len) ∧ ∀ a, addr ≤ a → a < addr + len →
        mm.Permits write a) := by
  unfold userMemCheck
  have hacc : UserAccess addr (addAddr addr len) ↔ UserAccess addr (addr + len) := by
    unfold UserAccess addAddr userBase userTop
    omega
  by_cases hu : UserAccess addr (addAddr addr len)
  · rw [if_pos hu]
    have hsum : addAddr addr len = addr + len := by
      unfold UserAccess addAddr userBase userTop at *
      omega
    obtain ⟨r, mm', e, hv, hr⟩ := memCheckLoop_apply write hu.2.2 _ addr mm h (Nat.lt_succ_self _)
    exact ⟨r, mm', e, hv, by rw [hr, hsum, and_iff_right (hacc.mp hu)]⟩
  · rw [if_neg hu]
    refine ⟨false, mm, rfl, h.visited, iff_of_false Bool.false_ne_true fun hc => ?_⟩
    exact hu (hacc.mpr hc.1)

end Check

/-- **The check of user pointers is exact.** For an address space whose areas are in order and
disjoint, for every address, length and kind of access: `user_mem_check` returns, and it returns `1`
iff the range is not empty, does not wrap around, lies in user space, and each of its bytes may be
accessed. -/
theorem user_mem_check_exact {mm : MmStruct} (h : Areas mm) (addr len : BitVec 64) (write : Bool) :
    ∃ r mm', userMemCheck addr.toNat len.toNat write mm = .ok (r, mm') ∧
      (r = true ↔ 0 < len.toNat ∧ addr.toNat + len.toNat < 2 ^ 64 ∧ userBase ≤ addr.toNat ∧
        addr.toNat + len.toNat ≤ userTop ∧
        ∀ a, addr.toNat ≤ a → a < addr.toNat + len.toNat → mm.Permits write a) := by
  obtain ⟨r, mm', e, -, hr⟩ := userMemCheck_apply h addr.toNat len.toNat len.isLt write
  refine ⟨r, mm', e, hr.trans ?_⟩
  have hacc : UserAccess addr.toNat (addr.toNat + len.toNat) ↔ 0 < len.toNat ∧
      addr.toNat + len.toNat < 2 ^ 64 ∧ userBase ≤ addr.toNat ∧
      addr.toNat + len.toNat ≤ userTop := by
    unfold UserAccess userBase userTop
    omega
  rw [hacc]
  tauto

/-- An address space with a text area and a stack next to each other, the text being cached. -/
def textAndStack : MmStruct where
  mmapList := [⟨0x800000, 0x802000, vmRead ||| vmExec⟩,
    ⟨0x802000, 0x806000, vmRead ||| vmWrite ||| vmStack⟩]
  mmapCache := some ⟨0x800000, 0x802000, vmRead ||| vmExec⟩
  pgdir := 1
  mapCount := 2
  mmCount := 1

lemma textAndStack_areas : Areas textAndStack := by
  refine ⟨⟨by decide, by decide⟩, ?_⟩
  rintro vma ⟨⟩
  decide

/-- A range across the two areas. -/
theorem user_mem_check_exact_textAndStack :
    Areas textAndStack ∧ ∃ r mm', userMemCheck 0x801000 0x2000 false textAndStack = .ok (r, mm') ∧
      (r = true ↔ 0 < 0x2000 ∧ 0x801000 + 0x2000 < 2 ^ 64 ∧ userBase ≤ 0x801000 ∧
        0x801000 + 0x2000 ≤ userTop ∧
        ∀ a, 0x801000 ≤ a → a < 0x801000 + 0x2000 → textAndStack.Permits false a) :=
  ⟨textAndStack_areas, user_mem_check_exact textAndStack_areas 0x801000#64 0x2000#64 false⟩

/-- The first page of the stack may be read but not written. -/
example : (userMemCheck 0x801000 0x2000 false textAndStack).toOption.map Prod.fst = some true ∧
    (userMemCheck 0x802800 0x1000 true textAndStack).toOption.map Prod.fst = some false ∧
    (userMemCheck 0x803000 0x1000 true textAndStack).toOption.map Prod.fst = some true := by
  decide +kernel

/-! ## Adding areas -/

/-- No area has an address of the range. -/
def MmStruct.FreeRange (mm : MmStruct) (start stop : ℕ) : Prop :=
  ∀ vma ∈ mm.mmapList, vma.vmEnd ≤ start ∨ stop ≤ vma.vmStart

instance (mm : MmStruct) (start stop : ℕ) : Decidable (mm.FreeRange start stop) :=
  inferInstanceAs (Decidable (∀ vma ∈ mm.mmapList, _))

/-- The address space with another area. -/
def MmStruct.addArea (mm : MmStruct) (vma : VmaStruct) : MmStruct :=
  { mm with
    mmapList := mm.mmapList.takeWhile (fun v => decide (v.vmStart ≤ vma.vmStart)) ++
      vma :: mm.mmapList.dropWhile fun v => decide (v.vmStart ≤ vma.vmStart)
    mapCount := mm.mapCount + 1 }

section Insert

variable {mm : MmStruct} {vma v : VmaStruct}

lemma checkVmaOverlap_apply {prev next : VmaStruct} :
    checkVmaOverlap prev next mm = if prev.vmStart < prev.vmEnd ∧ prev.vmEnd ≤ next.vmStart ∧
      next.vmStart < next.vmEnd then .ok ((), mm) else .error .overlap := by
  unfold checkVmaOverlap
  simp only [ensure_bind_apply, ensure_apply]
  split_ifs <;> tauto

lemma mem_addArea : v ∈ (mm.addArea vma).mmapList ↔ v = vma ∨ v ∈ mm.mmapList := by
  have h : v ∈ mm.mmapList ↔ v ∈ mm.mmapList.takeWhile (fun v => decide (v.vmStart ≤ vma.vmStart)) ∨
      v ∈ mm.mmapList.dropWhile (fun v => decide (v.vmStart ≤ vma.vmStart)) := by
    rw [← mem_append, takeWhile_append_dropWhile]
  rw [h]
  simp only [MmStruct.addArea, mem_append, mem_cons]
  tauto

lemma Areas.end_le_of_front (hfree : ∀ v ∈ mm.mmapList, ¬v.Has vma.vmStart)
    (hv : v ∈ mm.mmapList.takeWhile fun v => decide (v.vmStart ≤ vma.vmStart)) :
    v ∈ mm.mmapList ∧ v.vmEnd ≤ vma.vmStart := by
  have hm : v ∈ mm.mmapList := ( takeWhile_prefix _).subset hv
  have hs : v.vmStart ≤ vma.vmStart := Intervals.lo_le_of_mem_takeWhile hv
  have := hfree v hm
  unfold VmaStruct.Has Intervals.At at this
  exact ⟨hm, by omega⟩

/-- **An area is added** to the list where it belongs. -/
lemma Areas.addArea (h : Areas mm) (hp : vma.vmStart < vma.vmEnd)
    (hfree : mm.FreeRange vma.vmStart vma.vmEnd) : Areas (mm.addArea vma) := by
  have hno : ∀ v ∈ mm.mmapList, ¬v.Has vma.vmStart := by
    intro v hv hhas
    have := hfree v hv
    unfold VmaStruct.Has Intervals.At at hhas
    omega
  refine ⟨.insert ?_ hp (fun v hv => (Areas.end_le_of_front hno hv).2) fun v hv => ?_,
    fun v hv => ?_⟩
  · rw [takeWhile_append_dropWhile]
    exact h.list
  · have hlt : vma.vmStart < v.vmStart := h.list.lt_lo_of_mem_dropWhile hv
    have hm : v ∈ mm.mmapList := (dropWhile_suffix _).subset hv
    have := h.list.proper v hm
    have := hfree v hm
    omega
  · exact mem_addArea.mpr (.inr (h.cache v hv))

lemma mem_front_or_back (hv : v ∈ mm.mmapList) :
    v ∈ mm.mmapList.takeWhile (fun v => decide (v.vmStart ≤ vma.vmStart)) ∨
      v ∈ mm.mmapList.dropWhile (fun v => decide (v.vmStart ≤ vma.vmStart)) := by
  rwa [← mem_append, takeWhile_append_dropWhile]

/-- A new area that starts in no other is disjoint from the others iff it ends before the next one
starts. -/
lemma Areas.freeRange_iff (h : Areas mm) (hno : ∀ v ∈ mm.mmapList, ¬v.Has vma.vmStart) :
    mm.FreeRange vma.vmStart vma.vmEnd ↔
      ∀ v, (mm.mmapList.dropWhile fun v => decide (v.vmStart ≤ vma.vmStart)).head? = some v →
        vma.vmEnd ≤ v.vmStart := by
  have hord := h.list.ordered.sublist (dropWhile_suffix fun v : VmaStruct =>
    decide (v.vmStart ≤ vma.vmStart)).sublist
  have hback : ∀ v ∈ mm.mmapList.dropWhile (fun v => decide (v.vmStart ≤ vma.vmStart)),
      v ∈ mm.mmapList ∧ vma.vmStart < v.vmStart := fun v hv =>
    ⟨(dropWhile_suffix _).subset hv, h.list.lt_lo_of_mem_dropWhile hv⟩
  constructor
  · intro hfree v hv
    obtain ⟨hm, hlt⟩ := hback v (mem_of_head? hv)
    have := hfree v hm
    have := h.list.proper v hm
    omega
  · intro hnext v hv
    rcases mem_front_or_back hv with hv | hv
    · exact .inl (Areas.end_le_of_front hno hv).2
    · refine .inr ?_
      cases hb : mm.mmapList.dropWhile fun v => decide (v.vmStart ≤ vma.vmStart) with
      | nil =>
        rw [hb] at hv
        exact absurd hv not_mem_nil
      | cons next rest =>
        rw [hb] at hord hnext hback hv
        have hle := hnext next rfl
        rcases mem_cons.mp hv with rfl | hv
        · exact hle
        · have := (pairwise_cons.mp hord).1 v hv
          have := h.list.proper next (hback next mem_cons_self).1
          omega

section

variable (h : Areas mm) (hp : vma.vmStart < vma.vmEnd) (hno : ∀ v ∈ mm.mmapList, ¬v.Has vma.vmStart)
include h hp hno

/-- The check against the area in front passes. -/
lemma checkPrev_apply :
    checkPrev (mm.mmapList.takeWhile fun v => decide (v.vmStart ≤ vma.vmStart)) vma mm =
      .ok ((), mm) := by
  unfold checkPrev
  cases hl : (mm.mmapList.takeWhile fun v => decide (v.vmStart ≤ vma.vmStart)).getLast? with
  | none => rfl
  | some prev =>
    obtain ⟨hm, hle⟩ := Areas.end_le_of_front hno (mem_of_getLast? hl)
    dsimp only
    rw [checkVmaOverlap_apply, if_pos ⟨h.list.proper prev hm, hle, hp⟩]

/-- The check against the area behind passes iff the new area ends before it starts. -/
lemma checkNext_apply :
    checkNext vma (mm.mmapList.dropWhile fun v => decide (v.vmStart ≤ vma.vmStart)) mm =
      if mm.FreeRange vma.vmStart vma.vmEnd then .ok ((), mm) else .error .overlap := by
  have hiff := h.freeRange_iff hno
  unfold checkNext
  cases hb : (mm.mmapList.dropWhile fun v => decide (v.vmStart ≤ vma.vmStart)).head? with
  | none =>
    rw [if_pos (hiff.mpr fun v hv => by rw [hb] at hv; cases hv)]
    rfl
  | some next =>
    have hm : next ∈ mm.mmapList := (dropWhile_suffix _).subset (mem_of_head? hb)
    rw [hb] at hiff
    dsimp only
    rw [checkVmaOverlap_apply]
    refine if_congr ?_ rfl rfl
    rw [hiff]
    constructor
    · rintro ⟨-, hle, -⟩ v ⟨⟩
      exact hle
    · intro hle
      exact ⟨hp, hle next rfl, h.list.proper next hm⟩

/-- **`insert_vma_struct`** for an area that starts in no other: it is added if it does not reach
into the next area, and an assertion fails otherwise. -/
lemma insertVmaStruct_apply : insertVmaStruct vma mm =
      if mm.FreeRange vma.vmStart vma.vmEnd then .ok ((), mm.addArea vma) else .error .overlap := by
  unfold insertVmaStruct
  rw [ensure_bind_apply, if_pos hp, read_bind_apply, bind_of_ok (checkPrev_apply h hp hno)]
  have e := checkNext_apply h hp hno
  split_ifs at e ⊢ with hfree
  · rw [bind_of_ok e]
    rfl
  · rw [bind_of_error e]

end

end Insert

/-! ## `mm_map` -/

/-- **When `mm_map` does not run into an assertion**: if the rounded range lies in user space, it
starts in an area or shares no address with any. -/
def Clear (mm : MmStruct) (addr len : ℕ) : Prop :=
  UserAccess (mapStart addr) (mapEnd addr len) →
    (∃ vma ∈ mm.mmapList, vma.Has (mapStart addr)) ∨ mm.FreeRange (mapStart addr) (mapEnd addr len)

/-- **What `mm_map` should do**, memory being available: it adds an area for the rounded range if
that lies in user space and shares no address with any area, and returns `-E_INVAL` with the areas
as they are otherwise. -/
def MapExact (mm : MmStruct) (addr len : ℕ) (flags : BitVec 32) : Prop :=
  ∃ ret mm', mmMap addr len flags true mm = .ok (ret, mm') ∧
    if UserAccess (mapStart addr) (mapEnd addr len) ∧ mm.FreeRange (mapStart addr)
    (mapEnd addr len) then
      ret = .ok ⟨mapStart addr, mapEnd addr len, flags⟩ ∧ mm'.mapCount = mm.mapCount + 1 ∧
        ∀ vma, vma ∈ mm'.mmapList ↔ vma = ⟨mapStart addr, mapEnd addr len, flags⟩ ∨
        vma ∈ mm.mmapList
    else ret = .error .inval ∧ mm'.mapCount = mm.mapCount ∧ mm'.mmapList = mm.mmapList

/-- **Calls on an address space**: those of `mm_map` are clear. -/
inductive MmStep (mm : MmStruct) : MmStruct → Prop
  | map (addr len : BitVec 64) (flags : BitVec 32) (granted : Bool) {ret : Except Errno VmaStruct}
      {mm' : MmStruct} (hc : Clear mm addr.toNat len.toNat)
      (e : mmMap addr.toNat len.toNat flags granted mm = .ok (ret, mm')) : MmStep mm mm'
  | find (addr : BitVec 64) {ret : Option VmaStruct} {mm' : MmStruct}
      (e : findVma addr.toNat mm = .ok (ret, mm')) : MmStep mm mm'

section Map

variable {mm mm' : MmStruct} {addr len : ℕ} (flags : BitVec 32) (granted : Bool)

lemma mmMap_of_not_user (hu : ¬UserAccess (mapStart addr) (mapEnd addr len)) :
    mmMap addr len flags granted mm = .ok (.error .inval, mm) := by
  rw [mmMap, if_pos hu]
  rfl

/-- A range that starts in an area is refused. -/
lemma mmMap_of_area (h : Areas mm) (hu : UserAccess (mapStart addr) (mapEnd addr len))
    {vma : VmaStruct} (hm : vma ∈ mm.mmapList) (hhas : vma.Has (mapStart addr)) :
    ∃ mm', mmMap addr len flags granted mm = .ok (.error .inval, mm') ∧ Visited mm mm' := by
  obtain ⟨mm', e, hv⟩ := findVma_apply h (mapStart addr)
  rw [h.area_eq_some.mpr ⟨hm, hhas⟩] at e
  have hlt : vma.vmStart < mapEnd addr len := hhas.1.trans_lt hu.2.1
  refine ⟨mm', ?_, hv⟩
  rw [mmMap, if_neg (not_not.mpr hu), bind_of_ok e, if_pos (by simpa using hlt)]
  rfl

/-- **A range that starts in no area** is added, unless it reaches into an area. -/
lemma mmMap_of_gap (h : Areas mm) (hu : UserAccess (mapStart addr) (mapEnd addr len))
    (hno : ∀ vma ∈ mm.mmapList, ¬vma.Has (mapStart addr)) :
    ∃ mm', Visited mm mm' ∧ mmMap addr len flags granted mm =
      if granted then
        if mm.FreeRange (mapStart addr) (mapEnd addr len) then
          .ok (.ok ⟨mapStart addr, mapEnd addr len, flags⟩,
            mm'.addArea ⟨mapStart addr, mapEnd addr len, flags⟩)
        else .error .overlap
      else .ok (.error .noMem, mm') := by
  obtain ⟨mm', e, hv⟩ := findVma_apply h (mapStart addr)
  rw [Areas.area_eq_none.mpr hno] at e
  refine ⟨mm', hv, ?_⟩
  rw [mmMap, if_neg (not_not.mpr hu), bind_of_ok e, if_neg (by simp)]
  cases granted with
  | false => rfl
  | true =>
    have hins := @insertVmaStruct_apply mm' ⟨mapStart addr, mapEnd addr len, flags⟩ hv.areas hu.2.1
      (by rw [hv.list]; exact hno)
    have hfr : mm'.FreeRange (mapStart addr) (mapEnd addr len) ↔
        mm.FreeRange (mapStart addr) (mapEnd addr len) := by
      unfold MmStruct.FreeRange
      rw [hv.list]
    rw [if_pos rfl, if_pos rfl]
    by_cases hfree : mm.FreeRange (mapStart addr) (mapEnd addr len)
    · rw [if_pos (hfr.mpr hfree)] at hins
      rw [if_pos hfree, bind_of_ok hins]
      rfl
    · rw [if_neg fun hc => hfree (hfr.mp hc)] at hins
      rw [if_neg hfree, bind_of_error hins]

/-- **`mm_map` does what it should iff the range is clear.** -/
lemma mapExact_iff (h : Areas mm) : MapExact mm addr len flags ↔ Clear mm addr len := by
  unfold MapExact Clear
  by_cases hu : UserAccess (mapStart addr) (mapEnd addr len)
  · rw [forall_prop_of_true hu]
    simp only [hu, true_and]
    by_cases hin : ∃ vma ∈ mm.mmapList, vma.Has (mapStart addr)
    · obtain ⟨vma, hm, hhas⟩ := hin
      obtain ⟨mm', e, hv⟩ := mmMap_of_area flags true h hu hm hhas
      have hnot : ¬mm.FreeRange (mapStart addr) (mapEnd addr len) := by
        intro hfree
        have := hfree vma hm
        have := hu.2.1
        unfold VmaStruct.Has Intervals.At at hhas
        omega
      refine iff_of_true ⟨_, mm', e, ?_⟩ (.inl ⟨vma, hm, hhas⟩)
      rw [if_neg hnot]
      exact ⟨rfl, hv.count, hv.list⟩
    · have hno : ∀ vma ∈ mm.mmapList, ¬vma.Has (mapStart addr) := fun vma hm hhas =>
        hin ⟨vma, hm, hhas⟩
      obtain ⟨mm', hv, e⟩ := mmMap_of_gap flags true h hu hno
      rw [if_pos rfl] at e
      rw [or_iff_right hin]
      by_cases hfree : mm.FreeRange (mapStart addr) (mapEnd addr len)
      · rw [if_pos hfree] at e
        refine iff_of_true ⟨_, _, e, ?_⟩ hfree
        rw [if_pos hfree]
        refine ⟨rfl, congrArg (· + 1) hv.count, fun vma => ?_⟩
        rw [mem_addArea, hv.list]
      · rw [if_neg hfree] at e
        refine iff_of_false ?_ hfree
        rintro ⟨ret, mm'', e', -⟩
        rw [e] at e'
        cases e'
  · refine iff_of_true ⟨_, mm, mmMap_of_not_user flags true hu, ?_⟩ fun hc => absurd hc hu
    rw [if_neg fun hc => hu hc.1]
    exact ⟨rfl, rfl, rfl⟩

/-- The areas are in order, and `map_count` is their number. -/
structure CountedAreas (mm : MmStruct) : Prop extends Areas mm where
  count : mm.mapCount = mm.mmapList.length

lemma CountedAreas.visited (h : CountedAreas mm) (hv : Visited mm mm') : CountedAreas mm' := by
  refine ⟨hv.areas, ?_⟩
  rw [hv.count, hv.list, h.count]

lemma CountedAreas.addArea (h : CountedAreas mm) {vma : VmaStruct} (hp : vma.vmStart < vma.vmEnd)
    (hfree : mm.FreeRange vma.vmStart vma.vmEnd) : CountedAreas (mm.addArea vma) := by
  refine ⟨h.toAreas.addArea hp hfree, ?_⟩
  have hlen : mm.mmapList.length =
      (mm.mmapList.takeWhile fun v => decide (v.vmStart ≤ vma.vmStart)).length +
        (mm.mmapList.dropWhile fun v => decide (v.vmStart ≤ vma.vmStart)).length := by
    rw [← length_append, takeWhile_append_dropWhile]
  have := h.count
  simp only [MmStruct.addArea, length_append, length_cons]
  omega

/-- **One call** keeps the list in order. -/
lemma MmStep.counted (hstep : MmStep mm mm') (h : CountedAreas mm) : CountedAreas mm' := by
  cases hstep with
  | find addr e =>
    obtain ⟨mm'', e', hv⟩ := findVma_apply h.toAreas addr.toNat
    cases e.symm.trans e'
    exact h.visited hv
  | map addr len flags granted hc e =>
    by_cases hu : UserAccess (mapStart addr.toNat) (mapEnd addr.toNat len.toNat)
    · by_cases hin : ∃ vma ∈ mm.mmapList, vma.Has (mapStart addr.toNat)
      · obtain ⟨vma, hm, hhas⟩ := hin
        obtain ⟨mm'', e', hv⟩ := mmMap_of_area flags granted h.toAreas hu hm hhas
        cases e.symm.trans e'
        exact h.visited hv
      · obtain ⟨mm'', hv, e'⟩ := mmMap_of_gap flags granted h.toAreas hu
          fun vma hm hhas => hin ⟨vma, hm, hhas⟩
        have hfree := (hc hu).resolve_left hin
        rw [if_pos hfree] at e'
        cases granted with
        | false =>
          cases e.symm.trans e'
          exact h.visited hv
        | true =>
          cases e.symm.trans e'
          refine (h.visited hv).addArea hu.2.1 ?_
          unfold MmStruct.FreeRange
          rw [hv.list]
          exact hfree
    · cases e.symm.trans (mmMap_of_not_user flags granted hu)
      exact h

/-- **A run** keeps the list in order. -/
lemma CountedAreas.run (h : CountedAreas mm) (hr : ReflTransGen MmStep mm mm') :
    CountedAreas mm' := by
  induction hr with
  | refl => exact h
  | tail _ hstep ih => exact hstep.counted ih

lemma mmCreate_countedAreas : CountedAreas mmCreate :=
  ⟨⟨.nil, fun _ hv => by cases hv⟩, rfl⟩

end Map

/-- **`mm_map` and `find_vma` in all reachable states.** After any calls on a new address space, the
ranges of the calls of `mm_map` being clear: the areas are in order and disjoint, `map_count` is
their number, `find_vma` returns the one area that has the address, whatever is cached, and `mm_map`
does what it should iff the range is clear. -/
theorem mm_map_exact_iff {mm : MmStruct} (hr : ReflTransGen MmStep mmCreate mm) :
    (Areas mm ∧ mm.mapCount = mm.mmapList.length) ∧
      (∀ addr : BitVec 64, ∃ ret mm', findVma addr.toNat mm = .ok (ret, mm') ∧
        mm'.mmapList = mm.mmapList ∧ mm'.mapCount = mm.mapCount ∧
        ∀ vma, ret = some vma ↔ vma ∈ mm.mmapList ∧ vma.Has addr.toNat) ∧
      ∀ (addr len : BitVec 64) (flags : BitVec 32),
        MapExact mm addr.toNat len.toNat flags ↔ Clear mm addr.toNat len.toNat := by
  have h := mmCreate_countedAreas.run hr
  refine ⟨⟨h.toAreas, h.count⟩, fun addr => ?_, fun addr len flags => mapExact_iff flags h.toAreas⟩
  obtain ⟨mm', e, hv⟩ := findVma_apply h.toAreas addr.toNat
  exact ⟨_, mm', e, hv.list, hv.count, fun vma => h.area_eq_some⟩

/-- An address space with one page at `0x800000`. -/
def onePage : MmStruct := mmCreate.addArea ⟨0x800000, 0x801000, vmRead⟩

lemma onePage_reach : ReflTransGen MmStep mmCreate onePage := by
  have e : mmMap 0x800000 4096 vmRead true mmCreate =
      .ok (.ok ⟨0x800000, 0x801000, vmRead⟩, onePage) := rfl
  exact .single (.map 0x800000#64 4096#64 vmRead true
    (fun _ => .inr fun vma hv => absurd hv not_mem_nil) e)

/-- After an area of one page, the page behind it is mapped. -/
theorem mm_map_exact_onePage :
    ReflTransGen MmStep mmCreate onePage ∧ MapExact onePage 0x801000 4096 vmRead :=
  ⟨onePage_reach, ((mm_map_exact_iff onePage_reach).2.2 0x801000#64 4096#64 vmRead).mpr
    fun _ => .inr (by decide)⟩

/-- **An overlap that is not rejected**: with an area `[0x800000, 0x801000)`, a call of `mm_map` for
the two pages from `0x7ff000` on should return `-E_INVAL`; an assertion of `check_vma_overlap`
fails. -/
theorem mm_map_overlap_panics :
    ReflTransGen MmStep mmCreate onePage ∧
      mmMap 0x7ff000 0x2000 vmRead true onePage = .error .overlap ∧
      ¬MapExact onePage 0x7ff000 0x2000 vmRead := by
  have e : mmMap 0x7ff000 0x2000 vmRead true onePage = .error .overlap := rfl
  refine ⟨onePage_reach, e, ?_⟩
  rintro ⟨ret, mm', e', -⟩
  rw [e] at e'
  cases e'

end Ucore
