import Ucore.Lib.Bytes
import Ucore.Mm.VmmSpec

set_option autoImplicit false

/-!
# `copy_string` (`lab8/kern/mm/vmm.c`)

A string is copied from user space piece by piece: each piece ends at the end of a page, and is
checked before it is read. The model keeps a log of the pieces that have been approved and of the
bytes that have been read.

## Main definitions

* `copyString` — the function.
* `CopyState.EndsAt` — a readable string of a certain length.
* `Guarded` — nothing is read that has not been approved before.

## Main results

* `copyStringLoop_apply` — the loop.
* `copy_string_exact` — the function.
-/

namespace Ucore

open Comp Bytes

/-! ## The function -/

/-- What has happened to user memory: the check of a piece has succeeded, or it has been read. -/
inductive CopyEvent
  | approved (start len : ℕ)
  | read (start len : ℕ)

/-- The address space, the memory, and what has happened so far, the newest event first. -/
structure CopyState where
  mm : MmStruct
  mem : Bytes
  log : List CopyEvent

/-- `user_mem_check(mm, start, len, 0)` -/
def checkPiece (start len : ℕ) : Comp VmPanic CopyState Bool := do
  let ok ← Comp.zoom CopyState.mm (fun mm s => { s with mm }) id (userMemCheck start len false)
  if ok then do
    Comp.modify fun s => { s with log := .approved start len :: s.log }
    pure true
  else pure false

/-- `strnlen(src, len)` in user space: the zero that ends the string is read, too. -/
def userStrnlen (src len : ℕ) : Comp VmPanic CopyState ℕ := do
  let s ← Comp.read
  let alen := s.mem.strnlen src len
  Comp.modify fun s => { s with log := .read src (min (alen + 1) len) :: s.log }
  pure alen

/-- `memcpy(dst, src, len)` from user space. -/
def userMemcpy (dst src len : ℕ) : Comp VmPanic CopyState Unit :=
  Comp.modify fun s => { s with mem := s.mem.copy dst s.mem src len, log := .read src len :: s.log }

/-- The loop of `copy_string`, of at most `n` rounds. -/
def copyStringLoop : ℕ → ℕ → ℕ → ℕ → ℕ → Comp VmPanic CopyState Bool
  | 0, _, _, _, _ => Comp.halt .diverges
  | n + 1, dst, src, maxn, part => do
    let ok ← checkPiece src (min part maxn)
    if ok then do
      let alen ← userStrnlen src (min part maxn)
      if alen < min part maxn then do
        userMemcpy dst src (alen + 1)
        pure true
      else if min part maxn = maxn then pure false
      else do
        userMemcpy dst src (min part maxn)
        copyStringLoop n (addAddr dst (min part maxn)) (addAddr src (min part maxn))
          (maxn - min part maxn) pgSize
    else pure false

/-- The distance to the end of the page:
`ROUNDDOWN((uintptr_t)src + PGSIZE, PGSIZE) - (uintptr_t)src` -/
def pageRest (src : ℕ) : ℕ := (roundDown (addAddr src pgSize) pgSize + 2 ^ 64 - src) % 2 ^ 64

/-- `copy_string` -/
def copyString (dst src maxn : ℕ) : Comp VmPanic CopyState Bool :=
  copyStringLoop (maxn + 1) dst src maxn (pageRest src)

/-! ## Strings in user space -/

/-- The areas consist of whole pages. -/
def PageAligned (mm : MmStruct) : Prop :=
  ∀ vma ∈ mm.mmapList, vma.vmStart % pgSize = 0 ∧ vma.vmEnd % pgSize = 0

/-- A byte of user space that may be read. -/
def MmStruct.Readable (mm : MmStruct) (a : ℕ) :
    Prop := userBase ≤ a ∧ a < userTop ∧ mm.Permits false a

/-- The byte `src[k]` is zero, and everything up to it may be read. -/
def CopyState.EndsAt (s : CopyState) (src k : ℕ) : Prop :=
  s.mem (src + k) = 0 ∧ ∀ i ≤ k, s.mm.Readable (src + i)

/-- **Nothing is read that has not been approved before.** -/
def Guarded : List CopyEvent → Prop
  | [] => True
  | .approved _ _ :: log => Guarded log
  | .read a n :: log => (∃ b m, .approved b m ∈ log ∧ b ≤ a ∧ a + n ≤ b + m) ∧ Guarded log

/-- The buffer `[dst, dst + n)` lies outside of user space. -/
structure KernelBuffer (dst n : ℕ) : Prop where
  fits : dst + n ≤ 2 ^ 64
  outside : dst + n ≤ userBase ∨ userTop ≤ dst

section Copy

variable {mm mm' : MmStruct} {s : CopyState} {a b dst src part maxn k : ℕ}

lemma Visited.readable_iff (hv : Visited mm mm') : mm'.Readable a ↔ mm.Readable a := by
  unfold MmStruct.Readable MmStruct.Permits
  rw [hv.list]

lemma Visited.pageAligned (hv : Visited mm mm') (h : PageAligned mm) : PageAligned mm' := by
  unfold PageAligned
  rwa [hv.list]

lemma PageAligned.readable (h : PageAligned mm) (ha : mm.Readable a)
    (hb : a / pgSize = b / pgSize) : mm.Readable b := by
  obtain ⟨h1, h2, vma, hm, ⟨h3, h4⟩, h5⟩ := ha
  obtain ⟨h6, h7⟩ := h vma hm
  unfold userBase userTop pgSize at *
  refine ⟨by unfold userBase; omega, by unfold userTop; omega, vma, hm, ⟨by omega, by omega⟩, h5.1,
    fun hw => ?_⟩
  cases hw

/-- **The check of a piece** in terms of its bytes. -/
lemma checkPiece_apply (h : Areas s.mm) (hp : 0 < part) (hlt : part < 2 ^ 64) :
    ∃ mm', Visited s.mm mm' ∧
      ((∀ i < part, s.mm.Readable (src + i)) ∧
          checkPiece src part s = .ok (true, ⟨mm', s.mem, .approved src part :: s.log⟩) ∨
        (¬∀ i < part, s.mm.Readable (src + i)) ∧
          checkPiece src part s = .ok (false, ⟨mm', s.mem, s.log⟩)) := by
  obtain ⟨r, mm', e, hv, hr⟩ := userMemCheck_apply h src part hlt false
  have hiff : r = true ↔ ∀ i < part, s.mm.Readable (src + i) := by
    rw [hr]
    constructor
    · rintro ⟨⟨h1, h2, h3⟩, h4⟩ i hi
      exact ⟨by omega, by omega, h4 (src + i) (by omega) (by omega)⟩
    · intro hall
      have h1 := hall 0 hp
      have h2 := hall (part - 1) (by omega)
      refine ⟨⟨h1.1, by omega, ?_⟩, fun a ha ha' => ?_⟩
      · have := h2.2.1
        omega
      · have := (hall (a - src) (by omega)).2.2
        rwa [Nat.add_sub_cancel' ha] at this
  refine ⟨mm', hv, ?_⟩
  unfold checkPiece
  rw [bind_of_ok (zoom_of_ok e)]
  cases r with
  | true => exact .inl ⟨hiff.mp rfl, rfl⟩
  | false => exact .inr ⟨fun hc => absurd (hiff.mpr hc) Bool.false_ne_true, rfl⟩

/-- What `copy_string` does with `maxn` bytes from `src` on. -/
structure Copied (s t : CopyState) (dst src maxn : ℕ) (r : Bool) : Prop where
  visited : Visited s.mm t.mm
  guarded : Guarded s.log → Guarded t.log
  returns_iff : r = true ↔ ∃ k < maxn, s.EndsAt src k
  found : ∀ k < maxn, s.EndsAt src k → (∀ j < k, s.mem (src + j) ≠ 0) →
    t.mem = s.mem.copy dst s.mem src (k + 1)
  failed : r = false → ∃ m < maxn, (∀ i < m, s.mm.Readable (src + i)) ∧
    t.mem = s.mem.copy dst s.mem src m

lemma KernelBuffer.copy_apply {m : Bytes} {n : ℕ} (hk : KernelBuffer dst maxn) (hn : n ≤ maxn)
    (ha : userBase ≤ a ∧ a < userTop) : m.copy dst m src n a = m a := by
  apply copy_of_notMem
  have := hk.outside
  omega

/-- **The rest of the string** after a piece that has no zero. -/
lemma Copied.of_rest {t u : CopyState} {r : Bool} (hk : KernelBuffer dst maxn) (hlt : part < maxn)
    (hmem : t.mem = s.mem.copy dst s.mem src part) (hv : Visited s.mm t.mm)
    (hg : Guarded s.log → Guarded t.log) (hread : ∀ i < part, s.mm.Readable (src + i))
    (hno : ∀ i < part, s.mem (src + i) ≠ 0) (hp : 0 < part)
    (h : Copied t u (dst + part) (src + part) (maxn - part) r) : Copied s u dst src maxn r := by
  -- the source of the rest is in user space, so the first piece has not changed it
  have huser : ∀ i, s.mm.Readable (src + i) → t.mem (src + i) = s.mem (src + i) := by
    intro i hi
    rw [hmem]
    exact hk.copy_apply hlt.le ⟨hi.1, hi.2.1⟩
  have hends : ∀ k, s.EndsAt src (part + k) ↔ t.EndsAt (src + part) k := by
    intro k
    unfold CopyState.EndsAt
    simp only [hv.readable_iff, Nat.add_assoc]
    constructor
    · rintro ⟨h0, hall⟩
      refine ⟨by rw [huser _ (hall _ le_rfl), h0], fun i hi => hall (part + i) (by omega)⟩
    · rintro ⟨h0, hall⟩
      refine ⟨by rw [← huser _ (hall k le_rfl), h0], fun i hi => ?_⟩
      by_cases hip : i < part
      · exact hread i hip
      · have := hall (i - part) (by omega)
        rwa [Nat.add_sub_cancel' (by omega)] at this
  have hsplit : ∀ k, s.EndsAt src k → ∃ k', k = part + k' ∧ t.EndsAt (src + part) k' := by
    intro k hk'
    have hge : part ≤ k := by
      by_contra hlt'
      exact hno k (by omega) hk'.1
    refine ⟨k - part, by omega, (hends (k - part)).mp ?_⟩
    rwa [Nat.add_sub_cancel' hge]
  have hcopy : ∀ n, (∀ i < n, s.mm.Readable (src + (part + i))) →
      t.mem.copy (dst + part) t.mem (src + part) n = s.mem.copy dst s.mem src (part + n) := by
    intro n hall
    have h0 := hread (part - 1) (by omega)
    have h1 := h0.1
    have h2 := h0.2.1
    have hout := hk.outside
    rw [hmem]
    apply copy_append
    rcases Nat.eq_zero_or_pos n with rfl | hpos
    · omega
    · have h3 := (hall (n - 1) (by omega)).2.1
      omega
  refine ⟨hv.trans h.visited, fun hs => h.guarded (hg hs), h.returns_iff.trans ⟨?_, ?_⟩, ?_,
    fun hr => ?_⟩
  · rintro ⟨k, hlt', hk'⟩
    exact ⟨part + k, by omega, (hends k).mpr hk'⟩
  · rintro ⟨k, hlt', hk'⟩
    obtain ⟨k', rfl, hk''⟩ := hsplit k hk'
    exact ⟨k', by omega, hk''⟩
  · intro k hlt' hk' hmin
    obtain ⟨k', rfl, hk''⟩ := hsplit k hk'
    have hmin' : ∀ j < k', t.mem (src + part + j) ≠ 0 := by
      intro j hj
      rw [Nat.add_assoc, huser _ (hk'.2 (part + j) (by omega))]
      exact hmin (part + j) (by omega)
    rw [h.found k' (by omega) hk'' hmin', hcopy (k' + 1) fun i hi => hk'.2 (part + i) (by omega),
      Nat.add_assoc]
  · obtain ⟨m, hm, hall, e⟩ := h.failed hr
    have hall' : ∀ i < m, s.mm.Readable (src + (part + i)) := by
      intro i hi
      rw [← Nat.add_assoc, ← hv.readable_iff]
      exact hall i hi
    refine ⟨part + m, by omega, fun i hi => ?_, by rw [e, hcopy m hall']⟩
    by_cases hip : i < part
    · exact hread i hip
    · have := hall' (i - part) (by omega)
      rwa [Nat.add_sub_cancel' (by omega)] at this

/-- **The loop of `copy_string`** returns and copies the string.

**Proof sketch.** Induction on the number of rounds. If the first byte of a piece may be read, so
may the whole piece, as it lies in one page; so a piece that is refused has no readable string. A
piece without a zero is copied, and the rest is what the next rounds do. -/
lemma copyStringLoop_apply :
    ∀ (n dst src maxn part : ℕ) (s : CopyState), Areas s.mm → PageAligned s.mm →
      KernelBuffer dst maxn → 0 < maxn → maxn ≤ n → 0 < part → part ≤ pgSize →
      (src + part) % pgSize = 0 →
    Returns (copyStringLoop n dst src maxn part) s fun r t => Copied s t dst src maxn r := by
  intro n
  induction n with
  | zero => intro dst src maxn part s _ _ _ h0 hn; omega
  | succ n ih =>
    intro dst src maxn part s ha hal hk h0 hn hp hle hmod
    have hfits := hk.fits
    have hout := hk.outside
    set p := min part maxn with hpdef
    have hp0 : 0 < p := by omega
    -- the piece lies in the page of its first byte
    have hpage : s.mm.Readable src → ∀ i < p, s.mm.Readable (src + i) := by
      intro hr i hi
      refine hal.readable hr ?_
      unfold pgSize at *
      omega
    have hlt64 : p < 2 ^ 64 := by
      unfold userBase userTop at hout
      omega
    obtain ⟨mm', hv, ⟨hall, e⟩ | ⟨hnot, e⟩⟩ := @checkPiece_apply s src p ha hp0 hlt64
    · rw [Comp.Returns, copyStringLoop, ← hpdef, bind_of_ok e, if_pos rfl, bind_of_ok rfl]
      set alen := s.mem.strnlen src p with halen
      have hnz : ∀ i < alen, s.mem (src + i) ≠ 0 := fun i hi => ne_zero_of_lt_strnlen hi
      by_cases hend : alen < p
      · -- the string ends in this piece
        have hzero : s.EndsAt src alen :=
          ⟨eq_zero_of_strnlen_lt hend, fun i hi => hall i (by omega)⟩
        refine ⟨true, _, by rw [if_pos hend, bind_of_ok rfl]; rfl, hv, fun hg => ?_, ?_, ?_, ?_⟩
        · have happ : CopyEvent.approved src p ∈ .approved src p :: s.log := List.mem_cons_self
          exact ⟨⟨src, p, List.mem_cons_of_mem _ happ, le_rfl, by omega⟩,
            ⟨src, p, happ, le_rfl, by omega⟩, hg⟩
        · exact iff_of_true rfl ⟨alen, by omega, hzero⟩
        · intro k _ hk' hmin
          have : k = alen := by
            rcases lt_trichotomy k alen with h | h | h
            · exact absurd hk'.1 (hnz k h)
            · exact h
            · exact absurd hzero.1 (hmin alen h)
          rw [this]
        · intro hc
          cases hc
      · have hno : ∀ i < p, s.mem (src + i) ≠ 0 := fun i hi => hnz i (by omega)
        rw [if_neg hend]
        by_cases hlast : p = maxn
        · -- the bound has been reached
          have hnone : ¬∃ k < maxn, s.EndsAt src k := by
            rintro ⟨k, hlt, hends⟩
            exact hno k (by omega) hends.1
          refine ⟨false, _, by rw [if_pos hlast]; rfl, hv, fun hg => ?_, ?_, ?_, fun _ => ?_⟩
          · exact ⟨⟨src, p, List.mem_cons_self, le_rfl, by omega⟩, hg⟩
          · exact iff_of_false Bool.false_ne_true hnone
          · intro k hlt hends
            exact absurd ⟨k, hlt, hends⟩ hnone
          · exact ⟨0, h0, fun i hi => absurd hi (Nat.not_lt_zero i), (copy_zero _ _).symm⟩
        · -- the next piece is a whole page
          have hpp : p = part := by omega
          have h1 := (hall (p - 1) (by omega)).2.1
          have hsrc : addAddr src p = src + p := by
            unfold addAddr userTop at *
            omega
          have hdst : addAddr dst p = dst + p := by
            unfold addAddr
            omega
          rw [if_neg hlast, bind_of_ok rfl, hsrc, hdst]
          let c : CopyState := ⟨mm', s.mem.copy dst s.mem src p,
            .read src p :: .read src (min (alen + 1) p) :: .approved src p :: s.log⟩
          have hkr : KernelBuffer (dst + p) (maxn - p) := ⟨by omega, by omega⟩
          obtain ⟨r, t, e', ht⟩ := ih (dst + p) (src + p)
            (maxn - p) pgSize c hv.areas (hv.pageAligned hal) hkr (by omega) (by omega)
            (by decide) le_rfl (by rw [hpp, Nat.add_mod_right, hmod])
          refine ⟨r, t, e', Copied.of_rest (t := c) hk (by omega) rfl hv (fun hg => ?_) hall
            hno hp0 ht⟩
          have happ : CopyEvent.approved src p ∈ .approved src p :: s.log := List.mem_cons_self
          exact ⟨⟨src, p, List.mem_cons_of_mem _ happ, le_rfl, le_rfl⟩,
            ⟨src, p, happ, le_rfl, by omega⟩, hg⟩
    · have hnone : ¬∃ k < maxn, s.EndsAt src k := by
        rintro ⟨k, -, hends⟩
        exact hnot (hpage (hends.2 0 (Nat.zero_le k)))
      rw [Comp.Returns, copyStringLoop, ← hpdef, bind_of_ok e]
      refine ⟨false, ⟨mm', s.mem, s.log⟩, rfl, hv, id, ?_, ?_, fun _ => ?_⟩
      · exact iff_of_false Bool.false_ne_true hnone
      · intro k hlt hends
        exact absurd ⟨k, hlt, hends⟩ hnone
      · exact ⟨0, h0, fun i hi => absurd hi (Nat.not_lt_zero i), (copy_zero _ _).symm⟩

lemma pageRest_spec (h : src < 2 ^ 64) :
    0 < pageRest src ∧ pageRest src ≤ pgSize ∧ (src + pageRest src) % pgSize = 0 := by
  unfold pageRest roundDown addAddr pgSize
  omega

end Copy

/-- **`copy_string` is exact.** For an address space of page-aligned areas in order, a buffer
outside of user space, every source address, bound and memory: `copy_string` returns; it returns `1`
iff a readable string ends within the bound; then exactly the string is copied up to and with the
first zero. If it returns `0`, nothing behind the buffer has been written. Nothing is read that has
not been approved. -/
theorem copy_string_exact {s : CopyState} (ha : Areas s.mm) (hal : PageAligned s.mm)
    (hlog : s.log = []) (dst maxn : ℕ) (hk : KernelBuffer dst maxn) (hmax : 0 < maxn)
    (src : BitVec 64) : ∃ r t, copyString dst src.toNat maxn s = .ok (r, t) ∧
      (r = true ↔ ∃ k < maxn, s.EndsAt src.toNat k) ∧
      (∀ k < maxn, s.EndsAt src.toNat k → (∀ j < k, ¬s.EndsAt src.toNat j) →
        (∀ i ≤ k, t.mem (dst + i) = s.mem (src.toNat + i)) ∧
          ∀ a, a < dst ∨ dst + k < a → t.mem a = s.mem a) ∧
      (r = false → ∀ a, a < dst ∨ dst + maxn ≤ a → t.mem a = s.mem a) ∧ Guarded t.log := by
  obtain ⟨h1, h2, h3⟩ := pageRest_spec src.isLt
  obtain ⟨r, t, e, hc⟩ := copyStringLoop_apply (maxn + 1) dst src.toNat maxn (pageRest src.toNat)
    s ha hal hk hmax (Nat.le_succ maxn) h1 h2 h3
  refine ⟨r, t, e, hc.returns_iff, fun k hlt hends hmin => ?_, fun hr a hout => ?_, hc.guarded ?_⟩
  · have hnz : ∀ j < k, s.mem (src.toNat + j) ≠ 0 := fun j hj h0 =>
      hmin j hj ⟨h0, fun i hi => hends.2 i (by omega)⟩
    rw [hc.found k hlt hends hnz]
    constructor
    · intro i hi
      rw [copy_of_mem _ _ (by omega) (by omega), Nat.add_sub_cancel_left]
    · intro a hout
      exact copy_of_notMem _ _ (by omega)
  · obtain ⟨m, hm, -, em⟩ := hc.failed hr
    rw [em]
    exact copy_of_notMem _ _ (by omega)
  · rw [hlog]
    trivial

/-- The string of the bytes `1`, `2`, `3` at `0x801ffe`, across the border of the two areas. -/
def threeBytes : CopyState where
  mm := textAndStack
  mem a := if a = 0x801ffe then 1 else if a = 0x801fff then 2 else if a = 0x802000 then 3 else 0
  log := []

/-- It is copied to the kernel. -/
theorem copy_string_exact_threeBytes :
    ∃ t, copyString 0xffffffffc0300000 0x801ffe 16 threeBytes = .ok (true, t) ∧
      (∀ i ≤ 3, t.mem (0xffffffffc0300000 + i) = threeBytes.mem (0x801ffe + i)) ∧
      Guarded t.log := by
  have hal : PageAligned textAndStack := by
    unfold PageAligned
    decide
  have hstr : threeBytes.EndsAt 0x801ffe 3 := by
    refine ⟨rfl, fun i hi => ⟨by unfold userBase; omega, by unfold userTop; omega, ?_⟩⟩
    by_cases hlt : 0x801ffe + i < 0x802000
    · exact ⟨_, List.mem_cons_self, ⟨by change 0x800000 ≤ _; omega, hlt⟩, by decide,
        fun hw => by cases hw⟩
    · exact ⟨_, List.mem_cons_of_mem _ List.mem_cons_self, ⟨by change 0x802000 ≤ _; omega,
        by change _ < 0x806000; omega⟩, by decide, fun hw => by cases hw⟩
  have hmin : ∀ j < 3, ¬threeBytes.EndsAt 0x801ffe j := by
    have hnz : ∀ j : Fin 3, threeBytes.mem (0x801ffe + j) ≠ 0 := by decide
    exact fun j hj hends => hnz ⟨j, hj⟩ hends.1
  obtain ⟨r, t, e, h1, h2, -, h3⟩ := copy_string_exact (s := threeBytes) textAndStack_areas hal rfl
    0xffffffffc0300000 16 ⟨by decide, by decide⟩ (by decide) 0x801ffe#64
  obtain rfl := h1.mpr ⟨3, by decide, hstr⟩
  exact ⟨t, e, (h2 3 (by decide) hstr hmin).1, h3⟩

end Ucore
