import Ucore.Fs.Sfs.Bitmap

set_option autoImplicit false

/-!
# The freemap is a finite set

A bitmap represents the set of its set bits. `bitmap_create` makes the set of all indices, and the
calls do to the bitmap what the operations of a finite set do to the set.

## Main definitions

* `BitmapCall`, `BitmapCall.exec` — the calls and what they do to a bitmap.
* `BitmapCall.SetStep` — what they do to a set.
* `BitmapRun` — the bitmaps that calls lead to.

## Main results

* `bitmap_refines_set` — along every run the calls are the operations of the set.
-/

namespace Ucore

open Bitmap

/-! ## The calls -/

/-- The calls on a bitmap. -/
inductive BitmapCall
  | alloc
  | free (index : ℕ)
  | test (index : ℕ)

/-- What a call returns: the index, nothing standing for `-E_NO_MEM`; nothing; or whether the value
is not zero. -/
inductive BitmapRet
  | index (found : Option ℕ)
  | none
  | value (v : Bool)

namespace BitmapCall

/-- What a call returns, and the bitmap after it. -/
def exec (b : Bitmap) : BitmapCall → Except BitmapPanic (BitmapRet × Bitmap)
  | alloc => (bitmapAlloc b).map fun
    | .none => (.index .none, b)
    | some (i, b') => (.index (some i), b')
  | free i => (bitmapFree b i).map fun b' => (.none, b')
  | test i => (bitmapTest b i).map fun v => (.value v, b)

/-- The calls that are made: indices are in range, and what is freed is in use. -/
def Allowed (nbits : ℕ) (S : Finset ℕ) : BitmapCall → Prop
  | alloc => True
  | free i => i < nbits ∧ i ∉ S
  | test i => i < nbits

/-- What a call does to a set: `alloc` takes the least element, if there is one. -/
def SetStep (S : Finset ℕ) (ret : BitmapRet) (T : Finset ℕ) : BitmapCall → Prop
  | alloc => (S = ∅ ∧ ret = .index .none ∧ T = S) ∨
      ∃ i, IsLeast (S : Set ℕ) i ∧ ret = .index (some i) ∧ T = S.erase i
  | free i => ret = .none ∧ T = insert i S
  | test i => ret = .value (i ∈ S) ∧ T = S

end BitmapCall

/-- The bitmaps that calls lead to from `bitmap_create(nbits)`. -/
inductive BitmapRun (nbits : ℕ) : Bitmap → Prop
  | create {b : Bitmap} (h : bitmapCreate nbits = .ok b) : BitmapRun nbits b
  | call {b b' : Bitmap} {c : BitmapCall} {ret : BitmapRet} (hr : BitmapRun nbits b)
      (hc : c.Allowed nbits b.free) (h : c.exec b = .ok (ret, b')) : BitmapRun nbits b'

/-! ## The calls on the set -/

section Calls

variable {nbits : ℕ} {b b' : Bitmap} {c : BitmapCall} {ret : BitmapRet}

/-- The set bits of a bitmap are in range. -/
structure Bitmap.Bounded (nbits : ℕ) (b : Bitmap) : Prop where
  nbits : b.nbits = nbits
  words : b.nbits ≤ b.nwords * wordBits
  lt : ∀ i ∈ b.free, i < b.nbits

/-- **One call**: it returns, and is the operation of the set. -/
lemma BitmapCall.exec_step (h : b.Bounded nbits) (hc : c.Allowed nbits b.free) :
    ∃ ret b', c.exec b = .ok (ret, b') ∧ c.SetStep b.free ret b'.free ∧ b'.Bounded nbits := by
  cases c with
  | alloc =>
    rcases bitmapAlloc_spec b with ⟨he, e⟩ | ⟨i, hi, hleast, e⟩
    · refine ⟨.index none, b, ?_, .inl ⟨he, rfl, rfl⟩, h⟩
      rw [exec, e]
      rfl
    · refine ⟨.index (some i), b.take i, ?_, .inr ⟨i, ⟨hi, hleast⟩, rfl, free_take hi⟩, h.nbits,
        h.words, fun j hj => ?_⟩
      · rw [exec, e]
        rfl
      · rw [free_take hi] at hj
        exact h.lt j (Finset.mem_of_mem_erase hj)
  | free i =>
    have hi : i < b.nbits := h.nbits ▸ hc.1
    have hw : i < b.nwords * wordBits := hi.trans_le h.words
    have hbit : b.bit i = false := by
      by_contra hb
      exact hc.2 (mem_free.mpr ⟨hw, by simpa using hb⟩)
    refine ⟨.none, b.give i, ?_, ⟨rfl, free_give hw⟩, h.nbits, h.words, fun j hj => ?_⟩
    · rw [exec, bitmapFree_apply hi hbit]
      rfl
    · rw [free_give hw, Finset.mem_insert] at hj
      rcases hj with rfl | hj
      · exact hi
      · exact h.lt j hj
  | test i =>
    have hi : i < b.nbits := h.nbits ▸ hc
    refine ⟨.value (b.bit i), b, ?_, ⟨?_, rfl⟩, h⟩
    · rw [exec, bitmapTest_apply hi]
      rfl
    · simp [mem_free, hi.trans_le h.words]

lemma BitmapRun.bounded (h0 : 0 < nbits) (hr : BitmapRun nbits b) : b.Bounded nbits := by
  induction hr with
  | create h =>
    obtain ⟨_, e, hn, hw, hfree⟩ := bitmapCreate_apply h0
    cases e.symm.trans h
    refine ⟨hn, ?_, fun i hi => by rwa [hfree, Finset.mem_range, ← hn] at hi⟩
    rw [hn, hw]
    unfold wordBits
    omega
  | call _ hc h ih =>
    obtain ⟨_, _, e, -, hb⟩ := BitmapCall.exec_step ih hc
    cases e.symm.trans h
    exact hb

/-- **The bitmap refines a finite set.** `bitmap_create` makes the set of all indices below `nbits`;
and on every bitmap that calls lead to, every call returns and does to the set of the set bits what
it says. Only indices below `nbits` are returned. -/
theorem bitmap_refines_set (h0 : 0 < nbits) :
    (∃ b, bitmapCreate nbits = .ok b ∧ b.free = Finset.range nbits) ∧
    ∀ b, BitmapRun nbits b → ∀ c : BitmapCall, c.Allowed nbits b.free →
      ∃ ret b', c.exec b = .ok (ret, b') ∧ c.SetStep b.free ret b'.free ∧
        ∀ i, ret = .index (some i) → i < nbits := by
  obtain ⟨b₀, e, -, -, hfree⟩ := bitmapCreate_apply h0
  refine ⟨⟨b₀, e, hfree⟩, fun b hr c hc => ?_⟩
  have hb := hr.bounded h0
  obtain ⟨ret, b', e, hstep, -⟩ := BitmapCall.exec_step hb hc
  refine ⟨ret, b', e, hstep, ?_⟩
  rintro i rfl
  cases c with
  | alloc =>
    rcases hstep with ⟨-, h, -⟩ | ⟨j, hj, h, -⟩
    · cases h
    · cases h
      exact hb.nbits ▸ hb.lt i hj.1
  | free j | test j => cases hstep.1

/-- A bitmap of 33 bits, of two words: index 0 is taken and given back. -/
theorem bitmap_refines_set_two_words : ∃ b b' b'', bitmapCreate 33 = .ok b ∧
    BitmapCall.alloc.exec b = .ok (.index (some 0), b') ∧ b'.free = (Finset.range 33).erase 0 ∧
    (BitmapCall.free 0).exec b' = .ok (.none, b'') ∧ b''.free = Finset.range 33 := by
  obtain ⟨⟨b, e, hb⟩, h⟩ := bitmap_refines_set (by decide : 0 < 33)
  obtain ⟨ret, b', e', hstep, -⟩ := h b (.create e) .alloc trivial
  rcases hstep with ⟨he, -⟩ | ⟨i, hi, rfl, hb'⟩
  · rw [hb] at he
    exact absurd he (by decide)
  have h0 : i = 0 := by
    rw [hb] at hi
    exact Nat.le_zero.mp (hi.2 (by decide : (0 : ℕ) ∈ Finset.range 33))
  subst h0
  rw [hb] at hb'
  have hc : (BitmapCall.free 0).Allowed 33 b'.free := by
    rw [hb']
    exact ⟨by decide, by decide⟩
  obtain ⟨_, b'', e'', ⟨rfl, hb''⟩, -⟩ := h b' (.call (c := .alloc) (.create e) trivial e')
    (.free 0) hc
  rw [hb'] at hb''
  exact ⟨b, b', b'', e, e', hb', e'', hb''.trans (by decide)⟩

end Calls

end Ucore
