import Ucore.Lib.Comp

set_option autoImplicit false

/-!
# The freemap (`lab8/kern/fs/sfs/bitmap.c`)

Bitmaps as arrays of 32-bit words, one bit per block; a set bit is a free block.

## Main definitions

* `Bitmap` — the words; `bitmapCreate`, `bitmapAlloc`, `bitmapTest`,
  `bitmapFree`.
* `Bitmap.free` — the set of free bits.

## Main results

* `bitmapCreate_apply` — a new bitmap has all indices free.
* `bitmapAlloc_spec` — allocation takes the least free bit.
* `bitmapTest_apply`, `bitmapFree_apply` — testing and freeing.
-/

namespace Ucore

open Function

/-- `WORD_BITS` -/
def wordBits : ℕ := 32

/-- `struct bitmap` -/
structure Bitmap where
  nbits : ℕ
  nwords : ℕ
  map : ℕ → BitVec 32

/-- The assertions of `bitmap.c`. -/
inductive BitmapPanic
  /-- `assert(nbits != 0 && nbits + WORD_BITS > nbits)` in `bitmap_create` -/
  | create
  /-- the assertions on `ix` and `overbits` in `bitmap_create` -/
  | leftover
  /-- `assert(0)` in `bitmap_alloc` -/
  | alloc
  /-- `assert(index < bitmap->nbits)` in `bitmap_translate` -/
  | range
  /-- `assert(!(*word & mask))` in `bitmap_free` -/
  | free
  deriving DecidableEq, Repr

/-- The inner loop of `bitmap_alloc`: the first set bit among the `k` bits of `w` from `offset`
on. -/
def scanWord (w : BitVec 32) : ℕ → ℕ → Option ℕ
  | _, 0 => none
  | offset, k + 1 => if w &&& 1#32 <<< offset ≠ 0#32 then some offset else scanWord w (offset + 1) k

/-- The outer loop of `bitmap_alloc` over the `k` words from `ix` on: the word and the bit in it,
nothing if all words are zero. -/
def scanMap (map : ℕ → BitVec 32) : ℕ → ℕ → Except BitmapPanic (Option (ℕ × ℕ))
  | _, 0 => .ok none
  | ix, k + 1 =>
    if map ix ≠ 0#32 then
      match scanWord (map ix) 0 wordBits with
      | some offset => .ok (some (ix, offset))
      | none => .error .alloc
    else scanMap map (ix + 1) k

/-- `bitmap_alloc`: the index of the bit and the bitmap without it, or nothing for `-E_NO_MEM`. -/
def bitmapAlloc (b : Bitmap) : Except BitmapPanic (Option (ℕ × Bitmap)) :=
  match scanMap b.map 0 b.nwords with
  | .error p => .error p
  | .ok none => .ok none
  | .ok (some (ix, offset)) =>
    .ok (some (ix * wordBits + offset,
      { b with map := update b.map ix (b.map ix ^^^ 1#32 <<< offset) }))

/-- `bitmap_translate`: the word and the mask of a bit. -/
def bitmapTranslate (b : Bitmap) (index : ℕ) : Except BitmapPanic (ℕ × BitVec 32) :=
  if index < b.nbits then .ok (index / wordBits, 1#32 <<< (index % wordBits)) else .error .range

/-- `bitmap_test` -/
def bitmapTest (b : Bitmap) (index : ℕ) : Except BitmapPanic Bool :=
  match bitmapTranslate b index with
  | .error p => .error p
  | .ok (ix, mask) => .ok (b.map ix &&& mask ≠ 0#32)

/-- `bitmap_free` -/
def bitmapFree (b : Bitmap) (index : ℕ) : Except BitmapPanic Bitmap :=
  match bitmapTranslate b index with
  | .error p => .error p
  | .ok (ix, mask) =>
    if b.map ix &&& mask = 0#32 then
      .ok { b with map := update b.map ix (b.map ix ||| mask) }
    else .error .free

/-- The loop of `bitmap_create` that marks the `k` bits of a word from `overbits` on as in use. -/
def markLeftover (w : BitVec 32) : ℕ → ℕ → BitVec 32
  | _, 0 => w
  | overbits, k + 1 => markLeftover (w ^^^ 1#32 <<< overbits) (overbits + 1) k

/-- `bitmap_create`, the memory being available. The sums are computed in 64 bits. -/
def bitmapCreate (nbits : ℕ) : Except BitmapPanic Bitmap :=
  if nbits ≠ 0 ∧ nbits < nbits + wordBits then
    let nwords := (nbits + wordBits - 1) / wordBits
    let map : ℕ → BitVec 32 := fun _ => BitVec.allOnes 32
    if nbits ≠ nwords * wordBits then
      let ix := nwords - 1
      let overbits := nbits - ix * wordBits
      if nbits / wordBits = ix ∧ 0 < overbits ∧ overbits < wordBits then
        .ok ⟨nbits, nwords,
          update map ix (markLeftover (map ix) overbits (wordBits - overbits))⟩
      else .error .leftover
    else .ok ⟨nbits, nwords, map⟩
  else .error .create

variable {b : Bitmap} {i j : ℕ}

namespace Bitmap

/-- The bit of an index. -/
def bit (b : Bitmap) (i : ℕ) : Bool := (b.map (i / wordBits)).getLsbD (i % wordBits)

/-- The set of free bits. -/
def free (b : Bitmap) : Finset ℕ := (Finset.range (b.nwords * wordBits)).filter (b.bit ·)

/-- The bitmap in which a free bit has been taken. -/
def take (b : Bitmap) (i : ℕ) : Bitmap :=
  { b with
    map := update b.map (i / wordBits)
      (b.map (i / wordBits) ^^^ 1#32 <<< (i % wordBits)) }

/-- The bitmap in which a bit has been given back. -/
def give (b : Bitmap) (i : ℕ) : Bitmap :=
  { b with
    map := update b.map (i / wordBits)
      (b.map (i / wordBits) ||| 1#32 <<< (i % wordBits)) }

lemma mem_free : i ∈ b.free ↔ i < b.nwords * wordBits ∧ b.bit i = true := by
  simp [free]

@[simp] lemma take_nwords : (b.take i).nwords = b.nwords := rfl

@[simp] lemma give_nwords : (b.give i).nwords = b.nwords := rfl

end Bitmap

lemma getLsbD_one_shiftLeft {o j : ℕ} (h : o < 32) : (1#32 <<< o).getLsbD j = decide (o = j) := by
  rw [show 1#32 <<< o = BitVec.twoPow 32 o from rfl, BitVec.getLsbD_twoPow]
  simp [h]

/-- A mask selects one bit. -/
lemma and_mask_ne_zero (w : BitVec 32) {o : ℕ} (ho : o < 32) :
    w &&& 1#32 <<< o ≠ 0#32 ↔ w.getLsbD o = true := by
  rw [show 1#32 <<< o = BitVec.twoPow 32 o from rfl, BitVec.and_twoPow]
  by_cases hb : w.getLsbD o = true
  · simp only [hb, if_true, iff_true]
    intro h0
    have := congrArg (fun x => BitVec.getLsbD x o) h0
    simp [ho] at this
  · simp [hb]

lemma eq_iff_word_bit {i j : ℕ} :
    i = j ↔ i / wordBits = j / wordBits ∧ i % wordBits = j % wordBits := by
  unfold wordBits
  omega

lemma mod_wordBits_lt (i : ℕ) : i % wordBits < 32 := Nat.mod_lt _ (by decide)

namespace Bitmap

/-- One bit of one word is changed. -/
lemma bit_update {w : BitVec 32} {c : Bool}
    (hw : ∀ o, w.getLsbD o = if o = i % wordBits then c else (b.map (i / wordBits)).getLsbD o) :
    Bitmap.bit { b with map := update b.map (i / wordBits) w } j = if j = i then c
      else b.bit j := by
  unfold bit
  by_cases hj : j / wordBits = i / wordBits
  · simp only [hj, update_self, hw, eq_iff_word_bit (j := i), true_and]
  · rw [if_neg fun h => hj (eq_iff_word_bit.mp h).1]
    simp only [update_of_ne hj]

/-- Taking a bit flips it and no other bit. -/
lemma bit_take : (b.take i).bit j = if j = i then !b.bit i else b.bit j := by
  refine bit_update fun o => ?_
  rw [BitVec.getLsbD_xor, getLsbD_one_shiftLeft (mod_wordBits_lt i)]
  split_ifs with ho
  · simp [ho, bit]
  · simp [Ne.symm ho]

/-- Giving a bit back sets it and changes no other bit. -/
lemma bit_give : (b.give i).bit j = if j = i then true else b.bit j := by
  refine bit_update fun o => ?_
  rw [BitVec.getLsbD_or, getLsbD_one_shiftLeft (mod_wordBits_lt i)]
  split_ifs with ho
  · simp [ho]
  · simp [Ne.symm ho]

lemma free_take (h : i ∈ b.free) : (b.take i).free = b.free.erase i := by
  ext j
  rw [Finset.mem_erase, mem_free, mem_free, take_nwords, bit_take]
  by_cases hj : j = i
  · simp [hj, (mem_free.mp h).2]
  · simp [hj]

lemma free_give (h : i < b.nwords * wordBits) : (b.give i).free = insert i b.free := by
  ext j
  rw [Finset.mem_insert, mem_free, mem_free, give_nwords, bit_give]
  by_cases hj : j = i
  · simp [hj, h]
  · simp [hj]

end Bitmap

/-- The inner loop finds the first set bit, if there is one. -/
lemma scanWord_spec (w : BitVec 32) (o k : ℕ) (h : o + k ≤ 32) :
    (∃ r, scanWord w o k = some r ∧ o ≤ r ∧ r < o + k ∧ w.getLsbD r = true ∧
      ∀ j, o ≤ j → j < r → w.getLsbD j = false) ∨
    scanWord w o k = none ∧ ∀ j, o ≤ j → j < o + k → w.getLsbD j = false := by
  induction k generalizing o with
  | zero => exact .inr ⟨rfl, fun j h1 h2 => by omega⟩
  | succ k ih =>
    rw [scanWord]
    by_cases hb : w.getLsbD o = true
    · left
      refine ⟨o, by rw [if_pos ((and_mask_ne_zero w (by omega)).mpr hb)], le_rfl, by omega, hb, ?_⟩
      intro j h1 h2
      omega
    · rw [if_neg (by rwa [and_mask_ne_zero w (by omega)])]
      rw [Bool.not_eq_true] at hb
      -- the bit `o` is clear, so what holds from `o + 1` on holds from `o` on
      have hext : ∀ {j : ℕ}, o ≤ j → (o + 1 ≤ j → w.getLsbD j = false) → w.getLsbD j = false := by
        intro j h1 h2
        rcases eq_or_lt_of_le h1 with rfl | h3
        · exact hb
        · exact h2 h3
      rcases ih (o + 1) (by omega) with ⟨r, e, h1, h2, h3, h4⟩ | ⟨e, h1⟩
      · exact .inl ⟨r, e, by omega, by omega, h3,
          fun j hj hr => hext hj fun h => h4 j h hr⟩
      · exact .inr ⟨e, fun j hj hr => hext hj fun h => h1 j h (by omega)⟩

lemma eq_zero_of_bits {w : BitVec 32} (h : ∀ j < 32, w.getLsbD j = false) : w = 0#32 := by
  apply BitVec.eq_of_getLsbD_eq
  intro j hj
  simp [h j hj]

/-- The outer loop finds the first set bit of the words from `ix` on, if there is one. -/
lemma scanMap_spec (map : ℕ → BitVec 32) (ix k : ℕ) :
    (∃ r o, scanMap map ix k = .ok (some (r, o)) ∧ ix ≤ r ∧ r < ix + k ∧ o < 32 ∧
      (map r).getLsbD o = true ∧ (∀ j, ix ≤ j → j < r → map j = 0#32) ∧
      ∀ j < o, (map r).getLsbD j = false) ∨
    scanMap map ix k = .ok none ∧ ∀ j, ix ≤ j → j < ix + k → map j = 0#32 := by
  induction k generalizing ix with
  | zero => exact .inr ⟨rfl, fun j h1 h2 => by omega⟩
  | succ k ih =>
    rw [scanMap]
    by_cases hz : map ix = 0#32
    · rw [if_neg (by simpa using hz)]
      have hext : ∀ {j : ℕ}, ix ≤ j → (ix + 1 ≤ j → map j = 0#32) → map j = 0#32 := by
        intro j h1 h2
        rcases eq_or_lt_of_le h1 with rfl | h3
        · exact hz
        · exact h2 h3
      rcases ih (ix + 1) with ⟨r, o, e, h1, h2, h3, h4, h5, h6⟩ | ⟨e, h1⟩
      · exact .inl ⟨r, o, e, by omega, by omega, h3, h4,
          fun j hj hr => hext hj fun h => h5 j h hr, h6⟩
      · exact .inr ⟨e, fun j hj hr => hext hj fun h => h1 j h (by omega)⟩
    · left
      rw [if_pos hz]
      rcases scanWord_spec (map ix) 0 wordBits (by decide) with ⟨o, e, -, h2, h3, h4⟩ | ⟨-, h1⟩
      · refine ⟨ix, o, by rw [e], le_rfl, by omega, by simpa [wordBits] using h2, h3, ?_, ?_⟩
        · intro j h5 h6
          omega
        · exact fun j hj => h4 j (Nat.zero_le j) hj
      · exact absurd (eq_zero_of_bits fun j hj => h1 j (Nat.zero_le j)
          (by simpa [wordBits] using hj)) hz

/-- **Allocation** takes the least free bit; it fails, changing nothing, only if none is free. -/
lemma bitmapAlloc_spec (b : Bitmap) :
    (b.free = ∅ ∧ bitmapAlloc b = .ok none) ∨
    ∃ i ∈ b.free, (∀ j ∈ b.free, i ≤ j) ∧ bitmapAlloc b = .ok (some (i, b.take i)) := by
  rcases scanMap_spec b.map 0 b.nwords with ⟨r, o, e, -, h2, h3, h4, h5, h6⟩ | ⟨e, h1⟩
  · right
    have hdiv : (r * wordBits + o) / wordBits = r := by
      unfold wordBits
      omega
    have hmod : (r * wordBits + o) % wordBits = o := by
      unfold wordBits
      omega
    refine ⟨r * wordBits + o, ?_, fun j hj => ?_, ?_⟩
    · rw [Bitmap.mem_free]
      refine ⟨?_, by rw [Bitmap.bit, hdiv, hmod, h4]⟩
      unfold wordBits
      omega
    · -- a smaller free bit would lie in a zero word or below bit `o` of word `r`
      obtain ⟨-, hb⟩ := Bitmap.mem_free.mp hj
      by_contra hlt
      rw [not_le] at hlt
      unfold Bitmap.bit at hb
      by_cases hw : j / wordBits = r
      · rw [hw, h6 _ (by unfold wordBits at *; omega)] at hb
        cases hb
      · rw [h5 _ (Nat.zero_le _) (by unfold wordBits at *; omega)] at hb
        simp at hb
    · simp only [bitmapAlloc, e, Bitmap.take, hdiv, hmod]
  · left
    refine ⟨?_, by rw [bitmapAlloc, e]⟩
    ext j
    rw [Bitmap.mem_free]
    simp only [Finset.notMem_empty, iff_false, not_and]
    intro hj
    rw [Bitmap.bit, h1 _ (Nat.zero_le _) (by unfold wordBits at *; omega)]
    simp

/-- The loop of `bitmap_create` flips the bits from `o` on. -/
lemma getLsbD_markLeftover (j : ℕ) : ∀ (k o : ℕ) (w : BitVec 32), o + k ≤ 32 →
    (markLeftover w o k).getLsbD j =
      if o ≤ j ∧ j < o + k then !w.getLsbD j else w.getLsbD j := by
  intro k
  induction k with
  | zero =>
    intro o w _
    rw [markLeftover, if_neg (by omega)]
  | succ k ih =>
    intro o w hle
    rw [markLeftover, ih _ _ (by omega), BitVec.getLsbD_xor, getLsbD_one_shiftLeft (by omega)]
    by_cases ho : o = j
    · rw [if_neg (by omega), if_pos (by omega)]
      simp [ho]
    · simp only [ho, decide_false, Bool.xor_false]
      exact if_congr (by omega) rfl rfl

/-- **`bitmap_create`** makes the set of all indices. -/
lemma bitmapCreate_apply {nbits : ℕ} (h : 0 < nbits) :
    ∃ b, bitmapCreate nbits = .ok b ∧ b.nbits = nbits ∧
      b.nwords = (nbits + wordBits - 1) / wordBits ∧ b.free = Finset.range nbits := by
  have h0 : nbits ≠ 0 ∧ nbits < nbits + wordBits := ⟨h.ne', by unfold wordBits; omega⟩
  rw [bitmapCreate, if_pos h0]
  set nwords := (nbits + wordBits - 1) / wordBits with hw
  unfold wordBits at hw
  by_cases hfull : nbits = nwords * wordBits
  · refine ⟨_, if_neg (not_not.mpr hfull), rfl, rfl, ?_⟩
    ext i
    rw [Bitmap.mem_free, Finset.mem_range, hfull]
    refine and_iff_left_of_imp fun _ => ?_
    exact (BitVec.getLsbD_allOnes ..).trans (decide_eq_true (mod_wordBits_lt i))
  · have hne : nbits ≠ nwords * 32 := hfull
    have hover : nbits / wordBits = nwords - 1 ∧ 0 < nbits - (nwords - 1) * wordBits ∧
        nbits - (nwords - 1) * wordBits < wordBits := by
      unfold wordBits
      omega
    refine ⟨_, (if_pos hfull).trans (if_pos hover), rfl, rfl, ?_⟩
    ext i
    have hm := mod_wordBits_lt i
    rw [Bitmap.mem_free, Finset.mem_range]
    unfold Bitmap.bit
    dsimp only
    by_cases hi : i / wordBits = nwords - 1
    · rw [hi, update_self, getLsbD_markLeftover _ _ _ _ (by unfold wordBits; omega)]
      simp only [BitVec.getLsbD_allOnes, hm, decide_true]
      unfold wordBits at *
      split_ifs <;> simp <;> omega
    · rw [update_of_ne hi]
      simp only [BitVec.getLsbD_allOnes, hm, decide_true, and_true]
      unfold wordBits at *
      omega

/-- **Testing** a bit in range. -/
lemma bitmapTest_apply {b : Bitmap} {i : ℕ} (h : i < b.nbits) : bitmapTest b i = .ok (b.bit i) := by
  have := and_mask_ne_zero (b.map (i / wordBits)) (mod_wordBits_lt i)
  rw [bitmapTest, bitmapTranslate, if_pos h, Bitmap.bit]
  by_cases hb : (b.map (i / wordBits)).getLsbD (i % wordBits) = true
  · simp [this.mpr hb, hb]
  · have h0 := mt this.mp hb
    rw [ne_eq, not_not] at h0
    simp [h0, hb]

/-- **Freeing** a bit in range that is in use. -/
lemma bitmapFree_apply {b : Bitmap} {i : ℕ} (h : i < b.nbits) (hb : b.bit i = false) :
    bitmapFree b i = .ok (b.give i) := by
  have hm := and_mask_ne_zero (b.map (i / wordBits)) (mod_wordBits_lt i)
  have h0 : b.map (i / wordBits) &&& 1#32 <<< (i % wordBits) = 0#32 := by
    by_contra hne
    rw [Bitmap.bit, hm.mp hne] at hb
    cases hb
  rw [bitmapFree, bitmapTranslate, if_pos h]
  simp only [h0, if_true, Bitmap.give]

end Ucore
