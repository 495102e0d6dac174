import Mathlib

set_option autoImplicit false

/-!
# Byte buffers

Buffers as functions from offsets to bytes, with block copies and little-endian words.

## Main definitions

* `Bytes`, `Bytes.copy` — a buffer; `memcpy` between buffers.
* `Bytes.get16`, `Bytes.put16`, `Bytes.get32`, `Bytes.put32`, `Bytes.putWords` — little-endian
  words in a buffer; `Bytes.bit` — their bits; `Bytes.cstr` — strings.
* `Bytes.ofWords`, `Bytes.toWords` — buffers of 64-bit words; `Bytes.get64`, `Bytes.le64` — one of
  them.

## Main results

* `Bytes.get32_put32`, `Bytes.get32_put32_of_disjoint` — reading a word that was written; reading
  another word.
* `Bytes.get32_copy`, `Bytes.get32_copy_of_disjoint` — reading a word after a copy.
* `Bytes.bit_setBit` — setting one bit.
* `Bytes.cstr_of_terminated` — reading a string.
* `Bytes.copy_append` — a copy in two parts.
* `Bytes.ofWords_toWords`, `Bytes.get64_of_le64` — words and their bytes.
* `Bytes.ne_zero_of_lt_strnlen`, `Bytes.eq_zero_of_strnlen_lt` — where a string ends.
-/

/-- The contents of a buffer, by offset. -/
abbrev Bytes : Type := ℕ → UInt8

namespace Bytes

variable {m m' : Bytes} {o p v len d s : ℕ}

/-- The buffer of zeros. -/
def zero : Bytes := fun _ => 0

/-- A list of bytes, followed by zeros. -/
def ofList (l : List UInt8) : Bytes := fun i => l.getD i 0

/-- `memcpy(dst + d, src + s, len)`. -/
def copy (dst : Bytes) (d : ℕ) (src : Bytes) (s len : ℕ) : Bytes :=
  fun i => if d ≤ i ∧ i < d + len then src (s + (i - d)) else dst i

lemma copy_of_mem (dst src : Bytes) {i : ℕ} (h1 : d ≤ i) (h2 : i < d + len) :
    copy dst d src s len i = src (s + (i - d)) := if_pos ⟨h1, h2⟩

lemma copy_of_notMem (dst src : Bytes) {i : ℕ} (h : i < d ∨ d + len ≤ i) :
    copy dst d src s len i = dst i := if_neg (by omega)

@[simp] lemma copy_zero (dst src : Bytes) : copy dst d src s 0 = dst := by
  funext i
  exact copy_of_notMem dst src (by omega)

/-- A copy in two parts, if the first one does not touch the source of the second. -/
lemma copy_append (m : Bytes) {a b : ℕ} (h : s + a + b ≤ d ∨ d + a ≤ s + a) :
    copy (copy m d m s a) (d + a) (copy m d m s a) (s + a) b = copy m d m s (a + b) := by
  funext i
  unfold copy
  by_cases h1 : d + a ≤ i ∧ i < d + a + b
  · rw [if_pos h1, if_neg (by omega), if_pos (by omega)]
    congr 1
    omega
  · rw [if_neg h1]
    by_cases h2 : d ≤ i ∧ i < d + a
    · rw [if_pos h2, if_pos (by omega)]
    · rw [if_neg h2, if_neg (by omega)]

/-- `strnlen`: the number of bytes before the first zero, at most `len`. -/
def strnlen (m : Bytes) : ℕ → ℕ → ℕ
  | _, 0 => 0
  | s, len + 1 => if m s = 0 then 0 else strnlen m (s + 1) len + 1

lemma strnlen_le (m : Bytes) (s len : ℕ) : strnlen m s len ≤ len := by
  induction len generalizing s with
  | zero => exact Nat.le_refl _
  | succ len ih =>
    rw [strnlen]
    split_ifs
    · exact Nat.zero_le _
    · exact Nat.succ_le_succ (ih (s + 1))

/-- There is no zero before. -/
lemma ne_zero_of_lt_strnlen {i : ℕ} (h : i < strnlen m s len) : m (s + i) ≠ 0 := by
  induction len generalizing s i with
  | zero => exact absurd h (Nat.not_lt_zero i)
  | succ len ih =>
    rw [strnlen] at h
    split_ifs at h with h0
    · exact absurd h (Nat.not_lt_zero i)
    · cases i with
      | zero => exact h0
      | succ i =>
        have := ih (Nat.lt_of_succ_lt_succ h)
        rwa [Nat.add_assoc, Nat.add_comm 1 i] at this

/-- There is a zero behind them, unless the bound is reached. -/
lemma eq_zero_of_strnlen_lt (h : strnlen m s len < len) : m (s + strnlen m s len) = 0 := by
  induction len generalizing s with
  | zero => exact absurd h (Nat.not_lt_zero _)
  | succ len ih =>
    rw [strnlen] at h ⊢
    split_ifs at h ⊢ with h0
    · exact h0
    · have := ih (Nat.lt_of_succ_lt_succ h)
      rwa [Nat.add_assoc, Nat.add_comm 1] at this

/-- The little-endian 16-bit word at offset `o`. -/
def get16 (m : Bytes) (o : ℕ) : ℕ := (m o).toNat + 2 ^ 8 * (m (o + 1)).toNat

/-- Write a little-endian 16-bit word at offset `o`. -/
def put16 (m : Bytes) (o v : ℕ) : Bytes :=
  fun i => if o ≤ i ∧ i < o + 2 then UInt8.ofNat (v / 2 ^ (8 * (i - o))) else m i

/-- The little-endian 32-bit word at offset `o`. -/
def get32 (m : Bytes) (o : ℕ) : ℕ :=
  (m o).toNat + 2 ^ 8 * (m (o + 1)).toNat + 2 ^ 16 * (m (o + 2)).toNat +
    2 ^ 24 * (m (o + 3)).toNat

/-- Write a little-endian 32-bit word at offset `o`. -/
def put32 (m : Bytes) (o v : ℕ) : Bytes :=
  fun i => if o ≤ i ∧ i < o + 4 then UInt8.ofNat (v / 2 ^ (8 * (i - o))) else m i

/-- Write the little-endian 32-bit words `f 0, …, f (n - 1)` from offset `o` on. -/
def putWords (m : Bytes) (o n : ℕ) (f : ℕ → ℕ) : Bytes :=
  fun i => if o ≤ i ∧ i < o + 4 * n then UInt8.ofNat (f ((i - o) / 4) / 2 ^ (8 * ((i - o) % 4)))
    else m i

lemma get16_congr (h : ∀ k < 2, m (o + k) = m' (p + k)) : get16 m o = get16 m' p := by
  unfold get16
  rw [h 1 (by omega), show m o = m' p from h 0 (by omega)]

lemma get32_congr (h : ∀ k < 4, m (o + k) = m' (p + k)) : get32 m o = get32 m' p := by
  unfold get32
  rw [h 1 (by omega), h 2 (by omega), h 3 (by omega), show m o = m' p from h 0 (by omega)]

@[simp] lemma get32_zero (o : ℕ) : get32 zero o = 0 := by simp [get32, zero]

section

variable (m)
include m

lemma put16_byte (o v : ℕ) {k : ℕ} (hk : k < 2) :
    (put16 m o v (o + k)).toNat = v / 2 ^ (8 * k) % 2 ^ 8 := by
  rw [put16, if_pos (by omega), Nat.add_sub_cancel_left, UInt8.toNat_ofNat']

lemma put32_byte (o v : ℕ) {k : ℕ} (hk : k < 4) :
    (put32 m o v (o + k)).toNat = v / 2 ^ (8 * k) % 2 ^ 8 := by
  rw [put32, if_pos (by omega), Nat.add_sub_cancel_left, UInt8.toNat_ofNat']

lemma get16_put16 (o : ℕ) (hv : v < 2 ^ 16) : get16 (put16 m o v) o = v := by
  have h0 := put16_byte m o v (show 0 < 2 by omega)
  have h1 := put16_byte m o v (show 1 < 2 by omega)
  rw [Nat.add_zero] at h0
  rw [get16, h0, h1]
  omega

lemma get32_put32 (o : ℕ) (hv : v < 2 ^ 32) : get32 (put32 m o v) o = v := by
  have h0 := put32_byte m o v (show 0 < 4 by omega)
  have h1 := put32_byte m o v (show 1 < 4 by omega)
  have h2 := put32_byte m o v (show 2 < 4 by omega)
  have h3 := put32_byte m o v (show 3 < 4 by omega)
  rw [Nat.add_zero] at h0
  rw [get32, h0, h1, h2, h3]
  omega

lemma get32_put32_of_disjoint (h : o + 4 ≤ p ∨ p + 4 ≤ o) : get32 (put32 m p v) o = get32 m o := by
  refine get32_congr fun k hk => ?_
  exact if_neg (by omega)

lemma get16_put32_of_disjoint (h : o + 2 ≤ p ∨ p + 4 ≤ o) : get16 (put32 m p v) o = get16 m o := by
  refine get16_congr fun k hk => ?_
  exact if_neg (by omega)

lemma get32_put16_of_disjoint (h : o + 4 ≤ p ∨ p + 2 ≤ o) : get32 (put16 m p v) o = get32 m o := by
  refine get32_congr fun k hk => ?_
  exact if_neg (by omega)

lemma get16_put16_of_disjoint (h : o + 2 ≤ p ∨ p + 2 ≤ o) : get16 (put16 m p v) o = get16 m o := by
  refine get16_congr fun k hk => ?_
  exact if_neg (by omega)

lemma get32_putWords (o n : ℕ) (f : ℕ → ℕ) {k : ℕ} (hk : k < n) (hf : f k < 2 ^ 32) :
    get32 (putWords m o n f) (o + 4 * k) = f k := by
  rw [← get32_put32 m (o + 4 * k) hf]
  refine get32_congr fun j hj => ?_
  rw [putWords, put32, if_pos (by omega), if_pos (by omega),
    show (o + 4 * k + j - o) / 4 = k by omega, show (o + 4 * k + j - o) % 4 = j by omega,
    Nat.add_sub_cancel_left]

lemma get32_putWords_of_disjoint (n : ℕ) (f : ℕ → ℕ) (h : o + 4 ≤ p ∨ p + 4 * n ≤ o) :
    get32 (putWords m p n f) o = get32 m o := by
  refine get32_congr fun k hk => ?_
  exact if_neg (by omega)

lemma get16_putWords_of_disjoint (n : ℕ) (f : ℕ → ℕ) (h : o + 2 ≤ p ∨ p + 4 * n ≤ o) :
    get16 (putWords m p n f) o = get16 m o := by
  refine get16_congr fun k hk => ?_
  exact if_neg (by omega)

end

lemma get32_copy (dst src : Bytes) (h1 : d ≤ o) (h2 : o + 4 ≤ d + len) :
    get32 (copy dst d src s len) o = get32 src (s + (o - d)) := by
  refine get32_congr fun k hk => ?_
  rw [copy_of_mem dst src (by omega) (by omega)]
  congr 1
  omega

lemma get32_copy_of_disjoint (dst src : Bytes) (h : o + 4 ≤ d ∨ d + len ≤ o) :
    get32 (copy dst d src s len) o = get32 dst o := by
  refine get32_congr fun k hk => ?_
  rw [copy_of_notMem dst src (by omega)]

section

variable (m) (o)
include m o

lemma get32_lt : get32 m o < 2 ^ 32 := by
  have h0 := (m o).toNat_lt
  have h1 := (m (o + 1)).toNat_lt
  have h2 := (m (o + 2)).toNat_lt
  have h3 := (m (o + 3)).toNat_lt
  unfold get32
  omega

lemma get16_lt : get16 m o < 2 ^ 16 := by
  have h0 := (m o).toNat_lt
  have h1 := (m (o + 1)).toNat_lt
  unfold get16
  omega

/-- Writing the word that is there changes nothing. -/
lemma put32_get32 : m.put32 o (m.get32 o) = m := by
  funext i
  by_cases hi : o ≤ i ∧ i < o + 4
  · obtain ⟨k, rfl⟩ : ∃ k, i = o + k := ⟨i - o, by omega⟩
    have hk : k < 4 := by omega
    refine UInt8.toNat.inj ?_
    rw [put32_byte m o _ hk, get32]
    have h0 := (m o).toNat_lt
    have h1 := (m (o + 1)).toNat_lt
    have h2 := (m (o + 2)).toNat_lt
    have h3 := (m (o + 3)).toNat_lt
    rcases (by omega : k = 0 ∨ k = 1 ∨ k = 2 ∨ k = 3) with rfl | rfl | rfl | rfl
    · simp only [Nat.add_zero]
      omega
    · omega
    · omega
    · omega
  · exact if_neg hi

/-! ## Words of 64 bits -/

/-- The little-endian 64-bit word at offset `o`. -/
def get64 (m : Bytes) (o : ℕ) : ℕ := get32 m o + 2 ^ 32 * get32 m (o + 4)

/-- The bytes of a 64-bit word, little-endian. -/
def le64 (v : ℕ) : List UInt8 := (List.range 8).map fun k => UInt8.ofNat (v / 2 ^ (8 * k))

/-- The bytes of a buffer of 64-bit words. -/
def ofWords (w : ℕ → BitVec 64) :
    Bytes := fun i => UInt8.ofNat ((w (i / 8)).toNat / 2 ^ (8 * (i % 8)))

/-- A buffer as 64-bit words. -/
def toWords (m : Bytes) : ℕ → BitVec 64 := fun k => BitVec.ofNat 64 (m.get64 (8 * k))

lemma get64_lt : get64 m o < 2 ^ 64 := by
  have h0 := get32_lt m o
  have h1 := get32_lt m (o + 4)
  unfold get64
  omega

lemma byte_get32 {k : ℕ} (hk : k < 4) : (m (o + k)).toNat = get32 m o / 2 ^ (8 * k) % 2 ^ 8 := by
  rw [← put32_byte m o (get32 m o) hk, put32_get32]

/-- The bytes of a 64-bit word. -/
lemma byte_get64 {k : ℕ} (hk : k < 8) : UInt8.ofNat (get64 m o / 2 ^ (8 * k)) = m (o + k) := by
  apply UInt8.toNat.inj
  rw [UInt8.toNat_ofNat']
  have h0 := get32_lt m o
  unfold get64
  by_cases h : k < 4
  · rw [byte_get32 m o h]
    have e : (2 : ℕ) ^ 32 = 2 ^ (8 * k) * (2 ^ 8 * 2 ^ (24 - 8 * k)) := by
      rw [← Nat.pow_add, ← Nat.pow_add]
      congr 1
      omega
    rw [e, Nat.mul_assoc (2 ^ (8 * k)), Nat.add_mul_div_left _ _ (Nat.two_pow_pos _),
      Nat.mul_assoc (2 ^ 8), Nat.add_mul_mod_self_left]
  · obtain ⟨j, rfl⟩ : ∃ j, k = 4 + j := ⟨k - 4, by omega⟩
    rw [← Nat.add_assoc, byte_get32 m (o + 4) (by omega : j < 4), Nat.mul_add, Nat.pow_add,
      ← Nat.div_div_eq_div_mul, Nat.add_mul_div_left _ _ (Nat.two_pow_pos _), Nat.div_eq_of_lt h0,
      Nat.zero_add]

end

/-- **The bytes of words made of bytes.** -/
lemma ofWords_toWords (m : Bytes) : ofWords (toWords m) = m := by
  funext i
  have h8 : i % 8 < 8 := Nat.mod_lt i (by decide)
  unfold ofWords toWords
  rw [BitVec.toNat_ofNat, Nat.mod_eq_of_lt (get64_lt m _), byte_get64 m _ h8]
  congr 1
  omega

@[simp] lemma le64_length (v : ℕ) : (le64 v).length = 8 := by simp [le64]

/-- **Reading a 64-bit word** whose bytes are there. -/
lemma get64_of_le64 (hv : v < 2 ^ 64) (h : ∀ k < 8, m (o + k) = (le64 v).getD k 0) :
    get64 m o = v := by
  have hbyte : ∀ k, k < 8 → (m (o + k)).toNat = v / 2 ^ (8 * k) % 2 ^ 8 := by
    intro k hk
    rw [h k hk]
    simp [le64, List.getD_eq_getElem?_getD, hk]
  have h0 := hbyte 0 (by omega)
  have h1 := hbyte 1 (by omega)
  have h2 := hbyte 2 (by omega)
  have h3 := hbyte 3 (by omega)
  have h4 := hbyte 4 (by omega)
  have h5 := hbyte 5 (by omega)
  have h6 := hbyte 6 (by omega)
  have h7 := hbyte 7 (by omega)
  rw [Nat.add_zero] at h0
  unfold get64 get32
  rw [h0, h1, h2, h3, h4, Nat.add_assoc o 4 1, h5, Nat.add_assoc o 4 2, h6, Nat.add_assoc o 4 3, h7]
  omega

lemma length_flatMap_le64 (l : List ℕ) : (l.flatMap le64).length = 8 * l.length := by
  induction l with
  | nil => rfl
  | cons v l ih =>
    rw [List.flatMap_cons, List.length_append, ih, le64_length, List.length_cons]
    omega

/-- Byte `k` of word `i`. -/
lemma getD_flatMap_le64 (l : List ℕ) {i k : ℕ} (hi : i < l.length) (hk : k < 8) :
    (l.flatMap le64).getD (8 * i + k) 0 = (le64 (l.getD i 0)).getD k 0 := by
  induction l generalizing i with
  | nil => exact absurd hi (Nat.not_lt_zero i)
  | cons v l ih =>
    rw [List.flatMap_cons]
    cases i with
    | zero => rw [List.getD_append _ _ _ _ (by rw [le64_length]; omega), Nat.mul_zero,
      Nat.zero_add]; rfl
    | succ i =>
      rw [List.getD_append_right _ _ _ _ (by rw [le64_length]; omega), le64_length,
        show 8 * (i + 1) + k - 8 = 8 * i + k by omega, ih (Nat.lt_of_succ_lt_succ hi)]
      rfl

/-- **Reading word `i` of a list of 64-bit words** whose bytes are there. -/
lemma get64_flatMap_le64 {l : List ℕ} {i : ℕ}
    (h : ∀ j < 8 * l.length, m (o + j) = (l.flatMap le64).getD j 0) (hi : i < l.length)
    (hv : l.getD i 0 < 2 ^ 64) : get64 m (o + 8 * i) = l.getD i 0 := by
  refine get64_of_le64 hv fun k hk => ?_
  rw [Nat.add_assoc, h (8 * i + k) (by omega), getD_flatMap_le64 l hi hk]

/-! ## Bits -/

/-- Bit `j` of a buffer of little-endian words. -/
def bit (m : Bytes) (j : ℕ) : Bool := (m.get32 (4 * (j / 32))).testBit (j % 32)

@[simp] lemma bit_zero (j : ℕ) : zero.bit j = false := by simp [bit]

/-- Setting one bit of a word leaves the other bits. -/
lemma bit_setBit (m : Bytes) (i j : ℕ) :
    (m.put32 (4 * (j / 32)) (m.get32 (4 * (j / 32)) ||| 2 ^ (j % 32))).bit i =
      (decide (i = j) || m.bit i) := by
  have hlt : m.get32 (4 * (j / 32)) ||| 2 ^ (j % 32) < 2 ^ 32 :=
    Nat.or_lt_two_pow (get32_lt m _) (Nat.pow_lt_pow_right (by decide) (Nat.mod_lt _ (by decide)))
  unfold bit
  by_cases hw : i / 32 = j / 32
  · rw [hw, get32_put32 m _ hlt, Nat.testBit_or, Nat.testBit_two_pow, Bool.or_comm]
    congr 1
    rw [decide_eq_decide]
    omega
  · rw [get32_put32_of_disjoint m (by omega), decide_eq_false (by omega), Bool.false_or]

/-! ## Strings -/

/-- The string that starts at offset `o`, read up to its terminating zero or up to `n` bytes. -/
def cstr (m : Bytes) : ℕ → ℕ → List UInt8
  | _, 0 => []
  | o, n + 1 => if m o = 0 then [] else m o :: m.cstr (o + 1) n

lemma length_cstr_le (m : Bytes) (o n : ℕ) : (m.cstr o n).length ≤ n := by
  induction n generalizing o with
  | zero => exact Nat.le_refl _
  | succ n ih =>
    rw [cstr]
    split_ifs
    · exact Nat.zero_le _
    · exact Nat.succ_le_succ (ih _)

/-- A string that is followed by a zero. -/
lemma cstr_of_terminated (l : List UInt8) (h0 : 0 ∉ l) : ∀ {o n : ℕ},
    (∀ k < l.length, m (o + k) = l.getD k 0) → m (o + l.length) = 0 → l.length < n →
    m.cstr o n = l := by
  induction l with
  | nil =>
    intro o n _ hz hn
    obtain ⟨n, rfl⟩ := Nat.exists_eq_add_of_lt hn
    rw [cstr, if_pos (show m o = 0 from hz)]
  | cons c l ih =>
    intro o n hb hz hn
    rw [List.length_cons] at hz hn
    obtain ⟨n, rfl⟩ : ∃ k, n = k + 1 := ⟨n - 1, by omega⟩
    have hc : m o = c := hb 0 (by simp)
    have hne : c ≠ 0 := fun h => h0 (by simp [h])
    rw [cstr, hc, if_neg hne]
    congr 1
    refine ih (fun h => h0 (by simp [h])) (fun k hk => ?_) ?_ (by omega)
    · have := hb (k + 1) (by simpa using hk)
      rw [show o + 1 + k = o + (k + 1) by omega, this]
      rfl
    · rw [show o + 1 + l.length = o + (l.length + 1) by omega, hz]

end Bytes
