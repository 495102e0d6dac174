import Ucore.Lib.Bytes

set_option autoImplicit false

/-!
# The command line of the kernel monitor (`lab8/kern/debug/kmonitor.c`)

`parse` splits the line that `readline` has left in its buffer into words. It overwrites the blanks
with zeros and stores a pointer to each word in `argv`, which has `MAXARGS` entries. Pointers are
offsets in the buffer.

## Main definitions

* `parse` — the function.
* `words` — the maximal runs of characters that are not blank.
* `Splits` — what `parse` is to do with a line.

## Main results

* `parseLoop_spec` — the loop splits the line, however many words there are.
* `parse_splits_iff` — the pointers fit in `argv` iff there are at most `MAXARGS` words.
-/

namespace Ucore

open Function List

/-- `MAXARGS` -/
def maxArgs : ℕ := 16

/-- `BUFSIZE` of `readline` -/
def bufSize : ℕ := 1024

/-- `WHITESPACE` -/
def whitespace : List UInt8 := [32, 9, 10, 13]

/-- `strchr`: the offset of the first occurrence -/
def strchr (s : List UInt8) (c : UInt8) : Option ℕ := s.findIdx? (· == c)

/-- `strchr(WHITESPACE, c) != NULL` -/
def isSpace (c : UInt8) : Bool := (strchr whitespace c).isSome

/-- A loop over the characters of the line that satisfy `go`, with less than `n` rounds. -/
def walk (go : UInt8 → Bool) (body : Bytes → ℕ → Bytes) : ℕ → Bytes → ℕ → Option (Bytes × ℕ)
  | 0, _, _ => none
  | n + 1, buf, p =>
    if buf p ≠ 0 ∧ go (buf p) then walk go body n (body buf p) (p + 1) else some (buf, p)

/-- `while (*buf != '\0' && strchr(WHITESPACE, *buf) != NULL) *buf++ = '\0';` -/
def skipSpace : ℕ → Bytes → ℕ → Option (Bytes × ℕ) := walk isSpace fun buf p => update buf p 0

/-- `while (*buf != '\0' && strchr(WHITESPACE, *buf) == NULL) buf++;` -/
def scanArg : ℕ → Bytes → ℕ → Option (Bytes × ℕ) := walk (!isSpace ·) fun buf _ => buf

/-- The loop of `parse`; `argv` holds the pointers that have been stored. If there are too many,
this is reported, and they are stored all the same. -/
def parseLoop : ℕ → Bytes → ℕ → List ℕ → Option (List ℕ × Bytes)
  | 0, _, _, _ => none
  | n + 1, buf, p, argv => do
    let (buf, p) ← skipSpace bufSize buf p
    if buf p = 0 then some (argv, buf)
    else
      let (buf, q) ← scanArg bufSize buf p
      parseLoop n buf q (argv ++ [p])

/-- `parse`, on the buffer of `readline` -/
def parse (buf : Bytes) : Option (List ℕ × Bytes) := parseLoop bufSize buf 0 []

/-- The maximal runs of characters that are not blank. -/
def words (l : List UInt8) : List (List UInt8) := (l.splitOnP isSpace).filter (· ≠ [])

/-- **What `parse` is to do**: it returns; the pointers are those of the words of the line, in
order, each ended by a zero; only the blanks of the line have been overwritten; and the pointers fit
in `argv`. -/
def Splits (buf : Bytes) : Prop :=
  let line := buf.cstr 0 bufSize
  ∃ argv buf', parse buf = some (argv, buf') ∧ argv.map (buf'.cstr · bufSize) = words line ∧
    argv.Pairwise (· < ·) ∧ (∀ i, buf' i = if i < line.length ∧ isSpace (buf i) then 0 else buf i) ∧
    argv.length ≤ maxArgs

/-! ## Strings in the buffer -/

/-- The string `l` stands at `p`. -/
def Reads (buf : Bytes) : ℕ → List UInt8 → Prop
  | p, [] => buf p = 0
  | p, c :: l => c ≠ 0 ∧ buf p = c ∧ Reads buf (p + 1) l

variable {buf buf' : Bytes} {p n : ℕ} {l w : List UInt8}

lemma reads_cstr (h : (buf.cstr p n).length < n) : Reads buf p (buf.cstr p n) := by
  induction n generalizing p with
  | zero => cases h
  | succ n ih =>
    rw [Bytes.cstr] at h ⊢
    split_ifs at h ⊢ with h0
    · exact h0
    · exact ⟨h0, rfl, ih (by simpa using h)⟩

lemma Reads.cstr_eq (h : Reads buf p l) (hn : l.length < n) : buf.cstr p n = l := by
  induction l generalizing p n with
  | nil =>
    obtain ⟨n, rfl⟩ := Nat.exists_eq_add_of_lt hn
    exact if_pos h
  | cons c l ih =>
    obtain ⟨n, rfl⟩ := Nat.exists_eq_add_of_lt hn
    obtain ⟨hc, rfl, h⟩ := h
    rw [Bytes.cstr, if_neg hc, ih h (by simp; omega)]

/-- The end of a string; what stands before it may change. -/
lemma Reads.drop (h : Reads buf p (w ++ l)) (hb : ∀ i, p + w.length ≤ i → buf' i = buf i) :
    Reads buf' (p + w.length) l := by
  induction w generalizing p with
  | cons c w ih =>
    rw [length_cons, Nat.add_comm w.length, ← Nat.add_assoc] at hb ⊢
    exact ih h.2.2 hb
  | nil =>
    induction l generalizing p with
    | nil => exact (hb p (le_refl p)).trans h
    | cons c l ih =>
      exact ⟨h.1, (hb p (le_refl p)).trans h.2.1, ih h.2.2 fun i hi => hb i (Nat.le_of_succ_le hi)⟩

/-- The beginning of a string, when a zero has been written behind it. -/
lemma Reads.take (h : Reads buf p (w ++ l)) (hb : ∀ i < p + w.length, buf' i = buf i)
    (h0 : buf' (p + w.length) = 0) : Reads buf' p w := by
  induction w generalizing p with
  | nil => exact h0
  | cons c w ih =>
    rw [length_cons, Nat.add_comm w.length, ← Nat.add_assoc] at hb h0
    exact ⟨h.1, (hb p (by omega)).trans h.2.1, ih h.2.2 hb h0⟩

/-! ## The loops -/

/-- The blanks among the `n` bytes from `p` on are overwritten. -/
def cut (buf : Bytes) (p n : ℕ) : Bytes := fun i =>
  if p ≤ i ∧ i < p + n ∧ isSpace (buf i) then 0 else buf i

lemma cut_of_notMem {i : ℕ} (h : i < p ∨ p + n ≤ i) : cut buf p n i = buf i := if_neg (by omega)

lemma cut_append (buf : Bytes) (p a b : ℕ) : cut (cut buf p a) (p + a) b = cut buf p (a + b) := by
  funext i
  unfold cut
  grind

/-- The end of a word: the line ends, or there is a blank. -/
lemma cut_head (h : Reads buf p l) (hl : ∀ d ∈ l.head?, isSpace d) : cut buf p l.length p = 0 := by
  cases l with
  | nil => exact (cut_of_notMem (.inr (le_refl _))).trans h
  | cons d l =>
    obtain ⟨-, rfl, -⟩ := h
    exact if_pos ⟨le_refl p, by simp, hl _ rfl⟩

/-- There is nothing to overwrite in a word. -/
lemma cut_one (h : isSpace (buf p) = false) : cut buf p 1 = buf := by
  funext i
  unfold cut
  grind

lemma cut_word (h : Reads buf p (w ++ l)) (hw : ∀ c ∈ w, isSpace c = false) :
    cut buf p w.length = buf := by
  induction w generalizing p with
  | nil => exact funext fun i => cut_of_notMem (by simp; omega)
  | cons c w ih =>
    obtain ⟨-, rfl, h⟩ := h
    rw [length_cons, Nat.add_comm, ← cut_append, cut_one (hw _ mem_cons_self)]
    exact ih h fun d hd => hw d (mem_cons_of_mem _ hd)

/-- **A loop over characters** that overwrites the blanks among them goes to the first character
that does not belong to them. -/
lemma walk_eq {go : UInt8 → Bool} {body : Bytes → ℕ → Bytes}
    (hbody : ∀ buf p, go (buf p) → body buf p = cut buf p 1) (h : Reads buf p (w ++ l))
    (hw : ∀ c ∈ w, go c) (hl : ∀ d ∈ l.head?, go d = false) (hn : w.length < n) :
    walk go body n buf p = some (cut buf p w.length, p + w.length) := by
  induction w generalizing buf p n with
  | nil =>
    obtain ⟨n, rfl⟩ := Nat.exists_eq_add_of_lt hn
    have hcut : cut buf p 0 = buf := funext fun i => cut_of_notMem (by omega)
    have hstop : ¬(buf p ≠ 0 ∧ go (buf p)) := by
      rintro ⟨h0, hgo⟩
      cases l with
      | nil => exact h0 h
      | cons d l => exact absurd (hl d rfl) (by rw [← h.2.1, hgo]; decide)
    rw [walk, if_neg hstop, length_nil, hcut, Nat.add_zero]
  | cons c w ih =>
    obtain ⟨n, rfl⟩ := Nat.exists_eq_add_of_lt hn
    have hc := hw c mem_cons_self
    have h' : Reads (cut buf p 1) (p + 1) (w ++ l) :=
      h.drop (w := [c]) fun i hi => cut_of_notMem (.inr hi)
    obtain ⟨h0, rfl, -⟩ := h
    rw [walk, if_pos ⟨h0, hc⟩, hbody buf p hc, ih h' (fun d hd => hw d (mem_cons_of_mem _ hd))
      (by simp; omega), cut_append, length_cons, Nat.add_comm w.length, Nat.add_assoc]

/-- **The loop over blanks** overwrites them. -/
lemma skipSpace_eq (h : Reads buf p (w ++ l)) (hw : ∀ c ∈ w, isSpace c)
    (hl : ∀ d ∈ l.head?, isSpace d = false) (hn : w.length < n) :
    skipSpace n buf p = some (cut buf p w.length, p + w.length) := by
  refine walk_eq (fun buf p hs => funext fun i => ?_) h hw hl hn
  unfold cut update
  grind

/-- **The loop over a word** leaves it as it is. -/
lemma scanArg_eq (h : Reads buf p (w ++ l)) (hw : ∀ c ∈ w, isSpace c = false)
    (hl : ∀ d ∈ l.head?, isSpace d) (hn : w.length < n) :
    scanArg n buf p = some (buf, p + w.length) := by
  have e := @walk_eq _ _ _ _ _ (!isSpace ·) _ (fun _ _ hs => (cut_one (by simpa using hs)).symm) h
    (by simpa using hw) (by simpa using hl) hn
  rwa [cut_word h hw] at e

/-- A line begins with characters that satisfy `go`, and goes on with one that does not. -/
lemma exists_walk (go : UInt8 → Bool) (l : List UInt8) :
    ∃ w r, l = w ++ r ∧ (∀ c ∈ w, go c) ∧ ∀ d ∈ r.head?, go d = false := by
  refine ⟨l.takeWhile go, l.dropWhile go, takeWhile_append_dropWhile.symm,
    fun c hc => mem_takeWhile_imp hc, fun d hd => ?_⟩
  have h := List.head?_dropWhile_not go l
  rwa [Option.mem_def.mp hd] at h

/-! ## The words -/

/-- Blanks in front do not count. -/
lemma words_blanks {sp : List UInt8} (hs : ∀ c ∈ sp, isSpace c) : words (sp ++ l) = words l := by
  induction sp with
  | nil => rfl
  | cons c sp ih =>
    rw [← ih fun d hd => hs d (mem_cons_of_mem _ hd)]
    simp [words, splitOnP_cons_eq_if_modifyHead, hs c mem_cons_self]

/-- The first word, and the others. -/
lemma words_append {r : List UInt8} (hne : w ≠ []) (hw : ∀ c ∈ w, isSpace c = false)
    (hr : ∀ d ∈ r.head?, isSpace d) : words (w ++ r) = w :: words r := by
  cases r with
  | nil => simp [words, splitOnP_eq_singleton hw, hne]
  | cons d r =>
    have hd := hr d rfl
    have e : words (d :: r) = words r := words_blanks fun c hc => mem_singleton.mp hc ▸ hd
    rw [e]
    simp [words, splitOnP_append_cons_of_forall_mem hw d hd, hne]

/-- **The loop of `parse`** splits the line.

**Proof sketch.** Induction on the number of rounds. The line begins with blanks; they are
overwritten. If it ends there, there are no words. If not, a word follows, and the rest of the line
is empty or begins with a blank: the zero behind the word is that of the line, or is written in the
next round. -/
lemma parseLoop_spec (h : Reads buf p l) (hn : l.length < n) (hb : n ≤ bufSize) (argv : List ℕ) :
    ∃ ptrs, parseLoop n buf p argv = some (argv ++ ptrs, cut buf p l.length) ∧
      ptrs.map ((cut buf p l.length).cstr · bufSize) = words l ∧ ptrs.Pairwise (· < ·) ∧
      ∀ q ∈ ptrs, p ≤ q := by
  induction n generalizing buf p l argv with
  | zero => cases hn
  | succ n ih =>
    obtain ⟨sp, l, rfl, hsp, hl⟩ := exists_walk isSpace l
    rw [length_append] at hn
    have h' : Reads (cut buf p sp.length) (p + sp.length) l :=
      h.drop fun i hi => cut_of_notMem (.inr hi)
    rw [parseLoop, skipSpace_eq h hsp hl (by omega), Option.bind_eq_bind, Option.bind_some,
      words_blanks hsp]
    dsimp only
    obtain ⟨w, r, rfl, hw, hr⟩ := exists_walk (!isSpace ·) l
    simp only [Bool.not_eq_true', Bool.not_eq_false'] at hw hr
    rw [length_append] at hn
    cases w with
    | nil =>
      cases r with
      | nil =>
        refine ⟨[], ?_, rfl, Pairwise.nil, by simp⟩
        rw [if_pos (show cut buf p sp.length (p + sp.length) = 0 from h')]
        simp
      | cons d r => exact absurd (hl d rfl) (by rw [hr d rfl]; decide)
    | cons c w =>
      rw [if_neg (by rw [h'.2.1]; exact h'.1), scanArg_eq h' hw hr (by omega), Option.bind_some]
      have hpos : 0 < (c :: w).length := Nat.succ_pos _
      have h1 := h'.drop fun _ _ => rfl
      obtain ⟨ptrs, e, hmap, hlt, hge⟩ := ih h1 (by omega) (by omega) (argv ++ [p + sp.length])
      have hword := h'.take (fun i hi => cut_of_notMem (.inl hi)) (cut_head h1 hr)
      -- there is nothing to overwrite in the word
      have hcut := cut_append (cut buf p sp.length) (p + sp.length) (c :: w).length r.length
      rw [cut_word h' hw, cut_append, ← length_append, ← length_append] at hcut
      rw [hcut] at e hmap hword
      refine ⟨(p + sp.length) :: ptrs, by rw [e]; simp, ?_, ?_, ?_⟩
      · rw [map_cons, hmap, hword.cstr_eq (by omega), words_append (by simp) hw hr]
      · exact pairwise_cons.mpr ⟨fun q hq => by have := hge q hq; omega, hlt⟩
      · exact forall_mem_cons.mpr ⟨by omega, fun q hq => by have := hge q hq; omega⟩

/-- **`parse` splits every line**, and stores a pointer for each word. So it does what it is to do
iff there are at most `MAXARGS` words. -/
theorem parse_splits_iff (buf : Bytes) (h : (buf.cstr 0 bufSize).length < bufSize) :
    Splits buf ↔ (words (buf.cstr 0 bufSize)).length ≤ maxArgs := by
  obtain ⟨ptrs, e, hmap, hlt, -⟩ := parseLoop_spec (reads_cstr h) h (le_refl _) []
  rw [nil_append] at e
  rw [← hmap, length_map]
  constructor
  · rintro ⟨argv, buf', e', -, -, -, hle⟩
    cases e.symm.trans e'
    exact hle
  · refine fun hle => ⟨ptrs, _, e, hmap, hlt, fun i => if_congr ?_ rfl rfl, hle⟩
    simp

/-- A line of two words. -/
theorem parse_splits_two : Splits (Bytes.ofList [32, 104, 105, 9, 32, 120]) :=
  (parse_splits_iff _ (by decide +kernel)).mpr (by decide +kernel)

/-- **Too many words**: a line of 17 words of one letter each. The last pointer is stored behind
`argv`. -/
theorem parse_overflows : ¬Splits (Bytes.ofList (List.replicate 17 [97, 32]).flatten) := by
  have h : (parse (Bytes.ofList (List.replicate 17 [97, 32]).flatten)).map (·.1.length) =
      some 17 := by
    decide +kernel
  rintro ⟨argv, buf', e, -, -, -, hle⟩
  rw [e, Option.map_some, Option.some.injEq] at h
  rw [h] at hle
  exact absurd hle (by decide)

end Ucore
