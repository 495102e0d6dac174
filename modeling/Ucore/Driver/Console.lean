import Ucore.Lib.RingBuffer

set_option autoImplicit false

/-!
# The console (`lab8/kern/driver/console.c`)

The ring of input characters. Equal positions stand for an empty ring, and nothing stops the writer
from reaching the position of the reader.

## Main definitions

* `Cons`, `consIntr`, `consGetc` — the ring, and the functions on it.
* `ConsStep` — a batch of input, or a call of `cons_getc`, with what has been fed and returned so
  far.
* `ConsExact` — nothing that has been fed is lost.

## Main results

* `console_lossless` — in every run in which at most `CONSBUFSIZE - 1` characters wait.
-/

namespace Ucore

open Function RingBuffer List

/-! ## The functions -/

/-- `CONSBUFSIZE` -/
def consBufSize : ℕ := 512

/-- `cons` -/
structure Cons where
  buf : ℕ → UInt8
  rpos : ℕ
  wpos : ℕ

/-- `cons` at the start. -/
def consBoot : Cons := ⟨fun _ => 0, 0, 0⟩

/-- The next position. -/
def nextPos (pos : ℕ) : ℕ := if pos + 1 = consBufSize then 0 else pos + 1

/-- The body of the loop of `cons_intr`. -/
def consFeed (cons : Cons) (c : ℤ) : Cons :=
  if c = 0 then cons
  else { cons with buf := update cons.buf cons.wpos (UInt8.ofInt c), wpos := nextPos cons.wpos }

/-- `cons_intr`, for the values that `proc` returns before `-1`. -/
def consIntr (cons : Cons) (batch : List ℤ) : Cons := batch.foldl consFeed cons

/-- `serial_proc_data`, for what `sbi_console_getchar` returns if there is a character. -/
def serialProcData (c : ℤ) : ℤ := if c = 127 then 8 else c

/-- `serial_intr`, for the characters that are pending. -/
def serialIntr (cons : Cons) (pending : List ℤ) : Cons := consIntr cons (pending.map serialProcData)

/-- `cons_getc`, for the characters that are pending: what it returns, and the ring. -/
def consGetc (cons : Cons) (pending : List ℤ) : ℤ × Cons :=
  let cons := serialIntr cons pending
  if cons.rpos ≠ cons.wpos then
    ((cons.buf cons.rpos).toNat, { cons with rpos := nextPos cons.rpos })
  else (0, cons)

/-! ## Runs -/

/-- The ring, the nonzero characters that have been fed, and the nonzero values that have been
returned. -/
structure ConsRun where
  cons : Cons
  fed : List ℤ
  returned : List ℤ

/-- The characters that wait in the ring. -/
def Cons.waiting (cons : Cons) : List ℤ :=
  (window cons.buf consBufSize cons.rpos ((cons.wpos + consBufSize - cons.rpos) % consBufSize)).map
    fun c => (c.toNat : ℤ)

/-- The characters of a batch. -/
def chars (batch : List ℤ) : List ℤ := batch.filter (· ≠ 0)

/-- What `sbi_console_getchar` can return for a character, or `0`. -/
def IsBatch (batch : List ℤ) : Prop := ∀ c ∈ batch, 0 ≤ c ∧ c < 256

/-- **The batch finds room**: at most `CONSBUFSIZE - 1` characters wait after it. -/
def Room (cons : Cons) (batch : List ℤ) : Prop :=
  cons.waiting.length + (chars batch).length < consBufSize

/-- **Steps**: a batch of input, or a call of `cons_getc`, with room for the characters. -/
inductive ConsStep (s : ConsRun) : ConsRun → Prop
  | intr (batch : List ℤ) (hb : IsBatch batch) (hr : Room s.cons batch) :
      ConsStep s ⟨consIntr s.cons batch, s.fed ++ chars batch, s.returned⟩
  | getc (pending : List ℤ) (hb : IsBatch pending) (hr : Room s.cons (pending.map serialProcData)) :
      ConsStep s ⟨(consGetc s.cons pending).2, s.fed ++ chars (pending.map serialProcData),
        s.returned ++ chars [(consGetc s.cons pending).1]⟩

/-- **Nothing is lost**: what has been fed is what has been returned, and after it what waits; the
next call returns the first character that waits, and `0` only if there is none. -/
structure ConsExact (s : ConsRun) : Prop where
  fifo : s.fed = s.returned ++ s.cons.waiting
  room : s.cons.waiting.length < consBufSize
  getc : ∀ pending, IsBatch pending → Room s.cons (pending.map serialProcData) →
    (consGetc s.cons pending).1 = (s.cons.waiting ++ chars (pending.map serialProcData)).headD 0 ∧
      ((consGetc s.cons pending).1 = 0 ↔
        s.cons.waiting ++ chars (pending.map serialProcData) = [])

/-- The positions are inside of the buffer, and what waits is not zero. -/
structure ConsInv (cons : Cons) : Prop where
  rpos : cons.rpos < consBufSize
  wpos : cons.wpos < consBufSize
  nonzero : ∀ c ∈ cons.waiting, c ≠ 0

section Run

variable {cons : Cons} {s t : ConsRun} {c : ℤ} {batch pending : List ℤ}

lemma nextPos_eq {pos : ℕ} (h : pos < consBufSize) : nextPos pos = (pos + 1) % consBufSize := by
  unfold nextPos consBufSize at *
  split_ifs <;> omega

@[simp] lemma chars_nil : chars [] = [] := rfl

lemma chars_cons_zero : chars (0 :: batch) = chars batch := by simp [chars]

lemma chars_cons (h : c ≠ 0) : chars (c :: batch) = c :: chars batch := by simp [chars, h]

lemma toNat_ofInt (h0 : 0 ≤ c) (h1 : c < 256) : ((UInt8.ofInt c).toNat : ℤ) = c := by
  rw [UInt8.toNat, UInt8.ofInt]
  simp only [UInt8.toBitVec_ofNat']
  rw [BitVec.toNat_ofNat]
  omega

lemma length_waiting :
    cons.waiting.length = (cons.wpos + consBufSize - cons.rpos) % consBufSize := by
  simp [Cons.waiting]

/-- **One character** is added, if there is room for it. -/
lemma consFeed_spec (h : ConsInv cons) (h0 : c ≠ 0) (hc : 0 ≤ c ∧ c < 256)
    (hr : cons.waiting.length + 1 < consBufSize) :
    ConsInv (consFeed cons c) ∧ (consFeed cons c).waiting = cons.waiting ++ [c] := by
  rw [length_waiting] at hr
  have hrpos := h.rpos
  have hwpos := h.wpos
  set n := (cons.wpos + consBufSize - cons.rpos) % consBufSize with hn
  have hw : cons.wpos = (cons.rpos + n) % consBufSize := by
    unfold consBufSize at *
    omega
  have hn' : (nextPos cons.wpos + consBufSize - cons.rpos) % consBufSize = n + 1 := by
    rw [nextPos_eq hwpos]
    unfold consBufSize at *
    omega
  have hwait : (consFeed cons c).waiting = cons.waiting ++ [c] := by
    rw [consFeed, if_neg h0]
    simp only [Cons.waiting]
    rw [hn', ← hn, hw, window_push (by omega), map_append, map_singleton, toNat_ofInt hc.1 hc.2]
  refine ⟨⟨?_, ?_, ?_⟩, hwait⟩
  · rw [consFeed, if_neg h0]
    exact hrpos
  · rw [consFeed, if_neg h0]
    simp only [nextPos_eq hwpos]
    exact Nat.mod_lt _ (by decide)
  · rw [hwait]
    intro d hd
    rcases mem_append.mp hd with hd | hd
    · exact h.nonzero d hd
    · rwa [mem_singleton.mp hd]

/-- **One character too many**: the positions become equal. -/
lemma consFeed_full (h : ConsInv cons) (h0 : c ≠ 0) (hlen : cons.waiting.length + 1 = consBufSize) :
    (consFeed cons c).waiting = [] := by
  apply eq_nil_of_length_eq_zero
  rw [length_waiting] at hlen ⊢
  have hwpos := h.wpos
  rw [consFeed, if_neg h0]
  simp only [nextPos_eq hwpos]
  unfold consBufSize at *
  omega

/-- **A batch** is added, if there is room for it. -/
lemma consIntr_spec (h : ConsInv cons) (hb : IsBatch batch) (hr : Room cons batch) :
    ConsInv (consIntr cons batch) ∧ (consIntr cons batch).waiting = cons.waiting ++
      chars batch := by
  induction batch generalizing cons with
  | nil => exact ⟨h, (append_nil _).symm⟩
  | cons c batch ih =>
    have hb' : IsBatch batch := fun d hd => hb d (mem_cons_of_mem c hd)
    rw [consIntr, foldl_cons]
    by_cases h0 : c = 0
    · subst h0
      rw [Room, chars_cons_zero] at hr
      rw [chars_cons_zero, consFeed, if_pos rfl]
      exact ih h hb' hr
    · rw [Room, chars_cons h0, length_cons] at hr
      obtain ⟨h', hw⟩ := consFeed_spec h h0 (hb c mem_cons_self) (by omega)
      have hr' : Room (consFeed cons c) batch := by
        rw [Room, hw, length_append, length_singleton]
        omega
      obtain ⟨h'', hw'⟩ := ih h' hb' hr'
      refine ⟨h'', ?_⟩
      rw [chars_cons h0]
      exact hw'.trans (by rw [hw, append_assoc, singleton_append])

/-- **The call takes the first character** that waits. -/
lemma consGetc_spec (h : ConsInv cons) (hb : IsBatch pending)
    (hr : Room cons (pending.map serialProcData)) :
    ConsInv (consGetc cons pending).2 ∧
      (consGetc cons pending).1 = (cons.waiting ++ chars (pending.map serialProcData)).headD 0 ∧
      (consGetc cons pending).2.waiting =
      (cons.waiting ++ chars (pending.map serialProcData)).tail := by
  have hb' : IsBatch (pending.map serialProcData) := by
    intro c hc
    obtain ⟨d, hd, rfl⟩ := mem_map.mp hc
    have := hb d hd
    unfold serialProcData
    split_ifs <;> omega
  obtain ⟨h', hw⟩ := consIntr_spec h hb' hr
  rw [← hw]
  unfold consGetc serialIntr
  set k := consIntr cons (pending.map serialProcData)
  have hrpos := h'.rpos
  have hwpos := h'.wpos
  by_cases heq : k.rpos = k.wpos
  · have hnil : k.waiting = [] := by
      apply eq_nil_of_length_eq_zero
      rw [length_waiting, heq, Nat.add_sub_cancel_left, Nat.mod_self]
    simp only [heq, ne_eq, not_true_eq_false, if_false]
    rw [hnil]
    exact ⟨h', rfl, rfl⟩
  · simp only [ne_eq, heq, not_false_eq_true, if_true]
    obtain ⟨n, hn⟩ : ∃ n, (k.wpos + consBufSize - k.rpos) % consBufSize = n + 1 := by
      refine ⟨(k.wpos + consBufSize - k.rpos) % consBufSize - 1, ?_⟩
      unfold consBufSize at *
      omega
    have hn' : (k.wpos + consBufSize - nextPos k.rpos) % consBufSize = n := by
      rw [nextPos_eq hrpos]
      unfold consBufSize at *
      omega
    have hcons : k.waiting = ((k.buf k.rpos).toNat : ℤ) ::
        Cons.waiting { k with rpos := nextPos k.rpos } := by
      simp only [Cons.waiting]
      rw [hn, hn', window_pop, map_cons, Nat.mod_eq_of_lt hrpos, nextPos_eq hrpos, window_mod]
    rw [hcons]
    refine ⟨⟨?_, hwpos, fun d hd => ?_⟩, rfl, rfl⟩
    · simp only [nextPos_eq hrpos]
      exact Nat.mod_lt _ (by decide)
    · exact h'.nonzero d (by rw [hcons]; exact mem_cons_of_mem _ hd)

lemma ne_zero_of_mem_chars (h : c ∈ chars batch) : c ≠ 0 := by
  simpa [chars] using (mem_filter.mp h).2

lemma ConsInv.ne_zero (h : ConsInv cons) : ∀ c ∈ cons.waiting ++ chars batch, c ≠ 0 := by
  intro c hc
  rcases mem_append.mp hc with hc | hc
  · exact h.nonzero c hc
  · exact ne_zero_of_mem_chars hc

lemma headD_eq_zero {l : List ℤ} (h : ∀ c ∈ l, c ≠ 0) : l.headD 0 = 0 ↔ l = [] := by
  cases l with
  | nil => exact iff_of_true rfl rfl
  | cons c l => exact iff_of_false (h c mem_cons_self) (cons_ne_nil c l)

lemma chars_headD_append_tail {l : List ℤ} (h : ∀ c ∈ l, c ≠ 0) :
    chars [l.headD 0] ++ l.tail = l := by
  cases l with
  | nil => rfl
  | cons c l =>
    rw [headD_cons, chars_cons (h c mem_cons_self)]
    rfl

/-- **One step** loses nothing. -/
lemma ConsStep.fifo (hstep : ConsStep s t) (h : ConsInv s.cons)
    (hf : s.fed = s.returned ++ s.cons.waiting) :
    ConsInv t.cons ∧ t.fed = t.returned ++ t.cons.waiting := by
  cases hstep with
  | intr batch hb hr =>
    obtain ⟨h', hw⟩ := consIntr_spec h hb hr
    refine ⟨h', ?_⟩
    simp only [hf, hw, append_assoc]
  | getc pending hb hr =>
    obtain ⟨h', hret, hw⟩ := consGetc_spec h hb hr
    refine ⟨h', ?_⟩
    simp only [hf, hret, hw, append_assoc]
    rw [chars_headD_append_tail h.ne_zero]

/-- **A run** loses nothing. -/
lemma cons_run (hr : Relation.ReflTransGen ConsStep ⟨consBoot, [], []⟩ s) :
    ConsInv s.cons ∧ s.fed = s.returned ++ s.cons.waiting := by
  induction hr with
  | refl => exact ⟨⟨by decide, by decide, fun c hc => absurd hc not_mem_nil⟩, rfl⟩
  | tail _ hstep ih => exact hstep.fifo ih.1 ih.2

end Run

/-- **The console loses nothing** in every run in which at most `CONSBUFSIZE - 1` characters wait:
the characters that have been fed are those that have been returned, in the same order and each
once, and after them those that wait. If one more character comes when `CONSBUFSIZE - 1` wait, all
are lost. -/
theorem console_lossless {s : ConsRun} (hr : Relation.ReflTransGen ConsStep ⟨consBoot, [], []⟩ s) :
    ConsExact s ∧ ∀ c : ℤ, 0 < c → c < 256 →
      ((∃ l, (consIntr s.cons [c]).waiting = s.cons.waiting ++ l) ↔ Room s.cons [c]) := by
  obtain ⟨h, hf⟩ := cons_run hr
  have hlen : s.cons.waiting.length < consBufSize := by
    rw [length_waiting]
    exact Nat.mod_lt _ (by decide)
  refine ⟨⟨hf, hlen, fun pending hb hroom => ?_⟩, fun c hpos h1 => ?_⟩
  · obtain ⟨-, hret, -⟩ := consGetc_spec h hb hroom
    exact ⟨hret, by rw [hret]; exact headD_eq_zero h.ne_zero⟩
  · have h0 : c ≠ 0 := by omega
    constructor
    · rintro ⟨l, hl⟩
      by_contra hno
      have hlen' : s.cons.waiting.length + 1 = consBufSize := by
        have : ¬s.cons.waiting.length + (chars [c]).length < consBufSize := hno
        rw [chars_cons h0, length_cons, chars_nil, length_nil] at this
        omega
      have hnil := consFeed_full h h0 hlen'
      rw [consIntr, foldl_cons, foldl_nil, hnil] at hl
      have := congrArg List.length hl
      rw [length_append, length_nil] at this
      unfold consBufSize at hlen'
      omega
    · intro hroom
      have hb : IsBatch [c] := by
        intro d hd
        rw [mem_singleton.mp hd]
        omega
      exact ⟨_, (consIntr_spec h hb hroom).2⟩

/-- A batch that fills the buffer but for one place. -/
theorem console_lossless_full :
    ConsExact ⟨consIntr consBoot (List.replicate 511 97), chars (List.replicate 511 97), []⟩ := by
  have hstep : ConsStep ⟨consBoot, [], []⟩
      ⟨consIntr consBoot (List.replicate 511 97), [] ++ chars (List.replicate 511 97), []⟩ := by
    refine .intr _ (fun c hc => ?_) (by unfold Room; decide +kernel)
    rw [(mem_replicate.mp hc).2]
    decide
  exact (console_lossless (.single hstep)).1

/-- **A whole buffer can be lost**: after a batch of `CONSBUFSIZE` characters, `cons_getc` returns
`0`. -/
theorem console_loses_buffer :
    (chars (List.replicate 512 97)).length = 512 ∧
      (consGetc (consIntr consBoot (List.replicate 512 97)) []).1 = 0 := by
  decide +kernel

end Ucore
