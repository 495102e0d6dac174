import Mathlib

set_option autoImplicit false

/-!
# Ring buffers

The cells of a buffer of `cap` cells, read in a circle.

## Main definitions

* `RingBuffer.window` — the contents of `n` cells from a position on.

## Main results

* `RingBuffer.window_push` — writing the first free cell adds an element at the end.
* `RingBuffer.window_pop` — the first element, and the others.
* `RingBuffer.window_overwrite` — writing that cell of a full buffer replaces the first element.
-/

namespace RingBuffer

open Function

variable {α : Type} {buf : ℕ → α} {cap start n : ℕ} {c : α}

/-- The contents of the `n` cells from the position `start` on. -/
def window (buf : ℕ → α) (cap start n : ℕ) : List α :=
  (List.range n).map fun i => buf ((start + i) % cap)

@[simp] lemma length_window : (window buf cap start n).length = n := by simp [window]

@[simp] lemma window_mod : window buf cap (start % cap) n = window buf cap start n := by
  simp [window]

lemma window_succ : window buf cap start (n + 1) = window buf cap start n ++
    [buf ((start + n) % cap)] := by
  simp [window, List.range_succ]

/-- The first element, and the others. -/
lemma window_pop :
    window buf cap start (n + 1) = buf (start % cap) :: window buf cap (start + 1) n := by
  simp only [window, List.range_succ_eq_map, List.map_cons, List.map_map, Nat.add_zero]
  congr 1
  apply List.map_congr_left
  intro i _
  simp only [comp_apply, Nat.succ_eq_add_one]
  congr 2
  omega

lemma mod_ne {i j : ℕ} (hij : i < j) (hj : j < i + cap) :
    (start + i) % cap ≠ (start + j) % cap := by
  intro h
  have hd : cap ∣ (start + j) - (start + i) :=
    Nat.dvd_of_mod_eq_zero (Nat.sub_mod_eq_zero_of_mod_eq h.symm)
  have := Nat.eq_zero_of_dvd_of_lt hd (by omega)
  omega

lemma window_update_of_ne {k : ℕ} (h : ∀ i < n, (start + i) % cap ≠ k) :
    window (update buf k c) cap start n = window buf cap start n := by
  apply List.map_congr_left
  intro i hi
  exact update_of_ne (h i (List.mem_range.mp hi)) c buf

/-- **Writing the first free cell** adds an element at the end. -/
lemma window_push (h : n < cap) :
    window (update buf ((start + n) % cap) c) cap start (n + 1) =
      window buf cap start n ++ [c] := by
  rw [window_succ, update_self, window_update_of_ne fun i hi => mod_ne hi (by omega)]

/-- **Writing that cell of a full buffer** replaces the first element. -/
lemma window_overwrite (h : 0 < cap) :
    window (update buf ((start + cap) % cap) c) cap start cap = c ::
      (window buf cap start cap).tail := by
  obtain ⟨m, rfl⟩ : ∃ m, cap = m + 1 := ⟨cap - 1, by omega⟩
  rw [Nat.add_mod_right, window_pop, window_pop, update_self, List.tail_cons, window_update_of_ne]
  intro i hi hc
  have := @mod_ne (m + 1) start 0 (i + 1) (by omega) (by omega)
  rw [Nat.add_zero] at this
  exact this (by rw [← hc]; congr 1; omega)

end RingBuffer
