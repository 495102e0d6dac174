import Mathlib

set_option autoImplicit false

/-!
# Doubly linked lists that end in null pointers

A list is stored in two maps, from every element to the next one and to the previous one. The lemmas
say what the usual edits do: an element is put in front, the first one is taken off, and one is
unlinked from anywhere.

## Main definitions

* `Dll next prev y l h` — from `h` on, `next` visits `l`, and `prev` leads back; before the first
  element there is `y`.
* `Dll.back` — the map `prev` after the element behind `h` has been told what is before it.

## Main results

* `Dll.congr` — a list depends on the maps at its elements only.
* `Dll.push`, `Dll.rest`, `Dll.unlink` — the edits.
-/

open Function List

variable {α : Type}

/-- **The list `l` is stored from `h` on**, behind `y`. -/
def Dll (next prev : α → Option α) : Option α → List α → Option α → Prop
  | _, [], h => h = none
  | y, a :: l, h => h = some a ∧ prev a = y ∧ Dll next prev (some a) l (next a)

namespace Dll

variable {next prev next' prev' : α → Option α} {y h : Option α} {l : List α} {a b : α}

lemma head_eq (hl : Dll next prev y l h) : h = l.head? := by
  cases l with
  | nil => exact hl
  | cons a l => exact hl.1

/-- A list depends on the maps at its elements only. -/
lemma congr (hl : Dll next prev y l h) (hn : ∀ a ∈ l, next' a = next a)
    (hp : ∀ a ∈ l, prev' a = prev a) : Dll next' prev' y l h := by
  induction l generalizing y h with
  | nil => exact hl
  | cons a l ih =>
    obtain ⟨h1, h2, h3⟩ := hl
    refine ⟨h1, (hp a mem_cons_self).trans h2, ?_⟩
    rw [hn a mem_cons_self]
    exact ih h3 (fun b hb => hn b (mem_cons_of_mem _ hb)) fun b hb =>
      hp b (mem_cons_of_mem _ hb)

lemma rest (hl : Dll next prev y (a :: l) h) : Dll next prev (some a) l (next a) := hl.2.2

/-- The elements of a stored list are visited one after the other, so the next one of an element is
another element. -/
lemma next_mem (hl : Dll next prev y l h) (ha : a ∈ l) (hb : next a = some b) : b ∈ l := by
  induction l generalizing y h with
  | nil => cases ha
  | cons c l ih =>
    rcases mem_cons.mp ha with rfl | ha
    · have e := hl.rest.head_eq
      rw [hb] at e
      exact mem_cons_of_mem _ (mem_of_mem_head? e.symm)
    · exact mem_cons_of_mem _ (ih hl.rest ha)

/-- An element is not behind itself. -/
lemma next_ne (hl : Dll next prev y l h) (hnd : l.Nodup) (ha : a ∈ l) : next a ≠ some a := by
  induction l generalizing y h with
  | nil => cases ha
  | cons c l ih =>
    rcases mem_cons.mp ha with rfl | ha
    · intro e
      rw [hl.rest.head_eq] at e
      exact (nodup_cons.mp hnd).1 (mem_of_mem_head? e)
    · exact ih hl.rest (nodup_cons.mp hnd).2 ha

/-- What is before an element: another element, or `y` for the first one. -/
lemma prev_cases (hl : Dll next prev y l h) (ha : a ∈ l) :
    (h = some a ∧ prev a = y) ∨ ∃ b ∈ l, prev a = some b := by
  induction l generalizing y h with
  | nil => cases ha
  | cons c l ih =>
    rcases mem_cons.mp ha with rfl | ha
    · exact .inl ⟨hl.1, hl.2.1⟩
    · rcases ih hl.rest ha with ⟨-, e⟩ | ⟨b, hb, e⟩
      · exact .inr ⟨c, mem_cons_self, e⟩
      · exact .inr ⟨b, mem_cons_of_mem _ hb, e⟩

variable [DecidableEq α]

/-- The element at `h`, if there is one, is told that `y` is before it. -/
def back (prev : α → Option α) (h y : Option α) : α → Option α :=
  match h with
  | some b => update prev b y
  | none => prev

lemma back_of_ne (ha : h ≠ some a) : back prev h y a = prev a := by
  cases h with
  | none => rfl
  | some b => exact update_of_ne (fun e => ha (by rw [e])) ..

/-- A list whose first element has been told what is before it. -/
lemma relink {z : Option α} (hl : Dll next prev y l h) (hnd : l.Nodup) :
    Dll next (back prev h z) z l h := by
  cases l with
  | nil => exact hl
  | cons a l =>
    obtain ⟨rfl, -, h3⟩ := hl
    refine ⟨rfl, update_self .., h3.congr (fun _ _ => rfl) fun b hb => ?_⟩
    refine update_of_ne ?_ ..
    rintro rfl
    exact (nodup_cons.mp hnd).1 hb

/-- **An element is put in front.** -/
lemma push (hl : Dll next prev y l h) (hnd : l.Nodup) (ha : a ∉ l) :
    Dll (update next a h) (back (update prev a none) h (some a)) none (a :: l) (some a) := by
  have hne : h ≠ some a := by
    intro e
    rw [hl.head_eq] at e
    exact ha (mem_of_mem_head? e)
  refine ⟨rfl, ?_, ?_⟩
  · rw [back_of_ne hne, update_self]
  · rw [update_self]
    have hmem : ∀ b ∈ l, b ≠ a := by
      rintro b hb rfl
      exact ha hb
    have h1 : Dll (update next a h) (update prev a none) y l h :=
      hl.congr (fun b hb => update_of_ne (hmem b hb) ..) fun b hb => update_of_ne (hmem b hb) ..
    exact h1.relink hnd

/-- **An element other than the first one is unlinked.**

**Proof sketch.** Induction on the list behind the first element. Either its first element goes, and
the rest is told what is before it now, or the element is further behind. -/
lemma unlink_cons {c b : α} (hl : Dll next prev y (c :: l) h) (hnd : (c :: l).Nodup) (ha : a ∈ l)
    (hb : prev a = some b) :
    Dll (update next b (next a)) (back prev (next a) (prev a)) y ((c :: l).erase a) h := by
  have hca : c ≠ a := by
    rintro rfl
    exact (nodup_cons.mp hnd).1 ha
  induction l generalizing y c h with
  | nil => cases ha
  | cons d l ih =>
    obtain ⟨rfl, h2, h3⟩ := hl
    have hcd := (nodup_cons.mp hnd).1
    have hnd' := (nodup_cons.mp hnd).2
    -- nothing before the first element is changed: the next one of `a` is behind it
    have hnc : next a ≠ some c := fun e => hcd (h3.next_mem ha e)
    rw [erase_cons_tail (by simpa using hca)]
    refine ⟨rfl, (back_of_ne hnc).trans h2, ?_⟩
    by_cases hda : d = a
    · subst hda
      have hbc : b = c := by
        have e := h3.2.1
        rw [hb] at e
        exact Option.some.inj e
      subst hbc
      rw [erase_cons_head, update_self, hb]
      have h4 : Dll next (back prev (next d) (some b)) (some b) l (next d) :=
        h3.rest.relink (nodup_cons.mp hnd').2
      refine h4.congr (fun x hx => update_of_ne ?_ ..) fun _ _ => rfl
      rintro rfl
      exact hcd (mem_cons_of_mem _ hx)
    · have ha' : a ∈ l := (mem_cons.mp ha).resolve_left (Ne.symm hda)
      have hbc : c ≠ b := by
        rintro rfl
        rcases h3.rest.prev_cases ha' with ⟨-, e⟩ | ⟨x, hx, e⟩
        · rw [hb] at e
          exact hcd (Option.some.inj e ▸ mem_cons_self)
        · rw [hb] at e
          exact hcd (mem_cons_of_mem _ (Option.some.inj e ▸ hx))
      rw [update_of_ne hbc]
      exact ih h3 hnd' ha' hda

/-- **An element is unlinked**: the one before it, or the pointer to the first element, goes on
behind it. -/
lemma unlink (hl : Dll next prev none l h) (hnd : l.Nodup) (ha : a ∈ l) :
    match prev a with
    | some b => b ∈ l ∧ Dll (update next b (next a))
      (back prev (next a) (some b)) none (l.erase a) h
    | none => Dll next (back prev (next a) none) none (l.erase a) (next a) := by
  cases l with
  | nil => cases ha
  | cons c l =>
    by_cases hca : c = a
    · subst hca
      rw [hl.2.1, erase_cons_head]
      exact hl.rest.relink (nodup_cons.mp hnd).2
    · have ha' : a ∈ l := (mem_cons.mp ha).resolve_left (Ne.symm hca)
      rcases hl.prev_cases ha with ⟨e, -⟩ | ⟨b, hb, e⟩
      · rw [hl.1] at e
        exact absurd (Option.some.inj e) hca
      · rw [e]
        refine ⟨hb, ?_⟩
        rw [← e]
        exact hl.unlink_cons hnd ha' e

end Dll
