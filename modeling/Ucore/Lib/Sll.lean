import Mathlib

set_option autoImplicit false

/-!
# Singly linked rings

Nodes that are linked one after the other by a single pointer field, and searches along the
pointers. A ring is a list of nodes whose last node leads back to the first one.

## Main definitions

* `Sll next l b` — the nodes `l` are linked in order, and the last one leads to `b`.
* `Sll.seek`, `Sll.seekPair` — the first node from a given one on at which a test holds; the same
  with the node before it. The number of steps is bounded.

## Main results

* `Sll.rotate` — a ring can be read from any of its nodes on.
* `Sll.seekPair_ring` — a search in a ring finds a node if there is one.
-/

open Function List

variable {ν : Type}

/-- The nodes `l` are linked in order, and the last one leads to `b`. -/
def Sll (next : ν → ν) : List ν → ν → Prop
  | [], _ => True
  | a :: l, b => next a = l.headD b ∧ Sll next l b

namespace Sll

variable {next next' : ν → ν} {l m : List ν} {a b : ν}

lemma append : Sll next (l ++ m) b ↔ Sll next l (m.headD b) ∧ Sll next m b := by
  induction l with
  | nil => simp [Sll]
  | cons a l ih =>
    have hhead : (l ++ m).headD b = l.headD (m.headD b) := by
      cases l <;> rfl
    rw [cons_append, Sll, Sll, ih, hhead, and_assoc]

lemma congr (h : Sll next l b) (hn : ∀ x ∈ l, next' x = next x) : Sll next' l b := by
  induction l with
  | nil => trivial
  | cons a l ih =>
    refine ⟨(hn a mem_cons_self).trans h.1, ih h.2 fun x hx => hn x (mem_cons_of_mem _ hx)⟩

/-- A ring can be read from any of its nodes on. -/
lemma rotate {as bs : List ν} {h : ν} (hl : Sll next (as ++ a :: bs) h)
    (hh : (as ++ a :: bs).headD h = h) : Sll next (a :: bs ++ as) a := by
  rw [append] at hl
  refine append.mpr ⟨?_, ?_⟩
  · cases as with
    | nil =>
      have e : a = h := hh
      subst e
      exact hl.2
    | cons x as =>
      have e : x = h := hh
      subst e
      exact hl.2
  · exact hl.1

lemma next_mem {h : ν} (hl : Sll next l h) (hh : h ∈ l) (ha : a ∈ l) : next a ∈ l := by
  obtain ⟨as, bs, rfl⟩ := append_of_mem ha
  rw [append] at hl
  rw [hl.2.1]
  cases bs with
  | nil => exact hh
  | cons x bs => simp

variable (next) (stop : ν → Bool)

/-- The first node from `a` on at which a test holds, with the node before it, within a number of
steps; before `a` there is `p`. -/
def seekPair : ℕ → ν → ν → Option (ν × ν)
  | 0, _, _ => none
  | n + 1, p, a => if stop a then some (p, a) else seekPair n a (next a)

/-- The first node from a given one on at which a test holds, within a number of steps. -/
def seek (n : ℕ) (a : ν) : Option ν := (seekPair next stop n a a).map Prod.snd

variable {next stop}

/-- Along linked nodes a search comes to a node at which the test holds. -/
lemma seekPair_of_mem {n : ℕ} {p : ν} (h : Sll next l b) (ha : a ∈ l) (hs : stop a)
    (hn : l.length ≤ n) : ∃ r, seekPair next stop n p (l.headD b) = some r := by
  induction l generalizing n p with
  | nil => cases ha
  | cons x l ih =>
    rw [length_cons] at hn
    obtain ⟨n, rfl⟩ : ∃ k, n = k + 1 := ⟨n - 1, by omega⟩
    change ∃ r, seekPair next stop (n + 1) p x = some r
    rw [seekPair]
    by_cases hx : stop x
    · rw [if_pos hx]
      exact ⟨_, rfl⟩
    · rw [if_neg hx, h.1]
      refine ih h.2 ?_ (by omega)
      refine (mem_cons.mp ha).resolve_left ?_
      rintro rfl
      exact hx hs

/-- What a search finds: `P` relates the node with the one before it. -/
lemma seekPair_some {n : ℕ} {p : ν} {P : ν → ν → Prop} (hP : ∀ x y, P x y → P y (next y))
    (hp : P p a) {r : ν × ν} (h : seekPair next stop n p a = some r) : P r.1 r.2 ∧ stop r.2 := by
  induction n generalizing p a with
  | zero => cases h
  | succ n ih =>
    rw [seekPair] at h
    by_cases hs : stop a
    · rw [if_pos hs] at h
      cases h
      exact ⟨hp, hs⟩
    · rw [if_neg hs] at h
      exact ih (hP p a hp) h

lemma head_mem {h p : ν} (hh : l.headD h = h) (hp : p ∈ l) : h ∈ l := by
  cases l with
  | nil => cases hp
  | cons x l =>
    have e : x = h := hh
    rw [e]
    exact mem_cons_self

lemma seekPair_ends {n : ℕ} {h p q : ν} (hl : Sll next l h) (hh : l.headD h = h) (hp : p ∈ l)
    (ha : a ∈ l) (hs : stop a) (hn : l.length ≤ n) : ∃ r, seekPair next stop n q p = some r := by
  obtain ⟨as, bs, rfl⟩ := append_of_mem hp
  have hperm : (p :: bs ++ as).Perm (as ++ p :: bs) := perm_append_comm
  exact seekPair_of_mem (l := p :: bs ++ as) (hl.rotate hh) (hperm.mem_iff.mpr ha) hs
    (by rw [hperm.length_eq]; exact hn)

/-- **A search in a ring** finds a node at which the test holds if there is one. -/
lemma seekPair_ring {n : ℕ} {h p : ν} (hl : Sll next l h) (hh : l.headD h = h) (hp : p ∈ l)
    (ha : a ∈ l) (hs : stop a) (hn : l.length ≤ n) :
    ∃ q c, seekPair next stop n p (next p) = some (q, c) ∧ q ∈ l ∧ c = next q ∧ stop c := by
  have hmem := head_mem hh hp
  obtain ⟨r, hr⟩ := hl.seekPair_ends (q := p) hh (hl.next_mem hmem hp) ha hs hn
  obtain ⟨⟨h1, h2⟩, h3⟩ := seekPair_some (P := fun x y => x ∈ l ∧ y = next x)
    (fun x y hx => ⟨hx.2 ▸ hl.next_mem hmem hx.1, rfl⟩) ⟨hp, rfl⟩ hr
  exact ⟨r.1, r.2, hr, h1, h2, h3⟩

/-- A search along linked nodes ends at one of them if the test holds at one of them. -/
lemma seekPair_mem {n : ℕ} {p : ν} {r : ν × ν} (h : Sll next l b) (ha : a ∈ l) (hs : stop a)
    (hr : seekPair next stop n p (l.headD b) = some r) : r.2 ∈ l := by
  induction l generalizing n p with
  | nil => cases ha
  | cons x l ih =>
    cases n with
    | zero => cases hr
    | succ n =>
      change seekPair next stop (n + 1) p x = some r at hr
      rw [seekPair] at hr
      by_cases hx : stop x
      · rw [if_pos hx] at hr
        cases hr
        exact mem_cons_self
      · rw [if_neg hx, h.1] at hr
        refine mem_cons_of_mem _ (ih h.2 ?_ hr)
        refine (mem_cons.mp ha).resolve_left ?_
        rintro rfl
        exact hx hs

/-- **A search that goes once around a ring**, from the node behind `p` on to `p` itself, does not
end at `p` for that reason alone if another node passes the test `P`. -/
lemma seekPair_around {n : ℕ} {h p : ν} {P : ν → Prop} {r : ν × ν} (hl : Sll next l h)
    (hh : l.headD h = h) (hnd : l.Nodup) (hp : p ∈ l) (ha : a ∈ l) (hPa : P a)
    (hstop : ∀ c, stop c ↔ P c ∨ c = p) (hr : seekPair next stop n p (next p) = some r) :
    P r.2 := by
  have hsr : stop r.2 := (seekPair_some (P := fun _ _ => True) (fun _ _ _ => trivial) trivial hr).2
  rcases (hstop _).mp hsr with hP | hrp
  · exact hP
  obtain ⟨as, bs, rfl⟩ := append_of_mem hp
  have hrot : Sll next (p :: (bs ++ as)) p := hl.rotate hh
  have hperm : (as ++ p :: bs).Perm (p :: (bs ++ as)) := perm_append_comm
  have hnd' : (p :: (bs ++ as)).Nodup := hperm.nodup_iff.mp hnd
  have ha' : a ∈ p :: (bs ++ as) := hperm.mem_iff.mp ha
  rw [hrot.1] at hr
  rw [nodup_cons] at hnd'
  rcases mem_cons.mp ha' with rfl | ha'
  · rw [hrp]
    exact hPa
  · have hmem := hrot.2.seekPair_mem ha' ((hstop a).mpr (.inl hPa)) hr
    rw [hrp] at hmem
    exact absurd hmem hnd'.1

/-- **A search for the only node of a ring at which the test holds** finds it. -/
lemma seek_ring {n : ℕ} {h p : ν} (hl : Sll next l h) (hh : l.headD h = h) (hp : p ∈ l)
    (ha : a ∈ l) (hs : ∀ x ∈ l, stop x ↔ x = a) (hn : l.length ≤ n) :
    seek next stop n p = some a := by
  have hmem := head_mem hh hp
  obtain ⟨r, hr⟩ := hl.seekPair_ends (q := p) hh hp ha ((hs a ha).mpr rfl) hn
  obtain ⟨h1, h2⟩ := seekPair_some (P := fun _ y => y ∈ l) (fun x y hy => hl.next_mem hmem hy) hp hr
  rw [seek, hr, Option.map_some, (hs _ h1).mp h2]

end Sll
