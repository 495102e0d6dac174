import Mathlib

set_option autoImplicit false

/-!
# Stateful computations that may panic

A computation takes a state and either returns a value with a new state or panics, in which case
there is no state to go on from. Error codes are ordinary returned values: a call that fails with
an error still returns, and the changes it has made to the state stay.

## Main definitions

* `Comp` — the computations, a monad; `Comp.read`, `Comp.modify`, `Comp.halt`, `Comp.ensure`.
* `Comp.zoom` — a computation on a part of the state.
* `Comp.andThen` — go on after a call unless it returned an error code.
* `Comp.Post` — whatever the computation returns satisfies a postcondition.
* `Comp.PostOk` — whatever it returns but an error code satisfies a postcondition.
* `Comp.Returns` — the computation returns, and what it returns satisfies a postcondition.
* `Comp.Spec` — what is returned satisfies a postcondition, and a panic has a reason of some kind.
* `Comp.Within` — a computation keeps to a relation between states.

## Main results

* `Comp.Post.bind`, `Comp.Spec.bind` — the rules of composition.
* `Comp.bind_eq_ok` — a composite returns iff its parts do.
* `Comp.forEach_apply` — a loop whose rounds each add to what has been done.
-/

/-- Computations over states `σ` that return values of `α` or panic with a reason in `π`. -/
def Comp (π σ α : Type) : Type := σ → Except π (α × σ)

namespace Comp

variable {π σ α β : Type}

instance : Monad (Comp π σ) where
  pure a := fun s => .ok (a, s)
  bind m f := fun s =>
    match m s with
    | .ok (a, t) => f a t
    | .error p => .error p

/-- The current state. -/
def read : Comp π σ σ := fun s => .ok (s, s)

/-- Change the state. -/
def modify (f : σ → σ) : Comp π σ Unit := fun s => .ok ((), f s)

/-- Panic with reason `p`. -/
def halt (p : π) : Comp π σ α := fun _ => .error p

/-- Go on if `c` holds, panic with reason `p` otherwise. -/
def ensure (c : Prop) [Decidable c] (p : π) : Comp π σ Unit :=
  if c then Pure.pure () else halt p

/-- Run `f` on the elements of a list, one after the other. -/
def forEach : List α → (α → Comp π σ Unit) → Comp π σ Unit
  | [], _ => Pure.pure ()
  | a :: l, f => f a >>= fun _ => forEach l f

/-- Call `m`; hand its error code on if it returns one, and go on with its result otherwise:
`if ((ret = m()) != 0) return ret;`. -/
def andThen {ε : Type} (m : Comp π σ (Except ε α)) (f : α → Comp π σ (Except ε β)) :
    Comp π σ (Except ε β) :=
  m >>= fun r => match r with
    | .ok a => f a
    | .error e => Pure.pure (.error e)

/-- Run `m` on a part of the state; `wrap` says what a panic of it is called. -/
def zoom {π' τ : Type} (get : σ → τ) (put : τ → σ → σ) (wrap : π' → π) (m : Comp π' τ α) :
    Comp π σ α :=
  fun s => match m (get s) with
    | .ok (a, t) => .ok (a, put t s)
    | .error p => .error (wrap p)

variable {s : σ} {f : α → Comp π σ Unit} {a : α} {ε : Type} {p : π}

lemma zoom_of_ok {π' τ : Type} {get : σ → τ} {put : τ → σ → σ} {wrap : π' → π} {m : Comp π' τ α}
    {t : τ} (h : m (get s) = .ok (a, t)) : zoom get put wrap m s = .ok (a, put t s) := by
  rw [zoom, h]

lemma zoom_of_error {π' τ : Type} {get : σ → τ} {put : τ → σ → σ} {wrap : π' → π} {m : Comp π' τ α}
    {p : π'} (h : m (get s) = .error p) : zoom get put wrap m s = .error (wrap p) := by
  rw [zoom, h]

@[simp] lemma pure_apply (a : α) (s : σ) : (Pure.pure a : Comp π σ α) s = .ok (a, s) := rfl

@[simp] lemma read_apply (s : σ) : (read : Comp π σ σ) s = .ok (s, s) := rfl

@[simp] lemma modify_apply (f : σ → σ) (s : σ) :
    (modify f : Comp π σ Unit) s = .ok ((), f s) := rfl

@[simp] lemma halt_apply (p : π) (s : σ) : (halt p : Comp π σ α) s = .error p := rfl

@[simp] lemma ensure_apply (c : Prop) [Decidable c] (p : π) (s : σ) :
    (ensure c p : Comp π σ Unit) s = if c then .ok ((), s) else .error p := by
  unfold ensure; split_ifs <;> rfl

lemma bind_apply (m : Comp π σ α) (f : α → Comp π σ β) (s : σ) :
    (m >>= f) s = match m s with
      | .ok (a, t) => f a t
      | .error p => .error p := rfl

lemma bind_of_ok {m : Comp π σ α} {t : σ} (h : m s = .ok (a, t)) (f : α → Comp π σ β) :
    (m >>= f) s = f a t := by
  rw [bind_apply, h]

lemma bind_of_error {m : Comp π σ α} (h : m s = .error p) (f : α → Comp π σ β) :
    (m >>= f) s = .error p := by
  rw [bind_apply, h]

/-- **Composites with the same first part** panic there alike, or go on from the same state. -/
lemma bind_cases {ι : Type} (m : Comp π σ α) (f : ι → α → Comp π σ β) (s : σ) :
    (∃ p, ∀ i, (m >>= f i) s = .error p) ∨ ∃ a t, m s = .ok (a, t) ∧
      ∀ i, (m >>= f i) s = f i a t := by
  cases h : m s with
  | error p => exact .inl ⟨p, fun i => bind_of_error h (f i)⟩
  | ok r => exact .inr ⟨r.1, r.2, rfl, fun i => bind_of_ok h (f i)⟩

/-- A composite returns iff both parts do. -/
lemma bind_eq_ok {m : Comp π σ α} {f : α → Comp π σ β} {r : β × σ} :
    (m >>= f) s = .ok r ↔ ∃ a t, m s = .ok (a, t) ∧ f a t = .ok r := by
  rw [bind_apply]
  rcases hm : m s with p | ⟨a, t⟩
  · simp
  · constructor
    · exact fun h => ⟨a, t, rfl, h⟩
    · rintro ⟨a', t', h, h'⟩
      cases h
      exact h'

/-- A result that has been computed. -/
lemma exists_ok {x : Except π α} {g : α → β} {b : β} (h : x.toOption.map g = some b) :
    ∃ a, x = .ok a ∧ g a = b := by
  cases x with
  | error p => cases h
  | ok a => exact ⟨a, rfl, Option.some.inj h⟩

lemma exists_of_result {m : Comp π σ α} (h : (m s).toOption.map Prod.fst = some a) :
    ∃ t, m s = .ok (a, t) := by
  obtain ⟨⟨_, t⟩, e, rfl⟩ := exists_ok h
  exact ⟨t, e⟩

lemma forEach_apply {g : List β → σ} {w : α → List β} (l : List α)
    (h : ∀ a ∈ l, ∀ done, f a (g done) = .ok ((), g (done ++ w a))) (done : List β) :
    forEach l f (g done) = .ok ((), g (done ++ l.flatMap w)) := by
  induction l generalizing done with
  | nil => simp [forEach]
  | cons a l ih =>
    rw [forEach, bind_of_ok (h a (by simp) done), ih (fun b hb => h b (by simp [hb])),
      List.flatMap_cons, List.append_assoc]

/-- A loop over two lists, one after the other. -/
lemma forEach_append {l l' : List α} {t u : σ} (h : forEach l f s = .ok ((), t))
    (h' : forEach l' f t = .ok ((), u)) : forEach (l ++ l') f s = .ok ((), u) := by
  induction l generalizing s with
  | nil =>
    cases h
    exact h'
  | cons a l ih =>
    obtain ⟨_, v, e1, e2⟩ := bind_eq_ok.mp h
    rw [List.cons_append, forEach, bind_of_ok e1]
    exact ih e2

lemma andThen_of_ok {m : Comp π σ (Except ε α)} {t : σ} (h : m s = .ok (.ok a, t))
    (f : α → Comp π σ (Except ε β)) : andThen m f s = f a t := by
  rw [andThen, bind_of_ok h]

lemma andThen_of_fail {m : Comp π σ (Except ε α)} {t : σ} {e : ε} (h : m s = .ok (.error e, t))
    (f : α → Comp π σ (Except ε β)) : andThen m f s = .ok (.error e, t) := by
  rw [andThen, bind_of_ok h]
  rfl

lemma andThen_of_error {m : Comp π σ (Except ε α)} (h : m s = .error p)
    (f : α → Comp π σ (Except ε β)) : andThen m f s = .error p := by
  rw [andThen, bind_of_error h]

@[simp] lemma pure_bind' (a : α) (f : α → Comp π σ β) : (Pure.pure a >>= f) = f a := rfl

@[simp] lemma read_bind_apply (f : σ → Comp π σ β) (s : σ) : (read >>= f) s = f s s := rfl

@[simp] lemma modify_bind_apply (g : σ → σ) (f : Unit → Comp π σ β) (s : σ) :
    (modify g >>= f) s = f () (g s) := rfl

@[simp] lemma ensure_bind_apply (c : Prop) [Decidable c] (p : π) (f : Unit → Comp π σ β) (s : σ) :
    (ensure c p >>= f) s = if c then f () s else .error p := by
  rw [bind_apply, ensure_apply]; split_ifs <;> rfl

@[simp] lemma ite_apply (c : Prop) [Decidable c] (m n : Comp π σ α) (s : σ) :
    (if c then m else n) s = if c then m s else n s := by split_ifs <;> rfl

/-- Whatever `m` returns from `s` satisfies `Q`. -/
def Post (m : Comp π σ α) (s : σ) (Q : α → σ → Prop) : Prop :=
  ∀ a t, m s = .ok (a, t) → Q a t

/-- What `m` returns from `s` satisfies `Q`, unless it is an error code. -/
def PostOk {ε : Type} (m : Comp π σ (Except ε α)) (s : σ) (Q : α → σ → Prop) : Prop :=
  ∀ a t, m s = .ok (.ok a, t) → Q a t

/-- `m` returns from `s`, and what it returns satisfies `Q`. -/
def Returns (m : Comp π σ α) (s : σ) (Q : α → σ → Prop) : Prop :=
  ∃ a t, m s = .ok (a, t) ∧ Q a t

section Rules

variable {m : Comp π σ α} {f : α → Comp π σ β} {s : σ} {Q : β → σ → Prop}

lemma Post.mono {Q Q' : α → σ → Prop} (h : Post m s Q) (hQ : ∀ a t, Q a t → Q' a t) :
    Post m s Q' := fun a t e => hQ a t (h a t e)

variable {R : α → σ → Prop} {g : σ → σ} {c : Prop}

lemma Post.bind (h : Post m s R) (hf : ∀ a t, R a t → Post (f a) t Q) : Post (m >>= f) s Q := by
  intro b u e
  obtain ⟨a, t, hm, hfa⟩ := bind_eq_ok.mp e
  exact hf a t (h a t hm) b u hfa

lemma Post.andThen {m : Comp π σ (Except ε α)} {f : α → Comp π σ (Except ε β)}
    {R : Except ε α → σ → Prop} {Q : Except ε β → σ → Prop} (h : Post m s R)
    (hf : ∀ a t, R (.ok a) t → Post (f a) t Q) (he : ∀ e t, R (.error e) t → Q (.error e) t) :
    Post (Comp.andThen m f) s Q := by
  refine h.bind fun r t hr => ?_
  cases r with
  | ok a => exact hf a t hr
  | error e =>
    intro b u hb
    cases hb
    exact he e t hr

lemma Post.pure {Q : α → σ → Prop} (h : Q a s) : Post (Pure.pure a : Comp π σ α) s Q := by
  intro b t e
  cases e
  exact h

lemma Post.halt {Q : α → σ → Prop} (p : π) : Post (Comp.halt p : Comp π σ α) s Q := by
  intro b t e
  cases e

lemma Post.modify {Q : Unit → σ → Prop} (h : Q () (g s)) :
    Post (Comp.modify g : Comp π σ Unit) s Q := by
  intro b t e
  cases e
  exact h

lemma Post.ensure [Decidable c] {Q : Unit → σ → Prop} (h : c → Q () s) :
    Post (Comp.ensure c p : Comp π σ Unit) s Q := by
  intro b t e
  rw [ensure_apply] at e
  split_ifs at e with hc
  cases e
  exact h hc

lemma Post.ensure_bind [Decidable c] {f : Unit → Comp π σ β} (h : c → Post (f ()) s Q) :
    Post (Comp.ensure c p >>= f) s Q := by
  intro b t e
  rw [ensure_bind_apply] at e
  split_ifs at e with hc
  exact h hc b t e

lemma Post.ite [Decidable c] {n : Comp π σ α} {Q : α → σ → Prop} (h : c → Post m s Q)
    (h' : ¬c → Post n s Q) : Post (if c then m else n) s Q := by
  split_ifs with hc
  · exact h hc
  · exact h' hc

lemma Post.read_bind {g : σ → Comp π σ β} (h : Post (g s) s Q) :
    Post (read >>= g) s Q := fun a t e => h a t e

lemma Post.modify_bind {f : Unit → Comp π σ β} (h : Post (f ()) (g s) Q) :
    Post (Comp.modify g >>= f) s Q := fun a t e => h a t e

/-- A computation on a part of the state. -/
lemma Post.zoom {π' τ : Type} {get : σ → τ} {put : τ → σ → σ} {wrap : π' → π} {m : Comp π' τ α}
    {R : α → τ → Prop} {Q : α → σ → Prop} (h : Post m (get s) R)
    (hQ : ∀ a u, R a u → Q a (put u s)) : Post (Comp.zoom get put wrap m) s Q := by
  intro a t e
  cases hm : m (get s) with
  | error p =>
    rw [zoom_of_error hm] at e
    cases e
  | ok r =>
    obtain ⟨b, u⟩ := r
    rw [zoom_of_ok hm] at e
    cases e
    exact hQ a u (h a u hm)

lemma Returns.mono {Q Q' : α → σ → Prop} (h : Returns m s Q) (hQ : ∀ a t, Q a t → Q' a t) :
    Returns m s Q' := by
  obtain ⟨a, t, e, h⟩ := h
  exact ⟨a, t, e, hQ a t h⟩

end Rules

section PostOk

variable {ε : Type} {m : Comp π σ (Except ε α)} {s : σ} {Q : α → σ → Prop}

lemma PostOk.mono {Q' : α → σ → Prop} (h : PostOk m s Q) (hQ : ∀ a t, Q a t → Q' a t) :
    PostOk m s Q' := fun a t e => hQ a t (h a t e)

variable {R : β → σ → Prop}

lemma PostOk.pure (h : Q a s) : PostOk (Pure.pure (.ok a) : Comp π σ (Except ε α)) s Q := by
  intro b t e
  cases e
  exact h

lemma PostOk.fail (e : ε) : PostOk (Pure.pure (.error e) : Comp π σ (Except ε α)) s Q := by
  intro b t h
  cases h

lemma PostOk.halt (p : π) : PostOk (Comp.halt p : Comp π σ (Except ε α)) s Q := by
  intro b t e
  cases e

lemma PostOk.read_bind {g : σ → Comp π σ (Except ε α)} (h : PostOk (g s) s Q) :
    PostOk (Comp.read >>= g) s Q := fun a t e => h a t e

lemma PostOk.bind_ok {m : Comp π σ β} {f : β → Comp π σ (Except ε α)} {b : β} {t : σ}
    (e : m s = .ok (b, t)) (h : PostOk (f b) t Q) : PostOk (m >>= f) s Q :=
  fun a u hu => h a u (by rwa [bind_of_ok e] at hu)

lemma PostOk.bind {m : Comp π σ β} {f : β → Comp π σ (Except ε α)} (h : Post m s R)
    (hf : ∀ b t, R b t → PostOk (f b) t Q) : PostOk (m >>= f) s Q := by
  intro a u e
  obtain ⟨b, t, hm, hfb⟩ := bind_eq_ok.mp e
  exact hf b t (h b t hm) a u hfb

lemma PostOk.andThen {m : Comp π σ (Except ε β)} {f : β → Comp π σ (Except ε α)} (h : PostOk m s R)
    (hf : ∀ b t, R b t → PostOk (f b) t Q) : PostOk (Comp.andThen m f) s Q := by
  intro a u e
  obtain ⟨r, t, hm, hfr⟩ := bind_eq_ok.mp e
  cases r with
  | ok b => exact hf b t (h b t hm) a u hfr
  | error c => cases hfr

/-- A computation on a part of the state. -/
lemma PostOk.zoom {π' τ : Type} {get : σ → τ} {put : τ → σ → σ} {wrap : π' → π}
    {m : Comp π' τ (Except ε α)} {R : α → τ → Prop} (h : PostOk m (get s) R)
    (hQ : ∀ a u, R a u → Q a (put u s)) : PostOk (Comp.zoom get put wrap m) s Q := by
  have hp : Post m (get s) fun r u => ∀ a, r = .ok a → R a u := by
    rintro r u e a rfl
    exact h a u e
  have hz : Post (Comp.zoom get put wrap m) s fun r t => ∀ a, r = .ok a → Q a t :=
    .zoom hp fun r u hr b hb => hQ b u (hr b hb)
  exact fun a t e => hz (.ok a) t e a rfl

lemma PostOk.ite {c : Prop} [Decidable c] {n : Comp π σ (Except ε α)} (h : c → PostOk m s Q)
    (h' : ¬c → PostOk n s Q) : PostOk (if c then m else n) s Q := by
  split_ifs with hc
  · exact h hc
  · exact h' hc

end PostOk

/-! ## Results and panics together -/

/-- If `m` returns from `s`, what it returns satisfies `Q`; if it panics, the reason satisfies
`E`. -/
structure Spec (m : Comp π σ α) (s : σ) (E : π → Prop) (Q : α → σ → Prop) : Prop where
  ok : ∀ a t, m s = .ok (a, t) → Q a t
  panic : ∀ e, m s = .error e → E e

section Spec

variable {m n : Comp π σ α} {f : α → Comp π σ β} {s : σ} {E : π → Prop} {Q : α → σ → Prop}

variable {g : σ → σ} {c : Prop}

lemma Spec.of_ok {t : σ} (e : m s = .ok (a, t)) (h : Q a t) : Spec m s E Q := by
  constructor
  · intro b u hb
    cases e.symm.trans hb
    exact h
  · intro p hp
    cases e.symm.trans hp

lemma Spec.of_error (e : m s = .error p) (h : E p) : Spec m s E Q := by
  constructor
  · intro b u hb
    cases e.symm.trans hb
  · intro p' hp
    cases e.symm.trans hp
    exact h

lemma Spec.mono {Q' : α → σ → Prop} (h : Spec m s E Q) (hQ : ∀ a t, Q a t → Q' a t) :
    Spec m s E Q' := ⟨fun a t e => hQ a t (h.ok a t e), h.panic⟩

lemma Spec.bind {R : α → σ → Prop} {Q : β → σ → Prop} (h : Spec m s E R)
    (hf : ∀ a t, R a t → Spec (f a) t E Q) : Spec (m >>= f) s E Q := by
  cases e : m s with
  | error p => exact .of_error (bind_of_error e f) (h.panic p e)
  | ok r =>
    obtain ⟨a, t⟩ := r
    have hr := hf a t (h.ok a t e)
    exact ⟨fun b u hb => hr.ok b u (by rwa [← bind_of_ok e f]),
      fun p hp => hr.panic p (by rwa [← bind_of_ok e f])⟩

lemma Spec.bind_ok {t : σ} {Q : β → σ → Prop} (e : m s = .ok (a, t)) (h : Spec (f a) t E Q) :
    Spec (m >>= f) s E Q :=
  ⟨fun b u hb => h.ok b u (by rwa [bind_of_ok e] at hb),
    fun p hp => h.panic p (by rwa [bind_of_ok e] at hp)⟩

lemma Spec.pure (h : Q a s) : Spec (Pure.pure a : Comp π σ α) s E Q :=
  .of_ok (pure_apply a s) h

lemma Spec.halt (h : E p) : Spec (Comp.halt p : Comp π σ α) s E Q :=
  .of_error (halt_apply p s) h

lemma Spec.modify {Q : Unit → σ → Prop} (h : Q () (g s)) :
    Spec (Comp.modify g : Comp π σ Unit) s E Q := .of_ok (modify_apply g s) h

lemma Spec.ite [Decidable c] (h : c → Spec m s E Q) (h' : ¬c → Spec n s E Q) :
    Spec (if c then m else n) s E Q := by
  split_ifs with hc
  · exact h hc
  · exact h' hc

lemma Spec.ensure_bind [Decidable c] {f : Unit → Comp π σ α} (hp : ¬c → E p)
    (h : c → Spec (f ()) s E Q) : Spec (Comp.ensure c p >>= f) s E Q := by
  by_cases hc : c
  · have e : (Comp.ensure c p >>= f) s = f () s := by rw [ensure_bind_apply, if_pos hc]
    exact ⟨fun a t ha => (h hc).ok a t (e ▸ ha), fun q hq => (h hc).panic q (e ▸ hq)⟩
  · refine .of_error ?_ (hp hc)
    rw [ensure_bind_apply, if_neg hc]

lemma Spec.read_bind {f : σ → Comp π σ α} (h : Spec (f s) s E Q) :
    Spec (Comp.read >>= f) s E Q := ⟨h.ok, h.panic⟩

lemma Spec.modify_bind {f : Unit → Comp π σ α} (h : Spec (f ()) (g s) E Q) :
    Spec (Comp.modify g >>= f) s E Q := ⟨h.ok, h.panic⟩

end Spec

/-! ## Relations that a computation keeps to -/

/-- Whatever `m` returns is related to the state it started from. -/
def Within (R : σ → σ → Prop) (m : Comp π σ α) : Prop := ∀ s, Post m s fun _ t => R s t

section Within

variable {R : σ → σ → Prop} {m n : Comp π σ α} {f : α → Comp π σ β}

lemma Within.bind [IsTrans σ R] (h : Within R m) (hf : ∀ a, Within R (f a)) :
    Within R (m >>= f) := fun s =>
  (h s).bind fun a t ht => (hf a t).mono fun _ u hu => IsTrans.trans s t u ht hu

variable {c : Prop}

lemma Within.andThen [IsTrans σ R] [Std.Refl R] {m : Comp π σ (Except ε α)}
    {f : α → Comp π σ (Except ε β)} (h : Within R m) (hf : ∀ a, Within R (f a)) :
    Within R (Comp.andThen m f) := by
  refine h.bind fun r => ?_
  cases r with
  | ok a => exact hf a
  | error e => exact fun s => Post.pure (Std.Refl.refl s)

lemma Within.mono {R' : σ → σ → Prop} (h : Within R m) (hR : ∀ s t, R s t → R' s t) :
    Within R' m := fun s => (h s).mono fun _ t => hR s t

lemma Within.pure [Std.Refl R] (a : α) : Within R (Pure.pure a : Comp π σ α) := fun s =>
  Post.pure (Std.Refl.refl s)

lemma Within.halt (p : π) : Within R (Comp.halt p : Comp π σ α) := fun _ => .halt p

lemma Within.read [Std.Refl R] : Within R (Comp.read : Comp π σ σ) := by
  intro s a t e
  cases e
  exact Std.Refl.refl s

lemma Within.modify {g : σ → σ} (h : ∀ s, R s (g s)) : Within R (Comp.modify g : Comp π σ Unit) :=
  fun s => .modify (h s)

lemma Within.ensure [Std.Refl R] [Decidable c] :
    Within R (Comp.ensure c p : Comp π σ Unit) := fun s => Post.ensure fun _ => Std.Refl.refl s

section

variable [Std.Refl R] [IsTrans σ R]

lemma Within.bind_pure (h : Within R m) {g : α → β} : Within R (m >>= fun a => Pure.pure (g a)) :=
  h.bind fun _ => .pure _

lemma Within.read_bind {g : σ → Comp π σ α} (h : ∀ s, Within R (g s)) :
    Within R (Comp.read >>= g) :=
  Within.read.bind h

lemma Within.ensure_bind [Decidable c] {g : Unit → Comp π σ α} (h : Within R (g ())) :
    Within R (Comp.ensure c p >>= g) := Within.ensure.bind fun _ => h

end

lemma Within.ite [Decidable c] (h : Within R m) (h' : Within R n) :
    Within R (if c then m else n) := fun s => .ite (fun _ => h s) fun _ => h' s

end Within

end Comp
