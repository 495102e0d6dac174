import Ucore.Process.Links

set_option autoImplicit false

/-!
# The pointers store the lists of children

The pointers of the processes store the lists of children that the model of the kernel has. Every
edit by hand keeps this; while a process that exits hands over its children, the first one that is
left still points to a sibling that has gone.

## Main definitions

* `Chained` — the pointers store the lists of children.
* `Mirrors` — a function with pointers does what the function on lists does.

## Main results

* `Chained.add`, `Chained.move`, `Chained.remove` — the edits.
* `Mirrors.bind` — functions are compared part by part.
-/

namespace Ucore

open Function Comp

/-! ## The edits -/

/-- **The pointers store the lists of children.** The first child of a process that hands over its
children may point to any sibling. -/
def Chained (dying : Option ℕ) (K : ℕ → Option Kin) (F : Ptrs) : Prop :=
  ∀ p k, K p = some k →
    ∃ y, (dying ≠ some p → y = none) ∧ Dll F.optr F.yptr y k.children (F.cptr p)

section Edits

variable {idle init : ℕ} {dying : Option ℕ} {K K' : ℕ → Option Kin} {F : Ptrs} {p : ℕ}

lemma Ptrs.setLinks_eq (F : Ptrs) (p parent : ℕ) : F.setLinks p parent =
    ⟨update F.cptr parent (some p), Dll.back (update F.yptr p none) (F.cptr parent) (some p),
      update F.optr p (F.cptr parent)⟩ := by
  unfold Ptrs.setLinks Dll.back
  simp only [update_self]
  cases F.cptr parent <;> rfl

lemma Ptrs.moveChild_eq (F : Ptrs) (cur init c : ℕ) : F.moveChild cur init c =
    ({ F with cptr := update F.cptr cur (F.optr c) } : Ptrs).setLinks c init := by
  unfold Ptrs.moveChild Ptrs.setLinks
  simp only [update_self]
  cases update F.cptr cur (F.optr c) init <;> rfl

variable {c : ℕ} {l : List ℕ}

/-- A list in which neither the new process nor the child before it occurs. -/
lemma Ptrs.setLinks_frame {parent : ℕ} {y h : Option ℕ} (hl : Dll F.optr F.yptr y l h) (hp : p ∉ l)
    (hc : ∀ c ∈ F.cptr parent, c ∉ l) :
    Dll (F.setLinks p parent).optr (F.setLinks p parent).yptr y l h := by
  have hne : ∀ a ∈ l, a ≠ p := by
    rintro a ha rfl
    exact hp ha
  rw [Ptrs.setLinks_eq]
  refine hl.congr (fun a ha => update_of_ne (hne a ha) ..) fun a ha => ?_
  have h1 : F.cptr parent ≠ some a := fun e => hc a e ha
  change Dll.back (update F.yptr p none) (F.cptr parent) (some p) a = F.yptr a
  rw [Dll.back_of_ne h1]
  exact update_of_ne (hne a ha) ..

lemma Tree.disjoint (h : Tree idle init dying K) {x y : ℕ} {kx ky : Kin} (hx : K x = some kx)
    (hy : K y = some ky) (hcx : c ∈ kx.children) (hcy : c ∈ ky.children) : x = y := by
  obtain ⟨k, hk, e⟩ := (h.child x kx hx c).mp hcx
  exact Option.some.inj (e.symm.trans (h.parent_of_mem hy hcy hk))

lemma Tree.child_ne_none (h : Tree idle init dying K) {x : ℕ} {kx : Kin} (hx : K x = some kx)
    (hc : c ∈ kx.children) : K c ≠ none := by
  obtain ⟨k, h1, -⟩ := (h.child x kx hx c).mp hc
  rw [h1]
  exact Option.some_ne_none k

lemma Chained.mem_of_cptr (h : Chained dying K F) {k : Kin} (hp : K p = some k) (hc : c ∈ F.cptr p)
    : c ∈ k.children := by
  obtain ⟨y, -, hl⟩ := h p k hp
  rw [hl.head_eq] at hc
  exact List.mem_of_mem_head? hc

lemma Chained.congr (h : Chained dying K F)
    (hK : ∀ p, (K' p).map Kin.children = (K p).map Kin.children) : Chained dying K' F := by
  intro p k' hp
  have e := hK p
  rw [hp] at e
  obtain ⟨k, h1, h2⟩ := Option.map_eq_some_iff.mp e.symm
  rw [← h2]
  exact h p k h1

/-- **A new process is entered** by `alloc_proc` and `set_links`. -/
lemma Chained.add (h : Chained none K F) (ht : Tree idle init none K) {new par : ℕ}
    {kpar knew : Kin} (hnew : K new = none) (hpar : K par = some kpar)
    (hchildren : knew.children = []) (hK : K' = update (update K new (some knew)) par
      (some { kpar with children := new :: kpar.children })) :
    Chained none K' ((F.alloc new).setLinks new par) := by
  have hne : par ≠ new := by
    rintro rfl
    rw [hnew] at hpar
    cases hpar
  have hmem : ∀ x kx, K x = some kx → new ∉ kx.children := fun x kx hx hc =>
    ht.child_ne_none hx hc hnew
  have hcptr : (F.alloc new).cptr par = F.cptr par := update_of_ne hne ..
  -- the lists are stored as before after the fields of the new process have been set
  have halloc : ∀ x kx, K x = some kx →
      Dll (F.alloc new).optr (F.alloc new).yptr none kx.children (F.cptr x) := by
    intro x kx hx
    obtain ⟨y, hy, hl⟩ := h x kx hx
    rw [hy (by simp)] at hl
    refine hl.congr (fun a ha => update_of_ne ?_ ..) fun a ha => update_of_ne ?_ ..
    all_goals
      rintro rfl
      exact hmem x kx hx ha
  subst hK
  intro x kx hx
  refine ⟨none, fun _ => rfl, ?_⟩
  by_cases hxp : x = par
  · subst hxp
    rw [update_self] at hx
    cases hx
    have hpush := (halloc x kpar hpar).push (ht.nodup x kpar hpar) (hmem x kpar hpar)
    rw [Ptrs.setLinks_eq, hcptr]
    change Dll _ _ none (new :: kpar.children) (update (F.alloc new).cptr x (some new) x)
    rw [update_self]
    exact hpush
  · rw [update_of_ne hxp] at hx
    by_cases hxn : x = new
    · subst hxn
      rw [update_self] at hx
      cases hx
      rw [hchildren, Ptrs.setLinks_eq]
      change update (F.alloc x).cptr par (some x) x = none
      rw [update_of_ne hxp]
      exact update_self ..
    · rw [update_of_ne hxn] at hx
      have hcx : ((F.alloc new).setLinks new par).cptr x = F.cptr x := by
        rw [Ptrs.setLinks_eq]
        exact (update_of_ne hxp ..).trans (update_of_ne hxn ..)
      rw [hcx]
      refine Ptrs.setLinks_frame (halloc x kx hx) (hmem x kx hx) fun c hc hcx => hxp ?_
      rw [hcptr] at hc
      exact ht.disjoint hx hpar hcx (h.mem_of_cptr hpar hc)

/-- **A child is handed over** in the loop of `do_exit`. -/
lemma Chained.move {d : ℕ} {kd ki kc : Kin} (h : Chained (some d) K F)
    (ht : Tree idle init (some d) K) (hd : K d = some kd) (hdi : d ≠ init)
    (hl : kd.children = c :: l) (hi : K init = some ki) (hc : K c = some kc) (hci : c ≠ init)
    (hK : K' = update (update (update K d (some { kd with children := l })) c
      (some { kc with parent := some init })) init
      (some { ki with children := c :: ki.children })) :
    Chained (some d) K' (F.moveChild d init c) := by
  have hcd : c ∈ kd.children := by
    rw [hl]
    exact List.mem_cons_self
  have hdc : d ≠ c := (ht.parent_of hc (ht.parent_of_mem hd hcd hc)).1
  have hnd := ht.nodup d kd hd
  rw [hl, List.nodup_cons] at hnd
  have hcptr : update F.cptr d (F.optr c) init = F.cptr init := update_of_ne (Ne.symm hdi) ..
  -- the child and the first child of `initproc` are in no other list
  have hframe : ∀ x kx m y, K x = some kx → m ⊆ kx.children → x ≠ init → c ∉ m →
      ∀ z, Dll F.optr F.yptr y m z →
      Dll (F.moveChild d init c).optr (F.moveChild d init c).yptr y m z := by
    intro x kx m y hx hm hxi hcm z hz
    rw [Ptrs.moveChild_eq]
    refine Ptrs.setLinks_frame (F := { F with cptr := update F.cptr d (F.optr c) }) hz hcm
      fun a ha hax => hxi ?_
    change a ∈ update F.cptr d (F.optr c) init at ha
    rw [hcptr] at ha
    exact ht.disjoint hx hi (hm hax) (h.mem_of_cptr hi ha)
  have hcptr' : ∀ x, x ≠ init → (F.moveChild d init c).cptr x = update F.cptr d (F.optr c) x := by
    intro x hx
    rw [Ptrs.moveChild_eq, Ptrs.setLinks_eq]
    exact update_of_ne hx ..
  have hnot : ∀ x kx, K x = some kx → x ≠ d → c ∉ kx.children := fun x kx hx hxd hcx =>
    hxd (ht.disjoint hx hd hcx hcd)
  subst hK
  intro x kx hx
  by_cases hxi : x = init
  · subst hxi
    rw [update_self] at hx
    cases hx
    obtain ⟨y, hy, hz⟩ := h x ki hi
    refine ⟨none, fun _ => rfl, ?_⟩
    have hpush := hz.push (ht.nodup x ki hi) (hnot x ki hi (Ne.symm hdi))
    rw [Ptrs.moveChild_eq, Ptrs.setLinks_eq]
    change Dll (update F.optr c (update F.cptr d (F.optr c) x)) (Dll.back (update F.yptr c none)
      (update F.cptr d (F.optr c) x) (some c)) none (c :: ki.children)
      (update (update F.cptr d (F.optr c)) x (some c) x)
    rw [hcptr, update_self]
    exact hpush
  · rw [update_of_ne hxi] at hx
    rw [hcptr' x hxi]
    by_cases hxc : x = c
    · subst hxc
      rw [update_self] at hx
      cases hx
      obtain ⟨y, hy, hz⟩ := h x kc hc
      refine ⟨y, hy, ?_⟩
      rw [update_of_ne (Ne.symm hdc)]
      exact hframe x kc _ y hc (.refl _) hxi (hnot x kc hc (Ne.symm hdc)) _ hz
    · rw [update_of_ne hxc] at hx
      by_cases hxd : x = d
      · subst hxd
        rw [update_self] at hx
        cases hx
        obtain ⟨y, hy, hz⟩ := h x kd hd
        rw [hl] at hz
        refine ⟨some c, fun hn => absurd rfl hn, ?_⟩
        rw [update_self]
        exact hframe x kd _ _ hd (by rw [hl]; exact List.subset_cons_self _ _) hxi hnd.1 _ hz.rest
      · rw [update_of_ne hxd] at hx
        obtain ⟨y, hy, hz⟩ := h x kx hx
        refine ⟨y, hy, ?_⟩
        rw [update_of_ne hxd]
        exact hframe x kx _ y hx (.refl _) hxi (hnot x kx hx hxd) _ hz

/-- The process that has handed over all its children. -/
lemma Chained.finish {d : ℕ} {kd : Kin} (h : Chained (some d) K F) (hd : K d = some kd)
    (hl : kd.children = []) : Chained none K F := by
  intro x kx hx
  obtain ⟨y, hy, hz⟩ := h x kx hx
  refine ⟨none, fun _ => rfl, ?_⟩
  by_cases hxd : x = d
  · subst hxd
    cases hd.symm.trans hx
    rw [hl] at hz ⊢
    exact hz
  · rw [hy (fun e => hxd (Option.some.inj e).symm)] at hz
    exact hz

/-- `remove_links` for a process whose older sibling is another one. -/
lemma Ptrs.removeLinks_eq (F : Ptrs) {parent : ℕ} (hp : F.optr p ≠ some p) :
    F.removeLinks p parent = match F.yptr p with
      | some y => ⟨F.cptr, Dll.back F.yptr (F.optr p) (some y), update F.optr y (F.optr p)⟩
      | none => ⟨update F.cptr parent (F.optr p), Dll.back F.yptr (F.optr p) none, F.optr⟩ := by
  unfold Ptrs.removeLinks Dll.back
  cases ho : F.optr p with
  | none =>
    simp only
    cases F.yptr p <;> simp [ho]
  | some o =>
    have hne : p ≠ o := by
      rintro rfl
      exact hp ho
    simp only [update_of_ne hne]
    cases F.yptr p <;> simp [ho]

/-- **A zombie is unlinked** by `remove_links`. -/
lemma Chained.remove {k kp : Kin} (h : Chained none K F) (ht : Tree idle init none K)
    (hz : K c = some k) (hpar : k.parent = some p) (hp : K p = some kp)
    (hK : K' = update (update K p (some { kp with children := kp.children.erase c })) c none) :
    Chained none K' (F.removeLinks c p) := by
  have hmem : c ∈ kp.children := (ht.child p kp hp c).mpr ⟨k, hz, hpar⟩
  have hnd := ht.nodup p kp hp
  obtain ⟨y, hy, hl⟩ := h p kp hp
  rw [hy (by simp)] at hl
  have hself : F.optr c ≠ some c := hl.next_ne hnd hmem
  have hunlink := hl.unlink hnd hmem
  subst hK
  intro x kx hx
  refine ⟨none, fun _ => rfl, ?_⟩
  have hxc : x ≠ c := by
    rintro rfl
    rw [update_self] at hx
    cases hx
  rw [update_of_ne hxc] at hx
  rw [Ptrs.removeLinks_eq F hself]
  by_cases hxp : x = p
  · subst hxp
    rw [update_self] at hx
    cases hx
    cases hyc : F.yptr c with
    | some b =>
      rw [hyc] at hunlink
      exact hunlink.2
    | none =>
      rw [hyc] at hunlink
      change Dll F.optr _ none (kp.children.erase c) (update F.cptr x (F.optr c) x)
      rw [update_self]
      exact hunlink
  · rw [update_of_ne hxp] at hx
    obtain ⟨y', hy', hl'⟩ := h x kx hx
    rw [hy' (by simp)] at hl'
    -- the siblings of the zombie are not in the list of another process
    have hback : ∀ z, ∀ a ∈ kx.children, Dll.back F.yptr (F.optr c) z a = F.yptr a := fun z a ha =>
      Dll.back_of_ne fun e => hxp (ht.disjoint hx hp ha (hl.next_mem hmem e))
    cases hyc : F.yptr c with
    | some b =>
      rw [hyc] at hunlink
      refine hl'.congr (fun a ha => update_of_ne ?_ ..) fun a ha => hback _ a ha
      rintro rfl
      exact hxp (ht.disjoint hx hp ha hunlink.1)
    | none =>
      change Dll F.optr _ none kx.children (update F.cptr p (F.optr c) x)
      rw [update_of_ne hxp]
      exact hl'.congr (fun _ _ => rfl) fun a ha => hback _ a ha

end Edits

/-! ## Functions with pointers and functions on lists -/

/-- **A function with pointers does what the function on lists does**: it panics when that does, and
it returns the same in the same state of the kernel, with pointers that satisfy `Q`. -/
structure Mirrors {α : Type} (m' : LKern α) (m : Kern α) (s : Kernel) (F : Ptrs)
    (Q : α → Kernel → Ptrs → Prop) : Prop where
  panic : ∀ e, m s = .error e → m' ⟨s, F⟩ = .error (some e)
  ok : ∀ a t, m s = .ok (a, t) → ∃ F', m' ⟨s, F⟩ = .ok (a, ⟨t, F'⟩) ∧ Q a t F'

namespace Mirrors

variable {α β : Type} {m : Kern α} {m' : LKern α} {f : α → Kern β} {f' : α → LKern β} {s : Kernel}
  {F : Ptrs} {Q : β → Kernel → Ptrs → Prop}

variable {R : α → Kernel → Ptrs → Prop} {P : α → Kernel → Prop} {g' : Unit → LKern β} {n' : LKern α}
  {n : Kern α} {c : Prop}

/-- Functions are compared part by part. -/
lemma bind (h : Mirrors m' m s F R) (hf : ∀ a t F', R a t F' → Mirrors (f' a) (f a) t F' Q) :
    Mirrors (m' >>= f') (m >>= f) s F Q := by
  cases hm : m s with
  | error e =>
    have e1 := bind_of_error hm f
    have e2 := bind_of_error (h.panic e hm) f'
    refine ⟨fun d hd => ?_, fun a t ha => ?_⟩
    · cases e1.symm.trans hd
      exact e2
    · cases e1.symm.trans ha
  | ok r =>
    obtain ⟨a, t⟩ := r
    obtain ⟨F', hm', hR⟩ := h.ok a t hm
    have hr := hf a t F' hR
    have e1 := bind_of_ok hm f
    have e2 := bind_of_ok hm' f'
    exact ⟨fun d hd => e2.trans (hr.panic d (e1.symm.trans hd)), fun b u hb => by
      rw [e2]
      exact hr.ok b u (e1.symm.trans hb)⟩

lemma mono {R' : α → Kernel → Ptrs → Prop} (h : Mirrors m' m s F R)
    (hR : ∀ a t F', R a t F' → R' a t F') : Mirrors m' m s F R' :=
  ⟨h.panic, fun a t e => (h.ok a t e).imp fun _ hF => ⟨hF.1, hR _ _ _ hF.2⟩⟩

lemma pure {a : α} (h : R a s F) :
    Mirrors (Pure.pure a : LKern α) (Pure.pure a : Kern α) s F R := by
  refine ⟨fun _ e => ?_, fun b t e => ?_⟩
  · cases e
  · cases e
    exact ⟨F, rfl, h⟩

lemma onKernel (h : Post m s P) :
    Mirrors (Linked.onKernel m) m s F fun a t F' => F' = F ∧ P a t := by
  refine ⟨fun e he => ?_, fun a t ht => ⟨F, ?_, rfl, h a t ht⟩⟩
  · rw [Linked.onKernel, he]
  · rw [Linked.onKernel, ht]

lemma onKernel_bind (h : Post m s P) (hf : ∀ a t, P a t → Mirrors (f' a) (f a) t F Q) :
    Mirrors (Linked.onKernel m >>= f') (m >>= f) s F Q :=
  (onKernel h).bind fun a t F' ht => by
    obtain ⟨rfl, ht⟩ := ht
    exact hf a t ht

lemma read_bind {g' : Linked → LKern β} {g : Kernel → Kern β}
    (h : Mirrors (g' ⟨s, F⟩) (g s) s F Q) :
    Mirrors (Comp.read >>= g') (Comp.read >>= g) s F Q := ⟨h.panic, h.ok⟩

lemma ensure_bind [Decidable c] {e : KPanic} {g : Unit → Kern β}
    (h : c → Mirrors (g' ()) (g ()) s F Q) :
    Mirrors (Comp.ensure c (some e) >>= g') (Comp.ensure c e >>= g) s F Q := by
  by_cases hc : c
  · refine ⟨fun d hd => ?_, fun a t ha => ?_⟩
    · rw [ensure_bind_apply, if_pos hc] at hd ⊢
      exact (h hc).panic d hd
    · rw [ensure_bind_apply, if_pos hc] at ha ⊢
      exact (h hc).ok a t ha
  · refine ⟨fun d hd => ?_, fun a t ha => ?_⟩
    · rw [ensure_bind_apply, if_neg hc] at hd ⊢
      cases hd
      rfl
    · rw [ensure_bind_apply, if_neg hc] at ha
      cases ha

lemma ite [Decidable c] (h : c → Mirrors m' m s F R) (h' : ¬c → Mirrors n' n s F R) :
    Mirrors (if c then m' else n') (if c then m else n) s F R := by
  split_ifs with hc
  · exact h hc
  · exact h' hc

lemma congr (h : Mirrors m' m s F R) (e : m s = n s) :
    Mirrors m' n s F R := ⟨fun d hd => h.panic d (e.trans hd), fun a t ha => h.ok a t (e.trans ha)⟩

lemma congr_left (h : Mirrors m' m s F R) (e : n' ⟨s, F⟩ = m' ⟨s, F⟩) : Mirrors n' m s F R :=
  ⟨fun d hd => e.trans (h.panic d hd), fun a t ha => by rw [e]; exact h.ok a t ha⟩

lemma onPtrs_bind {n : Kern β} {g : Ptrs → Ptrs} (h : Mirrors (g' ()) n s (g F) Q) :
    Mirrors (Linked.onPtrs g >>= g') n s F Q := ⟨h.panic, h.ok⟩

lemma modify_bind {n : Unit → Kern β} {g : Kernel → Kernel} (h : Mirrors (g' ()) (n ()) (g s) F Q) :
    Mirrors (Linked.onKernel (Comp.modify g) >>= g') (Comp.modify g >>= n) s F Q := ⟨h.panic, h.ok⟩

/-- The kernel and the pointers are changed in one call. -/
lemma modify_both {g : Kernel → Kernel} {G : Ptrs → Ptrs} {R : Unit → Kernel → Ptrs → Prop}
    (h : R () (g s) (G F)) :
    Mirrors (Linked.onKernel (Comp.modify g) >>= fun _ => Linked.onPtrs G)
      (Comp.modify g) s F R := by
  refine ⟨fun _ e => ?_, fun a u e => ?_⟩
  · cases e
  · cases e
    exact ⟨_, rfl, h⟩

lemma and_post (h : Mirrors m' m s F R) (hP : Post m s P) :
    Mirrors m' m s F fun a t F' => R a t F' ∧ P a t :=
  ⟨h.panic, fun a t e => (h.ok a t e).imp fun _ hF => ⟨hF.1, hF.2, hP a t e⟩⟩

end Mirrors

end Ucore
