import Ucore.Process.Calls
import Ucore.Process.Pids

set_option autoImplicit false

/-!
# Parents and children

A process is in the list of children of the process that its `parent` names, and that process is not
a zombie; while a process exits, its children go to `initproc` one after the other. A process that
sleeps in `do_wait` has no zombie child for which it waits.

## Main definitions

* `Tree` — the links between parents and children.
* `Waits` — a process does not sleep in `do_wait` although it could return.
* `Family` — the invariant of the families.

## Main results

* `Tree.change` — one process comes, goes, or gets another parent.
* `Tree.add`, `Tree.kill`, `Tree.move`, `Tree.remove` — the changes of the
  links.
-/

namespace Ucore

open Function List

/-- **The links between parents and children**, for the families `K`. A zombie has no children,
except for the process `dying`, which is handing them over. -/
structure Tree (idle init : ℕ) (dying : Option ℕ) (K : ℕ → Option Kin) : Prop where
  idleKin : ∃ k, K idle = some k ∧ k.parent = none ∧ k.dead = false
  initKin : ∃ k, K init = some k ∧ k.parent = some idle ∧ k.dead = false
  parent : ∀ c k, K c = some k → c ≠ idle →
    ∃ p kp, k.parent = some p ∧ p ≠ c ∧ K p = some kp ∧ (kp.dead = true → dying = some p)
  child : ∀ p kp, K p = some kp → ∀ c, c ∈ kp.children ↔ ∃ kc, K c = some kc ∧ kc.parent = some p
  nodup : ∀ p kp, K p = some kp → kp.children.Nodup

namespace Tree

variable {idle init p c : ℕ} {dying : Option ℕ} {K K' : ℕ → Option Kin} {k kp : Kin}

lemma ne_idle (h : Tree idle init dying K) (hc : K c = some k) (hp : k.parent = some p) :
    c ≠ idle := by
  rintro rfl
  obtain ⟨k', h1, h2, -⟩ := h.idleKin
  cases hc.symm.trans h1
  rw [h2] at hp
  cases hp

lemma parent_of (h : Tree idle init dying K) (hc : K c = some k) (hp : k.parent = some p) :
    p ≠ c ∧ ∃ kp, K p = some kp ∧ (kp.dead = true → dying = some p) := by
  obtain ⟨p', kp, h1, h2, h3, h4⟩ := h.parent c k hc (h.ne_idle hc hp)
  rw [hp] at h1
  cases h1
  exact ⟨h2, kp, h3, h4⟩

lemma children_of_dead (h : Tree idle init none K) (hp : K p = some kp) (hd : kp.dead = true) :
    kp.children = [] := by
  rw [eq_nil_iff_forall_not_mem]
  intro c hc
  obtain ⟨kc, h1, h2⟩ := (h.child p kp hp c).mp hc
  obtain ⟨-, kp', h3, h4⟩ := h.parent_of h1 h2
  cases hp.symm.trans h3
  cases h4 hd

lemma parent_of_mem (h : Tree idle init dying K) (hp : K p = some kp) (hm : c ∈ kp.children)
    (hc : K c = some k) : k.parent = some p := by
  obtain ⟨k', h1, h2⟩ := (h.child p kp hp c).mp hm
  cases hc.symm.trans h1
  exact h2

/-- **The process `c` comes, goes, or gets another parent.** The others keep their parents, and only
`c` enters or leaves a list of children. -/
lemma change (h : Tree idle init dying K) (hc : c ≠ idle) (hci : c ≠ init)
    (hkeep : ∀ x, x ≠ c → (K' x).map (fun k => (k.parent, k.dead)) =
      (K x).map fun k => (k.parent, k.dead))
    (hparent : ∀ k, K' c = some k → ∃ p kp, k.parent = some p ∧ p ≠ c ∧ K' p = some kp ∧
      (kp.dead = true → dying = some p))
    (hdead : ∀ x k, K x = some k → k.parent = some c → ∃ k', K' c = some k' ∧
      (k'.dead = true → dying = some c))
    (hchild : ∀ p kp, K' p = some kp → kp.children.Nodup ∧
      (c ∈ kp.children ↔ ∃ k, K' c = some k ∧ k.parent = some p) ∧
      ∀ x, x ≠ c → (x ∈ kp.children ↔ ∃ kp, K p = some kp ∧ x ∈ kp.children)) :
    Tree idle init dying K' := by
  have hto : ∀ x k, x ≠ c → K x = some k → ∃ k', K' x = some k' ∧ k'.parent = k.parent ∧
      k'.dead = k.dead := by
    intro x k hx hk
    obtain ⟨k', hk', e⟩ := Option.map_eq_some_iff.mp ((hkeep x hx).trans (congrArg _ hk))
    exact ⟨k', hk', Prod.mk.inj e⟩
  have hfrom : ∀ x k', x ≠ c → K' x = some k' → ∃ k, K x = some k ∧ k.parent = k'.parent := by
    intro x k' hx hk'
    obtain ⟨k, hk, e⟩ := Option.map_eq_some_iff.mp ((hkeep x hx).symm.trans (congrArg _ hk'))
    exact ⟨k, hk, (Prod.mk.inj e).1⟩
  refine ⟨?_, ?_, fun x k hx hxi => ?_, fun p kp hp x => ?_, fun p kp hp => (hchild p kp hp).1⟩
  · obtain ⟨k, h1, h2, h3⟩ := h.idleKin
    obtain ⟨k', h4, h5, h6⟩ := hto idle k hc.symm h1
    exact ⟨k', h4, h5.trans h2, h6.trans h3⟩
  · obtain ⟨k, h1, h2, h3⟩ := h.initKin
    obtain ⟨k', h4, h5, h6⟩ := hto init k hci.symm h1
    exact ⟨k', h4, h5.trans h2, h6.trans h3⟩
  · by_cases hxc : x = c
    · subst hxc
      exact hparent k hx
    · obtain ⟨k₀, h1, h2⟩ := hfrom x k hxc hx
      obtain ⟨p, kp, h3, h4, h5, h6⟩ := h.parent x k₀ h1 hxi
      by_cases hpc : p = c
      · subst hpc
        obtain ⟨kp', h7, h8⟩ := hdead x k₀ h1 h3
        exact ⟨p, kp', h2.symm.trans h3, h4, h7, h8⟩
      · obtain ⟨kp', h7, -, h8⟩ := hto p kp hpc h5
        exact ⟨p, kp', h2.symm.trans h3, h4, h7, fun hd => h6 (h8.symm.trans hd)⟩
  · obtain ⟨-, hself, hother⟩ := hchild p kp hp
    by_cases hxc : x = c
    · rw [hxc, hself]
    · rw [hother x hxc]
      constructor
      · rintro ⟨kp₀, h1, h2⟩
        obtain ⟨k, h3, h4⟩ := (h.child p kp₀ h1 x).mp h2
        obtain ⟨k', h5, h6, -⟩ := hto x k hxc h3
        exact ⟨k', h5, h6.trans h4⟩
      · rintro ⟨k', h1, h2⟩
        obtain ⟨k, h3, h4⟩ := hfrom x k' hxc h1
        obtain ⟨-, kp₀, h5, -⟩ := h.parent_of h3 (h4.trans h2)
        exact ⟨kp₀, h5, (h.child p kp₀ h5 x).mpr ⟨k, h3, h4.trans h2⟩⟩

/-- **A process gets a child** that is new. -/
lemma add (h : Tree idle init none K) {new par : ℕ} {kpar knew : Kin} (hnew : K new = none)
    (hpar : K par = some kpar) (halive : kpar.dead = false)
    (hparent : knew.parent = some par) (hchildren : knew.children = [])
    (hK : K' = update (update K new (some knew)) par
      (some { kpar with children := new :: kpar.children })) : Tree idle init none K' := by
  have hne : par ≠ new := by
    rintro rfl
    rw [hnew] at hpar
    cases hpar
  have hself : K' par = some { kpar with children := new :: kpar.children } := by
    rw [hK, update_self]
  have hnew' : K' new = some knew := by rw [hK, update_of_ne hne.symm, update_self]
  have hother : ∀ x, x ≠ par → x ≠ new → K' x = K x := by
    intro x h1 h2
    rw [hK, update_of_ne h1, update_of_ne h2]
  have hnot : ∀ p kp, K p = some kp → new ∉ kp.children := by
    intro p kp hp hm
    obtain ⟨k, h1, -⟩ := (h.child p kp hp new).mp hm
    cases hnew.symm.trans h1
  have hmem : ∀ p, (∃ k, K' new = some k ∧ k.parent = some p) ↔ p = par := by
    intro p
    rw [hnew']
    simp [hparent, eq_comm]
  refine h.change (c := new) ?_ ?_ (fun x hx => ?_) (fun k hk => ?_) (fun x k hx hxp => ?_)
    fun p kp hp => ?_
  · rintro rfl
    obtain ⟨k, h1, -⟩ := h.idleKin
    cases hnew.symm.trans h1
  · rintro rfl
    obtain ⟨k, h1, -⟩ := h.initKin
    cases hnew.symm.trans h1
  · by_cases h1 : x = par
    · rw [h1, hself, hpar]
      rfl
    · rw [hother x h1 hx]
  · cases hnew'.symm.trans hk
    exact ⟨par, _, hparent, hne, hself, fun hd => by simp [halive] at hd⟩
  · obtain ⟨-, kp, h1, -⟩ := h.parent_of hx hxp
    cases hnew.symm.trans h1
  · rw [hmem]
    by_cases h1 : p = par
    · subst h1
      cases hself.symm.trans hp
      refine ⟨nodup_cons.mpr ⟨hnot p kpar hpar, h.nodup p kpar hpar⟩, by simp, fun x hx => ?_⟩
      simp [hpar, hx]
    · by_cases h2 : p = new
      · subst h2
        cases hnew'.symm.trans hp
        rw [hchildren]
        exact ⟨nodup_nil, by simp [h1], by simp [hnew]⟩
      · rw [hother p h1 h2] at hp
        exact ⟨h.nodup p kp hp, by simp [h1, hnot p kp hp], fun x _ => by simp [hp]⟩

/-- The links stay the same if every process keeps its parent and its children. -/
lemma congr (h : Tree idle init dying K) {dying' : Option ℕ}
    (hK : ∀ x, (K' x).map (fun k => (k.parent, k.children)) =
      (K x).map fun k => (k.parent, k.children))
    (hd : ∀ x k', K' x = some k' → k'.dead = true →
      x ≠ idle ∧ x ≠ init ∧ (k'.children = [] ∨ dying' = some x)) :
    Tree idle init dying' K' := by
  have hfrom : ∀ x k', K' x = some k' → ∃ k, K x = some k ∧ k'.parent = k.parent ∧
      k'.children = k.children := by
    intro x k' hx
    obtain ⟨k, hk, e⟩ := Option.map_eq_some_iff.mp ((hK x).symm.trans (congrArg _ hx))
    obtain ⟨h1, h2⟩ := Prod.mk.inj e
    exact ⟨k, hk, h1.symm, h2.symm⟩
  have hto : ∀ x k, K x = some k → ∃ k', K' x = some k' ∧ k'.parent = k.parent ∧
      k'.children = k.children := by
    intro x k hx
    obtain ⟨k', hk, e⟩ := Option.map_eq_some_iff.mp ((hK x).trans (congrArg _ hx))
    exact ⟨k', hk, Prod.mk.inj e⟩
  have hkids : ∀ x c, (∃ kc, K' c = some kc ∧ kc.parent = some x) ↔
      ∃ kc, K c = some kc ∧ kc.parent = some x := by
    intro x c
    constructor
    · rintro ⟨kc, h1, h2⟩
      obtain ⟨kc', h3, h4, -⟩ := hfrom c kc h1
      exact ⟨kc', h3, h4.symm.trans h2⟩
    · rintro ⟨kc, h1, h2⟩
      obtain ⟨kc', h3, h4, -⟩ := hto c kc h1
      exact ⟨kc', h3, h4.trans h2⟩
  refine ⟨?_, ?_, fun c k' hc hci => ?_, fun x k' hx c => ?_, fun x k' hx => ?_⟩
  · obtain ⟨k, h1, h2, -⟩ := h.idleKin
    obtain ⟨k', h3, h4, -⟩ := hto idle k h1
    exact ⟨k', h3, h4.trans h2, Bool.eq_false_iff.mpr fun hx => (hd idle k' h3 hx).1 rfl⟩
  · obtain ⟨k, h1, h2, -⟩ := h.initKin
    obtain ⟨k', h3, h4, -⟩ := hto init k h1
    exact ⟨k', h3, h4.trans h2, Bool.eq_false_iff.mpr fun hx => (hd init k' h3 hx).2.1 rfl⟩
  · obtain ⟨k, h1, h2, -⟩ := hfrom c k' hc
    obtain ⟨p, kp, h3, h4, h5, -⟩ := h.parent c k h1 hci
    obtain ⟨kp', h6, -, h7⟩ := hto p kp h5
    refine ⟨p, kp', h2.trans h3, h4, h6, fun hdead => ?_⟩
    rcases (hd p kp' h6 hdead).2.2 with h8 | h8
    · have hc' : c ∈ kp.children := (h.child p kp h5 c).mpr ⟨k, h1, h3⟩
      rw [← h7, h8] at hc'
      exact absurd hc' not_mem_nil
    · exact h8
  · obtain ⟨k, h1, -, h2⟩ := hfrom x k' hx
    rw [h2, hkids, h.child x k h1]
  · obtain ⟨k, h1, -, h2⟩ := hfrom x k' hx
    rw [h2]
    exact h.nodup x k h1

/-- **The first child of the dying process goes to `initproc`.** -/
lemma move {kd ki kc : Kin} {d : ℕ} {l : List ℕ} (h : Tree idle init (some d) K)
    (hd : K d = some kd) (hdi : d ≠ init) (hl : kd.children = c :: l) (hi : K init = some ki)
    (hc : K c = some kc) (hci : c ≠ init)
    (hK : K' = update (update (update K d (some { kd with children := l })) c
      (some { kc with parent := some init })) init
      (some { ki with children := c :: ki.children })) :
    Tree idle init (some d) K' := by
  have hparent : kc.parent = some d := h.parent_of_mem hd (by simp [hl]) hc
  have hdc : d ≠ c := (h.parent_of hc hparent).1
  have hnodup := h.nodup d kd hd
  rw [hl, nodup_cons] at hnodup
  have hkd : K' d = some { kd with children := l } := by
    rw [hK, update_of_ne hdi, update_of_ne hdc, update_self]
  have hkc : K' c = some { kc with parent := some init } := by
    rw [hK, update_of_ne hci, update_self]
  have hki : K' init = some { ki with children := c :: ki.children } := by
    rw [hK, update_self]
  have hother : ∀ x, x ≠ d → x ≠ c → x ≠ init → K' x = K x := by
    intro x h1 h2 h3
    rw [hK, update_of_ne h3, update_of_ne h2, update_of_ne h1]
  have hnot : ∀ p kp, K p = some kp → p ≠ d → c ∉ kp.children := fun p kp hp hne hm =>
    hne (Option.some.inj ((h.parent_of_mem hp hm hc).symm.trans hparent))
  have hmem : ∀ p, (∃ k, K' c = some k ∧ k.parent = some p) ↔ p = init := by
    intro p
    rw [hkc]
    simp [eq_comm]
  obtain ⟨ki', hki', -, hialive⟩ := h.initKin
  cases hi.symm.trans hki'
  refine h.change (h.ne_idle hc hparent) hci (fun x hx => ?_) (fun k hk => ?_)
    (fun x k hx hxp => ?_) fun p kp hp => ?_
  · by_cases h1 : x = d
    · rw [h1, hkd, hd]
      rfl
    · by_cases h2 : x = init
      · rw [h2, hki, hi]
        rfl
      · rw [hother x h1 hx h2]
  · cases hkc.symm.trans hk
    exact ⟨init, _, rfl, hci.symm, hki, fun hd' => absurd hd' (by simp [hialive])⟩
  · obtain ⟨-, kp, h1, h2⟩ := h.parent_of hx hxp
    cases hc.symm.trans h1
    exact ⟨_, hkc, h2⟩
  · rw [hmem]
    by_cases h1 : p = d
    · subst h1
      cases hkd.symm.trans hp
      exact ⟨hnodup.2, by simp [hnodup.1, hdi], fun x hx => by simp [hd, hl, hx]⟩
    · by_cases h2 : p = c
      · subst h2
        cases hkc.symm.trans hp
        exact ⟨h.nodup p kc hc, by simp [hnot p kc hc h1, hci], fun x _ => by simp [hc]⟩
      · by_cases h3 : p = init
        · subst h3
          cases hki.symm.trans hp
          refine ⟨nodup_cons.mpr ⟨hnot p ki hi h1, h.nodup p ki hi⟩, by simp, fun x hx => ?_⟩
          simp [hi, hx]
        · rw [hother p h1 h2 h3] at hp
          exact ⟨h.nodup p kp hp, by simp [h3, hnot p kp hp h1], fun x _ => by simp [hp]⟩

/-- **A zombie is removed** by its parent. -/
lemma remove (h : Tree idle init none K) (hz : K c = some k) (hd : k.dead = true)
    (hpar : k.parent = some p) (hp : K p = some kp)
    (hK : K' = update (update K p (some { kp with children := kp.children.erase c })) c none) :
    Tree idle init none K' := by
  have hpc : p ≠ c := (h.parent_of hz hpar).1
  have hkp : K' p = some { kp with children := kp.children.erase c } := by
    rw [hK, update_of_ne hpc, update_self]
  have hkc : K' c = none := by rw [hK, update_self]
  have hother : ∀ x, x ≠ p → x ≠ c → K' x = K x := by
    intro x h1 h2
    rw [hK, update_of_ne h2, update_of_ne h1]
  have hnot : ∀ x kx, K x = some kx → x ≠ p → c ∉ kx.children := fun x kx hx hne hm =>
    hne (Option.some.inj ((h.parent_of_mem hx hm hz).symm.trans hpar))
  refine h.change (h.ne_idle hz hpar) ?_ (fun x hx => ?_) (fun k hk => ?_) (fun x kx hx hxp => ?_)
    fun x kx hx => ?_
  · rintro rfl
    obtain ⟨k', h1, -, h2⟩ := h.initKin
    cases hz.symm.trans h1
    rw [h2] at hd
    cases hd
  · by_cases h1 : x = p
    · rw [h1, hkp, hp]
      rfl
    · rw [hother x h1 hx]
  · cases hkc.symm.trans hk
  · -- a zombie has no children, so it is the parent of nobody
    obtain ⟨-, kc, h1, h2⟩ := h.parent_of hx hxp
    cases hz.symm.trans h1
    cases h2 hd
  · by_cases h1 : x = p
    · subst h1
      cases hkp.symm.trans hx
      have hnd := h.nodup x kp hp
      refine ⟨hnd.erase c, by simp [hkc, hnd.mem_erase_iff], fun y hy => ?_⟩
      simp [hp, mem_erase_of_ne hy]
    · have hxc : x ≠ c := by
        rintro rfl
        cases hkc.symm.trans hx
      rw [hother x h1 hxc] at hx
      exact ⟨h.nodup x kx hx, by simp [hkc, hnot x kx hx h1], fun y _ => by simp [hx]⟩

/-- The process that has handed over all its children. -/
lemma finish {d : ℕ} {kd : Kin} (h : Tree idle init (some d) K) (hd : K d = some kd)
    (hl : kd.children = []) : Tree idle init none K := by
  refine h.congr (fun _ => rfl) fun x k hx hdead => ⟨?_, ?_, .inl ?_⟩
  · rintro rfl
    obtain ⟨k', h1, -, h2⟩ := h.idleKin
    cases hx.symm.trans h1
    rw [h2] at hdead
    cases hdead
  · rintro rfl
    obtain ⟨k', h1, -, h2⟩ := h.initKin
    cases hx.symm.trans h1
    rw [h2] at hdead
    cases hdead
  · by_cases hxd : x = d
    · subst hxd
      cases hd.symm.trans hx
      exact hl
    · rw [eq_nil_iff_forall_not_mem]
      intro y hy
      obtain ⟨ky, h1, h2⟩ := (h.child x k hx y).mp hy
      obtain ⟨-, k', h3, h4⟩ := h.parent_of h1 h2
      cases hx.symm.trans h3
      exact hxd (Option.some.inj (h4 hdead)).symm

end Tree

/-! ## The families of the kernel -/

/-- **A process does not sleep in `do_wait` although it could return**: no child that it waits for
is a zombie. -/
def Waits (s : Kernel) (p : ℕ) : Prop :=
  ∀ pid, s.Asleep p (.wait pid) → ∀ c k, s.kin c = some k → k.parent = some p →
    pid = 0 ∨ k.pid = pid → k.dead = false

/-- The links and the pids. -/
structure Links (dying : Option ℕ) (s : Kernel) : Prop where
  tree : Tree s.idleproc s.initproc dying s.kin
  pids : PidTable s

/-- **The invariant of the families.** -/
structure Family (s : Kernel) : Prop extends Links none s where
  waits : ∀ p, Waits s p

section Kernel

variable {s t : Kernel} {p : ℕ} {dying : Option ℕ}

lemma Links.of_same (h : Links dying s) (hk : SameKin s t) : Links dying t := by
  refine ⟨?_, h.pids.of_same hk⟩
  rw [hk.idleproc, hk.initproc, funext hk.kin]
  exact h.tree

lemma Waits.of_same (h : Waits s p) (hk : SameKin s t) (hw : KeepsWaits s t) : Waits t p := by
  intro pid ha c k hc
  rw [hk.kin] at hc
  exact h pid (hw p pid ha) c k hc

lemma Family.of_same (h : Family s) (hk : SameKin s t) (hw : KeepsWaits s t) : Family t :=
  { h.toLinks.of_same hk with waits := fun p => (h.waits p).of_same hk hw }

lemma waits_of_not_asleep (h : ∀ pid, ¬s.Asleep p (.wait pid)) : Waits s p := fun pid ha =>
  absurd ha (h pid)

lemma kin_modProc_eq {f : Proc → Proc} {q : Proc} {k : Kin} (hq : s.procs p = some q)
    (hk : (f q).kin = k) : (s.modProc p f).kin = update s.kin p (some k) := by
  funext x
  by_cases hx : x = p
  · subst hx
    rw [update_self, Kernel.kin, modProc_self hq, Option.map_some, hk]
  · rw [update_of_ne hx, Kernel.kin, modProc_of_ne hx]
    rfl

lemma kin_eq_some {k : Kin} : s.kin p = some k ↔ ∃ q, s.procs p = some q ∧ q.kin = k := by
  unfold Kernel.kin
  simp

lemma kin_eq_none : s.kin p = none ↔ s.procs p = none := by
  unfold Kernel.kin
  simp

end Kernel

end Ucore
