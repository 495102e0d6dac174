import Ucore.Process.System

set_option autoImplicit false

/-!
# What every step of the kernel keeps

The state of a process, its `wait_state`, the queue it waits in and the place where it goes on
belong together, and the run queue holds the runnable processes.

## Main definitions

* `Kernel.Is`, `Kernel.Asleep` — the state of a process; it sleeps at a place.
* `ProcOk` — the fields of a process fit the place where it goes on.
* `KInv` — the invariant.
* `Harmless` — the panics that the invariant does not exclude.

## Main results

* `wakeupProc_spec` — what `wakeup_proc` does.
* `KInv.wake`, `KInv.sleep` — a process is woken; the current process goes to sleep.
-/

namespace Ucore

open Function Comp

namespace Kernel

/-- The process at `p` is in the state `st`. -/
def Is (s : Kernel) (p : ℕ) (st : ProcState) : Prop := ∃ q, s.procs p = some q ∧ q.state = st

instance (s : Kernel) (p : ℕ) (st : ProcState) : Decidable (s.Is p st) :=
  decidable_of_iff ((s.procs p).map Proc.state = some st) (by simp [Is])

/-- The process at `p` sleeps and goes on at `c`. -/
def Asleep (s : Kernel) (p : ℕ) (c : Cont) : Prop := s.Is p .sleeping ∧ s.conts p = c

end Kernel

/-- The `wait_state` of a process that sleeps before it goes on there. -/
def Cont.waitState : Cont → Option (BitVec 32)
  | .run => none
  | .down _ => some wtKsem
  | .wait _ => some wtChild
  | .sleep => some wtTimer
  | .kbd => some wtKbd
  | .exited => none

/-- **The fields of a process fit the place where it goes on.** A runnable process that has been in
`__down` has been woken by `__up`. -/
def ProcOk (c : Cont) (flags : BitVec 32) (q : Proc) : Prop :=
  match q.state with
  | .uninit => False
  | .runnable => q.waitState = 0 ∧ c ≠ .exited ∧ ∀ k, c = .down k → flags = wtKsem
  | .sleeping => c.waitState = some q.waitState
  | .zombie => q.waitState = 0 ∧ c = .exited

/-- **The invariant of the kernel**, for a scheduling class with the invariant `I`. -/
structure KInv (I : SchedState → Prop) (s : Kernel) : Prop where
  sched : I s.sched
  queued : ∀ p, p ∈ s.sched.rq.runList ↔ p ≠ s.current ∧ p ≠ s.idleproc ∧ s.Is p .runnable
  idle : s.Is s.idleproc .runnable ∧ s.conts s.idleproc = .run
  cur : s.procs s.current ≠ none
  active : s.switching = false → s.Is s.current .runnable
  proc : ∀ p q, s.procs p = some q → ProcOk (s.conts p) (s.wakeupFlags p) q
  sem : ∀ k p, p ∈ s.queues (.sem k) ↔ s.Asleep p (.down k)
  nodup : ∀ k, (s.queues (.sem k)).Nodup
  value : ∀ k, semPositive (s.semValue k) → s.queues (.sem k) = []
  stdin : ∀ p ∈ s.queues .stdin, s.procs p ≠ none ∧ s.conts p = .kbd
  stdinNodup : (s.queues .stdin).Nodup
  used : ∀ p, s.procs p ≠ none → p ∈ s.used

/-- The panics that are not excluded: all but the assertions of the scheduling class, of `__up`, of
`down` and of `wait_queue_del`. -/
def Harmless : KPanic → Prop
  | .sched _ => False
  | .upState => False
  | .downFlags => False
  | .waitDel => False
  | _ => True

/-! ## Small lemmas -/

variable {s t : Kernel} {p x : ℕ} {q : Proc} {f : Proc → Proc} {st : ProcState} {c : Cont}
  {I : SchedState → Prop}

section Basic

variable {flags : BitVec 32}

lemma modProc_of_ne (h : x ≠ p) : (s.modProc p f).procs x = s.procs x := update_of_ne h ..

lemma modProc_self (h : s.procs p = some q) : (s.modProc p f).procs p = some (f q) := by
  simp [Kernel.modProc, h]

lemma modProc_eq_none : (s.modProc p f).procs x = none ↔ s.procs x = none := by
  by_cases h : x = p
  · subst h
    simp [Kernel.modProc]
  · rw [modProc_of_ne h]

lemma is_of_proc (h : s.procs p = some q) : s.Is p st ↔ q.state = st := by
  unfold Kernel.Is
  simp [h]

lemma Kernel.Is.ne_none (h : s.Is p st) : s.procs p ≠ none := by
  obtain ⟨q, hq, -⟩ := h
  simp [hq]

lemma Kernel.Is.unique {st' : ProcState} (h : s.Is p st) (h' : s.Is p st') : st = st' := by
  obtain ⟨q, hq, rfl⟩ := h
  exact (is_of_proc hq).mp h'

lemma is_congr (h : t.procs p = s.procs p) : t.Is p st ↔ s.Is p st := by
  unfold Kernel.Is
  rw [h]

lemma getProc_apply (h : s.procs p = some q) : getProc p s = .ok (q, s) := by
  simp [getProc, h]

lemma getProc_none (h : s.procs p = none) : getProc p s = .error .badPointer := by
  simp [getProc, h]

lemma getProc_bind {α : Type} {g : Proc → Kern α} {E : KPanic → Prop} {Q : α → Kernel → Prop}
    (hE : s.procs p = none → E .badPointer) (h : ∀ q, s.procs p = some q → Spec (g q) s E Q) :
    Spec (getProc p >>= g) s E Q := by
  cases hp : s.procs p with
  | none => exact .of_error (bind_of_error (getProc_none hp) g) (hE hp)
  | some q =>
    have e := bind_of_ok (getProc_apply hp) g
    exact ⟨fun a t ha => (h q hp).ok a t (e ▸ ha), fun d hd => (h q hp).panic d (e ▸ hd)⟩

lemma ProcOk.of_sleeping (h : ProcOk c flags q) (hs : q.state = .sleeping) :
    c.waitState = some q.waitState := by
  rw [ProcOk, hs] at h
  exact h

lemma ProcOk.of_runnable (h : ProcOk c flags q) (hs : q.state = .runnable) :
    q.waitState = 0 ∧ c ≠ .exited ∧ ∀ k, c = .down k → flags = wtKsem := by
  rw [ProcOk, hs] at h
  exact h

lemma ProcOk.of_zombie (h : ProcOk c flags q) (hs : q.state = .zombie) :
    q.waitState = 0 ∧ c = .exited := by
  rw [ProcOk, hs] at h
  exact h

lemma procOk_sleeping (hs : q.state = .sleeping) (h : c.waitState = some q.waitState) :
    ProcOk c flags q := by
  rw [ProcOk, hs]
  exact h

lemma procOk_runnable (hs : q.state = .runnable) (h0 : q.waitState = 0) (hc : c ≠ .exited)
    (hf : ∀ k, c = .down k → flags = wtKsem) : ProcOk c flags q := by
  rw [ProcOk, hs]
  exact ⟨h0, hc, hf⟩

lemma ProcOk.ne_uninit (h : ProcOk c flags q) : q.state ≠ .uninit := by
  intro hs
  rw [ProcOk, hs] at h
  exact h

lemma ProcOk.not_down (h : ProcOk c flags q) (hs : q.state = .sleeping)
    (hw : q.waitState = 0 ∨ q.waitState &&& wtInterrupted ≠ 0) (k : ℕ) : c ≠ .down k := by
  rintro rfl
  have hk := Option.some.inj (h.of_sleeping hs)
  rw [← hk] at hw
  exact absurd hw (by decide)

/-- A process with the `wait_state` of `do_wait` sleeps there. -/
lemma ProcOk.of_wtChild (h : ProcOk c flags q) (hw : q.waitState = wtChild) :
    q.state = .sleeping ∧ ∃ pid, c = .wait pid := by
  cases hs : q.state with
  | uninit => exact absurd hs h.ne_uninit
  | runnable =>
    rw [(h.of_runnable hs).1] at hw
    exact absurd hw (by decide)
  | zombie =>
    rw [(h.of_zombie hs).1] at hw
    exact absurd hw (by decide)
  | sleeping =>
    refine ⟨rfl, ?_⟩
    have hk := h.of_sleeping hs
    rw [hw] at hk
    cases c with
    | wait pid => exact ⟨pid, rfl⟩
    | run | exited => cases hk
    | down k => exact absurd (Option.some.inj hk : wtKsem = wtChild) (by decide)
    | sleep => exact absurd (Option.some.inj hk : wtTimer = wtChild) (by decide)
    | kbd => exact absurd (Option.some.inj hk : wtKbd = wtChild) (by decide)

end Basic

/-! ## Waking a process -/

section Wake

variable {cls : SchedClass} {p : ℕ}

/-- The queue after a process has been woken. -/
def queuedAfter (s : Kernel) (p : ℕ) : List ℕ :=
  if p = s.current ∨ p = s.idleproc then s.sched.rq.runList else s.sched.rq.runList ++ [p]

/-- `wakeup_proc` has been called: nothing happens to a runnable process; another one becomes
runnable and is queued. -/
def Woke (I : SchedState → Prop) (s : Kernel) (p : ℕ) (t : Kernel) : Prop :=
  (s.Is p .runnable ∧ t = s) ∨
  ∃ q sch, s.procs p = some q ∧ q.state ≠ .runnable ∧ q.state ≠ .zombie ∧ I sch ∧
    sch.rq.runList = queuedAfter s p ∧ t = { s.modProc p Proc.wake with sched := sch }

/-- Enqueueing through the scheduler core. -/
lemma schedClassEnqueue_spec (hc : ClassOk cls I) (h : I s.sched)
    (hp : p ≠ s.idleproc → p ∉ s.sched.rq.runList) {E : KPanic → Prop} :
    Spec (schedClassEnqueue cls p) s E fun _ t => ∃ sch, I sch ∧
      sch.rq.runList = (if p = s.idleproc then s.sched.rq.runList
        else s.sched.rq.runList ++ [p]) ∧ t = { s with sched := sch } := by
  refine .read_bind ?_
  by_cases hi : p = s.idleproc
  · simp only [hi, ne_eq, not_true_eq_false, if_false]
    exact .pure ⟨s.sched, h, by simp, rfl⟩
  · obtain ⟨u, e, hu, hl⟩ := hc.enqueue s.sched p h (hp hi)
    have hm : liftSched (cls.enqueue p) s = .ok ((), { s with sched := u }) := by
      rw [liftSched, e]
    simp only [ne_eq, hi, not_false_eq_true, if_true]
    exact .of_ok hm ⟨u, hu, by simp [hl], rfl⟩

/-- **`wakeup_proc`.** -/
lemma wakeupProc_spec (hc : ClassOk cls I) (h : I s.sched)
    (hp : ∀ q, s.procs p = some q → q.state ≠ .runnable → p ∉ s.sched.rq.runList) :
    Spec (wakeupProc cls p) s Harmless fun _ t => Woke I s p t := by
  refine getProc_bind (fun _ => trivial) fun q hq => ?_
  refine .ensure_bind (fun _ => trivial) fun hz => ?_
  refine .ite (fun hr => ?_) fun hr => ?_
  · refine .modify_bind (.read_bind ?_)
    change Spec (if p ≠ s.current then schedClassEnqueue cls p else pure ())
      (s.modProc p Proc.wake) Harmless _
    refine .ite (fun hcur => ?_) fun hcur => ?_
    · refine (schedClassEnqueue_spec (s := s.modProc p Proc.wake) hc h
        fun _ => hp q hq hr).mono fun _ t ht => ?_
      obtain ⟨sch, h1, h2, rfl⟩ := ht
      refine .inr ⟨q, sch, hq, hr, hz, h1, ?_, rfl⟩
      rw [h2, queuedAfter]
      simp only [hcur, false_or]
      rfl
    · rw [ne_eq, not_not] at hcur
      refine .pure (.inr ⟨q, s.sched, hq, hr, hz, h, ?_, rfl⟩)
      rw [queuedAfter, if_pos (Or.inl hcur)]
  · rw [ne_eq, not_not] at hr
    exact .pure (.inl ⟨(is_of_proc hq).mpr hr, rfl⟩)

end Wake

/-! ## Steps of the invariant -/

namespace KInv

variable {s : Kernel} {sch : SchedState} {Q : QueueId → List ℕ} {F : ℕ → BitVec 32}

/-- A process at an address that has not been used would be a new one. -/
lemma unused {new : ℕ} (h : KInv I s) (hnew : new ∉ s.used) :
    s.procs new = none ∧ s.current ≠ new ∧ s.idleproc ≠ new := by
  have hnone : s.procs new = none := by
    by_contra hn
    exact hnew (h.used new hn)
  refine ⟨hnone, ?_, ?_⟩
  · rintro rfl
    exact h.cur hnone
  · rintro rfl
    exact h.idle.1.ne_none hnone

lemma notMem_runList (h : KInv I s) (hq : s.procs p = some q) (hr : q.state ≠ .runnable) :
    p ∉ s.sched.rq.runList := by
  rw [h.queued]
  rintro ⟨-, -, hp⟩
  exact hr ((is_of_proc hq).mp hp)

lemma notMem_sem (h : KInv I s) (hp : ¬s.Is p .sleeping) (k : ℕ) : p ∉ s.queues (.sem k) := by
  rw [h.sem]
  exact fun ha => hp ha.1

lemma is_modProc_of_ne (hx : x ≠ p) : (s.modProc p f).Is x st ↔ s.Is x st :=
  is_congr (modProc_of_ne hx)

lemma is_modProc_self (hq : s.procs p = some q) : (s.modProc p f).Is p st ↔ (f q).state = st :=
  is_of_proc (modProc_self hq)

lemma is_modProc_same (hf : ∀ q, (f q).state = q.state) :
    (s.modProc p f).Is x st ↔ s.Is x st := by
  by_cases hxp : x = p
  · subst hxp
    cases hx : s.procs x with
    | none => simp [Kernel.Is, Kernel.modProc, hx]
    | some q => rw [is_modProc_self hx, is_of_proc hx, hf q]
  · exact is_modProc_of_ne hxp

/-- **A sleeping process is woken**; it may have been taken out of a queue and its flags may have
been set. -/
lemma wake (h : KInv I s) (hq : s.procs p = some q) (hs : q.state = .sleeping) (hI : I sch)
    (hl : sch.rq.runList = queuedAfter s p)
    (hsem : ∀ k x, x ∈ Q (.sem k) ↔ x ∈ s.queues (.sem k) ∧ x ≠ p)
    (hnodup : ∀ k, (Q (.sem k)).Nodup)
    (hstdin : ∀ x ∈ Q .stdin, x ∈ s.queues .stdin) (hstdinNodup : (Q .stdin).Nodup)
    (hF : ∀ x, x ≠ p → F x = s.wakeupFlags x) (hFp : ∀ k, s.conts p = .down k → F p = wtKsem) :
    KInv I { s.modProc p Proc.wake with sched := sch, queues := Q, wakeupFlags := F } := by
  have hpi : p ≠ s.idleproc := by
    rintro rfl
    have := h.idle.1
    rw [is_of_proc hq, hs] at this
    cases this
  have hself : (s.modProc p Proc.wake).Is p .runnable := (is_modProc_self hq).mpr rfl
  refine ⟨hI, fun x => ?_, ⟨?_, h.idle.2⟩, ?_, fun hsw => ?_, fun x r hx => ?_,
    fun k x => ?_, hnodup, fun k hv => ?_, fun x hx => ?_, hstdinNodup, fun x hx => ?_⟩
  · change x ∈ sch.rq.runList ↔ x ≠ s.current ∧ x ≠ s.idleproc ∧
      (s.modProc p Proc.wake).Is x .runnable
    rw [hl, queuedAfter]
    by_cases hxp : x = p
    · subst hxp
      by_cases hcur : x = s.current
      · simp [hcur, h.queued]
      · simp [hcur, hpi, hself]
    · rw [is_modProc_of_ne hxp, ← h.queued]
      split_ifs
      · rfl
      · simp [hxp]
  · exact (is_modProc_of_ne (Ne.symm hpi)).mpr h.idle.1
  · exact mt modProc_eq_none.mp h.cur
  · by_cases hcur : s.current = p
    · change (s.modProc p Proc.wake).Is s.current .runnable
      rw [hcur]
      exact hself
    · exact (is_modProc_of_ne hcur).mpr (h.active hsw)
  · by_cases hxp : x = p
    · subst hxp
      obtain rfl := Option.some.inj ((modProc_self hq).symm.trans hx)
      have hne : s.conts x ≠ .exited := by
        intro he
        have := (h.proc x q hq).of_sleeping hs
        rw [he] at this
        cases this
      exact procOk_runnable rfl rfl hne hFp
    · have hx' : s.procs x = some r := (modProc_of_ne hxp).symm.trans hx
      change ProcOk (s.conts x) (F x) r
      rw [hF x hxp]
      exact h.proc x r hx'
  · change x ∈ Q (.sem k) ↔ (s.modProc p Proc.wake).Is x .sleeping ∧ s.conts x = .down k
    rw [hsem, h.sem, Kernel.Asleep]
    by_cases hxp : x = p
    · subst hxp
      have : ¬(s.modProc x Proc.wake).Is x .sleeping := fun ha => by cases hself.unique ha
      simp [this]
    · rw [is_modProc_of_ne hxp]
      simp [hxp]
  · rw [List.eq_nil_iff_forall_not_mem]
    intro x hx
    rw [hsem, h.value k hv] at hx
    exact absurd hx.1 List.not_mem_nil
  · obtain ⟨h1, h2⟩ := h.stdin x (hstdin x hx)
    exact ⟨mt modProc_eq_none.mp h1, h2⟩
  · exact h.used x (mt modProc_eq_none.mpr hx)

/-- A change of a process that leaves its state and its `wait_state`. -/
lemma modProc (h : KInv I s) (hf : ∀ q, (f q).state = q.state ∧ (f q).waitState = q.waitState) :
    KInv I (s.modProc p f) := by
  have his : ∀ x st, (s.modProc p f).Is x st ↔ s.Is x st := fun x st =>
    is_modProc_same fun q => (hf q).1
  refine ⟨h.sched, fun x => ?_, ⟨(his _ _).mpr h.idle.1, h.idle.2⟩, mt modProc_eq_none.mp h.cur,
    fun hsw => (his _ _).mpr (h.active hsw), fun x r hx => ?_, fun k x => ?_, h.nodup, h.value,
    fun x hx => ?_, h.stdinNodup, fun x hx => h.used x (mt modProc_eq_none.mpr hx)⟩
  · rw [his]
    exact h.queued x
  · by_cases hxp : x = p
    · subst hxp
      cases hq : s.procs x with
      | none =>
        have := modProc_eq_none (f := f) (p := x) |>.mpr hq
        rw [this] at hx
        cases hx
      | some q =>
        obtain rfl := Option.some.inj ((modProc_self hq).symm.trans hx)
        have := h.proc x q hq
        unfold ProcOk at this ⊢
        rw [(hf q).1, (hf q).2]
        exact this
    · exact h.proc x r ((modProc_of_ne hxp).symm.trans hx)
  · rw [Kernel.Asleep, his]
    exact h.sem k x
  · obtain ⟨h1, h2⟩ := h.stdin x hx
    exact ⟨mt modProc_eq_none.mp h1, h2⟩

/-- **The current process leaves the CPU**: it goes to sleep or ends. -/
lemma leave (h : KInv I s) (hq : s.procs s.current = some q) (hr : q.state = .runnable)
    (hi : s.current ≠ s.idleproc) (hk : s.conts s.current ≠ .kbd)
    (hf : ∀ flags, ProcOk c flags (f q))
    (hsem : ∀ k x, x ∈ Q (.sem k) ↔ x ∈ s.queues (.sem k) ∨
      x = s.current ∧ (f q).state = .sleeping ∧ c = .down k)
    (hnodup : ∀ k, (Q (.sem k)).Nodup) (hval : ∀ k, semPositive (s.semValue k) → Q (.sem k) = [])
    (hstdin : ∀ x ∈ Q .stdin, x ∈ s.queues .stdin ∨ x = s.current ∧ c = .kbd)
    (hstdinNodup : (Q .stdin).Nodup) (hF : ∀ x, x ≠ s.current → F x = s.wakeupFlags x) :
    KInv I { s.modProc s.current f with
      conts := update s.conts s.current c, switching := true, queues := Q, wakeupFlags := F } := by
  have hself : ∀ st, (s.modProc s.current f).Is s.current st ↔ (f q).state = st := fun st =>
    is_modProc_self hq
  have hcont : ∀ x, x ≠ s.current → update s.conts s.current c x = s.conts x := fun x hx =>
    update_of_ne hx ..
  refine ⟨h.sched, fun x => ?_, ⟨?_, ?_⟩, mt modProc_eq_none.mp h.cur, fun hsw => ?_,
    fun x r hx => ?_, fun k x => ?_, hnodup, hval, fun x hx => ?_, hstdinNodup,
    fun x hx => h.used x (mt modProc_eq_none.mpr hx)⟩
  · change x ∈ s.sched.rq.runList ↔ x ≠ s.current ∧ x ≠ s.idleproc ∧
      (s.modProc s.current f).Is x .runnable
    rw [h.queued]
    by_cases hxc : x = s.current
    · simp [hxc]
    · rw [is_modProc_of_ne hxc]
  · exact (is_modProc_of_ne (Ne.symm hi)).mpr h.idle.1
  · exact (hcont _ (Ne.symm hi)).trans h.idle.2
  · cases hsw
  · change ProcOk (update s.conts s.current c x) (F x) r
    by_cases hxc : x = s.current
    · subst hxc
      obtain rfl := Option.some.inj ((modProc_self hq).symm.trans hx)
      rw [update_self]
      exact hf _
    · rw [hcont x hxc, hF x hxc]
      exact h.proc x r ((modProc_of_ne hxc).symm.trans hx)
  · change x ∈ Q (.sem k) ↔ (s.modProc s.current f).Is x .sleeping ∧
      update s.conts s.current c x = .down k
    rw [hsem]
    by_cases hxc : x = s.current
    · subst hxc
      have hnot : s.current ∉ s.queues (.sem k) := by
        refine h.notMem_sem ?_ k
        rw [is_of_proc hq, hr]
        simp
      rw [hself, update_self]
      simp [hnot]
    · rw [is_modProc_of_ne hxc, hcont x hxc, h.sem]
      simp [hxc, Kernel.Asleep]
  · rcases hstdin x hx with hx' | ⟨rfl, rfl⟩
    · obtain ⟨h1, h2⟩ := h.stdin x hx'
      have hxc : x ≠ s.current := by
        rintro rfl
        exact hk h2
      exact ⟨mt modProc_eq_none.mp h1, (hcont x hxc).trans h2⟩
    · exact ⟨mt modProc_eq_none.mp h.cur, update_self ..⟩

/-- **The current process goes on** in its code after `schedule`. -/
lemma goOn (h : KInv I s) (hsw : s.switching = false)
    (hsem : ∀ k, Q (.sem k) = s.queues (.sem k))
    (hstdin : ∀ x ∈ Q .stdin, x ∈ s.queues .stdin ∧ x ≠ s.current)
    (hstdinNodup : (Q .stdin).Nodup) :
    KInv I { s with conts := update s.conts s.current .run, queues := Q } := by
  have hcur := h.active hsw
  have hcont : ∀ x, x ≠ s.current → update s.conts s.current .run x = s.conts x := fun x hx =>
    update_of_ne hx ..
  refine ⟨h.sched, h.queued, ⟨h.idle.1, ?_⟩, h.cur, h.active, fun x r hx => ?_, fun k x => ?_,
    fun k => ?_, fun k hv => ?_, fun x hx => ?_, hstdinNodup, h.used⟩
  · by_cases hi : s.idleproc = s.current
    · change update s.conts s.current .run s.idleproc = .run
      rw [hi, update_self]
    · exact (hcont _ hi).trans h.idle.2
  · change ProcOk (update s.conts s.current .run x) (s.wakeupFlags x) r
    by_cases hxc : x = s.current
    · subst hxc
      have hr : r.state = .runnable := (is_of_proc hx).mp hcur
      rw [update_self]
      refine procOk_runnable hr ((h.proc _ r hx).of_runnable hr).1 (by simp) fun k hk => ?_
      cases hk
    · rw [hcont x hxc]
      exact h.proc x r hx
  · change x ∈ Q (.sem k) ↔ s.Is x .sleeping ∧ update s.conts s.current .run x = .down k
    rw [hsem, h.sem, Kernel.Asleep]
    by_cases hxc : x = s.current
    · subst hxc
      have hns : ¬s.Is s.current .sleeping := fun hs => by cases hcur.unique hs
      simp [hns]
    · rw [hcont x hxc]
  · change (Q (.sem k)).Nodup
    rw [hsem]
    exact h.nodup k
  · change Q (.sem k) = []
    rw [hsem]
    exact h.value k hv
  · obtain ⟨h1, h2⟩ := hstdin x hx
    exact ⟨(h.stdin x h1).1, (hcont x h2).trans (h.stdin x h1).2⟩

end KInv

end Ucore
