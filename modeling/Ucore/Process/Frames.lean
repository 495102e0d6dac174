import Ucore.Process.Run

set_option autoImplicit false

/-!
# What the steps of the kernel touch

Every step other than `schedule` touches the scheduler's data only through the functions of the
scheduling class, and the places where processes go on only for the current process and a new one.
So a relation between states that these changes keep to is one that the steps keep to.

## Main definitions

* `CallFrame` — a relation that waking processes, waiting and killing keep to.
* `SchedFrame`, `ContFrame` — a relation that the changes keep to.
* `ProcFrame` — a relation about the table of processes.

## Main results

* `ContFrame.exec` — then the steps other than `schedule` keep to it.
* `SchedFrame.still` — the same for the steps in which no process goes elsewhere.
* `Step.down_kept` — the processes that are in `down` before and after a step.
* `ProcFrame.plain` — the calls that neither create nor reap a process.
-/

namespace Ucore

open Function

/-- A relation that holds for changes of a process that keep its pid, for changes of the semaphores
and the wait queues, and for a process that gets onto the run queue. -/
structure CallFrame (cls : SchedClass) (R : Kernel → Kernel → Prop) : Prop where
  modProc : ∀ s p f, (∀ q : Proc, (f q).pid = q.pid) → R s (s.modProc p f)
  quiet : ∀ s sem queues flags,
    R s { s with semValue := sem, queues := queues, wakeupFlags := flags }
  enqueue : ∀ s u p, cls.enqueue p s.sched = .ok ((), u) → R s { s with sched := u }

/-- A relation that holds for changes outside the scheduler's data and the places where processes go
on, and for the calls of the scheduling class. -/
structure SchedFrame (cls : SchedClass) (R : Kernel → Kernel → Prop) : Prop where
  rest : ∀ s t, t.sched = s.sched → t.conts = s.conts → t.current = s.current → R s t
  enqueue : ∀ s u p, cls.enqueue p s.sched = .ok ((), u) → R s { s with sched := u }
  procTick : ∀ s u p, cls.procTick p s.sched = .ok ((), u) → R s { s with sched := u }
  ent : ∀ s p f, R s { s with sched := s.sched.modEnt p f }

/-- It also holds for changes of the place where the current process goes on, into `__down` only in
a call of `down`, and for the place of a process that is created. -/
structure ContFrame (cls : SchedClass) (R : Kernel → Kernel → Prop) (op : Op) : Prop
    extends SchedFrame cls R where
  conts : ∀ s t c, (∀ j, c = .down j → op = .down j) → t.sched = s.sched → t.current = s.current →
    t.conts = update s.conts s.current c → R s t
  fork : ∀ s t new mem, op = .fork new mem → t.sched = s.sched.modEnt new (fun _ => allocEnt) →
    t.current = s.current → t.conts = update s.conts new .run → R s t

variable {cls : SchedClass} {R : Kernel → Kernel → Prop} {op : Op}

section Steps

open Comp

lemma liftSched_within {m : Sch Unit}
    (h : ∀ s u, m s.sched = .ok ((), u) → R s { s with sched := u }) : Within R (liftSched m) := by
  intro s a t e
  rw [liftSched] at e
  split at e
  · next u hu =>
    cases e
    exact h _ _ hu
  · cases e

lemma getProc_within [Std.Refl R] [IsTrans Kernel R] (p : ℕ) : Within R (getProc p) := by
  refine .read_bind fun s => ?_
  cases s.procs p with
  | none => exact .halt _
  | some q => exact .pure q

namespace CallFrame

lemma moveChild [IsTrans Kernel R] (hx : CallFrame cls R) (c : ℕ) (l : List ℕ) (s : Kernel) :
    R s (s.moveChild c l) := by
  have h1 := hx.modProc s s.current (fun q => { q with children := l }) fun _ => rfl
  have h2 := hx.modProc (s.modProc s.current fun q => { q with children := l }) c
    (fun q => { q with parent := some s.initproc }) fun _ => rfl
  exact IsTrans.trans _ _ _ (IsTrans.trans _ _ _ h1 h2) (hx.modProc _ s.initproc _ fun _ => rfl)

variable [Std.Refl R] [IsTrans Kernel R]

section

variable (hx : CallFrame cls R)
include hx

lemma wakeupProc (p : ℕ) : Within R (wakeupProc cls p) := by
  refine .bind (getProc_within p) fun _ => .ensure_bind <| .ite
    (.bind (.modify fun s => hx.modProc s p _ fun _ => rfl) fun _ => ?_) (.pure _)
  exact .read_bind fun _ => .ite (.read_bind fun _ =>
    .ite (liftSched_within fun s u => hx.enqueue s u p) (.pure _)) (.pure _)

lemma waitQueueDel (queue : QueueId) (p : ℕ) : Within R (waitQueueDel queue p) :=
  .read_bind fun _ => .ensure_bind <|
    .modify fun s => hx.quiet s _ _ _

lemma wakeupWait (queue : QueueId) (p : ℕ) (flags : BitVec 32) :
    Within R (wakeupWait cls queue p flags) :=
  .bind (hx.waitQueueDel queue p) fun _ =>
    .bind (.modify fun s => hx.quiet s _ _ _) fun _ => hx.wakeupProc p

lemma wakeupAll (queue : QueueId) (flags : BitVec 32) (l : List ℕ) :
    Within R (wakeupAll cls queue flags l) := by
  induction l with
  | nil => exact .pure _
  | cons p l ih => exact .bind (hx.wakeupWait queue p flags) fun _ => ih

lemma stdinArrived (char : Bool) : Within R (stdinArrived cls char) :=
  .ite (.read_bind fun _ => hx.wakeupAll _ _ _) (.pure _)

lemma semUp (k : ℕ) : Within R (semUp cls k) := by
  refine .read_bind fun s => ?_
  cases s.queues (.sem k) with
  | nil => exact .bind_pure (.modify fun s => hx.quiet s _ _ _)
  | cons p l =>
    exact .bind (getProc_within p) fun q => .ensure_bind <|
      .bind_pure (hx.wakeupWait _ _ _)

lemma waitCurrentSet (queue : QueueId) (w : BitVec 32) : Within R (waitCurrentSet queue w) :=
  .read_bind fun _ => .bind (.modify fun s => hx.quiet s _ _ _)
    fun _ => .bind (.modify fun s => hx.modProc s _ _ fun _ => rfl) fun _ =>
      .modify fun s => hx.quiet s _ _ _

lemma waitCurrentDel (queue : QueueId) : Within R (waitCurrentDel queue) :=
  .read_bind fun _ => .ite (hx.waitQueueDel queue _) (.pure _)

lemma semTryDown (k : ℕ) : Within R (semTryDown k) :=
  .read_bind fun _ => .ite
    (.bind_pure (.modify fun s => hx.quiet s _ _ _)) (.pure _)

lemma wakeWaiting (p : ℕ) : Within R (wakeWaiting cls p) :=
  .bind (getProc_within p) fun _ => .ite (hx.wakeupProc p) (.pure _)

lemma wakeParent (parent : Option ℕ) : Within R (wakeParent cls parent) := by
  cases parent with
  | none => exact .halt _
  | some p => exact hx.wakeWaiting p

lemma reparent (l : List ℕ) : Within R (reparent cls l) := by
  induction l with
  | nil => exact .pure _
  | cons c l ih =>
    have hinit : Within R (wakeInit cls c) :=
      .bind (getProc_within c) fun _ => .read_bind fun _ =>
        .ite (hx.wakeWaiting _) (.pure _)
    exact .bind (.modify (hx.moveChild c l)) fun _ => .bind hinit fun _ => ih

lemma doKill (pid : ℤ) : Within R (doKill cls pid) := by
  refine .read_bind fun s => ?_
  cases s.findProc pid with
  | none => exact .pure _
  | some p =>
    exact .bind (getProc_within p) fun q => .ite (.pure _)
      (.bind (.modify fun s => hx.modProc s _ _ fun _ => rfl) fun _ =>
        .bind_pure (.ite (hx.wakeupProc p) (.pure _)))

end

end CallFrame

namespace SchedFrame

lemma call (hx : SchedFrame cls R) : CallFrame cls R :=
  ⟨fun _ _ _ _ => hx.rest _ _ rfl rfl rfl, fun _ _ _ _ => hx.rest _ _ rfl rfl rfl, hx.enqueue⟩

lemma modify (hx : SchedFrame cls R) {f : Kernel → Kernel}
    (h : ∀ s, (f s).sched = s.sched ∧ (f s).conts = s.conts ∧ (f s).current = s.current) :
    Within R (Comp.modify f : Kern Unit) :=
  .modify fun s => hx.rest s (f s) (h s).1 (h s).2.1 (h s).2.2

lemma modify_bind [IsTrans Kernel R] (hx : SchedFrame cls R) {α : Type} {f : Kernel → Kernel}
    {g : Unit → Kern α}
    (h : ∀ s, (f s).sched = s.sched ∧ (f s).conts = s.conts ∧ (f s).current = s.current)
    (hg : Within R (g ())) : Within R (Comp.modify f >>= g) := .bind (hx.modify h) fun _ => hg

variable [Std.Refl R] [IsTrans Kernel R]

section

variable (hx : SchedFrame cls R)
include hx

lemma fireTimers (l : List Timer) : Within R (fireTimers cls l) := by
  induction l with
  | nil => exact .pure _
  | cons timer l ih =>
    refine .ite ?_ (.pure _)
    exact .bind (getProc_within _) fun q => .ensure_bind <|
      .bind (hx.call.wakeupProc _) fun _ => hx.modify_bind (fun _ => ⟨rfl, rfl, rfl⟩) ih

lemma runTimers : Within R (runTimers cls) := by
  refine .read_bind fun s => ?_
  cases s.timers with
  | nil => exact .pure _
  | cons timer l =>
    exact .ensure_bind <|
      hx.modify_bind (fun _ => ⟨rfl, rfl, rfl⟩) (hx.fireTimers _)

lemma runTimerList : Within R (runTimerList cls) := by
  refine .bind hx.runTimers fun _ => .read_bind fun s =>
    .read_bind fun t => .ite ?_ ?_
  · exact liftSched_within fun s u => hx.procTick s u _
  · exact .modify fun s => hx.ent s _ _

lemma reap (p : ℕ) : Within R (reap p) := by
  refine .read_bind fun _ => .ensure_bind <|
    .bind (getProc_within p) fun q => hx.modify_bind (fun _ => ⟨rfl, rfl, rfl⟩)
      (.bind ?_ fun _ => hx.modify_bind (fun _ => ⟨rfl, rfl, rfl⟩) (.pure _))
  cases q.parent with
  | none => exact .halt _
  | some parent => exact hx.modify fun _ => ⟨rfl, rfl, rfl⟩

/-- The steps that leave the places where the processes go on. -/
def Still : Op → Prop
  | .kill _ | .yield | .tryDown _ | .up _ | .setPriority _ | .tick _ => True
  | _ => False

/-- **The steps in which no process goes elsewhere keep to the relation.** -/
lemma still (hop : Still op) : Within R (exec cls op) := by
  cases op with
  | kill pid => exact .bind_pure (hx.call.doKill pid)
  | yield => exact hx.modify_bind (fun _ => ⟨rfl, rfl, rfl⟩) (.pure _)
  | tryDown k =>
    exact .bind (hx.call.semTryDown k) fun _ => .bind_pure .read
  | up k => exact .bind_pure (hx.call.semUp k)
  | setPriority v => exact .bind_pure (.modify fun s => hx.ent s _ _)
  | tick char =>
    exact .bind hx.runTimerList fun _ => .bind_pure (hx.call.stdinArrived char)
  | fork new mem | exit code | wait pid | sleep time | down k | stdin | resume | schedule =>
    cases hop

end

end SchedFrame

namespace ContFrame

lemma modifyCont (hx : ContFrame cls R op) {f : Kernel → Kernel} (c : Cont)
    (hc : ∀ j, c = .down j → op = .down j)
    (h : ∀ s, (f s).sched = s.sched ∧ (f s).conts = update s.conts s.current c ∧
      (f s).current = s.current) : Within R (Comp.modify f : Kern Unit) :=
  .modify fun s => hx.conts s (f s) c hc (h s).1 (h s).2.2 (h s).2.1

/-- The current process goes on in its code. -/
lemma run (hx : ContFrame cls R op) : Within R (Comp.modify fun s : Kernel =>
    { s with conts := update s.conts s.current .run } : Kern Unit) :=
  hx.modifyCont .run (by simp) fun _ => ⟨rfl, rfl, rfl⟩

variable [Std.Refl R] [IsTrans Kernel R]

lemma doExit (hx : ContFrame cls R op) (code : ℤ) : Within R (doExit cls code) := by
  refine .read_bind fun s => .ensure_bind <|
    .ensure_bind <| .bind (getProc_within _) fun q => .bind ?_ fun _ =>
    .bind (hx.call.wakeParent _) fun _ => hx.call.reparent _
  exact hx.modifyCont .exited (by simp) fun _ => ⟨rfl, rfl, rfl⟩

lemma doWait (hx : ContFrame cls R op) (pid : ℤ) : Within R (doWait pid) := by
  refine .read_bind fun s => ?_
  cases s.waitFor pid with
  | zombie p =>
    exact .bind (hx.reap p) fun code => .bind_pure hx.run
  | kids =>
    refine hx.modify_bind (fun _ => ⟨rfl, rfl, rfl⟩) (.bind_pure ?_)
    exact hx.modifyCont (.wait pid) (by simp) fun _ => ⟨rfl, rfl, rfl⟩
  | none => exact .bind_pure hx.run

lemma doSleep (hx : ContFrame cls R op) (time : ℕ) : Within R (doSleep time) := by
  refine .ite (.pure _) (.read_bind fun s =>
    hx.modify_bind (fun _ => ⟨rfl, rfl, rfl⟩) (.bind ?_ fun _ => ?_))
  · exact .ensure_bind <| .read_bind fun _ =>
      .ensure_bind <| hx.modify fun _ => ⟨rfl, rfl, rfl⟩
  · exact hx.modifyCont .sleep (by simp) fun _ => ⟨rfl, rfl, rfl⟩

lemma resume (hx : ContFrame cls R op) : Within R (resume cls) := by
  refine .read_bind fun s => ?_
  cases s.conts s.current with
  | run => exact .pure _
  | down k =>
    refine .bind_pure ?_
    exact .bind (hx.call.waitCurrentDel _) fun _ => .read_bind fun _ =>
      .ensure_bind <| hx.run
  | wait pid =>
    refine .bind_pure ?_
    exact .read_bind fun _ => .bind (getProc_within _) fun _ =>
      .ite (.bind_pure (hx.doExit _)) (hx.doWait pid)
  | sleep =>
    refine .bind_pure ?_
    exact .read_bind fun _ => hx.modify_bind (fun _ => ⟨rfl, rfl, rfl⟩) hx.run
  | kbd =>
    refine .bind_pure ?_
    exact .bind (hx.call.waitCurrentDel _) fun _ => .read_bind fun _ =>
      .bind_pure hx.run
  | exited => exact .halt _

lemma doFork {new : ℕ} {mem : ForkMem} (hx : ContFrame cls R (.fork new mem)) :
    Within R (doFork cls new mem) := by
  refine .read_bind fun s => .ite (.pure _) (.ite (.pure _) ?_)
  refine .bind (getProc_within _) fun q => .ensure_bind <|
    .ite (.pure _) ?_
  refine .bind (.modify fun s => hx.fork s _ new mem rfl rfl rfl rfl) fun _ =>
    .bind ?_ fun pid => ?_
  · refine .read_bind fun s => ?_
    cases getPid (s.procList.filterMap s.pidOf) s.lastPid s.nextSafe with
    | none => exact .halt _
    | some r => exact hx.modify_bind (fun _ => ⟨rfl, rfl, rfl⟩) (.pure _)
  · exact hx.modify_bind (fun _ => ⟨rfl, rfl, rfl⟩) (hx.modify_bind (fun _ => ⟨rfl, rfl, rfl⟩)
      (.bind_pure (hx.call.wakeupProc new)))

/-- **The steps other than `schedule` keep to the relation.** -/
lemma exec (hx : ContFrame cls R op) (hop : op ≠ .schedule) : Within R (exec cls op) := by
  cases op with
  | fork new mem => exact .bind_pure hx.doFork
  | exit code => exact .bind_pure (hx.doExit code)
  | wait pid => exact .bind_pure (hx.doWait pid)
  | sleep time => exact .bind_pure (hx.doSleep time)
  | down k =>
    refine .bind ?_ fun _ => .bind_pure .read
    refine .read_bind fun _ => .ite ?_ ?_
    · exact hx.modify_bind (fun _ => ⟨rfl, rfl, rfl⟩) (.pure _)
    · refine .bind (hx.call.waitCurrentSet _ _) fun _ => .bind_pure ?_
      exact hx.modifyCont (.down k) (by simp) fun _ => ⟨rfl, rfl, rfl⟩
  | stdin =>
    refine .bind_pure ?_
    refine .bind (hx.call.waitCurrentSet _ _) fun _ => ?_
    exact hx.modifyCont .kbd (by simp) fun _ => ⟨rfl, rfl, rfl⟩
  | resume => exact hx.resume
  | schedule => exact absurd rfl hop
  | kill pid | yield | tryDown k | up k | setPriority v | tick char => exact hx.still trivial

end ContFrame

end Steps

/-! ## The processes in `down` -/

/-- The processes go on where they did. -/
def SameConts (s t : Kernel) : Prop := t.current = s.current ∧ t.conts = s.conts

instance : Std.Refl SameConts := ⟨fun _ => ⟨rfl, rfl⟩⟩

instance : IsTrans Kernel SameConts :=
  ⟨fun _ _ _ h h' => ⟨h'.1.trans h.1, h'.2.trans h.2⟩⟩

lemma sameConts_frame (cls : SchedClass) : SchedFrame cls SameConts where
  rest _ _ _ h h' := ⟨h', h⟩
  enqueue _ _ _ _ := ⟨rfl, rfl⟩
  procTick _ _ _ _ := ⟨rfl, rfl⟩
  ent _ _ _ := ⟨rfl, rfl⟩

/-- A process gets into `down` only by calling it, and only the current process or one that is
created leaves it. -/
def DownKept (op : Op) (s t : Kernel) : Prop :=
  t.current = s.current ∧ ∀ p j, (t.conts p = .down j → s.conts p = .down j ∨ op = .down j) ∧
    (p ≠ s.current → s.conts p = .down j → t.conts p = .down j ∨ ∃ mem, op = .fork p mem)

instance (op : Op) : Std.Refl (DownKept op) :=
    ⟨fun _ => ⟨rfl, fun _ _ => ⟨Or.inl, fun _ => Or.inl⟩⟩⟩

instance (op : Op) : IsTrans Kernel (DownKept op) := by
  refine ⟨fun s t u h h' => ⟨h'.1.trans h.1, fun p j => ⟨fun hp => ?_, fun hc hp => ?_⟩⟩⟩
  · exact ((h'.2 p j).1 hp).elim (h.2 p j).1 Or.inr
  · exact ((h.2 p j).2 hc hp).elim ((h'.2 p j).2 (h.1 ▸ hc)) Or.inr

lemma DownKept.of_same {op : Op} {s t : Kernel} (h : SameConts s t) : DownKept op s t := by
  refine ⟨h.1, fun p j => ?_⟩
  rw [h.2]
  exact ⟨.inl, fun _ => .inl⟩

lemma downKept_frame (cls : SchedClass) (op : Op) : ContFrame cls (DownKept op) op where
  rest _ _ _ h h' := .of_same ⟨h', h⟩
  enqueue _ _ _ _ := .of_same ⟨rfl, rfl⟩
  procTick _ _ _ _ := .of_same ⟨rfl, rfl⟩
  ent _ _ _ := .of_same ⟨rfl, rfl⟩
  conts s t c hc _ hcur ht := by
    refine ⟨hcur, fun p j => ⟨fun hp => ?_, fun hne hp => .inl ?_⟩⟩
    · rw [ht] at hp
      by_cases hpc : p = s.current
      · subst hpc
        rw [update_self] at hp
        exact .inr (hc j hp)
      · rw [update_of_ne hpc] at hp
        exact .inl hp
    · rw [ht, update_of_ne hne]
      exact hp
  fork s t new mem hop _ hcur ht := by
    refine ⟨hcur, fun p j => ?_⟩
    rw [ht]
    by_cases hp : p = new
    · subst hp
      rw [update_self]
      exact ⟨fun h => (by cases h), fun _ _ => Or.inr ⟨mem, hop⟩⟩
    · rw [update_of_ne hp]
      exact ⟨.inl, fun _ => .inl⟩

/-- **The processes in `down` before and after a step.** One leaves it when it returns from
`schedule`; an address that is used again by a new process is never the address of one of them. -/
lemma Step.down_kept {cls : SchedClass} {I : SchedState → Prop} {s t : Kernel} {op : Op}
    {out : Outcome} (hc : ClassOk cls I) (h : KInv I s) (hs : Step cls s op out t) (p j : ℕ) :
    (t.conts p = .down j → s.conts p = .down j ∨ op = .down j) ∧
    (s.conts p = .down j → t.conts p = .down j ∨ (∃ mem, op = .fork p mem) ∨
      op = .resume ∧ p = s.current) := by
  by_cases hop : op = .schedule
  · subst hop
    obtain ⟨-, sch, ht⟩ := (schedule_spec hc h).ok out t hs.2
    rw [ht.eq]
    exact ⟨.inl, .inl⟩
  · have hk := (downKept_frame cls op).exec hop s out t hs.2
    refine ⟨(hk.2 p j).1, fun hp => ?_⟩
    by_cases hpc : p = s.current
    · subst hpc
      -- outside `resume`, `schedule` and the interrupt the current process is not in `down`
      cases op with
      | tick char =>
        have htick : Comp.Within SameConts (exec cls (.tick char)) :=
          (sameConts_frame cls).still trivial
        rw [(htick s out t hs.2).2]
        exact .inl hp
      | resume => exact .inr (.inr ⟨rfl, rfl⟩)
      | schedule => exact absurd rfl hop
      | yield => cases hp.symm.trans hs.1.2
      | _ => cases hp.symm.trans hs.1.2.1
    · exact ((hk.2 p j).2 hpc hp).imp_right .inl

/-! ## Relations about the table of processes -/

/-- The calls that use no timer, reap no child and switch to no other process. -/
def Op.Plain : Op → Prop
  | .sleep _ | .wait _ | .resume | .schedule | .tick _ => False
  | _ => True

/-- A relation that holds for changes of a process that keep its pid, and for changes outside the
processes, the timers and the list of the processes. -/
structure ProcFrame (R : Kernel → Kernel → Prop) : Prop where
  modProc : ∀ s p f, (∀ q : Proc, (f q).pid = q.pid) → R s (s.modProc p f)
  rest : ∀ s t, t.procs = s.procs → t.timers = s.timers → t.procList = s.procList →
    t.nrProcess = s.nrProcess → t.idleproc = s.idleproc → R s t

namespace ProcFrame

open Comp

lemma modify (hx : ProcFrame R) {f : Kernel → Kernel}
    (h : ∀ s, (f s).procs = s.procs ∧ (f s).timers = s.timers ∧ (f s).procList = s.procList ∧
      (f s).nrProcess = s.nrProcess ∧ (f s).idleproc = s.idleproc) :
    Within R (Comp.modify f : Kern Unit) :=
  .modify fun s => hx.rest s (f s) (h s).1 (h s).2.1 (h s).2.2.1 (h s).2.2.2.1 (h s).2.2.2.2

lemma call (hx : ProcFrame R) (cls : SchedClass) : CallFrame cls R :=
  ⟨hx.modProc, fun _ _ _ _ => hx.rest _ _ rfl rfl rfl rfl rfl,
    fun _ _ _ _ => hx.rest _ _ rfl rfl rfl rfl rfl⟩

variable [Std.Refl R] [IsTrans Kernel R]

lemma semDown (hx : ProcFrame R) (cls : SchedClass) (k : ℕ) : Within R (semDown k) :=
  .read_bind fun _ => .ite
    (.bind (hx.modify fun _ => ⟨rfl, rfl, rfl, rfl, rfl⟩) fun _ => .pure _)
    (.bind ((hx.call cls).waitCurrentSet _ _) fun _ =>
      .bind (hx.modify fun _ => ⟨rfl, rfl, rfl, rfl, rfl⟩) fun _ => .pure _)

lemma doExit (hx : ProcFrame R) (code : ℤ) : Within R (doExit cls code) := by
  refine .read_bind fun s => .ensure_bind <|
    .ensure_bind <| .bind (getProc_within _) fun q =>
    .bind (.modify fun s => ?_) fun _ => .bind ((hx.call cls).wakeParent _)
      fun _ => (hx.call cls).reparent _
  exact IsTrans.trans _ (s.modProc s.current (Proc.die code)) _ (hx.modProc s _ _ fun _ => rfl)
    (hx.rest _ _ rfl rfl rfl rfl rfl)

/-- **The calls that use no timer and neither create nor reap a process keep to the relation.** -/
lemma plain (hx : ProcFrame R) (hop : op.Plain) (hf : ∀ new mem, op ≠ .fork new mem) :
    Within R (exec cls op) := by
  cases op with
  | fork new mem => exact absurd rfl (hf new mem)
  | exit code => exact .bind_pure (hx.doExit code)
  | kill pid => exact .bind_pure ((hx.call cls).doKill pid)
  | yield => exact .bind (hx.modify fun _ => ⟨rfl, rfl, rfl, rfl, rfl⟩) fun _ => .pure _
  | down k =>
    exact .bind (hx.semDown cls k) fun _ => .bind_pure .read
  | tryDown k =>
    exact .bind ((hx.call cls).semTryDown k) fun _ => .bind_pure .read
  | up k => exact .bind_pure ((hx.call cls).semUp k)
  | stdin =>
    exact .bind (.bind ((hx.call cls).waitCurrentSet _ _) fun _ =>
      hx.modify fun _ => ⟨rfl, rfl, rfl, rfl, rfl⟩) fun _ => .pure _
  | setPriority v =>
    exact .bind (hx.modify fun _ => ⟨rfl, rfl, rfl, rfl, rfl⟩) fun _ => .pure _
  | wait pid | sleep time | resume | schedule | tick char => cases hop

end ProcFrame

end Ucore
