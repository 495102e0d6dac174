import Ucore.Process.Run
import Ucore.Process.Timers

set_option autoImplicit false

/-!
# Timers in runs of the kernel

A pending timer belongs to a process in `do_sleep`: it is added there, and it is deleted before the
process returns, also when it has been killed. So the process of a timer that expires exists and is
no zombie, and the timer interrupt never panics.

## Main definitions

* `Tame` — a change that leaves the timers and loses no process.
* `Sleepers` — the timers of the kernel belong to processes in `do_sleep`.
* `Wakeable` — a process that `run_timer_list` can wake.

## Main results

* `Step.sleepers` — every step keeps the invariant.
* `runTimerList_returns` — `run_timer_list` returns.
* `timers_fire_on_time` — a timer expires with the `n`-th tick after it has been added with
  `expires = n`.
-/

namespace Ucore

open Function Comp List

/-! ## Steps that leave the timers -/

/-- The timers are the same and no process has been freed. -/
def Tame (s t : Kernel) : Prop := t.timers = s.timers ∧ ∀ p, s.procs p ≠ none → t.procs p ≠ none

instance : Std.Refl Tame := ⟨fun _ => ⟨rfl, fun _ h => h⟩⟩

instance : IsTrans Kernel Tame :=
    ⟨fun _ _ _ h h' => ⟨h'.1.trans h.1, fun p hp => h'.2 p (h.2 p hp)⟩⟩

lemma Tame.of_eq {s t : Kernel} (h : t.timers = s.timers) (h' : t.procs = s.procs) : Tame s t :=
  ⟨h, fun p hp => by rwa [h']⟩

lemma tame_frame : ProcFrame Tame where
  modProc _ _ _ _ := ⟨rfl, fun _ hx => mt modProc_eq_none.mp hx⟩
  rest _ _ h h' _ _ _ := .of_eq h' h

/-- `do_fork` leaves the timers. -/
lemma Tame.doFork (cls : SchedClass) (new : ℕ) (mem : ForkMem) :
    Within Tame (doFork cls new mem) := by
  refine .read_bind fun s => .ite (.pure _)
    (.ite (.pure _) ?_)
  refine .bind (getProc_within _) fun q => .ensure_bind <|
    .ite (.pure _) ?_
  refine .bind (.modify fun s => ⟨rfl, fun p hp => ?_⟩) fun _ =>
    .bind ?_ fun pid => ?_
  · by_cases h : p = new
    · subst h
      simp
    · simpa [h] using hp
  · refine .read_bind fun s => ?_
    cases getPid (s.procList.filterMap s.pidOf) s.lastPid s.nextSafe with
    | none => exact .halt _
    | some r =>
      exact .bind_pure (.modify fun s => ⟨rfl, fun _ hx => mt modProc_eq_none.mp hx⟩)
  · exact .bind (.modify fun _ => .of_eq rfl rfl) fun _ =>
      .bind (.modify fun s => ⟨rfl, fun _ hx => mt modProc_eq_none.mp hx⟩)
        fun _ => .bind_pure ((tame_frame.call cls).wakeupProc new)

/-- **The calls that neither use a timer nor reap a child** leave the timers and lose no process. -/
lemma Tame.plain (cls : SchedClass) {op : Op} (hop : op.Plain) : Within Tame (exec cls op) := by
  by_cases hf : ∃ new mem, op = .fork new mem
  · obtain ⟨new, mem, rfl⟩ := hf
    exact .bind_pure (.doFork cls new mem)
  · exact tame_frame.plain hop fun new mem e => hf ⟨new, mem, e⟩

/-! ## Where the processes go on -/

/-- Only the current process, or a new one, goes elsewhere. -/
def ContKept (op : Op) (s t : Kernel) : Prop :=
  t.current = s.current ∧
    ∀ p, p ≠ s.current → t.conts p = s.conts p ∨ ∃ mem, op = .fork p mem

instance (op : Op) : Std.Refl (ContKept op) := ⟨fun _ => ⟨rfl, fun _ _ => Or.inl rfl⟩⟩

instance (op : Op) : IsTrans Kernel (ContKept op) := by
  refine ⟨fun s t u h h' => ⟨h'.1.trans h.1, fun p hp => ?_⟩⟩
  rcases h.2 p hp with h1 | h1
  · rcases h'.2 p (h.1 ▸ hp) with h2 | h2
    · exact Or.inl (h2.trans h1)
    · exact Or.inr h2
  · exact Or.inr h1

lemma contKept_frame (cls : SchedClass) (op : Op) : ContFrame cls (ContKept op) op where
  rest _ _ _ h h' := ⟨h', fun p _ => .inl (congrFun h p)⟩
  enqueue _ _ _ _ := ⟨rfl, fun _ _ => .inl rfl⟩
  procTick _ _ _ _ := ⟨rfl, fun _ _ => .inl rfl⟩
  ent _ _ _ := ⟨rfl, fun _ _ => .inl rfl⟩
  conts s t c _ _ hcur ht := ⟨hcur, fun p hp => .inl (by rw [ht, update_of_ne hp])⟩
  fork s t new mem hop _ hcur ht := by
    refine ⟨hcur, fun p hp => ?_⟩
    by_cases hn : p = new
    · subst hn
      exact .inr ⟨mem, hop⟩
    · exact .inl (by rw [ht, update_of_ne hn])

/-! ## The invariant -/

/-- **A pending timer belongs to a process in `do_sleep`**, which has named it after itself. -/
structure Sleepers (s : Kernel) : Prop where
  ok : TimersOk s.timers
  sleep : ∀ id n p, pending s.timers id = some (n, p) →
    id = p ∧ s.procs p ≠ none ∧ s.conts p = .sleep

variable {cls : SchedClass} {I : SchedState → Prop}

section Sleepers

variable {s t : Kernel} {op : Op} {out : Outcome}

/-- **A step that leaves the timers** of processes other than zombies, if the current process is not
in `do_sleep`. -/
lemma Sleepers.keep (h : Sleepers s) (hk : KInv I s) (hn : Enabled s op) (ht : t.timers = s.timers)
    (hp : ∀ p, s.procs p ≠ none → t.procs p ≠ none ∨ s.Is p .zombie) (hc : ContKept op s t)
    (hcur : s.conts s.current ≠ .sleep) : Sleepers t := by
  refine ⟨ht ▸ h.ok, fun id n p hid => ?_⟩
  rw [ht] at hid
  obtain ⟨h1, h2, h3⟩ := h.sleep id n p hid
  have hpc : p ≠ s.current := by
    rintro rfl
    exact hcur h3
  refine ⟨h1, (hp p h2).resolve_right fun hz => ?_, ?_⟩
  · obtain ⟨q, hq, hs⟩ := hz
    cases h3.symm.trans ((hk.proc p q hq).of_zombie hs).2
  · rcases hc.2 p hpc with e | ⟨mem, rfl⟩
    · exact e.trans h3
    · exact absurd (hk.used p h2) hn.2.2.2

/-- `do_wait` leaves the timers, and only a zombie is freed. -/
lemma doWait_post (pid : ℤ) (h : Links none s) :
    Post (doWait pid) s fun _ t => t.timers = s.timers ∧
      ∀ p, s.procs p ≠ none → t.procs p ≠ none ∨ s.Is p .zombie := by
  refine .read_bind ?_
  cases hw : s.waitFor pid with
  | zombie p =>
    obtain ⟨q, hq, hz, hpar⟩ := h.waitFor_zombie hw
    refine .bind (R := fun _ v => v = (s.unlinked p q.pid).freed p)
      (fun code v e => ((reap_spec hq hpar).ok code v e).2) fun _ v hv => ?_
    subst hv
    refine .modify_bind (.pure ⟨rfl, fun x hx => ?_⟩)
    by_cases hxp : x = p
    · subst hxp
      exact .inr ⟨q, hq, hz⟩
    · refine .inl ?_
      rw [freed_of_ne hxp]
      exact mt modProc_eq_none.mp hx
  | kids =>
    exact .modify_bind (.modify_bind (.pure
      ⟨rfl, fun x hx => .inl (mt modProc_eq_none.mp hx)⟩))
  | none => exact .modify_bind (.pure ⟨rfl, fun x hx => .inl hx⟩)

/-- A timer interrupt. -/
lemma Sleepers.tick {char : Bool} (h : Sleepers s) (hs : exec cls (.tick char) s = .ok (out, t)) :
    Sleepers t := by
  have hpost : Post (exec cls (.tick char)) s fun _ u => u.timers = ticked s.timers ∧
      ∀ p, s.procs p ≠ none → u.procs p ≠ none := by
    refine (runTimerList_post cls s).bind fun _ u hu => ?_
    refine ((tame_frame.call cls).stdinArrived char u).bind
      fun _ v hv => .pure ⟨hv.1.trans hu.1, fun p hp => ?_⟩
    refine hv.2 p ?_
    by_cases hex : ∃ x ∈ dueTimers s.timers, x.proc = p
    · obtain ⟨x, hx, rfl⟩ := hex
      exact (hu.2.1 x hx).ne_none
    · rw [hu.2.2 p fun x hx e => hex ⟨x, hx, e⟩]
      exact hp
  have hconts : Within SameConts (exec cls (.tick char)) := (sameConts_frame cls).still trivial
  obtain ⟨h1, h2⟩ := hpost out t hs
  refine ⟨h1 ▸ h.ok.ticked, fun id n p hid => ?_⟩
  rw [h1, pending_ticked h.ok] at hid
  obtain ⟨r, hr, e⟩ := Option.bind_eq_some_iff.mp hid
  split_ifs at e
  obtain ⟨-, e⟩ := Prod.mk.inj (Option.some.inj e)
  obtain ⟨h3, h4, h5⟩ := h.sleep id r.1 p (by rw [hr, ← e])
  refine ⟨h3, h2 p h4, ?_⟩
  rw [(hconts s out t hs).2]
  exact h5

/-- The current process goes to sleep. -/
lemma Sleepers.doSleep {time : ℕ} (h : Sleepers s) (hk : KInv I s)
    (hs : doSleep time s = .ok ((), t)) : Sleepers t := by
  unfold Ucore.doSleep at hs
  by_cases h0 : time = 0
  · rw [if_pos h0] at hs
    cases hs
    exact h
  · rw [if_neg h0, read_bind_apply, modify_bind_apply] at hs
    obtain ⟨_, u, e, hs⟩ := bind_eq_ok.mp hs
    obtain ⟨h1, h2, rfl⟩ := addTimer_ok e
    change ∀ x ∈ s.timers, x.id ≠ s.current at h2
    cases hs
    refine ⟨h.ok.insert h1 h2, fun id n p hid => ?_⟩
    change pending (insertTimer ⟨s.current, time, s.current⟩ s.timers) id = _ at hid
    rw [pending_insertTimer ⟨s.current, time, s.current⟩ h2] at hid
    change id = p ∧ (s.modProc s.current _).procs p ≠ none ∧ update s.conts s.current .sleep p = _
    rw [ne_eq, modProc_eq_none]
    by_cases hid' : id = s.current
    · subst hid'
      rw [update_self] at hid
      obtain ⟨-, rfl⟩ := Prod.mk.inj (Option.some.inj hid)
      exact ⟨rfl, hk.cur, update_self ..⟩
    · rw [update_of_ne hid'] at hid
      obtain ⟨rfl, h4, h5⟩ := h.sleep id n p hid
      exact ⟨rfl, h4, by rw [update_of_ne hid', h5]⟩

/-- A process returns from `do_sleep`. -/
lemma Sleepers.doSleepResume (h : Sleepers s) (hs : doSleepResume s = .ok ((), t)) :
    Sleepers t := by
  cases hs
  refine ⟨h.ok.remove _, fun id n p hid => ?_⟩
  rw [pending_removeTimer h.ok.nodup] at hid
  have hne : id ≠ s.current := by
    rintro rfl
    rw [update_self] at hid
    cases hid
  rw [update_of_ne hne] at hid
  obtain ⟨rfl, h4, h5⟩ := h.sleep id n p hid
  refine ⟨rfl, h4, ?_⟩
  change update s.conts s.current .run id = _
  rw [update_of_ne hne, h5]

/-- `do_wait` after `schedule` leaves the timers, and only a zombie is freed. -/
lemma doWaitResume_post (pid : ℤ) (h : Links none s) :
    Post (doWaitResume cls pid) s fun _ t => t.timers = s.timers ∧
      ∀ p, s.procs p ≠ none → t.procs p ≠ none ∨ s.Is p .zombie := by
  refine .read_bind ((getProc_post _ _).bind fun q v hv => ?_)
  obtain ⟨rfl, -⟩ := hv
  refine .ite (fun _ => ?_) fun _ => doWait_post pid h
  exact (tame_frame.doExit _ _).bind fun _ w hw => .pure ⟨hw.1, fun p hp => .inl (hw.2 p hp)⟩

/-- The current process goes on. -/
lemma Sleepers.resume (h : Sleepers s) (hl : Live I s) (hs : Step cls s .resume out t) :
    Sleepers t := by
  have hc := (contKept_frame cls .resume).exec (by simp) s out t hs.2
  have hexec : Ucore.resume cls s = .ok (out, t) := hs.2
  unfold Ucore.resume at hexec
  rw [read_bind_apply] at hexec
  have keep : s.conts s.current ≠ .sleep → t.timers = s.timers →
      (∀ p, s.procs p ≠ none → t.procs p ≠ none ∨ s.Is p .zombie) → Sleepers t := fun h1 h2 h3 =>
    h.keep hl.kinv hs.1 h2 h3 hc h1
  cases hcont : s.conts s.current with
  | run => exact absurd hcont hs.1.2
  | down k =>
    rw [hcont] at hexec
    have hw : Within Tame (semDownResume k) :=
      .bind ((tame_frame.call cls).waitCurrentDel _) fun _ => .read_bind fun _ =>
        .ensure_bind <| .modify fun _ => .of_eq rfl rfl
    obtain ⟨_, u, e, e'⟩ := bind_eq_ok.mp hexec
    cases e'
    exact keep (by simp [hcont]) (hw s _ _ e).1 fun p hp => .inl ((hw s _ _ e).2 p hp)
  | wait pid =>
    rw [hcont] at hexec
    obtain ⟨_, u, e, e'⟩ := bind_eq_ok.mp hexec
    cases e'
    obtain ⟨h1, h2⟩ := doWaitResume_post pid hl.family.toLinks _ _ e
    exact keep (by simp [hcont]) h1 h2
  | sleep =>
    rw [hcont] at hexec
    obtain ⟨_, u, e, e'⟩ := bind_eq_ok.mp hexec
    cases e'
    exact h.doSleepResume e
  | kbd =>
    rw [hcont] at hexec
    have hw : Within Tame stdinResume :=
      .bind ((tame_frame.call cls).waitCurrentDel _) fun _ => .read_bind fun _ =>
        .bind (.modify fun _ => .of_eq rfl rfl) fun _ => .pure _
    obtain ⟨_, u, e, e'⟩ := bind_eq_ok.mp hexec
    cases e'
    exact keep (by simp [hcont]) (hw s _ _ e).1 fun p hp => .inl ((hw s _ _ e).2 p hp)
  | exited =>
    rw [hcont] at hexec
    cases hexec

/-- **Every step keeps the invariant.** -/
lemma Step.sleepers (hcls : ClassOk cls I) (hl : Live I s) (h : Sleepers s)
    (hs : Step cls s op out t) : Sleepers t := by
  have hframe : op ≠ .schedule → ContKept op s t := fun hop =>
    (contKept_frame cls op).exec hop s out t hs.2
  have hplain : op.Plain → s.conts s.current = .run → Sleepers t := fun hop hcur => by
    have ht := Tame.plain cls hop s out t hs.2
    refine h.keep hl.kinv hs.1 ht.1 (fun p hp => .inl (ht.2 p hp)) (hframe ?_) ?_
    · rintro rfl
      cases hop
    · rw [hcur]
      exact fun e => Cont.noConfusion e
  cases op with
  | schedule =>
    obtain ⟨-, sch, ht⟩ := (schedule_spec hcls hl.kinv).ok out t hs.2
    rw [ht.eq]
    exact ⟨h.ok, h.sleep⟩
  | tick char => exact h.tick hs.2
  | sleep time =>
    obtain ⟨_, u, e, e'⟩ := bind_eq_ok.mp hs.2
    cases e'
    exact h.doSleep hl.kinv e
  | resume => exact h.resume hl hs
  | wait pid =>
    obtain ⟨_, u, e, e'⟩ := bind_eq_ok.mp hs.2
    cases e'
    obtain ⟨h1, h2⟩ := doWait_post pid hl.family.toLinks _ _ e
    exact h.keep hl.kinv hs.1 h1 h2 (hframe (by simp)) (by simp [hs.1.2.1])
  | yield => exact hplain trivial hs.1.2
  | _ => exact hplain trivial hs.1.2.1

/-- **The invariants hold along every run.** -/
lemma Run.sleepers (hcls : ClassOk cls I) {log : List Event} (hr : Run cls s log t) (hl : Live I s)
    (h : Sleepers s) : Sleepers t := by
  induction hr with
  | nil => exact h
  | cons hs _ ih => exact ih (hs.advances hcls hl).live (hs.sleepers hcls hl h)

end Sleepers

/-! ## `run_timer_list` returns -/

/-- **A process that `run_timer_list` can wake.** -/
def Wakeable (s : Kernel) (p : ℕ) : Prop :=
  ∃ q, s.procs p = some q ∧ q.state ≠ .zombie ∧
    (q.waitState = 0 ∨ q.waitState &&& wtInterrupted ≠ 0)

/-- The panics of the scheduling class. -/
def OfSched : KPanic → Prop
  | .sched _ => True
  | _ => False

section Returns

variable {s : Kernel} {p : ℕ}

lemma Wakeable.of_proc {q : Proc} (h : Wakeable s p) (hq : s.procs p = some q) :
    q.state ≠ .zombie ∧ (q.waitState = 0 ∨ q.waitState &&& wtInterrupted ≠ 0) := by
  obtain ⟨q', hq', hw⟩ := h
  cases hq.symm.trans hq'
  exact hw

lemma Wakeable.ne_none (h : Wakeable s p) : s.procs p ≠ none := by
  obtain ⟨q, hq, -⟩ := h
  simp [hq]

/-- A process in `do_sleep` can be woken. -/
lemma KInv.wakeable (h : KInv I s) (hp : s.procs p ≠ none) (hc : s.conts p = .sleep) :
    Wakeable s p := by
  obtain ⟨q, hq⟩ := Option.ne_none_iff_exists'.mp hp
  have hok := h.proc p q hq
  rw [hc] at hok
  refine ⟨q, hq, fun hz => ?_, ?_⟩
  · cases (hok.of_zombie hz).2
  · cases hs : q.state with
    | uninit => exact absurd hs hok.ne_uninit
    | runnable => exact .inl (hok.of_runnable hs).1
    | zombie => cases (hok.of_zombie hs).2
    | sleeping =>
      refine .inr ?_
      rw [← Option.some.inj (hok.of_sleeping hs)]
      decide

section

variable {Q : KPanic → Prop} (hQ : ∀ e, Q (.sched e))
include hQ

lemma liftSched_panics {m : Sch Unit} : Spec (liftSched m) s Q fun _ t => t.procs = s.procs := by
  cases e : m s.sched with
  | ok r => exact .of_ok (a := r.1) (t := { s with sched := r.2 }) (by rw [liftSched, e]) rfl
  | error e' => exact .of_error (p := KPanic.sched e') (by rw [liftSched, e]) (hQ e')

/-- `wakeup_proc` can be called for such a process, and the others are not changed. -/
lemma wakeupProc_panics (hq : ¬Wakeable s p → ∀ d ≠ .timerZero, Q d) :
    Spec (wakeupProc cls p) s Q fun _ t => ∀ x, Wakeable s x → Wakeable t x := by
  have hwake : ∀ {t : Kernel}, t.procs = (s.modProc p Proc.wake).procs →
      ∀ x, Wakeable s x → Wakeable t x := by
    intro t ht x hx
    by_cases hxp : x = p
    · subst hxp
      obtain ⟨q, hq, -⟩ := hx
      exact ⟨q.wake, ht ▸ modProc_self hq, by simp [Proc.wake], .inl rfl⟩
    · unfold Wakeable at hx ⊢
      rwa [ht, modProc_of_ne hxp]
  refine getProc_bind (fun hn => ?_) fun q hp => .ensure_bind (fun hn => ?_) fun _ => ?_
  · exact hq (fun h => h.ne_none hn) _ (by simp)
  · exact hq (fun h => hn (h.of_proc hp).1) _ (by simp)
  refine .ite (fun _ => ?_) fun _ => .pure fun _ hx => hx
  refine .modify_bind (.read_bind (.ite (fun _ => ?_) fun _ => .pure (hwake rfl)))
  exact .read_bind (.ite (fun _ => (liftSched_panics hQ).mono fun _ u hu => hwake hu)
    fun _ => .pure (hwake rfl))

/-- **The loop of `run_timer_list`** does not panic by itself. -/
lemma fireTimers_panics (l : List Timer)
    (hq : (∃ x ∈ l, ¬Wakeable s x.proc) → ∀ d ≠ .timerZero, Q d) :
    Spec (fireTimers cls l) s Q fun _ _ => True := by
  induction l generalizing s with
  | nil => exact .pure trivial
  | cons timer l ih =>
    have hq' : ¬Wakeable s timer.proc → ∀ d ≠ .timerZero, Q d := fun h =>
      hq ⟨timer, mem_cons_self, h⟩
    refine .ite (fun _ => ?_) fun _ => .pure trivial
    refine getProc_bind (fun hn => ?_) fun q hp => .ensure_bind (fun hn => ?_) fun _ => ?_
    · exact hq' (fun h => h.ne_none hn) _ (by simp)
    · exact hq' (fun h => hn (h.of_proc hp).2) _ (by simp)
    refine (wakeupProc_panics hQ hq').bind fun _ u hu => .modify_bind (ih ?_)
    rintro ⟨x, hx, hn⟩
    exact hq ⟨x, mem_cons_of_mem _ hx, fun h => hn (hu _ h)⟩

/-- **`run_timer_list`** never fails the assertion on the first timer, whatever the processes are,
and it does not panic by itself if the processes of the timers can be woken. -/
lemma TimersOk.runTimerList_panics (cls : SchedClass) (h : TimersOk s.timers)
    (hq : (∃ x ∈ s.timers, ¬Wakeable s x.proc) → ∀ d ≠ .timerZero, Q d) :
    Spec (runTimerList cls) s Q fun _ _ => True := by
  have hrun : Spec (runTimers cls) s Q fun _ _ => True := by
    refine .read_bind ?_
    cases hl : s.timers with
    | nil => exact .pure trivial
    | cons timer l =>
      refine .ensure_bind (fun hn => absurd ?_ hn) fun _ => .modify_bind ?_
      · exact h.head timer (by rw [hl]; rfl)
      · refine fireTimers_panics hQ _ ?_
        rintro ⟨x, hx, hn⟩
        rw [hl] at hq
        rcases mem_cons.mp hx with rfl | hx
        · exact hq ⟨timer, mem_cons_self, hn⟩
        · exact hq ⟨x, mem_cons_of_mem _ hx, hn⟩
  refine hrun.bind fun _ t _ =>
    .read_bind (.read_bind (.ite (fun _ => ?_) fun _ => .modify trivial))
  exact (liftSched_panics hQ).mono fun _ _ _ => trivial

end

/-- The timers of the list are pending. -/
lemma TimersOk.pending_of_mem {l : List Timer} (h : TimersOk l) {x : Timer} (hx : x ∈ l) :
    ∃ n, pending l x.id = some (n, x.proc) := by
  have hn := h.nodup
  clear h
  induction l with
  | nil => cases hx
  | cons a l ih =>
    rw [map_cons, nodup_cons] at hn
    rcases mem_cons.mp hx with rfl | hx
    · exact ⟨x.expires, pending_cons_self x l⟩
    · obtain ⟨n, e⟩ := ih hx hn.2
      have hne : a.id ≠ x.id := fun he => hn.1 (mem_map.mpr ⟨x, hx, he.symm⟩)
      rw [pending_cons_of_ne hne, e]
      exact ⟨_, rfl⟩

/-- **`run_timer_list` returns.** Under the invariants of the kernel the scheduling class does not
panic, and the processes of the timers can be woken. -/
lemma runTimerList_returns (hcls : ClassOk cls I) (h : KInv I s) (hs : Sleepers s) :
    Returns (runTimerList cls) s fun _ _ => True := by
  have h1 := runTimerList_spec hcls h
  have h2 := hs.ok.runTimerList_panics (Q := OfSched) (fun _ => trivial) cls <| by
    rintro ⟨x, hx, hn⟩
    obtain ⟨n, hx⟩ := hs.ok.pending_of_mem hx
    obtain ⟨-, h3, h4⟩ := hs.sleep _ _ _ hx
    exact absurd (h.wakeable h3 h4) hn
  cases e : runTimerList cls s with
  | ok r => exact ⟨r.1, r.2, e, trivial⟩
  | error d =>
    have h3 := h1.panic d e
    have h4 := h2.panic d e
    cases d <;> first | exact absurd h3 id | exact absurd h4 id

end Returns

/-! ## The result -/

section Result

variable {s t u v w : Kernel} {ops : List TimerOp} {timer : Timer}

/-- **The tick with which a timer expires.** -/
lemma TimersOk.expire (h : TimersOk s.timers) {id p : ℕ} (hp : pending s.timers id = some (1, p))
    (hs : runTimerList cls s = .ok ((), t)) : pending t.timers id = none ∧ t.Is p .runnable := by
  obtain ⟨h1, h2, -⟩ := runTimerList_post cls s () t hs
  refine ⟨?_, ?_⟩
  · rw [h1, pending_ticked h, hp]
    rfl
  · obtain ⟨x, hx, rfl⟩ := (due_iff h p).mpr ⟨id, hp⟩
    exact h2 x hx

lemma TimersOk.added (h : TimersOk s.timers) (hs : addTimer timer s = .ok ((), t)) :
    TimersOk t.timers ∧ pending t.timers timer.id = some (timer.expires, timer.proc) := by
  obtain ⟨h0, h1, rfl⟩ := addTimer_ok hs
  refine ⟨h.insert h0 h1, ?_⟩
  rw [pending_insertTimer _ h1, update_self]

/-- **Timers fire exactly on time.**

From a state without timers, in every interleaving of the functions on timers and anything else:
a timer that has been added with `expires = n` and is not deleted has `n - k` ticks left after `k <
n` ticks, and the next tick after `n - 1` ones removes it and makes its process runnable; a tick
changes no process for which no timer has exactly one tick left; deleting a timer does not change
what is left for the others; and the assertion on the first timer does not fail.

In every state that the kernel reaches, `run_timer_list` returns. -/
theorem timers_fire_on_time (S : Scheduler) :
    (∀ (cls : SchedClass) (s t : Kernel) (ops : List TimerOp), s.timers = [] →
      TimerRun cls s ops t →
      runTimerList cls t ≠ .error .timerZero ∧
      (∀ timer u, addTimer timer t = .ok ((), u) → ∀ ops' v, TimerRun cls u ops' v →
        .del timer.id ∉ ops' → ops'.count .tick < timer.expires →
        pending v.timers timer.id = some (timer.expires - ops'.count .tick, timer.proc) ∧
        ∀ w, runTimerList cls v = .ok ((), w) → ops'.count .tick + 1 = timer.expires →
          pending w.timers timer.id = none ∧ w.Is timer.proc .runnable) ∧
      (∀ u, runTimerList cls t = .ok ((), u) → ∀ p, (∀ id, pending t.timers id ≠ some (1, p)) →
        u.procs p = t.procs p) ∧
      ∀ id u, delTimer id t = .ok ((), u) → ∀ id', id' ≠ id →
        pending u.timers id' = pending t.timers id') ∧
    ∀ (semValue : ℕ → BitVec 32) (log : List Event) (s : Kernel),
      Run S.cls (S.boot semValue) log s → ∃ t, runTimerList S.cls s = .ok ((), t) := by
  refine ⟨fun cls s t ops h0 hr => ?_, fun semValue log s hr => ?_⟩
  · have hempty : TimersOk s.timers := by
      rw [h0]
      exact ⟨nodup_nil, fun _ h => by cases h⟩
    have hok := hr.ok hempty
    have hne := hok.runTimerList_panics (Q := (· ≠ .timerZero)) (by simp) cls fun _ _ h => h
    refine ⟨fun e => hne.panic _ e rfl, fun timer u hadd ops' v hr' hdel hlt => ?_,
      fun u hs p hp => ?_, fun id u hs id' hne => ?_⟩
    · obtain ⟨h1, h2⟩ := hok.added hadd
      have h3 := hr'.pending h1 h2 hdel hlt
      refine ⟨h3, fun w hw hn => (hr'.ok h1).expire ?_ hw⟩
      rw [h3]
      congr 2
      omega
    · refine (runTimerList_post cls t () u hs).2.2 p fun x hx e => ?_
      obtain ⟨id, hid⟩ := (due_iff hok p).mp ⟨x, hx, e⟩
      exact hp id hid
    · obtain rfl := delTimer_ok hs
      rw [pending_removeTimer hok.nodup, update_of_ne hne]
  · have hboot : Sleepers (S.boot semValue) :=
      ⟨⟨nodup_nil, fun _ h => by cases h⟩, fun _ _ _ h => by cases h⟩
    have hl : Live S.Inv (S.boot semValue) := boot_live S.inv S.runList
    obtain ⟨_, t, e, -⟩ := runTimerList_returns S.ok (S.live hr).kinv (hr.sleepers S.ok hl hboot)
    exact ⟨t, e⟩

end Result

/-- The kernel after `proc_init`, with a timer of `initproc` that has one tick left. -/
def oneTimer : Kernel := { rrScheduler.boot fun _ => 0 with timers := [⟨5, 1, initAddr⟩] }

/-- Another timer with the same time is added and deleted; the first one fires with the next
tick. -/
theorem timers_fire_on_time_oneTimer : ∃ w, runTimerList rrScheduler.cls oneTimer = .ok ((), w) ∧
    pending w.timers 5 = none ∧ w.Is initAddr .runnable := by
  obtain ⟨w, e⟩ : ∃ w, runTimerList rrScheduler.cls oneTimer = .ok ((), w) :=
    exists_of_result (by decide +kernel)
  have hadd : addTimer ⟨5, 1, initAddr⟩ (rrScheduler.boot fun _ => 0) = .ok ((), oneTimer) := rfl
  have hrun : TimerRun rrScheduler.cls oneTimer [.add ⟨6, 1, idleAddr⟩, .del 6] oneTimer :=
    .cons (t := { oneTimer with timers := [⟨5, 1, initAddr⟩, ⟨6, 0, idleAddr⟩] }) rfl
      (.cons rfl (.nil _))
  have h := ((timers_fire_on_time rrScheduler).1 rrScheduler.cls _ _ [] rfl (.nil _)).2.1
    _ _ hadd _ _ hrun (by decide) (by decide)
  exact ⟨w, e, h.2 w e (by decide)⟩

end Ucore
