import Ucore.Process.Run

set_option autoImplicit false

/-!
# The protocol of `do_exit` and `do_wait`

A process that has exited is reaped at most once, as a zombie and by the process that is its parent
at that time, which gets its exit code; and no process sleeps in `do_wait` while a child that it
waits for is a zombie.

An address names one process of a run: `do_fork` is given addresses that have not been used before.

## Main definitions

* `reaps` — the processes reaped in a run.

## Main results

* `exit_wait_protocol` — the protocol, for every run.
-/

namespace Ucore

/-- The processes reaped in a run, in their order. -/
def reaps (log : List Event) : List ℕ :=
  log.filterMap fun e => match e.out with
    | .reaped p _ => some p
    | _ => none

lemma reaps_cons (e : Event) (log : List Event) :
    (∃ p code, e.out = .reaped p code ∧ reaps (e :: log) = p :: reaps log) ∨
      (∀ p code, e.out ≠ .reaped p code) ∧ reaps (e :: log) = reaps log := by
  obtain ⟨proc, op, out⟩ := e
  cases out with
  | reaped p code => exact .inl ⟨p, code, rfl, rfl⟩
  | none | downed p => exact .inr ⟨fun p code => by simp, rfl⟩

section Runs

variable {cls : SchedClass} {I : SchedState → Prop} {s t : Kernel} {log : List Event}

lemma Reaped.gone {p : ℕ} {code : ℤ} (h : Reaped s p code t) (hs : KInv I s) (hf : KeepsFree s t) :
    p ∈ t.used ∧ t.procs p = none := by
  obtain ⟨q, hq, -⟩ := h.zombie
  exact ⟨hf.used (hs.used p (by simp [hq])), h.freed⟩

/-- **No process is reaped twice**, and none that was gone when the run began.

**Proof sketch.** Induction on the run. A process that the first step reaps is gone afterwards, so
by the induction hypothesis the rest of the run does not reap it; and what is gone stays gone. -/
lemma Run.reaps_nodup (hc : ClassOk cls I) (h : Live I s) (hr : Run cls s log t) :
    (reaps log).Nodup ∧ ∀ p ∈ reaps log, ¬(p ∈ s.used ∧ s.procs p = none) := by
  induction hr with
  | nil => exact ⟨List.nodup_nil, fun p hp => absurd hp List.not_mem_nil⟩
  | @cons s u t op out log hs _ ih =>
    have ha := hs.advances hc h
    obtain ⟨h1, h2⟩ := ih ha.live
    have hkeep : ∀ p ∈ reaps log, ¬(p ∈ s.used ∧ s.procs p = none) := fun p hp hgone =>
      h2 p hp ⟨ha.free.used hgone.1, ha.free.free p hgone.1 hgone.2⟩
    rcases reaps_cons ⟨s.current, op, out⟩ log with ⟨p, code, ho, e⟩ | ⟨-, e⟩
    · have hreap := ha.reaped p code ho
      rw [e]
      refine ⟨List.nodup_cons.mpr ⟨fun hp => h2 p hp (hreap.gone h.kinv ha.free), h1⟩,
        fun x hx => ?_⟩
      rcases List.mem_cons.mp hx with rfl | hx
      · rintro ⟨-, hnone⟩
        obtain ⟨q, hq, -⟩ := hreap.zombie
        rw [hnone] at hq
        cases hq
      · exact hkeep x hx
    · rw [e]
      exact ⟨h1, hkeep⟩

lemma Run.snoc {op : Op} {out : Outcome} {u : Kernel} (hr : Run cls s log t)
    (hs : Step cls t op out u) : Run cls s (log ++ [⟨t.current, op, out⟩]) u := by
  induction hr with
  | nil => exact Run.cons hs (Run.nil u)
  | cons h _ ih => exact Run.cons h (ih hs)

end Runs

/-- **The protocol of exit and wait.** In every run from the state after `proc_init`, under any of
the scheduling classes:

* no process is reaped twice;
* a step that reaps `p` finds it as a zombie child of the current process, returns its exit code,
  and leaves it unhashed, unlinked and freed; and `p` has not been reaped before;
* a process whose `wait_state` is `WT_CHILD` sleeps in `do_wait`, and no child that it waits for
  there is a zombie. -/
theorem exit_wait_protocol (S : Scheduler) (semValue : ℕ → BitVec 32) {log : List Event}
    {s : Kernel} (h : Run S.cls (S.boot semValue) log s) :
    (reaps log).Nodup ∧
    (∀ op p code t, Step S.cls s op (.reaped p code) t → Reaped s p code t ∧ p ∉ reaps log) ∧
    ∀ p q, s.procs p = some q → q.waitState = wtChild →
      q.state = .sleeping ∧ ∃ pid, s.conts p = .wait pid ∧
        ∀ c qc, s.procs c = some qc → qc.parent = some p → pid = 0 ∨ qc.pid = pid →
          qc.state ≠ .zombie := by
  have hboot : Live S.Inv (S.boot semValue) := boot_live S.inv S.runList
  have hlive := h.live S.ok hboot
  refine ⟨(h.reaps_nodup S.ok hboot).1, fun op p code t hs => ?_, fun p q hp hw => ?_⟩
  · refine ⟨(hs.advances S.ok hlive).reaped p code rfl, fun hp => ?_⟩
    have hnodup := ((h.snoc hs).reaps_nodup S.ok hboot).1
    have e : reaps (log ++ [⟨s.current, op, .reaped p code⟩]) = reaps log ++ [p] := by
      simp [reaps]
    rw [e] at hnodup
    exact (List.nodup_append.mp hnodup).2.2 p hp p (List.mem_singleton_self p) rfl
  · obtain ⟨hs, pid, hk⟩ := (hlive.kinv.proc p q hp).of_wtChild hw
    refine ⟨hs, pid, hk, fun c qc hc hparent hpid hz => ?_⟩
    have hkin : s.kin c = some qc.kin := kin_eq_some.mpr ⟨qc, hc, rfl⟩
    have hdead := hlive.family.waits p pid ⟨(is_of_proc hp).mpr hs, hk⟩ c qc.kin hkin hparent hpid
    simp [Proc.kin, hz] at hdead

/-- A run in which `initproc` forks a process and waits for it. -/
def forkWaitOps : List Op :=
  [.yield, .schedule, .fork 2 .enough, .wait 0, .schedule, .exit 7, .schedule]

/-- The parent reaps its child. -/
theorem exit_wait_protocol_forkWait :
    ∃ log s t, Run rrScheduler.cls (rrScheduler.boot fun _ => 0) log s ∧
      Step rrScheduler.cls s .resume (.reaped 2 7) t ∧ Reaped s 2 7 t ∧ 2 ∉ reaps log := by
  have h : outcomeAfter rrScheduler.cls (rrScheduler.boot fun _ => 0) forkWaitOps .resume =
      some (.reaped 2 7) := by decide +kernel
  obtain ⟨log, s, t, -, hr, hs⟩ := run_of_outcomeAfter h
  exact ⟨log, s, t, hr, hs, (exit_wait_protocol rrScheduler (fun _ => 0) hr).2.1 _ 2 7 t hs⟩

end Ucore
