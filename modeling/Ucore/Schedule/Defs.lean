import Ucore.Lib.Comp
import Ucore.Libs.SkewHeap

set_option autoImplicit false

/-!
# Run queues and scheduling classes (`kern/schedule/sched.h`)

A process is identified by a number, the address of its `struct proc_struct`. The fields of the
structure that only the scheduler uses are kept apart from the others.

## Main definitions

* `SchedEnt` — the scheduler's fields of a process; `RunQueue`.
* `SchedState`, `Sch` — the scheduler's data and computations on it.
* `SchedClass` — a scheduling class.
* `ClassOk` — what the rest of the kernel relies on: the class keeps a queue.
-/

namespace Ucore

open Function

/-- `MAX_TIME_SLICE` -/
def maxTimeSlice : ℤ := 5

/-- The fields of `struct proc_struct` that the scheduling classes use. `onRq` says that `rq` is not
`NULL`. -/
structure SchedEnt where
  needResched : Bool
  onRq : Bool
  timeSlice : ℤ
  stride : BitVec 32
  priority : BitVec 32
  deriving DecidableEq

/-- What `alloc_proc` writes to these fields. -/
def allocEnt : SchedEnt where
  needResched := false
  onRq := false
  timeSlice := 0
  stride := 0
  priority := 0

/-- `struct run_queue`. The list holds the processes from the first to the last; a process's
`run_link` is empty if the process is not in the list. -/
structure RunQueue where
  runList : List ℕ
  procNum : ℤ
  maxTimeSlice : ℤ
  pool : SkewHeap ℕ

/-- The run queue and the scheduler's fields of all processes. -/
structure SchedState where
  rq : RunQueue
  ent : ℕ → SchedEnt

/-- The assertions of the scheduling classes. -/
inductive SchedPanic
  /-- `assert(list_empty(&(proc->run_link)))` in `RR_enqueue`, `assert(proc->rq == NULL)` in
  `stride_enqueue` -/
  | enqueue
  /-- `assert(!list_empty(&(proc->run_link)) && proc->rq == rq)` in `RR_dequeue`,
  `assert(proc->rq == rq && rq->proc_num > 0)` in `stride_dequeue` -/
  | dequeue
  deriving DecidableEq, Repr

/-- Computations of a scheduling class. -/
abbrev Sch (α : Type) : Type := Comp SchedPanic SchedState α

/-- Change the scheduler's fields of a process. -/
def SchedState.modEnt (s : SchedState) (p : ℕ) (f : SchedEnt → SchedEnt) : SchedState :=
  { s with ent := update s.ent p (f (s.ent p)) }

/-- `list_add_before(&(rq->run_list), &(proc->run_link))`, `rq->proc_num ++` -/
def RunQueue.push (rq : RunQueue) (p : ℕ) : RunQueue :=
  { rq with runList := rq.runList ++ [p], procNum := rq.procNum + 1 }

/-- `list_del_init(&(proc->run_link))`, `rq->proc_num --` -/
def RunQueue.drop (rq : RunQueue) (p : ℕ) : RunQueue :=
  { rq with runList := rq.runList.erase p, procNum := rq.procNum - 1 }

/-- `struct sched_class` -/
structure SchedClass where
  enqueue : ℕ → Sch Unit
  dequeue : ℕ → Sch Unit
  pickNext : Sch (Option ℕ)
  procTick : ℕ → Sch Unit

/-- The tick of both classes: count down the time slice and ask for rescheduling at its end. -/
def SchedEnt.tick (e : SchedEnt) : SchedEnt :=
  let e := if 0 < e.timeSlice then { e with timeSlice := e.timeSlice - 1 } else e
  if e.timeSlice = 0 then { e with needResched := true } else e

section Lemmas

variable {s : SchedState} {p q : ℕ} {f : SchedEnt → SchedEnt}

@[simp] lemma modEnt_rq : (s.modEnt p f).rq = s.rq := rfl

@[simp] lemma modEnt_self : (s.modEnt p f).ent p = f (s.ent p) := update_self ..

lemma modEnt_of_ne (h : q ≠ p) : (s.modEnt p f).ent q = s.ent q := update_of_ne h ..

section

variable (rq : RunQueue)
include rq

@[simp] lemma push_runList : (rq.push p).runList = rq.runList ++ [p] := rfl

@[simp] lemma push_procNum : (rq.push p).procNum = rq.procNum + 1 := rfl

@[simp] lemma drop_runList : (rq.drop p).runList = rq.runList.erase p := rfl

@[simp] lemma drop_procNum : (rq.drop p).procNum = rq.procNum - 1 := rfl

end

/-- A tick keeps the time slice in its range. -/
lemma SchedEnt.tick_timeSlice {e : SchedEnt} {m : ℤ} (h : 0 ≤ e.timeSlice ∧ e.timeSlice ≤ m) :
    0 ≤ e.tick.timeSlice ∧ e.tick.timeSlice ≤ m := by
  unfold SchedEnt.tick
  by_cases h0 : 0 < e.timeSlice
  · simp only [if_pos h0]
    split_ifs
    · exact ⟨Int.le_sub_one_of_lt h0, by dsimp only; omega⟩
    · exact ⟨Int.le_sub_one_of_lt h0, by dsimp only; omega⟩
  · simp only [if_neg h0]
    split_ifs
    · exact h
    · exact h

lemma SchedEnt.tick_eq (e : SchedEnt) :
    e.tick.onRq = e.onRq ∧ e.tick.stride = e.stride ∧ e.tick.priority = e.priority := by
  unfold SchedEnt.tick
  by_cases h0 : 0 < e.timeSlice
  · simp only [if_pos h0]
    split_ifs <;> exact ⟨rfl, rfl, rfl⟩
  · simp only [if_neg h0]
    split_ifs <;> exact ⟨rfl, rfl, rfl⟩

end Lemmas

/-- **A scheduling class keeps a queue**: in the states that satisfy `I`, a process that is not
queued is put at the end of the run list, the choice of a process and its removal take a queued
process out of the list, and nothing else changes the list. -/
structure ClassOk (cls : SchedClass) (I : SchedState → Prop) : Prop where
  nodup : ∀ s, I s → s.rq.runList.Nodup
  enqueue : ∀ s p, I s → p ∉ s.rq.runList →
    ∃ t, cls.enqueue p s = .ok ((), t) ∧ I t ∧ t.rq.runList = s.rq.runList ++ [p]
  pickNone : ∀ s, I s → s.rq.runList = [] → cls.pickNext s = .ok (none, s)
  pickSome : ∀ s, I s → s.rq.runList ≠ [] →
    ∃ p t u, cls.pickNext s = .ok (some p, t) ∧ cls.dequeue p t = .ok ((), u) ∧
      p ∈ s.rq.runList ∧ I u ∧ u.rq.runList = s.rq.runList.erase p
  procTick : ∀ s p, I s →
    ∃ t, cls.procTick p s = .ok ((), t) ∧ I t ∧ t.rq.runList = s.rq.runList
  resched : ∀ s p b, I s → I (s.modEnt p fun e => { e with needResched := b })
  alloc : ∀ s p, I s → p ∉ s.rq.runList → I (s.modEnt p fun _ => allocEnt)
  priority : ∀ s p v, I s → I (s.modEnt p fun e => { e with priority := v })

end Ucore
