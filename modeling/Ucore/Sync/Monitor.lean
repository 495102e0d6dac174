import Ucore.Sync.SemRun

set_option autoImplicit false

/-!
# Monitors (`lab8/kern/sync/monitor.c`)

A monitor is a mutex, the semaphore `next`, on which threads wait that have signalled, and a
semaphore for each condition variable; its counters say how many threads have signalled and how many
wait for each variable. The threads are processes of the kernel, and the calls of `up` and `down`
are steps of it.

A thread is followed through its code by a program counter. The code between two calls of `up` or
`down` belongs to one of them: `cv.count ++` and `mt.next_count ++` to the `up` that follows them,
and `cv.count --` and `mt.next_count --` to the return of the `down` before them. Between any two
calls the kernel may take any other steps and run any other thread.

## Main definitions

* `Monitor` — the semaphores of a monitor.
* `Pc` — where a thread is.
* `MonState`, `MonOp`, `MonStep`, `MonReach` — the states and the steps.
-/

namespace Ucore

open Function

/-- The semaphores of a monitor, by their numbers. -/
structure Monitor where
  mutex : ℕ
  next : ℕ
  cv : ℕ → ℕ
  mutex_ne_next : mutex ≠ next
  mutex_ne_cv : ∀ c, mutex ≠ cv c
  next_ne_cv : ∀ c, next ≠ cv c
  cv_inj : Injective cv

/-- A semaphore of the monitor. -/
def Monitor.Has (M : Monitor) (k : ℕ) : Prop := k = M.mutex ∨ k = M.next ∨ ∃ c, k = M.cv c

/-- Where a thread is. -/
inductive Pc
  /-- outside the monitor -/
  | outside
  /-- asleep in `down(&mt.mutex)` -/
  | entering
  /-- inside, and owning the monitor -/
  | active
  /-- in `cond_wait`, before `down(&cv.sem)` -/
  | released (c : ℕ)
  /-- in `cond_wait`, asleep in `down(&cv.sem)` -/
  | waiting (c : ℕ)
  /-- in `cond_signal`, before `down(&mt.next)` -/
  | signalled
  /-- in `cond_signal`, asleep in `down(&mt.next)` -/
  | suspended
  deriving DecidableEq

/-- The thread is in `cond_wait` on `c`. -/
def Pc.inWait (c : ℕ) : Pc → Bool
  | .released d | .waiting d => d = c
  | _ => false

/-- The thread has signalled and not yet resumed. -/
def Pc.inSignal : Pc → Bool
  | .signalled | .suspended => true
  | _ => false

/-- The semaphore in whose `down` the thread is asleep. -/
def Pc.sem (M : Monitor) : Pc → Option ℕ
  | .entering => some M.mutex
  | .waiting c => some (M.cv c)
  | .suspended => some M.next
  | _ => none

/-- Where a thread is after `down` has put it to sleep. -/
def Pc.asleep : Pc → Pc
  | .released c => .waiting c
  | .signalled => .suspended
  | _ => .entering

/-- The kernel, the counters `next_count` and `count` of the monitor, and where the threads are. -/
structure MonState where
  kernel : Kernel
  nextCount : ℤ
  count : ℕ → ℤ
  pc : ℕ → Pc

/-- The steps: those of the threads, and any other step of the kernel. -/
inductive MonOp
  | other (op : Op)
  /-- `down(&mt.mutex)` -/
  | enter
  /-- `cond_wait` up to the call of `down` -/
  | wait (c : ℕ)
  /-- the call of `down` in `cond_wait` -/
  | waitDown (c : ℕ)
  /-- `cond_signal` with `count > 0`, up to the call of `down` -/
  | signal (c : ℕ)
  /-- the call of `down` in `cond_signal` -/
  | signalDown
  /-- leaving the monitor -/
  | leave
  /-- the return from `schedule` in a `down` -/
  | resume

namespace MonState

/-- The thread that is running. -/
def thread (x : MonState) : ℕ := x.kernel.current

/-- `if (mt.next_count > 0) up(&mt.next); else up(&mt.mutex);` -/
def release (M : Monitor) (x : MonState) : Op :=
  if 0 < x.nextCount then .up M.next else .up M.mutex

/-- The step of the kernel that belongs to a step of a thread. -/
def call (M : Monitor) (x : MonState) : MonOp → Op
  | .other op => op
  | .enter => .down M.mutex
  | .wait _ => x.release M
  | .waitDown c => .down (M.cv c)
  | .signal c => .up (M.cv c)
  | .signalDown => .down M.next
  | .leave => x.release M
  | .resume => .resume

/-- Which steps the running thread can take. The other steps of the kernel do not use the semaphores
of the monitor. -/
def Allowed (M : Monitor) (x : MonState) : MonOp → Prop
  | .other op => ∀ k, M.Has k → op ≠ .down k ∧ op ≠ .tryDown k ∧ op ≠ .up k ∧
      (op = .resume → x.kernel.conts x.thread ≠ .down k)
  | .enter => x.pc x.thread = .outside
  | .wait _ => x.pc x.thread = .active
  | .waitDown c => x.pc x.thread = .released c
  | .signal c => x.pc x.thread = .active ∧ 0 < x.count c
  | .signalDown => x.pc x.thread = .signalled
  | .leave => x.pc x.thread = .active
  | .resume => ∃ k, M.Has k ∧ x.kernel.conts x.thread = .down k

/-- `down` has returned: the counters are decremented and the thread is active. -/
def returned (x : MonState) : MonState :=
  match x.pc x.thread with
  | .released c | .waiting c =>
    { x with count := update x.count c (x.count c - 1), pc := update x.pc x.thread .active }
  | .signalled | .suspended =>
    { x with nextCount := x.nextCount - 1, pc := update x.pc x.thread .active }
  | _ => { x with pc := update x.pc x.thread .active }

/-- `down` has put the thread to sleep. -/
def asleep (x : MonState) : MonState :=
  { x with pc := update x.pc x.thread (x.pc x.thread).asleep }

/-- The counters and the places after a step with the outcome `out`. -/
def after (x : MonState) (out : Outcome) : MonOp → MonState
  | .other _ => x
  | .enter | .waitDown _ | .signalDown => if out = .none then x.asleep else x.returned
  | .wait c =>
    { x with count := update x.count c (x.count c + 1), pc := update x.pc x.thread (.released c) }
  | .signal _ =>
    { x with nextCount := x.nextCount + 1, pc := update x.pc x.thread .signalled }
  | .leave => { x with pc := update x.pc x.thread .outside }
  | .resume => x.returned

end MonState

/-- One step. -/
def MonStep (S : Scheduler) (M : Monitor) (x : MonState) (op : MonOp) (y : MonState) : Prop :=
  x.Allowed M op ∧ ∃ out t, Step S.cls x.kernel (x.call M op) out t ∧
    y = { x.after out op with kernel := t }

/-- **The states reached**, from a state after `proc_init` and `monitor_init`. -/
inductive MonReach (S : Scheduler) (M : Monitor) : MonState → Prop
  | init (semValue : ℕ → BitVec 32) (hm : semValue M.mutex = 1) (hn : semValue M.next = 0)
    (hc : ∀ c, semValue (M.cv c) = 0) :
    MonReach S M ⟨S.boot semValue, 0, fun _ => 0, fun _ => .outside⟩
  | step {x y : MonState} {op : MonOp} (h : MonReach S M x) (hs : MonStep S M x op y) :
      MonReach S M y

end Ucore
