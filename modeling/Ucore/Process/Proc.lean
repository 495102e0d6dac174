import Ucore.Libs.Error
import Ucore.Schedule.Defs

set_option autoImplicit false

/-!
# Processes and the scheduler core (`lab8/kern/process/proc.h`, `lab8/kern/schedule/sched.c`)

The kernel's data about processes, and the functions that wake a process, switch to the next one and
run the timers. They are generic in the scheduling class, as in the source.

The links between a process and its children are the list of the children, the youngest first; a
wait queue is the list of the waiting processes, the first one first. A `wait_t` and a `timer_t`
live on the stack of the process that sleeps, so they are named by it.

## Main definitions

* `Proc`, `Kernel`, `Kern` — a process, the kernel's state, its computations.
* `Cont` — what a process does when it returns from `schedule`.
* `wakeupProc`, `schedule`.
* `addTimer`, `delTimer`, `runTimerList`.
-/

namespace Ucore

open Function

/-! ## Processes -/

/-- `enum proc_state` -/
inductive ProcState
  | uninit
  | sleeping
  | runnable
  | zombie
  deriving DecidableEq, Repr

/-- `WT_INTERRUPTED` -/
def wtInterrupted : BitVec 32 := 0x80000000

/-- `WT_CHILD` -/
def wtChild : BitVec 32 := 0x00000001 ||| wtInterrupted

/-- `WT_KSEM` -/
def wtKsem : BitVec 32 := 0x00000100

/-- `WT_TIMER` -/
def wtTimer : BitVec 32 := 0x00000002 ||| wtInterrupted

/-- `WT_KBD` -/
def wtKbd : BitVec 32 := 0x00000004 ||| wtInterrupted

/-- `MAX_PROCESS` -/
def maxProcess : ℕ := 4096

/-- `MAX_PID` -/
def maxPid : ℤ := maxProcess * 2

/-- `struct proc_struct`, without the fields of the scheduling classes. `exiting` is the flag
`PF_EXITING`, `children` the list from `cptr` on along `optr`. -/
structure Proc where
  state : ProcState
  pid : ℤ
  parent : Option ℕ
  exiting : Bool
  exitCode : ℤ
  waitState : BitVec 32
  children : List ℕ

/-- `alloc_proc`, with the parent that `do_fork` enters -/
def allocProc (parent : ℕ) : Proc where
  state := .uninit
  pid := -1
  parent := some parent
  exiting := false
  exitCode := 0
  waitState := 0
  children := []

/-- The wait queues: those of the semaphores and the one of the keyboard. -/
inductive QueueId
  | sem (k : ℕ)
  | stdin
  deriving DecidableEq

/-- `timer_t`; `id` is its address. -/
structure Timer where
  id : ℕ
  expires : ℕ
  proc : ℕ
  deriving DecidableEq

/-- Where a process goes on: in the code it was executing, or behind the call of `schedule` in
`__down`, `do_wait`, `do_sleep`, `dev_stdin_read` or `do_exit`. -/
inductive Cont
  | run
  | down (k : ℕ)
  | wait (pid : ℤ)
  | sleep
  | kbd
  | exited
  deriving DecidableEq

/-! ## The kernel -/

/-- The kernel's state. `hashList` are the buckets of the hash table of pids, `lastPid` and
`nextSafe` the static variables of `get_pid`, `wakeupFlags` the field of the `wait_t` of a process.
`conts` says where each process goes on, and `switching` that the current process is about to call
`schedule`. The field `used` is not part of the program: it holds the addresses that have been given
to processes, so that an address names one process of the whole run. -/
structure Kernel where
  procs : ℕ → Option Proc
  sched : SchedState
  current : ℕ
  idleproc : ℕ
  initproc : ℕ
  procList : List ℕ
  hashList : ℕ → List ℕ
  nrProcess : ℕ
  lastPid : ℤ
  nextSafe : ℤ
  timers : List Timer
  semValue : ℕ → BitVec 32
  queues : QueueId → List ℕ
  wakeupFlags : ℕ → BitVec 32
  conts : ℕ → Cont
  switching : Bool
  used : Finset ℕ

/-- The assertions and panics of the modelled functions. -/
inductive KPanic
  /-- an assertion of the scheduling class -/
  | sched (p : SchedPanic)
  /-- `assert(proc->state != PROC_ZOMBIE)` in `wakeup_proc` -/
  | wakeupZombie
  /-- `assert(timer->expires > 0 && timer->proc != NULL)` in `add_timer` -/
  | timerExpires
  /-- `assert(list_empty(&(timer->timer_link)))` in `add_timer` -/
  | timerLinked
  /-- `assert(timer->expires != 0)` in `run_timer_list` -/
  | timerZero
  /-- `assert(proc->wait_state & WT_INTERRUPTED)` in `run_timer_list` -/
  | timerState
  /-- `assert(!list_empty(&(wait->wait_link)) && wait->wait_queue == queue)` in `wait_queue_del` -/
  | waitDel
  /-- `assert(wait->proc->wait_state == wait_state)` in `__up` -/
  | upState
  /-- `assert(flags == 0)` in `down` -/
  | downFlags
  /-- `assert(current->wait_state == 0)` in `do_fork` -/
  | forkWait
  /-- `get_pid` does not return -/
  | pidLoop
  /-- `idleproc exit.` -/
  | idleExit
  /-- `initproc exit.` -/
  | initExit
  /-- `wait idleproc or initproc.` -/
  | waitInit
  /-- `do_exit will not return!!` -/
  | exitReturned
  /-- a pointer to no process -/
  | badPointer
  deriving DecidableEq, Repr

/-- Computations of the kernel. -/
abbrev Kern (α : Type) : Type := Comp KPanic Kernel α

/-- The process at an address. -/
def getProc (p : ℕ) : Kern Proc := do
  let s ← Comp.read
  match s.procs p with
  | some q => pure q
  | none => Comp.halt .badPointer

/-- Change the process at an address. -/
def Kernel.modProc (s : Kernel) (p : ℕ) (f : Proc → Proc) : Kernel :=
  { s with procs := update s.procs p ((s.procs p).map f) }

/-- Run a function of the scheduling class. -/
def liftSched {α : Type} (m : Sch α) : Kern α := fun s =>
  match m s.sched with
  | .ok (a, t) => .ok (a, { s with sched := t })
  | .error e => .error (.sched e)

/-! ## `sched.c` -/

/-- `sched_class_enqueue` -/
def schedClassEnqueue (cls : SchedClass) (p : ℕ) : Kern Unit := do
  let s ← Comp.read
  if p ≠ s.idleproc then liftSched (cls.enqueue p) else pure ()

/-- `sched_class_proc_tick` -/
def schedClassProcTick (cls : SchedClass) (p : ℕ) : Kern Unit := do
  let s ← Comp.read
  if p ≠ s.idleproc then liftSched (cls.procTick p)
  else Comp.modify fun s =>
    { s with sched := s.sched.modEnt p fun e => { e with needResched := true } }

/-- The process after `wakeup_proc` -/
def Proc.wake (q : Proc) : Proc := { q with state := .runnable, waitState := 0 }

/-- `wakeup_proc` -/
def wakeupProc (cls : SchedClass) (p : ℕ) : Kern Unit := do
  let q ← getProc p
  Comp.ensure (q.state ≠ .zombie) .wakeupZombie
  if q.state ≠ .runnable then do
    Comp.modify (·.modProc p Proc.wake)
    let s ← Comp.read
    if p ≠ s.current then schedClassEnqueue cls p else pure ()
  else pure ()

/-- The part of `schedule` that chooses the next process: `idleproc` if there is none. -/
def pickNext (cls : SchedClass) : Kern ℕ := do
  let next ← liftSched cls.pickNext
  match next with
  | some p => do
    liftSched (cls.dequeue p)
    pure p
  | none => do
    let s ← Comp.read
    pure s.idleproc

/-- The part of `schedule` that puts the current process back if it is runnable. -/
def requeueCurrent (cls : SchedClass) : Kern Unit := do
  let s ← Comp.read
  let q ← getProc s.current
  if q.state = .runnable then schedClassEnqueue cls s.current else pure ()

/-- `schedule`, up to the point where the next process goes on -/
def schedule (cls : SchedClass) : Kern Unit := do
  Comp.modify fun s =>
    { s with sched := s.sched.modEnt s.current fun e => { e with needResched := false } }
  requeueCurrent cls
  let next ← pickNext cls
  Comp.modify fun s => { s with current := next }

/-- The loop of `add_timer` and the insertion. -/
def insertTimer (timer : Timer) : List Timer → List Timer
  | [] => [timer]
  | next :: l =>
    if timer.expires < next.expires then
      timer :: { next with expires := next.expires - timer.expires } :: l
    else next :: insertTimer { timer with expires := timer.expires - next.expires } l

/-- `add_timer` -/
def addTimer (timer : Timer) : Kern Unit := do
  Comp.ensure (0 < timer.expires) .timerExpires
  let s ← Comp.read
  Comp.ensure (∀ t ∈ s.timers, t.id ≠ timer.id) .timerLinked
  Comp.modify fun s => { s with timers := insertTimer timer s.timers }

/-- The list after the timer `id` has been removed; what was left of it goes to the next one. -/
def removeTimer (id : ℕ) : List Timer → List Timer
  | [] => []
  | t :: l =>
    if t.id = id then
      match l with
      | [] => []
      | next :: l => { next with expires := next.expires + t.expires } :: l
    else t :: removeTimer id l

/-- `del_timer` -/
def delTimer (id : ℕ) : Kern Unit :=
  Comp.modify fun s => { s with timers := removeTimer id s.timers }

/-- The loop of `run_timer_list` over the timers that have expired. -/
def fireTimers (cls : SchedClass) : List Timer → Kern Unit
  | [] => pure ()
  | timer :: l =>
    if timer.expires = 0 then do
      let q ← getProc timer.proc
      Comp.ensure (q.waitState = 0 ∨ q.waitState &&& wtInterrupted ≠ 0) .timerState
      wakeupProc cls timer.proc
      delTimer timer.id
      fireTimers cls l
    else pure ()

/-- The part of `run_timer_list` that counts the first timer down. -/
def runTimers (cls : SchedClass) : Kern Unit := do
  let s ← Comp.read
  match s.timers with
  | [] => pure ()
  | timer :: l => do
    Comp.ensure (timer.expires ≠ 0) .timerZero
    let timers := { timer with expires := timer.expires - 1 } :: l
    Comp.modify fun s => { s with timers := timers }
    fireTimers cls timers

/-- `run_timer_list` -/
def runTimerList (cls : SchedClass) : Kern Unit := do
  runTimers cls
  let s ← Comp.read
  schedClassProcTick cls s.current

end Ucore
