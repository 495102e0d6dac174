import Ucore.Process.Life

set_option autoImplicit false

/-!
# Runs of the kernel

The kernel is not preemptive: processes interleave only where they call `schedule`. A step of the
system is the part of a call up to its end or up to the call of `schedule`, that call, or a timer
interrupt, which may come at any time, also between the moment when a process has gone to sleep and
its call of `schedule`.

## Main definitions

* `Op`, `Outcome`, `exec` — the steps and what they return.
* `Enabled` — when a step can be taken.
* `boot` — the state after `proc_init`.
* `Event`, `Run` — runs; `execAll` — the run with given steps.
-/

namespace Ucore

open Function

/-! ## The keyboard -/

/-- The part of `dev_stdin_read` up to the call of `schedule`, when there is no character. -/
def stdinWait : Kern Unit := do
  waitCurrentSet .stdin wtKbd
  Comp.modify fun s => { s with conts := update s.conts s.current .kbd, switching := true }

/-- The part of `dev_stdin_read` after `schedule`: whether to try again. -/
def stdinResume : Kern Bool := do
  waitCurrentDel .stdin
  let s ← Comp.read
  Comp.modify fun s => { s with conts := update s.conts s.current .run }
  pure (s.wakeupFlags s.current = wtKbd)

/-- The part of `dev_stdin_write` that wakes the readers. -/
def stdinWrite (cls : SchedClass) : Kern Unit := wakeupQueue cls .stdin wtKbd

/-- `dev_stdin_write(cons_getc())` in the timer interrupt; `char` says whether there is a
character. -/
def stdinArrived (cls : SchedClass) (char : Bool) : Kern Unit :=
  if char then stdinWrite cls else pure ()

/-! ## Steps -/

/-- The steps: the calls of the current process, what it does when it returns from `schedule`, the
call of `schedule`, and the timer interrupt, in which a character may arrive. -/
inductive Op
  | fork (new : ℕ) (mem : ForkMem)
  | exit (code : ℤ)
  | wait (pid : ℤ)
  | kill (pid : ℤ)
  | sleep (time : ℕ)
  | yield
  | down (k : ℕ)
  | tryDown (k : ℕ)
  | up (k : ℕ)
  | stdin
  | setPriority (v : BitVec 32)
  | resume
  | schedule
  | tick (char : Bool)
  deriving DecidableEq

/-- What a step returns, as far as it matters: the child that has been reaped with its exit code, or
the process whose `down` has been completed. -/
inductive Outcome
  | none
  | reaped (p : ℕ) (code : ℤ)
  | downed (p : ℕ)
  deriving DecidableEq

/-- The outcome of `do_wait`. -/
def WaitResult.outcome : WaitResult → Outcome
  | .reaped p code => .reaped p code
  | _ => .none

/-- What the current process does when it returns from `schedule`. -/
def resume (cls : SchedClass) : Kern Outcome := do
  let s ← Comp.read
  match s.conts s.current with
  | .run => pure .none
  | .down k => do
    semDownResume k
    pure .none
  | .wait pid => do
    let r ← doWaitResume cls pid
    pure r.outcome
  | .sleep => do
    doSleepResume
    pure .none
  | .kbd => do
    let _ ← stdinResume
    pure .none
  | .exited => Comp.halt .exitReturned

/-- A completed `down` or `try_down` of the current process. -/
def Kernel.downedIf (s : Kernel) (done : Bool) : Outcome :=
  if done then .downed s.current else .none

/-- A call of the current process is executed. -/
def exec (cls : SchedClass) : Op → Kern Outcome
  | .fork new mem => do
    let _ ← doFork cls new mem
    pure .none
  | .exit code => do
    doExit cls code
    pure .none
  | .wait pid => do
    let r ← doWait pid
    pure r.outcome
  | .kill pid => do
    let _ ← doKill cls pid
    pure .none
  | .sleep time => do
    doSleep time
    pure .none
  | .yield => do
    Comp.modify fun s => { s with switching := true }
    pure .none
  | .down k => do
    let done ← semDown k
    let s ← Comp.read
    pure (s.downedIf done)
  | .tryDown k => do
    let done ← semTryDown k
    let s ← Comp.read
    pure (s.downedIf done)
  | .up k => do
    let p ← semUp cls k
    pure (p.elim .none .downed)
  | .stdin => do
    stdinWait
    pure .none
  | .setPriority v => do
    Comp.modify fun s =>
      { s with sched := s.sched.modEnt s.current fun e =>
          { e with priority := if v = 0 then 1 else v } }
    pure .none
  | .resume => resume cls
  | .schedule => do
    schedule cls
    Comp.modify fun s => { s with switching := false }
    pure .none
  | .tick char => do
    runTimerList cls
    stdinArrived cls char
    pure .none

/-- **When a step can be taken.** The current process makes calls while it executes, and goes on
behind `schedule` otherwise; `idleproc` does nothing but call `schedule`. The address of a new
process has not been used before. -/
def Enabled (s : Kernel) : Op → Prop
  | .fork new _ => s.switching = false ∧ s.conts s.current = .run ∧ s.current ≠ s.idleproc ∧
      new ∉ s.used
  | .yield => s.switching = false ∧ s.conts s.current = .run
  | .resume => s.switching = false ∧ s.conts s.current ≠ .run
  | .schedule => s.switching = true
  | .tick _ => True
  | _ => s.switching = false ∧ s.conts s.current = .run ∧ s.current ≠ s.idleproc

/-- The address of `idleproc`. -/
def idleAddr : ℕ := 0

/-- The address of `initproc`. -/
def initAddr : ℕ := 1

/-- The state after `proc_init`, for a queue in which `initproc` has been put and semaphores that
have been initialised: `idleproc` is running, `initproc` is its child. -/
def boot (sched : SchedState) (semValue : ℕ → BitVec 32) : Kernel where
  procs p :=
    if p = idleAddr then some ⟨.runnable, 0, none, false, 0, 0, [initAddr]⟩
    else if p = initAddr then some ⟨.runnable, 1, some idleAddr, false, 0, 0, []⟩
    else none
  sched := sched
  current := idleAddr
  idleproc := idleAddr
  initproc := initAddr
  procList := [initAddr]
  hashList h := if h = pidHashfn 1 then [initAddr] else []
  nrProcess := 2
  lastPid := 1
  nextSafe := maxPid
  timers := []
  semValue := semValue
  queues _ := []
  wakeupFlags _ := 0
  conts _ := .run
  switching := false
  used := {idleAddr, initAddr}

/-- One step. -/
def Step (cls : SchedClass) (s : Kernel) (op : Op) (out : Outcome) (t : Kernel) : Prop :=
  Enabled s op ∧ exec cls op s = .ok (out, t)

/-- A step of a run: the process that was current, the step and its outcome. -/
structure Event where
  proc : ℕ
  op : Op
  out : Outcome
  deriving DecidableEq

/-- **Runs**: the steps that lead from one state to another, the first one first. -/
inductive Run (cls : SchedClass) : Kernel → List Event → Kernel → Prop
  | nil (s : Kernel) : Run cls s [] s
  | cons {s t u : Kernel} {op : Op} {out : Outcome} {log : List Event}
    (hs : Step cls s op out t) (h : Run cls t log u) : Run cls s (⟨s.current, op, out⟩ :: log) u

instance (s : Kernel) : (op : Op) → Decidable (Enabled s op)
  | .fork _ _ => inferInstanceAs (Decidable (_ ∧ _ ∧ _ ∧ _))
  | .yield => inferInstanceAs (Decidable (_ ∧ _))
  | .resume => inferInstanceAs (Decidable (_ ∧ _))
  | .schedule => inferInstanceAs (Decidable (_ = _))
  | .tick _ => inferInstanceAs (Decidable True)
  | .exit _ | .wait _ | .kill _ | .sleep _ | .down _ | .tryDown _ | .up _ | .stdin
  | .setPriority _ => inferInstanceAs (Decidable (_ ∧ _ ∧ _))

/-- Take the steps of a list if they can be taken. -/
def execAll (cls : SchedClass) : List Op → Kernel → Option (List Event × Kernel)
  | [], s => some ([], s)
  | op :: l, s =>
    if Enabled s op then
      match exec cls op s with
      | .ok (out, t) => (execAll cls l t).map fun r => (⟨s.current, op, out⟩ :: r.1, r.2)
      | .error _ => none
    else none

end Ucore
