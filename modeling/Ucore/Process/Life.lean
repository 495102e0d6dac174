import Ucore.Sync.Sem

set_option autoImplicit false

/-!
# The life of a process (`lab8/kern/process/proc.c`)

`do_fork`, `do_exit`, `do_wait`, `do_kill` and `do_sleep`. A function that calls `schedule` is cut
at the call: it leaves in `conts` where the process goes on, and the part after the call is a
function of its own. Of the resources of a process (memory, files, kernel stack) only whether they
can be obtained plays a role here.

## Main definitions

* `getPid`, `findProc` — pids.
* `doFork`, `doExit`, `doWait`, `doKill`, `doSleep`.
-/

namespace Ucore

open Function

/-! ## Pids -/

/-- The `while` loop of `get_pid` over the pids of the processes: whether to start again, and the
values of `last_pid` and `next_safe`. -/
def scanPids : List ℤ → ℤ → ℤ → Bool × ℤ × ℤ
  | [], last, safe => (false, last, safe)
  | pid :: l, last, safe =>
    if pid = last then
      if safe ≤ last + 1 then (true, if maxPid ≤ last + 1 then 1 else last + 1, maxPid)
      else scanPids l (last + 1) safe
    else if last < pid ∧ pid < safe then scanPids l last pid
    else scanPids l last safe

/-- The code from the label `repeat` on; `fuel` bounds the number of `goto repeat`. -/
def repeatScan (pids : List ℤ) : ℕ → ℤ → ℤ → Option (ℤ × ℤ)
  | 0, _, _ => none
  | fuel + 1, last, safe =>
    match scanPids pids last safe with
    | (false, last, safe) => some (last, safe)
    | (true, last, safe) => repeatScan pids fuel last safe

/-- `get_pid`: the new values of `last_pid`, which is the result, and `next_safe`. -/
def getPid (pids : List ℤ) (last safe : ℤ) : Option (ℤ × ℤ) :=
  let fuel := 2 * maxPid.toNat
  if maxPid ≤ last + 1 then repeatScan pids fuel 1 maxPid
  else if safe ≤ last + 1 then repeatScan pids fuel (last + 1) maxPid
  else some (last + 1, safe)

/-- `pid_hashfn` -/
def pidHashfn (pid : ℤ) : ℕ := (pid % 2 ^ 32).toNat * 0x9e370001 % 2 ^ 32 / 2 ^ 22

/-- The pid of the process at an address. -/
def Kernel.pidOf (s : Kernel) (p : ℕ) : Option ℤ := (s.procs p).map Proc.pid

/-- `find_proc` -/
def Kernel.findProc (s : Kernel) (pid : ℤ) : Option ℕ :=
  if 0 < pid ∧ pid < maxPid then
    (s.hashList (pidHashfn pid)).find? fun p => s.pidOf p = some pid
  else none

/-! ## `do_fork` -/

/-- Which allocations of `do_fork` succeed. -/
inductive ForkMem
  /-- `alloc_proc` fails -/
  | noProc
  /-- `setup_kstack`, `copy_mm` or `copy_files` fails -/
  | noCopy
  | enough
  deriving DecidableEq

/-- `hash_proc` -/
def hashProc (p : ℕ) (pid : ℤ) : Kern Unit :=
  Comp.modify fun s =>
    { s with hashList := update s.hashList (pidHashfn pid) (p :: s.hashList (pidHashfn pid)) }

/-- `set_links` for a process whose parent is `parent` -/
def setLinks (p parent : ℕ) : Kern Unit :=
  Comp.modify fun s =>
    { s.modProc parent fun q => { q with children := p :: q.children } with
      procList := p :: s.procList, nrProcess := s.nrProcess + 1 }

/-- `proc->pid = get_pid()` -/
def assignPid (p : ℕ) : Kern ℤ := do
  let s ← Comp.read
  match getPid (s.procList.filterMap s.pidOf) s.lastPid s.nextSafe with
  | none => Comp.halt .pidLoop
  | some (pid, safe) => do
    Comp.modify fun s =>
      { s.modProc p fun q => { q with pid := pid } with lastPid := pid, nextSafe := safe }
    pure pid

/-- `do_fork`; `new` is the address of the new process. -/
def doFork (cls : SchedClass) (new : ℕ) (mem : ForkMem) : Kern (Except Errno ℤ) := do
  let s ← Comp.read
  if maxProcess ≤ s.nrProcess then pure (.error .noFreeProc)
  else if mem = .noProc then pure (.error .noMem)
  else do
    let q ← getProc s.current
    Comp.ensure (q.waitState = 0) .forkWait
    if mem = .noCopy then pure (.error .noMem)
    else do
      Comp.modify fun s =>
        { s with procs := update s.procs new (some (allocProc s.current)),
                 sched := s.sched.modEnt new fun _ => allocEnt,
                 conts := update s.conts new .run, used := insert new s.used }
      let pid ← assignPid new
      hashProc new pid
      setLinks new s.current
      wakeupProc cls new
      pure (.ok pid)

/-! ## `do_exit` -/

/-- `if (proc->wait_state == WT_CHILD) wakeup_proc(proc)` -/
def wakeWaiting (cls : SchedClass) (p : ℕ) : Kern Unit := do
  let q ← getProc p
  if q.waitState = wtChild then wakeupProc cls p else pure ()

/-- `initproc` is woken if it waits and has got the zombie `c`. -/
def wakeInit (cls : SchedClass) (c : ℕ) : Kern Unit := do
  let qc ← getProc c
  let s ← Comp.read
  if qc.state = .zombie then wakeWaiting cls s.initproc else pure ()

/-- The first child `c` of the current process, whose other children are `l`, becomes the first
child of `initproc`. -/
def Kernel.moveChild (s : Kernel) (c : ℕ) (l : List ℕ) : Kernel :=
  ((s.modProc s.current fun q => { q with children := l }).modProc c
    fun q => { q with parent := some s.initproc }).modProc s.initproc
    fun q => { q with children := c :: q.children }

/-- The loop of `do_exit` over the children: each goes to `initproc`. -/
def reparent (cls : SchedClass) : List ℕ → Kern Unit
  | [] => pure ()
  | c :: l => do
    Comp.modify (·.moveChild c l)
    wakeInit cls c
    reparent cls l

/-- The process after `current->state = PROC_ZOMBIE, current->exit_code = error_code` -/
def Proc.die (code : ℤ) (q : Proc) : Proc := { q with state := .zombie, exitCode := code }

/-- The parent of the current process is woken if it waits. -/
def wakeParent (cls : SchedClass) : Option ℕ → Kern Unit
  | none => Comp.halt .badPointer
  | some p => wakeWaiting cls p

/-- `do_exit`, up to the call of `schedule`. A process that has set its state to `PROC_ZOMBIE` is on
its way to that call. -/
def doExit (cls : SchedClass) (code : ℤ) : Kern Unit := do
  let s ← Comp.read
  Comp.ensure (s.current ≠ s.idleproc) .idleExit
  Comp.ensure (s.current ≠ s.initproc) .initExit
  let q ← getProc s.current
  Comp.modify fun s =>
    { s.modProc s.current (Proc.die code) with
      conts := update s.conts s.current .exited, switching := true }
  wakeParent cls q.parent
  reparent cls q.children

/-! ## `do_wait` -/

/-- What the search of `do_wait` finds. -/
inductive WaitFound
  /-- a zombie to reap -/
  | zombie (p : ℕ)
  /-- children, none of them a zombie -/
  | kids
  /-- no child to wait for -/
  | none
  deriving DecidableEq

/-- The process at `p` is a zombie. -/
def Kernel.isZombie (s : Kernel) (p : ℕ) : Bool :=
  match s.procs p with
  | some q => q.state = .zombie
  | Option.none => false

/-- The search of `do_wait` for the process `pid`, or among all children for `pid = 0`. -/
def Kernel.waitFor (s : Kernel) (pid : ℤ) : WaitFound :=
  if pid ≠ 0 then
    match s.findProc pid with
    | Option.none => .none
    | some p =>
      if (s.procs p).bind Proc.parent = some s.current then
        if s.isZombie p then .zombie p else .kids
      else .none
  else
    match s.procs s.current with
    | Option.none => .none
    | some q =>
      match q.children.find? s.isZombie with
      | some p => .zombie p
      | Option.none => if q.children = [] then .none else .kids

/-- `unhash_proc` -/
def unhashProc (p : ℕ) (pid : ℤ) : Kern Unit :=
  Comp.modify fun s =>
    { s with hashList := update s.hashList (pidHashfn pid) ((s.hashList (pidHashfn pid)).erase p) }

/-- `remove_links` for a process whose parent is `parent` -/
def removeLinks (p : ℕ) : Option ℕ → Kern Unit
  | none => Comp.halt .badPointer
  | some parent =>
    Comp.modify fun s =>
      { s.modProc parent fun q => { q with children := q.children.erase p } with
        procList := s.procList.erase p, nrProcess := s.nrProcess - 1 }

/-- The label `found` of `do_wait`: the child's exit code is returned and the child is freed. -/
def reap (p : ℕ) : Kern ℤ := do
  let s ← Comp.read
  Comp.ensure (p ≠ s.idleproc ∧ p ≠ s.initproc) .waitInit
  let q ← getProc p
  unhashProc p q.pid
  removeLinks p q.parent
  Comp.modify fun s => { s with procs := update s.procs p none }
  pure q.exitCode

/-- What `do_wait` does up to its end or to the call of `schedule`. -/
inductive WaitResult
  /-- the child `p` has been reaped, its exit code is `code` -/
  | reaped (p : ℕ) (code : ℤ)
  /-- `-E_BAD_PROC` -/
  | badProc
  /-- the process goes to sleep -/
  | asleep
  deriving DecidableEq

/-- `do_wait` from the label `repeat` on -/
def doWait (pid : ℤ) : Kern WaitResult := do
  let s ← Comp.read
  match s.waitFor pid with
  | .zombie p => do
    let code ← reap p
    Comp.modify fun s => { s with conts := update s.conts s.current .run }
    pure (.reaped p code)
  | .kids => do
    Comp.modify (·.modProc s.current (Proc.sleep wtChild))
    Comp.modify fun s =>
      { s with conts := update s.conts s.current (.wait pid), switching := true }
    pure .asleep
  | .none => do
    Comp.modify fun s => { s with conts := update s.conts s.current .run }
    pure .badProc

/-- `do_wait` after `schedule` -/
def doWaitResume (cls : SchedClass) (pid : ℤ) : Kern WaitResult := do
  let s ← Comp.read
  let q ← getProc s.current
  if q.exiting then do
    doExit cls (-Errno.killed.code)
    pure .asleep
  else doWait pid

/-! ## `do_kill` and `do_sleep` -/

/-- `if (proc->wait_state & WT_INTERRUPTED) wakeup_proc(proc)` -/
def wakeInterrupted (cls : SchedClass) (p : ℕ) (waitState : BitVec 32) : Kern Unit :=
  if waitState &&& wtInterrupted ≠ 0 then wakeupProc cls p else pure ()

/-- `do_kill` -/
def doKill (cls : SchedClass) (pid : ℤ) : Kern (Except Errno Unit) := do
  let s ← Comp.read
  match s.findProc pid with
  | none => pure (.error .inval)
  | some p => do
    let q ← getProc p
    if q.exiting then pure (.error .killed)
    else do
      Comp.modify (·.modProc p fun q => { q with exiting := true })
      wakeInterrupted cls p q.waitState
      pure (.ok ())

/-- `do_sleep`, up to the call of `schedule` -/
def doSleep (time : ℕ) : Kern Unit := do
  if time = 0 then pure ()
  else do
    let s ← Comp.read
    Comp.modify (·.modProc s.current (Proc.sleep wtTimer))
    addTimer ⟨s.current, time, s.current⟩
    Comp.modify fun s => { s with conts := update s.conts s.current .sleep, switching := true }

/-- `do_sleep` after `schedule` -/
def doSleepResume : Kern Unit := do
  let s ← Comp.read
  delTimer s.current
  Comp.modify fun s => { s with conts := update s.conts s.current .run }

end Ucore
