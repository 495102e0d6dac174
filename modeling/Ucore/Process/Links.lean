import Ucore.Lib.Dll
import Ucore.Process.Frames

set_option autoImplicit false

/-!
# The pointers between a process and its children (`lab8/kern/process/proc.c`)

In the source the children of a process are a list through the fields `cptr`, `optr` and `yptr` of
`struct proc_struct`: the youngest child, the next older and the next younger sibling. `set_links`,
`remove_links` and the loop of `do_exit` edit it by hand. Here the kernel has these fields beside
the lists of children, which the functions of this module keep up to date but never look at: they go
along the pointers as the source does.

## Main definitions

* `Ptrs`, `Linked` — the pointers; the kernel with them.
* `Ptrs.setLinks`, `Ptrs.removeLinks`, `Ptrs.moveChild` — the edits.
* `Linked.doFork`, `Linked.doExit`, `Linked.doWait` — the functions with pointers.
* `Linked.exec`, `LinkedRun` — steps and runs.
-/

namespace Ucore

open Function

/-- The fields `cptr`, `yptr` and `optr` of the processes. -/
structure Ptrs where
  cptr : ℕ → Option ℕ
  yptr : ℕ → Option ℕ
  optr : ℕ → Option ℕ

namespace Ptrs

/-- `proc->cptr = proc->optr = proc->yptr = NULL` in `alloc_proc` -/
def alloc (F : Ptrs) (p : ℕ) : Ptrs :=
  ⟨update F.cptr p none, update F.yptr p none, update F.optr p none⟩

/-- The pointers in `set_links` -/
def setLinks (F : Ptrs) (p parent : ℕ) : Ptrs :=
  let F := { F with yptr := update F.yptr p none }
  let F := { F with optr := update F.optr p (F.cptr parent) }
  let F := match F.optr p with
    | some o => { F with yptr := update F.yptr o (some p) }
    | none => F
  { F with cptr := update F.cptr parent (some p) }

/-- The pointers in `remove_links` -/
def removeLinks (F : Ptrs) (p parent : ℕ) : Ptrs :=
  let F := match F.optr p with
    | some o => { F with yptr := update F.yptr o (F.yptr p) }
    | none => F
  match F.yptr p with
  | some y => { F with optr := update F.optr y (F.optr p) }
  | none => { F with cptr := update F.cptr parent (F.optr p) }

/-- The pointers in the body of the loop of `do_exit`, for the child `c` of `cur` -/
def moveChild (F : Ptrs) (cur init c : ℕ) : Ptrs :=
  let F := { F with cptr := update F.cptr cur (F.optr c) }
  let F := { F with yptr := update F.yptr c none }
  let F := { F with optr := update F.optr c (F.cptr init) }
  let F := match F.optr c with
    | some _ =>
      match F.cptr init with
      | some o => { F with yptr := update F.yptr o (some c) }
      | none => F
    | none => F
  { F with cptr := update F.cptr init (some c) }

end Ptrs

/-- **The kernel with the pointers.** -/
structure Linked where
  kernel : Kernel
  ptrs : Ptrs

/-- Computations on it; `none` says that a loop along the pointers has not come to an end. -/
abbrev LKern (α : Type) : Type := Comp (Option KPanic) Linked α

/-- The children of a process. -/
def Kernel.kids (s : Kernel) (p : ℕ) : List ℕ := ((s.procs p).map Proc.children).getD []

namespace Linked

/-- A function that has nothing to do with the pointers. -/
def onKernel {α : Type} (m : Kern α) : LKern α := fun s =>
  match m s.kernel with
  | .ok (a, t) => .ok (a, { s with kernel := t })
  | .error e => .error (some e)

/-- Change the pointers. -/
def onPtrs (f : Ptrs → Ptrs) : LKern Unit := Comp.modify fun s => { s with ptrs := f s.ptrs }

/-- A bound for the loops along the pointers. -/
def fuel (s : Linked) : ℕ := s.kernel.procList.length + 1

/-! ## `do_fork` -/

/-- `set_links` -/
def setLinks (p parent : ℕ) : LKern Unit := do
  onKernel (Ucore.setLinks p parent)
  onPtrs (·.setLinks p parent)

/-- `do_fork` -/
def doFork (cls : SchedClass) (new : ℕ) (mem : ForkMem) : LKern (Except Errno ℤ) := do
  let s ← Comp.read
  if maxProcess ≤ s.kernel.nrProcess then pure (.error .noFreeProc)
  else if mem = .noProc then pure (.error .noMem)
  else do
    let q ← onKernel (getProc s.kernel.current)
    Comp.ensure (q.waitState = 0) (some .forkWait)
    if mem = .noCopy then pure (.error .noMem)
    else do
      onKernel (Comp.modify fun s =>
        { s with procs := update s.procs new (some (allocProc s.current)),
                 sched := s.sched.modEnt new fun _ => allocEnt,
                 conts := update s.conts new .run, used := insert new s.used })
      onPtrs (·.alloc new)
      let pid ← onKernel (assignPid new)
      onKernel (hashProc new pid)
      setLinks new s.kernel.current
      onKernel (wakeupProc cls new)
      pure (.ok pid)

/-! ## `do_exit` -/

/-- `while (current->cptr != NULL)` in `do_exit` -/
def reparent (cls : SchedClass) : ℕ → LKern Unit
  | 0 => Comp.halt none
  | fuel + 1 => do
    let s ← Comp.read
    match s.ptrs.cptr s.kernel.current with
    | none => pure ()
    | some c => do
      onKernel (Comp.modify fun k => k.moveChild c (k.kids k.current).tail)
      onPtrs (·.moveChild s.kernel.current s.kernel.initproc c)
      onKernel (wakeInit cls c)
      reparent cls fuel

/-- `do_exit`, up to the call of `schedule` -/
def doExit (cls : SchedClass) (code : ℤ) : LKern Unit := do
  let s ← Comp.read
  Comp.ensure (s.kernel.current ≠ s.kernel.idleproc) (some .idleExit)
  Comp.ensure (s.kernel.current ≠ s.kernel.initproc) (some .initExit)
  let q ← onKernel (getProc s.kernel.current)
  onKernel (Comp.modify fun s =>
    { s.modProc s.current (Proc.die code) with
      conts := update s.conts s.current .exited, switching := true })
  onKernel (wakeParent cls q.parent)
  reparent cls s.fuel

/-! ## `do_wait` -/

/-- `for (; proc != NULL; proc = proc->optr)` in `do_wait` -/
def findZombie (s : Linked) : ℕ → Option ℕ → Option (Option ℕ)
  | 0, _ => none
  | _ + 1, none => some none
  | fuel + 1, some p =>
    if s.kernel.isZombie p then some (some p) else findZombie s fuel (s.ptrs.optr p)

/-- The search of `do_wait` -/
def waitFor (s : Linked) (pid : ℤ) : Option WaitFound :=
  if pid ≠ 0 then some (s.kernel.waitFor pid)
  else
    match findZombie s s.fuel (s.ptrs.cptr s.kernel.current) with
    | none => none
    | some (some p) => some (.zombie p)
    | some none => some (if s.ptrs.cptr s.kernel.current = none then .none else .kids)

/-- `remove_links` -/
def removeLinks (p : ℕ) : Option ℕ → LKern Unit
  | none => Comp.halt (some .badPointer)
  | some parent => do
    onKernel (Ucore.removeLinks p (some parent))
    onPtrs (·.removeLinks p parent)

/-- The label `found` of `do_wait` -/
def reap (p : ℕ) : LKern ℤ := do
  let s ← Comp.read
  Comp.ensure (p ≠ s.kernel.idleproc ∧ p ≠ s.kernel.initproc) (some .waitInit)
  let q ← onKernel (getProc p)
  onKernel (unhashProc p q.pid)
  removeLinks p q.parent
  onKernel (Comp.modify fun s => { s with procs := update s.procs p none })
  pure q.exitCode

/-- `do_wait` from the label `repeat` on -/
def doWait (pid : ℤ) : LKern WaitResult := do
  let s ← Comp.read
  match s.waitFor pid with
  | none => Comp.halt none
  | some (.zombie p) => do
    let code ← reap p
    onKernel (Comp.modify fun s => { s with conts := update s.conts s.current .run })
    pure (.reaped p code)
  | some .kids => do
    onKernel (Comp.modify (·.modProc s.kernel.current (Proc.sleep wtChild)))
    onKernel (Comp.modify fun s =>
      { s with conts := update s.conts s.current (.wait pid), switching := true })
    pure .asleep
  | some .none => do
    onKernel (Comp.modify fun s => { s with conts := update s.conts s.current .run })
    pure .badProc

/-- `do_wait` after `schedule` -/
def doWaitResume (cls : SchedClass) (pid : ℤ) : LKern WaitResult := do
  let s ← Comp.read
  let q ← onKernel (getProc s.kernel.current)
  if q.exiting then do
    doExit cls (-Errno.killed.code)
    pure .asleep
  else doWait pid

/-! ## Steps -/

/-- What the current process does when it returns from `schedule`. -/
def resume (cls : SchedClass) : LKern Outcome := do
  let s ← Comp.read
  match s.kernel.conts s.kernel.current with
  | .wait pid => do
    let r ← doWaitResume cls pid
    pure r.outcome
  | _ => onKernel (Ucore.resume cls)

/-- A step of the kernel with the pointers. -/
def exec (cls : SchedClass) : Op → LKern Outcome
  | .fork new mem => do
    let _ ← doFork cls new mem
    pure .none
  | .exit code => do
    doExit cls code
    pure .none
  | .wait pid => do
    let r ← doWait pid
    pure r.outcome
  | .resume => resume cls
  | op => onKernel (Ucore.exec cls op)

end Linked

/-- The pointers after `proc_init`: `initproc` is the child of `idleproc`. -/
def Ptrs.boot : Ptrs := ⟨fun p => if p = idleAddr then some initAddr else none, fun _ => none,
      fun _ => none⟩

/-- **Runs of the kernel with the pointers.** -/
inductive LinkedRun (cls : SchedClass) : Linked → List Event → Linked → Prop
  | nil (s : Linked) : LinkedRun cls s [] s
  | cons {s t u : Linked} {op : Op} {out : Outcome} {log : List Event}
    (he : Enabled s.kernel op) (hs : Linked.exec cls op s = .ok (out, t))
    (h : LinkedRun cls t log u) : LinkedRun cls s (⟨s.kernel.current, op, out⟩ :: log) u

end Ucore
