import Ucore.Process.Proc

set_option autoImplicit false

/-!
# Wait queues and semaphores (`lab8/kern/sync/wait.c`, `lab8/kern/sync/sem.c`)

The value of a semaphore is an `int`. `__down` is cut at its call of `schedule`: `down` is the part
before it and `downResume` the part after it.

## Main definitions

* `waitCurrentSet`, `waitCurrentDel`, `wakeupWait`, `wakeupQueue`.
* `semUp`, `semDown`, `semDownResume`, `semTryDown`.
-/

namespace Ucore

open Function

/-! ## Wait queues -/

/-- `wait_queue_del` for the `wait_t` of `p` -/
def waitQueueDel (queue : QueueId) (p : ℕ) : Kern Unit := do
  let s ← Comp.read
  Comp.ensure (p ∈ s.queues queue) .waitDel
  Comp.modify fun s => { s with queues := update s.queues queue ((s.queues queue).erase p) }

/-- The process after it has gone to sleep. -/
def Proc.sleep (waitState : BitVec 32) (q : Proc) : Proc :=
  { q with state := .sleeping, waitState := waitState }

/-- `wait_current_set` -/
def waitCurrentSet (queue : QueueId) (waitState : BitVec 32) : Kern Unit := do
  let s ← Comp.read
  Comp.modify fun s => { s with wakeupFlags := update s.wakeupFlags s.current wtInterrupted }
  Comp.modify (·.modProc s.current (Proc.sleep waitState))
  Comp.modify fun s =>
    { s with queues := update s.queues queue (s.queues queue ++ [s.current]) }

/-- `wait_current_del` -/
def waitCurrentDel (queue : QueueId) : Kern Unit := do
  let s ← Comp.read
  if s.current ∈ s.queues queue then waitQueueDel queue s.current else pure ()

/-- `wakeup_wait` with `del` set, for the `wait_t` of `p` -/
def wakeupWait (cls : SchedClass) (queue : QueueId) (p : ℕ) (flags : BitVec 32) : Kern Unit := do
  waitQueueDel queue p
  Comp.modify fun s => { s with wakeupFlags := update s.wakeupFlags p flags }
  wakeupProc cls p

/-- The loop of `wakeup_queue` with `del` set, for the processes of the queue. -/
def wakeupAll (cls : SchedClass) (queue : QueueId) (flags : BitVec 32) : List ℕ → Kern Unit
  | [] => pure ()
  | p :: l => do
    wakeupWait cls queue p flags
    wakeupAll cls queue flags l

/-- `wakeup_queue` with `del` set -/
def wakeupQueue (cls : SchedClass) (queue : QueueId) (flags : BitVec 32) : Kern Unit := do
  let s ← Comp.read
  wakeupAll cls queue flags (s.queues queue)

/-! ## Semaphores -/

/-- `sem->value > 0`, for an `int` -/
def semPositive (value : BitVec 32) : Prop := 0 < value.toInt

instance (value : BitVec 32) : Decidable (semPositive value) :=
  inferInstanceAs (Decidable (0 < value.toInt))

/-- `__up` with `WT_KSEM`: the process whose `down` it completes, if any. -/
def semUp (cls : SchedClass) (k : ℕ) : Kern (Option ℕ) := do
  let s ← Comp.read
  match s.queues (.sem k) with
  | [] => do
    Comp.modify fun s => { s with semValue := update s.semValue k (s.semValue k + 1) }
    pure none
  | p :: _ => do
    let q ← getProc p
    Comp.ensure (q.waitState = wtKsem) .upState
    wakeupWait cls (.sem k) p wtKsem
    pure (some p)

/-- `sem->value --` -/
def semDecrement (k : ℕ) : Kern Unit :=
  Comp.modify fun s => { s with semValue := update s.semValue k (s.semValue k - 1) }

/-- `__down` with `WT_KSEM` up to the call of `schedule`: whether it returns without that call. -/
def semDown (k : ℕ) : Kern Bool := do
  let s ← Comp.read
  if semPositive (s.semValue k) then do
    semDecrement k
    pure true
  else do
    waitCurrentSet (.sem k) wtKsem
    Comp.modify fun s =>
      { s with conts := update s.conts s.current (.down k), switching := true }
    pure false

/-- The part of `__down` and `down` after `schedule`. -/
def semDownResume (k : ℕ) : Kern Unit := do
  waitCurrentDel (.sem k)
  let s ← Comp.read
  let flags := if s.wakeupFlags s.current ≠ wtKsem then s.wakeupFlags s.current else 0
  Comp.ensure (flags = 0) .downFlags
  Comp.modify fun s => { s with conts := update s.conts s.current .run }

/-- `try_down` -/
def semTryDown (k : ℕ) : Kern Bool := do
  let s ← Comp.read
  if semPositive (s.semValue k) then do
    semDecrement k
    pure true
  else pure false

end Ucore
