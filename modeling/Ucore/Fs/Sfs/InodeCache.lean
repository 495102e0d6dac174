import Mathlib

set_option autoImplicit false

/-!
# The cache of inodes (`lab8/kern/fs/sfs/sfs_inode.c`, `lab8/kern/fs/vfs/inode.c`)

`sfs_load_inode` looks an inode up in the list of cached inodes and reads it from the disk if it is
not there. `inode_ref_dec` gives a reference back; when the last one has gone, `sfs_reclaim`
destroys the inode, unless it has been looked up again while the thread waited for the lock of the
file system.

Threads interleave where they block: in `lock_sfs_fs`, and in `lock_sin` or `lock_sfs_io` while an
inode is read, truncated or flushed. The lock `fs_sem` is a semaphore with one permit; here it is
the thread that holds it. The counters are `int`s that count references and pending calls, and stay
small.

## Main definitions

* `CachedInode` — the fields of an inode and its `sfs_inode` that the protocol uses.
* `CachePc` — where a thread is.
* `CacheState`, `CacheOp`, `CacheState.exec` — the states and the steps.
* `CacheReach` — the states reached, with what has happened.
-/

namespace Ucore

open Function

/-- The counters, the number and the flags of an inode in memory. -/
structure CachedInode where
  ino : BitVec 32
  refCount : ℤ
  reclaimCount : ℤ
  dirty : Bool
  nlinks : BitVec 16
  deriving DecidableEq

/-- `inode_ref_inc` -/
def CachedInode.refInc (v : CachedInode) : CachedInode := { v with refCount := v.refCount + 1 }

/-- `sfs_create_inode`, with the reference of `inode_init`. -/
def sfsCreateInode (ino : BitVec 32) (nlinks : BitVec 16) : CachedInode :=
  ⟨ino, 1, 1, false, nlinks⟩

/-- What `lookup_sfs_nolock` does to the inode that it finds. -/
def CachedInode.found (v : CachedInode) : CachedInode :=
  if v.refInc.refCount = 1 then { v.refInc with reclaimCount := v.reclaimCount + 1 } else v.refInc

/-- Where a thread is. -/
inductive CachePc
  /-- outside -/
  | idle
  /-- `sfs_load_inode`, in `lock_sfs_fs` -/
  | loadLock (ino : BitVec 32)
  /-- `sfs_load_inode`, in `sfs_rbuf` -/
  | loadRead (ino : BitVec 32)
  /-- `sfs_reclaim`, in `lock_sfs_fs` -/
  | reclaimLock (n : ℕ)
  /-- `sfs_reclaim`, in `vop_truncate` -/
  | truncating (n : ℕ)
  /-- `sfs_reclaim`, in `vop_fsync` -/
  | flushing (n : ℕ)
  /-- `sfs_reclaim`, after `unlock_sfs_fs` -/
  | killing (n : ℕ)
  /-- `sfs_sync`, in `lock_sfs_fs` -/
  | syncLock
  /-- `sfs_sync`, in `vop_fsync` -/
  | syncing
  deriving DecidableEq

/-- The thread holds the lock of the file system. -/
def CachePc.holds : CachePc → Bool
  | .loadRead _ | .truncating _ | .flushing _ | .syncing => true
  | _ => false

/-- The thread is destroying the inode. -/
def CachePc.owns (n : ℕ) : CachePc → Bool
  | .truncating m | .flushing m | .killing m => m = n
  | _ => false

/-- Failed assertions, and the use of an inode that has been destroyed. -/
inductive CachePanic
  /-- `assert(inode_ref_count(node) > 0)` in `inode_ref_dec` -/
  | refCount
  /-- `assert(sin->reclaim_count > 0)` in `sfs_reclaim` -/
  | reclaimCount
  /-- `assert(din->nlinks != 0)` in `sfs_load_inode` -/
  | nlinks
  /-- `assert(inode_ref_count(node) == 0)` in `inode_kill` -/
  | kill
  /-- the inode has been destroyed -/
  | destroyed
  deriving DecidableEq

/-- What happens to an inode: a call of `sfs_load_inode` returns it, the last reference is given
back, it is destroyed. -/
inductive CacheEvent
  | loaded (n : ℕ)
  | zeroed (n : ℕ)
  | killed (n : ℕ)
  deriving DecidableEq

/-- The inodes in memory by their addresses, the list of cached ones, the addresses that have been
used, the thread that holds the lock, and where the threads are. -/
structure CacheState (T : Type) where
  nodes : ℕ → Option CachedInode
  inodeList : List ℕ
  used : Finset ℕ
  fsSem : Option T
  pc : T → CachePc

/-- The steps of a thread. The flags and the counts of links may change at any time. -/
inductive CacheOp
  /-- the call of `sfs_load_inode` -/
  | load (ino : BitVec 32)
  /-- the lock has been taken; `mem` says whether there is memory for the inode -/
  | loadLocked (ino : BitVec 32) (mem : Bool)
  /-- the inode has been read, unless that or the allocation fails -/
  | loadRead (ino : BitVec 32) (nlinks : Option (BitVec 16)) (new : ℕ)
  /-- `inode_ref_inc` by a thread that has a reference -/
  | refInc (n : ℕ)
  /-- `inode_ref_dec` by a thread that has a reference -/
  | refDec (n : ℕ)
  /-- the lock has been taken in `sfs_reclaim` -/
  | reclaimLocked (n : ℕ)
  /-- the return of `vop_truncate` -/
  | truncated (n : ℕ) (ok : Bool)
  /-- the return of `vop_fsync` -/
  | flushed (n : ℕ) (ok : Bool)
  /-- `vop_kill` -/
  | kill (n : ℕ)
  /-- the call of `sfs_sync`, the lock and the end -/
  | sync
  | syncLocked
  | synced
  /-- a change of the inode -/
  | write (n : ℕ) (dirty : Bool) (nlinks : BitVec 16)
  deriving DecidableEq

namespace CacheState

variable {T : Type} [DecidableEq T]

/-- Change an inode. -/
def set (x : CacheState T) (n : ℕ) (v : CachedInode) : CacheState T :=
  { x with nodes := update x.nodes n (some v) }

/-- A thread goes on elsewhere, and the lock is held as `l` says. -/
def goto (x : CacheState T) (i : T) (a : CachePc) (l : Option T) : CacheState T :=
  { x with pc := update x.pc i a, fsSem := l }

/-- The search of `lookup_sfs_nolock`. -/
def lookup (x : CacheState T) (ino : BitVec 32) : Option ℕ :=
  x.inodeList.find? fun n => (x.nodes n).any fun v => v.ino = ino

/-- The end of `sfs_reclaim`: `sfs_remove_links` and `unlock_sfs_fs`. -/
def removeLinks (x : CacheState T) (i : T) (n : ℕ) : CacheState T :=
  { x.goto i (.killing n) none with inodeList := x.inodeList.erase n }

/-- `if (sin->dirty)` in `sfs_reclaim`, and what follows. -/
def reclaimFlush (x : CacheState T) (i : T) (n : ℕ) (v : CachedInode) : CacheState T :=
  if v.dirty then x.goto i (.flushing n) (some i) else x.removeLinks i n

/-- `if (sin->din->nlinks == 0)` in `sfs_reclaim`, and what follows. -/
def reclaimTruncate (x : CacheState T) (i : T) (n : ℕ) (v : CachedInode) : CacheState T :=
  if v.nlinks = 0 then x.goto i (.truncating n) (some i) else x.reclaimFlush i n v

/-- The end of `sfs_load_inode`: the new inode is put into the list and the lock is given back. -/
def setLinks (x : CacheState T) (i : T) (new : ℕ) (v : CachedInode) : CacheState T :=
  { (x.set new v).goto i .idle none with
    inodeList := new :: x.inodeList, used := insert new x.used }

/-- `vop_kill` -/
def free (x : CacheState T) (i : T) (n : ℕ) : CacheState T :=
  { x.goto i .idle x.fsSem with nodes := update x.nodes n none }

/-- The inode at an address. -/
def node (x : CacheState T) (n : ℕ) : Except CachePanic CachedInode :=
  match x.nodes n with
  | some v => .ok v
  | none => .error .destroyed

/-- `sfs_load_inode` after `lock_sfs_fs`, up to `sfs_rbuf`. -/
def loadLookup (x : CacheState T) (i : T) (ino : BitVec 32) (mem : Bool) :
    Except CachePanic (Option CacheEvent × CacheState T) :=
  match x.lookup ino with
  | some n => do
    let v ← x.node n
    .ok (some (.loaded n), (x.set n v.found).goto i .idle none)
  | none =>
    if mem then .ok (none, x.goto i (.loadRead ino) (some i)) else .ok (none, x.goto i .idle none)

/-- `sfs_load_inode` after `sfs_rbuf`. -/
def loadCreate (x : CacheState T) (i : T) (ino : BitVec 32) (nlinks : Option (BitVec 16))
    (new : ℕ) : Except CachePanic (Option CacheEvent × CacheState T) :=
  match nlinks with
  | none => .ok (none, x.goto i .idle none)
  | some nlinks =>
    if nlinks = 0 then .error .nlinks
    else .ok (some (.loaded new), x.setLinks i new (sfsCreateInode ino nlinks))

/-- `inode_ref_dec` up to `lock_sfs_fs` in `sfs_reclaim`. -/
def refDec (x : CacheState T) (i : T) (n : ℕ) (v : CachedInode) :
    Except CachePanic (Option CacheEvent × CacheState T) :=
  if ¬0 < v.refCount then .error .refCount
  else if v.refCount - 1 = 0 then
    .ok (some (.zeroed n),
      (x.set n { v with refCount := v.refCount - 1 }).goto i (.reclaimLock n) x.fsSem)
  else .ok (none, x.set n { v with refCount := v.refCount - 1 })

/-- `sfs_reclaim` after `lock_sfs_fs`. -/
def reclaim (x : CacheState T) (i : T) (n : ℕ) (v : CachedInode) :
    Except CachePanic (Option CacheEvent × CacheState T) :=
  if ¬0 < v.reclaimCount then .error .reclaimCount
  else if v.reclaimCount - 1 ≠ 0 ∨ v.refCount ≠ 0 then
    .ok (none, (x.set n { v with reclaimCount := v.reclaimCount - 1 }).goto i .idle none)
  else
    .ok (none, (x.set n { v with reclaimCount := v.reclaimCount - 1 }).reclaimTruncate i n
      { v with reclaimCount := v.reclaimCount - 1 })

/-- A step of the thread `i`. -/
def exec (x : CacheState T) (i : T) : CacheOp → Except CachePanic (Option CacheEvent × CacheState T)
  | .load ino => .ok (none, x.goto i (.loadLock ino) x.fsSem)
  | .loadLocked ino mem => x.loadLookup i ino mem
  | .loadRead ino nlinks new => x.loadCreate i ino nlinks new
  | .refInc n => do
    let v ← x.node n
    .ok (none, x.set n v.refInc)
  | .refDec n => do
    let v ← x.node n
    x.refDec i n v
  | .reclaimLocked n => do
    let v ← x.node n
    x.reclaim i n v
  | .truncated n ok => do
    let v ← x.node n
    .ok (none, if ok then x.reclaimFlush i n v else x.goto i .idle none)
  | .flushed n ok => do
    let v ← x.node n
    .ok (none, if ok then (x.set n { v with dirty := false }).removeLinks i n
      else (x.set n { v with dirty := true }).goto i .idle none)
  | .kill n => do
    let v ← x.node n
    if v.refCount ≠ 0 then .error .kill
    else .ok (some (.killed n), x.free i n)
  | .sync => .ok (none, x.goto i .syncLock x.fsSem)
  | .syncLocked => .ok (none, x.goto i .syncing (some i))
  | .synced => .ok (none, x.goto i .idle none)
  | .write n dirty nlinks => do
    let v ← x.node n
    .ok (none, x.set n { v with dirty := dirty, nlinks := nlinks })

/-- There is a reference to the inode. -/
def Held (x : CacheState T) (n : ℕ) : Prop := ∃ v, x.nodes n = some v ∧ 0 < v.refCount

/-- **When a step can be taken.** A lock is taken when nobody holds it; an inode is created at an
address that has not been used; a thread gives back or duplicates a reference that there is. -/
def Enabled (x : CacheState T) (i : T) : CacheOp → Prop
  | .load _ | .sync => x.pc i = .idle
  | .loadLocked ino _ => x.pc i = .loadLock ino ∧ x.fsSem = none
  | .loadRead ino _ new => x.pc i = .loadRead ino ∧ new ∉ x.used
  | .refInc n | .refDec n => x.pc i = .idle ∧ x.Held n
  | .reclaimLocked n => x.pc i = .reclaimLock n ∧ x.fsSem = none
  | .truncated n _ => x.pc i = .truncating n
  | .flushed n _ => x.pc i = .flushing n
  | .kill n => x.pc i = .killing n
  | .syncLocked => x.pc i = .syncLock ∧ x.fsSem = none
  | .synced => x.pc i = .syncing
  | .write n _ _ => x.nodes n ≠ none

instance (x : CacheState T) (n : ℕ) : Decidable (x.Held n) :=
  decidable_of_iff ((x.nodes n).any fun v => 0 < v.refCount) <| by
    unfold Held
    cases x.nodes n <;> simp

instance (x : CacheState T) (i : T) : (op : CacheOp) → Decidable (x.Enabled i op)
  | .load _ | .sync | .truncated _ _ | .flushed _ _ | .kill _ | .synced =>
    inferInstanceAs (Decidable (_ = _))
  | .loadLocked _ _ | .reclaimLocked _ | .syncLocked => inferInstanceAs (Decidable (_ ∧ _))
  | .loadRead _ _ new => inferInstanceAs (Decidable (_ ∧ new ∉ x.used))
  | .refInc n | .refDec n => inferInstanceAs (Decidable (_ ∧ x.Held n))
  | .write n _ _ => inferInstanceAs (Decidable (x.nodes n ≠ none))

/-- The state after the file system has been mounted. -/
def init : CacheState T := ⟨fun _ => none, [], ∅, none, fun _ => .idle⟩

/-- Take the steps of a list if they can be taken. -/
def execAll : List (T × CacheOp) → CacheState T → Option (List CacheEvent × CacheState T)
  | [], x => some ([], x)
  | (i, op) :: l, x =>
    if x.Enabled i op then
      match x.exec i op with
      | .ok (e, y) => (execAll l y).map fun r => (e.toList ++ r.1, r.2)
      | .error _ => none
    else none

end CacheState

/-- **The states reached**, each with what has happened, the first event first. -/
inductive CacheReach {T : Type} [DecidableEq T] : List CacheEvent → CacheState T → Prop
  | init : CacheReach [] CacheState.init
  | step {log : List CacheEvent} {x y : CacheState T} {i : T} {op : CacheOp} {e : Option CacheEvent}
    (h : CacheReach log x) (he : x.Enabled i op) (hs : x.exec i op = .ok (e, y)) :
    CacheReach (log ++ e.toList) y

end Ucore
