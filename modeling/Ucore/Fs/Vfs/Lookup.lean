import Ucore.Lib.Comp
import Ucore.Libs.Error

set_option autoImplicit false

/-!
# Names of files (`lab8/kern/fs/vfs/vfslookup.c`, `vfs.c`, `vfsdev.c`, `vfspath.c`)

A path is a buffer in memory. `get_device` takes the name of a device off its front and overwrites
the colon behind it, so that a second call with the same buffer sees another path. `vfs_open` makes
such a second call to find out where a new file belongs.

## Main definitions

* `Vfs` — what paths are relative to; `Vfs.getRoot`, `Vfs.getCurdir`, `Vfs.getBootfs`.
* `getDevice`, `vfsLookup`, `vfsLookupParent`.
* `SamePlace` — the paths for which both calls find the same place.

## Main results

* `getDevice_plain`, `getDevice_device`, `getDevice_again` — what `get_device` does.
* `lookup_parent_iff` — `vfs_lookup_parent` finds the place where `vfs_lookup` looked.
-/

namespace Ucore

open Comp List

/-- `vfs_dev_t`; `fs` is the root of the file system on the device. -/
structure VfsDev (ι : Type) where
  devname : List UInt8
  devnode : ι
  fs : Option ι
  mountable : Bool

/-- What paths are relative to: the current directory, the root of the boot file system, the
devices, and for an inode the root of its file system. -/
structure Vfs (ι : Type) where
  pwd : Option ι
  bootfsNode : Option ι
  vdevList : List (VfsDev ι)
  fsRoot : ι → Option ι

/-- The buffer with the path, and the calls of `vop_lookup`. -/
structure LookupState (ι : Type) where
  path : List UInt8
  looked : List (ι × List UInt8)

/-- `assert(node->in_fs != NULL)` -/
inductive VfsPanic
  | inFs
  deriving DecidableEq, Repr

variable {ι : Type} {v : Vfs ι} {path : List UInt8}

section Functions

variable (v : Vfs ι)

/-- `vfs_get_curdir` -/
def Vfs.getCurdir : Except Errno ι :=
  match v.pwd with
  | some node => .ok node
  | none => .error .noEnt

/-- `vfs_get_bootfs` -/
def Vfs.getBootfs : Except Errno ι :=
  match v.bootfsNode with
  | some node => .ok node
  | none => .error .noEnt

/-- `vfs_get_root` -/
def Vfs.getRoot (devname : List UInt8) : Except Errno ι :=
  match v.vdevList.find? (·.devname = devname) with
  | none => .error .noDev
  | some vdev =>
    match vdev.fs with
    | some root => .ok root
    | none => if vdev.mountable then .error .naDev else .ok vdev.devnode

/-- The string that starts at an offset of a buffer. -/
def strAt (buf : List UInt8) (o : ℕ) : List UInt8 := (buf.drop o).takeWhile (· ≠ 0)

/-- The first loop of `get_device`, from the index `i` on: the values of `slash` and `colon`. -/
def scanDevice : List UInt8 → ℕ → Option ℕ × Option ℕ
  | [], _ => (none, none)
  | c :: l, i =>
    if c = 0 then (none, none)
    else if c = 58 then (none, some i)
    else if c = 47 then (some i, none)
    else scanDevice l (i + 1)

/-- `while (path[i] == '/') i ++;` -/
def skipSlashes (buf : List UInt8) (i : ℕ) : ℕ := i + ((buf.drop i).takeWhile (· = 47)).length

/-- `get_device` on a path without a device name: the offset of `*subpath` and the inode. -/
def plainDevice (path : List UInt8) : Except VfsPanic (Except Errno (ℕ × ι)) :=
  if (scanDevice path 0).2 = none ∧ (scanDevice path 0).1 ≠ some 0 then
    .ok (v.getCurdir.map fun node => (0, node))
  else if path.headD 0 = 47 then .ok (v.getBootfs.map fun node => (skipSlashes path 1, node))
  else
    match v.getCurdir with
    | .error e => .ok (.error e)
    | .ok node =>
      match v.fsRoot node with
      | none => .error .inFs
      | some root => .ok (.ok (skipSlashes path 1, root))

/-- `get_device` -/
def getDevice : Comp VfsPanic (LookupState ι) (Except Errno (ℕ × ι)) := do
  let s ← Comp.read
  match (scanDevice s.path 0).2 with
  | some (c + 1) =>
    -- `path[colon] = '\0'`
    let path := s.path.set (c + 1) 0
    Comp.modify fun s => { s with path := path }
    pure ((v.getRoot (strAt path 0)).map fun node => (skipSlashes path (c + 2), node))
  | _ => fun s => (plainDevice v s.path).map fun r => (r, s)

/-- `vfs_lookup`; `lookup` is what `vop_lookup` returns. -/
def vfsLookup (lookup : ι → List UInt8 → Except Errno ι) :
    Comp VfsPanic (LookupState ι) (Except Errno ι) :=
  (getDevice v).andThen fun (off, node) => do
    let s ← Comp.read
    if s.path.getD off 0 ≠ 0 then
      Comp.modify fun s => { s with looked := s.looked ++ [(node, strAt s.path off)] }
      pure (lookup node (strAt s.path off))
    else pure (.ok node)

/-- `vfs_lookup_parent` -/
def vfsLookupParent : Comp VfsPanic (LookupState ι) (Except Errno (ι × List UInt8)) :=
  (getDevice v).andThen fun (off, node) => do
    let s ← Comp.read
    pure (.ok (node, strAt s.path off))

/-- **The paths that lead to the same place twice**: those without a device name, and those to a
file with the name of the device in the current directory, if that is the root of the device. -/
def SamePlace (path : List UInt8) : Prop :=
  ∀ c, (scanDevice path 0).2 = some (c + 1) → ∃ node, v.pwd = some node ∧
    v.getRoot (path.take (c + 1)) = .ok node ∧
    strAt path (skipSlashes path (c + 2)) = path.take (c + 1)

end Functions

/-! ## `get_device` -/

section Device

variable {l : List (ι × List UInt8)} {c : ℕ}

/-- Where the scan finds a colon. -/
lemma scanDevice_colon {path : List UInt8} {i k : ℕ} (h : (scanDevice path i).2 = some k) :
    ∃ a b, path = a ++ 58 :: b ∧ k = i + a.length ∧ ∀ x ∈ a, x ≠ 0 ∧ x ≠ 58 ∧ x ≠ 47 := by
  induction path generalizing i with
  | nil => cases h
  | cons x path ih =>
    rw [scanDevice] at h
    split_ifs at h with h0 h1 h2
    · cases h
      exact ⟨[], path, by rw [h1]; rfl, rfl, by simp⟩
    · obtain ⟨a, b, rfl, hk, ha⟩ := ih h
      refine ⟨x :: a, b, rfl, by rw [hk, length_cons]; omega, fun y hy => ?_⟩
      rcases mem_cons.mp hy with rfl | hy
      · exact ⟨h0, h1, h2⟩
      · exact ha y hy

/-- A string without separators. -/
lemma scanDevice_string {a : List UInt8} (ha : ∀ x ∈ a, x ≠ 0 ∧ x ≠ 58 ∧ x ≠ 47) (b : List UInt8)
    (i : ℕ) : scanDevice (a ++ 0 :: b) i = (none, none) := by
  induction a generalizing i with
  | nil => rfl
  | cons x a ih =>
    obtain ⟨h0, h1, h2⟩ := ha x mem_cons_self
    rw [cons_append, scanDevice, if_neg h0, if_neg h1, if_neg h2]
    exact ih (fun y hy => ha y (mem_cons_of_mem _ hy)) _

/-- **A path without a device name** is not changed. -/
lemma getDevice_plain (h : ∀ c, (scanDevice path 0).2 ≠ some (c + 1)) (l : List (ι × List UInt8)) :
    getDevice v ⟨path, l⟩ = (plainDevice v path).map fun r => (r, ⟨path, l⟩) := by
  rw [getDevice, read_bind_apply]
  rcases hs : (scanDevice path 0).2 with _ | _ | c
  · simp only
  · simp only
  · exact absurd hs (h c)

/-- The parts of a path with a device name. -/
lemma device_parts (h : (scanDevice path 0).2 = some (c + 1)) :
    ∃ a b, path = a ++ 58 :: b ∧ path.take (c + 1) = a ∧ path.set (c + 1) 0 = a ++ 0 :: b ∧
      (∀ y k, (a ++ y :: b).drop (c + 2 + k) = b.drop k) ∧ ∀ x ∈ a, x ≠ 0 ∧ x ≠ 58 ∧ x ≠ 47 := by
  obtain ⟨a, b, rfl, hlen, ha⟩ := scanDevice_colon h
  rw [Nat.zero_add] at hlen
  refine ⟨a, b, rfl, by simp [hlen], by simp [hlen], fun y k => ?_, ha⟩
  rw [show c + 2 + k = a.length + (k + 1) by omega, drop_length_add_append, drop_succ_cons]

lemma strAt_zero {a : List UInt8} (ha : ∀ x ∈ a, x ≠ 0 ∧ x ≠ 58 ∧ x ≠ 47) (b : List UInt8) :
    strAt (a ++ 0 :: b) 0 = a := by
  rw [strAt, drop_zero, takeWhile_append_of_pos fun x hx => by simp [(ha x hx).1],
    takeWhile_cons_of_neg (by simp), append_nil]

section

variable (h : (scanDevice path 0).2 = some (c + 1))
include h

/-- What stands behind the name of the device is not changed by the first call. -/
lemma strAt_device : skipSlashes (path.set (c + 1) 0) (c + 2) = skipSlashes path (c + 2) ∧
      ∀ k, strAt (path.set (c + 1) 0) (c + 2 + k) = strAt path (c + 2 + k) := by
  obtain ⟨a, b, rfl, -, hset, hdrop, -⟩ := device_parts h
  rw [hset]
  refine ⟨?_, fun k => ?_⟩
  · rw [skipSlashes, skipSlashes, ← Nat.add_zero (c + 2), hdrop, hdrop]
  · rw [strAt, strAt, hdrop, hdrop]

/-- **A path with a device name**: the name is cut off. -/
lemma getDevice_device (l : List (ι × List UInt8)) :
    getDevice v ⟨path, l⟩ = .ok ((v.getRoot (path.take (c + 1))).map fun node =>
      (skipSlashes path (c + 2), node), ⟨path.set (c + 1) 0, l⟩) := by
  have hskip := (strAt_device h).1
  rw [getDevice, read_bind_apply]
  simp only [h]
  rw [hskip]
  obtain ⟨a, b, rfl, htake, hset, -, ha⟩ := device_parts h
  rw [hset, htake, strAt_zero ha]
  rfl

/-- **The second call** sees a relative path, the name of the device. -/
lemma getDevice_again (l : List (ι × List UInt8)) : getDevice v ⟨path.set (c + 1) 0, l⟩ =
      .ok (v.getCurdir.map fun node => (0, node), ⟨path.set (c + 1) 0, l⟩) := by
  obtain ⟨a, b, -, -, hset, -, ha⟩ := device_parts h
  have hscan := scanDevice_string ha b 0
  rw [hset, getDevice_plain (by simp [hscan]), plainDevice, hscan, if_pos (by simp)]
  rfl

lemma vfsLookupParent_again (l : List (ι × List UInt8)) :
    vfsLookupParent v ⟨path.set (c + 1) 0, l⟩ =
      .ok (v.getCurdir.map fun node => (node, path.take (c + 1)), ⟨path.set (c + 1) 0, l⟩) := by
  have hstr : strAt (path.set (c + 1) 0) 0 = path.take (c + 1) := by
    obtain ⟨a, b, -, htake, hset, -, ha⟩ := device_parts h
    rw [hset, htake, strAt_zero ha]
  have hagain := getDevice_again (v := v) h l
  rw [← hstr]
  cases hcur : v.getCurdir with
  | error e =>
    rw [hcur] at hagain
    exact andThen_of_fail hagain _
  | ok node =>
    rw [hcur] at hagain
    exact andThen_of_ok hagain _

end

end Device

/-! ## The two calls of `vfs_open` -/

section Twice

variable {dir : ι} {name : List UInt8} {lookup : ι → List UInt8 → Except Errno ι}
  {t : LookupState ι}

/-- What `vfs_lookup` has done when it has passed a name to `vop_lookup`. -/
lemma vfsLookup_looked {r : Except Errno ι} (h : vfsLookup v lookup ⟨path, []⟩ = .ok (r, t))
    (hl : t.looked = [(dir, name)]) :
    ∃ off path', getDevice v ⟨path, []⟩ = .ok (.ok (off, dir), ⟨path', []⟩) ∧
      t = ⟨path', [(dir, name)]⟩ ∧ name = strAt path' off := by
  obtain ⟨a, s, hget, hrest⟩ := bind_eq_ok.mp h
  have hs : s.looked = [] := by
    by_cases hc : ∃ c, (scanDevice path 0).2 = some (c + 1)
    · obtain ⟨c, hc⟩ := hc
      rw [getDevice_device hc] at hget
      cases hget
      rfl
    · rw [getDevice_plain fun c e => hc ⟨c, e⟩] at hget
      cases hp : plainDevice v path with
      | error p => rw [hp] at hget; cases hget
      | ok r => rw [hp] at hget; cases hget; rfl
  obtain ⟨path', looked⟩ := s
  subst hs
  cases a with
  | error e =>
    cases hrest
    cases hl
  | ok r =>
    obtain ⟨off, node⟩ := r
    dsimp only at hrest
    rw [read_bind_apply] at hrest
    split_ifs at hrest with hne
    · rw [modify_bind_apply] at hrest
      cases hrest
      cases hl
      exact ⟨off, path', hget, rfl, rfl⟩
    · cases hrest
      cases hl

/-- **`vfs_lookup_parent` finds the place where `vfs_lookup` looked** iff the path has no device
name, or the device name itself is looked for in the current directory and that is the root of the
device. -/
theorem lookup_parent_iff (v : Vfs ι) (lookup : ι → List UInt8 → Except Errno ι)
    (path : List UInt8) (dir : ι) (name : List UInt8) (t : LookupState ι)
    (h : vfsLookup v lookup ⟨path, []⟩ = .ok (.error .noEnt, t)) (hl : t.looked = [(dir, name)]) :
    (∃ u, vfsLookupParent v t = .ok (.ok (dir, name), u)) ↔ SamePlace v path := by
  obtain ⟨off, path', hget, rfl, rfl⟩ := vfsLookup_looked h hl
  by_cases hc : ∃ c, (scanDevice path 0).2 = some (c + 1)
  · obtain ⟨c, hc⟩ := hc
    rw [getDevice_device hc] at hget
    cases hr : v.getRoot (path.take (c + 1)) with
    | error e =>
      rw [hr] at hget
      cases hget
    | ok root =>
      rw [hr] at hget
      cases hget
      have hname : strAt (path.set (c + 1) 0) (skipSlashes path (c + 2)) =
          strAt path (skipSlashes path (c + 2)) := (strAt_device hc).2 _
      rw [hname, vfsLookupParent_again hc]
      constructor
      · rintro ⟨u, hu⟩ c' hc'
        cases hc.symm.trans hc'
        cases hpwd : v.pwd with
        | none => simp [Vfs.getCurdir, hpwd, Except.map] at hu
        | some node =>
          simp only [Vfs.getCurdir, hpwd, Except.map, Except.ok.injEq, Prod.mk.injEq] at hu
          exact ⟨dir, by rw [hu.1.1], hr, hu.1.2.symm⟩
      · intro hsame
        obtain ⟨node, hpwd, hroot, hstr⟩ := hsame c hc
        cases hr.symm.trans hroot
        simp [Vfs.getCurdir, hpwd, Except.map, hstr]
  · have hplain : ∀ c, (scanDevice path 0).2 ≠ some (c + 1) := fun c e => hc ⟨c, e⟩
    refine iff_of_true ?_ fun c e => absurd e (hplain c)
    rw [getDevice_plain hplain] at hget
    cases hp : plainDevice v path with
    | error p =>
      rw [hp] at hget
      cases hget
    | ok r =>
      rw [hp] at hget
      cases hget
      refine ⟨⟨path, [(dir, strAt path off)]⟩, ?_⟩
      have hagain : getDevice v ⟨path, [(dir, strAt path off)]⟩ =
          .ok (.ok (off, dir), ⟨path, [(dir, strAt path off)]⟩) := by
        rw [getDevice_plain hplain, hp]
        rfl
      exact andThen_of_ok hagain _

/-- The relative path `f`. -/
theorem lookup_parent_relative :
    let v : Vfs ℕ := ⟨some 7, none, [], fun _ => none⟩
    (∃ u, vfsLookupParent v ⟨[102], [(7, [102])]⟩ = .ok (.ok (7, [102]), u)) ↔ SamePlace v [102] :=
  lookup_parent_iff _ (fun _ _ => .error .noEnt) [102] 7 [102] ⟨[102], [(7, [102])]⟩ rfl rfl

/-- **The second call finds another place**: the path `d:f` leads `vfs_lookup` to `f` in the root 5
of the device `d`, and `vfs_lookup_parent` to `d` in the current directory 7. -/
theorem lookup_parent_moves :
    let v : Vfs ℕ := ⟨some 7, none, [⟨[100], 1, some 5, true⟩], fun _ => some 5⟩
    vfsLookup v (fun _ _ => .error .noEnt) ⟨[100, 58, 102], []⟩ =
        .ok (.error .noEnt, ⟨[100, 0, 102], [(5, [102])]⟩) ∧
      vfsLookupParent v ⟨[100, 0, 102], [(5, [102])]⟩ =
        .ok (.ok (7, [100]), ⟨[100, 0, 102], [(5, [102])]⟩) :=
  ⟨rfl, rfl⟩

end Twice

end Ucore
