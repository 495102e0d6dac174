import Mathlib

set_option autoImplicit false

/-!
# `libs/error.h`

The kernel's error codes, as far as the modelled functions return them.
-/

namespace Ucore

/-- The error codes `E_*`; functions return them negated. -/
inductive Errno
  | unspecified
  | badProc
  | inval
  | noMem
  | noFreeProc
  | invalElf
  | killed
  | noDev
  | naDev
  | busy
  | noEnt
  | isDir
  | notDir
  | unimp
  | seek
  | maxOpen
  | exists_
  deriving DecidableEq, Repr

/-- The numbers of the error codes. -/
def Errno.code : Errno → ℤ
  | unspecified => 1
  | badProc => 2
  | inval => 3
  | noMem => 4
  | noFreeProc => 5
  | invalElf => 8
  | killed => 9
  | noDev => 13
  | naDev => 14
  | busy => 15
  | noEnt => 16
  | isDir => 17
  | notDir => 18
  | unimp => 20
  | seek => 21
  | maxOpen => 22
  | exists_ => 23

/-- What a call returns: `0` or a negated error code. -/
def retCode {α : Type} : Except Errno α → ℤ
  | .ok _ => 0
  | .error e => -e.code

lemma retCode_eq_zero {α : Type} {ret : Except Errno α} (h : retCode ret = 0) :
    ∃ a, ret = .ok a := by
  cases ret with
  | ok a => exact ⟨a, rfl⟩
  | error e =>
    cases e <;> cases h

end Ucore
