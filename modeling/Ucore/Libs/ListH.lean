import Ucore.Lib.Ring

set_option autoImplicit false

/-!
# `libs/list.h`

The kernel's intrusive circular lists, over an arbitrary type of list entries: each function is
its source's pointer assignments on the `prev`/`next` fields `Links`.

## Main results

* `ring_listAdd`, `ring_listAddBefore`, `ring_listDel` — on a well-linked list
  the functions insert and delete one entry.
* `listAdd_self` — adding an entry after itself leaves it linked forward only.
-/

namespace Ucore

variable {ν : Type} [DecidableEq ν]

/-- `__list_add`: insert `elm` between two known consecutive entries. -/
def listAddRaw (l : Links ν) (elm prev next : ν) : Links ν := l.splice elm prev next

/-- `__list_del`: make two entries point to each other. -/
def listDelRaw (l : Links ν) (prev next : ν) : Links ν := l.unsplice prev next

/-- `list_init`: an entry that is alone in its list. -/
def listInit (l : Links ν) (elm : ν) : Links ν := l.loop elm

omit [DecidableEq ν] in
/-- `list_next`. -/
def listNext (l : Links ν) (listelm : ν) : ν := l.next listelm

omit [DecidableEq ν] in
/-- `list_prev`. -/
def listPrev (l : Links ν) (listelm : ν) : ν := l.prev listelm

/-- `list_empty`. -/
def listEmpty (l : Links ν) (list : ν) : Bool := l.next list == list

/-- `list_add_before`: insert `elm` before `listelm`. -/
def listAddBefore (l : Links ν) (listelm elm : ν) : Links ν :=
  listAddRaw l elm (l.prev listelm) listelm

/-- `list_add_after`: insert `elm` after `listelm`. -/
def listAddAfter (l : Links ν) (listelm elm : ν) : Links ν :=
  listAddRaw l elm listelm (l.next listelm)

/-- `list_add`: insert `elm` after `listelm`. -/
def listAdd (l : Links ν) (listelm elm : ν) : Links ν := listAddAfter l listelm elm

/-- `list_del`: unlink `listelm`, whose own fields keep their values. -/
def listDel (l : Links ν) (listelm : ν) : Links ν :=
  listDelRaw l (l.prev listelm) (l.next listelm)

section Ring

variable {l : Links ν} {h e : ν} {xs ys : List ν}

lemma listEmpty_iff (r : l.Ring h xs) : listEmpty l h = true ↔ xs = [] := by
  rw [listEmpty, beq_iff_eq, r.next_head_eq_iff]

lemma ring_listAdd (r : l.Ring h (xs ++ ys)) (he : e ∉ h :: (xs ++ ys)) :
    (listAdd l (xs.getLastD h) e).Ring h (xs ++ e :: ys) := by
  rw [listAdd, listAddAfter, (r.path.cut xs ys).1]
  exact r.insert he

lemma ring_listAddBefore (r : l.Ring h (xs ++ ys)) (he : e ∉ h :: (xs ++ ys)) :
    (listAddBefore l (ys.headD h) e).Ring h (xs ++ e :: ys) := by
  rw [listAddBefore, (r.path.cut xs ys).2]
  exact r.insert he

lemma ring_listDel (r : l.Ring h (xs ++ e :: ys)) : (listDel l e).Ring h (xs ++ ys) := r.remove

lemma listAdd_self (l : Links ν) (e : ν) :
    (listAdd l e e).next e = l.next e ∧ (listAdd l e e).prev e = e := by
  simp [listAdd, listAddAfter, listAddRaw, Links.splice]

end Ring

end Ucore
