import UCore.Lib.Ring

namespace UCore
set_option autoImplicit true

variable {ν : Type} [DecidableEq ν]

def listInit (l : Links ν) (elm : ν) : Links ν := (l.setNext elm elm).setPrev elm elm

/-- `__list_add`: the chained assignment `prev->next = next->prev = elm` stores right to left. -/
def listAdd' (l : Links ν) (elm prev next : ν) : Links ν :=
  let l := l.setPrev next elm
  let l := l.setNext prev elm
  let l := l.setNext elm next
  l.setPrev elm prev

/-- `__list_del`. -/
def listDel' (l : Links ν) (prev next : ν) : Links ν :=
  let l := l.setNext prev next
  l.setPrev next prev

def listAddAfter (l : Links ν) (listelm elm : ν) : Links ν :=
  listAdd' l elm listelm (l.next listelm)

def listAdd (l : Links ν) (listelm elm : ν) : Links ν := listAddAfter l listelm elm

def listAddBefore (l : Links ν) (listelm elm : ν) : Links ν :=
  listAdd' l elm (l.prev listelm) listelm

def listDel (l : Links ν) (listelm : ν) : Links ν :=
  listDel' l (l.prev listelm) (l.next listelm)

def listEmpty (l : Links ν) (list : ν) : Bool := decide (l.next list = list)

def listNext (l : Links ν) (listelm : ν) : ν := l.next listelm

def listPrev (l : Links ν) (listelm : ν) : ν := l.prev listelm

theorem listInit_ring (l : Links ν) (elm : ν) : (listInit l elm).Ring elm [] :=
  Links.Ring.single l elm

variable {l : Links ν} {h : ν}

theorem listEmpty_iff (hr : l.Ring h xs) : listEmpty l h = true ↔ xs = [] := by
  rw [listEmpty, decide_eq_true_iff, hr.next_head]
  cases xs with
  | nil => simp
  | cons x xs => simpa using hr.mem_ne List.mem_cons_self

/-- `list_add` on the header puts the element first. -/
theorem listAdd_head (hr : l.Ring h xs) (he : e ∉ h :: xs) : (listAdd l h e).Ring h (e :: xs) := by
  have hne : e ≠ l.next h := by
    rw [hr.next_head]
    cases xs with
    | nil => exact fun hh => he (by simp [hh])
    | cons x xs => exact fun hh => he (by simp at hh; simp [hh])
  rw [listAdd, listAddAfter, listAdd', Links.splice_eq _ _ hne, hr.next_head]
  exact hr.insert_first he

theorem listAdd_mid (hr : l.Ring h (xs ++ y :: ys)) (he : e ∉ h :: (xs ++ y :: ys)) :
    (listAdd l y e).Ring h (xs ++ y :: e :: ys) := by
  have hne : e ≠ l.next y := by
    rw [hr.next_mid]
    cases ys with
    | nil => exact fun hh => he (by simp at hh; simp [hh])
    | cons z ys => exact fun hh => he (by simp at hh; simp [hh])
  rw [listAdd, listAddAfter, listAdd', Links.splice_eq _ _ hne]
  exact hr.insert_after he

/-- `list_add` behind the last of `xs`, which is the header when `xs` is empty. -/
theorem listAdd_getLastD (hr : l.Ring h (xs ++ ys)) (he : e ∉ h :: (xs ++ ys)) :
    (listAdd l (xs.getLastD h) e).Ring h (xs ++ e :: ys) := by
  rcases xs.eq_nil_or_concat with rfl | ⟨zs, z, rfl⟩
  · exact listAdd_head hr he
  · simp only [List.concat_eq_append, List.append_assoc, List.cons_append, List.nil_append,
      List.getLastD_concat] at *
    exact listAdd_mid hr he

theorem listAddBefore_head (hr : l.Ring h xs) (he : e ∉ h :: xs) :
    (listAddBefore l h e).Ring h (xs ++ [e]) := by
  have hne : e ≠ h := fun hh => he (by simp [hh])
  rw [listAddBefore, listAdd', Links.splice_eq _ _ hne, hr.prev_head]
  exact hr.insert_last he

theorem listAddBefore_mid (hr : l.Ring h (xs ++ y :: ys)) (he : e ∉ h :: (xs ++ y :: ys)) :
    (listAddBefore l y e).Ring h (xs ++ e :: y :: ys) := by
  have hne : e ≠ y := fun hh => he (by simp [hh])
  rw [listAddBefore, listAdd', Links.splice_eq _ _ hne]
  exact hr.insert_before he

/-- `list_add` into one ring leaves another ring alone. -/
theorem listAdd_other {g : ν} (hr : l.Ring h xs) (hs : l.Ring g ys) (hd : ∀ x ∈ h :: xs, x ∉ g :: ys)
    (he : e ∉ g :: ys) : (listAdd l h e).Ring g ys := by
  have hhn := hd _ (hr.next_mem (List.mem_cons_self ..))
  have hh := hd h (List.mem_cons_self ..)
  apply hs.congr
  · intro x hx
    simp [listAdd, listAddAfter, listAdd', Links.setNext, Links.setPrev,
      ne_of_mem_of_not_mem hx hh, ne_of_mem_of_not_mem hx he]
  · intro x hx
    simp [listAdd, listAddAfter, listAdd', Links.setNext, Links.setPrev,
      ne_of_mem_of_not_mem hx hhn, ne_of_mem_of_not_mem hx he]

/-- `list_del` from one ring leaves another ring alone. -/
theorem listDel_other {g : ν} (hr : l.Ring h xs) (hy : y ∈ xs) (hs : l.Ring g ys)
    (hd : ∀ x ∈ h :: xs, x ∉ g :: ys) : (listDel l y).Ring g ys := by
  have hn := hd _ (hr.next_mem (List.mem_cons_of_mem _ hy))
  have hp := hd _ (hr.prev_mem (List.mem_cons_of_mem _ hy))
  apply hs.congr
  · intro x hx
    simp [listDel, listDel', Links.setNext, Links.setPrev,
      ne_of_mem_of_not_mem hx hp]
  · intro x hx
    simp [listDel, listDel', Links.setNext, Links.setPrev,
      ne_of_mem_of_not_mem hx hn]

theorem listDel_mid (hr : l.Ring h (xs ++ y :: ys)) : (listDel l y).Ring h (xs ++ ys) := by
  rw [listDel, listDel', Links.bypass_eq]
  exact hr.erase

theorem listDel_first (hr : l.Ring h (y :: ys)) : (listDel l y).Ring h ys := by
  have hmid : l.Ring h ([] ++ y :: ys) := hr
  exact listDel_mid hmid

end UCore
