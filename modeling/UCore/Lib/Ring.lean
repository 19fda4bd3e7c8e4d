import Mathlib.Algebra.Order.Ring.Nat
import Mathlib.Logic.Function.Basic
import Mathlib.Data.List.Nodup
import Mathlib.Data.List.Basic

namespace UCore
set_option autoImplicit true

/-- The two link fields of every node of an intrusive doubly linked list. -/
structure Links (ν : Type) where
  next : ν → ν
  prev : ν → ν

namespace Links
variable {ν : Type}

/-- The nodes `xs` lie in this order strictly between `a` and `b`, linked both ways. -/
def Path (l : Links ν) (a : ν) : List ν → ν → Prop
  | [], b => l.next a = b ∧ l.prev b = a
  | x :: xs, b => (l.next a = x ∧ l.prev x = a) ∧ l.Path x xs b

theorem Path.append_iff {l : Links ν} :
    l.Path a (xs ++ y :: ys) b ↔ l.Path a xs y ∧ l.Path y ys b := by
  induction xs generalizing a with
  | nil => rfl
  | cons x xs ih =>
    simp only [List.cons_append, Path, ih, and_assoc]

theorem Path.next_eq {l : Links ν} (h : l.Path a xs b) : l.next a = xs.headD b := by
  cases xs with
  | nil => exact h.1
  | cons x xs => exact h.1.1

theorem Path.prev_eq {l : Links ν} (h : l.Path a xs b) : l.prev b = xs.getLastD a := by
  induction xs generalizing a with
  | nil => exact h.2
  | cons x xs ih => rw [ih h.2, List.getLastD_cons]

/-- A path reads the forward links of all nodes but the last, the backward links of all but the first. -/
theorem Path.congr {l m : Links ν} (h : l.Path a xs b)
    (hn : ∀ x ∈ a :: xs, m.next x = l.next x) (hp : ∀ x ∈ b :: xs, m.prev x = l.prev x) :
    m.Path a xs b := by
  induction xs generalizing a with
  | nil =>
    exact ⟨(hn a (by simp)).trans h.1, (hp b (by simp)).trans h.2⟩
  | cons x xs ih =>
    refine ⟨⟨(hn a (by simp)).trans h.1.1, (hp x (by simp)).trans h.1.2⟩, ih h.2 ?_ ?_⟩
    · intro y hy
      exact hn y (List.mem_cons_of_mem _ hy)
    · intro y hy
      rcases List.mem_cons.1 hy with rfl | hy
      · exact hp y (by simp)
      · exact hp y (by simp [hy])

/-- The circular list with header `h` holds exactly the nodes `xs`, in this order. -/
structure Ring (l : Links ν) (h : ν) (xs : List ν) : Prop where
  path : l.Path h xs h
  nodup : (h :: xs).Nodup

variable {l : Links ν} {h : ν}

theorem Ring.next_head (hr : l.Ring h xs) : l.next h = xs.headD h := hr.path.next_eq

theorem Ring.prev_head (hr : l.Ring h xs) : l.prev h = xs.getLastD h := hr.path.prev_eq

theorem Ring.next_mid (hr : l.Ring h (xs ++ y :: ys)) : l.next y = ys.headD h :=
  (Path.append_iff.1 hr.path).2.next_eq

theorem Ring.prev_mid (hr : l.Ring h (xs ++ y :: ys)) : l.prev y = xs.getLastD h :=
  (Path.append_iff.1 hr.path).1.prev_eq

/-- Any node of a ring can serve as its header. -/
theorem Ring.rotate (hr : l.Ring h (xs ++ y :: ys)) : l.Ring y (ys ++ h :: xs) := by
  obtain ⟨hl, hr'⟩ := Path.append_iff.1 hr.path
  refine ⟨Path.append_iff.2 ⟨hr', hl⟩, ?_⟩
  have hp : (h :: (xs ++ y :: ys)).Perm (y :: (ys ++ h :: xs)) := by
    rw [← List.cons_append, ← List.cons_append]
    exact List.perm_append_comm
  exact hp.nodup_iff.1 hr.nodup

theorem Ring.congr {m : Links ν} (hr : l.Ring h xs) (hn : ∀ x ∈ h :: xs, m.next x = l.next x)
    (hp : ∀ x ∈ h :: xs, m.prev x = l.prev x) : m.Ring h xs :=
  ⟨hr.path.congr hn hp, hr.nodup⟩

theorem Ring.next_mem (hr : l.Ring h xs) (hx : x ∈ h :: xs) : l.next x ∈ h :: xs := by
  cases hx with
  | head =>
    rw [hr.next_head]
    cases xs <;> simp
  | tail _ hx =>
    obtain ⟨ys, zs, rfl⟩ := List.append_of_mem hx
    rw [hr.next_mid]
    cases zs <;> simp

theorem Ring.prev_mem (hr : l.Ring h xs) (hx : x ∈ h :: xs) : l.prev x ∈ h :: xs := by
  have last_mem : ∀ zs : List ν, zs.getLastD h ∈ h :: zs := fun zs => by
    rcases zs.eq_nil_or_concat with rfl | ⟨ws, w, rfl⟩ <;> simp
  cases hx with
  | head =>
    rw [hr.prev_head]
    exact last_mem xs
  | tail _ hx =>
    obtain ⟨ys, zs, rfl⟩ := List.append_of_mem hx
    rw [hr.prev_mid]
    have := last_mem ys
    simp only [List.mem_cons, List.mem_append] at this ⊢
    exact this.imp_right .inl

theorem Ring.head_notMem (hr : l.Ring h xs) : h ∉ xs := (List.nodup_cons.1 hr.nodup).1

theorem Ring.nodup_tail (hr : l.Ring h xs) : xs.Nodup := (List.nodup_cons.1 hr.nodup).2

theorem Ring.mem_ne (hr : l.Ring h xs) (hx : x ∈ xs) : x ≠ h :=
  fun he => hr.head_notMem (he ▸ hx)

theorem Ring.unique (hr : l.Ring h xs) (hr' : l.Ring h ys) : xs = ys := by
  have key : ∀ (xs ys : List ν) (a : ν), h ∉ xs → h ∉ ys → l.Path a xs h → l.Path a ys h →
      xs = ys := by
    intro xs
    induction xs with
    | nil =>
      intro ys a _ hy hp hq
      cases ys with
      | nil => rfl
      | cons y ys => exact absurd (by rw [← hp.1, hq.1.1]; simp) hy
    | cons x xs ih =>
      intro ys a hx hy hp hq
      cases ys with
      | nil => exact absurd (by rw [← hq.1, hp.1.1]; simp) hx
      | cons y ys =>
        obtain rfl : x = y := hp.1.1.symm.trans hq.1.1
        have hxs : h ∉ xs := fun hm => hx (List.mem_cons_of_mem _ hm)
        have hys : h ∉ ys := fun hm => hy (List.mem_cons_of_mem _ hm)
        rw [ih ys x hxs hys hp.2 hq.2]
  exact key xs ys h hr.head_notMem hr'.head_notMem hr.path hr'.path

theorem notMem_rotate {e h y : ν} (he : e ∉ h :: (xs ++ y :: ys)) : e ∉ y :: (ys ++ h :: xs) := by
  simp only [List.mem_cons, List.mem_append, not_or] at he ⊢
  exact ⟨he.2.2.1, he.2.2.2, he.1, he.2.1⟩

variable [DecidableEq ν]

/-- Make `b` the successor of `a` in both directions. -/
def join (l : Links ν) (a b : ν) : Links ν :=
  { next := Function.update l.next a b, prev := Function.update l.prev b a }

def setNext (l : Links ν) (a b : ν) : Links ν := { l with next := Function.update l.next a b }

def setPrev (l : Links ν) (a b : ν) : Links ν := { l with prev := Function.update l.prev a b }

/-- Four single writes splice `e` between `p` and `n`, whatever else is linked. -/
theorem splice_eq (l : Links ν) (p : ν) (h : e ≠ n) :
    (((l.setPrev n e).setNext p e).setNext e n).setPrev e p = (l.join p e).join e n := by
  simp only [setPrev, setNext, join, Links.mk.injEq, true_and]
  exact Function.update_comm h.symm ..

theorem bypass_eq (l : Links ν) (p n : ν) : (l.setNext p n).setPrev n p = l.join p n := rfl

@[simp] theorem join_next_self (l : Links ν) (a b : ν) : (l.join a b).next a = b :=
  Function.update_self ..

@[simp] theorem join_prev_self (l : Links ν) (a b : ν) : (l.join a b).prev b = a :=
  Function.update_self ..

theorem join_next_of_ne (l : Links ν) (b : ν) (h : x ≠ a) : (l.join a b).next x = l.next x :=
  Function.update_of_ne h ..

theorem join_prev_of_ne (l : Links ν) (a : ν) (h : x ≠ b) : (l.join a b).prev x = l.prev x :=
  Function.update_of_ne h ..

/-- Rewriting the seam between the ends of a path keeps the path. -/
theorem Path.join {l : Links ν} (h : l.Path a xs b) (c d : ν) (hc : c ∉ a :: xs)
    (hd : d ∉ b :: xs) : (l.join c d).Path a xs b := by
  refine h.congr ?_ ?_
  · intro x hx
    exact l.join_next_of_ne d (fun he => hc (he ▸ hx))
  · intro x hx
    exact l.join_prev_of_ne c (fun he => hd (he ▸ hx))

theorem Ring.single (l : Links ν) (h : ν) : (l.join h h).Ring h [] :=
  ⟨⟨l.join_next_self h h, l.join_prev_self h h⟩, List.nodup_singleton h⟩

/-- Splicing a fresh node right behind the header. -/
theorem Ring.insert_first (hr : l.Ring h xs) (he : e ∉ h :: xs) :
    ((l.join h e).join e (xs.headD h)).Ring h (e :: xs) := by
  have heh : e ≠ h := fun hh => he (hh ▸ List.mem_cons_self)
  have hne : h ∉ xs := hr.head_notMem
  have hex : e ∉ xs := fun hm => he (List.mem_cons_of_mem _ hm)
  refine ⟨?_, List.nodup_cons.2 ⟨by simp [hne, Ne.symm heh],
    List.nodup_cons.2 ⟨hex, hr.nodup_tail⟩⟩⟩
  have hpe : ((l.join h e).join e (xs.headD h)).prev e = h := by
    rw [join_prev_of_ne, join_prev_self]
    cases xs with
    | nil => exact heh
    | cons x xs => exact fun hx => hex (hx ▸ List.mem_cons_self)
  refine ⟨⟨by rw [join_next_of_ne _ _ (Ne.symm heh), join_next_self], hpe⟩, ?_⟩
  cases xs with
  | nil => exact ⟨join_next_self .., join_prev_self ..⟩
  | cons x xs =>
    have hxs : x ∉ xs := (List.nodup_cons.1 hr.nodup_tail).1
    have hxh : x ≠ h := hr.mem_ne List.mem_cons_self
    refine ⟨⟨join_next_self .., join_prev_self ..⟩, (hr.path.2.join h e ?_ ?_).join e x ?_ ?_⟩
    · exact hne
    · simpa [not_or, heh] using fun hm => hex (List.mem_cons_of_mem _ hm)
    · exact hex
    · simp [hxs, hxh]

/-- Splicing a fresh node right before the header, at the end of the list. -/
theorem Ring.insert_last (hr : l.Ring h xs) (he : e ∉ h :: xs) :
    ((l.join (xs.getLastD h) e).join e h).Ring h (xs ++ [e]) := by
  have heh : e ≠ h := fun hh => he (hh ▸ List.mem_cons_self)
  have hex : e ∉ xs := fun hm => he (List.mem_cons_of_mem _ hm)
  rcases xs.eq_nil_or_concat with rfl | ⟨ys, y, rfl⟩
  · exact hr.insert_first he
  · rw [List.concat_eq_append] at *
    rw [List.getLastD_concat]
    have hye : y ≠ e := fun hh => hex (by simp [hh])
    have hhn : h ∉ ys ++ [y] := hr.head_notMem
    have hyn : y ∉ h :: ys := fun hm => (List.disjoint_of_nodup_append hr.nodup) hm (by simp)
    obtain ⟨hp, hlast⟩ := Path.append_iff.1 hr.path
    refine ⟨?_, ?_⟩
    · rw [List.append_assoc]
      refine Path.append_iff.2 ⟨(hp.join y e hyn ?_).join e h ?_ ?_, ⟨?_, ?_⟩, join_next_self ..,
        join_prev_self ..⟩
      · simpa [not_or, Ne.symm hye, and_comm] using hex
      · simpa [not_or, heh] using fun hm => hex (by simp [hm])
      · simpa [not_or, and_comm] using hhn
      · rw [join_next_of_ne _ _ hye, join_next_self]
      · rw [join_prev_of_ne _ _ heh, join_prev_self]
    · rw [← List.cons_append]
      refine List.Nodup.append hr.nodup (List.nodup_singleton e) ?_
      simpa [List.disjoint_singleton] using he

/-- Bypassing the first node of a ring. -/
theorem Ring.erase_first (hr : l.Ring h (y :: xs)) : (l.join h (xs.headD h)).Ring h xs := by
  have hnd := List.nodup_cons.1 hr.nodup_tail
  have hh : h ∉ y :: xs := hr.head_notMem
  refine ⟨?_, List.nodup_cons.2 ⟨fun hm => hh (List.mem_cons_of_mem _ hm), hnd.2⟩⟩
  cases xs with
  | nil => exact ⟨join_next_self .., join_prev_self ..⟩
  | cons x xs =>
    refine ⟨⟨join_next_self .., join_prev_self ..⟩, hr.path.2.2.join h x ?_ ?_⟩
    · intro hm; exact hh (List.mem_cons_of_mem _ hm)
    · have hx := (List.nodup_cons.1 hnd.2).1
      have hxh : x ≠ h := hr.mem_ne (by simp)
      simp [hx, hxh]

theorem Ring.insert_after (hr : l.Ring h (xs ++ y :: ys)) (he : e ∉ h :: (xs ++ y :: ys)) :
    ((l.join y e).join e (l.next y)).Ring h (xs ++ y :: e :: ys) := by
  have hr' := hr.rotate
  rw [hr'.next_head]
  have hins : Ring _ y ((e :: ys) ++ h :: xs) := hr'.insert_first (notMem_rotate he)
  exact hins.rotate

theorem Ring.insert_before (hr : l.Ring h (xs ++ y :: ys)) (he : e ∉ h :: (xs ++ y :: ys)) :
    ((l.join (l.prev y) e).join e y).Ring h (xs ++ e :: y :: ys) := by
  have hr' := hr.rotate
  rw [hr'.prev_head]
  have hi := hr'.insert_last (notMem_rotate he)
  rw [List.append_assoc, List.cons_append] at hi
  simpa using hi.rotate

/-- Bypassing any node of a ring. -/
theorem Ring.erase (hr : l.Ring h (xs ++ y :: ys)) :
    (l.join (l.prev y) (l.next y)).Ring h (xs ++ ys) := by
  rw [hr.prev_mid, hr.next_mid]
  rcases xs.eq_nil_or_concat with rfl | ⟨zs, z, rfl⟩
  · exact hr.erase_first
  · rw [List.concat_eq_append] at *
    rw [List.append_assoc, List.cons_append, List.nil_append] at hr
    have hz : (ys ++ h :: zs).headD z = ys.headD h := by cases ys <;> rfl
    have he : (l.join z ((ys ++ h :: zs).headD z)).Ring z (ys ++ h :: zs) := hr.rotate.erase_first
    rw [hz] at he
    rw [List.getLastD_concat]
    simpa using he.rotate

end Links

end UCore
