import Mathlib.Data.List.Basic
import Mathlib.Logic.Function.Basic

namespace UCore
set_option autoImplicit true

/-- The nodes `xs` hang in this order from the pointer `head` along the links `older`, down to null. -/
def Chain (older : ν → Option ν) : Option ν → List ν → Prop
  | head, [] => head = none
  | head, x :: xs => head = some x ∧ Chain older (older x) xs

/-- Each node points back at the one before it, the first at `prev`. -/
def Backed (younger : ν → Option ν) : Option ν → List ν → Prop
  | _, [] => True
  | prev, x :: xs => younger x = prev ∧ Backed younger (some x) xs

section
variable {ν : Type} {older younger : ν → Option ν} {head prev : Option ν} {xs : List ν}

theorem Chain.congr {older' : ν → Option ν} (h : Chain older head xs)
    (ho : ∀ x ∈ xs, older' x = older x) : Chain older' head xs := by
  induction xs generalizing head with
  | nil => exact h
  | cons x xs ih =>
    obtain ⟨rfl, hrest⟩ := h
    rw [← ho x (List.mem_cons_self ..)] at hrest
    exact ⟨rfl, ih hrest fun y hy => ho y (List.mem_cons_of_mem _ hy)⟩

theorem Backed.congr {younger' : ν → Option ν} (h : Backed younger prev xs)
    (hy : ∀ x ∈ xs, younger' x = younger x) : Backed younger' prev xs := by
  induction xs generalizing prev with
  | nil => trivial
  | cons x xs ih =>
    obtain ⟨rfl, hrest⟩ := h
    exact ⟨hy x (List.mem_cons_self ..), ih hrest fun y hm => hy y (List.mem_cons_of_mem _ hm)⟩

theorem Chain.head_eq (h : Chain older head xs) : head = xs.head? := by
  cases xs with
  | nil => exact h
  | cons x xs => exact h.1

theorem Chain.unique (h : Chain older head xs) (h' : Chain older head ys) : xs = ys := by
  induction xs generalizing head ys with
  | nil =>
    cases ys with
    | nil => rfl
    | cons y ys => exact absurd (h.symm.trans h'.1) (by simp)
  | cons x xs ih =>
    cases ys with
    | nil => exact absurd (h.1.symm.trans h') (by simp)
    | cons y ys =>
      obtain ⟨rfl, hrest⟩ := h
      obtain ⟨hxy, hrest'⟩ := h'
      obtain rfl := Option.some.inj hxy
      rw [ih hrest hrest']

theorem Chain.append (h : Chain older head (xs ++ y :: ys)) :
    Chain older (some y) (y :: ys) := by
  induction xs generalizing head with
  | nil =>
    obtain ⟨-, hrest⟩ := h
    exact ⟨rfl, hrest⟩
  | cons x xs ih => exact ih h.2

/-- A chain that ends meets no node twice. -/
theorem Chain.nodup (h : Chain older head xs) : xs.Nodup := by
  induction xs generalizing head with
  | nil => exact List.nodup_nil
  | cons x xs ih =>
    refine List.nodup_cons.2 ⟨fun hx => ?_, ih h.2⟩
    obtain ⟨l, r, hlr⟩ := List.append_of_mem hx
    have hrest := h.2
    rw [hlr] at hrest
    have hself : Chain older (some x) (x :: xs) := ⟨rfl, h.2⟩
    have hlen := congrArg List.length (hrest.append.unique hself)
    rw [hlr] at hlen
    simp only [List.length_append, List.length_cons] at hlen
    omega

theorem Chain.older_mid (h : Chain older head (xs ++ y :: ys)) : older y = ys.head? :=
  h.append.2.head_eq

theorem Chain.older_mem (h : Chain older head xs) (hx : x ∈ xs) (hy : older x = some y) : y ∈ xs := by
  obtain ⟨as, bs, rfl⟩ := List.append_of_mem hx
  rw [h.older_mid] at hy
  exact List.mem_append_right _ (List.mem_cons_of_mem _ (List.mem_of_mem_head? hy))

theorem Backed.younger_mem (h : Backed younger prev xs) (hx : x ∈ xs) (hy : younger x = some y) :
    prev = some y ∨ y ∈ xs := by
  induction xs generalizing prev with
  | nil => cases hx
  | cons z xs ih =>
    cases hx with
    | head => exact .inl (h.1.symm.trans hy)
    | tail _ hx =>
      refine .inr ?_
      cases ih h.2 hx with
      | inl hz =>
        obtain rfl := Option.some.inj hz
        exact List.mem_cons_self ..
      | inr hm => exact List.mem_cons_of_mem _ hm

theorem Backed.younger_next (h : Backed younger prev (xs ++ l :: y :: ys)) : younger y = some l := by
  induction xs generalizing prev with
  | nil => exact h.2.1
  | cons x xs ih => exact ih h.2

variable [DecidableEq ν]

/-- Take the node `y` out, where `l` is the node before it. -/
theorem Chain.erase_next (h : Chain older head (xs ++ l :: y :: ys)) :
    Chain (Function.update older l (older y)) head (xs ++ l :: ys) := by
  have hn := h.nodup
  induction xs generalizing head with
  | nil =>
    obtain ⟨rfl, hy, hrest⟩ := h
    refine ⟨rfl, ?_⟩
    rw [Function.update_self]
    refine hrest.congr fun z hz => Function.update_of_ne ?_ ..
    rintro rfl
    simp [hz] at hn
  | cons x xs ih =>
    obtain ⟨rfl, hrest⟩ := h
    refine ⟨rfl, ?_⟩
    rw [Function.update_of_ne]
    · exact ih hrest hn.tail
    · rintro rfl
      simp at hn

theorem Backed.erase (h : Backed younger prev (xs ++ y :: ys)) (hn : (xs ++ y :: ys).Nodup) :
    Backed (match ys.head? with
      | none => younger
      | some o => Function.update younger o (younger y)) prev (xs ++ ys) := by
  induction xs generalizing prev with
  | nil =>
    obtain ⟨rfl, hrest⟩ := h
    cases ys with
    | nil => trivial
    | cons o ys =>
      refine ⟨Function.update_self .., hrest.2.congr fun z hz => Function.update_of_ne ?_ ..⟩
      rintro rfl
      simp [hz] at hn
  | cons x xs ih =>
    refine ⟨?_, ih h.2 hn.tail⟩
    cases ys with
    | nil => exact h.1
    | cons o ys =>
      refine (Function.update_of_ne ?_ ..).trans h.1
      rintro rfl
      simp at hn

theorem Backed.cons_update (h : Backed younger none xs) (hx : x ∉ xs) (hn : xs.Nodup) :
    Backed (match xs.head? with
      | none => Function.update younger x none
      | some o => Function.update (Function.update younger x none) o (some x)) none (x :: xs) := by
  cases xs with
  | nil => exact ⟨Function.update_self .., trivial⟩
  | cons o xs =>
    have hxo : x ≠ o := fun he => hx (he ▸ List.mem_cons_self ..)
    refine ⟨?_, Function.update_self .., h.2.congr fun z hz => ?_⟩
    · simp [Function.update_of_ne hxo]
    · have hzo : z ≠ o := by rintro rfl; simp [hz] at hn
      have hzx : z ≠ x := by rintro rfl; exact hx (List.mem_cons_of_mem _ hz)
      simp [Function.update_of_ne hzo, Function.update_of_ne hzx]

end

end UCore
