import Mathlib.Data.List.Basic

namespace UCore
set_option autoImplicit true

/-- The queue of one owner, where the entries of all the owners are kept in the order in which they came. -/
def queueOf {K V : Type} [DecidableEq K] (k : K) (arrivals : List (K × V)) : List V :=
  (arrivals.filter fun x => x.1 = k).map Prod.snd

section
variable {K V : Type} [DecidableEq K] {l : List (K × V)}

theorem queueOf_push (k j : K) (v : V) (l : List (K × V)) :
    queueOf k (l ++ [(j, v)]) = if j = k then queueOf k l ++ [v] else queueOf k l := by
  by_cases h : j = k
  · simp [queueOf, h]
  · simp [queueOf, h]

theorem queueOf_reset (k j : K) (l : List (K × V)) :
    queueOf k (l.filter fun x => x.1 ≠ j) = if j = k then [] else queueOf k l := by
  by_cases h : j = k
  · rw [if_pos h]
    simp [queueOf, h]
  · rw [if_neg h, queueOf, queueOf, List.filter_filter]
    congr 1
    apply List.filter_congr
    intro x _
    by_cases hx : x.1 = k
    · simp [hx, Ne.symm h]
    · simp [hx]

/-- The oldest entry of an owner is taken out. -/
theorem queueOf_pop (k j : K) (l : List (K × V)) :
    queueOf k (l.eraseP fun x => x.1 = j) = if j = k then (queueOf k l).tail else queueOf k l := by
  induction l with
  | nil => simp [queueOf]
  | cons x l ih =>
    by_cases hxj : x.1 = j
    · rw [List.eraseP_cons_of_pos (by simpa using hxj)]
      by_cases h : j = k
      · simp [queueOf, hxj, h]
      · simp [queueOf, hxj, h]
    · rw [List.eraseP_cons_of_neg (by simpa using hxj)]
      by_cases hxk : x.1 = k
      · have hjk : j ≠ k := fun h => hxj (hxk.trans h.symm)
        rw [if_neg hjk] at ih ⊢
        simpa [queueOf, hxk] using ih
      · simpa [queueOf, hxk] using ih

theorem mem_queueOf {k : K} {v : V} : v ∈ queueOf k l ↔ (k, v) ∈ l := by
  simp [queueOf]

end

end UCore
