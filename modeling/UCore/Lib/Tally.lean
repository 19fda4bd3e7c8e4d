import Mathlib.Data.Finset.Card
import Mathlib.Logic.Function.Basic

namespace UCore
set_option autoImplicit true
open Function (update)

/-- How many of the keys lead to the value. -/
def tally {K V : Type} [DecidableEq V] (s : Finset K) (f : K → Option V) (p : V) : Nat :=
  (s.filter fun k => f k = some p).card

section
variable {K V : Type} [DecidableEq V] {s : Finset K} {f g : K → Option V}

theorem tally_congr (h : ∀ k ∈ s, f k = g k) (p : V) : tally s f p = tally s g p := by
  unfold tally
  congr 1
  apply Finset.filter_congr
  intro k hk
  rw [h k hk]

theorem tally_eq_zero : tally s f p = 0 ↔ ∀ k ∈ s, f k ≠ some p := by
  unfold tally
  rw [Finset.card_eq_zero, Finset.filter_eq_empty_iff]

/-- Only one key leads to the value. -/
theorem tally_eq_one (hk : k ∈ s) (hp : f k = some p) (hsole : ∀ j ∈ s, f j = some p → j = k) : tally s f p = 1 := by
  unfold tally
  rw [Finset.card_eq_one]
  refine ⟨k, Finset.eq_singleton_iff_unique_mem.2 ⟨Finset.mem_filter.2 ⟨hk, hp⟩, fun j hj => ?_⟩⟩
  obtain ⟨hj, hjp⟩ := Finset.mem_filter.1 hj
  exact hsole j hj hjp

theorem tally_sole (h : tally s f p = 1) (hk : k ∈ s) (hp : f k = some p) (hj : j ∈ s) (hq : f j = some p) :
    j = k :=
  Finset.card_le_one.1 h.le j (Finset.mem_filter.2 ⟨hj, hq⟩) k (Finset.mem_filter.2 ⟨hk, hp⟩)

/-- One key is changed: the count falls by one for its old value and rises by one for its new one. -/
theorem tally_update [DecidableEq K] (hk : k ∈ s) (o : Option V) (p : V) :
    tally s (update f k o) p + (if f k = some p then 1 else 0) =
      tally s f p + if o = some p then 1 else 0 := by
  have hrest : ∀ j ∈ s.erase k, update f k o j = f j := fun j hj =>
    Function.update_of_ne (Finset.ne_of_mem_erase hj) ..
  have hsplit (g : K → Option V) :
      tally s g p = tally (s.erase k) g p + if g k = some p then 1 else 0 := by
    unfold tally
    conv_lhs => rw [← Finset.insert_erase hk, Finset.filter_insert]
    by_cases hg : g k = some p
    · rw [if_pos hg, if_pos hg, Finset.card_insert_of_notMem]
      exact fun hm => Finset.notMem_erase k s (Finset.mem_filter.1 hm).1
    · rw [if_neg hg, if_neg hg]
      rfl
  rw [hsplit (update f k o), hsplit f, tally_congr hrest, Function.update_self]
  omega

end

end UCore
