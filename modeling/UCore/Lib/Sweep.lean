import Mathlib.Data.List.Basic

namespace UCore
set_option autoImplicit true

/-- Passes over a group of items `pop`, each to a set of places: a pass takes away the items at its places, and
when there were items at all of them, of which there is one, it closes the group and the later passes do
nothing. This says that the passes close the group and leave no item. -/
def Swept {ι : Type u} (pop : ι → Prop) : List (ι → Prop) → Prop
  | [] => False
  | V :: Vs =>
    ((∃ j, V j) ∧ ∀ j, V j → pop j) ∧ (∀ j, pop j → V j) ∨
      ¬ ((∃ j, V j) ∧ ∀ j, V j → pop j) ∧ Swept (fun j => pop j ∧ ¬ V j) Vs

/-- A pass to the places `V`, after passes to the places `pre`, finds items at all its places. -/
def Closes {ι : Type u} (pop : ι → Prop) (pre : List (ι → Prop)) (V : ι → Prop) : Prop :=
  (∃ j, V j) ∧ ∀ j, V j → pop j ∧ ∀ W ∈ pre, ¬ W j

theorem closes_nil {ι : Type u} {pop V : ι → Prop} : Closes pop [] V ↔ (∃ j, V j) ∧ ∀ j, V j → pop j := by
  simp [Closes]

theorem closes_cons {ι : Type u} {pop V W : ι → Prop} {pre : List (ι → Prop)} :
    Closes pop (W :: pre) V ↔ Closes (fun j => pop j ∧ ¬ W j) pre V := by
  simp only [Closes, List.mem_cons, forall_eq_or_imp, and_assoc]

/-- The group is left empty when the first pass that closes it has taken the last item away. -/
theorem swept_iff {ι : Type u} {pop : ι → Prop} {Vs : List (ι → Prop)} : Swept pop Vs ↔
    ∃ pre V post, Vs = pre ++ V :: post ∧ Closes pop pre V ∧
      (∀ pre' W post', pre = pre' ++ W :: post' → ¬ Closes pop pre' W) ∧
      ∀ j, pop j → V j ∨ ∃ W ∈ pre, W j := by
  induction Vs generalizing pop with
  | nil =>
    refine iff_of_false id ?_
    rintro ⟨pre, V, post, h, -⟩
    simp at h
  | cons V Vs ih =>
    rw [Swept, ← closes_nil, ih]
    constructor
    · rintro (⟨hc, hall⟩ | ⟨hc, pre, W, post, rfl, hW, hfirst, hall⟩)
      · exact ⟨[], V, Vs, rfl, hc, fun pre' W post' h => by simp at h, fun j hj => .inl (hall j hj)⟩
      · refine ⟨V :: pre, W, post, rfl, closes_cons.2 hW, fun pre' U post' h => ?_, fun j hj => ?_⟩
        · cases pre' with
          | nil =>
            obtain ⟨rfl, -⟩ := List.cons.inj h
            exact hc
          | cons X pre' =>
            obtain ⟨rfl, hpre⟩ := List.cons.inj h
            exact fun hU => hfirst pre' U post' hpre (closes_cons.1 hU)
        · by_cases hV : V j
          · exact .inr ⟨V, List.mem_cons_self .., hV⟩
          · rcases hall j ⟨hj, hV⟩ with hj | ⟨U, hU, hj⟩
            · exact .inl hj
            · exact .inr ⟨U, List.mem_cons_of_mem _ hU, hj⟩
    · rintro ⟨pre, W, post, h, hW, hfirst, hall⟩
      cases pre with
      | nil =>
        obtain ⟨rfl, -⟩ := List.cons.inj h
        exact .inl ⟨hW, fun j hj => (hall j hj).resolve_right (by simp)⟩
      | cons X pre =>
        obtain ⟨rfl, rfl⟩ := List.cons.inj h
        refine .inr ⟨hfirst [] V pre rfl, pre, W, post, rfl, closes_cons.1 hW, fun pre' U post' h hU => ?_,
          fun j hj => ?_⟩
        · exact hfirst (V :: pre') U post' (by rw [h]; rfl) (closes_cons.2 hU)
        · rcases hall j hj.1 with hj' | ⟨U, hU, hj'⟩
          · exact .inl hj'
          · cases hU with
            | head => exact absurd hj' hj.2
            | tail _ hU => exact .inr ⟨U, hU, hj'⟩

end UCore
