import Mathlib.Data.Option.Basic

namespace UCore
set_option autoImplicit true

/-- What the first computation returns, the second returns too, up to a relation. -/
structure Refines (R : α → β → Prop) (x : Option α) (y : Option β) : Prop where
  run : ∀ a, x = some a → ∃ b, y = some b ∧ R a b

section
variable {R : α → β → Prop} {S : γ → δ → Prop}

theorem Refines.of_none (R : α → β → Prop) (y : Option β) : Refines R none y := ⟨nofun⟩

theorem Refines.of_some (h : R a b) : Refines R (some a) (some b) where
  run a' ha := by
    obtain rfl := Option.some.inj ha
    exact ⟨b, rfl, h⟩

theorem Refines.rfl : Refines Eq x x := ⟨fun a ha => ⟨a, ha, Eq.refl a⟩⟩

theorem Refines.bind (hx : Refines R x y) (hf : ∀ a b, R a b → Refines S (f a) (g b)) :
    Refines S (x >>= f) (y >>= g) where
  run c hc := by
    obtain ⟨a, ha, hc⟩ := Option.bind_eq_some_iff.1 hc
    obtain ⟨b, hb, hab⟩ := hx.run a ha
    obtain ⟨d, hd, hcd⟩ := (hf a b hab).run c hc
    exact ⟨d, Option.bind_eq_some_iff.2 ⟨b, hb, hd⟩, hcd⟩

theorem Refines.map (hx : Refines R x y) (hf : ∀ a b, R a b → S (f a) (g b)) : Refines S (x.map f) (y.map g) where
  run c hc := by
    obtain ⟨a, ha, rfl⟩ := Option.map_eq_some_iff.1 hc
    obtain ⟨b, hb, hab⟩ := hx.run a ha
    exact ⟨g b, by rw [hb]; rfl, hf a b hab⟩

theorem Refines.ite {p : Prop} [Decidable p] (h₁ : p → Refines R x₁ y₁) (h₂ : ¬ p → Refines R x₂ y₂) :
    Refines R (if p then x₁ else x₂) (if p then y₁ else y₂) := by
  by_cases hp : p
  · rw [if_pos hp, if_pos hp]
    exact h₁ hp
  · rw [if_neg hp, if_neg hp]
    exact h₂ hp

end

end UCore
