import Mathlib.Data.List.Basic
import Mathlib.Logic.Function.Basic

namespace UCore
set_option autoImplicit true
open Function (update)

/-- A memory, by bytes. -/
abbrev ByteMem := Nat → BitVec 8

/-- The byte of a character. -/
def ord (c : Char) : BitVec 8 := .ofNat 8 c.toNat

/-- What a memory gives that can be read everywhere. -/
def ByteMem.read (m : ByteMem) (a : Nat) : Option (BitVec 8) := some (m a)

/-- A memory with bytes from the address 0 on. -/
def textMem (s : List (BitVec 8)) : ByteMem := fun a => s[a]?.getD 0

/-- The bytes, and a NUL behind them, are at the address; none of them is NUL. -/
def CStr (f : Nat → Option (BitVec 8)) : Nat → List (BitVec 8) → Prop
  | a, [] => f a = some 0
  | a, c :: s => f a = some c ∧ c ≠ 0 ∧ CStr f (a + 1) s

instance CStr.decidable (f : Nat → Option (BitVec 8)) : (a : Nat) → (s : List (BitVec 8)) → Decidable (CStr f a s)
  | a, [] => inferInstanceAs (Decidable (f a = some 0))
  | a, c :: s =>
    have := CStr.decidable f (a + 1) s
    inferInstanceAs (Decidable (f a = some c ∧ c ≠ 0 ∧ CStr f (a + 1) s))

section
variable {f g : Nat → Option (BitVec 8)} {a : Nat} {s t : List (BitVec 8)}

theorem CStr.drop (h : CStr f a (s ++ t)) : CStr f (a + s.length) t := by
  induction s generalizing a with
  | nil => exact h
  | cons c s ih =>
    rw [List.length_cons, Nat.add_comm s.length 1, ← Nat.add_assoc]
    exact ih h.2.2

theorem CStr.nul (h : CStr f a s) : f (a + s.length) = some 0 := by
  rw [← List.append_nil s] at h
  exact h.drop

theorem CStr.byte (h : CStr f a (s ++ t)) (hi : i < s.length) : ∃ c ∈ s, f (a + i) = some c ∧ c ≠ 0 := by
  induction s generalizing a i with
  | nil => cases hi
  | cons c s ih =>
    cases i with
    | zero => exact ⟨c, List.mem_cons_self, h.1, h.2.1⟩
    | succ i =>
      rw [Nat.add_comm i, ← Nat.add_assoc]
      obtain ⟨d, hd, hf⟩ := ih h.2.2 (Nat.lt_of_succ_lt_succ hi)
      exact ⟨d, List.mem_cons_of_mem _ hd, hf⟩

/-- The string is also there in what agrees with the bytes of the string. -/
theorem CStr.congr (h : CStr f a s) (he : ∀ x, a ≤ x → x ≤ a + s.length → g x = f x) : CStr g a s := by
  induction s generalizing a with
  | nil => exact (he a (Nat.le_refl _) (Nat.le_refl _)).trans h
  | cons c s ih =>
    refine ⟨(he a (Nat.le_refl _) (Nat.le_add_right ..)).trans h.1, h.2.1, ih h.2.2 fun x h₁ h₂ => ?_⟩
    apply he x
    · exact Nat.le_of_succ_le h₁
    · rw [List.length_cons]
      omega

end

end UCore
