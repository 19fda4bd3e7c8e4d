import UCore.Lib.CStr
import UCore.Mm.Mmu

namespace UCore
set_option autoImplicit true
open Function (update)

namespace ByteMem

/-- The loop of `memmove` from the last byte on; the pointers are behind the bytes that are left. -/
def moveBack (m : ByteMem) (s d : Nat) : Nat → ByteMem
  | 0 => m
  | n + 1 => moveBack (update m (subW d 1) (m (subW s 1))) (subW s 1) (subW d 1) n

def moveForward (m : ByteMem) (s d : Nat) : Nat → ByteMem
  | 0 => m
  | n + 1 => moveForward (update m d (m s)) (addW s 1) (addW d 1) n

/-- `memmove`: the pointer that it returns, and the memory. -/
def memmove (m : ByteMem) (dst src n : Nat) : Nat × ByteMem :=
  if src < dst ∧ addW src n > dst then (dst, m.moveBack (addW src n) (addW dst n) n)
  else (dst, m.moveForward src dst n)

/-- The bytes `n` from `d` on are those that the memory `m` has from `s` on, and no others have changed. -/
structure Moved (m m' : ByteMem) (s d n : Nat) : Prop where
  copied : ∀ i < n, m' (d + i) = m (s + i)
  kept : ∀ a, a < d ∨ d + n ≤ a → m' a = m a

section
variable {m : ByteMem} {s d n : Nat}

theorem Moved.zero (m : ByteMem) (s d : Nat) : Moved m m s d 0 := ⟨nofun, fun _ _ => rfl⟩

/-- The loop that goes up may overwrite bytes of the source only behind the one it is at. -/
theorem moveForward_moved (hs : s + n ≤ 2 ^ 64) (hd : d + n ≤ 2 ^ 64) (ho : d ≤ s ∨ s + n ≤ d) :
    Moved m (m.moveForward s d n) s d n := by
  induction n generalizing m s d with
  | zero => exact .zero m s d
  | succ n ih =>
    cases n with
    | zero =>
      refine ⟨fun i hi => ?_, fun a ha => ?_⟩
      · obtain rfl : i = 0 := by omega
        exact Function.update_self ..
      · exact Function.update_of_ne (by omega) ..
    | succ n =>
      have hs' : addW s 1 = s + 1 := Nat.mod_eq_of_lt (by omega)
      have hd' : addW d 1 = d + 1 := Nat.mod_eq_of_lt (by omega)
      have h := ih (m := update m d (m s)) (s := s + 1) (d := d + 1) (by omega) (by omega) (by omega)
      rw [moveForward, hs', hd']
      refine ⟨fun i hi => ?_, fun a ha => ?_⟩
      · cases i with
        | zero =>
          rw [h.kept (d + 0) (by omega)]
          exact Function.update_self ..
        | succ i =>
          have hc := h.copied i (by omega)
          rw [show d + 1 + i = d + (i + 1) by omega, show s + 1 + i = s + (i + 1) by omega] at hc
          rw [hc]
          exact Function.update_of_ne (by omega) ..
      · rw [h.kept a (by omega)]
        exact Function.update_of_ne (by omega) ..

/-- The loop that goes down may overwrite bytes of the source only above the one it is at. -/
theorem moveBack_moved (hs : s + n ≤ 2 ^ 64) (hd : d + n ≤ 2 ^ 64) (ho : s < d) :
    Moved m (m.moveBack (addW s n) (addW d n) n) s d n := by
  induction n generalizing m with
  | zero => exact .zero m s d
  | succ n ih =>
    have hlast (a : Nat) (ha : a + (n + 1) ≤ 2 ^ 64) : subW (addW a (n + 1)) 1 = addW a n := by
      unfold subW addW
      omega
    have hadd (a : Nat) (ha : a + (n + 1) ≤ 2 ^ 64) : addW a n = a + n := Nat.mod_eq_of_lt (by omega)
    rw [moveBack, hlast s hs, hlast d hd]
    have h := ih (m := update m (addW d n) (m (addW s n))) (by omega) (by omega)
    rw [hadd s hs, hadd d hd] at h ⊢
    refine ⟨fun i hi => ?_, fun a ha => ?_⟩
    · by_cases hin : i < n
      · rw [h.copied i hin]
        exact Function.update_of_ne (by omega) ..
      · obtain rfl : i = n := by omega
        rw [h.kept (d + i) (by omega)]
        exact Function.update_self ..
    · rw [h.kept a (by omega)]
      exact Function.update_of_ne (by omega) ..

/-- `memmove` copies what was in the source before, whatever the two ranges have in common. -/
theorem memmove_exact (m : ByteMem) (hs : src + n ≤ 2 ^ 64) (hd : dst + n ≤ 2 ^ 64) :
    (m.memmove dst src n).1 = dst ∧ (∀ i < n, (m.memmove dst src n).2 (dst + i) = m (src + i)) ∧
      ∀ a, ¬ (dst ≤ a ∧ a < dst + n) → (m.memmove dst src n).2 a = m a := by
  have hmoved : ∃ m', m.memmove dst src n = (dst, m') ∧ Moved m m' src dst n := by
    unfold memmove
    by_cases ho : src < dst ∧ addW src n > dst
    · rw [if_pos ho]
      exact ⟨_, rfl, moveBack_moved hs hd ho.1⟩
    · rw [if_neg ho]
      refine ⟨_, rfl, moveForward_moved hs hd ?_⟩
      -- The sum wraps only if the source ends with the address space, and then the ranges do not overlap.
      unfold addW at ho
      omega
  obtain ⟨m', he, h⟩ := hmoved
  rw [he]
  exact ⟨rfl, h.copied, fun a ha => h.kept a (by omega)⟩

theorem memmove_exact_overlap : (memmove (fun a => .ofNat 8 a) 3 2 5).2 7 = 6 := by
  have hs : 2 + 5 ≤ 2 ^ 64 := by decide
  have hd : 3 + 5 ≤ 2 ^ 64 := by decide
  obtain ⟨-, hc, -⟩ := memmove_exact (fun a => .ofNat 8 a) hs hd
  exact hc 4 (by decide)

end

end ByteMem

end UCore
