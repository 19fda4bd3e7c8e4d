import UCore.Mm.FramePool
import UCore.Mm.MmMapExact
import UCore.Mm.PageInsert

namespace UCore
set_option autoImplicit true
open Function (update)

/-- The next `n` allocations succeed, whether they are of a page or of a block of the heap. -/
def PhysSys.Serves (A : PhysSys) : Nat → A.σ → Prop
  | 0, _ => True
  | n + 1, s => (∃ p s', A.allocPages s 1 = (some p, s') ∧ A.Serves n s') ∧
      ∃ p s', A.kmalloc s = (some p, s') ∧ A.Serves n s'

section
variable {A : PhysSys} {m m' : Mem A} {role role' : Nat → Role}

theorem PhysSys.Serves.pred {s : A.σ} (h : A.Serves (n + 1) s) : A.Serves n s := by
  induction n generalizing s with
  | zero => trivial
  | succ n ih =>
    obtain ⟨⟨p, s₁, ha, h₁⟩, q, s₂, hk, h₂⟩ := h
    exact ⟨⟨p, s₁, ha, ih h₁⟩, q, s₂, hk, ih h₂⟩

theorem PhysSys.Serves.mono {s : A.σ} (h : A.Serves n s) (hle : k ≤ n) : A.Serves k s := by
  induction hle with
  | refl => exact h
  | step _ ih => exact ih h.pred

end

end UCore
