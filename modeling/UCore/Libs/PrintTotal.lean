import UCore.Lib.Words
import UCore.Libs.PrintStrtol
import UCore.Libs.PrintString

namespace UCore
set_option autoImplicit true

section
variable {src : σ → Nat → Option (BitVec 8)} {env : PrintEnv σ}

end

/-- What `vprintfmt` relies on: the format is there, strings can be read and the NUL of the format is in the same memory,
whatever has been printed. -/
structure PrintEnv.Safe (env : PrintEnv σ) (a : Nat) (s : List (BitVec 8)) : Prop where
  format : ∀ out, CStr (env.fetch out) a s
  bound : a + s.length < 2 ^ 64
  read : ∀ out p, ∃ c, env.read out p = some c
  nul : ∀ out, env.read out (a + s.length) = some 0
  below : ∀ out, ∃ p, env.below out = some p

namespace PrintEnv
variable {env : PrintEnv σ} {a : Nat} {s : List (BitVec 8)}

end PrintEnv

namespace PrintEnv
variable {env : PrintEnv σ}

section
variable {mods rest : List (BitVec 8)} {a : Nat} {ap : Nat → BitVec 64} {perr : Int → σ → Option σ}

end

/-- The format can be read from its first byte to its NUL only. -/
def within (env : PrintEnv σ) (a n : Nat) : PrintEnv σ :=
  { env with fetch := fun out x => if a ≤ x ∧ x ≤ a + n then env.fetch out x else none }

theorem Safe.within (h : env.Safe a s) : (env.within a s.length).Safe a s where
  format out := (h.format out).congr fun _ h₁ h₂ => if_pos ⟨h₁, h₂⟩
  bound := h.bound
  read := h.read
  nul := h.nul
  below := h.below

end PrintEnv

end UCore
