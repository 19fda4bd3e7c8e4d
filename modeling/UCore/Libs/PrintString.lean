import UCore.Libs.PrintSigned

namespace UCore
set_option autoImplicit true

def sideFlag (minus : Bool) : Flag := if minus then .minus else .none

/-- What a number in the format changes: 0 is a flag. -/
def Escape.number (e : Escape) : Option Nat → Escape
  | none => e
  | some 0 => { e with padc := ord '0' }
  | some (n + 1) => e.process (int32 ((n + 1 : Nat) : Int))

namespace PrintEnv
variable {env : PrintEnv σ} {s : PrintState σ}

end PrintEnv

section
variable {fetch read : Nat → Option (BitVec 8)} {below : Option Nat} {ap : Nat → BitVec 64}

end

section
variable {f : Nat → Option (BitVec 8)} {a : Nat} {s : List (BitVec 8)} {env : PrintEnv σ} {out : σ}

variable {e : Escape}

end

section
variable {fetch read : Nat → Option (BitVec 8)} {below : Option Nat} {f : Nat → Option (BitVec 8)}

end

/-- The escape sequence of a field whose numbers are counted in an `int`. -/
structure Escape.Holds (e : Escape) (minus : Bool) (w : Nat) (s : List (BitVec 8)) : Prop where
  alt : e.altflag = false
  precision : e.precision = -1 ∨ (s.length : Int) ≤ e.precision
  small : e.precision < 2 ^ 31
  width : e.width = w ∨ w = 0 ∧ e.width = -1
  padc : 0 < w → e.padc = (sideFlag minus).padc

/-- If the string fills its field, the width is at 0 or below when the length is taken off it, in an `int` that wraps:
from -1 where no width is given, and twice, by `strnlen` and by the loop, where the padding is in front. -/
def Fits (minus : Bool) (w l : Nat) : Prop :=
  if w = 0 then (l + 1) % 2 ^ 32 ≤ 2 ^ 31
  else l ≤ w ∨ (l - w) % 2 ^ 32 ≤ 2 ^ 31 ∧ (minus = true ∨ ((l - w) % 2 ^ 32 + l) % 2 ^ 32 ≤ 2 ^ 31)

instance (minus : Bool) (w l : Nat) : Decidable (Fits minus w l) := by
  unfold Fits
  infer_instance

section
variable {m : ByteMem} {fetch : Nat → Option (BitVec 8)} {below : Option Nat} {a : Nat} {ap : Nat → BitVec 64}
  {s : List (BitVec 8)}

end

end UCore
