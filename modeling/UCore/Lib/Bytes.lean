import Mathlib.Data.Nat.Notation
import Mathlib.Tactic.IntervalCases

namespace UCore
set_option autoImplicit true

/-- A piece of memory, by 64-bit words. -/
abbrev Words := Nat → BitVec 64

namespace Words

/-- The byte at an offset; the bytes of a word stand in little-endian order. -/
def byte (w : Words) (i : Nat) : BitVec 8 := (w (i / 8)).extractLsb' (8 * (i % 8)) 8

/-- The word of eight bytes, the first of them lowest. -/
def pack (b : Nat → BitVec 8) : BitVec 64 :=
  b 7 ++ b 6 ++ b 5 ++ b 4 ++ b 3 ++ b 2 ++ b 1 ++ b 0

def ofBytes (g : Nat → BitVec 8) : Words := fun i => pack fun j => g (8 * i + j)

/-- Put `size` bytes at the offset `off`. -/
def fill (w : Words) (off size : Nat) (src : Nat → BitVec 8) : Words :=
  ofBytes fun k => if off ≤ k ∧ k < off + size then src (k - off) else w.byte k

theorem pack_byte (b : Nat → BitVec 8) (hi : i < 8) : (pack b).extractLsb' (8 * i) 8 = b i := by
  apply BitVec.eq_of_getLsbD_eq
  intro j hj
  rw [BitVec.getLsbD_extractLsb', pack]
  simp only [hj, decide_true, Bool.true_and, BitVec.getLsbD_append]
  interval_cases i <;> simp (disch := omega) only [if_neg, if_pos] <;> congr 1 <;> omega

@[simp] theorem byte_ofBytes (g : Nat → BitVec 8) (i : Nat) : (ofBytes g).byte i = g i := by
  unfold byte ofBytes
  rw [pack_byte _ (Nat.mod_lt _ (by decide)), show 8 * (i / 8) + i % 8 = i by omega]

theorem byte_fill (w : Words) (off size : Nat) (src : Nat → BitVec 8) (k : Nat) :
    (w.fill off size src).byte k = if off ≤ k ∧ k < off + size then src (k - off) else w.byte k :=
  byte_ofBytes ..

end Words

end UCore
