import Mathlib.Algebra.Order.Ring.Nat
import Mathlib.Data.Nat.Notation

namespace UCore

def eBadProc : Int := 2
def eInval : Int := 3
def eNoMem : Int := 4
def eNoFreeProc : Int := 5
def eInvalElf : Int := 8
def eKilled : Int := 9

end UCore
