import UCore.Process.LoadDrop
import UCore.Process.LoadTotal
import UCore.Process.LoadTwice

namespace UCore
set_option autoImplicit true
open Function (update)

namespace ProgHdr

end ProgHdr

section
variable {A : PhysSys} {m m₁ t : Mem A} {role role₁ : Nat → Role}

/-- A page with a permission has an entry with these flags. -/
theorem Filled.flags {P : Nat → Option (BitVec 32)} {B : Nat → Option (BitVec 8)} (h : Filled d P B m t role role₁)
    (hv : v < userVpn) (hp : P v = some perm) (hb : PermBits perm) : pteFlags (t.pteAt d v) = pteV ||| perm := by
  obtain ⟨q, hq, -⟩ := h.page v hv perm hp
  rw [hq, pteFlags_create hb.valid, ← BitVec.or_assoc, BitVec.or_self]

theorem StackPage.lt (h : StackPage v) : v < userVpn := by
  have hlt : v * pgSize < userTop := h.2
  have hv := (vpn_page hlt).2
  rwa [Nat.mul_div_cancel _ (by decide)] at hv

end

/-- The memory of the image with more free frames. -/
def roomMem : Mem framePool :=
  { demoMem 0 with phys := ⟨List.range' 0x80300 32, [], by decide⟩ }

end UCore
