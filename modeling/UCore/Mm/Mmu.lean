import Mathlib.Data.Nat.Notation
import Mathlib.Data.Nat.ModEq

namespace UCore
set_option autoImplicit true

def pgSize : Nat := 4096
def nPteEntry : Nat := 512
def ptSize : Nat := pgSize * nPteEntry
def pdSize : Nat := ptSize * nPteEntry
def userBase : Nat := 0x00200000
def userTop : Nat := 0x80000000
def ustackTop : Nat := userTop
def ustackSize : Nat := 256 * pgSize
def kernBase : Nat := 0xFFFFFFFFC0200000
def kernTop : Nat := kernBase + 0x7E00000
def vaPaOffset : Nat := kernBase - 0x80200000
/-- The number of page frames below `PHYSICAL_MEMORY_END`. -/
def npage : Nat := 0x88000

/-- The sum and the difference of `size_t`. -/
def addW (a b : Nat) : Nat := (a + b) % 2 ^ 64
def subW (a b : Nat) : Nat := (a + 2 ^ 64 - b) % 2 ^ 64

def roundDown (a n : Nat) : Nat := a - a % n
/-- The sum of `ROUNDUP` is one of `size_t`. -/
def roundUp (a n : Nat) : Nat := roundDown ((a + n - 1) % 2 ^ 64) n

def pdx1 (la : Nat) : Nat := la / 2 ^ 30 % 512
def pdx0 (la : Nat) : Nat := la / 2 ^ 21 % 512
def ptx (la : Nat) : Nat := la / 2 ^ 12 % 512

def UserAccess (start stop : Nat) : Prop := userBase ≤ start ∧ start < stop ∧ stop ≤ userTop
def KernAccess (start stop : Nat) : Prop := kernBase ≤ start ∧ start < stop ∧ stop ≤ kernTop

instance : Decidable (UserAccess start stop) := inferInstanceAs (Decidable (_ ∧ _))
instance : Decidable (KernAccess start stop) := inferInstanceAs (Decidable (_ ∧ _))

def pteV : BitVec 32 := 0x001
def pteR : BitVec 32 := 0x002
def pteW : BitVec 32 := 0x004
def pteX : BitVec 32 := 0x008
def pteU : BitVec 32 := 0x010
def readWrite : BitVec 32 := pteR ||| pteW ||| pteV
def pteUser : BitVec 32 := pteR ||| pteW ||| pteX ||| pteU ||| pteV

/-- `pte_create`, with the conversion of the `int` to 64 bits. -/
def pteCreate (ppn : Nat) (type : BitVec 32) : BitVec 64 :=
  (BitVec.ofNat 64 ppn <<< 10) ||| pteV.signExtend 64 ||| type.signExtend 64

def pteValid (pte : BitVec 64) : Bool := pte.getLsbD 0

/-- The number of the frame that an entry points to, `PPN(PTE_ADDR(pte))`. -/
def ptePpn (pte : BitVec 64) : Nat := (((pte &&& ~~~0x3ff#64) <<< 2) >>> 12).toNat

/-- The bits of an entry that `copy_range` keeps as the permission. -/
def ptePerm (pte : BitVec 64) : BitVec 32 := pte.setWidth 32 &&& pteUser

/-- The permission has none but the ten flag bits of an entry. -/
def PermBits (perm : BitVec 32) : Prop := perm.toNat < 2 ^ 10

instance : Decidable (PermBits perm) := inferInstanceAs (Decidable (_ < _))

/-- The page number of a virtual address, in the 27 bits that the three levels translate. -/
def vpn (la : Nat) : Nat := la / 2 ^ 12 % 2 ^ 27

/-- The page numbers of the lower half, which is the half of the user. -/
def userVpn : Nat := 2 ^ 26

theorem pdx1_eq (la : Nat) : pdx1 la = vpn la / 2 ^ 18 := by
  unfold pdx1 vpn
  omega

theorem pdx0_eq (la : Nat) : pdx0 la = vpn la / 2 ^ 9 % 2 ^ 9 := by
  unfold pdx0 vpn
  omega

theorem ptx_eq (la : Nat) : ptx la = vpn la % 2 ^ 9 := by
  unfold ptx vpn
  omega

@[simp] theorem pteValid_zero : pteValid 0 = false := rfl

theorem PermBits.getLsbD (h : PermBits perm) (hi : 10 ≤ i) : perm.getLsbD i = false :=
  Nat.testBit_lt_two_pow (h.trans_le (Nat.pow_le_pow_right (by decide) hi))

theorem PermBits.valid (h : PermBits perm) : PermBits (pteV ||| perm) := by
  rw [PermBits, BitVec.toNat_or]
  exact Nat.or_lt_two_pow (by decide) h

theorem PermBits.signExtend (h : PermBits perm) (hi : 10 ≤ i) :
    (perm.signExtend 64).getLsbD i = false := by
  rw [BitVec.getLsbD_signExtend]
  split
  · simp [h.getLsbD hi]
  · have hm : perm.msb = false := by
      rw [BitVec.msb_eq_getLsbD_last]
      exact h.getLsbD (by decide)
    simp [hm]

theorem pteValid_create (ppn : Nat) (type : BitVec 32) : pteValid (pteCreate ppn type) = true := by
  simp [pteValid, pteCreate, pteV]

theorem flagMask_testBit (hi : 10 ≤ i) : Nat.testBit 0x3ff i = false :=
  Nat.testBit_lt_two_pow (Nat.lt_of_lt_of_le (by decide) (Nat.pow_le_pow_right (by decide) hi))

/-- A frame number goes through an entry unchanged. -/
theorem ptePpn_create (hp : ppn < 2 ^ 52) (ht : PermBits type) : ptePpn (pteCreate ppn type) = ppn := by
  apply Nat.eq_of_testBit_eq
  intro i
  have hv : PermBits pteV := by decide
  have ht' := ht.signExtend (i := i + 10) (by omega)
  have hv' := hv.signExtend (i := i + 10) (by omega)
  have hm := flagMask_testBit (i := i + 10) (by omega)
  unfold ptePpn pteCreate
  rw [← BitVec.getLsbD]
  simp only [BitVec.getLsbD_ushiftRight, BitVec.getLsbD_shiftLeft, BitVec.getLsbD_and, BitVec.getLsbD_not,
    BitVec.getLsbD_or, BitVec.getLsbD_ofNat]
  rw [show 12 + i - 2 = i + 10 by omega, ht', hv', hm, show i + 10 - 10 = i by omega]
  by_cases hi : i < 52
  · simp [show i < 64 by omega, show 12 + i < 64 by omega, show ¬ 12 + i < 2 by omega,
      show i + 10 < 64 by omega]
  · rw [Nat.testBit_lt_two_pow (hp.trans_le (Nat.pow_le_pow_right (by decide) (by omega)))]
    simp [show ¬ 12 + i < 64 by omega]

theorem ptePerm_getLsbD (pte : BitVec 64) (i : Nat) :
    (ptePerm pte).getLsbD i = (pte.getLsbD i && pteUser.getLsbD i) := by
  by_cases hi : i < 32
  · simp [ptePerm, hi]
  · simp [BitVec.getLsbD_of_ge _ i (Nat.not_lt.1 hi)]

theorem pteUser_getLsbD (hi : 5 ≤ i) : pteUser.getLsbD i = false :=
  Nat.testBit_lt_two_pow (Nat.lt_of_lt_of_le (by decide) (Nat.pow_le_pow_right (by decide) hi))

theorem permBits_ptePerm (pte : BitVec 64) : PermBits (ptePerm pte) := by
  apply Nat.lt_pow_two_of_testBit
  intro i hi
  have h := ptePerm_getLsbD pte i
  rw [pteUser_getLsbD (by omega), Bool.and_false] at h
  exact h

/-- An entry has the flag bits it was made with, and is valid. -/
theorem ptePerm_create (ppn : Nat) (type : BitVec 32) :
    ptePerm (pteCreate ppn type) = (pteV ||| type) &&& pteUser := by
  apply BitVec.eq_of_getLsbD_eq
  intro i hi
  rw [ptePerm_getLsbD]
  by_cases h5 : i < 5
  · simp only [pteCreate, BitVec.getLsbD_or, BitVec.getLsbD_and, BitVec.getLsbD_shiftLeft,
      BitVec.getLsbD_signExtend]
    simp [hi, show i < 64 by omega, show i < 10 by omega]
  · rw [BitVec.getLsbD_and, pteUser_getLsbD (by omega), Bool.and_false, Bool.and_false]

/-- The copy of a valid entry for another frame has the same flag bits. -/
theorem ptePerm_copy (h : pteValid pte) : ptePerm (pteCreate ppn (ptePerm pte)) = ptePerm pte := by
  rw [ptePerm_create]
  apply BitVec.eq_of_getLsbD_eq
  intro i hi
  rw [BitVec.getLsbD_and, BitVec.getLsbD_or, ptePerm_getLsbD]
  cases i with
  | zero =>
    have hv : pte.getLsbD 0 = true := h
    rw [hv]
    rfl
  | succ i =>
    have hv : pteV.getLsbD (i + 1) = false :=
      Nat.testBit_lt_two_pow (Nat.lt_of_lt_of_le (by decide) (Nat.pow_le_pow_right (by decide)
        (show 1 ≤ i + 1 by omega)))
    rw [hv, Bool.false_or, Bool.and_assoc, Bool.and_self]

theorem ptePerm_copy_valid (h : pteValid pte) : ptePerm (pteCreate ppn (pteV ||| ptePerm pte)) = ptePerm pte := by
  rw [ptePerm_create, ← BitVec.or_assoc, BitVec.or_self, ← ptePerm_create ppn, ptePerm_copy h]

end UCore
