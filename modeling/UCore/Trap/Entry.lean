import UCore.Lib.Riscv

namespace UCore
set_option autoImplicit true
open Function (update)

namespace Reg

/-! The names of the registers in the assembly files. -/

def ra : Reg := 1
def sp : Reg := 2
def s0 : Reg := 8
def s1 : Reg := 9
def a0 : Reg := 10
def a1 : Reg := 11
def s2 : Reg := 18
def s3 : Reg := 19
def s4 : Reg := 20
def s5 : Reg := 21
def s6 : Reg := 22
def s7 : Reg := 23
def s8 : Reg := 24
def s9 : Reg := 25
def s10 : Reg := 26
def s11 : Reg := 27

end Reg

/-- What the assembly code jumps to. -/
inductive Sym where
  | trap
  | trapret
  | forkret
  deriving DecidableEq, Repr

def regBytes : Nat := 8

/-- `STORE` and `LOAD` with an offset of so many `REGBYTES`. -/
def storeReg (r : Reg) (k : Nat) (base : Reg) : Instr := .sd r base (k * regBytes)
def loadReg (r : Reg) (k : Nat) (base : Reg) : Instr := .ld r base (k * regBytes)

/-- The macro `SAVE_ALL`. The branch goes to `_save_context`. -/
def saveAll : List Instr :=
  [.csrrw .sp .sscratch .sp, .bnez .sp 1,
    .csrr .sp .sscratch,
    .addi .sp .sp (-.ofNat 64 (36 * regBytes)),
    storeReg 0 0 .sp, storeReg 1 1 .sp, storeReg 3 3 .sp, storeReg 4 4 .sp, storeReg 5 5 .sp, storeReg 6 6 .sp,
    storeReg 7 7 .sp, storeReg 8 8 .sp, storeReg 9 9 .sp, storeReg 10 10 .sp, storeReg 11 11 .sp,
    storeReg 12 12 .sp, storeReg 13 13 .sp, storeReg 14 14 .sp, storeReg 15 15 .sp, storeReg 16 16 .sp,
    storeReg 17 17 .sp, storeReg 18 18 .sp, storeReg 19 19 .sp, storeReg 20 20 .sp, storeReg 21 21 .sp,
    storeReg 22 22 .sp, storeReg 23 23 .sp, storeReg 24 24 .sp, storeReg 25 25 .sp, storeReg 26 26 .sp,
    storeReg 27 27 .sp, storeReg 28 28 .sp, storeReg 29 29 .sp, storeReg 30 30 .sp, storeReg 31 31 .sp,
    .csrrw .s0 .sscratch 0, .csrr .s1 .sstatus, .csrr .s2 .sepc, .csrr .s3 .stval, .csrr .s4 .scause,
    storeReg .s0 2 .sp, storeReg .s1 32 .sp, storeReg .s2 33 .sp, storeReg .s3 34 .sp, storeReg .s4 35 .sp]

/-- The macro `RESTORE_ALL`. The branch goes to `_restore_context`. -/
def restoreAll : List Instr :=
  [loadReg .s1 32 .sp, loadReg .s2 33 .sp,
    .andi .s0 .s1 statusSpp, .bnez .s0 2,
    .addi .s0 .sp (.ofNat 64 (36 * regBytes)), .csrw .sscratch .s0,
    .csrw .sstatus .s1, .csrw .sepc .s2,
    loadReg 1 1 .sp, loadReg 3 3 .sp, loadReg 4 4 .sp, loadReg 5 5 .sp, loadReg 6 6 .sp, loadReg 7 7 .sp,
    loadReg 8 8 .sp, loadReg 9 9 .sp, loadReg 10 10 .sp, loadReg 11 11 .sp, loadReg 12 12 .sp,
    loadReg 13 13 .sp, loadReg 14 14 .sp, loadReg 15 15 .sp, loadReg 16 16 .sp, loadReg 17 17 .sp,
    loadReg 18 18 .sp, loadReg 19 19 .sp, loadReg 20 20 .sp, loadReg 21 21 .sp, loadReg 22 22 .sp,
    loadReg 23 23 .sp, loadReg 24 24 .sp, loadReg 25 25 .sp, loadReg 26 26 .sp, loadReg 27 27 .sp,
    loadReg 28 28 .sp, loadReg 29 29 .sp, loadReg 30 30 .sp, loadReg 31 31 .sp, loadReg 2 2 .sp]

/-- The code at `__alltraps`, up to the call of `trap`, which returns to `__trapret`. -/
def alltraps : Code Sym := ⟨saveAll ++ [.mv .a0 .sp], .jal .trap⟩

def trapret : Code Sym := ⟨restoreAll, .sret⟩

def forkrets : Code Sym := ⟨[.mv .sp .a0], .j .trapret⟩

def kernelExecveRet : Code Sym where
  body := [.addi .a1 .a1 (-.ofNat 64 (36 * regBytes)),
    loadReg .s1 35 .a0, storeReg .s1 35 .a1, loadReg .s1 34 .a0, storeReg .s1 34 .a1, loadReg .s1 33 .a0,
    storeReg .s1 33 .a1, loadReg .s1 32 .a0, storeReg .s1 32 .a1, loadReg .s1 31 .a0, storeReg .s1 31 .a1,
    loadReg .s1 30 .a0, storeReg .s1 30 .a1, loadReg .s1 29 .a0, storeReg .s1 29 .a1, loadReg .s1 28 .a0,
    storeReg .s1 28 .a1, loadReg .s1 27 .a0, storeReg .s1 27 .a1, loadReg .s1 26 .a0, storeReg .s1 26 .a1,
    loadReg .s1 25 .a0, storeReg .s1 25 .a1, loadReg .s1 24 .a0, storeReg .s1 24 .a1, loadReg .s1 23 .a0,
    storeReg .s1 23 .a1, loadReg .s1 22 .a0, storeReg .s1 22 .a1, loadReg .s1 21 .a0, storeReg .s1 21 .a1,
    loadReg .s1 20 .a0, storeReg .s1 20 .a1, loadReg .s1 19 .a0, storeReg .s1 19 .a1, loadReg .s1 18 .a0,
    storeReg .s1 18 .a1, loadReg .s1 17 .a0, storeReg .s1 17 .a1, loadReg .s1 16 .a0, storeReg .s1 16 .a1,
    loadReg .s1 15 .a0, storeReg .s1 15 .a1, loadReg .s1 14 .a0, storeReg .s1 14 .a1, loadReg .s1 13 .a0,
    storeReg .s1 13 .a1, loadReg .s1 12 .a0, storeReg .s1 12 .a1, loadReg .s1 11 .a0, storeReg .s1 11 .a1,
    loadReg .s1 10 .a0, storeReg .s1 10 .a1, loadReg .s1 9 .a0, storeReg .s1 9 .a1, loadReg .s1 8 .a0,
    storeReg .s1 8 .a1, loadReg .s1 7 .a0, storeReg .s1 7 .a1, loadReg .s1 6 .a0, storeReg .s1 6 .a1,
    loadReg .s1 5 .a0, storeReg .s1 5 .a1, loadReg .s1 4 .a0, storeReg .s1 4 .a1, loadReg .s1 3 .a0,
    storeReg .s1 3 .a1, loadReg .s1 2 .a0, storeReg .s1 2 .a1, loadReg .s1 1 .a0, storeReg .s1 1 .a1,
    loadReg .s1 0 .a0, storeReg .s1 0 .a1,
    .mv .sp .a1]
  exit := .j .trapret

def switchTo : Code Sym where
  body := [
    storeReg .ra 0 .a0, storeReg .sp 1 .a0, storeReg .s0 2 .a0, storeReg .s1 3 .a0, storeReg .s2 4 .a0,
    storeReg .s3 5 .a0, storeReg .s4 6 .a0, storeReg .s5 7 .a0, storeReg .s6 8 .a0, storeReg .s7 9 .a0,
    storeReg .s8 10 .a0, storeReg .s9 11 .a0, storeReg .s10 12 .a0, storeReg .s11 13 .a0, loadReg .ra 0 .a1,
    loadReg .sp 1 .a1, loadReg .s0 2 .a1, loadReg .s1 3 .a1, loadReg .s2 4 .a1, loadReg .s3 5 .a1,
    loadReg .s4 6 .a1, loadReg .s5 7 .a1, loadReg .s6 8 .a1, loadReg .s7 9 .a1, loadReg .s8 10 .a1,
    loadReg .s9 11 .a1, loadReg .s10 12 .a1, loadReg .s11 13 .a1]
  exit := .ret

/-- A `struct trapframe`. -/
@[ext] structure TrapFrame where
  gpr : Reg → BitVec 64
  status : BitVec 64
  epc : BitVec 64
  tval : BitVec 64
  cause : BitVec 64

/-- The number of bytes of a trap frame. -/
def frameSize : Nat := 36 * regBytes

/-- The trap frame at an address. -/
def Hart.frame (h : Hart) (a : Nat) : TrapFrame where
  gpr r := h.mem (a + r * regBytes)
  status := h.mem (a + 32 * regBytes)
  epc := h.mem (a + 33 * regBytes)
  tval := h.mem (a + 34 * regBytes)
  cause := h.mem (a + 35 * regBytes)

/-- The registers that `SAVE_ALL` storeRegs first, and that `RESTORE_ALL` loadRegs last. -/
def savedRegs : List (Reg × Nat) := ((List.finRange 32).filter (· ≠ 2)).map fun r => (r, r.val * regBytes)
def restoredRegs : List (Reg × Nat) :=
  ((List.finRange 32).filter fun r => r ≠ 0 ∧ r ≠ 2).map fun r => (r, r.val * regBytes)

/-- The words that `SAVE_ALL` storeRegs last, and those that `RESTORE_ALL` loadRegs first. -/
def savedCsrs : List (Reg × Nat) :=
  [(.s0, 2 * regBytes), (.s1, 32 * regBytes), (.s2, 33 * regBytes), (.s3, 34 * regBytes), (.s4, 35 * regBytes)]
def restoredCsrs : List (Reg × Nat) := [(.s1, 32 * regBytes), (.s2, 33 * regBytes)]

theorem saveAll_eq : saveAll = .csrrw .sp .sscratch .sp :: .bnez .sp 1 :: .csrr .sp .sscratch ::
    .addi .sp .sp (-.ofNat 64 frameSize) :: (storeRegs .sp savedRegs ++
      .csrrw .s0 .sscratch 0 :: .csrr .s1 .sstatus :: .csrr .s2 .sepc :: .csrr .s3 .stval :: .csrr .s4 .scause ::
        storeRegs .sp savedCsrs) := by
  decide

theorem restoreAll_eq : restoreAll = loadRegs .sp restoredCsrs ++
    .andi .s0 .s1 statusSpp :: .bnez .s0 2 :: .addi .s0 .sp (.ofNat 64 frameSize) :: .csrw .sscratch .s0 ::
      .csrw .sstatus .s1 :: .csrw .sepc .s2 :: (loadRegs .sp restoredRegs ++ loadRegs .sp [(2, 2 * regBytes)]) := by
  decide

/-- The words of a `struct context`. -/
def contextRegs : List (Reg × Nat) :=
  [.ra, .sp, .s0, .s1, .s2, .s3, .s4, .s5, .s6, .s7, .s8, .s9, .s10, .s11].zipIdx.map fun x => (x.1, x.2 * regBytes)

/-- The number of bytes of a `struct context`. -/
def contextSize : Nat := 14 * regBytes

theorem switchTo_eq : switchTo.body = storeRegs .a0 contextRegs ++ loadRegs .a1 contextRegs := by decide

/-- The offsets of the words of a trap frame, from the last to the first. -/
def frameOffsets : List Nat := (List.range 36).reverse.map (· * regBytes)

theorem kernelExecveRet_eq : kernelExecveRet.body =
    .addi .a1 .a1 (-.ofNat 64 frameSize) :: (copyRegs .a0 .a1 .s1 frameOffsets ++ [.mv .sp .a1]) := by decide

end UCore
