import Mathlib.Algebra.Order.Ring.Nat
import Mathlib.Data.Fin.Basic
import Mathlib.Logic.Function.Basic
import Mathlib.Tactic.Common

namespace UCore
set_option autoImplicit true
open Function (update)

/-- The registers `x0` to `x31`. -/
abbrev Reg := Fin 32

instance regNeZero : NeZero (32 : Nat) := ⟨by decide⟩

/-- The control registers of the supervisor that code for traps uses. -/
inductive Csr where
  | sstatus | sepc | stval | scause | sscratch | stvec
  deriving DecidableEq, Repr

/-- The bits of `sstatus`: the previous privilege, and the interrupt enable bits now and before. -/
def statusSpp : BitVec 64 := 0x100
def statusSpie : BitVec 64 := 0x20
def statusSie : BitVec 64 := 0x2

/-- What a trap makes of `sstatus`, and what `sret` does. -/
def trapStatus (user : Bool) (status : BitVec 64) : BitVec 64 :=
  (status &&& ~~~(statusSpp ||| statusSpie ||| statusSie)) |||
    (if status &&& statusSie ≠ 0 then statusSpie else 0) ||| if user then 0 else statusSpp

def sretStatus (status : BitVec 64) : BitVec 64 :=
  (status &&& ~~~(statusSpp ||| statusSie)) ||| statusSpie ||| if status &&& statusSpie ≠ 0 then statusSie else 0

/-- A processor with its memory, a doubleword at each address that is a multiple of eight. -/
structure Hart where
  reg : Reg → BitVec 64
  csr : Csr → BitVec 64
  mem : Nat → BitVec 64
  pc : BitVec 64
  user : Bool

/-- The instructions that a straight piece of code is made of. A branch skips the next instructions. -/
inductive Instr where
  | ld (rd base : Reg) (off : Nat)
  | sd (rs base : Reg) (off : Nat)
  | addi (rd rs : Reg) (imm : BitVec 64)
  | andi (rd rs : Reg) (imm : BitVec 64)
  | mv (rd rs : Reg)
  | csrrw (rd : Reg) (c : Csr) (rs : Reg)
  | csrr (rd : Reg) (c : Csr)
  | csrw (c : Csr) (rs : Reg)
  | bnez (rs : Reg) (skip : Nat)
  deriving DecidableEq, Repr

/-- How a piece of code is left. -/
inductive Jump (L : Type) where
  | jal (l : L)
  | j (l : L)
  | ret
  | sret
  deriving DecidableEq, Repr

structure Code (L : Type) where
  body : List Instr
  exit : Jump L

namespace Hart

/-- The register `x0` is always zero. -/
def get (h : Hart) (r : Reg) : BitVec 64 := if r = 0 then 0 else h.reg r

def set (h : Hart) (r : Reg) (v : BitVec 64) : Hart := { h with reg := update h.reg r v }

def setCsr (h : Hart) (c : Csr) (v : BitVec 64) : Hart := { h with csr := update h.csr c v }

def setWord (h : Hart) (a : Nat) (v : BitVec 64) : Hart := { h with mem := update h.mem a v }

/-- The address of a load or a store. A misaligned access has no result. -/
def addr (h : Hart) (base : Reg) (off : Nat) : Option Nat :=
  let a := (h.get base + .ofNat 64 off).toNat
  if a % 8 = 0 then some a else none

/-- An instruction: the processor after it, and the number of instructions that are skipped. -/
def exec (h : Hart) : Instr → Option (Hart × Nat)
  | .ld rd base off => (h.addr base off).map fun a => (h.set rd (h.mem a), 0)
  | .sd rs base off => (h.addr base off).map fun a => (h.setWord a (h.get rs), 0)
  | .addi rd rs imm => some (h.set rd (h.get rs + imm), 0)
  | .andi rd rs imm => some (h.set rd (h.get rs &&& imm), 0)
  | .mv rd rs => some (h.set rd (h.get rs), 0)
  | .csrrw rd c rs => some ((h.set rd (h.csr c)).setCsr c (h.get rs), 0)
  | .csrr rd c => some (h.set rd (h.csr c), 0)
  | .csrw c rs => some (h.setCsr c (h.get rs), 0)
  | .bnez rs skip => some (h, if h.get rs ≠ 0 then skip else 0)

/-- Run a piece of code, behind the first instructions. -/
def run (h : Hart) : Nat → List Instr → Option Hart
  | _, [] => some h
  | skip + 1, _ :: is => h.run skip is
  | 0, i :: is => (h.exec i).bind fun r => r.1.run r.2 is

/-- A trap: the processor goes to the handler, with interrupts off. -/
def trap (h : Hart) (cause tval : BitVec 64) : Hart :=
  { h with
    csr := update (update (update (update h.csr .sstatus (trapStatus h.user (h.csr .sstatus))) .sepc h.pc)
      .scause cause) .stval tval
    pc := h.csr .stvec
    user := false }

/-- The instruction `sret`. -/
def sret (h : Hart) : Hart :=
  { h with
    csr := update h.csr .sstatus (sretStatus (h.csr .sstatus))
    pc := h.csr .sepc
    user := h.csr .sstatus &&& statusSpp = 0 }

/-- Leave a piece of code; a call returns to the address `back`. -/
def jump (h : Hart) (sym : L → BitVec 64) (back : BitVec 64) : Jump L → Hart
  | .jal l => { h.set 1 back with pc := sym l }
  | .j l => { h with pc := sym l }
  | .ret => { h with pc := h.get 1 }
  | .sret => h.sret

def runCode (h : Hart) (sym : L → BitVec 64) (back : BitVec 64) (b : Code L) : Option Hart :=
  (h.run 0 b.body).map fun h => h.jump sym back b.exit

end Hart

/-- Stores of registers at offsets from a base, and loads. -/
def storeRegs (base : Reg) (l : List (Reg × Nat)) : List Instr := l.map fun x => .sd x.1 base x.2
def loadRegs (base : Reg) (l : List (Reg × Nat)) : List Instr := l.map fun x => .ld x.1 base x.2

/-- Copies of words from one base to another, through a register. -/
def copyRegs (src dst tmp : Reg) (l : List Nat) : List Instr := l.flatMap fun off => [.ld tmp src off, .sd tmp dst off]

section
variable {h : Hart} {base r : Reg} {l : List (Reg × Nat)} {is : List Instr}

@[simp] theorem get_zero (h : Hart) : h.get 0 = 0 := rfl

theorem get_ne (hr : r ≠ 0) : h.get r = h.reg r := if_neg hr

@[simp] theorem get_setWord : (h.setWord a v).get r = h.get r := rfl
@[simp] theorem get_setCsr : (h.setCsr c v).get r = h.get r := rfl

@[simp] theorem set_csr : (h.set r v).csr = h.csr := rfl
@[simp] theorem set_mem : (h.set r v).mem = h.mem := rfl

@[simp] theorem setCsr_self : (h.setCsr c v).csr c = v := Function.update_self ..

theorem setCsr_ne (hc : c ≠ d) : (h.setCsr d v).csr c = h.csr c := Function.update_of_ne hc ..

theorem get_set_self (hr : r ≠ 0) : (h.set r v).get r = v := by
  rw [get_ne hr]
  exact Function.update_self ..

theorem get_set_ne (hne : r ≠ x) : (h.set x v).get r = h.get r := by
  unfold Hart.get
  split
  · rfl
  · exact Function.update_of_ne hne ..

@[simp] theorem run_addi : h.run 0 (.addi rd rs imm :: is) = (h.set rd (h.get rs + imm)).run 0 is := rfl
@[simp] theorem run_andi : h.run 0 (.andi rd rs imm :: is) = (h.set rd (h.get rs &&& imm)).run 0 is := rfl
@[simp] theorem run_mv : h.run 0 (.mv rd rs :: is) = (h.set rd (h.get rs)).run 0 is := rfl
@[simp] theorem run_csrw : h.run 0 (.csrw c rs :: is) = (h.setCsr c (h.get rs)).run 0 is := rfl
@[simp] theorem run_nil : h.run 0 [] = some h := rfl

theorem addr_eq (ha : (h.get base).toNat % 8 = 0) (hoff : off % 8 = 0) (hb : (h.get base).toNat + off < 2 ^ 64) :
    h.addr base off = some ((h.get base).toNat + off) := by
  have he : (h.get base + .ofNat 64 off).toNat = (h.get base).toNat + off := by
    rw [BitVec.toNat_add, BitVec.toNat_ofNat, Nat.mod_eq_of_lt (by omega : off < 2 ^ 64), Nat.mod_eq_of_lt hb]
  unfold Hart.addr
  dsimp only
  rw [he, if_pos (by omega)]

theorem run_ld (h : Hart) (rd base : Reg) (off : Nat) (is : List Instr) (ha : (h.get base).toNat % 8 = 0)
    (hoff : off % 8 = 0) (hb : (h.get base).toNat + off < 2 ^ 64) :
    h.run 0 (.ld rd base off :: is) = (h.set rd (h.mem ((h.get base).toNat + off))).run 0 is := by
  show (h.exec (.ld rd base off)).bind _ = _
  rw [Hart.exec, addr_eq ha hoff hb]
  rfl

theorem run_sd (ha : (h.get base).toNat % 8 = 0) (hoff : off % 8 = 0) (hb : (h.get base).toNat + off < 2 ^ 64) :
    h.run 0 (.sd rs base off :: is) = (h.setWord ((h.get base).toNat + off) (h.get rs)).run 0 is := by
  show (h.exec (.sd rs base off)).bind _ = _
  rw [Hart.exec, addr_eq ha hoff hb]
  rfl

/-- The memory when registers have been stored at offsets from the address `b`. -/
def storesAt (g : Reg → BitVec 64) (b : Nat) (mem : Nat → BitVec 64) : List (Reg × Nat) → Nat → BitVec 64
  | [] => mem
  | x :: l => storesAt g b (update mem (b + x.2) (g x.1)) l

/-- The registers when they have been loaded from offsets from the address `b`. -/
def loadsAt (mem : Nat → BitVec 64) (b : Nat) (reg : Reg → BitVec 64) : List (Reg × Nat) → Reg → BitVec 64
  | [] => reg
  | x :: l => loadsAt mem b (update reg x.1 (mem (b + x.2))) l

/-- The memory when words have been copied from offsets from `s` to those from `d`. -/
def copiesAt (s d : Nat) (mem : Nat → BitVec 64) : List Nat → Nat → BitVec 64
  | [] => mem
  | off :: l => copiesAt s d (update mem (d + off) (mem (s + off))) l

theorem run_copies (h : Hart) (src dst tmp : Reg) (l : List Nat) (is : List Instr) (hs : (h.get src).toNat % 8 = 0)
    (hd : (h.get dst).toNat % 8 = 0)
    (hoff : ∀ off ∈ l, off % 8 = 0 ∧ (h.get src).toNat + off < 2 ^ 64 ∧ (h.get dst).toNat + off < 2 ^ 64)
    (ht : tmp ≠ 0) (hts : tmp ≠ src) (htd : tmp ≠ dst) : ∃ g : Reg → BitVec 64, (∀ r ≠ tmp, g r = h.reg r) ∧
      h.run 0 (copyRegs src dst tmp l ++ is) =
        Hart.run { h with reg := g, mem := copiesAt (h.get src).toNat (h.get dst).toNat h.mem l } 0 is := by
  induction l generalizing h with
  | nil => exact ⟨h.reg, fun _ _ => rfl, rfl⟩
  | cons off l ih =>
    obtain ⟨h8, hs', hd'⟩ := hoff off (.head _)
    have hsrc (v : BitVec 64) : (h.set tmp v).get src = h.get src := get_set_ne hts.symm
    have hdst (v : BitVec 64) : (h.set tmp v).get dst = h.get dst := get_set_ne htd.symm
    have hval : (h.set tmp (h.mem ((h.get src).toNat + off))).get tmp = h.mem ((h.get src).toNat + off) :=
      get_set_self ht
    obtain ⟨g, hg, hi⟩ := ih (h := (h.set tmp (h.mem ((h.get src).toNat + off))).setWord ((h.get dst).toNat + off)
        (h.mem ((h.get src).toNat + off)))
      (by rwa [get_setWord, hsrc]) (by rwa [get_setWord, hdst]) fun o ho => by
        rw [get_setWord, get_setWord, hsrc, hdst]
        exact hoff o (.tail _ ho)
    rw [get_setWord, get_setWord, hsrc, hdst] at hi
    refine ⟨g, fun r hr => (hg r hr).trans (Function.update_of_ne hr ..), ?_⟩
    show h.run 0 (.ld tmp src off :: .sd tmp dst off :: (copyRegs src dst tmp l ++ is)) = _
    rw [run_ld _ _ _ _ _ hs h8 hs', run_sd (by rwa [hdst]) h8 (by rwa [hdst]), hdst, hval]
    exact hi

/-- Copying from the last word to the first one is right for a target that is not below the source, also when the
two overlap. -/
theorem copiesAt_spec (l : List Nat) (mem : Nat → BitVec 64) (hl : l.Pairwise (· > ·)) (hsd : s ≤ d) :
    (∀ off ∈ l, copiesAt s d mem l (d + off) = mem (s + off)) ∧
      ∀ a, (∀ off ∈ l, d + off ≠ a) → copiesAt s d mem l a = mem a := by
  induction l generalizing mem with
  | nil => exact ⟨nofun, fun _ _ => rfl⟩
  | cons off l ih =>
    rw [List.pairwise_cons] at hl
    obtain ⟨hin, hout⟩ := ih (update mem (d + off) (mem (s + off))) hl.2
    refine ⟨fun o ho => ?_, fun a ha => ?_⟩
    · rw [copiesAt]
      cases ho with
      | head =>
        rw [hout _ fun o ho he => absurd (Nat.add_left_cancel he) (Nat.ne_of_lt (hl.1 o ho))]
        exact Function.update_self ..
      | tail _ ho =>
        have hlt := hl.1 o ho
        rw [hin o ho]
        exact Function.update_of_ne (by omega) ..
    · rw [copiesAt, hout a fun o ho => ha o (.tail _ ho)]
      exact Function.update_of_ne (ha off (.head _)).symm ..

theorem run_stores (h : Hart) (base : Reg) (l : List (Reg × Nat)) (is : List Instr) (ha : (h.get base).toNat % 8 = 0)
    (hoff : ∀ x ∈ l, x.2 % 8 = 0 ∧ (h.get base).toNat + x.2 < 2 ^ 64) :
    h.run 0 (storeRegs base l ++ is) =
      Hart.run { h with mem := storesAt h.get (h.get base).toNat h.mem l } 0 is := by
  induction l generalizing h with
  | nil => rfl
  | cons x l ih =>
    obtain ⟨h8, hb⟩ := hoff x (.head _)
    have hi := ih (h := h.setWord ((h.get base).toNat + x.2) (h.get x.1)) ha
      fun y hy => hoff y (.tail _ hy)
    exact (run_sd ha h8 hb).trans hi

theorem run_loads (h : Hart) (base : Reg) (l : List (Reg × Nat)) (is : List Instr) (ha : (h.get base).toNat % 8 = 0)
    (hoff : ∀ x ∈ l, x.2 % 8 = 0 ∧ (h.get base).toNat + x.2 < 2 ^ 64)
    (hbase : ∀ x ∈ l, x.1 ≠ base) :
    h.run 0 (loadRegs base l ++ is) =
      Hart.run { h with reg := loadsAt h.mem (h.get base).toNat h.reg l } 0 is := by
  induction l generalizing h with
  | nil => rfl
  | cons x l ih =>
    obtain ⟨h8, hb⟩ := hoff x (.head _)
    have hg : (h.set x.1 (h.mem ((h.get base).toNat + x.2))).get base = h.get base :=
      get_set_ne (hbase x (.head _)).symm
    have hi := ih (h := h.set x.1 (h.mem ((h.get base).toNat + x.2))) (by rwa [hg])
      (fun y hy => by
        rw [hg]
        exact hoff y (.tail _ hy))
      fun y hy => hbase y (.tail _ hy)
    rw [hg] at hi
    exact (run_ld _ _ _ _ _ ha h8 hb).trans hi

theorem storesAt_outside (ha : ∀ x ∈ l, b + x.2 ≠ a) : storesAt g b mem l a = mem a := by
  induction l generalizing mem with
  | nil => rfl
  | cons x l ih =>
    rw [storesAt, ih fun y hy => ha y (.tail _ hy)]
    exact Function.update_of_ne (ha x (.head _)).symm ..

theorem storesAt_mem (hl : (l.map Prod.snd).Nodup) (hx : (r, k) ∈ l) : storesAt g b mem l (b + k) = g r := by
  induction l generalizing mem with
  | nil => cases hx
  | cons x l ih =>
    rw [List.map_cons, List.nodup_cons] at hl
    rw [storesAt]
    cases hx with
    | head =>
      rw [storesAt_outside fun y hy he => hl.1 (List.mem_map.2 ⟨y, hy, Nat.add_left_cancel he⟩)]
      exact Function.update_self ..
    | tail _ hx => exact ih hl.2 hx

theorem loadsAt_outside (hr : r ∉ l.map Prod.fst) : loadsAt mem b reg l r = reg r := by
  induction l generalizing reg with
  | nil => rfl
  | cons x l ih =>
    rw [List.map_cons, List.mem_cons, not_or] at hr
    rw [loadsAt, ih hr.2]
    exact Function.update_of_ne hr.1 ..

theorem loadsAt_mem (hl : (l.map Prod.fst).Nodup) (hx : (r, k) ∈ l) : loadsAt mem b reg l r = mem (b + k) := by
  induction l generalizing reg with
  | nil => cases hx
  | cons x l ih =>
    rw [List.map_cons, List.nodup_cons] at hl
    rw [loadsAt]
    cases hx with
    | head =>
      rw [loadsAt_outside hl.1]
      exact Function.update_self ..
    | tail _ hx => exact ih hl.2 hx

end

end UCore
