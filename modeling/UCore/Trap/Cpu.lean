import Mathlib.Data.Finset.Erase
import Mathlib.Data.Finset.Insert
import UCore.Lib.Machine
import UCore.Trap.EntrySpec

namespace UCore
set_option autoImplicit true
open Function (update)

/-- `KSTACKSIZE`. -/
def kstackSize : Nat := 8192

/-- The word number `k` of a trap frame. -/
def TrapFrame.word (tf : TrapFrame) (k : Nat) : BitVec 64 :=
  if hk : k < 32 then tf.gpr ⟨k, hk⟩ else if k = 32 then tf.status else if k = 33 then tf.epc
    else if k = 34 then tf.tval else tf.cause

/-- Store a trap frame. -/
def Hart.setFrame (h : Hart) (f : Nat) (tf : TrapFrame) : Hart :=
  { h with mem := fun a => if f ≤ a ∧ a < f + frameSize ∧ (a - f) % regBytes = 0 then tf.word ((a - f) / regBytes)
      else h.mem a }

/-- The trap frame that `copy_thread` makes at `f`, when `esp` is the stack of the new process. -/
def copyFrame (tf : TrapFrame) (esp : BitVec 64) (f : Nat) : TrapFrame :=
  { tf with gpr := update (update tf.gpr .a0 0) .sp (if esp = 0 then .ofNat 64 f else esp) }

/-- The processor, and where the kernel keeps what belongs to the processes: the end of the kernel stack and the
address of the `context` of each one. The trap frames that are on a kernel stack are in `frames`, the last one first,
for the statements only. -/
structure Cpu where
  hart : Hart
  current : Nat
  procs : Finset Nat
  top : Nat → Nat
  ctx : Nat → Nat
  frames : Nat → List Nat

/-- What happens on the processor. -/
inductive CpuStep where
  /-- Code of the user, or C code of the kernel, up to the state it leads to. -/
  | code (h : Hart)
  | trap (cause tval : BitVec 64)
  /-- The kernel changes the trap frame of the trap that it handles. -/
  | handle (tf : TrapFrame)
  /-- `trap` returns. -/
  | trapReturn
  /-- `forkret` calls `forkrets`. -/
  | forkret
  /-- `exception_handler` calls `kernel_execve_ret` with the trap frame that `load_icode` has filled. -/
  | execveReturn (tf : TrapFrame)
  /-- `do_fork` with `setup_kstack` and `copy_thread`, for the process `q`. -/
  | fork (q top ctx : Nat) (esp : BitVec 64) (tf : TrapFrame)
  | switchTo (q : Nat)
  /-- `do_wait` gives back the kernel stack and the `proc_struct` of a process. -/
  | reap (q : Nat)

namespace Cpu

/-- Where the kernel stack of a process ends for the code that runs on it: at the last trap frame. -/
def limit (s : Cpu) (p : Nat) : Nat := (s.frames p).headD (s.top p)

def InStack (s : Cpu) (p a : Nat) : Prop := s.top p - kstackSize ≤ a ∧ a < s.top p
def InCtx (s : Cpu) (p a : Nat) : Prop := s.ctx p ≤ a ∧ a < s.ctx p + contextSize

/-- The part of the kernel stack that belongs to the running kernel code. -/
def Own (s : Cpu) (a : Nat) : Prop := s.hart.user = false ∧ s.InStack s.current a ∧ a < s.limit s.current

/-- A stack pointer for the kernel stack of a process. -/
def OnStack (s : Cpu) (p a : Nat) : Prop := a % 8 = 0 ∧ s.top p - kstackSize ≤ a ∧ a ≤ s.limit p

/-- What the compiled code of the kernel does not do, nor the user, who cannot reach the kernel: it changes no control
register but `sstatus`, and no kernel stack or context but its own part of the stack. -/
structure Confined (s : Cpu) (h : Hart) : Prop where
  user : h.user = s.hart.user
  csr : ∀ c, c ≠ .sstatus ∨ s.hart.user = true → h.csr c = s.hart.csr c
  mem : ∀ p ∈ s.procs, ∀ a, s.InStack p a ∨ s.InCtx p a → ¬ s.Own a → h.mem a = s.hart.mem a
  sp : s.hart.user = false → s.OnStack s.current (h.get .sp).toNat

/-- The kernel memory for a new process is not in use. -/
structure Placed (s : Cpu) (top ctx : Nat) : Prop where
  aligned : top % 8 = 0 ∧ ctx % 8 = 0
  room : kstackSize ≤ top ∧ top < 2 ^ 64 ∧ ctx + contextSize ≤ 2 ^ 64
  apart : ctx + contextSize ≤ top - kstackSize ∨ top ≤ ctx
  stackFree : ∀ p ∈ s.procs, ∀ a, top - kstackSize ≤ a → a < top → ¬ s.InStack p a ∧ ¬ s.InCtx p a
  ctxFree : ∀ p ∈ s.procs, ∀ a, ctx ≤ a → a < ctx + contextSize → ¬ s.InStack p a ∧ ¬ s.InCtx p a

/-- The trap frame `tf` goes back to the same mode as the one at `f`, and to the same stack if that is the kernel. -/
def KeepsMode (s : Cpu) (f : Nat) (tf : TrapFrame) : Prop :=
  tf.status &&& statusSpp = (s.hart.frame f).status &&& statusSpp ∧
    (tf.status &&& statusSpp ≠ 0 → tf.gpr .sp = (s.hart.frame f).gpr .sp)

/-- When a step can happen. A trap needs room on the kernel stack. A kernel thread executes a program only from its
function, and a kernel thread has no user stack. -/
def enabled (s : Cpu) : CpuStep → Prop
  | .code h => s.Confined h
  | .trap _ _ => s.top s.current - kstackSize + frameSize ≤ s.hart.trapBase.toNat
  | .handle tf => s.hart.user = false ∧ ∃ f ∈ (s.frames s.current).head?, s.KeepsMode f tf
  | .trapReturn => s.hart.user = false ∧ ∃ f ∈ (s.frames s.current).head?, (s.hart.get .sp).toNat = f
  | .forkret => s.hart.user = false ∧ ∃ f ∈ (s.frames s.current).head?, (s.hart.get .a0).toNat = f
  | .execveReturn tf => s.hart.user = false ∧ s.frames s.current = [(s.hart.get .a0).toNat] ∧
      (s.hart.get .a1).toNat = s.top s.current ∧
      (tf.status &&& statusSpp ≠ 0 → s.KeepsMode (s.hart.get .a0).toNat tf)
  | .fork q top ctx esp tf => s.hart.user = false ∧ q ∉ s.procs ∧ s.Placed top ctx ∧
      (tf.status &&& statusSpp ≠ 0 → esp = 0)
  | .switchTo q => s.hart.user = false ∧ q ∈ s.procs ∧ q ≠ s.current ∧
      (s.hart.get .a0).toNat = s.ctx s.current ∧ (s.hart.get .a1).toNat = s.ctx q
  | .reap q => s.hart.user = false ∧ q ≠ s.current

variable (sym : Sym → BitVec 64)

/-- The memory of a new process: the trap frame at the end of the kernel stack, and the context that `alloc_proc` has
cleared, with `ra` and `sp`. -/
def copyThread (h : Hart) (top ctx : Nat) (esp : BitVec 64) (tf : TrapFrame) : Hart :=
  let f := top - frameSize
  let h := h.setFrame f (copyFrame tf esp f)
  { h with mem := fun a =>
      if a = ctx then sym .forkret else if a = ctx + regBytes then .ofNat 64 f
      else if ctx ≤ a ∧ a < ctx + contextSize then 0 else h.mem a }

def next (s : Cpu) : CpuStep → Option Cpu
  | .code h => some { s with hart := h }
  | .trap cause tval => do
    let h ← (s.hart.trap cause tval).runCode sym (sym .trapret) alltraps
    some { s with
      hart := h
      frames := update s.frames s.current ((s.hart.trapBase.toNat - frameSize) :: s.frames s.current) }
  | .handle tf => some { s with hart := s.hart.setFrame (s.limit s.current) tf }
  | .trapReturn => do
    let h ← s.hart.runCode sym 0 trapret
    some { s with hart := h, frames := update s.frames s.current (s.frames s.current).tail }
  | .forkret => do
    let h ← s.hart.runCode sym 0 forkrets
    let h ← h.runCode sym 0 trapret
    some { s with hart := h, frames := update s.frames s.current (s.frames s.current).tail }
  | .execveReturn tf => do
    let h ← (s.hart.setFrame (s.limit s.current) tf).runCode sym 0 kernelExecveRet
    let h ← h.runCode sym 0 trapret
    some { s with hart := h, frames := update s.frames s.current [] }
  | .fork q top ctx esp tf => some { s with
      hart := copyThread sym s.hart top ctx esp tf
      procs := insert q s.procs
      top := update s.top q top
      ctx := update s.ctx q ctx
      frames := update s.frames q [top - frameSize] }
  | .switchTo q => do
    let h ← s.hart.runCode sym 0 switchTo
    some { s with hart := h, current := q }
  | .reap q => some { s with procs := s.procs.erase q }

end Cpu

/-- The processor from the time on when `idt_init` has set `sscratch` and the first process, on the boot stack, exists. -/
def cpuMachine (sym : Sym → BitVec 64) : Machine Cpu CpuStep where
  init s := s.procs = {s.current} ∧ s.frames s.current = [] ∧ s.hart.user = false ∧ s.hart.csr .sscratch = 0 ∧
    Cpu.Placed { s with procs := ∅ } (s.top s.current) (s.ctx s.current) ∧ s.OnStack s.current (s.hart.get .sp).toNat
  enabled := Cpu.enabled
  next := Cpu.next sym

end UCore
