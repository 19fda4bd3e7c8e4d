import UCore.Lib.Machine
import UCore.Process.Proc

namespace UCore
set_option autoImplicit true

/-- The system calls that touch the process table, with their arguments. -/
inductive Syscall where
  | exit (errorCode : Int)
  | fork
  | wait (pid : Int) (store : Option Nat)
  | exec (name len binary size : Nat)
  | yield
  | kill (pid : Int)
  deriving DecidableEq, Repr

namespace Kernel
open Function (update)
variable {S : MemSys}

/-- `syscall`; there is no return value when the process is inside `schedule()`. -/
def syscall (k : Kernel S) (via : Via) : Syscall → Option (Option Int × Kernel S)
  | .exit errorCode => (doExit k errorCode).map fun k => (none, k)
  | .fork => (doFork k 0 .ecall).map fun (ret, k) => (some ret, k)
  | .wait pid store => doWait k via pid store
  | .exec name len binary size => doExecve k name len binary size
  | .yield => some (some 0, doYield k)
  | .kill pid => (doKill k pid).map fun (ret, k) => (some ret, k)

/-- The end of `trap` for a trap from user mode. -/
def trapReturn (k : Kernel S) : Option (Kernel S) :=
  if k.flags k.current &&& pfExiting ≠ 0 then doExit k (-eKilled)
  else if k.needResched k.current then some (k.enterSchedule .trapEnd)
  else some (k.setCtl k.current .user)

/-- What follows the return of a kernel function to its caller. -/
def finish (k : Kernel S) : Via → Option (Kernel S)
  | .ecall => trapReturn k
  | .ebreak => some (k.setCtl k.current .user)
  | .kernel => some (k.setCtl k.current .kthread)

def complete (via : Via) : Option Int × Kernel S → Option (Kernel S)
  | (none, k) => some k
  | (some _, k) => finish k via

/-- The current process goes on where it stopped in `schedule()`, or starts at `forkret`. -/
def resume (k : Kernel S) : Option (Kernel S) :=
  match k.ctl k.current with
  | .forkret .kernel => some (k.setCtl k.current .kthread)
  | .forkret _ => some (k.setCtl k.current .user)
  | .trapEnd => some (k.setCtl k.current .user)
  | .yielded => some (k.setCtl k.current .kthread)
  | .waiting via pid store =>
    if k.flags k.current &&& pfExiting ≠ 0 then doExit k (-eKilled)
    else (waitRepeat k via pid store).bind (complete via)
  | _ => none

end Kernel

/-- The steps of the machine between two traps or calls of `schedule()`. -/
inductive Event where
  /-- A system call from user mode, by `ecall`, or by a breakpoint with the number in `a7`. -/
  | ecall (c : Syscall)
  | ebreak (c : Syscall)
  /-- A timer interrupt; every `TICK_NUM`-th sets `need_resched`. -/
  | tick (fire : Bool)
  | fault (cause addr : Nat)
  /-- Calls of a kernel thread: `kernel_thread`, `do_wait`, `schedule`, the breakpoint of
  `kernel_execve`, and the return of its function. -/
  | kernelThread (cloneFlags : BitVec 32)
  | kernelWait (pid : Int) (store : Option Nat)
  | kernelSchedule
  | kernelExecve (name len binary size : Nat)
  | kernelReturn (ret : Int)
  /-- `cpu_idle` finds `need_resched` set. -/
  | cpuIdle
  | schedule
  | resume
  deriving DecidableEq, Repr

namespace Kernel
open Function (update)
variable {S : MemSys}

def event (k : Kernel S) : Event → Option (Kernel S)
  | .ecall c => (syscall k .ecall c).bind (complete .ecall)
  | .ebreak c => (syscall k .ebreak c).bind (complete .ebreak)
  | .tick fire =>
    let k := if fire then doYield k else k
    if k.ctl k.current = .user then trapReturn k else some k
  | .fault cause addr => do
    let (ret, m) ← S.doPgfault k.mem (k.mm k.current) cause addr
    if ret ≠ 0 then none else trapReturn (k.setMem m)
  | .kernelThread cloneFlags => do
    let (_, k) ← doFork k (cloneFlags ||| cloneVm) .kernel
    finish k .kernel
  | .kernelWait pid store => (doWait k .kernel pid store).bind (complete .kernel)
  | .kernelSchedule => some (k.enterSchedule .yielded)
  | .kernelExecve name len binary size => do
    let (ret, k) ← doExecve k name len binary size
    match ret with
    | none => some k
    | some 0 => finish k .ebreak
    | some _ => finish k .kernel
  | .kernelReturn ret => doExit k ret
  | .cpuIdle => some (k.enterSchedule .idle)
  | .schedule => schedule k
  | .resume => resume k

/-- Where the current process has to be for an event. -/
def enabled (k : Kernel S) : Event → Prop
  | .ecall _ | .ebreak _ | .fault _ _ => k.scheduling = false ∧ k.ctl k.current = .user
  | .tick _ => k.scheduling = false ∧ (k.ctl k.current = .user ∨ k.ctl k.current = .kthread ∨
      k.ctl k.current = .idle)
  | .kernelThread _ | .kernelWait _ _ | .kernelSchedule | .kernelExecve _ _ _ _ | .kernelReturn _ =>
    k.scheduling = false ∧ k.ctl k.current = .kthread
  | .cpuIdle => k.scheduling = false ∧ k.ctl k.current = .idle ∧ k.needResched k.current = true
  | .schedule => k.scheduling = true
  | .resume => k.scheduling = false ∧ k.ctl k.current ∉ [.user, .kthread, .idle]

instance (k : Kernel S) (e : Event) : Decidable (k.enabled e) := by
  cases e <;> simp only [enabled] <;> infer_instance

end Kernel

/-- The kernel from the end of `proc_init` on, where `cpu_idle` runs. -/
def kernelMachine (S : MemSys) : Machine (Kernel S) Event where
  init k := ∃ k₀ : Kernel S, S.boot k₀.mem ∧ k₀.nrProcess = 0 ∧ k₀.lastPid = maxPid ∧
    k₀.nextSafe = maxPid ∧ k₀.scheduling = false ∧ k₀.procInit = some k
  enabled := Kernel.enabled
  next := Kernel.event

instance kernelMachine_decidable (S : MemSys) (k : Kernel S) (e : Event) :
    Decidable ((kernelMachine S).enabled k e) := inferInstanceAs (Decidable (k.enabled e))

end UCore
