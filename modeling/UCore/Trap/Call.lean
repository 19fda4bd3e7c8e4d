import UCore.Lib.Machine
import UCore.Process.Proc

namespace UCore
set_option autoImplicit true

/-- The calls that a process makes in the kernel, in any order, and the two halves of `schedule()`:
the call, and the choice of the next process. A process goes on after `schedule()` by `resume`. -/
inductive Call where
  | fork (cloneFlags : BitVec 32)
  | exit (errorCode : Int)
  | wait (pid : Int) (store : Option Nat)
  | execve (name len binary size : Nat)
  | kill (pid : Int)
  | yield
  | fault (cause addr : Nat)
  | tick (fire : Bool)
  | schedule
  | select
  | resume
  deriving DecidableEq, Repr

namespace Kernel
open Function (update)
variable {S : MemSys}

section
variable (wakeup : Kernel S → Nat → Option (Kernel S))

/-- How the current process entered the kernel. -/
def entry (k : Kernel S) : Via := if k.ctl k.current = .user then .ecall else .kernel

/-- Go back to where the kernel was entered from. -/
def goBack (k : Kernel S) : Via → Kernel S
  | .kernel => k.setCtl k.current .kthread
  | _ => k.setCtl k.current .user

/-- The current process goes on after `schedule()`, or starts at `forkret`. -/
def resumeWith (k : Kernel S) : Option (Option Int × Kernel S) :=
  match k.ctl k.current with
  | .forkret via => some (none, k.goBack via)
  | .trapEnd => some (none, k.goBack .ecall)
  | .yielded => some (none, k.goBack .kernel)
  | .waiting via pid store =>
    if k.flags k.current &&& pfExiting ≠ 0 then
      (doExitWith wakeup k (-eKilled)).map fun k => (none, k)
    else (waitRepeat k via pid store).map fun (ret, k) => (ret, if ret.isSome then k.goBack via else k)
  | _ => none

/-- A call, its return value if it returns, and the state after it. -/
def callWith (k : Kernel S) : Call → Option (Option Int × Kernel S)
  | .fork cloneFlags => (doForkWith wakeup k cloneFlags k.entry).map fun (ret, k) => (some ret, k)
  | .exit errorCode => (doExitWith wakeup k errorCode).map fun k => (none, k)
  | .wait pid store => doWait k k.entry pid store
  | .execve name len binary size =>
    (doExecveWith wakeup k name len binary size).map fun (ret, k) =>
      (ret, if ret = some 0 then k.setCtl k.current .user else k)
  | .kill pid => (doKillWith wakeup k pid).map fun (ret, k) => (some ret, k)
  | .yield => some (some 0, doYield k)
  | .fault cause addr => do
    let (ret, m) ← S.doPgfault k.mem (k.mm k.current) cause addr
    if ret ≠ 0 then none else some (some ret, k.setMem m)
  | .tick fire => some (none, if fire then doYield k else k)
  | .schedule =>
    some (none, k.enterSchedule (match k.ctl k.current with
      | .user => .trapEnd
      | .kthread => .yielded
      | c => c))
  | .select => (schedule k).map fun k => (none, k)
  | .resume => resumeWith wakeup k

end

def call (k : Kernel S) (c : Call) : Option (Option Int × Kernel S) := k.callWith wakeupProc c

/-- Where the current process has to be for a call. -/
def callable (k : Kernel S) : Call → Prop
  | .fork _ | .exit _ | .wait _ _ | .execve _ _ _ _ | .kill _ | .yield | .fault _ _ =>
    k.scheduling = false ∧ (k.ctl k.current = .user ∨ k.ctl k.current = .kthread)
  | .tick _ => k.scheduling = false
  | .schedule => k.scheduling = false ∧ k.ctl k.current ∈ [.user, .kthread, .idle]
  | .select => k.scheduling = true
  | .resume => k.scheduling = false ∧ k.ctl k.current ∉ [.user, .kthread, .idle]

instance (k : Kernel S) (c : Call) : Decidable (k.callable c) := by
  cases c <;> simp only [callable] <;> infer_instance

theorem doForkWith_wakeupProc : doForkWith (S := S) wakeupProc = doFork := rfl

theorem doExitWith_wakeupProc : doExitWith (S := S) wakeupProc = doExit := rfl

theorem doKillWith_wakeupProc : doKillWith (S := S) wakeupProc = doKill := rfl

theorem doExecveWith_wakeupProc : doExecveWith (S := S) wakeupProc = doExecve := rfl

/-- The process `p` is on `proc_list`. -/
def listed (k : Kernel S) (p : Nat) : Prop :=
  ∃ ps : List Nat, k.listLink.Ring .procList (ps.map .listLink) ∧ p ∈ ps

end Kernel

/-- The call from `k` enters `do_exit` with the code, in the given state. -/
inductive Enters {S : MemSys} (k : Kernel S) : Call → Kernel S → Int → Prop where
  | exit : Enters k (.exit e) k e
  | killed : k.ctl k.current = .waiting via pid store → k.flags k.current &&& pfExiting ≠ 0 →
      Enters k .resume k (-eKilled)
  | execve : S.userMemCheck k.mem (k.mm k.current) name len false = (true, m) →
      S.readUser m (k.mm k.current) name (if procNameLen < len then procNameLen else len) = some m₁ →
      (k.setMem m₁).exitMm = some k₁ → S.loadIcode k₁.mem binary size = some (ret, new, m₂) →
      ret ≠ 0 → Enters k (.execve name len binary size) (k₁.setMem m₂) ret

/-- The kernel from the end of `proc_init` on, as the processes and the scheduler call it. -/
def callMachine (S : MemSys) : Machine (Kernel S) Call where
  init k := ∃ k₀ : Kernel S, S.boot k₀.mem ∧ k₀.nrProcess = 0 ∧ k₀.lastPid = maxPid ∧
    k₀.nextSafe = maxPid ∧ k₀.scheduling = false ∧ k₀.procInit = some k
  enabled := Kernel.callable
  next k c := (k.call c).map Prod.snd

instance callMachine_decidable (S : MemSys) (k : Kernel S) (c : Call) :
    Decidable ((callMachine S).enabled k c) := inferInstanceAs (Decidable (k.callable c))

end UCore
