import UCore.Libs.Error
import UCore.Libs.List
import UCore.Process.MemSys

namespace UCore
set_option autoImplicit true

/-- `enum proc_state`. -/
inductive ProcState where
  | uninit | sleeping | runnable | zombie
  deriving DecidableEq, Repr

/-- How a process entered the kernel function it is in: through the system call trap, through the
breakpoint trap, whose return by `kernel_execve_ret` skips the end of `trap`, or by a plain call in a
kernel thread. -/
inductive Via where
  | ecall | ebreak | kernel
  deriving DecidableEq, Repr

/-- Where a process continues. -/
inductive Ctl where
  | user
  | kthread
  | idle
  /-- A new process, before its first run through `forkret`. -/
  | forkret (via : Via)
  /-- The `schedule()` of `do_wait`. -/
  | waiting (via : Via) (pid : Int) (store : Option Nat)
  /-- The final `schedule()` of `trap`. -/
  | trapEnd
  /-- A `schedule()` called by a kernel thread. -/
  | yielded
  /-- The `schedule()` of `do_exit`. -/
  | exiting
  deriving DecidableEq, Repr

/-- The links of `proc_list`: its header, or the `list_link` of a process. -/
inductive ProcEntry where
  | procList
  | listLink (p : Nat)
  deriving DecidableEq, Repr

/-- The links of `hash_list`: a bucket, or the `hash_link` of a process. -/
inductive HashEntry where
  | bucket (i : Nat)
  | hashLink (p : Nat)
  deriving DecidableEq, Repr

/-- The process table: the fields of the `proc_struct`s by address, and the variables of `proc.c`.
`ctl` and `scheduling` say where the processes are, and whether the current one is in `schedule()`. -/
structure Kernel (S : MemSys) where
  state : Nat → ProcState
  pid : Nat → Int
  runs : Nat → Nat
  kstack : Nat → Nat
  needResched : Nat → Bool
  parent : Nat → Option Nat
  mm : Nat → Option Nat
  cr3 : Nat → Nat
  flags : Nat → BitVec 32
  exitCode : Nat → Int
  waitState : Nat → BitVec 32
  cptr : Nat → Option Nat
  yptr : Nat → Option Nat
  optr : Nat → Option Nat
  listLink : Links ProcEntry
  hashLink : Links HashEntry
  nrProcess : Int
  lastPid : Int
  nextSafe : Int
  current : Nat
  idleproc : Nat
  initproc : Nat
  mem : S.σ
  ctl : Nat → Ctl
  scheduling : Bool

def maxProcess : Nat := 4096
def maxPid : Int := 8192
def hashListSize : Nat := 1024
def procNameLen : Nat := 15

def pfExiting : BitVec 32 := 1
def wtInterrupted : BitVec 32 := 0x80000000
def wtChild : BitVec 32 := 1 ||| wtInterrupted
def cloneVm : BitVec 32 := 0x100

/-- `hash32(x, HASH_SHIFT)`. -/
def pidHashfn (x : Int) : Nat := ((x % 2 ^ 32).toNat * 0x9e370001 % 2 ^ 32) >>> 22

namespace Kernel
open Function (update)
variable {S : MemSys}

def setYptr (k : Kernel S) (p : Nat) (v : Option Nat) : Kernel S := { k with yptr := update k.yptr p v }
def setOptr (k : Kernel S) (p : Nat) (v : Option Nat) : Kernel S := { k with optr := update k.optr p v }
def setCptr (k : Kernel S) (p : Nat) (v : Option Nat) : Kernel S := { k with cptr := update k.cptr p v }
def setMem (k : Kernel S) (m : S.σ) : Kernel S := { k with mem := m }

/-- Enter `schedule()`, to be continued at `c`. -/
def enterSchedule (k : Kernel S) (c : Ctl) : Kernel S :=
  { k with ctl := update k.ctl k.current c, scheduling := true }

def setCtl (k : Kernel S) (p : Nat) (c : Ctl) : Kernel S := { k with ctl := update k.ctl p c }

def allocProc (k : Kernel S) : Option Nat × Kernel S :=
  match S.kmallocProc k.mem with
  | (none, m) => (none, k.setMem m)
  | (some p, m) =>
    (some p, { k with
      mem := m
      state := update k.state p .uninit
      pid := update k.pid p (-1)
      runs := update k.runs p 0
      kstack := update k.kstack p 0
      needResched := update k.needResched p false
      parent := update k.parent p none
      mm := update k.mm p none
      cr3 := update k.cr3 p S.bootCr3
      flags := update k.flags p 0
      exitCode := update k.exitCode p 0
      waitState := update k.waitState p 0
      cptr := update k.cptr p none
      yptr := update k.yptr p none
      optr := update k.optr p none })

def setLinks (k : Kernel S) (p : Nat) : Option (Kernel S) := do
  let k := { k with listLink := listAdd k.listLink .procList (.listLink p) }
  let k := k.setYptr p none
  let parent ← k.parent p
  let k := k.setOptr p (k.cptr parent)
  let k := match k.optr p with
    | none => k
    | some o => k.setYptr o (some p)
  let k := k.setCptr parent (some p)
  some { k with nrProcess := k.nrProcess + 1 }

def removeLinks (k : Kernel S) (p : Nat) : Option (Kernel S) := do
  let k := { k with listLink := listDel k.listLink (.listLink p) }
  let k := match k.optr p with
    | none => k
    | some o => k.setYptr o (k.yptr p)
  let k ← match k.yptr p with
    | some y => some (k.setOptr y (k.optr p))
    | none => (k.parent p).map fun parent => k.setCptr parent (k.optr p)
  some { k with nrProcess := k.nrProcess - 1 }

/-- How a walk of `get_pid` over `proc_list` ends: with both bounds, or at the `goto repeat`. -/
inductive PidWalk where
  | found (lastPid nextSafe : Int)
  | again (lastPid : Int)
  deriving DecidableEq, Repr

def pidWalk (k : Kernel S) (le : ProcEntry) (lastPid nextSafe : Int) : Nat → Option PidWalk
  | 0 => none
  | fuel + 1 =>
    match listNext k.listLink le with
    | .procList => some (.found lastPid nextSafe)
    | .listLink p =>
      if k.pid p = lastPid then
        if nextSafe ≤ lastPid + 1 then
          some (.again (if maxPid ≤ lastPid + 1 then 1 else lastPid + 1))
        else pidWalk k (.listLink p) (lastPid + 1) nextSafe fuel
      else if lastPid < k.pid p ∧ k.pid p < nextSafe then
        pidWalk k (.listLink p) lastPid (k.pid p) fuel
      else pidWalk k (.listLink p) lastPid nextSafe fuel

def pidRepeat (k : Kernel S) (lastPid : Int) : Nat → Option (Int × Int)
  | 0 => none
  | fuel + 1 =>
    match pidWalk k .procList lastPid maxPid (maxPid.toNat + 1) with
    | none => none
    | some (.found last next) => some (last, next)
    | some (.again last) => pidRepeat k last fuel

def getPid (k : Kernel S) : Option (Int × Kernel S) :=
  let last := k.lastPid + 1
  if maxPid ≤ last ∨ k.nextSafe ≤ last then do
    let (last, next) ← pidRepeat k (if maxPid ≤ last then 1 else last) (maxPid.toNat + 1)
    some (last, { k with lastPid := last, nextSafe := next })
  else some (last, { k with lastPid := last })

def hashProc (k : Kernel S) (p : Nat) : Kernel S :=
  { k with hashLink := listAdd k.hashLink (.bucket (pidHashfn (k.pid p))) (.hashLink p) }

def unhashProc (k : Kernel S) (p : Nat) : Kernel S :=
  { k with hashLink := listDel k.hashLink (.hashLink p) }

def findWalk (k : Kernel S) (pid : Int) (list le : HashEntry) : Nat → Option (Option Nat)
  | 0 => none
  | fuel + 1 =>
    let le := listNext k.hashLink le
    if le = list then some none
    else
      match le with
      | .bucket _ => none
      | .hashLink p =>
        if k.pid p = pid then some (some p) else findWalk k pid list (.hashLink p) fuel

def findProc (k : Kernel S) (pid : Int) : Option (Option Nat) :=
  if 0 < pid ∧ pid < maxPid then
    let list := HashEntry.bucket (pidHashfn pid)
    findWalk k pid list list (maxProcess + 1)
  else some none

def wakeupProc (k : Kernel S) (p : Nat) : Option (Kernel S) :=
  if k.state p = .zombie then none
  else if k.state p ≠ .runnable then
    some { k with state := update k.state p .runnable, waitState := update k.waitState p 0 }
  else some k

/-- `setup_kstack`; the result says whether it returned 0. -/
def setupKstack (k : Kernel S) (p : Nat) : Bool × Kernel S :=
  match S.allocKstack k.mem with
  | (none, m) => (false, k.setMem m)
  | (some a, m) => (true, { k with mem := m, kstack := update k.kstack p a })

def putKstack (k : Kernel S) (p : Nat) : Option (Kernel S) :=
  (S.freeKstack k.mem (k.kstack p)).map k.setMem

def kfreeProc (k : Kernel S) (p : Nat) : Kernel S := k.setMem (S.kfreeProc k.mem p)

def copyMm (k : Kernel S) (cloneFlags : BitVec 32) (p : Nat) : Option (Int × Kernel S) :=
  match S.copyMm k.mem cloneFlags (k.mm k.current) with
  | none => none
  | some (ret, none, m) => some (ret, k.setMem m)
  | some (ret, some (mm, cr3), m) =>
    some (ret, { k with mem := m, mm := update k.mm p (some mm), cr3 := update k.cr3 p cr3 })

/-- `do_fork`, with `wakeup` in the place of `wakeup_proc`. The trap frame that `copy_thread` gives the child
sends it to user mode or into a kernel function, as `entry` says. -/
def doForkWith (wakeup : Kernel S → Nat → Option (Kernel S)) (k : Kernel S) (cloneFlags : BitVec 32)
    (entry : Via) : Option (Int × Kernel S) :=
  if maxProcess ≤ k.nrProcess then some (-eNoFreeProc, k)
  else
    match allocProc k with
    | (none, k) => some (-eNoMem, k)
    | (some p, k) =>
      let k := { k with parent := update k.parent p (some k.current) }
      match setupKstack k p with
      | (false, k) => do
        let k ← putKstack k p
        some (-eNoMem, kfreeProc k p)
      | (true, k) => do
        let (ret, k) ← copyMm k cloneFlags p
        if ret ≠ 0 then some (-eNoMem, kfreeProc k p)
        else
          let k := k.setCtl p (.forkret entry)
          let (pid, k) ← getPid k
          let k := { k with pid := update k.pid p pid }
          let k := hashProc k p
          let k ← setLinks k p
          let k ← wakeup k p
          some (k.pid p, k)

def doFork (k : Kernel S) (cloneFlags : BitVec 32) (entry : Via) : Option (Int × Kernel S) :=
  doForkWith wakeupProc k cloneFlags entry

/-- The loop of `do_exit` that hands the children of the current process to `initproc`. -/
def reparentWith (wakeup : Kernel S → Nat → Option (Kernel S)) (k : Kernel S) : Nat → Option (Kernel S)
  | 0 => none
  | fuel + 1 =>
    match k.cptr k.current with
    | none => some k
    | some p => do
      let k := k.setCptr k.current (k.optr p)
      let k := k.setYptr p none
      let k := k.setOptr p (k.cptr k.initproc)
      let k := match k.optr p with
        | none => k
        | some o => k.setYptr o (some p)
      let k := { k with parent := update k.parent p (some k.initproc) }
      let k := k.setCptr k.initproc (some p)
      let k ← (if k.state p = .zombie ∧ k.waitState k.initproc = wtChild then
          wakeup k k.initproc
        else some k)
      reparentWith wakeup k fuel

def reparent (k : Kernel S) (fuel : Nat) : Option (Kernel S) := reparentWith wakeupProc k fuel

def exitMm (k : Kernel S) : Option (Kernel S) :=
  match k.mm k.current with
  | none => some k
  | some mm => do
    let m ← S.dropMm k.mem mm
    some { k with mem := m, mm := update k.mm k.current none }

/-- `do_exit`, up to its `schedule()`. -/
def doExitWith (wakeup : Kernel S → Nat → Option (Kernel S)) (k : Kernel S) (errorCode : Int) :
    Option (Kernel S) :=
  if k.current = k.idleproc then none
  else if k.current = k.initproc then none
  else do
    let k ← exitMm k
    let k := { k with
      state := update k.state k.current .zombie, exitCode := update k.exitCode k.current errorCode }
    let parent ← k.parent k.current
    let k ← (if k.waitState parent = wtChild then wakeup k parent else some k)
    let k ← reparentWith wakeup k (maxProcess + 1)
    some (k.enterSchedule .exiting)

def doExit (k : Kernel S) (errorCode : Int) : Option (Kernel S) := doExitWith wakeupProc k errorCode

/-- The result of the scan of `do_wait`. -/
inductive WaitScan where
  | noChild
  | sleep
  | found (p : Nat)
  deriving DecidableEq, Repr

def childScan (k : Kernel S) (proc : Option Nat) (haskid : Bool) : Nat → Option WaitScan
  | 0 => none
  | fuel + 1 =>
    match proc with
    | none => some (if haskid then .sleep else .noChild)
    | some p =>
      if k.state p = .zombie then some (.found p) else childScan k (k.optr p) true fuel

def waitScan (k : Kernel S) (pid : Int) : Option WaitScan :=
  if pid ≠ 0 then
    (findProc k pid).map fun
      | some p =>
        if k.parent p = some k.current then
          if k.state p = .zombie then .found p else .sleep
        else .noChild
      | none => .noChild
  else childScan k (k.cptr k.current) false (maxProcess + 1)

/-- The end of `do_wait`, at the label `found`. -/
def reap (k : Kernel S) (p : Nat) (store : Option Nat) : Option (Kernel S) :=
  if p = k.idleproc ∨ p = k.initproc then none
  else do
    let k ← (match store with
      | none => some k
      | some a => (S.storeInt k.mem (k.mm k.current) a (k.exitCode p)).map k.setMem)
    let k := unhashProc k p
    let k ← removeLinks k p
    let k ← putKstack k p
    some (kfreeProc k p)

/-- `do_wait` from the label `repeat` on: a return value, or none when the process went to sleep. -/
def waitRepeat (k : Kernel S) (via : Via) (pid : Int) (store : Option Nat) :
    Option (Option Int × Kernel S) := do
  match ← waitScan k pid with
  | .noChild => some (some (-eBadProc), k)
  | .sleep =>
    let k := { k with
      state := update k.state k.current .sleeping
      waitState := update k.waitState k.current wtChild }
    some (none, k.enterSchedule (.waiting via pid store))
  | .found p => do
    let k ← reap k p store
    some (some 0, k)

def doWait (k : Kernel S) (via : Via) (pid : Int) (store : Option Nat) :
    Option (Option Int × Kernel S) :=
  match store with
  | none => waitRepeat k via pid none
  | some a =>
    match S.userMemCheck k.mem (k.mm k.current) a 4 true with
    | (false, m) => some (some (-eInval), k.setMem m)
    | (true, m) => waitRepeat (k.setMem m) via pid (some a)

def doKillWith (wakeup : Kernel S → Nat → Option (Kernel S)) (k : Kernel S) (pid : Int) :
    Option (Int × Kernel S) := do
  match ← findProc k pid with
  | none => some (-eInval, k)
  | some p =>
    if k.flags p &&& pfExiting = 0 then do
      let k := { k with flags := update k.flags p (k.flags p ||| pfExiting) }
      let k ← (if k.waitState p &&& wtInterrupted ≠ 0 then wakeup k p else some k)
      some (0, k)
    else some (-eKilled, k)

def doKill (k : Kernel S) (pid : Int) : Option (Int × Kernel S) := doKillWith wakeupProc k pid

def doYield (k : Kernel S) : Kernel S :=
  { k with needResched := update k.needResched k.current true }

/-- `do_execve`: a return value, or none when the load failed and the process has exited. -/
def doExecveWith (wakeup : Kernel S → Nat → Option (Kernel S)) (k : Kernel S) (name len binary size : Nat) :
    Option (Option Int × Kernel S) :=
  match S.userMemCheck k.mem (k.mm k.current) name len false with
  | (false, m) => some (some (-eInval), k.setMem m)
  | (true, m) => do
    let m ← S.readUser m (k.mm k.current) name (if procNameLen < len then procNameLen else len)
    let k ← exitMm (k.setMem m)
    let (ret, new, m) ← S.loadIcode k.mem binary size
    let k := k.setMem m
    if ret ≠ 0 then do
      let k ← doExitWith wakeup k ret
      some (none, k)
    else
      match new with
      | none => some (some 0, k)
      | some (mm, cr3) =>
        some (some 0, { k with
          mm := update k.mm k.current (some mm), cr3 := update k.cr3 k.current cr3 })

def doExecve (k : Kernel S) (name len binary size : Nat) : Option (Option Int × Kernel S) :=
  doExecveWith wakeupProc k name len binary size

/-- The search of `schedule` from the link `last`, for the process where it stops. -/
def scheduleScan (k : Kernel S) (last le : ProcEntry) (next : Option Nat) : Nat → Option (Option Nat)
  | 0 => none
  | fuel + 1 =>
    let le := listNext k.listLink le
    match le with
    | .procList => if le = last then some next else scheduleScan k last le next fuel
    | .listLink p =>
      if k.state p = .runnable then some (some p)
      else if le = last then some (some p)
      else scheduleScan k last le (some p) fuel

def schedule (k : Kernel S) : Option (Kernel S) := do
  let k := { k with needResched := update k.needResched k.current false }
  let last := if k.current = k.idleproc then .procList else .listLink k.current
  let next ← scheduleScan k last last none (maxProcess + 1)
  let next := match next with
    | none => k.idleproc
    | some p => if k.state p = .runnable then p else k.idleproc
  some { k with runs := update k.runs next (k.runs next + 1), current := next, scheduling := false }

/-- `proc_init`, from the zeroed static variables on. -/
def procInit (k : Kernel S) : Option (Kernel S) :=
  let k := { k with listLink := listInit k.listLink .procList }
  let k := { k with
    hashLink := (List.range hashListSize).foldl (fun l i => listInit l (.bucket i)) k.hashLink }
  match allocProc k with
  | (none, _) => none
  | (some p, k) => do
    let k := { k with
      idleproc := p
      pid := update k.pid p 0
      state := update k.state p .runnable
      kstack := update k.kstack p S.bootstack
      needResched := update k.needResched p true
      nrProcess := k.nrProcess + 1
      current := p
      ctl := update k.ctl p .idle }
    let (pid, k) ← doFork k cloneVm .kernel
    if pid ≤ 0 then none
    else do
      let init ← (← findProc k pid)
      if k.pid p = 0 ∧ k.pid init = 1 then some { k with initproc := init } else none

end Kernel

end UCore
