import Mathlib.Data.List.Perm.Subperm
import UCore.Lib.Forest
import UCore.Process.Proc

namespace UCore
set_option autoImplicit true

/-- `ps` are the processes of `proc_list`, and the hash list, the counter and the bounds of `get_pid`
fit them. -/
structure ProcTable {S : MemSys} (k : Kernel S) (ps : List Nat) : Prop where
  list : k.listLink.Ring .procList (ps.map .listLink)
  hash : ∀ i < hashListSize, ∃ c : List Nat, k.hashLink.Ring (.bucket i) (c.map .hashLink) ∧
    ∀ p, p ∈ c ↔ p ∈ ps ∧ pidHashfn (k.pid p) = i
  pid_range : ∀ p ∈ ps, 1 ≤ k.pid p ∧ k.pid p < maxPid
  pid_inj : ∀ p ∈ ps, ∀ q ∈ ps, k.pid p = k.pid q → p = q
  count : k.nrProcess = 1 + ps.length
  bound : k.nrProcess ≤ maxProcess
  last : 1 ≤ k.lastPid ∧ k.lastPid ≤ maxPid
  gap : k.nextSafe ≤ maxPid ∧ ∀ p ∈ ps, ¬ (k.lastPid < k.pid p ∧ k.pid p < k.nextSafe)
  idle : k.idleproc ∉ ps

/-- The pointers between relatives; `kids p` are the children of `p`, youngest first. The process `q` is
giving its children away. -/
structure Family {S : MemSys} (k : Kernel S) (ps : List Nat) (kids : Nat → List Nat)
    (q : Option Nat) : Prop where
  forest : Forest k.optr k.yptr k.cptr kids (k.idleproc :: ps) q
  mem_kids : ∀ p ∈ k.idleproc :: ps, ∀ c, c ∈ kids p ↔ c ∈ ps ∧ k.parent c = some p
  root : k.yptr k.idleproc = none ∧ k.optr k.idleproc = none

structure ProcTree {S : MemSys} (k : Kernel S) (ps : List Nat) (kids : Nat → List Nat) : Prop where
  family : Family k ps kids none
  parent : ∀ c ∈ ps, ∃ p ∈ k.idleproc :: ps, k.parent c = some p ∧ p ≠ c ∧ k.state p ≠ .zombie
  zombie : ∀ p ∈ ps, k.state p = .zombie → kids p = []

/-- The states of the processes, and where those in `schedule()` go on. With `spared`, no sleeper has
been killed. -/
structure ProcStates (spared : Prop) {S : MemSys} (k : Kernel S) (ps : List Nat) : Prop where
  asleep : ∀ p ∈ ps, k.state p = .sleeping →
    k.waitState p = wtChild ∧ ∃ via pid store, k.ctl p = .waiting via pid store
  awake : ∀ p ∈ k.idleproc :: ps, k.state p ≠ .sleeping → k.waitState p = 0
  spare : spared → ∀ p ∈ ps, k.state p = .sleeping → k.flags p &&& pfExiting = 0
  ready : ∀ p ∈ ps, k.state p ≠ .uninit
  idle : k.state k.idleproc = .runnable ∧ k.ctl k.idleproc = .idle ∧ k.parent k.idleproc = none
  current : k.current ∈ k.idleproc :: ps
  running : k.scheduling = false → k.state k.current = .runnable

/-- A sleeper has a child to wait for, and none of those is a zombie. -/
structure ProcWaits {S : MemSys} (k : Kernel S) (ps : List Nat) (kids : Nat → List Nat) : Prop where
  child : ∀ p ∈ ps, k.state p = .sleeping → ∀ via pid store, k.ctl p = .waiting via pid store →
    (∃ c ∈ kids p, pid = 0 ∨ k.pid c = pid) ∧
      ∀ c ∈ kids p, pid = 0 ∨ k.pid c = pid → k.state c ≠ .zombie

structure ProcInv (spared : Prop) {S : MemSys} (k : Kernel S) (ps : List Nat)
    (kids : Nat → List Nat) : Prop where
  table : ProcTable k ps
  tree : ProcTree k ps kids
  states : ProcStates spared k ps
  waits : ProcWaits k ps kids
  live : ∀ q, S.live k.mem q ↔ q ∈ k.idleproc :: ps

/-- The invariant of the kernel after `proc_init`, when there is an `initproc`. -/
structure KernelInv (spared : Prop) {S : MemSys} (k : Kernel S) (ps : List Nat)
    (kids : Nat → List Nat) : Prop extends ProcInv spared k ps kids where
  init : k.initproc ∈ ps ∧ k.state k.initproc ≠ .zombie ∧ k.parent k.initproc = some k.idleproc

/-- The two kernels agree on the process table, as far as the processes `xs` are concerned. -/
structure SameProcs {S : MemSys} (k k' : Kernel S) (xs : List Nat) : Prop where
  state : ∀ p ∈ xs, k'.state p = k.state p
  pid : ∀ p ∈ xs, k'.pid p = k.pid p
  parent : ∀ p ∈ xs, k'.parent p = k.parent p
  flags : ∀ p ∈ xs, k'.flags p = k.flags p
  waitState : ∀ p ∈ xs, k'.waitState p = k.waitState p
  cptr : ∀ p ∈ xs, k'.cptr p = k.cptr p
  yptr : ∀ p ∈ xs, k'.yptr p = k.yptr p
  optr : ∀ p ∈ xs, k'.optr p = k.optr p
  ctl : ∀ p ∈ xs, k'.ctl p = k.ctl p
  listLink : k'.listLink = k.listLink
  hashLink : k'.hashLink = k.hashLink
  nrProcess : k'.nrProcess = k.nrProcess
  lastPid : k'.lastPid = k.lastPid
  nextSafe : k'.nextSafe = k.nextSafe
  current : k'.current = k.current
  idleproc : k'.idleproc = k.idleproc
  initproc : k'.initproc = k.initproc
  scheduling : k'.scheduling = k.scheduling

section
variable {S : MemSys} {k k' k'' : Kernel S} {ps xs : List Nat} {kids : Nat → List Nat}
  {spared : Prop}

theorem SameProcs.refl (k : Kernel S) (xs : List Nat) : SameProcs k k xs := by
  constructor <;> intros <;> rfl

theorem SameProcs.trans (h : SameProcs k k' xs) (h' : SameProcs k' k'' xs) : SameProcs k k'' xs where
  state p hp := (h'.state p hp).trans (h.state p hp)
  pid p hp := (h'.pid p hp).trans (h.pid p hp)
  parent p hp := (h'.parent p hp).trans (h.parent p hp)
  flags p hp := (h'.flags p hp).trans (h.flags p hp)
  waitState p hp := (h'.waitState p hp).trans (h.waitState p hp)
  cptr p hp := (h'.cptr p hp).trans (h.cptr p hp)
  yptr p hp := (h'.yptr p hp).trans (h.yptr p hp)
  optr p hp := (h'.optr p hp).trans (h.optr p hp)
  ctl p hp := (h'.ctl p hp).trans (h.ctl p hp)
  listLink := h'.listLink.trans h.listLink
  hashLink := h'.hashLink.trans h.hashLink
  nrProcess := h'.nrProcess.trans h.nrProcess
  lastPid := h'.lastPid.trans h.lastPid
  nextSafe := h'.nextSafe.trans h.nextSafe
  current := h'.current.trans h.current
  idleproc := h'.idleproc.trans h.idleproc
  initproc := h'.initproc.trans h.initproc
  scheduling := h'.scheduling.trans h.scheduling

theorem ProcTable.congr (h : ProcTable k ps) (hs : SameProcs k k' (k.idleproc :: ps)) :
    ProcTable k' ps := by
  have hpid : ∀ p ∈ ps, k'.pid p = k.pid p := fun p hp => hs.pid p (List.mem_cons_of_mem _ hp)
  constructor
  · rw [hs.listLink]
    exact h.list
  · intro i hi
    obtain ⟨c, hc, hm⟩ := h.hash i hi
    refine ⟨c, hs.hashLink ▸ hc, fun p => (hm p).trans ?_⟩
    exact and_congr_right fun hp => by rw [hpid p hp]
  · intro p hp
    rw [hpid p hp]
    exact h.pid_range p hp
  · intro p hp q hq
    rw [hpid p hp, hpid q hq]
    exact h.pid_inj p hp q hq
  · rw [hs.nrProcess, h.count]
  · rw [hs.nrProcess]
    exact h.bound
  · rw [hs.lastPid]
    exact h.last
  · rw [hs.lastPid, hs.nextSafe]
    refine ⟨h.gap.1, fun p hp => ?_⟩
    rw [hpid p hp]
    exact h.gap.2 p hp
  · rw [hs.idleproc]
    exact h.idle

theorem Family.kid_mem (h : Family k ps kids q) (hp : p ∈ k.idleproc :: ps) (hc : c ∈ kids p) :
    c ∈ k.idleproc :: ps := List.mem_cons_of_mem _ ((h.mem_kids p hp c).1 hc).1

/-- Neither end of a chain of children is `idleproc`. -/
theorem Family.head_ne_idle (h : Family k ps kids q) (hi : k.idleproc ∉ ps)
    (hp : p ∈ k.idleproc :: ps) : k.cptr p ≠ some k.idleproc := by
  rw [(h.forest.chain p hp).head_eq]
  exact fun he => hi ((h.mem_kids p hp _).1 (List.mem_of_mem_head? he)).1

theorem Family.congr (h : Family k ps kids q) (hs : SameProcs k k' (k.idleproc :: ps)) :
    Family k' ps kids q := by
  constructor
  · rw [hs.idleproc]
    exact h.forest.congr hs.cptr (fun p hp c hc => hs.optr c (h.kid_mem hp hc))
      fun p hp c hc => hs.yptr c (h.kid_mem hp hc)
  · intro p hp c
    rw [hs.idleproc] at hp
    rw [h.mem_kids p hp c]
    exact and_congr_right fun hc => by rw [hs.parent c (List.mem_cons_of_mem _ hc)]
  · have hidle := List.mem_cons_self (a := k.idleproc) (l := ps)
    rw [hs.idleproc, hs.yptr _ hidle, hs.optr _ hidle]
    exact h.root

theorem ProcTree.congr (h : ProcTree k ps kids) (hs : SameProcs k k' (k.idleproc :: ps)) :
    ProcTree k' ps kids := by
  constructor
  · exact h.family.congr hs
  · intro c hc
    obtain ⟨p, hp, hcp, hne, hz⟩ := h.parent c hc
    rw [hs.idleproc, hs.parent c (List.mem_cons_of_mem _ hc)]
    exact ⟨p, hp, hcp, hne, by rwa [hs.state p hp]⟩
  · intro p hp
    rw [hs.state p (List.mem_cons_of_mem _ hp)]
    exact h.zombie p hp

theorem ProcStates.congr (h : ProcStates spared k ps) (hs : SameProcs k k' (k.idleproc :: ps)) :
    ProcStates spared k' ps := by
  have hps : ∀ p ∈ ps, p ∈ k.idleproc :: ps := fun p hp => List.mem_cons_of_mem _ hp
  have hidle := List.mem_cons_self (a := k.idleproc) (l := ps)
  constructor
  · intro p hp
    rw [hs.state p (hps p hp), hs.waitState p (hps p hp), hs.ctl p (hps p hp)]
    exact h.asleep p hp
  · intro p hp
    rw [hs.idleproc] at hp
    rw [hs.state p hp, hs.waitState p hp]
    exact h.awake p hp
  · intro hsp p hp
    rw [hs.state p (hps p hp), hs.flags p (hps p hp)]
    exact h.spare hsp p hp
  · intro p hp
    rw [hs.state p (hps p hp)]
    exact h.ready p hp
  · rw [hs.idleproc, hs.state _ hidle, hs.ctl _ hidle, hs.parent _ hidle]
    exact h.idle
  · rw [hs.current, hs.idleproc]
    exact h.current
  · rw [hs.scheduling, hs.current, hs.state _ h.current]
    exact h.running

theorem ProcWaits.congr (h : ProcWaits k ps kids) (ht : ProcTree k ps kids)
    (hs : SameProcs k k' (k.idleproc :: ps)) : ProcWaits k' ps kids := by
  constructor
  intro p hp
  have hp' : p ∈ k.idleproc :: ps := List.mem_cons_of_mem _ hp
  rw [hs.state p hp', hs.ctl p hp']
  intro hsl via pid store hctl
  obtain ⟨⟨c, hc, hcp⟩, hz⟩ := h.child p hp hsl via pid store hctl
  constructor
  · exact ⟨c, hc, by rwa [hs.pid c (ht.family.kid_mem hp' hc)]⟩
  · intro d hd
    rw [hs.pid d (ht.family.kid_mem hp' hd), hs.state d (ht.family.kid_mem hp' hd)]
    exact hz d hd

theorem ProcInv.congr (h : ProcInv spared k ps kids) (hs : SameProcs k k' (k.idleproc :: ps))
    (hl : ∀ q, S.live k'.mem q ↔ S.live k.mem q) : ProcInv spared k' ps kids where
  table := h.table.congr hs
  tree := h.tree.congr hs
  states := h.states.congr hs
  waits := h.waits.congr h.tree hs
  live q := by rw [hl, hs.idleproc, h.live]

theorem KernelInv.congr (h : KernelInv spared k ps kids) (hs : SameProcs k k' (k.idleproc :: ps))
    (hl : ∀ q, S.live k'.mem q ↔ S.live k.mem q) : KernelInv spared k' ps kids where
  toProcInv := h.toProcInv.congr hs hl
  init := by
    have hi := List.mem_cons_of_mem k.idleproc h.init.1
    rw [hs.initproc, hs.idleproc, hs.state _ hi, hs.parent _ hi]
    exact h.init

theorem ProcTree.notMem_self (h : ProcTree k ps kids) (hp : p ∈ k.idleproc :: ps) : p ∉ kids p := by
  intro hm
  obtain ⟨hps, hpp⟩ := (h.family.mem_kids p hp p).1 hm
  obtain ⟨q, -, hpq, hne, -⟩ := h.parent p hps
  exact hne (Option.some.inj (hpq.symm.trans hpp))

theorem ProcTable.nodup (h : ProcTable k ps) : ps.Nodup := h.list.nodup_tail.of_map

theorem ProcTable.length_lt (h : ProcTable k ps) : ps.length < maxProcess := by
  have := h.count
  have := h.bound
  omega

theorem ProcTree.length_kids (h : ProcTree k ps kids) (ht : ProcTable k ps)
    (hp : p ∈ k.idleproc :: ps) : (kids p).length < maxProcess := by
  have hnd := (h.family.forest.chain p hp).nodup
  have hle := (hnd.subperm fun c hc => ((h.family.mem_kids p hp c).1 hc).1).length_le
  have := ht.length_lt
  omega

theorem findWalk_path (pid : Int) {list le : HashEntry} {c : List Nat} {fuel : Nat}
    (hp : k.hashLink.Path le (c.map .hashLink) list)
    (hl : list ∉ c.map HashEntry.hashLink) (hf : c.length < fuel) :
    ∃ r, k.findWalk pid list le fuel = some r ∧
      (∀ p, r = some p → p ∈ c ∧ k.pid p = pid) ∧ (r = none → ∀ p ∈ c, k.pid p ≠ pid) := by
  induction c generalizing le fuel with
  | nil =>
    obtain ⟨fuel, rfl⟩ := Nat.exists_eq_add_one.2 hf
    have hn : listNext k.hashLink le = list := hp.next_eq
    refine ⟨none, ?_, by simp, by simp⟩
    simp [Kernel.findWalk, hn]
  | cons q c ih =>
    obtain ⟨fuel, rfl⟩ := Nat.exists_eq_add_one.2 (Nat.zero_lt_of_lt hf)
    have hn : listNext k.hashLink le = .hashLink q := hp.next_eq
    simp only [List.map_cons, List.mem_cons, not_or] at hl
    by_cases hq : k.pid q = pid
    · refine ⟨some q, ?_, by simp [hq], by simp⟩
      simp [Kernel.findWalk, hn, Ne.symm hl.1, hq]
    · obtain ⟨r, hr, hsome, hnone⟩ := ih hp.2 hl.2 (Nat.lt_of_succ_lt_succ hf)
      refine ⟨r, ?_, fun p h => ⟨List.mem_cons_of_mem _ (hsome p h).1, (hsome p h).2⟩, fun h p hp => ?_⟩
      · simp [Kernel.findWalk, hn, Ne.symm hl.1, hq, hr]
      · cases hp with
        | head => exact hq
        | tail _ hp => exact hnone h p hp

theorem pidHashfn_lt (x : Int) : pidHashfn x < hashListSize := by
  have h : (x % 2 ^ 32).toNat * 0x9e370001 % 2 ^ 32 < 2 ^ 32 := Nat.mod_lt _ (by decide)
  rw [pidHashfn, Nat.shiftRight_eq_div_pow, hashListSize]
  exact Nat.div_lt_of_lt_mul h

/-- `find_proc` finds exactly the process of `proc_list` that has the pid. -/
theorem ProcTable.findProc (h : ProcTable k ps) (pid : Int) :
    ∃ r, k.findProc pid = some r ∧ ∀ p, r = some p ↔ p ∈ ps ∧ k.pid p = pid := by
  by_cases hr : 0 < pid ∧ pid < maxPid
  · obtain ⟨c, hc, hm⟩ := h.hash _ (pidHashfn_lt pid)
    have hlen : c.length < maxProcess + 1 := by
      have hnd : c.Nodup := hc.nodup_tail.of_map
      have hle := (hnd.subperm fun p hp => ((hm p).1 hp).1).length_le
      have := h.length_lt
      omega
    obtain ⟨r, hwalk, hsome, hnone⟩ := findWalk_path pid hc.path hc.head_notMem hlen
    refine ⟨r, by simp only [Kernel.findProc, if_pos hr, hwalk], fun p => ⟨fun hp => ?_, fun hp => ?_⟩⟩
    · exact ⟨((hm p).1 (hsome p hp).1).1, (hsome p hp).2⟩
    · have hpc : p ∈ c := (hm p).2 ⟨hp.1, by rw [hp.2]⟩
      cases r with
      | none => exact absurd hp.2 (hnone rfl p hpc)
      | some q =>
        obtain ⟨hq, hqp⟩ := hsome q rfl
        rw [h.pid_inj q ((hm q).1 hq).1 p hp.1 (hqp.trans hp.2.symm)]
  · refine ⟨none, by simp only [Kernel.findProc, if_neg hr], fun p => ⟨by simp, fun hp => ?_⟩⟩
    have := h.pid_range p hp.1
    rw [hp.2] at this
    omega

end

end UCore
