import UCore.Trap.TrapSpec

namespace UCore
set_option autoImplicit true
open Function (update)

/-- A memory that never runs out: the state is the next address, and the live `proc_struct`s below it. -/
def bumpSys : MemSys where
  σ := { m : Nat × List Nat // ∀ p ∈ m.2, p < m.1 }
  boot m := m.1.2 = []
  bootCr3 := 0
  bootstack := 0
  live m p := p ∈ m.1.2
  kmallocProc m := (some m.1.1, ⟨(m.1.1 + 1, m.1.1 :: m.1.2), fun p hp => by
    cases hp with
    | head => exact Nat.lt_succ_self _
    | tail _ hp => exact Nat.lt_succ_of_lt (m.2 p hp)⟩)
  kfreeProc m p := ⟨(m.1.1, m.1.2.filter (· ≠ p)), fun q hq => m.2 q (List.mem_filter.1 hq).1⟩
  allocKstack m := (some m.1.1, m)
  freeKstack m _ := some m
  copyMm m fl mm := some (0, mm.map fun mm => if fl &&& cloneVm ≠ 0 then (mm, mm) else (m.1.1, m.1.1), m)
  dropMm m _ := some m
  loadIcode m _ _ := some (0, some (m.1.1, m.1.1), m)
  userMemCheck m _ _ _ _ := (true, m)
  readUser m _ _ _ := some m
  storeInt m _ _ _ := some m
  doPgfault m _ _ _ := some (0, m)
  boot_live hb := by simp [hb]
  kmallocProc_fresh := by
    rintro m p m' ⟨⟩ hp
    exact Nat.lt_irrefl _ (m.2 _ hp)
  kmallocProc_live := by
    rintro m r m' q ⟨⟩
    simp [or_comm, eq_comm]
  kfreeProc_live := by simp
  allocKstack_live := by
    rintro m r m' ⟨⟩
    rfl
  freeKstack_live := by
    rintro m a m' ⟨⟩
    rfl
  copyMm_live := by
    rintro m fl mm e r m' ⟨⟩
    rfl
  dropMm_live := by
    rintro m mm m' ⟨⟩
    rfl
  loadIcode_live := by
    rintro m b s e r m' ⟨⟩
    rfl
  userMemCheck_live := by
    rintro m mm a n w b m' ⟨⟩
    rfl
  readUser_live := by
    rintro m mm a n m' ⟨⟩
    rfl
  storeInt_live := by
    rintro m mm a v m' ⟨⟩
    rfl
  doPgfault_live := by
    rintro m mm c a e m' ⟨⟩
    rfl

/-- The static variables before `proc_init`. -/
def bumpBoot : Kernel bumpSys where
  state _ := .uninit
  pid _ := 0
  runs _ := 0
  kstack _ := 0
  needResched _ := false
  parent _ := none
  mm _ := none
  cr3 _ := 0
  flags _ := 0
  exitCode _ := 0
  waitState _ := 0
  cptr _ := none
  yptr _ := none
  optr _ := none
  listLink := ⟨id, id⟩
  hashLink := ⟨id, id⟩
  nrProcess := 0
  lastPid := maxPid
  nextSafe := maxPid
  current := 0
  idleproc := 0
  initproc := 0
  mem := ⟨(0, []), by simp⟩
  ctl _ := .idle
  scheduling := false

/-- The kernel after `proc_init` and a run of events. -/
def bumpRun (es : List Event) : Option (Kernel bumpSys) :=
  bumpBoot.procInit.bind fun k => (kernelMachine bumpSys).exec k es

theorem bumpRun_reachable (h : bumpRun es = some k) : (kernelMachine bumpSys).Reachable k := by
  obtain ⟨k₀, hi, he⟩ := Option.bind_eq_some_iff.1 h
  exact Machine.Reachable.exec (.init ⟨bumpBoot, rfl, rfl, rfl, rfl, rfl, hi⟩) he

/-- A property that `decide` finds at the end of a run holds in a reachable state. -/
theorem bumpRun_decide {P : Kernel bumpSys → Prop} [DecidablePred P]
    (h : (bumpRun e).map (fun k => decide (P k)) = some true) :
    ∃ k, (kernelMachine bumpSys).Reachable k ∧ P k := by
  obtain ⟨k, hk, hp⟩ := Option.map_eq_some_iff.1 h
  exact ⟨k, bumpRun_reachable hk, of_decide_eq_true hp⟩

section
variable {S : MemSys} {k : Kernel S}

/-- In every reachable state, `proc_list`, the hash list, `find_proc` and `nr_process` describe the same
processes, with distinct pids. -/
theorem proc_table_consistent (h : (kernelMachine S).Reachable k) :
    ∃ ps : List Nat, k.listLink.Ring .procList (ps.map .listLink) ∧ ps.Nodup ∧
      (∀ p ∈ ps, 1 ≤ k.pid p ∧ k.pid p < maxPid) ∧
      (∀ p ∈ ps, ∀ q ∈ ps, k.pid p = k.pid q → p = q) ∧
      (∀ i < hashListSize, ∃ c : List Nat, k.hashLink.Ring (.bucket i) (c.map .hashLink) ∧ c.Nodup ∧
        ∀ p, p ∈ c ↔ p ∈ ps ∧ pidHashfn (k.pid p) = i) ∧
      (∀ pid, ∃ r, k.findProc pid = some r ∧ ∀ p, r = some p ↔ p ∈ ps ∧ k.pid p = pid) ∧
      k.nrProcess = 1 + ps.length ∧ k.nrProcess ≤ maxProcess := by
  obtain ⟨ps, kids, hk⟩ := kernel_inv h
  have ht := hk.table
  refine ⟨ps, ht.list, ht.nodup, ht.pid_range, ht.pid_inj, ?_, ht.findProc, ht.count, ht.bound⟩
  intro i hi
  obtain ⟨c, hc, hm⟩ := ht.hash i hi
  exact ⟨c, hc, hc.nodup_tail.of_map, hm⟩

theorem proc_table_consistent_run : ∃ k : Kernel bumpSys, k.nrProcess = 4 ∧
    ∃ ps : List Nat, k.listLink.Ring .procList (ps.map .listLink) ∧ ps.length = 3 := by
  obtain ⟨k, hk, hn⟩ : ∃ k, (kernelMachine bumpSys).Reachable k ∧ k.nrProcess = 4 :=
    bumpRun_decide (e := [.cpuIdle, .schedule, .resume, .kernelThread 0, .kernelThread 0])
      (by decide +kernel)
  obtain ⟨ps, hl, -, -, -, -, -, hc, -⟩ := proc_table_consistent hk
  exact ⟨k, hn, ps, hl, by omega⟩

/-- In every reachable state, the pointers between relatives are those of a forest over the processes
that were not freed. -/
theorem proc_tree_consistent (h : (kernelMachine S).Reachable k) :
    ∃ (ps : List Nat) (kids : Nat → List Nat), k.listLink.Ring .procList (ps.map .listLink) ∧
      (∀ q, S.live k.mem q ↔ q ∈ k.idleproc :: ps) ∧
      (∀ p ∈ k.idleproc :: ps, Chain k.optr (k.cptr p) (kids p) ∧ (kids p).Nodup ∧
        Backed k.yptr none (kids p) ∧ ∀ c, c ∈ kids p ↔ S.live k.mem c ∧ k.parent c = some p) ∧
      (∀ c ∈ ps, ∃ p, k.parent c = some p ∧ (p = k.idleproc ∨ p ∈ ps ∧ k.state p ≠ .zombie)) ∧
      (∀ p ∈ ps, k.state p = .zombie → k.cptr p = none) ∧
      ∀ p, S.live k.mem p → ∀ q, k.parent p = some q ∨ k.cptr p = some q ∨ k.optr p = some q ∨
        k.yptr p = some q → S.live k.mem q := by
  obtain ⟨ps, kids, hk⟩ := kernel_inv h
  have hf := hk.tree.family
  have hps (p : Nat) (hp : p ∈ ps) : p ∈ k.idleproc :: ps := List.mem_cons_of_mem _ hp
  refine ⟨ps, kids, hk.table.list, hk.live, fun p hp => ⟨hf.forest.chain p hp,
    (hf.forest.chain p hp).nodup, hf.forest.backed p hp (by simp), fun c => ?_⟩, ?_, ?_, ?_⟩
  · rw [hf.mem_kids p hp, hk.live, List.mem_cons]
    constructor
    · rintro ⟨hc, hcp⟩
      exact ⟨.inr hc, hcp⟩
    · rintro ⟨rfl | hc, hcp⟩
      · rw [hk.states.idle.2.2] at hcp
        cases hcp
      · exact ⟨hc, hcp⟩
  · intro c hc
    obtain ⟨p, hp, hcp, -, hz⟩ := hk.tree.parent c hc
    refine ⟨p, hcp, ?_⟩
    cases hp with
    | head => exact .inl rfl
    | tail _ hp => exact .inr ⟨hp, hz⟩
  · intro p hp hz
    have hchain := hf.forest.chain p (hps p hp)
    rwa [hk.tree.zombie p hp hz] at hchain
  · intro p hp q hq
    rw [hk.live] at hp ⊢
    have hchild (hc : k.cptr p = some q) : q ∈ k.idleproc :: ps := by
      rw [(hf.forest.chain p hp).head_eq] at hc
      exact hf.kid_mem hp (List.mem_of_mem_head? hc)
    cases hp with
    | head => exact hchild (by simpa [hk.states.idle.2.2, hf.root] using hq)
    | tail _ hp =>
      obtain ⟨r, hr, hpr, -⟩ := hk.tree.parent p hp
      have hpk := (hf.mem_kids r hr p).2 ⟨hp, hpr⟩
      rcases hq with hq | hq | hq | hq
      · exact Option.some.inj (hpr.symm.trans hq) ▸ hr
      · exact hchild hq
      · exact hf.kid_mem hr ((hf.forest.chain r hr).older_mem hpk hq)
      · have hback := hf.forest.backed r hr (by simp)
        exact hf.kid_mem hr ((hback.younger_mem hpk hq).resolve_left (by simp))

theorem proc_tree_consistent_run : ∃ k : Kernel bumpSys, k.cptr 1 = some 2 ∧ k.state 2 ≠ .zombie ∧
    ∃ kids : List Nat, Chain k.optr (k.cptr 1) kids ∧ kids.Nodup := by
  obtain ⟨k, hk, hl, hc, hz⟩ : ∃ k, (kernelMachine bumpSys).Reachable k ∧ 1 ∈ k.mem.1.2 ∧
      k.cptr 1 = some 2 ∧ k.state 2 ≠ .zombie :=
    bumpRun_decide (e := [.cpuIdle, .schedule, .resume, .kernelThread 0]) (by decide +kernel)
  obtain ⟨ps, kids, -, hlive, hkids, -⟩ := proc_tree_consistent hk
  obtain ⟨hchain, hnd, -⟩ := hkids 1 ((hlive 1).1 hl)
  exact ⟨k, hc, hz, kids 1, hchain, hnd⟩

/-- A process that sleeps in `do_wait` still has a child to wait for, and none of those is a zombie. -/
theorem no_lost_wakeup (h : (kernelMachine S).Reachable k) (hp : S.live k.mem p)
    (hs : k.state p = .sleeping) :
    ∃ via pid store, k.ctl p = .waiting via pid store ∧
      (pid = 0 → (∃ c, S.live k.mem c ∧ k.parent c = some p) ∧
        ∀ c, S.live k.mem c → k.parent c = some p → k.state c ≠ .zombie) ∧
      (pid ≠ 0 → ∃ c, k.findProc pid = some (some c) ∧ k.parent c = some p ∧ k.state c ≠ .zombie) := by
  obtain ⟨ps, kids, hk⟩ := kernel_inv h
  have hps : p ∈ ps := by
    rw [hk.live] at hp
    refine (List.mem_cons.1 hp).resolve_left ?_
    rintro rfl
    rw [hk.states.idle.1] at hs
    cases hs
  have hpm := List.mem_cons_of_mem k.idleproc hps
  have hmem := hk.tree.family.mem_kids p hpm
  obtain ⟨-, via, pid, store, hctl⟩ := hk.states.asleep p hps hs
  obtain ⟨⟨c, hc, hcp⟩, hz⟩ := hk.waits.child p hps hs via pid store hctl
  refine ⟨via, pid, store, hctl, fun h0 => ⟨⟨c, ?_, ((hmem c).1 hc).2⟩, fun d hd hdp => ?_⟩, fun h0 => ?_⟩
  · rw [hk.live]
    exact List.mem_cons_of_mem _ ((hmem c).1 hc).1
  · apply hz d _ (.inl h0)
    rw [hmem]
    rw [hk.live] at hd
    refine ⟨(List.mem_cons.1 hd).resolve_left ?_, hdp⟩
    rintro rfl
    rw [hk.states.idle.2.2] at hdp
    cases hdp
  · obtain ⟨r, hr, hiff⟩ := hk.table.findProc pid
    have hrc := (hiff c).2 ⟨((hmem c).1 hc).1, hcp.resolve_left h0⟩
    exact ⟨c, hrc ▸ hr, ((hmem c).1 hc).2, hz c hc hcp⟩

theorem no_lost_wakeup_init : ∃ k : Kernel bumpSys, k.state 1 = .sleeping ∧
    ∃ via pid store, k.ctl 1 = .waiting via pid store := by
  obtain ⟨k, hk, hl, hs⟩ : ∃ k, (kernelMachine bumpSys).Reachable k ∧ 1 ∈ k.mem.1.2 ∧
      k.state 1 = .sleeping :=
    bumpRun_decide (e := [.cpuIdle, .schedule, .resume, .kernelThread 0, .kernelWait 0 none])
      (by decide +kernel)
  obtain ⟨via, pid, store, hctl, -⟩ := no_lost_wakeup hk hl hs
  exact ⟨k, hs, via, pid, store, hctl⟩

/-- A process that sleeps interruptibly although it has been killed. -/
def Kernel.asleepKilled (k : Kernel S) (p : Nat) : Prop :=
  S.live k.mem p ∧ k.state p = .sleeping ∧ k.waitState p &&& wtInterrupted ≠ 0 ∧
    k.flags p &&& pfExiting ≠ 0

/-- As long as no killed process calls `do_wait` when it has to sleep there, no killed process is left
asleep. -/
theorem no_killed_asleep
    (h : ((kernelMachine S).restrict fun k e => ¬ k.sleepsKilled e).Reachable k) (p : Nat) :
    ¬ k.asleepKilled p := by
  rintro ⟨hp, hs, -, hf⟩
  obtain ⟨ps, kids, hk⟩ := kernel_spared h
  rw [hk.live] at hp
  cases hp with
  | head =>
    rw [hk.states.idle.1] at hs
    cases hs
  | tail _ hp => exact hf (hk.states.spare trivial p hp hs)

instance killedWait_decidable (k : Kernel bumpSys) (pid : Int) (store : Option Nat) :
    Decidable (k.killedWait pid store) :=
  decidable_of_iff (k.flags k.current &&& pfExiting ≠ 0 ∧
      (∃ c ∈ k.mem.1.2, k.parent c = some k.current ∧ (pid = 0 ∨ k.pid c = pid)) ∧
      ∀ c ∈ k.mem.1.2, k.parent c = some k.current ∧ (pid = 0 ∨ k.pid c = pid) → k.state c ≠ .zombie)
    ⟨fun h => ⟨h.1, fun _ _ => rfl, h.2.1, fun c hc => h.2.2 c hc.1 hc.2⟩,
      fun h => ⟨h.1, h.2.2.1, fun c hc hp => h.2.2.2 c ⟨hc, hp⟩⟩⟩

instance sleepsKilled_decidable (k : Kernel bumpSys) (e : Event) : Decidable (k.sleepsKilled e) :=
  decidable_of_iff (∃ a ∈ e.waitArgs, k.killedWait a.1 a.2)
    ⟨fun ⟨a, ha, hk⟩ => ⟨a.1, a.2, ha, hk⟩, fun ⟨pid, store, ha, hk⟩ => ⟨(pid, store), ha, hk⟩⟩

/-- The kernel after `proc_init` and a run of events in which no killed process goes to sleep. -/
def spareRun (es : List Event) : Option (Kernel bumpSys) :=
  bumpBoot.procInit.bind fun k => ((kernelMachine bumpSys).restrict fun k e => ¬ k.sleepsKilled e).exec k es

theorem spareRun_reachable {k : Kernel bumpSys} (h : spareRun es = some k) :
    ((kernelMachine bumpSys).restrict fun k e => ¬ k.sleepsKilled e).Reachable k := by
  obtain ⟨k₀, hi, he⟩ := Option.bind_eq_some_iff.1 h
  exact Machine.Reachable.exec (.init ⟨bumpBoot, rfl, rfl, rfl, rfl, rfl, hi⟩) he

theorem spareRun_decide {P : Kernel bumpSys → Prop} [DecidablePred P]
    (h : (spareRun e).map (fun k => decide (P k)) = some true) : ∃ k, spareRun e = some k ∧ P k := by
  obtain ⟨k, hk, hp⟩ := Option.map_eq_some_iff.1 h
  exact ⟨k, hk, of_decide_eq_true hp⟩

/-- Process 2 sleeps in `do_wait` until its child 3 exits, and 3 has a child 4. -/
def sleeperRun : List Event :=
  [.cpuIdle, .schedule, .resume, .kernelThread 0, .kernelWait 0 none, .schedule, .resume,
    .kernelExecve 0 0 0 0, .ecall .fork, .ecall (.wait 0 none), .schedule, .resume, .ecall .fork]

/-- 3 kills 2 and is preempted, 2 exits and is collected, 4 kills 3 and exits, and 3 returns to user mode. -/
def killedRun : List Event :=
  sleeperRun ++ [.ecall (.kill 2), .tick true, .schedule, .resume, .schedule, .resume, .kernelWait 0 none,
    .schedule, .resume, .ecall (.kill 3), .ecall (.exit 7), .schedule, .resume]

/-- A killed process is awake after the kill of a sleeper, and after a killed process has called `do_wait`
with a zombie to collect. -/
theorem no_killed_asleep_run : ∃ k₁ k₂ k₃ k₄ : Kernel bumpSys,
    (spareRun sleeperRun = some k₁ ∧ k₁.state 2 = .sleeping ∧ k₁.waitState 2 &&& wtInterrupted ≠ 0) ∧
    (spareRun (sleeperRun ++ [.ecall (.kill 2)]) = some k₂ ∧ k₂.flags 2 &&& pfExiting ≠ 0 ∧
      ∀ p, ¬ k₂.asleepKilled p) ∧
    (spareRun killedRun = some k₃ ∧ k₃.current = 3 ∧ k₃.flags 3 &&& pfExiting ≠ 0 ∧ k₃.state 4 = .zombie) ∧
    spareRun (killedRun ++ [.ecall (.wait 0 none)]) = some k₄ ∧ k₄.mem.1.2 = [3, 1, 0] ∧
      ∀ p, ¬ k₄.asleepKilled p := by
  obtain ⟨k₁, h₁⟩ := spareRun_decide (e := sleeperRun)
    (P := fun k => k.state 2 = .sleeping ∧ k.waitState 2 &&& wtInterrupted ≠ 0) (by decide +kernel)
  obtain ⟨k₂, h₂, hp₂⟩ := spareRun_decide (e := sleeperRun ++ [.ecall (.kill 2)])
    (P := fun k => k.flags 2 &&& pfExiting ≠ 0) (by decide +kernel)
  obtain ⟨k₃, h₃⟩ := spareRun_decide (e := killedRun)
    (P := fun k => k.current = 3 ∧ k.flags 3 &&& pfExiting ≠ 0 ∧ k.state 4 = .zombie) (by decide +kernel)
  obtain ⟨k₄, h₄, hp₄⟩ := spareRun_decide (e := killedRun ++ [.ecall (.wait 0 none)])
    (P := fun k => k.mem.1.2 = [3, 1, 0]) (by decide +kernel)
  exact ⟨k₁, k₂, k₃, k₄, h₁, ⟨h₂, hp₂, no_killed_asleep (spareRun_reachable h₂)⟩, h₃, h₄, hp₄,
    no_killed_asleep (spareRun_reachable h₄)⟩

/-- The parent is killed by its child while it is preempted at the end of `trap`. It returns to user mode
and calls `do_wait` while the child is alive. -/
theorem killed_asleep :
    ¬ ∀ k, (kernelMachine bumpSys).Reachable k → k.scheduling = true → ∀ p, ¬ k.asleepKilled p := by
  intro h
  obtain ⟨k, hk, hs, hl, hst, hw, hf⟩ : ∃ k, (kernelMachine bumpSys).Reachable k ∧
      k.scheduling = true ∧ 2 ∈ k.mem.1.2 ∧ k.state 2 = .sleeping ∧
      k.waitState 2 &&& wtInterrupted ≠ 0 ∧ k.flags 2 &&& pfExiting ≠ 0 :=
    bumpRun_decide (e := [.cpuIdle, .schedule, .resume, .kernelThread 0, .kernelWait 0 none,
      .schedule, .resume, .kernelExecve 0 0 0 0, .ecall .fork, .tick true,
      .schedule, .resume, .ecall (.kill 2), .tick true,
      .schedule, .resume, .ecall (.wait 0 none)]) (by decide +kernel)
  exact h k hk hs 2 ⟨hl, hst, hw, hf⟩

end

end UCore
