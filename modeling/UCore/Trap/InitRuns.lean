import UCore.Trap.SleepRuns

namespace UCore
set_option autoImplicit true

/-- Where `initproc` is in `init_main`: at `kernel_thread`, at the test of the loop or in its `do_wait`,
at the `schedule()` of the loop, or at the assertions behind it. -/
inductive InitPc where
  | start | wait | again | quit
  deriving DecidableEq, Repr

/-- The assertions at the end of `init_main`. -/
def Kernel.initChecks {S : MemSys} (k : Kernel S) : Prop :=
  (k.cptr k.initproc = none ∧ k.yptr k.initproc = none ∧ k.optr k.initproc = none) ∧
    k.nrProcess = 2 ∧ listNext k.listLink .procList = .listLink k.initproc ∧
    listPrev k.listLink .procList = .listLink k.initproc

instance {S : MemSys} (k : Kernel S) : Decidable k.initChecks := by
  unfold Kernel.initChecks
  infer_instance

namespace InitPc
variable {S : MemSys}

/-- The calls that `initproc` makes itself. -/
def allows (k : Kernel S) : InitPc → Call → Prop
  | _, .tick _ | _, .select | _, .resume => True
  | .start, c => c = .fork cloneVm
  | .wait, c => c = .wait 0 none
  | .again, c => c = .schedule
  | .quit, c => c = .exit 0 ∧ k.initChecks

/-- Where `initproc` is after a call of its own with the return value, unless it panics. -/
def after : InitPc → Call → Option Int → Option InitPc
  | .start, .fork _, some pid => if pid ≤ 0 then none else some .wait
  | .wait, .wait _ _, some ret | .wait, .resume, some ret => some (if ret = 0 then .again else .quit)
  | .again, .schedule, _ => some .wait
  | pc, _, _ => some pc

instance (k : Kernel S) (pc : InitPc) (c : Call) : Decidable (pc.allows k c) :=
  match c with
  | .tick _ | .select | .resume => by cases pc <;> exact .isTrue trivial
  | .fork _ | .exit _ | .wait _ _ | .execve _ _ _ _ | .yield | .fault _ _ | .kill _ | .schedule => by
    cases pc <;> unfold allows <;> infer_instance

end InitPc

/-- The kernel in which `initproc` runs `init_main`, and the other processes make any calls. -/
def initMachine (S : MemSys) : Machine (Kernel S × InitPc) Call where
  init s := (callMachine S).init s.1 ∧ s.2 = .start
  enabled s c := s.1.callable c ∧ (s.1.current = s.1.initproc → s.2.allows s.1 c)
  next s c := (s.1.call c).bind fun (ret, k) =>
    if s.1.current = s.1.initproc then (s.2.after c ret).map fun pc => (k, pc) else some (k, s.2)

instance initMachine_decidable (S : MemSys) (s : Kernel S × InitPc) (c : Call) :
    Decidable ((initMachine S).enabled s c) :=
  inferInstanceAs (Decidable (s.1.callable c ∧ (s.1.current = s.1.initproc → s.2.allows s.1 c)))

/-- The call does not name `initproc` to `do_kill`. -/
def sparesInit {S : MemSys} (s : Kernel S × InitPc) (c : Call) : Prop :=
  ∀ pid, c = .kill pid → pid ≠ s.1.pid s.1.initproc

section
variable {S : MemSys} {k k' k₁ : Kernel S} {ps : List Nat} {kids : Nat → List Nat}

theorem initMachine_next (h : (initMachine S).next s c = some t) :
    ∃ ret, s.1.call c = some (ret, t.1) := by
  obtain ⟨⟨ret, k⟩, hr, hn⟩ := Option.bind_eq_some_iff.1 h
  dsimp only at hn
  split at hn
  · obtain ⟨pc, -, rfl⟩ := Option.map_eq_some_iff.1 hn
    exact ⟨ret, hr⟩
  · cases hn
    exact ⟨ret, hr⟩

/-- `proc_init` makes an `initproc` that has not been killed. -/
theorem init_spared (h : (callMachine S).init k) : k.flags k.initproc &&& pfExiting = 0 := by
  obtain ⟨k₀, hb, hn, hlast, hs, hsch, hi⟩ := h
  obtain ⟨q, kids, hinv, -⟩ : ∃ q kids, KernelInv False k [q] kids ∧ ∃ via, k.ctl q = .forkret via :=
    procInit_inv hb hn hlast hs hsch hi
  have hlive := (hinv.live _).2 (List.mem_cons_of_mem _ hinv.init.1)
  unfold Kernel.procInit at hi
  dsimp only at hi
  split at hi
  · cases hi
  · rename_i p k₁ ha
    obtain ⟨⟨pid, k₂⟩, hf, hi⟩ := Option.bind_eq_some_iff.1 hi
    obtain ⟨-, -, hfl, hold⟩ := allocProc_view ha
    dsimp only at hi
    split at hi
    · cases hi
    · obtain ⟨f, -, hi⟩ := Option.bind_eq_some_iff.1 hi
      obtain ⟨j, rfl, hinit⟩ := Option.bind_eq_some_iff.1 hi
      split at hinit
      · cases hinit
        obtain ⟨hkeep, hnew⟩ := doFork_view hf j
        have hzero : k₂.flags j = 0 := by
          by_cases hj : S.live k₁.mem j
          · have hjp : j = p := ((hold j).1 hj).resolve_left (S.boot_live hb)
            exact (congrArg ProcView.flags (hkeep hj)).trans (hjp ▸ hfl)
          · exact hnew hj hlive
        show k₂.flags j &&& pfExiting = 0
        rw [hzero]
        rfl
      · cases hinit

/-- A call that does not kill `initproc` leaves its flags alone. -/
theorem call_flags (h : KernelInv False k ps kids) (hc : k.callable c) (hr : k.call c = some (r, k'))
    (hk : ∀ pid, c = .kill pid → pid ≠ k.pid k.initproc) :
    k'.initproc = k.initproc ∧ k'.flags k.initproc = k.flags k.initproc := by
  obtain ⟨xs, kids', -, he, -, hin⟩ := call_effect h hc hr
  have hm : k.initproc ∈ k.idleproc :: ps := List.mem_cons_of_mem _ h.init.1
  have hkept (hq : Kept k k' c k.initproc) : k'.flags k.initproc = k.flags k.initproc :=
    hq.flags.resolve_right fun hkill => hk _ hkill rfl
  refine ⟨hin, ?_⟩
  cases he with
  | kept all => exact hkept (all _ hm)
  | forked _ _ all => exact hkept (all _ hm)
  | exited _ _ _ _ _ _ flags => exact congrFun flags _
  | reaped _ _ _ _ all => exact hkept (all _ hm)
  | selected _ all => exact congrArg ProcView.flags (all _ hm)

theorem initMachine_inv (h : ((initMachine S).restrict sparesInit).Reachable s) :
    (∃ ps kids, KernelInv False s.1 ps kids) ∧ s.1.flags s.1.initproc &&& pfExiting = 0 := by
  apply h.restrict_invariant fun s : Kernel S × InitPc =>
    (∃ ps kids, KernelInv False s.1 ps kids) ∧ s.1.flags s.1.initproc &&& pfExiting = 0
  · exact fun s hi => ⟨init_inv hi.1, init_spared hi.1⟩
  · intro s c t hs hen hgood hn
    obtain ⟨⟨ps, kids, hk⟩, hfl⟩ := hs
    obtain ⟨ret, hr⟩ := initMachine_next hn
    obtain ⟨xs, kids', hk', -⟩ := call_effect hk hen.1 hr
    obtain ⟨hin, hsame⟩ := call_flags hk hen.1 hr hgood
    refine ⟨⟨xs, kids', hk'⟩, ?_⟩
    rw [hin, hsame]
    exact hfl

/-- `init_main` returns to `do_exit` only when all other processes are gone. -/
theorem KernelInv.alone (h : KernelInv False k ps kids) (hc : k.initChecks) (hp : k.listed p) :
    p = k.initproc := by
  have hn := h.table.count.symm.trans hc.2.1
  have hlen : ps.length = 1 := by omega
  obtain ⟨q, rfl⟩ := List.length_eq_one_iff.1 hlen
  have hq := List.mem_singleton.1 h.init.1
  rw [hq]
  exact List.mem_singleton.1 (h.table.listed_iff.1 hp)

theorem Enters.same (h : Enters k c k₁ x) :
    k₁.current = k.current ∧ k₁.idleproc = k.idleproc ∧ k₁.initproc = k.initproc := by
  cases h with
  | exit => exact ⟨rfl, rfl, rfl⟩
  | killed => exact ⟨rfl, rfl, rfl⟩
  | execve _ _ he =>
    obtain ⟨m, mm, rfl⟩ := exitMm_eq he
    exact ⟨rfl, rfl, rfl⟩

/-- As long as no process kills `initproc` and another process is on the list, neither `initproc` nor
`idleproc` enters `do_exit`. -/
theorem init_survives (h : ((initMachine S).restrict sparesInit).Reachable s)
    (hen : (initMachine S).enabled s c) (hp : s.1.listed p) (hpi : p ≠ s.1.initproc)
    (he : Enters s.1 c k₁ x) :
    k₁.current ≠ k₁.initproc ∧ k₁.current ≠ k₁.idleproc := by
  obtain ⟨⟨ps, kids, hk⟩, hfl⟩ := initMachine_inv h
  obtain ⟨hcur, hid, hin⟩ := he.same
  rw [hcur, hid, hin]
  have hidle := hk.states.idle.2.1
  constructor
  · intro hinit
    have hallow := hen.2 hinit
    cases he with
    | exit =>
      cases hpc : s.2 with
      | quit =>
        rw [hpc] at hallow
        exact hpi (hk.alone hallow.2 hp)
      | start | wait | again =>
        rw [hpc] at hallow
        cases hallow
    | killed hctl hkill =>
      rw [hinit] at hkill
      exact hkill hfl
    | execve =>
      cases hpc : s.2 with
      | quit =>
        rw [hpc] at hallow
        cases hallow.1
      | start | wait | again =>
        rw [hpc] at hallow
        cases hallow
  · intro hci
    have hcall := hen.1
    cases he with
    | exit =>
      have := hcall.2
      rw [hci, hidle] at this
      cases this with
      | inl hu => cases hu
      | inr hu => cases hu
    | killed hctl =>
      rw [hci, hidle] at hctl
      cases hctl
    | execve =>
      have := hcall.2
      rw [hci, hidle] at this
      cases this with
      | inl hu => cases hu
      | inr hu => cases hu

theorem initMachine_reachable (h : (initMachine S).Reachable s) : (callMachine S).Reachable s.1 := by
  induction h with
  | init hi => exact .init hi.1
  | step _ hen hn ih =>
    obtain ⟨ret, hr⟩ := initMachine_next hn
    exact .step ih hen.1 (by simp [callMachine, hr])

end

instance {S : MemSys} (s : Kernel S × InitPc) (c : Call) : Decidable (sparesInit s c) :=
  match c with
  | .kill pid => decidable_of_iff (pid ≠ s.1.pid s.1.initproc) (by simp [sparesInit])
  | .fork _ | .exit _ | .wait _ _ | .execve _ _ _ _ | .yield | .fault _ _ | .tick _ | .schedule | .select
  | .resume => .isTrue (by simp [sparesInit])

instance restrict_decidable (S : MemSys) (s : Kernel S × InitPc) (c : Call) :
    Decidable (((initMachine S).restrict sparesInit).enabled s c) :=
  inferInstanceAs (Decidable ((initMachine S).enabled s c ∧ sparesInit s c))

/-- The state after calls from the end of `proc_init` on, in a machine like `initMachine`. -/
def initRun (M : Machine (Kernel bumpSys × InitPc) Call) [∀ s c, Decidable (M.enabled s c)]
    (cs : List Call) : Option (Kernel bumpSys × InitPc) :=
  bumpBoot.procInit.bind fun k => M.exec (k, .start) cs

theorem initRun_reachable {M : Machine (Kernel bumpSys × InitPc) Call}
    [∀ s c, Decidable (M.enabled s c)] (hM : M.init = (initMachine bumpSys).init)
    (h : initRun M cs = some s) : M.Reachable s := by
  obtain ⟨k₀, hi, he⟩ := Option.bind_eq_some_iff.1 h
  have hinit : M.init (k₀, .start) := hM ▸ ⟨⟨bumpBoot, rfl, rfl, rfl, rfl, rfl, hi⟩, rfl⟩
  exact (Machine.Reachable.init hinit).exec he

theorem init_survives_exit : ∃ s : Kernel bumpSys × InitPc, Enters s.1 (.exit 7) s.1 7 ∧
    s.1.current ≠ s.1.initproc ∧ s.1.current ≠ s.1.idleproc := by
  have hrun : (initRun ((initMachine bumpSys).restrict sparesInit) [.schedule, .select, .resume,
      .fork cloneVm, .wait 0 none, .select, .resume, .execve 0 0 0 0, .fork 0, .kill 3]).map (fun s =>
        decide ((initMachine bumpSys).enabled s (.exit 7) ∧ 2 ∈ s.1.mem.1.2 ∧ 2 ≠ s.1.idleproc ∧
          2 ≠ s.1.initproc)) = some true := by
    decide +kernel
  obtain ⟨s, hs, hd⟩ := Option.map_eq_some_iff.1 hrun
  obtain ⟨hen, hlive, hid, hin⟩ := of_decide_eq_true hd
  have hreach : ((initMachine bumpSys).restrict sparesInit).Reachable s := initRun_reachable rfl hs
  obtain ⟨⟨ps, kids, hk⟩, -⟩ := initMachine_inv hreach
  have hp : 2 ∈ ps := (List.mem_cons.1 ((hk.live 2).1 hlive)).resolve_left hid
  exact ⟨s, .exit, init_survives hreach hen (hk.table.listed_iff.2 hp) hin .exit⟩

/-- A user program that kills process 1 makes `initproc` leave its `do_wait` through `do_exit`. -/
theorem init_killed : ∃ s k₁ x p, (initMachine bumpSys).Reachable s ∧
    (initMachine bumpSys).enabled s .resume ∧ s.1.listed p ∧ p ≠ s.1.initproc ∧ s.1.state p ≠ .zombie ∧
    Enters s.1 .resume k₁ x ∧ k₁.current = k₁.initproc ∧ s.1.call .resume = none := by
  have hrun : (initRun (initMachine bumpSys) [.schedule, .select, .resume, .fork cloneVm, .wait 0 none,
      .select, .resume, .execve 0 0 0 0, .kill 1, .schedule, .select]).map (fun s => decide
        ((initMachine bumpSys).enabled s .resume ∧ 2 ∈ s.1.mem.1.2 ∧ 2 ≠ s.1.idleproc ∧
          2 ≠ s.1.initproc ∧ s.1.state 2 ≠ .zombie ∧
          s.1.ctl s.1.current = .waiting .kernel 0 none ∧ s.1.flags s.1.current &&& pfExiting ≠ 0 ∧
          s.1.current = s.1.initproc ∧ (s.1.call .resume).isNone)) = some true := by
    decide +kernel
  obtain ⟨s, hs, hd⟩ := Option.map_eq_some_iff.1 hrun
  obtain ⟨hen, hlive, hid, hin, hz, hctl, hfl, hcur, hcall⟩ := of_decide_eq_true hd
  have hreach := initRun_reachable rfl hs
  obtain ⟨ps, kids, hk⟩ := call_inv (initMachine_reachable hreach)
  have hp : 2 ∈ ps := (List.mem_cons.1 ((hk.live 2).1 hlive)).resolve_left hid
  exact ⟨s, s.1, _, 2, hreach, hen, hk.table.listed_iff.2 hp, hin, hz, .killed hctl hfl, hcur,
    Option.isNone_iff_eq_none.1 hcall⟩

end UCore
