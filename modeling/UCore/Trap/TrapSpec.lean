import UCore.Process.Init
import UCore.Process.Sched
import UCore.Trap.Trap

namespace UCore
set_option autoImplicit true
open Function (update)

section
variable {S : MemSys} {k k' k₁ : Kernel S} {ps : List Nat} {kids : Nat → List Nat} {spared : Prop}

theorem KernelInv.setMem (h : KernelInv spared k ps kids) (hm : S.live m = S.live k.mem) :
    KernelInv spared (k.setMem m) ps kids :=
  h.other m k.kstack k.cr3 k.mm k.needResched k.runs k.exitCode hm

/-- The running process goes on at `c`, possibly inside `schedule()`. -/
theorem KernelInv.moveTo (h : KernelInv spared k ps kids) (hrun : k.scheduling = false)
    (hc : k.current = k.idleproc → c = .idle) (b : Bool) :
    KernelInv spared { k with ctl := update k.ctl k.current c, scheduling := b } ps kids := by
  have hother (p : Nat) (hs : k.state p = .sleeping) : update k.ctl k.current c p = k.ctl p := by
    apply Function.update_of_ne
    rintro rfl
    rw [h.states.running hrun] at hs
    cases hs
  refine ⟨⟨{ h.table with }, ?_, ?_, ⟨?_⟩, h.live⟩, h.init⟩
  · exact h.tree.sameLinks rfl rfl rfl rfl rfl fun _ _ => Iff.rfl
  · obtain ⟨hsi, hci, hpi⟩ := h.states.idle
    refine { h.states with
      asleep := fun p hp hs => ?_
      idle := ⟨hsi, ?_, hpi⟩
      running := fun _ => h.states.running hrun }
    · obtain ⟨hw, via, pid, store, hctl⟩ := h.states.asleep p hp hs
      exact ⟨hw, via, pid, store, (hother p hs).trans hctl⟩
    · by_cases hcur : k.idleproc = k.current
      · show update k.ctl k.current c k.idleproc = .idle
        rw [hcur, Function.update_self, hc hcur.symm]
      · exact (Function.update_of_ne hcur ..).trans hci
  · intro p hp hs via pid store hctl
    exact h.waits.child p hp hs via pid store ((hother p hs).symm.trans hctl)

theorem Active.held (h : Active spared k) : Held spared k := h.2.2

theorem Active.setCtl (h : Active spared k) : Held spared (k.setCtl k.current c) := by
  obtain ⟨hrun, hidle, ps, kids, h⟩ := h
  have hm := h.moveTo (c := c) hrun (fun he => absurd he hidle) false
  rw [← hrun] at hm
  exact ⟨ps, kids, hm⟩

theorem Active.enterSchedule (h : Active spared k) : Held spared (k.enterSchedule c) := by
  obtain ⟨hrun, hidle, ps, kids, h⟩ := h
  exact ⟨ps, kids, h.moveTo hrun (fun he => absurd he hidle) true⟩

theorem Active.exit (h : Active spared k) (hx : k.doExit e = some k') : Held spared k' := by
  obtain ⟨hrun, -, ps, kids, h⟩ := h
  obtain ⟨k₁, hm, hidle, hinit, he⟩ := doExit_spec h hrun hx
  obtain ⟨hsame, hlive⟩ := exitMm_spec (k.idleproc :: ps) hm
  rw [← hsame.current, ← hsame.idleproc] at hidle
  rw [← hsame.current, ← hsame.initproc] at hinit
  exact ⟨ps, _, he.kernelInv (h.congr hsame hlive) (hsame.scheduling.trans hrun) hidle (Ne.symm hinit)⟩

theorem Active.fork (h : Active spared k) (hf : k.doFork fl entry = some (r, k')) : Active spared k' := by
  obtain ⟨hrun, hidle, ps, kids, h⟩ := h
  cases doFork_spec h.toProcInv hrun hf with
  | inl hfail =>
    obtain ⟨-, hsame, hlive⟩ := hfail
    refine ⟨hsame.scheduling.trans hrun, ?_, ps, kids, h.congr hsame hlive⟩
    rwa [hsame.current, hsame.idleproc]
  | inr hok =>
    obtain ⟨p, -, -, hfk⟩ := hok
    refine ⟨hfk.scheduling.trans hrun, ?_, _, _, hfk.kernelInv h⟩
    rwa [hfk.current, hfk.idleproc]

theorem Active.kill (h : Active spared k) (hr : k.doKill pid = some (r, k')) : Active spared k' := by
  obtain ⟨hrun, hidle, ps, kids, h⟩ := h
  obtain ⟨h', hcur, hid, hsch⟩ := doKill_spec h hr
  refine ⟨hsch.trans hrun, ?_, ps, kids, h'⟩
  rwa [hcur, hid]

theorem Active.other (h : Active spared k) (m : S.σ) (cr : Nat → Nat) (mm : Nat → Option Nat)
    (nr : Nat → Bool) (hm : S.live m = S.live k.mem) :
    Active spared { k with mem := m, cr3 := cr, mm := mm, needResched := nr } := by
  obtain ⟨hrun, hidle, ps, kids, h⟩ := h
  exact ⟨hrun, hidle, ps, kids, h.other m k.kstack cr mm nr k.runs k.exitCode hm⟩

theorem Active.yield (h : Active spared k) : Active spared k.doYield :=
  h.other k.mem k.cr3 k.mm (update k.needResched k.current true) rfl

theorem Active.setMem (h : Active spared k) (hm : S.live m = S.live k.mem) :
    Active spared (k.setMem m) := h.other m k.cr3 k.mm k.needResched hm

theorem Active.exitMm (h : Active spared k) (hm : k.exitMm = some k') : Active spared k' := by
  obtain ⟨hrun, hidle, ps, kids, h⟩ := h
  obtain ⟨hsame, hlive⟩ := exitMm_spec (k.idleproc :: ps) hm
  refine ⟨hsame.scheduling.trans hrun, ?_, ps, kids, h.congr hsame hlive⟩
  rwa [hsame.current, hsame.idleproc]

theorem Active.execve (h : Active spared k) (hr : k.doExecve name len binary size = some (ret, k')) :
    Held spared k' ∧ (ret.isSome → Active spared k') := by
  unfold Kernel.doExecve Kernel.doExecveWith at hr
  split at hr
  · rename_i m hm
    cases hr
    have ha := h.setMem (S.userMemCheck_live hm)
    exact ⟨ha.held, fun _ => ha⟩
  · rename_i m hm
    obtain ⟨m₁, hm₁, hr⟩ := Option.bind_eq_some_iff.1 hr
    obtain ⟨k₁, hx, hr⟩ := Option.bind_eq_some_iff.1 hr
    obtain ⟨⟨e, new, m₂⟩, hl, hr⟩ := Option.bind_eq_some_iff.1 hr
    have h₁ := (h.setMem ((S.readUser_live hm₁).trans (S.userMemCheck_live hm))).exitMm hx
    have hm₂ := S.loadIcode_live hl
    dsimp only at hr
    split at hr
    · obtain ⟨k₂, hex, hr⟩ := Option.bind_eq_some_iff.1 hr
      cases hr
      exact ⟨(h₁.setMem hm₂).exit hex, by simp⟩
    · split at hr
      · cases hr
        exact ⟨(h₁.setMem hm₂).held, fun _ => h₁.setMem hm₂⟩
      · rename_i mm cr
        cases hr
        have ha := h₁.other m₂ (update k₁.cr3 k₁.current cr) (update k₁.mm k₁.current (some mm))
          k₁.needResched hm₂
        exact ⟨ha.held, fun _ => ha⟩

theorem Active.trapReturn (h : Active spared k) (hr : k.trapReturn = some k') : Held spared k' := by
  unfold Kernel.trapReturn at hr
  split at hr
  · exact h.exit hr
  · split at hr
    · cases hr
      exact h.enterSchedule
    · cases hr
      exact h.setCtl

theorem Active.finish (h : Active spared k) (hr : k.finish via = some k') : Held spared k' := by
  cases via with
  | ecall => exact h.trapReturn hr
  | ebreak =>
    cases hr
    exact h.setCtl
  | kernel =>
    cases hr
    exact h.setCtl

theorem complete_inv (h : Held spared k ∧ (ret.isSome → Active spared k))
    (hr : Kernel.complete via (ret, k) = some k') : Held spared k' := by
  cases ret with
  | none =>
    cases hr
    exact h.1
  | some r => exact (h.2 rfl).finish hr

/-- A child that `do_wait(pid)` of the current process waits for. -/
def Kernel.awaited (k : Kernel S) (pid : Int) (c : Nat) : Prop :=
  S.live k.mem c ∧ k.parent c = some k.current ∧ (pid = 0 ∨ k.pid c = pid)

/-- A call `do_wait(pid, store)` by a process with `PF_EXITING` that will go to sleep: the address of
the result is good, there is a child to wait for, and none of those is a zombie. -/
def Kernel.killedWait (k : Kernel S) (pid : Int) (store : Option Nat) : Prop :=
  k.flags k.current &&& pfExiting ≠ 0 ∧
    (∀ a, store = some a → (S.userMemCheck k.mem (k.mm k.current) a 4 true).1 = true) ∧
    (∃ c, k.awaited pid c) ∧ ∀ c, k.awaited pid c → k.state c ≠ .zombie

theorem KernelInv.awaited_iff (h : KernelInv spared k ps kids) :
    k.awaited pid c ↔ c ∈ kids k.current ∧ (pid = 0 ∨ k.pid c = pid) := by
  rw [Kernel.awaited, h.live, h.tree.family.mem_kids _ h.states.current]
  constructor
  · rintro ⟨hc, hp, hor⟩
    refine ⟨⟨(List.mem_cons.1 hc).resolve_left ?_, hp⟩, hor⟩
    rintro rfl
    rw [h.states.idle.2.2] at hp
    cases hp
  · rintro ⟨⟨hc, hp⟩, hor⟩
    exact ⟨List.mem_cons_of_mem _ hc, hp, hor⟩

theorem Active.wait (h : Active spared k) (hspare : spared → ¬ k.killedWait pid store)
    (hr : k.doWait via pid store = some (ret, k')) :
    Held spared k' ∧ (ret.isSome → Active spared k') := by
  have hsleep (ps : List Nat) (kids : Nat → List Nat) (h : KernelInv spared k ps kids)
      (hstore : ∀ a, store = some a → (S.userMemCheck k.mem (k.mm k.current) a 4 true).1 = true)
      (hsp : spared) (hw : WaitFound k kids pid .sleep) : k.flags k.current &&& pfExiting = 0 := by
    by_contra hfl
    obtain ⟨⟨c, hc⟩, hz⟩ := hw
    exact hspare hsp ⟨hfl, hstore, ⟨c, h.awaited_iff.2 hc⟩, fun d hd =>
      hz d (h.awaited_iff.1 hd).1 (h.awaited_iff.1 hd).2⟩
  unfold Kernel.doWait at hr
  split at hr
  · obtain ⟨hrun, hidle, ps, kids, h⟩ := h
    exact waitRepeat_inv h hrun hidle (hsleep ps kids h (by simp)) hr
  · rename_i a
    split at hr
    · rename_i m hm
      cases hr
      have ha := h.setMem (S.userMemCheck_live hm)
      exact ⟨ha.held, fun _ => ha⟩
    · rename_i m hm
      obtain ⟨hrun, hidle, ps, kids, h⟩ := h
      refine waitRepeat_inv (h.setMem (S.userMemCheck_live hm)) hrun hidle (fun hsp hw => ?_) hr
      refine hsleep ps kids h (fun b hb => ?_) hsp hw
      cases hb
      rw [hm]

/-- The arguments with which an event calls `do_wait`. -/
def Event.waitArgs : Event → Option (Int × Option Nat)
  | .ecall (.wait pid store) | .ebreak (.wait pid store) | .kernelWait pid store => some (pid, store)
  | _ => none

/-- The event is a call of `do_wait` in which a killed process goes to sleep. -/
def Kernel.sleepsKilled (k : Kernel S) (e : Event) : Prop :=
  ∃ pid store, e.waitArgs = some (pid, store) ∧ k.killedWait pid store

theorem Active.syscall (h : Active spared k)
    (hspare : spared → ∀ pid store, c = .wait pid store → ¬ k.killedWait pid store)
    (hr : k.syscall via c = some (ret, k')) : Held spared k' ∧ (ret.isSome → Active spared k') := by
  cases c with
  | exit e =>
    obtain ⟨k₁, hx, he⟩ := Option.map_eq_some_iff.1 hr
    cases he
    exact ⟨h.exit hx, by simp⟩
  | fork =>
    obtain ⟨⟨r, k₁⟩, hf, he⟩ := Option.map_eq_some_iff.1 hr
    cases he
    exact ⟨(h.fork hf).held, fun _ => h.fork hf⟩
  | wait pid store => exact h.wait (fun hsp => hspare hsp pid store rfl) hr
  | exec name len binary size => exact h.execve hr
  | yield =>
    cases hr
    exact ⟨h.yield.held, fun _ => h.yield⟩
  | kill pid =>
    obtain ⟨⟨r, k₁⟩, hk, he⟩ := Option.map_eq_some_iff.1 hr
    cases he
    exact ⟨(h.kill hk).held, fun _ => h.kill hk⟩

theorem Active.resume (h : Active spared k) (hr : k.resume = some k') : Held spared k' := by
  unfold Kernel.resume at hr
  split at hr
  · cases hr
    exact h.setCtl
  · cases hr
    exact h.setCtl
  · cases hr
    exact h.setCtl
  · cases hr
    exact h.setCtl
  · rename_i via pid store hctl
    split at hr
    · exact h.exit hr
    · rename_i hfl
      obtain ⟨⟨ret, k₁⟩, hw, hc⟩ := Option.bind_eq_some_iff.1 hr
      obtain ⟨hrun, hidle, ps, kids, h⟩ := h
      exact complete_inv (waitRepeat_inv h hrun hidle (fun _ _ => not_not.1 hfl) hw) hc
  · cases hr

theorem Held.active (h : Held spared k) (hrun : k.scheduling = false) (hctl : k.ctl k.current ≠ .idle) :
    Active spared k := by
  obtain ⟨ps, kids, h⟩ := h
  refine ⟨hrun, fun hc => hctl ?_, ps, kids, h⟩
  rw [hc]
  exact h.states.idle.2.1

theorem Held.yield (h : Held spared k) : Held spared k.doYield := by
  obtain ⟨ps, kids, h⟩ := h
  exact ⟨ps, kids, h.other k.mem k.kstack k.cr3 k.mm (update k.needResched k.current true) k.runs
    k.exitCode rfl⟩

/-- Each event keeps the invariant of the kernel. -/
theorem event_inv (h : Held spared k) (he : k.enabled e) (hspare : spared → ¬ k.sleepsKilled e)
    (hr : k.event e = some k') : Held spared k' := by
  cases e with
  | ecall c =>
    have ha := h.active he.1 (by simp [he.2])
    obtain ⟨⟨ret, k₁⟩, hs, hc⟩ := Option.bind_eq_some_iff.1 hr
    refine complete_inv (ha.syscall (fun hsp pid store hcw hk => ?_) hs) hc
    exact hspare hsp ⟨pid, store, by simp [Event.waitArgs, hcw], hk⟩
  | ebreak c =>
    have ha := h.active he.1 (by simp [he.2])
    obtain ⟨⟨ret, k₁⟩, hs, hc⟩ := Option.bind_eq_some_iff.1 hr
    refine complete_inv (ha.syscall (fun hsp pid store hcw hk => ?_) hs) hc
    exact hspare hsp ⟨pid, store, by simp [Event.waitArgs, hcw], hk⟩
  | tick fire =>
    have htick : Held spared (if fire then k.doYield else k) := by
      split
      · exact h.yield
      · exact h
    have hrun : (if fire then k.doYield else k).scheduling = false := by
      split <;> exact he.1
    simp only [Kernel.event] at hr
    generalize (if fire then k.doYield else k) = k₁ at hr htick hrun
    split at hr
    · rename_i hctl
      exact (htick.active hrun (by simp [hctl])).trapReturn hr
    · cases hr
      exact htick
  | fault cause addr =>
    have ha := h.active he.1 (by simp [he.2])
    obtain ⟨⟨r, m⟩, hm, hr⟩ := Option.bind_eq_some_iff.1 hr
    dsimp only at hr
    split at hr
    · cases hr
    · exact (ha.setMem (S.doPgfault_live hm)).trapReturn hr
  | kernelThread fl =>
    have ha := h.active he.1 (by simp [he.2])
    obtain ⟨⟨r, k₁⟩, hf, hr⟩ := Option.bind_eq_some_iff.1 hr
    exact (ha.fork hf).finish hr
  | kernelWait pid store =>
    have ha := h.active he.1 (by simp [he.2])
    obtain ⟨⟨ret, k₁⟩, hw, hc⟩ := Option.bind_eq_some_iff.1 hr
    refine complete_inv (ha.wait (fun hsp hk => ?_) hw) hc
    exact hspare hsp ⟨pid, store, rfl, hk⟩
  | kernelSchedule =>
    cases hr
    exact (h.active he.1 (by simp [he.2])).enterSchedule
  | kernelExecve name len binary size =>
    have ha := h.active he.1 (by simp [he.2])
    obtain ⟨⟨ret, k₁⟩, hx, hr⟩ := Option.bind_eq_some_iff.1 hr
    have hex := ha.execve hx
    dsimp only at hr
    split at hr
    · cases hr
      exact hex.1
    · exact (hex.2 rfl).finish hr
    · exact (hex.2 rfl).finish hr
  | kernelReturn ret => exact (h.active he.1 (by simp [he.2])).exit hr
  | cpuIdle =>
    cases hr
    obtain ⟨ps, kids, h⟩ := h
    exact ⟨ps, kids, h.moveTo he.1 (fun _ => rfl) true⟩
  | schedule =>
    obtain ⟨ps, kids, h⟩ := h
    obtain ⟨k₁, hs, h₁, -⟩ := schedule_spec h
    cases hs.symm.trans hr
    exact ⟨ps, kids, h₁⟩
  | resume =>
    refine (h.active he.1 fun hc => he.2 ?_).resume hr
    simp [hc]

theorem init_inv (h : (kernelMachine S).init k) : Held spared k := by
  obtain ⟨k₀, hb, hn, hl, hs, hsch, hi⟩ := h
  obtain ⟨p, kids, h, -⟩ := procInit_inv hb hn hl hs hsch hi
  exact ⟨[p], kids, h⟩

/-- The invariant holds in every state that the kernel reaches. -/
theorem kernel_inv (h : (kernelMachine S).Reachable k) : Held False k :=
  h.invariant (Held False)
    (fun _ hi => init_inv hi)
    fun _ _ _ hinv hen hnext => event_inv hinv hen False.elim hnext

theorem kernel_spared (h : ((kernelMachine S).restrict fun k e => ¬ k.sleepsKilled e).Reachable k) :
    Held True k :=
  h.restrict_invariant (Held True)
    (fun _ hi => init_inv hi)
    fun _ _ _ hinv hen hgood hnext => event_inv hinv hen (fun _ => hgood) hnext

end

end UCore
