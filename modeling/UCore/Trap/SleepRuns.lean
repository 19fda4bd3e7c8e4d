import UCore.Trap.CallSpec
import UCore.Trap.KernelRuns

namespace UCore
set_option autoImplicit true
open Function (update)

/-- The function does what `wakeup_proc` does, on processes that are neither zombies nor runnable. -/
def Wakes {S : MemSys} (w : Kernel S → Nat → Option (Kernel S)) : Prop :=
  ∀ k p, k.state p ≠ .zombie → k.state p ≠ .runnable → w k p = k.wakeupProc p

/-- The kernel after `proc_init` and a run of calls. -/
def callRun (cs : List Call) : Option (Kernel bumpSys) :=
  bumpBoot.procInit.bind fun k => (callMachine bumpSys).exec k cs

theorem callRun_reachable {k : Kernel bumpSys} (h : callRun cs = some k) : (callMachine bumpSys).Reachable k := by
  obtain ⟨k₀, hi, he⟩ := Option.bind_eq_some_iff.1 h
  exact Machine.Reachable.exec (.init ⟨bumpBoot, rfl, rfl, rfl, rfl, rfl, hi⟩) he

theorem callRun_decide {P : Kernel bumpSys → Prop} [DecidablePred P]
    (h : (callRun c).map (fun k => decide (P k)) = some true) :
    ∃ k, (callMachine bumpSys).Reachable k ∧ P k := by
  obtain ⟨k, hk, hp⟩ := Option.map_eq_some_iff.1 h
  exact ⟨k, callRun_reachable hk, of_decide_eq_true hp⟩

section
variable {S : MemSys} {k k' : Kernel S} {ps xs : List Nat} {kids : Nat → List Nat}
  {w : Kernel S → Nat → Option (Kernel S)}

theorem Wakes.sleeping (hw : Wakes w) (hs : k.state p = .sleeping) : w k p = k.wakeupProc p := by
  apply hw
  · simp [hs]
  · simp [hs]

theorem getPid_state (h : k.getPid = some (pid, k')) : k'.state = k.state := by
  unfold Kernel.getPid at h
  dsimp only at h
  split at h
  · obtain ⟨x, -, h⟩ := Option.bind_eq_some_iff.1 h
    cases h
    rfl
  · cases h
    rfl

theorem setLinks_state (h : k.setLinks p = some k') : k'.state = k.state := by
  cases hq : k.parent p with
  | none => simp [Kernel.setLinks, Kernel.setYptr, hq] at h
  | some r =>
    rw [setLinks_eq hq] at h
    cases h
    rfl

theorem doForkWith_eq (hw : Wakes w) (hl : ∀ q, S.live k.mem q ↔ q ∈ xs) :
    k.doForkWith w fl entry = k.doFork fl entry := by
  unfold Kernel.doFork Kernel.doForkWith
  split
  · rfl
  · cases ha : k.allocProc with
    | mk r k₁ =>
      cases r with
      | none => rfl
      | some p =>
        have hf := allocProc_some ha hl
        dsimp only
        cases hs : ({ k₁ with parent := update k₁.parent p (some k₁.current) } : Kernel S).setupKstack p with
        | mk b k₂ =>
          cases b with
          | false => rfl
          | true =>
            have hf₂ := hf.setupKstack hs
            apply Option.bind_congr
            rintro ⟨e, k₃⟩ hc
            have hf₃ := hf₂.copyMm hc
            dsimp only
            split
            · rfl
            · apply Option.bind_congr
              rintro ⟨pid, k₄⟩ hg
              apply Option.bind_congr
              intro k₅ hl
              have hst : k₅.state p = .uninit := by
                rw [setLinks_state hl]
                exact (congrFun (getPid_state hg) p).trans hf₃.state
              rw [hw k₅ p (by simp [hst]) (by simp [hst])]

/-- The stores of one round of the loop of `do_exit`. -/
def Kernel.adopt (k : Kernel S) (p : Nat) : Kernel S :=
  let k := k.setCptr k.current (k.optr p)
  let k := k.setYptr p none
  let k := k.setOptr p (k.cptr k.initproc)
  let k := match k.optr p with
    | none => k
    | some o => k.setYptr o (some p)
  let k := { k with parent := update k.parent p (some k.initproc) }
  k.setCptr k.initproc (some p)

theorem adopt_same (k : Kernel S) (p : Nat) :
    (k.adopt p).state = k.state ∧ (k.adopt p).waitState = k.waitState ∧
      (k.adopt p).initproc = k.initproc := by
  unfold Kernel.adopt
  dsimp only
  split
  · simp only [Kernel.setCptr, Kernel.setYptr, Kernel.setOptr, and_self]
  · simp only [Kernel.setCptr, Kernel.setYptr, Kernel.setOptr, and_self]

/-- A process that waits for a child is asleep, when it is woken up and afterwards. -/
theorem wake_eq (hw : Wakes w) (c : Prop) [Decidable c]
    (hp : k.waitState p = wtChild → k.state p = .sleeping) :
    (if c ∧ k.waitState p = wtChild then w k p else some k) =
      (if c ∧ k.waitState p = wtChild then k.wakeupProc p else some k) := by
  split
  · rename_i hc
    exact hw.sleeping (hp hc.2)
  · rfl

theorem reparentWith_eq (hw : Wakes w)
    (hi : k.waitState k.initproc = wtChild → k.state k.initproc = .sleeping) :
    k.reparentWith w n = k.reparent n := by
  induction n generalizing k with
  | zero => rfl
  | succ n ih =>
    unfold Kernel.reparent Kernel.reparentWith
    cases hc : k.cptr k.current with
    | none => rfl
    | some p =>
      obtain ⟨hst, hws, hin⟩ := adopt_same k p
      show (if (k.adopt p).state p = .zombie ∧ (k.adopt p).waitState (k.adopt p).initproc = wtChild then
          w (k.adopt p) (k.adopt p).initproc else some (k.adopt p)).bind _ =
        (if (k.adopt p).state p = .zombie ∧ (k.adopt p).waitState (k.adopt p).initproc = wtChild then
          (k.adopt p).wakeupProc (k.adopt p).initproc else some (k.adopt p)).bind _
      generalize k.adopt p = k₁ at hst hws hin
      have hi₁ : k₁.waitState k₁.initproc = wtChild → k₁.state k₁.initproc = .sleeping := by
        rw [hst, hws, hin]
        exact hi
      rw [wake_eq hw _ hi₁]
      apply Option.bind_congr
      intro k₂ hk₂
      apply ih
      obtain ⟨st, ws, hwake, hwoken, -⟩ := wake_waiting (k₁.state p = .zombie) hi₁
      rw [hwake] at hk₂
      cases hk₂
      exact Woken.waiting hwoken hi₁

theorem doExitWith_eq (hw : Wakes w) (h : KernelInv spared k ps kids) (hrun : k.scheduling = false) :
    k.doExitWith w e = k.doExit e := by
  unfold Kernel.doExit Kernel.doExitWith
  split
  · rfl
  · rename_i hidle
    split
    · rfl
    · apply Option.bind_congr
      intro k₁ hm
      obtain ⟨m, mm, rfl⟩ := exitMm_eq hm
      apply Option.bind_congr
      intro q hq
      have hcur : k.current ∈ ps := (List.mem_cons.1 h.states.current).resolve_left hidle
      have hqm : q ∈ k.idleproc :: ps := by
        obtain ⟨r, hr, hpr, -⟩ := h.tree.parent _ hcur
        exact Option.some.inj (hpr.symm.trans hq) ▸ hr
      have hasleep (p : Nat) (hp : p ∈ k.idleproc :: ps) (hwp : k.waitState p = wtChild) :
          update k.state k.current .zombie p = .sleeping := by
        have hs := h.states.waiting hp hwp
        rwa [Function.update_of_ne]
        rintro rfl
        rw [h.states.running hrun] at hs
        cases hs
      have hwake := wake_eq (p := q) (k := { k with
        mem := m, mm := mm, state := update k.state k.current .zombie
        exitCode := update k.exitCode k.current e }) hw True (hasleep q hqm)
      simp only [true_and] at hwake
      rw [hwake]
      apply Option.bind_congr
      intro k₂ hk₂
      obtain ⟨st, ws, hwk, hwoken, -⟩ := wake_waiting (p := q) (k := { k with
        mem := m, mm := mm, state := update k.state k.current .zombie
        exitCode := update k.exitCode k.current e }) True (hasleep q hqm)
      simp only [true_and] at hwk
      obtain rfl := Option.some.inj (hk₂.symm.trans hwk)
      rw [reparentWith_eq hw, Kernel.reparent]
      exact Woken.waiting hwoken (hasleep _ (List.mem_cons_of_mem _ h.init.1))

theorem doKillWith_eq (hw : Wakes w) (h : KernelInv spared k ps kids) :
    k.doKillWith w pid = k.doKill pid := by
  unfold Kernel.doKill Kernel.doKillWith
  apply Option.bind_congr
  intro f hf
  cases f with
  | none => rfl
  | some p =>
    dsimp only
    split
    · congr 1
      split
      · rename_i hint
        apply hw.sleeping
        obtain ⟨r, hr, hiff⟩ := h.table.findProc pid
        obtain rfl := Option.some.inj (hr.symm.trans hf)
        show k.state p = .sleeping
        by_contra hs
        rw [h.states.awake p (List.mem_cons_of_mem _ ((hiff p).1 rfl).1) hs] at hint
        exact hint (by decide)
      · rfl
    · rfl

theorem doExecveWith_eq (hw : Wakes w) (h : KernelInv spared k ps kids) (hrun : k.scheduling = false) :
    k.doExecveWith w name len binary size = k.doExecve name len binary size := by
  unfold Kernel.doExecve Kernel.doExecveWith
  cases hm : S.userMemCheck k.mem (k.mm k.current) name len false with
  | mk b m =>
    cases b with
    | false => rfl
    | true =>
      apply Option.bind_congr
      intro m₁ hm₁
      apply Option.bind_congr
      intro k₁ hk₁
      apply Option.bind_congr
      rintro ⟨e, new, m₂⟩ hl
      dsimp only
      split
      · have h₁ : KernelInv spared (k₁.setMem m₂) ps kids := by
          obtain ⟨hsame, hlive⟩ := exitMm_spec (k.idleproc :: ps) hk₁
          have hm' := (S.readUser_live hm₁).trans (S.userMemCheck_live hm)
          exact ((h.setMem hm').congr hsame hlive).setMem (S.loadIcode_live hl)
        obtain ⟨m₃, mm, rfl⟩ := exitMm_eq hk₁
        rw [doExitWith_eq hw h₁ hrun, Kernel.doExit]
      · rfl

/-- With any function for `wakeup_proc` that does the same on processes neither zombies nor runnable, a
call does the same. -/
theorem callWith_eq (hw : Wakes w) (h : KernelInv spared k ps kids) (hc : k.callable c) :
    k.callWith w c = k.call c := by
  unfold Kernel.call
  cases c with
  | fork fl =>
    simp only [Kernel.callWith, doForkWith_eq hw h.live, Kernel.doForkWith_wakeupProc]
  | exit e =>
    simp only [Kernel.callWith, doExitWith_eq hw h hc.1, Kernel.doExitWith_wakeupProc]
  | execve name len binary size =>
    simp only [Kernel.callWith, doExecveWith_eq hw h hc.1, Kernel.doExecveWith_wakeupProc]
  | kill pid =>
    simp only [Kernel.callWith, doKillWith_eq hw h, Kernel.doKillWith_wakeupProc]
  | resume =>
    simp only [Kernel.callWith, Kernel.resumeWith, doExitWith_eq hw h hc.1,
      Kernel.doExitWith_wakeupProc]
  | wait _ _ | yield | fault _ _ | tick _ | schedule | select => rfl

/-- A zombie stays a zombie until `do_wait` of its parent removes it. -/
theorem call_zombie (h : KernelInv False k ps kids) (hc : k.callable c) (hr : k.call c = some (r, k'))
    (hp : S.live k.mem p) (hz : k.state p = .zombie) :
    S.live k'.mem p ∧ k'.state p = .zombie ∨
      ¬ S.live k'.mem p ∧ r = some 0 ∧ k.parent p = some k.current ∧
        ∃ pid store, k.waitArgs c = some (pid, store) := by
  obtain ⟨xs, kids', h', he, hid, -⟩ := call_effect h hc hr
  rw [h.live] at hp
  rw [h'.live, hid]
  cases he with
  | kept all => exact .inl ⟨hp, (all p hp).zombie.2 hz⟩
  | forked _ _ all =>
    refine .inl ⟨?_, (all p hp).zombie.2 hz⟩
    simp only [List.mem_cons] at hp ⊢
    exact hp.imp_right .inr
  | exited _ _ others _ _ _ _ st =>
    refine .inl ⟨hp, ?_⟩
    by_cases hpc : p = k.current
    · rw [hpc, st]
    · exact (others p hp hpc).zombie.2 hz
  | @reaped as q bs pid store hs hw par st all _ hret =>
    have hnd := h.table.nodup
    rw [hs] at hnd hp
    have hq : q ∉ as ++ bs := (List.nodup_middle.1 hnd).notMem
    by_cases hpq : p = q
    · subst hpq
      refine .inr ⟨?_, hret, par, pid, store, hw⟩
      rw [List.mem_cons, not_or]
      refine ⟨fun hpi => h.table.idle ?_, hq⟩
      rw [← hpi, hs]
      simp
    · refine .inl ⟨?_, (all p (hs ▸ hp)).zombie.2 hz⟩
      rw [List.mem_cons] at hp ⊢
      exact hp.imp_right fun hm => (mem_erase_mid hq).2 ⟨hm, hpq⟩
  | selected _ all =>
    refine .inl ⟨hp, ?_⟩
    rw [← hz]
    exact congrArg ProcView.state (all p hp)

/-- A process waits for a child exactly when it is asleep, zombies are left to `do_wait`, and
`wakeup_proc` is called for processes that are neither zombies nor runnable: nothing else it may do
shows in a call. -/
theorem sleep_discipline (h : (callMachine S).Reachable k) :
    (∀ p, S.live k.mem p → (k.waitState p = wtChild ↔ k.state p = .sleeping) ∧
      (k.state p ≠ .sleeping → k.waitState p = 0)) ∧
    (∀ c r k', k.callable c → k.call c = some (r, k') →
      (∀ p, S.live k.mem p → k.state p = .zombie →
        S.live k'.mem p ∧ k'.state p = .zombie ∨
          ¬ S.live k'.mem p ∧ r = some 0 ∧ k.parent p = some k.current ∧
            ∃ pid store, k.waitArgs c = some (pid, store)) ∧
      (c = .select → k.state k'.current = .runnable)) ∧
    ∀ c w, k.callable c → Wakes w → k.callWith w c = k.call c := by
  obtain ⟨ps, kids, hk⟩ := call_inv h
  refine ⟨fun p hp => ?_, fun c r k' hc hr => ⟨fun p hp hz => call_zombie hk hc hr hp hz, ?_⟩,
    fun c w hc hw => callWith_eq hw hk hc⟩
  · rw [hk.live] at hp
    refine ⟨⟨hk.states.waiting hp, fun hs => ?_⟩, hk.states.awake p hp⟩
    cases hp with
    | head =>
      rw [hk.states.idle.1] at hs
      cases hs
    | tail _ hp => exact (hk.states.asleep p hp hs).1
  · rintro rfl
    obtain ⟨xs, kids', h', he, -⟩ := call_effect hk hc hr
    obtain ⟨k₁, hs, he₁⟩ := Option.map_eq_some_iff.1 hr
    cases he₁
    obtain ⟨x, -, hx⟩ := Option.bind_eq_some_iff.1 hs
    cases hx
    exact h'.states.running rfl

theorem sleep_discipline_wait : ∃ k : Kernel bumpSys, k.state 1 = .sleeping ∧ k.state 2 = .zombie ∧
    k.waitState 1 = wtChild ∧ k.waitState 2 = 0 := by
  obtain ⟨k, hk, hl, hl', hs, hz⟩ : ∃ k, (callMachine bumpSys).Reachable k ∧ 1 ∈ k.mem.1.2 ∧
      2 ∈ k.mem.1.2 ∧ k.state 1 = .sleeping ∧ k.state 2 = .zombie :=
    callRun_decide (c := [.schedule, .select, .resume, .fork 0, .fork 0, .wait 3 none, .select, .resume,
      .schedule, .select, .resume, .exit 7, .select, .resume]) (by decide +kernel)
  obtain ⟨hw, -⟩ := sleep_discipline hk
  exact ⟨k, hs, hz, (hw 1 hl).1.2 hs, (hw 2 hl').2 (by simp [hz])⟩

end

end UCore
