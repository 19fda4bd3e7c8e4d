import UCore.Process.LoadDrop
import UCore.Trap.SpaceRuns

namespace UCore
set_option autoImplicit true
open Function (update)

section
variable {S : MemSys} {k k' : Kernel S}

theorem exitMm_mm (h : k.exitMm = some k') : k'.mm = update k.mm k.current none ∧ k'.current = k.current := by
  unfold Kernel.exitMm at h
  cases hmm : k.mm k.current with
  | none =>
    rw [hmm] at h
    cases h
    rw [← hmm, Function.update_eq_self]
    exact ⟨rfl, rfl⟩
  | some x =>
    rw [hmm] at h
    obtain ⟨m, -, h⟩ := Option.bind_eq_some_iff.1 h
    cases h
    exact ⟨rfl, rfl⟩

theorem doExit_mm (h : k.doExit e = some k') : k'.mm = update k.mm k.current none := by
  obtain ⟨k₁, hm, -, -, -, hmm, -⟩ := doExit_view h
  exact hmm.trans (exitMm_mm hm).1

theorem waitRepeat_mm (h : k.waitRepeat via pid store = some (r, k')) : k'.mm = k.mm := by
  obtain ⟨scan, -, h⟩ := Option.bind_eq_some_iff.1 h
  cases scan with
  | noChild =>
    cases h
    rfl
  | sleep =>
    cases h
    rfl
  | found p =>
    obtain ⟨k₁, hr, h⟩ := Option.bind_eq_some_iff.1 h
    cases h
    unfold Kernel.reap at hr
    split at hr
    · cases hr
    · obtain ⟨k₂, hs, hr⟩ := Option.bind_eq_some_iff.1 hr
      obtain ⟨k₃, hl, hr⟩ := Option.bind_eq_some_iff.1 hr
      obtain ⟨k₄, hk, hr⟩ := Option.bind_eq_some_iff.1 hr
      cases hr
      obtain ⟨m, -, rfl⟩ := Option.map_eq_some_iff.1 hk
      refine (SameUse.removeLinks hl).mm.trans ?_
      split at hs
      · cases hs
        rfl
      · obtain ⟨m, -, rfl⟩ := Option.map_eq_some_iff.1 hs
        rfl

theorem doWait_mm (h : k.doWait via pid store = some (r, k')) : k'.mm = k.mm := by
  unfold Kernel.doWait at h
  split at h
  · exact waitRepeat_mm h
  · split at h
    · rename_i m hm
      obtain ⟨-, rfl⟩ := Prod.mk.inj (Option.some.inj h)
      rfl
    · rename_i a m hm
      have hmm : k'.mm = (k.setMem m).mm := waitRepeat_mm h
      exact hmm

/-- A process that has left its address space in `do_execve` gets another one or exits. -/
theorem doExecve_mm (h : k.doExecve name len binary size = some (r, k')) :
    (∀ q ≠ k.current, k'.mm q = k.mm q) ∧
    ((S.userMemCheck k.mem (k.mm k.current) name len false).1 = true →
      r = some 0 ∧ k'.current = k.current ∨ k'.mm k.current = none) ∧
    ((S.userMemCheck k.mem (k.mm k.current) name len false).1 = false → k'.mm = k.mm) := by
  unfold Kernel.doExecve Kernel.doExecveWith at h
  split at h
  · rename_i m hm
    cases h
    rw [hm]
    exact ⟨fun _ _ => rfl, nofun, fun _ => rfl⟩
  · rename_i m hm
    rw [hm]
    obtain ⟨m₁, -, h⟩ := Option.bind_eq_some_iff.1 h
    obtain ⟨k₁, he, h⟩ := Option.bind_eq_some_iff.1 h
    obtain ⟨⟨ret, new, m₂⟩, -, h⟩ := Option.bind_eq_some_iff.1 h
    obtain ⟨hmm, hcur⟩ : k₁.mm = update k.mm k.current none ∧ k₁.current = k.current := exitMm_mm (k := k.setMem m₁) he
    dsimp only at h
    split at h
    · obtain ⟨k₂, hx, h⟩ := Option.bind_eq_some_iff.1 h
      cases h
      have hmm₂ : k'.mm = update (k₁.setMem m₂).mm (k₁.setMem m₂).current none := doExit_mm hx
      change k'.mm = update k₁.mm k₁.current none at hmm₂
      rw [hmm, hcur] at hmm₂
      refine ⟨fun q hq => ?_, fun _ => .inr ?_, nofun⟩
      · rw [hmm₂, Function.update_of_ne hq, Function.update_of_ne hq]
      · rw [hmm₂]
        exact Function.update_self ..
    · split at h
      · cases h
        refine ⟨fun q hq => ?_, fun _ => .inl ⟨rfl, hcur⟩, nofun⟩
        exact (congrFun hmm q).trans (Function.update_of_ne hq ..)
      · cases h
        refine ⟨fun q hq => ?_, fun _ => .inl ⟨rfl, hcur⟩, nofun⟩
        refine (Function.update_of_ne ?_ ..).trans ((congrFun hmm q).trans (Function.update_of_ne hq ..))
        exact hcur ▸ hq

theorem doFork_mm (h : k.doFork fl entry = some (e, k')) : ∀ q, S.live k.mem q → k'.mm q = k.mm q := by
  unfold Kernel.doFork Kernel.doForkWith at h
  split at h
  · cases h
    exact fun _ _ => rfl
  · split at h
    · rename_i k₁ ha
      cases h
      unfold Kernel.allocProc at ha
      split at ha
      · cases ha
        exact fun _ _ => rfl
      · cases ha
    · rename_i p k₁ ha
      obtain ⟨hfresh, hmm₁⟩ : ¬ S.live k.mem p ∧ k₁.mm = update k.mm p none := by
        unfold Kernel.allocProc at ha
        split at ha
        · cases ha
        · rename_i q m hm
          cases ha
          exact ⟨S.kmallocProc_fresh hm, rfl⟩
      have hold (q : Nat) (hq : S.live k.mem q) : k₁.mm q = k.mm q ∧ q ≠ p := by
        have hne : q ≠ p := fun he => hfresh (he ▸ hq)
        rw [hmm₁, Function.update_of_ne hne]
        exact ⟨rfl, hne⟩
      have hstack (b : Bool) (k₂ : Kernel S)
          (hs : ({ k₁ with parent := update k₁.parent p (some k₁.current) } : Kernel S).setupKstack p = (b, k₂)) :
          k₂.mm = k₁.mm := by
        unfold Kernel.setupKstack at hs
        split at hs
        · cases hs
          rfl
        · cases hs
          rfl
      dsimp only at h
      split at h
      · rename_i k₂ hks
        obtain ⟨k₃, hpk, h⟩ := Option.bind_eq_some_iff.1 h
        cases h
        obtain ⟨m, -, rfl⟩ := Option.map_eq_some_iff.1 hpk
        intro q hq
        rw [← (hold q hq).1, ← hstack false k₂ hks]
        rfl
      · rename_i k₂ hks
        obtain ⟨⟨r, k₃⟩, hcm, h⟩ := Option.bind_eq_some_iff.1 h
        have hmm₃ (q : Nat) (hq : q ≠ p) : k₃.mm q = k₂.mm q := by
          unfold Kernel.copyMm at hcm
          split at hcm
          · cases hcm
          · cases hcm
            rfl
          · cases hcm
            exact Function.update_of_ne hq ..
        have hall (q : Nat) (hq : S.live k.mem q) : k₃.mm q = k.mm q := by
          rw [hmm₃ q (hold q hq).2, hstack true k₂ hks, (hold q hq).1]
        dsimp only at h
        split at h
        · cases h
          exact hall
        · obtain ⟨⟨pid, k₄⟩, hget, h⟩ := Option.bind_eq_some_iff.1 h
          obtain ⟨k₅, hset, h⟩ := Option.bind_eq_some_iff.1 h
          obtain ⟨k₆, hwake, h⟩ := Option.bind_eq_some_iff.1 h
          cases h
          have hmm : k'.mm = k₃.mm :=
            (SameUse.wakeupProc hwake).mm.trans ((SameUse.setLinks hset).mm.trans (SameUse.getPid hget).mm)
          rw [hmm]
          exact hall

end

section
variable {A : PhysSys} {bs : Nat} {k k' : Kernel (pagingSys A bs)} {ps xs : List Nat} {kids : Nat → List Nat}

/-- A call changes the address space of no process but the current one, which does not wait then. -/
theorem call_mm (h : KernelInv False k ps kids) (hc : k.callable c) (hr : k.call c = some (r, k'))
    (hq : q ∈ k.idleproc :: ps) : (k.leaves c → q ≠ k.current) ∧ k'.mm q = k.mm q ∨ q = k.current ∧
      (k'.mm q = none ∨ ∀ via pid store, k'.ctl q ≠ .waiting via pid store) := by
  have hleft (hmm : k'.mm = update k.mm k.current none) : (k.leaves c → q ≠ k.current) ∧ k'.mm q = k.mm q ∨
      q = k.current ∧ (k'.mm q = none ∨ ∀ via pid store, k'.ctl q ≠ .waiting via pid store) := by
    rw [hmm]
    by_cases hqc : q = k.current
    · exact .inr ⟨hqc, .inl (hqc ▸ Function.update_self ..)⟩
    · exact .inl ⟨fun _ => hqc, Function.update_of_ne hqc ..⟩
  cases c with
  | fork fl =>
    obtain ⟨⟨e, k₁⟩, hf, he⟩ := Option.map_eq_some_iff.1 hr
    rw [Kernel.doForkWith_wakeupProc] at hf
    cases he
    exact .inl ⟨False.elim, doFork_mm hf q ((h.live q).2 hq)⟩
  | exit e =>
    obtain ⟨k₁, hx, he⟩ := Option.map_eq_some_iff.1 hr
    rw [Kernel.doExitWith_wakeupProc] at hx
    cases he
    exact hleft (doExit_mm hx)
  | wait pid store => exact .inl ⟨False.elim, congrFun (doWait_mm hr) q⟩
  | execve name len binary size =>
    obtain ⟨⟨e, k₁⟩, hx, he⟩ := Option.map_eq_some_iff.1 hr
    rw [Kernel.doExecveWith_wakeupProc] at hx
    obtain ⟨hother, htrue, hfalse⟩ := doExecve_mm hx
    have hmm : k'.mm = k₁.mm := by
      obtain ⟨-, rfl⟩ := Prod.mk.inj he
      split <;> rfl
    rw [hmm]
    by_cases hqc : q = k.current
    · cases hb : ((pagingSys A bs).userMemCheck k.mem (k.mm k.current) name len false).1 with
      | false => exact .inl ⟨fun hl => absurd (hl.symm.trans hb) Bool.noConfusion, congrFun (hfalse hb) q⟩
      | true =>
        refine .inr ⟨hqc, ?_⟩
        rcases htrue hb with ⟨rfl, hcur⟩ | hno
        · obtain ⟨-, rfl⟩ := Prod.mk.inj he
          refine .inr fun via pid store hw => ?_
          have hu : update k₁.ctl k₁.current .user q = .waiting via pid store := hw
          rw [hcur, hqc, Function.update_self] at hu
          cases hu
        · exact .inl (hqc ▸ hno)
    · exact .inl ⟨fun _ => hqc, hother q hqc⟩
  | kill pid =>
    obtain ⟨⟨e, k₁⟩, hk, he⟩ := Option.map_eq_some_iff.1 hr
    rw [Kernel.doKillWith_wakeupProc] at hk
    cases he
    exact .inl ⟨False.elim, congrFun (SameUse.doKill hk).mm q⟩
  | yield =>
    cases hr
    exact .inl ⟨False.elim, rfl⟩
  | fault cause addr =>
    obtain ⟨⟨e, m⟩, -, hr⟩ := Option.bind_eq_some_iff.1 hr
    dsimp only at hr
    split at hr
    · cases hr
    · cases hr
      exact .inl ⟨False.elim, rfl⟩
  | tick fire =>
    cases hr
    cases fire <;> exact .inl ⟨False.elim, rfl⟩
  | schedule =>
    cases hr
    exact .inl ⟨False.elim, rfl⟩
  | select =>
    obtain ⟨k₁, hs, he⟩ := Option.map_eq_some_iff.1 hr
    cases he
    obtain ⟨x, -, hs⟩ := Option.bind_eq_some_iff.1 hs
    cases hs
    exact .inl ⟨False.elim, rfl⟩
  | resume =>
    have hback (v : Via) (k₁ : Kernel (pagingSys A bs)) : (k₁.goBack v).mm = k₁.mm := by cases v <;> rfl
    have hno (hn : ∀ via pid store, k.ctl k.current ≠ .waiting via pid store) : k.leaves .resume → q ≠ k.current := by
      rintro ⟨⟨via, pid, store, hw⟩, -⟩
      exact absurd hw (hn via pid store)
    unfold Kernel.call Kernel.callWith Kernel.resumeWith at hr
    dsimp only at hr
    split at hr
    · rename_i via hctl
      cases hr
      exact .inl ⟨hno (by simp [hctl]), congrFun (hback _ k) q⟩
    · rename_i hctl
      cases hr
      exact .inl ⟨hno (by simp [hctl]), congrFun (hback .ecall k) q⟩
    · rename_i hctl
      cases hr
      exact .inl ⟨hno (by simp [hctl]), congrFun (hback .kernel k) q⟩
    · split at hr
      · obtain ⟨k₁, hx, he⟩ := Option.map_eq_some_iff.1 hr
        rw [Kernel.doExitWith_wakeupProc] at hx
        cases he
        exact hleft (doExit_mm hx)
      · rename_i hfl
        obtain ⟨⟨e, k₁⟩, hw, he⟩ := Option.map_eq_some_iff.1 hr
        cases he
        cases e with
        | none => exact .inl ⟨fun hl => absurd hl.2 hfl, congrFun (waitRepeat_mm hw) q⟩
        | some e => exact .inl ⟨fun hl => absurd hl.2 hfl, congrFun ((hback _ k₁).trans (waitRepeat_mm hw)) q⟩
    · cases hr

/-- A process that goes on to wait has waited before. -/
theorem waitArgs_resume (h : k.waitArgs .resume = some (pid, store)) :
    ∃ via, k.ctl k.current = .waiting via pid store := by
  unfold Kernel.waitArgs at h
  dsimp only at h
  split at h
  · rename_i via pid' store' hw
    split at h
    · cases h
      exact ⟨via, hw⟩
    · cases h
  · cases h

/-- A process that waits after a call was there before it, and has kept its place unless it is the current one. -/
theorem call_waiting (h : KernelInv False k ps kids) (hc : k.callable c) (hr : k.call c = some (r, k'))
    (hq : q ∈ k'.procs) (hw : k'.ctl q = .waiting via pid store) : q ∈ k.idleproc :: ps ∧
      (Kept k k' c q ∨ q = k.current ∧ k.leaves c) := by
  obtain ⟨xs, kids', h', he, hid, -⟩ := call_effect h hc hr
  have hq := h'.mem_procs.1 hq
  rw [hid] at hq
  cases he with
  | kept all => exact ⟨hq, .inl (all q hq)⟩
  | @forked fl p hcall fresh all =>
    by_cases hqp : q = p
    · subst hcall hqp
      obtain ⟨⟨e, k₁⟩, hf, he⟩ := Option.map_eq_some_iff.1 hr
      rw [Kernel.doForkWith_wakeupProc] at hf
      cases he
      rcases doFork_spec h.toProcInv hc.1 hf with ⟨-, -, hlive⟩ | ⟨p, -, -, hp⟩
      · exact absurd ((h.live q).1 ((hlive q).1 ((h'.live q).2 (by simp)))) fresh
      · obtain rfl : q = p := (List.cons.inj (hp.inv.table.unique h'.table.list)).1
        exact absurd (hp.entered.symm.trans hw) nofun
    · have hmem : q ∈ k.idleproc :: ps := by
        simp only [List.mem_cons] at hq ⊢
        exact hq.imp_right fun hm => hm.resolve_left hqp
      exact ⟨hmem, .inl (all q hmem)⟩
  | exited enters _ others =>
    refine ⟨hq, ?_⟩
    by_cases hqc : q = k.current
    · refine .inr ⟨hqc, ?_⟩
      cases enters with
      | exit => trivial
      | killed hctl hfl => exact ⟨⟨_, _, _, hctl⟩, hfl⟩
      | execve hm => exact congrArg Prod.fst hm
    · exact .inl (others q hq hqc)
  | @reaped as z bs' pid' store' hs _ _ _ all =>
    have hmem : q ∈ k.idleproc :: ps := by
      rw [hs]
      simp only [List.mem_cons, List.mem_append] at hq ⊢
      tauto
    exact ⟨hmem, .inl (all q hmem)⟩
  | selected _ all => exact ⟨hq, .inl (.of_view (all q hq))⟩

/-- What `sys_exec` has done for a process that had no address space before and has one now. -/
theorem execve_loads {k k' : Kernel (pagingSys A bs)} (hmm : k.mm k.current = none)
    (hr : k.call (.execve name len binary size) = some (r, k')) (hx : k'.mm k.current = some x) :
    ∃ ld, k.kmem.mem.loadIcode none binary = some (0, some ld, k'.kmem.mem) ∧ ld.mm = x := by
  obtain ⟨⟨e, k₁⟩, hexec, he⟩ := Option.map_eq_some_iff.1 hr
  rw [Kernel.doExecveWith_wakeupProc] at hexec
  have hgoes : k₁.mm = k'.mm ∧ k₁.kmem = k'.kmem := by
    obtain ⟨-, rfl⟩ := Prod.mk.inj he
    split <;> exact ⟨rfl, rfl⟩
  rw [← hgoes.1] at hx
  rw [← hgoes.2]
  unfold Kernel.doExecve Kernel.doExecveWith at hexec
  rw [hmm] at hexec
  split at hexec
  · cases hexec
    exact absurd (hmm.symm.trans hx) nofun
  · rename_i m hm
    obtain ⟨m₁, hread, hexec⟩ := Option.bind_eq_some_iff.1 hexec
    obtain ⟨k₂, hexit, hexec⟩ := Option.bind_eq_some_iff.1 hexec
    obtain ⟨⟨ret, new, m₂⟩, hload, hexec⟩ := Option.bind_eq_some_iff.1 hexec
    have hk₂ : k₂ = k.setMem m₁ := by
      unfold Kernel.exitMm at hexit
      rw [show (k.setMem m₁).mm (k.setMem m₁).current = none from hmm] at hexit
      exact (Option.some.inj hexit).symm
    have hcheck : k.kmem.userMemCheck none name len false = (true, m) := hm
    have hmem : KMem.mem m₁ = k.kmem.mem :=
      (readBytes_kernel (withMem_eq hread).1).trans (userMemCheck_kernel hcheck)
    obtain ⟨⟨⟨ret', new'⟩, m₃⟩, hl, hpair⟩ := Option.map_eq_some_iff.1 hload
    obtain ⟨ld, hld, rfl, -⟩ := loadIcode_eq hl
    cases hpair
    dsimp only at hexec
    split at hexec
    · obtain ⟨k₃, hout, hexec⟩ := Option.bind_eq_some_iff.1 hexec
      cases hexec
      rw [doExit_mm hout, hk₂] at hx
      exact absurd ((Function.update_self ..).symm.trans hx) nofun
    · rename_i hret
      obtain rfl := not_not.1 hret
      split at hexec
      · cases hexec
        rw [hk₂] at hx
        exact absurd (hmm.symm.trans hx) nofun
      · rename_i mm cr3 hnew
        obtain ⟨ld, rfl, hpair⟩ := Option.map_eq_some_iff.1 hnew
        cases hpair
        cases hexec
        rw [hk₂] at hx hld
        refine ⟨ld, ?_, ?_⟩
        · rw [← hmem]
          exact hld
        · change update k.mm k.current (some ld.mm) k.current = some x at hx
          rw [Function.update_self] at hx
          exact Option.some.inj hx

end

end UCore
