import UCore.Process.Wait

namespace UCore
set_option autoImplicit true
open Function (update)

section
variable {S : MemSys} {k k' : Kernel S} {ps : List Nat} {kids : Nat → List Nat} {spared : Prop}

theorem ProcStates.woken (h : ProcStates spared k ps)
    (hw : Woken k.state k.waitState k'.state k'.waitState (k.idleproc :: ps))
    (hspare : spared → ∀ p ∈ ps, k'.state p = .sleeping → k'.flags p &&& pfExiting = 0)
    (ectl : k'.ctl = k.ctl) (eparent : k'.parent = k.parent) (eidle : k'.idleproc = k.idleproc)
    (ecur : k'.current = k.current) (esched : k'.scheduling = k.scheduling) :
    ProcStates spared k' ps := by
  have hrunnable (p : Nat) (hp : p ∈ k.idleproc :: ps) (hs : k.state p = .runnable) :
      k'.state p = .runnable := by
    cases hw p hp with
    | inl hsame => rw [hsame.1, hs]
    | inr hwoken => exact hwoken.2.1
  constructor
  · intro p hp hs
    obtain ⟨hsk, hwk⟩ := hw.sleeping (List.mem_cons_of_mem _ hp) hs
    rw [hwk, ectl]
    exact h.asleep p hp hsk
  · rw [eidle]
    intro p hp hs
    cases hw p hp with
    | inl hsame =>
      rw [hsame.1] at hs
      rw [hsame.2]
      exact h.awake p hp hs
    | inr hwoken => exact hwoken.2.2
  · exact hspare
  · intro p hp
    cases hw p (List.mem_cons_of_mem _ hp) with
    | inl hsame =>
      rw [hsame.1]
      exact h.ready p hp
    | inr hwoken => simp [hwoken.2.1]
  · rw [eidle, ectl, eparent, hrunnable _ (List.mem_cons_self ..) h.idle.1]
    exact ⟨rfl, h.idle.2⟩
  · rw [ecur, eidle]
    exact h.current
  · rw [esched, ecur]
    exact fun hs => hrunnable _ h.current (h.running hs)

theorem ProcWaits.woken (h : ProcWaits k ps kids) (ht : ProcTree k ps kids)
    (hw : Woken k.state k.waitState k'.state k'.waitState (k.idleproc :: ps))
    (ectl : k'.ctl = k.ctl) (epid : k'.pid = k.pid) : ProcWaits k' ps kids := by
  constructor
  intro p hp hs via pid store hctl
  have hpm := List.mem_cons_of_mem k.idleproc hp
  rw [ectl] at hctl
  obtain ⟨hex, hall⟩ := h.child p hp (hw.sleeping hpm hs).1 via pid store hctl
  rw [epid]
  refine ⟨hex, fun c hc hcp => ?_⟩
  rw [ne_eq, hw.zombie (ht.family.kid_mem hpm hc)]
  exact hall c hc hcp

/-- `do_kill` marks the process `p` and leaves it awake. -/
theorem kill_inv (h : KernelInv spared k ps kids) (hp : p ∈ ps)
    (hw : Woken k.state k.waitState st ws (k.idleproc :: ps)) (hawake : st p ≠ .sleeping) :
    KernelInv spared { k with
      flags := update k.flags p (k.flags p ||| pfExiting), state := st, waitState := ws } ps kids := by
  have hz := (hw.zombie (List.mem_cons_of_mem k.idleproc h.init.1)).not.2 h.init.2.1
  refine ⟨⟨{ h.table with }, ?_, ?_, ?_, h.live⟩, h.init.1, hz, h.init.2.2⟩
  · exact h.tree.sameLinks rfl rfl rfl rfl rfl fun p hp => hw.zombie hp
  · refine h.states.woken hw ?_ rfl rfl rfl rfl rfl
    intro hsp q hq hs
    have hqp : q ≠ p := by
      rintro rfl
      exact hawake hs
    show update k.flags p (k.flags p ||| pfExiting) q &&& pfExiting = 0
    rw [Function.update_of_ne hqp]
    exact h.states.spare hsp q hq (hw.sleeping (List.mem_cons_of_mem _ hq) hs).1
  · exact h.waits.woken h.tree hw rfl rfl

theorem doKill_spec (h : KernelInv spared k ps kids) (hr : k.doKill pid = some (r, k')) :
    KernelInv spared k' ps kids ∧ k'.current = k.current ∧ k'.idleproc = k.idleproc ∧
      k'.scheduling = k.scheduling := by
  obtain ⟨f, hf, hiff⟩ := h.table.findProc pid
  unfold Kernel.doKill Kernel.doKillWith at hr
  rw [hf] at hr
  simp only [Option.bind_eq_bind, Option.bind_some] at hr
  cases f with
  | none =>
    cases hr
    exact ⟨h, rfl, rfl, rfl⟩
  | some p =>
    have hp := ((hiff p).1 rfl).1
    have hpm := List.mem_cons_of_mem k.idleproc hp
    dsimp only at hr
    split at hr
    · obtain ⟨k₁, hw, hr⟩ := Option.bind_eq_some_iff.1 hr
      cases hr
      split at hw
      · rename_i hint
        have hs : k.state p = .sleeping := by
          by_contra hs
          rw [h.states.awake p hpm hs] at hint
          exact hint (by decide)
        rw [wakeupProc_sleeping] at hw
        · cases hw
          exact ⟨kill_inv h hp (.update hs) (by simp), rfl, rfl, rfl⟩
        · exact hs
      · rename_i hint
        have hs : k.state p ≠ .sleeping := by
          intro hs
          rw [(h.states.asleep p hp hs).1] at hint
          exact hint (by decide)
        cases hw
        exact ⟨kill_inv h hp (.refl _ _ _) hs, rfl, rfl, rfl⟩
    · cases hr
      exact ⟨h, rfl, rfl, rfl⟩

theorem scheduleScan_path {es : List ProcEntry} {last le : ProcEntry} {next : Option Nat}
    (hp : k.listLink.Path le es last) (hlast : last ∉ es)
    (hes : ∀ p, .listLink p ∈ last :: es → p ∈ ps) (hnext : ∀ p, next = some p → p ∈ ps)
    (hf : es.length < fuel) :
    ∃ r, k.scheduleScan last le next fuel = some r ∧ ∀ p, r = some p → p ∈ ps := by
  induction es generalizing le next fuel with
  | nil =>
    obtain ⟨fuel, rfl⟩ := Nat.exists_eq_add_one.2 hf
    have hn : listNext k.listLink le = last := hp.next_eq
    cases last with
    | procList => exact ⟨next, by simp [Kernel.scheduleScan, hn], hnext⟩
    | listLink c =>
      refine ⟨some c, by simp [Kernel.scheduleScan, hn], fun p hp => ?_⟩
      obtain rfl := Option.some.inj hp
      exact hes c (List.mem_cons_self ..)
  | cons e es ih =>
    obtain ⟨fuel, rfl⟩ := Nat.exists_eq_add_one.2 (Nat.zero_lt_of_lt hf)
    have hn : listNext k.listLink le = e := hp.next_eq
    rw [List.mem_cons, not_or] at hlast
    have hes' (p : Nat) (hm : .listLink p ∈ last :: es) : p ∈ ps := by
      apply hes
      cases hm with
      | head => exact List.mem_cons_self ..
      | tail _ hm => exact List.mem_cons_of_mem _ (List.mem_cons_of_mem _ hm)
    have hf' : es.length < fuel := Nat.lt_of_succ_lt_succ hf
    cases e with
    | procList =>
      obtain ⟨r, hr, hspec⟩ := ih hp.2 hlast.2 hes' hnext hf'
      exact ⟨r, by simp [Kernel.scheduleScan, hn, Ne.symm hlast.1, hr], hspec⟩
    | listLink c =>
      have hc : c ∈ ps := hes c (by simp)
      have hsome (p : Nat) (hp : some c = some p) : p ∈ ps := Option.some.inj hp ▸ hc
      by_cases hrun : k.state c = .runnable
      · exact ⟨some c, by simp [Kernel.scheduleScan, hn, hrun], hsome⟩
      · obtain ⟨r, hr, hspec⟩ := ih hp.2 hlast.2 hes' hsome hf'
        exact ⟨r, by simp [Kernel.scheduleScan, hn, hrun, Ne.symm hlast.1, hr], hspec⟩

theorem scheduleScan_spec (h : KernelInv spared k ps kids) :
    ∃ r, k.scheduleScan (if k.current = k.idleproc then .procList else .listLink k.current)
        (if k.current = k.idleproc then .procList else .listLink k.current) none (maxProcess + 1) =
          some r ∧ ∀ p, r = some p → p ∈ ps := by
  have hlen := h.table.length_lt
  by_cases hc : k.current = k.idleproc
  · rw [if_pos hc]
    refine scheduleScan_path h.table.list.path h.table.list.head_notMem (fun p hp => ?_) (by simp) ?_
    · simpa using hp
    · rw [List.length_map]
      omega
  · rw [if_neg hc]
    have hcur : k.current ∈ ps := (List.mem_cons.1 h.states.current).resolve_left hc
    obtain ⟨xs, ys, hps⟩ := List.append_of_mem hcur
    have hl := h.table.list
    rw [hps, List.map_append, List.map_cons] at hl
    have hrot := hl.rotate
    refine scheduleScan_path hrot.path hrot.head_notMem (fun p hp => ?_) (by simp) ?_
    · rw [hps]
      simp only [List.mem_cons, List.mem_append, List.mem_map, ProcEntry.listLink.injEq,
        exists_eq_right, reduceCtorEq, false_or] at hp ⊢
      tauto
    · have := congrArg List.length hps
      simp only [List.length_append, List.length_cons, List.length_map] at this ⊢
      omega

/-- `proc_run` of the runnable process `n`. -/
theorem run_inv (h : KernelInv spared k ps kids) (hn : n ∈ k.idleproc :: ps)
    (hs : k.state n = .runnable) :
    KernelInv spared { k with
      needResched := update k.needResched k.current false
      runs := update k.runs n (k.runs n + 1), current := n, scheduling := false } ps kids := by
  refine ⟨⟨{ h.table with }, ?_, ?_, ⟨h.waits.child⟩, h.live⟩, h.init⟩
  · exact h.tree.sameLinks rfl rfl rfl rfl rfl fun _ _ => Iff.rfl
  · exact { h.states with current := hn, running := fun _ => hs }

/-- `schedule` returns, and picks a runnable process. -/
theorem schedule_spec (h : KernelInv spared k ps kids) :
    ∃ k', k.schedule = some k' ∧ KernelInv spared k' ps kids ∧ k'.scheduling = false := by
  have h₁ := h.other k.mem k.kstack k.cr3 k.mm (update k.needResched k.current false) k.runs k.exitCode rfl
  have hidle := run_inv h (List.mem_cons_self ..) h.states.idle.1
  obtain ⟨r, hr, hps⟩ := scheduleScan_spec h₁
  cases r with
  | none => exact ⟨_, Option.bind_eq_some_iff.2 ⟨none, hr, rfl⟩, hidle, rfl⟩
  | some p =>
    by_cases hp : k.state p = .runnable
    · refine ⟨_, Option.bind_eq_some_iff.2 ⟨some p, hr, rfl⟩, ?_, rfl⟩
      simp only [if_pos hp]
      exact run_inv h (List.mem_cons_of_mem _ (hps p rfl)) hp
    · refine ⟨_, Option.bind_eq_some_iff.2 ⟨some p, hr, rfl⟩, ?_, rfl⟩
      simp only [if_neg hp]
      exact hidle

end

end UCore
