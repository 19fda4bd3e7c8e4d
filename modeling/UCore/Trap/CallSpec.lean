import UCore.Process.View
import UCore.Trap.Call
import UCore.Trap.TrapSpec

namespace UCore
set_option autoImplicit true
open Function (update)

/-- The current process waits with these arguments in the call. -/
def Kernel.waitArgs {S : MemSys} (k : Kernel S) : Call → Option (Int × Option Nat)
  | .wait pid store => some (pid, store)
  | .resume =>
    match k.ctl k.current with
    | .waiting _ pid store => if k.flags k.current &&& pfExiting = 0 then some (pid, store) else none
    | _ => none
  | _ => none

/-- What a call keeps of a process that stays on `proc_list`. -/
structure Kept {S : MemSys} (k k' : Kernel S) (c : Call) (q : Nat) : Prop where
  pid : k'.pid q = k.pid q
  exitCode : k'.exitCode q = k.exitCode q
  zombie : k'.state q = .zombie ↔ k.state q = .zombie
  parent : k'.parent q = k.parent q ∨ k'.parent q = some k.initproc
  flags : k'.flags q = k.flags q ∨ c = .kill (k.pid q)
  ctl : k'.ctl q = k.ctl q ∨ q = k.current ∧ ∀ via pid store, k'.ctl q = .waiting via pid store →
    k.waitArgs c = some (pid, store)

/-- What a call does to the processes `ps` of `proc_list`, and which of them are left. -/
inductive Effect {S : MemSys} (k : Kernel S) (ps : List Nat) (c : Call) (r : Option Int) (k' : Kernel S) :
    List Nat → Prop where
  | kept (all : ∀ q ∈ k.idleproc :: ps, Kept k k' c q) (current : k'.current = k.current) :
      Effect k ps c r k' ps
  | forked (call : c = .fork fl) (fresh : p ∉ k.idleproc :: ps) (all : ∀ q ∈ k.idleproc :: ps, Kept k k' c q)
      (current : k'.current = k.current) (state : k'.state p = .runnable)
      (parent : k'.parent p = some k.current) : Effect k ps c r k' (p :: ps)
  | exited (enters : Enters k c k₁ e) (same : k₁.current = k.current)
      (others : ∀ q ∈ k.idleproc :: ps, q ≠ k.current → Kept k k' c q)
      (idle : k.current ≠ k.idleproc) (init : k.current ≠ k.initproc)
      (pid : k'.pid = k.pid) (flags : k'.flags = k.flags) (state : k'.state k.current = .zombie)
      (exitCode : k'.exitCode k.current = e) (parent : k'.parent k.current = k.parent k.current)
      (current : k'.current = k.current) (ret : r = none) : Effect k ps c r k' ps
  | reaped (split : ps = xs ++ z :: ys) (waits : k.waitArgs c = some (pid, store))
      (parent : k.parent z = some k.current) (state : k.state z = .zombie)
      (all : ∀ q ∈ k.idleproc :: ps, Kept k k' c q) (current : k'.current = k.current)
      (ret : r = some 0) : Effect k ps c r k' (xs ++ ys)
  | selected (call : c = .select) (all : ∀ q ∈ k.idleproc :: ps, k'.view q = k.view q)
      (state : k.state k'.current = .runnable) (mem : k'.current ∈ k.idleproc :: ps) :
      Effect k ps c r k' ps

section
variable {S : MemSys} {k k' k'' k₁ : Kernel S} {ps xs : List Nat} {kids : Nat → List Nat} {spared : Prop}

theorem Kept.of_view (h : k'.view q = k.view q) : Kept k k' c q where
  pid := congrArg ProcView.pid h
  exitCode := congrArg ProcView.exitCode h
  zombie := by rw [show k'.state q = k.state q from congrArg ProcView.state h]
  parent := .inl (congrArg ProcView.parent h)
  flags := .inl (congrArg ProcView.flags h)
  ctl := .inl (congrArg ProcView.ctl h)

theorem ProcTable.unique (h : ProcTable k ps) (h' : k.listLink.Ring .procList (xs.map .listLink)) :
    xs = ps :=
  List.map_injective_iff.2 (fun _ _ => ProcEntry.listLink.inj) (h'.unique h.list)

theorem ProcTable.listed_iff (h : ProcTable k ps) : k.listed p ↔ p ∈ ps := by
  constructor
  · rintro ⟨xs, hr, hp⟩
    rwa [h.unique hr] at hp
  · exact fun hp => ⟨ps, h.list, hp⟩

theorem exitMm_eq (h : k.exitMm = some k') : ∃ m mm, k' = { k with mem := m, mm := mm } := by
  unfold Kernel.exitMm at h
  split at h
  · cases h
    exact ⟨k.mem, k.mm, rfl⟩
  · obtain ⟨m, -, h⟩ := Option.bind_eq_some_iff.1 h
    cases h
    exact ⟨m, _, rfl⟩

/-- `do_exit` as a step of the process table. -/
theorem doExit_effect (h : KernelInv spared k ps kids) (hrun : k.scheduling = false)
    (hx : k.doExit e = some k') :
    (∀ q ∈ k.idleproc :: ps, q ≠ k.current → Kept k k' c q) ∧ k.current ≠ k.idleproc ∧
      k.current ≠ k.initproc ∧ k'.pid = k.pid ∧ k'.flags = k.flags ∧
      k'.state k.current = .zombie ∧ k'.exitCode k.current = e ∧
      k'.parent k.current = k.parent k.current ∧ k'.current = k.current ∧
      k'.listLink = k.listLink ∧ k'.idleproc = k.idleproc ∧ k'.initproc = k.initproc := by
  obtain ⟨k₁, hm, hidle, hinit, he⟩ := doExit_spec h hrun hx
  obtain ⟨-, -, hpid, hfl, hec, -⟩ := doExit_view hx
  obtain ⟨m, mm, rfl⟩ := exitMm_eq hm
  have hcur := h.states.current
  have hinitm : k.initproc ∈ k.idleproc :: ps := List.mem_cons_of_mem _ h.init.1
  refine ⟨fun q hq hqc => ?_, hidle, hinit, hpid, hfl, (he.zombie hcur).2 (.inl rfl), ?_, ?_, he.current,
    he.listLink, he.idleproc, he.initproc⟩
  · constructor
    · rw [hpid]
    · rw [hec, Function.update_of_ne hqc]
    · exact (he.zombie hq).trans (or_iff_right hqc)
    · by_cases hk : q ∈ kids k.current
      · have hmem := he.family.mem_kids k.initproc (by rwa [he.idleproc]) q
        refine .inr (hmem.1 ?_).2
        rw [Function.update_self]
        exact List.mem_append_left _ (List.mem_reverse.2 hk)
      · exact .inl (he.parent q hk)
    · exact .inl (congrFun hfl q)
    · left
      rw [he.ctl, Function.update_of_ne hqc]
  · rw [hec, Function.update_self]
  · exact he.parent _ (h.tree.notMem_self hcur)

/-- `do_fork` as a step of the process table. -/
theorem doFork_effect (h : KernelInv spared k ps kids) (hrun : k.scheduling = false)
    (hf : k.doFork fl entry = some (e, k')) (h' : KernelInv spared k' xs kids') :
    Effect k ps (.fork fl) r k' xs ∧ k'.idleproc = k.idleproc ∧ k'.initproc = k.initproc := by
  have hold (q : Nat) (hq : q ∈ k.idleproc :: ps) : Kept k k' (.fork fl) q :=
    .of_view ((doFork_view hf q).1 ((h.live q).2 hq))
  cases doFork_spec h.toProcInv hrun hf with
  | inl hfail =>
    obtain ⟨-, hsame, -⟩ := hfail
    obtain rfl := h'.table.unique (hsame.listLink ▸ h.table.list)
    exact ⟨.kept hold hsame.current, hsame.idleproc, hsame.initproc⟩
  | inr hok =>
    obtain ⟨p, -, -, hfk⟩ := hok
    obtain rfl := h'.table.unique hfk.inv.table.list
    refine ⟨.forked rfl hfk.fresh hold hfk.current hfk.started ?_, hfk.idleproc, hfk.initproc⟩
    have hm := hfk.inv.tree.family.mem_kids k.current (by
      rw [hfk.idleproc]
      have hcur := h.states.current
      simp only [List.mem_cons] at hcur ⊢
      exact hcur.imp_right .inr) p
    rw [Function.update_self] at hm
    exact (hm.1 (List.mem_cons_self ..)).2

theorem Kept.setCtl (h : Kept k k' c q) (hc : k'.current = k.current)
    (hct : ∀ via pid store, ct ≠ .waiting via pid store) :
    Kept k (k'.setCtl k'.current ct) c q where
  pid := h.pid
  exitCode := h.exitCode
  zombie := h.zombie
  parent := h.parent
  flags := h.flags
  ctl := by
    by_cases hq : q = k.current
    · have hself : (k'.setCtl k'.current ct).ctl q = ct := by
        rw [hq, ← hc]
        exact Function.update_self ..
      exact .inr ⟨hq, fun via pid store he => absurd (hself.symm.trans he) (hct via pid store)⟩
    · have hold : (k'.setCtl k'.current ct).ctl q = k'.ctl q := Function.update_of_ne (hc ▸ hq) ..
      rw [hold]
      exact h.ctl

/-- `do_wait` as a step of the process table: it returns, or the process has gone to sleep. -/
theorem waitRepeat_effect (h : KernelInv False (k.setMem m) ps kids) (hrun : k.scheduling = false)
    (hidle : k.current ≠ k.idleproc) (hw : k.waitArgs c = some (pid, store))
    (hr : (k.setMem m).waitRepeat via pid store = some (r, k')) :
    ∃ xs kids', KernelInv False k' xs kids' ∧ Effect k ps c r k' xs ∧ k'.current = k.current ∧
      k'.idleproc = k.idleproc ∧ k'.initproc = k.initproc ∧ (r.isSome → k'.scheduling = false) := by
  obtain ⟨scan, hscan, hfound⟩ := waitScan_spec h.toProcInv pid
  unfold Kernel.waitRepeat at hr
  rw [hscan] at hr
  simp only [Option.bind_eq_bind, Option.bind_some] at hr
  cases scan with
  | noChild =>
    cases hr
    exact ⟨ps, kids, h, .kept (fun q _ => .of_view rfl) rfl, rfl, rfl, rfl, fun _ => hrun⟩
  | sleep =>
    cases hr
    refine ⟨ps, kids, asleep_inv h hrun hidle hfound False.elim, .kept (fun q hq => ?_) rfl, rfl, rfl,
      rfl, by simp⟩
    refine ⟨rfl, rfl, ?_, .inl rfl, .inl rfl, ?_⟩
    swap
    · by_cases hqc : q = k.current
      · refine .inr ⟨hqc, fun via' pid' store' he => ?_⟩
        rw [hqc] at he
        obtain ⟨-, rfl, rfl⟩ := Ctl.waiting.inj ((Function.update_self ..).symm.trans he)
        exact hw
      · exact .inl (Function.update_of_ne hqc ..)
    have hrunning : k.state k.current = .runnable := h.states.running hrun
    show update k.state k.current .sleeping q = .zombie ↔ k.state q = .zombie
    by_cases hqc : q = k.current
    · simp [hqc, hrunning]
    · rw [Function.update_of_ne hqc]
  | found p =>
    obtain ⟨hpk, -, hz⟩ := hfound
    obtain ⟨k₁, hreap, hr⟩ := Option.bind_eq_some_iff.1 hr
    cases hr
    obtain ⟨as, bs, hab⟩ := List.append_of_mem hpk
    have hpar := (h.tree.family.mem_kids _ h.states.current p).1 hpk
    obtain ⟨xs, ys, rfl⟩ := List.append_of_mem hpar.1
    obtain ⟨h', -⟩ := reap_inv h hrun hab hz hreap
    obtain ⟨m, d, y, o, rfl, -⟩ := reap_spec h.tree.family.forest h.states.current hab hpar.2 hreap
    exact ⟨xs ++ ys, _, h', .reaped rfl hw hpar.2 hz (fun q _ => .of_view rfl) rfl rfl, rfl, rfl, rfl,
      fun _ => hrun⟩

/-- `do_kill` as a step of the process table. -/
theorem doKill_effect (h : KernelInv False k ps kids) (hr : k.doKill pid = some (e, k')) :
    (∀ q ∈ k.idleproc :: ps, Kept k k' (.kill pid) q) ∧ k'.initproc = k.initproc := by
  obtain ⟨f, hf, hiff⟩ := h.table.findProc pid
  unfold Kernel.doKill Kernel.doKillWith at hr
  rw [hf] at hr
  simp only [Option.bind_eq_bind, Option.bind_some] at hr
  cases f with
  | none =>
    cases hr
    exact ⟨fun q _ => .of_view rfl, rfl⟩
  | some p =>
    obtain ⟨hp, hpid⟩ := (hiff p).1 rfl
    dsimp only at hr
    split at hr
    · obtain ⟨k₁, hw, hr⟩ := Option.bind_eq_some_iff.1 hr
      cases hr
      have hflags (q : Nat) : update k.flags p (k.flags p ||| pfExiting) q = k.flags q ∨
          Call.kill pid = .kill (k.pid q) := by
        by_cases hqp : q = p
        · rw [hqp, hpid]
          exact .inr rfl
        · exact .inl (Function.update_of_ne hqp ..)
      split at hw
      · rename_i hint
        have hs : k.state p = .sleeping := by
          by_contra hs
          rw [h.states.awake p (List.mem_cons_of_mem _ hp) hs] at hint
          exact hint (by decide)
        rw [wakeupProc_sleeping] at hw
        · cases hw
          refine ⟨fun q _ => ⟨rfl, rfl, ?_, .inl rfl, hflags q, .inl rfl⟩, rfl⟩
          show update k.state p .runnable q = .zombie ↔ k.state q = .zombie
          by_cases hqp : q = p
          · simp [hqp, hs]
          · rw [Function.update_of_ne hqp]
        · exact hs
      · cases hw
        exact ⟨fun q _ => ⟨rfl, rfl, Iff.rfl, .inl rfl, hflags q, .inl rfl⟩, rfl⟩
    · cases hr
      exact ⟨fun q _ => .of_view rfl, rfl⟩

/-- A call that leaves the links and what is recorded about the processes alone, where the current process
stands apart. -/
theorem Effect.quiet (h : KernelInv False k ps kids) (h' : KernelInv False k' xs kids')
    (hl : k'.listLink = k.listLink) (hk : ∀ q ∈ k.idleproc :: ps, Kept k k' c q)
    (hc : k'.current = k.current) : Effect k ps c r k' xs := by
  have hr : k'.listLink.Ring .procList (ps.map .listLink) := by
    rw [hl]
    exact h.table.list
  obtain rfl := h'.table.unique hr
  exact .kept hk hc

theorem doExit_call (h : KernelInv False k₁ ps kids) (hrun : k₁.scheduling = false)
    (hs : ∃ m mm, k₁ = { k with mem := m, mm := mm }) (he : Enters k c k₁ e)
    (hx : k₁.doExit e = some k') (h' : KernelInv False k' xs kids') :
    Effect k ps c none k' xs ∧ k'.idleproc = k.idleproc ∧ k'.initproc = k.initproc := by
  obtain ⟨m, mm, rfl⟩ := hs
  obtain ⟨hothers, hidle, hinit, hpid, hfl, hst, hec, hpar, hcur, hlink, hid, hin⟩ :=
    doExit_effect (c := c) h hrun hx
  obtain rfl := h'.table.unique (hlink ▸ h.table.list)
  refine ⟨.exited he rfl (fun q hq hqc => ?_) hidle hinit hpid hfl hst hec hpar hcur rfl, hid, hin⟩
  have hk := hothers q hq hqc
  exact ⟨hk.pid, hk.exitCode, hk.zombie, hk.parent, hk.flags, hk.ctl⟩

theorem Kept.other (k : Kernel S) (m : S.σ) (cr : Nat → Nat) (mm : Nat → Option Nat) (nr : Nat → Bool)
    (b : Bool) (c : Call) (ct : Ctl) (hct : ∀ via pid store, ct ≠ .waiting via pid store) (q : Nat) :
    Kept k { k with
      mem := m, cr3 := cr, mm := mm, needResched := nr, ctl := update k.ctl k.current ct, scheduling := b }
      c q := by
  refine ⟨rfl, rfl, Iff.rfl, .inl rfl, .inl rfl, ?_⟩
  by_cases hq : q = k.current
  · subst hq
    refine .inr ⟨rfl, fun via pid store he => absurd ?_ (hct via pid store)⟩
    exact (Function.update_self ..).symm.trans he
  · exact .inl (Function.update_of_ne hq ..)

theorem KernelInv.setCtl (h : KernelInv False k ps kids) (hrun : k.scheduling = false)
    (hidle : k.current ≠ k.idleproc) : KernelInv False (k.setCtl k.current ct) ps kids := by
  have hm := h.moveTo (c := ct) hrun (fun he => absurd he hidle) false
  rw [← hrun] at hm
  exact hm

theorem Effect.setCtl (h : Effect k ps c r k' xs) (hc : c ≠ .select)
    (hct : ∀ via pid store, ct ≠ .waiting via pid store) :
    Effect k ps c r (k'.setCtl k'.current ct) xs := by
  cases h with
  | kept all cur => exact .kept (fun q hq => (all q hq).setCtl cur hct) cur
  | forked hf fresh all cur st par =>
    exact .forked hf fresh (fun q hq => (all q hq).setCtl cur hct) cur st par
  | exited he same others idle init pid fl st ec par cur ret =>
    exact .exited he same (fun q hq hqc => (others q hq hqc).setCtl cur hct) idle init pid fl st ec par cur
      ret
  | reaped hs hw par st all cur ret =>
    exact .reaped hs hw par st (fun q hq => (all q hq).setCtl cur hct) cur ret
  | selected he => exact absurd he hc

theorem doExecve_effect (h : KernelInv False k ps kids) (hrun : k.scheduling = false)
    (hx : k.doExecve name len binary size = some (r, k₁)) (hh : Held False k₁)
    (ha : r = some 0 → Active False k₁) :
    ∃ xs kids', KernelInv False (if r = some 0 then k₁.setCtl k₁.current .user else k₁) xs kids' ∧
      Effect k ps (.execve name len binary size) r
        (if r = some 0 then k₁.setCtl k₁.current .user else k₁) xs ∧
      (if r = some 0 then k₁.setCtl k₁.current .user else k₁).idleproc = k.idleproc ∧
      (if r = some 0 then k₁.setCtl k₁.current .user else k₁).initproc = k.initproc := by
  have hdone (k₁ : Kernel S) (ha : Active False k₁) (hl : k₁.listLink = k.listLink)
      (hv : ∀ q ∈ k.idleproc :: ps, Kept k k₁ (.execve name len binary size) q)
      (hcur : k₁.current = k.current) (hid : k₁.idleproc = k.idleproc)
      (hin : k₁.initproc = k.initproc) :
      ∃ xs kids', KernelInv False (k₁.setCtl k₁.current .user) xs kids' ∧
        Effect k ps (.execve name len binary size) (some 0) (k₁.setCtl k₁.current .user) xs ∧
        (k₁.setCtl k₁.current .user).idleproc = k.idleproc ∧
        (k₁.setCtl k₁.current .user).initproc = k.initproc := by
    obtain ⟨hrun₁, hidle₁, xs, kids', h'⟩ := ha
    exact ⟨xs, kids', h'.setCtl hrun₁ hidle₁, (Effect.quiet h h' hl hv hcur).setCtl (by simp) (by simp), hid, hin⟩
  unfold Kernel.doExecve Kernel.doExecveWith at hx
  split at hx
  · cases hx
    obtain ⟨xs, kids', h'⟩ := hh
    exact ⟨xs, kids', h', .quiet h h' rfl (fun q _ => .of_view rfl) rfl, rfl, rfl⟩
  · rename_i m hm
    obtain ⟨m₁, hm₁, hx⟩ := Option.bind_eq_some_iff.1 hx
    obtain ⟨k₂, he, hx⟩ := Option.bind_eq_some_iff.1 hx
    obtain ⟨⟨e, new, m₂⟩, hl, hx⟩ := Option.bind_eq_some_iff.1 hx
    have hk₂ := exitMm_eq he
    dsimp only at hx
    split at hx
    · rename_i hne
      obtain ⟨k₃, hex, hx⟩ := Option.bind_eq_some_iff.1 hx
      cases hx
      obtain ⟨xs, kids', h'⟩ := hh
      have h₂ : KernelInv False (k₂.setMem m₂) ps kids := by
        obtain ⟨hsame, hlive⟩ := exitMm_spec (k.idleproc :: ps) he
        have hm' := (S.readUser_live hm₁).trans (S.userMemCheck_live hm)
        exact ((h.setMem hm').congr hsame hlive).setMem (S.loadIcode_live hl)
      obtain ⟨m₃, mm₃, rfl⟩ := hk₂
      exact ⟨xs, kids', h', doExit_call h₂ hrun ⟨m₂, mm₃, rfl⟩ (.execve hm hm₁ he hl hne) hex h'⟩
    · obtain ⟨m₃, mm₃, rfl⟩ := hk₂
      split at hx
      · cases hx
        exact hdone _ (ha rfl) rfl (fun q _ => ⟨rfl, rfl, Iff.rfl, .inl rfl, .inl rfl, .inl rfl⟩) rfl rfl rfl
      · cases hx
        exact hdone _ (ha rfl) rfl (fun q _ => ⟨rfl, rfl, Iff.rfl, .inl rfl, .inl rfl, .inl rfl⟩) rfl rfl rfl

/-- A call with what it may do to the process table. -/
theorem call_effect (h : KernelInv False k ps kids) (hc : k.callable c) (hr : k.call c = some (r, k')) :
    ∃ xs kids', KernelInv False k' xs kids' ∧ Effect k ps c r k' xs ∧ k'.idleproc = k.idleproc ∧
      k'.initproc = k.initproc := by
  have hheld : Held False k := ⟨ps, kids, h⟩
  cases c with
  | fork fl =>
    have ha := hheld.active hc.1 (by rcases hc.2 with hc | hc <;> simp [hc])
    obtain ⟨⟨e, k₁⟩, hf, he⟩ := Option.map_eq_some_iff.1 hr
    rw [Kernel.doForkWith_wakeupProc] at hf
    cases he
    obtain ⟨xs, kids', h'⟩ := (ha.fork hf).held
    exact ⟨xs, kids', h', doFork_effect h hc.1 hf h'⟩
  | exit e =>
    have ha := hheld.active hc.1 (by rcases hc.2 with hc | hc <;> simp [hc])
    obtain ⟨k₁, hx, he⟩ := Option.map_eq_some_iff.1 hr
    rw [Kernel.doExitWith_wakeupProc] at hx
    cases he
    obtain ⟨xs, kids', h'⟩ := ha.exit hx
    exact ⟨xs, kids', h', doExit_call h hc.1 ⟨k.mem, k.mm, rfl⟩ .exit hx h'⟩
  | wait pid store =>
    have ha := hheld.active hc.1 (by rcases hc.2 with hc | hc <;> simp [hc])
    unfold Kernel.call Kernel.callWith Kernel.doWait at hr
    dsimp only at hr
    split at hr
    · obtain ⟨xs, kids', h', he, -, hid, hin, -⟩ :=
        waitRepeat_effect (m := k.mem) (c := .wait pid _) h hc.1 ha.2.1 rfl hr
      exact ⟨xs, kids', h', he, hid, hin⟩
    · split at hr
      · rename_i m hm
        cases hr
        exact ⟨ps, kids, h.setMem (S.userMemCheck_live hm), .kept (fun q _ => .of_view rfl) rfl, rfl, rfl⟩
      · rename_i a m hm
        obtain ⟨xs, kids', h', he, -, hid, hin, -⟩ :=
          waitRepeat_effect (c := .wait pid _) (h.setMem (S.userMemCheck_live hm)) hc.1 ha.2.1 rfl hr
        exact ⟨xs, kids', h', he, hid, hin⟩
  | execve name len binary size =>
    have ha := hheld.active hc.1 (by rcases hc.2 with hc | hc <;> simp [hc])
    obtain ⟨⟨e, k₁⟩, hx, he⟩ := Option.map_eq_some_iff.1 hr
    rw [Kernel.doExecveWith_wakeupProc] at hx
    cases he
    obtain ⟨hh, hact⟩ := ha.execve hx
    exact doExecve_effect h hc.1 hx hh fun he => hact (by simp [he])
  | kill pid =>
    obtain ⟨⟨e, k₁⟩, hk, he⟩ := Option.map_eq_some_iff.1 hr
    rw [Kernel.doKillWith_wakeupProc] at hk
    cases he
    obtain ⟨h', hcur, hid, -⟩ := doKill_spec h hk
    obtain ⟨hkept, hin⟩ := doKill_effect h hk
    exact ⟨ps, kids, h', .kept hkept hcur, hid, hin⟩
  | yield =>
    cases hr
    obtain ⟨xs, kids', h'⟩ := hheld.yield
    exact ⟨xs, kids', h', .quiet h h' rfl (fun q _ => .of_view rfl) rfl, rfl, rfl⟩
  | fault cause addr =>
    obtain ⟨⟨e, m⟩, hm, hr⟩ := Option.bind_eq_some_iff.1 hr
    dsimp only at hr
    split at hr
    · cases hr
    · cases hr
      exact ⟨ps, kids, h.setMem (S.doPgfault_live hm), .kept (fun q _ => .of_view rfl) rfl, rfl, rfl⟩
  | tick fire =>
    cases hr
    cases fire with
    | false => exact ⟨ps, kids, h, .kept (fun q _ => .of_view rfl) rfl, rfl, rfl⟩
    | true =>
      obtain ⟨xs, kids', h'⟩ := hheld.yield
      exact ⟨xs, kids', h', .quiet h h' rfl (fun q _ => .of_view rfl) rfl, rfl, rfl⟩
  | schedule =>
    cases hr
    refine ⟨ps, kids, h.moveTo hc.1 (fun hid => ?_) true, .kept (fun q _ => ?_) rfl, rfl, rfl⟩
    · have hctl := h.states.idle.2.1
      rw [← hid] at hctl
      rw [hctl]
    · apply Kept.other k k.mem k.cr3 k.mm k.needResched true _ _ _ q
      have hctl := hc.2
      simp only [List.mem_cons, List.not_mem_nil, or_false] at hctl
      rcases hctl with hctl | hctl | hctl <;> simp [hctl]
  | select =>
    obtain ⟨k₁, hs, he⟩ := Option.map_eq_some_iff.1 hr
    cases he
    obtain ⟨k₂, hs₂, h', hsch⟩ := schedule_spec h
    obtain rfl := Option.some.inj (hs.symm.trans hs₂)
    obtain ⟨x, -, hx⟩ := Option.bind_eq_some_iff.1 hs
    cases hx
    exact ⟨ps, kids, h', .selected rfl (fun q _ => rfl) (h'.states.running rfl) h'.states.current, rfl, rfl⟩
  | resume =>
    have ha := hheld.active hc.1 fun hctl => hc.2 (by simp [hctl])
    have hback (v : Via) (k₁ : Kernel S) (hk : k₁ = k.goBack v) : ∃ xs kids', KernelInv False k₁ xs kids' ∧
        Effect k ps .resume none k₁ xs ∧ k₁.idleproc = k.idleproc ∧ k₁.initproc = k.initproc := by
      have hkept : Effect k ps .resume none k ps := .kept (fun q _ => .of_view rfl) rfl
      cases v <;> exact ⟨ps, kids, hk ▸ h.setCtl hc.1 ha.2.1, hk ▸ hkept.setCtl (by simp) (by simp), hk ▸ rfl, hk ▸ rfl⟩
    unfold Kernel.call Kernel.callWith Kernel.resumeWith at hr
    dsimp only at hr
    split at hr
    · cases hr
      exact hback _ _ rfl
    · cases hr
      exact hback _ _ rfl
    · cases hr
      exact hback _ _ rfl
    · rename_i via pid store hctl
      split at hr
      · rename_i hfl
        obtain ⟨k₁, hx, he⟩ := Option.map_eq_some_iff.1 hr
        rw [Kernel.doExitWith_wakeupProc] at hx
        cases he
        obtain ⟨xs, kids', h'⟩ := ha.exit hx
        exact ⟨xs, kids', h', doExit_call h hc.1 ⟨k.mem, k.mm, rfl⟩ (.killed hctl hfl) hx h'⟩
      · rename_i hfl
        obtain ⟨⟨e, k₁⟩, hw, he⟩ := Option.map_eq_some_iff.1 hr
        have hargs : k.waitArgs .resume = some (pid, store) := by
          simp [Kernel.waitArgs, hctl, not_not.1 hfl]
        obtain ⟨xs, kids', h', heff, hcur, hid, hin, hsch⟩ :=
          waitRepeat_effect (m := k.mem) h hc.1 ha.2.1 hargs hw
        cases e with
        | none =>
          cases he
          exact ⟨xs, kids', h', heff, hid, hin⟩
        | some e =>
          cases he
          have hidle : k₁.current ≠ k₁.idleproc := by
            rw [hcur, hid]
            exact ha.2.1
          cases via <;> exact ⟨xs, kids', h'.setCtl (hsch rfl) hidle, heff.setCtl (by simp) (by simp), hid, hin⟩
    · cases hr

theorem call_inv (h : (callMachine S).Reachable k) : Held False k := by
  apply h.invariant (Held False)
  · exact fun _ hi => init_inv hi
  · intro k c k' ⟨ps, kids, h⟩ hc hn
    obtain ⟨⟨r, k₁⟩, hr, rfl⟩ := Option.map_eq_some_iff.1 hn
    obtain ⟨xs, kids', h', -⟩ := call_effect h hc hr
    exact ⟨xs, kids', h'⟩

end

end UCore
