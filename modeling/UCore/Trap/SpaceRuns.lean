import UCore.Process.LoadComplete
import UCore.Process.SpaceSteps
import UCore.Trap.CallSpec

namespace UCore
set_option autoImplicit true
open Function (update)

theorem SameUse.doKill {S : MemSys} {k k' : Kernel S} (h : k.doKill pid = some (e, k')) : SameUse k k' := by
  obtain ⟨f, -, h⟩ := Option.bind_eq_some_iff.1 h
  cases f with
  | none =>
    cases h
    exact .refl k
  | some p =>
    dsimp only at h
    split at h
    · obtain ⟨k₁, hw, h⟩ := Option.bind_eq_some_iff.1 h
      cases h
      have hf : SameUse k { k with flags := update k.flags p (k.flags p ||| pfExiting) } :=
        ⟨rfl, rfl, rfl, fun _ => Iff.rfl, rfl⟩
      exact hf.trans (.wake _ hw)
    · cases h
      exact .refl k

section
variable {A : PhysSys} {bs : Nat} {k k' : Kernel (pagingSys A bs)} {ps : List Nat} {kids : Nat → List Nat}

/-- The call takes the current process out of its address space. -/
def Kernel.leaves (k : Kernel (pagingSys A bs)) : Call → Prop
  | .exit _ => True
  | .execve name len _ _ => (k.kmem.userMemCheck (k.mm k.current) name len false).1 = true
  | .resume => (∃ via pid store, k.ctl k.current = .waiting via pid store) ∧ k.flags k.current &&& pfExiting ≠ 0
  | _ => False

theorem KernelInv.mem_procs (h : KernelInv spared k ps kids) : p ∈ k.procs ↔ p ∈ k.idleproc :: ps := h.live p

theorem KernelInv.waitScan_found (h : KernelInv spared k ps kids) (p : Nat) (hs : k.waitScan pid = some (.found p)) :
    p ∈ k.procs ∧ k.state p = .zombie := by
  obtain ⟨r, hr, hf⟩ := waitScan_spec h.toProcInv pid
  obtain rfl := Option.some.inj (hs.symm.trans hr)
  obtain ⟨hk, -, hz⟩ := hf
  have hm := (h.tree.family.mem_kids _ h.states.current p).1 hk
  exact ⟨h.mem_procs.2 (List.mem_cons_of_mem _ hm.1), hz⟩

/-- What a call does to the address spaces: those that it takes down are those that their last user leaves. -/
theorem SpaceInv.call (h : SpaceInv k False) (hk : KernelInv False k ps kids) (hc : k.callable c)
    (hr : k.call c = some (r, k')) : SpaceInv k' False ∧ ∃ t, Tears k k' t ∧ t.Nodup ∧
      ∀ x, x ∈ t ↔ k.leaves c ∧ k.lastUser x := by
  have hcur : k.current ∈ k.procs := hk.mem_procs.2 hk.states.current
  have hrun (hs : k.scheduling = false) : k.state k.current ≠ .zombie := by
    rw [hk.states.running hs]
    nofun
  have hstay (hk : SpaceInv k' False ∧ Tears k k' []) (hl : ¬ k.leaves c) : SpaceInv k' False ∧ ∃ t, Tears k k' t ∧
      t.Nodup ∧ ∀ x, x ∈ t ↔ k.leaves c ∧ k.lastUser x :=
    ⟨hk.1, [], hk.2, .nil, fun x => iff_of_false List.not_mem_nil fun hc => hl hc.1⟩
  have hcalm (hk : Calm k k') : SpaceInv k' False ∧ Tears k k' [] := ⟨hk.inv h, hk.tears⟩
  cases c with
  | fork fl =>
    obtain ⟨⟨e, k₁⟩, hf, he⟩ := Option.map_eq_some_iff.1 hr
    rw [Kernel.doForkWith_wakeupProc] at hf
    cases he
    exact hstay (h.doFork hcur hf) id
  | exit e =>
    obtain ⟨k₁, hx, he⟩ := Option.map_eq_some_iff.1 hr
    rw [Kernel.doExitWith_wakeupProc] at hx
    cases he
    obtain ⟨h', t, ht, hnd, hiff⟩ := h.doExit hcur hx
    refine ⟨h', t, ht, hnd, fun x => ?_⟩
    rw [hiff]
    exact (and_iff_right trivial).symm
  | wait pid store =>
    unfold Kernel.call Kernel.callWith Kernel.doWait at hr
    dsimp only at hr
    split at hr
    · exact hstay (h.waitRepeat (hrun hc.1) hk.waitScan_found hr) id
    · split at hr
      · rename_i m hm
        cases hr
        exact hstay (hcalm (.setMem (SameBlocks.userMemCheck hm))) id
      · rename_i a m hm
        have hc' : Calm k (k.setMem m) := .setMem (SameBlocks.userMemCheck hm)
        obtain ⟨h', ht⟩ := (hc'.inv h).waitRepeat (hrun hc.1)
          (hk.setMem ((pagingSys A bs).userMemCheck_live hm)).waitScan_found hr
        exact hstay ⟨h', hc'.tears.trans ht⟩ id
  | execve name len binary size =>
    obtain ⟨⟨e, k₁⟩, hx, he⟩ := Option.map_eq_some_iff.1 hr
    rw [Kernel.doExecveWith_wakeupProc] at hx
    cases he
    obtain ⟨h', t, ht, hnd, hiff⟩ := h.doExecve hcur (hrun hc.1) hx
    split
    · have hctl : Calm k₁ (k₁.setCtl k₁.current .user) := .of_same ⟨rfl, rfl, rfl, fun _ => Iff.rfl, rfl⟩
      exact ⟨hctl.inv h', t, ht.trans hctl.tears, hnd, hiff⟩
    · exact ⟨h', t, ht, hnd, hiff⟩
  | kill pid =>
    obtain ⟨⟨e, k₁⟩, hx, he⟩ := Option.map_eq_some_iff.1 hr
    rw [Kernel.doKillWith_wakeupProc] at hx
    cases he
    exact hstay (hcalm (.of_same (.doKill hx))) id
  | yield =>
    cases hr
    exact hstay (hcalm (.of_same ⟨rfl, rfl, rfl, fun _ => Iff.rfl, rfl⟩)) id
  | fault cause addr =>
    obtain ⟨⟨e, m⟩, hm, hr⟩ := Option.bind_eq_some_iff.1 hr
    dsimp only at hr
    split at hr
    · cases hr
    · cases hr
      obtain ⟨⟨e', m'⟩, hf, he⟩ : ∃ x, k.kmem.doPgfault (k.mm k.current) cause addr = some x ∧ x = (e, m) := ⟨_, hm, rfl⟩
      cases he
      exact hstay (hcalm (.setMem (SameBlocks.doPgfault hf))) id
  | tick fire =>
    cases hr
    refine hstay (hcalm (.of_same ?_)) id
    cases fire with
    | false => exact .refl k
    | true => exact ⟨rfl, rfl, rfl, fun _ => Iff.rfl, rfl⟩
  | schedule =>
    cases hr
    exact hstay (hcalm (.of_same ⟨rfl, rfl, rfl, fun _ => Iff.rfl, rfl⟩)) id
  | select =>
    obtain ⟨k₁, hs, he⟩ := Option.map_eq_some_iff.1 hr
    cases he
    obtain ⟨x, -, hs⟩ := Option.bind_eq_some_iff.1 hs
    cases hs
    refine hstay ⟨?_, rfl, fun x hx _ => ⟨hx, rfl⟩⟩ id
    exact h.congr rfl rfl (fun _ _ => rfl) rfl rfl (fun _ => Iff.rfl) False.elim
  | resume =>
    unfold Kernel.call Kernel.callWith Kernel.resumeWith at hr
    dsimp only at hr
    have hback (v : Via) (k₁ : Kernel (pagingSys A bs)) : Calm k₁ (k₁.goBack v) := by
      cases v <;> exact .of_same ⟨rfl, rfl, rfl, fun _ => Iff.rfl, rfl⟩
    have hnot (hn : ∀ via pid store, k.ctl k.current ≠ .waiting via pid store) : ¬ k.leaves .resume := by
      rintro ⟨⟨via, pid, store, hw⟩, -⟩
      exact hn via pid store hw
    split at hr
    · rename_i via hctl
      cases hr
      exact hstay (hcalm (hback via k)) (hnot (by simp [hctl]))
    · rename_i hctl
      cases hr
      exact hstay (hcalm (hback .ecall k)) (hnot (by simp [hctl]))
    · rename_i hctl
      cases hr
      exact hstay (hcalm (hback .kernel k)) (hnot (by simp [hctl]))
    · rename_i via pid store hctl
      split at hr
      · rename_i hfl
        obtain ⟨k₁, hx, he⟩ := Option.map_eq_some_iff.1 hr
        rw [Kernel.doExitWith_wakeupProc] at hx
        cases he
        obtain ⟨h', t, ht, hnd, hiff⟩ := h.doExit hcur hx
        refine ⟨h', t, ht, hnd, fun x => ?_⟩
        rw [hiff]
        exact (and_iff_right ⟨⟨via, pid, store, hctl⟩, hfl⟩).symm
      · rename_i hfl
        obtain ⟨⟨e, k₁⟩, hw, he⟩ := Option.map_eq_some_iff.1 hr
        obtain ⟨h', ht⟩ := h.waitRepeat (hrun hc.1) hk.waitScan_found hw
        cases e with
        | none =>
          cases he
          exact hstay ⟨h', ht⟩ fun hl => hfl hl.2
        | some e =>
          cases he
          have hb := hback via k₁
          exact hstay ⟨hb.inv h', ht.trans hb.tears⟩ fun hl => hfl hl.2
    · cases hr

theorem SpaceInv.empty (hp : k.procs = ∅) (hs : k.spaces = []) : SpaceInv k False := by
  refine ⟨?_, fun p hm => ?_, fun p hm => ?_⟩
  · rw [hp, hs]
    exact .empty
  · rw [hp] at hm
    exact absurd hm (Finset.notMem_empty p)
  · rw [hp] at hm
    exact absurd hm (Finset.notMem_empty p)

/-- `proc_init` makes two processes without an address space. -/
theorem SpaceInv.init (h : (callMachine (pagingSys A bs)).init k) : SpaceInv k False := by
  obtain ⟨k₀, ⟨hprocs, hspaces⟩, -, -, -, -, h⟩ := h
  have h₀ (l : Links ProcEntry) (l' : Links HashEntry) : SpaceInv { k₀ with listLink := l, hashLink := l' } False :=
    .empty hprocs hspaces
  unfold Kernel.procInit at h
  dsimp only at h
  generalize listInit k₀.listLink .procList = l at h
  generalize (List.range hashListSize).foldl (fun l i => listInit l (.bucket i)) k₀.hashLink = l' at h
  split at h
  · cases h
  · rename_i p k₁ ha
    obtain ⟨h₁, -, hprocs₁, hno, hst, -, -⟩ := (h₀ l l').allocProc ha
    obtain ⟨⟨pid, k₂⟩, hf, h⟩ := Option.bind_eq_some_iff.1 h
    have hp : p ∈ k₁.procs := by
      rw [hprocs₁]
      exact Finset.mem_insert_self ..
    have h₂ := SpaceInv.doFork ?_ ?_ hf
    · dsimp only at h
      split at h
      · cases h
      · obtain ⟨f, -, h⟩ := Option.bind_eq_some_iff.1 h
        obtain ⟨j, -, h⟩ := Option.bind_eq_some_iff.1 h
        split at h
        · cases h
          have hc : Calm k₂ { k₂ with initproc := j } := .of_same ⟨rfl, rfl, rfl, fun _ => Iff.rfl, rfl⟩
          exact hc.inv h₂.1
        · cases h
    · refine h₁.congr rfl rfl (fun _ _ => rfl) rfl rfl (fun q => ?_) False.elim
      show update k₁.state p .runnable q = .zombie ↔ _
      by_cases hq : q = p
      · rw [hq, Function.update_self, hst]
        exact iff_of_false nofun nofun
      · rw [Function.update_of_ne hq]
    · exact hp

theorem callMachine_spaces (h : (callMachine (pagingSys A bs)).Reachable k) : SpaceInv k False := by
  induction h with
  | init hi => exact .init hi
  | step h he hn ih =>
    obtain ⟨⟨r, k₁⟩, hr, rfl⟩ := Option.map_eq_some_iff.1 hn
    obtain ⟨ps, kids, hk⟩ := call_inv h
    exact (ih.call hk he hr).1

/-- In every reachable state, each `mm_struct` counts the processes that use it, one at least. The processes that are
no zombies have the page directory of their address space in `cr3`, also the one that runs. An `mm_struct` is torn
down by the call in which its last user leaves it, and by no other. -/
theorem mm_count_users (h : (callMachine (pagingSys A bs)).Reachable k) :
    ∃ ps : List Nat, k.listLink.Ring .procList (ps.map .listLink) ∧
      (∀ x ∈ k.spaces, (k.mmStruct x).mmCount = (k.idleproc :: ps).countP (fun p => k.mm p = some x) ∧
        1 ≤ (k.mmStruct x).mmCount) ∧
      (∀ p ∈ k.idleproc :: ps, ∀ x, k.mm p = some x → x ∈ k.spaces) ∧
      (∀ p ∈ k.idleproc :: ps, k.state p ≠ .zombie → k.cr3Valid p) ∧
      (k.scheduling = false → k.cr3Valid k.current) ∧
      ∀ c r k', k.callable c → k.call c = some (r, k') → ∃ t : List Nat, k'.torn = t ++ k.torn ∧ t.Nodup ∧
        (∀ x, x ∈ t ↔ k.leaves c ∧ k.mm k.current = some x ∧
          ∀ p ∈ k.idleproc :: ps, p ≠ k.current → k.mm p ≠ some x) ∧
        ∀ x ∈ k.spaces, x ∉ t → x ∈ k'.spaces ∧ (k'.mmStruct x).pgdir = (k.mmStruct x).pgdir := by
  obtain ⟨ps, kids, hk⟩ := call_inv h
  have hs := callMachine_spaces h
  have hprocs : k.procs = (k.idleproc :: ps).toFinset := by
    ext p
    rw [hk.mem_procs, List.mem_toFinset]
  have hnd : (k.idleproc :: ps).Nodup := List.nodup_cons.2 ⟨hk.table.idle, hk.table.nodup⟩
  refine ⟨ps, hk.table.list, fun x hx => ⟨?_, hs.owners.pos hx⟩, fun p hp => hs.owners.mem p (hk.mem_procs.2 hp),
    fun p hp hz => hs.cr3 p (hk.mem_procs.2 hp) hz False.elim, fun hrun => ?_, fun c r k' hc hr => ?_⟩
  · rw [hs.owners.count x hx, hprocs, tally_toFinset hnd]
  · refine hs.cr3 _ (hk.mem_procs.2 hk.states.current) ?_ False.elim
    rw [hk.states.running hrun]
    nofun
  · obtain ⟨-, t, ht, htn, hiff⟩ := hs.call hk hc hr
    refine ⟨t, ht.torn, htn, fun x => ?_, fun x hx hn => ?_⟩
    · rw [hiff, Kernel.lastUser]
      simp only [hk.mem_procs]
    · obtain ⟨hx', hmap⟩ := ht.kept x hx hn
      exact ⟨hx', congrArg Prod.snd hmap⟩

end

theorem poolMem_heap : HeapOk poolMem ∅ := .noSpaces rfl

/-- The static variables before `proc_init`, with a few free frames. -/
def poolBoot : Kernel (pagingSys framePool 0) where
  state _ := .uninit
  pid _ := 0
  runs _ := 0
  kstack _ := 0
  needResched _ := false
  parent _ := none
  mm _ := none
  cr3 _ := 0
  flags _ := 0
  exitCode _ := 0
  waitState _ := 0
  cptr _ := none
  yptr _ := none
  optr _ := none
  listLink := ⟨id, id⟩
  hashLink := ⟨id, id⟩
  nrProcess := 0
  lastPid := maxPid
  nextSafe := maxPid
  current := 0
  idleproc := 0
  initproc := 0
  mem := (⟨poolMem, ∅, [], poolMem_heap⟩ : KMem framePool)
  ctl _ := .idle
  scheduling := false

/-- The static variables before `proc_init`, with an image in memory. -/
def roomBoot : Kernel (pagingSys framePool 0) :=
  { poolBoot with mem := (⟨roomMem, ∅, [], .noSpaces rfl⟩ : KMem framePool) }

/-- Process 3 executes the image, its child 7 shares the address space and exits, and then 3 exits. -/
theorem sharedRun_decides : ((roomBoot.procInit.bind fun k => (callMachine (pagingSys framePool 0)).exec k
      [.schedule, .select, .resume, .fork cloneVm, .wait 0 none, .select, .resume,
        .execve demoBinary 4 demoBinary 0x200, .fork cloneVm, .schedule, .select, .resume]).bind fun k =>
    (k.call (.exit 3)).bind fun x =>
    ((callMachine (pagingSys framePool 0)).exec x.2 [.select, .resume]).bind fun j => (j.call (.exit 4)).map fun y =>
      decide ((k.callable (.exit 3) ∧ k.current = 7 ∧ k.scheduling = false ∧ k.mm 3 = some 4 ∧ k.mm 7 = some 4 ∧
          (k.mmStruct 4).mmCount = 2 ∧ 4 ∈ k.spaces ∧ x.2.torn = k.torn) ∧
        j.callable (.exit 4) ∧ j.current = 3 ∧ y.2.torn = [4] ++ j.torn)) = some true := by
  decide +kernel

/-- An address space is shared by two processes, left by one, and torn down when the other leaves it. -/
theorem mm_count_users_run : ∃ k j : Kernel (pagingSys framePool 0), ∃ x y, ∃ ps qs : List Nat,
    (k.mm 3 = some 4 ∧ k.mm 7 = some 4 ∧ k.current = 7 ∧ k.cr3Valid 7 ∧
      k.listLink.Ring .procList (ps.map .listLink) ∧ (k.idleproc :: ps).countP (fun p => k.mm p = some 4) = 2) ∧
    (k.call (.exit 3) = some x ∧ 4 ∈ x.2.spaces) ∧
    j.listLink.Ring .procList (qs.map .listLink) ∧ j.call (.exit 4) = some y ∧ y.2.torn = 4 :: j.torn ∧
      j.mm 3 = some 4 ∧ ∀ p ∈ j.idleproc :: qs, p ≠ 3 → j.mm p ≠ some 4 := by
  obtain ⟨k, hk, h⟩ := Option.bind_eq_some_iff.1 sharedRun_decides
  obtain ⟨x, hx, h⟩ := Option.bind_eq_some_iff.1 h
  obtain ⟨j, hj, h⟩ := Option.bind_eq_some_iff.1 h
  obtain ⟨y, hy, h⟩ := Option.map_eq_some_iff.1 h
  obtain ⟨⟨hkc, hcur, hrun, h₃, h₇, htwo, h₄, hnone⟩, hjc, hcur', htorn⟩ := of_decide_eq_true h
  obtain ⟨k₀, hi, he⟩ := Option.bind_eq_some_iff.1 hk
  have hreach : (callMachine (pagingSys framePool 0)).Reachable k :=
    .exec (.init ⟨roomBoot, ⟨rfl, rfl⟩, rfl, rfl, rfl, rfl, hi⟩) he
  have hreach' : (callMachine (pagingSys framePool 0)).Reachable j :=
    .exec (hreach.step (a := Call.exit 3) hkc (congrArg (Option.map Prod.snd) hx)) hj
  obtain ⟨ps, hl, hcount, -, -, hcr, hcalls⟩ := mm_count_users hreach
  obtain ⟨qs, hl', -, -, -, -, hcalls'⟩ := mm_count_users hreach'
  obtain ⟨t, ht, -, -, hkept⟩ := hcalls (.exit 3) x.1 x.2 hkc hx
  obtain ⟨t', ht', -, hlast, -⟩ := hcalls' (.exit 4) y.1 y.2 hjc hy
  obtain rfl : t = [] := List.append_left_eq_self.1 (ht.symm.trans hnone)
  obtain rfl : t' = [4] := List.append_cancel_right (ht'.symm.trans htorn)
  obtain ⟨-, h₃', hothers⟩ := (hlast 4).1 (List.mem_singleton_self 4)
  rw [hcur'] at h₃' hothers
  have hcountP := (hcount 4 h₄).1
  rw [htwo] at hcountP
  exact ⟨k, j, x, y, ps, qs, ⟨h₃, h₇, hcur, hcur ▸ hcr hrun, hl, by exact_mod_cast hcountP.symm⟩,
    ⟨hx, (hkept 4 h₄ List.not_mem_nil).1⟩, hl', hy, htorn, h₃', hothers⟩

end UCore
