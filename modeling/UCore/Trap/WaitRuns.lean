import UCore.Trap.SleepRuns

namespace UCore
set_option autoImplicit true
open Function (update)

/-- The memory on which the end of `do_wait` works. -/
def Kernel.waitMem {S : MemSys} (k : Kernel S) : Call → S.σ
  | .wait _ (some a) => (S.userMemCheck k.mem (k.mm k.current) a 4 true).2
  | _ => k.mem

/-- After the steps `r` from `k₀`, the call `c` of `do_wait` takes the process `z` off `proc_list` and
reports the exit code `x`. -/
structure Collected {S : MemSys} (k₀ : Kernel S) (r : List (Call × Kernel S)) (k k' : Kernel S) (c : Call)
    (pid : Int) (store : Option Nat) (z : Nat) (x : Int) : Prop where
  zombie : k.listed z ∧ k.state z = .zombie
  child : k.parent z = some k.current
  asked : pid = 0 ∨ k.pid z = pid
  removed : ∀ q, k'.listed q ↔ k.listed q ∧ q ≠ z
  /-- The process entered `do_exit` with the code, and has been a zombie ever since. -/
  entered : ∃ r₁ c₁ t r₂ k₁, r = r₁ ++ (c₁, t) :: r₂ ∧ Enters (Machine.endOf k₀ r₁) c₁ k₁ x ∧
    (Machine.endOf k₀ r₁).current = z ∧ k₁.current = z ∧
    ∀ s ∈ (c₁, t) :: r₂, s.2.listed z ∧ s.2.state z = .zombie
  stored : ∃ m m', (match store with
      | none => some (k.waitMem c)
      | some a => S.storeInt (k.waitMem c) (k.mm k.current) a x) = some m ∧
    S.freeKstack m (k.kstack z) = some m' ∧ k'.mem = S.kfreeProc m' z

section
variable {S : MemSys} {k k' k₀ : Kernel S} {ps xs : List Nat} {kids : Nat → List Nat}

/-- A process begins to be a listed zombie with some exit code when it enters `do_exit` with that code. -/
theorem enters_of_zombie (h : KernelInv False k ps kids) (hc : k.callable c)
    (hr : k.call c = some (r, k')) (hn : ¬ (k.listed z ∧ k.state z = .zombie ∧ k.exitCode z = x))
    (hz : k'.listed z ∧ k'.state z = .zombie ∧ k'.exitCode z = x) :
    ∃ k₁, Enters k c k₁ x ∧ k.current = z ∧ k₁.current = z := by
  obtain ⟨ys, kids', h', he, -⟩ := call_effect h hc hr
  obtain ⟨hl, hs, hx⟩ := hz
  rw [h'.table.listed_iff] at hl
  rw [h.table.listed_iff] at hn
  have hkept (hq : z ∈ ps) (hk : Kept k k' c z) : False :=
    hn ⟨hq, hk.zombie.1 hs, hk.exitCode.symm.trans hx⟩
  cases he with
  | kept all => exact (hkept hl (all z (List.mem_cons_of_mem _ hl))).elim
  | forked _ _ all _ st =>
    cases hl with
    | head =>
      rw [st] at hs
      cases hs
    | tail _ hl => exact (hkept hl (all z (List.mem_cons_of_mem _ hl))).elim
  | exited henter same others _ _ _ _ _ hec =>
    by_cases hzc : z = k.current
    · subst hzc
      rw [← hx, hec]
      exact ⟨_, henter, rfl, same⟩
    · exact (hkept hl (others z (List.mem_cons_of_mem _ hl) hzc)).elim
  | reaped hsplit _ _ _ all =>
    have hzp : z ∈ ps := by
      rw [hsplit]
      simp only [List.mem_append, List.mem_cons] at hl ⊢
      tauto
    exact (hkept hzp (all z (List.mem_cons_of_mem _ hzp))).elim
  | selected _ all =>
    exact (hkept hl (.of_view (all z (List.mem_cons_of_mem _ hl)))).elim

/-- Only `do_fork` puts a process on `proc_list`. -/
theorem fork_of_listed (h : KernelInv False k ps kids) (hc : k.callable c)
    (hr : k.call c = some (r, k')) (hn : ¬ k.listed z) (hz : k'.listed z) : ∃ fl, c = .fork fl := by
  obtain ⟨ys, kids', h', he, -⟩ := call_effect h hc hr
  rw [h'.table.listed_iff] at hz
  rw [h.table.listed_iff] at hn
  cases he with
  | forked hf => exact ⟨_, hf⟩
  | reaped hsplit =>
    rw [hsplit] at hn
    simp only [List.mem_append, List.mem_cons] at hz hn
    tauto
  | kept | exited | selected => exact absurd hz hn

/-- After `proc_init` no process is a zombie. -/
theorem init_zombie (h : (callMachine S).init k) (hl : k.listed p) : k.state p ≠ .zombie := by
  obtain ⟨k₀, hb, hn, hlast, hs, hsch, hi⟩ := h
  obtain ⟨q, kids, h, -⟩ : ∃ q kids, KernelInv False k [q] kids ∧ ∃ via, k.ctl q = .forkret via :=
    procInit_inv hb hn hlast hs hsch hi
  have hp := List.mem_singleton.1 (h.table.listed_iff.1 hl)
  have hq := List.mem_singleton.1 h.init.1
  rw [hp, ← hq]
  exact h.init.2.1

/-- What `do_wait` finds out when it returns. -/
theorem waitRepeat_returns (h : KernelInv False k ps kids)
    (hr : k.waitRepeat via pid store = some (some v, k')) :
    v = -eBadProc ∧ (∀ q ∈ kids k.current, ¬ (pid = 0 ∨ k.pid q = pid)) ∨
      v = 0 ∧ ∃ z ∈ kids k.current, (pid = 0 ∨ k.pid z = pid) ∧ k.state z = .zombie ∧
        k.reap z store = some k' := by
  obtain ⟨scan, hscan, hfound⟩ := waitScan_spec h.toProcInv pid
  unfold Kernel.waitRepeat at hr
  rw [hscan] at hr
  simp only [Option.bind_eq_bind, Option.bind_some] at hr
  cases scan with
  | noChild =>
    cases hr
    exact .inl ⟨rfl, hfound⟩
  | sleep => cases hr
  | found z =>
    obtain ⟨k₁, hreap, hr⟩ := Option.bind_eq_some_iff.1 hr
    cases hr
    exact .inr ⟨rfl, z, hfound.1, hfound.2.1, hfound.2.2, hreap⟩

theorem reap_mem (hf : Forest k.optr k.yptr k.cptr kids xs none) (hq : q ∈ xs)
    (hk : kids q = as ++ z :: bs) (hp : k.parent z = some q) (h : k.reap z store = some k') :
    ∃ m m', (match store with
        | none => some k.mem
        | some a => S.storeInt k.mem (k.mm k.current) a (k.exitCode z)) = some m ∧
      S.freeKstack m (k.kstack z) = some m' ∧ k'.mem = S.kfreeProc m' z := by
  unfold Kernel.reap at h
  split at h
  · cases h
  · have hrest (m : S.σ) (hr : (((k.setMem m).unhashProc z).removeLinks z).bind (fun k =>
        (k.putKstack z).bind fun k => some (k.kfreeProc z)) = some k') :
        ∃ m', S.freeKstack m (k.kstack z) = some m' ∧ k'.mem = S.kfreeProc m' z := by
      obtain ⟨c, y, o, hrm, -⟩ := removeLinks_spec (k := (k.setMem m).unhashProc z) hf hq hk hp
      rw [hrm, Option.bind_some] at hr
      obtain ⟨k₃, hput, hr⟩ := Option.bind_eq_some_iff.1 hr
      cases hr
      obtain ⟨m', hfree, rfl⟩ := Option.map_eq_some_iff.1 hput
      exact ⟨m', hfree, rfl⟩
    obtain ⟨k₁, hs, h⟩ := Option.bind_eq_some_iff.1 h
    cases store with
    | none =>
      cases hs
      obtain ⟨m', hm'⟩ := hrest k.mem h
      exact ⟨k.mem, m', rfl, hm'⟩
    | some a =>
      obtain ⟨m, hm, rfl⟩ := Option.map_eq_some_iff.1 hs
      obtain ⟨m', hm'⟩ := hrest m h
      exact ⟨m, m', hm, hm'⟩

/-- A call in which the current process waits is a run of `do_wait` on the memory `waitMem`. -/
theorem wait_call (hw : k.waitArgs c = some (pid, store)) (hr : k.call c = some (some v, k')) :
    v = -eInval ∧ k' = k.setMem k'.mem ∨
      ∃ via k₁, (k.setMem (k.waitMem c)).waitRepeat via pid store = some (some v, k₁) ∧
        k'.mem = k₁.mem ∧ k'.listLink = k₁.listLink := by
  cases c with
  | wait pid' store' =>
    cases hw
    unfold Kernel.call Kernel.callWith Kernel.doWait at hr
    dsimp only at hr
    split at hr
    · exact .inr ⟨_, k', hr, rfl, rfl⟩
    · rename_i a
      cases hm : S.userMemCheck k.mem (k.mm k.current) a 4 true with
      | mk b m =>
        rw [hm] at hr
        cases b with
        | false =>
          cases hr
          exact .inl ⟨rfl, rfl⟩
        | true =>
          refine .inr ⟨k.entry, k', ?_, rfl, rfl⟩
          simpa only [Kernel.waitMem, hm] using hr
  | resume =>
    unfold Kernel.waitArgs at hw
    dsimp only at hw
    split at hw
    · rename_i via pid' store' hctl
      split at hw
      · rename_i hfl
        cases hw
        unfold Kernel.call Kernel.callWith Kernel.resumeWith at hr
        simp only [hctl, hfl, ne_eq, not_true_eq_false, if_false] at hr
        obtain ⟨⟨e, k₁⟩, hwr, he⟩ := Option.map_eq_some_iff.1 hr
        cases e with
        | none => cases he
        | some e =>
          cases he
          refine .inr ⟨via, k₁, hwr, ?_⟩
          cases via <;> exact ⟨rfl, rfl⟩
      · cases hw
    · cases hw
  | _ => cases hw

/-- The two ways in which `do_wait` returns, when its arguments are good. -/
theorem wait_returns (h : KernelInv False k ps kids) (hc : k.callable c)
    (hw : k.waitArgs c = some (pid, store)) (hr : k.call c = some (some v, k')) :
    (v = 0 → ∃ z ∈ ps, k.state z = .zombie ∧ k.parent z = some k.current ∧ (pid = 0 ∨ k.pid z = pid) ∧
      (∀ q, k'.listed q ↔ k.listed q ∧ q ≠ z) ∧
      ∃ m m', (match store with
          | none => some (k.waitMem c)
          | some a => S.storeInt (k.waitMem c) (k.mm k.current) a (k.exitCode z)) = some m ∧
        S.freeKstack m (k.kstack z) = some m' ∧ k'.mem = S.kfreeProc m' z) ∧
    (v = -eBadProc → ∀ q ∈ kids k.current, ¬ (pid = 0 ∨ k.pid q = pid)) := by
  have hlive : S.live (k.waitMem c) = S.live k.mem := by
    unfold Kernel.waitMem
    split
    · rename_i a
      cases hm : S.userMemCheck k.mem (k.mm k.current) a 4 true with
      | mk b m => exact S.userMemCheck_live hm
    · rfl
  have h₁ : KernelInv False (k.setMem (k.waitMem c)) ps kids := h.setMem hlive
  cases wait_call hw hr with
  | inl hbad =>
    obtain ⟨rfl, -⟩ := hbad
    exact ⟨fun h0 => absurd h0 (by decide), fun h0 => absurd h0 (by decide)⟩
  | inr hwait =>
    obtain ⟨via, k₁, hwr, hmem, hlink⟩ := hwait
    cases waitRepeat_returns h₁ hwr with
    | inl hno =>
      obtain ⟨rfl, hnone⟩ := hno
      exact ⟨fun h0 => absurd h0 (by decide), fun _ => hnone⟩
    | inr hfound =>
      obtain ⟨rfl, z, hzk, hpid, hz, hreap⟩ := hfound
      refine ⟨fun _ => ?_, fun h0 => absurd h0 (by decide)⟩
      have hmk := (h.tree.family.mem_kids _ h.states.current z).1 hzk
      obtain ⟨as, bs, hab⟩ := List.append_of_mem hzk
      have hf : Forest k.optr k.yptr k.cptr kids (k.idleproc :: ps) none := h.tree.family.forest
      refine ⟨z, hmk.1, hz, hmk.2, hpid, fun q => ?_, ?_⟩
      · obtain ⟨xs, ys, hps⟩ := List.append_of_mem hmk.1
        obtain ⟨m, d, y, o, rfl, -⟩ :=
          reap_spec (k := k.setMem (k.waitMem c)) hf h.states.current hab hmk.2 hreap
        have hring := h.table.list
        have hnd := h.table.nodup
        rw [hps] at hring hnd
        rw [List.map_append, List.map_cons] at hring
        have hdel := listDel_mid hring
        rw [← List.map_append] at hdel
        have hl : k'.listed q ↔ q ∈ xs ++ ys := by
          unfold Kernel.listed
          rw [hlink]
          constructor
          · rintro ⟨zs, hzs, hq⟩
            rwa [List.map_injective_iff.2 (fun _ _ => ProcEntry.listLink.inj) (hzs.unique hdel)] at hq
          · exact fun hq => ⟨xs ++ ys, hdel, hq⟩
        rw [hl, h.table.listed_iff, hps]
        exact mem_erase_mid (List.nodup_middle.1 hnd).notMem
      · rw [hmem]
        exact reap_mem (k := k.setMem (k.waitMem c)) hf h.states.current hab hmk.2 hreap

/-- What `do_wait` collects is the exit of a child: the child was in `do_exit` once, with the code that
is reported, and is off the list now. A child that is not there is the only reason for `-E_BAD_PROC`, and
what is found at the same place later is a new process. -/
theorem exit_collected_once (hi : (callMachine S).init k₀) (hp : (callMachine S).Path k₀ r)
    (hc : (Machine.endOf k₀ r).callable c) (hw : (Machine.endOf k₀ r).waitArgs c = some (pid, store))
    (hr : (Machine.endOf k₀ r).call c = some (some v, k')) :
    (v = 0 → ∃ z x, Collected k₀ r (Machine.endOf k₀ r) k' c pid store z x ∧
      ∀ r', (callMachine S).Path k' r' → (Machine.endOf k' r').listed z →
        ∃ r₁ fl t r₂, r' = r₁ ++ (.fork fl, t) :: r₂ ∧ ¬ (Machine.endOf k' r₁).listed z) ∧
    (v = -eBadProc → ∀ q, (Machine.endOf k₀ r).listed q →
      (Machine.endOf k₀ r).parent q = some (Machine.endOf k₀ r).current →
        ¬ (pid = 0 ∨ (Machine.endOf k₀ r).pid q = pid)) := by
  have hreach : (callMachine S).Reachable (Machine.endOf k₀ r) := hp.reachable (.init hi)
  obtain ⟨ps, kids, hk⟩ := call_inv hreach
  obtain ⟨hfound, hbad⟩ := wait_returns hk hc hw hr
  have hk' : (callMachine S).Reachable k' := .step hreach hc (by simp [callMachine, hr])
  constructor
  · intro hv
    obtain ⟨z, hz, hzs, hpar, hpid, hrem, hmem⟩ := hfound hv
    refine ⟨z, _, ⟨⟨hk.table.listed_iff.2 hz, hzs⟩, hpar, hpid, hrem, ?_, hmem⟩, fun r' hr' hl => ?_⟩
    · obtain ⟨r₁, c₁, t, r₂, rfl, hn, ht, hall⟩ := hp.since
        (P := fun s => s.listed z ∧ s.state z = .zombie ∧ s.exitCode z = (Machine.endOf k₀ r).exitCode z)
        (fun hn => init_zombie hi hn.1 hn.2.1) ⟨hk.table.listed_iff.2 hz, hzs, rfl⟩
      obtain ⟨hp₁, hen, hnext, -⟩ := Machine.Path.append_iff.1 hp
      obtain ⟨⟨e, t'⟩, hcall, rfl⟩ := Option.map_eq_some_iff.1 hnext
      obtain ⟨ps₁, kids₁, h₁⟩ := call_inv (hp₁.reachable (.init hi))
      obtain ⟨k₁, henter, hcur, hcur₁⟩ := enters_of_zombie h₁ hen hcall hn ht
      refine ⟨r₁, c₁, t', r₂, k₁, rfl, henter, hcur, hcur₁, fun s hs => ?_⟩
      cases hs with
      | head => exact ⟨ht.1, ht.2.1⟩
      | tail _ hs => exact ⟨(hall s hs).1, (hall s hs).2.1⟩
    · obtain ⟨r₁, c₁, t, r₂, rfl, hn, ht, -⟩ := hr'.since (P := fun s => s.listed z)
        (fun hn => ((hrem z).1 hn).2 rfl) hl
      obtain ⟨hp₁, hen, hnext, -⟩ := Machine.Path.append_iff.1 hr'
      obtain ⟨⟨e, t'⟩, hcall, rfl⟩ := Option.map_eq_some_iff.1 hnext
      obtain ⟨ps₁, kids₁, h₁⟩ := call_inv (hp₁.reachable hk')
      obtain ⟨fl, rfl⟩ := fork_of_listed h₁ hen hcall hn ht
      exact ⟨r₁, fl, t', r₂, rfl, hn⟩
  · intro hv q hq hqp
    apply hbad hv q
    rw [hk.tree.family.mem_kids _ hk.states.current]
    exact ⟨hk.table.listed_iff.1 hq, hqp⟩

theorem callRun_path {k : Kernel bumpSys} (h : callRun cs = some k) :
    ∃ k₀ r, (callMachine bumpSys).init k₀ ∧ (callMachine bumpSys).Path k₀ r ∧ Machine.endOf k₀ r = k := by
  obtain ⟨k₀, hi, he⟩ := Option.bind_eq_some_iff.1 h
  obtain ⟨r, hr, hend⟩ := Machine.exec_path he
  exact ⟨k₀, r, ⟨bumpBoot, rfl, rfl, rfl, rfl, rfl, hi⟩, hr, hend⟩

theorem exit_collected_once_run : ∃ k₀ r k', ∃ z x,
    Collected (S := bumpSys) k₀ r (Machine.endOf k₀ r) k' .resume 0 none z x := by
  have hrun : (callRun [.schedule, .select, .resume, .fork 0, .wait 0 none, .select, .resume, .exit 7,
      .select]).map (fun k => decide (k.callable .resume ∧ k.waitArgs .resume = some (0, none) ∧
        (k.call .resume).map Prod.fst = some (some 0))) = some true := by
    decide +kernel
  obtain ⟨k, hk, hd⟩ := Option.map_eq_some_iff.1 hrun
  obtain ⟨hen, hw, hr⟩ := of_decide_eq_true hd
  obtain ⟨⟨v, k'⟩, hcall, rfl⟩ := Option.map_eq_some_iff.1 hr
  obtain ⟨k₀, r, hi, hp, rfl⟩ := callRun_path hk
  obtain ⟨z, x, hz, -⟩ := (exit_collected_once hi hp hen hw hcall).1 rfl
  exact ⟨k₀, r, k', z, x, hz⟩

end

end UCore
