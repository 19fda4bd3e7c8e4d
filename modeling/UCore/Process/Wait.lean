import UCore.Process.Links
import UCore.Process.Exit

namespace UCore
set_option autoImplicit true
open Function (update)

section
variable {S : MemSys} {k k' k₁ : Kernel S} {ps xs ys : List Nat} {kids : Nat → List Nat}
  {spared : Prop}

/-- What the scan of `do_wait` has found out about the children of the current process. -/
def WaitFound (k : Kernel S) (kids : Nat → List Nat) (pid : Int) : Kernel.WaitScan → Prop
  | .noChild => ∀ c ∈ kids k.current, ¬ (pid = 0 ∨ k.pid c = pid)
  | .sleep => (∃ c ∈ kids k.current, pid = 0 ∨ k.pid c = pid) ∧
      ∀ c ∈ kids k.current, pid = 0 ∨ k.pid c = pid → k.state c ≠ .zombie
  | .found p => p ∈ kids k.current ∧ (pid = 0 ∨ k.pid p = pid) ∧ k.state p = .zombie

theorem childScan_chain (h : Chain k.optr head cs) (hf : cs.length < fuel) :
    ∃ r, k.childScan head b fuel = some r ∧ match r with
      | .noChild => b = false ∧ cs = []
      | .sleep => (b = true ∨ cs ≠ []) ∧ ∀ c ∈ cs, k.state c ≠ .zombie
      | .found p => p ∈ cs ∧ k.state p = .zombie := by
  induction cs generalizing head b fuel with
  | nil =>
    obtain ⟨fuel, rfl⟩ := Nat.exists_eq_add_one.2 hf
    obtain rfl : head = none := h
    cases b with
    | false => exact ⟨.noChild, rfl, rfl, rfl⟩
    | true => exact ⟨.sleep, rfl, .inl rfl, by simp⟩
  | cons c cs ih =>
    obtain ⟨fuel, rfl⟩ := Nat.exists_eq_add_one.2 (Nat.zero_lt_of_lt hf)
    obtain ⟨rfl, hrest⟩ := h
    by_cases hz : k.state c = .zombie
    · exact ⟨.found c, by simp [Kernel.childScan, hz], List.mem_cons_self .., hz⟩
    · obtain ⟨r, hr, hspec⟩ := ih (b := true) hrest (Nat.lt_of_succ_lt_succ hf)
      refine ⟨r, by simp [Kernel.childScan, hz, hr], ?_⟩
      cases r with
      | noChild => exact absurd hspec.1 (by simp)
      | sleep =>
        refine ⟨.inr (by simp), fun d hd => ?_⟩
        cases hd with
        | head => exact hz
        | tail _ hd => exact hspec.2 d hd
      | found p => exact ⟨List.mem_cons_of_mem _ hspec.1, hspec.2⟩

theorem waitScan_spec (h : ProcInv spared k ps kids) (pid : Int) :
    ∃ r, k.waitScan pid = some r ∧ WaitFound k kids pid r := by
  have hcur := h.states.current
  by_cases hpid : pid = 0
  · subst hpid
    have hlen := Nat.lt_succ_of_lt (h.tree.length_kids h.table hcur)
    obtain ⟨r, hr, hspec⟩ := childScan_chain (b := false) (h.tree.family.forest.chain _ hcur) hlen
    refine ⟨r, by simpa [Kernel.waitScan] using hr, ?_⟩
    cases r with
    | noChild => simp [WaitFound, hspec.2]
    | sleep =>
      obtain ⟨hne, hz⟩ := hspec
      have hne' : kids k.current ≠ [] := hne.resolve_left (by simp)
      exact ⟨⟨_, List.head_mem hne', .inl rfl⟩, fun c hc _ => hz c hc⟩
    | found p => exact ⟨hspec.1, .inl rfl, hspec.2⟩
  · obtain ⟨f, hf, hiff⟩ := h.table.findProc pid
    have hmem := h.tree.family.mem_kids k.current hcur
    cases f with
    | none =>
      refine ⟨.noChild, by simp [Kernel.waitScan, hpid, hf], fun c hc hor => ?_⟩
      have hcp := hor.resolve_left hpid
      exact absurd ((hiff c).2 ⟨((hmem c).1 hc).1, hcp⟩) (by simp)
    | some p =>
      obtain ⟨hp, hpp⟩ := (hiff p).1 rfl
      have honly (c : Nat) (hc : c ∈ kids k.current) (hor : pid = 0 ∨ k.pid c = pid) : c = p := by
        have hsome := (hiff c).2 ⟨((hmem c).1 hc).1, hor.resolve_left hpid⟩
        exact (Option.some.inj hsome).symm
      by_cases hpar : k.parent p = some k.current
      · have hpk := (hmem p).2 ⟨hp, hpar⟩
        by_cases hz : k.state p = .zombie
        · exact ⟨.found p, by simp [Kernel.waitScan, hpid, hf, hpar, hz], hpk, .inr hpp, hz⟩
        · refine ⟨.sleep, by simp [Kernel.waitScan, hpid, hf, hpar, hz], ⟨p, hpk, .inr hpp⟩, ?_⟩
          intro c hc hor
          rwa [honly c hc hor]
      · refine ⟨.noChild, by simp [Kernel.waitScan, hpid, hf, hpar], fun c hc hor => ?_⟩
        obtain rfl := honly c hc hor
        exact hpar ((hmem c).1 hc).2

theorem ProcTree.sameLinks (h : ProcTree k ps kids) (ecptr : k'.cptr = k.cptr) (eyptr : k'.yptr = k.yptr)
    (eoptr : k'.optr = k.optr) (eparent : k'.parent = k.parent) (eidle : k'.idleproc = k.idleproc)
    (ez : ∀ p ∈ k.idleproc :: ps, k'.state p = .zombie ↔ k.state p = .zombie) : ProcTree k' ps kids := by
  constructor
  · constructor
    · rw [ecptr, eyptr, eoptr, eidle]
      exact h.family.forest
    · rw [eidle, eparent]
      exact h.family.mem_kids
    · rw [eyptr, eoptr, eidle]
      exact h.family.root
  · intro c hc
    obtain ⟨p, hp, hcp, hne, hz⟩ := h.parent c hc
    rw [eidle, eparent]
    exact ⟨p, hp, hcp, hne, by rwa [ne_eq, ez p hp]⟩
  · intro p hp hz
    exact h.zombie p hp ((ez p (List.mem_cons_of_mem _ hp)).1 hz)

/-- The current process goes to sleep in `do_wait`. -/
def Kernel.asleep (k : Kernel S) (via : Via) (pid : Int) (store : Option Nat) : Kernel S :=
  { k with
    state := update k.state k.current .sleeping
    waitState := update k.waitState k.current wtChild
    ctl := update k.ctl k.current (.waiting via pid store)
    scheduling := true }

theorem asleep_inv (h : KernelInv spared k ps kids) (hrun : k.scheduling = false)
    (hidle : k.current ≠ k.idleproc) (hw : WaitFound k kids pid .sleep)
    (hspare : spared → k.flags k.current &&& pfExiting = 0) :
    KernelInv spared (k.asleep via pid store) ps kids := by
  have hcs := h.states.running hrun
  have hst (p : Nat) (hp : p ≠ k.current) : (k.asleep via pid store).state p = k.state p :=
    Function.update_of_ne hp ..
  have hself : (k.asleep via pid store).state k.current = .sleeping := Function.update_self ..
  have hz (p : Nat) : (k.asleep via pid store).state p = .zombie ↔ k.state p = .zombie := by
    by_cases hp : p = k.current
    · simp [hp, hself, hcs]
    · rw [hst p hp]
  constructor
  · constructor
    · exact { h.table with }
    · exact h.tree.sameLinks rfl rfl rfl rfl rfl fun p _ => hz p
    · constructor
      · intro p hp hs
        by_cases hpc : p = k.current
        · subst hpc
          exact ⟨Function.update_self .., _, _, _, Function.update_self ..⟩
        · rw [hst p hpc] at hs
          simp only [Kernel.asleep, Function.update_of_ne hpc]
          exact h.states.asleep p hp hs
      · intro p hp hs
        have hpc : p ≠ k.current := by
          rintro rfl
          exact hs hself
        rw [hst p hpc] at hs
        simp only [Kernel.asleep, Function.update_of_ne hpc]
        exact h.states.awake p hp hs
      · intro hsp p hp hs
        by_cases hpc : p = k.current
        · subst hpc
          exact hspare hsp
        · rw [hst p hpc] at hs
          exact h.states.spare hsp p hp hs
      · intro p hp
        by_cases hpc : p = k.current
        · simp [hpc, hself]
        · rw [hst p hpc]
          exact h.states.ready p hp
      · simp only [Kernel.asleep, Function.update_of_ne hidle.symm]
        exact h.states.idle
      · exact h.states.current
      · intro hs
        cases hs
    · constructor
      intro p hp hs via' pid' store' hctl
      by_cases hpc : p = k.current
      · subst hpc
        simp only [Kernel.asleep, Function.update_self, Ctl.waiting.injEq] at hctl
        obtain ⟨rfl, rfl, rfl⟩ := hctl
        refine ⟨hw.1, fun c hc hcp => ?_⟩
        rw [ne_eq, hz]
        exact hw.2 c hc hcp
      · rw [hst p hpc] at hs
        simp only [Kernel.asleep, Function.update_of_ne hpc] at hctl
        obtain ⟨hex, hall⟩ := h.waits.child p hp hs via' pid' store' hctl
        refine ⟨hex, fun c hc hcp => ?_⟩
        rw [ne_eq, hz]
        exact hall c hc hcp
    · exact h.live
  · refine ⟨h.init.1, ?_, h.init.2.2⟩
    show ¬ (k.asleep via pid store).state k.initproc = .zombie
    rw [hz]
    exact h.init.2.1

theorem ProcStates.unlink (h : ProcStates spared k (xs ++ p :: ys)) (hnd : (xs ++ p :: ys).Nodup)
    (hp : p ≠ k.current) (estate : k'.state = k.state) (ewait : k'.waitState = k.waitState)
    (ectl : k'.ctl = k.ctl) (eflags : k'.flags = k.flags) (eparent : k'.parent = k.parent)
    (eidle : k'.idleproc = k.idleproc) (ecur : k'.current = k.current)
    (esched : k'.scheduling = k.scheduling) : ProcStates spared k' (xs ++ ys) := by
  have hpn : p ∉ xs ++ ys := (List.nodup_middle.1 hnd).notMem
  have hsub (x : Nat) (hx : x ∈ xs ++ ys) : x ∈ xs ++ p :: ys := ((mem_erase_mid hpn).1 hx).1
  constructor
  · rw [estate, ewait, ectl]
    exact fun x hx => h.asleep x (hsub x hx)
  · rw [estate, ewait, eidle]
    intro x hx
    apply h.awake x
    cases hx with
    | head => exact List.mem_cons_self ..
    | tail _ hx => exact List.mem_cons_of_mem _ (hsub x hx)
  · rw [estate, eflags]
    exact fun hsp x hx => h.spare hsp x (hsub x hx)
  · rw [estate]
    exact fun x hx => h.ready x (hsub x hx)
  · rw [estate, ectl, eparent, eidle]
    exact h.idle
  · rw [ecur, eidle]
    have hcur := h.current
    rw [List.mem_cons] at hcur ⊢
    exact hcur.imp_right fun hm => (mem_erase_mid hpn).2 ⟨hm, hp.symm⟩
  · rw [esched, ecur, estate]
    exact h.running

theorem ProcInv.other (h : ProcInv spared k ps kids) (m : S.σ) (ks cr : Nat → Nat)
    (mm : Nat → Option Nat) (nr : Nat → Bool) (ru : Nat → Nat) (ec : Nat → Int)
    (hm : S.live m = S.live k.mem) :
    ProcInv spared { k with
      mem := m, kstack := ks, cr3 := cr, mm := mm, needResched := nr, runs := ru, exitCode := ec }
      ps kids where
  table := { h.table with }
  tree := h.tree.sameLinks rfl rfl rfl rfl rfl fun _ _ => Iff.rfl
  states := { h.states with }
  waits := ⟨h.waits.child⟩
  live q := by
    show S.live m q ↔ _
    rw [hm]
    exact h.live q

theorem KernelInv.other (h : KernelInv spared k ps kids) (m : S.σ) (ks cr : Nat → Nat)
    (mm : Nat → Option Nat) (nr : Nat → Bool) (ru : Nat → Nat) (ec : Nat → Int)
    (hm : S.live m = S.live k.mem) :
    KernelInv spared { k with
      mem := m, kstack := ks, cr3 := cr, mm := mm, needResched := nr, runs := ru, exitCode := ec }
      ps kids where
  toProcInv := h.toProcInv.other m ks cr mm nr ru ec hm
  init := h.init

theorem ProcWaits.unlink (h : ProcWaits k (xs ++ p :: ys) kids) (hnd : (xs ++ p :: ys).Nodup)
    (hq : k.state q ≠ .sleeping) (estate : k'.state = k.state) (epid : k'.pid = k.pid)
    (ectl : k'.ctl = k.ctl) : ProcWaits k' (xs ++ ys) (update kids q ks) := by
  constructor
  intro x hx hs
  rw [estate] at hs
  have hxq : x ≠ q := by
    rintro rfl
    exact hq hs
  rw [ectl, epid, estate, Function.update_of_ne hxq]
  exact h.child x ((mem_erase_mid (List.nodup_middle.1 hnd).notMem).1 hx).1 hs

theorem store_live {store : Option Nat} {v : Int}
    (h : (match store with
      | none => some k
      | some a => (S.storeInt k.mem (k.mm k.current) a v).map k.setMem) = some k') :
    ∃ m, k' = k.setMem m ∧ S.live m = S.live k.mem := by
  cases store with
  | none =>
    cases h
    exact ⟨k.mem, rfl, rfl⟩
  | some a =>
    obtain ⟨m, hm, rfl⟩ := Option.map_eq_some_iff.1 h
    exact ⟨m, rfl, S.storeInt_live hm⟩

/-- The end of `do_wait` takes the process off both lists and out of the tree, and frees it. -/
theorem reap_spec (hf : Forest k.optr k.yptr k.cptr kids xs none) (hq : q ∈ xs)
    (hk : kids q = as ++ p :: bs) (hp : k.parent p = some q) (hr : k.reap p store = some k') :
    ∃ m c y o, k' = { k with
        mem := m, cptr := c, yptr := y, optr := o
        hashLink := listDel k.hashLink (.hashLink p)
        listLink := listDel k.listLink (.listLink p)
        nrProcess := k.nrProcess - 1 } ∧
      Forest o y c (update kids q (as ++ bs)) xs none ∧
      (∀ x ∉ kids q, y x = k.yptr x ∧ o x = k.optr x) ∧
      ∀ x, S.live m x ↔ S.live k.mem x ∧ x ≠ p := by
  unfold Kernel.reap at hr
  split at hr
  · cases hr
  · obtain ⟨k₁, hst, hr⟩ := Option.bind_eq_some_iff.1 hr
    obtain ⟨m, rfl, hm⟩ := store_live hst
    obtain ⟨k₂, hrm, hr⟩ := Option.bind_eq_some_iff.1 hr
    obtain ⟨c, y, o, hrm', hf', hsame⟩ := removeLinks_spec (k := (k.setMem m).unhashProc p) hf hq hk hp
    obtain rfl := Option.some.inj (hrm.symm.trans hrm')
    obtain ⟨k₃, hput, hr⟩ := Option.bind_eq_some_iff.1 hr
    obtain ⟨m', hm', rfl⟩ := Option.map_eq_some_iff.1 hput
    cases hr
    refine ⟨S.kfreeProc m' p, c, y, o, rfl, hf', hsame, fun x => ?_⟩
    rw [S.kfreeProc_live, S.freeKstack_live hm']
    show S.live m x ∧ _ ↔ _
    rw [hm]

theorem reap_inv (h : KernelInv spared k (xs ++ p :: ys) kids) (hrun : k.scheduling = false)
    (hk : kids k.current = as ++ p :: bs) (hz : k.state p = .zombie) (hr : k.reap p store = some k') :
    KernelInv spared k' (xs ++ ys) (update kids k.current (as ++ bs)) ∧ k'.current = k.current ∧
      k'.idleproc = k.idleproc ∧ k'.scheduling = k.scheduling := by
  have hcur := h.states.current
  have hnd := h.table.nodup
  have hpn : p ∉ xs ++ ys := (List.nodup_middle.1 hnd).notMem
  have hpk : p ∈ kids k.current := by simp [hk]
  have hpar := ((h.tree.family.mem_kids _ hcur p).1 hpk).2
  have hpc : p ≠ k.current := by
    rintro rfl
    exact h.tree.notMem_self hcur hpk
  have hawake : k.state k.current ≠ .sleeping := by
    simp [h.states.running hrun]
  have hik : k.idleproc ∉ kids k.current := fun hm =>
    h.table.idle ((h.tree.family.mem_kids _ hcur _).1 hm).1
  obtain ⟨m, c, y, o, rfl, hf, hsame, hlive⟩ := reap_spec h.tree.family.forest hcur hk hpar hr
  have hroot : y k.idleproc = none ∧ o k.idleproc = none := by
    rw [(hsame _ hik).1, (hsame _ hik).2]
    exact h.tree.family.root
  refine ⟨⟨⟨?_, ?_, ?_, ?_, fun x => ?_⟩, ?_⟩, rfl, rfl, rfl⟩
  · exact h.table.unlink rfl rfl rfl rfl rfl rfl rfl
  · exact h.tree.unlink hnd h.table.idle hz hcur hk hf hroot rfl rfl rfl
  · exact h.states.unlink hnd hpc rfl rfl rfl rfl rfl rfl rfl rfl
  · exact h.waits.unlink hnd hawake rfl rfl rfl
  · show S.live m x ↔ x ∈ k.idleproc :: (xs ++ ys)
    rw [hlive, h.live, List.mem_cons, List.mem_cons, mem_erase_mid hpn]
    constructor
    · rintro ⟨hx | hx, hxp⟩
      · exact .inl hx
      · exact .inr ⟨hx, hxp⟩
    · rintro (rfl | hx)
      · refine ⟨.inl rfl, ?_⟩
        rintro rfl
        exact h.table.idle (by simp)
      · exact ⟨.inr hx.1, hx.2⟩
  · refine ⟨(mem_erase_mid hpn).2 ⟨h.init.1, fun hip => ?_⟩, h.init.2⟩
    exact h.init.2.1 (hip ▸ hz)

/-- The process that runs, and is not `idleproc`. -/
def Active (spared : Prop) (k : Kernel S) : Prop :=
  k.scheduling = false ∧ k.current ≠ k.idleproc ∧ ∃ ps kids, KernelInv spared k ps kids

def Held (spared : Prop) (k : Kernel S) : Prop := ∃ ps kids, KernelInv spared k ps kids

theorem waitRepeat_inv (h : KernelInv spared k ps kids) (hrun : k.scheduling = false)
    (hidle : k.current ≠ k.idleproc)
    (hspare : spared → WaitFound k kids pid .sleep → k.flags k.current &&& pfExiting = 0)
    (hr : k.waitRepeat via pid store = some (ret, k')) :
    Held spared k' ∧ (ret.isSome → Active spared k') := by
  obtain ⟨scan, hscan, hfound⟩ := waitScan_spec h.toProcInv pid
  unfold Kernel.waitRepeat at hr
  rw [hscan] at hr
  simp only [Option.bind_eq_bind, Option.bind_some] at hr
  cases scan with
  | noChild =>
    cases hr
    exact ⟨⟨ps, kids, h⟩, fun _ => ⟨hrun, hidle, ps, kids, h⟩⟩
  | sleep =>
    cases hr
    exact ⟨⟨ps, kids, asleep_inv h hrun hidle hfound fun hsp => hspare hsp hfound⟩, by simp⟩
  | found p =>
    obtain ⟨hpk, -, hz⟩ := hfound
    obtain ⟨k₁, hreap, hr⟩ := Option.bind_eq_some_iff.1 hr
    cases hr
    obtain ⟨as, bs, hab⟩ := List.append_of_mem hpk
    obtain ⟨xs, ys, rfl⟩ := List.append_of_mem
      ((h.tree.family.mem_kids _ h.states.current p).1 hpk).1
    obtain ⟨h', hcur, hid, hsch⟩ := reap_inv h hrun hab hz hreap
    refine ⟨⟨_, _, h'⟩, fun _ => ⟨hsch.trans hrun, ?_, _, _, h'⟩⟩
    rwa [hcur, hid]

end

end UCore
