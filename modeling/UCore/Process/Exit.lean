import UCore.Process.ProcSpec

namespace UCore
set_option autoImplicit true
open Function (update)

/-- Of the processes `xs` with the states `st` and the wait states `ws`, some sleepers were woken up. -/
def Woken (st : Nat → ProcState) (ws : Nat → BitVec 32) (st' : Nat → ProcState)
    (ws' : Nat → BitVec 32) (xs : List Nat) : Prop :=
  ∀ p ∈ xs, st' p = st p ∧ ws' p = ws p ∨ st p = .sleeping ∧ st' p = .runnable ∧ ws' p = 0

section
variable {st st' st'' : Nat → ProcState} {ws ws' ws'' : Nat → BitVec 32} {xs : List Nat}

theorem Woken.refl (st : Nat → ProcState) (ws : Nat → BitVec 32) (xs : List Nat) :
    Woken st ws st ws xs := fun _ _ => .inl ⟨rfl, rfl⟩

theorem Woken.trans (h : Woken st ws st' ws' xs) (h' : Woken st' ws' st'' ws'' xs) :
    Woken st ws st'' ws'' xs := by
  intro p hp
  cases h p hp with
  | inl hsame =>
    rw [← hsame.1, ← hsame.2]
    exact h' p hp
  | inr hwoken =>
    cases h' p hp with
    | inl hsame =>
      rw [hsame.1, hsame.2]
      exact .inr hwoken
    | inr hagain => exact .inr ⟨hwoken.1, hagain.2⟩

theorem Woken.sleeping (h : Woken st ws st' ws' xs) (hp : p ∈ xs) (hs : st' p = .sleeping) :
    st p = .sleeping ∧ ws' p = ws p := by
  cases h p hp with
  | inl hsame => exact ⟨hsame.1 ▸ hs, hsame.2⟩
  | inr hwoken => simp [hwoken.2.1] at hs

theorem Woken.zombie (h : Woken st ws st' ws' xs) (hp : p ∈ xs) : st' p = .zombie ↔ st p = .zombie := by
  cases h p hp with
  | inl hsame => rw [hsame.1]
  | inr hwoken => simp [hwoken.1, hwoken.2.1]

theorem Woken.update (h : st p = .sleeping) :
    Woken st ws (update st p .runnable) (update ws p 0) xs := by
  intro q _
  by_cases hqp : q = p
  · subst hqp
    exact .inr ⟨h, Function.update_self .., Function.update_self ..⟩
  · exact .inl ⟨Function.update_of_ne hqp .., Function.update_of_ne hqp ..⟩

theorem Woken.waiting (h : ∀ xs, Woken st ws st' ws' xs) (hw : ws p = wtChild → st p = .sleeping) :
    ws' p = wtChild → st' p = .sleeping := by
  intro hw'
  cases h [p] p (List.mem_singleton_self p) with
  | inl hsame =>
    rw [hsame.1]
    exact hw (hsame.2 ▸ hw')
  | inr hwoken =>
    rw [hwoken.2.2] at hw'
    exact absurd hw' (by decide)

end

section
variable {S : MemSys} {k k' k'' : Kernel S} {ps xs : List Nat} {kids : Nat → List Nat}
  {spared : Prop}

theorem wakeupProc_sleeping (h : k.state p = .sleeping) :
    k.wakeupProc p = some { k with
      state := update k.state p .runnable, waitState := update k.waitState p 0 } := by
  simp [Kernel.wakeupProc, h]

/-- The conditional wake-up of a parent that waits for a child. -/
theorem wake_waiting (cond : Prop) [Decidable cond]
    (h : k.waitState p = wtChild → k.state p = .sleeping) :
    ∃ st ws, (if cond ∧ k.waitState p = wtChild then k.wakeupProc p else some k) =
        some { k with state := st, waitState := ws } ∧
      (∀ xs, Woken k.state k.waitState st ws xs) ∧
      (cond → k.waitState p = wtChild → st p ≠ .sleeping) := by
  by_cases hw : cond ∧ k.waitState p = wtChild
  · rw [if_pos hw, wakeupProc_sleeping (h hw.2)]
    exact ⟨_, _, rfl, fun _ => .update (h hw.2), by simp⟩
  · rw [if_neg hw]
    exact ⟨_, _, rfl, fun _ => .refl _ _ _, fun hc hp => absurd ⟨hc, hp⟩ hw⟩

/-- One round of the loop of `do_exit`: the first child of `c` becomes the first child of `i`. -/
theorem Family.handOver (h : Family k ps kids (some c)) (hidle : k.idleproc ∉ ps)
    (hk : kids c = p :: rest)
    (hc : c ∈ k.idleproc :: ps) (hi : i ∈ k.idleproc :: ps) (hic : i ≠ c)
    (ecptr : k'.cptr = update (update k.cptr c (k.optr p)) i (some p))
    (eyptr : k'.yptr = backLink k.yptr p (k.cptr i)) (eoptr : k'.optr = update k.optr p (k.cptr i))
    (eparent : k'.parent = update k.parent p (some i)) (eidle : k'.idleproc = k.idleproc) :
    Family k' ps (update (update kids c rest) i (p :: kids i)) (some c) := by
  have hpc := (h.mem_kids c hc p).1 (by simp [hk])
  have hnd := (h.forest.chain c hc).nodup
  rw [hk] at hnd
  have hpr : p ∉ rest := hnd.notMem
  have hki : update kids c rest i = kids i := Function.update_of_ne hic ..
  have hci : update k.cptr c (k.optr p) i = k.cptr i := Function.update_of_ne hic ..
  have hnot (x : Nat) (hx : x ∈ k.idleproc :: ps) : p ∉ update kids c rest x := by
    by_cases hxc : x = c
    · subst hxc
      rwa [Function.update_self]
    · rw [Function.update_of_ne hxc]
      exact fun hm => hxc (Option.some.inj (((h.mem_kids x hx p).1 hm).2.symm.trans hpc.2))
  constructor
  · have hf := (h.forest.behead hk hc).adopt hi (by simpa using hic) hnot
    rwa [hki, hci, ← eoptr, ← eyptr, ← ecptr, ← eidle] at hf
  · intro x hx d
    rw [eidle] at hx
    rw [eparent]
    by_cases hdp : d = p
    · subst hdp
      rw [Function.update_self]
      by_cases hxi : x = i
      · subst hxi
        simp [hpc.1]
      · rw [Function.update_of_ne hxi]
        exact ⟨fun hm => absurd hm (hnot x hx), fun hm => absurd (Option.some.inj hm.2).symm hxi⟩
    · rw [Function.update_of_ne hdp, ← h.mem_kids x hx d]
      by_cases hxi : x = i
      · subst hxi
        simp [hdp]
      · rw [Function.update_of_ne hxi]
        by_cases hxc : x = c
        · subst hxc
          simp [hk, hdp]
        · rw [Function.update_of_ne hxc]
  · have hip : k.idleproc ≠ p := fun he => hidle (he ▸ hpc.1)
    rw [eidle, eyptr, eoptr, Function.update_of_ne hip, backLink_other hip (h.head_ne_idle hidle hi)]
    exact h.root

/-- The stores of one round of the loop of `do_exit`, for the first child `p`. -/
def Kernel.handOver (k : Kernel S) (p : Nat) : Kernel S :=
  { k with
    cptr := update (update k.cptr k.current (k.optr p)) k.initproc (some p)
    yptr := backLink k.yptr p (k.cptr k.initproc)
    optr := update k.optr p (k.cptr k.initproc)
    parent := update k.parent p (some k.initproc) }

theorem reparent_round (hp : k.cptr k.current = some p) (hic : k.initproc ≠ k.current) :
    k.reparent (fuel + 1) =
      (if k.state p = .zombie ∧ (k.handOver p).waitState k.initproc = wtChild then
        (k.handOver p).wakeupProc k.initproc
      else some (k.handOver p)).bind fun k => k.reparent fuel := by
  cases hci : k.cptr k.initproc with
  | none =>
    simp [Kernel.reparent, Kernel.reparentWith, hp, Kernel.setCptr, Kernel.setYptr, Kernel.setOptr, hci,
      hic, Kernel.handOver, backLink]
  | some o =>
    simp [Kernel.reparent, Kernel.reparentWith, hp, Kernel.setCptr, Kernel.setYptr, Kernel.setOptr, hci,
      hic, Kernel.handOver, backLink]

theorem handOver_kids {c i p : Nat} {r : List Nat} (kids : Nat → List Nat) (hic : i ≠ c) :
    update (update (update (update kids c r) i (p :: kids i)) c []) i
        (r.reverse ++ update (update kids c r) i (p :: kids i) i) =
      update (update kids c []) i ((p :: r).reverse ++ kids i) := by
  funext x
  by_cases hxi : x = i
  · simp [hxi]
  · by_cases hxc : x = c
    · simp [hxc, hic.symm]
    · simp [hxi, hxc]

/-- The loop of `do_exit` hands all children of the current process to `initproc`, which does not stay
asleep if one of them is a zombie. -/
theorem reparent_spec (h : Family k ps kids (some k.current)) (hidle : k.idleproc ∉ ps) (hk : kids k.current = rest)
    (hc : k.current ∈ k.idleproc :: ps) (hi : k.initproc ∈ k.idleproc :: ps)
    (hic : k.initproc ≠ k.current) (hw : k.waitState k.initproc = wtChild → k.state k.initproc = .sleeping)
    (hfuel : rest.length < fuel) :
    ∃ c y o par st ws,
      k.reparent fuel = some { k with
        cptr := c, yptr := y, optr := o, parent := par, state := st, waitState := ws } ∧
      Family { k with cptr := c, yptr := y, optr := o, parent := par, state := st, waitState := ws } ps
        (update (update kids k.current []) k.initproc (rest.reverse ++ kids k.initproc))
        (some k.current) ∧
      (∀ x ∉ rest, par x = k.parent x) ∧
      (∀ xs, Woken k.state k.waitState st ws xs) ∧
      (st k.initproc = .sleeping → k.waitState k.initproc = wtChild →
        ∀ x ∈ rest, k.state x ≠ .zombie) := by
  induction rest generalizing k kids fuel with
  | nil =>
    obtain ⟨fuel, rfl⟩ := Nat.exists_eq_add_one.2 hfuel
    have hnil : k.cptr k.current = none := by
      have hchain := h.forest.chain _ hc
      rwa [hk] at hchain
    refine ⟨k.cptr, k.yptr, k.optr, k.parent, k.state, k.waitState, ?_, ?_, fun _ _ => rfl,
      fun _ => .refl _ _ _, by simp⟩
    · simp only [Kernel.reparent, Kernel.reparentWith, hnil]
    · have hsame : update (update kids k.current []) k.initproc ([].reverse ++ kids k.initproc) = kids := by
        rw [List.reverse_nil, List.nil_append, ← hk]
        simp
      rw [hsame]
      exact ⟨h.forest, h.mem_kids, h.root⟩
  | cons p rest ih =>
    obtain ⟨fuel, rfl⟩ := Nat.exists_eq_add_one.2 (Nat.zero_lt_of_lt hfuel)
    have hhead : k.cptr k.current = some p := by
      have hchain := h.forest.chain _ hc
      rw [hk] at hchain
      exact hchain.1
    have hround : k.reparent (fuel + 1) = _ := reparent_round hhead hic
    obtain ⟨st, ws, hwake, hwoken, hnot⟩ := wake_waiting (k := k.handOver p) (k.state p = .zombie) hw
    rw [hwake, Option.bind_some] at hround
    have hfam : Family { k.handOver p with state := st, waitState := ws } ps
        (update (update kids k.current rest) k.initproc (p :: kids k.initproc)) (some k.current) :=
      h.handOver hidle hk hc hi hic rfl rfl rfl rfl rfl
    have hrest : update (update kids k.current rest) k.initproc (p :: kids k.initproc) k.current = rest := by
      rw [Function.update_of_ne (Ne.symm hic), Function.update_self]
    obtain ⟨c, y, o, par, st', ws', hrec, hfam', hpar, hwoken', hz⟩ := ih hfam hidle hrest hc hi hic
      (Woken.waiting hwoken hw) (Nat.lt_of_succ_lt_succ hfuel)
    refine ⟨c, y, o, par, st', ws', hround.trans hrec, ?_, ?_, ?_, ?_⟩
    · have hkids := handOver_kids (p := p) (r := rest) kids hic
      exact hkids ▸ ⟨hfam'.forest, hfam'.mem_kids, hfam'.root⟩
    · intro x hx
      rw [List.mem_cons, not_or] at hx
      obtain ⟨hxp, hxr⟩ := hx
      exact (hpar x hxr).trans (Function.update_of_ne hxp ..)
    · exact fun xs => Woken.trans (hwoken xs) (hwoken' xs)
    · intro hs hwi x hx hxz
      have hs' := (hwoken' [k.initproc]).sleeping (List.mem_singleton_self _) hs
      have hs'' := (hwoken [k.initproc]).sleeping (List.mem_singleton_self _) hs'.1
      cases hx with
      | head => exact hnot hxz hwi hs'.1
      | tail _ hx =>
        apply hz hs (hs''.2.trans hwi) x hx
        exact ((hwoken [x]).zombie (List.mem_singleton_self _)).2 hxz

theorem ProcStates.waiting (h : ProcStates spared k ps) (hp : p ∈ k.idleproc :: ps)
    (hw : k.waitState p = wtChild) : k.state p = .sleeping := by
  by_contra hs
  rw [h.awake p hp hs] at hw
  exact absurd hw (by decide)

/-- The kernel `k` when its current process has become a zombie and given up its children, the memory and
the exit code aside. -/
structure Exited (k k' : Kernel S) (ps : List Nat) (kids : Nat → List Nat) : Prop where
  woken : Woken (update k.state k.current .zombie) k.waitState k'.state k'.waitState (k.idleproc :: ps)
  family : Family k' ps
    (update (update kids k.current []) k.initproc ((kids k.current).reverse ++ kids k.initproc))
    (some k.current)
  parent : ∀ x ∉ kids k.current, k'.parent x = k.parent x
  told : ∀ p, k.parent k.current = some p → k'.state p ≠ .sleeping
  adopted : k'.state k.initproc = .sleeping → ∀ x ∈ kids k.current, k.state x ≠ .zombie
  ctl : k'.ctl = update k.ctl k.current .exiting
  pid : k'.pid = k.pid
  flags : k'.flags = k.flags
  listLink : k'.listLink = k.listLink
  hashLink : k'.hashLink = k.hashLink
  nrProcess : k'.nrProcess = k.nrProcess
  lastPid : k'.lastPid = k.lastPid
  nextSafe : k'.nextSafe = k.nextSafe
  current : k'.current = k.current
  idleproc : k'.idleproc = k.idleproc
  initproc : k'.initproc = k.initproc
  scheduling : k'.scheduling = true
  live : ∀ q, S.live k'.mem q ↔ S.live k.mem q

theorem Exited.sleeping (he : Exited k k' ps kids) (hp : p ∈ k.idleproc :: ps)
    (hs : k'.state p = .sleeping) :
    p ≠ k.current ∧ k.state p = .sleeping ∧ k'.waitState p = k.waitState p := by
  obtain ⟨hst, hw⟩ := he.woken.sleeping hp hs
  have hpc : p ≠ k.current := by
    rintro rfl
    simp at hst
  rw [Function.update_of_ne hpc] at hst
  exact ⟨hpc, hst, hw⟩

theorem Exited.zombie (he : Exited k k' ps kids) (hp : p ∈ k.idleproc :: ps) :
    k'.state p = .zombie ↔ p = k.current ∨ k.state p = .zombie := by
  rw [he.woken.zombie hp]
  by_cases hpc : p = k.current
  · simp [hpc]
  · simp [hpc]

theorem Exited.table (he : Exited k k' ps kids) (h : ProcTable k ps) : ProcTable k' ps := by
  constructor
  · rw [he.listLink]
    exact h.list
  · rw [he.hashLink, he.pid]
    exact h.hash
  · rw [he.pid]
    exact h.pid_range
  · rw [he.pid]
    exact h.pid_inj
  · rw [he.nrProcess]
    exact h.count
  · rw [he.nrProcess]
    exact h.bound
  · rw [he.lastPid]
    exact h.last
  · rw [he.lastPid, he.nextSafe, he.pid]
    exact h.gap
  · rw [he.idleproc]
    exact h.idle

theorem Exited.tree (he : Exited k k' ps kids) (h : KernelInv spared k ps kids)
    (hci : k.initproc ≠ k.current) (hidle : k.current ≠ k.idleproc) :
    ProcTree k' ps
      (update (update kids k.current []) k.initproc ((kids k.current).reverse ++ kids k.initproc)) := by
  have hinit := List.mem_cons_of_mem k.idleproc h.init.1
  have hcur := h.states.current
  have hnil : update (update kids k.current []) k.initproc
      ((kids k.current).reverse ++ kids k.initproc) k.current = [] := by
    rw [Function.update_of_ne hci.symm, Function.update_self]
  constructor
  · exact ⟨he.family.forest.tighten hnil, he.family.mem_kids, he.family.root⟩
  · intro c hc
    by_cases hck : c ∈ kids k.current
    · refine ⟨k.initproc, by rwa [he.idleproc], ?_, ?_, ?_⟩
      · have hmem := he.family.mem_kids k.initproc (by rwa [he.idleproc]) c
        rw [Function.update_self] at hmem
        exact (hmem.1 (List.mem_append_left _ (List.mem_reverse.2 hck))).2
      · rintro rfl
        have hpar := ((h.tree.family.mem_kids _ hcur _).1 hck).2
        rw [h.init.2.2] at hpar
        exact hidle (Option.some.inj hpar).symm
      · rw [ne_eq, he.zombie hinit, not_or]
        exact ⟨hci, h.init.2.1⟩
    · obtain ⟨p, hp, hcp, hne, hz⟩ := h.tree.parent c hc
      refine ⟨p, by rwa [he.idleproc], (he.parent c hck).trans hcp, hne, ?_⟩
      rw [ne_eq, he.zombie hp, not_or]
      refine ⟨?_, hz⟩
      rintro rfl
      exact hck ((h.tree.family.mem_kids _ hp c).2 ⟨hc, hcp⟩)
  · intro p hp hz
    by_cases hpc : p = k.current
    · rw [hpc, hnil]
    · have hzk := ((he.zombie (List.mem_cons_of_mem _ hp)).1 hz).resolve_left hpc
      rw [Function.update_of_ne, Function.update_of_ne hpc]
      · exact h.tree.zombie p hp hzk
      · rintro rfl
        exact h.init.2.1 hzk

theorem Exited.states (he : Exited k k' ps kids) (h : KernelInv spared k ps kids)
    (hrun : k.scheduling = false) (hci : k.current ≠ k.idleproc) : ProcStates spared k' ps := by
  have hst := h.states
  constructor
  · intro p hp hs
    obtain ⟨hpc, hsk, hw⟩ := he.sleeping (List.mem_cons_of_mem _ hp) hs
    rw [hw, he.ctl, Function.update_of_ne hpc]
    exact hst.asleep p hp hsk
  · intro p hp hs
    rw [he.idleproc] at hp
    cases he.woken p hp with
    | inl hsame =>
      rw [hsame.2]
      apply hst.awake p hp
      by_cases hpc : p = k.current
      · simp [hpc, hst.running hrun]
      · rwa [hsame.1, Function.update_of_ne hpc] at hs
    | inr hwoken => exact hwoken.2.2
  · intro hsp p hp hs
    rw [he.flags]
    exact hst.spare hsp p hp (he.sleeping (List.mem_cons_of_mem _ hp) hs).2.1
  · intro p hp
    cases he.woken p (List.mem_cons_of_mem _ hp) with
    | inl hsame =>
      rw [hsame.1]
      by_cases hpc : p = k.current
      · simp [hpc]
      · rw [Function.update_of_ne hpc]
        exact hst.ready p hp
    | inr hwoken => simp [hwoken.2.1]
  · obtain ⟨hsi, hctl, hpar⟩ := hst.idle
    have hidle := List.mem_cons_self (a := k.idleproc) (l := ps)
    rw [he.idleproc, he.ctl, Function.update_of_ne hci.symm, he.parent]
    · refine ⟨?_, hctl, hpar⟩
      cases he.woken _ hidle with
      | inl hsame => rw [hsame.1, Function.update_of_ne hci.symm, hsi]
      | inr hwoken => exact hwoken.2.1
    · intro hk
      exact h.table.idle ((h.tree.family.mem_kids _ hst.current _).1 hk).1
  · rw [he.current, he.idleproc]
    exact hst.current
  · intro hs
    rw [he.scheduling] at hs
    cases hs

theorem Exited.waits (he : Exited k k' ps kids) (h : KernelInv spared k ps kids) :
    ProcWaits k' ps
      (update (update kids k.current []) k.initproc ((kids k.current).reverse ++ kids k.initproc)) := by
  constructor
  intro p hp hs via pid store hctl
  have hpm := List.mem_cons_of_mem k.idleproc hp
  obtain ⟨hpc, hsk, -⟩ := he.sleeping hpm hs
  rw [he.ctl, Function.update_of_ne hpc] at hctl
  obtain ⟨⟨c, hc, hcp⟩, hz⟩ := h.waits.child p hp hsk via pid store hctl
  have hold (d : Nat) (hd : d ∈ kids p) (hdp : pid = 0 ∨ k.pid d = pid) : k'.state d ≠ .zombie := by
    rw [ne_eq, he.zombie (h.tree.family.kid_mem hpm hd), not_or]
    refine ⟨?_, hz d hd hdp⟩
    rintro rfl
    exact he.told p ((h.tree.family.mem_kids p hpm _).1 hd).2 hs
  rw [he.pid]
  by_cases hpi : p = k.initproc
  · subst hpi
    rw [Function.update_self]
    refine ⟨⟨c, List.mem_append_right _ hc, hcp⟩, fun d hd hdp => ?_⟩
    cases List.mem_append.1 hd with
    | inl hd =>
      rw [List.mem_reverse] at hd
      rw [ne_eq, he.zombie (h.tree.family.kid_mem h.states.current hd), not_or]
      refine ⟨?_, he.adopted hs d hd⟩
      rintro rfl
      exact h.tree.notMem_self h.states.current hd
    | inr hd => exact hold d hd hdp
  · rw [Function.update_of_ne hpi, Function.update_of_ne hpc]
    exact ⟨⟨c, hc, hcp⟩, hold⟩

theorem Exited.kernelInv (he : Exited k k' ps kids) (h : KernelInv spared k ps kids)
    (hrun : k.scheduling = false) (hidle : k.current ≠ k.idleproc) (hinit : k.initproc ≠ k.current) :
    KernelInv spared k' ps
      (update (update kids k.current []) k.initproc ((kids k.current).reverse ++ kids k.initproc)) where
  table := he.table h.table
  tree := he.tree h hinit hidle
  states := he.states h hrun hidle
  waits := he.waits h
  live q := by rw [he.live, he.idleproc, h.live]
  init := by
    have hnot : k.initproc ∉ kids k.current := by
      intro hm
      have hpar := ((h.tree.family.mem_kids _ h.states.current _).1 hm).2
      rw [h.init.2.2] at hpar
      exact hidle (Option.some.inj hpar).symm
    rw [he.initproc, he.idleproc, he.parent _ hnot, ne_eq, he.zombie (List.mem_cons_of_mem _ h.init.1),
      not_or]
    exact ⟨h.init.1, ⟨hinit, h.init.2.1⟩, h.init.2.2⟩

theorem exitMm_spec (xs : List Nat) (h : k.exitMm = some k') :
    SameProcs k k' xs ∧ ∀ q, S.live k'.mem q ↔ S.live k.mem q := by
  unfold Kernel.exitMm at h
  split at h
  · cases h
    exact ⟨.refl .., fun _ => Iff.rfl⟩
  · obtain ⟨m, hm, h⟩ := Option.bind_eq_some_iff.1 h
    cases h
    refine ⟨?_, fun q => ?_⟩
    · constructor <;> intros <;> rfl
    · show S.live m q ↔ _
      rw [S.dropMm_live hm]

/-- `do_exit` keeps the invariant, and ends inside `schedule()`. -/
theorem doExit_spec (h : KernelInv spared k ps kids) (hrun : k.scheduling = false)
    (hx : k.doExit e = some k') :
    ∃ k₁, k.exitMm = some k₁ ∧ k.current ≠ k.idleproc ∧ k.current ≠ k.initproc ∧
      Exited k₁ k' ps kids := by
  unfold Kernel.doExit Kernel.doExitWith at hx
  split at hx
  · cases hx
  · rename_i hidle
    split at hx
    · cases hx
    · rename_i hinit
      obtain ⟨k₁, hm, hx⟩ := Option.bind_eq_some_iff.1 hx
      refine ⟨k₁, hm, hidle, hinit, ?_⟩
      obtain ⟨hsame, hlive⟩ := exitMm_spec (k.idleproc :: ps) hm
      have h₁ := h.congr hsame hlive
      have hrun₁ : k₁.scheduling = false := hsame.scheduling.trans hrun
      rw [← hsame.current, ← hsame.idleproc] at hidle
      rw [← hsame.current, ← hsame.initproc] at hinit
      clear hsame hlive hm hrun h
      obtain ⟨q, hpar, hx⟩ := Option.bind_eq_some_iff.1 hx
      obtain ⟨k₃, hwake, hx⟩ := Option.bind_eq_some_iff.1 hx
      obtain ⟨k₄, hre, hx⟩ := Option.bind_eq_some_iff.1 hx
      have hcur := h₁.states.current
      have hcps : k₁.current ∈ ps := (List.mem_cons.1 hcur).resolve_left hidle
      have hinit₁ := List.mem_cons_of_mem k₁.idleproc h₁.init.1
      have hq : q ∈ k₁.idleproc :: ps := by
        obtain ⟨r, hr, hr', -⟩ := h₁.tree.parent _ hcps
        exact Option.some.inj (hr'.symm.trans hpar) ▸ hr
      have hrunning := h₁.states.running hrun₁
      have hst (p : Nat) (hs : k₁.state p = .sleeping) :
          update k₁.state k₁.current .zombie p = .sleeping := by
        rwa [Function.update_of_ne]
        rintro rfl
        simp [hrunning] at hs
      have hst' (p : Nat) (hs : update k₁.state k₁.current .zombie p = .sleeping) :
          k₁.state p = .sleeping := by
        by_cases hpc : p = k₁.current
        · simp [hpc] at hs
        · rwa [Function.update_of_ne hpc] at hs
      have hasleep (p : Nat) (hp : p ∈ k₁.idleproc :: ps) (hs : k₁.state p = .sleeping) :
          k₁.waitState p = wtChild := by
        cases hp with
        | head => simp [h₁.states.idle.1] at hs
        | tail _ hp => exact (h₁.states.asleep p hp hs).1
      obtain ⟨st, ws, hw, hwoken, hnot⟩ := wake_waiting (p := q)
        (k := { k₁ with
          state := update k₁.state k₁.current .zombie, exitCode := update k₁.exitCode k₁.current e })
        True fun hw => hst q (h₁.states.waiting hq hw)
      simp only [true_and] at hw
      obtain rfl := Option.some.inj (hwake.symm.trans hw)
      obtain ⟨c, y, o, par, st', ws', hre', hfam, hpar', hwoken', hz⟩ := reparent_spec
        (k := { k₁ with
          state := st, waitState := ws, exitCode := update k₁.exitCode k₁.current e })
        ⟨h₁.tree.family.forest.loosen _, h₁.tree.family.mem_kids, h₁.tree.family.root⟩ h₁.table.idle rfl hcur hinit₁
        (Ne.symm hinit)
        (Woken.waiting hwoken fun hw => hst _ (h₁.states.waiting hinit₁ hw))
        (Nat.lt_succ_of_lt (h₁.tree.length_kids h₁.table hcur))
      obtain rfl := Option.some.inj (hre.symm.trans hre')
      cases hx
      refine ⟨(hwoken _).trans (hwoken' _), ⟨hfam.forest, hfam.mem_kids, hfam.root⟩, hpar', ?_, ?_, rfl, rfl, rfl,
        rfl, rfl, rfl, rfl, rfl, rfl, rfl, rfl, rfl, fun _ => Iff.rfl⟩
      · intro p hp hs
        obtain rfl := Option.some.inj (hpar.symm.trans hp)
        have hs₁ := ((hwoken' _).sleeping hq hs).1
        have hs₂ := ((hwoken _).sleeping hq hs₁).1
        exact hnot trivial (hasleep q hq (hst' q hs₂)) hs₁
      · intro hs x hx hxz
        have hs₁ := ((hwoken' _).sleeping hinit₁ hs).1
        have hs₂ := (hwoken _).sleeping hinit₁ hs₁
        apply hz hs (hs₂.2.trans (hasleep _ hinit₁ (hst' _ hs₂.1))) x hx
        have hxz' : update k₁.state k₁.current .zombie x = .zombie := by
          by_cases hxc : x = k₁.current
          · simp [hxc]
          · rwa [Function.update_of_ne hxc]
        exact ((hwoken _).zombie (h₁.tree.family.kid_mem hcur hx)).2 hxz'

end

end UCore
