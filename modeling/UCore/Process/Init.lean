import UCore.Process.Fork

namespace UCore
set_option autoImplicit true
open Function (update)

section
variable {S : MemSys} {k k' : Kernel S} {ps : List Nat} {kids : Nat → List Nat} {spared : Prop}

theorem Forked.kernelInv (h : KernelInv spared k ps kids) (hf : Forked spared k k' ps kids entry p) :
    KernelInv spared k' (p :: ps) (update (update kids p []) k.current (p :: kids k.current)) where
  toProcInv := hf.inv
  init := by
    have hi := List.mem_cons_of_mem k.idleproc h.init.1
    rw [hf.initproc, hf.idleproc, hf.state _ hi, hf.parent _ hi]
    exact ⟨List.mem_cons_of_mem _ h.init.1, h.init.2⟩

theorem hashInit_ring (l : Links HashEntry) (hi : i < n) :
    ((List.range n).foldl (fun l i => listInit l (.bucket i)) l).Ring (.bucket i) [] := by
  induction n with
  | zero => exact absurd hi (Nat.not_lt_zero _)
  | succ n ih =>
    rw [List.range_succ, List.foldl_append]
    by_cases hin : i = n
    · subst hin
      exact listInit_ring ..
    · have hr := ih (by omega)
      have hne : HashEntry.bucket i ≠ .bucket n := fun he => hin (HashEntry.bucket.inj he)
      apply hr.congr
      · intro x hx
        obtain rfl := List.mem_singleton.1 hx
        simp [listInit, Links.setNext, Links.setPrev, hne]
      · intro x hx
        obtain rfl := List.mem_singleton.1 hx
        simp [listInit, Links.setNext, Links.setPrev, hne]

/-- The kernel with `idleproc` alone. -/
theorem idle_inv (hlist : k.listLink.Ring .procList [])
    (hhash : ∀ i < hashListSize, k.hashLink.Ring (.bucket i) []) (hn : k.nrProcess = 1)
    (hlast : k.lastPid = maxPid) (hnext : k.nextSafe = maxPid) (hcur : k.current = k.idleproc)
    (hst : k.state k.idleproc = .runnable) (hctl : k.ctl k.idleproc = .idle)
    (hpar : k.parent k.idleproc = none) (hw : k.waitState k.idleproc = 0)
    (hc : k.cptr k.idleproc = none)
    (hroot : k.yptr k.idleproc = none ∧ k.optr k.idleproc = none)
    (hlive : ∀ q, S.live k.mem q ↔ q = k.idleproc) :
    ProcInv spared k [] (fun _ => []) := by
  constructor
  · constructor
    · exact hlist
    · exact fun i hi => ⟨[], hhash i hi, fun p => by simp⟩
    · simp
    · simp
    · simpa using hn
    · simp [hn, maxProcess]
    · simp [hlast, maxPid]
    · simp [hnext]
    · simp
  · constructor
    · constructor
      · constructor
        · intro x hx
          obtain rfl := List.mem_singleton.1 hx
          exact hc
        · exact fun _ _ _ => trivial
        · simp
      · simp
      · exact hroot
    · simp
    · simp
  · constructor
    · simp
    · intro x hx _
      obtain rfl := List.mem_singleton.1 hx
      exact hw
    · simp
    · simp
    · exact ⟨hst, hctl, hpar⟩
    · simp [hcur]
    · exact fun _ => hcur ▸ hst
  · constructor
    simp
  · intro q
    rw [hlive, List.mem_singleton]

variable (spared) in
theorem idle_fork (hf : k.doFork fl entry = some (r, k')) (hr : 0 < r)
    (h : ProcInv spared k [] (fun _ => [])) (hs : k.scheduling = false) :
    ∃ p, k'.pid p = r ∧ Forked spared k k' [] (fun _ => []) entry p := by
  cases doFork_spec h hs hf with
  | inl hfail => exact absurd hfail.1 (by omega)
  | inr hok =>
    obtain ⟨p, -, hp, hfk⟩ := hok
    exact ⟨p, hp, hfk⟩

/-- `proc_init` leaves `idleproc` and its child `initproc`, which has not run yet. -/
theorem procInit_inv (hb : S.boot k.mem) (hn : k.nrProcess = 0) (hlast : k.lastPid = maxPid)
    (hnext : k.nextSafe = maxPid) (hs : k.scheduling = false) (h : k.procInit = some k') :
    ∃ p kids, KernelInv spared k' [p] kids ∧ ∃ via, k'.ctl p = .forkret via := by
  unfold Kernel.procInit Kernel.allocProc at h
  dsimp only at h
  have hring (i : Nat) (hi : i < hashListSize) := hashInit_ring k.hashLink hi
  generalize (List.range hashListSize).foldl (fun l i => listInit l (HashEntry.bucket i))
    k.hashLink = links at h hring
  split at h
  · cases h
  · rename_i p k₁ ha
    split at ha
    · cases ha
    · rename_i q m hm
      cases ha
      obtain ⟨⟨pid, k₂⟩, hf, h⟩ := Option.bind_eq_some_iff.1 h
      dsimp only at h
      split at h
      · cases h
      · rename_i hpid
        have hlive (q : Nat) : S.live m q ↔ q = p := by
          have := S.kmallocProc_live (q := q) hm
          simpa [S.boot_live hb, eq_comm] using this
        obtain ⟨i, hi, hfk⟩ := idle_fork spared hf (Int.not_le.1 hpid)
          (idle_inv (listInit_ring ..) hring (by simp [hn]) hlast hnext rfl
            (Function.update_self ..) (Function.update_self ..) (Function.update_self ..)
            (Function.update_self ..) (Function.update_self ..)
            ⟨Function.update_self .., Function.update_self ..⟩ hlive) hs
        obtain ⟨f, hfind, h⟩ := Option.bind_eq_some_iff.1 h
        obtain ⟨j, rfl, hinit⟩ := Option.bind_eq_some_iff.1 h
        split at hinit
        · cases hinit
          obtain ⟨f, hf', hiff⟩ := hfk.inv.table.findProc pid
          rw [hfind] at hf'
          cases hf'
          obtain rfl := List.mem_singleton.1 ((hiff j).1 rfl).1
          have hinv := hfk.inv
          refine ⟨j, _, ⟨⟨{ hinv.table with }, ⟨⟨hinv.tree.family.forest, hinv.tree.family.mem_kids, hinv.tree.family.root⟩,
            hinv.tree.parent, hinv.tree.zombie⟩, { hinv.states with }, ⟨hinv.waits.child⟩, hinv.live⟩,
            List.mem_cons_self .., by simp [hfk.started], ?_⟩, _, hfk.entered⟩
          have hkid := (hinv.tree.family.mem_kids k₂.idleproc (List.mem_cons_self ..) j).1
          show k₂.parent j = some k₂.idleproc
          rw [hfk.idleproc] at hkid ⊢
          exact (hkid (by simp)).2
        · cases hinit

end

end UCore
