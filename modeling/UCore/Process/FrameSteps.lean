import UCore.Process.FrameProcs

namespace UCore
set_option autoImplicit true
open Function (update)

/-- A process that sleeps in `do_wait` with a pointer for the exit code has an address space around it. -/
def Kernel.storesOk {A : PhysSys} {bs : Nat} (k : Kernel (pagingSys A bs)) (p : Nat) : Prop :=
  ∀ via pid a, k.ctl p = .waiting via pid (some a) → ∃ x, k.mm p = some x ∧ a + 4 ≤ 2 ^ 38

/-- The kernel stacks of the processes, but for `idleproc` with its `bootstack`, and the address spaces have frames of
their own. -/
structure FrameInv {A : PhysSys} {bs : Nat} (k : Kernel (pagingSys A bs)) : Prop where
  kstacks : Stacks k.kstack (k.procs.erase k.idleproc)
  frames : SpaceFrames (StackFrame k.kstack (k.procs.erase k.idleproc)) k.kmem.mem
  stores : ∀ p ∈ k.procs, k.storesOk p

/-- A call has kept the invariant, and has worked on the address space `own` only. -/
structure FrameStep {A : PhysSys} {bs : Nat} (own : Option Nat) (k k' : Kernel (pagingSys A bs)) : Prop where
  inv : FrameInv k'
  others : ∀ y ∈ k.spaces, some y ≠ own → y ∈ k'.spaces ∧ Untouched y k.kmem.mem k'.kmem.mem

section
variable {A : PhysSys} {bs : Nat} {k k₀ k' k'' : Kernel (pagingSys A bs)} {P : Finset Nat} {own : Option Nat}

theorem FrameInv.start (h : FrameInv k) (own : Option Nat) : Working (k.procs.erase k.idleproc) own k k :=
  ⟨h.kstacks, .refl h.frames own⟩

theorem FrameInv.refl (h : FrameInv k) (own : Option Nat) : FrameStep own k k := ⟨h, fun y hy _ => ⟨hy, .refl y _⟩⟩

theorem FrameStep.widen (h : FrameStep none k k') (own : Option Nat) : FrameStep own k k' :=
  ⟨h.inv, fun y hy _ => h.others y hy nofun⟩

theorem FrameStep.trans (h : FrameStep own k k') (h' : FrameStep own k' k'') : FrameStep own k k'' := by
  refine ⟨h'.inv, fun y hy hn => ?_⟩
  obtain ⟨hy', hu⟩ := h.others y hy hn
  obtain ⟨hy'', hu'⟩ := h'.others y hy' hn
  exact ⟨hy'', hu.trans hu'⟩

/-- The end of a call: the processes other than `c` are those before it, and continue where they did. -/
theorem Working.done (w : Working (k'.procs.erase k'.idleproc) own k k') (hs : ∀ p ∈ k.procs, k.storesOk p)
    (hold : ∀ p ∈ k'.procs, p ≠ c → p ∈ k.procs ∧ k'.ctl p = k.ctl p ∧ k'.mm p = k.mm p)
    (hc : c ∈ k'.procs → k'.storesOk c) : FrameStep own k k' := by
  refine ⟨⟨w.kstacks, w.inside.frames, fun p hp => ?_⟩, w.inside.others⟩
  by_cases hpc : p = c
  · rw [hpc] at hp ⊢
    exact hc hp
  · obtain ⟨hp, hctl, hmm⟩ := hold p hp hpc
    have hok := hs p hp
    unfold Kernel.storesOk at hok ⊢
    rw [hctl, hmm]
    exact hok

/-- A call that leaves the processes alone. -/
theorem FrameInv.calm (h : FrameInv k) (w : Working (k.procs.erase k.idleproc) own k k') (hp : k'.procs = k.procs)
    (hi : k'.idleproc = k.idleproc) (hc : k'.ctl = k.ctl) (hm : k'.mm = k.mm) : FrameStep own k k' := by
  rw [← hp, ← hi] at w
  refine ⟨⟨w.kstacks, w.inside.frames, fun p hp' => ?_⟩, w.inside.others⟩
  have hok := h.stores p (hp ▸ hp')
  unfold Kernel.storesOk at hok ⊢
  rw [hc, hm]
  exact hok

theorem FrameInv.setMem (h : FrameInv k)
    (hi : Inside (StackFrame k.kstack (k.procs.erase k.idleproc)) own k.kmem.mem m.mem) (hp : m.procs = k.kmem.procs) :
    FrameStep own k (k.setMem m) :=
  h.calm ((h.start own).setMem hi) hp rfl rfl rfl

theorem FrameInv.same (h : FrameInv k) (hs : SameStacks k k') : FrameStep own k k' :=
  h.calm ((h.start own).same hs.mem hs.kstack) (congrArg KMem.procs hs.mem) hs.idleproc hs.ctl hs.mm

/-- `do_fork` gives a new process a new kernel stack. -/
theorem FrameInv.doFork (h : FrameInv k) (hi : k.idleproc ∈ k.procs) (hx : ∀ x, k.mm k.current = some x → x ∈ k.spaces)
    (hcur : k.current ∈ k.procs) (hf : k.doFork fl entry = some (e, k')) : FrameStep none k k' := by
  have w := h.start none
  unfold Kernel.doFork Kernel.doForkWith at hf
  split at hf
  · cases hf
    exact h.refl none
  · split at hf
    · rename_i k₁ ha
      cases hf
      unfold Kernel.allocProc at ha
      split at ha
      · rename_i m hm
        cases ha
        have hm : k.kmem.kmallocProc = (none, m) := hm
        exact h.setMem (h.frames.kmallocProc hm) (SameBlocks.kmallocProc hm).procs
      · cases ha
    · rename_i p k₁ ha
      obtain ⟨hfresh, hprocs, w₁, hks₁, hctl₁, hcur₁, hi₁, hmm₁⟩ : p ∉ k.procs ∧ k₁.procs = insert p k.procs ∧
          Working (k.procs.erase k.idleproc) none k k₁ ∧ k₁.kstack p = 0 ∧ k₁.ctl = k.ctl ∧ k₁.current = k.current ∧
          k₁.idleproc = k.idleproc ∧ ∀ q ≠ p, k₁.mm q = k.mm q := by
        unfold Kernel.allocProc at ha
        split at ha
        · cases ha
        · rename_i q m hm
          cases ha
          have hm : k.kmem.kmallocProc = (some p, m) := hm
          obtain ⟨hfresh, hprocs, -⟩ := kmallocProc_some hm
          refine ⟨hfresh, hprocs, w.next (fun q hq => ?_) (w.inside.frames.kmallocProc hm), Function.update_self ..,
            rfl, rfl, rfl, fun q hq => Function.update_of_ne hq ..⟩
          exact Function.update_of_ne (ne_of_mem_of_not_mem (Finset.mem_of_mem_erase hq) hfresh) ..
      have hp : p ∉ k.procs.erase k.idleproc := fun hc => hfresh (Finset.mem_of_mem_erase hc)
      have hpi : p ≠ k.idleproc := (ne_of_mem_of_not_mem hi hfresh).symm
      have hcp : k.current ≠ p := ne_of_mem_of_not_mem hcur hfresh
      dsimp only at hf
      have hpar : SameStacks k₁ { k₁ with parent := update k₁.parent p (some k₁.current) } :=
        ⟨rfl, rfl, rfl, rfl, rfl, rfl⟩
      have w₁ := w₁.same hpar.mem hpar.kstack
      split at hf
      · rename_i k₂ hks
        obtain ⟨k₃, hpk, -⟩ := Option.bind_eq_some_iff.1 hf
        obtain ⟨-, -, -, -, -, ⟨-, hks₂⟩ | ⟨hb, -⟩⟩ := w₁.setupKstack hp hks
        · obtain ⟨m, hm, -⟩ := Option.map_eq_some_iff.1 hpk
          have hzero : k₂.kstack p = 0 := by
            rw [hks₂]
            exact hks₁
          have hm : KMem.freeKstack k₂.kmem (k₂.kstack p) = some m := hm
          rw [hzero] at hm
          cases hm
        · cases hb
      · rename_i k₂ hks
        obtain ⟨hbl, hmm₂, hctl₂, hcur₂, hi₂, ⟨hb, -⟩ | ⟨-, w₂⟩⟩ := w₁.setupKstack hp hks
        · cases hb
        obtain ⟨⟨r, k₃⟩, hcm, hf⟩ := Option.bind_eq_some_iff.1 hf
        have hold : k₂.mm k₂.current = k.mm k.current := by
          rw [hmm₂, hcur₂]
          show k₁.mm k₁.current = _
          rw [hcur₁, hmm₁ _ hcp]
        obtain ⟨w₃, hprocs₃, hctl₃, hcur₃, hi₃, hmm₃⟩ := w₂.copyMm (fun x he => w₂.spaces (hx x (hold ▸ he))) hcm
        have hprocs₃ : k₃.procs = insert p k.procs := (hprocs₃.trans hbl.procs).trans hprocs
        have hctl₃ : k₃.ctl = k.ctl := (hctl₃.trans hctl₂).trans hctl₁
        have hi₃ : k₃.idleproc = k.idleproc := (hi₃.trans hi₂).trans hi₁
        have hmm₃ (q : Nat) (hq : q ≠ p) : k₃.mm q = k.mm q := by
          rw [hmm₃ q hq, hmm₂]
          exact hmm₁ q hq
        dsimp only at hf
        split at hf
        · cases hf
          have hprocs' : (k₃.kfreeProc p).procs = k.procs := by
            have hk : (k₃.kfreeProc p).procs = k₃.procs.erase p :=
              (kfreeProc_some (m := k₃.kmem) (by rw [show k₃.kmem.procs = _ from hprocs₃]; exact Finset.mem_insert_self ..)).1
            rw [hk, hprocs₃, Finset.erase_insert hfresh]
          refine Working.done (c := p) ?_ h.stores (fun q hq hqp => ?_) fun hc => absurd (hprocs' ▸ hc) hfresh
          · rw [hprocs', show (k₃.kfreeProc p).idleproc = k.idleproc from hi₃]
            exact (w₃.kfreeProc p).sub (Finset.subset_insert ..)
          · exact ⟨hprocs' ▸ hq, congrFun hctl₃ q, hmm₃ q hqp⟩
        · obtain ⟨⟨pid, k₄⟩, hget, hf⟩ := Option.bind_eq_some_iff.1 hf
          obtain ⟨k₅, hset, hf⟩ := Option.bind_eq_some_iff.1 hf
          obtain ⟨k₆, hwake, hf⟩ := Option.bind_eq_some_iff.1 hf
          cases hf
          have hpid : SameStacks k₄ (({ k₄ with pid := update k₄.pid p pid } : Kernel _).hashProc p) :=
            ⟨rfl, rfl, rfl, rfl, rfl, rfl⟩
          have hall := (((SameStacks.getPid hget).trans hpid).trans (.setLinks hset)).trans (.wakeupProc hwake)
          have hprocs' : k'.procs = insert p k.procs := (congrArg KMem.procs hall.mem).trans hprocs₃
          have hi' : k'.idleproc = k.idleproc := hall.idleproc.trans hi₃
          have hctl' : k'.ctl = update k.ctl p (.forkret entry) := by
            rw [hall.ctl, ← hctl₃]
            rfl
          refine Working.done (c := p) ?_ h.stores (fun q hq hqp => ?_) fun _ via pid a hc => ?_
          · rw [hprocs', hi', Finset.erase_insert_of_ne hpi]
            exact w₃.same hall.mem hall.kstack
          · rw [hctl', Function.update_of_ne hqp, hall.mm]
            exact ⟨Finset.mem_of_mem_insert_of_ne (hprocs' ▸ hq) hqp, rfl, hmm₃ q hqp⟩
          · rw [hctl', Function.update_self] at hc
            cases hc

/-- The current process leaves its address space. -/
theorem Working.exitMm (w : Working P own k₀ k) (ho : ∀ x, k.mm k.current = some x → own = some x)
    (he : k.exitMm = some k') : Working P own k₀ k' ∧ k'.procs = k.procs ∧ k'.ctl = k.ctl ∧ k'.current = k.current ∧
    k'.idleproc = k.idleproc ∧ k'.mm k.current = none ∧ ∀ q ≠ k.current, k'.mm q = k.mm q := by
  unfold Kernel.exitMm at he
  cases hmm : k.mm k.current with
  | none =>
    rw [hmm] at he
    cases he
    exact ⟨w, rfl, rfl, rfl, rfl, hmm, fun _ _ => rfl⟩
  | some x =>
    rw [hmm] at he
    obtain ⟨m, hd, he⟩ := Option.bind_eq_some_iff.1 he
    have hd : k.kmem.dropMm x = some m := hd
    obtain rfl := ho x hmm
    obtain ⟨-, -, hprocs, -⟩ := dropMm_eq hd
    cases he
    exact ⟨w.next (fun _ _ => rfl) (w.inside.frames.dropKMm hd), hprocs, rfl, rfl, rfl, Function.update_self ..,
      fun q hq => Function.update_of_ne hq ..⟩

/-- `do_exit`. -/
theorem Working.doExit (w : Working P own k₀ k) (ho : ∀ x, k.mm k.current = some x → own = some x)
    (hx : k.doExit e = some k') : Working P own k₀ k' ∧ k'.procs = k.procs ∧ k'.idleproc = k.idleproc ∧
    k'.ctl k.current = .exiting ∧ ∀ q ≠ k.current, k'.ctl q = k.ctl q ∧ k'.mm q = k.mm q := by
  unfold Kernel.doExit Kernel.doExitWith at hx
  split at hx
  · cases hx
  · split at hx
    · cases hx
    · obtain ⟨k₁, hm, hx⟩ := Option.bind_eq_some_iff.1 hx
      obtain ⟨p, -, hx⟩ := Option.bind_eq_some_iff.1 hx
      obtain ⟨k₂, hw, hx⟩ := Option.bind_eq_some_iff.1 hx
      obtain ⟨k₃, hr, hx⟩ := Option.bind_eq_some_iff.1 hx
      cases hx
      obtain ⟨w₁, hprocs₁, hctl₁, hcur₁, hi₁, -, hmm₁⟩ := w.exitMm ho hm
      have hz : SameStacks k₁ { k₁ with
          state := update k₁.state k₁.current .zombie, exitCode := update k₁.exitCode k₁.current e } :=
        ⟨rfl, rfl, rfl, rfl, rfl, rfl⟩
      have hall := (hz.trans (.wake _ hw)).trans (.reparent hr)
      have hcur₃ : k₃.current = k.current := hall.current.trans hcur₁
      have hctl' : (k₃.enterSchedule .exiting).ctl = update k.ctl k.current .exiting := by
        show update k₃.ctl k₃.current .exiting = _
        rw [hall.ctl, hcur₃, hctl₁]
      refine ⟨w₁.same hall.mem hall.kstack, (congrArg KMem.procs hall.mem).trans hprocs₁, hall.idleproc.trans hi₁, ?_,
        fun q hq => ⟨?_, ?_⟩⟩
      · rw [hctl', Function.update_self]
      · rw [hctl', Function.update_of_ne hq]
      · exact (congrFun hall.mm q).trans (hmm₁ q hq)

theorem FrameInv.doExit (h : FrameInv k) (hx : k.doExit e = some k') : FrameStep (k.mm k.current) k k' := by
  obtain ⟨w, hprocs, hi, hctl, hold⟩ := (h.start (k.mm k.current)).doExit (fun _ => id) hx
  refine Working.done (c := k.current) ?_ h.stores (fun q hq hqc => ⟨hprocs ▸ hq, hold q hqc⟩) fun _ via pid a hc => ?_
  · rw [hprocs, hi]
    exact w
  · rw [hctl] at hc
    cases hc

/-- `user_mem_check` of a range in an address space. -/
theorem userCheck_low {m m' : KMem A} (h : m.userMemCheck (some x) addr len w = (true, m')) : addr < userTop := by
  unfold KMem.userMemCheck at h
  split at h
  · rename_i b m₁ hc
    obtain ⟨rfl, -⟩ := Prod.mk.inj h
    unfold Mem.userMemCheck at hc
    dsimp only at hc
    split at hc
    · cases hc
    · rename_i hu
      have hu := not_not.1 hu
      exact Nat.lt_of_lt_of_le hu.2.1 hu.2.2
  · cases h

/-- `do_execve` of a process that the call leaves at `c`. -/
theorem FrameInv.doExecve (h : FrameInv k) (hx : ∀ x, k.mm k.current = some x → x ∈ k.spaces)
    (hc : ∀ via pid store, k.ctl k.current ≠ .waiting via pid store)
    (he : k.doExecve name len binary size = some (r, k')) : FrameStep (k.mm k.current) k k' := by
  have w := h.start (k.mm k.current)
  unfold Kernel.doExecve Kernel.doExecveWith at he
  split at he
  · rename_i m hm
    cases he
    have hm : k.kmem.userMemCheck (k.mm k.current) name len false = (false, m) := hm
    exact h.setMem ((h.frames.userCheck hm).widen _) (SameBlocks.userMemCheck hm).procs
  · rename_i m hm
    have hm : k.kmem.userMemCheck (k.mm k.current) name len false = (true, m) := hm
    obtain ⟨m₁, hread, he⟩ := Option.bind_eq_some_iff.1 he
    have hread : m.readUser (k.mm k.current) name (if procNameLen < len then procNameLen else len) = some m₁ := hread
    obtain ⟨k₂, hexit, he⟩ := Option.bind_eq_some_iff.1 he
    obtain ⟨⟨ret, new, m₂⟩, hload, he⟩ := Option.bind_eq_some_iff.1 he
    have hchk := w.inside.frames.userCheck hm
    have w₀ : Working (k.procs.erase k.idleproc) (k.mm k.current) k (k.setMem m) := w.setMem (hchk.widen _)
    have hin := w₀.inside.frames.readUser (fun x he => (hchk.others x (hx x he) nofun).1) hread
    have w₁ : Working (k.procs.erase k.idleproc) (k.mm k.current) k (k.setMem m₁) := w₀.setMem hin
    have hprocs₁ : (k.setMem m₁).procs = k.procs :=
      (SameBlocks.readUser hread).procs.trans (SameBlocks.userMemCheck hm).procs
    obtain ⟨w₂, hprocs₂, hctl₂, hcur₂, hi₂, hno, hmm₂⟩ := w₁.exitMm (fun _ => id) hexit
    obtain ⟨⟨⟨ret', new'⟩, m'⟩, hl, heq⟩ := Option.map_eq_some_iff.1 hload
    cases heq
    have w₃ : Working (k.procs.erase k.idleproc) (k.mm k.current) k (k₂.setMem m') :=
      w₂.setMem ((w₂.inside.frames.loadIcode hl).widen _)
    obtain ⟨ld, -, -, hprocs₃, -⟩ := loadIcode_eq hl
    have hprocs₃ : (k₂.setMem m').procs = k.procs := (hprocs₃.trans hprocs₂).trans hprocs₁
    have hcur₂ : k₂.current = k.current := hcur₂
    have hno : k₂.mm k₂.current = none := by
      rw [hcur₂]
      exact hno
    have hend (k₃ : Kernel (pagingSys A bs)) (w : Working (k.procs.erase k.idleproc) (k.mm k.current) k k₃)
        (hp : k₃.procs = k.procs) (hi : k₃.idleproc = k.idleproc) (hctl : k₃.ctl = k.ctl)
        (hmm : ∀ q ≠ k.current, k₃.mm q = k.mm q) : FrameStep (k.mm k.current) k k₃ := by
      refine Working.done (c := k.current) ?_ h.stores (fun q hq hqc => ⟨hp ▸ hq, congrFun hctl q, hmm q hqc⟩)
        fun _ via pid a hw => ?_
      · rw [hp, hi]
        exact w
      · rw [hctl] at hw
        exact absurd hw (hc via pid _)
    dsimp only at he
    split at he
    · obtain ⟨k₄, hx₄, he⟩ := Option.bind_eq_some_iff.1 he
      cases he
      obtain ⟨w₄, hprocs₄, hi₄, hctl₄, hold₄⟩ := w₃.doExit (fun x he => absurd (hno.symm.trans he) nofun) hx₄
      have hctl₄ : k'.ctl k.current = .exiting := by
        rw [← hcur₂]
        exact hctl₄
      refine Working.done (c := k.current) ?_ h.stores (fun q hq hqc => ⟨?_, ?_, ?_⟩) fun _ via pid a hw => ?_
      · rw [hprocs₄, hprocs₃, hi₄, show (k₂.setMem m').idleproc = k.idleproc from hi₂]
        exact w₄
      · rw [hprocs₄, hprocs₃] at hq
        exact hq
      · exact (hold₄ q (hcur₂ ▸ hqc)).1.trans (congrFun hctl₂ q)
      · exact (hold₄ q (hcur₂ ▸ hqc)).2.trans (hmm₂ q hqc)
      · rw [hctl₄] at hw
        cases hw
    · split at he
      · cases he
        exact hend _ w₃ hprocs₃ hi₂ hctl₂ hmm₂
      · cases he
        refine hend _ (w₃.same rfl rfl) hprocs₃ hi₂ hctl₂ fun q hq => ?_
        rw [← hcur₂] at hq
        exact (Function.update_of_ne hq ..).trans (hmm₂ q (hcur₂ ▸ hq))

/-- The end of `do_wait`. -/
theorem FrameInv.reap (h : FrameInv k) (hp : p ∈ k.procs) (hx : ∀ x, k.mm k.current = some x → x ∈ k.spaces)
    (hst : ∀ a, store = some a → ∃ x, k.mm k.current = some x ∧ a + 4 ≤ 2 ^ 38) (hr : k.reap p store = some k') :
    FrameStep (k.mm k.current) k k' := by
  have w := h.start (k.mm k.current)
  unfold Kernel.reap at hr
  split at hr
  · cases hr
  · rename_i hpi
    have hpi : p ≠ k.idleproc := fun hc => hpi (.inl hc)
    obtain ⟨k₁, hs, hr⟩ := Option.bind_eq_some_iff.1 hr
    obtain ⟨k₂, hl, hr⟩ := Option.bind_eq_some_iff.1 hr
    obtain ⟨k₃, hk, hr⟩ := Option.bind_eq_some_iff.1 hr
    cases hr
    obtain ⟨w₁, hprocs₁, hctl₁, hi₁, hmm₁⟩ : Working (k.procs.erase k.idleproc) (k.mm k.current) k k₁ ∧
        k₁.procs = k.procs ∧ k₁.ctl = k.ctl ∧ k₁.idleproc = k.idleproc ∧ k₁.mm = k.mm := by
      cases store with
      | none =>
        cases hs
        exact ⟨w, rfl, rfl, rfl, rfl⟩
      | some a =>
        obtain ⟨x, hmm, ha⟩ := hst a rfl
        obtain ⟨m, hm, rfl⟩ := Option.map_eq_some_iff.1 hs
        have hm : k.kmem.storeInt (k.mm k.current) a (k.exitCode p) = some m := hm
        refine ⟨w.setMem ?_, (SameBlocks.storeInt hm).procs, rfl, rfl, rfl⟩
        rw [hmm] at hm ⊢
        exact w.inside.frames.storeInt (hx x hmm) ha hm
    have hu : SameStacks k₁ (k₁.unhashProc p) := ⟨rfl, rfl, rfl, rfl, rfl, rfl⟩
    have hall := hu.trans (.removeLinks hl)
    have w₂ := (w₁.same hall.mem hall.kstack).putKstack (Finset.mem_erase.2 ⟨hpi, hp⟩) hk
    obtain ⟨m, hm, rfl⟩ := Option.map_eq_some_iff.1 hk
    have hprocs₂ : (k₂.setMem m).procs = k.procs :=
      ((SameBlocks.freeKstack hm).procs.trans (congrArg KMem.procs hall.mem)).trans hprocs₁
    have hprocs' : ((k₂.setMem m).kfreeProc p).procs = k.procs.erase p := by
      rw [← hprocs₂]
      exact (kfreeProc_some (m := m) (by rw [show m.procs = k.procs from hprocs₂]; exact hp)).1
    have hi' : ((k₂.setMem m).kfreeProc p).idleproc = k.idleproc := hall.idleproc.trans hi₁
    refine Working.done (c := p) ?_ h.stores (fun q hq _ => ⟨?_, ?_, ?_⟩) fun hc => ?_
    · rw [hprocs', hi', Finset.erase_right_comm]
      exact w₂.kfreeProc p
    · rw [hprocs'] at hq
      exact Finset.mem_of_mem_erase hq
    · exact congrFun (hall.ctl.trans hctl₁) q
    · exact congrFun (hall.mm.trans hmm₁) q
    · rw [hprocs'] at hc
      exact absurd rfl (Finset.mem_erase.1 hc).1

/-- `do_wait` from the scan on. -/
theorem FrameInv.waitRepeat (h : FrameInv k) (hx : ∀ x, k.mm k.current = some x → x ∈ k.spaces)
    (hst : ∀ a, store = some a → ∃ x, k.mm k.current = some x ∧ a + 4 ≤ 2 ^ 38)
    (hfound : ∀ p, k.waitScan pid = some (.found p) → p ∈ k.procs)
    (hr : k.waitRepeat via pid store = some (r, k')) : FrameStep (k.mm k.current) k k' := by
  obtain ⟨scan, hscan, hr⟩ := Option.bind_eq_some_iff.1 hr
  cases scan with
  | noChild =>
    cases hr
    exact h.refl _
  | sleep =>
    cases hr
    refine Working.done (c := k.current) ((h.start _).same rfl rfl) h.stores (fun q hq hqc => ⟨hq, ?_, rfl⟩)
      fun _ v pid' a hw => ?_
    · exact Function.update_of_ne hqc ..
    · have hself : update k.ctl k.current (Ctl.waiting via pid store) k.current = .waiting via pid store :=
        Function.update_self ..
      cases hself.symm.trans hw
      exact hst a rfl
  | found p =>
    obtain ⟨k₁, hreap, hr⟩ := Option.bind_eq_some_iff.1 hr
    cases hr
    exact h.reap (hfound p hscan) hx hst hreap

end

end UCore
