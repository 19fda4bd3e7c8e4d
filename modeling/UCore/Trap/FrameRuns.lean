import UCore.Process.DefaultSys
import UCore.Process.FrameSteps
import UCore.Process.LoadComplete
import UCore.Trap.SpaceRuns

namespace UCore
set_option autoImplicit true
open Function (update)

/-- The memory before `proc_init`: `boot_pgdir` maps nothing for users, and the free frames have no references. -/
structure Mem.Booted {A : PhysSys} (m : Mem A) : Prop where
  unchecked : m.checkMm = none
  pgdir : ¬ A.free m.phys A.bootPgdir ∧ ¬ A.arena m.phys A.bootPgdir
  empty : ∀ i < 256, pteValid (m.frame A.bootPgdir i) = false
  unused : ∀ f, A.free m.phys f → m.ref f = 0

/-- A process without an address space has no place for the exit code of a child: the kernel threads call
`do_wait(0, NULL)`. -/
def Kernel.storesUser {A : PhysSys} {bs : Nat} (k : Kernel (pagingSys A bs)) : Call → Prop
  | .wait _ (some _) => k.mm k.current ≠ none
  | _ => True

instance {A : PhysSys} {bs : Nat} (k : Kernel (pagingSys A bs)) (c : Call) : Decidable (k.storesUser c) := by
  unfold Kernel.storesUser
  split <;> infer_instance

/-- The kernel from the end of `proc_init` on, with the page tables and the allocator as they are after `pmm_init`. -/
def frameMachine (A : PhysSys) (bs : Nat) : Machine (Kernel (pagingSys A bs)) Call where
  init k := ∃ k₀ : Kernel (pagingSys A bs), (pagingSys A bs).boot k₀.mem ∧ k₀.kmem.mem.Booted ∧ k₀.nrProcess = 0 ∧
    k₀.lastPid = maxPid ∧ k₀.nextSafe = maxPid ∧ k₀.scheduling = false ∧ k₀.procInit = some k
  enabled k c := k.callable c ∧ k.storesUser c
  next k c := (k.call c).map Prod.snd

instance (A : PhysSys) (bs : Nat) (k : Kernel (pagingSys A bs)) (c : Call) :
    Decidable ((frameMachine A bs).enabled k c) := inferInstanceAs (Decidable (k.callable c ∧ k.storesUser c))

section
variable {A : PhysSys} {bs : Nat} {k k' : Kernel (pagingSys A bs)} {ps : List Nat} {kids : Nat → List Nat}

theorem frameMachine_call (h : (frameMachine A bs).Reachable k) : (callMachine (pagingSys A bs)).Reachable k := by
  induction h with
  | init hi =>
    obtain ⟨k₀, hb, -, hi⟩ := hi
    exact .init ⟨k₀, hb, hi⟩
  | step _ he hn ih => exact .step ih he.1 hn

/-- Before there is an address space, the frames are free or not the business of the paging. -/
theorem Mem.Booted.frames {m : Mem A} (h : m.Booted) (hs : m.spaces = []) : SpaceFrames (fun _ => False) m := by
  classical
  let role (f : Nat) : Role := if A.free m.phys f then .free else .other
  have hfree (f : Nat) : role f = .free ↔ A.free m.phys f := by
    by_cases hf : A.free m.phys f
    · exact iff_of_true (if_pos hf) hf
    · rw [show role f = .other from if_neg hf]
      exact iff_of_false nofun hf
  have hcase (f : Nat) : role f = .free ∨ role f = .other := ite_eq_or_eq ..
  have hnode (f d : Nat) (p : List Nat) : role f ≠ .node d p := by
    rcases hcase f with hr | hr <;> rw [hr] <;> nofun
  have hleaf (f : Nat) : role f ≠ .leaf := by
    rcases hcase f with hr | hr <;> rw [hr] <;> nofun
  have hdirs : m.dirs = ∅ := by
    unfold Mem.dirs
    rw [hs]
    rfl
  have hpool (f : Nat) (hf : role f ≠ .other) : 0x80200 ≤ f ∧ f < npage ∧ ¬ A.arena m.phys f := by
    have hf := (hfree f).1 ((hcase f).resolve_right hf)
    obtain ⟨h₁, h₂⟩ := A.free_bound hf
    exact ⟨h₁, h₂, A.free_arena hf⟩
  refine ⟨⟨role, ?_⟩, fun x hx => ?_, fun x hx => ?_⟩
  · rw [hdirs]
    refine ⟨⟨⟨⟨?_, ?_, ?_, ?_⟩, hfree, hpool, fun f hf => h.unused f ((hfree f).1 hf)⟩, rfl, fun d => ?_,
      fun _ => Iff.rfl, fun f hf => absurd hf (hleaf f)⟩, h.unchecked, fun x hx => ?_, ⟨if_neg h.pgdir.1, id, h.pgdir.2⟩,
      h.empty, fun d hd => ?_, fun f hf => hf.elim⟩
    · exact fun f d hf => absurd hf (hnode _ _ _)
    · exact fun f d p i hf => absurd hf (hnode _ _ _)
    · exact fun f d p i hf => absurd hf (hnode _ _ _)
    · exact fun f d p i hf => absurd hf (hnode _ _ _)
    · exact iff_of_false (hnode _ _ _) (Finset.notMem_empty d)
    · exact absurd (mem_userSlots.1 hx).1 (Finset.notMem_empty _)
    · exact absurd hd (Finset.notMem_empty d)
  · rw [hs] at hx
    cases hx
  · rw [hs] at hx
    cases hx

/-- `proc_init` makes `idleproc` and the first process with a kernel stack of its own. -/
theorem FrameInv.init (h : (frameMachine A bs).init k) : FrameInv k := by
  obtain ⟨k₀, ⟨hprocs, hspaces⟩, hboot, -, -, -, -, h⟩ := h
  have hprocs : k₀.procs = ∅ := hprocs
  have hspaces : k₀.spaces = [] := hspaces
  unfold Kernel.procInit at h
  dsimp only at h
  generalize listInit k₀.listLink .procList = l at h
  generalize (List.range hashListSize).foldl (fun l i => listInit l (.bucket i)) k₀.hashLink = l' at h
  split at h
  · cases h
  · rename_i p k₁ ha
    obtain ⟨m, hm, hmem, hmm⟩ : ∃ m, k₀.kmem.kmallocProc = (some p, m) ∧ k₁.kmem = m ∧ k₁.mm p = none := by
      unfold Kernel.allocProc at ha
      split at ha
      · cases ha
      · rename_i q m hm
        cases ha
        exact ⟨m, hm, rfl, Function.update_self ..⟩
    obtain ⟨-, hprocs₁, -⟩ := kmallocProc_some hm
    have hprocs₁ : k₁.procs = insert p k₀.procs := by
      rw [← hmem] at hprocs₁
      exact hprocs₁
    obtain ⟨⟨pid, k₂⟩, hf, h⟩ := Option.bind_eq_some_iff.1 h
    have hp : p ∈ k₁.procs := by
      rw [hprocs₁]
      exact Finset.mem_insert_self ..
    have hnone : k₁.procs.erase p = ∅ := by
      rw [hprocs₁, hprocs]
      exact Finset.erase_insert (Finset.notMem_empty p)
    have h₂ := FrameInv.doFork ?_ ?_ ?_ ?_ hf
    · dsimp only at h
      split at h
      · cases h
      · obtain ⟨f, -, h⟩ := Option.bind_eq_some_iff.1 h
        obtain ⟨j, -, h⟩ := Option.bind_eq_some_iff.1 h
        split at h
        · cases h
          have hs : SameStacks k₂ { k₂ with initproc := j } := ⟨rfl, rfl, rfl, rfl, rfl, rfl⟩
          have hend : FrameStep none k₂ { k₂ with initproc := j } := h₂.inv.same hs
          exact hend.inv
        · cases h
    · have hfr := ((hboot.frames hspaces).kmallocProc hm).frames
      rw [← hmem] at hfr
      refine ⟨⟨fun q hq => ?_, fun q hq => ?_⟩, hfr.mono fun f ⟨q, hq, _⟩ => ?_, fun q hq via pid a hc => ?_⟩
      · exact absurd (hnone ▸ hq) (Finset.notMem_empty q)
      · exact absurd (hnone ▸ hq) (Finset.notMem_empty q)
      · exact absurd (hnone ▸ hq) (Finset.notMem_empty q)
      · have hqp : q = p := by
          have hq : q ∈ k₁.procs := hq
          rw [hprocs₁, hprocs] at hq
          exact (Finset.mem_insert.1 hq).resolve_right (Finset.notMem_empty q)
        rw [hqp] at hc
        have hidle : update k₁.ctl p .idle p = .idle := Function.update_self ..
        cases hidle.symm.trans hc
    · exact hp
    · exact fun x hx => absurd (hmm.symm.trans hx) nofun
    · exact hp

theorem FrameInv.setCtl (h : FrameInv k) (hn : ∀ via pid a, c ≠ .waiting via pid (some a)) (own : Option Nat) :
    FrameStep own k (k.setCtl k.current c) := by
  refine Working.done (c := k.current) ((h.start own).same rfl rfl) h.stores (fun q hq hqc => ⟨hq, ?_, rfl⟩)
    fun _ via pid a hw => ?_
  · exact Function.update_of_ne hqc ..
  · have hself : update k.ctl k.current c k.current = c := Function.update_self ..
    exact absurd (hself.symm.trans hw) (hn via pid a)

theorem FrameInv.goBack (h : FrameInv k) (via : Via) (own : Option Nat) : FrameStep own k (k.goBack via) := by
  cases via with
  | kernel => exact h.setCtl (c := .kthread) (fun _ _ _ => nofun) own
  | ecall => exact h.setCtl (c := .user) (fun _ _ _ => nofun) own
  | ebreak => exact h.setCtl (c := .user) (fun _ _ _ => nofun) own

theorem FrameInv.enterSchedule (h : FrameInv k) (hn : ∀ via pid a, c ≠ .waiting via pid (some a)) (own : Option Nat) :
    FrameStep own k (k.enterSchedule c) := by
  have hstep := h.setCtl hn own
  exact hstep.trans (hstep.inv.calm ((hstep.inv.start own).same rfl rfl) rfl rfl rfl rfl)

/-- `do_wait` checks the place for the exit code before it looks for a child. -/
theorem FrameInv.doWait (h : FrameInv k) (hk : KernelInv False k ps kids)
    (hx : ∀ x, k.mm k.current = some x → x ∈ k.spaces) (hg : k.storesUser (.wait pid store))
    (hr : k.doWait via pid store = some (r, k')) : FrameStep (k.mm k.current) k k' := by
  cases store with
  | none =>
    have hno (a : Nat) (ha : none = some a) : ∃ x, k.mm k.current = some x ∧ a + 4 ≤ 2 ^ 38 :=
      absurd ha (Option.some_ne_none a).symm
    exact h.waitRepeat hx hno (fun p hp => (hk.waitScan_found p hp).1) hr
  | some a =>
    have hset (b : Bool) (m : KMem A) (hm : k.kmem.userMemCheck (k.mm k.current) a 4 true = (b, m)) :
        FrameStep (k.mm k.current) k (k.setMem m) :=
      h.setMem ((h.frames.userCheck hm).widen _) (SameBlocks.userMemCheck hm).procs
    unfold Kernel.doWait at hr
    dsimp only at hr
    split at hr
    · rename_i m hm
      cases hr
      exact hset _ _ hm
    · rename_i m hm
      have hm : k.kmem.userMemCheck (k.mm k.current) a 4 true = (true, m) := hm
      have hstep := hset _ _ hm
      have hk' := hk.setMem ((pagingSys A bs).userMemCheck_live hm)
      refine hstep.trans (hstep.inv.waitRepeat (fun x he => ?_) (fun b hb => ?_)
        (fun p hp => (hk'.waitScan_found p hp).1) hr)
      · rw [show (k.setMem m).spaces = k.spaces from (SameBlocks.userMemCheck hm).same.spaces]
        exact hx x he
      · cases hb
        obtain ⟨x, hmm⟩ := Option.ne_none_iff_exists'.1 hg
        rw [hmm] at hm
        have hlow := userCheck_low hm
        unfold userTop at hlow
        exact ⟨x, hmm, by omega⟩

/-- What a call does to the frames: it works on the address space of the current process only. -/
theorem FrameInv.call (h : FrameInv k) (hk : KernelInv False k ps kids) (hs : SpaceInv k False) (hc : k.callable c)
    (hg : k.storesUser c) (hr : k.call c = some (r, k')) : FrameStep (k.mm k.current) k k' := by
  have hcur : k.current ∈ k.procs := hk.mem_procs.2 hk.states.current
  have hidle : k.idleproc ∈ k.procs := hk.mem_procs.2 (List.mem_cons_self ..)
  have hx := hs.owners.mem k.current hcur
  cases c with
  | fork fl =>
    obtain ⟨⟨e, k₁⟩, hf, he⟩ := Option.map_eq_some_iff.1 hr
    rw [Kernel.doForkWith_wakeupProc] at hf
    cases he
    exact (h.doFork hidle hx hcur hf).widen _
  | exit e =>
    obtain ⟨k₁, hf, he⟩ := Option.map_eq_some_iff.1 hr
    rw [Kernel.doExitWith_wakeupProc] at hf
    cases he
    exact h.doExit hf
  | wait pid store => exact h.doWait hk hx hg hr
  | execve name len binary size =>
    obtain ⟨⟨e, k₁⟩, hf, he⟩ := Option.map_eq_some_iff.1 hr
    rw [Kernel.doExecveWith_wakeupProc] at hf
    cases he
    have hstep := h.doExecve hx (fun via pid store hw => ?_) hf
    · split
      · exact hstep.trans (hstep.inv.goBack .ecall _)
      · exact hstep
    · rcases hc.2 with hu | hu <;> rw [hu] at hw <;> cases hw
  | kill pid =>
    obtain ⟨⟨e, k₁⟩, hf, he⟩ := Option.map_eq_some_iff.1 hr
    rw [Kernel.doKillWith_wakeupProc] at hf
    cases he
    exact h.same (.doKill hf)
  | yield =>
    cases hr
    exact h.same ⟨rfl, rfl, rfl, rfl, rfl, rfl⟩
  | fault cause addr =>
    obtain ⟨⟨e, m⟩, hm, hr⟩ := Option.bind_eq_some_iff.1 hr
    dsimp only at hr
    split at hr
    · cases hr
    · cases hr
      have hf : k.kmem.doPgfault (k.mm k.current) cause addr = some (e, m) := hm
      exact h.setMem (h.frames.fault hx hf) (SameBlocks.doPgfault hf).procs
  | tick fire =>
    cases hr
    cases fire with
    | false => exact h.refl _
    | true => exact h.same ⟨rfl, rfl, rfl, rfl, rfl, rfl⟩
  | schedule =>
    cases hr
    refine h.enterSchedule (fun via pid a hw => ?_) _
    have hin := hc.2
    simp only [List.mem_cons, List.not_mem_nil, or_false] at hin
    rcases hin with hu | hu | hu <;> rw [hu] at hw <;> cases hw
  | select =>
    obtain ⟨k₁, hf, he⟩ := Option.map_eq_some_iff.1 hr
    cases he
    obtain ⟨x, -, hf⟩ := Option.bind_eq_some_iff.1 hf
    cases hf
    exact h.calm ((h.start _).same rfl rfl) rfl rfl rfl rfl
  | resume =>
    unfold Kernel.call Kernel.callWith Kernel.resumeWith at hr
    dsimp only at hr
    split at hr
    · cases hr
      exact h.goBack _ _
    · cases hr
      exact h.goBack .ecall _
    · cases hr
      exact h.goBack .kernel _
    · rename_i via pid store hctl
      split at hr
      · obtain ⟨k₁, hf, he⟩ := Option.map_eq_some_iff.1 hr
        rw [Kernel.doExitWith_wakeupProc] at hf
        cases he
        exact h.doExit hf
      · obtain ⟨⟨e, k₁⟩, hw, he⟩ := Option.map_eq_some_iff.1 hr
        have hstep := h.waitRepeat hx (fun a ha => h.stores _ hcur via pid a (ha ▸ hctl))
          (fun p hp => (hk.waitScan_found p hp).1) hw
        cases e with
        | none =>
          cases he
          exact hstep
        | some e =>
          cases he
          exact hstep.trans (hstep.inv.goBack via _)
    · cases hr

theorem frameMachine_frames (h : (frameMachine A bs).Reachable k) : FrameInv k := by
  induction h with
  | init hi => exact .init hi
  | step h he hn ih =>
    obtain ⟨⟨r, k₁⟩, hr, rfl⟩ := Option.map_eq_some_iff.1 hn
    have hc := frameMachine_call h
    obtain ⟨ps, kids, hk⟩ := call_inv hc
    exact (ih.call hk (callMachine_spaces hc) he.1 he.2 hr).inv

/-- What a frame is used for. -/
inductive FrameUser where
  | free
  | heap
  | bootPgdir
  | table (mm : Nat) (path : List Nat)
  | page (mm v : Nat)
  | kstack (p : Nat)

/-- The frame has the use. A page table is given by the path from the page directory, and a page by its number. -/
def Kernel.uses (k : Kernel (pagingSys A bs)) (f : Nat) : FrameUser → Prop
  | .free => A.free k.kmem.mem.phys f
  | .heap => A.arena k.kmem.mem.phys f
  | .bootPgdir => f = A.bootPgdir
  | .table x path => x ∈ k.spaces ∧ sv39.InWidth 0 path ∧ path.length ≤ sv39.depth ∧
      ∃ d, (k.mmStruct x).pgdir = some d ∧ sv39.walk k.kmem.mem.frame d path = some f
  | .page x v => x ∈ k.spaces ∧ v < userVpn ∧
      ∃ d, (k.mmStruct x).pgdir = some d ∧ k.kmem.mem.mapped (d, v) = some f
  | .kstack p => p ∈ k.procs ∧ p ≠ k.idleproc ∧ OnStack (k.kstack p) f

/-- The role of a frame with the use, where `dir` gives the page directories. -/
def FrameUser.role (dir : Nat → Nat) : FrameUser → Role
  | .free => .free
  | .heap | .bootPgdir | .kstack _ => .other
  | .table x path => .node (dir x) path
  | .page _ _ => .leaf

theorem Kernel.uses_kstack : k.uses f (.kstack p) ↔ p ∈ k.procs.erase k.idleproc ∧ OnStack (k.kstack p) f := by
  rw [Finset.mem_erase, and_comm (a := p ≠ k.idleproc), and_assoc]
  rfl

/-- No frame is used twice. -/
theorem FrameInv.sole (h : FrameInv k) (hu : k.uses f u) (hv : k.uses f v) : u = v := by
  obtain ⟨role, hr⟩ := h.frames.use
  have hstack (p : Nat) (hp : k.uses f (.kstack p)) : StackFrame k.kstack (k.procs.erase k.idleproc) f :=
    ⟨p, Kernel.uses_kstack.1 hp⟩
  have hrole (u : FrameUser) (hu : k.uses f u) : role f = u.role fun x => (k.mmStruct x).pgdir.getD 0 := by
    cases u with
    | free => exact (hr.paged.free f).2 hu
    | heap =>
      by_contra hc
      exact (hr.paged.pool f hc).2.2 hu
    | bootPgdir =>
      cases hu
      exact hr.boot.1
    | table x path =>
      obtain ⟨hx, hin, hlen, d, hd, hw⟩ := hu
      show role f = .node ((k.mmStruct x).pgdir.getD 0) path
      rw [hd]
      exact (hr.tables.walk_iff ((hr.root d).2 (mem_dirs.2 ⟨x, hx, hd⟩)) hin hlen).1 hw
    | page x v =>
      obtain ⟨hx, hv, d, hd, hm⟩ := hu
      exact hr.mapped_leaf (mem_dirs.2 ⟨x, hx, hd⟩) hv hm
    | kstack p => exact (hr.held f (hstack p hu)).1
  have he := (hrole u hu).symm.trans (hrole v hv)
  cases u with
  | free =>
    cases v with
    | free => rfl
    | _ => cases he
  | heap =>
    cases v with
    | heap => rfl
    | bootPgdir =>
      cases hv
      exact absurd hu hr.boot.2.2
    | kstack p => exact absurd hu (hr.held f (hstack p hv)).2.2.2
    | _ => cases he
  | bootPgdir =>
    cases hu
    cases v with
    | heap => exact absurd hv hr.boot.2.2
    | bootPgdir => rfl
    | kstack p => exact absurd (hstack p hv) hr.boot.2.1
    | _ => cases he
  | table x path =>
    cases v with
    | table y path' =>
      obtain ⟨hx, -, -, d, hd, -⟩ := hu
      obtain ⟨hy, -, -, e, hde, -⟩ := hv
      simp only [FrameUser.role, hd, hde, Option.getD_some, Role.node.injEq] at he
      obtain ⟨rfl, rfl⟩ := he
      rw [h.frames.apart x hx y hy d hd hde]
    | _ => cases he
  | page x w =>
    cases v with
    | page y w' =>
      obtain ⟨hx, hw, d, hd, hm⟩ := hu
      obtain ⟨hy, hw', e, hde, hm'⟩ := hv
      have hsame := hr.sole (d, w) (mem_userSlots.2 ⟨mem_dirs.2 ⟨x, hx, hd⟩, hw⟩) (e, w')
        (mem_userSlots.2 ⟨mem_dirs.2 ⟨y, hy, hde⟩, hw'⟩) f hm hm'
      obtain ⟨rfl, rfl⟩ := Prod.mk.inj hsame
      rw [h.frames.apart x hx y hy d hd hde]
    | _ => cases he
  | kstack p =>
    cases v with
    | heap => exact absurd hv (hr.held f (hstack p hu)).2.2.2
    | bootPgdir =>
      cases hv
      exact absurd (hstack p hu) hr.boot.2.1
    | kstack q =>
      obtain ⟨hp, hf⟩ := Kernel.uses_kstack.1 hu
      obtain ⟨hq, hf'⟩ := Kernel.uses_kstack.1 hv
      rw [h.kstacks.apart p hp q hq f hf hf']
    | _ => cases he

/-- A page is referenced once. -/
theorem FrameInv.ref_one (h : FrameInv k) (hu : k.uses f (.page x v)) : k.kmem.mem.ref f = 1 := by
  obtain ⟨role, hr⟩ := h.frames.use
  obtain ⟨hx, hv, d, hd, hm⟩ := hu
  have hmem := mem_dirs.2 ⟨x, hx, hd⟩
  have hslot := mem_userSlots.2 ⟨hmem, hv⟩
  have hone : k.kmem.mem.still.mapCount k.kmem.mem.dirs f = 1 :=
    tally_eq_one hslot hm fun y hy hym => hr.sole y hy (d, v) hslot f hym hm
  have hexact : k.kmem.mem.ref f = k.kmem.mem.still.mapCount k.kmem.mem.dirs f := hr.exact f (hr.mapped_leaf hmem hv hm)
  rw [hexact, hone]
  rfl

theorem SpaceInv.pgdir (h : SpaceInv k False) (hx : x ∈ k.spaces) : ∃ d, (k.mmStruct x).pgdir = some d := by
  obtain ⟨p, hp, hpx⟩ := h.owners.used x hx
  have hz : k.state p ≠ .zombie := fun hz => absurd ((h.gone p hp hz).symm.trans hpx) nofun
  have hv := h.cr3 p hp hz False.elim
  unfold Kernel.cr3Valid at hv
  rw [hpx] at hv
  obtain ⟨-, d, hd, -⟩ := hv
  exact ⟨d, hd⟩

end

theorem roomMem_booted : roomMem.Booted where
  unchecked := rfl
  pgdir := ⟨fun hf => absurd (List.mem_range'_1.1 hf).1 (by decide), id⟩
  empty i _ := by
    have hz : roomMem.frame framePool.bootPgdir i = 0 := by
      unfold roomMem demoMem
      dsimp only
      rw [if_neg (by decide), if_neg (by decide)]
    rw [hz]
    rfl
  unused _ _ := rfl

instance (A : PhysSys) (bs y : Nat) (k : Kernel (pagingSys A bs)) (c : Call) :
    Decidable (((frameMachine A bs).restrict fun k _ => k.mm k.current ≠ some y).enabled k c) :=
  inferInstanceAs (Decidable ((frameMachine A bs).enabled k c ∧ k.mm k.current ≠ some y))

/-- The first process executes the image and forks, and the child exits. -/
theorem roomRun_decides : (roomBoot.procInit.bind fun k => ((frameMachine framePool 0).exec k [.schedule, .select, .resume,
    .execve demoBinary 4 demoBinary 0x200, .fork 0, .schedule, .select, .resume]).bind fun k =>
      (((frameMachine framePool 0).restrict fun k _ => k.mm k.current ≠ some 3).trace k [.exit 3]).map fun r =>
        decide (3 ∈ k.spaces ∧ 7 ∈ k.spaces ∧
          ((k.mmStruct 3).pgdir.bind fun d => k.kmem.mem.mapped (d, 0x200)) = some 0x80303 ∧
          ((k.mmStruct 7).pgdir.bind fun d => k.kmem.mem.mapped (d, 0x200)) = some 0x80317 ∧
          7 ∉ (Machine.endOf k r).spaces)) = some true := by
  decide +kernel

theorem roomRun : ∃ k r, (frameMachine framePool 0).Reachable k ∧
    ((frameMachine framePool 0).restrict fun k _ => k.mm k.current ≠ some 3).Path k r ∧ 3 ∈ k.spaces ∧
    k.uses 0x80303 (.page 3 0x200) ∧ k.uses 0x80317 (.page 7 0x200) ∧ 7 ∉ (Machine.endOf k r).spaces := by
  obtain ⟨k₀, hi, hrun⟩ := Option.bind_eq_some_iff.1 roomRun_decides
  obtain ⟨k, he, hrun⟩ := Option.bind_eq_some_iff.1 hrun
  obtain ⟨r, ht, hp⟩ := Option.map_eq_some_iff.1 hrun
  obtain ⟨h₃, h₇, hm₃, hm₇, hgone⟩ := of_decide_eq_true hp
  have hinit : (frameMachine framePool 0).init k₀ := ⟨roomBoot, ⟨rfl, rfl⟩, roomMem_booted, rfl, rfl, rfl, rfl, hi⟩
  exact ⟨k, r, .exec (.init hinit) he, Machine.trace_path ht, h₃, ⟨h₃, by decide, Option.bind_eq_some_iff.1 hm₃⟩,
    ⟨h₇, by decide, Option.bind_eq_some_iff.1 hm₇⟩, hgone⟩

section
variable {A : PhysSys} {bs : Nat} {k k' : Kernel (pagingSys A bs)}

/-- In every reachable state no frame has two uses: it is free, or in the heap, or `boot_pgdir`, or a page table of one
address space at one place, or a page that is mapped once and has one reference, or in the kernel stack of one process.
Each address space has the kernel half of `boot_pgdir`, which maps nothing for users. -/
theorem frames_owned (h : (frameMachine A bs).Reachable k) :
    (∀ f u v, k.uses f u → k.uses f v → u = v) ∧
    (∀ f x v, k.uses f (.page x v) → k.kmem.mem.ref f = 1) ∧
    (∀ x ∈ k.spaces, ∃ d, (k.mmStruct x).pgdir = some d ∧
      ∀ i, 256 ≤ i → k.kmem.mem.frame d i = k.kmem.mem.frame A.bootPgdir i) ∧
    (∀ i < 256, pteValid (k.kmem.mem.frame A.bootPgdir i) = false) ∧
    ∀ p ∈ k.procs, p ≠ k.idleproc → ∃ t, k.kstack p = page2kva t := by
  have hf := frameMachine_frames h
  have hs := callMachine_spaces (frameMachine_call h)
  obtain ⟨role, hr⟩ := hf.frames.use
  refine ⟨fun f u v => hf.sole, fun f x v => hf.ref_one, fun x hx => ?_, hr.bootEmpty, fun p hp hpi => ?_⟩
  · obtain ⟨d, hd⟩ := hs.pgdir hx
    exact ⟨d, hd, hr.high d (mem_dirs.2 ⟨x, hx, hd⟩)⟩
  · exact hf.kstacks.page p (Finset.mem_erase.2 ⟨hpi, hp⟩)

/-- While `default_pmm` runs below the kernel, its list holds the frames without a use and no others. -/
theorem frames_listed {base N bootPgdir : Nat} {s : Allocators} {hs : s.Sound base N}
    {k : Kernel (pagingSys (defaultSys base N bootPgdir) bs)} (h : (frameMachine _ bs).Reachable k)
    (hk : k.kmem.mem.phys = .running s hs) : ∃ blocks,
      walkBlocks s.pmm.area .freeList (s.pmm.area.npage + 1) = some blocks ∧
        ∀ f u, k.uses f u → (Covers blocks f ↔ u = .free) := by
  obtain ⟨blocks, hwalk, -, hpart, hone⟩ := hs.pmm.safe.partition
  have hfree (f : Nat) : k.uses f .free ↔ s.free base N f := by
    show DefaultState.free k.kmem.mem.phys f ↔ _
    rw [hk]
    exact Iff.rfl
  refine ⟨blocks, hwalk, fun f u hu => ⟨fun hc => ?_, ?_⟩⟩
  · obtain ⟨hlo, hhi⟩ := (hpart f).1 (.inl hc)
    refine (frameMachine_frames h).sole hu ((hfree f).2 ⟨hlo, hhi, ?_⟩)
    exact Bool.eq_false_iff.2 fun hal => hone f ⟨hc, hal⟩
  · rintro rfl
    obtain ⟨hlo, hhi, hal⟩ := (hfree f).1 hu
    refine ((hpart f).2 ⟨hlo, hhi⟩).resolve_right ?_
    rw [hal]
    simp

end

theorem frames_owned_room : ∃ k : Kernel (pagingSys framePool 0), k.uses 0x80303 (.page 3 0x200) ∧
    k.kmem.mem.ref 0x80303 = 1 ∧ ¬ k.uses 0x80303 (.page 7 0x200) ∧ ¬ k.uses 0x80303 .free := by
  obtain ⟨k, r, hk, -, -, hu, -, -⟩ := roomRun
  obtain ⟨hsole, hone, -⟩ := frames_owned hk
  exact ⟨k, hu, hone _ _ _ hu, fun hc => absurd (hsole _ _ _ hu hc) (by simp), fun hc => absurd (hsole _ _ _ hu hc) nofun⟩

section
variable {A : PhysSys} {bs : Nat} {k k' : Kernel (pagingSys A bs)}

/-- What the processes without the address space `y` do, in any order, leaves it alone: it has the same areas, and maps
the same pages with the same contents. -/
theorem processes_isolated (h : (frameMachine A bs).Reachable k) (hy : y ∈ k.spaces)
    (hp : ((frameMachine A bs).restrict fun k _ => k.mm k.current ≠ some y).Path k r) :
    y ∈ (Machine.endOf k r).spaces ∧ ((Machine.endOf k r).mmStruct y).mmapList = (k.mmStruct y).mmapList ∧
      Untouched y k.kmem.mem (Machine.endOf k r).kmem.mem := by
  induction r generalizing k with
  | nil => exact ⟨hy, rfl, .refl ..⟩
  | cons s r ih =>
    obtain ⟨⟨he, hg⟩, hn, hp⟩ := hp
    have h' := h.step he hn
    obtain ⟨⟨x, k₁⟩, hr, hk₁⟩ := Option.map_eq_some_iff.1 hn
    have hc := frameMachine_call h
    obtain ⟨ps, kids, hk⟩ := call_inv hc
    have hs := callMachine_spaces hc
    have hstep := (frameMachine_frames h).call hk hs he.1 he.2 hr
    obtain ⟨-, t, ht, -, hiff⟩ := hs.call hk he.1 hr
    have hkept := ht.kept y hy fun hm => hg ((hiff y).1 hm).2.1
    rw [show k₁ = s.2 from hk₁] at hstep hkept
    obtain ⟨hy', hu⟩ := hstep.others y hy hg.symm
    obtain ⟨hy'', hareas, hu'⟩ := ih h' hy' hp
    exact ⟨hy'', hareas.trans (congrArg Prod.fst hkept.2), hu.trans hu'⟩

end

theorem processes_isolated_room : ∃ k k' : Kernel (pagingSys framePool 0), 7 ∈ k.spaces ∧ 7 ∉ k'.spaces ∧
    3 ∈ k'.spaces ∧ Untouched 3 k.kmem.mem k'.kmem.mem := by
  obtain ⟨k, r, hk, hp, hy, -, hu, hgone⟩ := roomRun
  obtain ⟨hy', -, hsame⟩ := processes_isolated hk hy hp
  exact ⟨k, Machine.endOf k r, hu.1, hgone, hy', hsame⟩

end UCore
