import UCore.Trap.PointerAccess

namespace UCore
set_option autoImplicit true
open Function (update)

section
variable {A : PhysSys} {bs : Nat}

/-- The store of each process that waits has been accepted, and the areas of its address space still allow it. -/
def CheckState.Stores (s : CheckState A bs) : Prop :=
  ∀ p ∈ s.kernel.procs, ∀ via pid a x, s.kernel.ctl p = .waiting via pid (some a) → s.kernel.mm p = some x →
    ⟨p, some x, a, 4, true⟩ ∈ s.log ∧ s.kernel.allows x a 4 true

theorem CheckState.Stores.step {s s' : CheckState A bs} (h : s.Stores) (hk : KernelInv False s.kernel ps kids)
    (hs : SpaceInv s.kernel False) (he : (checkMachine A bs).enabled s c) (hn : (checkMachine A bs).next s c = some s') :
    s'.Stores := by
  obtain ⟨⟨r, k'⟩, hr, rfl⟩ := Option.map_eq_some_iff.1 hn
  obtain ⟨-, t, ht, -, htorn⟩ := hs.call hk he.1 hr
  intro q hq via pid a x hctl hmm
  have hctl : k'.ctl q = .waiting via pid (some a) := hctl
  have hmm : k'.mm q = some x := hmm
  obtain ⟨hmem, hplace⟩ := call_waiting hk he.1 hr hq hctl
  obtain ⟨hstay, hsame⟩ : (s.kernel.leaves c → q ≠ s.kernel.current) ∧ k'.mm q = s.kernel.mm q := by
    rcases call_mm hk he.1 hr hmem with hsame | ⟨-, hno | hno⟩
    · exact hsame
    · exact absurd (hno.symm.trans hmm) nofun
    · exact absurd hctl (hno via pid (some a))
  have hx : s.kernel.mm q = some x := hsame ▸ hmm
  have hq := hk.mem_procs.2 hmem
  have hspace : x ∈ s.kernel.spaces := hs.owners.mem q hq x hx
  have hkept : x ∉ t := fun hxt => by
    obtain ⟨hl, -, hlast⟩ := (htorn x).1 hxt
    exact hlast q hq (hstay hl) hx
  suffices hold : ⟨q, some x, a, 4, true⟩ ∈ s.log ++ s.kernel.checks c ∧ s.kernel.allows x a 4 true from
    ⟨hold.1, (allows_congr (ht.kept x hspace hkept).2).2 hold.2⟩
  have hprev (via : Via) (hw : s.kernel.ctl q = .waiting via pid (some a)) :
      ⟨q, some x, a, 4, true⟩ ∈ s.log ++ s.kernel.checks c ∧ s.kernel.allows x a 4 true := by
    obtain ⟨hlog, hall⟩ := h q hq via pid a x hw hx
    exact ⟨List.mem_append_left _ hlog, hall⟩
  rcases hplace with hkeep | ⟨rfl, hl⟩
  · rcases hkeep.ctl with hsame | ⟨rfl, hwaits⟩
    · exact hprev via (hsame ▸ hctl)
    · have hargs := hwaits via pid (some a) hctl
      cases c with
      | wait pid' store =>
        cases hargs
        obtain ⟨b, m, hb⟩ : ∃ b m, s.kernel.kmem.userMemCheck (some x) a 4 true = (b, m) := ⟨_, _, rfl⟩
        cases b with
        | true =>
          refine ⟨List.mem_append_right _ ?_, userMemCheck_allows hspace (by decide) hb⟩
          rw [Kernel.checks, hx, hb, if_pos rfl]
          exact List.mem_singleton_self _
        | false =>
          have hb' : (pagingSys A bs).userMemCheck s.kernel.mem (s.kernel.mm s.kernel.current) a 4 true = (false, m) := by
            rw [hx]
            exact hb
          have hk' : k' = s.kernel.setMem m := by
            have hcall : s.kernel.call (.wait pid (some a)) = some (some (-eInval), s.kernel.setMem m) := by
              unfold Kernel.call Kernel.callWith Kernel.doWait
              dsimp only
              rw [hb']
            exact (Prod.mk.inj (Option.some.inj (hr.symm.trans hcall))).2
          have hu : s.kernel.ctl s.kernel.current = .waiting via pid (some a) := by
            rw [hk'] at hctl
            exact hctl
          exact hprev via hu
      | resume =>
        obtain ⟨via', hw⟩ := waitArgs_resume hargs
        exact hprev via' hw
      | fork | exit | execve | kill | yield | fault | tick | schedule | select => cases hargs
  · exact absurd rfl (hstay hl)

theorem checkMachine_kernel {s : CheckState A bs} (h : (checkMachine A bs).Reachable s) :
    (callMachine (pagingSys A bs)).Reachable s.kernel := by
  induction h with
  | init hi => exact .init hi.1
  | step h he hn ih =>
    obtain ⟨⟨r, k'⟩, hr, rfl⟩ := Option.map_eq_some_iff.1 hn
    exact .step ih he.1 (Option.map_eq_some_iff.2 ⟨_, hr, rfl⟩)

theorem checkMachine_stores {s : CheckState A bs} (h : (checkMachine A bs).Reachable s) : s.Stores := by
  induction h with
  | @init s hi =>
    obtain ⟨⟨k₀, hb, hn, hlast, hnext, hsch, hinit⟩, -⟩ := hi
    obtain ⟨q, kids, hk, entry, hq⟩ : ∃ q kids, KernelInv False s.kernel [q] kids ∧
        ∃ via, s.kernel.ctl q = .forkret via := procInit_inv hb hn hlast hnext hsch hinit
    intro p hp via pid a x hw
    rcases List.mem_cons.1 (hk.mem_procs.1 hp) with rfl | hp
    · exact absurd (hk.states.idle.2.1.symm.trans hw) nofun
    · obtain rfl := List.mem_singleton.1 hp
      exact absurd (hq.symm.trans hw) nofun
  | step h he hn ih =>
    obtain ⟨ps, kids, hk⟩ := call_inv (checkMachine_kernel h)
    exact ih.step hk (callMachine_spaces (checkMachine_kernel h)) he hn

end

instance (A : PhysSys) (bs : Nat) (s : CheckState A bs) (c : Call) : Decidable ((checkMachine A bs).enabled s c) :=
  inferInstanceAs (Decidable (s.kernel.callable c ∧ c.Sized))

/-- An ELF header without program headers, at an address of the kernel. -/
def elfMem : Mem framePool :=
  { poolMem with
    phys := ⟨(List.range 16).map (0x80300 + ·), [], by decide⟩
    frame := fun f i => if f = 0x80250 ∧ i = 0 then 0x464C457F else 0 }

def elfAddr : Nat := 0x80250 * pgSize + vaPaOffset

def elfBoot : Kernel (pagingSys framePool 0) :=
  { poolBoot with mem := (⟨elfMem, ∅, [], .noSpaces rfl⟩ : KMem framePool) }

/-- A call of `sys_exec` whose name is on the stack, and whose image is in the memory of the kernel. -/
def elfExec : Call := .execve (ustackTop - 1) 1 elfAddr 0

/-- What the run has to show about the states before and after the first `sys_exec`, for the next one to read the
image. -/
def elfFacts (s s' : Kernel (pagingSys framePool 0)) : Prop :=
  (s.mm s.current = none ∧ s.kmem.mem.swapInitOk = false ∧ (∀ f ∈ s.kmem.mem.phys.free, s.kmem.mem.ref f = 0) ∧
    (∀ i < 256, pteValid (s.kmem.mem.frame 0x80200 i) = false) ∧ 0x80250 ∉ s.kmem.mem.phys.free ∧
    s.kmem.mem.kload elfAddr 4 = some elfMagic ∧ s.kmem.mem.kload (elfAddr + 32) 8 = some 0 ∧
    s.kmem.mem.kload (elfAddr + 56) 2 = some 0) ∧
  s'.current = s.current ∧ ∃ x ∈ s'.mm s'.current, x ∈ s'.spaces ∧ (s'.mmStruct x).mmCount = 1 ∧
    s'.kmem.mem.swapInitOk = false ∧ (s'.kmem.userMemCheck (some x) (ustackTop - 1) 1 false).1 = true ∧
    ∃ d ∈ (s'.mmStruct x).pgdir,
    (s'.kmem.mem.translate d (ustackTop - 1)).any (fun r => decide (r.2 &&& pteR ≠ 0 ∧ r.1 / pgSize < npage)) = true

instance (s s' : Kernel (pagingSys framePool 0)) : Decidable (elfFacts s s') := by
  unfold elfFacts
  infer_instance

theorem elf_run : ∃ s s' : CheckState framePool 0, (checkMachine framePool 0).Reachable s ∧
    (checkMachine framePool 0).enabled s (.execve elfAddr 1 elfAddr 0) ∧
    (checkMachine framePool 0).next s (.execve elfAddr 1 elfAddr 0) = some s' ∧
    elfFacts s.kernel s'.kernel ∧ (checkMachine framePool 0).enabled s' elfExec := by
  have hrun : (elfBoot.procInit.bind fun k =>
      ((checkMachine framePool 0).exec ⟨k, []⟩ [.schedule, .select, .resume]).bind fun s =>
      ((checkMachine framePool 0).next s (.execve elfAddr 1 elfAddr 0)).map fun s' =>
        decide ((checkMachine framePool 0).enabled s (.execve elfAddr 1 elfAddr 0) ∧
          elfFacts s.kernel s'.kernel ∧ (checkMachine framePool 0).enabled s' elfExec)) = some true := by
    decide +kernel
  obtain ⟨k, hk, hrun⟩ := Option.bind_eq_some_iff.1 hrun
  obtain ⟨s, hs, hrun⟩ := Option.bind_eq_some_iff.1 hrun
  obtain ⟨s', hn, hrun⟩ := Option.map_eq_some_iff.1 hrun
  obtain ⟨hen, hf, hen'⟩ := of_decide_eq_true hrun
  exact ⟨s, s', .exec (.init ⟨⟨elfBoot, ⟨rfl, rfl⟩, rfl, rfl, rfl, rfl, hk⟩, rfl⟩) hs, hen, hn, hf, hen'⟩

theorem elf_image {m : Mem framePool} (hf : 0x80250 ∉ m.phys.free) (h₀ : m.kload elfAddr 4 = some elfMagic)
    (h₁ : m.kload (elfAddr + 32) 8 = some 0) (h₂ : m.kload (elfAddr + 56) 2 = some 0) : ElfImage m elfAddr 64 0 [] where
  used a hle hlt := by
    have hframe : (a - vaPaOffset) / pgSize = 0x80250 := by
      unfold elfAddr vaPaOffset kernBase pgSize at *
      omega
    rw [hframe]
    unfold elfAddr vaPaOffset kernBase pgSize at hle
    exact ⟨by omega, 0x80250, rfl, hf⟩
  bound := by decide
  size := Nat.le_refl 64
  magic := h₀
  phoff := h₁
  phnum := h₂
  fits := by decide
  hdr i ph h := nomatch h
  inside := nofun

/-- A process with an address space makes `load_icode` read the memory of the kernel. -/
theorem elf_reads : ∃ s : CheckState framePool 0, (checkMachine framePool 0).Reachable s ∧
    (checkMachine framePool 0).enabled s elfExec ∧ s.kernel.mm s.kernel.current ≠ none ∧
    s.kernel.readsImage elfExec := by
  obtain ⟨s, s', hr, hen, hn, ⟨⟨hmm, hswap, href, hboot, hused, hmagic, hphoff, hphnum⟩, hcur, x, hx, hspace, hcount,
    hswap', hcheck, d', hd', htr⟩, hen'⟩ := elf_run
  obtain ⟨⟨r, k'⟩, hcall, rfl⟩ := Option.map_eq_some_iff.1 hn
  obtain ⟨role, hpaged⟩ := Paged.of_unused (m := s.kernel.kmem.mem) href
  rw [Option.mem_def] at hx
  obtain ⟨ld, hload, rfl⟩ := execve_loads hmm hcall (hcur ▸ hx)
  obtain ⟨d, m₁, role₁, hstart, hloaded, -⟩ :=
    loadIcode_filled hpaged (.inl hswap) hboot (elf_image hused hmagic hphoff hphnum) hload
  obtain rfl : d = d' := Option.some.inj (hloaded.pgdir.symm.trans hd')
  refine ⟨_, .step hr hen hn, hen', ?_, hloaded.readsImage hstart.root hx hspace hcount hswap' hcheck htr⟩
  exact fun hnone => nomatch hnone.symm.trans hx

section
variable {A : PhysSys} {bs : Nat}

/-- In every reachable state, a call of a process with an address space accesses only what has been validated through
its pointer arguments, unless `load_icode` reads the image. -/
theorem pointer_access_iff {s : CheckState A bs} (h : (checkMachine A bs).Reachable s)
    (hc : (checkMachine A bs).enabled s c) (hmm : s.kernel.mm s.kernel.current ≠ none) :
    (∀ k₁ addr n write, s.kernel.Accesses c k₁ addr n write →
      k₁.validated (s.log ++ s.kernel.checks c) addr n write) ↔ ¬ s.kernel.readsImage c := by
  constructor
  · intro hall hreads
    obtain ⟨k₁, addr, n, write, hacc, hno⟩ := readsImage_breaks hreads
    exact hno _ (hall k₁ addr n write hacc)
  · intro hno k₁ addr n write hacc
    obtain ⟨ps, kids, hk⟩ := call_inv (checkMachine_kernel h)
    have hs := callMachine_spaces (checkMachine_kernel h)
    have hcur := hk.mem_procs.2 hk.states.current
    obtain ⟨x, hx⟩ := Option.ne_none_iff_exists'.1 hmm
    have hspace : x ∈ s.kernel.spaces := hs.owners.mem _ hcur x hx
    cases hacc with
    | store hm =>
      refine validated_check hx hspace (by decide) hm (List.mem_append_right _ ?_) (Nat.le_refl 4)
      rw [Kernel.checks, hm, if_pos rfl]
      exact List.mem_singleton_self _
    | storeLater hw =>
      obtain ⟨hlog, hall⟩ := checkMachine_stores h _ hcur _ _ _ x hw hx
      refine ⟨⟨_, List.mem_append_left _ hlog, rfl, hx.symm, rfl, fun i hi => ⟨i, hi, rfl⟩⟩, x, hx, hall⟩
    | @name _ len m _ _ hm =>
      have hn : (if procNameLen < len then procNameLen else len) ≤ len := by
        split
        · omega
        · exact Nat.le_refl _
      refine validated_check hx hspace hc.2.1 hm (List.mem_append_right _ ?_) hn
      rw [Kernel.checks, hm, if_pos rfl]
      exact List.mem_singleton_self _
    | image hm hr he hi =>
      obtain ⟨mm, m₂, m₃, hcr, hp⟩ := hi.room
      exact absurd ⟨_, _, _, mm, m₂, m₃, hm, hr, he, hcr, hp⟩ hno

end

/-- The check of the pointer to the image is missing. -/
theorem pointer_access_image : ∃ s : CheckState framePool 0, (checkMachine framePool 0).Reachable s ∧
    (checkMachine framePool 0).enabled s elfExec ∧ s.kernel.mm s.kernel.current ≠ none ∧
    ¬ ∀ k₁ addr n write, s.kernel.Accesses elfExec k₁ addr n write →
      k₁.validated (s.log ++ s.kernel.checks elfExec) addr n write := by
  obtain ⟨s, hr, hen, hmm, hreads⟩ := elf_reads
  obtain ⟨k₁, addr, n, write, hacc, hno⟩ := readsImage_breaks hreads
  exact ⟨s, hr, hen, hmm, fun hall => hno _ (hall k₁ addr n write hacc)⟩

theorem pointer_access_iff_elf : ∃ s : CheckState framePool 0, s.kernel.readsImage elfExec ∧
    ((∀ k₁ addr n write, s.kernel.Accesses elfExec k₁ addr n write →
      k₁.validated (s.log ++ s.kernel.checks elfExec) addr n write) ↔ ¬ s.kernel.readsImage elfExec) := by
  obtain ⟨s, hr, hen, hmm, hreads⟩ := elf_reads
  exact ⟨s, hreads, pointer_access_iff hr hen hmm⟩

end UCore
