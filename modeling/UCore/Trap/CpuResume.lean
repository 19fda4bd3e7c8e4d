import UCore.Trap.CpuRuns

namespace UCore
set_option autoImplicit true
open Function (update)

/-- The trap frame that a trap makes. -/
def Cpu.trapped (s : Cpu) (cause tval : BitVec 64) : TrapFrame :=
  ⟨s.hart.get, trapStatus s.hart.user (s.hart.csr .sstatus), s.hart.pc, tval, cause⟩

/-- The processor of `s` does what the trap frame says, with the kernel stack of the process `p` ready for the next
  trap. -/
structure Resumes (s : Cpu) (p : Nat) (tf : TrapFrame) : Prop where
  current : s.current = p
  reg : ∀ r ≠ 0, s.hart.get r = tf.gpr r
  pc : s.hart.pc = tf.epc
  user : s.hart.user = decide (tf.status &&& statusSpp = 0)
  status : s.hart.csr .sstatus = sretStatus tf.status
  scratch : s.hart.csr .sscratch = if s.hart.user then .ofNat 64 (s.top p) else 0

section
variable {s s₁ t t' u : Cpu} {sym : Sym → BitVec 64} {r r₂ : List (CpuStep × Cpu)} {c v : BitVec 64} {q f top ctx : Nat}
  {fs : List Nat} {esp : BitVec 64} {tf : TrapFrame}

/-- A trap puts its frame on the kernel stack of the current process. -/
theorem trap_inTrap (hi : CpuInv s) (he : s.enabled (.trap c v)) (hn : s.next sym (.trap c v) = some s₁) :
    InTrap s₁ s.current (s.hart.trapBase.toNat - frameSize) (s.top s.current) (s.frames s.current) ∧
      s₁.hart.frame (s.hart.trapBase.toNat - frameSize) = s.trapped c v ∧
      ∀ x, s.hart.trapBase.toNat ≤ x → s₁.hart.mem x = s.hart.mem x := by
  obtain ⟨h', hsaved, rfl⟩ := next_trap hi he hn
  have hroom : frameSize ≤ s.hart.trapBase.toNat := le_trans (Nat.le_add_left ..) he
  refine ⟨⟨hi.current, rfl, [], Function.update_self ..⟩, hsaved.frame, fun x hx => hsaved.kept x ?_⟩
  exact .inr (by omega)

/-- The last trap of the current process ends. -/
theorem pops_resumes (hi : CpuInv t) (he : t.enabled a) (hn : t.next sym a = some t') (hp : Pops t t' g gs)
    (hin : InTrap t t.current f top fs) (hlen : (t.frames t.current).length = fs.length + 1) :
    Resumes t' t.current (t.hart.frame f) ∧ t'.frames t.current = fs ∧ t'.hart.mem = t.hart.mem := by
  obtain ⟨pre, hfs⟩ := hin.frames
  have hpre : pre = [] := by
    rw [hfs, List.length_append, List.length_cons] at hlen
    exact List.length_eq_zero_iff.1 (by omega)
  rw [hpre, List.nil_append] at hfs
  obtain ⟨rfl, rfl⟩ := List.cons.inj (hp.frames.symm.trans hfs)
  have hres := hp.restored
  have hi' := hi.pops he hn hp
  have hcur : t'.current = t.current := by rw [hp.shape]
  refine ⟨⟨hcur, hres.reg, hres.pc, hres.user, hres.status, ?_⟩, ?_, hres.mem⟩
  · rw [← hcur]
    exact hi'.scratch
  · rw [hp.shape]
    exact Function.update_self ..

/-- Whatever happens between a trap and its end, with other traps in it and other processes in between: the process
  goes on
with its registers and where it was, up to what the kernel has changed in the trap frame, and with its kernel stack as
it was. -/
theorem trap_returns (hr : (cpuMachine sym).Reachable s) (he : s.enabled (.trap c v))
    (hn : s.next sym (.trap c v) = some s₁)
    (hpath : ((cpuMachine sym).restrict (Cpu.StaysIn s.current ((s.frames s.current).length + 1))).Path s₁ r)
    (ht : Machine.endOf s₁ r = t) (hcur : t.current = s.current)
    (hlen : (t.frames s.current).length = (s.frames s.current).length + 1)
    (he' : t.enabled .trapReturn) (hn' : t.next sym .trapReturn = some t') :
    Resumes t' s.current (Cpu.edited s.current ((s.frames s.current).length + 1) s₁ r (s.trapped c v)) ∧
      t'.frames s.current = s.frames s.current ∧
      ∀ x, s.hart.trapBase.toNat ≤ x → x < s.top s.current → t'.hart.mem x = s.hart.mem x := by
  have hi := cpu_inv hr
  have hroom : frameSize ≤ s.hart.trapBase.toNat := le_trans (Nat.le_add_left ..) he
  obtain ⟨hin, hframe, hmem⟩ := trap_inTrap hi he hn
  obtain ⟨hi₁, hin₁, hframe₁, hmem₁⟩ := inTrap_path (hi.step he hn) hin hpath
  rw [ht] at hi₁ hin₁ hframe₁ hmem₁
  rw [← hcur] at hin₁ hlen
  obtain ⟨g, gs, hpops⟩ := next_trapReturn hi₁ he' hn'
  obtain ⟨hres, hfs, hmem'⟩ := pops_resumes hi₁ he' hn' hpops hin₁ (by rw [hlen, hcur])
  rw [hcur] at hres hfs
  rw [hframe₁, hframe] at hres
  refine ⟨hres, hfs, fun x h₁ h₂ => ?_⟩
  rw [hmem', hmem₁ x (by omega) h₂, hmem x h₁]

/-- A process that gives up the processor goes on where it was, with the registers that a function may rely on,
  whatever the
others have done. -/
theorem switch_resumes (hr : (cpuMachine sym).Reachable s) (he : s.enabled (.switchTo q))
    (hn : s.next sym (.switchTo q) = some s₁) (hpath : ((cpuMachine sym).restrict (Cpu.Away s.current)).Path s₁ r)
    (ht : Machine.endOf s₁ r = t) (he' : t.enabled (.switchTo s.current))
    (hn' : t.next sym (.switchTo s.current) = some t') :
    (∀ x ∈ contextRegs, t'.hart.get x.1 = s.hart.get x.1) ∧ t'.hart.pc = s.hart.get .ra ∧ t'.current = s.current ∧
      t'.frames s.current = s.frames s.current ∧
      (∀ x, s.InStack s.current x → t'.hart.mem x = s.hart.mem x) ∧ t'.hart.user = false ∧
      t'.hart.csr .sscratch = 0 := by
  have hi := cpu_inv hr
  obtain ⟨h₁, hsw, hs₁⟩ := next_switchTo hi he hn
  have hi₁ := hi.step he hn
  have hp₁ : s.current ∈ s₁.procs := by
    rw [hs₁]
    exact hi.current
  obtain ⟨hi₂, hp₂, htop, hctx, hframes, hmem⟩ := away_path hi₁ hp₁ hpath
  rw [ht] at hi₂ hp₂ htop hctx hframes hmem
  have hctx₁ : s₁.ctx = s.ctx := by rw [hs₁]
  have hstack₁ (x : Nat) : s₁.InStack s.current x ↔ s.InStack s.current x := by rw [hs₁]; rfl
  have hne : s.current ≠ t.current := he'.2.2.1
  obtain ⟨h₂, hsw', ht'⟩ := next_switchTo hi₂ he' hn'
  have hword (x : Reg × Nat) (hx : x ∈ contextRegs) : t'.hart.mem (s.ctx s.current + x.2) = s.hart.get x.1 := by
    have hlt := (contextRegs_offset x hx).2.1
    have hin : s.ctx s.current ≤ s.ctx s.current + x.2 ∧ s.ctx s.current + x.2 < s.ctx s.current + contextSize :=
      ⟨Nat.le_add_right .., Nat.add_lt_add_left hlt _⟩
    rw [next_other hi₂ he' hn' hp₂ hne (.inr (by rw [Cpu.InCtx, hctx, hctx₁]; exact hin)),
      hmem _ (.inr (by rw [Cpu.InCtx, hctx₁]; exact hin)), hs₁]
    exact hsw.saved x hx
  have hi' := hi₂.step he' hn'
  have hu : t'.hart.user = false := by
    rw [ht']
    exact hsw'.user.trans he'.1
  refine ⟨fun x hx => ?_, ?_, by rw [ht'], ?_, fun x hx => ?_, hu, ?_⟩
  · have hl := hsw'.loaded x hx
    rw [hctx, hctx₁] at hl
    rw [show t'.hart = h₂ by rw [ht']] at hword ⊢
    rw [hl, hword x hx]
  · have hl := hsw'.pc
    rw [hctx, hctx₁] at hl
    rw [show t'.hart = h₂ by rw [ht']] at hword ⊢
    rw [hl]
    exact hword (.ra, 0) (by decide)
  · rw [ht']
    show t.frames s.current = _
    rw [hframes, hs₁]
  · rw [next_other hi₂ he' hn' hp₂ hne (.inl (by rw [Cpu.InStack, htop, hs₁]; exact hx)),
      hmem x (.inl ((hstack₁ x).2 hx))]
    exact next_mem hi he hn hi.current (.inl hx) fun ht => hi.outside _ hi.current x hx ht
  · rw [hi'.scratch, hu]
    rfl

theorem fork_inTrap (he : s.enabled (.fork q top ctx esp tf)) (hn : s.next sym (.fork q top ctx esp tf) = some s₁) :
    InTrap s₁ q (top - frameSize) top [] ∧ s₁.hart.frame (top - frameSize) = copyFrame tf esp (top - frameSize) ∧
      s₁.ctx q = ctx ∧ s₁.hart.mem ctx = sym .forkret ∧ s₁.hart.mem (ctx + regBytes) = .ofNat 64 (top - frameSize) := by
  obtain ⟨-, -, hpl, -⟩ := he
  have hctx := copyThread_context sym s.hart top ctx esp tf
  have hframe := copyThread_frame sym s.hart ctx esp tf hpl.room.1 hpl.apart
  obtain rfl := Option.some.inj hn
  exact ⟨⟨Finset.mem_insert_self .., Function.update_self .., [], Function.update_self ..⟩, hframe,
    Function.update_self .., hctx.1, hctx.2⟩

/-- A new process starts at `forkret` on its own kernel stack when it gets the processor for the first time, and it leaves
`forkret` with the registers of the trap frame that `do_fork` was given, but for `a0`, which is zero, and `sp`. -/
theorem fork_starts (hr : (cpuMachine sym).Reachable s) (he : s.enabled (.fork q top ctx esp tf))
    (hn : s.next sym (.fork q top ctx esp tf) = some s₁) (hpath : ((cpuMachine sym).restrict (Cpu.Away q)).Path s₁ r)
    (ht : Machine.endOf s₁ r = t) (hsw : t.enabled (.switchTo q)) (hsn : t.next sym (.switchTo q) = some t')
    (hpath₂ : ((cpuMachine sym).restrict (Cpu.StaysIn q 1)).Path t' r₂) (hu : Machine.endOf t' r₂ = u)
    (hcur : u.current = q) (hlen : (u.frames q).length = 1) (he' : u.enabled .forkret)
      (hn' : u.next sym .forkret = some u') :
    t'.hart.pc = sym .forkret ∧ t'.hart.get .sp = .ofNat 64 (top - frameSize) ∧
      Resumes u' q (Cpu.edited q 1 t' r₂ (copyFrame tf esp (top - frameSize))) ∧ u'.frames q = [] := by
  have hi := cpu_inv hr
  have hi₁ := hi.step he hn
  obtain ⟨hin, hframe, hctx, hra, hsp⟩ := fork_inTrap he hn
  obtain ⟨hi₂, hp₂, htop, hctx₂, hframes, hmem⟩ := away_path hi₁ hin.alive hpath
  rw [ht] at hi₂ hp₂ htop hctx₂ hframes hmem
  rw [hctx] at hctx₂
  have hroom := he.2.2.1.room
  have hsize : frameSize = 288 := rfl
  have hkst : kstackSize = 8192 := rfl
  have hne : q ≠ t.current := hsw.2.2.1
  -- the process gets the processor
  have hword (k : Nat) (hk : k < contextSize) : t'.hart.mem (ctx + k) = s₁.hart.mem (ctx + k) := by
    have hinc : ctx ≤ ctx + k ∧ ctx + k < ctx + contextSize := ⟨Nat.le_add_right .., Nat.add_lt_add_left hk _⟩
    rw [next_other hi₂ hsw hsn hp₂ hne (.inr (by rw [Cpu.InCtx, hctx₂]; exact hinc)),
      hmem _ (.inr (by rw [Cpu.InCtx, hctx]; exact hinc))]
  have hfr₂ : t'.hart.frame (top - frameSize) = copyFrame tf esp (top - frameSize) := by
    rw [← hframe]
    refine frame_congr fun x h₁ h₂ => ?_
    have hin₁ : s₁.InStack q x := by
      rw [Cpu.InStack, hin.top]
      exact ⟨by omega, by omega⟩
    rw [next_other hi₂ hsw hsn hp₂ hne (.inl (by rw [Cpu.InStack, htop]; exact hin₁)), hmem x (.inl hin₁)]
  have hi₃ := hi₂.step hsw hsn
  obtain ⟨h', hswitched, rfl⟩ := next_switchTo hi₂ hsw hsn
  rw [hctx₂] at hswitched
  have hin₃ : InTrap { t with hart := h', current := q } q (top - frameSize) top [] :=
    ⟨hp₂, htop.trans hin.top, by
      obtain ⟨pre, hfs⟩ := hin.frames
      exact ⟨pre, hframes.trans hfs⟩⟩
  obtain ⟨hi₄, hin₄, hfr₄, -⟩ := inTrap_path hi₃ hin₃ hpath₂
  rw [hu] at hi₄ hin₄ hfr₄
  rw [← hcur] at hin₄ hlen
  obtain ⟨g, gs, hpops⟩ := next_forkret hi₄ he' hn'
  obtain ⟨hres, hfs, -⟩ := pops_resumes hi₄ he' hn' hpops hin₄ hlen
  rw [hcur] at hres hfs
  rw [hfr₄, hfr₂] at hres
  refine ⟨?_, ?_, hres, hfs⟩
  · exact (hswitched.pc.trans (hword 0 (by decide))).trans hra
  · exact ((hswitched.loaded (.sp, regBytes) (by decide)).trans (hword regBytes (by decide))).trans hsp

/-- A kernel thread that executes a program goes to user mode as the trap frame says that `load_icode` has filled,
  wherever
on the kernel stack that is, and with the whole kernel stack for the next trap. -/
theorem execve_enters (hr : (cpuMachine sym).Reachable s) (he : s.enabled (.execveReturn tf))
    (hn : s.next sym (.execveReturn tf) = some s₁) : Resumes s₁ s.current tf ∧ s₁.frames s.current = [] ∧
      ∀ p ∈ s.procs, p ≠ s.current → ∀ x, s.InStack p x ∨ s.InCtx p x → s₁.hart.mem x = s.hart.mem x := by
  have hi := cpu_inv hr
  have hi₁ := hi.step he hn
  have hex := next_execveReturn hi he hn
  obtain ⟨g, hres, hcsr⟩ := hex.restored
  have hcur : s₁.current = s.current := by rw [hex.shape]
  refine ⟨⟨hcur, hres.reg, hres.pc, hres.user, hres.status, ?_⟩, ?_, fun p hp hne x hx => next_other hi he hn hp hne hx⟩
  · rw [← hcur]
    exact hi₁.scratch
  · rw [hex.shape]
    exact Function.update_self ..

/-- In every state `sscratch` tells user mode from the kernel, the stack pointer is on the kernel stack of the
  current process
while the kernel runs, and what the processes have saved is on their own kernel stacks, which do not meet. -/
theorem cpu_safe (hr : (cpuMachine sym).Reachable s) :
    (s.hart.user = true → s.hart.csr .sscratch = .ofNat 64 (s.top s.current) ∧ s.frames s.current = []) ∧
      (s.hart.user = false → s.hart.csr .sscratch = 0 ∧ s.OnStack s.current (s.hart.get .sp).toNat) ∧
      (∀ p ∈ s.procs, p ≠ s.current → s.OnStack p (s.hart.mem (s.ctx p + regBytes)).toNat) ∧
      (∀ p ∈ s.procs, ∀ f ∈ s.frames p, ∀ x, f ≤ x → x < f + frameSize → s.InStack p x) ∧
      ∀ p ∈ s.procs, ∀ q ∈ s.procs, p ≠ q → ∀ x, s.InStack p x ∨ s.InCtx p x → ¬ s.InStack q x ∧ ¬ s.InCtx q x := by
  have hi := cpu_inv hr
  refine ⟨fun hu => ⟨?_, hi.user hu⟩, fun hu => ⟨?_, hi.sp hu⟩, hi.parked, fun p hp f hf x h₁ h₂ => ?_, hi.apart⟩
  · rw [hi.scratch, hu, if_pos rfl]
  · rw [hi.scratch, hu, if_neg Bool.false_ne_true]
  · obtain ⟨hbot, -, hend⟩ := (hi.frames p hp).mem hf
    exact ⟨by omega, by omega⟩

end

/-- The first process on the boot stack, about to give up the processor to a second one. -/
def bootCpu : Cpu where
  hart := {
    reg := fun r => if r = .sp then 0xFFFFFFFFC0208000 else if r = .a0 then 0xFFFFFFFFC0300000
      else if r = .a1 then 0xFFFFFFFFC0300100 else 0
    csr := fun _ => 0
    mem := fun _ => 0
    pc := 0xFFFFFFFFC0200000
    user := false }
  current := 0
  procs := {0}
  top := fun _ => 0xFFFFFFFFC0208000
  ctx := fun _ => 0xFFFFFFFFC0300000
  frames := fun _ => []

section
variable {sym : Sym → BitVec 64}

theorem bootCpu_reachable (sym : Sym → BitVec 64) : (cpuMachine sym).Reachable bootCpu :=
  .init ⟨rfl, rfl, rfl, rfl, ⟨by decide, by decide, by decide, nofun, nofun⟩, by decide, by decide, by decide⟩

theorem bootCpu_step {s s' : Cpu} {a : CpuStep} (hr : (cpuMachine sym).Reachable s) (he : s.enabled a)
    (hn : s.next sym a = some s') : (cpuMachine sym).Reachable s' := .step (a := a) hr he hn

theorem path_single {s s' : Cpu} {a : CpuStep} {good : Cpu → CpuStep → Prop} (he : s.enabled a) (hg : good s a)
    (hn : s.next sym a = some s') : ((cpuMachine sym).restrict good).Path s [(a, s')] := ⟨⟨he, hg⟩, hn, trivial⟩

/-- A trap that returns at once. -/
theorem trap_round {s : Cpu} (hi : CpuInv s) (he : s.enabled (.trap c v)) (sym : Sym → BitVec 64) : ∃ s₁ s₂,
    s.next sym (.trap c v) = some s₁ ∧ s₁.enabled .trapReturn ∧ s₁.next sym .trapReturn = some s₂ ∧ CpuInv s₂ ∧
      s₁.frames s.current = (s.hart.trapBase.toNat - frameSize) :: s.frames s.current ∧ s₂.current = s.current ∧
      s₂.frames s.current = s.frames s.current ∧ ∀ r ≠ 0, s₂.hart.get r = s.hart.get r := by
  obtain ⟨s₁, hn⟩ := next_some hi he sym
  have hi₁ := hi.step he hn
  obtain ⟨-, hframe, -⟩ := trap_inTrap hi he hn
  obtain ⟨h', hsaved, hs₁⟩ := next_trap hi he hn
  have hcur : s₁.current = s.current := by rw [hs₁]
  have hfr : s₁.frames s.current = (s.hart.trapBase.toNat - frameSize) :: s.frames s.current := by
    rw [hs₁]
    exact Function.update_self ..
  have he₁ : s₁.enabled .trapReturn := by
    rw [hs₁]
    refine ⟨hsaved.user, _, ?_, hsaved.sp⟩
    show _ ∈ (update s.frames s.current _ s.current).head?
    rw [Function.update_self]
    rfl
  obtain ⟨s₂, hn₁⟩ := next_some hi₁ he₁ sym
  obtain ⟨g, gs, hpops⟩ := next_trapReturn hi₁ he₁ hn₁
  have hpop := hpops.frames
  rw [hcur, hfr] at hpop
  obtain ⟨rfl, rfl⟩ := List.cons.inj hpop
  refine ⟨s₁, s₂, hn, he₁, hn₁, hi₁.step he₁ hn₁, hfr, ?_, ?_, fun r hr => ?_⟩
  · rw [hpops.shape]
    exact hcur
  · rw [hpops.shape, hcur]
    exact Function.update_self ..
  · rw [hpops.restored.reg r hr, hframe]
    rfl

/-- The trap frame of a breakpoint, with `epc` behind it. -/
def breakFrame : TrapFrame := { bootCpu.trapped 3 0 with epc := bootCpu.hart.pc + 2 }

/-- The kernel steps over a breakpoint, and then takes a second trap, which ends before the first one. -/
theorem trap_returns_boot : ∃ s₁ s₂ s₃ s₄ t', bootCpu.next (fun _ => 0) (.trap 3 0) = some s₁ ∧
    s₁.next (fun _ => 0) (.handle breakFrame) = some s₂ ∧ s₂.next (fun _ => 0) (.trap 5 0) = some s₃ ∧
    s₃.frames 0 = [0xFFFFFFFFC0207DC0, 0xFFFFFFFFC0207EE0] ∧ s₃.next (fun _ => 0) .trapReturn = some s₄ ∧
    s₄.next (fun _ => 0) .trapReturn = some t' ∧ Resumes t' 0 breakFrame := by
  have hr : (cpuMachine fun _ => 0).Reachable bootCpu := bootCpu_reachable _
  have hi := cpu_inv hr
  have he : bootCpu.enabled (.trap 3 0) :=
    (by decide : bootCpu.top 0 - kstackSize + frameSize ≤ bootCpu.hart.trapBase.toNat)
  obtain ⟨s₁, hn⟩ := next_some hi he fun _ => 0
  have hi₁ := hi.step he hn
  obtain ⟨-, hframe, -⟩ := trap_inTrap hi he hn
  obtain ⟨h₁, hsaved, hs₁⟩ := next_trap hi he hn
  have hsp₁ : (h₁.get .sp).toNat = 0xFFFFFFFFC0207EE0 := hsaved.sp
  -- `epc` is moved
  have he₁ : s₁.enabled (.handle breakFrame) := by
    have hkeeps : s₁.KeepsMode 0xFFFFFFFFC0207EE0 breakFrame := by
      have hgpr : breakFrame.gpr = (bootCpu.trapped 3 0).gpr := rfl
      have hstatus : breakFrame.status = (bootCpu.trapped 3 0).status := rfl
      rw [Cpu.KeepsMode, show s₁.hart.frame 0xFFFFFFFFC0207EE0 = bootCpu.trapped 3 0 from hframe, hgpr, hstatus]
      exact ⟨rfl, fun _ => rfl⟩
    refine ⟨?_, 0xFFFFFFFFC0207EE0, ?_, hkeeps⟩
    · rw [hs₁]
      exact hsaved.user
    · rw [hs₁]
      rfl
  obtain ⟨s₂, hn₁⟩ := next_some hi₁ he₁ fun _ => 0
  have hi₂ := hi₁.step he₁ hn₁
  have hs₂ := Option.some.inj hn₁
  rw [hs₁] at hs₂
  have hu₂ : s₂.hart.user = false := by
    rw [← hs₂]
    exact hsaved.user
  have hbase : s₂.hart.trapBase.toNat = 0xFFFFFFFFC0207EE0 := by
    rw [hi₂.trapBase.2.2 hu₂, ← hs₂]
    exact hsp₁
  have hcur₂ : s₂.current = 0 := by
    rw [← hs₂]
    rfl
  have hfr₂ : s₂.frames 0 = [0xFFFFFFFFC0207EE0] := by
    rw [← hs₂]
    rfl
  -- the second trap
  have he₂ : s₂.enabled (.trap 5 0) := by
    have htop : s₂.top s₂.current = 0xFFFFFFFFC0208000 := by
      rw [← hs₂]
      rfl
    show s₂.top s₂.current - kstackSize + frameSize ≤ s₂.hart.trapBase.toNat
    rw [htop, hbase]
    decide
  obtain ⟨s₃, s₄, hn₂, he₃, hn₃, hi₄, hfr₃, hcur₄, hfr₄, hreg₄⟩ := trap_round hi₂ he₂ fun _ => 0
  rw [hcur₂, hbase, hfr₂] at hfr₃
  rw [hcur₂] at hcur₄ hfr₄
  rw [hfr₂] at hfr₄
  have he₄ : s₄.enabled .trapReturn := by
    refine ⟨?_, 0xFFFFFFFFC0207EE0, ?_, ?_⟩
    · by_contra hu
      have hnil := hi₄.user (Bool.not_eq_false _ ▸ hu)
      rw [hcur₄, hfr₄] at hnil
      cases hnil
    · rw [hcur₄, hfr₄]
      rfl
    · rw [hreg₄ _ (by decide), ← hs₂]
      exact hsp₁
  obtain ⟨t', hn₄⟩ := next_some hi₄ he₄ fun _ => 0
  have hpath : ((cpuMachine fun _ => 0).restrict (Cpu.StaysIn 0 1)).Path s₁
      [(.handle breakFrame, s₂), (.trap 5 0, s₃), (.trapReturn, s₄)] := by
    refine ⟨⟨he₁, trivial⟩, hn₁, ⟨he₂, trivial⟩, hn₂, ⟨he₃, fun _ => ?_⟩, hn₃, trivial⟩
    rw [hfr₃]
    decide
  have hlen : (s₄.frames bootCpu.current).length = (bootCpu.frames bootCpu.current).length + 1 := congrArg _ hfr₄
  have hres := (trap_returns hr he hn hpath rfl hcur₄ hlen he₄ hn₄).1
  have hedit : Cpu.edited 0 1 s₁ [(.handle breakFrame, s₂), (.trap 5 0, s₃), (.trapReturn, s₄)] (bootCpu.trapped 3 0) =
      breakFrame := by
    rw [hs₁]
    rfl
  exact ⟨s₁, s₂, s₃, s₄, t', hn, hn₁, hn₂, hfr₃, hn₃, hn₄, hedit ▸ hres⟩

/-- The kernel puts two arguments into their registers. -/
def Cpu.args (s : Cpu) (x y : BitVec 64) : Cpu := { s with hart := (s.hart.set .a0 x).set .a1 y }

theorem args_enabled {s : Cpu} (hi : CpuInv s) (x y : BitVec 64) : s.enabled (.code (s.args x y).hart) where
  user := rfl
  csr _ _ := rfl
  mem _ _ _ _ _ := rfl
  sp hu := by
    rw [show (s.args x y).hart = (s.hart.set .a0 x).set .a1 y from rfl, get_set_ne (by decide : Reg.sp ≠ .a1),
      get_set_ne (by decide : Reg.sp ≠ .a0)]
    exact hi.sp hu

theorem args_next (sym : Sym → BitVec 64) {s : Cpu} {x y : BitVec 64} : s.next sym (.code (s.args x y).hart) = some
    (s.args x y) := rfl

theorem args_fst {s : Cpu} {x y : BitVec 64} : (s.args x y).hart.get .a0 = x := by
  rw [Cpu.args, get_set_ne (by decide : Reg.a0 ≠ .a1), get_set_self (by decide : Reg.a0 ≠ 0)]

theorem args_snd {s : Cpu} {x y : BitVec 64} : (s.args x y).hart.get .a1 = y :=
  get_set_self (by decide : Reg.a1 ≠ 0)

/-- The trap frame of a program at its start. -/
def startFrame : TrapFrame := ⟨fun _ => 0, 0, 0x800020, 0, 0⟩

/-- The first process with a few words on the boot stack. -/
def lowCpu : Cpu := { bootCpu with hart := bootCpu.hart.set .sp 0xFFFFFFFFC0207FC0 }

theorem lowCpu_reachable (sym : Sym → BitVec 64) : (cpuMachine sym).Reachable lowCpu :=
  .init ⟨rfl, rfl, rfl, rfl, ⟨by decide, by decide, by decide, nofun, nofun⟩, by decide, by decide, by decide⟩

/-- The trap frame at 0xFFFFFFFFC0207EA0 is moved up by 64 bytes, to the end of the kernel stack. -/
theorem execve_enters_boot : ∃ s₂ s₃ : Cpu, s₂.next (fun _ => 0) (.execveReturn startFrame) = some s₃ ∧
    s₂.frames 0 = [0xFFFFFFFFC0207EA0] ∧ s₂.top 0 = 0xFFFFFFFFC0207EE0 + frameSize ∧ s₂.hart.user = false ∧
    s₃.hart.user = true ∧ s₃.hart.pc = 0x800020 := by
  have hi := cpu_inv (lowCpu_reachable fun _ => 0)
  have he : lowCpu.enabled (.trap 3 0) :=
    (by decide : lowCpu.top 0 - kstackSize + frameSize ≤ lowCpu.hart.trapBase.toNat)
  obtain ⟨s₁, hn⟩ := next_some hi he fun _ => 0
  have hr₁ := bootCpu_step (lowCpu_reachable _) he hn
  obtain ⟨h', hsaved, hs₁⟩ := next_trap hi he hn
  have hu : s₁.hart.user = false := by
    rw [hs₁]
    exact hsaved.user
  have hcur : s₁.current = 0 := by
    rw [hs₁]
    rfl
  have hfr : s₁.frames 0 = [0xFFFFFFFFC0207EA0] := by
    rw [hs₁]
    rfl
  have htop : s₁.top 0 = 0xFFFFFFFFC0208000 := by
    rw [hs₁]
    rfl
  have he₁ := args_enabled (cpu_inv hr₁) 0xFFFFFFFFC0207EA0 0xFFFFFFFFC0208000
  have he₂ : (s₁.args 0xFFFFFFFFC0207EA0 0xFFFFFFFFC0208000).enabled (.execveReturn startFrame) := by
    refine ⟨hu, ?_, ?_, nofun⟩
    · rw [args_fst]
      show s₁.frames s₁.current = _
      rw [hcur, hfr]
      rfl
    · rw [args_snd]
      show _ = s₁.top s₁.current
      rw [hcur, htop]
      rfl
  have hr₂ : (cpuMachine fun _ => 0).Reachable (s₁.args 0xFFFFFFFFC0207EA0 0xFFFFFFFFC0208000) :=
    bootCpu_step hr₁ he₁ (args_next _)
  obtain ⟨s₃, hn₂⟩ := next_some (cpu_inv hr₂) he₂ fun _ => 0
  have hres := (execve_enters hr₂ he₂ hn₂).1
  exact ⟨_, s₃, hn₂, hfr, htop, hu, hres.user, hres.pc⟩

/-- The trap frame of a kernel thread. -/
def threadFrame : TrapFrame := ⟨fun _ => 0, statusSpp, 0, 0, 0⟩

/-- The second process is made, and the first one calls `switch_to`. -/
theorem bootCpu_switch (sym : Sym → BitVec 64) : ∃ s₁ s₂,
    bootCpu.enabled (.fork 1 0xFFFFFFFFC020C000 0xFFFFFFFFC0300100 0 threadFrame) ∧
      bootCpu.next sym (.fork 1 0xFFFFFFFFC020C000 0xFFFFFFFFC0300100 0 threadFrame) = some s₁ ∧ s₁.current = 0 ∧
      s₁.enabled (.switchTo 1) ∧ s₁.next sym (.switchTo 1) = some s₂ ∧ CpuInv s₂ ∧ s₂.hart.user = false ∧
      s₂.current = 1 ∧ s₂.procs = {1, 0} ∧ s₂.frames 1 = [0xFFFFFFFFC020BEE0] ∧ s₂.ctx 0 = 0xFFFFFFFFC0300000 ∧
      s₂.ctx 1 = 0xFFFFFFFFC0300100 := by
  have he : bootCpu.enabled (.fork 1 0xFFFFFFFFC020C000 0xFFFFFFFFC0300100 0 threadFrame) := by
    refine ⟨rfl, by decide, ⟨by decide, by decide, by decide, fun p hp x h₁ h₂ => ?_, fun p hp x h₁ h₂ => ?_⟩,
      fun _ => rfl⟩
    · obtain rfl := Finset.mem_singleton.1 hp
      simp only [kstackSize] at h₁
      constructor <;> rintro ⟨h₃, h₄⟩ <;> simp only [bootCpu, contextSize, regBytes] at h₃ h₄ <;> omega
    · obtain rfl := Finset.mem_singleton.1 hp
      simp only [contextSize, regBytes] at h₂
      constructor <;> rintro ⟨h₃, h₄⟩ <;> simp only [bootCpu, contextSize, regBytes] at h₃ h₄ <;> omega
  have hi := cpu_inv (bootCpu_reachable sym)
  obtain ⟨s₁, hn⟩ := next_some hi he sym
  have hi₁ := hi.step he hn
  have hs₁ := Option.some.inj hn
  have he₁ : s₁.enabled (.switchTo 1) := by
    rw [← hs₁]
    refine ⟨copyThread_user, Finset.mem_insert_self .., (by decide : (1 : Nat) ≠ 0), ?_, ?_⟩
    · rw [copyThread_get]
      show (bootCpu.hart.get .a0).toNat = bootCpu.ctx 0
      decide
    · rw [copyThread_get]
      show (bootCpu.hart.get .a1).toNat = 0xFFFFFFFFC0300100
      decide
  obtain ⟨s₂, hn₁⟩ := next_some hi₁ he₁ sym
  obtain ⟨h', hsw, hs₂⟩ := next_switchTo hi₁ he₁ hn₁
  refine ⟨s₁, s₂, he, hn, by rw [← hs₁]; rfl, he₁, hn₁, hi₁.step he₁ hn₁, ?_⟩
  rw [hs₂]
  refine ⟨hsw.user.trans he₁.1, rfl, ?_⟩
  rw [← hs₁]
  exact ⟨rfl, rfl, rfl, rfl⟩

/-- The first process has given up the processor, and the second one has a trap frame on its own kernel stack. -/
theorem cpu_safe_boot : ∃ s : Cpu, s.procs = {1, 0} ∧ s.current = 1 ∧ s.hart.csr .sscratch = 0 ∧
    s.OnStack 0 (s.hart.mem (s.ctx 0 + regBytes)).toNat ∧ s.frames 1 = [0xFFFFFFFFC020BEE0] ∧
    s.InStack 1 0xFFFFFFFFC020BEE0 ∧ ∀ x, s.InStack 1 x → ¬ s.InStack 0 x := by
  obtain ⟨s₁, s₂, he, hn, -, he₁, hn₁, -, hu, hcur, hprocs, hfr, -, -⟩ := bootCpu_switch fun _ => 0
  have hr := bootCpu_step (bootCpu_step (bootCpu_reachable fun _ => 0) he hn) he₁ hn₁
  obtain ⟨-, hkernel, hparked, hframes, hapart⟩ := cpu_safe hr
  have h₀ : 0 ∈ s₂.procs := by
    rw [hprocs]
    decide
  have h₁ : 1 ∈ s₂.procs := by
    rw [hprocs]
    decide
  have hf : 0xFFFFFFFFC020BEE0 ∈ s₂.frames 1 := by
    rw [hfr]
    exact List.mem_singleton_self _
  exact ⟨s₂, hprocs, hcur, (hkernel hu).1, hparked 0 h₀ (by rw [hcur]; decide), hfr,
    hframes 1 h₁ _ hf _ (Nat.le_refl _) (Nat.lt_add_of_pos_right (by decide)),
    fun x hx => (hapart 1 h₁ 0 h₀ (by decide) x (.inl hx)).1⟩

theorem switch_resumes_boot : ∃ s₁ t t' : Cpu, s₁.next (fun _ => 0) (.switchTo 1) = some t ∧
    (t.args 0xFFFFFFFFC0300100 0xFFFFFFFFC0300000).next (fun _ => 0) (.switchTo 0) = some t' ∧ t'.hart.pc =
      s₁.hart.get .ra := by
  obtain ⟨s₁, t, he, hn, hcur, he₁, hn₁, hi₂, hu, hcur₂, hprocs, -, hctx₀, hctx₁⟩ := bootCpu_switch fun _ => 0
  have hr : (cpuMachine fun _ => 0).Reachable bootCpu := bootCpu_reachable _
  have he₂ := args_enabled hi₂ 0xFFFFFFFFC0300100 0xFFFFFFFFC0300000
  have he₃ : (t.args 0xFFFFFFFFC0300100 0xFFFFFFFFC0300000).enabled (.switchTo s₁.current) := by
    rw [hcur]
    refine ⟨hu, ?_, ?_, ?_, ?_⟩
    · show 0 ∈ t.procs
      rw [hprocs]
      decide
    · show 0 ≠ t.current
      rw [hcur₂]
      decide
    · rw [args_fst]
      show _ = t.ctx t.current
      rw [hcur₂, hctx₁]
      rfl
    · rw [args_snd]
      show _ = t.ctx 0
      rw [hctx₀]
      rfl
  obtain ⟨t', hn₃⟩ := next_some (hi₂.step he₂ (args_next fun _ => 0)) he₃ fun _ => 0
  have hpath : ((cpuMachine fun _ => 0).restrict (Cpu.Away s₁.current)).Path t
      [(.code (t.args 0xFFFFFFFFC0300100 0xFFFFFFFFC0300000).hart, t.args 0xFFFFFFFFC0300100 0xFFFFFFFFC0300000)] :=
    path_single he₂ ⟨by rw [hcur₂, hcur]; decide, nofun⟩ (args_next _)
  refine ⟨s₁, t, t', hn₁, by rw [← hn₃, hcur], ?_⟩
  exact (switch_resumes (bootCpu_step hr he hn) he₁ hn₁ hpath rfl he₃ hn₃).2.1

theorem fork_starts_boot : ∃ s₁ s₂ u u' : Cpu,
    bootCpu.next (fun _ => 0) (.fork 1 0xFFFFFFFFC020C000 0xFFFFFFFFC0300100 0 threadFrame) = some s₁ ∧
      s₁.next (fun _ => 0) (.switchTo 1) = some s₂ ∧ u.next (fun _ => 0) .forkret = some u' ∧ u'.current = 1 := by
  obtain ⟨s₁, s₂, he, hn, -, he₁, hn₁, hi₂, hu, hcur, -, hfr, -, -⟩ := bootCpu_switch fun _ => 0
  have he₂ := args_enabled hi₂ 0xFFFFFFFFC020BEE0 0
  have he₃ : (s₂.args 0xFFFFFFFFC020BEE0 0).enabled .forkret := by
    refine ⟨hu, 0xFFFFFFFFC020BEE0, ?_, by rw [args_fst]; rfl⟩
    show _ ∈ (s₂.frames s₂.current).head?
    rw [hcur, hfr]
    rfl
  obtain ⟨u', hn₃⟩ := next_some (hi₂.step he₂ (args_next fun _ => 0)) he₃ fun _ => 0
  have hpath : ((cpuMachine fun _ => 0).restrict (Cpu.StaysIn 1 1)).Path s₂
      [(.code (s₂.args 0xFFFFFFFFC020BEE0 0).hart, s₂.args 0xFFFFFFFFC020BEE0 0)] :=
    path_single he₂ trivial (args_next _)
  have hlen : ((s₂.args 0xFFFFFFFFC020BEE0 0).frames 1).length = 1 := by
    show (s₂.frames 1).length = 1
    rw [hfr]
    rfl
  have hr : (cpuMachine fun _ => 0).Reachable bootCpu := bootCpu_reachable _
  have hpath₀ : ((cpuMachine fun _ => 0).restrict (Cpu.Away 1)).Path s₁ [] := trivial
  exact ⟨s₁, s₂, _, u', hn, hn₁, hn₃,
    (fork_starts hr he hn hpath₀ rfl he₁ hn₁ hpath rfl hcur hlen he₃ hn₃).2.2.1.current⟩

end

end UCore
