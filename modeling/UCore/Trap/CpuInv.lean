import UCore.Trap.Cpu

namespace UCore
set_option autoImplicit true
open Function (update)

/-- The trap frames on a kernel stack that ends at `top`, the last one first. A frame that goes back to user mode is at
the end of the stack; one that goes back to the kernel has the stack pointer of the interrupted code. -/
def FramesOk (h : Hart) (top : Nat) : List Nat → Prop
  | [] => True
  | f :: fs => f % 8 = 0 ∧ top - kstackSize ≤ f ∧ f + frameSize ≤ fs.headD top ∧
      ((h.frame f).status &&& statusSpp = 0 → f + frameSize = top) ∧
      ((h.frame f).status &&& statusSpp ≠ 0 → ((h.frame f).gpr .sp).toNat % 8 = 0 ∧
        f ≤ ((h.frame f).gpr .sp).toNat ∧ ((h.frame f).gpr .sp).toNat ≤ fs.headD top) ∧
      FramesOk h top fs

/-- Every process has its kernel stack and its context, with what was saved there in order. -/
structure CpuInv (s : Cpu) : Prop where
  current : s.current ∈ s.procs
  aligned : ∀ p ∈ s.procs, s.top p % 8 = 0 ∧ s.ctx p % 8 = 0
  room : ∀ p ∈ s.procs, kstackSize ≤ s.top p ∧ s.top p < 2 ^ 64 ∧ s.ctx p + contextSize ≤ 2 ^ 64
  outside : ∀ p ∈ s.procs, ∀ a, s.InStack p a → ¬ s.InCtx p a
  apart : ∀ p ∈ s.procs, ∀ q ∈ s.procs, p ≠ q → ∀ a, s.InStack p a ∨ s.InCtx p a → ¬ s.InStack q a ∧ ¬ s.InCtx q a
  frames : ∀ p ∈ s.procs, FramesOk s.hart (s.top p) (s.frames p)
  scratch : s.hart.csr .sscratch = if s.hart.user then .ofNat 64 (s.top s.current) else 0
  user : s.hart.user = true → s.frames s.current = []
  sp : s.hart.user = false → s.OnStack s.current (s.hart.get .sp).toNat
  parked : ∀ p ∈ s.procs, p ≠ s.current → s.OnStack p (s.hart.mem (s.ctx p + regBytes)).toNat

/-- The kernel memory of the processes that a step writes. -/
def Cpu.Touched (s : Cpu) (x : Nat) : CpuStep → Prop
  | .code _ => s.Own x
  | .trap _ _ => s.InStack s.current x ∧ x < s.limit s.current
  | .handle _ => s.limit s.current ≤ x ∧ x < s.limit s.current + frameSize
  | .execveReturn _ => s.InStack s.current x
  | .switchTo _ => s.InCtx s.current x
  | _ => False

section
variable {h h' : Hart} {s s' : Cpu} {sym : Sym → BitVec 64} {f top p x : Nat} {fs : List Nat} {tf : TrapFrame}

theorem word_lt (hk : k < 36) : k * regBytes < frameSize := Nat.mul_lt_mul_of_pos_right hk (by decide)

theorem frame_congr (hm : ∀ a, f ≤ a → a < f + frameSize → h'.mem a = h.mem a) : h'.frame f = h.frame f := by
  have hword (k : Nat) (hk : k < 36) : h'.mem (f + k * regBytes) = h.mem (f + k * regBytes) :=
    hm _ (Nat.le_add_right ..) (Nat.add_lt_add_left (word_lt hk) f)
  refine TrapFrame.ext (funext fun r => ?_) ?_ ?_ ?_ ?_
  · exact hword r (by omega)
  · exact hword 32 (by decide)
  · exact hword 33 (by decide)
  · exact hword 34 (by decide)
  · exact hword 35 (by decide)

theorem setFrame_word (hk : k < 36) : (h.setFrame f tf).mem (f + k * regBytes) = tf.word k := by
  have hsub : f + k * regBytes - f = k * regBytes := Nat.add_sub_cancel_left ..
  show (if _ then _ else _) = _
  rw [hsub, if_pos ⟨Nat.le_add_right .., Nat.add_lt_add_left (word_lt hk) f, Nat.mul_mod_left ..⟩,
    Nat.mul_div_cancel _ (by decide)]

theorem setFrame_frame (h : Hart) (f : Nat) (tf : TrapFrame) : (h.setFrame f tf).frame f = tf := by
  refine TrapFrame.ext (funext fun r => ?_) ?_ ?_ ?_ ?_
  · refine (setFrame_word (by omega)).trans ?_
    exact dif_pos r.isLt
  · exact setFrame_word (by decide)
  · exact setFrame_word (by decide)
  · exact setFrame_word (by decide)
  · exact setFrame_word (by decide)

theorem setFrame_outside (hx : x < f ∨ f + frameSize ≤ x) : (h.setFrame f tf).mem x = h.mem x :=
  if_neg fun hc => by omega

namespace FramesOk

theorem limit_le (h : FramesOk g top fs) : fs.headD top ≤ top := by
  induction fs with
  | nil => exact Nat.le_refl _
  | cons f fs ih =>
    have hle := ih h.2.2.2.2.2
    have hf := h.2.2.1
    show f ≤ top
    omega

theorem bottom_le (h : FramesOk g top fs) : top - kstackSize ≤ fs.headD top := by
  cases fs with
  | nil => exact Nat.sub_le ..
  | cons f fs => exact h.2.1

theorem mem (h : FramesOk g top fs) (hf : f ∈ fs) : top - kstackSize ≤ f ∧ fs.headD top ≤ f ∧ f + frameSize ≤ top := by
  induction fs with
  | nil => cases hf
  | cons f' fs ih =>
    have hle := limit_le h.2.2.2.2.2
    have hf' := h.2.2.1
    cases hf with
    | head => exact ⟨h.2.1, Nat.le_refl _, by omega⟩
    | tail _ hf =>
      obtain ⟨h₁, h₂, h₃⟩ := ih h.2.2.2.2.2 hf
      refine ⟨h₁, ?_, h₃⟩
      show f' ≤ f
      omega

/-- The frames are the same where the stack above the limit is. -/
theorem congr (h : FramesOk g top fs) (hm : ∀ a, fs.headD top ≤ a → a < top → g'.mem a = g.mem a) :
    FramesOk g' top fs := by
  induction fs with
  | nil => trivial
  | cons f fs ih =>
    obtain ⟨h8, hbot, hle, hspp, hsp, hrest⟩ := h
    have hlim := limit_le hrest
    have hfr : g'.frame f = g.frame f := frame_congr fun a h₁ h₂ => hm a h₁ (by omega)
    refine ⟨h8, hbot, hle, by rwa [hfr], by rwa [hfr], ih hrest fun a h₁ h₂ => hm a ?_ h₂⟩
    show f ≤ a
    omega

theorem append (h : FramesOk g top (pre ++ fs)) : FramesOk g top fs := by
  induction pre with
  | nil => exact h
  | cons f pre ih => exact ih h.2.2.2.2.2

/-- A frame behind others is above the limit. -/
theorem append_le (h : FramesOk g top (pre ++ fs)) (hp : pre ≠ []) :
    (pre ++ fs).headD top + frameSize ≤ fs.headD top := by
  induction pre with
  | nil => exact absurd rfl hp
  | cons f pre ih =>
    have hf := h.2.2.1
    cases pre with
    | nil => exact hf
    | cons f' pre =>
      have hle := ih h.2.2.2.2.2 nofun
      show f + frameSize ≤ _
      change f + frameSize ≤ f' at hf
      change f' + frameSize ≤ _ at hle
      omega

end FramesOk

namespace CpuInv

theorem limit_le (hi : CpuInv s) (hp : p ∈ s.procs) : s.limit p ≤ s.top p := (hi.frames p hp).limit_le

/-- Where a trap saves the registers. -/
theorem trapBase (hi : CpuInv s) : s.OnStack s.current s.hart.trapBase.toNat ∧
    (s.hart.user = true → s.hart.trapBase.toNat = s.top s.current ∧ s.limit s.current = s.top s.current) ∧
      (s.hart.user = false → s.hart.trapBase = s.hart.get .sp) := by
  obtain ⟨hroom, hlt, -⟩ := hi.room _ hi.current
  have hsize : kstackSize = 8192 := rfl
  cases hu : s.hart.user with
  | true =>
    have hscr : s.hart.csr .sscratch = .ofNat 64 (s.top s.current) := by rw [hi.scratch, hu, if_pos rfl]
    have hnat : (BitVec.ofNat 64 (s.top s.current)).toNat = s.top s.current := by
      rw [BitVec.toNat_ofNat, Nat.mod_eq_of_lt hlt]
    have hne : s.hart.csr .sscratch ≠ 0 := fun h0 => by
      rw [hscr] at h0
      rw [h0] at hnat
      have h00 : (0 : BitVec 64).toNat = 0 := rfl
      omega
    have hbase : s.hart.trapBase.toNat = s.top s.current := by rw [Hart.trapBase, if_pos hne, hscr, hnat]
    have hlim : s.limit s.current = s.top s.current := by rw [Cpu.limit, hi.user hu, List.headD_nil]
    refine ⟨⟨?_, ?_, ?_⟩, fun _ => ⟨hbase, hlim⟩, nofun⟩
    · rw [hbase]
      exact (hi.aligned _ hi.current).1
    · omega
    · omega
  | false =>
    have hscr : s.hart.csr .sscratch = 0 := by rw [hi.scratch, hu, if_neg Bool.false_ne_true]
    have hbase : s.hart.trapBase = s.hart.get .sp := by rw [Hart.trapBase, if_neg (not_not.2 hscr)]
    refine ⟨?_, nofun, fun _ => hbase⟩
    rw [hbase]
    exact hi.sp hu

end CpuInv

theorem next_trap (hi : CpuInv s) (he : s.enabled (.trap c v)) (hn : s.next sym (.trap c v) = some s') : ∃ h',
    Saved (s.hart.trap c v) h' (s.hart.trapBase.toNat - frameSize) ∧ s' = { s with
      hart := h'
      frames := update s.frames s.current ((s.hart.trapBase.toNat - frameSize) :: s.frames s.current) } := by
  obtain ⟨⟨h8, -, -⟩, -⟩ := hi.trapBase
  have hroom : frameSize ≤ s.hart.trapBase.toNat := le_trans (Nat.le_add_left ..) he
  obtain ⟨h', hrun, hsaved, -⟩ := run_alltraps (s.hart.trap c v) sym (sym .trapret) h8 hroom
  obtain ⟨h'', hr, hn⟩ := Option.bind_eq_some_iff.1 hn
  obtain rfl := Option.some.inj (hrun.symm.trans hr)
  exact ⟨h', hsaved, (Option.some.inj hn).symm⟩

/-- The processor goes back to the last trap frame. -/
structure Pops (s s' : Cpu) (f : Nat) (fs : List Nat) : Prop where
  frames : s.frames s.current = f :: fs
  shape : s' = { s with hart := s'.hart, frames := update s.frames s.current fs }
  restored : Restored (s.hart.frame f) f s.hart s'.hart

theorem head_eq {l : List Nat} (h : ∃ f ∈ l.head?, a = f) : ∃ fs, l = a :: fs := by
  obtain ⟨f, hf, rfl⟩ := h
  cases l with
  | nil => cases hf
  | cons g fs =>
    obtain rfl := Option.some.inj hf
    exact ⟨fs, rfl⟩

theorem frame_lt (hi : CpuInv s) (hp : p ∈ s.procs) (hf : f ∈ s.frames p) : f + frameSize < 2 ^ 64 :=
  lt_of_le_of_lt ((hi.frames p hp).mem hf).2.2 (hi.room p hp).2.1

theorem next_trapReturn (hi : CpuInv s) (he : s.enabled .trapReturn) (hn : s.next sym .trapReturn = some s') :
    ∃ f fs, Pops s s' f fs := by
  obtain ⟨-, hf⟩ := he
  obtain ⟨fs, hfs⟩ := head_eq hf
  have hok := hi.frames _ hi.current
  rw [hfs] at hok
  obtain ⟨h', hrun, hres⟩ := run_trapret s.hart sym 0 rfl hok.1
    (frame_lt hi hi.current (by rw [hfs]; exact .head _))
  obtain ⟨h'', hr, hn⟩ := Option.bind_eq_some_iff.1 hn
  obtain rfl := Option.some.inj (hrun.symm.trans hr)
  obtain rfl := Option.some.inj hn
  refine ⟨_, fs, hfs, ?_, hres⟩
  rw [hfs]
  rfl

theorem next_forkret (hi : CpuInv s) (he : s.enabled .forkret) (hn : s.next sym .forkret = some s') :
    ∃ f fs, Pops s s' f fs := by
  obtain ⟨-, hf⟩ := he
  obtain ⟨fs, hfs⟩ := head_eq hf
  have hok := hi.frames _ hi.current
  rw [hfs] at hok
  have hsp : ((s.hart.set .sp (s.hart.get .a0)).get .sp).toNat = (s.hart.get .a0).toNat :=
    congrArg _ (get_set_self (by decide))
  obtain ⟨h', hrun, hres⟩ := run_trapret { s.hart.set .sp (s.hart.get .a0) with pc := sym .trapret } sym
    0 hsp hok.1 (frame_lt hi hi.current (by rw [hfs]; exact .head _))
  obtain ⟨h'', hr, hn⟩ := Option.bind_eq_some_iff.1 hn
  obtain rfl := Option.some.inj (hrun.symm.trans hr)
  obtain rfl := Option.some.inj hn
  refine ⟨_, fs, hfs, ?_, ⟨hres.reg, hres.pc, hres.user, hres.scratch, hres.status, hres.csr, hres.mem⟩⟩
  rw [hfs]
  rfl

/-- The processor goes to where a trap frame says that has been moved to the end of the kernel stack. -/
structure Executes (s s' : Cpu) (tf : TrapFrame) : Prop where
  shape : s' = { s with hart := s'.hart, frames := update s.frames s.current [] }
  restored : ∃ h, Restored tf (s.top s.current - frameSize) h s'.hart ∧ h.csr = s.hart.csr
  kept : ∀ x, ¬ s.InStack s.current x → s'.hart.mem x = s.hart.mem x

theorem next_execveReturn (hi : CpuInv s) (he : s.enabled (.execveReturn tf))
    (hn : s.next sym (.execveReturn tf) = some s') : Executes s s' tf := by
  obtain ⟨-, hfs, htop, -⟩ := he
  have hok := hi.frames _ hi.current
  rw [hfs] at hok
  obtain ⟨hal, -⟩ := hi.aligned _ hi.current
  obtain ⟨hroom, hlt, -⟩ := hi.room _ hi.current
  have hsize : frameSize = 288 := rfl
  have hstack : kstackSize = 8192 := rfl
  have hlim : s.limit s.current = (s.hart.get .a0).toNat := by rw [Cpu.limit, hfs]; rfl
  have hbot : s.top s.current - kstackSize ≤ (s.hart.get .a0).toNat := hok.2.1
  have hend : (s.hart.get .a0).toNat + frameSize ≤ s.top s.current := hok.2.2.1
  obtain ⟨h₁, hr₁, hn⟩ := Option.bind_eq_some_iff.1 hn
  obtain ⟨h₂, hr₂, hn⟩ := Option.bind_eq_some_iff.1 hn
  obtain rfl := Option.some.inj hn
  rw [hlim] at hr₁
  obtain ⟨h₁', hrun₁, hmoves, -⟩ := run_kernelExecveRet (a := (s.hart.get .a0).toNat)
    (s.hart.setFrame (s.hart.get .a0).toNat tf) sym 0 rfl htop hok.1 hal hend
  obtain rfl := Option.some.inj (hrun₁.symm.trans hr₁)
  obtain ⟨h₂', hrun₂, hres⟩ := run_trapret h₁' sym 0 hmoves.sp (by omega) (by omega)
  obtain rfl := Option.some.inj (hrun₂.symm.trans hr₂)
  rw [hmoves.frame, setFrame_frame] at hres
  refine ⟨rfl, ⟨h₁', hres, hmoves.csr⟩, fun x hx => ?_⟩
  have hx' : x < s.top s.current - kstackSize ∨ s.top s.current ≤ x := by
    by_contra hc
    exact hx ⟨by omega, by omega⟩
  show h₂'.mem x = _
  rw [hres.mem, hmoves.kept x (by omega), setFrame_outside (by omega)]

theorem next_switchTo (hi : CpuInv s) (he : s.enabled (.switchTo q)) (hn : s.next sym (.switchTo q) = some s') : ∃ h',
    Switched (s.ctx s.current) (s.ctx q) s.hart h' ∧ s' = { s with hart := h', current := q } := by
  obtain ⟨-, hq, -, ha, hb⟩ := he
  obtain ⟨h', hrun, hsw⟩ := run_switchTo s.hart sym 0 ha hb (hi.aligned _ hi.current).2
    (hi.aligned _ hq).2 (hi.room _ hi.current).2.2 (hi.room _ hq).2.2
  obtain ⟨h'', hr, hn⟩ := Option.bind_eq_some_iff.1 hn
  obtain rfl := Option.some.inj (hrun.symm.trans hr)
  exact ⟨h', hsw, (Option.some.inj hn).symm⟩

/-- The assembly code gets to its end: it makes no misaligned access. -/
theorem next_some (hi : CpuInv s) (he : s.enabled a) (sym : Sym → BitVec 64) : ∃ s', s.next sym a = some s' := by
  have hbind {r : Option Hart} {g : Hart → Cpu} (h : ∃ h', r = some h') : ∃ s', (r.bind fun h => some (g h)) = some
    s' := by
    obtain ⟨h', rfl⟩ := h
    exact ⟨_, rfl⟩
  have hframe (f : Nat) (hf : ∃ g ∈ (s.frames s.current).head?, f = g) : f % 8 = 0 ∧ f + frameSize < 2 ^ 64 := by
    obtain ⟨fs, hfs⟩ := head_eq hf
    have hok := hi.frames _ hi.current
    rw [hfs] at hok
    exact ⟨hok.1, frame_lt hi hi.current (by rw [hfs]; exact .head _)⟩
  cases a with
  | code h => exact ⟨_, rfl⟩
  | trap c v =>
    obtain ⟨⟨h8, -, -⟩, -⟩ := hi.trapBase
    obtain ⟨h', hrun, -⟩ := run_alltraps (s.hart.trap c v) sym (sym .trapret) h8
      (le_trans (Nat.le_add_left ..) he)
    exact hbind ⟨h', hrun⟩
  | handle tf => exact ⟨_, rfl⟩
  | trapReturn =>
    obtain ⟨h8, hlt⟩ := hframe _ he.2
    obtain ⟨h', hrun, -⟩ := run_trapret s.hart sym 0 rfl h8 hlt
    exact hbind ⟨h', hrun⟩
  | forkret =>
    obtain ⟨h8, hlt⟩ := hframe _ he.2
    have hsp : ((s.hart.set .sp (s.hart.get .a0)).get .sp).toNat = (s.hart.get .a0).toNat :=
      congrArg _ (get_set_self (by decide))
    obtain ⟨h', hrun, -⟩ := run_trapret { s.hart.set .sp (s.hart.get .a0) with pc := sym .trapret } sym
      0 hsp h8 hlt
    exact hbind ⟨h', hrun⟩
  | execveReturn tf =>
    obtain ⟨-, hfs, htop, -⟩ := he
    have hok := hi.frames _ hi.current
    rw [hfs] at hok
    have hlim : s.limit s.current = (s.hart.get .a0).toNat := by rw [Cpu.limit, hfs]; rfl
    have hal := (hi.aligned _ hi.current).1
    have hsize : frameSize = 288 := rfl
    have hstack : kstackSize = 8192 := rfl
    obtain ⟨hroom, hlt, -⟩ := hi.room _ hi.current
    obtain ⟨h₁, hrun₁, hmoves, -⟩ := run_kernelExecveRet (a := (s.hart.get .a0).toNat)
      (s.hart.setFrame (s.hart.get .a0).toNat tf) sym 0 rfl htop hok.1 hal hok.2.2.1
    obtain ⟨h₂, hrun₂, -⟩ := run_trapret h₁ sym 0 hmoves.sp (by omega) (by omega)
    rw [Cpu.next, hlim, hrun₁]
    exact hbind ⟨h₂, hrun₂⟩
  | fork q t c esp tf => exact ⟨_, rfl⟩
  | switchTo q =>
    obtain ⟨-, hq, -, ha, hb⟩ := he
    obtain ⟨h', hrun, -⟩ := run_switchTo s.hart sym 0 ha hb (hi.aligned _ hi.current).2
      (hi.aligned _ hq).2 (hi.room _ hi.current).2.2 (hi.room _ hq).2.2
    exact hbind ⟨h', hrun⟩
  | reap q => exact ⟨_, rfl⟩

section
variable {t c : Nat} {esp : BitVec 64}

theorem copyThread_outside (hf : x < t - frameSize ∨ t - frameSize + frameSize ≤ x) (hc : x < c ∨ c + contextSize ≤ x) :
    (Cpu.copyThread sym h t c esp tf).mem x = h.mem x := by
  have hsize : contextSize = 112 := rfl
  have hbytes : regBytes = 8 := rfl
  show (if _ then _ else if _ then _ else if _ then _ else _) = _
  rw [if_neg (by omega), if_neg (by omega), if_neg (by omega)]
  exact setFrame_outside hf

theorem copyThread_frame (sym : Sym → BitVec 64) (h : Hart) (c : Nat) (esp : BitVec 64) (tf : TrapFrame)
    (ht : kstackSize ≤ t) (ha : c + contextSize ≤ t - kstackSize ∨ t ≤ c) :
    (Cpu.copyThread sym h t c esp tf).frame (t - frameSize) = copyFrame tf esp (t - frameSize) := by
  have hsize : contextSize = 112 := rfl
  have hbytes : regBytes = 8 := rfl
  have hframe : frameSize = 288 := rfl
  have hstack : kstackSize = 8192 := rfl
  refine Eq.trans (frame_congr fun a h₁ h₂ => ?_)
    (setFrame_frame h (t - frameSize) (copyFrame tf esp (t - frameSize)))
  show (if _ then _ else if _ then _ else if _ then _ else _) = _
  rw [if_neg (by omega), if_neg (by omega), if_neg (by omega)]

theorem copyThread_csr : (Cpu.copyThread sym h t c esp tf).csr = h.csr := by
  simp only [Cpu.copyThread, Hart.setFrame]
theorem copyThread_user : (Cpu.copyThread sym h t c esp tf).user = h.user := by
  simp only [Cpu.copyThread, Hart.setFrame]
theorem copyThread_get : (Cpu.copyThread sym h t c esp tf).get r = h.get r := by
  simp only [Cpu.copyThread, Hart.setFrame, Hart.get]

/-- The words of the context of a new process. -/
theorem copyThread_context (sym : Sym → BitVec 64) (h : Hart) (t c : Nat) (esp : BitVec 64) (tf : TrapFrame) :
    (Cpu.copyThread sym h t c esp tf).mem c = sym .forkret ∧
    (Cpu.copyThread sym h t c esp tf).mem (c + regBytes) = .ofNat 64 (t - frameSize) := by
  constructor
  · exact if_pos rfl
  · refine (if_neg ?_).trans (if_pos rfl)
    have hbytes : regBytes = 8 := rfl
    omega

end

/-- What a step writes of the kernel memory of the processes belongs to the current one. -/
theorem touched_current (hi : CpuInv s) (he : s.enabled a) (ht : s.Touched x a) :
    s.InStack s.current x ∨ s.InCtx s.current x := by
  cases a with
  | code h => exact .inl ht.2.1
  | trap c v => exact .inl ht.1
  | handle tf =>
    obtain ⟨-, f, hf, -⟩ := he
    obtain ⟨fs, hfs⟩ := head_eq ⟨f, hf, rfl⟩
    have hok := (hi.frames _ hi.current).mem (f := f) (by rw [hfs]; exact .head _)
    have hlim : s.limit s.current = f := by rw [Cpu.limit, hfs]; rfl
    rw [Cpu.Touched, hlim] at ht
    exact .inl ⟨by omega, by omega⟩
  | execveReturn tf => exact .inl ht
  | switchTo q => exact .inr ht
  | trapReturn => cases ht
  | forkret => cases ht
  | fork q t c esp tf => cases ht
  | reap q => cases ht

/-- A step leaves the kernel memory of the processes alone where it does not say that it writes it. -/
theorem next_mem (hi : CpuInv s) (he : s.enabled a) (hn : s.next sym a = some s') (hp : p ∈ s.procs)
    (hx : s.InStack p x ∨ s.InCtx p x) (ht : ¬ s.Touched x a) : s'.hart.mem x = s.hart.mem x := by
  cases a with
  | code h =>
    obtain rfl := Option.some.inj hn
    exact he.mem p hp x hx ht
  | trap c v =>
    obtain ⟨h', hsaved, rfl⟩ := next_trap hi he hn
    obtain ⟨⟨-, hbot, hlim⟩, -⟩ := hi.trapBase
    have hroom : frameSize ≤ s.hart.trapBase.toNat := le_trans (Nat.le_add_left ..) he
    have htop := hi.limit_le hi.current
    have he' : s.top s.current - kstackSize + frameSize ≤ s.hart.trapBase.toNat := he
    refine hsaved.kept x ?_
    by_contra hc
    exact ht ⟨⟨by omega, by omega⟩, by omega⟩
  | handle tf =>
    obtain rfl := Option.some.inj hn
    refine setFrame_outside ?_
    by_contra hc
    exact ht ⟨by omega, by omega⟩
  | trapReturn =>
    obtain ⟨f, fs, hpops⟩ := next_trapReturn hi he hn
    exact congrFun hpops.restored.mem x
  | forkret =>
    obtain ⟨f, fs, hpops⟩ := next_forkret hi he hn
    exact congrFun hpops.restored.mem x
  | execveReturn tf => exact (next_execveReturn hi he hn).kept x ht
  | fork q t c esp tf =>
    obtain rfl := Option.some.inj hn
    obtain ⟨-, -, hpl, -⟩ := he
    have hsize : frameSize = 288 := rfl
    have hstack : kstackSize = 8192 := rfl
    have hroom := hpl.room.1
    refine copyThread_outside ?_ ?_
    · by_contra hc
      have hfree := hpl.stackFree p hp x (by omega) (by omega)
      exact hx.elim hfree.1 hfree.2
    · by_contra hc
      have hfree := hpl.ctxFree p hp x (by omega) (by omega)
      exact hx.elim hfree.1 hfree.2
  | switchTo q =>
    obtain ⟨h', hsw, rfl⟩ := next_switchTo hi he hn
    refine hsw.kept x ?_
    by_contra hc
    exact ht ⟨by omega, by omega⟩
  | reap q =>
    obtain rfl := Option.some.inj hn
    rfl

/-- A step leaves the kernel stack and the context of the other processes alone. -/
theorem next_other (hi : CpuInv s) (he : s.enabled a) (hn : s.next sym a = some s') (hp : p ∈ s.procs)
    (hne : p ≠ s.current) (hx : s.InStack p x ∨ s.InCtx p x) : s'.hart.mem x = s.hart.mem x := by
  refine next_mem hi he hn hp hx fun ht => ?_
  have hc := hi.apart p hp _ hi.current hne x hx
  exact (touched_current hi he ht).elim hc.1 hc.2

end

end UCore
