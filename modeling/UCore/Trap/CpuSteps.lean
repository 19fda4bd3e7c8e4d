import UCore.Trap.CpuInv

namespace UCore
set_option autoImplicit true
open Function (update)

section
variable {h h' : Hart} {s s' : Cpu} {a : CpuStep} {sym : Sym → BitVec 64} {f top p x : Nat} {fs : List Nat}
  {tf : TrapFrame}

/-! ### The bit that says where a trap goes back to -/

theorem trapStatus_spp (user : Bool) (status : BitVec 64) :
    trapStatus user status &&& statusSpp = if user then 0 else statusSpp := by
  have hor (x y m : BitVec 64) : (x ||| y) &&& m = (x &&& m) ||| (y &&& m) := by
    rw [BitVec.and_comm, BitVec.and_or_distrib_left, BitVec.and_comm m x, BitVec.and_comm m y]
  have hmask : (status &&& ~~~(statusSpp ||| statusSpie ||| statusSie)) &&& statusSpp = 0 := by
    rw [BitVec.and_assoc, show ~~~(statusSpp ||| statusSpie ||| statusSie) &&& statusSpp = 0#64 from by decide]
    exact BitVec.and_zero
  have hspie : (if status &&& statusSie ≠ 0 then statusSpie else 0) &&& statusSpp = 0 := by
    split <;> decide
  unfold trapStatus
  rw [hor, hor, hmask, hspie]
  cases user <;> decide

theorem trapStatus_user : trapStatus user status &&& statusSpp = 0 ↔ user = true := by
  rw [trapStatus_spp]
  cases user <;> decide

/-! ### The invariant -/

section
variable (hi : CpuInv s) (he : s.enabled a) (hn : s.next sym a = some s')
include hi he hn

/-- What a process that is not running has saved. -/
theorem saved_other (hp : p ∈ s.procs) (hne : p ≠ s.current) : FramesOk s'.hart (s.top p) (s.frames p) ∧
    s'.hart.mem (s.ctx p + regBytes) = s.hart.mem (s.ctx p + regBytes) := by
  have hok := hi.frames p hp
  refine ⟨hok.congr fun x h₁ h₂ => ?_, ?_⟩
  · exact next_other hi he hn hp hne (.inl ⟨le_trans hok.bottom_le h₁, h₂⟩)
  · exact next_other hi he hn hp hne (.inr ⟨Nat.le_add_right .., Nat.add_lt_add_left (by decide) _⟩)

/-- A step that changes nothing but the processor and the trap frames of the current process. -/
theorem CpuInv.running (fs : List Nat) (hs : s' = { s with hart := h', frames := update s.frames s.current fs })
    (hok : FramesOk h' (s.top s.current) fs)
    (hscr : h'.csr .sscratch = if h'.user then .ofNat 64 (s.top s.current) else 0)
    (huser : h'.user = true → fs = [])
    (hsp : h'.user = false → (h'.get .sp).toNat % 8 = 0 ∧ s.top s.current - kstackSize ≤ (h'.get .sp).toNat ∧
      (h'.get .sp).toNat ≤ fs.headD (s.top s.current)) : CpuInv s' := by
  have hother (p : Nat) (hp : p ∈ s.procs) (hne : p ≠ s.current) := saved_other hi he hn hp hne
  subst hs
  have hself : update s.frames s.current fs s.current = fs := Function.update_self ..
  refine ⟨hi.current, hi.aligned, hi.room, hi.outside, hi.apart, fun p hp => ?_, hscr, fun hu => ?_, fun hu => ?_,
    fun p hp hne => ?_⟩
  · by_cases hpc : p = s.current
    · rw [hpc]
      show FramesOk h' _ (update s.frames s.current fs s.current)
      rwa [hself]
    · show FramesOk h' _ (update s.frames s.current fs p)
      rw [Function.update_of_ne hpc]
      exact (hother p hp hpc).1
  · exact hself.trans (huser hu)
  · obtain ⟨h8, hbot, hlim⟩ := hsp hu
    refine ⟨h8, hbot, ?_⟩
    show _ ≤ (update s.frames s.current fs s.current).headD _
    rwa [hself]
  · obtain ⟨h8, hbot, hlim⟩ := hi.parked p hp hne
    show _ % 8 = 0 ∧ _ ≤ _ ∧ _ ≤ (update s.frames s.current fs p).headD _
    rw [show h'.mem (s.ctx p + regBytes) = _ from (hother p hp hne).2, Function.update_of_ne hne]
    exact ⟨h8, hbot, hlim⟩

end

theorem CpuInv.code (hi : CpuInv s) (he : s.Confined h) : CpuInv { s with hart := h } := by
  have hok := hi.frames _ hi.current
  have hupd : update s.frames s.current (s.frames s.current) = s.frames := Function.update_eq_self ..
  refine CpuInv.running (a := .code h) hi he (rfl : s.next (fun _ => 0) _ = _) _ (by rw [hupd])
    (hok.congr fun x h₁ h₂ => ?_) ?_ ?_ ?_
  · refine he.mem _ hi.current x (.inl ⟨le_trans hok.bottom_le h₁, h₂⟩) fun hown => ?_
    exact absurd hown.2.2 (Nat.not_lt.2 h₁)
  · rw [he.csr _ (.inl (by decide)), he.user]
    exact hi.scratch
  · rw [he.user]
    exact hi.user
  · rw [he.user]
    exact he.sp

theorem CpuInv.trap (hi : CpuInv s) (he : s.enabled (.trap c v)) (hn : s.next sym (.trap c v) = some s') :
    CpuInv s' := by
  obtain ⟨h', hsaved, hs⟩ := next_trap hi he hn
  obtain ⟨⟨h8, hbot, hlim⟩, huser, hkern⟩ := hi.trapBase
  have hok := hi.frames _ hi.current
  have hsize : frameSize = 288 := rfl
  have hroom : s.top s.current - kstackSize + frameSize ≤ s.hart.trapBase.toNat := he
  have hfr := hsaved.frame
  have hu' : h'.user = false := hsaved.user
  refine hi.running he hn _ hs ⟨by omega, by omega, ?_, fun hspp => ?_, fun hspp => ?_, ?_⟩ ?_ ?_ fun _ => ⟨?_, ?_, ?_⟩
  · show _ ≤ s.limit s.current
    omega
  · rw [hfr] at hspp
    have hu := (huser (trapStatus_user.1 hspp)).1
    omega
  · rw [hfr] at hspp ⊢
    have hu : s.hart.user = false := by
      cases hu : s.hart.user with
      | true => exact absurd (trapStatus_user.2 hu) hspp
      | false => rfl
    have hsp : (s.hart.trap c v).get .sp = s.hart.trapBase := (hkern hu).symm
    show ((s.hart.trap c v).get .sp).toNat % 8 = 0 ∧ _ ≤ ((s.hart.trap c v).get .sp).toNat ∧
      ((s.hart.trap c v).get .sp).toNat ≤ _
    rw [hsp]
    exact ⟨h8, Nat.sub_le .., hlim⟩
  · refine hok.congr fun x h₁ h₂ => (hsaved.kept x ?_)
    have hlim' : s.limit s.current ≤ x := h₁
    omega
  · rw [hu', hsaved.scratch]
    rfl
  · rw [hu']
    nofun
  · rw [hsaved.sp]
    omega
  · rw [hsaved.sp]
    omega
  · rw [hsaved.sp]
    exact Nat.le_refl _

theorem CpuInv.handle (hi : CpuInv s) (he : s.enabled (.handle tf)) (hn : s.next sym (.handle tf) = some s') :
    CpuInv s' := by
  obtain ⟨hu, f, hf, hspp, hsp⟩ := he
  obtain ⟨fs, hfs⟩ := head_eq ⟨f, hf, rfl⟩
  have hlim : s.limit s.current = f := by rw [Cpu.limit, hfs]; rfl
  obtain ⟨h8, hbot, hend, huser, hkern, hrest⟩ : FramesOk s.hart (s.top s.current) (f :: fs) := by
    rw [← hfs]
    exact hi.frames _ hi.current
  have hs := Option.some.inj hn
  rw [hlim] at hs
  have hupd : update s.frames s.current (f :: fs) = s.frames := by rw [← hfs]; exact Function.update_eq_self ..
  refine hi.running (a := .handle tf) ⟨hu, f, hf, hspp, hsp⟩ hn (f :: fs)
    (show s' = { s with hart := s.hart.setFrame f tf, frames := _ } by rw [hupd, hs])
      ⟨h8, hbot, hend, ?_, ?_, hrest.congr fun x h₁ h₂ => ?_⟩ hi.scratch (fun hu' => ?_) fun _ => ?_
  · rw [setFrame_frame, hspp]
    exact huser
  · rw [setFrame_frame]
    intro hne
    rw [hsp hne]
    rw [hspp] at hne
    exact hkern hne
  · exact setFrame_outside (.inr (by omega))
  · exact absurd (hu.symm.trans hu') Bool.false_ne_true
  · have hon := hi.sp hu
    rw [Cpu.OnStack, hlim] at hon
    exact hon

theorem CpuInv.pops (hi : CpuInv s) (he : s.enabled a) (hn : s.next sym a = some s') (hp : Pops s s' f fs) : CpuInv
    s' := by
  obtain ⟨h8, hbot, hend, huser, hkern, hrest⟩ : FramesOk s.hart (s.top s.current) (f :: fs) := by
    rw [← hp.frames]
    exact hi.frames _ hi.current
  have hsize : frameSize = 288 := rfl
  have hres := hp.restored
  have hu : s.hart.user = false := by
    cases hu : s.hart.user with
    | true =>
      have hnil := hi.user hu
      rw [hp.frames] at hnil
      cases hnil
    | false => rfl
  have hscr : s.hart.csr .sscratch = 0 := by rw [hi.scratch, hu, if_neg Bool.false_ne_true]
  refine hi.running he hn _ hp.shape (hrest.congr fun x _ _ => congrFun hres.mem x) ?_ (fun hu' => ?_) fun hu' => ?_
  · rw [hres.scratch, hres.user]
    by_cases hz : (s.hart.frame f).status &&& statusSpp = 0
    · rw [if_pos hz, if_pos (decide_eq_true hz), huser hz]
    · rw [if_neg hz, if_neg (by simpa using hz), hscr]
  · rw [hres.user, decide_eq_true_eq] at hu'
    have htop := huser hu'
    cases fs with
    | nil => rfl
    | cons g fs =>
      have hg := (hrest.mem (.head _)).2.2
      have hend' : f + frameSize ≤ g := hend
      omega
  · rw [hres.user, decide_eq_false_iff_not] at hu'
    obtain ⟨h8', hle, hlim⟩ := hkern hu'
    rw [hres.reg _ (by decide)]
    exact ⟨h8', le_trans hbot hle, hlim⟩

theorem CpuInv.executes (hi : CpuInv s) (he : s.enabled (.execveReturn tf))
    (hn : s.next sym (.execveReturn tf) = some s') : CpuInv s' := by
  have hex := next_execveReturn hi he hn
  obtain ⟨hu, hfs, htop, hkeep⟩ := id he
  obtain ⟨g, hres, hcsr⟩ := hex.restored
  obtain ⟨h8, hbot, hend, huser, hkern, hrest⟩ : FramesOk s.hart (s.top s.current) [(s.hart.get .a0).toNat] := by
    rw [← hfs]
    exact hi.frames _ hi.current
  have hroom := (hi.room _ hi.current).1
  have hsize : frameSize = 288 := rfl
  have hstack : kstackSize = 8192 := rfl
  have hscr : s.hart.csr .sscratch = 0 := by rw [hi.scratch, hu, if_neg Bool.false_ne_true]
  refine hi.running he hn _ hex.shape trivial ?_ (fun _ => rfl) fun hu' => ?_
  · rw [hres.scratch, hres.user, hcsr]
    by_cases hz : tf.status &&& statusSpp = 0
    · rw [if_pos hz, if_pos (decide_eq_true hz), Nat.sub_add_cancel (by omega)]
    · rw [if_neg hz, if_neg (by simpa using hz), hscr]
  · rw [hres.user, decide_eq_false_iff_not] at hu'
    obtain ⟨hspp, hsp⟩ := hkeep hu'
    rw [hres.reg _ (by decide), hsp hu']
    obtain ⟨h8', hle, hlim⟩ := hkern (by rwa [← hspp])
    exact ⟨h8', le_trans hbot hle, hlim⟩

theorem CpuInv.fork {q t c : Nat} {esp : BitVec 64} (hi : CpuInv s) (he : s.enabled (.fork q t c esp tf))
    (hn : s.next sym (.fork q t c esp tf) = some s') : CpuInv s' := by
  have hmem := fun p hp x hx => next_mem hi he hn (p := p) (x := x) hp hx id
  obtain ⟨hu, hq, hpl, hesp⟩ := he
  have hs := Option.some.inj hn
  have hhart : s'.hart = Cpu.copyThread sym s.hart t c esp tf := by rw [← hs]
  have hcur : s'.current = s.current := by rw [← hs]
  have hprocs : s'.procs = insert q s.procs := by rw [← hs]
  have hne (p : Nat) (hp : p ∈ s.procs) : p ≠ q := fun h => hq (h ▸ hp)
  have htop (p : Nat) (hp : p ∈ s.procs) : s'.top p = s.top p := by
    rw [← hs]
    exact Function.update_of_ne (hne p hp) ..
  have hctx (p : Nat) (hp : p ∈ s.procs) : s'.ctx p = s.ctx p := by
    rw [← hs]
    exact Function.update_of_ne (hne p hp) ..
  have hframes (p : Nat) (hp : p ∈ s.procs) : s'.frames p = s.frames p := by
    rw [← hs]
    exact Function.update_of_ne (hne p hp) ..
  have htop' : s'.top q = t := by
    rw [← hs]
    exact Function.update_self ..
  have hctx' : s'.ctx q = c := by
    rw [← hs]
    exact Function.update_self ..
  have hframes' : s'.frames q = [t - frameSize] := by
    rw [← hs]
    exact Function.update_self ..
  have hstack (p : Nat) (hp : p ∈ s.procs) (x : Nat) : s'.InStack p x ↔ s.InStack p x := by
    rw [Cpu.InStack, htop p hp, Cpu.InStack]
  have hinctx (p : Nat) (hp : p ∈ s.procs) (x : Nat) : s'.InCtx p x ↔ s.InCtx p x := by
    rw [Cpu.InCtx, hctx p hp, Cpu.InCtx]
  have hon (p : Nat) (hp : p ∈ s.procs) (x : Nat) : s'.OnStack p x ↔ s.OnStack p x := by
    rw [Cpu.OnStack, Cpu.limit, htop p hp, hframes p hp, Cpu.OnStack, Cpu.limit]
  clear hs hn
  have hsize : frameSize = 288 := rfl
  have hkst : kstackSize = 8192 := rfl
  obtain ⟨hal, hac⟩ := hpl.aligned
  obtain ⟨hroom, hlt, hroom'⟩ := hpl.room
  have hlt' : t - frameSize < 2 ^ 64 := lt_of_le_of_lt (Nat.sub_le ..) hlt
  have hframe : s'.hart.frame (t - frameSize) = copyFrame tf esp (t - frameSize) := by
    rw [hhart]
    exact copyThread_frame _ _ _ _ _ hroom hpl.apart
  have hnew (x : Nat) (hx : s'.InStack q x ∨ s'.InCtx q x) (p : Nat) (hp : p ∈ s.procs) :
      ¬ s.InStack p x ∧ ¬ s.InCtx p x := by
    rw [Cpu.InStack, Cpu.InCtx, htop', hctx'] at hx
    rcases hx with hx | hx
    · exact hpl.stackFree p hp x hx.1 hx.2
    · exact hpl.ctxFree p hp x hx.1 hx.2
  refine ⟨?_, fun p hp => ?_, fun p hp => ?_, fun p hp x hx => ?_, fun p hp p' hp' hpp x hx => ?_, fun p hp => ?_,
    ?_, ?_, ?_,
    fun p hp hpc => ?_⟩
  · rw [hcur, hprocs]
    exact Finset.mem_insert_of_mem hi.current
  · rcases Finset.mem_insert.1 (hprocs ▸ hp) with rfl | hp
    · rw [htop', hctx']
      exact ⟨hal, hac⟩
    · rw [htop p hp, hctx p hp]
      exact hi.aligned p hp
  · rcases Finset.mem_insert.1 (hprocs ▸ hp) with rfl | hp
    · rw [htop', hctx']
      exact hpl.room
    · rw [htop p hp, hctx p hp]
      exact hi.room p hp
  · rcases Finset.mem_insert.1 (hprocs ▸ hp) with rfl | hp
    · rw [Cpu.InStack, htop'] at hx
      rw [Cpu.InCtx, hctx']
      have hap := hpl.apart
      omega
    · rw [hstack p hp] at hx
      rw [hinctx p hp]
      exact hi.outside p hp x hx
  · rcases Finset.mem_insert.1 (hprocs ▸ hp) with rfl | hp
    · rcases Finset.mem_insert.1 (hprocs ▸ hp') with rfl | hp'
      · exact absurd rfl hpp
      · rw [hstack p' hp', hinctx p' hp']
        exact hnew x hx p' hp'
    · rw [hstack p hp, hinctx p hp] at hx
      rcases Finset.mem_insert.1 (hprocs ▸ hp') with rfl | hp'
      · refine ⟨fun h => ?_, fun h => ?_⟩
        · exact hx.elim (hnew x (.inl h) p hp).1 (hnew x (.inl h) p hp).2
        · exact hx.elim (hnew x (.inr h) p hp).1 (hnew x (.inr h) p hp).2
      · rw [hstack p' hp', hinctx p' hp']
        exact hi.apart p hp p' hp' hpp x hx
  · rcases Finset.mem_insert.1 (hprocs ▸ hp) with rfl | hp
    · rw [hframes', htop']
      refine ⟨by omega, by omega, ?_, fun _ => by omega, fun hspp => ?_, trivial⟩
      · show t - frameSize + frameSize ≤ t
        omega
      · rw [hframe] at hspp ⊢
        have hsp : (copyFrame tf esp (t - frameSize)).gpr .sp = .ofNat 64 (t - frameSize) := by
          unfold copyFrame
          dsimp only
          rw [Function.update_self, if_pos (hesp hspp)]
        rw [hsp, BitVec.toNat_ofNat, Nat.mod_eq_of_lt hlt']
        refine ⟨by omega, Nat.le_refl _, ?_⟩
        show t - frameSize ≤ t
        omega
    · rw [hframes p hp, htop p hp]
      have hok := hi.frames p hp
      exact hok.congr fun x h₁ h₂ => hmem p hp x (.inl ⟨le_trans hok.bottom_le h₁, h₂⟩)
  · rw [hhart, hcur, htop _ hi.current, copyThread_csr, copyThread_user]
    exact hi.scratch
  · rw [hhart, hcur, hframes _ hi.current, copyThread_user]
    exact hi.user
  · rw [hhart, hcur, hon _ hi.current, copyThread_user, copyThread_get]
    exact hi.sp
  · rw [hcur] at hpc
    rcases Finset.mem_insert.1 (hprocs ▸ hp) with rfl | hp
    · rw [hctx', hhart, (copyThread_context ..).2, Cpu.OnStack, Cpu.limit, htop', hframes', BitVec.toNat_ofNat,
        Nat.mod_eq_of_lt hlt']
      exact ⟨by omega, by omega, Nat.le_refl _⟩
    · rw [hctx p hp, hon p hp, hmem p hp _ (.inr ⟨Nat.le_add_right .., Nat.add_lt_add_left (by decide) _⟩)]
      exact hi.parked p hp hpc

theorem CpuInv.switchTo (hi : CpuInv s) (he : s.enabled (.switchTo q)) (hn : s.next sym (.switchTo q) = some s') :
    CpuInv s' := by
  have hother := fun p hp hne => saved_other hi he hn (p := p) hp hne
  have hmem := fun p hp x hx ht => next_mem hi he hn (p := p) (x := x) hp hx ht
  obtain ⟨h', hsw, rfl⟩ := next_switchTo hi he hn
  obtain ⟨hu, hq, hqc, -, -⟩ := he
  have hu' : h'.user = false := hsw.user.trans hu
  have hsp : h'.get .sp = s.hart.mem (s.ctx q + regBytes) := by
    rw [hsw.loaded (.sp, regBytes) (by decide)]
    exact (hother q hq hqc).2
  refine ⟨hq, hi.aligned, hi.room, hi.outside, hi.apart, fun p hp => ?_, ?_, fun hu₁ => ?_, fun _ => ?_,
    fun p hp hpq => ?_⟩
  · have hok := hi.frames p hp
    refine hok.congr fun x h₁ h₂ => hmem p hp x (.inl ⟨le_trans hok.bottom_le h₁, h₂⟩) fun ht => ?_
    have hx : s.InStack p x := ⟨le_trans hok.bottom_le h₁, h₂⟩
    by_cases hpc : p = s.current
    · rw [hpc] at hx
      exact hi.outside _ hi.current x hx ht
    · exact (hi.apart p hp _ hi.current hpc x (.inl hx)).2 ht
  · show h'.csr .sscratch = if h'.user then _ else _
    rw [hsw.csr, hu', hi.scratch, hu]
    rfl
  · exact absurd (hu'.symm.trans hu₁) Bool.false_ne_true
  · show s.OnStack q (h'.get .sp).toNat
    rw [hsp]
    exact hi.parked q hq hqc
  · show s.OnStack p (h'.mem (s.ctx p + regBytes)).toNat
    by_cases hpc : p = s.current
    · rw [hpc, hsw.saved (.sp, regBytes) (by decide)]
      exact hi.sp hu
    · rw [show h'.mem (s.ctx p + regBytes) = _ from (hother p hp hpc).2]
      exact hi.parked p hp hpc

theorem CpuInv.reap (hi : CpuInv s) (he : s.enabled (.reap q)) (hn : s.next sym (.reap q) = some s') : CpuInv s' := by
  obtain rfl := Option.some.inj hn
  obtain ⟨hu, hqc⟩ := he
  have hsub (p : Nat) (hp : p ∈ s.procs.erase q) : p ∈ s.procs := Finset.mem_of_mem_erase hp
  exact ⟨Finset.mem_erase.2 ⟨hqc.symm, hi.current⟩, fun p hp => hi.aligned p (hsub p hp),
    fun p hp => hi.room p (hsub p hp),
    fun p hp => hi.outside p (hsub p hp), fun p hp p' hp' => hi.apart p (hsub p hp) p' (hsub p' hp'),
    fun p hp => hi.frames p (hsub p hp), hi.scratch, hi.user, hi.sp, fun p hp => hi.parked p (hsub p hp)⟩

theorem CpuInv.step (hi : CpuInv s) (he : s.enabled a) (hn : s.next sym a = some s') : CpuInv s' := by
  cases a with
  | code h =>
    obtain rfl := Option.some.inj hn
    exact hi.code he
  | trap c v => exact hi.trap he hn
  | handle tf => exact hi.handle he hn
  | trapReturn =>
    obtain ⟨f, fs, hp⟩ := next_trapReturn hi he hn
    exact hi.pops he hn hp
  | forkret =>
    obtain ⟨f, fs, hp⟩ := next_forkret hi he hn
    exact hi.pops he hn hp
  | execveReturn tf => exact hi.executes he hn
  | fork q t c esp tf => exact hi.fork he hn
  | switchTo q => exact hi.switchTo he hn
  | reap q => exact hi.reap he hn

theorem CpuInv.init (h : (cpuMachine sym).init s) : CpuInv s := by
  obtain ⟨hprocs, hframes, hu, hscr, hpl, hsp⟩ := h
  have hcur (p : Nat) (hp : p ∈ s.procs) : p = s.current := Finset.mem_singleton.1 (hprocs ▸ hp)
  refine ⟨by rw [hprocs]; exact Finset.mem_singleton_self _, fun p hp => ?_, fun p hp => ?_, fun p hp x hx hc => ?_,
    fun p hp q hq hpq => ?_, fun p hp => ?_, ?_, fun h => ?_, fun _ => hsp, fun p hp hpc => ?_⟩
  · rw [hcur p hp]
    exact hpl.aligned
  · rw [hcur p hp]
    exact hpl.room
  · rw [hcur p hp] at hx hc
    have hap := hpl.apart
    rw [Cpu.InStack] at hx
    rw [Cpu.InCtx] at hc
    omega
  · exact absurd ((hcur p hp).trans (hcur q hq).symm) hpq
  · rw [hcur p hp, hframes]
    trivial
  · rw [hscr, hu]
    rfl
  · exact absurd (hu.symm.trans h) Bool.false_ne_true
  · exact absurd (hcur p hp) hpc

theorem cpu_inv (h : (cpuMachine sym).Reachable s) : CpuInv s :=
  h.invariant CpuInv (fun _ => CpuInv.init) fun _ _ _ hi he hn => hi.step he hn

end

end UCore
