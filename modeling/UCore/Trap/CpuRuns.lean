import UCore.Trap.CpuSteps

namespace UCore
set_option autoImplicit true
open Function (update)

/-- The step neither ends the process `p` nor leaves its trap number `n`, counted from the first one that it is in. -/
def Cpu.StaysIn (p n : Nat) (s : Cpu) : CpuStep → Prop
  | .reap q => q ≠ p
  | .trapReturn | .forkret | .execveReturn _ => s.current = p → (s.frames p).length ≠ n
  | _ => True

/-- The trap frame of the trap number `n` of the process `p` after a step, when it was `tf` before, and after the steps
of a run. -/
def Cpu.edit (p n : Nat) (s : Cpu) (tf : TrapFrame) : CpuStep → TrapFrame
  | .handle tf' => if s.current = p ∧ (s.frames p).length = n then tf' else tf
  | _ => tf

def Cpu.edited (p n : Nat) : Cpu → List (CpuStep × Cpu) → TrapFrame → TrapFrame
  | _, [], tf => tf
  | s, (a, t) :: r, tf => edited p n t r (s.edit p n tf a)

/-- The step leaves the process `p` alone and does not run it. -/
def Cpu.Away (p : Nat) (s : Cpu) (a : CpuStep) : Prop := s.current ≠ p ∧ a ≠ .reap p

/-- The process `p` has its trap frame at `f`, behind which it had the others when the trap came. -/
structure InTrap (s : Cpu) (p f top : Nat) (fs : List Nat) : Prop where
  alive : p ∈ s.procs
  top : s.top p = top
  frames : ∃ pre, s.frames p = pre ++ f :: fs

section
variable {s s' t : Cpu} {a : CpuStep} {sym : Sym → BitVec 64} {p f n top x : Nat} {fs : List Nat} {tf : TrapFrame}
  {r : List (CpuStep × Cpu)}

/-- A process that does not run keeps its kernel stack and its context. -/
theorem away_step (hi : CpuInv s) (he : s.enabled a) (hn : s.next sym a = some s') (hp : p ∈ s.procs)
    (ha : s.Away p a) : p ∈ s'.procs ∧ s'.top p = s.top p ∧ s'.ctx p = s.ctx p ∧ s'.frames p = s.frames p ∧
      ∀ x, s.InStack p x ∨ s.InCtx p x → s'.hart.mem x = s.hart.mem x := by
  have hmem := fun x hx => next_other hi he hn hp ha.1.symm (x := x) hx
  have hupd (fs : List Nat) : update s.frames s.current fs p = s.frames p := Function.update_of_ne ha.1.symm ..
  cases a with
  | code h =>
    obtain rfl := Option.some.inj hn
    exact ⟨hp, rfl, rfl, rfl, hmem⟩
  | trap c v =>
    obtain ⟨h', -, rfl⟩ := next_trap hi he hn
    exact ⟨hp, rfl, rfl, hupd _, hmem⟩
  | handle tf =>
    obtain rfl := Option.some.inj hn
    exact ⟨hp, rfl, rfl, rfl, hmem⟩
  | trapReturn =>
    obtain ⟨f, fs, hpops⟩ := next_trapReturn hi he hn
    rw [hpops.shape] at hmem ⊢
    exact ⟨hp, rfl, rfl, hupd _, hmem⟩
  | forkret =>
    obtain ⟨f, fs, hpops⟩ := next_forkret hi he hn
    rw [hpops.shape] at hmem ⊢
    exact ⟨hp, rfl, rfl, hupd _, hmem⟩
  | execveReturn tf =>
    have hex := next_execveReturn hi he hn
    rw [hex.shape] at hmem ⊢
    exact ⟨hp, rfl, rfl, hupd _, hmem⟩
  | fork q t c esp tf =>
    obtain rfl := Option.some.inj hn
    have hpq : p ≠ q := fun h => he.2.1 (h ▸ hp)
    exact ⟨Finset.mem_insert_of_mem hp, Function.update_of_ne hpq .., Function.update_of_ne hpq ..,
      Function.update_of_ne hpq .., hmem⟩
  | switchTo q =>
    obtain ⟨h', -, rfl⟩ := next_switchTo hi he hn
    exact ⟨hp, rfl, rfl, rfl, hmem⟩
  | reap q =>
    obtain rfl := Option.some.inj hn
    have hpq : p ≠ q := fun h => ha.2 (h ▸ rfl)
    exact ⟨Finset.mem_erase.2 ⟨hpq, hp⟩, rfl, rfl, rfl, hmem⟩

theorem away_path (hi : CpuInv s) (hp : p ∈ s.procs) (h : ((cpuMachine sym).restrict (Cpu.Away p)).Path s r) :
    CpuInv (Machine.endOf s r) ∧ p ∈ (Machine.endOf s r).procs ∧ (Machine.endOf s r).top p = s.top p ∧
      (Machine.endOf s r).ctx p = s.ctx p ∧ (Machine.endOf s r).frames p = s.frames p ∧
      ∀ x, s.InStack p x ∨ s.InCtx p x → (Machine.endOf s r).hart.mem x = s.hart.mem x := by
  induction r generalizing s with
  | nil => exact ⟨hi, hp, rfl, rfl, rfl, fun _ _ => rfl⟩
  | cons y r ih =>
    obtain ⟨a, u⟩ := y
    obtain ⟨⟨he, ha⟩, hn, hpath⟩ := h
    obtain ⟨hp', htop, hctx, hframes, hmem⟩ := away_step hi he hn hp ha
    obtain ⟨hi', hp₁, htop₁, hctx₁, hframes₁, hmem₁⟩ := ih (hi.step he hn) hp' hpath
    refine ⟨hi', hp₁, htop₁.trans htop, hctx₁.trans hctx, hframes₁.trans hframes, fun x hx => ?_⟩
    refine (hmem₁ x ?_).trans (hmem x hx)
    rwa [Cpu.InStack, Cpu.InCtx, htop, hctx]

/-- The process `p` is in a trap with the frame `tf` at `f`. -/
theorem inTrap_step (hi : CpuInv s) (he : s.enabled a) (hn : s.next sym a = some s') (hin : InTrap s p f top fs)
    (hst : s.StaysIn p (fs.length + 1) a) : InTrap s' p f top fs ∧
      s'.hart.frame f = s.edit p (fs.length + 1) (s.hart.frame f) a ∧
      ∀ x, f + frameSize ≤ x → x < top → s'.hart.mem x = s.hart.mem x := by
  obtain ⟨pre, hfs⟩ := hin.frames
  have hok := hi.frames p hin.alive
  rw [hin.top, hfs] at hok
  obtain ⟨h8, hbot, hend, -⟩ := hok.append
  have hle := hok.append.2.2.2.2.2.limit_le
  have hinS (x : Nat) (h₁ : f ≤ x) (h₂ : x < top) : s.InStack p x := by
    rw [Cpu.InStack, hin.top]
    exact ⟨le_trans hbot h₁, h₂⟩
  by_cases hcur : s.current = p
  · subst hcur
    have hlim : s.limit s.current ≤ f := by
      rw [Cpu.limit, hin.top, hfs]
      exact (hok.mem (List.mem_append_right _ (.head _))).2.1
    have hkeep (ht : ∀ x, f ≤ x → x < top → ¬ s.Touched x a) :
        s'.hart.frame f = s.hart.frame f ∧ ∀ x, f + frameSize ≤ x → x < top → s'.hart.mem x = s.hart.mem x := by
      have hm (x : Nat) (h₁ : f ≤ x) (h₂ : x < top) : s'.hart.mem x = s.hart.mem x :=
        next_mem hi he hn hin.alive (.inl (hinS x h₁ h₂)) (ht x h₁ h₂)
      exact ⟨frame_congr fun x h₁ h₂ => hm x h₁ (by omega), fun x h₁ h₂ => hm x (by omega) h₂⟩
    have hself (l : List Nat) : update s.frames s.current l s.current = l := Function.update_self ..
    cases a with
    | code h =>
      have hk := hkeep fun x h₁ _ ht => absurd ht.2.2 (by omega)
      obtain rfl := Option.some.inj hn
      exact ⟨⟨hin.alive, hin.top, pre, hfs⟩, hk⟩
    | trap c v =>
      have hk := hkeep fun x h₁ _ ht => absurd ht.2 (by omega)
      obtain ⟨h', -, rfl⟩ := next_trap hi he hn
      exact ⟨⟨hin.alive, hin.top, _ :: pre, (hself _).trans (by rw [hfs]; rfl)⟩, hk⟩
    | handle tf =>
      obtain rfl := Option.some.inj hn
      refine ⟨⟨hin.alive, hin.top, pre, hfs⟩, ?_⟩
      cases pre with
      | nil =>
        have hlim' : s.limit s.current = f := by rw [Cpu.limit, hfs]; rfl
        have hlen : (s.frames s.current).length = fs.length + 1 := by rw [hfs]; rfl
        show (s.hart.setFrame (s.limit s.current) tf).frame f = _ ∧ ∀ x, _ → _ → _
        rw [hlim', setFrame_frame, Cpu.edit, if_pos ⟨rfl, hlen⟩]
        exact ⟨rfl, fun x h₁ _ => setFrame_outside (.inr h₁)⟩
      | cons g pre =>
        have hlen : (s.frames s.current).length ≠ fs.length + 1 := by
          rw [hfs, List.length_append, List.length_cons, List.length_cons]
          omega
        have hgap : s.limit s.current + frameSize ≤ f := by
          rw [Cpu.limit, hin.top, hfs]
          exact hok.append_le (List.cons_ne_nil _ _)
        rw [Cpu.edit, if_neg fun h => hlen h.2]
        exact hkeep fun x h₁ _ ht => by
          have ht₂ := ht.2
          omega
    | trapReturn =>
      obtain ⟨g, gs, hp⟩ := next_trapReturn hi he hn
      have hk := hkeep fun x _ _ ht => ht
      cases pre with
      | nil => exact absurd (by rw [hfs]; rfl) (hst rfl)
      | cons g' pre =>
        obtain ⟨-, rfl⟩ := List.cons.inj (hp.frames.symm.trans hfs)
        rw [hp.shape] at hk ⊢
        exact ⟨⟨hin.alive, hin.top, pre, hself _⟩, hk⟩
    | forkret =>
      obtain ⟨g, gs, hp⟩ := next_forkret hi he hn
      have hk := hkeep fun x _ _ ht => ht
      cases pre with
      | nil => exact absurd (by rw [hfs]; rfl) (hst rfl)
      | cons g' pre =>
        obtain ⟨-, rfl⟩ := List.cons.inj (hp.frames.symm.trans hfs)
        rw [hp.shape] at hk ⊢
        exact ⟨⟨hin.alive, hin.top, pre, hself _⟩, hk⟩
    | execveReturn tf =>
      have hone := he.2.1.symm.trans hfs
      cases pre with
      | nil => exact absurd (by rw [hfs]; rfl) (hst rfl)
      | cons g pre => cases pre <;> cases hone
    | fork q t c esp tf =>
      have hk := hkeep fun x _ _ ht => ht
      have hpq : s.current ≠ q := fun h => he.2.1 (h ▸ hin.alive)
      obtain rfl := Option.some.inj hn
      exact ⟨⟨Finset.mem_insert_of_mem hin.alive, (Function.update_of_ne hpq ..).trans hin.top, pre,
        (Function.update_of_ne hpq ..).trans hfs⟩, hk⟩
    | switchTo q =>
      have hk := hkeep fun x h₁ h₂ ht => hi.outside _ hi.current x (hinS x h₁ h₂) ht
      obtain ⟨h', -, rfl⟩ := next_switchTo hi he hn
      exact ⟨⟨hin.alive, hin.top, pre, hfs⟩, hk⟩
    | reap q =>
      have hk := hkeep fun x _ _ ht => ht
      obtain rfl := Option.some.inj hn
      exact ⟨⟨Finset.mem_erase.2 ⟨Ne.symm hst, hin.alive⟩, hin.top, pre, hfs⟩, hk⟩
  · have ha : a ≠ .reap p := by
      rintro rfl
      exact hst rfl
    obtain ⟨hp', htop, -, hframes, hmem⟩ := away_step hi he hn hin.alive ⟨hcur, ha⟩
    have hm (x : Nat) (h₁ : f ≤ x) (h₂ : x < top) : s'.hart.mem x = s.hart.mem x := hmem x (.inl (hinS x h₁ h₂))
    have hedit : s.edit p (fs.length + 1) (s.hart.frame f) a = s.hart.frame f := by
      cases a with
      | handle tf => exact if_neg fun h => hcur h.1
      | _ => rfl
    refine ⟨⟨hp', htop.trans hin.top, pre, hframes.trans hfs⟩, ?_, fun x h₁ h₂ => hm x (by omega) h₂⟩
    rw [hedit]
    exact frame_congr fun x h₁ h₂ => hm x h₁ (by omega)

theorem inTrap_path (hi : CpuInv s) (hin : InTrap s p f top fs)
    (h : ((cpuMachine sym).restrict (Cpu.StaysIn p (fs.length + 1))).Path s r) :
    CpuInv (Machine.endOf s r) ∧ InTrap (Machine.endOf s r) p f top fs ∧
      (Machine.endOf s r).hart.frame f = Cpu.edited p (fs.length + 1) s r (s.hart.frame f) ∧
      ∀ x, f + frameSize ≤ x → x < top → (Machine.endOf s r).hart.mem x = s.hart.mem x := by
  induction r generalizing s with
  | nil => exact ⟨hi, hin, rfl, fun _ _ _ => rfl⟩
  | cons y r ih =>
    obtain ⟨a, u⟩ := y
    obtain ⟨⟨he, hst⟩, hn, hpath⟩ := h
    obtain ⟨hin', hfr, hmem⟩ := inTrap_step hi he hn hin hst
    obtain ⟨hi₁, hin₁, hfr₁, hmem₁⟩ := ih (hi.step he hn) hin' hpath
    refine ⟨hi₁, hin₁, ?_, fun x h₁ h₂ => (hmem₁ x h₁ h₂).trans (hmem x h₁ h₂)⟩
    exact hfr₁.trans (by rw [hfr]; rfl)

end

end UCore
