import UCore.Process.FrameKMem
import UCore.Process.SpaceSteps

namespace UCore
set_option autoImplicit true
open Function (update)

/-- The frame is one of the kernel stack at `a`. -/
def OnStack (a f : Nat) : Prop := ∃ t, a = page2kva t ∧ t ≤ f ∧ f < t + kstackPage

/-- The frames of the kernel stacks of the processes. -/
def StackFrame (kstack : Nat → Nat) (P : Finset Nat) (f : Nat) : Prop := ∃ p ∈ P, OnStack (kstack p) f

/-- Each process has a kernel stack of its own. -/
structure Stacks (kstack : Nat → Nat) (P : Finset Nat) : Prop where
  page : ∀ p ∈ P, ∃ t, kstack p = page2kva t
  apart : ∀ p ∈ P, ∀ q ∈ P, ∀ f, OnStack (kstack p) f → OnStack (kstack q) f → p = q

theorem onStack_page2kva : OnStack (page2kva t) f ↔ t ≤ f ∧ f < t + kstackPage := by
  refine ⟨fun ⟨u, hu, hf⟩ => ?_, fun hf => ⟨t, rfl, hf⟩⟩
  rwa [page2kva_inj hu]

namespace Stacks
variable {kstack kstack' : Nat → Nat} {P P' : Finset Nat}

theorem frame_congr (hk : ∀ p ∈ P, kstack' p = kstack p) : StackFrame kstack' P f ↔ StackFrame kstack P f := by
  unfold StackFrame
  refine exists_congr fun p => and_congr_right fun hp => ?_
  rw [hk p hp]

theorem congr (h : Stacks kstack P) (hk : ∀ p ∈ P, kstack' p = kstack p) : Stacks kstack' P := by
  refine ⟨fun p hp => ?_, fun p hp q hq f => ?_⟩
  · rw [hk p hp]
    exact h.page p hp
  · rw [hk p hp, hk q hq]
    exact h.apart p hp q hq f

theorem sub (h : Stacks kstack P) (hs : P' ⊆ P) : Stacks kstack P' :=
  ⟨fun p hp => h.page p (hs hp), fun p hp q hq => h.apart p (hs hp) q (hs hq)⟩

theorem frame_insert (hp : p ∉ P) : StackFrame (update kstack p (page2kva t)) (insert p P) f ↔
    StackFrame kstack P f ∨ t ≤ f ∧ f < t + kstackPage := by
  unfold StackFrame
  simp only [Finset.mem_insert, exists_eq_or_imp, Function.update_self, onStack_page2kva]
  rw [or_comm]
  refine or_congr (exists_congr fun q => and_congr_right fun hq => ?_) Iff.rfl
  rw [Function.update_of_ne (ne_of_mem_of_not_mem hq hp)]

theorem insert (h : Stacks kstack P) (hp : p ∉ P) (hnew : ∀ f, t ≤ f → f < t + kstackPage → ¬ StackFrame kstack P f) :
    Stacks (update kstack p (page2kva t)) (insert p P) := by
  have hold (q : Nat) (hq : q ∈ P) : update kstack p (page2kva t) q = kstack q :=
    Function.update_of_ne (ne_of_mem_of_not_mem hq hp) ..
  have hself : update kstack p (page2kva t) p = page2kva t := Function.update_self ..
  refine ⟨fun q hq => ?_, fun q hq r hr f hqf hrf => ?_⟩
  · rcases Finset.mem_insert.1 hq with rfl | hq
    · exact ⟨t, hself⟩
    · rw [hold q hq]
      exact h.page q hq
  · rcases Finset.mem_insert.1 hq with hqp | hqP
    · rw [hqp, hself, onStack_page2kva] at hqf
      rcases Finset.mem_insert.1 hr with hrp | hrP
      · rw [hqp, hrp]
      · rw [hold r hrP] at hrf
        exact absurd ⟨r, hrP, hrf⟩ (hnew f hqf.1 hqf.2)
    · rw [hold q hqP] at hqf
      rcases Finset.mem_insert.1 hr with hrp | hrP
      · rw [hrp, hself, onStack_page2kva] at hrf
        exact absurd ⟨q, hqP, hqf⟩ (hnew f hrf.1 hrf.2)
      · rw [hold r hrP] at hrf
        exact h.apart q hqP r hrP f hqf hrf

/-- The frames of the other stacks. -/
theorem frame_erase (h : Stacks kstack P) (hp : p ∈ P) (ht : kstack p = page2kva t)
    (hf : StackFrame kstack (P.erase p) f) : StackFrame kstack P f ∧ ¬ (t ≤ f ∧ f < t + kstackPage) := by
  obtain ⟨q, hq, hqf⟩ := hf
  obtain ⟨hqp, hq⟩ := Finset.mem_erase.1 hq
  refine ⟨⟨q, hq, hqf⟩, fun hc => hqp (h.apart q hq p hp f hqf ?_)⟩
  rw [ht]
  exact onStack_page2kva.2 hc

end Stacks

/-- The two kernels have the same memory, and the same address spaces, kernel stacks and continuations for all
processes. -/
structure SameStacks {S : MemSys} (k k' : Kernel S) : Prop where
  mem : k'.mem = k.mem
  mm : k'.mm = k.mm
  kstack : k'.kstack = k.kstack
  ctl : k'.ctl = k.ctl
  current : k'.current = k.current
  idleproc : k'.idleproc = k.idleproc

namespace SameStacks
variable {S : MemSys} {k k' k'' : Kernel S}

theorem refl (k : Kernel S) : SameStacks k k := ⟨rfl, rfl, rfl, rfl, rfl, rfl⟩

theorem trans (h : SameStacks k k') (h' : SameStacks k' k'') : SameStacks k k'' where
  mem := h'.mem.trans h.mem
  mm := h'.mm.trans h.mm
  kstack := h'.kstack.trans h.kstack
  ctl := h'.ctl.trans h.ctl
  current := h'.current.trans h.current
  idleproc := h'.idleproc.trans h.idleproc

theorem wakeupProc (h : k.wakeupProc p = some k') : SameStacks k k' := by
  unfold Kernel.wakeupProc at h
  split at h
  · cases h
  · split at h
    · cases h
      exact ⟨rfl, rfl, rfl, rfl, rfl, rfl⟩
    · cases h
      exact .refl k

theorem wake (c : Prop) [Decidable c] (h : (if c then k.wakeupProc p else some k) = some k') : SameStacks k k' := by
  split at h
  · exact .wakeupProc h
  · cases h
    exact .refl k

theorem getPid (h : k.getPid = some (pid, k')) : SameStacks k k' := by
  unfold Kernel.getPid at h
  dsimp only at h
  split at h
  · obtain ⟨x, -, h⟩ := Option.bind_eq_some_iff.1 h
    cases h
    exact ⟨rfl, rfl, rfl, rfl, rfl, rfl⟩
  · cases h
    exact ⟨rfl, rfl, rfl, rfl, rfl, rfl⟩

theorem setLinks (h : k.setLinks p = some k') : SameStacks k k' := by
  cases hq : k.parent p with
  | none => simp [Kernel.setLinks, Kernel.setYptr, hq] at h
  | some q =>
    rw [setLinks_eq hq] at h
    cases h
    exact ⟨rfl, rfl, rfl, rfl, rfl, rfl⟩

theorem removeLinks (h : k.removeLinks p = some k') : SameStacks k k' := by
  unfold Kernel.removeLinks at h
  dsimp only at h
  split at h
  · cases h
    split <;> exact ⟨rfl, rfl, rfl, rfl, rfl, rfl⟩
  · obtain ⟨k₁, hp, h⟩ := Option.bind_eq_some_iff.1 h
    obtain ⟨q, -, hp⟩ := Option.map_eq_some_iff.1 hp
    cases hp
    cases h
    split <;> exact ⟨rfl, rfl, rfl, rfl, rfl, rfl⟩

theorem reparent (h : k.reparent n = some k') : SameStacks k k' :=
  reparent_keeps SameStacks .refl (fun _ _ _ => .trans) (fun _ _ _ _ _ => ⟨rfl, rfl, rfl, rfl, rfl, rfl⟩)
    (fun _ _ _ => .wakeupProc) h

theorem doKill (h : k.doKill pid = some (e, k')) : SameStacks k k' := by
  obtain ⟨f, -, h⟩ := Option.bind_eq_some_iff.1 h
  cases f with
  | none =>
    cases h
    exact .refl k
  | some p =>
    dsimp only at h
    split at h
    · obtain ⟨k₁, hw, h⟩ := Option.bind_eq_some_iff.1 h
      cases h
      have hf : SameStacks k { k with flags := update k.flags p (k.flags p ||| pfExiting) } :=
        ⟨rfl, rfl, rfl, rfl, rfl, rfl⟩
      exact hf.trans (.wake _ hw)
    · cases h
      exact .refl k

end SameStacks

/-- The kernel stacks of the processes and the address spaces have frames of their own, and since `k`, only the
address space `own` has been worked on. -/
structure Working {A : PhysSys} {bs : Nat} (P : Finset Nat) (own : Option Nat) (k k' : Kernel (pagingSys A bs)) :
    Prop where
  kstacks : Stacks k'.kstack P
  inside : Inside (StackFrame k'.kstack P) own k.kmem.mem k'.kmem.mem

section
variable {A : PhysSys} {bs : Nat} {k k' k'' : Kernel (pagingSys A bs)} {P P' : Finset Nat} {own : Option Nat}

theorem Inside.mono {m m' : Mem A} (h : Inside S own m m') (hs : ∀ f, S' f → S f) : Inside S' own m m' :=
  ⟨h.frames.mono hs, h.others⟩

namespace Working

/-- A step that leaves the kernel stacks alone. -/
theorem next (h : Working P own k k') (hs : ∀ p ∈ P, k''.kstack p = k'.kstack p)
    (hi : Inside (StackFrame k'.kstack P) own k'.kmem.mem k''.kmem.mem) : Working P own k k'' :=
  ⟨h.kstacks.congr hs, h.inside.trans (hi.mono fun _ => (Stacks.frame_congr hs).1)⟩

theorem setMem (h : Working P own k k') (hi : Inside (StackFrame k'.kstack P) own k'.kmem.mem m.mem) :
    Working P own k (k'.setMem m) := h.next (fun _ _ => rfl) hi

theorem same (h : Working P own k k') (hm : k''.mem = k'.mem) (hs : k''.kstack = k'.kstack) : Working P own k k'' := by
  refine h.next (fun p _ => congrFun hs p) ?_
  rw [show k''.kmem = k'.kmem from hm]
  exact .refl h.inside.frames own

theorem sub (h : Working P own k k') (hs : P' ⊆ P) : Working P' own k k' :=
  ⟨h.kstacks.sub hs, h.inside.mono fun _ ⟨p, hp, hf⟩ => ⟨p, hs hp, hf⟩⟩

theorem kfreeProc (h : Working P own k k') (p : Nat) : Working P own k (k'.kfreeProc p) :=
  h.setMem ((h.inside.frames.kfreeProc p).widen own)

/-- The address spaces of `k` that are still there. -/
theorem spaces (h : Working P none k k') (hx : x ∈ k.spaces) : x ∈ k'.spaces := (h.inside.others x hx nofun).1

theorem setupKstack (h : Working P none k k') (hp : p ∉ P) (hs : k'.setupKstack p = (b, k'')) :
    SameBlocks k'.kmem k''.kmem ∧ k''.mm = k'.mm ∧ k''.ctl = k'.ctl ∧ k''.current = k'.current ∧
    k''.idleproc = k'.idleproc ∧ (b = false ∧ k''.kstack = k'.kstack ∨ b = true ∧ Working (insert p P) none k k'') := by
  unfold Kernel.setupKstack at hs
  split at hs
  · rename_i m hm
    cases hs
    exact ⟨SameBlocks.allocKstack hm, rfl, rfl, rfl, rfl, .inl ⟨rfl, rfl⟩⟩
  · rename_i a m hm
    cases hs
    refine ⟨SameBlocks.allocKstack hm, rfl, rfl, rfl, rfl, .inr ⟨rfl, ?_⟩⟩
    rcases h.inside.frames.allocKstack hm with ⟨ha, -⟩ | ⟨t, ha, hnew, hin⟩
    · cases ha
    · obtain rfl := Option.some.inj ha
      exact ⟨h.kstacks.insert hp hnew, h.inside.trans (hin.mono fun f hf => (Stacks.frame_insert hp).1 hf)⟩

theorem putKstack (h : Working P own k k') (hp : p ∈ P) (hs : k'.putKstack p = some k'') :
    Working (P.erase p) own k k'' := by
  obtain ⟨m, hm, rfl⟩ := Option.map_eq_some_iff.1 hs
  obtain ⟨t, ht⟩ := h.kstacks.page p hp
  have hm : k'.kmem.freeKstack (page2kva t) = some m := by
    rw [← ht]
    exact hm
  have hon (f : Nat) (h₁ : t ≤ f) (h₂ : f < t + kstackPage) : StackFrame k'.kstack P f :=
    ⟨p, hp, ht ▸ onStack_page2kva.2 ⟨h₁, h₂⟩⟩
  refine ⟨h.kstacks.sub (Finset.erase_subset ..), h.inside.trans ?_⟩
  exact ((h.inside.frames.freeKstack hon hm).widen own).mono fun f hf => h.kstacks.frame_erase hp ht hf

/-- `copy_mm` gives the new process an address space, or does not. -/
theorem copyMm (h : Working P none k k') (hx : ∀ x, k'.mm k'.current = some x → x ∈ k'.spaces)
    (hc : k'.copyMm fl p = some (e, k'')) : Working P none k k'' ∧ k''.procs = k'.procs ∧ k''.ctl = k'.ctl ∧
    k''.current = k'.current ∧ k''.idleproc = k'.idleproc ∧ ∀ q ≠ p, k''.mm q = k'.mm q := by
  unfold Kernel.copyMm at hc
  split at hc
  · cases hc
  · rename_i ret m hm
    cases hc
    obtain ⟨⟨⟨ret', new⟩, m'⟩, hr, he⟩ := Option.map_eq_some_iff.1 hm
    cases he
    exact ⟨h.setMem (h.inside.frames.copyMm hx hr), (copyMm_eq hr).2.1, rfl, rfl, rfl, fun _ _ => rfl⟩
  · rename_i ret x cr m hm
    cases hc
    obtain ⟨⟨⟨ret', new⟩, m'⟩, hr, he⟩ := Option.map_eq_some_iff.1 hm
    cases he
    exact ⟨h.next (fun _ _ => rfl) (h.inside.frames.copyMm hx hr), (copyMm_eq hr).2.1, rfl, rfl, rfl,
      fun q hq => Function.update_of_ne hq ..⟩

end Working

end

end UCore
