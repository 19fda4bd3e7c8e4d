import UCore.Mm.Paging
import UCore.Mm.FramePool

namespace UCore
set_option autoImplicit true

/-- A one-page request that cannot be satisfied returns NULL and leaves the page tables, the swap queue and
the allocator as they are. -/
def Mem.ReportsOom {A : PhysSys} (m : Mem A) (fuel : Nat) : Prop :=
  ∃ m', m.allocPagesLoop 1 fuel = some (none, m') ∧ m'.frame = m.frame ∧ m'.praList = m.praList ∧
    m'.phys = m.phys

section
variable {A : PhysSys} {m m' : Mem A}

theorem swapOutVictim_swapInitOk (h : m.swapOutVictim mm = some (p, m')) : m'.swapInitOk = m.swapInitOk := by
  unfold Mem.swapOutVictim at h
  split at h
  · split at h
    · cases h
    · cases h
      rfl
  · cases h

theorem swapfsWrite_swapInitOk (h : m.swapfsWrite e p = some m') : m'.swapInitOk = m.swapInitOk := by
  obtain ⟨offset, -, hw⟩ := Option.bind_eq_some_iff.1 h
  cases hw
  rfl

theorem swapOut_swapInitOk (h : m.swapOut mm = some m') : m'.swapInitOk = m.swapInitOk := by
  obtain ⟨mm, -, h⟩ := Option.bind_eq_some_iff.1 h
  obtain ⟨⟨p, m₁⟩, hv, h⟩ := Option.bind_eq_some_iff.1 h
  obtain ⟨pgdir, -, h⟩ := Option.bind_eq_some_iff.1 h
  obtain ⟨slot, -, h⟩ := Option.bind_eq_some_iff.1 h
  obtain ⟨⟨pt, i⟩, -, h⟩ := Option.bind_eq_some_iff.1 h
  dsimp only at h
  split at h
  · obtain ⟨m₂, hw, h⟩ := Option.bind_eq_some_iff.1 h
    cases h
    exact (swapfsWrite_swapInitOk hw).trans (swapOutVictim_swapInitOk hv)
  · cases h

/-- With swapping on, the loop of `alloc_pages` leaves with a page only. -/
theorem allocPagesLoop_page (hon : m.swapInitOk = true) : m.allocPagesLoop 1 fuel ≠ some (none, m') := by
  induction fuel generalizing m with
  | zero => simp [Mem.allocPagesLoop]
  | succ fuel ih =>
    intro h
    rw [Mem.allocPagesLoop] at h
    cases ha : A.allocPages m.phys 1 with
    | mk r s =>
      rw [ha] at h
      cases r with
      | some p => cases h
      | none =>
        dsimp only at h
        rw [if_neg (by simp [hon])] at h
        obtain ⟨m₁, hs, h⟩ := Option.bind_eq_some_iff.1 h
        exact ih ((swapOut_swapInitOk hs).trans hon) h

/-- Without an address space to swap from, or with nothing in the queue, no page is swapped out. -/
theorem swapOut_nothing (hq : m.checkMm = none ∨ m.praList = []) : m.swapOut m.checkMm = none := by
  rcases hq with hq | hq
  · rw [hq]
    rfl
  · cases hc : m.checkMm with
    | none => rfl
    | some mm =>
      have hv : m.swapOutVictim mm = none := by
        unfold Mem.swapOutVictim
        rw [hq]
        split <;> rfl
      rw [Mem.swapOut, Option.bind_eq_bind, Option.bind_some, hv]
      rfl

/-- Out of memory is never reported: with nothing to swap out `alloc_pages` does not return, however many
rounds it takes. -/
theorem oom_not_reported (hon : m.swapInitOk = true) (hno : (A.allocPages m.phys 1).1 = none)
    (hq : m.checkMm = none ∨ m.praList = []) :
    (∀ fuel, m.allocPagesLoop 1 fuel = none) ∧ ¬ ∃ fuel, m.ReportsOom fuel := by
  refine ⟨fun fuel => ?_, fun ⟨_, _, hr, _⟩ => allocPagesLoop_page hon hr⟩
  cases fuel with
  | zero => rfl
  | succ fuel =>
    rw [Mem.allocPagesLoop]
    cases ha : A.allocPages m.phys 1 with
    | mk r s =>
      rw [ha] at hno
      obtain rfl : r = none := hno
      have hs : (m.setPhys s).swapOut m.checkMm = none := swapOut_nothing (m := m.setPhys s) hq
      dsimp only
      rw [if_neg (by simp [hon]), hs]
      rfl

end

/-- The state after boot, when no frame is free any more. -/
def fullMem : Mem framePool := { poolMem with phys := ⟨[], [], by decide⟩, swapInitOk := true, maxSwapOffset := 7 }

theorem oom_unreported : (framePool.allocPages fullMem.phys 1).1 = none ∧ fullMem.checkMm = none ∧
    ¬ ∃ fuel, fullMem.ReportsOom fuel :=
  ⟨rfl, rfl, fun ⟨_, _, hr, _⟩ => allocPagesLoop_page rfl hr⟩

theorem oom_not_reported_full : (∀ fuel, fullMem.allocPagesLoop 1 fuel = none) ∧ ¬ ∃ fuel, fullMem.ReportsOom fuel :=
  oom_not_reported rfl rfl (.inl rfl)

end UCore
