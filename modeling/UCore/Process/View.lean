import UCore.Process.Links

namespace UCore
set_option autoImplicit true
open Function (update)

/-- What is recorded about one process, its links aside. -/
structure ProcView where
  state : ProcState
  pid : Int
  parent : Option Nat
  flags : BitVec 32
  exitCode : Int
  mm : Option Nat
  cr3 : Nat
  ctl : Ctl

def Kernel.view {S : MemSys} (k : Kernel S) (p : Nat) : ProcView where
  state := k.state p
  pid := k.pid p
  parent := k.parent p
  flags := k.flags p
  exitCode := k.exitCode p
  mm := k.mm p
  cr3 := k.cr3 p
  ctl := k.ctl p

/-- The two kernels record the same about the processes other than `p`, with the same flags for all and
the same live `proc_struct`s. -/
structure Apart {S : MemSys} (k k' : Kernel S) (p : Nat) : Prop where
  view : ∀ q ≠ p, k'.view q = k.view q
  flags : k'.flags = k.flags
  live : S.live k'.mem = S.live k.mem

section
variable {S : MemSys} {k k' k'' : Kernel S}

theorem Apart.refl (k : Kernel S) (p : Nat) : Apart k k p := ⟨fun _ _ => rfl, rfl, rfl⟩

theorem Apart.trans (h : Apart k k' p) (h' : Apart k' k'' p) : Apart k k'' p where
  view q hq := (h'.view q hq).trans (h.view q hq)
  flags := h'.flags.trans h.flags
  live := h'.live.trans h.live

theorem Apart.setMem (hm : S.live m = S.live k.mem) : Apart k (k.setMem m) p :=
  ⟨fun _ _ => rfl, rfl, hm⟩

theorem Apart.setupKstack (h : k.setupKstack p = (b, k')) : Apart k k' p := by
  unfold Kernel.setupKstack at h
  split at h
  · rename_i m hm
    cases h
    exact .setMem (S.allocKstack_live hm)
  · rename_i a m hm
    cases h
    exact ⟨fun _ _ => rfl, rfl, S.allocKstack_live hm⟩

theorem Apart.putKstack (h : k.putKstack q = some k') : Apart k k' p := by
  obtain ⟨m, hm, rfl⟩ := Option.map_eq_some_iff.1 h
  exact .setMem (S.freeKstack_live hm)

theorem Apart.copyMm (h : k.copyMm fl p = some (e, k')) : Apart k k' p := by
  unfold Kernel.copyMm at h
  split at h
  · cases h
  · rename_i ret m hm
    cases h
    exact .setMem (S.copyMm_live hm)
  · rename_i ret mm cr m hm
    cases h
    refine ⟨fun q hq => ?_, rfl, S.copyMm_live hm⟩
    simp [Kernel.view, hq]

theorem Apart.getPid (h : k.getPid = some (pid, k')) : Apart k k' p := by
  unfold Kernel.getPid at h
  dsimp only at h
  split at h
  · obtain ⟨x, -, h⟩ := Option.bind_eq_some_iff.1 h
    cases h
    exact ⟨fun _ _ => rfl, rfl, rfl⟩
  · cases h
    exact ⟨fun _ _ => rfl, rfl, rfl⟩

theorem Apart.setLinks (h : k.setLinks q = some k') : Apart k k' p := by
  cases hq : k.parent q with
  | none => simp [Kernel.setLinks, Kernel.setYptr, hq] at h
  | some r =>
    rw [setLinks_eq hq] at h
    cases h
    exact ⟨fun _ _ => rfl, rfl, rfl⟩

theorem Apart.wakeupProc (h : k.wakeupProc p = some k') : Apart k k' p := by
  unfold Kernel.wakeupProc at h
  split at h
  · cases h
  · split at h
    · cases h
      refine ⟨fun q hq => ?_, rfl, rfl⟩
      simp [Kernel.view, hq]
    · cases h
      exact .refl ..

/-- `alloc_proc` obtains a new `proc_struct`, without flags. -/
theorem allocProc_view (h : k.allocProc = (some p, k')) :
    ¬ S.live k.mem p ∧ (∀ q ≠ p, k'.view q = k.view q) ∧ k'.flags p = 0 ∧
      ∀ q, S.live k'.mem q ↔ S.live k.mem q ∨ q = p := by
  unfold Kernel.allocProc at h
  split at h
  · cases h
  · rename_i a m hm
    cases h
    refine ⟨S.kmallocProc_fresh hm, fun q hq => ?_, Function.update_self .., fun q => ?_⟩
    · simp [Kernel.view, hq]
    · rw [S.kmallocProc_live hm, Option.some.injEq, eq_comm (a := q)]

/-- `do_fork` leaves alone what is recorded about the old processes, and a new process has no flags. -/
theorem doFork_view (h : k.doFork fl entry = some (r, k')) (q : Nat) :
    (S.live k.mem q → k'.view q = k.view q) ∧ (¬ S.live k.mem q → S.live k'.mem q → k'.flags q = 0) := by
  unfold Kernel.doFork Kernel.doForkWith at h
  split at h
  · cases h
    exact ⟨fun _ => rfl, fun hn hl => absurd hl hn⟩
  · split at h
    · rename_i k₁ ha
      cases h
      unfold Kernel.allocProc at ha
      split at ha
      · rename_i m hm
        cases ha
        refine ⟨fun _ => rfl, fun hn hl => absurd ?_ hn⟩
        simpa [Kernel.setMem, S.kmallocProc_live hm] using hl
      · cases ha
    · rename_i p k₁ ha
      obtain ⟨hfresh, hview, hfl, hlive⟩ := allocProc_view ha
      have hpar : Apart k₁ { k₁ with parent := update k₁.parent p (some k₁.current) } p := by
        refine ⟨fun q hq => ?_, rfl, rfl⟩
        simp [Kernel.view, hq]
      have hold (k₂ : Kernel S) (hap : Apart k₁ k₂ p) (hq : S.live k.mem q) : k₂.view q = k.view q := by
        have hqp : q ≠ p := by
          rintro rfl
          exact hfresh hq
        exact (hap.view q hqp).trans (hview q hqp)
      have habort (k₂ : Kernel S) (hap : Apart k₁ k₂ p) :
          (S.live k.mem q → (k₂.kfreeProc p).view q = k.view q) ∧
            (¬ S.live k.mem q → S.live (k₂.kfreeProc p).mem q → (k₂.kfreeProc p).flags q = 0) := by
        refine ⟨hold k₂ hap, fun hn hl => ?_⟩
        rw [Kernel.kfreeProc, Kernel.setMem, S.kfreeProc_live, hap.live, hlive] at hl
        exact absurd (hl.1.resolve_right hl.2) hn
      dsimp only at h
      split at h
      · rename_i k₂ hks
        obtain ⟨k₃, hpk, h⟩ := Option.bind_eq_some_iff.1 h
        cases h
        exact habort k₃ ((hpar.trans (.setupKstack hks)).trans (.putKstack hpk))
      · rename_i k₂ hks
        obtain ⟨⟨e, k₃⟩, hcm, h⟩ := Option.bind_eq_some_iff.1 h
        have hcopy := (hpar.trans (.setupKstack hks)).trans (.copyMm hcm)
        dsimp only at h
        split at h
        · cases h
          exact habort k₃ hcopy
        · obtain ⟨⟨pid, k₄⟩, hget, h⟩ := Option.bind_eq_some_iff.1 h
          obtain ⟨k₅, hset, h⟩ := Option.bind_eq_some_iff.1 h
          obtain ⟨k₆, hwake, h⟩ := Option.bind_eq_some_iff.1 h
          cases h
          have hctl : Apart k₃ (k₃.setCtl p (.forkret entry)) p := by
            refine ⟨fun q hq => ?_, rfl, rfl⟩
            simp [Kernel.view, Kernel.setCtl, hq]
          have hpid : Apart k₄ (({ k₄ with pid := update k₄.pid p pid } : Kernel S).hashProc p) p := by
            refine ⟨fun q hq => ?_, rfl, rfl⟩
            simp [Kernel.view, Kernel.hashProc, hq]
          have hall := ((((hcopy.trans hctl).trans (.getPid hget)).trans hpid).trans (.setLinks hset)).trans
            (.wakeupProc hwake)
          refine ⟨hold _ hall, fun hn hl => ?_⟩
          rw [hall.live, hlive] at hl
          rw [hall.flags, hl.resolve_left hn, hfl]

/-- The two kernels agree on all that the loop of `do_exit` and `wakeup_proc` leave alone. -/
structure Relinked (k k' : Kernel S) : Prop where
  pid : k'.pid = k.pid
  flags : k'.flags = k.flags
  exitCode : k'.exitCode = k.exitCode
  mm : k'.mm = k.mm
  cr3 : k'.cr3 = k.cr3
  mem : k'.mem = k.mem

theorem Relinked.trans (h : Relinked k k') (h' : Relinked k' k'') : Relinked k k'' where
  pid := h'.pid.trans h.pid
  flags := h'.flags.trans h.flags
  exitCode := h'.exitCode.trans h.exitCode
  mm := h'.mm.trans h.mm
  cr3 := h'.cr3.trans h.cr3
  mem := h'.mem.trans h.mem

theorem Relinked.wakeupProc (h : k.wakeupProc p = some k') : Relinked k k' := by
  unfold Kernel.wakeupProc at h
  split at h
  · cases h
  · split at h
    · cases h
      exact ⟨rfl, rfl, rfl, rfl, rfl, rfl⟩
    · cases h
      exact ⟨rfl, rfl, rfl, rfl, rfl, rfl⟩

theorem Relinked.wake (c : Prop) [Decidable c]
    (h : (if c then k.wakeupProc p else some k) = some k') : Relinked k k' := by
  split at h
  · exact .wakeupProc h
  · cases h
    exact ⟨rfl, rfl, rfl, rfl, rfl, rfl⟩

theorem Relinked.refl (k : Kernel S) : Relinked k k := ⟨rfl, rfl, rfl, rfl, rfl, rfl⟩

/-- What the links between relatives and `wakeup_proc` keep, the loop of `do_exit` keeps. -/
theorem reparent_keeps (R : Kernel S → Kernel S → Prop) (hrefl : ∀ k, R k k)
    (htrans : ∀ k k' k'', R k k' → R k' k'' → R k k'')
    (hlink : ∀ k c y o f, R k { k with cptr := c, yptr := y, optr := o, parent := f })
    (hwake : ∀ k k' p, k.wakeupProc p = some k' → R k k') (h : k.reparent n = some k') : R k k' := by
  induction n generalizing k with
  | zero => cases h
  | succ n ih =>
    unfold Kernel.reparent Kernel.reparentWith at h
    split at h
    · cases h
      exact hrefl _
    · rename_i p hp
      obtain ⟨k₁, hw, h⟩ := Option.bind_eq_some_iff.1 h
      refine htrans _ _ _ ?_ (ih h)
      have hwoken (k₂ : Kernel S) (c : Prop) [Decidable c]
          (hw : (if c then k₂.wakeupProc k₂.initproc else some k₂) = some k₁) : R k₂ k₁ := by
        split at hw
        · exact hwake _ _ _ hw
        · cases hw
          exact hrefl _
      refine htrans _ _ _ ?_ (hwoken _ _ hw)
      split
      · exact hlink ..
      · exact hlink ..

theorem Relinked.reparent (h : k.reparent n = some k') : Relinked k k' :=
  reparent_keeps Relinked .refl (fun _ _ _ => .trans) (fun _ _ _ _ _ => ⟨rfl, rfl, rfl, rfl, rfl, rfl⟩)
    (fun _ _ _ => .wakeupProc) h

/-- What `do_exit` leaves in the process that exits. -/
theorem doExit_view (h : k.doExit e = some k') :
    ∃ k₁, k.exitMm = some k₁ ∧ k'.pid = k.pid ∧ k'.flags = k.flags ∧
      k'.exitCode = update k.exitCode k.current e ∧ k'.mm = k₁.mm ∧ k'.cr3 = k.cr3 ∧ k'.mem = k₁.mem := by
  unfold Kernel.doExit Kernel.doExitWith at h
  split at h
  · cases h
  · split at h
    · cases h
    · obtain ⟨k₁, hm, h⟩ := Option.bind_eq_some_iff.1 h
      obtain ⟨p, -, h⟩ := Option.bind_eq_some_iff.1 h
      obtain ⟨k₂, hw, h⟩ := Option.bind_eq_some_iff.1 h
      obtain ⟨k₃, hr, h⟩ := Option.bind_eq_some_iff.1 h
      cases h
      have hall := (Relinked.wake _ hw).trans (.reparent hr)
      obtain ⟨hpid, hfl, hec, hcr, hcur⟩ : k₁.pid = k.pid ∧ k₁.flags = k.flags ∧
          k₁.exitCode = k.exitCode ∧ k₁.cr3 = k.cr3 ∧ k₁.current = k.current := by
        unfold Kernel.exitMm at hm
        split at hm
        · cases hm
          exact ⟨rfl, rfl, rfl, rfl, rfl⟩
        · obtain ⟨m, -, hm⟩ := Option.bind_eq_some_iff.1 hm
          cases hm
          exact ⟨rfl, rfl, rfl, rfl, rfl⟩
      refine ⟨k₁, hm, hall.pid.trans hpid, hall.flags.trans hfl, ?_, hall.mm, hall.cr3.trans hcr, hall.mem⟩
      rw [← hcur, ← hec]
      exact hall.exitCode

end

end UCore
