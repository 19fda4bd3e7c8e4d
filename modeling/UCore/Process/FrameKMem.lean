import UCore.Process.FrameAccess

namespace UCore
set_option autoImplicit true

section
variable {A : PhysSys} {m m' : Mem A} {role : Nat → Role} {dirs : Finset Nat} {S : Nat → Prop}

/-- `free_pages` of a kernel stack. -/
theorem FrameUse.freeRun (h : FrameUse dirs S m role) (hS : ∀ f, p ≤ f → f < p + n → S f) :
    ∃ role', FrameUse dirs (fun f => S f ∧ ¬ (p ≤ f ∧ f < p + n)) (m.freeRun p n) role' := by
  let role' (f : Nat) : Role := if p ≤ f ∧ f < p + n then .free else role f
  have hin (f : Nat) (hf : p ≤ f ∧ f < p + n) : role' f = .free := if_pos hf
  have hout (f : Nat) (hf : ¬ (p ≤ f ∧ f < p + n)) : role' f = role f := if_neg hf
  have hheld (f : Nat) (hf : p ≤ f ∧ f < p + n) := h.held f (hS f hf.1 hf.2)
  have hiff (r : Role) (h₁ : r ≠ .free) (h₂ : r ≠ .other) (f : Nat) : role' f = r ↔ role f = r := by
    by_cases hf : p ≤ f ∧ f < p + n
    · rw [hin f hf, (hheld f hf).1]
      exact iff_of_false h₁.symm h₂.symm
    · rw [hout f hf]
  have hfree (f : Nat) : A.free (m.freeRun p n).phys f ↔ A.free m.phys f ∨ p ≤ f ∧ f < p + n := by
    refine A.freePages_free fun f h₁ h₂ => ?_
    obtain ⟨ho, hb₁, hb₂, ha⟩ := hheld f ⟨h₁, h₂⟩
    refine ⟨hb₁, hb₂, fun hc => ?_, ha⟩
    rw [← h.paged.free, ho] at hc
    cases hc
  have harena : A.arena (m.freeRun p n).phys = A.arena m.phys := A.freePages_arena
  have hboot : ¬ (p ≤ A.bootPgdir ∧ A.bootPgdir < p + n) := fun hc => h.boot.2.1 (hS _ hc.1 hc.2)
  have href (f : Nat) (hf : ¬ (p ≤ f ∧ f < p + n)) : (m.freeRun p n).ref f = m.ref f := if_neg hf
  refine ⟨role', h.retag rfl rfl (fun f d q => hiff _ (by simp) (by simp) f) (hiff _ (by simp) (by simp)) (fun f => ?_)
    (fun f hf => ?_) (fun f hf => ?_) (fun f hf => href f fun hc => ?_) ⟨(hout _ hboot).trans h.boot.1,
      fun hc => h.boot.2.1 hc.1, harena ▸ h.boot.2.2⟩
    fun f hf => ?_⟩
  · rw [hfree, ← h.paged.free]
    by_cases hf : p ≤ f ∧ f < p + n
    · exact iff_of_true (hin f hf) (.inr hf)
    · rw [hout f hf, or_iff_left hf]
  · rw [harena]
    by_cases hc : p ≤ f ∧ f < p + n
    · exact (hheld f hc).2
    · rw [hout f hc] at hf
      exact h.paged.pool f hf
  · by_cases hc : p ≤ f ∧ f < p + n
    · exact if_pos hc
    · rw [href f hc]
      rw [hout f hc] at hf
      exact h.paged.unused f hf
  · rw [(hheld f hc).1] at hf
    cases hf
  · obtain ⟨ho, hpool⟩ := h.held f hf.1
    rw [harena]
    exact ⟨(hout f hf.2).trans ho, hpool⟩

end

namespace SpaceFrames
variable {A : PhysSys} {m m' : KMem A} {S S' : Nat → Prop}

/-- The frames of kernel stacks that are not used any more. -/
theorem mono {m : Mem A} (h : SpaceFrames S m) (hs : ∀ f, S' f → S f) : SpaceFrames S' m := by
  obtain ⟨role, hu⟩ := h.use
  exact ⟨⟨role, { hu with
    boot := ⟨hu.boot.1, fun hc => hu.boot.2.1 (hs _ hc), hu.boot.2.2⟩, held := fun f hf => hu.held f (hs f hf) }⟩,
    h.apart, h.low⟩

theorem kmallocProc (h : SpaceFrames S m.mem) (hr : m.kmallocProc = (r, m')) : Inside S none m.mem m'.mem := by
  obtain ⟨role, hu⟩ := h.use
  unfold KMem.kmallocProc at hr
  split at hr
  · rename_i p s hk
    cases hr
    exact h.apartFrom rfl (fun _ _ => rfl) (hu.kmalloc hk) (.of_frame rfl)
  · rename_i s hk
    cases hr
    obtain ⟨role', hu'⟩ := hu.kmalloc hk
    exact h.apartFrom rfl (fun _ _ => rfl) ⟨role', hu'.fail⟩ (.of_frame rfl)

theorem kfreeProc (h : SpaceFrames S m.mem) (p : Nat) : Inside S none m.mem (m.kfreeProc p).mem := by
  obtain ⟨role, hu⟩ := h.use
  unfold KMem.kfreeProc
  split
  · exact h.apartFrom rfl (fun _ _ => rfl) (hu.kfree p) (.of_frame rfl)
  · exact .refl h none

/-- A new kernel stack has frames of its own. -/
theorem allocKstack (h : SpaceFrames S m.mem) (hr : m.allocKstack = (r, m')) :
    r = none ∧ Inside S none m.mem m'.mem ∨ ∃ t, r = some (page2kva t) ∧ (∀ f, t ≤ f → f < t + kstackPage → ¬ S f) ∧
      Inside (fun f => S f ∨ t ≤ f ∧ f < t + kstackPage) none m.mem m'.mem := by
  obtain ⟨role, hu⟩ := h.use
  unfold KMem.allocKstack at hr
  split at hr
  · rename_i x m₁ ha
    cases hr
    have hs : SameSpaces m.mem m₁ := .allocPages ha
    rcases hu.allocRun ha with ⟨rfl, hu', hf⟩ | ⟨t, role', rfl, hf, hu', hnew⟩
    · exact .inl ⟨rfl, h.apartFrom hs.spaces (fun x _ => hs.map x) ⟨role, hu'⟩ (.of_frame hf)⟩
    · exact .inr ⟨t, rfl, hnew, h.apartFrom hs.spaces (fun x _ => hs.map x) ⟨role', hu'⟩ (.of_frame hf)⟩
  · cases hr
    exact .inl ⟨rfl, .refl h none⟩

theorem kva2page_page2kva (h : kva2page (page2kva t) = some p) : p = t := by
  unfold kva2page page2kva at h
  split at h
  · cases h
  · have hp := kva_some h
    rw [← hp, Nat.add_sub_cancel]
    exact Nat.mul_div_cancel _ (by decide)

theorem freeKstack (h : SpaceFrames S m.mem) (hS : ∀ f, t ≤ f → f < t + kstackPage → S f)
    (hr : m.freeKstack (page2kva t) = some m') :
    Inside (fun f => S f ∧ ¬ (t ≤ f ∧ f < t + kstackPage)) none m.mem m'.mem := by
  obtain ⟨role, hu⟩ := h.use
  obtain ⟨p, hp, hr⟩ := Option.map_eq_some_iff.1 hr
  cases hr
  obtain rfl := kva2page_page2kva hp
  exact h.apartFrom rfl (fun _ _ => rfl) (hu.freeRun hS) (.of_frame rfl)

/-- `copy_mm` works on no address space that there was before. -/
theorem copyMm (h : SpaceFrames S m.mem) (hx : ∀ x, old = some x → x ∈ m.mem.spaces)
    (hc : m.copyMm fl old = some ((ret, new), m')) : Inside S none m.mem m'.mem := by
  obtain ⟨hc, -, -⟩ := copyMm_eq hc
  obtain ⟨role, hu⟩ := h.use
  cases old with
  | none =>
    obtain ⟨-, hc⟩ := Prod.mk.inj (Option.some.inj hc)
    obtain ⟨-, hc⟩ := Prod.mk.inj hc
    rw [← hc]
    exact .refl h none
  | some x =>
    have hx := hx x rfl
    by_cases hv : fl &&& cloneVm = 0
    · refine h.created (copyMm_created m.ok hv hc) ?_
      exact hu.copyMm m.ok hv hx (fun d hd => mem_dirs.2 ⟨x, hx, hd⟩) (h.low x hx) hc
    · rw [Mem.copyMm, if_pos hv] at hc
      obtain ⟨-, -, hm, -⟩ := goodMm_shared m.ok hc
      rw [hm]
      refine h.apartFrom rfl (fun y _ => ?_) ⟨role, hu.setMm ..⟩ (.of_frame rfl)
      by_cases hy : y = x
      · rw [hy]
        exact congrArg (fun x => (x.1, x.2.1)) (mmCountInc_self m.mem x)
      · rw [mmCountInc_other m.mem hy]

theorem loadIcode (h : SpaceFrames S m.mem) (hl : m.loadIcode binary size = some ((ret, new), m')) :
    Inside S none m.mem m'.mem := by
  obtain ⟨ld, hload, rfl, -⟩ := loadIcode_eq hl
  obtain ⟨role, hu⟩ := h.use
  exact h.created (loadIcode_created m.ok hload) (hu.loadIcode hload)

theorem dropKMm (h : SpaceFrames S m.mem) (hd : m.dropMm x = some m') : Inside S (some x) m.mem m'.mem := by
  obtain ⟨hx, hd, -⟩ := dropMm_eq hd
  exact h.dropMm m.ok hx hd

theorem userCheck (h : SpaceFrames S m.mem) (hc : m.userMemCheck mm addr len w = (b, m')) :
    Inside S none m.mem m'.mem := by
  unfold KMem.userMemCheck at hc
  split at hc
  · rename_i x m₁ hm
    cases hc
    exact h.userMemCheck hm none
  · cases hc
    exact .refl h none

theorem readUser (h : SpaceFrames S m.mem) (hx : ∀ x, mm = some x → x ∈ m.mem.spaces)
    (hr : m.readUser mm addr len = some m') : Inside S mm m.mem m'.mem := by
  obtain ⟨hr, -⟩ := withMem_eq hr
  exact h.readBytes m.ok hx hr

theorem storeInt (h : SpaceFrames S m.mem) (hx : x ∈ m.mem.spaces) (ha : addr + 4 ≤ 2 ^ 38)
    (hr : m.storeInt (some x) addr v = some m') : Inside S (some x) m.mem m'.mem := by
  obtain ⟨hr, -⟩ := withMem_eq hr
  exact h.writeInt m.ok hx ha hr

theorem fault (h : SpaceFrames S m.mem) (hx : ∀ x, mm = some x → x ∈ m.mem.spaces)
    (hr : m.doPgfault mm cause addr = some (ret, m')) : Inside S mm m.mem m'.mem := by
  obtain ⟨hr, -⟩ := lift_eq hr
  exact h.pgfaultHandler m.ok hx hr

end SpaceFrames

end UCore
